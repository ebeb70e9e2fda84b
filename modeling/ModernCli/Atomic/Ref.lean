import Mathlib

/-!
# `atomic_ref<T>` under threads

`tycho::atomic_ref<T>` (`atomics.hpp`) gives atomic access to a plain integer `T&` of `w` bits.
Its operators are its six primitives: `++x` and `x++` are `fetch_add(1)`, `--x` and `x--`
`fetch_sub(1)`, `x += v` and `x -= v` `fetch_add(v)` and `fetch_sub(v)`, `x = v` is
`store(v)`, and the conversions and comparisons are `load()`. `++x` and `--x` return
`fetch_add(1) + 1` and `fetch_sub(1) - 1`, computed in `int` for a `T` narrower than `int`
(`AtomicRef.prefix_returns_stored_iff`).

Built with GCC or Clang, or with MSVC for a 4- or 8-byte `T`, each primitive is one atomic
builtin (`__atomic_*` or `_Interlocked*`), sequentially consistent. With MSVC for a 1- or
2-byte `T` the primitives fall back to plain accesses of `ref`: `fetch_add` reads `ref` into
`old`, then `ref += arg` reads and writes it; `exchange` reads, then writes;
`compare_exchange_strong` compares `ref` with `expected`, then writes `ref` or reads it again
into `expected`.

Threads call primitives on one `T`. A `Machine` is the value of `ref`, each thread's calls
and its place in the current one, and, as an observation, the calls finished so far in the
order they finished, with what each returned. `Machine.step` is one access of `ref` by one
thread: a whole primitive in the atomic build, one plain access in the fallback. A schedule is
the list of threads in the order of their accesses.

* `AtomicRef.atomic_no_lost_update`: in the atomic build, under every schedule of threads that
  only add and subtract, `ref` is its first value plus the finished calls' net change.
* `AtomicRef.atomic_fetch_add_distinct`: in the atomic build, `fetch_add(1)`s hand out
  distinct values, under every schedule, until `2 ^ w` of them have finished.
* `AtomicRef.atomic_one_cas_wins`: in the atomic build, of calls that all try to replace the
  same `expected` with another value, at most one succeeds.
* `AtomicRef.fallback_calls_alone`: the fallback makes the same calls as the atomic build when
  no two calls overlap.
  When two calls overlap in the fallback, an increment can be lost, and two
  `compare_exchange_strong` on the same `expected` can both succeed.
* `AtomicRef.fallback_never_invents`: in the fallback, under every schedule of threads that
  only add and subtract, `ref` is its first value plus the changes of some of the finished
  calls, each at most once: updates are lost, never applied twice.
-/

namespace ModernCli

namespace AtomicRef

variable {w n : Nat}

/-- A primitive of `atomic_ref<T>` as a thread calls it, `T` of `w` bits. -/
inductive Call (w : Nat) where
  | store (value : BitVec w)
  | load
  | exchange (value : BitVec w)
  | compareExchange (expected value : BitVec w)
  | fetchAdd (arg : BitVec w)
  | fetchSub (arg : BitVec w)
  deriving DecidableEq, Repr

/-- What a primitive returned: nothing (`store`), a value, or the `bool` of
`compare_exchange_strong` with `expected` after it. -/
inductive Result (w : Nat) where
  | none
  | value (v : BitVec w)
  | cas (ok : Bool) (expected : BitVec w)
  deriving DecidableEq, Repr

/-- A primitive in the atomic build: `ref` after it and what it returned. On failure
`compare_exchange_strong` stores the value it found into `expected`. -/
def Call.atomic (ref : BitVec w) : Call w → BitVec w × Result w
  | .store v => (v, .none)
  | .load => (ref, .value ref)
  | .exchange v => (v, .value ref)
  | .compareExchange e v => if ref = e then (v, .cas true e) else (ref, .cas false ref)
  | .fetchAdd a => (ref + a, .value ref)
  | .fetchSub a => (ref - a, .value ref)

/-- `++x`: `fetch_add(1) + 1`, for an unsigned `T` of `w` bits. The `T` that `fetch_add`
returns is promoted to `int` when `T` is narrower than `int` (`w < 32`), so the sum does not
wrap; a `T` at least as wide is added in its own unsigned arithmetic. -/
def preIncrement (old : BitVec w) : Int :=
  if w < 32 then old.toNat + 1 else (old + 1).toNat

/-- `--x`: `fetch_sub(1) - 1`, promoted as in `++x`. -/
def preDecrement (old : BitVec w) : Int :=
  if w < 32 then (old.toNat : Int) - 1 else (old - 1).toNat

theorem toNat_add_one (x : BitVec w) :
    (x + 1).toNat = if x.toNat + 1 < 2 ^ w then x.toNat + 1 else 0 := by
  have hx := x.isLt
  rw [BitVec.toNat_add, show (1 : BitVec w).toNat = 1 % 2 ^ w from BitVec.toNat_ofNat 1 w]
  split_ifs with h
  · rw [Nat.mod_eq_of_lt (show 1 < 2 ^ w by omega), Nat.mod_eq_of_lt h]
  · rcases Nat.lt_or_ge 1 (2 ^ w) with h2 | h2
    · rw [Nat.mod_eq_of_lt h2, show x.toNat + 1 = 2 ^ w by omega, Nat.mod_self]
    · rw [show 2 ^ w = 1 by have := Nat.one_le_two_pow (n := w); omega, Nat.mod_one]

theorem toNat_sub_one (x : BitVec w) :
    (x - 1).toNat = if 0 < x.toNat then x.toNat - 1 else 2 ^ w - 1 := by
  have hx := x.isLt
  rw [BitVec.toNat_sub, show (1 : BitVec w).toNat = 1 % 2 ^ w from BitVec.toNat_ofNat 1 w]
  rcases Nat.lt_or_ge 1 (2 ^ w) with h2 | h2
  · rw [Nat.mod_eq_of_lt h2]
    split_ifs with h
    · rw [show 2 ^ w - 1 + x.toNat = x.toNat - 1 + 2 ^ w by omega, Nat.add_mod_right,
        Nat.mod_eq_of_lt (by omega)]
    · rw [show x.toNat = 0 by omega, Nat.add_zero, Nat.mod_eq_of_lt (by omega)]
  · simp only [show 2 ^ w = 1 by have := Nat.one_le_two_pow (n := w); omega, Nat.mod_one]
    split_ifs <;> omega

example : preIncrement (255 : BitVec 8) = 256 ∧ preDecrement (0 : BitVec 8) = -1 := by decide

/-- Where a thread is inside a primitive of the fallback. -/
inductive Stage (w : Nat) where
  /-- Before its first access of `ref`. -/
  | start
  /-- After `T old = ref`, or after reading `ref` for `ref == expected`. -/
  | read (old : BitVec w)
  /-- In `fetch_add` or `fetch_sub`, after `ref += arg` (`ref -= arg`) read `ref`. -/
  | reread (old cur : BitVec w)
  deriving DecidableEq, Repr

/-- One plain access of `ref` by a primitive in the fallback: `ref` after it, and the thread's
next stage or what the primitive returned. A stage that a primitive never reaches is read as
its last one. -/
def Call.fallback (ref : BitVec w) : Call w → Stage w → BitVec w × (Stage w ⊕ Result w)
  | .store v, _ => (v, .inr .none)
  | .load, _ => (ref, .inr (.value ref))
  | .exchange _, .start => (ref, .inl (.read ref))
  | .exchange v, .read old | .exchange v, .reread old _ => (v, .inr (.value old))
  | .compareExchange _ _, .start => (ref, .inl (.read ref))
  | .compareExchange e v, .read cur | .compareExchange e v, .reread _ cur =>
    if cur = e then (v, .inr (.cas true e)) else (ref, .inr (.cas false ref))
  | .fetchAdd _, .start | .fetchSub _, .start => (ref, .inl (.read ref))
  | .fetchAdd _, .read old | .fetchSub _, .read old => (ref, .inl (.reread old ref))
  | .fetchAdd a, .reread old cur => (cur + a, .inr (.value old))
  | .fetchSub a, .reread old cur => (cur - a, .inr (.value old))

/-- How `atomic_ref<T>` is compiled. -/
inductive Build where
  /-- GCC or Clang, or MSVC for a 4- or 8-byte `T`: one atomic access per primitive. -/
  | atomic
  /-- MSVC for a 1- or 2-byte `T`: plain accesses. -/
  | fallback
  deriving DecidableEq, Repr

/-- One access of `ref` by a primitive at `stage`, as `build` compiles it. -/
def Call.access (c : Call w) : Build → BitVec w → Stage w → BitVec w × (Stage w ⊕ Result w)
  | .atomic, ref, _ => ((c.atomic ref).1, .inr (c.atomic ref).2)
  | .fallback, ref, stage => c.fallback ref stage

/-- A thread: the calls it has still to make, the current one first, and its place in it. -/
structure Thread (w : Nat) where
  calls : List (Call w)
  stage : Stage w

/-- Threads sharing one `T` through `atomic_ref`: the value `ref`, the threads, and the calls
finished so far in the order they finished, each with its thread and what it returned. -/
structure Machine (w n : Nat) where
  ref : BitVec w
  threads : Fin n → Thread w
  log : List (Fin n × Call w × Result w)

namespace Machine

/-- Threads about to make the calls `progs` on a `T` holding `init`. -/
def start (init : BitVec w) (progs : Fin n → List (Call w)) : Machine w n :=
  ⟨init, fun t => ⟨progs t, .start⟩, []⟩

/-- Thread `t` makes one access of `ref`; a thread with no call left does nothing. -/
def step (build : Build) (m : Machine w n) (t : Fin n) : Machine w n :=
  match (m.threads t).calls with
  | [] => m
  | c :: cs =>
    match c.access build m.ref (m.threads t).stage with
    | (ref, .inl stage) => ⟨ref, Function.update m.threads t ⟨c :: cs, stage⟩, m.log⟩
    | (ref, .inr r) => ⟨ref, Function.update m.threads t ⟨cs, .start⟩, m.log ++ [(t, c, r)]⟩

/-- The threads' accesses in the order of the schedule `sched`. -/
def run (build : Build) (m : Machine w n) (sched : List (Fin n)) : Machine w n :=
  sched.foldl (step build) m

@[simp] theorem run_nil (build : Build) (m : Machine w n) : m.run build [] = m := rfl

@[simp] theorem run_cons (build : Build) (m : Machine w n) (t : Fin n) (sched : List (Fin n)) :
    m.run build (t :: sched) = (m.step build t).run build sched := rfl

end Machine

/-! ## Invariants of whole runs -/

namespace Machine

variable {m : Machine w n}

/-- Every call the threads have still to make, and every finished one, satisfies `P`. -/
def CallsSatisfy (P : Call w → Prop) (m : Machine w n) : Prop :=
  (∀ t, ∀ c ∈ (m.threads t).calls, P c) ∧ ∀ x ∈ m.log, P x.2.1

theorem callsSatisfy_start {P : Call w → Prop} (init : BitVec w) {progs : Fin n → List (Call w)}
    (h : ∀ t, ∀ c ∈ progs t, P c) : (start init progs).CallsSatisfy P :=
  ⟨h, fun _ hx => absurd hx (List.not_mem_nil _)⟩

theorem CallsSatisfy.step {P : Call w → Prop} (h : m.CallsSatisfy P) (build : Build) (t : Fin n) :
    (m.step build t).CallsSatisfy P := by
  unfold Machine.step
  split
  · exact h
  · rename_i c cs hcs
    have hc : ∀ c' ∈ c :: cs, P c' := hcs ▸ h.1 t
    split
    · refine ⟨fun t' => ?_, h.2⟩
      dsimp only
      rw [Function.update_apply]
      split_ifs
      · exact hc
      · exact h.1 t'
    · refine ⟨fun t' => ?_, fun x hx => ?_⟩
      · dsimp only
        rw [Function.update_apply]
        split_ifs
        · exact fun c' hc' => hc c' (List.mem_cons_of_mem c hc')
        · exact h.1 t'
      · rcases List.mem_append.1 hx with hx | hx
        · exact h.2 x hx
        · rw [List.mem_singleton.1 hx]; exact hc c (List.mem_cons_self c cs)

theorem CallsSatisfy.run {P : Call w → Prop} (h : m.CallsSatisfy P) (build : Build)
    (sched : List (Fin n)) : (m.run build sched).CallsSatisfy P := by
  induction sched generalizing m with
  | nil => exact h
  | cons t sched ih => exact ih (h.step build t)

end Machine

/-! ## The atomic build is its calls one after the other -/

/-- `atomic_ref` used by one thread: the calls one after the other from `ref`, with what each
returned. -/
def replay (ref : BitVec w) : List (Call w) → BitVec w × List (Result w)
  | [] => (ref, [])
  | c :: cs => ((replay (c.atomic ref).1 cs).1, (c.atomic ref).2 :: (replay (c.atomic ref).1 cs).2)

theorem replay_append_singleton (ref : BitVec w) (cs : List (Call w)) (c : Call w) :
    replay ref (cs ++ [c]) =
      ((c.atomic (replay ref cs).1).1, (replay ref cs).2 ++ [(c.atomic (replay ref cs).1).2]) := by
  induction cs generalizing ref with
  | nil => rfl
  | cons c' cs ih => rw [List.cons_append, replay, replay, ih]; rfl

namespace Machine

variable {m : Machine w n} {init : BitVec w}

/-- The finished calls, replayed from `init` in the order they finished, return what they
returned and leave `ref`. -/
def Replays (init : BitVec w) (m : Machine w n) : Prop :=
  replay init (m.log.map fun x => x.2.1) = (m.ref, m.log.map fun x => x.2.2)

theorem replays_start (init : BitVec w) (progs : Fin n → List (Call w)) :
    (start init progs).Replays init := rfl

theorem Replays.step (h : m.Replays init) (t : Fin n) : (m.step .atomic t).Replays init := by
  unfold Machine.step
  split
  · exact h
  · rename_i c cs _
    simp only [Call.access]
    unfold Replays at h ⊢
    simp only [List.map_append, List.map_cons, List.map_nil]
    rw [replay_append_singleton, h]

theorem Replays.run (h : m.Replays init) (sched : List (Fin n)) :
    (m.run .atomic sched).Replays init := by
  induction sched generalizing m with
  | nil => exact h
  | cons t sched ih => exact ih (h.step t)

end Machine

/-! ## No lost update, distinct tickets, one winner -/

/-- `fetch_add` or `fetch_sub`: `++`, `--`, `+=` and `-=`. -/
def Call.isAddSub : Call w → Bool
  | .fetchAdd _ | .fetchSub _ => true
  | _ => false

/-- What a call adds to `ref`: `arg` for `fetch_add`, `-arg` for `fetch_sub`. -/
def Call.delta : Call w → BitVec w
  | .fetchAdd a => a
  | .fetchSub a => -a
  | _ => 0

theorem replay_addSub (ref : BitVec w) (cs : List (Call w)) (h : ∀ c ∈ cs, c.isAddSub = true) :
    (replay ref cs).1 = ref + (cs.map Call.delta).sum := by
  induction cs generalizing ref with
  | nil => simp [replay]
  | cons c cs ih =>
    rw [replay, ih _ fun c' hc' => h c' (List.mem_cons_of_mem c hc'), List.map_cons, List.sum_cons]
    have hc := h c (List.mem_cons_self c cs)
    cases c <;> simp only [Call.isAddSub, reduceCtorEq] at hc <;>
      simp only [Call.atomic, Call.delta] <;> ring

theorem atomic_no_lost_update (init : BitVec w) (progs : Fin n → List (Call w))
    (sched : List (Fin n)) (hprogs : ∀ t, ∀ c ∈ progs t, c.isAddSub = true) :
    ((Machine.start init progs).run .atomic sched).ref =
      init + (((Machine.start init progs).run .atomic sched).log.map fun x => x.2.1.delta).sum := by
  have hr := (Machine.replays_start init progs).run sched
  have hc := ((Machine.callsSatisfy_start init hprogs).run .atomic sched).2
  rw [← (Prod.mk.inj hr).1, replay_addSub _ _ fun c hc' => ?_, List.map_map]
  · rfl
  · obtain ⟨x, hx, rfl⟩ := List.mem_map.1 hc'
    exact hc x hx

/-- A `fetch_add(5)` and a `fetch_sub(9)` on a 4-bit `T` holding 3, the second thread first. -/
theorem atomic_no_lost_update_two :
    (∀ t, ∀ c ∈ (![[.fetchAdd 5], [.fetchSub 9]] : Fin 2 → List (Call 4)) t, c.isAddSub = true) ∧
      ((Machine.start (3 : BitVec 4) ![[.fetchAdd 5], [.fetchSub 9]]).run .atomic [1, 0]).ref =
        3 + (((Machine.start (3 : BitVec 4) ![[.fetchAdd 5], [.fetchSub 9]]).run .atomic [1, 0]).log.map
          fun x => x.2.1.delta).sum :=
  ⟨by decide, atomic_no_lost_update _ _ _ (by decide)⟩

/-- A `fetch_add(5)` and a `fetch_sub(9)` on a 4-bit `T` holding 3: 3 + 5 - 9 wraps to 15. -/
example : (((Machine.start (3 : BitVec 4) ![[.fetchAdd 5], [.fetchSub 9]]).run .atomic
    [1, 0]).ref) = 15 := by decide

/-- `k` calls of `fetch_add(1)` in a row hand out `ref`, `ref + 1`, ... -/
theorem replay_fetchAdd_one (ref : BitVec w) (k : Nat) :
    replay ref (List.replicate k (.fetchAdd 1)) =
      (ref + k, (List.range k).map fun i => .value (ref + i)) := by
  induction k generalizing ref with
  | zero => simp [replay]
  | succ k ih =>
    rw [List.replicate_succ, replay, ih, List.range_succ_eq_map, List.map_cons, List.map_map]
    simp only [Call.atomic, Nat.cast_zero, add_zero, Nat.cast_succ, Function.comp_def,
      Prod.mk.injEq, List.cons.injEq, true_and]
    constructor
    · ring
    · exact List.map_congr_left fun i _ => by rw [add_assoc, add_comm 1]

theorem atomic_fetch_add_distinct (init : BitVec w) (progs : Fin n → List (Call w))
    (sched : List (Fin n)) (hprogs : ∀ t, ∀ c ∈ progs t, c = .fetchAdd 1)
    (hlen : ((Machine.start init progs).run .atomic sched).log.length ≤ 2 ^ w) :
    (((Machine.start init progs).run .atomic sched).log.map fun x => x.2.2).Nodup := by
  have hr := (Machine.replays_start init progs).run sched
  have hc := ((Machine.callsSatisfy_start init hprogs).run .atomic sched).2
  have hcalls : (((Machine.start init progs).run .atomic sched).log.map fun x => x.2.1) =
      List.replicate (((Machine.start init progs).run .atomic sched).log.length) (.fetchAdd 1) := by
    rw [List.eq_replicate_iff, List.length_map]
    refine ⟨rfl, fun c hc' => ?_⟩
    obtain ⟨x, hx, rfl⟩ := List.mem_map.1 hc'
    exact hc x hx
  rw [← (Prod.mk.inj hr).2, hcalls, replay_fetchAdd_one]
  refine (List.nodup_range _).map_on fun i hi j hj hij => ?_
  rw [List.mem_range] at hi hj
  have h := congrArg BitVec.toNat (add_left_cancel (Result.value.inj hij))
  rwa [BitVec.natCast_eq_ofNat, BitVec.natCast_eq_ofNat, BitVec.toNat_ofNat, BitVec.toNat_ofNat,
    Nat.mod_eq_of_lt (by omega), Nat.mod_eq_of_lt (by omega)] at h

/-- A `compare_exchange_strong` that tries to replace `e` with another value. -/
def Call.replaces (e : BitVec w) : Call w → Bool
  | .compareExchange e' v => e' == e && v != e
  | _ => false

/-- A `compare_exchange_strong` that succeeded. -/
def Result.won : Result w → Bool
  | .cas ok _ => ok
  | _ => false

/-- Calls that replace `e`, one after the other: at most one succeeds, and none unless `ref`
starts at `e`. -/
theorem replay_replaces (e ref : BitVec w) (cs : List (Call w))
    (h : ∀ c ∈ cs, c.replaces e = true) :
    (replay ref cs).2.countP Result.won ≤ if ref = e then 1 else 0 := by
  induction cs generalizing ref with
  | nil => exact Nat.zero_le _
  | cons c cs ih =>
    have hrest := fun r => ih r fun c' hc' => h c' (List.mem_cons_of_mem c hc')
    cases c with
    | compareExchange e' v =>
      have hc := h _ (List.mem_cons_self _ cs)
      simp only [Call.replaces, Bool.and_eq_true, beq_iff_eq, bne_iff_ne, ne_eq] at hc
      obtain ⟨rfl, hv⟩ := hc
      by_cases href : ref = e'
      · have := hrest v
        simp only [replay, Call.atomic, if_pos href, List.countP_cons, Result.won, if_neg hv,
          ↓reduceIte] at this ⊢
        omega
      · have := hrest ref
        simp only [replay, Call.atomic, if_neg href, List.countP_cons, Result.won,
          Bool.false_eq_true, ↓reduceIte] at this ⊢
        omega
    | _ => simp [Call.replaces] at h

/-- Three `fetch_add(1)` on a 2-bit `T` from two threads, interleaved. -/
theorem atomic_fetch_add_distinct_three :
    (∀ t, ∀ c ∈ (![[.fetchAdd 1], [.fetchAdd 1, .fetchAdd 1]] : Fin 2 → List (Call 2)) t,
        c = .fetchAdd 1) ∧
      ((Machine.start (0 : BitVec 2) ![[.fetchAdd 1], [.fetchAdd 1, .fetchAdd 1]]).run .atomic
        [1, 0, 1]).log.length ≤ 2 ^ 2 ∧
      (((Machine.start (0 : BitVec 2) ![[.fetchAdd 1], [.fetchAdd 1, .fetchAdd 1]]).run .atomic
        [1, 0, 1]).log.map
        fun x => x.2.2).Nodup :=
  ⟨by decide, by decide, atomic_fetch_add_distinct _ _ _ (by decide) (by decide)⟩

theorem atomic_one_cas_wins (e : BitVec w) (progs : Fin n → List (Call w)) (sched : List (Fin n))
    (hprogs : ∀ t, ∀ c ∈ progs t, c.replaces e = true) :
    ((Machine.start e progs).run .atomic sched).log.countP (fun x => x.2.2.won) ≤ 1 := by
  have hr := (Machine.replays_start e progs).run sched
  have hc := ((Machine.callsSatisfy_start e hprogs).run .atomic sched).2
  have h := replay_replaces e e _ fun c hc' => by
    obtain ⟨x, hx, rfl⟩ := List.mem_map.1 hc'
    exact hc x hx
  rw [(Prod.mk.inj hr).2, List.countP_map, if_pos rfl] at h
  exact h

/-- Two threads trying to replace 0, with 1 and with 2. -/
theorem atomic_one_cas_wins_two :
    (∀ t, ∀ c ∈ (![[.compareExchange 0 1], [.compareExchange 0 2]] : Fin 2 → List (Call 2)) t,
        c.replaces 0 = true) ∧
      ((Machine.start (0 : BitVec 2) ![[.compareExchange 0 1], [.compareExchange 0 2]]).run .atomic
        [1, 0]).log.countP (fun x => x.2.2.won) ≤ 1 :=
  ⟨by decide, atomic_one_cas_wins _ _ _ (by decide)⟩

/-! ## The fallback -/

/-- The accesses of `ref` a primitive makes: one in the atomic build; in the fallback one for
`store` and `load`, two for `exchange` and `compare_exchange_strong`, three for `fetch_add` and
`fetch_sub`. -/
def Call.accesses : Build → Call w → Nat
  | .atomic, _ => 1
  | .fallback, .store _ | .fallback, .load => 1
  | .fallback, .exchange _ | .fallback, .compareExchange _ _ => 2
  | .fallback, .fetchAdd _ | .fallback, .fetchSub _ => 3

namespace Machine

/-- Thread `t` runs its current call to the end, its accesses one after the other. -/
def runCall (build : Build) (m : Machine w n) (t : Fin n) : Machine w n :=
  match (m.threads t).calls with
  | [] => m
  | c :: _ => m.run build (List.replicate (c.accesses build) t)

/-- The threads run one call each, in the order `order`, no two calls overlapping. -/
def runCalls (build : Build) (m : Machine w n) (order : List (Fin n)) : Machine w n :=
  order.foldl (runCall build) m

/-- No thread is inside a call. -/
def Idle (m : Machine w n) : Prop := ∀ t, (m.threads t).stage = .start

theorem idle_start (init : BitVec w) (progs : Fin n → List (Call w)) : (start init progs).Idle :=
  fun _ => rfl

theorem Idle.step_atomic {m : Machine w n} (h : m.Idle) (t : Fin n) : (m.step .atomic t).Idle := by
  intro t'
  unfold Machine.step
  split
  · exact h t'
  · dsimp only [Call.access]
    rw [Function.update_apply]
    split_ifs
    · rfl
    · exact h t'

/-- A call of the fallback whose accesses run one after the other is the atomic call. -/
theorem fallback_alone (m : Machine w n) {t : Fin n} {c : Call w} {cs : List (Call w)}
    (h : m.threads t = ⟨c :: cs, .start⟩) :
    m.run .fallback (List.replicate (c.accesses .fallback) t) = m.step .atomic t := by
  cases c with
  | compareExchange e v =>
    by_cases he : m.ref = e <;>
      simp [Call.accesses, Machine.step, h, Call.access, Call.fallback, Call.atomic, he]
  | _ => simp [Call.accesses, Machine.step, h, Call.access, Call.fallback, Call.atomic]

theorem Idle.runCall_fallback {m : Machine w n} (h : m.Idle) (t : Fin n) :
    m.runCall .fallback t = m.step .atomic t := by
  unfold runCall
  split
  · rename_i hc; unfold Machine.step; rw [hc]
  · rename_i c cs hc
    exact fallback_alone m (show m.threads t = ⟨c :: cs, .start⟩ by rw [← hc, ← h t])

theorem Idle.runCalls_fallback {m : Machine w n} (h : m.Idle) (order : List (Fin n)) :
    m.runCalls .fallback order = m.run .atomic order := by
  induction order generalizing m with
  | nil => rfl
  | cons t order ih =>
    show (m.runCall .fallback t).runCalls .fallback order = _
    rw [h.runCall_fallback, ih (h.step_atomic t)]
    rfl

end Machine

theorem fallback_calls_alone (init : BitVec w) (progs : Fin n → List (Call w))
    (order : List (Fin n)) :
    (Machine.start init progs).runCalls .fallback order = (Machine.start init progs).run .atomic order :=
  (Machine.idle_start init progs).runCalls_fallback order

/-- Two overlapping `compare_exchange_strong(0, _)` on a 4-bit `T` holding 0 both succeed. -/
example : ((Machine.start (0 : BitVec 4) ![[.compareExchange 0 1], [.compareExchange 0 2]]).run
    .fallback [0, 1, 0, 1]).log.countP (fun x => x.2.2.won) = 2 := by decide

/-! ## What the fallback never does -/

/-- `v` is `init` plus the changes of some of the finished calls `log`, each at most once. -/
def SumOf (init : BitVec w) (log : List (Fin n × Call w × Result w)) (v : BitVec w) : Prop :=
  ∃ s : List (Fin n × Call w × Result w), s.Sublist log ∧ v = init + (s.map fun x => x.2.1.delta).sum

theorem SumOf.mono {init v : BitVec w} {log log' : List (Fin n × Call w × Result w)}
    (h : SumOf init log v) (hl : log.Sublist log') : SumOf init log' v := by
  obtain ⟨s, hs, rfl⟩ := h
  exact ⟨s, hs.trans hl, rfl⟩

theorem SumOf.append {init v : BitVec w} {log : List (Fin n × Call w × Result w)}
    (h : SumOf init log v) (x : Fin n × Call w × Result w) :
    SumOf init (log ++ [x]) (v + x.2.1.delta) := by
  obtain ⟨s, hs, rfl⟩ := h
  exact ⟨s ++ [x], hs.append (List.Sublist.refl _), by simp [add_assoc]⟩

namespace Machine

/-- `ref`, and what each thread inside `ref += arg` read, are `init` plus the changes of some
of the finished calls. -/
structure Bounded (init : BitVec w) (m : Machine w n) : Prop where
  ref : SumOf init m.log m.ref
  cur : ∀ t old cur, (m.threads t).stage = .reread old cur → SumOf init m.log cur

theorem bounded_start (init : BitVec w) (progs : Fin n → List (Call w)) :
    (start init progs).Bounded init :=
  ⟨⟨[], List.nil_sublist _, by simp [start]⟩, fun _ _ _ h => nomatch h⟩

/-- A step of the fallback that only moves a thread to `stage` and leaves `ref` and the log
keeps the bound when the new stage reads `ref`. -/
theorem Bounded.move {init : BitVec w} {m : Machine w n} (h : m.Bounded init) {t : Fin n}
    {th : Thread w} (hth : ∀ old cur, th.stage = .reread old cur → SumOf init m.log cur) :
    (⟨m.ref, Function.update m.threads t th, m.log⟩ : Machine w n).Bounded init := by
  refine ⟨h.ref, fun t' old cur hs => ?_⟩
  dsimp only at hs ⊢
  by_cases ht : t' = t
  · subst ht
    rw [Function.update_same] at hs
    exact hth old cur hs
  · rw [Function.update_noteq ht] at hs
    exact h.cur t' old cur hs

theorem Bounded.step {init : BitVec w} {m : Machine w n} (h : m.Bounded init)
    (hc : m.CallsSatisfy fun c => c.isAddSub = true) (t : Fin n) :
    (m.step .fallback t).Bounded init := by
  unfold Machine.step
  split
  · exact h
  · rename_i c cs hcs
    have hadd : c.isAddSub = true := hc.1 t c (hcs ▸ List.mem_cons_self c cs)
    have hcur := h.cur t
    revert hcur
    cases hst : (m.threads t).stage with
    | start =>
      intro _
      cases c <;> simp only [Call.isAddSub, reduceCtorEq] at hadd <;>
        exact h.move fun _ _ hs => nomatch hs
    | read old =>
      intro _
      cases c <;> simp only [Call.isAddSub, reduceCtorEq] at hadd <;>
        exact h.move fun _ _ hs => by cases hs; exact h.ref
    | reread old cur =>
      intro hcur
      have hsum := (hcur old cur rfl).append (t, c, .value old)
      cases c <;> simp only [Call.isAddSub, reduceCtorEq] at hadd
      all_goals
        simp only [Call.access, Call.fallback]
        refine ⟨by simpa [Call.delta, sub_eq_add_neg] using hsum, fun t' old' cur' hs => ?_⟩
        dsimp only at hs ⊢
        by_cases ht : t' = t
        · subst ht; rw [Function.update_same] at hs; nomatch hs
        · rw [Function.update_noteq ht] at hs
          exact (h.cur t' old' cur' hs).mono (List.sublist_append_left _ _)

theorem Bounded.run {init : BitVec w} {m : Machine w n} (h : m.Bounded init)
    (hc : m.CallsSatisfy fun c => c.isAddSub = true) (sched : List (Fin n)) :
    (m.run .fallback sched).Bounded init := by
  induction sched generalizing m with
  | nil => exact h
  | cons t sched ih => exact ih (h.step hc t) (hc.step .fallback t)

end Machine

theorem fallback_never_invents (init : BitVec w) (progs : Fin n → List (Call w))
    (sched : List (Fin n)) (hprogs : ∀ t, ∀ c ∈ progs t, c.isAddSub = true) :
    ∃ s : List (Fin n × Call w × Result w),
      s.Sublist ((Machine.start init progs).run .fallback sched).log ∧
      ((Machine.start init progs).run .fallback sched).ref =
        init + (s.map fun x => x.2.1.delta).sum :=
  ((Machine.bounded_start init progs).run (Machine.callsSatisfy_start init hprogs) sched).ref

/-- Two overlapping increments on a 4-bit `T` holding 0, `fetch_add(1)` and `fetch_add(2)`:
both return 0 and the value ends at 2, the changes of the second call alone. -/
theorem fallback_never_invents_lost :
    (∀ t, ∀ c ∈ (![[.fetchAdd 1], [.fetchAdd 2]] : Fin 2 → List (Call 4)) t, c.isAddSub = true) ∧
      (∃ s : List (Fin 2 × Call 4 × Result 4),
        s.Sublist ((Machine.start (0 : BitVec 4) ![[.fetchAdd 1], [.fetchAdd 2]]).run .fallback
          [0, 0, 1, 1, 0, 1]).log ∧
        ((Machine.start (0 : BitVec 4) ![[.fetchAdd 1], [.fetchAdd 2]]).run .fallback
          [0, 0, 1, 1, 0, 1]).ref = 0 + (s.map fun x => x.2.1.delta).sum) ∧
      ((Machine.start (0 : BitVec 4) ![[.fetchAdd 1], [.fetchAdd 2]]).run .fallback
        [0, 0, 1, 1, 0, 1]).ref = 2 ∧
      (((Machine.start (0 : BitVec 4) ![[.fetchAdd 1], [.fetchAdd 2]]).run .fallback
        [0, 0, 1, 1, 0, 1]).log.map fun x => x.2.2) = [.value 0, .value 0] :=
  ⟨by decide, fallback_never_invents _ _ _ (by decide), by decide, by decide⟩

end AtomicRef

end ModernCli
