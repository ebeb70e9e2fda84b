import Mathlib
import ModernCli.Atomic.Stack

/-!
# `stack_t` under threads

Every call on a `stack_t` makes two accesses. `push` claims a slot with `count_.fetch_add(1)`,
then either rolls the counter back with `fetch_sub(1)`, when the value it got is not below
`S`, or writes `data_[count]`. `pop` and `pull` claim with `count_.fetch_sub(1)`, then roll
back with `fetch_add(1)`, when the value they got is negative, or read `data_[count]`.

Threads interleave these accesses, sequentially consistent. A `Shared` is the object, each
thread's calls not begun and the call it is in, with the value its claim returned, and, as an
observation, the calls finished so far, in the order they finished, each with that value and
its result. A schedule is the list of threads in the order of their accesses; `none` is an
access outside `data_`.

* `Stack.concurrent_pushes_fill_slots`: under every schedule of threads that only push, from
  an empty stack, with `S` plus the number of threads within `int`: no access leaves
  `data_`, the successful pushes write distinct slots, and every item written is still in
  its slot. When no call is in flight, `count_` is the number of successful pushes, that is
  the number of finished pushes capped at `S`, and their slots are `0 .. count_ - 1`.
* `Stack.concurrent_stack_overfills`: with pops among the pushes neither holds. For every `S`
  within `int`, four threads have a schedule that ends with no call in flight, `count_` at
  `S + 1`, and two successful pushes on one slot.
-/

namespace ModernCli

namespace Stack

variable {T : Type} {S n : Nat}

/-! ## Two accesses a call -/

/-- What a call returned: `push`'s `bool`, `pop`'s `std::optional<T>`, and `pull`'s `bool`
with the item it stored. -/
inductive Result (T : Type) where
  | push (ok : Bool)
  | pop (item : Option T)
  | pull (ok : Bool) (item : Option T)
  deriving DecidableEq, Repr

/-- A call on the object alone, with its result. -/
def call (s : Stack T S) : Call T → Option (Stack T S × Result T)
  | .push item => (s.push item).map fun r => (r.1, .push r.2)
  | .pop => s.pop.map fun r => (r.1, .pop r.2)
  | .pull => s.pull.map fun r => (r.1, .pull r.2.1 r.2.2)

/-- The first access of a call: `count_.fetch_add(1)` in `push`, `count_.fetch_sub(1)` in
`pop` and `pull`. -/
def Call.claim (c : Call T) (s : Stack T S) : Stack T S :=
  match c with
  | .push _ => ⟨wrap32 (s.count + 1), s.data, wrap32_range _⟩
  | .pop | .pull => ⟨wrap32 (s.count - 1), s.data, wrap32_range _⟩

/-- The second access of a call whose claim returned `count`: the roll-back of the counter,
or the write or read of `data_[count]`, `none` outside `data_`. -/
def Call.finish (c : Call T) (s : Stack T S) (count : Int) : Option (Stack T S × Result T) :=
  match c with
  | .push item =>
    if S ≤ toSize count then some (⟨wrap32 (s.count - 1), s.data, wrap32_range _⟩, .push false)
    else (slot? count).map fun i =>
      (⟨s.count, Function.update s.data i item, s.count_range⟩, .push true)
  | .pop =>
    if count < 0 then some (⟨wrap32 (s.count + 1), s.data, wrap32_range _⟩, .pop none)
    else (slot? count).map fun i => (s, .pop (some (s.data i)))
  | .pull =>
    if count < 0 then some (⟨wrap32 (s.count + 1), s.data, wrap32_range _⟩, .pull false none)
    else (slot? count).map fun i => (s, .pull true (some (s.data i)))

/-- A thread: the calls it has not begun, and the call it is in with the value its claim
returned. -/
structure Thread (T : Type) where
  calls : List (Call T)
  current : Option (Call T × Int)

/-- A `stack_t` that `n` threads call. -/
structure Shared (T : Type) (S n : Nat) where
  stack : Stack T S
  threads : Fin n → Thread T
  /-- The calls finished so far, each with its thread, the value its claim returned and its
  result. -/
  log : List (Fin n × Call T × Int × Result T)

namespace Shared

/-- The object `s`, and threads that are to make the calls `progs`. -/
def start (s : Stack T S) (progs : Fin n → List (Call T)) : Shared T S n :=
  ⟨s, fun t => ⟨progs t, none⟩, []⟩

/-- One access by thread `t`. -/
def step (m : Shared T S n) (t : Fin n) : Option (Shared T S n) :=
  match (m.threads t).current with
  | none => match (m.threads t).calls with
    | [] => some m
    | c :: cs => some ⟨c.claim m.stack, Function.update m.threads t ⟨cs, some (c, m.stack.count)⟩,
        m.log⟩
  | some (c, k) => (c.finish m.stack k).map fun r =>
      ⟨r.1, Function.update m.threads t ⟨(m.threads t).calls, none⟩, m.log ++ [(t, c, k, r.2)]⟩

/-- The accesses of the threads `sched`, in order. -/
def run (m : Shared T S n) : List (Fin n) → Option (Shared T S n)
  | [] => some m
  | t :: ts => (m.step t).bind fun m' => m'.run ts

/-- No call is in flight. -/
def Quiet (m : Shared T S n) : Prop := ∀ t, (m.threads t).current = none

end Shared

/-! ## A call alone -/

theorem wrap32_wrap32_add (x y : Int) : wrap32 (wrap32 x + y) = wrap32 (x + y) := by
  unfold wrap32
  rw [sub_add_eq_add_sub, sub_add_cancel, add_right_comm, Int.add_emod, Int.emod_emod_of_dvd _
    (dvd_refl _), ← Int.add_emod, add_right_comm]

theorem wrap32_count (s : Stack T S) : wrap32 s.count = s.count :=
  wrap32_of_range s.count_range.1 s.count_range.2

theorem ext_of {s s' : Stack T S} (hc : s.count = s'.count) (hd : s.data = s'.data) : s = s' := by
  cases s; cases s'; cases hc; cases hd; rfl

/-- The claim and then the second access of a call give the call on the object alone. -/
theorem finish_claim (s : Stack T S) (c : Call T) : c.finish (c.claim s) s.count = s.call c := by
  have hup : wrap32 (wrap32 (s.count + 1) - 1) = s.count := by
    rw [sub_eq_add_neg, wrap32_wrap32_add, add_neg_cancel_right, wrap32_count]
  have hdown : wrap32 (wrap32 (s.count - 1) + 1) = s.count := by
    rw [wrap32_wrap32_add, sub_add_cancel, wrap32_count]
  cases c with
  | push item =>
    simp only [Call.finish, Call.claim, call, push]
    split_ifs
    · exact congrArg some (Prod.ext (ext_of hup rfl) rfl)
    · cases slot? (S := S) s.count <;> rfl
  | pop =>
    simp only [Call.finish, Call.claim, call, pop]
    split_ifs
    · exact congrArg some (Prod.ext (ext_of hdown rfl) rfl)
    · cases slot? (S := S) s.count <;> rfl
  | pull =>
    simp only [Call.finish, Call.claim, call, pull]
    split_ifs
    · exact congrArg some (Prod.ext (ext_of hdown rfl) rfl)
    · cases slot? (S := S) s.count <;> rfl

namespace Shared

variable {m : Shared T S n} {t : Fin n}

theorem step_claim {c : Call T} {cs : List (Call T)} (hcur : (m.threads t).current = none)
    (hcalls : (m.threads t).calls = c :: cs) :
    m.step t = some ⟨c.claim m.stack, Function.update m.threads t ⟨cs, some (c, m.stack.count)⟩,
      m.log⟩ := by
  simp only [Shared.step, hcur, hcalls]

theorem step_finish {c : Call T} {k : Int} (hcur : (m.threads t).current = some (c, k)) :
    m.step t = (c.finish m.stack k).map fun r =>
      ⟨r.1, Function.update m.threads t ⟨(m.threads t).calls, none⟩,
        m.log ++ [(t, c, k, r.2)]⟩ := by
  simp only [Shared.step, hcur]

theorem run_append (l₁ l₂ : List (Fin n)) :
    m.run (l₁ ++ l₂) = (m.run l₁).bind fun m' => m'.run l₂ := by
  induction l₁ generalizing m with
  | nil => rfl
  | cons t ts ih =>
    rw [List.cons_append, Shared.run, Shared.run, Option.bind_assoc]
    simp only [ih]

/-- Both accesses of a call, with no other access between them: the call on the object
alone. -/
theorem step_step_alone {c : Call T} {cs : List (Call T)} (hcur : (m.threads t).current = none)
    (hcalls : (m.threads t).calls = c :: cs) :
    ((m.step t).bind fun m' => m'.step t) = (m.stack.call c).map fun r =>
      ⟨r.1, Function.update m.threads t ⟨cs, none⟩, m.log ++ [(t, c, m.stack.count, r.2)]⟩ := by
  rw [step_claim hcur hcalls, Option.some_bind,
    step_finish (c := c) (k := m.stack.count) (by simp)]
  simp only [Function.update_same, Function.update_idem, finish_claim]

theorem run_pair : m.run [t, t] = (m.step t).bind fun m' => m'.step t := by
  simp only [Shared.run, Option.bind_some]

end Shared

/-! ## Threads that only push -/

/-- A `push` call. -/
def Call.isPush : Call T → Bool
  | .push _ => true
  | _ => false

/-- The items the successful pushes wrote, each with the value its claim returned, in the
order they were written. -/
def written (log : List (Fin n × Call T × Int × Result T)) : List (Int × T) :=
  log.filterMap fun e => match e.2.1, e.2.2.2 with
    | .push item, .push true => some (e.2.2.1, item)
    | _, _ => none

/-- The slot a thread's `push` claimed and is yet to write. -/
def Thread.pending (S : Nat) (th : Thread T) : Multiset Int :=
  match th.current with
  | some (_, k) => if S ≤ toSize k then 0 else {k}
  | none => 0

/-- Whether a thread's `push` is yet to roll the counter back. -/
def Thread.undoing (S : Nat) (th : Thread T) : Nat :=
  match th.current with
  | some (_, k) => if S ≤ toSize k then 1 else 0
  | none => 0

/-- The calls of a thread are pushes. -/
def Thread.Pushes (th : Thread T) : Prop :=
  (∀ c ∈ th.calls, c.isPush) ∧ ∀ c k, th.current = some (c, k) → c.isPush

namespace Shared

/-- The slots successful pushes claimed, written or not. -/
def claims (m : Shared T S n) : Multiset Int :=
  ((written m.log).map Prod.fst : Multiset Int) + ∑ t, (m.threads t).pending S

/-- The pushes yet to roll the counter back. -/
def undoing (m : Shared T S n) : Nat := ∑ t, (m.threads t).undoing S

/-- What every state of a run of pushes from an empty stack satisfies: `count_` is the
number of successful claims and of roll-backs to come; the successful claims are distinct
and are `0 .. k - 1` for their number `k`, at most `S`; a roll-back to come, or one done,
means the claims have reached `S`; and every item written is still in its slot. -/
structure PushInv (m : Shared T S n) : Prop where
  pushes : ∀ t, (m.threads t).Pushes
  logged : ∀ e ∈ m.log, ∃ item ok, e.2.1 = .push item ∧ e.2.2.2 = .push ok
  count : m.stack.count = Multiset.card m.claims + m.undoing
  nodup : m.claims.Nodup
  below : ∀ k ∈ m.claims, 0 ≤ k ∧ k < Multiset.card m.claims
  le : Multiset.card m.claims ≤ S
  full : (0 < m.undoing ∨ ∃ e ∈ m.log, e.2.2.2 = .push false) → Multiset.card m.claims = S
  stored : ∀ p ∈ written m.log, ∃ i, slot? p.1 = some i ∧ m.stack.data i = p.2

end Shared

/-! ### Sums over the threads -/

theorem sum_update_comp {α M : Type} [AddCommMonoid M] (g : Fin n → α) (f : α → M) (t : Fin n)
    (v : α) : ∑ x, f (Function.update g t v x) + f (g t) = ∑ x, f (g x) + f v := by
  rw [← Finset.add_sum_erase _ _ (Finset.mem_univ t),
    ← Finset.add_sum_erase _ _ (Finset.mem_univ t),
    Function.update_same, Finset.sum_congr rfl fun x hx =>
      by rw [Function.update_noteq (Finset.ne_of_mem_erase hx)]]
  abel

theorem Thread.pending_of_none {th : Thread T} (h : th.current = none) : th.pending S = 0 := by
  simp [Thread.pending, h]

theorem Thread.undoing_of_none {th : Thread T} (h : th.current = none) : th.undoing S = 0 := by
  simp [Thread.undoing, h]

theorem Thread.undoing_le_one (th : Thread T) : th.undoing S ≤ 1 := by
  unfold Thread.undoing
  split
  · split_ifs <;> omega
  · omega

/-- While a thread is in no call, fewer than `n` roll-backs are to come. -/
theorem Shared.undoing_lt (m : Shared T S n) {t : Fin n} (h : (m.threads t).current = none) :
    m.undoing < n :=
  calc m.undoing = ∑ t, (m.threads t).undoing S := rfl
    _ < ∑ _t : Fin n, 1 := Finset.sum_lt_sum (fun t _ => Thread.undoing_le_one _)
        ⟨t, Finset.mem_univ _, by rw [Thread.undoing_of_none h]; omega⟩
    _ = n := by simp

theorem Thread.Pushes.update {threads : Fin n → Thread T} (h : ∀ t, (threads t).Pushes)
    {t : Fin n} {th : Thread T} (hth : th.Pushes) :
    ∀ t', (Function.update threads t th t').Pushes := by
  intro t'
  by_cases ht : t' = t
  · rw [ht, Function.update_same]
    exact hth
  · rw [Function.update_noteq ht]
    exact h t'

theorem written_append_false (log : List (Fin n × Call T × Int × Result T)) (t : Fin n)
    (c : Call T) (k : Int) : written (log ++ [(t, c, k, .push false)]) = written log := by
  cases c <;> simp [written]

theorem written_append_true (log : List (Fin n × Call T × Int × Result T)) (t : Fin n)
    (item : T) (k : Int) : written (log ++ [(t, .push item, k, .push true)]) =
      written log ++ [(k, item)] := by
  simp [written]

/-! ### One access -/

namespace Shared

variable {m : Shared T S n}

theorem PushInv.count_nonneg (h : m.PushInv) : 0 ≤ m.stack.count := by
  rw [h.count]
  positivity

theorem PushInv.toSize_count (h : m.PushInv) : (toSize m.stack.count : Int) = m.stack.count :=
  toSize_of_nonneg h.count_nonneg (by have := m.stack.count_range; omega)

/-- The claim of a `push`: it claims slot `count_` when that is below `S`, which the claims
then fill up to, and it is to roll back otherwise, the claims having reached `S`. -/
theorem PushInv.claim (h : m.PushInv) (hS : S + n < 2 ^ 31) {t : Fin n} {item : T}
    {cs : List (Call T)} (hcur : (m.threads t).current = none)
    (hcalls : (m.threads t).calls = .push item :: cs) :
    PushInv ⟨(Call.push item).claim m.stack,
      Function.update m.threads t ⟨cs, some (.push item, m.stack.count)⟩, m.log⟩ := by
  set th : Thread T := ⟨cs, some (.push item, m.stack.count)⟩
  have hp := sum_update_comp m.threads (Thread.pending S) t th
  have hu := sum_update_comp m.threads (Thread.undoing S) t th
  rw [Thread.pending_of_none hcur, add_zero] at hp
  rw [Thread.undoing_of_none hcur, add_zero] at hu
  have hpushes : ∀ t', (Function.update m.threads t th t').Pushes := Thread.Pushes.update h.pushes
    ⟨fun c hc => (h.pushes t).1 c (hcalls ▸ List.mem_cons_of_mem _ hc),
      fun c k hck => by obtain ⟨rfl, -⟩ := Prod.mk.inj (Option.some.inj hck); rfl⟩
  have hcount := h.count
  have hts := h.toSize_count
  have hle := h.le
  have hnew : ((Call.push item).claim m.stack).count = m.stack.count + 1 := by
    have := m.undoing_lt hcur
    exact wrap32_of_range (by omega) (by omega)
  simp only [Shared.undoing] at hcount
  by_cases hfull : S ≤ toSize m.stack.count
  · have hpend : th.pending S = 0 := if_pos hfull
    have hund : th.undoing S = 1 := if_pos hfull
    rw [hpend, add_zero] at hp
    rw [hund] at hu
    have hcl : Multiset.card m.claims = S := by
      rcases Nat.eq_zero_or_pos m.undoing with hz | hpos
      · simp only [Shared.undoing] at hz
        omega
      · exact h.full (.inl hpos)
    have hclaims : Shared.claims ⟨(Call.push item).claim m.stack,
        Function.update m.threads t th, m.log⟩ = m.claims := by
      simp only [Shared.claims, hp]
    refine ⟨hpushes, h.logged, ?_, hclaims ▸ h.nodup, hclaims ▸ h.below, hclaims ▸ h.le,
      fun _ => hclaims ▸ hcl, h.stored⟩
    rw [hclaims]
    simp only [Shared.undoing, hu, hnew]
    omega
  · have hpend : th.pending S = {m.stack.count} := if_neg hfull
    have hund : th.undoing S = 0 := if_neg hfull
    rw [hpend] at hp
    rw [hund, add_zero] at hu
    have hzero : m.undoing = 0 := by
      by_contra hne
      have := h.full (.inl (Nat.pos_of_ne_zero hne))
      simp only [Shared.undoing] at hne
      omega
    simp only [Shared.undoing] at hzero
    have hk : m.stack.count = Multiset.card m.claims := by omega
    have hclaims : Shared.claims ⟨(Call.push item).claim m.stack,
        Function.update m.threads t th, m.log⟩ = m.stack.count ::ₘ m.claims := by
      simp only [Shared.claims, hp, ← add_assoc, ← Multiset.singleton_add,
        add_comm _ {m.stack.count}]
    have hcard : Multiset.card (m.stack.count ::ₘ m.claims) = Multiset.card m.claims + 1 :=
      Multiset.card_cons _ _
    refine ⟨hpushes, h.logged, ?_, ?_, ?_, ?_, ?_, h.stored⟩
    · rw [hclaims]
      simp only [Shared.undoing, hcard, hu, hzero, hnew]
      omega
    · rw [hclaims, Multiset.nodup_cons]
      exact ⟨fun hmem => by have := (h.below _ hmem).2; omega, h.nodup⟩
    · rw [hclaims, hcard]
      intro k hk'
      rcases Multiset.mem_cons.1 hk' with rfl | hk'
      · omega
      · have := h.below k hk'
        omega
    · rw [hclaims, hcard]
      omega
    · intro hf
      simp only [Shared.undoing, hu, hzero] at hf
      have := h.full (.inr (hf.resolve_left (lt_irrefl 0)))
      omega

theorem slot?_eq_some {x : Int} {i : Fin S} (h : slot? x = some i) : x = i.val := by
  unfold slot? at h
  split_ifs at h with hx
  obtain rfl := Option.some.inj h
  exact (Int.toNat_of_nonneg hx.1).symm

theorem Call.isPush_iff {c : Call T} : c.isPush ↔ ∃ item, c = .push item := by
  cases c <;> simp [Call.isPush]

/-- The roll-back of a `push` that claimed past `S`: the claims stay, at `S`. -/
theorem PushInv.undo (h : m.PushInv) {t : Fin n} {item : T} {k : Int}
    (hcur : (m.threads t).current = some (.push item, k)) (hfull : S ≤ toSize k) :
    PushInv ⟨⟨wrap32 (m.stack.count - 1), m.stack.data, wrap32_range _⟩,
      Function.update m.threads t ⟨(m.threads t).calls, none⟩,
      m.log ++ [(t, .push item, k, .push false)]⟩ := by
  set th : Thread T := ⟨(m.threads t).calls, none⟩
  have hp := sum_update_comp m.threads (Thread.pending S) t th
  have hu := sum_update_comp m.threads (Thread.undoing S) t th
  have hpend : (m.threads t).pending S = 0 := by simp [Thread.pending, hcur, hfull]
  have hund : (m.threads t).undoing S = 1 := by simp [Thread.undoing, hcur, hfull]
  rw [hpend, Thread.pending_of_none rfl, add_zero, add_zero] at hp
  rw [hund, Thread.undoing_of_none rfl, add_zero] at hu
  have hcount := h.count
  simp only [Shared.undoing] at hcount
  have hclaims : Shared.claims ⟨⟨wrap32 (m.stack.count - 1), m.stack.data, wrap32_range _⟩,
      Function.update m.threads t th, m.log ++ [(t, .push item, k, .push false)]⟩ = m.claims := by
    simp only [Shared.claims, hp, written_append_false]
  have hcl : Multiset.card m.claims = S :=
    h.full (.inl (by simp only [Shared.undoing]; omega))
  refine ⟨Thread.Pushes.update h.pushes ⟨(h.pushes t).1, fun _ _ h => nomatch h⟩, ?_, ?_,
    hclaims ▸ h.nodup, hclaims ▸ h.below, hclaims ▸ h.le, fun _ => hclaims ▸ hcl, ?_⟩
  · intro e he
    rcases List.mem_append.1 he with he | he
    · exact h.logged e he
    · rw [List.mem_singleton.1 he]
      exact ⟨item, false, rfl, rfl⟩
  · rw [hclaims]
    simp only [Shared.undoing]
    have := m.stack.count_range
    rw [wrap32_of_range (by omega) (by omega)]
    omega
  · simpa only [written_append_false] using h.stored

/-- A slot claimed and yet to be written is within `data_`. -/
theorem PushInv.slot_of_pending (h : m.PushInv) {t : Fin n} {c : Call T} {k : Int}
    (hcur : (m.threads t).current = some (c, k)) (hfull : ¬ S ≤ toSize k) :
    ∃ i, slot? (S := S) k = some i := by
  have hk : k ∈ m.claims := by
    refine Multiset.mem_add.2 (.inr (Multiset.mem_sum.2 ⟨t, Finset.mem_univ t, ?_⟩))
    simp [Thread.pending, hcur, hfull]
  have := h.below k hk
  have := h.le
  exact ⟨⟨k.toNat, by omega⟩, slot?_of_range (by omega) (by omega)⟩

/-- The write of a `push` that claimed a slot below `S`: the slot moves from the pending
claims to the items written, and every other item written is in a slot of its own. -/
theorem PushInv.write (h : m.PushInv) {t : Fin n} {item : T} {k : Int} {i : Fin S}
    (hcur : (m.threads t).current = some (.push item, k)) (hfull : ¬ S ≤ toSize k)
    (hi : slot? k = some i) :
    PushInv ⟨⟨m.stack.count, Function.update m.stack.data i item, m.stack.count_range⟩,
      Function.update m.threads t ⟨(m.threads t).calls, none⟩,
      m.log ++ [(t, .push item, k, .push true)]⟩ := by
  set th : Thread T := ⟨(m.threads t).calls, none⟩
  have hp := sum_update_comp m.threads (Thread.pending S) t th
  have hu := sum_update_comp m.threads (Thread.undoing S) t th
  have hpend : (m.threads t).pending S = {k} := by simp [Thread.pending, hcur, hfull]
  have hund : (m.threads t).undoing S = 0 := by simp [Thread.undoing, hcur, hfull]
  rw [hpend, Thread.pending_of_none rfl, add_zero] at hp
  rw [hund, Thread.undoing_of_none rfl, add_zero, add_zero] at hu
  have hclaims : Shared.claims ⟨⟨m.stack.count, Function.update m.stack.data i item,
      m.stack.count_range⟩, Function.update m.threads t th,
      m.log ++ [(t, .push item, k, .push true)]⟩ = m.claims := by
    simp only [Shared.claims, ← hp, written_append_true, List.map_append, List.map_cons,
      List.map_nil, ← Multiset.coe_add, Multiset.coe_singleton]
    abel
  -- the slot was claimed by no item written so far
  have hnew : k ∉ (written m.log).map Prod.fst := by
    have hnd := h.nodup
    simp only [Shared.claims, ← hp, ← add_assoc, add_right_comm _ _ {k}] at hnd
    exact fun hmem => Multiset.disjoint_left.1
      (Multiset.nodup_add.1 (Multiset.nodup_add.1 hnd).1).2.2 (Multiset.mem_coe.2 hmem)
      (Multiset.mem_singleton_self k)
  refine ⟨Thread.Pushes.update h.pushes ⟨(h.pushes t).1, fun _ _ h => nomatch h⟩, ?_, ?_,
    hclaims ▸ h.nodup, hclaims ▸ h.below, hclaims ▸ h.le, ?_, ?_⟩
  · intro e he
    rcases List.mem_append.1 he with he | he
    · exact h.logged e he
    · rw [List.mem_singleton.1 he]
      exact ⟨item, true, rfl, rfl⟩
  · rw [hclaims]
    simpa only [Shared.undoing, hu] using h.count
  · intro hf
    rw [hclaims]
    refine h.full (hf.imp (by simpa only [Shared.undoing, hu] using id) fun ⟨e, he, hfe⟩ => ?_)
    rcases List.mem_append.1 he with he | he
    · exact ⟨e, he, hfe⟩
    · rw [List.mem_singleton.1 he] at hfe
      nomatch hfe
  · rw [written_append_true]
    intro p hp'
    rcases List.mem_append.1 hp' with hp' | hp'
    · obtain ⟨j, hj, hdj⟩ := h.stored p hp'
      refine ⟨j, hj, ?_⟩
      have hji : j ≠ i := by
        rintro rfl
        exact hnew (List.mem_map.2 ⟨p, hp', by rw [slot?_eq_some hj, slot?_eq_some hi]⟩)
      simpa [Function.update_noteq hji] using hdj
    · rw [List.mem_singleton.1 hp']
      exact ⟨i, hi, by simp⟩

/-- Every access of a run of pushes keeps the invariant, and none leaves `data_`. -/
theorem PushInv.step (h : m.PushInv) (hS : S + n < 2 ^ 31) (t : Fin n) :
    ∃ m', m.step t = some m' ∧ m'.PushInv := by
  rcases hcur : (m.threads t).current with _ | ⟨c, k⟩
  · rcases hcalls : (m.threads t).calls with _ | ⟨c, cs⟩
    · exact ⟨m, by simp only [Shared.step, hcur, hcalls], h⟩
    · obtain ⟨item, rfl⟩ := Call.isPush_iff.1 ((h.pushes t).1 c (by simp [hcalls]))
      exact ⟨_, step_claim hcur hcalls, h.claim hS hcur hcalls⟩
  · obtain ⟨item, rfl⟩ := Call.isPush_iff.1 ((h.pushes t).2 c k hcur)
    by_cases hfull : S ≤ toSize k
    · exact ⟨_, by rw [step_finish hcur, Call.finish, if_pos hfull, Option.map_some'],
        h.undo hcur hfull⟩
    · obtain ⟨i, hi⟩ := h.slot_of_pending hcur hfull
      exact ⟨_, by rw [step_finish hcur, Call.finish, if_neg hfull, hi, Option.map_some',
        Option.map_some'],
        h.write hcur hfull hi⟩

theorem PushInv.run (hS : S + n < 2 ^ 31) :
    ∀ (sched : List (Fin n)) {m : Shared T S n}, m.PushInv →
      ∃ m', m.run sched = some m' ∧ m'.PushInv
  | [], m, h => ⟨m, rfl, h⟩
  | t :: ts, _, h => by
    obtain ⟨m₁, h₁, hi₁⟩ := h.step hS t
    obtain ⟨m', h', hi'⟩ := PushInv.run hS ts hi₁
    exact ⟨m', by rw [Shared.run, h₁, Option.some_bind, h'], hi'⟩

theorem pushInv_start (data : Fin S → T) {progs : Fin n → List (Call T)}
    (hpush : ∀ t, ∀ c ∈ progs t, c.isPush) : (start (init data) progs).PushInv := by
  have hclaims : (start (n := n) (init data) progs).claims = 0 := by
    simp [claims, start, written, Thread.pending]
  have hund : (start (n := n) (init data) progs).undoing = 0 := by
    simp [undoing, start, Thread.undoing]
  constructor
  · exact fun t => ⟨hpush t, fun _ _ h => nomatch h⟩
  · exact fun _ he => nomatch he
  · rw [hclaims, hund]
    rfl
  · rw [hclaims]
    exact Multiset.nodup_zero
  · simp [hclaims]
  · simp [hclaims]
  · rintro (hf | ⟨e, he, -⟩)
    · exact absurd hf (by rw [hund]; exact lt_irrefl 0)
    · nomatch he
  · exact fun _ he => nomatch he

/-- With no call in flight, the claims are the slots written. -/
theorem claims_of_quiet (hq : m.Quiet) :
    m.claims = ((written m.log).map Prod.fst : Multiset Int) := by
  simp [claims, Thread.pending_of_none (hq _)]

theorem undoing_of_quiet (hq : m.Quiet) : m.undoing = 0 := by
  simp [undoing, Thread.undoing_of_none (hq _)]

end Shared

open Shared in
theorem concurrent_pushes_fill_slots (hS : S + n < 2 ^ 31) (data : Fin S → T)
    (progs : Fin n → List (Call T)) (hpush : ∀ t, ∀ c ∈ progs t, c.isPush) (sched : List (Fin n)) :
    ∃ m, (start (init data) progs).run sched = some m ∧
      ((written m.log).map Prod.fst).Nodup ∧
      (∀ p ∈ written m.log, ∃ i, slot? p.1 = some i ∧ m.stack.data i = p.2) ∧
      (m.Quiet → m.stack.count = (written m.log).length ∧
        (written m.log).length = min m.log.length S ∧
        ∀ p ∈ written m.log, 0 ≤ p.1 ∧ p.1 < (written m.log).length) := by
  obtain ⟨m, hrun, h⟩ := PushInv.run hS sched (pushInv_start data hpush)
  refine ⟨m, hrun, Multiset.coe_nodup.1 (Multiset.nodup_add.1 h.nodup).1, h.stored, fun hq => ?_⟩
  have hcl := claims_of_quiet hq
  have hlen : Multiset.card m.claims = (written m.log).length := by
    rw [hcl, Multiset.coe_card, List.length_map]
  refine ⟨by rw [h.count, undoing_of_quiet hq, hlen]; rfl, ?_, fun p hp => ?_⟩
  · have hle : (written m.log).length ≤ m.log.length := List.length_filterMap_le _ _
    by_cases hfail : ∃ e ∈ m.log, e.2.2.2 = .push false
    · have := h.full (.inr hfail)
      omega
    · have hall : (written m.log).length = m.log.length := by
        refine List.filterMap_length_eq_length.2 fun e he => ?_
        obtain ⟨item, ok, hc, hr⟩ := h.logged e he
        cases ok
        · exact absurd ⟨e, he, hr⟩ hfail
        · rw [hc, hr]
          rfl
      have := h.le
      omega
  · have := h.below p.1 (hcl ▸ Multiset.mem_coe.2 (List.mem_map_of_mem _ hp))
    omega

/-- Two threads pushing two items each onto a `stack_t<int, 3>`, their accesses interleaved. -/
theorem concurrent_pushes_fill_slots_two :
    (3 + 2 < 2 ^ 31 ∧ ∀ t, ∀ c ∈ (![[.push 1, .push 2], [.push 3, .push 4]] : Fin 2 → List (Call Int)) t,
      c.isPush) ∧
    ∃ m, (Shared.start (init fun _ : Fin 3 => (0 : Int))
        ![[.push 1, .push 2], [.push 3, .push 4]]).run [0, 1, 1, 0, 0, 1, 1, 0] = some m ∧
      ((written m.log).map Prod.fst).Nodup ∧
      (∀ p ∈ written m.log, ∃ i, slot? p.1 = some i ∧ m.stack.data i = p.2) ∧
      (m.Quiet → m.stack.count = (written m.log).length ∧
        (written m.log).length = min m.log.length 3 ∧
        ∀ p ∈ written m.log, 0 ≤ p.1 ∧ p.1 < (written m.log).length) :=
  ⟨⟨by norm_num, by decide⟩, concurrent_pushes_fill_slots (by norm_num) _ _ (by decide) _⟩

/-! ## Pushes and pops together -/

theorem written_append_pop (log : List (Fin n × Call T × Int × Result T)) (t : Fin n) (k : Int)
    (r : Result T) : written (log ++ [(t, .pop, k, r)]) = written log := by
  simp [written]

namespace Shared

variable {m : Shared T S n} {t : Fin n}

/-- The roll-back of a `push` that claimed `k`, not below `S`. -/
theorem step_undo_push {x : T} {k : Int} (hcur : (m.threads t).current = some (.push x, k))
    (hfull : S ≤ toSize k) :
    ∃ m', m.step t = some m' ∧ m'.stack.count = wrap32 (m.stack.count - 1) ∧
      m'.threads = Function.update m.threads t ⟨(m.threads t).calls, none⟩ ∧
      written m'.log = written m.log := by
  rw [step_finish hcur, Call.finish, if_pos hfull, Option.map_some']
  exact ⟨_, rfl, rfl, rfl, written_append_false ..⟩

/-- The roll-back of a `pop` that claimed a negative `k`. -/
theorem step_undo_pop {k : Int} (hcur : (m.threads t).current = some (.pop, k)) (hk : k < 0) :
    ∃ m', m.step t = some m' ∧ m'.stack.count = wrap32 (m.stack.count + 1) ∧
      m'.threads = Function.update m.threads t ⟨(m.threads t).calls, none⟩ ∧
      written m'.log = written m.log := by
  rw [step_finish hcur, Call.finish, if_pos hk, Option.map_some']
  exact ⟨_, rfl, rfl, rfl, written_append_pop ..⟩

/-- `k` pushes of one thread that no other access interrupts, from a counter with room for
them, fill the slots from the counter on. -/
theorem run_pushes (hS : S < 2 ^ 31) (x : T) :
    ∀ (k : Nat) {m : Shared T S n} {rest : List (Call T)},
    (m.threads t).current = none → (m.threads t).calls = List.replicate k (.push x) ++ rest →
    0 ≤ m.stack.count → m.stack.count + k ≤ S →
    ∃ m', m.run (List.replicate (2 * k) t) = some m' ∧ m'.stack.count = m.stack.count + k ∧
      m'.threads = Function.update m.threads t ⟨rest, none⟩ ∧
      written m'.log = written m.log ++ (List.range k).map fun j : Nat => (m.stack.count + j, x)
  | 0, m, rest, hcur, hcalls, _, _ => by
    refine ⟨m, rfl, by simp, (Function.update_eq_self_iff.2 ?_).symm, by simp⟩
    cases h : m.threads t
    simp_all
  | k + 1, m, rest, hcur, hcalls, h0, hk => by
    have hpair := step_step_alone hcur (show (m.threads t).calls =
      .push x :: (List.replicate k (.push x) ++ rest) by rw [hcalls]; rfl)
    rw [call, m.stack.push_of_lt hS h0 (by omega) x, Option.map_some', Option.map_some',
      ← run_pair] at hpair
    obtain ⟨m₁, h₁⟩ : ∃ m₁, m.run [t, t] = some m₁ := ⟨_, hpair⟩
    rw [h₁, Option.some.injEq] at hpair
    have hc₁ : m₁.stack.count = m.stack.count + 1 := by rw [hpair]
    have hth₁ : m₁.threads =
        Function.update m.threads t ⟨List.replicate k (.push x) ++ rest, none⟩ := by
      rw [hpair]
    have hw₁ : written m₁.log = written m.log ++ [(m.stack.count, x)] := by
      rw [hpair, written_append_true]
    obtain ⟨m', hrun, hc, hth, hw⟩ := run_pushes hS x k (m := m₁)
      (by rw [hth₁, Function.update_same]) (by rw [hth₁, Function.update_same])
      (by omega) (by push_cast at hk; omega)
    refine ⟨m', ?_, ?_, ?_, ?_⟩
    · rw [show 2 * (k + 1) = 2 + 2 * k by ring, List.replicate_add, run_append]
      rw [show List.replicate 2 t = [t, t] from rfl, h₁, Option.some_bind]
      exact hrun
    · rw [hc, hc₁]
      push_cast
      ring
    · rw [hth, hth₁, Function.update_idem]
    · rw [hw, hw₁, hc₁, List.range_succ_eq_map, List.map_cons, List.map_map, List.append_assoc,
        List.singleton_append]
      simp only [Function.comp_def, Nat.cast_add, Nat.cast_one, Nat.cast_zero, add_zero]
      congr 3
      funext j
      rw [Nat.cast_succ, add_right_comm, add_assoc]

end Shared

/-- A `pop` of the empty stack reads `data_[0]` and leaves `count_` at `-1`; a second `pop` and
two `push`es then claim, all three to roll back. Before they do, one thread fills the `S` slots.
The `push`es' roll-backs take the counter down to `S - 2`, and that thread's next two `push`es
succeed, on slots `S - 2` and `S - 1`, written already. The `pop`'s roll-back leaves `count_`
at `S + 1`. -/
theorem concurrent_stack_overfills (hS : 2 < S) (hS' : S < 2 ^ 30) (data : Fin S → T)
    (x y z : T) : ∃ sched : List (Fin 4), ∃ m, (Shared.start (init data)
        ![.pop :: List.replicate (S + 2) (.push x), [.pop], [.push y], [.push z]]).run sched = some m ∧
      (∀ t, m.threads t = ⟨[], none⟩) ∧ m.stack.count = S + 1 ∧
      ¬ ((written m.log).map Prod.fst).Nodup := by
  have hS31 : S < 2 ^ 31 := by omega
  -- a `pop` reads slot 0 and leaves `-1`; a second `pop` claims `-1`, and two `push`es claim
  -- `-2` and `-1`: all three are to roll back
  obtain ⟨m₁, h₁, hc₁, hw₁, h0, h1, h2, h3⟩ : ∃ m₁, (Shared.start (init data)
        ![.pop :: List.replicate (S + 2) (.push x), [.pop], [.push y], [.push z]]).run
          [0, 0, 1, 2, 3] = some m₁ ∧ m₁.stack.count = 0 ∧ written m₁.log = [] ∧
      m₁.threads 0 = ⟨List.replicate (S + 2) (.push x), none⟩ ∧
      m₁.threads 1 = ⟨[], some (.pop, -1)⟩ ∧ m₁.threads 2 = ⟨[], some (.push y, -2)⟩ ∧
      m₁.threads 3 = ⟨[], some (.push z, -1)⟩ := by
    have hslot : slot? (S := S) 0 = some ⟨0, by omega⟩ := slot?_of_range le_rfl (by omega)
    simp only [Shared.run, Shared.step, Shared.start, init, Call.claim, Call.finish, wrap32, hslot,
      Option.bind_some, Option.some_bind, Option.map_some', Function.update_same,
      Function.update_idem, Function.update_noteq, ne_eq, Fin.reduceEq, not_false_eq_true,
      Matrix.cons_val_zero, Matrix.cons_val_one, Matrix.head_cons, Matrix.cons_val_two,
      Matrix.tail_cons, Matrix.cons_val_three, Int.reduceNeg, Int.reducePow, Int.reduceAdd,
      Int.reduceMod, Int.reduceSub, lt_self_iff_false, ↓reduceIte, List.nil_append]
    exact ⟨_, rfl, rfl, rfl, rfl, rfl, rfl, rfl⟩
  -- the first thread fills the `S` slots, the counter one below the items
  obtain ⟨m₂, h₂, hc₂, hth₂, hw₂⟩ := Shared.run_pushes (t := 0) hS31 x S (m := m₁) (by rw [h0])
    (show (m₁.threads 0).calls = List.replicate S (.push x) ++ [.push x, .push x] by
      rw [h0, List.replicate_add]; rfl) (by omega) (by omega)
  -- the two `push`es roll back
  have hfull : ∀ k : Int, -2 ≤ k → k < 0 → S ≤ toSize k := fun k hk₁ hk₂ => by
    have := toSize_of_neg (x := k) (by omega) hk₂
    omega
  obtain ⟨m₂', h₂', hc₂', hth₂', hw₂'⟩ :=
    Shared.step_undo_push (m := m₂) (t := 2) (x := y) (k := -2)
    (by rw [hth₂, Function.update_noteq (by decide), h2]) (hfull _ (by norm_num) (by norm_num))
  obtain ⟨m₃, h₃, hc₃, hth₃, hw₃⟩ := Shared.step_undo_push (m := m₂') (t := 3) (x := z) (k := -1)
    (by rw [hth₂', Function.update_noteq (by decide), hth₂, Function.update_noteq (by decide), h3])
    (hfull _ (by norm_num) (by norm_num))
  have hS₃ : m₃.stack.count = S - 2 := by
    rw [hc₃, hc₂', hc₂, hc₁, zero_add, wrap32_of_range (x := (S : Int) - 1) (by omega) (by omega),
      wrap32_of_range (by omega) (by omega)]
    ring
  -- the first thread pushes twice more, onto the last two slots
  obtain ⟨m₄, h₄, hc₄, hth₄, hw₄⟩ := Shared.run_pushes (t := 0) hS31 x 2 (m := m₃)
    (by simp [hth₃, hth₂', hth₂, Function.update_apply])
    (show (m₃.threads 0).calls = List.replicate 2 (.push x) ++ [] by
      simp [hth₃, hth₂', hth₂, Function.update_apply]) (by omega) (by omega)
  -- the `pop` rolls back: the counter is one above the slots
  obtain ⟨m₅, h₅, hc₅, hth₅, hw₅⟩ := Shared.step_undo_pop (m := m₄) (t := 1) (k := -1)
    (by simp [hth₄, hth₃, hth₂', hth₂, h1, Function.update_apply]) (by norm_num)
  refine ⟨[0, 0, 1, 2, 3] ++ List.replicate (2 * S) 0 ++ [2, 3] ++ List.replicate (2 * 2) 0 ++ [1],
    m₅, ?_, ?_, ?_, ?_⟩
  · have h₃r : m₂.run [2, 3] = some m₃ := by simp only [Shared.run, h₂', h₃, Option.some_bind]
    have h₅r : m₄.run [1] = some m₅ := by simp only [Shared.run, h₅, Option.some_bind]
    simp only [Shared.run_append, h₁, h₂, h₃r, h₄, h₅r, Option.some_bind]
  · intro t
    fin_cases t <;>
      simp only [Fin.zero_eta, Fin.mk_one, Fin.reduceFinMk, Fin.isValue, hth₅, hth₄, hth₃,
        hth₂', hth₂, ne_eq, Fin.reduceEq, not_false_eq_true, Function.update_noteq,
        Function.update_same, h1, h2, h3]
  · rw [hc₅, hc₄, hS₃, wrap32_of_range (by omega) (by omega)]
    omega
  · -- slot `S - 1` is written twice
    rw [hw₅, hw₄, hw₃, hw₂', hw₂, hw₁, List.nil_append, List.map_append, List.nodup_append]
    rintro ⟨-, -, hdisj⟩
    refine hdisj (a := (S : Int) - 1) ?_ ?_
    · simp only [List.map_map, Function.comp_def, List.mem_map, List.mem_range]
      exact ⟨S - 1, by omega, by rw [hc₁]; omega⟩
    · simp only [List.map_map, Function.comp_def, List.mem_map, List.mem_range]
      exact ⟨1, by omega, by rw [hS₃]; omega⟩

/-- The interleaving on a `stack_t<int, 3>` of zeros. -/
theorem concurrent_stack_overfills_three :
    (2 < 3 ∧ 3 < 2 ^ 30) ∧ ∃ sched : List (Fin 4), ∃ m,
      (Shared.start (init fun _ : Fin 3 => (0 : Int))
        ![.pop :: List.replicate (3 + 2) (.push 1), [.pop], [.push 2], [.push 3]]).run sched =
          some m ∧
      (∀ t, m.threads t = ⟨[], none⟩) ∧ m.stack.count = 4 ∧
      ¬ ((written m.log).map Prod.fst).Nodup :=
  ⟨⟨by norm_num, by norm_num⟩, concurrent_stack_overfills (by norm_num) (by norm_num) _ _ _ _⟩

end Stack

end ModernCli
