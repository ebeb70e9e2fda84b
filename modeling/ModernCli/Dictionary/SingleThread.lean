import ModernCli.Dictionary.Concurrent
import ModernCli.Dictionary.SharedHeap

/-!
# A thread on its own runs the single-threaded calls

`Machine.step` splits each call of `dictionary_t` into the atomic steps the source makes;
`Dict` runs each call at once. Both are read off the same source, and they agree: a thread
that runs while no other thread steps, and whose `compare_exchange_weak` never fails
spuriously, returns after finitely many steps what the `Dict` call returns and leaves the
object as the `Dict` call leaves it (`Machine.Alone`). The loops end because an object with
the representation invariant has finite chains.

* `Machine.scan_alone`: the loops of `find`, `insert_or_assign` and `try_emplace` reach what
  `Heap.scan` finds; `Machine.remAt_alone` and `Machine.clearAt_alone` do the same for the
  loops of `remove` and `clear`;
* `Machine.find_alone`, `Machine.remove_alone`, `Machine.ins_alone`,
  `Machine.insertOrAssign_alone`, `Machine.tryEmplace_alone`, `Machine.clear_alone`: each
  call on its own;
* `Machine.call_alone`: so every call of a single-threaded run (`Call`) does what `Dict.call`
  does, and `Machine.serial_run`: calls made one after another by distinct threads end where
  `Dict.run` ends, with the returns `Dict.run` gives.
-/

set_option linter.unusedSectionVars false

namespace ModernCli

variable {K V : Type}

/-- The place a thread starts a call of a single-threaded run at. -/
def Call.start : Call K V → Pc K V
  | .insert key value | .emplace key value => .ins key value .start none
  | .insertOrAssign key value => .ioaStart key value
  | .remove key => .remStart key
  | .clear => .clearBucket 0

/-- What a call of a single-threaded run returns, as its thread returns it: `clear` returns
nothing. -/
def Ret.ofCall : Option Bool → Ret V
  | some b => .bool b
  | none => .unit

/-- `insert_or_assign` returns true on both of its paths. -/
theorem Dict.insertOrAssign_snd [DecidableEq K] [Hashable K] {S : Nat} [NeZero S] (d : Dict K V S)
    (key : K) (value : V) : (d.insertOrAssign key value).2 = true := by
  dsimp only [Dict.insertOrAssign]
  split <;> rfl

namespace Machine

variable [DecidableEq K] [Hashable K] {S n : Nat} [NeZero S]

/-- Thread `t` takes `m` to `m'` in steps of its own, none a spurious failure, while no other
thread steps. -/
def Alone (t : Fin n) (m m' : Machine K V S n) : Prop :=
  ∃ k, m.run (List.replicate k (t, false)) = some m'

/-- `m` with the object `d`: its heap, `table_` and `count_`. -/
def withView (m : Machine K V S n) (d : Dict K V S) : Machine K V S n :=
  { m with mem := d.mem, table := d.table, count := d.count }

@[simp] theorem view_mem (m : Machine K V S n) : m.view.mem = m.mem := rfl

@[simp] theorem view_table (m : Machine K V S n) : m.view.table = m.table := rfl

@[simp] theorem view_count (m : Machine K V S n) : m.view.count = m.count := rfl

@[simp] theorem set_set (m : Machine K V S n) (t : Fin n) (p q : Pc K V) :
    (m.set t p).set t q = m.set t q := by
  simp [set]

/-- A write to the object after a move of thread `t` is the write before it. -/
@[simp] theorem mk_update_set (mem : Memory K V) (table : Fin S → Option Nat) (count : Int)
    (threads : Fin n → Pc K V) (t : Fin n) (p q : Pc K V) :
    (Machine.mk mem table count (Function.update threads t p)).set t q =
      (Machine.mk mem table count threads).set t q := by
  simp [set]

theorem set_self (m : Machine K V S n) (t : Fin n) : m.set t (m.threads t) = m := by
  simp [set]

@[simp] theorem withView_view (m : Machine K V S n) : m.withView m.view = m := rfl

theorem run_append (m : Machine K V S n) (l₁ l₂ : List (Fin n × Bool)) :
    m.run (l₁ ++ l₂) = (m.run l₁).bind fun m' => m'.run l₂ := by
  induction l₁ generalizing m with
  | nil => rfl
  | cons x l₁ ih =>
    obtain ⟨t, f⟩ := x
    rw [List.cons_append]
    simp only [run, ih, Option.bind_assoc]

variable {t : Fin n} {m w m' : Machine K V S n}

theorem Alone.refl (m : Machine K V S n) : Alone t m m := ⟨0, rfl⟩

theorem Alone.trans (h₁ : Alone t m w) (h₂ : Alone t w m') : Alone t m m' := by
  obtain ⟨k₁, h₁⟩ := h₁
  obtain ⟨k₂, h₂⟩ := h₂
  exact ⟨k₁ + k₂, by rw [List.replicate_add, run_append, h₁]; exact h₂⟩

theorem Alone.of_step (h : m.step t false = some m') : Alone t m m' :=
  ⟨1, by simp [run, h]⟩

theorem Alone.head (h : m.step t false = some w) (h' : Alone t w m') : Alone t m m' :=
  (Alone.of_step h).trans h'

/-- A run of one thread alone is a run of the machine. -/
theorem Alone.reach (h : Alone t m m') : Relation.ReflTransGen Next m m' := by
  obtain ⟨k, hk⟩ := h
  induction k generalizing m with
  | zero => cases hk; exact .refl
  | succ k ih =>
    rw [List.replicate_succ, run] at hk
    cases hs : m.step t false with
    | none => rw [hs] at hk; cases hk
    | some m₁ => rw [hs] at hk; exact .head ⟨t, false, hs⟩ (ih hk)

/-! ## The loops -/

/-- A loop of thread `t` that follows a chain of `h` as `Heap.scan` does: at `current` the
thread is at `P current`; on a node with the key it goes to `F` of the node, and at `nullptr`
to `F none`. -/
theorem scan_alone {h : Heap K V} (key : K) (P : Option Nat → Pc K V)
    (F : Option (Nat × Node K V) → Machine K V S n)
    (hnone : (m.set t (P none)).step t false = some (F none))
    (hsome : ∀ a nd, h a = some nd → (m.set t (P (some a))).step t false =
      some (if nd.key = key then F (some (a, nd)) else m.set t (P nd.next)))
    {cur : Option Nat} {l : List Nat} (hl : Chain h cur l) {fuel : Nat} (hf : l.length ≤ fuel) :
    Alone t (m.set t (P cur)) (F (h.scan key fuel cur)) := by
  induction hl generalizing fuel with
  | nil => cases fuel <;> exact .of_step hnone
  | cons hn _ ih =>
    obtain ⟨fuel, rfl⟩ := Nat.exists_eq_add_of_lt (Nat.lt_of_lt_of_le (Nat.zero_lt_succ _) hf)
    have hs := hsome _ _ hn
    simp only [Heap.scan, hn, Nat.zero_add]
    split_ifs at hs ⊢
    · exact .of_step hs
    · exact .head hs (ih (by simpa using hf))

/-- Where the loop of `remove` leaves the thread, after the scan's result. -/
def remEnd (key : K) : Option (Option Nat × Nat × Node K V) → Pc K V
  | none => .done (.bool false)
  | some (q, a, nd) => .remUnlink key q a nd.next

/-- The loop of `remove` follows a chain as `Heap.scanPrev` does. -/
theorem remAt_alone (key : K) (prev : Option Nat) {cur : Option Nat} {l : List Nat}
    (hl : Chain m.mem.heap cur l) {fuel : Nat} (hf : l.length ≤ fuel) :
    Alone t (m.set t (.remAt key prev cur))
      (m.set t (remEnd key (m.mem.heap.scanPrev key fuel prev cur))) := by
  induction hl generalizing fuel prev with
  | nil => cases fuel <;> exact .of_step (by simp [step, remEnd, Heap.scanPrev])
  | cons hn _ ih =>
    obtain ⟨fuel, rfl⟩ := Nat.exists_eq_add_of_lt (Nat.lt_of_lt_of_le (Nat.zero_lt_succ _) hf)
    simp only [Heap.scanPrev, hn, Nat.zero_add]
    split_ifs with hk
    · exact .of_step (by simp [step, hn, hk, remEnd])
    · exact .head (by simp [step, hn, hk]) (ih _ (by simpa using hf))

/-- The `delete` loop of `clear` on bucket `i` deletes the detached chain as
`Memory.freeChain` does, then moves on to the next bucket. -/
theorem clearAt_alone (i : Nat) {l : List Nat} : ∀ {m : Machine K V S n} {cur : Option Nat},
    Chain m.mem.heap cur l → ∀ {fuel : Nat}, l.length ≤ fuel →
    Alone t (m.set t (.clearAt i cur))
      ({ m with mem := m.mem.freeChain fuel cur }.set t (.clearBucket (i + 1))) := by
  induction l with
  | nil =>
    intro m cur hl fuel _
    cases hl
    cases fuel <;> exact .of_step (by simp [step, Memory.freeChain])
  | cons a l ih =>
    intro m cur hl fuel hf
    cases hl with
    | @cons _ nd _ hn hl =>
      obtain ⟨fuel, rfl⟩ := Nat.exists_eq_add_of_lt (Nat.lt_of_lt_of_le (Nat.zero_lt_succ _) hf)
      have hal : a ∉ l := (List.nodup_cons.mp (Chain.cons hn hl).nodup).1
      refine .head (w := { m with mem := m.mem.free a }.set t (.clearAt i nd.next))
        (by simp [step, hn]) ?_
      simp only [Memory.freeChain, hn, Nat.zero_add]
      exact ih (m := { m with mem := m.mem.free a }) (hl.update_of_not_mem hal none)
        (by simpa using hf)

/-- The loop of `clear` over the buckets from `j` on, while the earlier buckets are empty and
the later ones still hold the chains of `d`: it deletes the chains in bucket order, as the
fold of `Dict.clear` does, and stops before `count_.store(0)`. -/
theorem clearBucket_alone {addrs : Fin S → List Nat} (d : Dict K V S)
    (hd : ∀ i j, i ≠ j → ∀ a ∈ addrs i, a ∉ addrs j) (k : Nat) :
    ∀ {j : Nat}, j + k = S → ∀ {m : Machine K V S n},
      m.table = (fun i : Fin S => if (i : Nat) < j then none else d.table i) →
      (∀ i : Fin S, j ≤ i → Chain m.mem.heap (d.table i) (addrs i)) →
      Alone t (m.set t (.clearBucket j))
        ({ m with
            mem := ((List.finRange S).drop j).foldl
              (fun mem i => mem.freeChain mem.next (d.table i)) m.mem
            table := fun _ => none }.set t .clearCount) := by
  induction k with
  | zero =>
    intro j hj m htab _
    obtain rfl : j = S := hj
    obtain ⟨mem, table, count, threads⟩ := m
    obtain rfl : table = fun _ => none := htab.trans (funext fun i => if_pos i.2)
    rw [List.drop_eq_nil_of_le (by simp)]
    exact .of_step (by simp [step])
  | succ k ih =>
    intro j hj m htab hc
    have hjS : j < S := by omega
    set J : Fin S := ⟨j, hjS⟩
    have hcJ := hc J le_rfl
    -- the buckets after `J` keep their chains while `J`'s is deleted
    have hc' : ∀ i : Fin S, j + 1 ≤ i →
        Chain (m.mem.freeChain m.mem.next (d.table J)).heap (d.table i) (addrs i) :=
      fun i hi => (hc i (by omega)).congr fun x hx => by
        have hne : i ≠ J := fun e => by subst e; simp [J] at hi
        simp only [Heap.nextAt, Memory.freeChain_heap_of_not_mem hcJ _ (hd i J hne x hx)]
    have htab' : Function.update m.table J none =
        fun i : Fin S => if (i : Nat) < j + 1 then none else d.table i := by
      funext i
      by_cases hi : (i : Nat) = j
      · obtain rfl : i = J := Fin.ext hi
        simp [J]
      · rw [Function.update_noteq fun e => hi (congrArg Fin.val e), htab]
        dsimp only
        split_ifs <;> first | rfl | omega
    have hdrop : (List.finRange S).drop j = J :: (List.finRange S).drop (j + 1) := by
      rw [List.drop_eq_getElem_cons (by simpa using hjS), List.getElem_finRange]
      rfl
    have hcur : m.table J = d.table J := by rw [htab]; exact if_neg (Nat.lt_irrefl j)
    rw [hdrop, List.foldl_cons]
    refine .head
      (w := { m with table := Function.update m.table J none }.set t (.clearAt j (d.table J)))
      (by simp [step, hjS, ← hcur])
      ((clearAt_alone j (m := { m with table := Function.update m.table J none }) hcJ
        (m.mem.length_le_of_chain hcJ)).trans ?_)
    exact ih (m := { m with
      table := Function.update m.table J none
      mem := m.mem.freeChain m.mem.next (d.table J) }) (by omega) htab' hc'

/-! ## The calls -/

variable {addrs : Fin S → List Nat} {key : K}

/-- `find`, and so `contains` and `at`, on its own. -/
theorem find_alone (hI : m.view.Inv addrs) (hpc : m.threads t = .findStart key) :
    Alone t m (m.set t (.done (.value (m.view.find key)))) := by
  refine .head (by simp [step, hpc]) (scan_alone (m := m) key (.findAt key)
    (fun r : Option (Nat × Node K V) =>
      m.set t (.done (.value (r.map fun x : Nat × Node K V => x.2.value))))
    (by simp [step]) (fun a nd ha => ?_)
    (hI.chain (keyIndex S key)) (hI.length_le _))
  rw [view_mem] at ha
  simp only [step, set_threads, Function.update_same, set_mem, ha, Option.map_some', set_set]
  split_ifs <;> rfl

/-- `remove` on its own. -/
theorem remove_alone (hI : m.view.Inv addrs) (hpc : m.threads t = .remStart key) :
    Alone t m ((m.withView (m.view.remove key).1).set t (.done (.bool (m.view.remove key).2))) := by
  refine .head (by simp [step, hpc]) ((remAt_alone key none (hI.chain (keyIndex S key))
    (hI.length_le _)).trans ?_)
  simp only [Dict.remove, view_mem, view_table]
  rcases m.mem.heap.scanPrev key m.mem.next none (m.table (keyIndex S key)) with
    _ | ⟨_ | q, a, nd⟩
  · exact .refl _
  all_goals exact ⟨3, by simp only [run, step, set, remEnd, Function.update_same,
    Function.update_idem, Option.bind_some, Option.some_bind, withView, view_count]⟩

/-- `insert` or `emplace` on its own; `after` is the node a `try_emplace` deletes once its
`emplace` has returned. -/
theorem ins_alone (m : Machine K V S n) (t : Fin n) (key : K) (value : V) (after : Option Nat) :
    Alone t (m.set t (.ins key value .start after)) ((m.withView (m.view.insert key value).1).set t
      (match after with
       | some made => .teFree made
       | none => .done (.bool true))) :=
  ⟨5, by
    cases after <;> simp [List.replicate, run, step_set_ins, stepIns, withView, Dict.insert]⟩

/-- `insert_or_assign` on its own. -/
theorem insertOrAssign_alone (hI : m.view.Inv addrs) {value : V}
    (hpc : m.threads t = .ioaStart key value) :
    Alone t m ((m.withView (m.view.insertOrAssign key value).1).set t (.done (.bool true))) := by
  set made := m.mem.next
  set m₂ : Machine K V S n := { m with mem := m.mem.allocAt made ⟨key, value, none⟩ }
  refine .head (w := m₂.set t (.ioaLoad key value made)) (by simp [step, hpc])
    (.head (by simp [step]) ((scan_alone (m := m₂) key (.ioaAt key value made)
      (fun r : Option (Nat × Node K V) => match r with
        | some (a, _) =>
          { m₂ with mem := (m₂.mem.modify a fun nd => { nd with value := value }).free made }.set t
            (.done (.bool true))
        | none => { m₂ with mem := m₂.mem.free made }.set t (.ins key value .start none))
      (by simp [step, set]) (fun a nd ha => ?_)
      (hI.chain_allocAt ⟨key, value, none⟩ (keyIndex S key))
      (hI.length_le_allocAt ⟨key, value, none⟩ _)).trans ?_))
  · rw [view_mem] at ha
    simp only [step, set_threads, Function.update_same, set_mem, ha, Option.map_some']
    split_ifs <;> simp [set]
  · simp only [Dict.insertOrAssign, view_mem, view_table]
    rcases (m.mem.allocAt made ⟨key, value, none⟩).heap.scan key
      (m.mem.allocAt made ⟨key, value, none⟩).next (m.table (keyIndex S key)) with _ | ⟨a, nd⟩
    · exact ins_alone _ t key value none
    · exact .refl _

/-- `try_emplace` on its own, where the move out of the caller's `key` leaves `moved key`. -/
theorem tryEmplace_alone (moved : K → K) (hI : m.view.Inv addrs) {value : V}
    (hpc : m.threads t = .teStart key (moved key) value) :
    Alone t m ((m.withView (m.view.tryEmplace moved key value).1).set t
      (.done (.bool (m.view.tryEmplace moved key value).2))) := by
  set made := m.mem.next
  set m₂ : Machine K V S n := { m with mem := m.mem.allocAt made ⟨key, value, none⟩ }
  refine .head (w := m₂.set t (.teLoad key (moved key) made)) (by simp [step, hpc])
    (.head (by simp [step]) ((scan_alone (m := m₂) (moved key) (.teAt key (moved key) made)
      (fun r : Option (Nat × Node K V) => match r with
        | some _ => { m₂ with mem := m₂.mem.free made }.set t (.done (.bool false))
        | none => m₂.set t (.ins key value .start (some made)))
      (by simp [step, m₂]) (fun a nd ha => ?_)
      (hI.chain_allocAt ⟨key, value, none⟩ (keyIndex S key))
      (hI.length_le_allocAt ⟨key, value, none⟩ _)).trans ?_))
  · rw [view_mem] at ha
    simp only [step, set_threads, Function.update_same, set_mem, ha, Option.map_some']
    split_ifs <;> simp [set]
  · simp only [Dict.tryEmplace, view_mem, view_table]
    rcases (m.mem.allocAt made ⟨key, value, none⟩).heap.scan (moved key)
      (m.mem.allocAt made ⟨key, value, none⟩).next (m.table (keyIndex S key)) with _ | ⟨a, nd⟩
    · refine (ins_alone m₂ t key value (some made)).trans (.of_step ?_)
      simp [step, set, withView, Dict.emplace]
      rfl
    · exact .refl _

/-- `clear` on its own. -/
theorem clear_alone (hI : m.view.Inv addrs) (hpc : m.threads t = .clearBucket 0) :
    Alone t m ((m.withView m.view.clear).set t (.done .unit)) := by
  have h := clearBucket_alone (t := t) m.view hI.disjoint S (j := 0) (Nat.zero_add S) (m := m)
    (funext fun i => (if_neg (Nat.not_lt_zero _)).symm) fun i _ => hI.chain i
  rw [← hpc, set_self] at h
  exact h.trans (.of_step (by simp [step, withView, Dict.clear]))

/-! ## A single-threaded run -/

/-- Every call of a single-threaded run, on its own, returns what `Dict.call` returns and
leaves the object as `Dict.call` leaves it. -/
theorem call_alone (hI : m.view.Inv addrs) (c : Call K V) (hpc : m.threads t = c.start) :
    Alone t m ((m.withView (m.view.call c).1).set t (.done (Ret.ofCall (m.view.call c).2))) := by
  cases c with
  | insert key value | emplace key value =>
    simp only [Call.start] at hpc
    have h := ins_alone m t key value none
    rwa [← hpc, set_self] at h
  | insertOrAssign key value =>
    show Alone t m ((m.withView (m.view.insertOrAssign key value).1).set t
      (.done (.bool (m.view.insertOrAssign key value).2)))
    rw [Dict.insertOrAssign_snd]
    exact insertOrAssign_alone hI hpc
  | remove key => exact remove_alone hI hpc
  | clear => exact clear_alone hI hpc

/-- Calls of a single-threaded run made one after another, each by its own thread while no
other thread steps: the machine ends with the object `Dict.run` leaves, and the threads
return what `Dict.run` says the calls return. -/
theorem serial_run (ops : List (Fin n × Call K V)) (hnd : (ops.map Prod.fst).Nodup) :
    ∀ {m : Machine K V S n} {addrs : Fin S → List Nat}, m.view.Inv addrs →
      (∀ p ∈ ops, m.threads p.1 = p.2.start) →
      ∃ m', Relation.ReflTransGen Next m m' ∧ m'.view = (m.view.run (ops.map Prod.snd)).1 ∧
        ops.map (fun p => m'.threads p.1) =
          (m.view.run (ops.map Prod.snd)).2.map fun r => .done (Ret.ofCall r) := by
  induction ops with
  | nil => intro m _ _ _; exact ⟨m, .refl, rfl, rfl⟩
  | cons p ops ih =>
    intro m addrs hI hstart
    obtain ⟨t, c⟩ := p
    simp only [List.map_cons, List.nodup_cons] at hnd
    have h₁ := call_alone hI c (hstart _ (List.mem_cons_self _ _))
    obtain ⟨addrs', hfp⟩ := hI.footprint_call c
    -- the threads of the later calls have not moved
    have hstart' : ∀ p ∈ ops, ((m.withView (m.view.call c).1).set t
        (.done (Ret.ofCall (m.view.call c).2))).threads p.1 = p.2.start := fun p hp => by
      have hne : p.1 ≠ t := fun e => hnd.1 (e ▸ List.mem_map_of_mem _ hp)
      rw [set_threads, Function.update_noteq hne]
      exact hstart p (List.mem_cons_of_mem _ hp)
    obtain ⟨m', hr, hv, hth⟩ := ih hnd.2 (m := (m.withView (m.view.call c).1).set t
      (.done (Ret.ofCall (m.view.call c).2))) hfp.inv hstart'
    refine ⟨m', h₁.reach.trans hr, hv, ?_⟩
    rw [List.map_cons, hth, done_of_reach hr (Function.update_same _ _ _)]
    rfl

/-- An `insert` by one thread and then a `remove` of its key by another, on an empty object. -/
theorem serial_run_insert_remove :
    ([((0 : Fin 2), (Call.insert 1 10 : Call Nat Nat)), (1, .remove 1)].map Prod.fst).Nodup ∧
      (start (Dict.init Memory.empty : Dict Nat Nat 4)
        ![(Call.insert 1 10 : Call Nat Nat).start, (Call.remove 1).start]).view.Inv (fun _ => []) ∧
      (∀ p ∈ [((0 : Fin 2), (Call.insert 1 10 : Call Nat Nat)), (1, .remove 1)],
        (start (Dict.init Memory.empty : Dict Nat Nat 4)
          ![(Call.insert 1 10 : Call Nat Nat).start, (Call.remove 1).start]).threads p.1 =
            p.2.start) ∧
      ∃ m', Relation.ReflTransGen Next (start (Dict.init Memory.empty : Dict Nat Nat 4)
          ![(Call.insert 1 10 : Call Nat Nat).start, (Call.remove 1).start]) m' ∧
        m'.view = ((Dict.init Memory.empty : Dict Nat Nat 4).run [.insert 1 10, .remove 1]).1 ∧
        [((0 : Fin 2), (Call.insert 1 10 : Call Nat Nat)), (1, .remove 1)].map
            (fun p => m'.threads p.1) =
          ((Dict.init Memory.empty : Dict Nat Nat 4).run [.insert 1 10, .remove 1]).2.map
            fun r => .done (Ret.ofCall r) :=
  have hI : (start (Dict.init Memory.empty : Dict Nat Nat 4)
      ![(Call.insert 1 10 : Call Nat Nat).start, (Call.remove 1).start]).view.Inv (fun _ => []) :=
    Dict.inv_init _
  have hs : ∀ p ∈ [((0 : Fin 2), (Call.insert 1 10 : Call Nat Nat)), (1, .remove 1)],
      (start (Dict.init Memory.empty : Dict Nat Nat 4)
        ![(Call.insert 1 10 : Call Nat Nat).start, (Call.remove 1).start]).threads p.1 =
          p.2.start := by
    simp only [List.mem_cons, List.mem_singleton, List.not_mem_nil, or_false]
    rintro p (rfl | rfl) <;> rfl
  ⟨by decide, hI, hs, serial_run _ (by decide) hI hs⟩

end Machine

end ModernCli
