import ModernCli.Dictionary.Calls

/-!
# A single thread sees a stack of values per key

A run of `insert`, `emplace`, `insert_or_assign`, `remove` and `clear` calls on a fresh
`dictionary_t` refines the abstract `Stacks`: `Dict.Refines d m` holds after every call
(`Dict.refines_call`), every call returns what the abstract call returns, and whatever the
chains, the observers read the abstract stacks (`Dict.Refines.observes`):

* `find` is the top of the key's stack, `contains` its non-emptiness, and `at` the top or
  the failure `std::out_of_range("Key not in dictionary")`;
* `size()` is the number of stacked values, and `empty()` says there are none;
* `each` visits every stacked pair once, and `keys()` lists each key once per stacked
  value.

`Dict.run_refines` puts the two together for every run from the empty table.
-/

set_option linter.unusedSectionVars false

namespace ModernCli

variable {K V : Type}

/-- The calls of a single-threaded run. -/
inductive Call (K V : Type) where
  | insert (key : K) (value : V)
  | emplace (key : K) (value : V)
  | insertOrAssign (key : K) (value : V)
  | remove (key : K)
  | clear

/-- A key occurs in a concatenation of lists as often as in the one list that can hold it. -/
theorem count_flatMap_of_unique {ι α : Type} [DecidableEq α] {l : List ι} (hl : l.Nodup)
    {i : ι} (hi : i ∈ l) (f : ι → List α) (x : α) (h : ∀ j ∈ l, j ≠ i → x ∉ f j) :
    (l.flatMap f).count x = (f i).count x := by
  induction l with
  | nil => cases hi
  | cons j l ih =>
    rw [List.flatMap_cons, List.count_append]
    by_cases hji : j = i
    · subst hji
      have hrest : x ∉ l.flatMap f := by
        simp only [List.mem_flatMap, not_exists, not_and]
        exact fun j' hj' => h j' (List.mem_cons_of_mem _ hj')
          fun e => (List.nodup_cons.mp hl).1 (e ▸ hj')
      rw [List.count_eq_zero.mpr hrest, Nat.add_zero]
    · rw [List.count_eq_zero.mpr (h j (List.mem_cons_self _ _) hji), Nat.zero_add,
        ih (List.nodup_cons.mp hl).2 ((List.mem_cons.mp hi).resolve_left (Ne.symm hji))
          fun j' hj' => h j' (List.mem_cons_of_mem _ hj')]

variable [DecidableEq K] [Hashable K] {S : Nat} [NeZero S]

namespace Stacks

/-- One abstract call, with what it returns (`clear` returns nothing). -/
def call (m : Stacks K V) : Call K V → Stacks K V × Option Bool
  | .insert k v => (m.push k v, some true)
  | .emplace k v => (m.push k v, some true)
  | .insertOrAssign k v => (m.assign k v, some true)
  | .remove k => ((m.pop k).1, some (m.pop k).2)
  | .clear => (empty, none)

/-- A run of abstract calls, with what each returned. -/
def run (m : Stacks K V) : List (Call K V) → Stacks K V × List (Option Bool)
  | [] => (m, [])
  | c :: cs => ((m.call c).1.run cs |>.1, (m.call c).2 :: ((m.call c).1.run cs).2)

end Stacks

namespace Dict

/-- One call on the object, with the `bool` it returns (`clear` returns nothing). -/
def call (d : Dict K V S) : Call K V → Dict K V S × Option Bool
  | .insert k v => ((d.insert k v).1, some (d.insert k v).2)
  | .emplace k v => ((d.emplace k v).1, some (d.emplace k v).2)
  | .insertOrAssign k v => ((d.insertOrAssign k v).1, some (d.insertOrAssign k v).2)
  | .remove k => ((d.remove k).1, some (d.remove k).2)
  | .clear => (d.clear, none)

/-- A run of calls, with what each returned. -/
def run (d : Dict K V S) : List (Call K V) → Dict K V S × List (Option Bool)
  | [] => (d, [])
  | c :: cs => ((d.call c).1.run cs |>.1, (d.call c).2 :: ((d.call c).1.run cs).2)

/-- `d` represents `m`: for some chains the invariant holds, every key's stack in the chains
is its abstract stack, and `count_` is the number of stacked values. -/
def Refines (d : Dict K V S) (m : Stacks K V) : Prop :=
  ∃ addrs, d.Inv addrs ∧ (∀ key, d.stack addrs key = m.stack key) ∧ d.count = m.total

/-- What the observers of an object read off the abstract stacks. -/
structure Observes (d : Dict K V S) (m : Stacks K V) : Prop where
  find : ∀ key, d.find key = (m.stack key).head?
  contains : ∀ key, d.contains key = !(m.stack key).isEmpty
  top : ∀ key, d.at key = m.top key
  size : d.size = m.total
  empty : d.empty = true ↔ m.total = 0
  keys : d.keys.Perm (m.entries.map Prod.fst)
  each : d.each.Perm m.entries

theorem refines_init (mem : Memory K V) : (init mem : Dict K V S).Refines Stacks.empty :=
  ⟨fun _ => [], inv_init mem, fun _ => rfl, rfl⟩

theorem Refines.insert {d : Dict K V S} {m : Stacks K V} (h : d.Refines m) (key : K) (value : V) :
    (d.insert key value).1.Refines (m.push key value) := by
  obtain ⟨addrs, hI, hs, hc⟩ := h
  refine ⟨_, hI.insert key value, fun key' => ?_, by simp [hc]⟩
  rw [hI.stack_insert, hs]
  by_cases hk : key = key'
  · subst hk; simp
  · rw [if_neg hk, Stacks.stack_push_of_ne _ hk]

theorem Refines.insertOrAssign {d : Dict K V S} {m : Stacks K V} (h : d.Refines m) (key : K)
    (value : V) : (d.insertOrAssign key value).1.Refines (m.assign key value) ∧
      (d.insertOrAssign key value).2 = true := by
  obtain ⟨addrs, hI, hs, hc⟩ := h
  by_cases hk : d.stack addrs key = []
  · have hm : (m.stack key).isEmpty := by rw [← hs, hk]; rfl
    have h1 : (⟨(d.mem.allocAt d.mem.next ⟨key, value, none⟩).free d.mem.next, d.table, d.count⟩ :
        Dict K V S).Refines m :=
      ⟨addrs, hI.congr (Memory.allocAt_free_heap _ _) rfl rfl,
        fun key' => by rw [← hs]; simp only [stack, Memory.allocAt_free_heap], hc⟩
    rw [hI.insertOrAssign_of_not_mem value hk, Stacks.assign, if_pos hm]
    exact ⟨h1.insert key value, rfl⟩
  · obtain ⟨hret, hI', hc', hs'⟩ := hI.insertOrAssign_of_mem value hk
    have hm : (m.stack key).isEmpty = false := by
      rw [← hs]; cases h : d.stack addrs key <;> simp_all
    refine ⟨⟨addrs, hI', fun key' => ?_, ?_⟩, hret⟩
    · rw [hs', Stacks.assign, hm, if_neg Bool.false_ne_true, Stacks.stack, hs, Stacks.stack]
      by_cases hkk : key = key'
      · subst hkk
        rw [if_pos rfl, stackOf_replaceFirst_self]
        cases hst : stackOf key m.entries with
        | nil => simp [Stacks.stack, hst] at hm
        | cons v t => rfl
      · rw [if_neg hkk, stackOf_replaceFirst_of_ne hkk]
    · rw [hc', hc, Stacks.assign, hm, if_neg Bool.false_ne_true]
      simp [Stacks.total, length_replaceFirst]

theorem Refines.remove {d : Dict K V S} {m : Stacks K V} (h : d.Refines m) (key : K) :
    (d.remove key).1.Refines (m.pop key).1 ∧ (d.remove key).2 = (m.pop key).2 := by
  obtain ⟨addrs, hI, hs, hc⟩ := h
  have htotal := length_eraseP_stackOf key m.entries
  by_cases hk : d.stack addrs key = []
  · have hm : m.stack key = [] := by rw [← hs, hk]
    have hnil : (m.entries.eraseP fun e => e.1 = key) = m.entries :=
      List.eraseP_of_forall_not fun e he h => (stackOf_eq_nil_iff key _).mp hm e he (by simpa using h)
    rw [hI.remove_of_not_mem hk]
    refine ⟨⟨addrs, hI, fun key' => ?_, ?_⟩, by simp [Stacks.pop, hm]⟩
    · simp [Stacks.pop, Stacks.stack, hnil, hs]
    · simp [Stacks.pop, Stacks.total, hnil, hc]
  · obtain ⟨hret, hc', addrs', -, hI', hs'⟩ := hI.remove_of_mem hk
    have hm : (m.stack key).isEmpty = false := by
      rw [← hs]; cases h : d.stack addrs key <;> simp_all
    refine ⟨⟨addrs', hI', fun key' => ?_, ?_⟩, by simp [hret, Stacks.pop, hm]⟩
    · rw [hs', hs]
      simp only [Stacks.pop, Stacks.stack]
      by_cases hkk : key = key'
      · subst hkk; rw [if_pos rfl, stackOf_eraseP_self]
      · rw [if_neg hkk, stackOf_eraseP_of_ne hkk]
    · simp only [Stacks.stack] at hm
      simp only [Stacks.pop, Stacks.total, hc', hc, hm, Bool.false_eq_true, if_false] at htotal ⊢
      omega

/-- Every call keeps the refinement and returns what the abstract call returns. -/
theorem refines_call {d : Dict K V S} {m : Stacks K V} (h : d.Refines m) (c : Call K V) :
    (d.call c).1.Refines (m.call c).1 ∧ (d.call c).2 = (m.call c).2 := by
  cases c with
  | insert k v => exact ⟨h.insert k v, rfl⟩
  | emplace k v => exact ⟨h.insert k v, rfl⟩
  | insertOrAssign k v =>
    obtain ⟨h', hr⟩ := h.insertOrAssign k v
    exact ⟨h', by simp [call, Stacks.call, hr]⟩
  | remove k =>
    obtain ⟨h', hr⟩ := h.remove k
    exact ⟨h', by simp [call, Stacks.call, hr]⟩
  | clear => exact ⟨⟨fun _ => [], inv_clear d, fun _ => rfl, rfl⟩, rfl⟩

/-- `each` reads the chains' entries, bucket by bucket. -/
theorem Inv.each_eq {d : Dict K V S} {addrs : Fin S → List Nat} (hI : d.Inv addrs) :
    d.each = (List.finRange S).flatMap fun i => d.mem.heap.entries (addrs i) := by
  simp only [each]
  congr 1
  funext i
  exact (hI.chain i).walk_entries (hI.length_le i)

theorem keys_eq_map_each (d : Dict K V S) : d.keys = d.each.map Prod.fst := by
  simp only [keys, each, List.map_flatMap, List.map_map]
  rfl

theorem Refines.observes {d : Dict K V S} {m : Stacks K V} (h : d.Refines m) : d.Observes m := by
  obtain ⟨addrs, hI, hs, hc⟩ := h
  have hscan := fun key => (hI.chain (keyIndex S key)).scan_value key (hI.length_le _)
  have heach : d.each.Perm m.entries := by
    letI : DecidableEq V := Classical.decEq V
    rw [hI.each_eq, List.perm_iff_count]
    rintro ⟨k, v⟩
    rw [count_flatMap_of_unique (List.nodup_finRange S) (List.mem_finRange (keyIndex S k)) _ _
      fun j _ hj he => hj (hI.index j _ he).symm]
    exact (count_stackOf _ k v).trans ((congrArg (List.count v) (hs k)).trans
      (count_stackOf _ k v).symm)
  refine ⟨fun key => ?_, fun key => ?_, fun key => ?_, hc, ?_, ?_, heach⟩
  · rw [find, hscan, ← hs, stack]
  · rw [contains, (hI.chain _).scan_isSome key (hI.length_le _), ← hs, stack]
  · have h1 := hscan key
    rw [← stack, hs] at h1
    rw [Dict.at, Stacks.top]
    cases hsc : d.mem.heap.scan key d.mem.next (d.table (keyIndex S key)) with
    | none =>
      rw [hsc] at h1
      cases hst : m.stack key with
      | nil => rfl
      | cons v t => simp [hst] at h1
    | some x =>
      rw [hsc] at h1
      cases hst : m.stack key with
      | nil => simp [hst] at h1
      | cons v t => simp_all
  · simp [empty, hc, Stacks.total]
  · rw [keys_eq_map_each]; exact heach.map _

/-- From the empty table, every run of calls returns what the abstract run returns, and the
observers of the final object read the abstract stacks. -/
theorem run_refines (mem : Memory K V) (calls : List (Call K V)) :
    ((init mem : Dict K V S).run calls).2 = (Stacks.empty.run calls).2 ∧
      ((init mem : Dict K V S).run calls).1.Observes (Stacks.empty.run calls).1 := by
  suffices h : ∀ (d : Dict K V S) (m : Stacks K V), d.Refines m →
      (d.run calls).2 = (m.run calls).2 ∧ (d.run calls).1.Refines (m.run calls).1 from
    (h _ _ (refines_init mem)).imp_right Refines.observes
  induction calls with
  | nil => exact fun d m h => ⟨rfl, h⟩
  | cons c cs ih =>
    intro d m h
    obtain ⟨h', hr⟩ := refines_call h c
    obtain ⟨hr', h''⟩ := ih _ _ h'
    exact ⟨by simp only [run, Stacks.run, hr, hr'], h''⟩

/-- A `dictionary_t<int, int, 4>` run: `insert(1, 10)`, `insert_or_assign(1, 20)`,
`remove(1)`. -/
theorem run_refines_four_buckets :
    ((init Memory.empty : Dict Nat Nat 4).run [.insert 1 10, .insertOrAssign 1 20, .remove 1]).2 =
        (Stacks.empty.run [.insert 1 10, .insertOrAssign 1 20, .remove 1]).2 ∧
      ((init Memory.empty : Dict Nat Nat 4).run
        [.insert 1 10, .insertOrAssign 1 20, .remove 1]).1.Observes
        (Stacks.empty.run [.insert 1 10, .insertOrAssign 1 20, .remove 1]).1 :=
  run_refines Memory.empty _

end Dict

end ModernCli
