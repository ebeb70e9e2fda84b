import Mathlib
import ModernCli.Dictionary.Basic
import ModernCli.Dictionary.Stacks

/-!
# What the chains hold

`Heap.entries h addrs` is the key and value of each node at `addrs`, in order. The loops of
`dictionary_t` are specified against it, for a chain they follow to its end:

* `Chain.walk_entries`: the walk of `keys` and `each` reads the chain's entries;
* `Chain.scan_none`, `Chain.scan_some`: the scan of `find` and its siblings fails only when no
  entry of the chain has the key, and otherwise stops at the first node that has it;
* `Chain.scanPrev_some`: the scan of `remove` also returns the node before it.

`Dict.Inv d addrs` is the representation invariant of one object, with `addrs i` the
addresses of bucket `i`'s chain: every bucket is a chain, no node is on two chains, every
node sits in its key's bucket, and `count_` is the number of nodes.
-/

set_option linter.unusedSectionVars false

namespace ModernCli

variable {K V : Type}

namespace Heap

/-- The key and value of the node at each of `addrs`, in order. -/
def entries (h : Heap K V) (addrs : List Nat) : List (K × V) :=
  addrs.filterMap fun a => (h a).map fun n => (n.key, n.value)

variable {h h' : Heap K V} {p : Option Nat} {l : List Nat}

@[simp] theorem entries_nil : h.entries [] = [] := rfl

theorem entries_cons {a : Nat} {n : Node K V} (ha : h a = some n) (l : List Nat) :
    h.entries (a :: l) = (n.key, n.value) :: h.entries l := by
  simp [entries, ha]

@[simp] theorem entries_append (l l' : List Nat) : h.entries (l ++ l') = h.entries l ++ h.entries l' := by
  simp [entries]

/-- The entries depend only on the keys and values at their addresses. -/
theorem entries_congr
    (heq : ∀ a ∈ l, (h' a).map (fun n => (n.key, n.value)) = (h a).map fun n => (n.key, n.value)) :
    h'.entries l = h.entries l :=
  List.filterMap_congr fun a ha => by simpa using heq a ha

theorem entries_update_of_not_mem {a : Nat} (ha : a ∉ l) (x : Option (Node K V)) :
    Heap.entries (Function.update h a x) l = h.entries l :=
  entries_congr fun _ hb => by rw [Function.update_noteq (ne_of_mem_of_not_mem hb ha)]

end Heap

namespace Chain

variable {h : Heap K V} {p : Option Nat} {l : List Nat}

open Heap

theorem walk_entries (hl : Chain h p l) {fuel : Nat} (hf : l.length ≤ fuel) :
    (h.walk fuel p).map (fun n => (n.key, n.value)) = h.entries l := by
  induction hl generalizing fuel with
  | nil => cases fuel <;> rfl
  | cons hn _ ih =>
    obtain ⟨fuel, rfl⟩ := Nat.exists_eq_add_of_lt (Nat.lt_of_lt_of_le (Nat.zero_lt_succ _) hf)
    simp only [walk, hn, List.map_cons, entries_cons hn, Nat.zero_add]
    rw [ih (by simpa using hf)]

variable [DecidableEq K]

theorem scan_none (hl : Chain h p l) {key : K} {fuel : Nat} (hf : l.length ≤ fuel)
    (hs : h.scan key fuel p = none) : stackOf key (h.entries l) = [] := by
  induction hl generalizing fuel with
  | nil => rfl
  | cons hn _ ih =>
    obtain ⟨fuel, rfl⟩ := Nat.exists_eq_add_of_lt (Nat.lt_of_lt_of_le (Nat.zero_lt_succ _) hf)
    simp only [scan, hn, Nat.zero_add] at hs
    split_ifs at hs with hk
    rw [entries_cons hn, stackOf_cons, if_neg hk]
    exact ih (by simpa using hf) hs

theorem scan_some (hl : Chain h p l) {key : K} {fuel a : Nat} {n : Node K V}
    (hs : h.scan key fuel p = some (a, n)) :
    ∃ pre post, l = pre ++ a :: post ∧ stackOf key (h.entries pre) = [] ∧
      h a = some n ∧ n.key = key := by
  induction hl generalizing fuel with
  | nil => cases fuel <;> simp [scan] at hs
  | @cons b nb l hn _ ih =>
    cases fuel with
    | zero => simp [scan] at hs
    | succ fuel =>
      simp only [scan, hn] at hs
      split_ifs at hs with hk
      · obtain ⟨rfl, rfl⟩ := Prod.mk.inj (Option.some.inj hs)
        exact ⟨[], l, rfl, rfl, hn, hk⟩
      · obtain ⟨pre, post, rfl, hpre, ha, hka⟩ := ih hs
        refine ⟨b :: pre, post, rfl, ?_, ha, hka⟩
        rw [entries_cons hn, stackOf_cons, if_neg hk, hpre]

/-- The scan of `find` returns the top of the key's stack in the chain it follows. -/
theorem scan_value (hl : Chain h p l) (key : K) {fuel : Nat} (hf : l.length ≤ fuel) :
    (h.scan key fuel p).map (fun x => x.2.value) = (stackOf key (h.entries l)).head? := by
  cases hs : h.scan key fuel p with
  | none => simp [hl.scan_none hf hs]
  | some x =>
    obtain ⟨a, n⟩ := x
    obtain ⟨pre, post, rfl, hpre, ha, rfl⟩ := hl.scan_some hs
    simp [hpre, entries_cons ha]

theorem scan_isSome (hl : Chain h p l) (key : K) {fuel : Nat} (hf : l.length ≤ fuel) :
    (h.scan key fuel p).isSome = !(stackOf key (h.entries l)).isEmpty := by
  have h1 := congrArg Option.isSome (hl.scan_value key hf)
  simp only [Option.isSome_map'] at h1
  rw [h1]
  cases stackOf key (h.entries l) <;> rfl

theorem scanPrev_some (hl : Chain h p l) {key : K} {fuel a : Nat} {prev q : Option Nat}
    {n : Node K V} (hs : h.scanPrev key fuel prev p = some (q, a, n)) :
    ∃ pre post, l = pre ++ a :: post ∧ stackOf key (h.entries pre) = [] ∧
      h a = some n ∧ n.key = key ∧ q = pre.getLast?.or prev := by
  induction hl generalizing fuel prev with
  | nil => cases fuel <;> simp [scanPrev] at hs
  | @cons b nb l hn _ ih =>
    cases fuel with
    | zero => simp [scanPrev] at hs
    | succ fuel =>
      simp only [scanPrev, hn] at hs
      split_ifs at hs with hk
      · obtain ⟨rfl, rfl, rfl⟩ : prev = q ∧ b = a ∧ nb = n := by simpa using hs
        exact ⟨[], l, rfl, rfl, hn, hk, rfl⟩
      · obtain ⟨pre, post, rfl, hpre, ha, hka, hq⟩ := ih hs
        refine ⟨b :: pre, post, rfl, ?_, ha, hka, ?_⟩
        · rw [entries_cons hn, stackOf_cons, if_neg hk, hpre]
        · rw [hq]; cases pre <;> simp [List.getLast?_cons]

theorem scanPrev_none (hl : Chain h p l) {key : K} {fuel : Nat} (hf : l.length ≤ fuel)
    {prev : Option Nat} (hs : h.scanPrev key fuel prev p = none) :
    stackOf key (h.entries l) = [] := by
  induction hl generalizing fuel prev with
  | nil => rfl
  | cons hn _ ih =>
    obtain ⟨fuel, rfl⟩ := Nat.exists_eq_add_of_lt (Nat.lt_of_lt_of_le (Nat.zero_lt_succ _) hf)
    simp only [scanPrev, hn, Nat.zero_add] at hs
    split_ifs at hs with hk
    rw [entries_cons hn, stackOf_cons, if_neg hk]
    exact ih (by simpa using hf) hs

end Chain

/-- The representation invariant of one `dictionary_t` object, with `addrs i` the addresses
on bucket `i`'s chain. -/
structure Dict.Inv [Hashable K] {S : Nat} [NeZero S] (d : Dict K V S) (addrs : Fin S → List Nat) :
    Prop where
  /-- Every bucket is a finite, acyclic chain. -/
  chain : ∀ i, Chain d.mem.heap (d.table i) (addrs i)
  /-- No node is on two buckets' chains. -/
  disjoint : ∀ i j, i ≠ j → ∀ a ∈ addrs i, a ∉ addrs j
  /-- Every node sits in the bucket `key_index` gives its key. -/
  index : ∀ i, ∀ e ∈ d.mem.heap.entries (addrs i), keyIndex S e.1 = i
  /-- `count_` is the number of nodes. -/
  count : d.count = ((∑ i, (addrs i).length : Nat) : Int)

namespace Dict.Inv

variable [Hashable K] {S : Nat} [NeZero S] {d : Dict K V S} {addrs : Fin S → List Nat}

/-- The address the allocator hands out next is on no chain. -/
theorem next_not_mem (hI : d.Inv addrs) (i : Fin S) : d.mem.next ∉ addrs i := fun ha =>
  Nat.lt_irrefl _ (d.mem.lt_next_of_isSome ((hI.chain i).isSome_of_mem ha))

theorem length_le (hI : d.Inv addrs) (i : Fin S) : (addrs i).length ≤ d.mem.next :=
  d.mem.length_le_of_chain (hI.chain i)

/-- The invariant reads only the heap, the bucket heads and `count_`. -/
theorem congr (hI : d.Inv addrs) {d' : Dict K V S} (hh : d'.mem.heap = d.mem.heap)
    (ht : d'.table = d.table) (hc : d'.count = d.count) : d'.Inv addrs where
  chain i := by rw [hh, ht]; exact hI.chain i
  disjoint := hI.disjoint
  index := by rw [hh]; exact hI.index
  count := by rw [hc]; exact hI.count

end Dict.Inv

/-- A sum over a function updated at one point. -/
theorem sum_comp_update {ι α M : Type} [Fintype ι] [DecidableEq ι] [AddCommMonoid M] (g : ι → α)
    (i : ι) (x : α) (f : α → M) : ∑ j, f (Function.update g i x j) + f (g i) = ∑ j, f (g j) + f x := by
  rw [← Finset.add_sum_erase _ _ (Finset.mem_univ i), ← Finset.add_sum_erase _ _ (Finset.mem_univ i),
    Finset.sum_congr rfl fun j hj => by rw [Function.update_noteq (Finset.ne_of_mem_erase hj)],
    Function.update_same]
  abel

/-! ## A node put at the head of one bucket

`insert` and the concurrent `compare_exchange_weak` both link a node `a` that no chain holds
in front of bucket `idx`; these are the facts both invariants need of the new chains. -/

section Prepend

variable [Hashable K] {S : Nat} [NeZero S] {h : Heap K V} {addrs : Fin S → List Nat}
  {idx : Fin S} {a : Nat} {n : Node K V}

theorem chain_prepend {table : Fin S → Option Nat} (hn : h a = some n)
    (hc : ∀ i, Chain h (table i) (addrs i)) (hnext : n.next = table idx) (i : Fin S) :
    Chain h (Function.update table idx (some a) i) (Function.update addrs idx (a :: addrs idx) i) := by
  by_cases hi : i = idx
  · subst hi
    rw [Function.update_same, Function.update_same]
    exact .cons hn (hnext ▸ hc i)
  · rw [Function.update_noteq hi, Function.update_noteq hi]
    exact hc i

/-- The chains after a node is put in front of bucket `idx`. -/
theorem mem_prepend {b : Nat} {i : Fin S} :
    b ∈ Function.update addrs idx (a :: addrs idx) i ↔ i = idx ∧ b = a ∨ b ∈ addrs i := by
  by_cases hi : i = idx
  · subst hi; simp
  · simp [Function.update_noteq hi, hi]

theorem suffix_prepend (i : Fin S) : addrs i <:+ Function.update addrs idx (a :: addrs idx) i := by
  by_cases hi : i = idx
  · subst hi; rw [Function.update_same]; exact List.suffix_cons _ _
  · rw [Function.update_noteq hi]

theorem disjoint_prepend (hd : ∀ i j, i ≠ j → ∀ b ∈ addrs i, b ∉ addrs j) (ha : ∀ i, a ∉ addrs i) :
    ∀ i j, i ≠ j → ∀ b ∈ Function.update addrs idx (a :: addrs idx) i,
      b ∉ Function.update addrs idx (a :: addrs idx) j := by
  intro i j hij b hb hb'
  rcases mem_prepend.mp hb with ⟨hi, rfl⟩ | hb <;> rcases mem_prepend.mp hb' with ⟨hj, e⟩ | hb'
  · exact hij (hi.trans hj.symm)
  · exact ha j hb'
  · exact ha i (e ▸ hb)
  · exact hd i j hij b hb hb'

theorem entries_prepend (hn : h a = some n) (i : Fin S) :
    h.entries (Function.update addrs idx (a :: addrs idx) i) =
      if i = idx then (n.key, n.value) :: h.entries (addrs i) else h.entries (addrs i) := by
  split_ifs with hi
  · subst hi; rw [Function.update_same, Heap.entries_cons hn]
  · rw [Function.update_noteq hi]

theorem index_prepend (hn : h a = some n) (hidx : keyIndex S n.key = idx)
    (hix : ∀ i, ∀ e ∈ h.entries (addrs i), keyIndex S e.1 = i) :
    ∀ i, ∀ e ∈ h.entries (Function.update addrs idx (a :: addrs idx) i), keyIndex S e.1 = i := by
  intro i e he
  rw [entries_prepend hn] at he
  split_ifs at he with hi
  · rcases List.mem_cons.mp he with rfl | he
    · exact hidx.trans hi.symm
    · exact hix i e he
  · exact hix i e he

theorem sum_length_prepend :
    ∑ i, (Function.update addrs idx (a :: addrs idx) i).length = ∑ i, (addrs i).length + 1 := by
  have := sum_comp_update addrs idx (a :: addrs idx) List.length
  simp only [List.length_cons] at this
  omega

theorem sum_entries_prepend (hn : h a = some n) :
    ∑ i, (h.entries (Function.update addrs idx (a :: addrs idx) i) : Multiset (K × V)) =
      ∑ i, (h.entries (addrs i) : Multiset (K × V)) + {(n.key, n.value)} := by
  have := sum_comp_update addrs idx (a :: addrs idx) fun l => (h.entries l : Multiset (K × V))
  rw [Heap.entries_cons hn, ← Multiset.cons_coe, ← Multiset.singleton_add] at this
  exact add_right_cancel (this.trans (by abel))

end Prepend

end ModernCli
