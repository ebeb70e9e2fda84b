import Mathlib

/-!
# Nodes, the heap and bucket chains

Every bucket of `dictionary_t` is a singly linked chain of heap nodes. `Memory` is the heap
they live in, with the allocator behind `new`: it puts a node at an address where none
lives, and `delete` empties the address again.

`Chain heap head addrs` says that following `next` from `head` visits the addresses `addrs`
and then reaches `nullptr`. A cyclic or dangling chain has no such list, so the relation is
the finiteness and acyclicity of a chain, not an assumption beside it: the list is unique
(`Chain.unique`) and repeats no address (`Chain.nodup`). A chain reads only the `next`
field of its own nodes (`Chain.congr`), so a write elsewhere, or a write of a node's value,
leaves it as it is.
-/

namespace ModernCli

/-- `dictionary_t::node`: an owned key and value and the atomic `next` link, where `none`
is `nullptr`. -/
structure Node (K V : Type) where
  key : K
  value : V
  next : Option Nat
  deriving DecidableEq, Repr

/-- The heap: the node at each address, `none` where no node lives. -/
abbrev Heap (K V : Type) := Nat → Option (Node K V)

variable {K V : Type}

/-- The `next` field at `a`, if a node lives there. -/
def Heap.nextAt (h : Heap K V) (a : Nat) : Option (Option Nat) := (h a).map Node.next

/-- Following `next` from `head` visits `addrs` and ends at `nullptr`. -/
inductive Chain (h : Heap K V) : Option Nat → List Nat → Prop
  | nil : Chain h none []
  | cons {a : Nat} {n : Node K V} {l : List Nat} :
      h a = some n → Chain h n.next l → Chain h (some a) (a :: l)

namespace Chain

variable {h h' : Heap K V} {p : Option Nat} {l l' : List Nat}

theorem unique (hl : Chain h p l) (hl' : Chain h p l') : l = l' := by
  induction hl generalizing l' with
  | nil => cases hl'; rfl
  | cons hn _ ih =>
    cases hl' with
    | cons hn' hl' =>
      obtain rfl := Option.some.inj (hn.symm.trans hn')
      rw [ih hl']

theorem suffix_of_mem (hl : Chain h p l) {a : Nat} (ha : a ∈ l) :
    ∃ l', Chain h (some a) l' ∧ l' <:+ l := by
  induction hl with
  | nil => cases ha
  | cons hn hl ih =>
    rcases List.mem_cons.mp ha with rfl | ha
    · exact ⟨_, .cons hn hl, List.suffix_refl _⟩
    · obtain ⟨l', h1, h2⟩ := ih ha
      exact ⟨l', h1, h2.trans (List.suffix_cons _ _)⟩

/-- A chain never comes back to a node it has passed. -/
theorem nodup (hl : Chain h p l) : l.Nodup := by
  induction hl with
  | nil => exact List.nodup_nil
  | cons hn hl ih =>
    refine List.nodup_cons.mpr ⟨fun ha => ?_, ih⟩
    obtain ⟨l', h1, h2⟩ := hl.suffix_of_mem ha
    have hlen := h2.length_le
    rw [← (Chain.cons hn hl).unique h1, List.length_cons] at hlen
    omega

theorem isSome_of_mem (hl : Chain h p l) {a : Nat} (ha : a ∈ l) : (h a).isSome := by
  induction hl with
  | nil => cases ha
  | cons hn _ ih =>
    rcases List.mem_cons.mp ha with rfl | ha
    · simp [hn]
    · exact ih ha

/-- A chain depends only on the `next` fields of its own nodes. -/
theorem congr (hl : Chain h p l) (heq : ∀ a ∈ l, h'.nextAt a = h.nextAt a) : Chain h' p l := by
  induction hl with
  | nil => exact .nil
  | cons hn _ ih =>
    have ha := heq _ (List.mem_cons_self _ _)
    simp only [Heap.nextAt, hn, Option.map_some'] at ha
    obtain ⟨n', hn', hnext⟩ := Option.map_eq_some'.mp ha
    exact .cons hn' (hnext ▸ ih fun b hb => heq b (List.mem_cons_of_mem _ hb))

theorem update_of_not_mem (hl : Chain h p l) {a : Nat} (ha : a ∉ l) (x : Option (Node K V)) :
    Chain (Function.update h a x) p l :=
  hl.congr fun b hb => by
    simp [Heap.nextAt, Function.update_noteq (ne_of_mem_of_not_mem hb ha)]

/-- Pointing `b.next` past its successor `a` drops `a` from the chain: the unlink of
`remove` when `a` is not the head. -/
theorem splice {pre post : List Nat} {a b : Nat} (hl : Chain h p (pre ++ b :: a :: post))
    {nb n : Node K V} (hb : h b = some nb) (ha : h a = some n) :
    Chain (Function.update h b (some { nb with next := n.next })) p (pre ++ b :: post) := by
  have hnd := hl.nodup
  induction pre generalizing p with
  | nil =>
    cases hl with
    | cons hb' hl =>
      obtain rfl := Option.some.inj (hb.symm.trans hb')
      generalize nb.next = q at hl
      cases hl with
      | cons ha' hl =>
        obtain rfl := Option.some.inj (ha.symm.trans ha')
        have hbpost : b ∉ post := fun h => (List.nodup_cons.mp hnd).1 (by simp [h])
        exact .cons (Function.update_same _ _ _) (hl.update_of_not_mem hbpost _)
  | cons c pre ih =>
    cases hl with
    | cons hc hl =>
      have hcb : c ≠ b := fun h => (List.nodup_cons.mp hnd).1 (by simp [h])
      exact .cons (by rw [Function.update_noteq hcb]; exact hc) (ih hl (List.nodup_cons.mp hnd).2)

end Chain

/-- The heap with the allocator behind `new`: `next` bounds the addresses handed out, and no
node lives at or above it. -/
structure Memory (K V : Type) where
  heap : Heap K V
  next : Nat
  unused : ∀ a, next ≤ a → heap a = none

namespace Memory

/-- The heap before any `new`. -/
def empty : Memory K V := ⟨fun _ => none, 0, fun _ _ => rfl⟩

/-- `new node(...)` at the free address `a`. -/
def allocAt (m : Memory K V) (a : Nat) (n : Node K V) : Memory K V :=
  ⟨Function.update m.heap a (some n), max m.next (a + 1), fun b hb => by
    rw [Function.update_noteq (by omega)]
    exact m.unused b (by omega)⟩

/-- `delete a`. -/
def free (m : Memory K V) (a : Nat) : Memory K V :=
  ⟨Function.update m.heap a none, m.next, fun b hb => by
    by_cases hb' : b = a
    · subst hb'; simp
    · rw [Function.update_noteq hb']; exact m.unused b hb⟩

/-- A write into the node at `a` (a store to its `next` or its `value`); nothing happens
where no node lives. -/
def modify (m : Memory K V) (a : Nat) (f : Node K V → Node K V) : Memory K V :=
  ⟨Function.update m.heap a ((m.heap a).map f), m.next, fun b hb => by
    by_cases hb' : b = a
    · subst hb'; simp [m.unused b hb]
    · rw [Function.update_noteq hb']; exact m.unused b hb⟩

@[simp] theorem allocAt_heap (m : Memory K V) (a : Nat) (n : Node K V) :
    (m.allocAt a n).heap = Function.update m.heap a (some n) := rfl

@[simp] theorem allocAt_next (m : Memory K V) (a : Nat) (n : Node K V) :
    (m.allocAt a n).next = max m.next (a + 1) := rfl

@[simp] theorem free_heap (m : Memory K V) (a : Nat) :
    (m.free a).heap = Function.update m.heap a none := rfl

@[simp] theorem modify_heap (m : Memory K V) (a : Nat) (f : Node K V → Node K V) :
    (m.modify a f).heap = Function.update m.heap a ((m.heap a).map f) := rfl

@[simp] theorem free_next (m : Memory K V) (a : Nat) : (m.free a).next = m.next := rfl

@[simp] theorem modify_next (m : Memory K V) (a : Nat) (f : Node K V → Node K V) :
    (m.modify a f).next = m.next := rfl

theorem lt_next_of_isSome (m : Memory K V) {a : Nat} (ha : (m.heap a).isSome) : a < m.next := by
  by_contra hge
  simp [m.unused a (by omega)] at ha

/-- A chain in memory is no longer than the number of addresses handed out, so a loop that
follows it for `next` steps reaches `nullptr`. -/
theorem length_le_of_chain (m : Memory K V) {p : Option Nat} {l : List Nat}
    (hl : Chain m.heap p l) : l.length ≤ m.next := by
  have hsub : l ⊆ List.range m.next := fun a ha =>
    List.mem_range.mpr (m.lt_next_of_isSome (hl.isSome_of_mem ha))
  simpa using (List.subperm_of_subset hl.nodup hsub).length_le

end Memory

end ModernCli
