import Mathlib
import ModernCli.Dictionary.Refinement

/-!
# `try_emplace` on a key whose move changes it

`try_emplace(key, value)` allocates its node with the key moved into it, and then scans the
bucket of the original key for the node's key, which is what the caller's key holds once
moved from (`Dict.tryEmplace moved`). For a key type whose moved-from value is the original,
such as `int`, the scan looks for the caller's key. For `std::string` it looks for the empty
string:

* `Dict.Inv.tryEmplace_of_not_found`: when the scan does not find the moved-from key, the
  call links a node with the key and pushes on the key's stack, empty or not;
* `Dict.Refines.tryEmplace_moved_miss`: so on the abstract stacks the call pushes, also on a
  key that already has a value;
* `Dict.dict_try_emplace_string_key_twice`: a `std::string` key gets two nodes.
-/

set_option linter.unusedSectionVars false

namespace ModernCli

variable {K V : Type} [DecidableEq K] [Hashable K] {S : Nat} [NeZero S]

namespace Dict

variable {d : Dict K V S} {addrs : Fin S → List Nat}

/-- A change of the heap that no chain address sees keeps the invariant and every stack. -/
theorem Inv.of_agree (hI : d.Inv addrs) (d' : Dict K V S)
    (hh : ∀ i, ∀ a ∈ addrs i, d'.mem.heap a = d.mem.heap a) (ht : d'.table = d.table)
    (hc : d'.count = d.count) : d'.Inv addrs ∧ ∀ key, d'.stack addrs key = d.stack addrs key := by
  have hent : ∀ i, d'.mem.heap.entries (addrs i) = d.mem.heap.entries (addrs i) := fun i =>
    Heap.entries_congr fun a ha => by rw [hh i a ha]
  refine ⟨⟨fun i => ?_, hI.disjoint, fun i => hent i ▸ hI.index i, hc ▸ hI.count⟩,
    fun key => by simp only [stack, hent]⟩
  rw [ht]
  exact (hI.chain i).congr fun a ha => by simp only [Heap.nextAt, hh i a ha]

/-- The scan of `try_emplace` looks for the key `probe` in the bucket of `key`: it finds the
stack of `probe` when the two share a bucket, and nothing otherwise. -/
theorem Inv.stackOf_bucket (hI : d.Inv addrs) (probe key : K) :
    stackOf probe (d.mem.heap.entries (addrs (keyIndex S key))) =
      if keyIndex S probe = keyIndex S key then d.stack addrs probe else [] := by
  split_ifs with h
  · rw [stack, h]
  · rw [stackOf_eq_nil_iff]
    rintro e he rfl
    exact h (hI.index _ e he)

/-- When the scan does not find `moved key` in the bucket of `key`, `try_emplace` links a node
with `key` at the head of its bucket, deletes its own node, and returns true: it pushes on the
stack of `key`, empty or not. -/
theorem Inv.tryEmplace_of_not_found (hI : d.Inv addrs) {moved : K → K} {key : K} (value : V)
    (hk : stackOf (moved key) (d.mem.heap.entries (addrs (keyIndex S key))) = []) :
    (d.tryEmplace moved key value).2 = true ∧ ∃ addrs', (d.tryEmplace moved key value).1.Inv addrs' ∧
      (d.tryEmplace moved key value).1.count = d.count + 1 ∧
      ∀ key', (d.tryEmplace moved key value).1.stack addrs' key' =
        if key = key' then value :: d.stack addrs key' else d.stack addrs key' := by
  set made := d.mem.next
  set d₁ : Dict K V S := ⟨d.mem.allocAt made ⟨key, value, none⟩, d.table, d.count⟩ with hd₁
  have hs := hI.scan_allocAt_isSome ⟨key, value, none⟩ (moved key) (keyIndex S key)
  rw [hk] at hs
  have hnone : d₁.mem.heap.scan (moved key) d₁.mem.next (d.table (keyIndex S key)) = none := by
    rw [← Option.not_isSome_iff_eq_none, hs]; simp
  have heq : d.tryEmplace moved key value =
      (⟨(d₁.insert key value).1.mem.free made, (d₁.insert key value).1.table,
        (d₁.insert key value).1.count⟩, true) := by
    simp only [tryEmplace, emplace, hnone]
  -- `made` is on no chain, before or after the `insert`
  have hmade : ∀ i, ∀ a ∈ addrs i, a ≠ made := fun i a ha h => by
    subst h; exact hI.next_not_mem i ha
  obtain ⟨hI₁, hs₁⟩ := hI.of_agree d₁ (fun i a ha => by
    simp [d₁, Function.update_noteq (hmade i a ha)]) rfl rfl
  have hI₂ := hI₁.insert key value
  obtain ⟨hI₃, hs₃⟩ := hI₂.of_agree ⟨(d₁.insert key value).1.mem.free made,
      (d₁.insert key value).1.table, (d₁.insert key value).1.count⟩ (fun i a ha => by
    have : a ≠ made := by
      simp only [insertAddrs, Function.update_apply] at ha
      split_ifs at ha
      · rcases List.mem_cons.mp ha with rfl | ha
        · simp [d₁, made]
        · exact hmade _ a ha
      · exact hmade i a ha
    rw [Memory.free_heap, Function.update_noteq this]) rfl rfl
  rw [heq]
  refine ⟨rfl, _, hI₃, by simp [d₁], fun key' => ?_⟩
  rw [hs₃, hI₁.stack_insert, hs₁]

/-- Unless the moved-from key has a value in the bucket of `key`, `try_emplace` returns true and
pushes `value` on the stack of `key`, also when that stack already holds a value. -/
theorem Refines.tryEmplace_moved_miss {d : Dict K V S} {m : Stacks K V} (h : d.Refines m)
    {moved : K → K} {key : K} (value : V)
    (hm : m.stack (moved key) = [] ∨ keyIndex S (moved key) ≠ keyIndex S key) :
    (d.tryEmplace moved key value).1.Refines (m.push key value) ∧
      (d.tryEmplace moved key value).2 = true := by
  obtain ⟨addrs, hI, hs, hc⟩ := h
  have hk : stackOf (moved key) (d.mem.heap.entries (addrs (keyIndex S key))) = [] := by
    rw [hI.stackOf_bucket]
    split_ifs with hb
    · rw [hs]; exact hm.resolve_right (not_not.mpr hb)
    · rfl
  obtain ⟨hret, addrs', hI', hc', hs'⟩ := hI.tryEmplace_of_not_found value hk
  refine ⟨⟨addrs', hI', fun key' => ?_, by simp [hc', hc]⟩, hret⟩
  rw [hs', hs]
  by_cases hkk : key = key'
  · subst hkk; simp
  · rw [if_neg hkk, Stacks.stack_push_of_ne _ hkk]

/-- `dictionary_t<std::string, int, 1>`, a moved-from `std::string` being empty:
`try_emplace("a", 1)` and then `try_emplace("a", 2)` both link a node, and afterwards
`size()` is 2 and `find("a")` is 2. -/
theorem dict_try_emplace_string_key_twice :
    (((init Memory.empty : Dict String Nat 1).tryEmplace (fun _ => "") "a" 1).1.tryEmplace
        (fun _ => "") "a" 2).2 = true ∧
      ((init Memory.empty : Dict String Nat 1).tryEmplace (fun _ => "") "a" 1).1.size = 1 ∧
      (((init Memory.empty : Dict String Nat 1).tryEmplace (fun _ => "") "a" 1).1.tryEmplace
        (fun _ => "") "a" 2).1.size = 2 ∧
      (((init Memory.empty : Dict String Nat 1).tryEmplace (fun _ => "") "a" 1).1.tryEmplace
        (fun _ => "") "a" 2).1.find "a" = some 2 := by
  have h₁ : ((init Memory.empty : Dict String Nat 1).tryEmplace (fun _ => "") "a" 1).1.Refines
      ((Stacks.empty : Stacks String Nat).push "a" 1) :=
    ((refines_init Memory.empty).tryEmplace_moved_miss 1 (.inl rfl)).1
  obtain ⟨h₂, hr⟩ : (((init Memory.empty : Dict String Nat 1).tryEmplace (fun _ => "") "a" 1).1.tryEmplace
      (fun _ => "") "a" 2).1.Refines (((Stacks.empty : Stacks String Nat).push "a" 1).push "a" 2) ∧
      (((init Memory.empty : Dict String Nat 1).tryEmplace (fun _ => "") "a" 1).1.tryEmplace
        (fun _ => "") "a" 2).2 = true :=
    h₁.tryEmplace_moved_miss 2 (.inl (by decide))
  refine ⟨hr, by rw [h₁.observes.size]; rfl, by rw [h₂.observes.size]; rfl, ?_⟩
  rw [h₂.observes.find]
  decide

end Dict

end ModernCli
