import ModernCli.Dictionary.Representation

/-!
# One call keeps the invariant

For each call of `dictionary_t` run alone, the representation invariant `Dict.Inv` after the
call, with the new chains, and what the call did to every key's stack (`Dict.stack`):

* `Dict.Inv.insert`: `insert` puts its node at the head of the key's bucket and pushes the
  value (`Dict.Inv.stack_insert`);
* `Dict.Inv.insertOrAssign_of_mem`: `insert_or_assign` on a key its bucket holds writes the
  first such node's value, so it replaces the top (`Dict.Inv.assign`); on any other key it is
  `insert` (`Dict.insertOrAssign_of_not_mem`);
* `Dict.Inv.remove_of_mem`: `remove` on a key its bucket holds unlinks the first such node
  and pops the stack; on any other key nothing changes (`Dict.remove_of_not_mem`);
* `Dict.Inv.clear`: `clear` leaves every bucket empty.
-/

set_option linter.unusedSectionVars false

namespace ModernCli

variable {K V : Type} [DecidableEq K] [Hashable K] {S : Nat} [NeZero S]

/-- `new` followed by `delete` of the same node leaves the heap as it was. -/
theorem Memory.allocAt_free_heap (m : Memory K V) (n : Node K V) :
    ((m.allocAt m.next n).free m.next).heap = m.heap := by
  funext b
  by_cases hb : b = m.next
  · subst hb; simp [m.unused _ le_rfl]
  · simp [Function.update_noteq hb]

namespace Dict

/-- The stack of `key` in an object whose chains are `addrs`: the values of the key's bucket
that carry the key, head first. -/
def stack (d : Dict K V S) (addrs : Fin S → List Nat) (key : K) : List V :=
  stackOf key (d.mem.heap.entries (addrs (keyIndex S key)))

variable {d : Dict K V S} {addrs : Fin S → List Nat}

/-! ## `insert` -/

@[simp] theorem insert_heap (d : Dict K V S) (key : K) (value : V) :
    (d.insert key value).1.mem.heap =
      Function.update d.mem.heap d.mem.next (some ⟨key, value, d.table (keyIndex S key)⟩) := by
  funext b
  by_cases hb : b = d.mem.next
  · subst hb; simp [insert]
  · simp [insert, Function.update_noteq hb]

@[simp] theorem insert_table (d : Dict K V S) (key : K) (value : V) :
    (d.insert key value).1.table = Function.update d.table (keyIndex S key) (some d.mem.next) :=
  rfl

@[simp] theorem insert_count (d : Dict K V S) (key : K) (value : V) :
    (d.insert key value).1.count = d.count + 1 := rfl

@[simp] theorem insert_snd (d : Dict K V S) (key : K) (value : V) :
    (d.insert key value).2 = true := rfl

/-- The chains after `insert`: the new node heads the key's bucket. -/
def insertAddrs (d : Dict K V S) (addrs : Fin S → List Nat) (key : K) : Fin S → List Nat :=
  Function.update addrs (keyIndex S key) (d.mem.next :: addrs (keyIndex S key))

theorem Inv.insert_entries (hI : d.Inv addrs) (key : K) (value : V) (i : Fin S) :
    (d.insert key value).1.mem.heap.entries (d.insertAddrs addrs key i) =
      if i = keyIndex S key then (key, value) :: d.mem.heap.entries (addrs i)
      else d.mem.heap.entries (addrs i) := by
  rw [insert_heap, insertAddrs, entries_prepend (Function.update_same _ _ _),
    Heap.entries_update_of_not_mem (hI.next_not_mem i)]

theorem Inv.insert (hI : d.Inv addrs) (key : K) (value : V) :
    (d.insert key value).1.Inv (d.insertAddrs addrs key) where
  chain := by
    rw [insert_heap, insert_table]
    exact chain_prepend (Function.update_same _ _ _)
      (fun i => (hI.chain i).update_of_not_mem (hI.next_not_mem i) _) rfl
  disjoint := disjoint_prepend hI.disjoint hI.next_not_mem
  index := by
    rw [insert_heap]
    exact index_prepend (Function.update_same _ _ _) rfl fun i e he =>
      hI.index i e (by rwa [Heap.entries_update_of_not_mem (hI.next_not_mem i)] at he)
  count := by
    rw [insert_count, hI.count, insertAddrs, sum_length_prepend]
    push_cast; rfl

theorem Inv.stack_insert (hI : d.Inv addrs) (key key' : K) (value : V) :
    (d.insert key value).1.stack (d.insertAddrs addrs key) key' =
      if key = key' then value :: d.stack addrs key' else d.stack addrs key' := by
  rw [stack, hI.insert_entries]
  by_cases hk : key = key'
  · subst hk; simp [stack]
  · split_ifs with hi
    · simp [stack, hk]
    · rfl

/-! ## The scans after `new` -/

theorem Inv.chain_allocAt (hI : d.Inv addrs) (n : Node K V) (i : Fin S) :
    Chain (d.mem.allocAt d.mem.next n).heap (d.table i) (addrs i) :=
  (hI.chain i).update_of_not_mem (hI.next_not_mem i) _

theorem Inv.entries_allocAt (hI : d.Inv addrs) (n : Node K V) (i : Fin S) :
    (d.mem.allocAt d.mem.next n).heap.entries (addrs i) = d.mem.heap.entries (addrs i) :=
  Heap.entries_update_of_not_mem (hI.next_not_mem i) _

theorem Inv.length_le_allocAt (hI : d.Inv addrs) (n : Node K V) (i : Fin S) :
    (addrs i).length ≤ (d.mem.allocAt d.mem.next n).next :=
  (hI.length_le i).trans (le_max_left _ _)

/-- With `made` allocated, the scan of a bucket finds the key exactly when the bucket's
entries hold it. -/
theorem Inv.scan_allocAt_isSome (hI : d.Inv addrs) (n : Node K V) (key : K) (i : Fin S) :
    ((d.mem.allocAt d.mem.next n).heap.scan key (d.mem.allocAt d.mem.next n).next
      (d.table i)).isSome = !(stackOf key (d.mem.heap.entries (addrs i))).isEmpty := by
  rw [(hI.chain_allocAt n i).scan_isSome key (hI.length_le_allocAt n i), hI.entries_allocAt]

/-! ## `insert_or_assign` -/

/-- On a key its bucket does not hold, `insert_or_assign` is `insert` after a `new` and a
`delete` of the unused node. -/
theorem Inv.insertOrAssign_of_not_mem (hI : d.Inv addrs) {key : K} (value : V)
    (hk : d.stack addrs key = []) :
    d.insertOrAssign key value =
      (((⟨(d.mem.allocAt d.mem.next ⟨key, value, none⟩).free d.mem.next, d.table, d.count⟩ :
        Dict K V S).insert key value).1, true) := by
  have hs := hI.scan_allocAt_isSome ⟨key, value, none⟩ key (keyIndex S key)
  rw [← stack, hk] at hs
  have hnone : (d.mem.allocAt d.mem.next ⟨key, value, none⟩).heap.scan key
      (d.mem.allocAt d.mem.next ⟨key, value, none⟩).next (d.table (keyIndex S key)) = none := by
    rw [← Option.not_isSome_iff_eq_none, hs]; simp
  simp only [insertOrAssign, hnone]

/-- What a write of `value` into the node at `a`, the first in its key's bucket with the key,
leaves: the chains stay, and the key's top is replaced. -/
theorem Inv.assign (hI : d.Inv addrs) {d' : Dict K V S} {pre post : List Nat} {a : Nat}
    {n : Node K V} {value : V} (hsplit : addrs (keyIndex S n.key) = pre ++ a :: post)
    (hpre : stackOf n.key (d.mem.heap.entries pre) = []) (ha : d.mem.heap a = some n)
    (hheap : d'.mem.heap = Function.update d.mem.heap a (some { n with value := value }))
    (htable : d'.table = d.table) (hcount : d'.count = d.count) :
    d'.Inv addrs ∧ ∀ key', d'.stack addrs key' =
      if n.key = key' then value :: (d.stack addrs key').tail else d.stack addrs key' := by
  set idx := keyIndex S n.key
  have ha_mem : a ∈ addrs idx := by simp [hsplit]
  have hnd := (hI.chain idx).nodup
  rw [hsplit] at hnd
  have hpre_a : a ∉ pre := fun h => (List.nodup_append.mp hnd).2.2 h (List.mem_cons_self _ _)
  have hpost_a : a ∉ post := (List.nodup_cons.mp (List.nodup_append.mp hnd).2.1).1
  have hent : ∀ i, d'.mem.heap.entries (addrs i) =
      if i = idx then d.mem.heap.entries pre ++ (n.key, value) :: d.mem.heap.entries post
      else d.mem.heap.entries (addrs i) := by
    intro i
    rw [hheap]
    split_ifs with hi
    · subst hi
      rw [hsplit, Heap.entries_append, Heap.entries_update_of_not_mem hpre_a,
        Heap.entries_cons (Function.update_same _ _ _), Heap.entries_update_of_not_mem hpost_a]
    · exact Heap.entries_update_of_not_mem (hI.disjoint idx i (Ne.symm hi) a ha_mem) _
  have hold : d.mem.heap.entries (addrs idx) =
      d.mem.heap.entries pre ++ (n.key, n.value) :: d.mem.heap.entries post := by
    rw [hsplit, Heap.entries_append, Heap.entries_cons ha]
  refine ⟨⟨fun i => ?_, hI.disjoint, fun i e he => ?_, hcount ▸ hI.count⟩, fun key' => ?_⟩
  · rw [hheap, htable]
    exact (hI.chain i).congr fun b _ => by
      by_cases hba : b = a
      · subst hba; simp [Heap.nextAt, ha]
      · simp [Heap.nextAt, Function.update_noteq hba]
  · rw [hent] at he
    split_ifs at he with hi
    · subst hi
      simp only [List.mem_append, List.mem_cons] at he
      rcases he with he | rfl | he
      · exact hI.index _ e (by rw [hold]; simp [he])
      · rfl
      · exact hI.index _ e (by rw [hold]; simp [he])
    · exact hI.index i e he
  · simp only [stack]
    rw [hent]
    by_cases hkey : n.key = key'
    · subst hkey
      simp [hold, hpre]
    · split_ifs with hi
      · simp [hi, hold, hkey]
      · rfl

/-- On a key its bucket holds, `insert_or_assign` writes the value of the first node with
the key: the chains stay, and the key's top is replaced. -/
theorem Inv.insertOrAssign_of_mem (hI : d.Inv addrs) {key : K} (value : V)
    (hk : d.stack addrs key ≠ []) :
    (d.insertOrAssign key value).2 = true ∧ (d.insertOrAssign key value).1.Inv addrs ∧
      (d.insertOrAssign key value).1.count = d.count ∧
      ∀ key', (d.insertOrAssign key value).1.stack addrs key' =
        if key = key' then value :: (d.stack addrs key').tail else d.stack addrs key' := by
  have hsome : ((d.mem.allocAt d.mem.next ⟨key, value, none⟩).heap.scan key
      (d.mem.allocAt d.mem.next ⟨key, value, none⟩).next (d.table (keyIndex S key))).isSome := by
    rw [hI.scan_allocAt_isSome, ← stack]
    simpa [List.isEmpty_iff] using hk
  obtain ⟨⟨a, n⟩, hs⟩ := Option.isSome_iff_exists.mp hsome
  obtain ⟨pre, post, hsplit, hpre, ha, rfl⟩ := (hI.chain_allocAt _ _).scan_some hs
  have hane : a ≠ d.mem.next := fun h => hI.next_not_mem (keyIndex S n.key) (by simp [hsplit, ← h])
  have ha' : d.mem.heap a = some n := by simpa [Function.update_noteq hane] using ha
  have hpre' : stackOf n.key (d.mem.heap.entries pre) = [] := by
    rwa [Memory.allocAt_heap, Heap.entries_update_of_not_mem
      (fun h => hI.next_not_mem (keyIndex S n.key) (by simp [hsplit, h]))] at hpre
  -- the heap after the call: the node at `a` with its new value, `made` gone again
  have hheap : (d.insertOrAssign n.key value).1.mem.heap =
      Function.update d.mem.heap a (some { n with value := value }) := by
    simp only [insertOrAssign, hs]
    funext b
    by_cases hb : b = d.mem.next
    · subst hb; simp [Function.update_noteq (Ne.symm hane), d.mem.unused _ le_rfl]
    · by_cases hba : b = a
      · subst hba; simp [hb, ha']
      · simp [hb, hba]
  have hcount : (d.insertOrAssign n.key value).1.count = d.count := by simp only [insertOrAssign, hs]
  obtain ⟨hinv, hstack⟩ := hI.assign hsplit hpre' ha' hheap (by simp only [insertOrAssign, hs]) hcount
  exact ⟨by simp only [insertOrAssign, hs], hinv, hcount, hstack⟩

/-! ## `remove` -/

/-- The chains after an unlink are sub-lists of the chains before it. -/
theorem subset_update_unlink {idx : Fin S} {pre post : List Nat} {a : Nat}
    (hsplit : addrs idx = pre ++ a :: post) (i : Fin S) :
    Function.update addrs idx (pre ++ post) i ⊆ addrs i := by
  by_cases hi : i = idx
  · subst hi
    rw [Function.update_same, hsplit]
    exact ((List.sublist_cons_self a post).append_left pre).subset
  · rw [Function.update_noteq hi]
    exact List.Subset.refl _

/-- What an unlink leaves, whichever pointer it redirects: the key's bucket loses the node at
`a`, which holds the key's top, and nothing else changes. -/
theorem Inv.unlink (hI : d.Inv addrs) {d' : Dict K V S} {key : K} {pre post : List Nat}
    {a : Nat} {n : Node K V} (hsplit : addrs (keyIndex S key) = pre ++ a :: post)
    (hpre : stackOf key (d.mem.heap.entries pre) = []) (ha : d.mem.heap a = some n)
    (hka : n.key = key)
    (hchain : Chain d'.mem.heap (d'.table (keyIndex S key)) (pre ++ post))
    (htable : ∀ j, j ≠ keyIndex S key → d'.table j = d.table j)
    (hframe : ∀ x, x ∉ addrs (keyIndex S key) → d'.mem.heap x = d.mem.heap x)
    (hkv : d'.mem.heap.entries (pre ++ post) = d.mem.heap.entries (pre ++ post))
    (hcount : d'.count = d.count - 1) :
    d'.Inv (Function.update addrs (keyIndex S key) (pre ++ post)) ∧
      ∀ key', d'.stack (Function.update addrs (keyIndex S key) (pre ++ post)) key' =
        if key = key' then (d.stack addrs key').tail else d.stack addrs key' := by
  set idx := keyIndex S key
  have hother : ∀ j, j ≠ idx → d'.mem.heap.entries (addrs j) = d.mem.heap.entries (addrs j) :=
    fun j hj => Heap.entries_congr fun x hx => by
      rw [hframe x (hI.disjoint j idx hj x hx)]
  have hold : d.mem.heap.entries (addrs idx) =
      d.mem.heap.entries pre ++ (key, n.value) :: d.mem.heap.entries post := by
    rw [hsplit, Heap.entries_append, Heap.entries_cons ha, hka]
  refine ⟨⟨fun j => ?_, fun i j hij x hx => ?_, fun i e he => ?_, ?_⟩, fun key' => ?_⟩
  · by_cases hj : j = idx
    · subst hj; rw [Function.update_same]; exact hchain
    · rw [Function.update_noteq hj, htable j hj]
      exact (hI.chain j).congr fun x hx => by
        rw [Heap.nextAt, hframe x (hI.disjoint j idx hj x hx), Heap.nextAt]
  · exact fun hx' => hI.disjoint i j hij x (subset_update_unlink hsplit i hx)
      (subset_update_unlink hsplit j hx')
  · simp only [Function.update_apply] at he
    split_ifs at he with hi
    · subst hi
      rw [hkv, Heap.entries_append] at he
      exact hI.index _ e (by rw [hold]; simp only [List.mem_append, List.mem_cons] at he ⊢; tauto)
    · exact hI.index i e (by rwa [hother i hi] at he)
  · have := sum_comp_update addrs idx (pre ++ post) List.length
    rw [hcount, hI.count, hsplit] at *
    simp only [List.length_append, List.length_cons] at this
    omega
  · simp only [stack]
    by_cases hi : keyIndex S key' = idx
    · rw [hi, Function.update_same, hkv, hold]
      by_cases hk : key = key'
      · subst hk; simp [hpre]
      · simp [hk]
    · rw [Function.update_noteq hi, hother _ hi, if_neg]
      rintro rfl; exact hi rfl

/-- On a key its bucket does not hold, `remove` changes nothing and returns false. -/
theorem Inv.remove_of_not_mem (hI : d.Inv addrs) {key : K} (hk : d.stack addrs key = []) :
    d.remove key = (d, false) := by
  cases hs : d.mem.heap.scanPrev key d.mem.next none (d.table (keyIndex S key)) with
  | none => simp only [remove, hs]
  | some x =>
    obtain ⟨q, a, n⟩ := x
    obtain ⟨pre, post, hsplit, hpre, ha, rfl, -⟩ := (hI.chain _).scanPrev_some hs
    simp [stack, hsplit, Heap.entries_cons ha, hpre] at hk

/-- On a key its bucket holds, `remove` unlinks the first node with the key: it pops the
key's stack, decrements `count_` and returns true. -/
theorem Inv.remove_of_mem (hI : d.Inv addrs) {key : K} (hk : d.stack addrs key ≠ []) :
    (d.remove key).2 = true ∧ (d.remove key).1.count = d.count - 1 ∧
      ∃ addrs', (∀ i, addrs' i ⊆ addrs i) ∧ (d.remove key).1.Inv addrs' ∧
        ∀ key', (d.remove key).1.stack addrs' key' =
          if key = key' then (d.stack addrs key').tail else d.stack addrs key' := by
  cases hs : d.mem.heap.scanPrev key d.mem.next none (d.table (keyIndex S key)) with
  | none => exact absurd ((hI.chain _).scanPrev_none (hI.length_le _) hs) hk
  | some x =>
    obtain ⟨q, a, n⟩ := x
    obtain ⟨pre, post, hsplit, hpre, ha, hka, hq⟩ := (hI.chain _).scanPrev_some hs
    have hnd := (hI.chain (keyIndex S key)).nodup
    rw [hsplit] at hnd
    have ha_pre : a ∉ pre := fun h => (List.nodup_append.mp hnd).2.2 h (List.mem_cons_self _ _)
    have ha_post : a ∉ post := (List.nodup_cons.mp (List.nodup_append.mp hnd).2.1).1
    have ha_pp : a ∉ pre ++ post := by simp [ha_pre, ha_post]
    rcases List.eq_nil_or_concat pre with rfl | ⟨pre', b, rfl⟩
    · -- `a` heads the bucket: the head is stored `a->next`
      simp only [List.getLast?_nil, Option.none_or] at hq
      subst hq
      have hrm : d.remove key = (⟨d.mem.free a, Function.update d.table (keyIndex S key) n.next,
          d.count - 1⟩, true) := by simp only [remove, hs]
      rw [hrm]
      refine ⟨rfl, rfl, _, subset_update_unlink hsplit, hI.unlink hsplit hpre ha hka ?_
        (fun j hj => Function.update_noteq hj _ _)
        (fun x hx => Function.update_noteq (by rintro rfl; exact hx (by simp [hsplit])) _ _)
        (Heap.entries_update_of_not_mem ha_pp _) rfl⟩
      have hc := hI.chain (keyIndex S key)
      rw [hsplit] at hc
      generalize d.table (keyIndex S key) = t at hc
      cases hc with
      | cons ha' hc =>
        obtain rfl := Option.some.inj (ha.symm.trans ha')
        simpa using hc.update_of_not_mem ha_post none
    · -- `a` follows `b`: `b->next` is stored `a->next`
      simp at hq
      subst hq
      have hb_mem : b ∈ addrs (keyIndex S key) := by simp [hsplit]
      obtain ⟨nb, hb⟩ := Option.isSome_iff_exists.mp ((hI.chain _).isSome_of_mem hb_mem)
      have hba : b ≠ a := fun h => ha_pre (by simp [h])
      have hrm : d.remove key = (⟨(d.mem.modify b fun p => { p with next := n.next }).free a,
          d.table, d.count - 1⟩, true) := by simp only [remove, hs]
      rw [hrm]
      refine ⟨rfl, rfl, _, subset_update_unlink hsplit,
        hI.unlink hsplit hpre ha hka ?_ (fun _ _ => rfl) (fun x hx => ?_) ?_ rfl⟩
      · have hc := hI.chain (keyIndex S key)
        rw [hsplit, List.concat_eq_append, List.append_assoc, List.singleton_append] at hc
        have := (hc.splice hb ha).update_of_not_mem (by simpa using ha_pp) none
        simpa [hb] using this
      · have hxa : x ≠ a := by rintro rfl; exact hx (by simp [hsplit])
        have hxb : x ≠ b := by rintro rfl; exact hx hb_mem
        simp [Function.update_noteq hxa, Function.update_noteq hxb]
      · rw [Memory.free_heap, Heap.entries_update_of_not_mem ha_pp, Memory.modify_heap, hb]
        exact Heap.entries_congr fun x _ => by
          by_cases hxb : x = b
          · subst hxb; simp [hb]
          · rw [Function.update_noteq hxb]

/-! ## `clear` -/

theorem clear_table (d : Dict K V S) : d.clear.table = fun _ => none := rfl

theorem clear_count (d : Dict K V S) : d.clear.count = 0 := rfl

/-- A new object has every bucket empty. -/
theorem inv_init (mem : Memory K V) : (init mem : Dict K V S).Inv fun _ => [] :=
  ⟨fun _ => .nil, by simp, by simp, by simp [init]⟩

/-- After `clear` every bucket is empty. -/
theorem inv_clear (d : Dict K V S) : d.clear.Inv fun _ => [] where
  chain _ := .nil
  disjoint _ _ _ _ h := by simp at h
  index _ _ h := by simp at h
  count := by simp [clear_count]

end Dict

end ModernCli
