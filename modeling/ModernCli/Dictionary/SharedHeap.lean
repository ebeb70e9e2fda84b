import Mathlib
import ModernCli.Dictionary.TryEmplace

/-!
# Objects over one heap

All `dictionary_t<K, V, S>` objects of a program take their nodes from one heap, so the
representation invariant of one object survives a call on another only if that call leaves
the first object's nodes alone. `Dict.Footprint d d' addrs addrs'` is what a call on `d` that
leaves `d'` may do: `d'` has the invariant over the chains `addrs'`, which hold addresses of
`d`'s chains and addresses handed out during the call, and every node handed out before the
call and on none of `d`'s chains is as it was.

`Objects` is all the objects, in the order of their construction, each with its bucket heads
`table_` and its counter `count_`; every call of `Dict` runs on one of them. The move
constructor and the move assignment are not among the calls: they initialise and assign the
array `std::atomic<node*> table_[S]` from another one, which is ill-formed C++, so a program
that moves a `dictionary_t` does not compile.

* `Dict.Inv.footprint_call`, `Dict.Inv.footprint_tryEmplace`: every call of one object keeps
  to its footprint, for any key type (`clear` deletes only the nodes of its own chains:
  `Dict.Inv.clear_heap`);
* `Objects.Inv.put`: a call on one object that keeps to its footprint keeps the invariant of
  every object and the objects' chains disjoint;
* `Objects.Inv.step`, `Objects.Inv.run`: so does every construction and call, and every run;
* `Objects.run_keeps_every_inv`: every object a program makes has the invariant after every
  run of its calls.
-/

set_option linter.unusedSectionVars false

namespace ModernCli

variable {K V : Type}

/-! ## The `delete` loop of `clear` -/

namespace Memory

@[simp] theorem freeChain_next (m : Memory K V) (fuel : Nat) (p : Option Nat) :
    (m.freeChain fuel p).next = m.next := by
  induction fuel generalizing m p with
  | zero => rfl
  | succ fuel ih =>
    cases p with
    | none => rfl
    | some _ =>
      simp only [freeChain]
      split
      · rfl
      · rw [ih, free_next]

/-- The loop deletes only nodes of the chain it follows. -/
theorem freeChain_heap_of_not_mem {l : List Nat} :
    ∀ {m : Memory K V} {p : Option Nat}, Chain m.heap p l → ∀ (fuel : Nat) {b : Nat}, b ∉ l →
      (m.freeChain fuel p).heap b = m.heap b := by
  induction l with
  | nil => intro m p hl fuel b _; cases hl; cases fuel <;> rfl
  | cons a l ih =>
    intro m p hl fuel b hb
    cases hl with
    | cons hn hl =>
      cases fuel with
      | zero => rfl
      | succ fuel =>
        have hal : a ∉ l := (List.nodup_cons.mp (Chain.cons hn hl).nodup).1
        have hba : b ≠ a := fun h => hb (h ▸ List.mem_cons_self _ _)
        simp only [freeChain, hn]
        rw [ih (hl.update_of_not_mem hal none) fuel fun h => hb (List.mem_cons_of_mem _ h), free_heap,
          Function.update_noteq hba]

end Memory

namespace Dict

variable [DecidableEq K] [Hashable K] {S : Nat} [NeZero S] {d d₁ d₂ : Dict K V S}
  {addrs addrs₁ addrs₂ : Fin S → List Nat}

theorem clear_next (d : Dict K V S) : d.clear.mem.next = d.mem.next := by
  suffices ∀ (L : List (Fin S)) (m : Memory K V),
      (L.foldl (fun m i => m.freeChain m.next (d.table i)) m).next = m.next from this _ _
  intro L
  induction L with
  | nil => intro m; rfl
  | cons i L ih => intro m; rw [List.foldl_cons, ih, Memory.freeChain_next]

/-- `clear` deletes only the nodes of the object's own chains: each bucket's chain is intact
when the loop reaches it, since the earlier buckets' chains are disjoint from it. -/
theorem Inv.clear_heap (hI : d.Inv addrs) {b : Nat} (hb : ∀ i, b ∉ addrs i) :
    d.clear.mem.heap b = d.mem.heap b := by
  suffices ∀ (L : List (Fin S)), L.Nodup → ∀ (m : Memory K V),
      (∀ i ∈ L, Chain m.heap (d.table i) (addrs i)) →
      (L.foldl (fun m i => m.freeChain m.next (d.table i)) m).heap b = m.heap b from
    this _ (List.nodup_finRange S) _ fun i _ => hI.chain i
  intro L
  induction L with
  | nil => intro _ m _; rfl
  | cons i L ih =>
    intro hL m hc
    have hci := hc i (List.mem_cons_self _ _)
    have hrest : ∀ j ∈ L, Chain (m.freeChain m.next (d.table i)).heap (d.table j) (addrs j) :=
      fun j hj => (hc j (List.mem_cons_of_mem _ hj)).congr fun x hx => by
        have hji : j ≠ i := fun e => (List.nodup_cons.mp hL).1 (e ▸ hj)
        simp only [Heap.nextAt, Memory.freeChain_heap_of_not_mem hci _ (hI.disjoint j i hji x hx)]
    rw [List.foldl_cons, ih (List.nodup_cons.mp hL).2 _ hrest,
      Memory.freeChain_heap_of_not_mem hci _ (hb i)]

/-! ## The footprint of a call -/

/-- What a call on `d` that leaves `d'` may do to the shared heap: `d'` has the invariant
over the chains `addrs'`, whose addresses are on `d`'s chains `addrs` or were handed out
during the call, and the nodes handed out before it and on none of `d`'s chains are as they
were. -/
structure Footprint (d d' : Dict K V S) (addrs addrs' : Fin S → List Nat) : Prop where
  inv : d'.Inv addrs'
  next_le : d.mem.next ≤ d'.mem.next
  fresh : ∀ i, ∀ a ∈ addrs' i, (∃ j, a ∈ addrs j) ∨ d.mem.next ≤ a
  frame : ∀ a, a < d.mem.next → (∀ i, a ∉ addrs i) → d'.mem.heap a = d.mem.heap a

theorem Footprint.refl (hI : d.Inv addrs) : d.Footprint d addrs addrs :=
  ⟨hI, le_rfl, fun i _ ha => .inl ⟨i, ha⟩, fun _ _ _ => rfl⟩

theorem Footprint.trans (h₁ : d.Footprint d₁ addrs addrs₁) (h₂ : d₁.Footprint d₂ addrs₁ addrs₂) :
    d.Footprint d₂ addrs addrs₂ where
  inv := h₂.inv
  next_le := h₁.next_le.trans h₂.next_le
  fresh i a ha := (h₂.fresh i a ha).elim (fun ⟨j, hj⟩ => h₁.fresh j a hj)
    fun h => .inr (h₁.next_le.trans h)
  frame a ha hn := by
    have hn₁ : ∀ i, a ∉ addrs₁ i := fun i hi => by
      rcases h₁.fresh i a hi with ⟨j, hj⟩ | hge
      · exact hn j hj
      · omega
    rw [h₂.frame a (ha.trans_le h₁.next_le) hn₁, h₁.frame a ha hn]

/-- `delete` of a node handed out during the call and on no chain after it. -/
theorem Footprint.free (h : d.Footprint d₁ addrs addrs₁) {a : Nat} (ha : d.mem.next ≤ a)
    (hn : ∀ i, a ∉ addrs₁ i) : d.Footprint ⟨d₁.mem.free a, d₁.table, d₁.count⟩ addrs addrs₁ where
  inv := (h.inv.of_agree ⟨d₁.mem.free a, d₁.table, d₁.count⟩
    (fun i b hb => Function.update_noteq (fun (e : b = a) => hn i (e ▸ hb)) _ _) rfl rfl).1
  next_le := h.next_le
  fresh := h.fresh
  frame b hb hn' := by rw [Memory.free_heap, Function.update_noteq (by omega), h.frame b hb hn']

/-- `new` at `next`: a node on no chain. -/
theorem Inv.footprint_allocAt (hI : d.Inv addrs) (n : Node K V) :
    d.Footprint ⟨d.mem.allocAt d.mem.next n, d.table, d.count⟩ addrs addrs :=
  ⟨(hI.of_agree ⟨d.mem.allocAt d.mem.next n, d.table, d.count⟩
    (fun i a ha => Function.update_noteq (fun (e : a = d.mem.next) => hI.next_not_mem i (e ▸ ha))
      _ _) rfl rfl).1,
    le_max_left _ _, fun i _ ha => .inl ⟨i, ha⟩,
    fun _ ha _ => Function.update_noteq (Nat.ne_of_lt ha) _ _⟩

theorem not_mem_insertAddrs {key : K} {a : Nat} (ha : a ≠ d.mem.next) (hn : ∀ i, a ∉ addrs i)
    (i : Fin S) : a ∉ d.insertAddrs addrs key i := by
  simp only [insertAddrs, Function.update_apply]
  split_ifs
  · exact List.not_mem_cons_of_ne_of_not_mem ha (hn _)
  · exact hn i

theorem Inv.footprint_insert (hI : d.Inv addrs) (key : K) (value : V) :
    d.Footprint (d.insert key value).1 addrs (d.insertAddrs addrs key) where
  inv := hI.insert key value
  next_le := by simp [Dict.insert]
  fresh i a ha := by
    simp only [insertAddrs, Function.update_apply] at ha
    split_ifs at ha
    · rcases List.mem_cons.mp ha with rfl | ha
      · exact .inr le_rfl
      · exact .inl ⟨_, ha⟩
    · exact .inl ⟨i, ha⟩
  frame _ ha _ := by rw [insert_heap, Function.update_noteq (Nat.ne_of_lt ha)]

/-- `insert_or_assign` writes no node handed out before it off the object's chains. -/
theorem Inv.insertOrAssign_heap (hI : d.Inv addrs) (key : K) (value : V) {b : Nat}
    (hb : b < d.mem.next) (hn : ∀ i, b ∉ addrs i) :
    (d.insertOrAssign key value).1.mem.heap b = d.mem.heap b := by
  have hne : b ≠ d.mem.next := Nat.ne_of_lt hb
  dsimp only [Dict.insertOrAssign]
  split
  · next a _ hs =>
    obtain ⟨pre, post, hsplit, -, -, -⟩ := (hI.chain_allocAt _ _).scan_some hs
    have hba : b ≠ a := fun h => hn (keyIndex S key) (by simp [hsplit, h])
    simp [Function.update_noteq hba, Function.update_noteq hne]
  · have hne' : b ≠ max d.mem.next (d.mem.next + 1) := by omega
    simp [Function.update_noteq hne, Function.update_noteq hne']

theorem Inv.footprint_insertOrAssign (hI : d.Inv addrs) (key : K) (value : V) :
    ∃ addrs', d.Footprint (d.insertOrAssign key value).1 addrs addrs' := by
  by_cases hk : d.stack addrs key = []
  · rw [hI.insertOrAssign_of_not_mem value hk]
    have h₁ := (hI.footprint_allocAt ⟨key, value, none⟩).free le_rfl hI.next_not_mem
    exact ⟨_, h₁.trans (h₁.inv.footprint_insert key value)⟩
  · obtain ⟨-, hinv, -, -⟩ := hI.insertOrAssign_of_mem value hk
    refine ⟨addrs, hinv, ?_, fun i a ha => .inl ⟨i, ha⟩, fun b hb hn => hI.insertOrAssign_heap key value hb hn⟩
    dsimp only [Dict.insertOrAssign]
    split
    · simp
    · simp [Dict.insert]
      omega

theorem remove_next (d : Dict K V S) (key : K) : (d.remove key).1.mem.next = d.mem.next := by
  unfold remove
  split <;> rfl

/-- `remove` writes only nodes of the object's chains. -/
theorem Inv.remove_heap (hI : d.Inv addrs) (key : K) {b : Nat} (hn : ∀ i, b ∉ addrs i) :
    (d.remove key).1.mem.heap b = d.mem.heap b := by
  unfold remove
  split
  · rfl
  · next q a _ hs =>
    obtain ⟨pre, post, hsplit, -, -, -, hq⟩ := (hI.chain _).scanPrev_some hs
    have hq' : q ∈ addrs (keyIndex S key) := by
      rw [hsplit]
      exact List.mem_append_left _ (List.mem_of_getLast?_eq_some (by simpa using hq.symm))
    have hba : b ≠ a := fun h => hn (keyIndex S key) (by simp [hsplit, h])
    have hbq : b ≠ q := fun h => hn _ (h ▸ hq')
    simp [Function.update_noteq hba, Function.update_noteq hbq]
  · next a _ hs =>
    obtain ⟨pre, post, hsplit, -, -, -, -⟩ := (hI.chain _).scanPrev_some hs
    have hba : b ≠ a := fun h => hn (keyIndex S key) (by simp [hsplit, h])
    simp [Function.update_noteq hba]

theorem Inv.footprint_remove (hI : d.Inv addrs) (key : K) :
    ∃ addrs', d.Footprint (d.remove key).1 addrs addrs' := by
  by_cases hk : d.stack addrs key = []
  · rw [hI.remove_of_not_mem hk]
    exact ⟨addrs, .refl hI⟩
  · obtain ⟨-, -, addrs', hsub, hinv, -⟩ := hI.remove_of_mem hk
    exact ⟨addrs', hinv, (remove_next d key).ge, fun i a ha => .inl ⟨i, hsub i ha⟩,
      fun _ _ hn => hI.remove_heap key hn⟩

theorem Inv.footprint_clear (hI : d.Inv addrs) : d.Footprint d.clear addrs fun _ => [] where
  inv := inv_clear d
  next_le := (clear_next d).ge
  fresh _ _ h := by simp at h
  frame _ _ hn := hI.clear_heap hn

theorem Inv.footprint_call (hI : d.Inv addrs) (c : Call K V) :
    ∃ addrs', d.Footprint (d.call c).1 addrs addrs' := by
  cases c with
  | insert key value | emplace key value => exact ⟨_, hI.footprint_insert key value⟩
  | insertOrAssign key value => exact hI.footprint_insertOrAssign key value
  | remove key => exact hI.footprint_remove key
  | clear => exact ⟨_, hI.footprint_clear⟩

/-- `try_emplace` keeps to its footprint whatever a move leaves of a key: it deletes its
`made` on both paths, and links at most the node `emplace` makes. -/
theorem Inv.footprint_tryEmplace (hI : d.Inv addrs) (moved : K → K) (key : K) (value : V) :
    ∃ addrs', d.Footprint (d.tryEmplace moved key value).1 addrs addrs' := by
  have h₁ := hI.footprint_allocAt ⟨key, value, none⟩
  dsimp only [Dict.tryEmplace]
  split
  · exact ⟨addrs, h₁.free le_rfl hI.next_not_mem⟩
  · refine ⟨_, (h₁.trans (h₁.inv.footprint_insert key value)).free le_rfl
      (not_mem_insertAddrs ?_ hI.next_not_mem)⟩
    simp

end Dict

/-! ## Every object of a program -/

/-- The `dictionary_t<K, V, S>` objects of a program over one heap, in the order of their
construction: each object's `table_` and `count_`. -/
structure Objects (K V : Type) (S : Nat) where
  mem : Memory K V
  objs : List ((Fin S → Option Nat) × Int)

/-- The calls on the objects; an object is named by the order of its construction. -/
inductive ObjectCall (K V : Type) where
  /-- `dictionary_t()`. -/
  | make
  /-- One of the calls of `Dict.call` on object `obj`. -/
  | call (obj : Nat) (c : Call K V)
  /-- `try_emplace(key, value)` on object `obj`. -/
  | tryEmplace (obj : Nat) (key : K) (value : V)

namespace Objects

variable [DecidableEq K] [Hashable K] {S : Nat} [NeZero S]

/-- No object yet, over the heap `mem`. -/
def empty (mem : Memory K V) : Objects K V S := ⟨mem, []⟩

/-- Object `i`, with the heap. -/
def get (w : Objects K V S) (i : Nat) : Option (Dict K V S) :=
  w.objs[i]?.map fun o => ⟨w.mem, o.1, o.2⟩

/-- Object `i` becomes `d`, and the heap `d`'s. -/
def put (w : Objects K V S) (i : Nat) (d : Dict K V S) : Objects K V S :=
  ⟨d.mem, w.objs.set i (d.table, d.count)⟩

/-- A new object `d`, and the heap `d`'s. -/
def add (w : Objects K V S) (d : Dict K V S) : Objects K V S :=
  ⟨d.mem, w.objs ++ [(d.table, d.count)]⟩

/-- One call, or `none` when it names an object not yet made. `moved` is what a move leaves
of a key, as in `Dict.tryEmplace`. -/
def step (moved : K → K) (w : Objects K V S) : ObjectCall K V → Option (Objects K V S)
  | .make => some (w.add (Dict.init w.mem))
  | .call i c => (w.get i).map fun d => w.put i (d.call c).1
  | .tryEmplace i key value => (w.get i).map fun d => w.put i (d.tryEmplace moved key value).1

/-- A run of calls, `none` if one names an object not yet made. -/
def run (moved : K → K) (w : Objects K V S) : List (ObjectCall K V) → Option (Objects K V S)
  | [] => some w
  | c :: cs => (w.step moved c).bind fun w' => w'.run moved cs

variable {w : Objects K V S} {addrs : Nat → Fin S → List Nat}


theorem get_eq_some {j : Nat} {d : Dict K V S} :
    w.get j = some d ↔ ∃ o, w.objs[j]? = some o ∧ (⟨w.mem, o.1, o.2⟩ : Dict K V S) = d := by
  simp [get]

theorem get_mem {j : Nat} {d : Dict K V S} (h : w.get j = some d) : d.mem = w.mem := by
  obtain ⟨o, -, rfl⟩ := get_eq_some.mp h
  rfl

theorem lt_length_of_get {j : Nat} {d : Dict K V S} (h : w.get j = some d) : j < w.objs.length := by
  obtain ⟨o, ho, -⟩ := get_eq_some.mp h
  exact (List.getElem?_eq_some_iff.mp ho).1

theorem get_put_self {j : Nat} {d₀ : Dict K V S} (h : w.get j = some d₀) (d : Dict K V S) :
    (w.put j d).get j = some d := by
  simp [get, put, List.getElem?_set_self (lt_length_of_get h)]

theorem get_put_of_ne {j k : Nat} (hjk : j ≠ k) (d : Dict K V S) :
    (w.put j d).get k = (w.get k).map fun o => ⟨d.mem, o.table, o.count⟩ := by
  simp [get, put, List.getElem?_set_ne hjk]
  rfl

theorem length_put (j : Nat) (d : Dict K V S) : (w.put j d).objs.length = w.objs.length :=
  List.length_set _ _ _

theorem get_add_of_lt {k : Nat} (hk : k < w.objs.length) (d : Dict K V S) :
    (w.add d).get k = (w.get k).map fun o => ⟨d.mem, o.table, o.count⟩ := by
  simp [get, add, List.getElem?_append_left hk]
  rfl

theorem get_add_self (d : Dict K V S) : (w.add d).get w.objs.length = some d := by
  simp [get, add]

theorem length_add (d : Dict K V S) : (w.add d).objs.length = w.objs.length + 1 := by
  simp [add]

/-- Every object has the representation invariant over its chains `addrs j`, and no node is
on the chains of two objects. -/
structure Inv (w : Objects K V S) (addrs : Nat → Fin S → List Nat) : Prop where
  obj : ∀ j d, w.get j = some d → d.Inv (addrs j)
  disjoint : ∀ j k, j ≠ k → j < w.objs.length → k < w.objs.length →
    ∀ i i', ∀ a ∈ addrs j i, a ∉ addrs k i'

/-- No object yet. -/
theorem inv_empty (mem : Memory K V) : (empty mem : Objects K V S).Inv fun _ _ => [] :=
  ⟨fun _ _ h => by simp [empty, get] at h, fun _ _ _ h => by simp [empty] at h⟩

/-- Every node on an object's chains has been handed out. -/
theorem Inv.lt_next (hw : w.Inv addrs) {j : Nat} (hj : j < w.objs.length) {i : Fin S} {a : Nat}
    (ha : a ∈ addrs j i) : a < w.mem.next := by
  have hget : w.get j = some ⟨w.mem, w.objs[j].1, w.objs[j].2⟩ := by
    simp [get, List.getElem?_eq_getElem hj]
  exact w.mem.lt_next_of_isSome (((hw.obj j _ hget).chain i).isSome_of_mem ha)

/-- A call on object `j` that keeps to its footprint keeps the invariant of every object:
the nodes of the others were handed out before it and are on none of `j`'s chains. -/
theorem Inv.put (hw : w.Inv addrs) {j : Nat} {d d' : Dict K V S} {addrs' : Fin S → List Nat}
    (hj : w.get j = some d) (hf : d.Footprint d' (addrs j) addrs') :
    (w.put j d').Inv (Function.update addrs j addrs') := by
  have hlt := lt_length_of_get hj
  have hfar : ∀ k, k ≠ j → k < w.objs.length → ∀ i a, a ∈ addrs k i →
      a < d.mem.next ∧ ∀ i', a ∉ addrs j i' := fun k hk hkl i a ha =>
    ⟨get_mem hj ▸ hw.lt_next hkl ha, fun i' => hw.disjoint k j hk hkl hlt i i' a ha⟩
  refine ⟨fun k e he => ?_, fun k₁ k₂ hne hk₁ hk₂ i i' a ha => ?_⟩
  · by_cases hk : k = j
    · subst hk
      obtain rfl := Option.some.inj ((get_put_self hj d').symm.trans he)
      rw [Function.update_same]
      exact hf.inv
    · rw [get_put_of_ne (Ne.symm hk)] at he
      obtain ⟨o, ho, rfl⟩ := Option.map_eq_some'.mp he
      rw [Function.update_noteq hk]
      refine ((hw.obj k o ho).of_agree ⟨d'.mem, o.table, o.count⟩ (fun i a ha => ?_) rfl rfl).1
      obtain ⟨ha', hn⟩ := hfar k hk (lt_length_of_get ho) i a ha
      exact (hf.frame a ha' hn).trans (by rw [get_mem hj, get_mem ho])
  · rw [length_put] at hk₁ hk₂
    by_cases h₁ : k₁ = j <;> by_cases h₂ : k₂ = j
    · exact absurd (h₁.trans h₂.symm) hne
    · subst h₁
      rw [Function.update_same] at ha
      rw [Function.update_noteq h₂]
      intro h
      rcases hf.fresh i a ha with ⟨i₀, h₀⟩ | hge
      · exact hw.disjoint k₁ k₂ hne hk₁ hk₂ i₀ i' a h₀ h
      · exact absurd (hfar k₂ h₂ hk₂ i' a h).1 (by omega)
    · subst h₂
      rw [Function.update_noteq h₁] at ha
      rw [Function.update_same]
      intro h
      rcases hf.fresh i' a h with ⟨i₀, h₀⟩ | hge
      · exact hw.disjoint k₁ k₂ hne hk₁ hk₂ i i₀ a ha h₀
      · exact absurd (hfar k₁ h₁ hk₁ i a ha).1 (by omega)
    · rw [Function.update_noteq h₁] at ha
      rw [Function.update_noteq h₂]
      exact hw.disjoint k₁ k₂ hne hk₁ hk₂ i i' a ha

/-- A new object without nodes, over the world's heap. -/
theorem Inv.add (hw : w.Inv addrs) {d : Dict K V S} (hd : d.Inv fun _ => []) (hm : d.mem = w.mem) :
    (w.add d).Inv (Function.update addrs w.objs.length fun _ => []) := by
  refine ⟨fun k e he => ?_, fun k₁ k₂ hne hk₁ hk₂ i i' a ha => ?_⟩
  · have hk := lt_length_of_get he
    rw [length_add] at hk
    rcases Nat.lt_succ_iff_lt_or_eq.mp hk with hk | rfl
    · rw [get_add_of_lt hk, hm] at he
      obtain ⟨o, ho, rfl⟩ := Option.map_eq_some'.mp he
      rw [Function.update_noteq (Nat.ne_of_lt hk), ← get_mem ho]
      exact hw.obj k o ho
    · rw [get_add_self] at he
      cases he
      rw [Function.update_same]
      exact hd
  · rw [length_add] at hk₁ hk₂
    by_cases h₁ : k₁ = w.objs.length
    · subst h₁
      rw [Function.update_same] at ha
      cases ha
    by_cases h₂ : k₂ = w.objs.length
    · subst h₂
      rw [Function.update_same]
      exact List.not_mem_nil a
    rw [Function.update_noteq h₁] at ha
    rw [Function.update_noteq h₂]
    exact hw.disjoint k₁ k₂ hne (by omega) (by omega) i i' a ha

/-- Every construction and call keeps the invariant of every object. -/
theorem Inv.step (hw : w.Inv addrs) (moved : K → K) {c : ObjectCall K V} {w' : Objects K V S}
    (hs : w.step moved c = some w') : ∃ addrs', w'.Inv addrs' := by
  cases c with
  | make =>
    cases hs
    exact ⟨_, hw.add (Dict.inv_init _) rfl⟩
  | call i c =>
    obtain ⟨d, hd, rfl⟩ := Option.map_eq_some'.mp hs
    obtain ⟨_, hf⟩ := (hw.obj i d hd).footprint_call c
    exact ⟨_, hw.put hd hf⟩
  | tryEmplace i key value =>
    obtain ⟨d, hd, rfl⟩ := Option.map_eq_some'.mp hs
    obtain ⟨_, hf⟩ := (hw.obj i d hd).footprint_tryEmplace moved key value
    exact ⟨_, hw.put hd hf⟩

/-- Every run keeps the invariant of every object. -/
theorem Inv.run (hw : w.Inv addrs) (moved : K → K) {calls : List (ObjectCall K V)}
    {w' : Objects K V S} (h : w.run moved calls = some w') : ∃ addrs', w'.Inv addrs' := by
  induction calls generalizing w addrs with
  | nil =>
    cases h
    exact ⟨addrs, hw⟩
  | cons c cs ih =>
    obtain ⟨w₁, hs, hr⟩ := Option.bind_eq_some.mp h
    obtain ⟨_, hw₁⟩ := hw.step moved hs
    exact ih hw₁ hr

/-- Every single-threaded run of constructions and of `insert`, `emplace`,
`insert_or_assign`, `remove`, `clear` and `try_emplace` (for any key type) on the objects of
one `dictionary_t<K, V, S>` type, from none: every object has the representation invariant
(finite acyclic chains, no node on two of them, every node in its key's bucket, `count_` the
number of nodes), and no node is on the chains of two objects. -/
theorem run_keeps_every_inv (moved : K → K) (mem : Memory K V) (calls : List (ObjectCall K V))
    {w' : Objects K V S} (h : (empty mem).run moved calls = some w') : ∃ addrs, w'.Inv addrs :=
  (inv_empty mem).run moved h

/-- `dictionary_t<int, int, 4> a, b; a.insert(1, 10); b.try_emplace(1, 20); a.remove(1);`. -/
theorem run_keeps_every_inv_two :
    ∃ w', (empty Memory.empty : Objects Nat Nat 4).run id
        [.make, .make, .call 0 (.insert 1 10), .tryEmplace 1 1 20, .call 0 (.remove 1)] = some w' ∧
      ∃ addrs, w'.Inv addrs :=
  ⟨_, rfl, run_keeps_every_inv id Memory.empty
    [.make, .make, .call 0 (.insert 1 10), .tryEmplace 1 1 20, .call 0 (.remove 1)] rfl⟩

end Objects

end ModernCli
