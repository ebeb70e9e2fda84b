import Mathlib

/-!
# `slice`: a list of shared pointers

`tycho::slice<T>` (`slice.hpp`) wraps a `std::list<std::shared_ptr<T>>`. A `shared_ptr<T>`
is `none` when null and `some x` when it owns an object holding `x`; the class never
compares two pointers, only the objects behind them. A call that can throw returns
`Except Fault`.

Every call that puts a new element in the list makes it with `std::make_shared<T>` or copies
it from another slice, except `resize`: `std::list::resize` value-initialises the elements it
adds, and a value-initialised `shared_ptr` is null.

* `Slice.noNull_call`: every call but `resize` keeps the slice free of null pointers, given
  arguments that are;
* `Slice.noNull_resize_iff`: `resize(n)` keeps it so exactly when it does not grow it;
* `Slice.index_of_noNull`: on a slice without null pointers, `operator[]` throws only when the
  index is out of range, so after any run of such calls (`Slice.noNull_run`) it does.
-/

namespace ModernCli

/-- Why a call of `slice` does not return normally. -/
inductive Fault where
  /-- `std::out_of_range` with its message. -/
  | outOfRange (what : String)
  /-- `*ptr` on a null `shared_ptr`: undefined behaviour. -/
  | nullDeref
  deriving DecidableEq, Repr

/-- A `slice<T>` object: its list `list_` of shared pointers. -/
structure Slice (T : Type) where
  list : List (Option T)
  deriving DecidableEq, Repr

namespace Slice

variable {T : Type}

/-- `*ptr`. -/
def deref : Option T → Except Fault T
  | some x => .ok x
  | none => .error .nullDeref

/-- `slice()`. -/
def empty : Slice T := ⟨[]⟩

/-- `size()`. -/
def size (s : Slice T) : Nat := s.list.length

/-- `assign(item)`: clear, then push a `make_shared<T>(item)`. -/
def assign (_s : Slice T) (item : T) : Slice T := ⟨[some item]⟩

/-- `slice(std::initializer_list<T>)`: `assign(item)` for each item in turn. -/
def ofInit (items : List T) : Slice T := items.foldl assign empty

/-- `assign(const slice&)` from another slice: clear, then copy its pointers. -/
def assignSlice (_s other : Slice T) : Slice T := ⟨other.list⟩

/-- `assign(std::initializer_list<T>)`: clear, then `append(item)` for each item. -/
def assignInit (_s : Slice T) (items : List T) : Slice T := ⟨items.map some⟩

/-- `append(item)`, `operator+=(item)` and `operator<<(item)`. -/
def append (s : Slice T) (item : T) : Slice T := ⟨s.list ++ [some item]⟩

/-- `append(const slice&)` and `operator+=(const slice&)` from another slice. -/
def appendSlice (s other : Slice T) : Slice T := ⟨s.list ++ other.list⟩

/-- `append(std::initializer_list<T>)`. -/
def appendInit (s : Slice T) (items : List T) : Slice T := ⟨s.list ++ items.map some⟩

/-- `prepend(item)`. -/
def prepend (s : Slice T) (item : T) : Slice T := ⟨some item :: s.list⟩

/-- `prepend(const slice&)` from another slice: its pointers from last to first, each pushed
at the front. -/
def prependSlice (s other : Slice T) : Slice T := ⟨other.list.reverse.foldl (fun l p => p :: l) s.list⟩

/-- `insert(it, value)` at the iterator's position. -/
def insert (s : Slice T) (pos : Nat) (value : T) : Slice T := ⟨s.list.insertIdx pos (some value)⟩

/-- `erase(it)` at the iterator's position. -/
def erase (s : Slice T) (pos : Nat) : Slice T := ⟨s.list.eraseIdx pos⟩

/-- `erase(start, end)` by indices. -/
def eraseRange (s : Slice T) (start stop : Nat) : Except Fault (Slice T) :=
  if start ≥ s.size ∨ stop > s.size ∨ start > stop then .error (.outOfRange "Invalid range")
  else .ok ⟨s.list.take start ++ s.list.drop stop⟩

/-- `clear()`. -/
def clear (_s : Slice T) : Slice T := ⟨[]⟩

/-- `resize(count)`: `std::list::resize`, which value-initialises new elements: null
pointers. -/
def resize (s : Slice T) (count : Nat) : Slice T :=
  ⟨s.list.take count ++ List.replicate (count - s.list.length) none⟩

/-- `copy(other, pos)` from another slice: its pointers inserted before position `pos`. -/
def copy (s other : Slice T) (pos : Nat) : Except Fault (Slice T) :=
  if pos > s.size then .error (.outOfRange "Copy position out of range")
  else .ok ⟨s.list.take pos ++ other.list ++ s.list.drop pos⟩

/-- `subslice(size_type start, size_type last)`: a new slice of the pointers at
`start .. last - 1`. -/
def subslice (s : Slice T) (start last : Nat) : Except Fault (Slice T) :=
  if start ≥ s.size ∨ last > s.size ∨ start > last then .error (.outOfRange "Invalid subslice range")
  else .ok ⟨(s.list.drop start).take (last - start)⟩

/-- `operator[](index)`: the object behind the pointer at `index`. -/
def index (s : Slice T) (i : Nat) : Except Fault T :=
  if h : i < s.size then deref (s.list.get ⟨i, h⟩) else .error (.outOfRange "Index out of range")

/-- The objects `each(func)` passes to `func`, in order. -/
def each (s : Slice T) : Except Fault (List T) := s.list.mapM deref

/-- The loop of `std::list::remove_if`: each element in turn is dereferenced and tested. -/
def removeIfLoop (pred : T → Bool) : List (Option T) → Except Fault (List (Option T))
  | [] => .ok []
  | p :: ps => do
    let x ← deref p
    let rest ← removeIfLoop pred ps
    pure (if pred x then rest else p :: rest)

/-- `remove_if(pred)`: drop the pointers whose object satisfies `pred`. -/
def removeIf (s : Slice T) (pred : T → Bool) : Except Fault (Slice T) :=
  (removeIfLoop pred s.list).map Slice.mk

/-- `remove(value)`: drop the pointers whose object equals `value`. -/
def remove [DecidableEq T] (s : Slice T) (value : T) : Except Fault (Slice T) :=
  s.removeIf fun x => x = value

/-- The calls that make a slice from a slice. -/
inductive Call (T : Type) where
  | assign (item : T)
  | assignSlice (other : Slice T)
  | assignList (source : List (Option T))
  | assignInit (items : List T)
  | append (item : T)
  | appendSlice (other : Slice T)
  | appendInit (items : List T)
  | prepend (item : T)
  | prependSlice (other : Slice T)
  | insert (pos : Nat) (value : T)
  | erase (pos : Nat)
  | eraseRange (start stop : Nat)
  | remove (value : T)
  | removeIf (pred : T → Bool)
  | copy (other : Slice T) (pos : Nat)
  | subslice (start last : Nat)
  | clear
  | resize (count : Nat)

/-- The slice a call leaves (for `subslice`, the slice it returns), or what it throws. -/
def call [DecidableEq T] (s : Slice T) : Call T → Except Fault (Slice T)
  | .assign item => .ok (s.assign item)
  | .assignSlice other => .ok (s.assignSlice other)
  | .assignList source => .ok ⟨source⟩
  | .assignInit items => .ok (s.assignInit items)
  | .append item => .ok (s.append item)
  | .appendSlice other => .ok (s.appendSlice other)
  | .appendInit items => .ok (s.appendInit items)
  | .prepend item => .ok (s.prepend item)
  | .prependSlice other => .ok (s.prependSlice other)
  | .insert pos value => .ok (s.insert pos value)
  | .erase pos => .ok (s.erase pos)
  | .eraseRange start stop => s.eraseRange start stop
  | .remove value => s.remove value
  | .removeIf pred => s.removeIf pred
  | .copy other pos => s.copy other pos
  | .subslice start last => s.subslice start last
  | .clear => .ok s.clear
  | .resize count => .ok (s.resize count)

/-- No pointer of the slice is null. -/
def NoNull (s : Slice T) : Prop := ∀ p ∈ s.list, p.isSome

/-- The slices and lists a call copies pointers from have no null pointer. -/
def Call.ArgsNoNull : Call T → Prop
  | .assignSlice other | .appendSlice other | .prependSlice other | .copy other _ => other.NoNull
  | .assignList source => ∀ p ∈ source, p.isSome
  | _ => True

theorem prependSlice_list (s other : Slice T) : (s.prependSlice other).list = other.list ++ s.list := by
  suffices ∀ (l acc : List (Option T)), l.reverse.foldl (fun l p => p :: l) acc = l ++ acc from
    this other.list s.list
  intro l
  induction l with
  | nil => intro acc; rfl
  | cons p l ih => intro acc; simp [ih]

theorem removeIfLoop_sublist {pred : T → Bool} :
    ∀ {l l' : List (Option T)}, removeIfLoop pred l = .ok l' → l'.Sublist l
  | [], l', h => by cases h; exact List.Sublist.refl _
  | p :: ps, l', h => by
    cases p with
    | none => cases h
    | some x =>
      simp only [removeIfLoop, deref, bind, Except.bind] at h
      cases hr : removeIfLoop pred ps with
      | error e => rw [hr] at h; cases h
      | ok rest =>
        rw [hr] at h
        cases h
        split_ifs
        · exact (removeIfLoop_sublist hr).cons _
        · exact (removeIfLoop_sublist hr).cons₂ _

/-- Every call but `resize` keeps a slice free of null pointers. -/
theorem noNull_call [DecidableEq T] {s : Slice T} (hs : s.NoNull) (c : Call T) (hc : c.ArgsNoNull)
    (hr : ∀ n, c ≠ .resize n) {s' : Slice T} (h : s.call c = .ok s') : s'.NoNull := by
  cases c with
  | resize n => exact absurd rfl (hr n)
  | insert pos value =>
    cases h
    intro p hp
    by_cases hpos : pos ≤ s.list.length
    · rcases (List.mem_insertIdx hpos).mp hp with rfl | hp
      · rfl
      · exact hs p hp
    · rw [insert, List.insertIdx_of_length_lt _ _ _ (by omega)] at hp
      exact hs p hp
  | remove value | removeIf pred =>
    simp only [call, remove, removeIf] at h
    cases hl : removeIfLoop _ s.list with
    | error e => rw [hl] at h; cases h
    | ok l' =>
      rw [hl] at h
      cases h
      exact fun p hp => hs p ((removeIfLoop_sublist hl).subset hp)
  | eraseRange start stop =>
    simp only [call, eraseRange] at h
    split_ifs at h
    cases h
    intro p hp
    rcases List.mem_append.mp hp with hp | hp
    · exact hs p (List.mem_of_mem_take hp)
    · exact hs p (List.mem_of_mem_drop hp)
  | copy other pos =>
    simp only [call, copy] at h
    split_ifs at h
    cases h
    intro p hp
    simp only [List.mem_append] at hp
    rcases hp with (hp | hp) | hp
    · exact hs p (List.mem_of_mem_take hp)
    · exact hc p hp
    · exact hs p (List.mem_of_mem_drop hp)
  | subslice start last =>
    simp only [call, subslice] at h
    split_ifs at h
    cases h
    exact fun p hp => hs p (List.mem_of_mem_drop (List.mem_of_mem_take hp))
  | prependSlice other =>
    cases h
    intro p hp
    rw [prependSlice_list, List.mem_append] at hp
    exact hp.elim (hc p) (hs p)
  | erase pos => cases h; exact fun p hp => hs p (List.mem_of_mem_eraseIdx hp)
  | assignSlice other => cases h; exact hc
  | assignList source => cases h; exact hc
  | appendSlice other =>
    cases h; exact fun p hp => (List.mem_append.mp hp).elim (hs p) (hc p)
  | assign item => cases h; simp [NoNull, assign]
  | assignInit items => cases h; simp [NoNull, assignInit]
  | append item =>
    cases h
    intro p hp
    rcases List.mem_append.mp hp with hp | hp
    · exact hs p hp
    · rw [List.mem_singleton.mp hp]; rfl
  | appendInit items =>
    cases h
    intro p hp
    rcases List.mem_append.mp hp with hp | hp
    · exact hs p hp
    · obtain ⟨a, -, rfl⟩ := List.mem_map.mp hp; rfl
  | prepend item => cases h; simpa [NoNull, prepend] using hs
  | clear => cases h; simp [NoNull, clear]

/-- `resize(n)` keeps a slice free of null pointers exactly when it does not grow it. -/
theorem noNull_resize_iff {s : Slice T} (hs : s.NoNull) (n : Nat) :
    (s.resize n).NoNull ↔ n ≤ s.size := by
  constructor
  · intro h
    by_contra hn
    have hnone : none ∈ (s.resize n).list :=
      List.mem_append_right _ (List.mem_replicate.mpr ⟨by simp [size] at hn; omega, rfl⟩)
    simpa using h none hnone
  · intro hn p hp
    simp only [resize, List.mem_append, List.mem_replicate] at hp
    rcases hp with hp | ⟨hlen, -⟩
    · exact hs p (List.mem_of_mem_take hp)
    · simp [size] at hn; omega

/-- The slice after the calls, in order, or what the first failing call throws. -/
def run [DecidableEq T] (s : Slice T) : List (Call T) → Except Fault (Slice T)
  | [] => .ok s
  | c :: cs => (s.call c).bind fun s' => s'.run cs

/-- A run whose calls copy no null pointer in and never grow the slice by `resize` keeps a
slice free of null pointers. -/
theorem noNull_run [DecidableEq T] (cs : List (Call T))
    (hc : ∀ c ∈ cs, c.ArgsNoNull ∧ ∀ n, c ≠ .resize n) :
    ∀ {s s' : Slice T}, s.NoNull → s.run cs = .ok s' → s'.NoNull := by
  induction cs with
  | nil => intro s s' hs h; cases h; exact hs
  | cons c cs ih =>
    intro s s' hs h
    obtain ⟨hargs, hr⟩ := hc c (List.mem_cons_self _ _)
    cases hcall : s.call c with
    | error e => rw [run, hcall] at h; cases h
    | ok s₁ =>
      rw [run, hcall] at h
      exact ih (fun c hm => hc c (List.mem_cons_of_mem _ hm)) (noNull_call hs c hargs hr hcall) h

/-- On a slice without null pointers, `operator[]` throws only out of range. -/
theorem index_of_noNull {s : Slice T} (hs : s.NoNull) {i : Nat} (hi : i < s.size) :
    ∃ x, s.index i = .ok x := by
  have := hs _ (List.get_mem s.list i hi)
  obtain ⟨x, hx⟩ := Option.isSome_iff_exists.mp this
  exact ⟨x, by rw [index, dif_pos hi, hx]; rfl⟩

/-- A `slice<int>` grown by `resize(1)` holds a null pointer, which `operator[](0)`
dereferences; on a slice without null pointers, every run of calls that copy no null pointer
in and never grow the slice by `resize` ends with `operator[]` returning at every index in
range. -/
theorem slice_resize_index_null :
    ((empty : Slice Int).resize 1).index 0 = .error .nullDeref ∧
      ∀ {T : Type} [DecidableEq T] (cs : List (Call T)),
        (∀ c ∈ cs, c.ArgsNoNull ∧ ∀ n, c ≠ .resize n) → ∀ s s' : Slice T, s.NoNull →
          s.run cs = .ok s' → ∀ i < s'.size, ∃ x, s'.index i = .ok x :=
  ⟨rfl, fun cs hc _ _ hs h _ hi => index_of_noNull (noNull_run cs hc hs h) hi⟩

/-! ## Ranges -/

/-- `subslice(start, last)` and `erase(start, end)` throw exactly when `start` is not a
position of the slice or the range runs past it or backwards. -/
theorem subslice_error_iff (s : Slice T) (start last : Nat) :
    s.subslice start last = .error (.outOfRange "Invalid subslice range") ↔
      s.size ≤ start ∨ s.size < last ∨ last < start := by
  unfold subslice
  split_ifs with h <;> simp only [Except.error.injEq, reduceCtorEq, true_iff, false_iff] <;> omega

theorem eraseRange_error_iff (s : Slice T) (start stop : Nat) :
    s.eraseRange start stop = .error (.outOfRange "Invalid range") ↔
      s.size ≤ start ∨ s.size < stop ∨ stop < start := by
  unfold eraseRange
  split_ifs with h <;> simp only [Except.error.injEq, reduceCtorEq, true_iff, false_iff] <;> omega

/-- Otherwise `subslice(start, last)` holds the pointers at `start .. last - 1`. -/
theorem subslice_getElem? {s : Slice T} {start last : Nat} (hs : start < s.size)
    (hl : last ≤ s.size) (hsl : start ≤ last) :
    ∃ r, s.subslice start last = .ok r ∧ r.size = last - start ∧
      ∀ k, r.list[k]? = if k < last - start then s.list[start + k]? else none := by
  refine ⟨_, if_neg (by omega), ?_, fun k => ?_⟩
  · simp only [size, List.length_take, List.length_drop] at hl ⊢; omega
  · rw [List.getElem?_take, List.getElem?_drop]

/-- and `erase(start, end)` leaves the pointers before `start`, followed by those from `end`
on. -/
theorem eraseRange_getElem? {s : Slice T} {start stop : Nat} (hs : start < s.size)
    (hl : stop ≤ s.size) (hsl : start ≤ stop) :
    ∃ r, s.eraseRange start stop = .ok r ∧ r.size = s.size - (stop - start) ∧
      ∀ k, r.list[k]? = if k < start then s.list[k]? else s.list[k + (stop - start)]? := by
  have hlen : (s.list.take start).length = start := by simp [size] at hs; simp; omega
  refine ⟨_, if_neg (by omega), ?_, fun k => ?_⟩
  · simp only [size, List.length_append, List.length_take, List.length_drop] at hl hs ⊢; omega
  · split_ifs with hk
    · rw [List.getElem?_append_left (by omega), List.getElem?_take_of_lt hk]
    · rw [List.getElem?_append_right (by omega), List.getElem?_drop, hlen]
      congr 1; omega

/-- An empty range at the end of a slice is out of range for both members: on the empty
`slice<int>`, `subslice(0, 0)` and `erase(0, 0)` throw. -/
theorem slice_empty_range_at_end_throws :
    (empty : Slice Int).subslice 0 0 = .error (.outOfRange "Invalid subslice range") ∧
      (empty : Slice Int).eraseRange 0 0 = .error (.outOfRange "Invalid range") :=
  ⟨rfl, rfl⟩

end Slice

end ModernCli
