import ModernCli.Slice

/-!
# Copying from a slice that may be the object itself

`append(other)`, `prepend(other)`, `copy(other, pos)` and `assign(other)` (and `operator+=`,
which calls `append`) copy the pointers of `other` with `std::copy` into an insert iterator
on their own list, and `other` may be the object itself. A `std::list` iterator names a node
and an insertion moves no node, so an iterator is here the position of its node, which an
insertion at or before it moves on by one (`Slice.moved`); `end()` is the position past the
last node. The loops read the source list afresh at each step (`Slice.backCopy`,
`Slice.frontCopy`, `Slice.insertCopy`), and a bound `fuel` on their steps makes them
functions: `none` is a loop that has not ended within it. The slices of a program are a
store `Nat → Slice T`.

* `Slice.appendFrom_of_ne`, `Slice.prependFrom_of_ne`, `Slice.copyFrom_of_ne`,
  `Slice.assignFrom_of_ne`: from another object, each member ends within `size() + 1` steps
  with the slice `Slice.appendSlice`, `Slice.prependSlice`, `Slice.copy` and
  `Slice.assignSlice` give;
* `Slice.prependFrom_self`, `Slice.copyFrom_self_zero`: `s.prepend(s)` and `s.copy(s, 0)` end
  with `s` twice over;
* `Slice.appendFrom_self_none`, `Slice.copyFrom_self_none`: on a non-empty `s`, `s.append(s)`
  and `s.copy(s, pos)` for `0 < pos` never end, each step inserting a node the loop reaches
  later;
* `Slice.assignFrom_self`: `s.assign(s)` clears `s` before it reads it, and leaves it empty.
-/

namespace ModernCli

namespace Slice

variable {T : Type}

/-- Object `i` of the store `w` gets the pointer list `l`. -/
def put (w : Nat → Slice T) (i : Nat) (l : List (Option T)) : Nat → Slice T :=
  Function.update w i ⟨l⟩

/-- The position of a node of object `src` after a node is inserted at position `q` of object
`dst`: one further on when the insertion is in its own list, at or before it. -/
def moved (src dst q p : Nat) : Nat := if dst = src ∧ q ≤ p then p + 1 else p

/-- `std::copy(first, last, std::back_inserter(list_))` on object `dst`, with `first` at
position `r` of object `src` and `last` its `end()`: until `first` reaches `end()`, push the
pointer at `first` on the back of `dst` and advance `first`. -/
def backCopy (src dst : Nat) : Nat → Nat → (Nat → Slice T) → Option (Nat → Slice T)
  | 0, _, _ => none
  | fuel + 1, r, w =>
    match (w src).list[r]? with
    | none => some w
    | some p =>
      backCopy src dst fuel (moved src dst (w dst).size r + 1) (put w dst ((w dst).list ++ [p]))

/-- `std::copy(first, last, std::front_inserter(list_))` on object `dst`, with reverse
iterators `first` and `last` of object `src` given by the positions `b` and `e` of their
bases: until `first` reaches `last`, push the pointer before `b` on the front of `dst` and
move `b` back one node. Reading before the first node is `none`; the bases of `rbegin()`
and `rend()` never do. -/
def frontCopy (src dst : Nat) : Nat → Nat → Nat → (Nat → Slice T) → Option (Nat → Slice T)
  | 0, _, _, _ => none
  | fuel + 1, b, e, w =>
    if b = e then some w
    else match b with
      | 0 => none
      | b' + 1 =>
        match (w src).list[b']? with
        | none => none
        | some p =>
          frontCopy src dst fuel (moved src dst 0 (b' + 1) - 1) (moved src dst 0 e)
            (put w dst (p :: (w dst).list))

/-- `std::copy(first, last, std::inserter(list_, it))` on object `dst`, with `first` at
position `r` of object `src`, `last` its `end()` and `it` at position `q` of `dst`: until
`first` reaches `end()`, insert the pointer at `first` before `it` and advance `first`; `it`
keeps its node. -/
def insertCopy (src dst : Nat) : Nat → Nat → Nat → (Nat → Slice T) → Option (Nat → Slice T)
  | 0, _, _, _ => none
  | fuel + 1, r, q, w =>
    match (w src).list[r]? with
    | none => some w
    | some p =>
      insertCopy src dst fuel (moved src dst q r + 1) (moved dst dst q q)
        (put w dst ((w dst).list.insertIdx q p))

/-- `append(other)` on object `dst`, `other` being object `src`: `std::copy(other.list_.begin(),
other.list_.end(), std::back_inserter(list_))`. `operator+=(other)` calls it. -/
def appendFrom (w : Nat → Slice T) (dst src fuel : Nat) : Option (Nat → Slice T) :=
  backCopy src dst fuel 0 w

/-- `prepend(other)`: `std::copy(other.list_.rbegin(), other.list_.rend(),
std::front_inserter(list_))`, the bases of `rbegin()` and `rend()` being `end()` and
`begin()`. -/
def prependFrom (w : Nat → Slice T) (dst src fuel : Nat) : Option (Nat → Slice T) :=
  frontCopy src dst fuel (w src).size 0 w

/-- `copy(other, pos)`: out of range past the end, and otherwise `std::copy` of `other` into
`std::inserter(list_, it)`, `it` at position `pos`. -/
def copyFrom (w : Nat → Slice T) (dst src pos fuel : Nat) :
    Except Fault (Option (Nat → Slice T)) :=
  if pos > (w dst).size then .error (.outOfRange "Copy position out of range")
  else .ok (insertCopy src dst fuel 0 pos w)

/-- `assign(other)`: `list_.clear()`, then the copy of `append`. -/
def assignFrom (w : Nat → Slice T) (dst src fuel : Nat) : Option (Nat → Slice T) :=
  backCopy src dst fuel 0 (put w dst [])

@[simp] theorem put_self (w : Nat → Slice T) (i : Nat) (l : List (Option T)) :
    put w i l i = ⟨l⟩ := Function.update_same _ _ _

@[simp] theorem put_ne (w : Nat → Slice T) {i j : Nat} (h : j ≠ i) (l : List (Option T)) :
    put w i l j = w j := Function.update_noteq h _ _

@[simp] theorem put_put (w : Nat → Slice T) (i : Nat) (l l' : List (Option T)) :
    put (put w i l) i l' = put w i l' := Function.update_idem _ _ _

theorem put_eq_self {w : Nat → Slice T} {i : Nat} {l : List (Option T)} (h : w i = ⟨l⟩) :
    put w i l = w := by
  rw [put, ← h, Function.update_eq_self]

theorem moved_of_ne {src dst : Nat} (h : dst ≠ src) (q p : Nat) : moved src dst q p = p := by
  simp [moved, h]

theorem moved_of_lt (src dst : Nat) {q p : Nat} (h : p < q) : moved src dst q p = p := by
  simp only [moved]; split_ifs <;> omega

theorem moved_self_of_le (i : Nat) {q p : Nat} (h : q ≤ p) : moved i i q p = p + 1 := by
  simp [moved, h]

/-- One step of the copy of `prepend`, before `first` reaches `last`. -/
theorem frontCopy_step (src dst fuel : Nat) {b e : Nat} (w : Nat → Slice T) (hb : b ≠ e)
    (h0 : 0 < b) :
    frontCopy src dst (fuel + 1) b e w =
      match (w src).list[b - 1]? with
      | none => none
      | some p =>
        frontCopy src dst fuel (moved src dst 0 b - 1) (moved src dst 0 e)
          (put w dst (p :: (w dst).list)) := by
  obtain ⟨b, rfl⟩ : ∃ b', b = b' + 1 := ⟨b - 1, by omega⟩
  rw [frontCopy, if_neg hb]
  rfl

theorem frontCopy_stop (src dst fuel b : Nat) (w : Nat → Slice T) :
    frontCopy src dst (fuel + 1) b b w = some w := by
  cases b <;> rw [frontCopy, if_pos rfl]

theorem insertIdx_eq_take_drop {α : Type} (x : α) :
    ∀ (n : Nat) (l : List α), n ≤ l.length → l.insertIdx n x = l.take n ++ x :: l.drop n
  | 0, l, _ => by simp [List.insertIdx_zero]
  | n + 1, [], h => by simp at h
  | n + 1, a :: l, h => by
    rw [List.insertIdx_succ_cons, insertIdx_eq_take_drop x n l (by simpa using h)]
    rfl

/-! ## From another object -/

section Other

variable {src dst : Nat}

/-- From another object, the copy of `append` pushes the pointers of `src` from `r` on. -/
theorem backCopy_of_ne (h : dst ≠ src) {fuel r : Nat} {w : Nat → Slice T}
    (hr : r ≤ (w src).size) (hf : (w src).size - r < fuel) :
    backCopy src dst fuel r w = some (put w dst ((w dst).list ++ (w src).list.drop r)) := by
  induction fuel generalizing r w with
  | zero => omega
  | succ fuel ih =>
    rw [backCopy]
    rcases Nat.lt_or_ge r (w src).size with hlt | hge
    · rw [List.getElem?_eq_getElem hlt]
      dsimp only
      have hw : put w dst ((w dst).list ++ [(w src).list[r]]) src = w src := put_ne _ (Ne.symm h) _
      rw [moved_of_ne h, ih (by rw [hw]; omega) (by rw [hw]; omega), hw, put_self, put_put,
        List.drop_eq_getElem_cons hlt, List.append_assoc]
      rfl
    · rw [List.getElem?_eq_none hge, List.drop_eq_nil_of_le hge, List.append_nil, put_eq_self rfl]

/-- From another object, the copy of `prepend` pushes the pointers of `src` before `b` on the
front, last first. -/
theorem frontCopy_of_ne (h : dst ≠ src) {fuel b : Nat} {w : Nat → Slice T}
    (hb : b ≤ (w src).size) (hf : b < fuel) :
    frontCopy src dst fuel b 0 w = some (put w dst ((w src).list.take b ++ (w dst).list)) := by
  induction fuel generalizing b w with
  | zero => omega
  | succ fuel ih =>
    cases b with
    | zero => rw [frontCopy, if_pos rfl, List.take_zero, List.nil_append, put_eq_self rfl]
    | succ b =>
      have hlt : b < (w src).list.length := hb
      rw [frontCopy, if_neg (Nat.succ_ne_zero b), List.getElem?_eq_getElem hlt]
      dsimp only
      have hw : put w dst ((w src).list[b] :: (w dst).list) src = w src := put_ne _ (Ne.symm h) _
      have htake : (w src).list.take (b + 1) = (w src).list.take b ++ [(w src).list[b]] := by
        rw [List.take_succ, List.getElem?_eq_getElem hlt]; rfl
      rw [moved_of_ne h, moved_of_ne h, Nat.add_sub_cancel, ih (by rw [hw]; omega) (by omega), hw,
        put_self, put_put, htake, List.append_assoc]
      rfl

/-- From another object, the copy of `copy` inserts the pointers of `src` from `r` on before
position `q`. -/
theorem insertCopy_of_ne (h : dst ≠ src) {fuel r q : Nat} {w : Nat → Slice T}
    (hr : r ≤ (w src).size) (hq : q ≤ (w dst).size) (hf : (w src).size - r < fuel) :
    insertCopy src dst fuel r q w =
      some (put w dst ((w dst).list.take q ++ (w src).list.drop r ++ (w dst).list.drop q)) := by
  induction fuel generalizing r q w with
  | zero => omega
  | succ fuel ih =>
    rw [insertCopy]
    rcases Nat.lt_or_ge r (w src).size with hlt | hge
    · rw [List.getElem?_eq_getElem hlt]
      dsimp only
      have hq' : q ≤ (w dst).list.length := hq
      have htq : ((w dst).list.take q).length = q := by simp; omega
      have hw : put w dst ((w dst).list.insertIdx q (w src).list[r]) src = w src :=
        put_ne _ (Ne.symm h) _
      have hins : (w dst).list.insertIdx q (w src).list[r] =
          ((w dst).list.take q ++ [(w src).list[r]]) ++ (w dst).list.drop q := by
        rw [insertIdx_eq_take_drop _ _ _ hq', List.append_assoc]; rfl
      rw [moved_of_ne h, moved_self_of_le dst le_rfl,
        ih (by rw [hw]; omega) (by simp [size, hins]; omega) (by rw [hw]; omega), hw, put_self,
        put_put, hins, List.take_left' (by simp [htq]), List.drop_left' (by simp [htq]),
        List.drop_eq_getElem_cons hlt]
      simp
    · rw [List.getElem?_eq_none hge, List.drop_eq_nil_of_le hge, List.append_nil,
        List.take_append_drop, put_eq_self rfl]

/-- `append(other)` from another object ends within `size() + 1` steps, with the slice of
`Slice.appendSlice`. -/
theorem appendFrom_of_ne (w : Nat → Slice T) (h : dst ≠ src) {fuel : Nat}
    (hf : (w src).size < fuel) :
    appendFrom w dst src fuel = some (Function.update w dst ((w dst).appendSlice (w src))) := by
  rw [appendFrom, backCopy_of_ne h (Nat.zero_le _) (by omega), List.drop_zero]
  rfl

/-- `prepend(other)` from another object, with the slice of `Slice.prependSlice`. -/
theorem prependFrom_of_ne (w : Nat → Slice T) (h : dst ≠ src) {fuel : Nat}
    (hf : (w src).size < fuel) :
    prependFrom w dst src fuel = some (Function.update w dst ((w dst).prependSlice (w src))) := by
  rw [prependFrom, frontCopy_of_ne h le_rfl hf, size, List.take_length,
    ← prependSlice_list]
  rfl

/-- `copy(other, pos)` from another object throws where `Slice.copy` throws, and otherwise
ends with its slice. -/
theorem copyFrom_of_ne (w : Nat → Slice T) (h : dst ≠ src) (pos : Nat) {fuel : Nat}
    (hf : (w src).size < fuel) :
    copyFrom w dst src pos fuel = ((w dst).copy (w src) pos).map fun s => some (Function.update w dst s) := by
  rw [copyFrom, copy]
  split_ifs with hp
  · rfl
  · rw [insertCopy_of_ne h (Nat.zero_le _) (by omega) (by omega), List.drop_zero]
    rfl

/-- `assign(other)` from another object, with the slice of `Slice.assignSlice`. -/
theorem assignFrom_of_ne (w : Nat → Slice T) (h : dst ≠ src) {fuel : Nat}
    (hf : (w src).size < fuel) :
    assignFrom w dst src fuel = some (Function.update w dst ((w dst).assignSlice (w src))) := by
  have hw : put w dst [] src = w src := put_ne _ (Ne.symm h) _
  rw [assignFrom, backCopy_of_ne h (Nat.zero_le _) (by rw [hw]; omega), hw, put_self, put_put,
    List.drop_zero, List.nil_append]
  rfl

end Other

/-! ## From the object itself -/

section Self

variable {i : Nat}

/-- `s.append(s)`: each push puts a node behind `first`, which so never reaches `end()`. -/
theorem backCopy_self_none {fuel r : Nat} {w : Nat → Slice T} (hr : r < (w i).size) :
    backCopy i i fuel r w = none := by
  induction fuel generalizing r w with
  | zero => rfl
  | succ fuel ih =>
    rw [backCopy, List.getElem?_eq_getElem hr]
    dsimp only
    rw [moved_of_lt _ _ hr]
    exact ih (by simp [size] at hr ⊢; omega)

/-- `s.copy(s, pos)` with `first` before the insertion point: each insertion puts a node
between `first` and `end()`, so `first` never reaches `end()`. -/
theorem insertCopy_self_none {fuel r q : Nat} {w : Nat → Slice T} (hrq : r < q)
    (hq : q ≤ (w i).size) : insertCopy i i fuel r q w = none := by
  induction fuel generalizing r q w with
  | zero => rfl
  | succ fuel ih =>
    have hq' : q ≤ (w i).list.length := hq
    rw [insertCopy, List.getElem?_eq_getElem (Nat.lt_of_lt_of_le hrq hq')]
    dsimp only
    rw [moved_of_lt _ _ hrq, moved_self_of_le i le_rfl]
    exact ih (by omega) (by simp only [size, put_self]; rw [List.length_insertIdx _ _ hq']; omega)

/-- `s.prepend(s)`: after `k` pushes the list is the last `k` pointers of the old list
followed by the old list, and `first` reads the pointer before them. -/
theorem frontCopy_self (l : List (Option T)) {fuel k : Nat} {w : Nat → Slice T}
    (hw : w i = ⟨l.drop (l.length - k) ++ l⟩) (hk : k ≤ l.length) (hf : l.length - k < fuel) :
    frontCopy i i fuel l.length k w = some (put w i (l ++ l)) := by
  induction fuel generalizing k w with
  | zero => omega
  | succ fuel ih =>
    rcases Nat.lt_or_ge k l.length with hlt | hge
    · obtain ⟨j, hj⟩ : ∃ j, l.length - k = j + 1 := ⟨l.length - k - 1, by omega⟩
      have hjl : j < l.length := by omega
      have hd : (l.drop (l.length - k)).length = k := by simp; omega
      have hget : (w i).list[l.length - 1]? = some l[j] := by
        rw [hw]
        dsimp only
        rw [List.getElem?_append_right (by omega), hd, show l.length - 1 - k = j by omega,
          List.getElem?_eq_getElem hjl]
      have hw' : put w i (l[j] :: (w i).list) i = ⟨l.drop (l.length - (k + 1)) ++ l⟩ := by
        rw [put_self, hw, show l.length - (k + 1) = j by omega, List.drop_eq_getElem_cons hjl, hj]
        rfl
      rw [frontCopy_step _ _ _ _ (by omega) (by omega), hget]
      dsimp only
      rw [moved_self_of_le i (Nat.zero_le _), moved_self_of_le i (Nat.zero_le _),
        Nat.add_sub_cancel, ih hw' (by omega) (by omega), put_put]
    · obtain rfl : k = l.length := le_antisymm hk hge
      rw [Nat.sub_self, List.drop_zero] at hw
      rw [frontCopy_stop, put_eq_self hw]

/-- `s.copy(s, 0)`: after `k` insertions the list is the first `k` pointers of the old list
followed by the old list, and `first` reads position `2k`. -/
theorem insertCopy_self_zero (l : List (Option T)) {fuel k : Nat} {w : Nat → Slice T}
    (hw : w i = ⟨l.take k ++ l⟩) (hk : k ≤ l.length) (hf : l.length - k < fuel) :
    insertCopy i i fuel (2 * k) k w = some (put w i (l ++ l)) := by
  induction fuel generalizing k w with
  | zero => omega
  | succ fuel ih =>
    have htk : (l.take k).length = k := by simp; omega
    rcases Nat.lt_or_ge k l.length with hlt | hge
    · have hget : (w i).list[2 * k]? = some l[k] := by
        rw [hw]
        dsimp only
        rw [List.getElem?_append_right (by omega), htk, show 2 * k - k = k by omega,
          List.getElem?_eq_getElem hlt]
      have hw' : put w i ((w i).list.insertIdx k l[k]) i = ⟨l.take (k + 1) ++ l⟩ := by
        rw [put_self, hw]
        dsimp only
        have htake : l.take (k + 1) = l.take k ++ [l[k]] := by
          rw [List.take_succ, List.getElem?_eq_getElem hlt]; rfl
        rw [insertIdx_eq_take_drop _ _ _ (by simp; omega), List.take_left' htk,
          List.drop_left' htk, htake, List.append_assoc]
        rfl
      rw [insertCopy, hget]
      dsimp only
      rw [moved_self_of_le i (by omega), moved_self_of_le i le_rfl,
        show 2 * k + 1 + 1 = 2 * (k + 1) by omega, ih hw' (by omega) (by omega), put_put]
    · obtain rfl : k = l.length := le_antisymm hk hge
      rw [List.take_length] at hw
      rw [insertCopy, List.getElem?_eq_none (by rw [hw]; simp; omega), put_eq_self hw]

/-- `s += s` and `s.append(s)` on a non-empty slice never end. -/
theorem appendFrom_self_none (w : Nat → Slice T) (hs : 0 < (w i).size) (fuel : Nat) :
    appendFrom w i i fuel = none :=
  backCopy_self_none hs

/-- `s.prepend(s)` ends within `size() + 1` steps with the slice twice over. -/
theorem prependFrom_self (w : Nat → Slice T) {fuel : Nat} (hf : (w i).size < fuel) :
    prependFrom w i i fuel = some (put w i ((w i).list ++ (w i).list)) :=
  frontCopy_self (w i).list (by simp) (Nat.zero_le _) (by simpa [size] using hf)

/-- `s.copy(s, 0)` ends within `size() + 1` steps with the slice twice over. -/
theorem copyFrom_self_zero (w : Nat → Slice T) {fuel : Nat} (hf : (w i).size < fuel) :
    copyFrom w i i 0 fuel = .ok (some (put w i ((w i).list ++ (w i).list))) := by
  rw [copyFrom, if_neg (Nat.not_lt_zero _)]
  exact congrArg Except.ok
    (insertCopy_self_zero (w i).list (k := 0) (by simp) (Nat.zero_le _) (by simpa [size] using hf))

/-- `s.copy(s, pos)` for a position after the first never ends. -/
theorem copyFrom_self_none (w : Nat → Slice T) {pos : Nat} (hp : 0 < pos)
    (hq : pos ≤ (w i).size) (fuel : Nat) : copyFrom w i i pos fuel = .ok none := by
  rw [copyFrom, if_neg (by omega)]
  exact congrArg Except.ok (insertCopy_self_none hp hq)

/-- `s.assign(s)` clears `s` and copies nothing. -/
theorem assignFrom_self (w : Nat → Slice T) {fuel : Nat} (hf : 0 < fuel) :
    assignFrom w i i fuel = some (put w i []) := by
  obtain ⟨fuel, rfl⟩ : ∃ f, fuel = f + 1 := ⟨fuel - 1, by omega⟩
  simp [assignFrom, backCopy]

end Self

/-- `slice<int> s{1};`: `s += s` and `s.copy(s, 1)` never end, and `s.assign(s)` leaves `s`
empty. From another object the four members end with the slices the claim names; from the
object itself `prepend` and `copy(s, 0)` end with it twice over and `assign` empties it, and
on a non-empty slice `append` and `copy(s, pos)` with `0 < pos` never end. -/
theorem slice_self_aliased_copies :
    (∀ fuel, appendFrom (fun _ => (⟨[some 1]⟩ : Slice Int)) 0 0 fuel = none) ∧
      (∀ fuel, copyFrom (fun _ => (⟨[some 1]⟩ : Slice Int)) 0 0 1 fuel = .ok none) ∧
      ((assignFrom (fun _ => (⟨[some 1]⟩ : Slice Int)) 0 0 1).map fun w => (w 0).list) =
        some [] ∧
      (∀ {T : Type} (w : Nat → Slice T) (dst src fuel : Nat), dst ≠ src → (w src).size < fuel →
        appendFrom w dst src fuel = some (Function.update w dst ((w dst).appendSlice (w src))) ∧
        prependFrom w dst src fuel =
          some (Function.update w dst ((w dst).prependSlice (w src))) ∧
        (∀ pos, copyFrom w dst src pos fuel =
          ((w dst).copy (w src) pos).map fun s => some (Function.update w dst s)) ∧
        assignFrom w dst src fuel = some (Function.update w dst ((w dst).assignSlice (w src)))) ∧
      (∀ {T : Type} (w : Nat → Slice T) (i fuel : Nat), (w i).size < fuel →
        prependFrom w i i fuel = some (put w i ((w i).list ++ (w i).list)) ∧
        copyFrom w i i 0 fuel = .ok (some (put w i ((w i).list ++ (w i).list))) ∧
        assignFrom w i i fuel = some (put w i [])) ∧
      (∀ {T : Type} (w : Nat → Slice T) (i : Nat), 0 < (w i).size → ∀ fuel,
        appendFrom w i i fuel = none ∧
        ∀ pos, 0 < pos → pos ≤ (w i).size → copyFrom w i i pos fuel = .ok none) :=
  ⟨appendFrom_self_none _ (by decide), copyFrom_self_none _ Nat.one_pos (by decide), by decide,
    fun w _ _ _ h hf => ⟨appendFrom_of_ne w h hf, prependFrom_of_ne w h hf,
      fun pos => copyFrom_of_ne w h pos hf, assignFrom_of_ne w h hf⟩,
    fun w _ _ hf => ⟨prependFrom_self w hf, copyFrom_self_zero w hf,
      assignFrom_self w (Nat.zero_lt_of_lt hf)⟩,
    fun w _ hs fuel => ⟨appendFrom_self_none w hs fuel,
      fun _ hp hq => copyFrom_self_none w hp hq fuel⟩⟩

end Slice

end ModernCli
