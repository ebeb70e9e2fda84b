import Mathlib

/-!
# `fd_t`: an owned file descriptor

`tycho::fsys::fd_t` holds one descriptor `fd_`, `-1` for none, and closes it in its
destructor. A `World` is the `fd_t` objects of a program, each `fd_` or `none` outside its
lifetime, with the descriptors `fsys::close` has been called on, oldest first.

The move constructor hands the descriptor over and sets the source to `-1`. The move
assignment releases its own descriptor and copies the source's, but leaves the source
holding it too: two live objects then own one descriptor, and both close it.

* `Fsys.World.Inv`: ownership: a descriptor other than `-1` is held by at most one live
  object, and a descriptor is closed at most once and never while an object holds it;
* `Fsys.World.Reach.inv`: every call but a move assignment that moves a descriptor keeps
  ownership, given fresh descriptors from the caller and from `fsys::open`;
* `Fsys.World.moveAssign_shares`: a move assignment between two live objects leaves both
  holding the source's descriptor, and `Fsys.fd_move_assign_closes_twice` closes it twice.
-/

namespace ModernCli

namespace Fsys

/-- The `fd_t` objects of a program and the descriptors closed so far. -/
structure World where
  /-- `fd_` of each object, `none` outside the object's lifetime. -/
  fds : Nat → Option Int
  /-- The objects constructed so far; `made` names the next one. -/
  made : Nat
  /-- The descriptors `fsys::close` was called on, oldest first. -/
  closed : List Int

/-- The calls on `fd_t` objects; an object is named by the order of its construction. -/
inductive Call where
  /-- `fd_t(int)`, or `fd_t(path)` with the result of `fsys::open`. -/
  | make (fd : Int)
  /-- `fd_t()`. -/
  | makeDefault
  /-- `fd_t(fd_t&& other)`. -/
  | moveMake (src : Nat)
  /-- `dst = std::move(src)`. -/
  | moveAssign (dst src : Nat)
  /-- `dst = fd`, or `dst.open(path)` with the result of `fsys::open`. -/
  | assign (dst : Nat) (fd : Int)
  /-- `~fd_t()`. -/
  | destroy (obj : Nat)

namespace World

/-- The world before any object. -/
def empty : World := ⟨fun _ => none, 0, []⟩

/-- Object `i` holds `fd`. -/
def setFd (w : World) (i : Nat) (fd : Option Int) : World :=
  { w with fds := Function.update w.fds i fd }

/-- `if(fd_ != -1) fsys::close(fd_);`, in `release()` and in the destructor. -/
def closeIf (w : World) (fd : Int) : World :=
  if fd ≠ -1 then { w with closed := w.closed ++ [fd] } else w

/-- `release()`: close a held descriptor other than `-1`, then hold `-1`. -/
def release (w : World) (i : Nat) : World :=
  match w.fds i with
  | some fd => (w.closeIf fd).setFd i (some (-1))
  | none => w

/-- A new object holding `fd`. -/
def make (w : World) (fd : Int) : World :=
  { w with made := w.made + 1 }.setFd w.made (some fd)

/-- One call, or `none` when it names an object that is not live. -/
def step (w : World) : Call → Option World
  | .make fd => some (w.make fd)
  | .makeDefault => some (w.make (-1))
  | .moveMake src => (w.fds src).map fun fd => (w.make fd).setFd src (some (-1))
  | .moveAssign dst src => (w.fds dst).bind fun _ =>
      ((w.release dst).fds src).map fun fd => (w.release dst).setFd dst (some fd)
  | .assign dst fd => (w.fds dst).map fun _ => (w.release dst).setFd dst (some fd)
  | .destroy i => (w.fds i).map fun fd => (w.closeIf fd).setFd i none

/-- A run of calls, `none` if one names an object that is not live. -/
def run (w : World) : List Call → Option World
  | [] => some w
  | c :: cs => (w.step c).bind fun w' => w'.run cs

@[simp] theorem setFd_fds (w : World) (i : Nat) (fd : Option Int) :
    (w.setFd i fd).fds = Function.update w.fds i fd := rfl

@[simp] theorem setFd_made (w : World) (i : Nat) (fd : Option Int) :
    (w.setFd i fd).made = w.made := rfl

@[simp] theorem setFd_closed (w : World) (i : Nat) (fd : Option Int) :
    (w.setFd i fd).closed = w.closed := rfl

@[simp] theorem closeIf_fds (w : World) (fd : Int) : (w.closeIf fd).fds = w.fds := by
  unfold closeIf; split_ifs <;> rfl

@[simp] theorem closeIf_made (w : World) (fd : Int) : (w.closeIf fd).made = w.made := by
  unfold closeIf; split_ifs <;> rfl

theorem closeIf_closed (w : World) (fd : Int) :
    (w.closeIf fd).closed = if fd ≠ -1 then w.closed ++ [fd] else w.closed := by
  unfold closeIf; split_ifs <;> rfl

@[simp] theorem make_fds (w : World) (fd : Int) :
    (w.make fd).fds = Function.update w.fds w.made (some fd) := rfl

@[simp] theorem make_made (w : World) (fd : Int) : (w.make fd).made = w.made + 1 := rfl

@[simp] theorem make_closed (w : World) (fd : Int) : (w.make fd).closed = w.closed := rfl

@[simp] theorem release_made (w : World) (i : Nat) : (w.release i).made = w.made := by
  unfold release; split <;> simp

theorem release_of_some {w : World} {i : Nat} {fd : Int} (h : w.fds i = some fd) :
    w.release i = (w.closeIf fd).setFd i (some (-1)) := by
  simp [release, h]

/-! ## Ownership -/

/-- Ownership: a descriptor other than `-1` is held by at most one live object, and a
descriptor is closed at most once and never while an object holds it. -/
structure Inv (w : World) : Prop where
  unmade : ∀ i, w.made ≤ i → w.fds i = none
  owned : ∀ i j fd, w.fds i = some fd → w.fds j = some fd → fd ≠ -1 → i = j
  nodup : w.closed.Nodup
  closed_free : ∀ i fd, w.fds i = some fd → fd ∉ w.closed
  minus_one : -1 ∉ w.closed

/-- A descriptor from the caller or from `fsys::open`: `-1`, or never held nor closed. -/
def Fresh (w : World) (fd : Int) : Prop := fd = -1 ∨ fd ∉ w.closed ∧ ∀ i, w.fds i ≠ some fd

/-- The calls whose descriptors are fresh, and the move assignments that move nothing. -/
def Admissible (w : World) : Call → Prop
  | .make fd | .assign _ fd => w.Fresh fd
  | .moveAssign dst src => dst = src ∨ w.fds src = some (-1)
  | _ => True

theorem inv_empty : empty.Inv := ⟨fun _ _ => rfl, by simp [empty], .nil, by simp [empty], by simp [empty]⟩

theorem Inv.lt_made {w : World} (h : w.Inv) {i : Nat} {fd : Int} (hi : w.fds i = some fd) :
    i < w.made := by
  by_contra hm
  simp [h.unmade i (by omega)] at hi

/-- Closing the descriptor of object `i` and ending its ownership (`v` is `-1` or `none`). -/
theorem Inv.closeIf_setFd {w : World} (h : w.Inv) {i : Nat} {fd : Int} (hi : w.fds i = some fd)
    {v : Option Int} (hv : ∀ fd', v = some fd' → fd' = -1) : ((w.closeIf fd).setFd i v).Inv := by
  have hfd := h.closed_free i fd hi
  constructor
  · intro j hj
    have : j ≠ i := by have := h.lt_made hi; simp at hj; omega
    simpa [this] using h.unmade j (by simpa using hj)
  · intro j k fd' hj hk hne
    simp only [setFd_fds, closeIf_fds, Function.update_apply] at hj hk
    split_ifs at hj hk with h1 h2 h2
    · exact h1.trans h2.symm
    · exact absurd (hv _ hj) hne
    · exact absurd (hv _ hk) hne
    · exact h.owned j k fd' hj hk hne
  · rw [setFd_closed, closeIf_closed]
    split_ifs
    · exact List.nodup_append.mpr ⟨h.nodup, List.nodup_singleton _, by simpa using hfd⟩
    · exact h.nodup
  · intro j fd' hj
    rw [setFd_closed, closeIf_closed]
    simp only [setFd_fds, closeIf_fds, Function.update_apply] at hj
    by_cases hji : j = i
    · rw [if_pos hji] at hj
      obtain rfl := hv _ hj
      split_ifs with hne
      · simp [h.minus_one, Ne.symm hne]
      · exact h.minus_one
    · rw [if_neg hji] at hj
      have hc := h.closed_free j fd' hj
      split_ifs with hne
      · have : fd' ≠ fd := fun e => hji (h.owned j i fd' hj (e ▸ hi) (e ▸ hne))
        simp [hc, this]
      · exact hc
  · rw [setFd_closed, closeIf_closed]
    split_ifs with hne
    · simpa [Ne.symm hne] using h.minus_one
    · exact h.minus_one

theorem Inv.release {w : World} (h : w.Inv) {i : Nat} {fd : Int} (hi : w.fds i = some fd) :
    (w.release i).Inv := by
  rw [release_of_some hi]
  exact h.closeIf_setFd hi (by simp)

theorem Fresh.release {w : World} {fd : Int} (hf : w.Fresh fd) (i : Nat) :
    (w.release i).Fresh fd := by
  rcases hf with rfl | ⟨hc, hn⟩
  · exact .inl rfl
  by_cases h1 : fd = -1
  · exact .inl h1
  unfold World.release
  split
  · rename_i old hold
    have : fd ≠ old := fun e => hn i (e ▸ hold)
    refine .inr ⟨?_, fun j => ?_⟩
    · rw [setFd_closed, closeIf_closed]; split_ifs <;> simp [hc, this]
    · simp only [setFd_fds, closeIf_fds, Function.update_apply]
      split_ifs
      · simpa [eq_comm] using h1
      · exact hn j
  · exact .inr ⟨hc, hn⟩

/-- A fresh descriptor given to an object. -/
theorem Inv.setFd_fresh {w : World} (h : w.Inv) {i : Nat} (hm : i < w.made) {fd : Int}
    (hf : w.Fresh fd) :
    (w.setFd i (some fd)).Inv := by
  constructor
  · intro j hj
    have : j ≠ i := by simp at hj; omega
    simpa [this] using h.unmade j (by simpa using hj)
  · intro j k fd' hj hk hne
    simp only [setFd_fds, Function.update_apply] at hj hk
    rcases hf with rfl | ⟨-, hn⟩
    · split_ifs at hj hk <;> simp_all [h.owned j k fd']
    · split_ifs at hj hk with h1 h2 h2
      · exact h1.trans h2.symm
      · cases hj; exact absurd hk (hn k)
      · cases hk; exact absurd hj (hn j)
      · exact h.owned j k fd' hj hk hne
  · exact h.nodup
  · intro j fd' hj
    simp only [setFd_fds, setFd_closed, Function.update_apply] at hj ⊢
    split_ifs at hj
    · cases hj; rcases hf with rfl | ⟨hc, -⟩
      · exact h.minus_one
      · exact hc
    · exact h.closed_free j fd' hj
  · exact h.minus_one

theorem Inv.make {w : World} (h : w.Inv) {fd : Int} (hf : w.Fresh fd) : (w.make fd).Inv :=
  Inv.setFd_fresh (w := { w with made := w.made + 1 })
    ⟨fun i hi => h.unmade i (by simp at hi; omega), h.owned, h.nodup, h.closed_free, h.minus_one⟩
    (by simp) (by rcases hf with rfl | hf; exacts [.inl rfl, .inr hf])

/-- `fd_t(fd_t&&)`: the descriptor moves to the new object. -/
theorem Inv.moveMake {w : World} (h : w.Inv) {src : Nat} {fd : Int} (hs : w.fds src = some fd) :
    ((w.make fd).setFd src (some (-1))).Inv := by
  have hm := h.lt_made hs
  constructor
  · intro j hj
    simp only [setFd_made, make_made] at hj
    simp [Function.update_apply, show j ≠ src by omega, show j ≠ w.made by omega,
      h.unmade j (by omega)]
  · intro j k fd' hj hk hne
    have key : ∀ l, ((w.make fd).setFd src (some (-1))).fds l = some fd' →
        l = w.made ∧ fd' = fd ∨ w.fds l = some fd' ∧ fd' ≠ fd := by
      intro l hl
      simp only [setFd_fds, make_fds, Function.update_apply] at hl
      split_ifs at hl with h1 h2
      · cases hl; exact absurd rfl hne
      · cases hl; exact .inl ⟨h2, rfl⟩
      · exact .inr ⟨hl, fun e => h1 (h.owned l src fd' hl (e ▸ hs) hne)⟩
    rcases key j hj with ⟨rfl, rfl⟩ | ⟨hj1, hj2⟩ <;> rcases key k hk with ⟨rfl, e⟩ | ⟨hk1, hk2⟩
    · rfl
    · exact absurd rfl hk2
    · exact absurd e hj2
    · exact h.owned j k fd' hj1 hk1 hne
  · exact h.nodup
  · intro j fd' hj
    simp only [setFd_fds, make_fds, setFd_closed, make_closed, Function.update_apply] at hj ⊢
    split_ifs at hj
    · cases hj; exact h.minus_one
    · cases hj; exact h.closed_free src fd hs
    · exact h.closed_free j fd' hj
  · exact h.minus_one

/-- Every admissible call keeps ownership. -/
theorem Inv.step {w w' : World} (h : w.Inv) {c : Call} (hc : w.Admissible c)
    (hs : w.step c = some w') : w'.Inv := by
  cases c with
  | make fd => cases hs; exact h.make hc
  | makeDefault => cases hs; exact h.make (.inl rfl)
  | moveMake src =>
    obtain ⟨fd, hfd, rfl⟩ := Option.map_eq_some'.mp hs
    exact h.moveMake hfd
  | moveAssign dst src =>
    obtain ⟨d, hd, hs⟩ := Option.bind_eq_some.mp hs
    obtain ⟨fd, hfd, rfl⟩ := Option.map_eq_some'.mp hs
    have hr := h.release hd
    have hneg : fd = -1 := by
      rcases hc with rfl | hc
      · simpa [release_of_some hd] using hfd.symm
      · by_cases e : dst = src
        · subst e; simpa [release_of_some hd] using hfd.symm
        · simpa [release_of_some hd, Ne.symm e, hc] using hfd.symm
    subst hneg
    exact hr.setFd_fresh (by simpa using h.lt_made hd) (.inl rfl)
  | assign dst fd =>
    obtain ⟨d, hd, rfl⟩ := Option.map_eq_some'.mp hs
    exact (h.release hd).setFd_fresh (by simpa using h.lt_made hd) (Fresh.release hc dst)
  | destroy i =>
    obtain ⟨fd, hfd, rfl⟩ := Option.map_eq_some'.mp hs
    exact h.closeIf_setFd hfd (by simp)

/-- The worlds reached from `empty` by admissible calls. -/
inductive Reach : World → Prop
  | empty : Reach empty
  | step {w w' : World} {c : Call} : Reach w → w.Admissible c → w.step c = some w' → Reach w'

/-- Every world reached by admissible calls has ownership. -/
theorem Reach.inv {w : World} (h : w.Reach) : w.Inv := by
  induction h with
  | empty => exact inv_empty
  | step _ hc hs ih => exact ih.step hc hs

/-- `b = std::move(a)` between two live objects, `a` holding a descriptor: both hold it. -/
theorem moveAssign_shares {w : World} {dst src : Nat} {fd : Int} (hne : dst ≠ src)
    (hd : (w.fds dst).isSome) (hs : w.fds src = some fd) :
    ((w.step (.moveAssign dst src)).map fun w' => (w'.fds dst, w'.fds src)) =
      some (some fd, some fd) := by
  obtain ⟨d, hd⟩ := Option.isSome_iff_exists.mp hd
  simp [step, hd, release_of_some hd, Function.update_noteq (Ne.symm hne), hs, hne]

end World

/-- `fd_t a(3), b(4); b = std::move(a);` and the destruction of `a` and `b`: descriptor 4 is
closed once and descriptor 3 twice, the first time while `b` still holds it. Every world that
calls other than such a move assignment reach keeps ownership, and every move assignment
between two live objects leaves both holding the source's descriptor. -/
theorem fd_move_assign_closes_twice :
    ((World.empty.run [.make 3, .make 4, .moveAssign 1 0]).map fun w => (w.fds 0, w.fds 1)) =
        some (some 3, some 3) ∧
      ((World.empty.run [.make 3, .make 4, .moveAssign 1 0, .destroy 0]).map fun w =>
        (w.closed, w.fds 1)) = some ([4, 3], some 3) ∧
      ((World.empty.run [.make 3, .make 4, .moveAssign 1 0, .destroy 0, .destroy 1]).map
        World.closed) = some [4, 3, 3] ∧
      (∀ w : World, w.Reach → w.Inv) ∧
      ∀ (w : World) (dst src : Nat) (fd : Int), dst ≠ src → (w.fds dst).isSome →
        w.fds src = some fd →
        ((w.step (.moveAssign dst src)).map fun w' => (w'.fds dst, w'.fds src)) =
          some (some fd, some fd) :=
  ⟨by decide, by decide, by decide, fun _ => World.Reach.inv,
    fun _ _ _ _ => World.moveAssign_shares⟩

end Fsys

end ModernCli
