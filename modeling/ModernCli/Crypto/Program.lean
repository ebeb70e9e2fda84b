import Mathlib
import ModernCli.Crypto.Keyphrase

/-!
# Keys and cipher objects together

A program holds `keyphrase_t` objects (`Keyring`) and `encrypt_t` and `decrypt_t` objects
(`World`). `encrypt_t(key)`, `decrypt_t(key)` and `x = key` read the key's `cipher()` and
`size()` from a live `keyphrase_t`; the other calls touch one kind of object only.

* `Crypto.Program.program_run_safe`: every run of calls whose `keyphrase_t` calls are not
  `set` and whose initialisations succeed where a failure would leave a freed context, from a
  program whose keys are valid and whose contexts are owned once, keeps both; and from every
  state it reaches, `encrypt_t(key)` and `decrypt_t(key)` from a live key that tests true are
  defined, whatever `EVP_CIPHER_CTX_new` and the initialisation do.
-/

namespace ModernCli

namespace Crypto

variable {C M : Type}

/-- A program's `keyphrase_t` objects and its `encrypt_t` and `decrypt_t` objects. -/
structure Program (C : Type) where
  ring : Keyring C
  world : World C

/-- The calls of a program. -/
inductive ProgCall (C M : Type) where
  /-- A call on a `keyphrase_t`. -/
  | key (c : KeyCall C M)
  /-- A call on an `encrypt_t` or `decrypt_t` object. -/
  | obj (c : Call C)
  /-- `encrypt_t(key)` or `decrypt_t(key)` from the `keyphrase_t` object `key`. -/
  | makeKey (kind : Kind) (key : Nat) (newOk initOk : Bool)
  /-- `dst = key` from the `keyphrase_t` object `key`. -/
  | assignKey (dst key : Nat) (newOk initOk : Bool)

/-- The calls `program_run_safe` admits: no `set`, and the calls of `World.Admissible`. -/
def ProgCall.Admissible : ProgCall C M → Prop
  | .key c => c.isSet = false
  | .obj c => World.Admissible c
  | .makeKey .encrypt _ _ initOk => initOk = true
  | .makeKey .decrypt _ _ _ => True
  | .assignKey _ _ _ initOk => initOk = true

namespace Program

section Run

variable [DecidableEq C] (keyLength : C → Nat)
  (bytesToKey : C → M → Option (List UInt8) → KeyT → Int → Derived)

/-- One call, `none` when it names an object outside its lifetime or has undefined
behaviour. -/
def step (p : Program C) : ProgCall C M → Option (Program C)
  | .key c => (p.ring.step keyLength bytesToKey c).map fun r => { p with ring := r }
  | .obj c => (p.world.step keyLength c).map fun w => { p with world := w }
  | .makeKey kind i newOk initOk => (p.ring.keys i).bind fun k =>
    (p.world.step keyLength (.makeKey kind k.toKeyphrase newOk initOk)).map fun w =>
      { p with world := w }
  | .assignKey dst i newOk initOk => (p.ring.keys i).bind fun k =>
    (p.world.step keyLength (.assignKey dst k.toKeyphrase newOk initOk)).map fun w =>
      { p with world := w }

/-- A run of calls, `none` if one of them is. -/
def run (p : Program C) : List (ProgCall C M) → Option (Program C)
  | [] => some p
  | c :: cs => (p.step keyLength bytesToKey c).bind fun p' => p'.run cs

/-- What every state of an admissible run keeps. -/
structure Inv (p : Program C) : Prop where
  /-- Every live key has a size of `0` or its cipher's key length. -/
  keys : p.ring.Valid keyLength
  /-- Every context is held by one object at most and freed once at most. -/
  world : p.world.Inv

/-- Every admissible call keeps the invariant. -/
theorem Inv.step (hb : Bounded keyLength bytesToKey) {p p' : Program C} (h : p.Inv keyLength)
    {c : ProgCall C M} (hc : c.Admissible) (hs : p.step keyLength bytesToKey c = some p') :
    p'.Inv keyLength := by
  cases c with
  | key c =>
    obtain ⟨r, hr, rfl⟩ := Option.map_eq_some'.mp hs
    exact ⟨h.keys.step keyLength bytesToKey hb (show c.isSet = false from hc) hr, h.world⟩
  | obj c =>
    obtain ⟨w, hw, rfl⟩ := Option.map_eq_some'.mp hs
    exact ⟨h.keys, h.world.step keyLength (by exact hc) hw⟩
  | makeKey kind i newOk initOk =>
    obtain ⟨k, -, hs⟩ := Option.bind_eq_some.mp hs
    obtain ⟨w, hw, rfl⟩ := Option.map_eq_some'.mp hs
    cases kind
    · exact ⟨h.keys, h.world.step keyLength (by exact hc) hw⟩
    · exact ⟨h.keys, h.world.step keyLength (by trivial) hw⟩
  | assignKey dst i newOk initOk =>
    obtain ⟨k, -, hs⟩ := Option.bind_eq_some.mp hs
    obtain ⟨w, hw, rfl⟩ := Option.map_eq_some'.mp hs
    exact ⟨h.keys, h.world.step keyLength (by exact hc) hw⟩

theorem Inv.run (hb : Bounded keyLength bytesToKey) {p p' : Program C}
    {cs : List (ProgCall C M)} (h : p.Inv keyLength) (hc : ∀ c ∈ cs, c.Admissible)
    (hr : p.run keyLength bytesToKey cs = some p') : p'.Inv keyLength := by
  induction cs generalizing p with
  | nil => cases hr; exact h
  | cons c cs ih =>
    obtain ⟨p₁, h₁, hr⟩ := Option.bind_eq_some.mp hr
    exact ih (h.step keyLength bytesToKey hb (hc c (.head _)) h₁) (fun c hm => hc c (.tail _ hm))
      hr

/-- `encrypt_t(key)` and `decrypt_t(key)` are defined for a key with a cipher. -/
theorem step_makeKey_isSome (p : Program C) {kind : Kind} {i : Nat} {k : KeyphraseT C}
    (hk : p.ring.keys i = some k) {a : C} (ha : k.cipher = some a) (newOk initOk : Bool) :
    (p.step keyLength bytesToKey (.makeKey kind i newOk initOk)).isSome := by
  cases kind <;> cases newOk <;>
    simp [step, hk, World.step, World.encryptOfKeyphrase, World.decryptOfKeyphrase, World.keysize,
      KeyphraseT.toKeyphrase, ha]

theorem program_run_safe (hb : Bounded keyLength bytesToKey) {p p' : Program C}
    {cs : List (ProgCall C M)} (h : p.Inv keyLength) (hc : ∀ c ∈ cs, c.Admissible)
    (hr : p.run keyLength bytesToKey cs = some p') :
    p'.Inv keyLength ∧ ∀ (kind : Kind) (i : Nat) (k : KeyphraseT C), p'.ring.keys i = some k →
      k.test = true → ∀ newOk initOk,
        (p'.step keyLength bytesToKey (.makeKey kind i newOk initOk)).isSome := by
  have hinv := Inv.run keyLength bytesToKey hb h hc hr
  refine ⟨hinv, fun kind i k hk ht newOk initOk => ?_⟩
  obtain ⟨a, ha, -⟩ := (hinv.keys i k hk).cipher_of_test ht
  exact step_makeKey_isSome keyLength bytesToKey p' hk ha newOk initOk

/-- A key from the phrase "pw" with the default salt, `decrypt_t` and `encrypt_t` from it, and
the first of them finished and destroyed; `EVP_BytesToKey` makes 32-byte keys. -/
theorem program_run_safe_pw :
    let derived : Unit → Unit → Option (List UInt8) → KeyT → Int → Derived :=
      fun _ _ _ _ _ => ⟨32, List.replicate 32 7, List.replicate 16 9, by decide⟩
    let start : Program Unit := ⟨Keyring.empty, World.empty⟩
    let cs : List (ProgCall Unit Unit) := [.key (.ofPhrase [112, 119] nosalt () () 1),
      .makeKey .decrypt 0 true true, .makeKey .encrypt 0 true true, .obj (.finish 0),
      .obj (.destroy 0)]
    ∃ p', (Bounded (fun _ => 32) derived ∧ start.Inv (fun _ => 32) ∧ (∀ c ∈ cs, c.Admissible) ∧
        start.run (fun _ => 32) derived cs = some p') ∧
      p'.Inv (fun _ => 32) ∧ ∀ (kind : Kind) (i : Nat) (k : KeyphraseT Unit),
        p'.ring.keys i = some k → k.test = true → ∀ newOk initOk,
          (p'.step (fun _ => 32) derived (.makeKey kind i newOk initOk)).isSome := by
  intro derived start cs
  have hb : Bounded (fun _ => 32) derived := fun _ _ _ _ _ => le_rfl
  have hi : start.Inv (fun _ => 32) := ⟨Keyring.valid_empty _, World.inv_empty⟩
  have hc : ∀ c ∈ cs, c.Admissible := by
    simp [cs, ProgCall.Admissible, World.Admissible, KeyCall.isSet]
  exact ⟨_, ⟨hb, hi, hc, rfl⟩, program_run_safe (fun _ => 32) derived hb hi hc rfl⟩

end Run

end Program

end Crypto

end ModernCli
