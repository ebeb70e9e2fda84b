import Mathlib
import ModernCli.Crypto.Cipher

/-!
# `keyphrase_t`: keys made from a pass phrase

`crypto::keyphrase_t` holds a cipher `cipher_`, a key `data_` and an initialisation vector
`iv_` of 64 bytes each, and the key's size `size_`, `0` for no key. Its constructors and its
`set`s take the key from OpenSSL's `EVP_BytesToKey`, which is not in the repository: the model
takes it as a parameter `bytesToKey`, returning the count the call returned and the bytes it
wrote. A salt is a `key_t` of size 64 (`is_salt`); with another salt there is no key. With one,
the key is `EVP_BytesToKey`'s, unless its count is below the cipher's key length.

`set` runs the constructor's body on the object as it is, without `cipher_(algo)`.

* `Crypto.Keyring.keyring_run_valid`: in every run of constructions, copies, assignments and
  destructions, every live `keyphrase_t` has a size of `0` or its cipher's key length, `0`
  without a cipher, when `EVP_BytesToKey` never returns more than the key length.
* `Crypto.KeyphraseT.keyphrase_feeds_cipher`: such a key that tests true is one
  `encrypt_t(key)` and `decrypt_t(key)` accept: a new context stays, unless the initialisation
  fails.
* `Crypto.Keyring.keyring_set_valid_iff`: `set` keeps the keys valid exactly when its target
  gets no key or has a cipher of the key length it derives for, so a `set` that gives a key to
  an object without a cipher, as `keyphrase_t()` makes it, leaves a key that tests true with no
  cipher; and every run whose `set`s keep to that leaves every live key valid.
-/

namespace ModernCli

namespace Crypto

variable {C M : Type}

/-- `key_t`, `std::pair<const uint8_t *, size_t>`: the bytes the pointer points at, `none`
for `nullptr`, and the size. -/
structure KeyT where
  ptr : Option (List UInt8)
  size : Nat
  deriving DecidableEq

/-- `nosalt`: `key_t{nullptr, 64}`, the default salt. -/
def nosalt : KeyT := ⟨none, 64⟩

/-- `is_salt(key)`: `key.second == 64`. -/
def isSalt (key : KeyT) : Bool := key.size == 64

/-- What one call of `EVP_BytesToKey(algo, md, salt, data, datal, count, key, iv)` did: the
count it returned, and the bytes it wrote from `key` and from `iv` on. OpenSSL writes at most
`EVP_MAX_KEY_LENGTH`, 64, key bytes and returns their count, or 0. -/
structure Derived where
  count : Nat
  key : List UInt8
  iv : List UInt8
  count_le : count ≤ 64

/-- A `uint8_t[64]` member. -/
abbrev Bytes := Fin 64 → UInt8

/-- `{0}`: every byte zero. -/
def zeros : Bytes := fun _ => 0

/-- The bytes `bs` written from the start of `a`. -/
def Bytes.write (a : Bytes) (bs : List UInt8) : Bytes := fun i => bs.getD i (a i)

/-- `memcpy(dst, src, n)` between two members. -/
def Bytes.copy (dst src : Bytes) (n : Nat) : Bytes := fun i => if i.val < n then src i else dst i

/-- A `keyphrase_t`. Every size it takes is `EVP_BytesToKey`'s count or `0`, so `size_` is at
most 64 and the `memcpy`s of `size_` bytes stay in the arrays. -/
structure KeyphraseT (C : Type) where
  /-- `cipher_`, `none` for `nullptr`. -/
  cipher : Option C
  data : Bytes
  iv : Bytes
  size : Nat
  size_le : size ≤ 64

namespace KeyphraseT

/-- `keyphrase_t()`. -/
def empty : KeyphraseT C := ⟨none, zeros, zeros, 0, Nat.zero_le _⟩

/-- `operator bool()`: `size_ > 0`. -/
def test (k : KeyphraseT C) : Bool := decide (0 < k.size)

/-- `operator key_t()` and `operator*()`: `data_` and `size_`. -/
def toKeyT (k : KeyphraseT C) : KeyT := ⟨some (List.ofFn k.data), k.size⟩

/-- The key as `encrypt_t` and `decrypt_t` read it: `cipher()` and `size()`. -/
def toKeyphrase (k : KeyphraseT C) : Keyphrase C := ⟨k.cipher, k.size⟩

section Derive

variable (keyLength : C → Nat) (bytesToKey : C → M → Option (List UInt8) → KeyT → Int → Derived)

/-- The body the two constructors and the two `set`s share once `size_` is
`EVP_CIPHER_key_length(algo)`: a salt that is not one leaves `size_` at `0`; otherwise
`EVP_BytesToKey` writes `data_` and `iv_`, and its count is `size_`, or `0` when it is below the
key length. -/
def derive (k : KeyphraseT C) (algo : C) (md : M) (salt input : KeyT) (rounds : Int) :
    KeyphraseT C :=
  if !isSalt salt then { k with size := 0, size_le := Nat.zero_le _ }
  else
    let d := bytesToKey algo md salt.ptr input rounds
    if d.count < keyLength algo then
      { k with
        data := k.data.write d.key, iv := k.iv.write d.iv, size := 0, size_le := Nat.zero_le _ }
    else
      { k with
        data := k.data.write d.key, iv := k.iv.write d.iv, size := d.count, size_le := d.count_le }

/-- `keyphrase_t(phrase, salt, algo, md, rounds)`: `cipher_(algo)`, then `derive` on the
phrase's bytes. -/
def ofPhrase (phrase : List UInt8) (salt : KeyT) (algo : C) (md : M) (rounds : Int) :
    KeyphraseT C :=
  derive keyLength bytesToKey { (empty : KeyphraseT C) with cipher := some algo } algo md salt
    ⟨some phrase, phrase.length⟩ rounds

/-- `keyphrase_t(key, salt, algo, md, rounds)`: `cipher_(algo)`, then `derive` on `key`. -/
def ofKey (key salt : KeyT) (algo : C) (md : M) (rounds : Int) : KeyphraseT C :=
  derive keyLength bytesToKey { (empty : KeyphraseT C) with cipher := some algo } algo md salt key
    rounds

/-- `set(phrase, salt, algo, md, rounds)`: `derive` on the phrase's bytes; `cipher_` is not
assigned. -/
def setPhrase (k : KeyphraseT C) (phrase : List UInt8) (salt : KeyT) (algo : C) (md : M)
    (rounds : Int) : KeyphraseT C :=
  derive keyLength bytesToKey k algo md salt ⟨some phrase, phrase.length⟩ rounds

/-- `set(key, salt, algo, md, rounds)`: `derive` on `key`; `cipher_` is not assigned. -/
def setKey (k : KeyphraseT C) (key salt : KeyT) (algo : C) (md : M) (rounds : Int) :
    KeyphraseT C :=
  derive keyLength bytesToKey k algo md salt key rounds

end Derive

/-- `keyphrase_t(const keyphrase_t& other)`: `cipher_` and `size_`, and `size_` bytes of
`data_` and of `iv_`, over the zeros of a new object. -/
def copy (o : KeyphraseT C) : KeyphraseT C :=
  ⟨o.cipher, zeros.copy o.data o.size, zeros.copy o.iv o.size, o.size, o.size_le⟩

/-- `operator=(const keyphrase_t& other)` on `k`: `size_` and `cipher_`, and `size_` bytes of
`data_` and of `iv_`; the other bytes stay. -/
def assign (k o : KeyphraseT C) : KeyphraseT C :=
  ⟨o.cipher, k.data.copy o.data o.size, k.iv.copy o.iv o.size, o.size, o.size_le⟩

/-- `size_` is `0` or the key length of `cipher_`; with no cipher, it is `0`. -/
def Valid (keyLength : C → Nat) (k : KeyphraseT C) : Prop :=
  k.size = 0 ∨ k.cipher.map keyLength = some k.size

instance (keyLength : C → Nat) (k : KeyphraseT C) : Decidable (k.Valid keyLength) :=
  inferInstanceAs (Decidable (_ ∨ _))

end KeyphraseT

/-- `EVP_BytesToKey` never returns more than the cipher's key length, as OpenSSL's returns it
or `0`. -/
def Bounded (keyLength : C → Nat) (bytesToKey : C → M → Option (List UInt8) → KeyT → Int → Derived) :
    Prop :=
  ∀ algo md salt input rounds, (bytesToKey algo md salt input rounds).count ≤ keyLength algo

/-- The `keyphrase_t` objects of a program: each, `none` outside its lifetime, and the number
constructed so far, which names the next. -/
structure Keyring (C : Type) where
  keys : Nat → Option (KeyphraseT C)
  made : Nat

/-- The calls on `keyphrase_t` objects, named by the order of their construction. -/
inductive KeyCall (C M : Type) where
  /-- `keyphrase_t()`. -/
  | empty
  /-- `keyphrase_t(phrase, salt, algo, md, rounds)`. -/
  | ofPhrase (phrase : List UInt8) (salt : KeyT) (algo : C) (md : M) (rounds : Int)
  /-- `keyphrase_t(key, salt, algo, md, rounds)`. -/
  | ofKey (key salt : KeyT) (algo : C) (md : M) (rounds : Int)
  /-- `keyphrase_t(other)`. -/
  | copy (src : Nat)
  /-- `dst = src`. -/
  | assign (dst src : Nat)
  /-- `dst.set(phrase, salt, algo, md, rounds)`. -/
  | setPhrase (dst : Nat) (phrase : List UInt8) (salt : KeyT) (algo : C) (md : M) (rounds : Int)
  /-- `dst.set(key, salt, algo, md, rounds)`. -/
  | setKey (dst : Nat) (key salt : KeyT) (algo : C) (md : M) (rounds : Int)
  /-- `~keyphrase_t()`. -/
  | destroy (obj : Nat)

/-- The two `set`s. -/
def KeyCall.isSet : KeyCall C M → Bool
  | .setPhrase .. | .setKey .. => true
  | _ => false

namespace Keyring

/-- No object yet. -/
def empty : Keyring C := ⟨fun _ => none, 0⟩

/-- A new object `k`. -/
def add (r : Keyring C) (k : KeyphraseT C) : Keyring C :=
  ⟨Function.update r.keys r.made (some k), r.made + 1⟩

/-- Object `i` becomes `k`. -/
def put (r : Keyring C) (i : Nat) (k : Option (KeyphraseT C)) : Keyring C :=
  { r with keys := Function.update r.keys i k }

section Run

variable (keyLength : C → Nat) (bytesToKey : C → M → Option (List UInt8) → KeyT → Int → Derived)

/-- One call, `none` when it names an object outside its lifetime. An assignment to itself
returns at once. -/
def step (r : Keyring C) : KeyCall C M → Option (Keyring C)
  | .empty => some (r.add .empty)
  | .ofPhrase phrase salt algo md rounds =>
    some (r.add (.ofPhrase keyLength bytesToKey phrase salt algo md rounds))
  | .ofKey key salt algo md rounds => some (r.add (.ofKey keyLength bytesToKey key salt algo md rounds))
  | .copy src => (r.keys src).map fun o => r.add o.copy
  | .assign dst src => (r.keys dst).bind fun k => (r.keys src).map fun o =>
    if dst = src then r else r.put dst (some (k.assign o))
  | .setPhrase dst phrase salt algo md rounds => (r.keys dst).map fun k =>
    r.put dst (some (k.setPhrase keyLength bytesToKey phrase salt algo md rounds))
  | .setKey dst key salt algo md rounds => (r.keys dst).map fun k =>
    r.put dst (some (k.setKey keyLength bytesToKey key salt algo md rounds))
  | .destroy i => (r.keys i).map fun _ => r.put i none

/-- A run of calls, `none` if one of them is. -/
def run (r : Keyring C) : List (KeyCall C M) → Option (Keyring C)
  | [] => some r
  | c :: cs => (r.step keyLength bytesToKey c).bind fun r' => r'.run cs

end Run

/-- Every live object is valid. -/
def Valid (keyLength : C → Nat) (r : Keyring C) : Prop :=
  ∀ i k, r.keys i = some k → k.Valid keyLength

end Keyring

/-! ## Valid keys -/

namespace KeyphraseT

section Derive

variable (keyLength : C → Nat) (bytesToKey : C → M → Option (List UInt8) → KeyT → Int → Derived)

@[simp] theorem derive_cipher (k : KeyphraseT C) (algo : C) (md : M) (salt input : KeyT)
    (rounds : Int) : (derive keyLength bytesToKey k algo md salt input rounds).cipher = k.cipher := by
  dsimp only [derive]
  split_ifs <;> rfl

/-- `derive`'s size: `EVP_BytesToKey`'s count when there is a salt and the count reaches the key
length, `0` otherwise. -/
theorem derive_size (k : KeyphraseT C) (algo : C) (md : M) (salt input : KeyT) (rounds : Int) :
    (derive keyLength bytesToKey k algo md salt input rounds).size =
      if isSalt salt ∧ keyLength algo ≤ (bytesToKey algo md salt.ptr input rounds).count then
        (bytesToKey algo md salt.ptr input rounds).count
      else 0 := by
  dsimp only [derive]
  by_cases hs : isSalt salt
  · by_cases hc : (bytesToKey algo md salt.ptr input rounds).count < keyLength algo
    · rw [if_neg (by simp [hs]), if_pos hc, if_neg (by omega)]
    · rw [if_neg (by simp [hs]), if_neg hc, if_pos ⟨hs, by omega⟩]
  · rw [if_pos (by simp [hs]), if_neg (by simp [hs])]

/-- With a bounded `EVP_BytesToKey`, `derive` makes a key of `algo`'s length, or none. -/
theorem derive_size_of_bounded (hb : Bounded keyLength bytesToKey) (k : KeyphraseT C) (algo : C)
    (md : M) (salt input : KeyT) (rounds : Int) :
    (derive keyLength bytesToKey k algo md salt input rounds).size = 0 ∨
      (derive keyLength bytesToKey k algo md salt input rounds).size = keyLength algo := by
  have := hb algo md salt.ptr input rounds
  rw [derive_size]
  split_ifs with h
  · exact .inr (by omega)
  · exact .inl rfl

theorem Valid.derive (hb : Bounded keyLength bytesToKey) {k : KeyphraseT C} {algo : C}
    (hc : k.cipher = some algo) (md : M) (salt input : KeyT) (rounds : Int) :
    (KeyphraseT.derive keyLength bytesToKey k algo md salt input rounds).Valid keyLength := by
  rcases derive_size_of_bounded keyLength bytesToKey hb k algo md salt input rounds with h | h
  · exact .inl h
  · exact .inr (by rw [derive_cipher, hc, h]; rfl)

theorem valid_ofPhrase (hb : Bounded keyLength bytesToKey) (phrase : List UInt8) (salt : KeyT)
    (algo : C) (md : M) (rounds : Int) :
    (ofPhrase keyLength bytesToKey phrase salt algo md rounds).Valid keyLength :=
  Valid.derive keyLength bytesToKey hb rfl md salt _ rounds

theorem valid_ofKey (hb : Bounded keyLength bytesToKey) (key salt : KeyT) (algo : C) (md : M)
    (rounds : Int) : (ofKey keyLength bytesToKey key salt algo md rounds).Valid keyLength :=
  Valid.derive keyLength bytesToKey hb rfl md salt key rounds

/-- `derive` for `algo` on a key, which keeps its cipher, leaves it valid exactly when it makes
no key or the cipher has `algo`'s key length. -/
theorem valid_derive_iff (hb : Bounded keyLength bytesToKey) (k : KeyphraseT C) (algo : C) (md : M)
    (salt input : KeyT) (rounds : Int) :
    (derive keyLength bytesToKey k algo md salt input rounds).Valid keyLength ↔
      (derive keyLength bytesToKey k algo md salt input rounds).size = 0 ∨
        k.cipher.map keyLength = some (keyLength algo) := by
  rw [Valid, derive_cipher]
  rcases derive_size_of_bounded keyLength bytesToKey hb k algo md salt input rounds with h | h
  · simp only [h, true_or]
  · rw [h]

end Derive

theorem valid_empty (keyLength : C → Nat) : (empty : KeyphraseT C).Valid keyLength := .inl rfl

theorem Valid.copy {keyLength : C → Nat} {o : KeyphraseT C} (h : o.Valid keyLength) :
    o.copy.Valid keyLength := h

theorem Valid.assign {keyLength : C → Nat} (k : KeyphraseT C) {o : KeyphraseT C}
    (h : o.Valid keyLength) : (k.assign o).Valid keyLength := h

/-- A valid key that tests true has a cipher, of its size. -/
theorem Valid.cipher_of_test {keyLength : C → Nat} {k : KeyphraseT C} (h : k.Valid keyLength)
    (ht : k.test = true) : ∃ a, k.cipher = some a ∧ keyLength a = k.size := by
  have hpos : 0 < k.size := of_decide_eq_true ht
  rcases h with h | h
  · omega
  · obtain ⟨a, ha, hl⟩ := Option.map_eq_some'.mp h
    exact ⟨a, ha, hl⟩

/-- A valid key that tests true is one the cipher classes accept: `decrypt_t(key)` keeps the
new context when `EVP_CIPHER_CTX_new` and `EVP_DecryptInit_ex` succeed, `encrypt_t(key)` keeps
it once it is made, and neither reads a null cipher nor frees the context for a wrong size. -/
theorem keyphrase_feeds_cipher {keyLength : C → Nat} {k : KeyphraseT C} (h : k.Valid keyLength)
    (ht : k.test = true) (w : World C) (newOk initOk : Bool) :
    (w.decryptOfKeyphrase keyLength k.toKeyphrase newOk initOk).map (fun p => p.2.ctx) =
        some (if newOk && initOk then some w.ctxs else none) ∧
      (w.encryptOfKeyphrase keyLength k.toKeyphrase newOk initOk).map (fun p => p.2.ctx) =
        some (if newOk then some w.ctxs else none) := by
  obtain ⟨a, ha, hl⟩ := h.cipher_of_test ht
  have hkey : k.toKeyphrase = ⟨some a, keyLength a⟩ := by rw [toKeyphrase, ha, hl]
  rw [hkey]
  cases newOk <;> cases initOk <;>
    simp [World.decryptOfKeyphrase, World.encryptOfKeyphrase, World.keysize]

/-- The key from the phrase "pw" with the default salt and 32-byte keys. -/
theorem keyphrase_feeds_cipher_pw :
    let derived : Unit → Unit → Option (List UInt8) → KeyT → Int → Derived :=
      fun _ _ _ _ _ => ⟨32, List.replicate 32 7, List.replicate 16 9, by decide⟩
    let key := ofPhrase (fun _ => 32) derived [112, 119] nosalt () () 1
    (key.Valid (fun _ => 32) ∧ key.test = true) ∧
      ((World.empty.decryptOfKeyphrase (fun _ => 32) key.toKeyphrase true true).map
          (fun p => p.2.ctx) =
            some (if true && true then some (World.empty : World Unit).ctxs else none) ∧
        (World.empty.encryptOfKeyphrase (fun _ => 32) key.toKeyphrase true true).map
          (fun p => p.2.ctx) = some (if true then some (World.empty : World Unit).ctxs else none)) := by
  intro derived key
  exact ⟨⟨by decide, by decide⟩, keyphrase_feeds_cipher (by decide) (by decide) _ _ _⟩

end KeyphraseT

/-! ## Runs -/

namespace Keyring

section Run

variable (keyLength : C → Nat) (bytesToKey : C → M → Option (List UInt8) → KeyT → Int → Derived)

theorem valid_empty : (empty : Keyring C).Valid keyLength := fun _ _ h => by cases h

theorem Valid.add {r : Keyring C} (h : r.Valid keyLength) {k : KeyphraseT C}
    (hk : k.Valid keyLength) : (r.add k).Valid keyLength := by
  intro i o ho
  by_cases hi : i = r.made
  · subst hi
    simp only [Keyring.add, Function.update_same, Option.some.injEq] at ho
    exact ho ▸ hk
  · exact h i o (by simpa [Keyring.add, Function.update_noteq hi] using ho)

theorem Valid.put {r : Keyring C} (h : r.Valid keyLength) (i : Nat) {k : Option (KeyphraseT C)}
    (hk : ∀ o, k = some o → o.Valid keyLength) : (r.put i k).Valid keyLength := by
  intro j o ho
  by_cases hj : j = i
  · subst hj
    exact hk o (by simpa [Keyring.put] using ho)
  · exact h j o (by simpa [Keyring.put, Function.update_noteq hj] using ho)

/-- Every call other than a `set` keeps every live key valid. -/
theorem Valid.step (hb : Bounded keyLength bytesToKey) {r r' : Keyring C} (h : r.Valid keyLength)
    {c : KeyCall C M} (hc : c.isSet = false) (hs : r.step keyLength bytesToKey c = some r') :
    r'.Valid keyLength := by
  cases c with
  | empty => cases hs; exact h.add keyLength (KeyphraseT.valid_empty keyLength)
  | ofPhrase phrase salt algo md rounds =>
    cases hs; exact h.add keyLength (KeyphraseT.valid_ofPhrase keyLength bytesToKey hb ..)
  | ofKey key salt algo md rounds =>
    cases hs; exact h.add keyLength (KeyphraseT.valid_ofKey keyLength bytesToKey hb ..)
  | copy src =>
    obtain ⟨o, ho, rfl⟩ := Option.map_eq_some'.mp hs
    exact h.add keyLength (h src o ho).copy
  | assign dst src =>
    obtain ⟨k, -, hs⟩ := Option.bind_eq_some.mp hs
    obtain ⟨o, ho, rfl⟩ := Option.map_eq_some'.mp hs
    split_ifs
    · exact h
    · exact h.put keyLength dst fun _ he => (Option.some.inj he) ▸ (h src o ho).assign k
  | setPhrase => cases hc
  | setKey => cases hc
  | destroy i =>
    obtain ⟨_, -, rfl⟩ := Option.map_eq_some'.mp hs
    exact h.put keyLength i fun _ he => by cases he

theorem keyring_run_valid (hb : Bounded keyLength bytesToKey) {r r' : Keyring C}
    {cs : List (KeyCall C M)} (h : r.Valid keyLength) (hset : ∀ c ∈ cs, c.isSet = false)
    (hr : r.run keyLength bytesToKey cs = some r') : r'.Valid keyLength := by
  induction cs generalizing r with
  | nil => cases hr; exact h
  | cons c cs ih =>
    obtain ⟨r₁, h₁, hr⟩ := Option.bind_eq_some.mp hr
    exact ih (h.step keyLength bytesToKey hb (hset c (.head _)) h₁) (fun c hm => hset c (.tail _ hm))
      hr

/-- From no object: `keyphrase_t()`, a key from the phrase "pw" with the default salt, a copy of
it, and the first object assigned from the copy; `EVP_BytesToKey` makes 32-byte keys. -/
theorem keyring_run_valid_four :
    let derived : Unit → Unit → Option (List UInt8) → KeyT → Int → Derived :=
      fun _ _ _ _ _ => ⟨32, List.replicate 32 7, List.replicate 16 9, by decide⟩
    let calls : List (KeyCall Unit Unit) := [.empty, .ofPhrase [112, 119] nosalt () () 1, .copy 1,
      .assign 0 2]
    ∃ r, (Bounded (fun _ => 32) derived ∧ (empty : Keyring Unit).Valid (fun _ => 32) ∧
        (∀ c ∈ calls, c.isSet = false) ∧ empty.run (fun _ => 32) derived calls = some r) ∧
      r.Valid (fun _ => 32) :=
by
  intro derived calls
  exact ⟨_, ⟨fun _ _ _ _ _ => le_rfl, valid_empty _, by decide, rfl⟩,
    keyring_run_valid (fun _ => 32) derived (fun _ _ _ _ _ => le_rfl) (valid_empty _)
      (show ∀ c ∈ calls, c.isSet = false by decide) rfl⟩

/-- A call that keeps every key valid: a `set` whose target, if live, gets no key or has a
cipher of `algo`'s key length; every other call. -/
def Keeps (r : Keyring C) : KeyCall C M → Prop
  | .setPhrase dst phrase salt algo md rounds => ∀ k, r.keys dst = some k →
    (k.setPhrase keyLength bytesToKey phrase salt algo md rounds).size = 0 ∨
      k.cipher.map keyLength = some (keyLength algo)
  | .setKey dst key salt algo md rounds => ∀ k, r.keys dst = some k →
    (k.setKey keyLength bytesToKey key salt algo md rounds).size = 0 ∨
      k.cipher.map keyLength = some (keyLength algo)
  | _ => True

/-- A step by a call that keeps every key valid. -/
def KeepStep (r r' : Keyring C) : Prop :=
  ∃ c : KeyCall C M, r.Keeps keyLength bytesToKey c ∧ r.step keyLength bytesToKey c = some r'

/-- Object `i` becomes `k`: the keyring stays valid exactly when `k` is valid. -/
theorem Valid.put_some_iff {r : Keyring C} (h : r.Valid keyLength) (i : Nat) (k : KeyphraseT C) :
    (r.put i (some k)).Valid keyLength ↔ k.Valid keyLength :=
  ⟨fun h' => h' i k (by simp [Keyring.put]),
    fun hk => h.put keyLength i fun _ he => (Option.some.inj he) ▸ hk⟩

/-- A `set` on a valid keyring leaves it valid exactly when the call keeps every key valid. -/
theorem Valid.set_iff (hb : Bounded keyLength bytesToKey) {r r' : Keyring C} (h : r.Valid keyLength)
    {c : KeyCall C M} (hc : c.isSet = true) (hs : r.step keyLength bytesToKey c = some r') :
    r'.Valid keyLength ↔ r.Keeps keyLength bytesToKey c := by
  cases c with
  | setPhrase dst phrase salt algo md rounds =>
    obtain ⟨k, hk, rfl⟩ := Option.map_eq_some'.mp hs
    rw [h.put_some_iff, KeyphraseT.setPhrase, KeyphraseT.valid_derive_iff keyLength bytesToKey hb]
    exact ⟨fun hv k' hk' => Option.some.inj (hk.symm.trans hk') ▸ hv, fun hkeep => hkeep k hk⟩
  | setKey dst key salt algo md rounds =>
    obtain ⟨k, hk, rfl⟩ := Option.map_eq_some'.mp hs
    rw [h.put_some_iff, KeyphraseT.setKey, KeyphraseT.valid_derive_iff keyLength bytesToKey hb]
    exact ⟨fun hv k' hk' => Option.some.inj (hk.symm.trans hk') ▸ hv, fun hkeep => hkeep k hk⟩
  | _ => cases hc

/-- Every call that keeps every key valid does. -/
theorem Valid.keepStep (hb : Bounded keyLength bytesToKey) {r r' : Keyring C}
    (h : r.Valid keyLength) (hs : KeepStep keyLength bytesToKey r r') : r'.Valid keyLength := by
  obtain ⟨c, hkeep, hs⟩ := hs
  cases hc : c.isSet
  · exact h.step keyLength bytesToKey hb hc hs
  · exact (h.set_iff keyLength bytesToKey hb hc hs).mpr hkeep

/-- `set` keeps a valid keyring valid exactly when its target gets no key or has a cipher of
`algo`'s key length, so `set` on a key without a cipher (as `keyphrase_t()` makes it) that
gets a key breaks validity; and every run of calls whose `set`s keep to that leaves every live
key valid. -/
theorem keyring_set_valid_iff (hb : Bounded keyLength bytesToKey) {r : Keyring C}
    (h : r.Valid keyLength) :
    (∀ (c : KeyCall C M) r', c.isSet = true → r.step keyLength bytesToKey c = some r' →
      (r'.Valid keyLength ↔ r.Keeps keyLength bytesToKey c)) ∧
    ∀ r', Relation.ReflTransGen (KeepStep keyLength bytesToKey (M := M)) r r' →
      r'.Valid keyLength := by
  refine ⟨fun c r' hc hs => h.set_iff keyLength bytesToKey hb hc hs, fun r' hr => ?_⟩
  induction hr with
  | refl => exact h
  | tail _ hs ih => exact ih.keepStep keyLength bytesToKey hb hs

/-- `EVP_BytesToKey` making 32-byte keys, from no object. -/
theorem keyring_set_valid_iff_empty :
    let derived : Unit → Unit → Option (List UInt8) → KeyT → Int → Derived :=
      fun _ _ _ _ _ => ⟨32, List.replicate 32 7, List.replicate 16 9, by decide⟩
    (Bounded (fun _ => 32) derived ∧ (empty : Keyring Unit).Valid (fun _ => 32)) ∧
      (∀ (c : KeyCall Unit Unit) r', c.isSet = true →
        (empty : Keyring Unit).step (fun _ => 32) derived c = some r' →
        (r'.Valid (fun _ => 32) ↔ (empty : Keyring Unit).Keeps (fun _ => 32) derived c)) ∧
      ∀ r', Relation.ReflTransGen (KeepStep (fun _ => 32) derived (M := Unit)) empty r' →
        r'.Valid (fun _ => 32) := by
  intro derived
  exact ⟨⟨fun _ _ _ _ _ => le_rfl, valid_empty _⟩,
    keyring_set_valid_iff (fun _ => 32) derived (fun _ _ _ _ _ => le_rfl) (valid_empty _)⟩

end Run

end Keyring

end Crypto

end ModernCli
