import Mathlib

/-!
# `encrypt_t` and `decrypt_t`: owned cipher contexts

`crypto::encrypt_t` and `crypto::decrypt_t` each hold an OpenSSL context `ctx_`, `nullptr`
for none, and the cipher `algo_` it was set up for. A context comes from
`EVP_CIPHER_CTX_new`, which may fail, and goes back with `EVP_CIPHER_CTX_free`. A `World` is
the objects of a program, with the contexts made so far and those freed so far, oldest
first; the outcomes of `EVP_CIPHER_CTX_new` and of `EVP_EncryptInit_ex` or
`EVP_DecryptInit_ex` are inputs of the calls.

When `EVP_DecryptInit_ex` fails, `decrypt_t(const keyphrase_t&)` frees its context and sets
`ctx_` to `nullptr`. When `EVP_EncryptInit_ex` fails, `encrypt_t(const keyphrase_t&)` frees
its context and keeps the pointer, and so does the assignment from a `keyphrase_t` of both
classes: the object then tests true on a freed context, and its destructor frees it again.

* `Crypto.World.Inv`: every live object's `ctx_` is `nullptr` or a context made and not
  freed, no two objects hold one context, and no context is freed twice;
* `Crypto.World.Inv.run`: every run keeps it in which the initialisations of
  `encrypt_t(const keyphrase_t&)` and of the assignments from a `keyphrase_t` succeed, for
  every outcome of `EVP_CIPHER_CTX_new` and of `decrypt_t(const keyphrase_t&)`;
* `Crypto.World.encryptOfKeyphrase_dangles`, `Crypto.World.assignKeyphrase_dangles`: from any
  world, a failed initialisation on those paths leaves the object holding a freed context,
  which `Crypto.cipher_init_failure_frees_twice` frees twice.
-/

namespace ModernCli

namespace Crypto

variable {C : Type}

/-- `keyphrase_t` as the cipher classes read it. -/
structure Keyphrase (C : Type) where
  /-- `cipher()`: the cipher the key was made for, `none` for `nullptr`. -/
  cipher : Option C
  /-- `size()`: the key's size in bytes. -/
  size : Nat

/-- The two classes. -/
inductive Kind where
  | encrypt
  | decrypt
  deriving DecidableEq

/-- One `encrypt_t` or `decrypt_t` object. -/
structure Obj (C : Type) where
  kind : Kind
  /-- `ctx_`: a context's number, `none` for `nullptr`. -/
  ctx : Option Nat
  /-- `algo_`: the cipher, `none` for `nullptr`. -/
  algo : Option C
  deriving DecidableEq

/-- `operator bool()`: `ctx_ != nullptr`. -/
def Obj.test (o : Obj C) : Bool := o.ctx.isSome

/-- The `encrypt_t` and `decrypt_t` objects of a program and the contexts they use. -/
structure World (C : Type) where
  /-- Each object, `none` outside its lifetime. -/
  objs : Nat → Option (Obj C)
  /-- The objects constructed so far; `made` names the next one. -/
  made : Nat
  /-- The contexts `EVP_CIPHER_CTX_new` returned so far; `ctxs` names the next one. -/
  ctxs : Nat
  /-- The contexts `EVP_CIPHER_CTX_free` was called on, oldest first. -/
  freed : List Nat

/-- The calls on the objects; an object is named by the order of its construction. The
outcomes of `EVP_CIPHER_CTX_new` (`newOk`) and of `EVP_EncryptInit_ex` or
`EVP_DecryptInit_ex` (`initOk`) are part of the call. -/
inductive Call (C : Type) where
  /-- `encrypt_t(algo)` or `decrypt_t(algo)`. -/
  | make (kind : Kind) (algo : Option C)
  /-- `encrypt_t(const keyphrase_t&)` or `decrypt_t(const keyphrase_t&)`. -/
  | makeKey (kind : Kind) (key : Keyphrase C) (newOk initOk : Bool)
  /-- `T(T&& other)`. -/
  | moveMake (src : Nat)
  /-- `dst = std::move(src)`. -/
  | moveAssign (dst src : Nat)
  /-- `dst = key`. -/
  | assignKey (dst : Nat) (key : Keyphrase C) (newOk initOk : Bool)
  /-- `update(in, out, size)`: `EVP_EncryptUpdate` or `EVP_DecryptUpdate` on `ctx_`. -/
  | update (obj : Nat)
  /-- `finish(out)`. -/
  | finish (obj : Nat)
  /-- `~T()`. -/
  | destroy (obj : Nat)

namespace World

/-- The world before any object. -/
def empty : World C := ⟨fun _ => none, 0, 0, []⟩

/-- Object `i` becomes `o`. -/
def setObj (w : World C) (i : Nat) (o : Option (Obj C)) : World C :=
  { w with objs := Function.update w.objs i o }

/-- Object `i`, if live, becomes `f` of itself. -/
def modify (w : World C) (i : Nat) (f : Obj C → Obj C) : World C := w.setObj i ((w.objs i).map f)

/-- A new object `o`. -/
def add (w : World C) (o : Obj C) : World C :=
  { w with made := w.made + 1 }.setObj w.made (some o)

/-- `ctx_` of object `i`; `none` for `nullptr` and outside the object's lifetime. -/
def ctxOf (w : World C) (i : Nat) : Option Nat := (w.objs i).bind Obj.ctx

/-- `EVP_CIPHER_CTX_new()`: the next context, or `nullptr` when it fails. -/
def new (w : World C) (ok : Bool) : World C × Option Nat :=
  if ok then ({ w with ctxs := w.ctxs + 1 }, some w.ctxs) else (w, none)

/-- `EVP_CIPHER_CTX_free(ctx)`. -/
def free (w : World C) (ctx : Nat) : World C := { w with freed := w.freed ++ [ctx] }

/-- `if(ctx_) EVP_CIPHER_CTX_free(ctx_);` -/
def freeIf (w : World C) : Option Nat → World C
  | some ctx => w.free ctx
  | none => w

/-- `if(ctx_) EVP_CIPHER_CTX_free(ctx_); ctx_ = nullptr;` on object `i`. -/
def release (w : World C) (i : Nat) : World C :=
  (w.freeIf (w.ctxOf i)).modify i fun o => { o with ctx := none }

section Members

variable (keyLength : C → Nat)

/-- `keysize()`: `EVP_CIPHER_key_length(algo_)`, with `keyLength` the key length of each
cipher; it reads through the pointer, so a null cipher is undefined behaviour (`none`). -/
def keysize (algo : Option C) : Option Nat := algo.map keyLength

/-- `decrypt_t(const keyphrase_t& key)`: `ctx_(EVP_CIPHER_CTX_new()), algo_(key.cipher())`;
with a context, a key of the wrong size or a failed `EVP_DecryptInit_ex` frees it and sets
`ctx_` to `nullptr`. The world and the new object, `none` on undefined behaviour. -/
def decryptOfKeyphrase (w : World C) (key : Keyphrase C) (newOk initOk : Bool) :
    Option (World C × Obj C) :=
  match w.new newOk with
  | (w, none) => some (w, ⟨.decrypt, none, key.cipher⟩)
  | (w, some ctx) => (keysize keyLength key.cipher).map fun n =>
    if key.size ≠ n ∨ initOk = false then (w.free ctx, ⟨.decrypt, none, key.cipher⟩)
    else (w, ⟨.decrypt, some ctx, key.cipher⟩)

/-- `encrypt_t(const keyphrase_t& key)`: as `decrypt_t`'s, but a failed `EVP_EncryptInit_ex`
frees the context and leaves `ctx_` pointing at it. -/
def encryptOfKeyphrase (w : World C) (key : Keyphrase C) (newOk initOk : Bool) :
    Option (World C × Obj C) :=
  match w.new newOk with
  | (w, none) => some (w, ⟨.encrypt, none, key.cipher⟩)
  | (w, some ctx) => (keysize keyLength key.cipher).map fun n =>
    if n ≠ key.size then (w.free ctx, ⟨.encrypt, none, key.cipher⟩)
    else if initOk = false then (w.free ctx, ⟨.encrypt, some ctx, key.cipher⟩)
    else (w, ⟨.encrypt, some ctx, key.cipher⟩)

/-- `operator=(const keyphrase_t& key)`, the same in both classes, on the object `o`: a cipher
other than `algo_` throws `std::runtime_error("cipher type mismatch")` before any change;
otherwise the held context is freed, a key of the wrong size sets `ctx_` to `nullptr`, and
`ctx_` takes a new context, which a failed `EVP_EncryptInit_ex` or `EVP_DecryptInit_ex` frees
and keeps. The world and the object, `none` on undefined behaviour. -/
def assignKeyphrase [DecidableEq C] (w : World C) (o : Obj C) (key : Keyphrase C)
    (newOk initOk : Bool) : Except String (Option (World C × Obj C)) :=
  if key.cipher ≠ o.algo then .error "cipher type mismatch"
  else .ok <| (keysize keyLength o.algo).map fun n =>
    if n ≠ key.size then (w.freeIf o.ctx, { o with ctx := none })
    else match (w.freeIf o.ctx).new newOk with
      | (w, none) => (w, { o with ctx := none })
      | (w, some ctx) =>
        if initOk = false then (w.free ctx, { o with ctx := some ctx })
        else (w, { o with ctx := some ctx })

end Members

/-- `T(T&& other)` from the object `src`, which is `s`: when `other.ctx_` is set the new object
takes `ctx_` and `algo_` and `other.ctx_` becomes `nullptr`; otherwise both members of the
new object keep their initialiser, `nullptr`. -/
def moveMake (w : World C) (src : Nat) (s : Obj C) : World C :=
  match s.ctx with
  | some ctx => (w.add ⟨s.kind, some ctx, s.algo⟩).setObj src (some { s with ctx := none })
  | none => w.add ⟨s.kind, none, none⟩

/-- `dst = std::move(src)`: `dst` releases its context; then, when `other.ctx_` is set, `dst`
takes `ctx_` and `algo_` and `other.ctx_` becomes `nullptr`. -/
def moveAssign (w : World C) (dst src : Nat) : World C :=
  let w := w.release dst
  match w.objs src with
  | some s =>
    match s.ctx with
    | some ctx =>
      (w.modify dst fun o => { o with ctx := some ctx, algo := s.algo }).modify src
        fun o => { o with ctx := none }
    | none => w
  | none => w

/-- `finish(out)`: with a context, `EVP_*Final_ex`, then the context is freed and `ctx_` set
to `nullptr`. -/
def finish (w : World C) (i : Nat) : World C :=
  match w.ctxOf i with
  | some ctx => (w.free ctx).modify i fun o => { o with ctx := none }
  | none => w

/-- `~T()`: `if(ctx_) EVP_CIPHER_CTX_free(ctx_);`, and the object's lifetime ends. -/
def destroy (w : World C) (i : Nat) : World C := (w.freeIf (w.ctxOf i)).setObj i none

section Run

variable [DecidableEq C] (keyLength : C → Nat)

/-- One call, or `none` when it names an object that is not live, moves between the two
classes, or has undefined behaviour. A throwing assignment leaves the world as it was. -/
def step (w : World C) : Call C → Option (World C)
  | .make kind algo => some (w.add ⟨kind, none, algo⟩)
  | .makeKey .decrypt key newOk initOk =>
    (w.decryptOfKeyphrase keyLength key newOk initOk).map fun r => r.1.add r.2
  | .makeKey .encrypt key newOk initOk =>
    (w.encryptOfKeyphrase keyLength key newOk initOk).map fun r => r.1.add r.2
  | .moveMake src => (w.objs src).map (w.moveMake src)
  | .moveAssign dst src => (w.objs dst).bind fun d => (w.objs src).bind fun s =>
    if d.kind = s.kind then some (w.moveAssign dst src) else none
  | .assignKey dst key newOk initOk => (w.objs dst).bind fun o =>
    match w.assignKeyphrase keyLength o key newOk initOk with
    | .error _ => some w
    | .ok r => r.map fun r => r.1.setObj dst (some r.2)
  | .update i => (w.objs i).map fun _ => w
  | .finish i => (w.objs i).map fun _ => w.finish i
  | .destroy i => (w.objs i).map fun _ => w.destroy i

/-- A run of calls, `none` if one of them is. -/
def run (w : World C) : List (Call C) → Option (World C)
  | [] => some w
  | c :: cs => (w.step keyLength c).bind fun w' => w'.run cs

end Run

/-! ## Frame lemmas -/

@[simp] theorem setObj_objs (w : World C) (i : Nat) (o : Option (Obj C)) :
    (w.setObj i o).objs = Function.update w.objs i o := rfl

@[simp] theorem setObj_made (w : World C) (i : Nat) (o : Option (Obj C)) :
    (w.setObj i o).made = w.made := rfl

@[simp] theorem setObj_ctxs (w : World C) (i : Nat) (o : Option (Obj C)) :
    (w.setObj i o).ctxs = w.ctxs := rfl

@[simp] theorem setObj_freed (w : World C) (i : Nat) (o : Option (Obj C)) :
    (w.setObj i o).freed = w.freed := rfl

@[simp] theorem free_objs (w : World C) (ctx : Nat) : (w.free ctx).objs = w.objs := rfl

@[simp] theorem free_made (w : World C) (ctx : Nat) : (w.free ctx).made = w.made := rfl

@[simp] theorem free_ctxs (w : World C) (ctx : Nat) : (w.free ctx).ctxs = w.ctxs := rfl

@[simp] theorem free_freed (w : World C) (ctx : Nat) : (w.free ctx).freed = w.freed ++ [ctx] :=
  rfl

@[simp] theorem freeIf_some (w : World C) (ctx : Nat) : w.freeIf (some ctx) = w.free ctx := rfl

@[simp] theorem freeIf_none (w : World C) : w.freeIf none = w := rfl

@[simp] theorem new_true (w : World C) :
    w.new true = ({ w with ctxs := w.ctxs + 1 }, some w.ctxs) := rfl

@[simp] theorem new_false (w : World C) : w.new false = (w, none) := rfl

theorem ctxOf_setObj (w : World C) (i j : Nat) (o : Option (Obj C)) :
    (w.setObj i o).ctxOf j = if j = i then o.bind Obj.ctx else w.ctxOf j := by
  simp only [ctxOf, setObj_objs, Function.update_apply]
  split_ifs <;> rfl

/-- Giving object `i` a value and freeing a context commute. -/
theorem free_setObj (w : World C) (ctx i : Nat) (o : Option (Obj C)) :
    (w.free ctx).setObj i o = (w.setObj i o).free ctx := rfl

theorem setObj_setObj (w : World C) (i : Nat) (o o' : Option (Obj C)) :
    (w.setObj i o).setObj i o' = w.setObj i o' := by
  simp only [setObj, Function.update_idem]

theorem setObj_comm (w : World C) {i j : Nat} (h : i ≠ j) (o o' : Option (Obj C)) :
    (w.setObj i o).setObj j o' = (w.setObj j o').setObj i o := by
  simp only [setObj, Function.update_comm h]

@[simp] theorem ctxOf_free (w : World C) (ctx i : Nat) : (w.free ctx).ctxOf i = w.ctxOf i := rfl

@[simp] theorem freeIf_objs (w : World C) (ctx : Option Nat) : (w.freeIf ctx).objs = w.objs := by
  cases ctx <;> rfl

@[simp] theorem freeIf_made (w : World C) (ctx : Option Nat) : (w.freeIf ctx).made = w.made := by
  cases ctx <;> rfl

@[simp] theorem freeIf_ctxs (w : World C) (ctx : Option Nat) : (w.freeIf ctx).ctxs = w.ctxs := by
  cases ctx <;> rfl

theorem add_setObj (w : World C) {i : Nat} (hi : i ≠ w.made) (o : Obj C) (o' : Option (Obj C)) :
    (w.add o).setObj i o' = (w.setObj i o').add o := by
  simp only [add, setObj, Function.update_comm (Ne.symm hi)]

theorem modify_comm (w : World C) {i j : Nat} (h : i ≠ j) (f g : Obj C → Obj C) :
    (w.modify i f).modify j g = (w.modify j g).modify i f := by
  simp only [modify, setObj_objs, Function.update_noteq h, Function.update_noteq (Ne.symm h)]
  exact setObj_comm w h _ _

/-! ## The invariant -/

/-- Every live object's `ctx_` is `nullptr` or a context made and not yet freed, no two
objects hold one context, and no context is freed twice, nor one never made. -/
structure Inv (w : World C) : Prop where
  unmade : ∀ i, w.made ≤ i → w.objs i = none
  live : ∀ i ctx, w.ctxOf i = some ctx → ctx < w.ctxs ∧ ctx ∉ w.freed
  owned : ∀ i j ctx, w.ctxOf i = some ctx → w.ctxOf j = some ctx → i = j
  nodup : w.freed.Nodup
  freed_lt : ∀ ctx ∈ w.freed, ctx < w.ctxs

/-- Context `ctx` may be handed to object `i`: made, not freed, held by no other object. -/
def Spare (w : World C) (i ctx : Nat) : Prop :=
  ctx < w.ctxs ∧ ctx ∉ w.freed ∧ ∀ j, j ≠ i → w.ctxOf j ≠ some ctx

variable {w : World C}

theorem inv_empty : (empty : World C).Inv :=
  ⟨fun _ _ => rfl, by simp [ctxOf, empty], by simp [ctxOf, empty], .nil, by simp [empty]⟩

theorem Inv.lt_made (h : w.Inv) {i : Nat} {o : Obj C} (hi : w.objs i = some o) : i < w.made := by
  by_contra hm
  simp [h.unmade i (by omega)] at hi

/-- `operator bool()` is true only on a context made and not freed. -/
theorem Inv.test_live (h : w.Inv) {i : Nat} {o : Obj C} (hi : w.objs i = some o)
    (ht : o.test = true) : ∃ ctx, o.ctx = some ctx ∧ ctx < w.ctxs ∧ ctx ∉ w.freed := by
  obtain ⟨ctx, hc⟩ := Option.isSome_iff_exists.mp ht
  exact ⟨ctx, hc, h.live i ctx (by simp [ctxOf, hi, hc])⟩

/-- Object `i` becomes `o`, whose context, if any, is spare for it. -/
theorem Inv.setObj (h : w.Inv) {i : Nat} {o : Option (Obj C)} (hi : o = none ∨ i < w.made)
    (ho : ∀ ctx, o.bind Obj.ctx = some ctx → w.Spare i ctx) : (w.setObj i o).Inv where
  unmade j hj := by
    simp only [setObj_made] at hj
    by_cases hji : j = i
    · subst hji; rcases hi with rfl | hi
      · simp
      · omega
    · rw [setObj_objs, Function.update_noteq hji]; exact h.unmade j hj
  live j ctx hj := by
    rw [ctxOf_setObj] at hj
    split_ifs at hj
    · exact ⟨(ho ctx hj).1, (ho ctx hj).2.1⟩
    · exact h.live j ctx hj
  owned j k ctx hj hk := by
    rw [ctxOf_setObj] at hj hk
    split_ifs at hj hk with h1 h2 h2
    · exact h1.trans h2.symm
    · exact absurd hk ((ho ctx hj).2.2 k h2)
    · exact absurd hj ((ho ctx hk).2.2 j h1)
    · exact h.owned j k ctx hj hk
  nodup := h.nodup
  freed_lt := h.freed_lt

/-- Object `i` becomes `o`, given the invariant with `i` holding nothing. -/
theorem Inv.put {i : Nat} (h : (w.setObj i none).Inv) {o : Option (Obj C)}
    (hi : o = none ∨ i < w.made) (ho : ∀ ctx, o.bind Obj.ctx = some ctx → (w.setObj i none).Spare i ctx) :
    (w.setObj i o).Inv := by
  simpa only [setObj_setObj] using h.setObj hi ho

/-- Freeing a made context that no object holds. -/
theorem Inv.free (h : w.Inv) {ctx : Nat} (hc : ctx < w.ctxs) (hf : ctx ∉ w.freed)
    (hn : ∀ j, w.ctxOf j ≠ some ctx) : (w.free ctx).Inv where
  unmade := h.unmade
  live j c hj := by
    refine ⟨(h.live j c hj).1, ?_⟩
    simp only [free_freed, List.mem_append, List.mem_singleton, not_or]
    exact ⟨(h.live j c hj).2, fun e => hn j (e ▸ hj)⟩
  owned := h.owned
  nodup := List.nodup_append.mpr ⟨h.nodup, List.nodup_singleton _, by simpa using hf⟩
  freed_lt c hc' := by
    simp only [free_freed, List.mem_append, List.mem_singleton] at hc'
    rcases hc' with hc' | rfl
    · exact h.freed_lt c hc'
    · exact hc

/-- A successful `EVP_CIPHER_CTX_new()`. -/
theorem Inv.new (h : w.Inv) : (w.new true).1.Inv where
  unmade := h.unmade
  live j c hj := ⟨Nat.lt_succ_of_lt (h.live j c hj).1, (h.live j c hj).2⟩
  owned := h.owned
  nodup := h.nodup
  freed_lt c hc := Nat.lt_succ_of_lt (h.freed_lt c hc)

/-- The context a successful `EVP_CIPHER_CTX_new()` returns is held by no object. -/
theorem Inv.spare_new (h : w.Inv) (i : Nat) : (w.new true).1.Spare i w.ctxs :=
  ⟨Nat.lt_succ_self _, fun hm => lt_irrefl _ (h.freed_lt _ hm),
    fun j _ hj => lt_irrefl _ (h.live j _ hj).1⟩

/-- Object `i` drops its context: `if(ctx_) EVP_CIPHER_CTX_free(ctx_);` and a value without
a context. -/
theorem Inv.drop (h : w.Inv) {i : Nat} {o : Option (Obj C)} (hi : o = none ∨ i < w.made)
    (ho : o.bind Obj.ctx = none) : ((w.freeIf (w.ctxOf i)).setObj i o).Inv := by
  have hs : (w.setObj i o).Inv := h.setObj hi fun ctx hc => by simp [ho] at hc
  cases hc : w.ctxOf i with
  | none => exact hs
  | some c =>
    refine hs.free (h.live i c hc).1 (h.live i c hc).2 fun j hj => ?_
    rw [ctxOf_setObj] at hj
    split_ifs at hj with hji
    · simp [ho] at hj
    · exact hji (h.owned j i c hj hc)

theorem Inv.lt_made_of_ctxOf (h : w.Inv) {i c : Nat} (hc : w.ctxOf i = some c) : i < w.made := by
  obtain ⟨o, hi, -⟩ := Option.bind_eq_some.mp hc
  exact h.lt_made hi

/-- `ctx_ = nullptr` on a live object, and the destructor. -/
theorem Inv.release (h : w.Inv) (i : Nat) : (w.release i).Inv := by
  unfold World.release World.modify
  rw [freeIf_objs]
  refine h.drop ?_ (by cases w.objs i <;> rfl)
  cases hi : w.objs i with
  | none => exact .inl rfl
  | some o => exact .inr (h.lt_made hi)

theorem Inv.destroy (h : w.Inv) (i : Nat) : (w.destroy i).Inv := h.drop (.inl rfl) rfl

theorem Inv.finish (h : w.Inv) (i : Nat) : (w.finish i).Inv := by
  have := h.release i
  unfold World.finish
  unfold World.release at this
  cases hc : w.ctxOf i with
  | none => exact h
  | some c => rwa [hc] at this

/-- One more object constructed, none yet in it. -/
theorem Inv.grow (h : w.Inv) : ({ w with made := w.made + 1 } : World C).Inv :=
  ⟨fun i hi => h.unmade i (by simp at hi; omega), h.live, h.owned, h.nodup, h.freed_lt⟩

/-- A new object whose context, if any, no object holds. -/
theorem Inv.add (h : w.Inv) {o : Obj C} (ho : ∀ ctx, o.ctx = some ctx → w.Spare w.made ctx) :
    (w.add o).Inv :=
  h.grow.setObj (.inr (Nat.lt_succ_self _)) ho

/-- Object `a` hands its context to object `b`. -/
theorem Inv.transfer (h : w.Inv) {a b c : Nat} (ha : w.ctxOf a = some c) (hb : b < w.made) {oa ob : Obj C} (hoa : oa.ctx = none) (hob : ob.ctx = some c) :
    ((w.setObj a (some oa)).setObj b (some ob)).Inv := by
  have h1 : (w.setObj a (some oa)).Inv :=
    h.setObj (.inr (h.lt_made_of_ctxOf ha)) fun ctx hc => by simp [hoa] at hc
  refine h1.setObj (.inr hb) fun ctx hctx => ?_
  obtain rfl : c = ctx := by simpa [hob] using hctx
  refine ⟨(h.live a c ha).1, (h.live a c ha).2, fun j _ hj => ?_⟩
  rw [ctxOf_setObj] at hj
  split_ifs at hj with hja
  · simp [hoa] at hj
  · exact hja (h.owned j a c hj ha)

/-- The context a successful `EVP_CIPHER_CTX_new()` returns is held by no object. -/
theorem Inv.ctxOf_new_ne (h : w.Inv) (j : Nat) : (w.new true).1.ctxOf j ≠ some w.ctxs :=
  fun hj => lt_irrefl _ (h.live j _ hj).1

/-- The context of a successful `EVP_CIPHER_CTX_new()`, freed again. -/
theorem Inv.free_new (h : w.Inv) : ((w.new true).1.free w.ctxs).Inv :=
  h.new.free (Nat.lt_succ_self _) (fun hm => lt_irrefl _ (h.freed_lt _ hm)) h.ctxOf_new_ne

section Calls

variable (keyLength : C → Nat)

theorem Inv.decryptOfKeyphrase (h : w.Inv) {key : Keyphrase C} {newOk initOk : Bool}
    {r : World C × Obj C} (hr : w.decryptOfKeyphrase keyLength key newOk initOk = some r) :
    (r.1.add r.2).Inv := by
  cases newOk with
  | false => cases hr; exact h.add (by simp)
  | true =>
    obtain ⟨n, -, rfl⟩ := Option.map_eq_some'.mp hr
    split_ifs
    · exact h.free_new.add (by simp)
    · exact h.new.add fun ctx hc => by cases hc; exact h.spare_new _

theorem Inv.encryptOfKeyphrase (h : w.Inv) {key : Keyphrase C} {newOk : Bool}
    {r : World C × Obj C} (hr : w.encryptOfKeyphrase keyLength key newOk true = some r) :
    (r.1.add r.2).Inv := by
  cases newOk with
  | false => cases hr; exact h.add (by simp)
  | true =>
    obtain ⟨n, -, rfl⟩ := Option.map_eq_some'.mp hr
    split_ifs with hn hi
    · exact h.free_new.add (by simp)
    · cases hi
    · exact h.new.add fun ctx hc => by cases hc; exact h.spare_new _

theorem Inv.assignKeyphrase [DecidableEq C] (h : w.Inv) {dst : Nat} {o : Obj C}
    (hd : w.objs dst = some o) {key : Keyphrase C} {newOk : Bool} {r : World C × Obj C}
    (hr : w.assignKeyphrase keyLength o key newOk true = .ok (some r)) :
    (r.1.setObj dst (some r.2)).Inv := by
  have hctx : o.ctx = w.ctxOf dst := by simp [ctxOf, hd]
  have hdrop : ((w.freeIf o.ctx).setObj dst (some { o with ctx := none })).Inv :=
    hctx ▸ h.drop (.inr (h.lt_made hd)) rfl
  unfold World.assignKeyphrase at hr
  split at hr
  · cases hr
  obtain ⟨n, -, rfl⟩ := Option.map_eq_some'.mp (Except.ok.inj hr)
  by_cases hn : n ≠ key.size
  · rw [if_pos hn]; exact hdrop
  rw [if_neg hn]
  cases newOk with
  | false => exact hdrop
  | true =>
    have h0 : ((w.freeIf o.ctx).setObj dst none).Inv := hctx ▸ h.drop (.inl rfl) rfl
    simp only [new_true, Bool.true_eq_false, if_false]
    refine Inv.put (w := { w.freeIf o.ctx with ctxs := (w.freeIf o.ctx).ctxs + 1 }) h0.new
      (.inr (by simpa using h.lt_made hd)) fun ctx hc => ?_
    obtain rfl : (w.freeIf o.ctx).ctxs = ctx := by simpa using hc
    exact h0.spare_new dst

theorem Inv.moveMake (h : w.Inv) {src : Nat} {s : Obj C} (hs : w.objs src = some s) :
    (w.moveMake src s).Inv := by
  obtain ⟨kind, _ | c, algo⟩ := s
  · exact h.add (by simp)
  · have hm := h.lt_made hs
    show ((w.add _).setObj src _).Inv
    rw [add_setObj _ hm.ne]
    simp only [add]
    exact h.grow.transfer (by simp [ctxOf, hs]) (Nat.lt_succ_self _) rfl rfl

theorem Inv.moveAssign (h : w.Inv) {dst src : Nat} {d : Obj C} (hd : w.objs dst = some d) :
    (w.moveAssign dst src).Inv := by
  have h1 := h.release dst
  have hrd : (w.release dst).objs dst = some { d with ctx := none } := by
    simp [World.release, World.modify, hd]
  unfold World.moveAssign
  dsimp only
  rcases hs : (w.release dst).objs src with _ | ⟨kind, _ | c, algo⟩
  · exact h1
  · exact h1
  · have hne : dst ≠ src := by rintro rfl; simp [hrd] at hs
    simp only [World.modify, setObj_objs, Function.update_noteq (Ne.symm hne), hs, hrd,
      Option.map_some']
    rw [setObj_comm _ hne]
    exact h1.transfer (a := src) (b := dst) (c := c) (by simp [ctxOf, hs])
      (by simpa [World.release, World.modify] using h.lt_made hd) rfl rfl

end Calls

/-- The calls whose initialisation, where a failure would leave `ctx_` on a freed context,
succeeds. -/
def Admissible : Call C → Prop
  | .makeKey .encrypt _ _ initOk => initOk = true
  | .assignKey _ _ _ initOk => initOk = true
  | _ => True

section Run

variable [DecidableEq C] (keyLength : C → Nat)

/-- Every admissible call keeps the invariant. -/
theorem Inv.step (h : w.Inv) {c : Call C} (hc : Admissible c) {w' : World C}
    (hs : w.step keyLength c = some w') : w'.Inv := by
  cases c with
  | make kind algo => cases hs; exact h.add (by simp)
  | makeKey kind key newOk initOk =>
    cases kind with
    | decrypt =>
      obtain ⟨r, hr, rfl⟩ := Option.map_eq_some'.mp hs
      exact h.decryptOfKeyphrase keyLength hr
    | encrypt =>
      cases hc
      obtain ⟨r, hr, rfl⟩ := Option.map_eq_some'.mp hs
      exact h.encryptOfKeyphrase keyLength hr
  | moveMake src =>
    obtain ⟨s, hsrc, rfl⟩ := Option.map_eq_some'.mp hs
    exact h.moveMake hsrc
  | moveAssign dst src =>
    obtain ⟨d, hd, hs⟩ := Option.bind_eq_some.mp hs
    obtain ⟨s, -, hs⟩ := Option.bind_eq_some.mp hs
    split_ifs at hs
    cases hs
    exact h.moveAssign hd
  | assignKey dst key newOk initOk =>
    cases hc
    obtain ⟨o, hd, hs⟩ := Option.bind_eq_some.mp hs
    split at hs
    · cases hs; exact h
    · rename_i r hr
      obtain ⟨r, rfl, rfl⟩ := Option.map_eq_some'.mp hs
      exact h.assignKeyphrase keyLength hd hr
  | update i =>
    obtain ⟨_, -, rfl⟩ := Option.map_eq_some'.mp hs
    exact h
  | finish i =>
    obtain ⟨_, -, rfl⟩ := Option.map_eq_some'.mp hs
    exact h.finish i
  | destroy i =>
    obtain ⟨_, -, rfl⟩ := Option.map_eq_some'.mp hs
    exact h.destroy i

/-- Every run of admissible calls keeps the invariant. -/
theorem Inv.run (h : w.Inv) {cs : List (Call C)} (hc : ∀ c ∈ cs, Admissible c) {w' : World C}
    (hr : w.run keyLength cs = some w') : w'.Inv := by
  induction cs generalizing w with
  | nil => cases hr; exact h
  | cons c cs ih =>
    obtain ⟨w₁, h₁, hr⟩ := Option.bind_eq_some.mp hr
    exact ih (h.step keyLength (hc c (.head _)) h₁) (fun c hm => hc c (.tail _ hm)) hr

/-! ## A failed initialisation -/

/-- From any world, `encrypt_t e(key)` for a key of its cipher's size, with a context from
`EVP_CIPHER_CTX_new` and a failed `EVP_EncryptInit_ex`: `e` holds the context, which is freed,
and `~encrypt_t()` frees it again. -/
theorem encryptOfKeyphrase_dangles (w : World C) {key : Keyphrase C} {a : C}
    (ha : key.cipher = some a) (hn : keyLength a = key.size) :
    ((w.step keyLength (.makeKey .encrypt key true false)).map fun w' =>
        (w'.ctxOf w.made, w'.freed)) = some (some w.ctxs, w.freed ++ [w.ctxs]) ∧
      ((w.run keyLength [.makeKey .encrypt key true false, .destroy w.made]).map freed) =
        some (w.freed ++ [w.ctxs, w.ctxs]) := by
  simp [World.run, World.step, encryptOfKeyphrase, keysize, ha, hn, add, ctxOf, destroy]

/-- From any world, `x = key` on a live `encrypt_t` or `decrypt_t` object `x` of the key's
cipher and size, with a context from `EVP_CIPHER_CTX_new` and a failed initialisation: `x`
holds the new context, which is freed, and its destructor frees it again. -/
theorem assignKeyphrase_dangles (w : World C) {dst : Nat} {o : Obj C} (hd : w.objs dst = some o)
    {key : Keyphrase C} {a : C} (ha : key.cipher = some a) (ho : o.algo = some a)
    (hn : keyLength a = key.size) :
    ((w.step keyLength (.assignKey dst key true false)).map fun w' => (w'.ctxOf dst, w'.freed)) =
        some (some w.ctxs, (w.freeIf o.ctx).freed ++ [w.ctxs]) ∧
      ((w.run keyLength [.assignKey dst key true false, .destroy dst]).map freed) =
        some ((w.freeIf o.ctx).freed ++ [w.ctxs, w.ctxs]) := by
  simp [World.run, World.step, assignKeyphrase, keysize, ha, ho, hn, hd, ctxOf, destroy]

end Run

end World

/-- `keyphrase_t key` for `EVP_aes_256_cbc()`, whose keys are 32 bytes. `encrypt_t e(key)`
whose `EVP_EncryptInit_ex` fails tests true on context 0, which is freed, and its destructor
frees context 0 again; `decrypt_t d(key); d = key;` whose second `EVP_DecryptInit_ex` fails
tests true on context 1, which is freed, and its destructor frees context 1 again. Every run
whose initialisations on those paths succeed keeps the invariant, for every outcome of
`EVP_CIPHER_CTX_new`, and from every world the failing paths free a context twice. -/
theorem cipher_init_failure_frees_twice :
    ((World.empty.run (fun _ : Unit => 32) [.makeKey .encrypt ⟨some (), 32⟩ true false]).map
        fun w => ((w.objs 0).map Obj.test, w.ctxOf 0, w.freed)) = some (some true, some 0, [0]) ∧
      ((World.empty.run (fun _ : Unit => 32)
        [.makeKey .encrypt ⟨some (), 32⟩ true false, .destroy 0]).map World.freed) =
        some [0, 0] ∧
      ((World.empty.run (fun _ : Unit => 32)
        [.makeKey .decrypt ⟨some (), 32⟩ true true, .assignKey 0 ⟨some (), 32⟩ true false]).map
        fun w => ((w.objs 0).map Obj.test, w.ctxOf 0, w.freed)) = some (some true, some 1, [0, 1]) ∧
      ((World.empty.run (fun _ : Unit => 32)
        [.makeKey .decrypt ⟨some (), 32⟩ true true, .assignKey 0 ⟨some (), 32⟩ true false,
          .destroy 0]).map World.freed) = some [0, 1, 1] ∧
      (∀ {C : Type} [DecidableEq C] (keyLength : C → Nat) (w w' : World C) (cs : List (Call C)),
        w.Inv → (∀ c ∈ cs, World.Admissible c) → w.run keyLength cs = some w' → w'.Inv) ∧
      (∀ {C : Type} [DecidableEq C] (keyLength : C → Nat) (w : World C) (key : Keyphrase C)
        (a : C), key.cipher = some a → keyLength a = key.size →
        ((w.step keyLength (.makeKey .encrypt key true false)).map fun w' =>
          (w'.ctxOf w.made, w'.freed)) = some (some w.ctxs, w.freed ++ [w.ctxs]) ∧
        ((w.run keyLength [.makeKey .encrypt key true false, .destroy w.made]).map
          World.freed) = some (w.freed ++ [w.ctxs, w.ctxs])) ∧
      ∀ {C : Type} [DecidableEq C] (keyLength : C → Nat) (w : World C) (dst : Nat) (o : Obj C)
        (key : Keyphrase C) (a : C), w.objs dst = some o → key.cipher = some a →
        o.algo = some a → keyLength a = key.size →
        ((w.step keyLength (.assignKey dst key true false)).map fun w' =>
          (w'.ctxOf dst, w'.freed)) = some (some w.ctxs, (w.freeIf o.ctx).freed ++ [w.ctxs]) ∧
        ((w.run keyLength [.assignKey dst key true false, .destroy dst]).map World.freed) =
          some ((w.freeIf o.ctx).freed ++ [w.ctxs, w.ctxs]) :=
  ⟨by decide, by decide, by decide, by decide,
    fun keyLength _ _ _ h hc hr => World.Inv.run keyLength h hc hr,
    fun keyLength w _ _ ha hn => World.encryptOfKeyphrase_dangles keyLength w ha hn,
    fun keyLength w _ _ _ _ hd ha ho hn => World.assignKeyphrase_dangles keyLength w hd ha ho hn⟩

end Crypto

end ModernCli
