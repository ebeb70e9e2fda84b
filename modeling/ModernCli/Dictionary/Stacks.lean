import Mathlib

/-!
# The abstract dictionary: a stack of values per key

What `dictionary_t` is for, seen by one thread. `insert` does not look for the key first, so
a key can hold several values at once; `find` returns the newest. The abstract state is
every pair pushed and not yet removed, newest first (`Stacks.entries`), and a key's stack is
its values in that order (`stackOf`).

* `insert` and `emplace` push (`Stacks.push`);
* `insert_or_assign` replaces the top of a non-empty stack and pushes onto an empty one
  (`Stacks.assign`);
* `remove` pops and says whether there was a top (`Stacks.pop`); `clear` empties all.

The facts about `stackOf` below (`stackOf_replaceFirst_self`, `stackOf_eraseP_self` and
their frame versions) are what every refinement proof of a call reduces to.
-/

set_option linter.unusedSectionVars false

namespace ModernCli

variable {K V : Type} [DecidableEq K]

/-- The values of the pairs in `es` whose key is `key`, in order. -/
def stackOf (key : K) (es : List (K × V)) : List V :=
  es.filterMap fun e => if e.1 = key then some e.2 else none

/-- `es` with the first pair whose key is `key` given the value `v`. -/
def replaceFirst (key : K) (v : V) : List (K × V) → List (K × V)
  | [] => []
  | e :: es => if e.1 = key then (key, v) :: es else e :: replaceFirst key v es

@[simp] theorem stackOf_nil (key : K) : stackOf key ([] : List (K × V)) = [] := rfl

@[simp] theorem stackOf_cons (key k : K) (v : V) (es : List (K × V)) :
    stackOf key ((k, v) :: es) = if k = key then v :: stackOf key es else stackOf key es := by
  by_cases h : k = key <;> simp [stackOf, h]

@[simp] theorem stackOf_append (key : K) (es es' : List (K × V)) :
    stackOf key (es ++ es') = stackOf key es ++ stackOf key es' := by
  simp [stackOf]

theorem stackOf_eq_nil_iff (key : K) (es : List (K × V)) :
    stackOf key es = [] ↔ ∀ e ∈ es, e.1 ≠ key := by
  simp [stackOf, List.filterMap_eq_nil_iff]

theorem stackOf_replaceFirst_self (key : K) (v : V) (es : List (K × V)) :
    stackOf key (replaceFirst key v es) = match stackOf key es with
      | [] => []
      | _ :: t => v :: t := by
  induction es with
  | nil => rfl
  | cons e es ih =>
    obtain ⟨k, w⟩ := e
    by_cases h : k = key
    · subst h; simp [replaceFirst]
    · simp [replaceFirst, h, ih]

theorem stackOf_replaceFirst_of_ne {key key' : K} (h : key ≠ key') (v : V) (es : List (K × V)) :
    stackOf key' (replaceFirst key v es) = stackOf key' es := by
  induction es with
  | nil => rfl
  | cons e es ih =>
    obtain ⟨k, w⟩ := e
    by_cases hk : k = key
    · subst hk; simp [replaceFirst, h]
    · simp [replaceFirst, hk, ih]

theorem length_replaceFirst (key : K) (v : V) (es : List (K × V)) :
    (replaceFirst key v es).length = es.length := by
  induction es with
  | nil => rfl
  | cons e es ih => by_cases h : e.1 = key <;> simp [replaceFirst, h, ih]

theorem stackOf_eraseP_self (key : K) (es : List (K × V)) :
    stackOf key (es.eraseP fun e => e.1 = key) = (stackOf key es).tail := by
  induction es with
  | nil => rfl
  | cons e es ih =>
    obtain ⟨k, w⟩ := e
    by_cases h : k = key
    · subst h; simp
    · simp [List.eraseP_cons, h, ih]

theorem stackOf_eraseP_of_ne {key key' : K} (h : key ≠ key') (es : List (K × V)) :
    stackOf key' (es.eraseP fun e => e.1 = key) = stackOf key' es := by
  induction es with
  | nil => rfl
  | cons e es ih =>
    obtain ⟨k, w⟩ := e
    by_cases hk : k = key
    · subst hk; simp [h]
    · simp [List.eraseP_cons, hk, ih]

/-- Removing the first pair of a key shortens the list exactly when the key has a value. -/
theorem length_eraseP_stackOf (key : K) (es : List (K × V)) :
    (es.eraseP fun e => e.1 = key).length + (if (stackOf key es).isEmpty then 0 else 1) =
      es.length := by
  induction es with
  | nil => rfl
  | cons e es ih =>
    obtain ⟨k, w⟩ := e
    by_cases h : k = key
    · subst h; simp
    · simp only [List.eraseP_cons, h, decide_False, cond_false, List.length_cons,
        stackOf_cons, if_false] at ih ⊢
      omega

/-- A pair occurs in a list as often as its value occurs in its key's stack (counted with
the `BEq` of `DecidableEq`, as `List.perm_iff_count` counts). -/
theorem count_stackOf [DecidableEq V] (es : List (K × V)) (k : K) (v : V) :
    @List.count _ instBEqOfDecidableEq (k, v) es = (stackOf k es).count v := by
  induction es with
  | nil => rfl
  | cons e es ih =>
    obtain ⟨k', w⟩ := e
    by_cases h : k' = k
    · subst h; simp [List.count_cons, ih, BEq.beq]
    · simp [List.count_cons, h, ih, BEq.beq]

/-- A key occurs among the keys of a list as often as its stack is long. -/
theorem count_map_fst_stackOf (es : List (K × V)) (k : K) :
    (es.map Prod.fst).count k = (stackOf k es).length := by
  induction es with
  | nil => rfl
  | cons e es ih =>
    obtain ⟨k', w⟩ := e
    by_cases h : k' = k
    · subst h; simp [ih]
    · simp [List.count_cons, h, ih]

/-- The abstract dictionary: the pairs pushed and not yet removed, newest first. -/
structure Stacks (K V : Type) where
  entries : List (K × V)

namespace Stacks

/-- No stacked value. -/
def empty : Stacks K V := ⟨[]⟩

/-- The stack of `key`, top first. -/
def stack (m : Stacks K V) (key : K) : List V := stackOf key m.entries

/-- The number of stacked values. -/
def total (m : Stacks K V) : Nat := m.entries.length

/-- Push `v` on the stack of `key`. -/
def push (m : Stacks K V) (key : K) (v : V) : Stacks K V := ⟨(key, v) :: m.entries⟩

/-- Replace the top of the stack of `key` by `v`, or push `v` when the stack is empty. -/
def assign (m : Stacks K V) (key : K) (v : V) : Stacks K V :=
  if (m.stack key).isEmpty then m.push key v else ⟨replaceFirst key v m.entries⟩

/-- Pop the stack of `key`, and whether it had a top. -/
def pop (m : Stacks K V) (key : K) : Stacks K V × Bool :=
  (⟨m.entries.eraseP fun e => e.1 = key⟩, !(m.stack key).isEmpty)

/-- The top of the stack of `key`, or the failure `at` raises. -/
def top (m : Stacks K V) (key : K) : Except String V :=
  match m.stack key with
  | v :: _ => .ok v
  | [] => .error "Key not in dictionary"

@[simp] theorem stack_push_self (m : Stacks K V) (key : K) (v : V) :
    (m.push key v).stack key = v :: m.stack key := by
  simp [push, stack]

theorem stack_push_of_ne (m : Stacks K V) {key key' : K} (h : key ≠ key') (v : V) :
    (m.push key v).stack key' = m.stack key' := by
  simp [push, stack, h]

@[simp] theorem total_push (m : Stacks K V) (key : K) (v : V) :
    (m.push key v).total = m.total + 1 := rfl

end Stacks

end ModernCli
