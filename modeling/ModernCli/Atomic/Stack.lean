import Mathlib

/-!
# `stack_t`: a bounded stack on one atomic counter

`tycho::atomic::stack_t<T, S>` (`atomics.hpp`) keeps `S` slots `data_` and a
`std::atomic<int>` counter `count_`. `push` claims slot `count_.fetch_add(1)`, and `pull` and
`pop` claim slot `count_.fetch_sub(1)`; both roll the counter back when the claimed value is
out of range. `fetch_sub` returns the value before the decrement, so the slot `pull` and `pop`
read is one above the top, and an empty stack passes the `count < 0` check.

Single-threaded, the calls are functions of the object; `none` is a slot access outside
`data_` (undefined behaviour). The counter wraps as a two's complement `int` (`wrap32`), and
`count >= S` compares it as a `std::size_t` (`toSize`).

* `Stack.pop_of_nonneg`: with `0 ≤ count_ < S`, `pop` returns `data_[count_]` and decrements
  the counter, so after a `push` it returns the slot above the pushed item
  (`Stack.pop_push`);
* `Stack.pop_of_zero`: on an empty stack `pop` returns `data_[0]` and leaves the counter at
  `-1`, after which every `push` fails (`Stack.push_of_neg`);
* `Stack.pop_of_full`: on a full stack `pop` reads `data_[S]`;
* `Stack.run_count`: every run keeps `count_` within `-1 .. S`, and once it is negative no call
  changes the object again (`Stack.run_of_neg`).
-/

namespace ModernCli

/-- An `int` result of `std::atomic<int>` arithmetic, wrapped to two's complement. -/
def wrap32 (x : Int) : Int := (x + 2 ^ 31) % 2 ^ 32 - 2 ^ 31

/-- An `int` converted to `std::size_t`, as in `count >= S`. -/
def toSize (x : Int) : Nat := (x % 2 ^ 64).toNat

theorem wrap32_of_range {x : Int} (h₁ : -2 ^ 31 ≤ x) (h₂ : x < 2 ^ 31) : wrap32 x = x := by
  unfold wrap32
  rw [Int.emod_eq_of_lt (by omega) (by omega)]
  ring

theorem wrap32_range (x : Int) : -2 ^ 31 ≤ wrap32 x ∧ wrap32 x < 2 ^ 31 := by
  unfold wrap32
  have := Int.emod_nonneg (x + 2 ^ 31) (by norm_num : (2 : Int) ^ 32 ≠ 0)
  have := Int.emod_lt_of_pos (x + 2 ^ 31) (by norm_num : (0 : Int) < 2 ^ 32)
  constructor <;> omega

theorem toSize_of_nonneg {x : Int} (h₁ : 0 ≤ x) (h₂ : x < 2 ^ 64) : (toSize x : Int) = x := by
  unfold toSize
  rw [Int.emod_eq_of_lt h₁ h₂, Int.toNat_of_nonneg h₁]

theorem toSize_of_neg {x : Int} (h₁ : -2 ^ 64 ≤ x) (h₂ : x < 0) : (toSize x : Int) = x + 2 ^ 64 := by
  unfold toSize
  have : x % 2 ^ 64 = x + 2 ^ 64 := by
    rw [← Int.add_mul_emod_self_left x (2 ^ 64) 1, Int.emod_eq_of_lt (by omega) (by omega)]
    ring
  rw [this, Int.toNat_of_nonneg (by omega)]

/-- A `stack_t<T, S>` object: the counter `count_` and the slots `data_`. -/
structure Stack (T : Type) (S : Nat) where
  count : Int
  data : Fin S → T
  /-- `count_` is an `int`. -/
  count_range : -2 ^ 31 ≤ count ∧ count < 2 ^ 31

namespace Stack

variable {T : Type} {S : Nat}

/-- `stack_t()`: `count_` zero, the slots as `T data_[S]` leaves them. -/
def init (data : Fin S → T) : Stack T S := ⟨0, data, by norm_num⟩

/-- The slot `data_[i]`, for `0 ≤ i < S` only. -/
def slot? (i : Int) : Option (Fin S) :=
  if h : 0 ≤ i ∧ i < S then some ⟨i.toNat, by omega⟩ else none

/-- `push(item)`: `count = count_.fetch_add(1)`; if `count >= S` the counter is decremented
back and the call fails, else `data_[count] = item`. -/
def push (s : Stack T S) (item : T) : Option (Stack T S × Bool) :=
  if S ≤ toSize s.count then some (s, false)
  else (slot? s.count).map fun i =>
    (⟨wrap32 (s.count + 1), Function.update s.data i item, wrap32_range _⟩, true)

/-- `pop()`: `count = count_.fetch_sub(1)`; if `count < 0` the counter is incremented back
and the call returns `nullopt`, else it returns `data_[count]`. -/
def pop (s : Stack T S) : Option (Stack T S × Option T) :=
  if s.count < 0 then some (s, none)
  else (slot? s.count).map fun i => (⟨wrap32 (s.count - 1), s.data, wrap32_range _⟩, some (s.data i))

/-- `pull(item)`: the claim of `pop`; it stores the slot into `item` (`some`) and returns
true, or leaves `item` alone (`none`) and returns false. -/
def pull (s : Stack T S) : Option (Stack T S × Bool × Option T) :=
  if s.count < 0 then some (s, false, none)
  else (slot? s.count).map fun i =>
    (⟨wrap32 (s.count - 1), s.data, wrap32_range _⟩, true, some (s.data i))

/-- `size()`: the counter clamped to `0 .. S`. -/
def size (s : Stack T S) : Nat :=
  if s.count < 0 then 0 else if S < toSize s.count then S else toSize s.count

/-- `empty()`: `count_ < 1`. -/
def empty (s : Stack T S) : Bool := decide (s.count < 1)

/-- `full()`: `count_ >= S`, the counter converted to `std::size_t`. -/
def full (s : Stack T S) : Bool := decide (S ≤ toSize s.count)

theorem slot?_of_range {i : Int} (h₁ : 0 ≤ i) (h₂ : i < S) :
    slot? (S := S) i = some ⟨i.toNat, by omega⟩ := by
  simp [slot?, h₁, h₂]

/-- On a counter `0 ≤ count_ < S`, `pop` returns the slot at the counter, one above the top. -/
theorem pop_of_nonneg (s : Stack T S) (h₁ : 0 ≤ s.count) (h₂ : s.count < S) :
    s.pop = some (⟨s.count - 1, s.data, by have := s.count_range; omega⟩,
      some (s.data ⟨s.count.toNat, by omega⟩)) := by
  have h3 : ¬ s.count < 0 := by omega
  have := s.count_range
  simp [pop, h3, slot?_of_range h₁ h₂, wrap32_of_range (x := s.count - 1) (by omega) (by omega)]

theorem push_of_lt (s : Stack T S) (hS : S < 2 ^ 31) (h₁ : 0 ≤ s.count) (h₂ : s.count < S)
    (item : T) :
    s.push item = some (⟨s.count + 1, Function.update s.data ⟨s.count.toNat, by omega⟩ item,
      by have := s.count_range; omega⟩, true) := by
  have := s.count_range
  have h3 : ¬ S ≤ toSize s.count := by
    have := toSize_of_nonneg h₁ (by omega); omega
  simp [push, h3, slot?_of_range h₁ h₂, wrap32_of_range (x := s.count + 1) (by omega) (by omega)]

/-- After a `push` below the top slot, `pop` returns the slot above the pushed item, as it
was before. -/
theorem pop_push (s : Stack T S) (hS : S < 2 ^ 31) (h₁ : 0 ≤ s.count) (h₂ : s.count + 1 < S)
    (item : T) : ((s.push item).bind fun r => r.1.pop).map Prod.snd =
      some (some (s.data ⟨(s.count + 1).toNat, by omega⟩)) := by
  rw [s.push_of_lt hS h₁ (by omega)]
  simp only [Option.some_bind]
  rw [pop_of_nonneg _ (by simp; omega) (by simp; omega)]
  simp only [Option.map_some']
  congr 2
  rw [Function.update_noteq]
  simp only [ne_eq, Fin.mk.injEq]
  omega

/-- On an empty stack `pop` returns `data_[0]` and leaves `count_` at `-1`. -/
theorem pop_of_zero (s : Stack T S) (h : s.count = 0) (hS : 0 < S) :
    s.pop = some (⟨-1, s.data, by norm_num⟩, some (s.data ⟨0, hS⟩)) := by
  rw [pop_of_nonneg s (by omega) (by omega)]
  simp [h]

/-- On a full stack `pop` reads `data_[S]`, outside the slots. -/
theorem pop_of_full (s : Stack T S) (h : s.count = S) : s.pop = none := by
  have h3 : ¬ s.count < 0 := by omega
  simp [pop, h3, slot?, h]

/-- A negative counter makes every `push` fail and every `pop` return `nullopt`, so the
object never changes again. -/
theorem push_of_neg (s : Stack T S) (h : s.count < 0) (hS : S ≤ 2 ^ 63) (item : T) :
    s.push item = some (s, false) := by
  have := s.count_range
  have := toSize_of_neg (x := s.count) (by omega) h
  have h3 : S ≤ toSize s.count := by omega
  simp [push, h3]

theorem pop_of_neg (s : Stack T S) (h : s.count < 0) : s.pop = some (s, none) := by
  simp [pop, h]

theorem pull_of_neg (s : Stack T S) (h : s.count < 0) : s.pull = some (s, false, none) := by
  simp [pull, h]

/-! ## Runs -/

/-- A call on a `stack_t`: `push(item)` or `operator<=`, `pop()` or `operator*`, or
`pull(item)`. -/
inductive Call (T : Type) where
  | push (item : T)
  | pop
  | pull

/-- The object after one call, `none` when the call reads or writes outside `data_`. -/
def next (s : Stack T S) : Call T → Option (Stack T S)
  | .push item => (s.push item).map Prod.fst
  | .pop => s.pop.map Prod.fst
  | .pull => s.pull.map Prod.fst

/-- The object after the calls, in order; `none` once a call leaves `data_`. -/
def run (s : Stack T S) : List (Call T) → Option (Stack T S)
  | [] => some s
  | c :: cs => (s.next c).bind fun s' => s'.run cs

theorem push_of_ge (s : Stack T S) (h : S ≤ toSize s.count) (item : T) :
    s.push item = some (s, false) := by
  simp [push, h]

/-- `pull` and `pop` leave the same object. -/
theorem next_pull (s : Stack T S) : s.next .pull = s.next .pop := by
  simp only [next, pull, pop]
  split_ifs <;> cases slot? (S := S) s.count <;> rfl

/-- `count_` stays within `-1 .. S`: a `push` moves it up only below `S`, and a `pop` or
`pull` moves it down only from `0` on. -/
theorem next_count (hS : S < 2 ^ 31) {s s' : Stack T S} (h : -1 ≤ s.count ∧ s.count ≤ S)
    {c : Call T} (hc : s.next c = some s') : -1 ≤ s'.count ∧ s'.count ≤ S := by
  by_cases hneg : s.count < 0
  · -- a negative counter: no call changes the object
    obtain rfl : s = s' := by
      cases c <;> simpa [next, push_of_neg s hneg (by omega), pop_of_neg s hneg,
        pull_of_neg s hneg] using hc
    exact h
  by_cases htop : s.count = S
  · -- a full stack: `push` fails, and `pop` and `pull` read `data_[S]`
    cases c with
    | push item =>
      have := toSize_of_nonneg (x := s.count) (by omega) (by omega)
      rw [next, push_of_ge s (by omega)] at hc
      obtain rfl := Option.some.inj hc
      exact h
    | pop => simp [next, pop_of_full s htop] at hc
    | pull => rw [next_pull, next, pop_of_full s htop] at hc; simp at hc
  · have h₁ : 0 ≤ s.count := by omega
    have h₂ : s.count < S := by omega
    cases c with
    | push item =>
      rw [next, push_of_lt s hS h₁ h₂] at hc
      obtain rfl := Option.some.inj hc
      dsimp only
      omega
    | pop =>
      rw [next, pop_of_nonneg s h₁ h₂] at hc
      obtain rfl := Option.some.inj hc
      dsimp only
      omega
    | pull =>
      rw [next_pull, next, pop_of_nonneg s h₁ h₂] at hc
      obtain rfl := Option.some.inj hc
      dsimp only
      omega

/-- Every run from a counter within `-1 .. S` keeps it there. -/
theorem run_count (hS : S < 2 ^ 31) (cs : List (Call T)) :
    ∀ {s s' : Stack T S}, -1 ≤ s.count ∧ s.count ≤ S → s.run cs = some s' →
      -1 ≤ s'.count ∧ s'.count ≤ S := by
  induction cs with
  | nil => intro s s' h hr; cases hr; exact h
  | cons c cs ih =>
    intro s s' h hr
    cases hn : s.next c with
    | none => simp [run, hn] at hr
    | some s₁ =>
      simp only [run, hn, Option.some_bind] at hr
      exact ih (next_count hS h hn) hr

/-- Once `count_` is negative no call changes the object again: every `push` fails and
every `pop` and `pull` finds nothing. -/
theorem run_of_neg (hS : S ≤ 2 ^ 63) (cs : List (Call T)) :
    ∀ {s : Stack T S}, s.count < 0 → s.run cs = some s := by
  induction cs with
  | nil => intro s _; rfl
  | cons c cs ih =>
    intro s h
    cases c <;> simp [run, next, push_of_neg s h hS, pop_of_neg s h, pull_of_neg s h, ih h]

/-- A `stack_t<std::string, 3>`: after `push("a")`, `pop()` returns the empty string of the
slot above, and on the fresh stack `pop()` returns slot 0 instead of `nullopt`. For every
stack, a `pop` after a `push` below the top slot returns the slot above the pushed item, and
on an empty stack `pop` returns `data_[0]` and leaves `count_` at `-1`. -/
theorem stack_pop_misses_pushed_item :
    (((init fun _ : Fin 3 => "").push "a").bind fun r => r.1.pop).map Prod.snd = some (some "") ∧
      ((init fun _ : Fin 3 => "").pop).map Prod.snd = some (some "") ∧
      (∀ {T : Type} {S : Nat} (s : Stack T S), S < 2 ^ 31 → ∀ (h₁ : 0 ≤ s.count)
        (h₂ : s.count + 1 < S) (item : T), ((s.push item).bind fun r => r.1.pop).map Prod.snd =
          some (some (s.data ⟨(s.count + 1).toNat, by omega⟩))) ∧
      ∀ {T : Type} {S : Nat} (s : Stack T S), s.count = 0 → ∀ hS : 0 < S,
        s.pop = some (⟨-1, s.data, by norm_num⟩, some (s.data ⟨0, hS⟩)) :=
  ⟨by decide, by decide, fun s hS h₁ h₂ item => s.pop_push hS h₁ h₂ item,
    fun s h hS => s.pop_of_zero h hS⟩

/-- A `stack_t<int, 3>`: three pushes fill it, and the `pop` that follows reads `data_[3]`;
a `pop` of the fresh stack leaves `count_` at `-1`. For every stack, `pop` on a full stack
reads `data_[S]`; every run keeps `count_` within `-1 .. S`, which reaches `-1`, and once it
is negative no call changes the object again. -/
theorem stack_pop_reads_past_slots :
    ((((init fun _ : Fin 3 => (0 : Int)).push 1).bind fun r => r.1.push 2).bind fun r =>
      r.1.push 3).bind (fun r => r.1.pop) = none ∧
      ((init fun _ : Fin 3 => (0 : Int)).pop).map (fun r => r.1.count) = some (-1) ∧
      (∀ {T : Type} {S : Nat} (s : Stack T S), s.count = S → s.pop = none) ∧
      (∀ {T : Type} {S : Nat}, S < 2 ^ 31 → ∀ (cs : List (Call T)) (s s' : Stack T S),
        -1 ≤ s.count ∧ s.count ≤ S → s.run cs = some s' → -1 ≤ s'.count ∧ s'.count ≤ S) ∧
      ∀ {T : Type} {S : Nat}, S ≤ 2 ^ 63 → ∀ (cs : List (Call T)) (s : Stack T S),
        s.count < 0 → s.run cs = some s :=
  ⟨rfl, rfl, fun s h => s.pop_of_full h, fun hS cs _ _ h hr => run_count hS cs h hr,
    fun hS cs _ h => run_of_neg hS cs h⟩

end Stack

end ModernCli
