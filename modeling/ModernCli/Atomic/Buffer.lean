import Mathlib

/-!
# `buffer_t`: a ring buffer with a head and a tail index

`tycho::atomic::buffer_t<T, S>` (`atomics.hpp`) keeps `S` slots `data_` and two
`std::atomic<unsigned>` indices: `head_`, the next slot to read, and `tail_`, the next slot to
write. `push` writes the tail slot and publishes the advanced tail unless that would meet the
head. `pull` and `pop` read the head slot and advance a local copy of the head, but publish it
with `tail_.store(tail)`, a store of the tail index they loaded: `head_` never moves.

`Buffer.contents` is the queue a buffer holds: the slots from `head_` up to `tail_` around
the ring, oldest first.

* `Buffer.push_of_lt`, `Buffer.push_of_full`: `push` appends its item when fewer than `S - 1`
  items are held and fails otherwise, as a FIFO queue of capacity `S - 1` does
  (`Buffer.empty_iff`, `Buffer.full_iff`);
* `Buffer.pull_of_ne_nil`: `pull` delivers the oldest item but leaves the object as it found
  it (`Buffer.pull_state`, `Buffer.pop_state`), so every later `pull` delivers it again;
* `Buffer.pop_value`: on a non-empty buffer `pop` returns the advanced head index, converted
  to `T`, not the item;
* `Buffer.run_contents`: over any run of calls the buffer holds its items and then the pushed
  ones, cut at `S - 1`, so from a fresh buffer every `pull` delivers the first item ever
  pushed (`Buffer.pull_run_init`).
-/

namespace ModernCli

/-- One step forward on the ring: `++next` on an `unsigned`, then `next -= S` if it reached
`S`. -/
def advance (S : Nat) (i : Nat) : Nat :=
  let next := (i + 1) % 2 ^ 32
  if S ≤ next then next - S else next

theorem advance_lt {S i : Nat} (h : i < S) : advance S i < S := by
  have := Nat.mod_le (i + 1) (2 ^ 32)
  unfold advance
  dsimp only
  split_ifs <;> omega

/-- A `buffer_t<T, S>` object: the indices `head_` and `tail_` and the slots `data_`. -/
structure Buffer (T : Type) (S : Nat) where
  head : Nat
  tail : Nat
  data : Fin S → T
  head_lt : head < S
  tail_lt : tail < S

namespace Buffer

variable {T : Type} {S : Nat}

/-- `buffer_t()`: both indices zero. -/
def init (hS : 0 < S) (data : Fin S → T) : Buffer T S := ⟨0, 0, data, hS, hS⟩

/-- `empty()` and `operator!`: `head_ == tail_`. -/
def empty (b : Buffer T S) : Bool := b.head == b.tail

/-- `full()`: the advanced tail would meet the head. -/
def full (b : Buffer T S) : Bool := advance S b.tail == b.head

/-- `push(item)`: fail when the advanced tail meets the head; else write `data_[tail]` and
store the advanced tail into `tail_`. -/
def push (b : Buffer T S) (item : T) : Buffer T S × Bool :=
  if advance S b.tail = b.head then (b, false)
  else (⟨b.head, advance S b.tail, Function.update b.data ⟨b.tail, b.tail_lt⟩ item, b.head_lt,
    advance_lt b.tail_lt⟩, true)

/-- `pull(item)`: fail when `head == tail`; else read `data_[head]` into `item`, advance the
local `head`, and `tail_.store(tail)`. The object after the call, whether it returned true,
and what was stored into `item`. -/
def pull (b : Buffer T S) : Buffer T S × Bool × Option T :=
  if b.head = b.tail then (b, false, none)
  else
    let _next := advance S b.head
    (⟨b.head, b.tail, b.data, b.head_lt, b.tail_lt⟩, true, some (b.data ⟨b.head, b.head_lt⟩))

/-- `pop()`: as `pull`, but the call returns the advanced local `head`, an `unsigned`, as the
`std::optional<T>` (`ofUnsigned` is that conversion). -/
def pop (ofUnsigned : Nat → T) (b : Buffer T S) : Buffer T S × Option T :=
  if b.head = b.tail then (b, none)
  else
    let _item := b.data ⟨b.head, b.head_lt⟩
    (⟨b.head, b.tail, b.data, b.head_lt, b.tail_lt⟩, some (ofUnsigned (advance S b.head)))

/-- `pull` never moves `head_` (nor anything else). -/
theorem pull_state (b : Buffer T S) : b.pull.1 = b := by
  unfold pull; split_ifs <;> rfl

/-- `pop` never moves `head_` (nor anything else). -/
theorem pop_state (ofUnsigned : Nat → T) (b : Buffer T S) : (b.pop ofUnsigned).1 = b := by
  unfold pop; split_ifs <;> rfl

/-- On a non-empty buffer, `pop` returns the advanced head index. -/
theorem pop_value (ofUnsigned : Nat → T) (b : Buffer T S) (h : b.head ≠ b.tail) :
    (b.pop ofUnsigned).2 = some (ofUnsigned (advance S b.head)) := by
  simp [pop, h]

/-! ## The queue a buffer holds -/

/-- The number of items held: the slots from `head_` up to `tail_`, around the ring. -/
def held (b : Buffer T S) : Nat := (b.tail + S - b.head) % S

/-- The slot `k` places after `head_`. -/
def slot (b : Buffer T S) (k : Nat) : Fin S :=
  ⟨(b.head + k) % S, Nat.mod_lt _ (Nat.lt_of_le_of_lt (Nat.zero_le _) b.head_lt)⟩

/-- The items held, oldest first. -/
def contents (b : Buffer T S) : List T := (List.range b.held).map fun k => b.data (b.slot k)

theorem mod_of_lt_two_mul {x : Nat} (h : x < 2 * S) :
    x < S ∧ x % S = x ∨ S ≤ x ∧ x % S = x - S := by
  by_cases hx : x < S
  · exact .inl ⟨hx, Nat.mod_eq_of_lt hx⟩
  · exact .inr ⟨by omega, by rw [Nat.mod_eq_sub_mod (by omega), Nat.mod_eq_of_lt (by omega)]⟩

theorem held_spec (b : Buffer T S) :
    b.head ≤ b.tail ∧ b.held = b.tail - b.head ∨ b.tail < b.head ∧ b.held = b.tail + S - b.head := by
  have := b.head_lt; have := b.tail_lt
  have := mod_of_lt_two_mul (S := S) (x := b.tail + S - b.head) (by omega)
  simp only [held]
  omega

theorem slot_spec (b : Buffer T S) {k : Nat} (hk : k < S) :
    b.head + k < S ∧ (b.slot k).val = b.head + k ∨ S ≤ b.head + k ∧ (b.slot k).val = b.head + k - S :=
  have := b.head_lt
  mod_of_lt_two_mul (by omega)

/-- Among the slots up to the number of items held, only the last is the tail's. -/
theorem slot_eq_tail_iff (b : Buffer T S) {k : Nat} (hk : k ≤ b.held) (hS : b.held < S) :
    (b.slot k).val = b.tail ↔ k = b.held := by
  have := b.held_spec; have := b.head_lt; have := b.tail_lt; have := b.slot_spec (k := k) (by omega)
  omega

/-- On indices below `S < 2 ^ 32`, the unsigned step is a step around the ring. -/
theorem advance_spec {i : Nat} (hS : S < 2 ^ 32) (h : i < S) :
    i + 1 = S ∧ advance S i = 0 ∨ i + 1 < S ∧ advance S i = i + 1 := by
  unfold advance
  dsimp only
  rw [Nat.mod_eq_of_lt (by omega)]
  split_ifs <;> omega

theorem empty_iff (b : Buffer T S) : b.empty = true ↔ b.contents = [] := by
  have := b.held_spec; have := b.head_lt; have := b.tail_lt
  simp only [empty, beq_iff_eq, contents, List.map_eq_nil_iff, List.range_eq_nil]
  omega

theorem full_iff (b : Buffer T S) (hS : S < 2 ^ 32) : b.full = true ↔ b.held = S - 1 := by
  have := b.held_spec; have := b.head_lt; have := b.tail_lt; have := advance_spec hS b.tail_lt
  simp only [full, beq_iff_eq]
  omega

/-- With fewer than `S - 1` items held, `push` appends its item and returns true. -/
theorem push_of_lt (b : Buffer T S) (hS : S < 2 ^ 32) (h : b.held < S - 1) (item : T) :
    (b.push item).2 = true ∧ (b.push item).1.contents = b.contents ++ [item] := by
  have hlt : b.held < S := by omega
  have hne : advance S b.tail ≠ b.head := by
    have := b.held_spec; have := b.head_lt; have := b.tail_lt; have := advance_spec hS b.tail_lt
    omega
  simp only [push, hne, if_false, true_and]
  set b' : Buffer T S := ⟨b.head, advance S b.tail, Function.update b.data ⟨b.tail, b.tail_lt⟩ item,
    b.head_lt, advance_lt b.tail_lt⟩
  have hheld : b'.held = b.held + 1 := by
    have := b'.held_spec; have := b.held_spec; have := b.head_lt; have := b.tail_lt
    have := advance_spec hS b.tail_lt
    have : b'.head = b.head := rfl
    have : b'.tail = advance S b.tail := rfl
    omega
  have hslot : ∀ k, b'.slot k = b.slot k := fun _ => rfl
  simp only [contents, hheld, List.range_succ, List.map_append, List.map_singleton, hslot]
  congr 1
  · refine List.map_congr_left fun k hk => Function.update_noteq (fun e => ?_) _ _
    rw [List.mem_range] at hk
    exact hk.ne ((b.slot_eq_tail_iff hk.le hlt).1 (congrArg Fin.val e))
  · rw [Function.update_apply, if_pos (Fin.ext ?_)]
    exact (b.slot_eq_tail_iff le_rfl hlt).2 rfl

/-- With `S - 1` items held, `push` fails and changes nothing. -/
theorem push_of_full (b : Buffer T S) (hS : S < 2 ^ 32) (h : b.held = S - 1) (item : T) :
    b.push item = (b, false) := by
  have := b.held_spec; have := b.head_lt; have := b.tail_lt; have := advance_spec hS b.tail_lt
  have he : advance S b.tail = b.head := by omega
  simp [push, he]

/-- On a buffer holding items, `pull` delivers the oldest one and leaves the object as it
found it. -/
theorem pull_of_ne_nil (b : Buffer T S) (h : b.contents ≠ []) :
    b.pull = (b, true, b.contents.head?) := by
  have hne : b.head ≠ b.tail := fun e => h ((b.empty_iff).mp (by simp [empty, e]))
  obtain ⟨k, hk⟩ := Nat.exists_eq_succ_of_ne_zero (n := b.held) fun h0 => h (by simp [contents, h0])
  have hhead : b.contents.head? = some (b.data (b.slot 0)) := by
    simp [contents, hk, List.range_succ_eq_map]
  have hslot : b.slot 0 = ⟨b.head, b.head_lt⟩ := Fin.ext (by simp [slot, Nat.mod_eq_of_lt b.head_lt])
  rw [hhead, hslot]
  simp only [pull, hne, if_false]

/-! ## Runs -/

/-- A call on a `buffer_t`: `push(item)` or `operator<=`, `pull(item)`, or `pop()` or
`operator*`. -/
inductive Call (T : Type) where
  | push (item : T)
  | pull
  | pop

/-- The object after one call; `ofUnsigned` converts the `unsigned` that `pop` returns. -/
def next (ofUnsigned : Nat → T) (b : Buffer T S) : Call T → Buffer T S
  | .push item => (b.push item).1
  | .pull => b.pull.1
  | .pop => (b.pop ofUnsigned).1

/-- The object after the calls, in order. -/
def run (ofUnsigned : Nat → T) (b : Buffer T S) (cs : List (Call T)) : Buffer T S :=
  cs.foldl (next ofUnsigned) b

/-- The items of the calls to `push`, in order. -/
def pushed : List (Call T) → List T :=
  List.filterMap fun
    | .push item => some item
    | _ => none

theorem length_contents (b : Buffer T S) : b.contents.length = b.held := by
  simp [contents]

theorem held_le (b : Buffer T S) : b.held ≤ S - 1 := by
  have := Nat.mod_lt (b.tail + S - b.head) (Nat.lt_of_le_of_lt (Nat.zero_le _) b.head_lt)
  simp only [held]
  omega

/-- Over any run the buffer holds its items and then the pushed ones, up to its capacity
`S - 1`: `push` appends while there is room, and no call ever removes an item. -/
theorem run_contents (ofUnsigned : Nat → T) (hS : S < 2 ^ 32) (cs : List (Call T)) :
    ∀ b : Buffer T S, (b.run ofUnsigned cs).contents = (b.contents ++ pushed cs).take (S - 1) := by
  induction cs with
  | nil =>
    intro b
    rw [pushed, List.filterMap_nil, List.append_nil, List.take_of_length_le]
    · rfl
    · rw [length_contents]; exact b.held_le
  | cons c cs ih =>
    intro b
    rw [run, List.foldl_cons, ← run, ih]
    cases c with
    | push item =>
      have hp : pushed (.push item :: cs) = item :: pushed cs := rfl
      rw [hp]
      by_cases h : b.held < S - 1
      · rw [next, (b.push_of_lt hS h item).2, List.append_assoc, List.singleton_append]
      · have hfull : b.held = S - 1 := by have := b.held_le; omega
        rw [next, b.push_of_full hS hfull, List.take_left' (by rw [length_contents, hfull]),
          List.take_left' (by rw [length_contents, hfull])]
    | pull => rw [next, pull_state]; rfl
    | pop => rw [next, pop_state]; rfl

/-- From a fresh buffer, after any run, `pull` delivers the first item ever pushed and
returns true: items are never consumed. -/
theorem pull_run_init (ofUnsigned : Nat → T) (hS : 2 < S ∧ S < 2 ^ 32) (data : Fin S → T)
    (cs : List (Call T)) (hp : pushed cs ≠ []) :
    ((init (by omega) data).run ofUnsigned cs).pull.2 = (true, (pushed cs).head?) := by
  have hc := run_contents ofUnsigned hS.2 cs (init (by omega) data)
  have hinit : (init (S := S) (by omega) data).contents = [] := by simp [contents, held, init]
  rw [hinit, List.nil_append] at hc
  obtain ⟨x, xs, hx⟩ := List.exists_cons_of_ne_nil hp
  have hne : ((init (by omega) data).run ofUnsigned cs).contents ≠ [] := by
    rw [hc, hx, List.take_cons (by omega)]; exact List.cons_ne_nil _ _
  rw [pull_of_ne_nil _ hne, hc, hx, List.take_cons (by omega)]
  rfl

/-- A `buffer_t<int, 3>` after `push(5)`: two `pull`s both deliver 5, the buffer is still not
empty, and `pop()` returns 1, the advanced head index. For every buffer: over any run it holds
its items and then the pushed ones, cut at `S - 1`; `pull` delivers the oldest item and leaves
the buffer as it was, so from a fresh buffer it always delivers the first item ever pushed;
`pop` returns the advanced head index; `empty()` and `full()` report the queue. -/
theorem buffer_pull_delivers_twice :
    ((init (by norm_num) fun _ : Fin 3 => (0 : Int)).push 5).1.pull.2 = (true, some 5) ∧
      ((init (by norm_num) fun _ : Fin 3 => (0 : Int)).push 5).1.pull.1.pull.2 = (true, some 5) ∧
      ((init (by norm_num) fun _ : Fin 3 => (0 : Int)).push 5).1.pull.1.pull.1.empty = false ∧
      (((init (by norm_num) fun _ : Fin 3 => (0 : Int)).push 5).1.pop Int.ofNat).2 = some 1 ∧
      (∀ {T : Type} {S : Nat} (ofUnsigned : Nat → T), S < 2 ^ 32 → ∀ (cs : List (Call T))
        (b : Buffer T S), (b.run ofUnsigned cs).contents = (b.contents ++ pushed cs).take (S - 1)) ∧
      (∀ {T : Type} {S : Nat} (b : Buffer T S), b.contents ≠ [] →
        b.pull = (b, true, b.contents.head?)) ∧
      (∀ {T : Type} {S : Nat} (ofUnsigned : Nat → T) (hS : 2 < S ∧ S < 2 ^ 32) (data : Fin S → T)
        (cs : List (Call T)), pushed cs ≠ [] →
        ((init (by omega) data).run ofUnsigned cs).pull.2 = (true, (pushed cs).head?)) ∧
      (∀ {T : Type} {S : Nat} (ofUnsigned : Nat → T) (b : Buffer T S), b.head ≠ b.tail →
        (b.pop ofUnsigned).2 = some (ofUnsigned (advance S b.head))) ∧
      ∀ {T : Type} {S : Nat} (b : Buffer T S), (b.empty = true ↔ b.contents = []) ∧
        (S < 2 ^ 32 → (b.full = true ↔ b.held = S - 1)) :=
  ⟨by decide, by decide, by decide, by decide,
    fun ofUnsigned hS => run_contents ofUnsigned hS, pull_of_ne_nil,
    fun ofUnsigned hS data cs hp => pull_run_init ofUnsigned hS data cs hp, pop_value,
    fun b => ⟨b.empty_iff, b.full_iff⟩⟩

end Buffer

end ModernCli
