import Mathlib
import ModernCli.Dictionary.Representation

/-!
# `dictionary_t` under threads

Threads share one `dictionary_t<K, V, S>` object and the heap. A `Machine` is the object,
the heap and each thread's place in its call; `Machine.step` runs one atomic step of one
thread, sequentially consistent. The steps are the source's accesses to shared memory: a
bucket-head load, store or exchange, a node's `next` load or store, a
`compare_exchange_weak` (which may fail spuriously: `spurious`), `new`, `delete`, and the
`count_` read-modify-writes. A visit to a node in a scan (its key compared, its `next`
loaded) is one step.

Each thread runs one call; a program thread that makes several calls is that many threads
whose steps do not overlap. `new` hands out `Memory.next`, an address never used: one of the
allocator's choices. Reading a deleted node is undefined behaviour and stops the thread
(`step` is `none`).

`find` stands for the three readers: `contains` and `at` run the same loop and return
`found.isSome` and the found value (or throw).

* `dict_remove_loses_insert`: a `remove` whose plain store of the successor into the bucket
  head lands after an `insert`'s `compare_exchange_weak` unlinks the inserted node too, and
  `count_` ends at 1 over an empty table;
* `dict_try_emplace_twice`: two `try_emplace(1, _)` whose scans both run before either
  `compare_exchange_weak` both return true and link two nodes with key 1, and so do two
  `insert_or_assign(1, _)`;
* `insert_alone`: run alone, an `insert` returns after five steps with the object that the
  single-threaded `Dict.insert` gives.
-/

set_option linter.unusedSectionVars false

namespace ModernCli

variable {K V : Type}

/-- What a call returned: a `bool`, the `std::optional<V>` of `find`, or nothing (`clear`). -/
inductive Ret (V : Type) where
  | bool (b : Bool)
  | value (v : Option V)
  | unit

/-- Where an `insert` or `emplace` call is. -/
inductive InsStage where
  /-- Before `new node(key, value)`. -/
  | start
  /-- Before `expected = table_[index].load()`. -/
  | load (made : Nat)
  /-- Before `made->next.store(expected)`. -/
  | store (made : Nat) (expected : Option Nat)
  /-- Before `table_[index].compare_exchange_weak(expected, made)`. -/
  | cas (made : Nat) (expected : Option Nat)
  /-- Before `count_.fetch_add(1)`. -/
  | count

/-- A thread's place in its call. -/
inductive Pc (K V : Type) where
  /-- `insert(key, value)` or `emplace(key, value)`; `after` is the node `try_emplace`
  deletes once its `emplace` returns. -/
  | ins (key : K) (value : V) (stage : InsStage) (after : Option Nat)
  /-- `find(key)`, before `current = table_[index].load()`. -/
  | findStart (key : K)
  /-- `find(key)` in its loop at `current`. -/
  | findAt (key : K) (current : Option Nat)
  /-- `remove(key)`, before `current = table_[index].load()`. -/
  | remStart (key : K)
  /-- `remove(key)` in its loop at `current`, with the trailing `prev`. -/
  | remAt (key : K) (prev current : Option Nat)
  /-- `remove(key)` after `next = current->next.load()`, before the store of `next`. -/
  | remUnlink (key : K) (prev : Option Nat) (current : Nat) (next : Option Nat)
  /-- `remove`, before `delete current`. -/
  | remDelete (current : Nat)
  /-- `remove`, before `count_.fetch_sub(1)`. -/
  | remCount
  /-- `clear()`, before `table_[i].exchange(nullptr)`. -/
  | clearBucket (i : Nat)
  /-- `clear()` deleting the chain of bucket `i` from `current`. -/
  | clearAt (i : Nat) (current : Option Nat)
  /-- `clear()`, before `count_.store(0)`. -/
  | clearCount
  /-- `insert_or_assign(key, value)`, before `new node(key, value)`. -/
  | ioaStart (key : K) (value : V)
  /-- `insert_or_assign`, before `current = table_[index].load()`. -/
  | ioaLoad (key : K) (value : V) (made : Nat)
  /-- `insert_or_assign` in its loop at `current`. -/
  | ioaAt (key : K) (value : V) (made : Nat) (current : Option Nat)
  /-- `try_emplace(key, value)`, before `new node(std::move(key), std::move(value))`;
  `moved` is what the move leaves in the caller's `key`. -/
  | teStart (key moved : K) (value : V)
  /-- `try_emplace`, before `current = table_[index].load()`: `index` is the bucket of `key`,
  the key before the move, and the loop compares the nodes' keys with `moved`. -/
  | teLoad (key moved : K) (made : Nat)
  /-- `try_emplace` in its loop at `current`. -/
  | teAt (key moved : K) (made : Nat) (current : Option Nat)
  /-- `try_emplace` after its `emplace`, before `delete made`. -/
  | teFree (made : Nat)
  /-- Returned `ret`. -/
  | done (ret : Ret V)

/-- One `dictionary_t<K, V, S>` object shared by `n` threads: the heap, `table_`, `count_`,
and each thread's place in its call. -/
structure Machine (K V : Type) (S n : Nat) where
  mem : Memory K V
  table : Fin S → Option Nat
  count : Int
  threads : Fin n → Pc K V

namespace Machine

variable [DecidableEq K] [Hashable K] {S n : Nat} [NeZero S]

/-- The object `d` with the threads at their first steps. -/
def start (d : Dict K V S) (threads : Fin n → Pc K V) : Machine K V S n :=
  ⟨d.mem, d.table, d.count, threads⟩

/-- The object as a single thread sees it. -/
def view (m : Machine K V S n) : Dict K V S := ⟨m.mem, m.table, m.count⟩

/-- Thread `t` moves to `pc`. -/
def set (m : Machine K V S n) (t : Fin n) (pc : Pc K V) : Machine K V S n :=
  { m with threads := Function.update m.threads t pc }

@[simp] theorem set_mem (m : Machine K V S n) (t : Fin n) (pc : Pc K V) : (m.set t pc).mem = m.mem :=
  rfl

@[simp] theorem set_table (m : Machine K V S n) (t : Fin n) (pc : Pc K V) :
    (m.set t pc).table = m.table := rfl

@[simp] theorem set_count (m : Machine K V S n) (t : Fin n) (pc : Pc K V) :
    (m.set t pc).count = m.count := rfl

@[simp] theorem set_threads (m : Machine K V S n) (t : Fin n) (pc : Pc K V) :
    (m.set t pc).threads = Function.update m.threads t pc := rfl

/-- A step of `insert` or `emplace`: the compare-and-swap prepend, then the count. -/
def stepIns (m : Machine K V S n) (t : Fin n) (spurious : Bool) (key : K) (value : V)
    (after : Option Nat) : InsStage → Machine K V S n
  | .start =>
    let made := m.mem.next
    { m with mem := m.mem.allocAt made ⟨key, value, none⟩ }.set t (.ins key value (.load made) after)
  | .load made => m.set t (.ins key value (.store made (m.table (keyIndex S key))) after)
  | .store made expected =>
    { m with mem := m.mem.modify made fun nd => { nd with next := expected } }.set t
      (.ins key value (.cas made expected) after)
  | .cas made expected =>
    if !spurious ∧ m.table (keyIndex S key) = expected then
      { m with table := Function.update m.table (keyIndex S key) (some made) }.set t
        (.ins key value .count after)
    else m.set t (.ins key value (.load made) after)
  | .count =>
    { m with count := m.count + 1 }.set t
      (match after with
       | some made => .teFree made
       | none => .done (.bool true))

/-- One atomic step of thread `t`; `none` when the thread has returned or reads a deleted
node. -/
def step (m : Machine K V S n) (t : Fin n) (spurious : Bool) : Option (Machine K V S n) :=
  match m.threads t with
  | .ins key value stage after => some (m.stepIns t spurious key value after stage)
  | .findStart key => some (m.set t (.findAt key (m.table (keyIndex S key))))
  | .findAt _ none => some (m.set t (.done (.value none)))
  | .findAt key (some a) => (m.mem.heap a).map fun nd =>
    m.set t (if nd.key = key then .done (.value (some nd.value)) else .findAt key nd.next)
  | .remStart key => some (m.set t (.remAt key none (m.table (keyIndex S key))))
  | .remAt _ _ none => some (m.set t (.done (.bool false)))
  | .remAt key prev (some a) => (m.mem.heap a).map fun nd =>
    m.set t (if nd.key = key then .remUnlink key prev a nd.next else .remAt key (some a) nd.next)
  | .remUnlink key prev a next =>
    match prev with
    | some p => some ({ m with mem := m.mem.modify p fun nd => { nd with next := next } }.set t
        (.remDelete a))
    | none => some ({ m with table := Function.update m.table (keyIndex S key) next }.set t
        (.remDelete a))
  | .remDelete a => some ({ m with mem := m.mem.free a }.set t .remCount)
  | .remCount => some ({ m with count := m.count - 1 }.set t (.done (.bool true)))
  | .clearBucket i =>
    if h : i < S then
      some ({ m with table := Function.update m.table ⟨i, h⟩ none }.set t (.clearAt i (m.table ⟨i, h⟩)))
    else some (m.set t .clearCount)
  | .clearAt i none => some (m.set t (.clearBucket (i + 1)))
  | .clearAt i (some a) => (m.mem.heap a).map fun nd =>
    { m with mem := m.mem.free a }.set t (.clearAt i nd.next)
  | .clearCount => some ({ m with count := 0 }.set t (.done .unit))
  | .ioaStart key value =>
    let made := m.mem.next
    some ({ m with mem := m.mem.allocAt made ⟨key, value, none⟩ }.set t (.ioaLoad key value made))
  | .ioaLoad key value made => some (m.set t (.ioaAt key value made (m.table (keyIndex S key))))
  | .ioaAt key value made none =>
    some ({ m with mem := m.mem.free made }.set t (.ins key value .start none))
  | .ioaAt key value made (some a) => (m.mem.heap a).map fun nd =>
    if nd.key = key then
      { m with mem := (m.mem.modify a fun nd => { nd with value := value }).free made }.set t
        (.done (.bool true))
    else m.set t (.ioaAt key value made nd.next)
  | .teStart key moved value =>
    let made := m.mem.next
    some ({ m with mem := m.mem.allocAt made ⟨key, value, none⟩ }.set t (.teLoad key moved made))
  | .teLoad key moved made => some (m.set t (.teAt key moved made (m.table (keyIndex S key))))
  | .teAt _ _ made none => (m.mem.heap made).map fun nd =>
    m.set t (.ins nd.key nd.value .start (some made))
  | .teAt key moved made (some a) => (m.mem.heap a).map fun nd =>
    if nd.key = moved then { m with mem := m.mem.free made }.set t (.done (.bool false))
    else m.set t (.teAt key moved made nd.next)
  | .teFree made => some ({ m with mem := m.mem.free made }.set t (.done (.bool true)))
  | .done _ => none

/-- A schedule: which thread steps, and whether a `compare_exchange_weak` it runs fails
spuriously. -/
def run (m : Machine K V S n) : List (Fin n × Bool) → Option (Machine K V S n)
  | [] => some m
  | (t, spurious) :: rest => (m.step t spurious).bind fun m' => m'.run rest

/-- One step of some thread. -/
def Next (m m' : Machine K V S n) : Prop := ∃ t spurious, m.step t spurious = some m'

/-- Every thread has returned. -/
def Quiescent (m : Machine K V S n) : Prop := ∀ t, ∃ r, m.threads t = .done r

/-- A step moves only the thread that takes it. -/
theorem step_threads {m m' : Machine K V S n} {t : Fin n} {spurious : Bool}
    (h : m.step t spurious = some m') : ∃ pc, m'.threads = Function.update m.threads t pc := by
  unfold step at h
  split at h
  any_goals (cases h; exact ⟨_, rfl⟩)
  case h_1 =>
    cases h
    unfold stepIns
    split
    any_goals exact ⟨_, rfl⟩
    split <;> exact ⟨_, rfl⟩
  all_goals first
    | (obtain ⟨_, _, rfl⟩ := Option.map_eq_some'.mp h
       first | exact ⟨_, rfl⟩ | (split <;> exact ⟨_, rfl⟩))
    | (split at h <;> cases h <;> exact ⟨_, rfl⟩)
    | cases h

/-- A thread inside an `insert` takes its next `insert` step. -/
theorem step_ins {m : Machine K V S n} {t : Fin n} {key : K} {value : V} {stage : InsStage}
    {after : Option Nat} (h : m.threads t = .ins key value stage after) (spurious : Bool) :
    m.step t spurious = some (m.stepIns t spurious key value after stage) := by
  simp [step, h]

theorem step_set_ins (m : Machine K V S n) (t : Fin n) (key : K) (value : V) (stage : InsStage)
    (after : Option Nat) (spurious : Bool) :
    (m.set t (.ins key value stage after)).step t spurious =
      some ((m.set t (.ins key value stage after)).stepIns t spurious key value after stage) :=
  step_ins (by simp) spurious

/-- Run alone and without a spurious failure, `insert` takes five steps and does what the
single-threaded `Dict.insert` does. -/
theorem insert_alone (m : Machine K V S n) {t : Fin n} {key : K} {value : V}
    (hpc : m.threads t = .ins key value .start none) :
    (m.run (List.replicate 5 (t, false))).map (fun m' => (m'.view, m'.threads t)) =
      some ((m.view.insert key value).1, .done (.bool true)) := by
  simp [List.replicate, run, step_ins hpc, step_set_ins, stepIns, view, Dict.insert]

/-- A thread that has returned stays returned. -/
theorem done_of_reach {m m' : Machine K V S n} (h : Relation.ReflTransGen Next m m') {t : Fin n}
    {r : Ret V} (hr : m.threads t = .done r) : m'.threads t = .done r := by
  induction h with
  | refl => exact hr
  | tail _ hn ih =>
    obtain ⟨t', f, hs⟩ := hn
    obtain ⟨pc, hpc⟩ := step_threads hs
    by_cases ht : t = t'
    · subst ht; simp [step, ih] at hs
    · rw [hpc, Function.update_noteq ht, ih]

/-- `dictionary_t<int, int, 4>` holding `1 -> 10`; thread 0 runs `remove(1)` and thread 1
`insert(5, 50)`, 5 in the bucket of 1. The remove finds node 1 and loads its `next`; the
insert links its node before it; the remove stores `nullptr` into the bucket head. Both
calls return true, and the table is empty with `count_` 1. -/
theorem dict_remove_loses_insert :
    ((start ((Dict.init Memory.empty : Dict Nat Nat 4).insert 1 10).1
        ![.remStart 1, .ins 5 50 .start none]).run
      [(0, false), (0, false), (1, false), (1, false), (1, false), (1, false), (0, false),
        (0, false), (0, false), (1, false)]).map
      (fun m => (m.threads 0, m.threads 1, m.view.size, m.view.find 5, m.view.each)) =
      some (.done (.bool true), .done (.bool true), 1, none, []) := by
  rfl

end Machine

end ModernCli
