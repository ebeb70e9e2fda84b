import Mathlib
import ModernCli.Dictionary.Heap

/-!
# `dictionary_t`, one call at a time

The operations of `tycho::atomic::dictionary_t<K, V, S>` (`atomics.hpp`) as a single thread
runs them. A `Dict` is one object, its bucket heads `table_` and its counter `count_`, with
the heap its nodes live in. The key's bucket is `key_index`: `std::hash<K>()(key) % S`, with
`Hashable.hash` as `std::hash<K>` and `DecidableEq` as the key's `==`.

The loops that follow a chain (`Heap.scan`, `Heap.scanPrev`, `Heap.walk`,
`Memory.freeChain`) stop at `nullptr` as the source does; they also take a step bound, and
every call passes the number of addresses handed out, which no chain in memory exceeds
(`Memory.length_le_of_chain`).

`new` is an allocator that hands out `Memory.next`, an address no node has used.
Run alone, the compare-and-swap loop of `insert` and `emplace` ends at its first successful
`compare_exchange_weak`, and a spurious failure only repeats the loop, so the call links the
new node before the old head. `count_` is a `std::size_t`; it is an integer here, which a
single thread never takes below zero.
-/

namespace ModernCli

variable {K V : Type}

namespace Heap

/-- The loop of `find`, `contains`, `at`, `insert_or_assign` and `try_emplace`: from
`current`, the first node whose key equals `key`, with its address. -/
def scan [DecidableEq K] (h : Heap K V) (key : K) : Nat → Option Nat → Option (Nat × Node K V)
  | 0, _ => none
  | _ + 1, none => none
  | fuel + 1, some a =>
    match h a with
    | none => none
    | some n => if n.key = key then some (a, n) else h.scan key fuel n.next

/-- The loop of `remove`: the first node from `current` whose key equals `key`, with the
trailing pointer `prev` to the node before it. -/
def scanPrev [DecidableEq K] (h : Heap K V) (key : K) :
    Nat → Option Nat → Option Nat → Option (Option Nat × Nat × Node K V)
  | 0, _, _ => none
  | _ + 1, _, none => none
  | fuel + 1, prev, some a =>
    match h a with
    | none => none
    | some n => if n.key = key then some (prev, a, n) else h.scanPrev key fuel (some a) n.next

/-- The loop of `keys` and `each`: the nodes from `current` on, in chain order. -/
def walk (h : Heap K V) : Nat → Option Nat → List (Node K V)
  | 0, _ => []
  | _ + 1, none => []
  | fuel + 1, some a =>
    match h a with
    | none => []
    | some n => n :: h.walk fuel n.next

end Heap

/-- The inner loop of `clear`: delete every node from `current` on. -/
def Memory.freeChain (m : Memory K V) : Nat → Option Nat → Memory K V
  | 0, _ => m
  | _ + 1, none => m
  | fuel + 1, some a =>
    match m.heap a with
    | none => m
    | some n => (m.free a).freeChain fuel n.next

/-- `key_index`: `std::hash<K>()(key) % S`. -/
def keyIndex [Hashable K] (S : Nat) [NeZero S] (key : K) : Fin S :=
  Fin.ofNat' S (hash key).toNat

/-- A `dictionary_t<K, V, S>` object: the bucket heads `table_` and the counter `count_`,
with the heap its nodes live in. -/
structure Dict (K V : Type) (S : Nat) where
  mem : Memory K V
  table : Fin S → Option Nat
  count : Int

namespace Dict

variable [DecidableEq K] [Hashable K] {S : Nat} [NeZero S]

/-- `dictionary_t()`: every bucket `nullptr` and `count_` zero, over the memory `mem`. -/
def init (mem : Memory K V) : Dict K V S := ⟨mem, fun _ => none, 0⟩

/-- `clear()`: each bucket in turn is swapped to `nullptr` and its detached chain deleted;
then `count_` is stored 0. -/
def clear (d : Dict K V S) : Dict K V S :=
  ⟨(List.finRange S).foldl (fun m i => m.freeChain m.next (d.table i)) d.mem, fun _ => none, 0⟩

/-- `insert(key, value)`: `new node(key, value)`, its `next` stored the bucket head, and the
bucket head swapped to it; then `count_` is incremented. -/
def insert (d : Dict K V S) (key : K) (value : V) : Dict K V S × Bool :=
  let index := keyIndex S key
  let made := d.mem.next
  let mem := (d.mem.allocAt made ⟨key, value, none⟩).modify made fun n => { n with next := d.table index }
  (⟨mem, Function.update d.table index (some made), d.count + 1⟩, true)

/-- `emplace(key, value)`: the compare-and-swap prepend of `insert`; it moves the key and
value into the node where `insert` copies them. -/
def emplace (d : Dict K V S) (key : K) (value : V) : Dict K V S × Bool := d.insert key value

/-- `insert_or_assign(key, value)`: a `new node` that both paths delete again; if the bucket
holds a node with key `key`, the first one gets `value`, and otherwise the call is
`insert(key, value)`. -/
def insertOrAssign (d : Dict K V S) (key : K) (value : V) : Dict K V S × Bool :=
  let made := d.mem.next
  let mem := d.mem.allocAt made ⟨key, value, none⟩
  match mem.heap.scan key mem.next (d.table (keyIndex S key)) with
  | some (a, _) =>
    (⟨(mem.modify a fun n => { n with value := value }).free made, d.table, d.count⟩, true)
  | none => (((⟨mem.free made, d.table, d.count⟩ : Dict K V S).insert key value).1, true)

/-- `try_emplace(key, value)`: `new node(std::move(key), std::move(value))` leaves the
caller's `key` moved-from, `moved key`, and the bucket scan compares the nodes' keys with
that. On a match the node is deleted and the call returns false; otherwise `emplace` moves
the key and value out of `made` into a new node, and `made` is deleted. -/
def tryEmplace (moved : K → K) (d : Dict K V S) (key : K) (value : V) : Dict K V S × Bool :=
  let made := d.mem.next
  let mem := d.mem.allocAt made ⟨key, value, none⟩
  match mem.heap.scan (moved key) mem.next (d.table (keyIndex S key)) with
  | some _ => (⟨mem.free made, d.table, d.count⟩, false)
  | none =>
    let d' := ((⟨mem, d.table, d.count⟩ : Dict K V S).emplace key value).1
    (⟨d'.mem.free made, d'.table, d'.count⟩, true)

/-- `find(key)`: the value of the first node of the key's bucket whose key equals `key`. -/
def find (d : Dict K V S) (key : K) : Option V :=
  (d.mem.heap.scan key d.mem.next (d.table (keyIndex S key))).map fun x => x.2.value

/-- `contains(key)`: the scan of `find` found a node. -/
def contains (d : Dict K V S) (key : K) : Bool :=
  (d.mem.heap.scan key d.mem.next (d.table (keyIndex S key))).isSome

/-- `remove(key)`: the scan with a trailing `prev`; on a match the node's `next` is stored
into `prev->next`, or into the bucket head when `prev` is `nullptr`, the node is deleted and
`count_` decremented. -/
def remove (d : Dict K V S) (key : K) : Dict K V S × Bool :=
  match d.mem.heap.scanPrev key d.mem.next none (d.table (keyIndex S key)) with
  | none => (d, false)
  | some (some q, a, n) =>
    (⟨(d.mem.modify q fun p => { p with next := n.next }).free a, d.table, d.count - 1⟩, true)
  | some (none, a, n) =>
    (⟨d.mem.free a, Function.update d.table (keyIndex S key) n.next, d.count - 1⟩, true)

/-- `empty()`: `count_ == 0`. -/
def empty (d : Dict K V S) : Bool := d.count == 0

/-- `size()`: `count_`. -/
def size (d : Dict K V S) : Int := d.count

/-- The calls `each(func)` makes, in order: every node's key and value, bucket by bucket,
each chain from its head. -/
def each (d : Dict K V S) : List (K × V) :=
  (List.finRange S).flatMap fun i => (d.mem.heap.walk d.mem.next (d.table i)).map fun n => (n.key, n.value)

/-- `keys()`: every node's key, in the order of `each`. -/
def keys (d : Dict K V S) : List K :=
  (List.finRange S).flatMap fun i => (d.mem.heap.walk d.mem.next (d.table i)).map Node.key

end Dict

/-- `at(key)`: the value `find` returns, or `std::out_of_range("Key not in dictionary")`. -/
def Dict.at [DecidableEq K] [Hashable K] {S : Nat} [NeZero S] (d : Dict K V S) (key : K) :
    Except String V :=
  match d.mem.heap.scan key d.mem.next (d.table (keyIndex S key)) with
  | some (_, n) => .ok n.value
  | none => .error "Key not in dictionary"

end ModernCli
