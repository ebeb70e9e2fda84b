import Mathlib
import ModernCli.Dictionary.Concurrent
import ModernCli.Dictionary.Refinement

/-!
# Concurrent `insert`, `emplace` and readers

Threads that run `insert` or `emplace` (`Machine.stepIns`) and readers that run `find` share
one object, in any interleaving. An `insert` makes its node privately, points it at the head
it loaded, and links it with `compare_exchange_weak`, which succeeds only if the head is
still that one; nothing else writes a linked node. So every bucket chain only grows at its
front, and a reader that loaded a head walks a chain no one changes.

`Machine.Inv` is what holds of every state such threads reach: the chains, the private node
of each running insert, the pairs the chains and the running inserts hold together, and
`count_` against the number of linked nodes. Its step lemma `Machine.Inv.step` also says
that the old chains are suffixes of the new ones, over the same nodes.

* `Machine.insert_find_safe`: from an object with the representation invariant, in every
  reachable state the chains are finite and acyclic and `count_` is the initial count plus
  the number of returned inserts; a chain only grows at its front; at quiescence the object
  has the representation invariant and `each` visits the initial pairs and the inserted
  ones; and every reader returns what `find` returns at some state between its first step
  and its return.
-/

set_option linter.unusedSectionVars false

namespace ModernCli

variable {K V : Type}

namespace Pc

/-- The node a running `insert` has made and not linked. -/
def made : Pc K V → Option Nat
  | .ins _ _ (.load a) _ | .ins _ _ (.store a _) _ | .ins _ _ (.cas a _) _ => some a
  | _ => none

/-- The pair a running `insert` still has to link. -/
def pending : Pc K V → Multiset (K × V)
  | .ins _ _ .count _ => 0
  | .ins key value _ _ => {(key, value)}
  | _ => 0

/-- 1 once an `insert` has linked its node. -/
def linked : Pc K V → Nat
  | .ins _ _ .count _ | .done (.bool true) => 1
  | _ => 0

/-- 1 once an `insert` has returned. -/
def inserted : Pc K V → Nat
  | .done (.bool true) => 1
  | _ => 0

/-- The first steps of the threads here: `insert` or `emplace`, and `find`. -/
def InsertOrFind : Pc K V → Prop
  | .ins _ _ .start none | .findStart _ => True
  | _ => False

theorem insertOrFind_iff {p : Pc K V} :
    p.InsertOrFind ↔ (∃ key value, p = .ins key value .start none) ∨ ∃ key, p = .findStart key := by
  unfold InsertOrFind
  split <;> simp_all

end Pc

namespace Machine

variable [DecidableEq K] [Hashable K] {S n : Nat} [NeZero S]

/-- What a thread's place says of the heap and the chains: a running `insert` owns a node no
chain holds, with its key and value, pointing at `expected` once it is stored; a reader in
its loop is on a suffix of its key's chain. -/
def ThreadOk (h : Heap K V) (addrs : Fin S → List Nat) : Pc K V → Prop
  | .ins key value stage after => after = none ∧ match stage with
    | .start | .count => True
    | .load made | .store made _ => (∃ nx, h made = some ⟨key, value, nx⟩) ∧ ∀ i, made ∉ addrs i
    | .cas made expected => h made = some ⟨key, value, expected⟩ ∧ ∀ i, made ∉ addrs i
  | .findStart _ => True
  | .findAt key current => ∃ l, Chain h current l ∧ l <:+ addrs (keyIndex S key)
  | .done (.bool b) => b = true
  | .done (.value _) => True
  | _ => False

/-- The invariant of inserts and readers, with `addrs i` the chain of bucket `i`: the chains
have the shape of `Dict.Inv`; the running inserts own distinct nodes; the chains' pairs and
the pairs still to link make up `E`; the chains hold `c` nodes and one per linked insert,
and `count_` is `c` and one per returned insert. -/
structure Inv (m : Machine K V S n) (E : Multiset (K × V)) (c : Int) (addrs : Fin S → List Nat) :
    Prop where
  chain : ∀ i, Chain m.mem.heap (m.table i) (addrs i)
  disjoint : ∀ i j, i ≠ j → ∀ a ∈ addrs i, a ∉ addrs j
  index : ∀ i, ∀ e ∈ m.mem.heap.entries (addrs i), keyIndex S e.1 = i
  thread : ∀ t, ThreadOk m.mem.heap addrs (m.threads t)
  made_inj : ∀ t t' a, (m.threads t).made = some a → (m.threads t').made = some a → t = t'
  entries : ∑ i, (m.mem.heap.entries (addrs i) : Multiset (K × V)) + ∑ t, (m.threads t).pending = E
  links : ((∑ i, (addrs i).length : Nat) : Int) = c + ∑ t, ((m.threads t).linked : Int)
  count : m.count = c + ∑ t, ((m.threads t).inserted : Int)

theorem ThreadOk.frame {h h' : Heap K V} {addrs addrs' : Fin S → List Nat} {pc : Pc K V}
    (hok : ThreadOk h addrs pc)
    (hh : ∀ a, ((∃ i, a ∈ addrs i) ∨ pc.made = some a) → h' a = h a)
    (hsuf : ∀ i, addrs i <:+ addrs' i) (hfresh : ∀ a, pc.made = some a → ∀ i, a ∉ addrs' i) :
    ThreadOk h' addrs' pc := by
  match pc, hok with
  | .ins _ _ .start _, hok | .ins _ _ .count _, hok => exact hok
  | .ins _ _ (.load a) _, ⟨hn, hv, _⟩ | .ins _ _ (.store a _) _, ⟨hn, hv, _⟩ =>
    exact ⟨hn, by rwa [hh a (.inr rfl)], hfresh a rfl⟩
  | .ins _ _ (.cas a _) _, ⟨hn, hv, _⟩ => exact ⟨hn, by rwa [hh a (.inr rfl)], hfresh a rfl⟩
  | .findStart _, hok => exact hok
  | .findAt key _, ⟨l, hl, hs⟩ =>
    refine ⟨l, hl.congr fun a ha => ?_, hs.trans (hsuf _)⟩
    simp only [Heap.nextAt, hh a (.inl ⟨_, hs.subset ha⟩)]
  | .done (.bool _), hok | .done (.value _), hok => exact hok

theorem sum_update_of_eq {M : Type} [AddCommMonoid M] (g : Fin n → Pc K V) {t : Fin n}
    {x : Pc K V} {f : Pc K V → M} (hf : f x = f (g t)) :
    ∑ t', f (Function.update g t x t') = ∑ t', f (g t') :=
  Finset.sum_congr rfl fun t' _ => by
    by_cases h : t' = t
    · subst h; simp [hf]
    · simp [Function.update_noteq h]

theorem ThreadOk.made_not_mem {h : Heap K V} {addrs : Fin S → List Nat} {pc : Pc K V}
    (hok : ThreadOk h addrs pc) {a : Nat} (ha : pc.made = some a) : (∃ b, h a = some b) ∧ ∀ i, a ∉ addrs i := by
  match pc, hok, ha with
  | .ins _ _ (.load _) _, ⟨_, ⟨_, hv⟩, hn⟩, rfl | .ins _ _ (.store _ _) _, ⟨_, ⟨_, hv⟩, hn⟩, rfl =>
    exact ⟨⟨_, hv⟩, hn⟩
  | .ins _ _ (.cas _ _) _, ⟨_, hv, hn⟩, rfl => exact ⟨⟨_, hv⟩, hn⟩

variable {m : Machine K V S n} {E : Multiset (K × V)} {c : Int} {addrs : Fin S → List Nat}

/-- Every address a chain or a running insert holds has been handed out. -/
theorem Inv.lt_next (hI : m.Inv E c addrs) {a : Nat}
    (ha : (∃ i, a ∈ addrs i) ∨ ∃ t, (m.threads t).made = some a) : a < m.mem.next := by
  apply m.mem.lt_next_of_isSome
  rcases ha with ⟨i, ha⟩ | ⟨t, ha⟩
  · exact (hI.chain i).isSome_of_mem ha
  · obtain ⟨⟨b, hb⟩, -⟩ := (hI.thread t).made_not_mem ha
    simp [hb]

/-- A step of thread `t` to `pc` that leaves the chains, the other threads' nodes and the
counters as they were (`count_` may grow by the inserts that return). -/
theorem Inv.frame (hI : m.Inv E c addrs) (m' : Machine K V S n) {t : Fin n} {pc : Pc K V}
    (ht : m'.table = m.table) (hth : m'.threads = Function.update m.threads t pc)
    (hh : ∀ a, ((∃ i, a ∈ addrs i) ∨ ∃ t', t' ≠ t ∧ (m.threads t').made = some a) →
      m'.mem.heap a = m.mem.heap a)
    (hok : ThreadOk m'.mem.heap addrs pc)
    (hinj : ∀ t' a, t' ≠ t → pc.made = some a → (m.threads t').made ≠ some a)
    (hp : pc.pending = (m.threads t).pending) (hl : pc.linked = (m.threads t).linked)
    (hc : m'.count + (m.threads t).inserted = m.count + pc.inserted) :
    m'.Inv E c addrs ∧ ∀ i, ∀ a ∈ addrs i, m'.mem.heap a = m.mem.heap a := by
  have hchain : ∀ i, ∀ a ∈ addrs i, m'.mem.heap a = m.mem.heap a := fun i a ha => hh a (.inl ⟨i, ha⟩)
  have hent : ∀ i, m'.mem.heap.entries (addrs i) = m.mem.heap.entries (addrs i) := fun i =>
    Heap.entries_congr fun a ha => by rw [hchain i a ha]
  refine ⟨⟨fun i => ?_, hI.disjoint, fun i => hent i ▸ hI.index i, fun t' => ?_,
    fun t₁ t₂ a h₁ h₂ => ?_, ?_, ?_, ?_⟩, hchain⟩
  · rw [ht]; exact (hI.chain i).congr fun a ha => by simp only [Heap.nextAt, hchain i a ha]
  · rw [hth]
    by_cases h : t' = t
    · subst h; simpa using hok
    · rw [Function.update_noteq h]
      exact (hI.thread t').frame (fun a ha => hh a (ha.imp_right fun hm => ⟨t', h, hm⟩))
        (fun _ => List.suffix_refl _) fun a hm => ((hI.thread t').made_not_mem hm).2
  · rw [hth] at h₁ h₂
    by_cases e₁ : t₁ = t <;> by_cases e₂ : t₂ = t
    · exact e₁.trans e₂.symm
    · subst e₁; simp only [Function.update_same, Function.update_noteq e₂] at h₁ h₂
      exact absurd h₂ (hinj t₂ a e₂ h₁)
    · subst e₂; simp only [Function.update_same, Function.update_noteq e₁] at h₁ h₂
      exact absurd h₁ (hinj t₁ a e₁ h₂)
    · simp only [Function.update_noteq e₁, Function.update_noteq e₂] at h₁ h₂
      exact hI.made_inj t₁ t₂ a h₁ h₂
  · simp only [hent, hth, sum_update_of_eq m.threads hp]; exact hI.entries
  · simp only [hth, sum_update_of_eq m.threads (t := t) (x := pc) (f := fun p => (p.linked : Int))
      (by simp only [hl])]
    exact hI.links
  · have := sum_comp_update m.threads t pc fun p => (p.inserted : Int)
    have := hI.count
    rw [hth]
    omega

/-! ## One step -/

section Steps

variable (hI : m.Inv E c addrs) {t : Fin n} {spurious : Bool} {key : K} {value : V}
include hI

/-- `new node(key, value)`: a node at a fresh address, owned by the thread. -/
theorem Inv.alloc (hpc : m.threads t = .ins key value .start none) :
    (m.stepIns t spurious key value none .start).Inv E c addrs ∧
      ∀ i, ∀ a ∈ addrs i, (m.stepIns t spurious key value none .start).mem.heap a = m.mem.heap a := by
  have hfresh : ∀ i, m.mem.next ∉ addrs i := fun i h => lt_irrefl _ (hI.lt_next (.inl ⟨i, h⟩))
  refine hI.frame _ rfl rfl (fun a ha => ?_) ⟨rfl, ⟨none, by simp [stepIns]⟩, hfresh⟩
    (fun t' a _ ha hm => ?_) (by rw [hpc]; rfl) (by rw [hpc]; rfl) (by rw [hpc]; rfl)
  · have := hI.lt_next (ha.imp_right fun ⟨t', _, hm⟩ => ⟨t', hm⟩)
    simp [stepIns, Function.update_noteq (ne_of_lt this)]
  · cases Option.some.inj ha
    exact lt_irrefl _ (hI.lt_next (.inr ⟨t', hm⟩))

/-- A step that keeps the thread's node and changes nothing shared. -/
theorem Inv.keep {pc₀ pc : Pc K V} (hpc : m.threads t = pc₀) (hok : ThreadOk m.mem.heap addrs pc)
    (hmade : pc.made = pc₀.made) (hp : pc.pending = pc₀.pending) (hl : pc.linked = pc₀.linked)
    (hins : pc.inserted = pc₀.inserted) : (m.set t pc).Inv E c addrs := by
  subst hpc
  exact (hI.frame (m.set t pc) rfl rfl (fun _ _ => rfl) hok
    (fun t' a ht' ha hm => ht' (hI.made_inj t' t a hm (hmade ▸ ha))) hp hl (by simp [hins])).1

/-- `made->next.store(expected)` writes the thread's own node. -/
theorem Inv.store {made : Nat} {expected : Option Nat}
    (hpc : m.threads t = .ins key value (.store made expected) none) :
    (m.stepIns t spurious key value none (.store made expected)).Inv E c addrs ∧
      ∀ i, ∀ a ∈ addrs i,
        (m.stepIns t spurious key value none (.store made expected)).mem.heap a = m.mem.heap a := by
  have hok := hI.thread t
  rw [hpc] at hok
  obtain ⟨-, ⟨nx, hv⟩, hn⟩ := hok
  refine hI.frame _ rfl rfl (fun a ha => ?_) ⟨rfl, by simp [stepIns, hv], hn⟩
    (fun t' a ht' ha hm => ht' (hI.made_inj t' t a hm (by rw [hpc]; exact ha)))
    (by rw [hpc]; rfl) (by rw [hpc]; rfl) (by rw [hpc]; rfl)
  have hne : a ≠ made := by
    rintro rfl
    rcases ha with ⟨i, hi⟩ | ⟨t', ht', hm⟩
    · exact hn i hi
    · exact ht' (hI.made_inj t' t a hm (by rw [hpc]; rfl))
  simp [stepIns, Function.update_noteq hne]

/-- `count_.fetch_add(1)`: the insert returns. -/
theorem Inv.count_add (hpc : m.threads t = .ins key value .count none) :
    (m.stepIns t spurious key value none .count).Inv E c addrs := by
  refine (hI.frame (m.stepIns t spurious key value none .count) rfl rfl (fun _ _ => rfl) rfl
    (fun _ _ _ ha => ?_) (by rw [hpc]; rfl)
    (by rw [hpc]; rfl) (by rw [hpc]; simp [stepIns, Pc.inserted])).1
  cases ha

/-- A successful `compare_exchange_weak`: the thread's node heads its bucket, in front of the
chain it was pointed at. -/
theorem Inv.link {made : Nat} {expected : Option Nat}
    (hpc : m.threads t = .ins key value (.cas made expected) none)
    (he : m.table (keyIndex S key) = expected) :
    ({ m with table := Function.update m.table (keyIndex S key) (some made) }.set t
      (.ins key value .count none)).Inv E c
      (Function.update addrs (keyIndex S key) (made :: addrs (keyIndex S key))) := by
  have hok := hI.thread t
  rw [hpc] at hok
  obtain ⟨-, hv, hn⟩ := hok
  set idx := keyIndex S key
  constructor
  · exact chain_prepend hv hI.chain he.symm
  · exact disjoint_prepend hI.disjoint hn
  · exact index_prepend hv rfl hI.index
  · intro t'
    simp only [set_mem, set_threads]
    by_cases h : t' = t
    · subst h; simp only [Function.update_same]; exact ⟨rfl, trivial⟩
    · rw [Function.update_noteq h]
      refine (hI.thread t').frame (fun _ _ => rfl) suffix_prepend fun a hm i => ?_
      have hne : a ≠ made := fun e => h (hI.made_inj t' t a hm (by rw [hpc, e]; rfl))
      rw [mem_prepend, not_or]
      exact ⟨fun ha => hne ha.2, ((hI.thread t').made_not_mem hm).2 i⟩
  · intro t₁ t₂ a h₁ h₂
    simp only [set_threads, Function.update_apply] at h₁ h₂
    split_ifs at h₁ h₂ <;> first | rfl | cases h₁ | cases h₂ | exact hI.made_inj t₁ t₂ a h₁ h₂
  · have h1 : ∑ t', (Function.update m.threads t (.ins key value .count none) t').pending +
        {(key, value)} = ∑ t', (m.threads t').pending + 0 := by
      have := sum_comp_update m.threads t (.ins key value .count none) Pc.pending
      rwa [hpc] at this
    rw [add_zero] at h1
    simp only [set_mem, set_threads, sum_entries_prepend hv, ← hI.entries, ← h1]
    abel
  · have h3 : ∑ i, (Function.update addrs idx (made :: addrs idx) i).length =
        ∑ i, (addrs i).length + 1 := sum_length_prepend
    have h4 : ∑ t', ((Function.update m.threads t (.ins key value .count none) t').linked : Int) +
        0 = ∑ t', ((m.threads t').linked : Int) + 1 := by
      have := sum_comp_update m.threads t (.ins key value .count none) fun p => (p.linked : Int)
      rwa [hpc] at this
    have := hI.links
    simp only [set_threads]
    omega
  · simp only [set_count, set_threads]
    rw [sum_update_of_eq m.threads (t := t) (x := .ins key value .count none)
      (f := fun p => (p.inserted : Int)) (by rw [hpc]; rfl)]
    exact hI.count

end Steps

/-- One step of any thread keeps the invariant, and the chains before it are suffixes of the
chains after it, over nodes it does not write. -/
theorem Inv.step (hI : m.Inv E c addrs) {t : Fin n} {spurious : Bool} {m' : Machine K V S n}
    (hs : m.step t spurious = some m') :
    ∃ addrs', m'.Inv E c addrs' ∧ (∀ i, addrs i <:+ addrs' i) ∧
      ∀ i, ∀ a ∈ addrs i, m'.mem.heap a = m.mem.heap a := by
  have hok := hI.thread t
  have same : ∀ {pc : Pc K V}, (m.set t pc).Inv E c addrs →
      ∃ addrs', (m.set t pc).Inv E c addrs' ∧ (∀ i, addrs i <:+ addrs' i) ∧
        ∀ i, ∀ a ∈ addrs i, (m.set t pc).mem.heap a = m.mem.heap a :=
    fun h => ⟨addrs, h, fun _ => List.suffix_refl _, fun _ _ _ => rfl⟩
  cases hpc : m.threads t
  case ins key value stage after =>
    rw [hpc] at hok
    obtain ⟨rfl, hst⟩ := hok
    simp only [Machine.step, hpc, Option.some.injEq] at hs
    subst hs
    cases stage with
    | start => exact ⟨addrs, (hI.alloc hpc).1, fun _ => List.suffix_refl _, (hI.alloc hpc).2⟩
    | load made =>
      exact same (hI.keep hpc ⟨rfl, hst⟩ rfl rfl rfl rfl)
    | store made e => exact ⟨addrs, (hI.store hpc).1, fun _ => List.suffix_refl _, (hI.store hpc).2⟩
    | cas made e =>
      by_cases hc : !spurious ∧ m.table (keyIndex S key) = e
      · simp only [stepIns, if_pos hc]
        exact ⟨_, hI.link hpc hc.2, suffix_prepend, fun _ _ _ => rfl⟩
      · simp only [stepIns, if_neg hc]
        exact same (hI.keep hpc ⟨rfl, ⟨_, hst.1⟩, hst.2⟩ rfl rfl rfl rfl)
    | count => exact ⟨addrs, hI.count_add hpc, fun _ => List.suffix_refl _, fun _ _ _ => rfl⟩
  case findStart key =>
    simp only [Machine.step, hpc, Option.some.injEq] at hs
    subst hs
    exact same (hI.keep hpc ⟨_, hI.chain _, List.suffix_refl _⟩ rfl rfl rfl rfl)
  case findAt key current =>
    rw [hpc] at hok
    obtain ⟨l, hl, hsuf⟩ := hok
    cases hl with
    | nil =>
      simp only [Machine.step, hpc, Option.some.injEq] at hs
      subst hs
      exact same (hI.keep hpc trivial rfl rfl rfl rfl)
    | @cons a nd l' hnd hl' =>
      simp only [Machine.step, hpc, hnd, Option.map_some', Option.some.injEq] at hs
      subst hs
      split_ifs
      · exact same (hI.keep hpc trivial rfl rfl rfl rfl)
      · exact same (hI.keep hpc ⟨l', hl', (List.suffix_cons a l').trans hsuf⟩ rfl rfl rfl rfl)
  case done r => simp [Machine.step, hpc] at hs
  all_goals rw [hpc] at hok; exact (hok : False).elim

/-! ## Runs -/

/-- Every run keeps the invariant, and a chain only grows at its front over nodes no one
writes. -/
theorem Inv.reach (hI : m.Inv E c addrs) {m' : Machine K V S n}
    (h : Relation.ReflTransGen Next m m') :
    ∃ addrs', m'.Inv E c addrs' ∧ (∀ i, addrs i <:+ addrs' i) ∧
      ∀ i, ∀ a ∈ addrs i, m'.mem.heap a = m.mem.heap a := by
  induction h with
  | refl => exact ⟨addrs, hI, fun _ => List.suffix_refl _, fun _ _ _ => rfl⟩
  | tail _ hn ih =>
    obtain ⟨addrs₁, hI₁, hs₁, hf₁⟩ := ih
    obtain ⟨t, f, hstep⟩ := hn
    obtain ⟨addrs₂, hI₂, hs₂, hf₂⟩ := hI₁.step hstep
    exact ⟨addrs₂, hI₂, fun i => (hs₁ i).trans (hs₂ i),
      fun i a ha => (hf₂ i a ((hs₁ i).subset ha)).trans (hf₁ i a ha)⟩

/-- The object `d` with inserts and readers at their first steps. -/
theorem inv_start {d : Dict K V S} {addrs : Fin S → List Nat} (hd : d.Inv addrs)
    {threads : Fin n → Pc K V} (ht : ∀ t, (threads t).InsertOrFind) :
    (start d threads).Inv (∑ i, (d.mem.heap.entries (addrs i) : Multiset (K × V)) +
      ∑ t, (threads t).pending) d.count addrs := by
  have hstart : ∀ t, (∃ key value, threads t = .ins key value .start none) ∨
      ∃ key, threads t = .findStart key := fun t => Pc.insertOrFind_iff.1 (ht t)
  refine ⟨hd.chain, hd.disjoint, hd.index, fun t => ?_, fun t _ a h _ => ?_, rfl, ?_, ?_⟩
  · rcases hstart t with ⟨key, value, h⟩ | ⟨key, h⟩ <;> simp only [start, h] <;> trivial
  · rcases hstart t with ⟨key, value, h'⟩ | ⟨key, h'⟩ <;> simp [start, h', Pc.made] at h
  · have : ∀ t, (threads t).linked = 0 := fun t => by
      rcases hstart t with ⟨key, value, h⟩ | ⟨key, h⟩ <;> simp [h, Pc.linked]
    simp [start, this, hd.count]
  · have : ∀ t, (threads t).inserted = 0 := fun t => by
      rcases hstart t with ⟨key, value, h⟩ | ⟨key, h⟩ <;> simp [h, Pc.inserted]
    simp [start, this]

/-! ## Readers -/

/-- A reader in its loop on a chain returns the first value of its key on that chain, as the
chain stood when the reader stepped onto it. -/
theorem Inv.findAt_returns (hI : m.Inv E c addrs) {t : Fin n} {key : K} {current : Option Nat}
    {l : List Nat} (hpc : m.threads t = .findAt key current) (hl : Chain m.mem.heap current l)
    (hsuf : l <:+ addrs (keyIndex S key)) {m₂ : Machine K V S n}
    (h : Relation.ReflTransGen Next m m₂) {r : Option V} (hr : m₂.threads t = .done (.value r)) :
    r = (stackOf key (m.mem.heap.entries l)).head? := by
  induction h using Relation.ReflTransGen.head_induction_on generalizing addrs current l with
  | refl => simp [hpc] at hr
  | @head m m₁ hn hrest ih =>
    obtain ⟨t', f, hstep⟩ := hn
    obtain ⟨addrs₁, hI₁, hs₁, hf₁⟩ := hI.step hstep
    have hent : ∀ l', l' <:+ l → m₁.mem.heap.entries l' = m.mem.heap.entries l' := fun l' hl' =>
      Heap.entries_congr fun a ha => by
        rw [hf₁ _ a ((hl'.trans hsuf).subset ha)]
    have hch : ∀ {p l'}, Chain m.mem.heap p l' → l' <:+ l → Chain m₁.mem.heap p l' :=
      fun hc hl' => hc.congr fun a ha => by
        simp only [Heap.nextAt, hf₁ _ a ((hl'.trans hsuf).subset ha)]
    by_cases ht : t' = t
    · subst ht
      cases hl with
      | nil =>
        simp only [Machine.step, hpc, Option.some.injEq] at hstep
        subst hstep
        have := done_of_reach hrest (t := t') (r := .value none) (by simp)
        rw [hr] at this
        cases this
        rfl
      | @cons a nd l' hnd hl' =>
        simp only [Machine.step, hpc, hnd, Option.map_some', Option.some.injEq] at hstep
        subst hstep
        rw [Heap.entries_cons hnd, stackOf_cons]
        split_ifs at hr ⊢ with hk
        · have := done_of_reach hrest (t := t') (r := .value (some nd.value)) (by simp [hk])
          rw [hr] at this
          cases this
          rfl
        · have hsuf' : l' <:+ a :: l' := List.suffix_cons a l'
          rw [ih hI₁ (by simp [hk]) (hch hl' hsuf') ((hsuf'.trans hsuf).trans (hs₁ _)),
            hent l' hsuf']
    · obtain ⟨pc, hpc₁⟩ := step_threads hstep
      have : m₁.threads t = .findAt key current := by rw [hpc₁, Function.update_noteq (Ne.symm ht), hpc]
      rw [ih hI₁ this (hch hl (List.suffix_refl l)) (hsuf.trans (hs₁ _)),
        hent l (List.suffix_refl l)]

/-- A reader returns what `find` returns on some state between its first step and its
return: the state in which it loads the bucket head. -/
theorem Inv.findStart_returns (hI : m.Inv E c addrs) {t : Fin n} {key : K}
    (hpc : m.threads t = .findStart key) {m₂ : Machine K V S n}
    (h : Relation.ReflTransGen Next m m₂) {r : Option V} (hr : m₂.threads t = .done (.value r)) :
    ∃ m', Relation.ReflTransGen Next m m' ∧ Relation.ReflTransGen Next m' m₂ ∧
      r = m'.view.find key := by
  induction h using Relation.ReflTransGen.head_induction_on generalizing addrs with
  | refl => simp [hpc] at hr
  | @head m m₁ hn hrest ih =>
    obtain ⟨t', f, hstep⟩ := hn
    by_cases ht : t' = t
    · subst ht
      simp only [Machine.step, hpc, Option.some.injEq] at hstep
      subst hstep
      refine ⟨m, .refl, .head ⟨t', f, by simp [Machine.step, hpc]⟩ hrest, ?_⟩
      have hI₁ : (m.set t' (.findAt key (m.table (keyIndex S key)))).Inv E c addrs :=
        hI.keep hpc ⟨_, hI.chain _, List.suffix_refl _⟩ rfl rfl rfl rfl
      rw [hI₁.findAt_returns (Function.update_same _ _ _) (hI.chain _) (List.suffix_refl _) hrest hr,
        view, Dict.find,
        (hI.chain _).scan_value key (m.mem.length_le_of_chain (hI.chain _))]
      rfl
    · obtain ⟨pc, hpc₁⟩ := step_threads hstep
      obtain ⟨addrs₁, hI₁, -⟩ := hI.step hstep
      obtain ⟨m', h₁, h₂, hr'⟩ := ih hI₁ (by rw [hpc₁, Function.update_noteq (Ne.symm ht), hpc])
      exact ⟨m', .head ⟨t', f, hstep⟩ h₁, h₂, hr'⟩

/-! ## Quiescence -/

/-- Once every thread has returned, the object has the representation invariant, and its
chains hold the pairs `E`. -/
theorem Inv.quiescent (hI : m.Inv E c addrs) (hq : m.Quiescent) :
    m.view.Inv addrs ∧ ∑ i, (m.mem.heap.entries (addrs i) : Multiset (K × V)) = E := by
  have hdone : ∀ t, (m.threads t).pending = 0 ∧ (m.threads t).linked = (m.threads t).inserted :=
    fun t => by
      obtain ⟨r, hr⟩ := hq t
      have hok := hI.thread t
      rw [hr] at hok ⊢
      rcases r with b | v | _
      · cases hok; exact ⟨rfl, rfl⟩
      · exact ⟨rfl, rfl⟩
      · exact hok.elim
  refine ⟨⟨hI.chain, hI.disjoint, hI.index, ?_⟩, ?_⟩
  · show m.count = _
    rw [hI.count, hI.links]
    simp [hdone]
  · simpa [hdone] using hI.entries

theorem coe_flatMap_finRange {α : Type} (f : Fin S → List α) :
    (((List.finRange S).flatMap f : List α) : Multiset α) = ∑ i, (f i : Multiset α) := by
  rw [← Multiset.coe_bind, Finset.sum, Fin.univ_def]
  rfl

/-- Inserts, emplaces and readers on an object with the representation invariant, in any
interleaving: in every reachable state the chains are finite and acyclic and `count_` is the
initial count plus the number of returned inserts; a chain only grows at its front, over
nodes no one writes; at quiescence the object has the representation invariant and `each`
visits the initial pairs and the inserted ones; and every reader returns what `find` returns
in a state between its first step and its return.

The premise is the whole representation invariant rather than acyclic chains alone, since
the conclusions read each of its parts: an inserted node is reachable exactly once only if
no node lies on two chains, a reader finds a key in the bucket `hash(key) % S` only if every
node sits in its key's bucket, and `count_` is the number of nodes at quiescence only if it
was at the start. None of the parts restricts the interleavings. -/
theorem insert_find_safe {d : Dict K V S} {addrs : Fin S → List Nat} (hd : d.Inv addrs)
    {threads : Fin n → Pc K V} (ht : ∀ t, (threads t).InsertOrFind) :
    (∀ m, Relation.ReflTransGen Next (start d threads) m →
      (∃ addrs' : Fin S → List Nat, ∀ i, Chain m.mem.heap (m.table i) (addrs' i)) ∧
        m.count = d.count + ∑ t, ((m.threads t).inserted : Int)) ∧
    (∀ m m' (addrs₁ addrs₂ : Fin S → List Nat), Relation.ReflTransGen Next (start d threads) m →
      Relation.ReflTransGen Next m m' → (∀ i, Chain m.mem.heap (m.table i) (addrs₁ i)) →
      (∀ i, Chain m'.mem.heap (m'.table i) (addrs₂ i)) →
      ∀ i, addrs₁ i <:+ addrs₂ i ∧ ∀ a ∈ addrs₁ i, m'.mem.heap a = m.mem.heap a) ∧
    (∀ m, Relation.ReflTransGen Next (start d threads) m → m.Quiescent →
      (∃ addrs', m.view.Inv addrs') ∧
        (m.view.each : Multiset (K × V)) = d.each + ∑ t, (threads t).pending) ∧
    (∀ m₁ m₂ t key r, Relation.ReflTransGen Next (start d threads) m₁ →
      m₁.threads t = .findStart key → Relation.ReflTransGen Next m₁ m₂ →
      m₂.threads t = .done (.value r) →
      ∃ m', Relation.ReflTransGen Next m₁ m' ∧ Relation.ReflTransGen Next m' m₂ ∧
        r = m'.view.find key) := by
  have h₀ := inv_start hd ht
  refine ⟨fun m hm => ?_, fun m m' addrs₁ addrs₂ hm hm' h₁ h₂ i => ?_, fun m hm hq => ?_,
    fun m₁ m₂ t key r hm₁ hpc h hr => ?_⟩
  · obtain ⟨addrs', hI, -⟩ := h₀.reach hm
    exact ⟨⟨addrs', hI.chain⟩, hI.count⟩
  · obtain ⟨a₁, hI₁, -⟩ := h₀.reach hm
    obtain ⟨a₂, hI₂, hs, hf⟩ := hI₁.reach hm'
    obtain rfl : addrs₁ = a₁ := funext fun i => (h₁ i).unique (hI₁.chain i)
    obtain rfl : addrs₂ = a₂ := funext fun i => (h₂ i).unique (hI₂.chain i)
    exact ⟨hs i, hf i⟩
  · obtain ⟨a, hI, -⟩ := h₀.reach hm
    obtain ⟨hv, he⟩ := hI.quiescent hq
    refine ⟨⟨a, hv⟩, ?_⟩
    rw [hv.each_eq, hd.each_eq, coe_flatMap_finRange, coe_flatMap_finRange]
    exact he
  · obtain ⟨a, hI, -⟩ := h₀.reach hm₁
    exact hI.findStart_returns hpc h hr

/-- One `insert(1, 10)` and one `find(1)` on an empty `dictionary_t<int, int, 4>`: at
quiescence the object has the representation invariant. -/
theorem insert_find_safe_one_each :
    (Dict.init Memory.empty : Dict Nat Nat 4).Inv (fun _ => []) ∧
      (∀ t, Pc.InsertOrFind ((![.ins 1 10 .start none, .findStart 1] : Fin 2 → Pc Nat Nat) t)) ∧
      ∀ m, Relation.ReflTransGen Next
        (start (Dict.init Memory.empty : Dict Nat Nat 4) ![.ins 1 10 .start none, .findStart 1]) m →
        m.Quiescent → ∃ addrs, m.view.Inv addrs :=
  have hd : (Dict.init Memory.empty : Dict Nat Nat 4).Inv (fun _ => []) := Dict.inv_init _
  have ht : ∀ t, Pc.InsertOrFind ((![.ins 1 10 .start none, .findStart 1] : Fin 2 → Pc Nat Nat) t) :=
    Fin.forall_fin_two.mpr ⟨trivial, trivial⟩
  ⟨hd, ht, fun m hm hq => ((insert_find_safe hd ht).2.2.1 m hm hq).1⟩

end Machine

end ModernCli
