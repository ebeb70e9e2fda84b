import Mathlib
import ModernCli.Dictionary.Concurrent
import ModernCli.Dictionary.Calls

/-!
# Concurrent calls that never unlink

`insert`, `emplace`, `insert_or_assign`, `try_emplace` and the readers never unlink a node:
every node they link stays on its chain, every node they delete is one they made and never
linked, and the only write into a linked node is the value `insert_or_assign` stores. None
of that touches a key or a `next` link of a linked node, and the chains read nothing else.

`Machine.Shape` is what holds of every state such threads reach, over the keys and links of
the nodes only (`Heap.shapeAt`): the chains, the nodes each thread owns (made and neither
linked nor deleted), and `count_` against the number of linked nodes. It says nothing of
values, nor of keys being unique: two `try_emplace` of one key can both link
(`Machine.dict_try_emplace_twice`).

* `Machine.Shape.step`: every step keeps it, with the chains before it suffixes of the chains
  after it, over nodes whose key and link do not change;
* `Machine.Shape.step_isSome`: a thread that has not returned can always take its step, so no
  call here reads a deleted node;
* `Machine.no_unlink_safe`: from an object with the representation invariant, in every
  reachable state the chains are finite and acyclic and `count_` is the number of linked
  nodes less the inserts that have not counted theirs yet; a chain only grows at its front;
  no thread is ever stuck on a deleted node; and at quiescence the object has the
  representation invariant.
-/

set_option linter.unusedSectionVars false

namespace ModernCli

variable {K V : Type}

namespace Heap

/-- The key and the `next` link of the node at `a`: all that a chain and its bucket read of
it. -/
def shapeAt (h : Heap K V) (a : Nat) : Option (K × Option Nat) :=
  (h a).map fun nd => (nd.key, nd.next)

variable {h h' : Heap K V} {a : Nat}

theorem nextAt_eq_of_shapeAt_eq (e : h'.shapeAt a = h.shapeAt a) : h'.nextAt a = h.nextAt a := by
  simpa [shapeAt, nextAt, Option.map_map, Function.comp_def] using congrArg (Option.map Prod.snd) e

theorem isSome_of_shapeAt_eq (e : h'.shapeAt a = h.shapeAt a) : (h' a).isSome = (h a).isSome := by
  simpa [shapeAt] using congrArg Option.isSome e

theorem key_of_shapeAt {k : K} {nx : Option Nat} (e : h.shapeAt a = some (k, nx)) :
    (h a).map Node.key = some k := by
  simpa [shapeAt, Option.map_map, Function.comp_def] using congrArg (Option.map Prod.fst) e

theorem key_eq_of_shapeAt_eq (e : h'.shapeAt a = h.shapeAt a) :
    (h' a).map Node.key = (h a).map Node.key := by
  simpa [shapeAt, Option.map_map, Function.comp_def] using congrArg (Option.map Prod.fst) e

theorem mem_entries {l : List Nat} {e : K × V} :
    e ∈ h.entries l ↔ ∃ a ∈ l, ∃ nd, h a = some nd ∧ (nd.key, nd.value) = e := by
  simp [entries]

end Heap

theorem Chain.congr_shape {h h' : Heap K V} {p : Option Nat} {l : List Nat} (hl : Chain h p l)
    (heq : ∀ a ∈ l, h'.shapeAt a = h.shapeAt a) : Chain h' p l :=
  hl.congr fun a ha => Heap.nextAt_eq_of_shapeAt_eq (heq a ha)

namespace Pc

/-- The nodes a thread has made and neither linked nor deleted: the node of a running
`insert`, and the node `insert_or_assign` or `try_emplace` makes first (which `try_emplace`
keeps while its `emplace` runs). -/
def owned : Pc K V → List Nat
  | .ins _ _ (.load a) after | .ins _ _ (.store a _) after | .ins _ _ (.cas a _) after =>
    a :: after.toList
  | .ins _ _ .start after | .ins _ _ .count after => after.toList
  | .ioaLoad _ _ made | .ioaAt _ _ made _ | .teLoad _ _ made | .teAt _ _ made _ | .teFree made =>
    [made]
  | _ => []

/-- 1 while an `insert` has linked its node and not yet counted it. -/
def uncounted : Pc K V → Nat
  | .ins _ _ .count _ => 1
  | _ => 0

/-- The first steps of the calls that never unlink a node: `insert` or `emplace`, `find`,
`insert_or_assign` and `try_emplace`. -/
def NoUnlink : Pc K V → Prop
  | .ins _ _ .start none | .findStart _ | .ioaStart _ _ | .teStart _ _ _ => True
  | _ => False

end Pc

namespace Machine

variable [DecidableEq K] [Hashable K] {S n : Nat} [NeZero S]

/-- A scan of `key` at `current`: on a suffix of the key's chain. -/
def OnChain (h : Heap K V) (addrs : Fin S → List Nat) (key : K) (current : Option Nat) : Prop :=
  ∃ l, Chain h current l ∧ l <:+ addrs (keyIndex S key)

/-- What a thread's place says of the keys and links of the heap: a running `insert`'s node
has its key, and once stored the head it loaded; the node `try_emplace` made has the key it
goes on to insert; a scan is on a suffix of its key's chain; `remove` and `clear` are not among
these calls. -/
def ThreadShape (h : Heap K V) (addrs : Fin S → List Nat) : Pc K V → Prop
  | .ins key _ (.load made) _ | .ins key _ (.store made _) _ | .teLoad key _ made =>
    (h made).map Node.key = some key
  | .ins key _ (.cas made expected) _ => h.shapeAt made = some (key, expected)
  | .ins _ _ .start _ | .ins _ _ .count _ => True
  | .findAt key current | .ioaAt key _ _ current => OnChain h addrs key current
  | .teAt key _ made current => (h made).map Node.key = some key ∧ OnChain h addrs key current
  | .findStart _ | .ioaStart _ _ | .ioaLoad _ _ _ | .teStart _ _ _ | .teFree _
  | .done _ => True
  | _ => False

/-- A call at its first step owns nothing, counts nothing, and its place is right. -/
theorem noUnlink_start {pc : Pc K V} (h : pc.NoUnlink) (hp : Heap K V) (addrs : Fin S → List Nat) :
    pc.owned = [] ∧ pc.uncounted = 0 ∧ ThreadShape hp addrs pc := by
  cases pc with
  | ins key value stage after =>
    cases stage <;> cases after <;> first | exact ⟨rfl, rfl, trivial⟩ | exact h.elim
  | findStart _ | ioaStart _ _ | teStart _ _ _ => exact ⟨rfl, rfl, trivial⟩
  | _ => exact h.elim

theorem OnChain.frame {h h' : Heap K V} {addrs addrs' : Fin S → List Nat} {key : K}
    {current : Option Nat} (hc : OnChain h addrs key current)
    (hh : ∀ a, (∃ i, a ∈ addrs i) → h'.shapeAt a = h.shapeAt a) (hsuf : ∀ i, addrs i <:+ addrs' i) :
    OnChain h' addrs' key current :=
  let ⟨l, hl, hs⟩ := hc
  ⟨l, hl.congr_shape fun a ha => hh a ⟨_, hs.subset ha⟩, hs.trans (hsuf _)⟩

theorem OnChain.node {h : Heap K V} {addrs : Fin S → List Nat} {key : K} {a : Nat}
    (hc : OnChain h addrs key (some a)) : a ∈ addrs (keyIndex S key) ∧ ∃ nd, h a = some nd ∧
      OnChain h addrs key nd.next := by
  obtain ⟨l, hl, hs⟩ := hc
  cases hl with
  | cons hnd hl => exact ⟨hs.subset (List.mem_cons_self _ _), _, hnd, _, hl, (List.suffix_cons _ _).trans hs⟩

/-- A thread's place stays right when the keys and links of the chains and of its own nodes
stay, and the chains only grow at their fronts. -/
theorem ThreadShape.frame {h h' : Heap K V} {addrs addrs' : Fin S → List Nat} {pc : Pc K V}
    (hok : ThreadShape h addrs pc)
    (hh : ∀ a, ((∃ i, a ∈ addrs i) ∨ a ∈ pc.owned) → h'.shapeAt a = h.shapeAt a)
    (hsuf : ∀ i, addrs i <:+ addrs' i) : ThreadShape h' addrs' pc := by
  have hon : ∀ {key current}, OnChain h addrs key current → OnChain h' addrs' key current :=
    fun hc => hc.frame (fun a ha => hh a (.inl ha)) hsuf
  match pc, hok with
  | .ins _ _ (.load made) _, hok | .ins _ _ (.store made _) _, hok | .teLoad _ _ made, hok =>
    exact (Heap.key_eq_of_shapeAt_eq (hh made (.inr (List.mem_cons_self _ _)))).trans hok
  | .ins _ _ (.cas made _) _, hok => exact (hh made (.inr (List.mem_cons_self _ _))).trans hok
  | .ins _ _ .start _, _ | .ins _ _ .count _, _ => trivial
  | .findAt .., hok | .ioaAt .., hok => exact hon hok
  | .teAt _ _ made _, hok =>
    exact ⟨(Heap.key_eq_of_shapeAt_eq (hh made (.inr (List.mem_cons_self _ _)))).trans hok.1,
      hon hok.2⟩
  | .findStart _, _ | .ioaStart .., _ | .ioaLoad .., _ | .teStart .., _
  | .teFree _, _ | .done _, _ => trivial
  | .remStart _, hok | .remAt .., hok | .remUnlink .., hok | .remDelete _, hok | .remCount, hok
  | .clearBucket _, hok | .clearAt .., hok | .clearCount, hok => exact hok.elim

/-- The invariant of the calls that never unlink, with `addrs i` the chain of bucket `i`: the
chains have the shape of `Dict.Inv` over keys and links; every thread's place is right; the
nodes the threads own are allocated, on no chain, and owned once; and `count_` and the inserts
that have linked and not counted make up the number of linked nodes. -/
structure Shape (m : Machine K V S n) (addrs : Fin S → List Nat) : Prop where
  chain : ∀ i, Chain m.mem.heap (m.table i) (addrs i)
  disjoint : ∀ i j, i ≠ j → ∀ a ∈ addrs i, a ∉ addrs j
  index : ∀ i, ∀ a ∈ addrs i, ∀ k nx, m.mem.heap.shapeAt a = some (k, nx) → keyIndex S k = i
  thread : ∀ t, ThreadShape m.mem.heap addrs (m.threads t)
  owned : ∀ t, ∀ a ∈ (m.threads t).owned, (m.mem.heap a).isSome ∧ ∀ i, a ∉ addrs i
  owned_nodup : ∀ t, (m.threads t).owned.Nodup
  owned_disjoint : ∀ t t', t ≠ t' → ∀ a ∈ (m.threads t).owned, a ∉ (m.threads t').owned
  count : m.count + ∑ t, ((m.threads t).uncounted : Int) = ((∑ i, (addrs i).length : Nat) : Int)

/-- `m'` has the invariant over chains that extend those of `m` at their fronts, and the
nodes of `m`'s chains have kept their keys and links. -/
def Extends (m m' : Machine K V S n) (addrs : Fin S → List Nat) : Prop :=
  ∃ addrs', m'.Shape addrs' ∧ (∀ i, addrs i <:+ addrs' i) ∧
    ∀ i, ∀ a ∈ addrs i, m'.mem.heap.shapeAt a = m.mem.heap.shapeAt a

variable {m : Machine K V S n} {addrs : Fin S → List Nat}

/-- Every node on a chain or owned by a thread has been handed out. -/
theorem Shape.lt_next (hI : m.Shape addrs) {a : Nat}
    (ha : (∃ i, a ∈ addrs i) ∨ ∃ t, a ∈ (m.threads t).owned) : a < m.mem.next := by
  apply m.mem.lt_next_of_isSome
  rcases ha with ⟨i, ha⟩ | ⟨t, ha⟩
  · exact (hI.chain i).isSome_of_mem ha
  · exact (hI.owned t a ha).1

/-- A step of thread `t` to `pc` that keeps the chains and the keys and links of their nodes
and of the other threads' nodes, in which the thread owns nodes it owned or newly handed out,
and which counts the inserts it finishes. -/
theorem Shape.frame (hI : m.Shape addrs) (m' : Machine K V S n) {t : Fin n} {pc : Pc K V}
    (ht : m'.table = m.table) (hth : m'.threads = Function.update m.threads t pc)
    (hh : ∀ a, ((∃ i, a ∈ addrs i) ∨ ∃ t', t' ≠ t ∧ a ∈ (m.threads t').owned) →
      m'.mem.heap.shapeAt a = m.mem.heap.shapeAt a)
    (hok : ThreadShape m'.mem.heap addrs pc)
    (hown : ∀ a ∈ pc.owned, (m'.mem.heap a).isSome ∧ (a ∈ (m.threads t).owned ∨ m.mem.next ≤ a))
    (hnodup : pc.owned.Nodup) (hc : m'.count + pc.uncounted = m.count + (m.threads t).uncounted) :
    m.Extends m' addrs := by
  -- a node the thread now owns is one it owned, or one no one had
  have hnew : ∀ t', t' ≠ t → ∀ a ∈ pc.owned, a ∉ (m.threads t').owned := fun t' ht' a hp ho => by
    rcases (hown a hp).2 with hold | hfresh
    · exact hI.owned_disjoint t t' (Ne.symm ht') a hold ho
    · exact absurd (hI.lt_next (.inr ⟨t', ho⟩)) (by omega)
  refine ⟨addrs, ⟨fun i => ?_, hI.disjoint, fun i a ha => ?_, ?_, ?_, ?_,
    fun t₁ t₂ hne a h₁ h₂ => ?_, ?_⟩, fun _ => List.suffix_refl _,
    fun i a ha => hh a (.inl ⟨i, ha⟩)⟩
  · rw [ht]
    exact (hI.chain i).congr_shape fun a ha => hh a (.inl ⟨i, ha⟩)
  · rw [hh a (.inl ⟨i, ha⟩)]
    exact hI.index i a ha
  · rw [hth, Function.forall_update_iff _ fun _ p => ThreadShape m'.mem.heap addrs p]
    exact ⟨hok, fun t' h => (hI.thread t').frame
      (fun a ha => hh a (ha.imp_right fun hm => ⟨t', h, hm⟩)) fun _ => List.suffix_refl _⟩
  · rw [hth, Function.forall_update_iff _ fun _ (p : Pc K V) =>
      ∀ a ∈ p.owned, (m'.mem.heap a).isSome ∧ ∀ i, a ∉ addrs i]
    refine ⟨fun a ha => ?_, fun t' h a ha => ⟨(Heap.isSome_of_shapeAt_eq
      (hh a (.inr ⟨t', h, ha⟩))).trans (hI.owned t' a ha).1, (hI.owned t' a ha).2⟩⟩
    obtain ⟨hs, hold | hfresh⟩ := hown a ha
    · exact ⟨hs, (hI.owned t a hold).2⟩
    · exact ⟨hs, fun i hi => absurd (hI.lt_next (.inl ⟨i, hi⟩)) (by omega)⟩
  · rw [hth, Function.forall_update_iff _ fun _ (p : Pc K V) => p.owned.Nodup]
    exact ⟨hnodup, fun t' _ => hI.owned_nodup t'⟩
  · simp only [hth, Function.update_apply] at h₁ h₂
    split_ifs at h₁ h₂ with e₁ e₂ e₂
    · exact hne (e₁.trans e₂.symm)
    · exact hnew t₂ e₂ a h₁ h₂
    · exact hnew t₁ e₁ a h₂ h₁
    · exact hI.owned_disjoint t₁ t₂ hne a h₁ h₂
  · have := sum_comp_update m.threads t pc fun p => (p.uncounted : Int)
    have := hI.count
    rw [hth]
    omega

/-! ## One step -/

section Steps

variable (hI : m.Shape addrs) {t : Fin n}
include hI

/-- A step that writes nothing shared and leaves the thread's nodes and count as they were. -/
theorem Shape.keep {pc₀ pc : Pc K V} (hpc : m.threads t = pc₀) (hok : ThreadShape m.mem.heap addrs pc)
    (howned : pc.owned = pc₀.owned) (hu : pc.uncounted = pc₀.uncounted) :
    m.Extends (m.set t pc) addrs := by
  subst hpc
  exact hI.frame _ rfl rfl (fun _ _ => rfl) hok
    (fun a ha => by rw [howned] at ha; exact ⟨(hI.owned t a ha).1, .inl ha⟩)
    (howned ▸ hI.owned_nodup t) (by rw [set_count, hu])

/-- `new node(...)` at the address `next`, which the thread owns from then on. -/
theorem Shape.alloc {pc₀ pc : Pc K V} (hpc : m.threads t = pc₀) (nd : Node K V)
    (hok : ThreadShape (Function.update m.mem.heap m.mem.next (some nd)) addrs pc)
    (howned : pc.owned = m.mem.next :: pc₀.owned) (hu : pc.uncounted = pc₀.uncounted) :
    m.Extends ({ m with mem := m.mem.allocAt m.mem.next nd }.set t pc) addrs := by
  subst hpc
  have hfresh : ∀ a, ((∃ i, a ∈ addrs i) ∨ ∃ t', a ∈ (m.threads t').owned) → a ≠ m.mem.next :=
    fun a ha => Nat.ne_of_lt (hI.lt_next ha)
  refine hI.frame _ rfl rfl (fun a ha => ?_) hok (fun a ha => ?_) ?_ (by rw [set_count, hu])
  · have := hfresh a (ha.imp_right fun ⟨t', _, h⟩ => ⟨t', h⟩)
    simp [Heap.shapeAt, Function.update_noteq this]
  · rw [howned] at ha
    rcases List.mem_cons.mp ha with rfl | ha
    · exact ⟨by simp, .inr le_rfl⟩
    · exact ⟨by simp [Function.update_noteq (hfresh a (.inr ⟨t, ha⟩)), (hI.owned t a ha).1], .inl ha⟩
  · rw [howned]
    exact List.nodup_cons.mpr ⟨fun h => hfresh _ (.inr ⟨t, h⟩) rfl, hI.owned_nodup t⟩

/-- `delete` of a node the thread owns, after which it owns none. -/
theorem Shape.free {pc₀ pc : Pc K V} (hpc : m.threads t = pc₀) {a : Nat} (ha : a ∈ pc₀.owned)
    (hok : ThreadShape (m.mem.free a).heap addrs pc) (howned : pc.owned = [])
    (hu : pc.uncounted = pc₀.uncounted) :
    m.Extends ({ m with mem := m.mem.free a }.set t pc) addrs := by
  subst hpc
  refine hI.frame _ rfl rfl (fun b hb => ?_) hok (by simp [howned]) (by simp [howned])
    (by rw [set_count, hu])
  have hba : b ≠ a := by
    rintro rfl
    rcases hb with ⟨i, hi⟩ | ⟨t', ht', ho⟩
    · exact (hI.owned t b ha).2 i hi
    · exact hI.owned_disjoint t t' (Ne.symm ht') b ha ho
  simp [Heap.shapeAt, Function.update_noteq hba]

/-- `made->next.store(expected)`: a write into the thread's own node. -/
theorem Shape.store {key : K} {value : V} {made : Nat} {expected after : Option Nat}
    (hpc : m.threads t = .ins key value (.store made expected) after) (spurious : Bool) :
    m.Extends (m.stepIns t spurious key value after (.store made expected)) addrs := by
  have hmade : made ∈ (m.threads t).owned := by rw [hpc]; exact List.mem_cons_self _ _
  have hok := hI.thread t
  rw [hpc] at hok
  obtain ⟨nd, hnd, hkey⟩ := Option.map_eq_some'.mp hok
  refine hI.frame _ rfl rfl (fun b hb => ?_) ?_ (fun b hb => ?_) ?_ (by rw [hpc]; rfl)
  · have hbm : b ≠ made := by
      rintro rfl
      rcases hb with ⟨i, hi⟩ | ⟨t', ht', ho⟩
      · exact (hI.owned t b hmade).2 i hi
      · exact hI.owned_disjoint t t' (Ne.symm ht') b hmade ho
    simp [stepIns, Heap.shapeAt, Function.update_noteq hbm]
  · simp [stepIns, ThreadShape, Heap.shapeAt, hnd, hkey]
  · have hb' : b ∈ (m.threads t).owned := by rw [hpc]; exact hb
    refine ⟨?_, .inl hb'⟩
    by_cases hbm : b = made
    · subst hbm; simp [stepIns, hnd]
    · simpa [stepIns, Function.update_noteq hbm] using (hI.owned t b hb').1
  · have := hI.owned_nodup t
    rwa [hpc] at this

/-- `insert_or_assign` on a match: the value of the chain node written, its own node
deleted. -/
theorem Shape.assign {key : K} {value : V} {made a : Nat}
    (hpc : m.threads t = .ioaAt key value made (some a)) :
    m.Extends ({ m with mem := (m.mem.modify a fun nd => { nd with value := value }).free made }.set t
      (.done (.bool true))) addrs := by
  have hmade : made ∈ (m.threads t).owned := by rw [hpc]; exact List.mem_singleton_self _
  refine hI.frame _ rfl rfl (fun b hb => ?_) trivial (by simp [Pc.owned]) (by simp [Pc.owned])
    (by rw [hpc]; rfl)
  have hbm : b ≠ made := by
    rintro rfl
    rcases hb with ⟨i, hi⟩ | ⟨t', ht', ho⟩
    · exact (hI.owned t b hmade).2 i hi
    · exact hI.owned_disjoint t t' (Ne.symm ht') b hmade ho
  by_cases hba : b = a
  · subst hba
    cases hb' : m.mem.heap b <;> simp [Heap.shapeAt, Function.update_noteq hbm, hb']
  · simp [Heap.shapeAt, Function.update_noteq hbm, Function.update_noteq hba]

/-- A successful `compare_exchange_weak`: the thread's node heads its bucket, in front of the
chain it points at, and is linked and not yet counted. -/
theorem Shape.link {key : K} {value : V} {made : Nat} {expected after : Option Nat}
    (hpc : m.threads t = .ins key value (.cas made expected) after)
    (he : m.table (keyIndex S key) = expected) :
    m.Extends ({ m with table := Function.update m.table (keyIndex S key) (some made) }.set t
      (.ins key value .count after)) addrs := by
  have hok := hI.thread t
  rw [hpc] at hok
  obtain ⟨nd, hnd, hshape⟩ := Option.map_eq_some'.mp hok
  obtain ⟨rfl, rfl⟩ := Prod.mk.inj hshape
  have hmade : made ∈ (m.threads t).owned := by rw [hpc]; exact List.mem_cons_self _ _
  have hfree := (hI.owned t made hmade).2
  have hnodup := hI.owned_nodup t
  rw [hpc] at hnodup
  have hafter : made ∉ after.toList := (List.nodup_cons.mp hnodup).1
  set idx := keyIndex S nd.key
  -- the nodes of the other threads, and the thread's remaining node, are not the linked one
  have hother : ∀ t', ∀ a ∈ (Function.update m.threads t (.ins nd.key value .count after) t').owned,
      a ∈ (m.threads t').owned ∧ a ≠ made := fun t' a ha => by
    by_cases h : t' = t
    · subst h
      rw [Function.update_same] at ha
      refine ⟨by rw [hpc]; exact List.mem_cons_of_mem _ ha, fun e => hafter (e ▸ ha)⟩
    · rw [Function.update_noteq h] at ha
      exact ⟨ha, fun e => hI.owned_disjoint t' t h a ha (e ▸ hmade)⟩
  refine ⟨_, ⟨chain_prepend hnd hI.chain he.symm, disjoint_prepend hI.disjoint hfree,
    fun i a ha k nx hs => ?_, ?_, fun t' a ha => ?_, ?_,
    fun t₁ t₂ hne a h₁ h₂ => ?_, ?_⟩, suffix_prepend, fun _ _ _ => rfl⟩
  · simp only [set_mem] at hs
    rcases mem_prepend.mp ha with ⟨rfl, rfl⟩ | ha
    · rw [Heap.shapeAt, hnd] at hs
      cases hs
      rfl
    · exact hI.index i a ha k nx hs
  · simp only [set_mem, set_threads]
    rw [Function.forall_update_iff _ fun _ p => ThreadShape m.mem.heap _ p]
    exact ⟨trivial, fun t' _ => (hI.thread t').frame (fun _ _ => rfl) suffix_prepend⟩
  · obtain ⟨ho, hne⟩ := hother t' a ha
    refine ⟨(hI.owned t' a ho).1, fun i hi => ?_⟩
    rcases mem_prepend.mp hi with ⟨-, e⟩ | hi
    · exact hne e
    · exact (hI.owned t' a ho).2 i hi
  · simp only [set_threads]
    rw [Function.forall_update_iff _ fun _ (p : Pc K V) => p.owned.Nodup]
    exact ⟨(List.nodup_cons.mp hnodup).2, fun t' _ => hI.owned_nodup t'⟩
  · exact hI.owned_disjoint t₁ t₂ hne a (hother t₁ a h₁).1 (hother t₂ a h₂).1
  · have h3 : ∑ i, (Function.update addrs idx (made :: addrs idx) i).length =
        ∑ i, (addrs i).length + 1 := sum_length_prepend
    have h4 : ∑ t', ((Function.update m.threads t (.ins nd.key value .count after) t').uncounted : Int) +
        0 = ∑ t', ((m.threads t').uncounted : Int) + 1 := by
      have := sum_comp_update m.threads t (.ins nd.key value .count after) fun p => (p.uncounted : Int)
      rwa [hpc] at this
    have := hI.count
    simp only [set_count, set_threads, h3, Nat.cast_add, Nat.cast_one]
    omega

/-- `count_.fetch_add(1)`: the insert counts its node, and a `try_emplace` goes on to delete
its own. -/
theorem Shape.count_add {key : K} {value : V} {after : Option Nat}
    (hpc : m.threads t = .ins key value .count after) (spurious : Bool) :
    m.Extends (m.stepIns t spurious key value after .count) addrs := by
  cases after with
  | none =>
    exact hI.frame ({ m with count := m.count + 1 }.set t (.done (.bool true))) rfl rfl
      (fun _ _ => rfl) (by trivial) (by simp [Pc.owned]) (by simp [Pc.owned])
      (by rw [hpc]; simp [Pc.uncounted])
  | some made =>
    have hmade : made ∈ (m.threads t).owned := by rw [hpc]; exact List.mem_singleton_self _
    refine hI.frame ({ m with count := m.count + 1 }.set t (.teFree made)) rfl rfl (fun _ _ => rfl)
      (by trivial) (fun a ha => ?_) (by exact List.nodup_singleton _) (by rw [hpc]; simp [Pc.uncounted])
    obtain rfl := List.mem_singleton.mp ha
    exact ⟨(hI.owned t a hmade).1, .inl hmade⟩

end Steps

/-- One step of any thread keeps the invariant, over chains that extend the old ones at their
fronts. -/
theorem Shape.step (hI : m.Shape addrs) {t : Fin n} {spurious : Bool} {m' : Machine K V S n}
    (hs : m.step t spurious = some m') : m.Extends m' addrs := by
  have hok := hI.thread t
  have hhead : ∀ key, OnChain m.mem.heap addrs key (m.table (keyIndex S key)) :=
    fun key => ⟨_, hI.chain _, List.suffix_refl _⟩
  cases hpc : m.threads t
  case ins key value stage after =>
    rw [hpc] at hok
    simp only [Machine.step, hpc, Option.some.injEq] at hs
    subst hs
    cases stage with
    | start =>
      exact hI.alloc hpc ⟨key, value, none⟩ (by simp [ThreadShape]) rfl rfl
    | load made => exact hI.keep hpc hok rfl rfl
    | store made e => exact hI.store hpc spurious
    | cas made e =>
      by_cases hc : !spurious ∧ m.table (keyIndex S key) = e
      · simp only [stepIns, if_pos hc]
        exact hI.link hpc hc.2
      · simp only [stepIns, if_neg hc]
        exact hI.keep hpc (Heap.key_of_shapeAt hok) rfl rfl
    | count => exact hI.count_add hpc spurious
  case findStart key =>
    simp only [Machine.step, hpc, Option.some.injEq] at hs
    subst hs
    exact hI.keep hpc (hhead key) rfl rfl
  case findAt key current =>
    rw [hpc] at hok
    cases current with
    | none =>
      simp only [Machine.step, hpc, Option.some.injEq] at hs
      subst hs
      exact hI.keep hpc trivial rfl rfl
    | some a =>
      obtain ⟨-, nd, hnd, hnext⟩ := hok.node
      simp only [Machine.step, hpc, hnd, Option.map_some', Option.some.injEq] at hs
      subst hs
      split_ifs
      · exact hI.keep hpc trivial rfl rfl
      · exact hI.keep hpc hnext rfl rfl
  case ioaStart key value =>
    simp only [Machine.step, hpc, Option.some.injEq] at hs
    subst hs
    exact hI.alloc hpc _ trivial rfl rfl
  case ioaLoad key value made =>
    simp only [Machine.step, hpc, Option.some.injEq] at hs
    subst hs
    exact hI.keep hpc (hhead key) rfl rfl
  case ioaAt key value made current =>
    rw [hpc] at hok
    cases current with
    | none =>
      simp only [Machine.step, hpc, Option.some.injEq] at hs
      subst hs
      exact hI.free hpc (List.mem_singleton_self _) trivial rfl rfl
    | some a =>
      obtain ⟨-, nd, hnd, hnext⟩ := hok.node
      simp only [Machine.step, hpc, hnd, Option.map_some', Option.some.injEq] at hs
      subst hs
      split_ifs
      · exact hI.assign hpc
      · exact hI.keep hpc hnext rfl rfl
  case teStart key moved value =>
    simp only [Machine.step, hpc, Option.some.injEq] at hs
    subst hs
    exact hI.alloc hpc _ (by simp [ThreadShape]) rfl rfl
  case teLoad key moved made =>
    rw [hpc] at hok
    simp only [Machine.step, hpc, Option.some.injEq] at hs
    subst hs
    exact hI.keep hpc ⟨hok, hhead key⟩ rfl rfl
  case teAt key moved made current =>
    rw [hpc] at hok
    have hmade : made ∈ (m.threads t).owned := by rw [hpc]; exact List.mem_singleton_self _
    cases current with
    | none =>
      obtain ⟨nd, hnd⟩ := Option.isSome_iff_exists.mp (hI.owned t made hmade).1
      simp only [Machine.step, hpc, hnd, Option.map_some', Option.some.injEq] at hs
      subst hs
      exact hI.keep hpc trivial rfl rfl
    | some a =>
      obtain ⟨-, nd, hnd, hnext⟩ := hok.2.node
      simp only [Machine.step, hpc, hnd, Option.map_some', Option.some.injEq] at hs
      subst hs
      split_ifs
      · exact hI.free hpc (List.mem_singleton_self _) trivial rfl rfl
      · exact hI.keep hpc ⟨hok.1, hnext⟩ rfl rfl
  case teFree made =>
    simp only [Machine.step, hpc, Option.some.injEq] at hs
    subst hs
    exact hI.free hpc (List.mem_singleton_self _) trivial rfl rfl
  case done r => simp [Machine.step, hpc] at hs
  all_goals rw [hpc] at hok; exact (hok : False).elim

/-- A thread that has not returned can take its step: none of these calls reads a deleted
node. -/
theorem Shape.step_isSome (hI : m.Shape addrs) {t : Fin n} (hrun : ∀ r, m.threads t ≠ .done r)
    (spurious : Bool) : (m.step t spurious).isSome := by
  have hok := hI.thread t
  have hscan : ∀ {key : K} {a : Nat}, OnChain m.mem.heap addrs key (some a) →
      ∃ nd, m.mem.heap a = some nd := fun hc => (hc.node).2.imp fun _ h => h.1
  cases hpc : m.threads t
  case findAt key current =>
    rw [hpc] at hok
    cases current with
    | none => simp [Machine.step, hpc]
    | some a =>
      obtain ⟨nd, hnd⟩ := hscan hok
      simp [Machine.step, hpc, hnd]
  case ioaAt key value made current =>
    rw [hpc] at hok
    cases current with
    | none => simp [Machine.step, hpc]
    | some a =>
      obtain ⟨nd, hnd⟩ := hscan hok
      simp [Machine.step, hpc, hnd]
  case teAt key moved made current =>
    rw [hpc] at hok
    cases current with
    | none =>
      obtain ⟨nd, hnd⟩ := Option.isSome_iff_exists.mp
        (hI.owned t made (by rw [hpc]; exact List.mem_singleton_self _)).1
      simp [Machine.step, hpc, hnd]
    | some a =>
      obtain ⟨nd, hnd⟩ := hscan hok.2
      simp [Machine.step, hpc, hnd]
  case done r => exact absurd hpc (hrun r)
  all_goals first | (rw [hpc] at hok; exact (hok : False).elim) | simp [Machine.step, hpc]

/-! ## Runs -/

/-- Every run keeps the invariant, and a chain only grows at its front over nodes whose key
and link no one writes. -/
theorem Shape.reach (hI : m.Shape addrs) {m' : Machine K V S n}
    (h : Relation.ReflTransGen Next m m') : m.Extends m' addrs := by
  induction h with
  | refl => exact ⟨addrs, hI, fun _ => List.suffix_refl _, fun _ _ _ => rfl⟩
  | tail _ hn ih =>
    obtain ⟨addrs₁, hI₁, hs₁, hf₁⟩ := ih
    obtain ⟨t, f, hstep⟩ := hn
    obtain ⟨addrs₂, hI₂, hs₂, hf₂⟩ := hI₁.step hstep
    exact ⟨addrs₂, hI₂, fun i => (hs₁ i).trans (hs₂ i),
      fun i a ha => (hf₂ i a ((hs₁ i).subset ha)).trans (hf₁ i a ha)⟩

/-- The object `d` with the calls at their first steps. -/
theorem shape_start {d : Dict K V S} {addrs : Fin S → List Nat} (hd : d.Inv addrs)
    {threads : Fin n → Pc K V} (ht : ∀ t, (threads t).NoUnlink) : (start d threads).Shape addrs where
  chain := hd.chain
  disjoint := hd.disjoint
  index i a ha k nx hs := by
    obtain ⟨nd, hnd, hk⟩ := Option.map_eq_some'.mp hs
    obtain ⟨rfl, -⟩ := Prod.mk.inj hk
    exact hd.index i (nd.key, nd.value) (Heap.mem_entries.mpr ⟨a, ha, nd, hnd, rfl⟩)
  thread t := (noUnlink_start (ht t) _ addrs).2.2
  owned t a ha := by
    rw [show (start d threads).threads t = threads t from rfl, (noUnlink_start (ht t) d.mem.heap addrs).1] at ha
    cases ha
  owned_nodup t := by
    rw [show (start d threads).threads t = threads t from rfl, (noUnlink_start (ht t) d.mem.heap addrs).1]
    exact List.nodup_nil
  owned_disjoint t _ _ a ha := by
    rw [show (start d threads).threads t = threads t from rfl, (noUnlink_start (ht t) d.mem.heap addrs).1] at ha
    cases ha
  count := by
    have h0 : ∀ t, (threads t).uncounted = 0 := fun t => (noUnlink_start (ht t) d.mem.heap addrs).2.1
    simp [start, h0, hd.count]

/-- Once every thread has returned, the object has the representation invariant. -/
theorem Shape.quiescent (hI : m.Shape addrs) (hq : m.Quiescent) : m.view.Inv addrs where
  chain := hI.chain
  disjoint := hI.disjoint
  index i e he := by
    obtain ⟨a, ha, nd, hnd, rfl⟩ := Heap.mem_entries.mp he
    exact hI.index i a ha nd.key nd.next (by
      rw [Heap.shapeAt, show m.mem.heap a = some nd from hnd]
      rfl)
  count := by
    have h0 : ∀ t, (m.threads t).uncounted = 0 := fun t => by
      obtain ⟨r, hr⟩ := hq t
      rw [hr]
      rfl
    have := hI.count
    simp only [h0, Nat.cast_zero, Finset.sum_const_zero, add_zero] at this
    exact this

/-- Inserts, emplaces, `insert_or_assign`, `try_emplace` and readers on an object with the
representation invariant, in any interleaving: in every reachable state the chains are finite
and acyclic, `count_` with the inserts that have linked and not counted is the number of
linked nodes, and every thread that has not returned can take its step (no call reads a
deleted node); a chain only grows at its front, over nodes whose key and link no one writes;
and at quiescence the object has the representation invariant. -/
theorem no_unlink_safe {d : Dict K V S} {addrs : Fin S → List Nat} (hd : d.Inv addrs)
    {threads : Fin n → Pc K V} (ht : ∀ t, (threads t).NoUnlink) :
    (∀ m, Relation.ReflTransGen Next (start d threads) m →
      (∃ addrs' : Fin S → List Nat, (∀ i, Chain m.mem.heap (m.table i) (addrs' i)) ∧
        m.count + ∑ t, ((m.threads t).uncounted : Int) = ((∑ i, (addrs' i).length : Nat) : Int)) ∧
      ∀ t, (∀ r, m.threads t ≠ .done r) → ∀ spurious, (m.step t spurious).isSome) ∧
    (∀ m m' (addrs₁ addrs₂ : Fin S → List Nat), Relation.ReflTransGen Next (start d threads) m →
      Relation.ReflTransGen Next m m' → (∀ i, Chain m.mem.heap (m.table i) (addrs₁ i)) →
      (∀ i, Chain m'.mem.heap (m'.table i) (addrs₂ i)) →
      ∀ i, addrs₁ i <:+ addrs₂ i ∧ ∀ a ∈ addrs₁ i, m'.mem.heap.shapeAt a = m.mem.heap.shapeAt a) ∧
    (∀ m, Relation.ReflTransGen Next (start d threads) m → m.Quiescent → ∃ addrs', m.view.Inv addrs') := by
  have h₀ := shape_start hd ht
  refine ⟨fun m hm => ?_, fun m m' addrs₁ addrs₂ hm hm' h₁ h₂ i => ?_, fun m hm hq => ?_⟩
  · obtain ⟨addrs', hI, -⟩ := h₀.reach hm
    exact ⟨⟨addrs', hI.chain, hI.count⟩, fun t hrun => hI.step_isSome hrun⟩
  · obtain ⟨a₁, hI₁, -⟩ := h₀.reach hm
    obtain ⟨a₂, hI₂, hs, hf⟩ := hI₁.reach hm'
    obtain rfl : addrs₁ = a₁ := funext fun i => (h₁ i).unique (hI₁.chain i)
    obtain rfl : addrs₂ = a₂ := funext fun i => (h₂ i).unique (hI₂.chain i)
    exact ⟨hs i, hf i⟩
  · obtain ⟨a, hI, -⟩ := h₀.reach hm
    exact ⟨a, hI.quiescent hq⟩

/-- A `try_emplace` and an `insert_or_assign` of one key, from an empty object. -/
theorem no_unlink_safe_te_ioa :
    (Dict.init Memory.empty : Dict Nat Nat 4).Inv (fun _ => []) ∧
      (∀ t, Pc.NoUnlink ((![.teStart 1 1 10, .ioaStart 1 20] : Fin 2 → Pc Nat Nat) t)) ∧
      (∀ m, Relation.ReflTransGen Next
          (start (Dict.init Memory.empty : Dict Nat Nat 4) ![.teStart 1 1 10, .ioaStart 1 20]) m →
        (∃ addrs' : Fin 4 → List Nat, (∀ i, Chain m.mem.heap (m.table i) (addrs' i)) ∧
          m.count + ∑ t, ((m.threads t).uncounted : Int) = ((∑ i, (addrs' i).length : Nat) : Int)) ∧
        ∀ t, (∀ r, m.threads t ≠ .done r) → ∀ spurious, (m.step t spurious).isSome) ∧
      (∀ m m' (addrs₁ addrs₂ : Fin 4 → List Nat), Relation.ReflTransGen Next
          (start (Dict.init Memory.empty : Dict Nat Nat 4) ![.teStart 1 1 10, .ioaStart 1 20]) m →
        Relation.ReflTransGen Next m m' → (∀ i, Chain m.mem.heap (m.table i) (addrs₁ i)) →
        (∀ i, Chain m'.mem.heap (m'.table i) (addrs₂ i)) →
        ∀ i, addrs₁ i <:+ addrs₂ i ∧ ∀ a ∈ addrs₁ i, m'.mem.heap.shapeAt a = m.mem.heap.shapeAt a) ∧
      (∀ m, Relation.ReflTransGen Next
          (start (Dict.init Memory.empty : Dict Nat Nat 4) ![.teStart 1 1 10, .ioaStart 1 20]) m →
        m.Quiescent → ∃ addrs', m.view.Inv addrs') :=
  have hd : (Dict.init Memory.empty : Dict Nat Nat 4).Inv (fun _ => []) := Dict.inv_init _
  have ht : ∀ t, Pc.NoUnlink ((![.teStart 1 1 10, .ioaStart 1 20] : Fin 2 → Pc Nat Nat) t) :=
    Fin.forall_fin_two.mpr ⟨trivial, trivial⟩
  ⟨hd, ht, no_unlink_safe hd ht⟩

end Machine

end ModernCli
