import Mathlib
import ModernCli.Dictionary.Calls
import ModernCli.Dictionary.ConcurrentShape

/-!
# Concurrent `try_emplace` and `insert_or_assign`

`try_emplace(key, value)` and `insert_or_assign(key, value)` scan their key's bucket from the
head they load, and link a node only when the scan finds no node with the key; the link is
the compare-and-swap prepend of `insert`, which does not look again. A call *misses* its key
from the moment it loads the head of a bucket that does not hold the key until it links its
node (`Machine.Misses`): the scan cannot find the key on the part of the chain still ahead
of it, and a node linked later lies in front of the head it loaded. Two calls that miss one
key at the same time, two overlapping calls on a key that was absent when each loaded the
head, can both link a node with it (`Machine.dict_try_emplace_twice`). That is the only way
a key gets a second node.

`Machine.Dedup` is what holds of every state that these calls and readers reach by steps each
taken while no two calls miss one key (`Machine.NextApart`): the chains have the shape of
`Machine.Shape`, no two of their nodes hold one key, no node holds a key a call misses, and
every `try_emplace` scans for the key it goes on to insert, its key's move leaving the key as
it was (as for `int`).

* `Machine.Dedup.step`: every step from a state in which no two calls miss one key keeps it;
* `Machine.keys_unique_unless_racing`: from an object with the representation invariant whose
  `keys()` are distinct, every state that such steps reach has distinct `keys()`, and at
  quiescence the object has the representation invariant.
-/

set_option linter.unusedSectionVars false

namespace ModernCli

variable {K V : Type}

/-! ## `keys()` over the chains -/

/-- A list without duplicates has its `filterMap` without duplicates exactly when no two of
its elements map to one value. -/
theorem nodup_filterMap_iff {α β : Type} {f : α → Option β} {l : List α} (hl : l.Nodup) :
    (l.filterMap f).Nodup ↔ ∀ a ∈ l, ∀ b ∈ l, ∀ v, f a = some v → f b = some v → a = b := by
  induction l with
  | nil => simp
  | cons x l ih =>
    obtain ⟨hx, hl⟩ := List.nodup_cons.mp hl
    have hv : ∀ v, v ∈ l.filterMap f ↔ ∃ b ∈ l, f b = some v := fun v => by simp
    cases hfx : f x with
    | none =>
      rw [List.filterMap_cons_none hfx, ih hl]
      constructor
      · intro h a ha b hb v hfa hfb
        rcases List.mem_cons.mp ha with rfl | ha
        · simp [hfx] at hfa
        rcases List.mem_cons.mp hb with rfl | hb
        · simp [hfx] at hfb
        exact h a ha b hb v hfa hfb
      · exact fun h a ha b hb => h a (List.mem_cons_of_mem x ha) b (List.mem_cons_of_mem x hb)
    | some w =>
      rw [List.filterMap_cons_some hfx, List.nodup_cons, hv, ih hl]
      constructor
      · rintro ⟨hw, h⟩ a ha b hb v hfa hfb
        have hout : ∀ c ∈ l, f c ≠ some w := fun c hc hfc => hw ⟨c, hc, hfc⟩
        rcases List.mem_cons.mp ha with rfl | ha' <;> rcases List.mem_cons.mp hb with rfl | hb'
        · rfl
        · obtain rfl := Option.some.inj (hfx.symm.trans hfa)
          exact absurd hfb (hout b hb')
        · obtain rfl := Option.some.inj (hfx.symm.trans hfb)
          exact absurd hfa (hout a ha')
        · exact h a ha' b hb' v hfa hfb
      · intro h
        refine ⟨fun ⟨b, hb, hfb⟩ => hx ?_, fun a ha b hb =>
          h a (List.mem_cons_of_mem x ha) b (List.mem_cons_of_mem x hb)⟩
        rw [h x (List.mem_cons_self x l) b (List.mem_cons_of_mem x hb) w hfx hfb]
        exact hb

namespace Dict

variable [Hashable K] {S : Nat} [NeZero S]

/-- `keys()` of an object whose buckets are the chains `addrs`: the keys of their nodes, bucket
by bucket, each chain from its head. -/
theorem keys_eq_filterMap {d : Dict K V S} {addrs : Fin S → List Nat}
    (hc : ∀ i, Chain d.mem.heap (d.table i) (addrs i)) :
    d.keys = ((List.finRange S).flatMap addrs).filterMap fun a => (d.mem.heap a).map Node.key := by
  rw [keys, List.filterMap_flatMap]
  congr 1
  funext i
  have h := congrArg (List.map Prod.fst)
    ((hc i).walk_entries (d.mem.length_le_of_chain (hc i)))
  simp only [List.map_map, Heap.entries, List.map_filterMap, Option.map_map, Function.comp_def] at h
  exact h

/-- Over disjoint chains, `keys()` lists each key once exactly when no two nodes of the chains
hold one key. -/
theorem keys_nodup_iff {d : Dict K V S} {addrs : Fin S → List Nat}
    (hc : ∀ i, Chain d.mem.heap (d.table i) (addrs i))
    (hd : ∀ i j, i ≠ j → ∀ a ∈ addrs i, a ∉ addrs j) :
    d.keys.Nodup ↔ ∀ i j, ∀ a ∈ addrs i, ∀ b ∈ addrs j,
      (d.mem.heap a).map Node.key = (d.mem.heap b).map Node.key → a = b := by
  have hnd : ((List.finRange S).flatMap addrs).Nodup :=
    List.nodup_flatMap.mpr ⟨fun i _ => (hc i).nodup, (List.nodup_finRange S).pairwise_of_forall_ne
      fun i _ j _ hij => List.disjoint_left.mpr fun a ha hb => hd i j hij a ha hb⟩
  rw [keys_eq_filterMap hc, nodup_filterMap_iff hnd]
  simp only [List.mem_flatMap, List.mem_finRange, true_and]
  constructor
  · intro h i j a ha b hb hab
    obtain ⟨nd, hnd⟩ := Option.isSome_iff_exists.mp ((hc i).isSome_of_mem ha)
    exact h a ⟨i, ha⟩ b ⟨j, hb⟩ nd.key (by simp [hnd]) (by rw [← hab]; simp [hnd])
  · rintro h a ⟨i, ha⟩ b ⟨j, hb⟩ v hfa hfb
    exact h i j a ha b hb (hfa.trans hfb.symm)

end Dict

namespace Heap

/-- A node with the key `key` lies on the chain from `current`. -/
def Ahead (h : Heap K V) (key : K) (current : Option Nat) : Prop :=
  ∃ l, Chain h current l ∧ ∃ a ∈ l, (h a).map Node.key = some key

theorem not_ahead_none (h : Heap K V) (key : K) : ¬ h.Ahead key none := by
  rintro ⟨l, hl, a, ha, -⟩
  cases hl
  cases ha

/-- A scan that passes a node without the key still has the key ahead, if it had. -/
theorem Ahead.next {h : Heap K V} {key : K} {a : Nat} {nd : Node K V} (hnd : h a = some nd)
    (hk : nd.key ≠ key) (hahead : h.Ahead key (some a)) : h.Ahead key nd.next := by
  obtain ⟨l, hl, b, hb, hkb⟩ := hahead
  cases hl with
  | cons hnd' hl =>
    obtain rfl := Option.some.inj (hnd.symm.trans hnd')
    rcases List.mem_cons.mp hb with rfl | hb
    · simp [hnd, hk] at hkb
    · exact ⟨_, hl, b, hb, hkb⟩

end Heap

namespace Pc

/-- The calls of this module at their first steps: `try_emplace` of a key whose move leaves
it as it was, `insert_or_assign`, and the readers. -/
def DedupStart : Pc K V → Prop
  | .teStart key moved _ => moved = key
  | .ioaStart _ _ | .findStart _ => True
  | _ => False

/-- The places of those calls: a `try_emplace` scans for the key it goes on to insert; no
thread is in `remove` or `clear`. -/
def Dedup : Pc K V → Prop
  | .teStart key moved _ | .teLoad key moved _ | .teAt key moved _ _ => moved = key
  | .teFree _ | .ioaStart _ _ | .ioaLoad _ _ _ | .ioaAt _ _ _ _ | .ins _ _ _ _ | .findStart _
  | .findAt _ _ | .done _ => True
  | _ => False

/-- The thread misses `key`: an `insert_or_assign` or `try_emplace` of `key` whose scan has no
node with `key` ahead of it, or the `insert` it went on to, before its node is linked. -/
def Misses (h : Heap K V) (key : K) : Pc K V → Prop
  | .ioaAt k _ _ current | .teAt k _ _ current => k = key ∧ ¬ h.Ahead key current
  | .ins k _ .start _ | .ins k _ (.load _) _ | .ins k _ (.store _ _) _ | .ins k _ (.cas _ _) _ =>
    k = key
  | _ => False

theorem dedup_of_start {pc : Pc K V} (h : pc.DedupStart) : pc.Dedup := by
  cases pc <;> first | exact h | trivial

theorem noUnlink_of_start {pc : Pc K V} (h : pc.DedupStart) : pc.NoUnlink := by
  cases pc <;> trivial

theorem not_misses_of_start {pc : Pc K V} (h : pc.DedupStart) (hp : Heap K V) (key : K) :
    ¬ pc.Misses hp key := by
  cases pc <;> first | exact id | exact h.elim

end Pc

namespace Machine

variable [DecidableEq K] [Hashable K] {S n : Nat} [NeZero S]

/-- Thread `t` misses `key`. -/
def Misses (m : Machine K V S n) (t : Fin n) (key : K) : Prop :=
  (m.threads t).Misses m.mem.heap key

/-- Two threads miss one key: two overlapping calls on a key that was absent when each of them
loaded the head of its bucket, neither of which has linked its node. -/
def Racing (m : Machine K V S n) : Prop :=
  ∃ t t' key, t ≠ t' ∧ m.Misses t key ∧ m.Misses t' key

/-- A step taken while no two threads miss one key. -/
def NextApart (m m' : Machine K V S n) : Prop := ¬ m.Racing ∧ Next m m'

/-- No node on the chains holds a key that a thread misses, with its scan looking at a chain
whose nodes keep their keys and links. -/
theorem ThreadShape.misses_of_frame {h h' : Heap K V} {addrs : Fin S → List Nat} {pc : Pc K V}
    (hok : ThreadShape h addrs pc) (hkeep : ∀ i, ∀ a ∈ addrs i, h'.shapeAt a = h.shapeAt a)
    {key : K} (hm : pc.Misses h' key) : pc.Misses h key := by
  have hahead : ∀ {k current}, OnChain h addrs k current → h.Ahead key current →
      h'.Ahead key current := by
    rintro k current ⟨l, hl, hsuf⟩ ⟨l', hl', a, ha, hka⟩
    obtain rfl := hl.unique hl'
    have hsh : ∀ b ∈ l, h'.shapeAt b = h.shapeAt b := fun b hb => hkeep _ b (hsuf.subset hb)
    exact ⟨l, hl.congr_shape hsh, a, ha, (Heap.key_eq_of_shapeAt_eq (hsh a ha)).trans hka⟩
  match pc, hok, hm with
  | .ioaAt .., hok, hm => exact ⟨hm.1, fun h => hm.2 (hahead hok h)⟩
  | .teAt .., hok, hm => exact ⟨hm.1, fun h => hm.2 (hahead hok.2 h)⟩
  | .ins _ _ .start _, _, hm | .ins _ _ (.load _) _, _, hm | .ins _ _ (.store _ _) _, _, hm
  | .ins _ _ (.cas _ _) _, _, hm => exact hm

/-- The invariant of `try_emplace`, `insert_or_assign` and readers that run apart: the shape
of the chains, the calls, no two nodes of the chains holding one key, and no node holding a
key a thread misses. -/
structure Dedup (m : Machine K V S n) (addrs : Fin S → List Nat) : Prop where
  shape : m.Shape addrs
  calls : ∀ t, (m.threads t).Dedup
  distinct : ∀ i j, ∀ a ∈ addrs i, ∀ b ∈ addrs j,
    (m.mem.heap a).map Node.key = (m.mem.heap b).map Node.key → a = b
  missing : ∀ t key, m.Misses t key → ∀ i, ∀ a ∈ addrs i, (m.mem.heap a).map Node.key ≠ some key

variable {m m' : Machine K V S n} {addrs addrs' : Fin S → List Nat} {t : Fin n}

/-- A scan that starts at the head of the key's bucket and finds no node with the key ahead:
no node of the chains holds the key. -/
theorem Shape.not_mem_of_head (hI : m.Shape addrs) {key : K}
    (h : ¬ m.mem.heap.Ahead key (m.table (keyIndex S key))) :
    ∀ i, ∀ a ∈ addrs i, (m.mem.heap a).map Node.key ≠ some key := by
  intro i a ha hka
  obtain ⟨nd, hnd, rfl⟩ := Option.map_eq_some'.mp hka
  have hi : keyIndex S nd.key = i := hI.index i a ha nd.key nd.next (by simp [Heap.shapeAt, hnd])
  subst hi
  exact h ⟨_, hI.chain _, a, ha, by simp [hnd]⟩

/-- A step that leaves `table_` as it was and the keys and links of the chains' nodes, with
the thread at `pc` afterwards missing only keys it missed or no node holds. -/
theorem Dedup.keep (hI : m.Dedup addrs) (hS' : m'.Shape addrs')
    (hkeep : ∀ i, ∀ a ∈ addrs i, m'.mem.heap.shapeAt a = m.mem.heap.shapeAt a) {pc : Pc K V}
    (ht : m'.table = m.table) (hth : m'.threads = Function.update m.threads t pc)
    (hcall : pc.Dedup)
    (hmiss : ∀ key, pc.Misses m'.mem.heap key → ∀ i, ∀ a ∈ addrs i,
      (m.mem.heap a).map Node.key ≠ some key) : m'.Dedup addrs' := by
  obtain rfl : addrs = addrs' := funext fun i =>
    ((hS'.chain i).unique (ht ▸ (hI.shape.chain i).congr_shape (hkeep i))).symm
  have hkey : ∀ i, ∀ a ∈ addrs i, (m'.mem.heap a).map Node.key = (m.mem.heap a).map Node.key :=
    fun i a ha => Heap.key_eq_of_shapeAt_eq (hkeep i a ha)
  refine ⟨hS', fun t' => ?_, fun i j a ha b hb hab => hI.distinct i j a ha b hb ?_,
    fun t' key hm i a ha => ?_⟩
  · rw [hth, Function.update_apply]
    split_ifs
    exacts [hcall, hI.calls t']
  · rwa [hkey i a ha, hkey j b hb] at hab
  · rw [hkey i a ha]
    unfold Misses at hm
    rw [hth, Function.update_apply] at hm
    split_ifs at hm
    · exact hmiss key hm i a ha
    · exact hI.missing t' key ((hI.shape.thread t').misses_of_frame hkeep hm) i a ha

/-- A successful `compare_exchange_weak` links a node with a key that no chain holds, and no
other thread misses that key. -/
theorem Dedup.link (hI : m.Dedup addrs) (hr : ¬ m.Racing) {key : K} {value : V} {made : Nat}
    {after : Option Nat}
    (hpc : m.threads t = .ins key value (.cas made (m.table (keyIndex S key))) after) :
    ({ m with table := Function.update m.table (keyIndex S key) (some made) }.set t
      (.ins key value .count after)).Dedup
        (Function.update addrs (keyIndex S key) (made :: addrs (keyIndex S key))) := by
  obtain ⟨addrs', hS', -, -⟩ := hI.shape.link hpc rfl
  have hok := hI.shape.thread t
  rw [hpc] at hok
  obtain ⟨nd, hnd, hshape⟩ := Option.map_eq_some'.mp hok
  obtain ⟨rfl, hnext⟩ := Prod.mk.inj hshape
  obtain rfl : addrs' = Function.update addrs (keyIndex S nd.key) (made :: addrs (keyIndex S nd.key)) :=
    funext fun i => (hS'.chain i).unique (chain_prepend hnd hI.shape.chain hnext i)
  -- the thread misses its key, so no chain holds it, and no other thread misses it
  have hmine : m.Misses t nd.key := by simp only [Misses, hpc, Pc.Misses]
  have habsent := hI.missing t nd.key hmine
  have hkey : ∀ i a, a ∈ Function.update addrs (keyIndex S nd.key) (made :: addrs (keyIndex S nd.key)) i →
      (m.mem.heap a).map Node.key = some nd.key → a = made := fun i a hi hka =>
    (mem_prepend.mp hi).elim (fun h => h.2) fun hi => absurd hka (habsent i a hi)
  refine ⟨hS', fun t' => ?_, fun i j a ha b hb hab => ?_, fun t' k hm i a ha => ?_⟩
  · simp only [set_threads, Function.update_apply]
    split_ifs
    exacts [trivial, hI.calls t']
  · simp only [set_mem] at hab ⊢
    rcases mem_prepend.mp ha with ⟨-, rfl⟩ | ha' <;> rcases mem_prepend.mp hb with ⟨-, rfl⟩ | hb'
    · rfl
    · exact (hkey j b hb (by rw [← hab, hnd]; rfl)).symm
    · exact hkey i a ha (by rw [hab, hnd]; rfl)
    · exact hI.distinct _ _ a ha' b hb' hab
  · simp only [Misses, set_threads, set_mem, Function.update_apply] at hm ⊢
    split_ifs at hm with h
    · exact (hm : False).elim
    · have hk : k ≠ nd.key := fun e => hr ⟨t, t', nd.key, Ne.symm h, hmine, e ▸ hm⟩
      rcases mem_prepend.mp ha with ⟨-, rfl⟩ | ha'
      · rw [hnd]
        exact fun e => hk (Option.some.inj e).symm
      · exact hI.missing t' k hm i a ha'

/-- One step taken while no two threads miss one key keeps the invariant. -/
theorem Dedup.step (hI : m.Dedup addrs) (hr : ¬ m.Racing) {spurious : Bool}
    (hs : m.step t spurious = some m') : ∃ addrs', m'.Dedup addrs' := by
  obtain ⟨addrs', hS', -, hkeep⟩ := hI.shape.step hs
  have keep : ∀ {pc : Pc K V}, m'.table = m.table → m'.threads = Function.update m.threads t pc →
      pc.Dedup → (∀ key, pc.Misses m'.mem.heap key → ∀ i, ∀ a ∈ addrs i,
        (m.mem.heap a).map Node.key ≠ some key) → ∃ addrs', m'.Dedup addrs' :=
    fun ht hth hc hm => ⟨addrs', hI.keep hS' hkeep ht hth hc hm⟩
  have hok := hI.shape.thread t
  have hcall := hI.calls t
  have hold := hI.missing t
  cases hpc : m.threads t <;> rw [hpc] at hok hcall
  case ins key value stage after =>
    simp only [Machine.step, hpc, Option.some.injEq] at hs
    subst hs
    cases stage
    case cas made e =>
      by_cases hc : !spurious ∧ m.table (keyIndex S key) = e
      · simp only [stepIns, if_pos hc]
        exact ⟨_, hI.link hr (by rw [hpc, hc.2])⟩
      · simp only [stepIns, if_neg hc] at keep ⊢
        exact keep rfl rfl trivial fun k h => hold k (by rw [Misses, hpc]; exact h)
    case count =>
      exact keep rfl rfl (by cases after <;> trivial) fun _ h => by
        cases after <;> exact (h : False).elim
    -- the stages before the link go on missing the key they missed
    all_goals exact keep rfl rfl trivial fun k h => hold k (by rw [Misses, hpc]; exact h)
  case findStart key =>
    simp only [Machine.step, hpc, Option.some.injEq] at hs
    subst hs
    exact keep rfl rfl trivial fun _ h => (h : False).elim
  case findAt key current =>
    cases current with
    | none =>
      simp only [Machine.step, hpc, Option.some.injEq] at hs
      subst hs
      exact keep rfl rfl trivial fun _ h => (h : False).elim
    | some a =>
      obtain ⟨-, nd, hnd, -⟩ := hok.node
      simp only [Machine.step, hpc, hnd, Option.map_some', Option.some.injEq] at hs
      subst hs
      exact keep rfl rfl (by split_ifs <;> trivial) fun _ h => by
        split_ifs at h <;> exact (h : False).elim
  case ioaStart key value =>
    simp only [Machine.step, hpc, Option.some.injEq] at hs
    subst hs
    exact keep rfl rfl trivial fun _ h => (h : False).elim
  case ioaLoad key value made =>
    simp only [Machine.step, hpc, Option.some.injEq] at hs
    subst hs
    exact keep rfl rfl trivial fun k h => by
      obtain ⟨rfl, hn⟩ := h
      exact hI.shape.not_mem_of_head hn
  case ioaAt key value made current =>
    cases current with
    | none =>
      simp only [Machine.step, hpc, Option.some.injEq] at hs
      subst hs
      exact keep rfl rfl trivial fun k h =>
        hold k (by rw [Misses, hpc]; exact ⟨h, Heap.not_ahead_none _ _⟩)
    | some a =>
      obtain ⟨-, nd, hnd, -⟩ := hok.node
      simp only [Machine.step, hpc, hnd, Option.map_some', Option.some.injEq] at hs
      subst hs
      split_ifs at keep ⊢ with hk
      · exact keep rfl rfl trivial fun _ h => (h : False).elim
      · exact keep rfl rfl trivial fun k ⟨e, hn⟩ => hold k (by
          rw [Misses, hpc]
          exact ⟨e, fun ha => hn (ha.next hnd fun h => hk (h.trans e.symm))⟩)
  case teStart key moved value =>
    simp only [Machine.step, hpc, Option.some.injEq] at hs
    subst hs
    exact keep rfl rfl hcall fun _ h => (h : False).elim
  case teLoad key moved made =>
    simp only [Machine.step, hpc, Option.some.injEq] at hs
    subst hs
    exact keep rfl rfl hcall fun k h => by
      obtain ⟨rfl, hn⟩ := h
      exact hI.shape.not_mem_of_head hn
  case teAt key moved made current =>
    have hmade : made ∈ (m.threads t).owned := by rw [hpc]; exact List.mem_singleton_self _
    cases current with
    | none =>
      obtain ⟨nd, hnd⟩ := Option.isSome_iff_exists.mp (hI.shape.owned t made hmade).1
      simp only [Machine.step, hpc, hnd, Option.map_some', Option.some.injEq] at hs
      subst hs
      -- the made node holds the key, so the `insert` misses the key the scan missed
      have hkey : nd.key = key := by
        have h := hok.1
        rw [hnd] at h
        exact Option.some.inj h
      exact keep rfl rfl trivial fun k h =>
        hold k (by rw [Misses, hpc]; exact ⟨hkey.symm.trans h, Heap.not_ahead_none _ _⟩)
    | some a =>
      obtain ⟨-, nd, hnd, -⟩ := hok.2.node
      simp only [Machine.step, hpc, hnd, Option.map_some', Option.some.injEq] at hs
      subst hs
      split_ifs at keep ⊢ with hk
      · exact keep rfl rfl trivial fun _ h => (h : False).elim
      · exact keep rfl rfl hcall fun k ⟨e, hn⟩ => hold k (by
          rw [Misses, hpc]
          exact ⟨e, fun ha => hn (ha.next hnd fun h => hk (h.trans (hcall.trans e).symm))⟩)
  case teFree made =>
    simp only [Machine.step, hpc, Option.some.injEq] at hs
    subst hs
    exact keep rfl rfl trivial fun _ h => (h : False).elim
  case done r => simp [Machine.step, hpc] at hs
  all_goals exact (hcall : False).elim

/-- Every run of steps, each taken while no two threads miss one key, keeps the invariant. -/
theorem Dedup.reach (hI : m.Dedup addrs) (h : Relation.ReflTransGen NextApart m m') :
    ∃ addrs', m'.Dedup addrs' := by
  induction h with
  | refl => exact ⟨addrs, hI⟩
  | tail _ hn ih =>
    obtain ⟨addrs₁, hI₁⟩ := ih
    obtain ⟨hr, t, spurious, hs⟩ := hn
    exact hI₁.step hr hs

/-- An object with the representation invariant whose keys are distinct, with the calls at
their first steps. -/
theorem dedup_start {d : Dict K V S} (hd : d.Inv addrs) (hu : d.keys.Nodup)
    {threads : Fin n → Pc K V} (ht : ∀ t, (threads t).DedupStart) :
    (start d threads).Dedup addrs where
  shape := shape_start hd fun t => Pc.noUnlink_of_start (ht t)
  calls t := Pc.dedup_of_start (ht t)
  distinct := (Dict.keys_nodup_iff hd.chain hd.disjoint).mp hu
  missing t key h := absurd h (Pc.not_misses_of_start (ht t) _ key)

end Machine

end ModernCli
