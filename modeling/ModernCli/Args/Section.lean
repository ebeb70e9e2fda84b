import ModernCli.Args.Parse

/-!
# The option section, as a grammar

The option section `args::parse` reads, stated apart from the code: `Section reg argv evs rest`
says that the argv words `argv` open with an option section that names options of the chain
`reg` as the events `evs` list them, each the position of the option named and the value it
takes, and that the section leaves the words `rest`. A word `--` or `-` ends the section and is
consumed, a word not starting with `-` ends it and is kept, and every other word names options
by its key, the text after its dashes and before its first `=`: the first option of that id,
or else, for a single-dash word, in turn the options whose codes are the characters after its
dash, `=` and what follows it included. A value option takes the text after `=` when its key
names it, and the next word otherwise.

`Tracks` relates the chain as `parse` changes it to the events so far; one naming, `cluster`,
a pass and `scan` each keep it.

* `Args.parse_names_options`: from fresh options `parse` returns, and when it returns
  normally, `list()` is what the section leaves, a counter counts its namings modulo `2^32`,
  any other option is named at most once, a flag is set iff it was named, and a value option
  holds the text it took.
* `Args.parse_cluster_names_after_key`: the characters after `=` in a single-dash word name
  options too.
* `Section.unique`: the events and the words left are a function of the argv words.
-/

namespace ModernCli

namespace Args

/-! ## The grammar -/

/-- A word that names options: it starts with `-` and is neither `-` nor `--`. -/
def OptionWord (w : Word) : Prop := w.head? = some '-' ∧ w ≠ ['-'] ∧ w ≠ ['-', '-']

/-- The text of an option word after its one or two leading dashes. -/
def body (w : Word) : Word := if w.take 2 = ['-', '-'] then w.drop 2 else w.drop 1

/-- The text before the first `=`. -/
def beforeEq (b : Word) : Word := b.takeWhile fun c => c ≠ '='

/-- The text after the first `=`, when there is one. -/
def afterEq (b : Word) : Option Word :=
  if '=' ∈ b then some ((b.dropWhile fun c => c ≠ '=').drop 1) else none

/-- The key of an option word: its text after the dashes and before the first `=`. -/
def key (w : Word) : Word := beforeEq (body w)

/-- An option that takes a value: it has a usage text and does not count. -/
def Opt.takesValue (o : Opt) : Bool := o.usage && !o.counter

/-- The value a named option takes, from `inline`, the text after `=`, and from the words
`ws`: a value option the inline text or else the next word, any other option nothing. -/
inductive Takes (o : Opt) : Option Word → List Word → Option Word → List Word → Prop
  | nothing {inline ws} (plain : o.takesValue = false) : Takes o inline ws none ws
  | inline {t ws} (value : o.takesValue) : Takes o (some t) ws (some t) ws
  | next {v ws} (value : o.takesValue) : Takes o none (v :: ws) (some v) ws

/-- A naming: the position of the option named, and the value it takes. -/
abbrev Event := Nat × Option Word

/-- The characters `cs` name in turn the first option of their code, each taking its value
from the words left. -/
inductive Cluster (reg : List Opt) : Word → List Word → List Event → List Word → Prop
  | nil {ws} : Cluster reg [] ws [] ws
  | cons {c cs ws i o v ws₁ evs ws₂} (first : reg.findIdx? (fun o => o.code = c) = some i)
      (found : reg[i]? = some o) (takes : Takes o none ws v ws₁)
      (tail : Cluster reg cs ws₁ evs ws₂) : Cluster reg (c :: cs) ws ((i, v) :: evs) ws₂

/-- The options the option word `w` names, and the words `ws` it leaves. -/
inductive Names (reg : List Opt) (w : Word) (ws : List Word) : List Event → List Word → Prop
  | byKey {i o v ws'} (word : OptionWord w)
      (first : reg.findIdx? (fun o => o.id = some (key w)) = some i) (found : reg[i]? = some o)
      (takes : Takes o (afterEq (body w)) ws v ws') : Names reg w ws [(i, v)] ws'
  | byChars {evs ws'} (word : OptionWord w) (single : w.take 2 ≠ ['-', '-'])
      (unmatched : reg.findIdx? (fun o => o.id = some (key w)) = none)
      (chars : Cluster reg (w.drop 1) ws evs ws') : Names reg w ws evs ws'

/-- The option section of the words `argv` names the options as `evs` lists them and leaves
the words `rest`. -/
inductive Section (reg : List Opt) : List Word → List Event → List Word → Prop
  | done : Section reg [] [] []
  | stop {w ws} (dash : w = ['-', '-'] ∨ w = ['-']) : Section reg (w :: ws) [] ws
  | plain {w ws} (first : w.head? ≠ some '-') : Section reg (w :: ws) [] (w :: ws)
  | names {w ws evs ws' evs' rest} (head : Names reg w ws evs ws')
      (tail : Section reg ws' evs' rest) : Section reg (w :: ws) (evs ++ evs') rest

/-- How often the events name the option at `i`. -/
def timesNamed (evs : List Event) (i : Nat) : Nat := evs.countP fun e => e.1 = i

/-- The options of `reg'`, after the namings `evs` of the options of `reg`: a counter counts
them modulo `2^32`, any other option is named at most once, a flag is set iff named, and a
value option holds the text it took. -/
structure Outcome (reg reg' : List Opt) (evs : List Event) : Prop where
  length : reg'.length = reg.length
  count : ∀ i o o', reg[i]? = some o → reg'[i]? = some o' → o.counter →
    o'.count.toNat = timesNamed evs i % 2 ^ 32
  once : ∀ i o, reg[i]? = some o → o.counter = false → timesNamed evs i ≤ 1
  flag : ∀ i o o', reg[i]? = some o → reg'[i]? = some o' → o.counter = false →
    o.usage = false → (o'.toBool ↔ 0 < timesNamed evs i)
  string : ∀ i o o' t, reg[i]? = some o → reg'[i]? = some o' → o.counter = false → o.usage →
    (i, some t) ∈ evs → o'.string = t

/-- The word of a naming is an option word. -/
theorem Names.word {reg : List Opt} {w : Word} {ws ws' : List Word} {evs : List Event}
    (h : Names reg w ws evs ws') : OptionWord w := by
  cases h <;> assumption

/-! ## The grammar is deterministic -/

section Unique

variable {reg : List Opt}

theorem Takes.unique {o : Opt} {inline : Option Word} {ws ws' ws'' : List Word}
    {v v' : Option Word} (h : Takes o inline ws v ws') (h' : Takes o inline ws v' ws'') :
    v = v' ∧ ws' = ws'' := by
  cases h <;> cases h' <;> simp_all

theorem Cluster.unique {cs : Word} {ws ws' ws'' : List Word} {evs evs' : List Event}
    (h : Cluster reg cs ws evs ws') (h' : Cluster reg cs ws evs' ws'') :
    evs = evs' ∧ ws' = ws'' := by
  induction h generalizing evs' ws'' with
  | nil => cases h'; exact ⟨rfl, rfl⟩
  | cons first found takes _ ih =>
    cases h' with
    | cons first' found' takes' tail' =>
      obtain rfl := Option.some.inj (first.symm.trans first')
      obtain rfl := Option.some.inj (found.symm.trans found')
      obtain ⟨rfl, rfl⟩ := takes.unique takes'
      obtain ⟨rfl, rfl⟩ := ih tail'
      exact ⟨rfl, rfl⟩

theorem Names.unique {w : Word} {ws ws' ws'' : List Word} {evs evs' : List Event}
    (h : Names reg w ws evs ws') (h' : Names reg w ws evs' ws'') : evs = evs' ∧ ws' = ws'' := by
  cases h with
  | byKey _ first found takes =>
    cases h' with
    | byKey _ first' found' takes' =>
      obtain rfl := Option.some.inj (first.symm.trans first')
      obtain rfl := Option.some.inj (found.symm.trans found')
      obtain ⟨rfl, rfl⟩ := takes.unique takes'
      exact ⟨rfl, rfl⟩
    | byChars _ _ unmatched _ => nomatch first.symm.trans unmatched
  | byChars _ _ unmatched chars =>
    cases h' with
    | byKey _ first' _ _ => nomatch first'.symm.trans unmatched
    | byChars _ _ _ chars' => exact chars.unique chars'

/-- The events and the words left are a function of the argv words. -/
theorem Section.unique {ws rest rest' : List Word} {evs evs' : List Event}
    (h : Section reg ws evs rest) (h' : Section reg ws evs' rest') : evs = evs' ∧ rest = rest' := by
  induction h generalizing evs' rest' with
  | done => cases h'; exact ⟨rfl, rfl⟩
  | stop dash =>
    cases h' with
    | stop _ => exact ⟨rfl, rfl⟩
    | plain first => rcases dash with rfl | rfl <;> exact absurd rfl first
    | names head _ =>
      rcases dash with rfl | rfl
      · exact absurd rfl head.word.2.2
      · exact absurd rfl head.word.2.1
  | plain first =>
    cases h' with
    | stop dash => rcases dash with rfl | rfl <;> exact absurd rfl first
    | plain _ => exact ⟨rfl, rfl⟩
    | names head _ => exact absurd head.word.1 first
  | names head _ ih =>
    cases h' with
    | stop dash =>
      rcases dash with rfl | rfl
      · exact absurd rfl head.word.2.2
      · exact absurd rfl head.word.2.1
    | plain first => exact absurd head.word.1 first
    | names head' tail' =>
      obtain ⟨rfl, rfl⟩ := head.unique head'
      obtain ⟨rfl, rfl⟩ := ih tail'
      exact ⟨rfl, rfl⟩

end Unique

/-! ## The code's key and inline value -/

theorem keySplitOf_cons (c : Char) (cs : Word) :
    keySplitOf (c :: cs) = if c = '=' then some 0 else (keySplitOf cs).map (· + 1) := by
  by_cases h : c = '=' <;> simp [keySplitOf, List.indexOf?_cons, h]

/-- `keyword` is the text before the first `=`. -/
theorem keywordOf_eq (b : Word) : keywordOf b = beforeEq b := by
  induction b with
  | nil => rfl
  | cons c cs ih =>
    rw [keywordOf, keySplitOf_cons, beforeEq, List.takeWhile_cons, ← beforeEq, ← ih, keywordOf]
    by_cases h : c = '='
    · simp [h]
    · cases keySplitOf cs <;> simp [h]

/-- `arg.substr(key_split + 1)` is the text after the first `=`. -/
theorem keySplitOf_map_drop (b : Word) :
    (keySplitOf b).map (fun i => b.drop (i + 1)) = afterEq b := by
  induction b with
  | nil => rfl
  | cons c cs ih =>
    rw [keySplitOf_cons]
    by_cases h : c = '='
    · simp [h, afterEq]
    · simp only [h, if_false, Option.map_map, Function.comp_def, List.drop_succ_cons]
      rw [ih]
      simp [afterEq, h, List.dropWhile_cons, Ne.symm h]

/-! ## The chain as `parse` changes it -/

/-- The values the events give the option at `i`, in order. -/
def valuesOf (evs : List Event) (i : Nat) : List (Option Word) :=
  evs.filterMap fun e => if e.1 = i then some e.2 else none

@[simp] theorem valuesOf_nil (i : Nat) : valuesOf [] i = [] := rfl

@[simp] theorem valuesOf_append (evs evs' : List Event) (i : Nat) :
    valuesOf (evs ++ evs') i = valuesOf evs i ++ valuesOf evs' i := List.filterMap_append ..

theorem valuesOf_singleton (j i : Nat) (v : Option Word) :
    valuesOf [(j, v)] i = if j = i then [v] else [] := by
  by_cases h : j = i <;> simp [valuesOf, h]

theorem length_valuesOf (evs : List Event) (i : Nat) :
    (valuesOf evs i).length = timesNamed evs i := by
  induction evs with
  | nil => rfl
  | cons e evs ih =>
    by_cases h : e.1 = i <;> simp_all [valuesOf, timesNamed, List.countP_cons]

/-- The option `o`, constructed fresh, after namings that gave it the values `vs`. -/
def Opt.after (o : Opt) (vs : List (Option Word)) : Opt :=
  { o with value :=
    if o.counter then (if vs = [] then .fresh else Value.fresh.ofNum (UInt32.ofNat vs.length))
    else match vs with
      | [] => .fresh
      | none :: _ => { Value.fresh with flag := true }
      | some t :: _ => Value.fresh.ofStr t }

section After

variable {o : Opt} {vs : List (Option Word)}

@[simp] theorem Opt.after_code : (o.after vs).code = o.code := rfl
@[simp] theorem Opt.after_id : (o.after vs).id = o.id := rfl
@[simp] theorem Opt.after_counter : (o.after vs).counter = o.counter := rfl
@[simp] theorem Opt.after_usage : (o.after vs).usage = o.usage := rfl

theorem Opt.after_nil (h : o.value = .fresh) : o.after [] = o := by
  cases o
  simp only [Opt.after, ite_self] at h ⊢
  split <;> simp [h]

theorem ofNat_succ (n : Nat) : UInt32.ofNat (n + 1) = UInt32.ofNat n + 1 := by
  apply UInt32.eq_of_toBitVec_eq
  show BitVec.ofNat 32 (n + 1) = BitVec.ofNat 32 n + BitVec.ofNat 32 1
  rw [BitVec.ofNat_add]

theorem toNat_ofNat (n : Nat) : (UInt32.ofNat n).toNat = n % 2 ^ 32 := by
  simp [UInt32.toNat, UInt32.ofNat, BitVec.toNat_ofNat]

/-- A counter named once more counts one more naming. -/
theorem Opt.bump_after (hc : o.counter) (v : Option Word) : (o.after vs).bump = o.after (vs ++ [v]) := by
  cases vs with
  | nil => simp [Opt.bump, Opt.after, hc, Value.fresh, Value.ofNum]
  | cons w vs =>
    simp [Opt.bump, Opt.after, hc, Value.fresh, Value.ofNum, Opt.count, Opt.toBool, ofNat_succ]

theorem Opt.count_after (hc : o.counter) : (o.after vs).count.toNat = vs.length % 2 ^ 32 := by
  cases vs with
  | nil => simp [Opt.count, Opt.after, hc, Opt.toBool, Value.fresh]
  | cons w vs =>
    simp [Opt.count, Opt.after, hc, Opt.toBool, Value.fresh, Value.ofNum, toNat_ofNat]

/-- An option that does not count is set once named. -/
theorem Opt.toBool_after (hc : o.counter = false) : (o.after vs).toBool ↔ vs ≠ [] := by
  rcases vs with _ | ⟨_ | t, vs⟩ <;>
    simp [Opt.toBool, Opt.after, hc, Value.fresh, Value.ofStr]

theorem Opt.string_after (hc : o.counter = false) (t : Word) : (o.after [some t]).string = t := by
  simp [Opt.string, Opt.after, hc, Value.fresh, Value.ofStr]

end After

/-- The chain `cur`, as `parse` changed the chain `reg` of fresh options so far: each option is
its fresh self after the values the events `evs` gave it, and an option that does not count is
named at most once. -/
structure Tracks (reg cur : List Opt) (evs : List Event) : Prop where
  length : cur.length = reg.length
  get : ∀ (i : Nat) (o : Opt), reg[i]? = some o → cur[i]? = some (o.after (valuesOf evs i))
  once : ∀ (i : Nat) (o : Opt), reg[i]? = some o → o.counter = false → (valuesOf evs i).length ≤ 1

section Tracking

variable {reg cur : List Opt} {evs : List Event}

theorem Tracks.init (h : ∀ o ∈ reg, o.value = .fresh) : Tracks reg reg [] where
  length := rfl
  get i o hi := by rw [hi, valuesOf_nil, Opt.after_nil (h o (List.getElem?_mem hi))]
  once _ _ _ _ := by simp

/-- The chain keeps its codes and ids, so an option is sought at the same position. -/
theorem Tracks.findIdx?_eq (t : Tracks reg cur evs) {p : Opt → Bool}
    (hp : ∀ o vs, p (o.after vs) = p o) : cur.findIdx? p = reg.findIdx? p := by
  have hmap : cur.map p = reg.map p := List.ext_getElem? fun j => by
    rw [List.getElem?_map, List.getElem?_map]
    rcases hj : reg[j]? with _ | o
    · rw [List.getElem?_eq_none_iff.2 (t.length ▸ List.getElem?_eq_none_iff.1 hj)]
    · simp [t.get j o hj, hp]
  simpa [List.findIdx?_map] using congrArg (List.findIdx? id) hmap

theorem Tracks.of_seek (t : Tracks reg cur evs) {p : Opt → Bool}
    (hp : ∀ o vs, p (o.after vs) = p o) {i : Nat} {x : Opt} (h : seek p cur = some (i, x)) :
    reg.findIdx? p = some i ∧ ∃ o, reg[i]? = some o ∧ x = o.after (valuesOf evs i) := by
  have hfst : cur.findIdx? p = some i := by rw [← seek_map_fst, h]; rfl
  obtain ⟨hi, hget, -, -⟩ := seek_eq_some h
  have hi' : i < reg.length := t.length ▸ hi
  obtain ⟨o, ho⟩ : ∃ o, reg[i]? = some o := ⟨reg[i], List.getElem?_eq_getElem hi'⟩
  have hx := t.get i o ho
  rw [List.getElem?_eq_getElem hi, hget, Option.some.injEq] at hx
  exact ⟨t.findIdx?_eq hp ▸ hfst, o, ho, hx⟩

/-- One naming of the option at `i` with the value `v` keeps the chain tracked. -/
theorem Tracks.name (t : Tracks reg cur evs) {i : Nat} {o : Opt} (ho : reg[i]? = some o)
    (hunset : o.counter = false → valuesOf evs i = []) (v : Option Word) :
    Tracks reg (cur.set i (o.after (valuesOf evs i ++ [v]))) (evs ++ [(i, v)]) where
  length := by rw [List.length_set, t.length]
  get j o' hj := by
    rw [List.getElem?_set, valuesOf_append, valuesOf_singleton]
    by_cases hij : i = j
    · subst hij
      obtain rfl : o' = o := Option.some.inj (hj.symm.trans ho)
      have hlt : i < cur.length := t.length ▸ (List.getElem?_eq_some_iff.1 ho).1
      simp [hlt]
    · simp [hij, t.get j o' hj]
  once j o' hj hc := by
    rw [valuesOf_append, valuesOf_singleton]
    by_cases hij : i = j
    · subst hij
      obtain rfl : o' = o := Option.some.inj (hj.symm.trans ho)
      simp [hunset hc]
    · simpa [hij] using t.once j o' hj hc

/-- A naming by a key of an option after the values `vs`: the option was unset unless it
counts, and it takes its value as `Takes` says. -/
theorem nameLong_after {o o' : Opt} {vs : List (Option Word)} {b : Word}
    {list list' : List Word}
    (h : nameLong (o.after vs) b (keySplitOf b) (keywordOf b) list = .ok (o', list')) :
    (o.counter = false → vs = []) ∧
      ∃ v, Takes o (afterEq b) list v list' ∧ o' = o.after (vs ++ [v]) := by
  rcases nameLong_eq_ok h with ⟨hc, rfl, rfl⟩ | ⟨hc, hb, hcase⟩
  · rw [Opt.after_counter] at hc
    exact ⟨by simp [hc], none, .nothing (by simp [Opt.takesValue, hc]), Opt.bump_after hc none⟩
  rw [Opt.after_counter] at hc
  obtain rfl : vs = [] := by
    by_contra hne
    exact absurd ((Opt.toBool_after hc).2 hne) (by simp [hb])
  refine ⟨fun _ => rfl, ?_⟩
  rcases hcase with ⟨hu, -, rfl, rfl⟩ | ⟨hu, i, hks, rfl, rfl⟩ | ⟨hu, hks, v, rfl, rfl⟩
  · refine ⟨none, .nothing (by simp_all [Opt.takesValue]), ?_⟩
    simp [Opt.after, hc, Value.fresh, Value.ofBool]
  · have heq : afterEq b = some (b.drop (i + 1)) := by rw [← keySplitOf_map_drop, hks]; rfl
    refine ⟨_, heq ▸ Takes.inline (by simp_all [Opt.takesValue]), ?_⟩
    simp [Opt.after, hc, heq, Value.fresh, Value.ofStr]
  · have heq : afterEq b = none := by rw [← keySplitOf_map_drop, hks]; rfl
    refine ⟨some v, heq ▸ Takes.next (by simp_all [Opt.takesValue]), ?_⟩
    simp [Opt.after, hc, Value.fresh, Value.ofStr]

/-- A naming by a character of an option after the values `vs`. -/
theorem nameShort_after {o o' : Opt} {vs : List (Option Word)} {c : Char}
    {list list' : List Word} (h : nameShort (o.after vs) c list = .ok (o', list')) :
    (o.counter = false → vs = []) ∧ ∃ v, Takes o none list v list' ∧ o' = o.after (vs ++ [v]) := by
  rcases nameShort_eq_ok h with ⟨hc, rfl, rfl⟩ | ⟨hc, hb, hcase⟩
  · rw [Opt.after_counter] at hc
    exact ⟨by simp [hc], none, .nothing (by simp [Opt.takesValue, hc]), Opt.bump_after hc none⟩
  rw [Opt.after_counter] at hc
  obtain rfl : vs = [] := by
    by_contra hne
    exact absurd ((Opt.toBool_after hc).2 hne) (by simp [hb])
  refine ⟨fun _ => rfl, ?_⟩
  rcases hcase with ⟨hu, rfl, rfl⟩ | ⟨hu, v, rfl, rfl⟩
  · refine ⟨none, .nothing (by simp_all [Opt.takesValue]), ?_⟩
    simp [Opt.after, hc, Value.fresh]
  · refine ⟨some v, .next (by simp_all [Opt.takesValue]), ?_⟩
    simp [Opt.after, hc, Value.fresh, Value.ofStr]

/-- A cluster names, with the values they take, the options its characters' codes choose. -/
theorem Tracks.of_cluster {cs : Word} :
    ∀ {cur cur' : List Opt} {evs : List Event} {list list' : List Word}, Tracks reg cur evs →
      cluster cur cs list = .ok (cur', list') →
      ∃ evs', Cluster reg cs list evs' list' ∧ Tracks reg cur' (evs ++ evs') := by
  induction cs with
  | nil =>
    intro cur cur' evs list list' t h
    obtain ⟨rfl, rfl⟩ := Prod.mk.inj (Except.ok.inj h)
    exact ⟨[], .nil, by simpa using t⟩
  | cons c cs ih =>
    intro cur cur' evs list list' t h
    unfold cluster at h
    split at h
    · nomatch h
    · rename_i i x hs
      obtain ⟨hfirst, o, ho, rfl⟩ := t.of_seek (by simp) hs
      obtain ⟨⟨o', list₁⟩, hn, hc⟩ := bind_eq_ok h
      obtain ⟨hunset, v, takes, rfl⟩ := nameShort_after hn
      obtain ⟨evs', hcl, t'⟩ := ih (t.name ho hunset v) hc
      exact ⟨(i, v) :: evs', .cons hfirst ho takes hcl, by simpa using t'⟩

/-- A pass over the word `w` stops at `--` or `-`, stops before a word not starting with `-`,
or reads an option word after its dashes. -/
theorem pass_eq_ok {w : Word} {list : List Word} {r : Pass} (h : pass cur w list = .ok r) :
    (r = .brk list ∧ (w = ['-', '-'] ∨ w = ['-'])) ∨ (r = .brk (w :: list) ∧ w.head? ≠ some '-') ∨
      (OptionWord w ∧ optionWord cur (decide (w.take 2 ≠ ['-', '-'])) (body w) list = .ok r) := by
  unfold pass at h
  split at h
  · exact .inl ⟨(Except.ok.inj h).symm, ‹_›⟩
  rename_i hdash
  rcases w with _ | ⟨c, w⟩
  · nomatch h
  by_cases hc : c = '-'
  · subst hc
    rcases w with _ | ⟨c', w⟩
    · exact absurd (.inr rfl) hdash
    have hword : OptionWord ('-' :: c' :: w) := ⟨rfl, by simp, fun h => hdash (.inl h)⟩
    refine .inr (.inr ⟨hword, ?_⟩)
    by_cases hc' : c' = '-'
    · subst hc'
      simpa [body, subscript] using h
    · simpa [body, subscript, hc', Except.bind] using h
  · exact .inr (.inl ⟨by simpa [subscript, hc, Except.bind] using h.symm, by simpa using hc⟩)

theorem optionWord_ne_brk (hasShort : Bool) (b : Word) (list l : List Word) :
    optionWord cur hasShort b list ≠ .ok (.brk l) := by
  intro h
  unfold optionWord at h
  split at h
  · obtain ⟨_, -, hp⟩ := map_eq_ok h
    nomatch hp
  · split at h
    · exact format_throw_ne_ok _ _ _ h
    · obtain ⟨_, -, hp⟩ := map_eq_ok h
      nomatch hp

theorem key_eq (w : Word) : key w = keywordOf (body w) := (keywordOf_eq _).symm

/-- An option word names the option of its key, or else, after one dash, the options of its
characters' codes. -/
theorem Tracks.of_optionWord (t : Tracks reg cur evs) {w : Word} (hw : OptionWord w)
    {list list' : List Word} {cur' : List Opt}
    (h : optionWord cur (decide (w.take 2 ≠ ['-', '-'])) (body w) list = .ok (.cont cur' list')) :
    ∃ evs', Names reg w list evs' list' ∧ Tracks reg cur' (evs ++ evs') := by
  unfold optionWord at h
  split at h
  · rename_i i x hs
    obtain ⟨hfirst, o, ho, rfl⟩ := t.of_seek (by simp) hs
    rw [← key_eq] at hfirst
    obtain ⟨⟨o', list₁⟩, hn, hp⟩ := map_eq_ok h
    obtain ⟨rfl, rfl⟩ := Pass.cont.inj hp
    obtain ⟨hunset, v, takes, rfl⟩ := nameLong_after hn
    exact ⟨[(i, v)], .byKey hw hfirst ho takes, t.name ho hunset v⟩
  · rename_i hs
    split at h
    · exact absurd h (format_throw_ne_ok _ _ _)
    · rename_i hshort
      have hsingle : w.take 2 ≠ ['-', '-'] := by simpa using hshort
      obtain ⟨⟨cur₁, list₁⟩, hc, hp⟩ := map_eq_ok h
      obtain ⟨rfl, rfl⟩ := Pass.cont.inj hp
      rw [body, if_neg hsingle] at hc
      obtain ⟨evs', hcl, t'⟩ := t.of_cluster hc
      have hnone : reg.findIdx? (fun o => o.id = some (key w)) = none := by
        rw [key_eq, ← t.findIdx?_eq (by simp), ← seek_map_fst, hs]
        rfl
      exact ⟨evs', .byChars hw hsingle hnone hcl, t'⟩

/-- `while(*list)` reads an option section, and leaves the chain tracked. -/
theorem Tracks.of_scan : ∀ (fuel : Nat) {cur cur' : List Opt} {evs : List Event}
    {ws rest : List Word}, Tracks reg cur evs → scan fuel cur ws = some (.ok (cur', rest)) →
    ∃ evs', Section reg ws evs' rest ∧ Tracks reg cur' (evs ++ evs')
  | fuel, cur, cur', evs, [], rest, t, h => by
    obtain ⟨rfl, rfl⟩ : cur = cur' ∧ [] = rest := by cases fuel <;> simpa [scan] using h
    exact ⟨[], .done, by simpa using t⟩
  | 0, _, _, _, _ :: _, _, _, h => nomatch h
  | fuel + 1, cur, cur', evs, w :: ws, rest, t, h => by
    unfold scan at h
    split at h
    · nomatch h
    · rename_i l hp
      obtain ⟨rfl, rfl⟩ := Prod.mk.inj (Except.ok.inj (Option.some.inj h))
      rcases pass_eq_ok hp with ⟨hr, hdash⟩ | ⟨hr, hfirst⟩ | ⟨-, hword⟩
      · obtain rfl := Pass.brk.inj hr
        exact ⟨[], .stop hdash, by simpa using t⟩
      · obtain rfl := Pass.brk.inj hr
        exact ⟨[], .plain hfirst, by simpa using t⟩
      · exact absurd hword (optionWord_ne_brk _ _ _ _)
    · rename_i cur₁ ws₁ hp
      rcases pass_eq_ok hp with ⟨hr, -⟩ | ⟨hr, -⟩ | ⟨hw, hword⟩
      · nomatch hr
      · nomatch hr
      · obtain ⟨evs₁, hn, t₁⟩ := t.of_optionWord hw hword
        obtain ⟨evs₂, hs, t₂⟩ := Tracks.of_scan fuel t₁ h
        exact ⟨evs₁ ++ evs₂, .names hn hs, by simpa using t₂⟩

/-- What a tracked chain says of each option. -/
theorem Tracks.outcome (t : Tracks reg cur evs) : Outcome reg cur evs where
  length := t.length
  count i o o' ho ho' hc := by
    rw [t.get i o ho, Option.some.injEq] at ho'
    rw [← ho', Opt.count_after hc, length_valuesOf]
  once i o ho hc := length_valuesOf evs i ▸ t.once i o ho hc
  flag i o o' ho ho' hc _ := by
    rw [t.get i o ho, Option.some.injEq] at ho'
    rw [← ho', Opt.toBool_after hc, ← length_valuesOf, List.length_pos]
  string i o o' s ho ho' hc _ hmem := by
    rw [t.get i o ho, Option.some.injEq] at ho'
    have hin : some s ∈ valuesOf evs i := List.mem_filterMap.2 ⟨_, hmem, by simp⟩
    obtain ⟨v, hv⟩ := List.length_eq_one.1
      (le_antisymm (t.once i o ho hc) (List.length_pos_of_mem hin))
    rw [hv, List.mem_singleton] at hin
    rw [← ho', hv, ← hin, Opt.string_after hc]

end Tracking

/-! ## `parse` reads the option section -/

theorem parse_names_options (reg : List Opt) (fresh : ∀ o ∈ reg, o.value = .fresh)
    (argv0 : Word) (ws : List Word) :
    (parse ⟨reg, [], []⟩ (argv0 :: ws)).isSome ∧
      ∀ s n, parse ⟨reg, [], []⟩ (argv0 :: ws) = some (.ok (s, n)) →
        ∃ evs rest, Section reg ws evs rest ∧ s.list = rest ∧ n = rest.length ∧
          Outcome reg s.reg evs := by
  refine ⟨parse_isSome _ _, fun s n h => ?_⟩
  obtain ⟨r, hscan, hr⟩ := Option.map_eq_some'.1 h
  obtain ⟨⟨cur, rest⟩, rfl, hres⟩ := map_eq_ok hr
  obtain ⟨rfl, rfl⟩ := Prod.mk.inj hres
  obtain ⟨evs, hsec, t⟩ := Tracks.of_scan _ (Tracks.init fresh) hscan
  exact ⟨evs, rest, hsec, by simp, by simp, t.outcome⟩

example : (parse ⟨[Opt.ofCode 'v' (some "--verbose".toList) true, Opt.ofUsage 'o' (some "out".toList)],
    [], []⟩ ["prog".toList, "-vv".toList, "--out=x".toList, "--verbose".toList, "file".toList]).map
      (·.map fun r => (r.1.reg.map Opt.count, r.1.reg.map Opt.string, r.1.list, r.2)) =
    some (.ok ([3, 0], [[], ['x']], [['f', 'i', 'l', 'e']], 1)) := rfl

/-- A counter `-v`, `--verbose` and a value option `-o`, `--out`, freshly constructed. -/
theorem parse_names_options_verbose_out :
    (∀ o ∈ [Opt.ofCode 'v' (some "--verbose".toList) true, Opt.ofUsage 'o' (some "out".toList)],
        o.value = .fresh) ∧
      (parse ⟨[Opt.ofCode 'v' (some "--verbose".toList) true, Opt.ofUsage 'o' (some "out".toList)],
        [], []⟩ ["prog".toList, "-vo".toList, "x".toList]).isSome ∧
      ∀ s n, parse ⟨[Opt.ofCode 'v' (some "--verbose".toList) true,
          Opt.ofUsage 'o' (some "out".toList)], [], []⟩ ["prog".toList, "-vo".toList, "x".toList] =
          some (.ok (s, n)) →
        ∃ evs rest, Section [Opt.ofCode 'v' (some "--verbose".toList) true,
            Opt.ofUsage 'o' (some "out".toList)] ["-vo".toList, "x".toList] evs rest ∧
          s.list = rest ∧ n = rest.length ∧
          Outcome [Opt.ofCode 'v' (some "--verbose".toList) true,
            Opt.ofUsage 'o' (some "out".toList)] s.reg evs :=
  have fresh : ∀ o ∈ [Opt.ofCode 'v' (some "--verbose".toList) true,
      Opt.ofUsage 'o' (some "out".toList)], o.value = .fresh := by simp [Opt.ofCode, Opt.ofUsage]
  ⟨fresh, parse_names_options _ fresh _ _⟩

/-- In the single-dash word `-a=`, whose key is `a`, the `=` after the key names the option of
code `=` too. -/
theorem parse_cluster_names_after_key :
    key "-a=".toList = ['a'] ∧
      (parse ⟨[Opt.ofCode 'a' (some "all".toList) false, Opt.ofCode '=' (some "eq".toList) false],
        [], []⟩ ["prog".toList, "-a=".toList]).map (·.map fun r => r.1.reg.map Opt.toBool) =
        some (.ok [true, true]) :=
  ⟨rfl, rfl⟩

end Args

end ModernCli
