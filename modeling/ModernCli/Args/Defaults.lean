import Mathlib
import ModernCli.Args.Section

/-!
# Setting options in code: defaults and the command line

Besides `args::parse`, a program sets its options itself. `set(value)` overwrites what an
option holds, and `set_if_unset(value)` gives it a default unless it is set. A numeric `set`
keeps the kind of value the option holds (flag, number or string) and writes the number beside
it, so `value(default_value)`, which reads the number of an option holding one, does not see
it; a string `set` throws for an option without a usage.

* `Args.parse_set_if_unset_keeps_named`: after `parse` from fresh options, an option the
  command line did not name is as constructed, and `set_if_unset` leaves every option it named
  as it is: the command line takes precedence over a default given after it.
* `Args.parse_keeps_preset`: a successful `parse` leaves every option other than a counter
  that was set before it as it was, since a naming of a set option throws "already used".
* `Args.setters_keep_value_default`: no sequence of `set` and `set_if_unset` calls on an option
  that holds no number makes `value(d)` anything but `d`.
-/

namespace ModernCli

namespace Args

/-! ## The setters -/

/-- A `long` converted to `unsigned`: modulo `2^32`. -/
def toUnsigned (v : Int) : UInt32 := UInt32.ofNat (v % 2 ^ 32).toNat

/-- `set(long value)`: an option holding a flag takes `value > 0` as its flag, and one not
holding a string takes `value` as its number; the kind of value it holds is kept. -/
def Opt.set (o : Opt) (v : Int) : Opt :=
  { o with value := { o.value with
      flag := if o.value.index < 1 then decide (0 < v) else o.value.flag
      num := if o.value.index < 2 then toUnsigned v else o.value.num } }

/-- `set(const char *from)` and `set(const std::string& str)`. -/
def Opt.setStr (o : Opt) (t : Word) : Except Stop Opt :=
  if !o.usage then throw (.badArg "usage missing") else .ok { o with value := o.value.ofStr t }

/-- `set_if_unset(long value)`: only an option that is not set takes the flag and the number. -/
def Opt.setIfUnset (o : Opt) (v : Int) : Opt :=
  if o.value.index < 1 && !o.value.flag then
    { o with value := { o.value with flag := decide (0 < v), num := toUnsigned v } }
  else o

/-- `set_if_unset(const char *from)` and `set_if_unset(const std::string& str)`: an option
holding neither a number nor a string takes the string, whatever its flag. -/
def Opt.setIfUnsetStr (o : Opt) (t : Word) : Except Stop Opt :=
  if !o.usage then throw (.badArg "usage missing")
  else .ok (if o.value.index < 1 then { o with value := o.value.ofStr t } else o)

/-- `value(default_value)`: the number of an option holding one, as a `long`. -/
def Opt.valueOr (o : Opt) (d : Int) : Int := if o.value.index = 1 then o.value.num.toNat else d

/-- `operator*()`: the string of an option holding one, `nullptr` otherwise. -/
def Opt.deref (o : Opt) : Option Word := if o.value.index < 2 then none else o.value.str

/-- `operator!()`. -/
def Opt.not (o : Opt) : Bool := o.value.index < 1 && !o.value.flag

theorem Opt.not_eq (o : Opt) : o.not = !o.toBool := by
  cases h : o.value.index <;> simp [Opt.not, Opt.toBool, h]

/-- An option that is set ignores `set_if_unset(long)`. -/
theorem Opt.setIfUnset_of_toBool {o : Opt} (h : o.toBool) (v : Int) : o.setIfUnset v = o := by
  have hnot : o.not = false := by rw [Opt.not_eq, h]; rfl
  rw [Opt.setIfUnset, if_neg (by rw [Bool.not_eq_true]; exact hnot)]

/-- An option with a usage holding a number or a string ignores `set_if_unset(str)`. -/
theorem Opt.setIfUnsetStr_of_index_pos {o : Opt} (h : o.usage → 0 < o.value.index) (t : Word) :
    o.setIfUnsetStr t = if o.usage then .ok o else .error (.badArg "usage missing") := by
  cases hu : o.usage
  · rw [Opt.setIfUnsetStr, hu]; rfl
  · simp [Opt.setIfUnsetStr, hu, Nat.not_lt.2 (h hu)]

/-! ## Defaults after `parse` -/

section After

variable {o : Opt} {vs : List (Option Word)}

/-- A named option is set. -/
theorem Opt.toBool_after_of_ne_nil (hne : vs ≠ []) : (o.after vs).toBool := by
  cases hc : o.counter
  · exact (Opt.toBool_after hc).2 hne
  · simp [Opt.toBool, Opt.after, hc, hne, Value.fresh, Value.ofNum]

/-- A named option with a usage holds a number or a string, when a value option's namings
gave it values. -/
theorem Opt.index_after_pos (hu : o.usage) (hne : vs ≠ [])
    (hv : o.takesValue → ∀ v ∈ vs, v.isSome) : 0 < (o.after vs).value.index := by
  cases hc : o.counter
  · obtain ⟨v, vs, rfl⟩ := List.exists_cons_of_ne_nil hne
    obtain ⟨t, rfl⟩ := Option.isSome_iff_exists.1
      (hv (by simp [Opt.takesValue, hu, hc]) v (List.mem_cons_self _ _))
    simp [Opt.after, hc, Value.fresh, Value.ofStr]
  · simp [Opt.after, hc, hne, Value.fresh, Value.ofNum]

end After

section Values

variable {reg : List Opt}

/-- Every naming among the events `evs` of a value option gives it a value. -/
def TakesValues (reg : List Opt) (evs : List Event) : Prop :=
  ∀ e ∈ evs, ∀ o, reg[e.1]? = some o → o.takesValue → e.2.isSome

theorem Takes.isSome {o : Opt} {inline : Option Word} {ws ws' : List Word} {v : Option Word}
    (h : Takes o inline ws v ws') (hv : o.takesValue) : v.isSome := by
  cases h with
  | nothing plain => exact absurd hv (by simp [plain])
  | inline => rfl
  | next => rfl

theorem TakesValues.nil : TakesValues reg [] := fun e he => absurd he (List.not_mem_nil e)

theorem TakesValues.cons {i : Nat} {o : Opt} {inline : Option Word} {ws ws' : List Word}
    {v : Option Word} {evs : List Event} (found : reg[i]? = some o)
    (takes : Takes o inline ws v ws') (h : TakesValues reg evs) :
    TakesValues reg ((i, v) :: evs) := by
  intro e he o' ho' hv
  rcases List.mem_cons.1 he with rfl | he
  · obtain rfl : o' = o := Option.some.inj (ho'.symm.trans found)
    exact takes.isSome hv
  · exact h e he o' ho' hv

theorem Cluster.takesValues {cs : Word} {ws ws' : List Word} {evs : List Event}
    (h : Cluster reg cs ws evs ws') : TakesValues reg evs := by
  induction h with
  | nil => exact .nil
  | cons _ found takes _ ih => exact .cons found takes ih

/-- In an option section, value options take values. -/
theorem Section.takesValues {ws rest : List Word} {evs : List Event}
    (h : Section reg ws evs rest) : TakesValues reg evs := by
  induction h with
  | done | stop | plain => exact .nil
  | names head _ ih =>
    intro e he
    rcases List.mem_append.1 he with he | he
    · cases head with
      | byKey _ _ found takes => exact TakesValues.cons found takes .nil e he
      | byChars _ _ _ chars => exact chars.takesValues e he
    · exact ih e he

theorem TakesValues.valuesOf {evs : List Event} (h : TakesValues reg evs) {i : Nat} {o : Opt}
    (ho : reg[i]? = some o) (hv : o.takesValue) : ∀ v ∈ valuesOf evs i, v.isSome := by
  intro v hmem
  obtain ⟨e, he, hf⟩ := List.mem_filterMap.1 hmem
  by_cases hi : e.1 = i
  · rw [if_pos hi, Option.some.injEq] at hf
    exact hf ▸ h e he o (hi ▸ ho) hv
  · rw [if_neg hi] at hf
    nomatch hf

/-- The option of a tracked chain at `i` is the fresh one after the values named for it. -/
theorem Tracks.get_cur {cur : List Opt} {evs : List Event} (t : Tracks reg cur evs) {i : Nat}
    {o : Opt} (h : cur[i]? = some o) : ∃ o₀, reg[i]? = some o₀ ∧ o = o₀.after (valuesOf evs i) := by
  have hi : i < reg.length := t.length ▸ (List.getElem?_eq_some_iff.1 h).1
  exact ⟨reg[i], List.getElem?_eq_getElem hi,
    Option.some.inj (h.symm.trans (t.get i _ (List.getElem?_eq_getElem hi)))⟩

end Values

/-- `parse` from fresh options reads an option section and leaves the chain tracked. -/
theorem parse_tracks {reg : List Opt} (fresh : ∀ o ∈ reg, o.value = .fresh) {argv0 : Word}
    {ws : List Word} {s : Statics} {n : Nat}
    (h : parse ⟨reg, [], []⟩ (argv0 :: ws) = some (.ok (s, n))) :
    ∃ evs rest, Section reg ws evs rest ∧ Tracks reg s.reg evs := by
  obtain ⟨r, hscan, hr⟩ := Option.map_eq_some'.1 h
  obtain ⟨⟨cur, rest⟩, rfl, hres⟩ := map_eq_ok hr
  obtain ⟨rfl, -⟩ := Prod.mk.inj hres
  obtain ⟨evs, hsec, t⟩ := Tracks.of_scan _ (Tracks.init fresh) hscan
  exact ⟨evs, rest, hsec, by simpa using t⟩

theorem parse_set_if_unset_keeps_named (reg : List Opt) (fresh : ∀ o ∈ reg, o.value = .fresh)
    (argv0 : Word) (ws : List Word) (s : Statics) (n : Nat)
    (h : parse ⟨reg, [], []⟩ (argv0 :: ws) = some (.ok (s, n))) :
    ∃ evs rest, Section reg ws evs rest ∧ ∀ i o, s.reg[i]? = some o →
      (timesNamed evs i = 0 → reg[i]? = some o) ∧
      (0 < timesNamed evs i → (∀ v, o.setIfUnset v = o) ∧
        ∀ t, o.setIfUnsetStr t = if o.usage then .ok o else .error (.badArg "usage missing")) := by
  obtain ⟨evs, rest, hsec, t⟩ := parse_tracks fresh h
  refine ⟨evs, rest, hsec, fun i o ho => ?_⟩
  obtain ⟨o₀, ho₀, rfl⟩ := t.get_cur ho
  refine ⟨fun h0 => ?_, fun hpos => ?_⟩
  · rw [← length_valuesOf, List.length_eq_zero] at h0
    rwa [h0, Opt.after_nil (fresh o₀ (List.getElem?_mem ho₀))]
  · have hne : valuesOf evs i ≠ [] := by rwa [← List.length_pos, length_valuesOf]
    exact ⟨Opt.setIfUnset_of_toBool (Opt.toBool_after_of_ne_nil hne),
      Opt.setIfUnsetStr_of_index_pos fun hu =>
        Opt.index_after_pos hu hne (hsec.takesValues.valuesOf ho₀)⟩

/-- A counter `-v` and a value option `-o`, `--out`, after `-v --out=x`: the value option keeps
`x` whatever default is given after. -/
theorem parse_set_if_unset_keeps_named_out :
    ∃ evs rest, Section [Opt.ofCode 'v' none true, Opt.ofUsage 'o' (some "out".toList)]
        ["-v".toList, "--out=x".toList] evs rest ∧ ∀ i o,
      [(Opt.ofCode 'v' none true).bump,
          { Opt.ofUsage 'o' (some "out".toList) with value := Value.fresh.ofStr ['x'] }][i]? =
        some o →
      (timesNamed evs i = 0 → [Opt.ofCode 'v' none true,
        Opt.ofUsage 'o' (some "out".toList)][i]? = some o) ∧
      (0 < timesNamed evs i → (∀ v, o.setIfUnset v = o) ∧
        ∀ t, o.setIfUnsetStr t = if o.usage then .ok o else .error (.badArg "usage missing")) :=
  parse_set_if_unset_keeps_named [Opt.ofCode 'v' none true, Opt.ofUsage 'o' (some "out".toList)]
    (by simp [Opt.ofCode, Opt.ofUsage]) "prog".toList ["-v".toList, "--out=x".toList]
    ⟨[(Opt.ofCode 'v' none true).bump,
      { Opt.ofUsage 'o' (some "out".toList) with value := Value.fresh.ofStr ['x'] }],
      "prog".toList, []⟩ 0 rfl

/-! ## Options set before `parse` -/

section Preset

variable {i : Nat} {o : Opt}

theorem seek_getElem? {p : Opt → Bool} {reg : List Opt} {j : Nat} {x : Opt}
    (h : seek p reg = some (j, x)) : reg[j]? = some x := by
  obtain ⟨hj, hget, -, -⟩ := seek_eq_some h
  rw [List.getElem?_eq_getElem hj, hget]

/-- A naming accepts only a counter or an option that is not set, so not the option at `i`. -/
theorem ne_of_named {cur : List Opt} {j : Nat} {x : Opt} (hx : cur[j]? = some x)
    (hnamed : x.counter ∨ x.toBool = false) (ho : cur[i]? = some o) (hc : o.counter = false)
    (hb : o.toBool) : j ≠ i := by
  rintro rfl
  obtain rfl : x = o := Option.some.inj (hx.symm.trans ho)
  rcases hnamed with h | h <;> simp_all

theorem cluster_keeps (hc : o.counter = false) (hb : o.toBool) {cs : Word} :
    ∀ {cur cur' : List Opt} {list list' : List Word}, cluster cur cs list = .ok (cur', list') →
      cur[i]? = some o → cur'[i]? = some o := by
  induction cs with
  | nil =>
    intro cur cur' list list' h ho
    obtain ⟨rfl, -⟩ := Prod.mk.inj (Except.ok.inj h)
    exact ho
  | cons c cs ih =>
    intro cur cur' list list' h ho
    unfold cluster at h
    split at h
    · nomatch h
    · rename_i j x hs
      obtain ⟨⟨x', list₁⟩, hn, hcl⟩ := bind_eq_ok h
      have hji := ne_of_named (seek_getElem? hs) ((nameShort_eq_ok hn).imp (·.1) (·.2.1)) ho hc hb
      exact ih hcl (by rwa [List.getElem?_set_ne hji])

theorem optionWord_keeps (hc : o.counter = false) (hb : o.toBool) {cur cur' : List Opt}
    {hasShort : Bool} {b : Word} {list list' : List Word}
    (h : optionWord cur hasShort b list = .ok (.cont cur' list')) (ho : cur[i]? = some o) :
    cur'[i]? = some o := by
  unfold optionWord at h
  split at h
  · rename_i j x hs
    obtain ⟨⟨x', list₁⟩, hn, hp⟩ := map_eq_ok h
    obtain ⟨rfl, rfl⟩ := Pass.cont.inj hp
    rwa [List.getElem?_set_ne
      (ne_of_named (seek_getElem? hs) ((nameLong_eq_ok hn).imp (·.1) (·.2.1)) ho hc hb)]
  · split at h
    · exact absurd h (format_throw_ne_ok _ _ _)
    · obtain ⟨⟨cur₁, list₁⟩, hcl, hp⟩ := map_eq_ok h
      obtain ⟨rfl, rfl⟩ := Pass.cont.inj hp
      exact cluster_keeps hc hb hcl ho

/-- `while(*list)` keeps an option that is set and does not count. -/
theorem scan_keeps (hc : o.counter = false) (hb : o.toBool) :
    ∀ (fuel : Nat) {cur cur' : List Opt} {ws rest : List Word},
      scan fuel cur ws = some (.ok (cur', rest)) → cur[i]? = some o → cur'[i]? = some o
  | fuel, cur, cur', [], rest, h, ho => by
    obtain ⟨rfl, -⟩ : cur = cur' ∧ [] = rest := by cases fuel <;> simpa [scan] using h
    exact ho
  | 0, _, _, _ :: _, _, h, _ => nomatch h
  | fuel + 1, cur, cur', w :: ws, rest, h, ho => by
    unfold scan at h
    split at h
    · nomatch h
    · obtain ⟨rfl, -⟩ := Prod.mk.inj (Except.ok.inj (Option.some.inj h))
      exact ho
    · rename_i cur₁ ws₁ hp
      rcases pass_eq_ok hp with ⟨hr, -⟩ | ⟨hr, -⟩ | ⟨-, hword⟩
      · nomatch hr
      · nomatch hr
      · exact scan_keeps hc hb fuel h (optionWord_keeps hc hb hword ho)

end Preset

theorem parse_keeps_preset (a : Statics) (argv : List Word) (s : Statics) (n : Nat)
    (h : parse a argv = some (.ok (s, n))) (i : Nat) (o : Opt) (ho : a.reg[i]? = some o)
    (hc : o.counter = false) (hb : o.toBool) : s.reg[i]? = some o := by
  cases argv with
  | nil => nomatch h
  | cons argv0 ws =>
    obtain ⟨r, hscan, hr⟩ := Option.map_eq_some'.1 h
    obtain ⟨⟨cur, rest⟩, rfl, hres⟩ := map_eq_ok hr
    obtain ⟨rfl, -⟩ := Prod.mk.inj hres
    exact scan_keeps hc hb _ hscan ho

/-- A flag `-q` given `set(1)` before `parse`, and a counter `-v` named by the command line. -/
theorem parse_keeps_preset_quiet :
    parse ⟨[Opt.ofCode 'v' none true, (Opt.ofCode 'q' none false).set 1], [], []⟩
        ["prog".toList, "-v".toList, "file".toList] =
      some (.ok (⟨[(Opt.ofCode 'v' none true).bump, (Opt.ofCode 'q' none false).set 1],
        "prog".toList, ["file".toList]⟩, 1)) ∧
      ((Opt.ofCode 'q' none false).set 1).toBool ∧
      [(Opt.ofCode 'v' none true).bump, (Opt.ofCode 'q' none false).set 1][1]? =
        some ((Opt.ofCode 'q' none false).set 1) :=
  ⟨rfl, rfl, parse_keeps_preset ⟨[Opt.ofCode 'v' none true, (Opt.ofCode 'q' none false).set 1],
    [], []⟩ ["prog".toList, "-v".toList, "file".toList]
    ⟨[(Opt.ofCode 'v' none true).bump, (Opt.ofCode 'q' none false).set 1], "prog".toList,
      ["file".toList]⟩ 1 rfl 1 _ rfl rfl rfl⟩

/-! ## Sequences of setter calls -/

/-- A call a program makes on an option. -/
inductive Setter where
  | set (v : Int)
  | setStr (t : Word)
  | setIfUnset (v : Int)
  | setIfUnsetStr (t : Word)
  deriving DecidableEq, Repr

/-- One call. -/
def Setter.apply : Setter → Opt → Except Stop Opt
  | .set v, o => .ok (o.set v)
  | .setStr t, o => o.setStr t
  | .setIfUnset v, o => .ok (o.setIfUnset v)
  | .setIfUnsetStr t, o => o.setIfUnsetStr t

/-- Calls in order; the first that throws ends them. -/
def Opt.applyAll : Opt → List Setter → Except Stop Opt
  | o, [] => .ok o
  | o, c :: cs => (c.apply o).bind fun o => o.applyAll cs

/-- A call keeps the kind of value an option holds, or makes it hold a string. -/
theorem Setter.apply_index {c : Setter} {o o' : Opt} (h : c.apply o = .ok o') :
    o'.value.index = o.value.index ∨ o'.value.index = 2 := by
  cases c with
  | set v =>
    cases Except.ok.inj h
    exact .inl rfl
  | setStr t =>
    rw [Setter.apply, Opt.setStr] at h
    split at h
    · nomatch h
    · cases Except.ok.inj h
      exact .inr rfl
  | setIfUnset v =>
    cases Except.ok.inj h
    unfold Opt.setIfUnset
    split <;> exact .inl rfl
  | setIfUnsetStr t =>
    rw [Setter.apply, Opt.setIfUnsetStr] at h
    split at h
    · nomatch h
    · cases Except.ok.inj h
      split
      · exact .inr rfl
      · exact .inl rfl

theorem Opt.applyAll_index_ne_one : ∀ {o o' : Opt} {cs : List Setter}, o.applyAll cs = .ok o' →
    o.value.index ≠ 1 → o'.value.index ≠ 1
  | _, _, [], h, hi => by rwa [← Except.ok.inj h]
  | _, _, _ :: _, h, hi => by
    obtain ⟨o₁, hc, hcs⟩ := bind_eq_ok h
    exact Opt.applyAll_index_ne_one hcs (by rcases Setter.apply_index hc with h | h <;> omega)

theorem setters_keep_value_default (o : Opt) (cs : List Setter) (o' : Opt) (d : Int)
    (hi : o.value.index ≠ 1) (h : o.applyAll cs = .ok o') : o'.valueOr d = d :=
  if_neg (Opt.applyAll_index_ne_one h hi)

/-- `set(5)` and `set_if_unset(7)` on a value option: `value(10)` is still `10`. -/
theorem setters_keep_value_default_five :
    (Opt.ofUsage 'n' none).value.index ≠ 1 ∧
      (Opt.ofUsage 'n' none).applyAll [.set 5, .setIfUnset 7] = .ok ((Opt.ofUsage 'n' none).set 5) ∧
      ((Opt.ofUsage 'n' none).set 5).valueOr 10 = 10 :=
  ⟨by decide, rfl, setters_keep_value_default (Opt.ofUsage 'n' none) [.set 5, .setIfUnset 7]
    ((Opt.ofUsage 'n' none).set 5) 10 (by decide) rfl⟩

end Args

end ModernCli
