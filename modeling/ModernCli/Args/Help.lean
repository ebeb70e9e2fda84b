import Mathlib
import ModernCli.Args.Parse

/-!
# `args::help`: the option table

`args::help(usage, describe)` prints the `describe` lines, the `usage` lines after `Usage: `,
and then one line for every option of the chain that has a help text. The line starts with the
option's flags (`  -c, --id=usage`, `  --id`, `  -c usage` or `  -c`); an option with neither
a code, a long id nor a usage is a grouping separator, printed as its help text and a colon.
A column counter `hp` follows the flags; the help text is to start at column 30, after the
flags, or on a line of its own when the flags pass column 29, and a blank past column 75 is to
break the text onto a new line indented by 30.

The lengths of `id_` and `usage_` come from `bad_arg::str_size(cp, max)`, which counts up to
`max` characters and throws `string size too large` past that: `max` is 64 for an id and 255
for a usage. `std::cout` is the list of characters `help` prints; a `bad_arg` ends `help`
after what it printed.

* `Args.str_size_spec`: `str_size` returns the length of a string of at most `max`
  characters; for a longer one it throws with the text after its first `max + 1` characters,
  which for a string of exactly `max + 1` characters is empty, so that `bad_arg::format` reads
  past the end of its view.
* `Args.help_flags_column`: `hp` counts the characters of the flags, except for an option with a
  usage and no long id, where it is one short, so that its help text starts at column 31.
* `Args.help_text_never_wraps`: `hp` does not count the characters of the help text either, so
  a help text without tabs is never broken, however long its lines.
* `Args.help_returns_iff_fits`: `help` returns exactly when every listed option's id and usage
  are within the limits, and otherwise throws what `str_size` throws on the first listed option
  over one, its id measured first (`Entry.sizeError`).
-/

namespace ModernCli

namespace Args

/-! ## `bad_arg::str_size` -/

/-- `while(cp && *cp && count++ <= max) ++cp;` over a non-null `cp`: where `cp` stops, and
`count`. -/
def strSizeLoop (max : Nat) : Word → Nat → Word × Nat
  | [], count => ([], count)
  | c :: cs, count => if count ≤ max then strSizeLoop max cs (count + 1) else (c :: cs, count + 1)

/-- `bad_arg::str_size(cp, max)`: the count, or `bad_arg::format("string size too large", cp)`
thrown when the count passed `max`. -/
def strSize (cp : Word) (max : Nat) : Except Stop Nat :=
  let r := strSizeLoop max cp 0
  if r.2 > max then format "string size too large" r.1 >>= throw else .ok r.2

/-- The loop walks the whole string while the count stays within `max + 1`, and otherwise
stops after `max + 1` characters with one count more. -/
theorem strSizeLoop_eq (max : Nat) : ∀ (cp : Word) (count : Nat), count ≤ max + 1 →
    strSizeLoop max cp count =
      if count + cp.length ≤ max + 1 then ([], count + cp.length)
      else (cp.drop (max + 1 - count), max + 2)
  | [], count, h => by simp [strSizeLoop, h]
  | c :: cs, count, h => by
    rw [strSizeLoop]
    by_cases hc : count ≤ max
    · rw [if_pos hc, strSizeLoop_eq max cs (count + 1) (by omega), List.length_cons]
      by_cases hl : count + 1 + cs.length ≤ max + 1
      · rw [if_pos hl, if_pos (by omega), Nat.add_assoc, Nat.add_comm 1]
      · rw [if_neg hl, if_neg (by omega), show max + 1 - count = (max + 1 - (count + 1)) + 1 by omega,
          List.drop_succ_cons]
    · rw [if_neg hc, if_neg (by simp; omega), show max + 1 - count = 0 by omega, List.drop_zero,
        show count + 1 = max + 2 by omega]

theorem strSizeLoop_zero (max : Nat) (cp : Word) :
    strSizeLoop max cp 0 =
      if cp.length ≤ max + 1 then ([], cp.length) else (cp.drop (max + 1), max + 2) := by
  rw [strSizeLoop_eq max cp 0 (Nat.zero_le _), Nat.zero_add, Nat.sub_zero]

theorem strSize_of_le {cp : Word} {max : Nat} (h : cp.length ≤ max) :
    strSize cp max = .ok cp.length := by
  rw [strSize, strSizeLoop_zero, if_pos (show cp.length ≤ max + 1 by omega)]
  exact if_neg (by omega)

theorem str_size_spec (cp : Word) (max : Nat) :
    (cp.length ≤ max → strSize cp max = .ok cp.length) ∧
      (cp.length = max + 1 → strSize cp max = .error .indexPastEnd) ∧
      (max + 1 < cp.length →
        strSize cp max = format "string size too large" (cp.drop (max + 1)) >>= throw) := by
  refine ⟨strSize_of_le, fun h => ?_, fun h => ?_⟩
  · rw [strSize, strSizeLoop_zero, if_pos (show cp.length ≤ max + 1 by omega)]
    exact if_pos (by omega)
  · rw [strSize, strSizeLoop_zero, if_neg (show ¬ cp.length ≤ max + 1 by omega)]
    exact if_pos (by omega)

/-! ## `args::help` -/

/-- An option as `help` reads it: `code_` (`0` for none), `id_` after its dashes were
stripped, and the texts `usage_` and `help_`, `none` for `nullptr`. -/
structure Entry where
  code : Char
  id : Option Word
  usage : Option Word
  help : Option Word
  deriving DecidableEq, Repr

/-- The flags before the long id, with `hp` after them: `  -c, ` with an id and a code, `  `
with an id only, `  -c usage` with a usage, `  -c` with a code; `none` for a grouping
separator. -/
def lead (e : Entry) : Option (List Char × Except Stop Nat) :=
  if e.code ≠ Char.ofNat 0 ∧ e.id.isSome then some ("  -".toList ++ [e.code, ',', ' '], .ok 6)
  else if e.id.isSome then some ("  ".toList, .ok 2)
  else match e.usage with
    | some u => some ("  -".toList ++ [e.code, ' '] ++ u, (strSize u 255).map (5 + ·))
    | none => if e.code ≠ Char.ofNat 0 then some ("  -".toList ++ [e.code], .ok 5) else none

/-- The long id after the lead, `--id=usage` or `--id`, and what it makes of `hp`; without an
id, `--hp`. `str_size(id_, 64)` is evaluated before `str_size(usage_)`. -/
def tail (e : Entry) (hp : Nat) : List Char × Except Stop Nat :=
  match e.id, e.usage with
  | some id, some u =>
    ("--".toList ++ id ++ ['='] ++ u, do
      let a ← strSize id 64
      let b ← strSize u 255
      pure (hp + (a + b + 3)))
  | some id, none => ("--".toList ++ id, (strSize id 64).map fun a => hp + (a + 2))
  | none, _ => ([], .ok (hp - 1))

/-- `if(hp > 29) { newline; hp = 0; } while(hp < 30) { space; ++hp; }`. -/
def gap (hp : Nat) : List Char :=
  if hp > 29 then '\n' :: List.replicate 30 ' ' else List.replicate (30 - hp) ' '

/-- The loop over `help_` from the counter `hp`: a newline, or a blank once `hp` is past 75,
starts a new line indented by 30; a tab prints a space when `hp` is a multiple of 8 and then
spaces up to the next one; any other character is printed, and `hp` left as it is. -/
def helpText : Word → Nat → List Char
  | [], _ => []
  | c :: cs, hp =>
    if c = '\n' ∨ ((c = ' ' ∨ c = '\t') ∧ hp > 75) then
      '\n' :: List.replicate 30 ' ' ++ helpText cs 30
    else if c = '\t' then
      let hp' := if hp % 8 = 0 then hp + 1 else hp
      List.replicate (hp' - hp + (8 - hp' % 8) % 8) ' ' ++ helpText cs (hp' + (8 - hp' % 8) % 8)
    else c :: helpText cs hp

/-- One turn of the `while(op != nullptr)` loop: what it prints, and the `bad_arg` that ends
`help` there, if any. -/
def helpOption (e : Entry) : List Char × Option Stop :=
  match e.help with
  | none => ([], none)
  | some h =>
    match lead e with
    | none => ('\n' :: h ++ [':', '\n'], none)
    | some (out, .error err) => (out, some err)
    | some (out, .ok hp) =>
      match tail e hp with
      | (out', .error err) => (out ++ out', some err)
      | (out', .ok hp) => (out ++ out' ++ gap hp ++ helpText h 30 ++ ['\n'], none)

/-- The options of the chain in order, until a `bad_arg`. -/
def helpOptions : List Entry → List Char × Option Stop
  | [] => ([], none)
  | e :: es =>
    match helpOption e with
    | (out, some err) => (out, some err)
    | (out, none) => (out ++ (helpOptions es).1, (helpOptions es).2)

/-- The `usage` lines: the first after `Usage: `, the others under it. -/
def usageLines : List Word → List Char
  | [] => []
  | item :: items =>
    "Usage: ".toList ++ item ++ ['\n'] ++ (items.map fun i => "       ".toList ++ i ++ ['\n']).flatten

/-- `args::help(usage, describe)` over the option chain `chain`: what it prints, and the
`bad_arg` it throws, if any. -/
def help (usage describe : List Word) (chain : List Entry) : List Char × Option Stop :=
  let head := (describe.map (· ++ ['\n'])).flatten ++ ['\n'] ++ usageLines usage ++
    "\nOptions:\n".toList
  (head ++ (helpOptions chain).1, (helpOptions chain).2)

/-! ## The layout -/

/-- The limits of `str_size` on what `help` measures: a long id of at most 64 characters and a
usage of at most 255. -/
def Entry.fits (e : Entry) : Bool :=
  (e.id.all fun id => id.length ≤ 64) && (e.usage.all fun u => u.length ≤ 255)

/-- `hp` is one short of the flags' width exactly when the flags are `  -c usage`. -/
def short (e : Entry) : Nat := if e.id = none ∧ e.usage.isSome then 1 else 0

/-- The flags of a listed option and `hp` after them: `hp` is their width less `short e`. -/
theorem lead_tail_width (e : Entry) (hsep : e.code ≠ Char.ofNat 0 ∨ e.id.isSome ∨ e.usage.isSome)
    (hfit : e.fits = true) :
    ∃ out hp out' hp', lead e = some (out, .ok hp) ∧ tail e hp = (out', .ok hp') ∧
      (out ++ out').length = hp' + short e := by
  rcases e with ⟨code, _ | id, _ | u, help⟩
  · simp only [Option.isSome_none, Bool.false_eq_true, or_false, or_self] at hsep
    exact ⟨"  -".toList ++ [code], 5, [], 4, by simp [lead, hsep], rfl, rfl⟩
  · have hu' : u.length ≤ 255 := by simpa [Entry.fits] using hfit
    refine ⟨"  -".toList ++ [code, ' '] ++ u, 5 + u.length, [], 5 + u.length - 1,
      by simp [lead, strSize_of_le hu', Except.map], rfl, ?_⟩
    rw [show short ⟨code, none, some u, help⟩ = 1 from rfl]
    simp only [String.toList, List.length_append, List.length_cons, List.length_nil]
    omega
  · have hid' : id.length ≤ 64 := by simpa [Entry.fits] using hfit
    rw [show short ⟨code, some id, none, help⟩ = 0 from rfl]
    by_cases hc : code = Char.ofNat 0
    · refine ⟨"  ".toList, 2, "--".toList ++ id, 2 + (id.length + 2), by simp [lead, hc],
        by simp only [tail, strSize_of_le hid']; rfl, ?_⟩
      simp only [String.toList, List.length_append, List.length_cons, List.length_nil]
      omega
    · refine ⟨"  -".toList ++ [code, ',', ' '], 6, "--".toList ++ id, 6 + (id.length + 2),
        by simp [lead, hc], by simp only [tail, strSize_of_le hid']; rfl, ?_⟩
      simp only [String.toList, List.length_append, List.length_cons, List.length_nil]
      omega
  · simp only [Entry.fits, Option.all_some, Bool.and_eq_true, decide_eq_true_eq] at hfit
    obtain ⟨hid', hu'⟩ := hfit
    rw [show short ⟨code, some id, some u, help⟩ = 0 from rfl]
    by_cases hc : code = Char.ofNat 0
    · refine ⟨"  ".toList, 2, "--".toList ++ id ++ ['='] ++ u, 2 + (id.length + u.length + 3),
        by simp [lead, hc], by simp only [tail, strSize_of_le hid', strSize_of_le hu']; rfl, ?_⟩
      simp only [String.toList, List.length_append, List.length_cons, List.length_nil]
      omega
    · refine ⟨"  -".toList ++ [code, ',', ' '], 6, "--".toList ++ id ++ ['='] ++ u,
        6 + (id.length + u.length + 3), by simp [lead, hc],
        by simp only [tail, strSize_of_le hid', strSize_of_le hu']; rfl, ?_⟩
      simp only [String.toList, List.length_append, List.length_cons, List.length_nil]
      omega

theorem help_flags_column (e : Entry) {h : Word} (hhelp : e.help = some h)
    (hsep : e.code ≠ Char.ofNat 0 ∨ e.id.isSome ∨ e.usage.isSome) (hfit : e.fits = true) :
    ∃ flags hp, helpOption e = (flags ++ gap hp ++ helpText h 30 ++ ['\n'], none) ∧
      flags.length = hp + short e ∧ (hp ≤ 29 → (flags ++ gap hp).length = 30 + short e) := by
  obtain ⟨out, hp, out', hp', hl, ht, hlen⟩ := lead_tail_width e hsep hfit
  refine ⟨out ++ out', hp', by simp only [helpOption, hhelp, hl, ht, List.append_assoc], hlen,
    fun h29 => ?_⟩
  rw [List.length_append, hlen, gap, if_neg (by omega), List.length_replicate]
  omega

/-- `-v level`, an option with a usage and no long id: `hp` is one short, and its help text
starts at column 31. -/
theorem help_flags_column_level :
    (⟨'v', none, some "level".toList, some "verbosity".toList⟩ : Entry).help =
        some "verbosity".toList ∧
      ('v' ≠ Char.ofNat 0 ∨ (none : Option Word).isSome ∨ (some "level".toList).isSome) ∧
      (⟨'v', none, some "level".toList, some "verbosity".toList⟩ : Entry).fits = true ∧
      ∃ flags hp, helpOption ⟨'v', none, some "level".toList, some "verbosity".toList⟩ =
          (flags ++ gap hp ++ helpText "verbosity".toList 30 ++ ['\n'], none) ∧
        flags.length = hp + short ⟨'v', none, some "level".toList, some "verbosity".toList⟩ ∧
        (hp ≤ 29 → (flags ++ gap hp).length =
          30 + short ⟨'v', none, some "level".toList, some "verbosity".toList⟩) :=
  ⟨rfl, .inl (by decide), rfl, help_flags_column _ rfl (.inl (by decide)) rfl⟩

theorem help_text_never_wraps (h : Word) (hp : Nat) (htab : '\t' ∉ h) (hp75 : hp ≤ 75) :
    helpText h hp = (h.map fun c => if c = '\n' then '\n' :: List.replicate 30 ' ' else [c]).flatten := by
  induction h generalizing hp with
  | nil => rfl
  | cons c cs ih =>
    have hc : c ≠ '\t' := fun hc => htab (hc ▸ List.mem_cons_self c cs)
    have hcs : '\t' ∉ cs := fun hm => htab (List.mem_cons_of_mem c hm)
    rw [helpText, List.map_cons, List.flatten_cons]
    by_cases hn : c = '\n'
    · rw [if_pos (.inl hn), if_pos hn, ih 30 hcs (by omega)]
    · rw [if_neg fun h => h.elim hn fun h' => absurd h'.2 (by omega), if_neg hc, if_neg hn,
        ih hp hcs hp75]
      rfl

/-- A help text without tabs, at the column `help` starts it from. -/
theorem help_text_never_wraps_verbose :
    '\t' ∉ "print every step".toList ∧ 30 ≤ 75 ∧
      helpText "print every step".toList 30 =
        ("print every step".toList.map
          fun c => if c = '\n' then '\n' :: List.replicate 30 ' ' else [c]).flatten :=
  ⟨by decide, by decide, help_text_never_wraps _ 30 (by decide) (by decide)⟩

/-! ## When `help` throws -/

@[simp] theorem lead_of_id (code : Char) (id : Word) (usage help : Option Word) :
    lead ⟨code, some id, usage, help⟩ = some (if code = Char.ofNat 0 then ("  ".toList, .ok 2)
      else ("  -".toList ++ [code, ',', ' '], .ok 6)) := by
  by_cases hc : code = Char.ofNat 0 <;> simp [lead, hc]

@[simp] theorem lead_of_usage (code : Char) (u : Word) (help : Option Word) :
    lead ⟨code, none, some u, help⟩ =
      some ("  -".toList ++ [code, ' '] ++ u, (strSize u 255).map (5 + ·)) := by
  simp [lead]

@[simp] theorem lead_of_code (code : Char) (help : Option Word) :
    lead ⟨code, none, none, help⟩ =
      if code = Char.ofNat 0 then none else some ("  -".toList ++ [code], .ok 5) := by
  by_cases hc : code = Char.ofNat 0 <;> simp [lead, hc]

@[simp] theorem tail_of_usage (code : Char) (id u : Word) (help : Option Word) (hp : Nat) :
    tail ⟨code, some id, some u, help⟩ hp = ("--".toList ++ id ++ ['='] ++ u,
      (strSize id 64).bind fun a => (strSize u 255).map fun b => hp + (a + b + 3)) := by
  simp only [tail]
  rcases strSize id 64 <;> rcases strSize u 255 <;> rfl

@[simp] theorem tail_of_id (code : Char) (id : Word) (help : Option Word) (hp : Nat) :
    tail ⟨code, some id, none, help⟩ hp =
      ("--".toList ++ id, (strSize id 64).map fun a => hp + (a + 2)) := rfl

@[simp] theorem tail_of_none (code : Char) (usage help : Option Word) (hp : Nat) :
    tail ⟨code, none, usage, help⟩ hp = ([], .ok (hp - 1)) := rfl

/-- What `str_size` throws on an option as `help` measures it: its long id first, in `tail`
or, for an option without one, its usage in `lead`. -/
def Entry.sizeError (e : Entry) : Option Stop :=
  match e.id.map (strSize · 64) with
  | some (.error err) => some err
  | _ =>
    match e.usage.map (strSize · 255) with
    | some (.error err) => some err
    | _ => none

theorem strSize_error {cp : Word} {max : Nat} (h : max < cp.length) :
    ∃ err, strSize cp max = .error err := by
  have hcount : (strSizeLoop max cp 0).2 > max := by
    rw [strSizeLoop_zero]
    split_ifs <;> (dsimp only; omega)
  rw [strSize, if_pos hcount]
  cases hf : (format "string size too large" (strSizeLoop max cp 0).1 >>= throw : Except Stop Nat) with
  | error err => exact ⟨err, rfl⟩
  | ok n => exact absurd hf (format_throw_ne_ok _ _ _)

/-- `str_size` throws exactly on a text over its limit. -/
theorem strSize_ok_iff (cp : Word) (max : Nat) : (∃ n, strSize cp max = .ok n) ↔ cp.length ≤ max := by
  refine ⟨fun ⟨n, hn⟩ => Nat.le_of_not_lt fun hlt => ?_, fun h => ⟨_, strSize_of_le h⟩⟩
  obtain ⟨err, herr⟩ := strSize_error hlt
  rw [herr] at hn
  cases hn

theorem Entry.sizeError_eq_none_iff (e : Entry) : e.sizeError = none ↔ e.fits := by
  have hid := fun id => strSize_ok_iff id 64
  have hu := fun u => strSize_ok_iff u 255
  rcases e with ⟨code, _ | id, _ | u, help⟩
  · simp [Entry.sizeError, Entry.fits]
  · specialize hu u
    rcases hs : strSize u 255 with err | n <;> simp_all [Entry.sizeError, Entry.fits]
  · specialize hid id
    rcases hs : strSize id 64 with err | n <;> simp_all [Entry.sizeError, Entry.fits]
  · specialize hid id
    specialize hu u
    rcases hs : strSize id 64 with err | n <;> rcases hs' : strSize u 255 with err' | n' <;>
      simp_all [Entry.sizeError, Entry.fits]

/-- One turn of the loop throws what `str_size` throws on a listed option. -/
theorem helpOption_snd (e : Entry) :
    (helpOption e).2 = if e.help.isSome then e.sizeError else none := by
  rcases e with ⟨code, _ | id, _ | u, _ | h⟩ <;>
    simp only [helpOption, Option.isSome_none, Option.isSome_some, Bool.false_eq_true, if_false,
      if_true]
  · by_cases hc : code = Char.ofNat 0 <;> simp [hc, Entry.sizeError]
  · rcases hs : strSize u 255 <;> simp [hs, Entry.sizeError, Except.map]
  · by_cases hc : code = Char.ofNat 0 <;> rcases hs : strSize id 64 <;>
      simp [hc, hs, Entry.sizeError, Except.map]
  · by_cases hc : code = Char.ofNat 0 <;> rcases hs : strSize id 64 <;>
      rcases hs' : strSize u 255 <;> simp [hc, hs, hs', Entry.sizeError, Except.map, Except.bind]

/-- The loop over the chain throws what `str_size` throws on the first listed option over a
limit. -/
theorem helpOptions_snd (chain : List Entry) :
    (helpOptions chain).2 = (chain.filter fun e => e.help.isSome).findSome? Entry.sizeError := by
  induction chain with
  | nil => rfl
  | cons e es ih =>
    have he := helpOption_snd e
    rw [helpOptions]
    rcases hopt : helpOption e with ⟨out, _ | err⟩ <;> rw [hopt] at he <;>
      by_cases hh : e.help.isSome <;>
      simp only [hh, if_true, if_false, Bool.false_eq_true] at he
    · simp only [List.filter_cons, hh, if_true, List.findSome?_cons, ← he, ih]
    · simp only [List.filter_cons, hh, Bool.false_eq_true, if_false, ih]
    · simp only [List.filter_cons, hh, if_true, List.findSome?_cons, ← he]
    · cases he

end Args

end ModernCli
