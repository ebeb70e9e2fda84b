import Mathlib

/-!
# `args::parse`: the option section of a command line

`args.hpp` keeps the options a program declares in one static chain, `option::first_`, in
the order they are constructed; each construction strips up to two leading `-` from the
option's long id. `args::parse(argc, argv)` walks the argv words after `argv[0]`: a word `--`
or `-` ends the option section and is consumed, a word not starting with `-` ends it and is
kept, and every other word names options. Its key, the text after one or two dashes and
before the first `=`, names the first option of that id; failing that, a single-dash word
names in turn the option of each of its characters' codes. What is left of argv becomes
`list()`.

An argv word is the `std::string_view` over it, a list of characters; an index at or past
the end of a view is `Stop.indexPastEnd`, and a `bad_arg` thrown is `Stop.badArg` with its
text. The outer `while(*list)` loop is `scan`, which runs on fuel: each pass consumes at least
one word, so the number of words is enough (`scan_isSome`).

* `Args.parse_indexes_past_end`: an empty argv word, and a long option word with an empty
  key, make `parse` index a view past its end.
-/

namespace ModernCli

namespace Args

/-- An argv word as a `std::string_view`: its characters, without the terminating NUL. -/
abbrev Word := List Char

/-- How `parse` ends other than by returning. -/
inductive Stop where
  /-- `throw bad_arg(text)`. -/
  | badArg (text : String)
  /-- `std::string_view::operator[]` at a position not below the view's size. -/
  | indexPastEnd
  deriving DecidableEq, Repr

/-- `value[pos]` on a `std::string_view`. -/
def subscript (value : Word) (pos : Nat) : Except Stop Char :=
  match value[pos]? with
  | some c => .ok c
  | none => .error .indexPastEnd

/-- `bad_arg::format(text, value)`: the word is shown after `--` unless it starts with a sign. -/
def format (text : String) (value : Word) : Except Stop Stop :=
  (subscript value 0).map fun c =>
    .badArg ((if c ≠ '+' ∧ c ≠ '-' then text ++ " " ++ "--" else text ++ " ") ++ String.mk value)

/-- `bad_arg::format(text, code)`. -/
def formatCode (text : String) (code : Char) : Stop :=
  .badArg ((text ++ " -").push code)

/-! ## Options -/

/-- `args::value_t`: `index` 0 holds a flag, 1 a number, 2 a string. -/
structure Value where
  index : Nat
  flag : Bool
  /-- `str`: `none` for `nullptr`. -/
  str : Option Word
  num : UInt32
  deriving DecidableEq, Repr

/-- `value_t(false)`, the value an option is constructed with. -/
def Value.fresh : Value := ⟨0, false, none, 0⟩

/-- `value_ = n` for an `unsigned n`. -/
def Value.ofNum (v : Value) (n : UInt32) : Value := { v with index := 1, num := n }

/-- `value_ = f` for a `bool f`. -/
def Value.ofBool (v : Value) (f : Bool) : Value := { v with index := 0, flag := f }

/-- `value_ = s` for a `const char *s`. -/
def Value.ofStr (v : Value) (s : Word) : Value := { v with index := 2, str := some s }

/-- An `args::option`, with the fields `parse` reads: `usage` is whether `usage_` is set, and
`id` is `id_` after the constructor stripped its dashes. -/
structure Opt where
  value : Value
  code : Char
  counter : Bool
  usage : Bool
  id : Option Word
  deriving DecidableEq, Repr

/-- `if(id_[0] == '-') ++id_;` -/
def stripDash : Word → Word
  | '-' :: id => id
  | id => id

/-- What `add_option` does to `id_`: it drops up to two leading dashes. -/
def stripId (id : Word) : Word := stripDash (stripDash id)

/-- `option(help)`: no code, no id. -/
def Opt.ofHelp : Opt := ⟨.fresh, Char.ofNat 0, false, false, none⟩

/-- `option(ch, id, help, counter)`. -/
def Opt.ofCode (ch : Char) (id : Option Word) (counter : Bool) : Opt :=
  ⟨.fresh, ch, counter, false, id.map stripId⟩

/-- `option(ch, id, help, usage)`. -/
def Opt.ofUsage (ch : Char) (id : Option Word) : Opt := ⟨.fresh, ch, false, true, id.map stripId⟩

/-- `explicit operator bool()`. -/
def Opt.toBool (o : Opt) : Bool := o.value.index > 0 || o.value.flag

/-- `count()`. -/
def Opt.count (o : Opt) : UInt32 := if o.toBool then o.value.num else 0

/-- `string()`. -/
def Opt.string (o : Opt) : Word := if o.value.index > 1 then o.value.str.getD [] else []

/-- A counter named once more: `value_ = 1U` the first time, `value_ = count() + 1U` after. -/
def Opt.bump (o : Opt) : Opt :=
  { o with value := if o.value.index < 1 then o.value.ofNum 1 else o.value.ofNum (o.count + 1) }

/-- `op = first_; while(op) { if(p(op)) break; op = op->next_; }`: the first option that
satisfies `p`, with its position in the chain. -/
def seek (p : Opt → Bool) : List Opt → Option (Nat × Opt)
  | [] => none
  | o :: os => if p o then some (0, o) else (seek p os).map fun (i, o) => (i + 1, o)

theorem seek_eq_none_iff {p : Opt → Bool} {reg : List Opt} :
    seek p reg = none ↔ ∀ o ∈ reg, p o = false := by
  induction reg with
  | nil => simp [seek]
  | cons o os ih => by_cases h : p o <;> simp [seek, h, ih]

/-- `seek` finds the position `List.findIdx?` finds. -/
theorem seek_map_fst (p : Opt → Bool) (reg : List Opt) :
    (seek p reg).map Prod.fst = reg.findIdx? p := by
  induction reg with
  | nil => rfl
  | cons o os ih =>
    by_cases h : p o
    · simp [seek, h, List.findIdx?_cons]
    · simp [seek, h, List.findIdx?_cons, List.findIdx?_succ, ← ih, Option.map_map, Function.comp_def]

/-- The option `seek` finds is the first one that satisfies `p`. -/
theorem seek_eq_some {p : Opt → Bool} {reg : List Opt} {i : Nat} {o : Opt}
    (h : seek p reg = some (i, o)) :
    ∃ hi : i < reg.length, reg[i] = o ∧ p o ∧ ∀ j (hj : j < i), p reg[j] = false := by
  induction reg generalizing i with
  | nil => cases h
  | cons o' os ih =>
    by_cases hp : p o'
    · simp only [seek, hp, if_true, Option.some.injEq, Prod.mk.injEq] at h
      obtain ⟨rfl, rfl⟩ := h
      exact ⟨by simp, rfl, hp, fun j hj => absurd hj (Nat.not_lt_zero j)⟩
    · rw [seek, if_neg hp] at h
      obtain ⟨⟨i', o''⟩, hs, hio⟩ := Option.map_eq_some'.1 h
      obtain ⟨rfl, rfl⟩ := Prod.mk.inj hio
      obtain ⟨hi, hget, hpo, hfirst⟩ := ih hs
      refine ⟨by rw [List.length_cons]; omega, hget, hpo, fun j hj => ?_⟩
      cases j with
      | zero => simpa using hp
      | succ j => exact hfirst j (by omega)

/-! ## One word -/

/-- The option the key of an option word names: `arg` is the word after its dashes, and
`list` the argv words after it. -/
def nameLong (o : Opt) (arg : Word) (keySplit : Option Nat) (keyword : Word) (list : List Word) :
    Except Stop (Opt × List Word) :=
  if o.counter then .ok (o.bump, list)
  else if o.toBool then format "already used" keyword >>= throw
  else if !o.usage then
    if keySplit.isSome then format "invalid value" keyword >>= throw
    else .ok ({ o with value := o.value.ofBool true }, list)
  else match keySplit with
    | some i => .ok ({ o with value := o.value.ofStr (arg.drop (i + 1)) }, list)
    | none => match list with
      | [] => format "missing value" keyword >>= throw
      | v :: list => .ok ({ o with value := o.value.ofStr v }, list)

/-- The option a character of a single-dash word names. -/
def nameShort (o : Opt) (code : Char) (list : List Word) : Except Stop (Opt × List Word) :=
  if o.counter then .ok (o.bump, list)
  else if o.toBool then throw (formatCode "already used" code)
  else if !o.usage then .ok ({ o with value := { o.value with flag := true } }, list)
  else match list with
    | [] => throw (formatCode "missing value" code)
    | v :: list => .ok ({ o with value := o.value.ofStr v }, list)

/-- `while(pos < arg.size())`: each character of the word after its dash names the first
option of that code. -/
def cluster : List Opt → Word → List Word → Except Stop (List Opt × List Word)
  | reg, [], list => .ok (reg, list)
  | reg, c :: cs, list =>
    match seek (fun o => decide (o.code = c)) reg with
    | none => throw (formatCode "unknown option" c)
    | some (i, o) => (nameShort o c list).bind fun (o, list) => cluster (reg.set i o) cs list

/-- The end of one pass of `while(*list)`: a `break` with the words left, or the registry and
the words left for the next pass. -/
inductive Pass where
  | brk (list : List Word)
  | cont (reg : List Opt) (list : List Word)
  deriving DecidableEq, Repr

/-- `arg.find('=')`. -/
def keySplitOf (arg : Word) : Option Nat := arg.indexOf? '='

/-- `keyword`: the word before its first `=`. -/
def keywordOf (arg : Word) : Word :=
  match keySplitOf arg with
  | some i => arg.take i
  | none => arg

/-- An option word after its dashes, `hasShort` when there was one dash. -/
def optionWord (reg : List Opt) (hasShort : Bool) (arg : Word) (list : List Word) :
    Except Stop Pass :=
  match seek (fun o => decide (o.id = some (keywordOf arg))) reg with
  | some (i, o) => (nameLong o arg (keySplitOf arg) (keywordOf arg) list).map fun (o, list) =>
      .cont (reg.set i o) list
  | none =>
    if !hasShort then format "unknown argument" (keywordOf arg) >>= throw
    else (cluster reg arg list).map fun (reg, list) => .cont reg list

/-- One pass of `while(*list)` over the word `arg`, with `list` the words after it. -/
def pass (reg : List Opt) (arg : Word) (list : List Word) : Except Stop Pass :=
  if arg = ['-', '-'] ∨ arg = ['-'] then .ok (.brk list)
  else (subscript arg 0).bind fun c =>
    if c ≠ '-' then .ok (.brk (arg :: list))
    else (subscript arg 1).bind fun c =>
      if c = '-' then optionWord reg false (arg.drop 2) list
      else optionWord reg true (arg.drop 1) list

/-- `while(*list)`, on fuel: `none` when the fuel runs out. -/
def scan : Nat → List Opt → List Word → Option (Except Stop (List Opt × List Word))
  | _, reg, [] => some (.ok (reg, []))
  | 0, _, _ :: _ => none
  | fuel + 1, reg, arg :: list =>
    match pass reg arg list with
    | .error e => some (.error e)
    | .ok (.brk list) => some (.ok (reg, list))
    | .ok (.cont reg list) => scan fuel reg list

/-- The statics of `args`: the option chain, `argv0_` and `argv_`. -/
structure Statics where
  reg : List Opt
  argv0 : Word
  list : List Word
  deriving DecidableEq, Repr

/-- `args::parse(argc, argv)`, with `argv` the words before its null pointer; it returns
`count()`. -/
def parse (a : Statics) : List Word → Option (Except Stop (Statics × Nat))
  | [] => some (.error (.badArg "arguments missing"))
  | argv0 :: list => (scan list.length a.reg list).map fun r => r.map fun (reg, rest) =>
      (⟨reg, argv0, a.list ++ rest⟩, (a.list ++ rest).length)

/-! ## Peeling a computation apart -/

theorem bind_eq_ok {α β : Type} {x : Except Stop α} {f : α → Except Stop β} {b : β}
    (h : x.bind f = .ok b) : ∃ a, x = .ok a ∧ f a = .ok b := by
  cases x with
  | error e => nomatch h
  | ok a => exact ⟨a, rfl, h⟩

theorem map_eq_ok {α β : Type} {x : Except Stop α} {f : α → β} {b : β}
    (h : x.map f = .ok b) : ∃ a, x = .ok a ∧ f a = b := by
  cases x with
  | error e => nomatch h
  | ok a => exact ⟨a, rfl, Except.ok.inj h⟩

/-! ## What one naming can do -/

theorem format_throw_ne_ok {α : Type} (text : String) (value : Word) (x : α) :
    (format text value >>= throw : Except Stop α) ≠ .ok x := by
  unfold format subscript
  split <;> nofun

section Naming

variable {o o' : Opt} {list list' : List Word}

/-- A successful naming by a key: a counter counts, and an unset option is set to `true`, to
the text after `=`, or to the next word. -/
theorem nameLong_eq_ok {arg keyword : Word} {keySplit : Option Nat}
    (h : nameLong o arg keySplit keyword list = .ok (o', list')) :
    (o.counter ∧ o' = o.bump ∧ list' = list) ∨
      (o.counter = false ∧ o.toBool = false ∧
        (o.usage = false ∧ keySplit = none ∧ o' = { o with value := o.value.ofBool true } ∧
            list' = list ∨
          o.usage ∧ (∃ i, keySplit = some i ∧
              o' = { o with value := o.value.ofStr (arg.drop (i + 1)) } ∧ list' = list) ∨
          o.usage ∧ keySplit = none ∧ ∃ v, list = v :: list' ∧
            o' = { o with value := o.value.ofStr v })) := by
  unfold nameLong at h
  by_cases hc : o.counter
  · rw [if_pos hc, Except.ok.injEq, Prod.mk.injEq] at h
    exact .inl ⟨hc, h.1.symm, h.2.symm⟩
  refine .inr ⟨by simpa using hc, ?_⟩
  rw [if_neg hc] at h
  by_cases hb : o.toBool
  · rw [if_pos hb] at h
    exact absurd h (format_throw_ne_ok _ _ _)
  refine ⟨by simpa using hb, ?_⟩
  rw [if_neg hb] at h
  by_cases hu : o.usage
  · rw [if_neg (by simpa using hu)] at h
    rcases keySplit with _ | i
    · rcases list with _ | ⟨v, list⟩
      · exact absurd h (format_throw_ne_ok _ _ _)
      · rw [Except.ok.injEq, Prod.mk.injEq] at h
        exact .inr (.inr ⟨hu, rfl, v, by rw [h.2], h.1.symm⟩)
    · rw [Except.ok.injEq, Prod.mk.injEq] at h
      exact .inr (.inl ⟨hu, i, rfl, h.1.symm, h.2.symm⟩)
  · rw [if_pos (by simpa using hu)] at h
    rcases keySplit with _ | i
    · rw [if_neg (by simp), Except.ok.injEq, Prod.mk.injEq] at h
      exact .inl ⟨by simpa using hu, rfl, h.1.symm, h.2.symm⟩
    · rw [if_pos (by rfl)] at h
      exact absurd h (format_throw_ne_ok _ _ _)

/-- A successful naming by a character: a counter counts, and an unset option is set to
`true` or to the next word. -/
theorem nameShort_eq_ok {code : Char} (h : nameShort o code list = .ok (o', list')) :
    (o.counter ∧ o' = o.bump ∧ list' = list) ∨
      (o.counter = false ∧ o.toBool = false ∧
        (o.usage = false ∧ o' = { o with value := { o.value with flag := true } } ∧ list' = list ∨
          o.usage ∧ ∃ v, list = v :: list' ∧ o' = { o with value := o.value.ofStr v })) := by
  unfold nameShort at h
  by_cases hc : o.counter
  · rw [if_pos hc, Except.ok.injEq, Prod.mk.injEq] at h
    exact .inl ⟨hc, h.1.symm, h.2.symm⟩
  refine .inr ⟨by simpa using hc, ?_⟩
  rw [if_neg hc] at h
  by_cases hb : o.toBool
  · rw [if_pos hb] at h
    nomatch h
  refine ⟨by simpa using hb, ?_⟩
  rw [if_neg hb] at h
  by_cases hu : o.usage
  · rw [if_neg (by simpa using hu)] at h
    rcases list with _ | ⟨v, list⟩
    · nomatch h
    · rw [Except.ok.injEq, Prod.mk.injEq] at h
      exact .inr ⟨hu, v, by rw [h.2], h.1.symm⟩
  · rw [if_pos (by simpa using hu), Except.ok.injEq, Prod.mk.injEq] at h
    exact .inl ⟨by simpa using hu, h.1.symm, h.2.symm⟩

theorem nameLong_length {arg keyword : Word} {keySplit : Option Nat}
    (h : nameLong o arg keySplit keyword list = .ok (o', list')) : list'.length ≤ list.length := by
  rcases nameLong_eq_ok h with ⟨-, -, rfl⟩ | ⟨-, -, ⟨-, -, -, rfl⟩ | ⟨-, -, -, -, rfl⟩ |
    ⟨-, -, v, rfl, -⟩⟩ <;> simp

theorem nameShort_length {code : Char} (h : nameShort o code list = .ok (o', list')) :
    list'.length ≤ list.length := by
  rcases nameShort_eq_ok h with ⟨-, -, rfl⟩ | ⟨-, -, ⟨-, -, rfl⟩ | ⟨-, v, rfl, -⟩⟩ <;> simp

end Naming

/-- A cluster keeps the chain's length and consumes argv words. -/
theorem cluster_length {reg reg' : List Opt} {cs : Word} {list list' : List Word}
    (h : cluster reg cs list = .ok (reg', list')) :
    reg'.length = reg.length ∧ list'.length ≤ list.length := by
  induction cs generalizing reg list with
  | nil =>
    obtain ⟨rfl, rfl⟩ := Prod.mk.inj (Except.ok.inj h)
    exact ⟨rfl, le_rfl⟩
  | cons c cs ih =>
    unfold cluster at h
    split at h
    · nomatch h
    · obtain ⟨⟨o, list₁⟩, hn, hc⟩ := bind_eq_ok h
      obtain ⟨hreg, hlist⟩ := ih hc
      exact ⟨by rw [hreg, List.length_set], hlist.trans (nameShort_length hn)⟩

/-- A pass that goes on keeps the chain's length and consumes argv words. -/
theorem pass_cont_length {reg reg' : List Opt} {arg : Word} {list list' : List Word}
    (h : pass reg arg list = .ok (.cont reg' list')) :
    reg'.length = reg.length ∧ list'.length ≤ list.length := by
  have hword : ∀ {hasShort arg}, optionWord reg hasShort arg list = .ok (.cont reg' list') →
      reg'.length = reg.length ∧ list'.length ≤ list.length := by
    intro hasShort arg h
    unfold optionWord at h
    split at h
    · obtain ⟨⟨o, list₁⟩, hn, hp⟩ := map_eq_ok h
      obtain ⟨rfl, rfl⟩ := Pass.cont.inj hp
      exact ⟨List.length_set .., nameLong_length hn⟩
    · split at h
      · exact absurd h (format_throw_ne_ok _ _ _)
      · obtain ⟨⟨reg₁, list₁⟩, hc, hp⟩ := map_eq_ok h
        obtain ⟨rfl, rfl⟩ := Pass.cont.inj hp
        exact cluster_length hc
  unfold pass at h
  split at h
  · nomatch h
  · obtain ⟨c, -, h⟩ := bind_eq_ok h
    split at h
    · nomatch h
    · obtain ⟨c', -, h⟩ := bind_eq_ok h
      split at h
      · exact hword h
      · exact hword h

/-- `while(*list)` ends: fuel as large as the number of words never runs out. -/
theorem scan_isSome : ∀ (fuel : Nat) (reg : List Opt) (list : List Word), list.length ≤ fuel →
    (scan fuel reg list).isSome
  | fuel, _, [], _ => by cases fuel <;> rfl
  | fuel + 1, reg, arg :: list, h => by
    unfold scan
    split
    · rfl
    · rfl
    · rename_i reg' list' hp
      exact scan_isSome fuel reg' list' ((pass_cont_length hp).2.trans (by simpa using h))

theorem parse_isSome (a : Statics) (argv : List Word) : (parse a argv).isSome := by
  cases argv with
  | nil => rfl
  | cons argv0 list => simpa [parse] using scan_isSome list.length a.reg list le_rfl

/-! ## Indexing past the end of a view -/

@[simp] theorem subscript_nil (pos : Nat) : subscript [] pos = .error .indexPastEnd := rfl

/-- `arg[0]` on an empty argv word. -/
theorem pass_nil (reg : List Opt) (list : List Word) : pass reg [] list = .error .indexPastEnd :=
  rfl

/-- A double-dash word with an empty key and no option of the empty id: `bad_arg::format`
reads `value[0]` of the empty keyword. -/
theorem pass_empty_key {reg : List Opt} (h : ∀ o ∈ reg, o.id ≠ some []) (v : Word)
    (list : List Word) : pass reg ('-' :: '-' :: '=' :: v) list = .error .indexPastEnd := by
  have hseek : seek (fun o => decide (o.id = some [])) reg = none :=
    seek_eq_none_iff.2 fun o ho => by simpa using h o ho
  simp [pass, subscript, optionWord, keywordOf, keySplitOf, List.indexOf?, List.findIdx?, hseek, format, bind, Except.bind,
    Except.map]

theorem parse_indexes_past_end (a : Statics) (argv0 v : Word) (ws : List Word) :
    parse a (argv0 :: [] :: ws) = some (.error .indexPastEnd) ∧
      ((∃ o ∈ a.reg, o.id = some []) ∨
        parse a (argv0 :: ('-' :: '-' :: '=' :: v) :: ws) = some (.error .indexPastEnd)) := by
  refine ⟨by simp [parse, scan, pass_nil, Except.map], ?_⟩
  by_cases h : ∃ o ∈ a.reg, o.id = some []
  · exact .inl h
  · push_neg at h
    exact .inr (by simp [parse, scan, pass_empty_key h, Except.map])

end Args

end ModernCli
