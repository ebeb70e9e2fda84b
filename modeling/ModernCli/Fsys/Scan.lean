import Mathlib
import ModernCli.Fsys.Getline

/-!
# `scan_file`: a stream's lines handed to a callback

On Windows, `tycho::scan_file(file, proc, size)` allocates `size` bytes when
`size` is nonzero; then, while `feof(file)` is false, it reads a line with `getline_w32` and
hands it to `proc`, newline included, as the view `{buf, len}`; it stops at a return of `-1`
or at the first line `proc` rejects, frees the buffer and returns the number of lines `proc`
accepted.

`proc` is a functor: what its calls do is a state `σ`, so a call is a function
`σ → List UInt8 → σ × Bool`, and `scanFile` returns the count with the state after the calls.
Allocations succeed as `grant` says, as for `getline_w32`.

The abstract reading: a stream is its lines (`linesOf`: the bytes up to and including each
newline, and a last line without one), and `feed` hands lines to `proc` until one is rejected.

* `Fsys.scanFile_feeds_prefix`: whatever allocations fail, `scan_file` stores only inside its
  buffer, ends with `buf` null or an allocation, and is `feed` over the first lines of the
  stream; it reads `grant` only at the requests it makes, and it stops before the stream's last
  line only when the end-of-file indicator was set on entry or its last request, made for the
  line it stopped at, was refused.
* `Fsys.scanFile_feeds_lines`: with every allocation granted and no line too long for the
  growth, `scan_file` is `feed` over all the stream's lines.

`scan_stream(input, proc)` and `scan_file(path, proc)` read with `std::getline`, which stores
a line without its newline and fails once it extracts nothing:

* `Fsys.scanStream_feeds_lines`: both are `feed` over the stream's lines without their
  newlines;
* `Fsys.scanFile_drops_to_scanStream`: with every allocation granted, `scan_file(file, proc)`
  with a `proc` that drops the newline first is `scan_stream`.
-/

namespace ModernCli

namespace Fsys

variable {σ : Type}

/-! ## The stream as lines -/

/-- The lines of a stream: each up to and including its newline, the last one up to the end. -/
def linesOf : List UInt8 → List (List UInt8)
  | [] => []
  | c :: cs =>
    if c = 10 then [c] :: linesOf cs
    else match linesOf cs with
      | [] => [[c]]
      | l :: ls => (c :: l) :: ls

/-- Hand the lines to `proc` until it rejects one: the number it accepted, and its state after
the calls, the rejecting one included. -/
def feed (proc : σ → List UInt8 → σ × Bool) : σ → List (List UInt8) → Nat × σ
  | s, [] => (0, s)
  | s, l :: ls =>
    match proc s l with
    | (s, false) => (0, s)
    | (s, true) => ((feed proc s ls).1 + 1, (feed proc s ls).2)

@[simp] theorem linesOf_nil : linesOf [] = [] := rfl

theorem linesOf_eq_nil_iff (l : List UInt8) : linesOf l = [] ↔ l = [] := by
  cases l with
  | nil => simp
  | cons c cs =>
    simp only [linesOf, reduceCtorEq, iff_false]
    split_ifs
    · simp
    · split <;> simp

/-- A nonempty stream is its next line, then the lines after it. -/
theorem linesOf_eq_cons {l : List UInt8} (hl : l ≠ []) :
    linesOf l = lineOf l :: linesOf (afterLine l) := by
  induction l with
  | nil => exact absurd rfl hl
  | cons c cs ih =>
    by_cases hc : c = 10
    · simp [linesOf, lineOf, afterLine, hc]
    · by_cases hcs : cs = []
      · subst hcs; simp [linesOf, lineOf, afterLine, hc]
      · simp only [linesOf, lineOf, afterLine, if_neg hc, ih hcs]

/-- Joined, the lines are the stream. -/
theorem flatten_linesOf (l : List UInt8) : (linesOf l).flatten = l := by
  induction l with
  | nil => rfl
  | cons c cs ih =>
    unfold linesOf
    split_ifs with hc
    · rw [List.flatten_cons, ih]; rfl
    · split
      · rename_i h
        rw [(linesOf_eq_nil_iff cs).1 h]; rfl
      · rename_i l ls h
        rw [h, List.flatten_cons] at ih
        rw [List.flatten_cons, List.cons_append, ih]

theorem length_afterLine_lt {l : List UInt8} (hl : l ≠ []) : (afterLine l).length < l.length := by
  obtain ⟨c, cs, rfl⟩ := List.exists_cons_of_ne_nil hl
  have h := congrArg List.length (lineOf_append_afterLine (c :: cs))
  rw [List.length_append] at h
  have := lineOf_cons_length_pos c cs
  omega

/-! ## `scan_file` -/

/-- `feof(file)` after `getline_w32` returned the line `line`: its loop ends after a newline,
with no `getc` after it, or when `getc` returns `EOF`, which sets the indicator. -/
def eofAfter (line : List UInt8) : Bool := line.getLast? != some 10

/-- A line with more of the stream after it ends with its newline. -/
theorem getLast?_lineOf {l : List UInt8} (h : afterLine l ≠ []) : (lineOf l).getLast? = some 10 := by
  induction l with
  | nil => exact absurd rfl h
  | cons c cs ih =>
    by_cases hc : c = 10
    · simp [lineOf, hc]
    · rw [afterLine, if_neg hc] at h
      have hcs : cs ≠ [] := by rintro rfl; exact h rfl
      obtain ⟨c', cs', rfl⟩ := List.exists_cons_of_ne_nil hcs
      rw [lineOf, if_neg hc, List.getLast?_cons, ih h, Option.getD_some]

/-- A line that ends without a newline ran to the end of the stream. -/
theorem afterLine_eq_nil_of_eofAfter {l : List UInt8} (h : eofAfter (lineOf l) = true) :
    afterLine l = [] := by
  by_contra hne
  simp [eofAfter, getLast?_lineOf hne] at h

/-- A `FILE`: the bytes `getc` returns before `EOF`, and its end-of-file indicator. -/
structure File where
  bytes : List UInt8
  eof : Bool

/-- The end of `scan_file`: the count it returns, the state `proc` left, and `buf`, which it
frees when it is not null. -/
structure Scanned (σ : Type) where
  count : Nat
  state : σ
  buf : Buf

/-- The view `{buf, len}` that `proc` gets after `getline_w32` returned `len ≥ 0` (`*lp` is then
never null). -/
def Ret.view (r : Ret) : List UInt8 := (r.buf.data.getD []).take r.ret.toNat

/-- The `while(!feof(file))` loop of `scan_file`, on fuel (`none` when it runs out): `b` is
`buf` and `size`, `k` the allocation requests made, `fp` and `eof` the `FILE`, `s` the state
of `proc` and `count` the lines accepted. -/
def scanFileLoop (grant : Nat → Bool) (proc : σ → List UInt8 → σ × Bool) :
    Nat → Buf → Nat → List UInt8 → Bool → σ → Nat → Option (Except Overrun (Scanned σ))
  | _, b, _, _, true, s, count => some (.ok ⟨count, s, b⟩)
  | 0, _, _, _, false, _, _ => none
  | fuel + 1, b, k, fp, false, s, count =>
    match getline grant b k fp with
    | .error e => some (.error e)
    | .ok r =>
      if r.ret < 0 then some (.ok ⟨count, s, r.buf⟩)
      else match proc s r.view with
        | (s, false) => some (.ok ⟨count, s, r.buf⟩)
        | (s, true) => scanFileLoop grant proc fuel r.buf r.requests r.rest (eofAfter r.view) s
            (count + 1)

/-- `buf` and `size` before the loop: `if(size) buf = malloc(size)`, request 0. -/
def scanFileBuf (grant : Nat → Bool) (size : Nat) : Buf × Nat :=
  if size = 0 then (⟨none, 0⟩, 0)
  else if granted grant 0 size then (⟨some (List.replicate size 0), size⟩, 1)
  else (⟨none, size⟩, 1)

/-- `scan_file(file, proc, size)` on Windows, with `proc` from the state `s`; the loop gets
one round more than the stream has bytes. -/
def scanFile (grant : Nat → Bool) (proc : σ → List UInt8 → σ × Bool) (s : σ) (file : File)
    (size : Nat) : Option (Except Overrun (Scanned σ)) :=
  scanFileLoop grant proc (file.bytes.length + 1) (scanFileBuf grant size).1
    (scanFileBuf grant size).2 file.bytes file.eof s 0

theorem scanFileBuf_valid (grant : Nat → Bool) (size : Nat) : (scanFileBuf grant size).1.Valid := by
  unfold scanFileBuf
  split_ifs with h0 hg
  · exact .inl rfl
  · simp only [granted, Bool.and_eq_true, decide_eq_true_eq] at hg
    exact .inr ⟨_, rfl, List.length_replicate _ _, hg.2⟩
  · exact .inl rfl

/-! ## The loop feeds `proc` the stream's lines -/

/-- `getline_w32` on any stream from a valid buffer: `-1` with a valid buffer, at the end of the
stream or with its last request, made for the next line, refused; or the stream's next line. -/
theorem getline_spec (grant : Nat → Bool) {b : Buf} (k : Nat) (fp : List UInt8) (hb : b.Valid) :
    ∃ r, getline grant b k fp = .ok r ∧
      ((r.Fails ∧ (fp ≠ [] → r.Refused grant k (lineOf fp).length)) ∨
        (fp ≠ [] ∧ r.Reads (lineOf fp) (afterLine fp))) := by
  cases fp with
  | nil => exact ⟨_, rfl, .inl ⟨⟨rfl, hb⟩, fun h => absurd rfl h⟩⟩
  | cons c rest =>
    obtain ⟨r, hr, hf | hread⟩ := getline_cons_spec grant k c rest hb
    · exact ⟨r, hr, .inl ⟨hf.1, fun _ => hf⟩⟩
    · exact ⟨r, hr, .inr ⟨List.cons_ne_nil c rest, hread⟩⟩

/-- After a return of the line `line`, `proc` gets exactly `line`. -/
theorem Ret.view_of_reads {r : Ret} {line rest : List UInt8} (h : r.Reads line rest) :
    r.view = line := by
  obtain ⟨hret, -, -, d, hd, -, -, htake, -⟩ := h
  rw [Ret.view, hret, hd, Option.getD_some, Int.toNat_natCast, htake]

/-- A round of the loop after `getline_w32` returned `r`. -/
theorem scanFileLoop_succ {grant : Nat → Bool} {proc : σ → List UInt8 → σ × Bool} {fuel : Nat}
    {b : Buf} {k : Nat} {fp : List UInt8} {s : σ} {count : Nat} {r : Ret}
    (hr : getline grant b k fp = .ok r) :
    scanFileLoop grant proc (fuel + 1) b k fp false s count =
      if r.ret < 0 then some (.ok ⟨count, s, r.buf⟩)
      else match proc s r.view with
        | (s, false) => some (.ok ⟨count, s, r.buf⟩)
        | (s, true) => scanFileLoop grant proc fuel r.buf r.requests r.rest (eofAfter r.view) s
            (count + 1) := by
  rw [scanFileLoop, hr]

/-- The last of the requests made from the `k`-th to below the `K`-th was refused; it asked for
at most what the line `lines[j]` can ask for. -/
def LastRefused (grant : Nat → Bool) (lines : List (List UInt8)) (j k K : Nat) : Prop :=
  k < K ∧ ∃ l m, lines[j]? = some l ∧ granted grant (K - 1) m = false ∧
    m ≤ max 128 (l.length + l.length / 4)

/-- The loop from a valid buffer, with fuel to spare, makes the requests from the `k`-th to below
some `K`-th and reads `grant` only there; it is `feed` over the first `j` lines, with a valid
buffer to free, and stops before the last line only when the indicator was set or its last
request was refused. -/
theorem scanFileLoop_spec (grant : Nat → Bool) (proc : σ → List UInt8 → σ × Bool) :
    ∀ (fuel : Nat) (b : Buf) (k : Nat) (fp : List UInt8) (eof : Bool) (s : σ) (count : Nat),
      fp.length < fuel → b.Valid →
      ∃ j b' K, scanFileLoop grant proc fuel b k fp eof s count =
          some (.ok ⟨count + (feed proc s ((linesOf fp).take j)).1,
            (feed proc s ((linesOf fp).take j)).2, b'⟩) ∧ b'.Valid ∧ k ≤ K ∧
        (∀ grant' : Nat → Bool, (∀ i, k ≤ i → i < K → grant' i = grant i) →
          scanFileLoop grant' proc fuel b k fp eof s count =
            scanFileLoop grant proc fuel b k fp eof s count) ∧
        (j < (linesOf fp).length → eof = true ∨ LastRefused grant (linesOf fp) j k K)
  | 0, _, _, _, _, _, _, h, _ => absurd h (Nat.not_lt_zero _)
  | fuel + 1, b, k, fp, true, s, count, _, hb =>
    ⟨0, b, k, by simp [scanFileLoop, feed], hb, le_rfl, fun _ _ => rfl, fun _ => .inl rfl⟩
  | fuel + 1, b, k, fp, false, s, count, hlen, hb => by
    obtain ⟨r, hr, ⟨hfail, href⟩ | ⟨hne, hread⟩⟩ := getline_spec grant k fp hb <;>
      obtain ⟨hk, hreads⟩ := getline_reads hr
    · have hneg : r.ret < 0 := by rw [hfail.1]; omega
      refine ⟨0, r.buf, r.requests, by simp [scanFileLoop_succ hr, hneg, feed], hfail.2, hk,
        fun grant' hag => by
          rw [scanFileLoop_succ (hreads grant' hag), scanFileLoop_succ hr, if_pos hneg, if_pos hneg],
        fun hj => .inr ?_⟩
      have hne : fp ≠ [] := by rintro rfl; exact absurd hj (by simp)
      obtain ⟨-, hlt, m, hm, hsize⟩ := href hne
      exact ⟨hlt, lineOf fp, m, by rw [linesOf_eq_cons hne, List.getElem?_cons_zero], hm, hsize⟩
    have hview := Ret.view_of_reads hread
    have hpos : ¬ r.ret < 0 := by rw [hread.1]; omega
    have hvalid : r.buf.Valid := by
      obtain ⟨-, -, -, d, hd, hl, hm, -⟩ := hread
      exact .inr ⟨d, hd, hl, hm⟩
    rcases hp : proc s (lineOf fp) with ⟨s', _ | _⟩
    · refine ⟨(linesOf fp).length, r.buf, r.requests, ?_, hvalid, hk, fun grant' hag => ?_,
        fun hj => absurd hj (lt_irrefl _)⟩
      · rw [List.take_length, linesOf_eq_cons hne]
        simp [scanFileLoop_succ hr, hpos, hview, hp, feed]
      · simp only [scanFileLoop_succ (hreads grant' hag), scanFileLoop_succ hr, hpos, if_false,
          hview, hp]
    · have hrest : r.rest.length < fuel := by
        rw [hread.2.1]; have := length_afterLine_lt hne; omega
      obtain ⟨j, b', K, hrun, hb', hK, hsame, hshort⟩ := scanFileLoop_spec grant proc fuel r.buf
        r.requests r.rest (eofAfter (lineOf fp)) s' (count + 1) hrest hvalid
      rw [hread.2.1] at hrun hshort
      refine ⟨j + 1, b', K, ?_, hb', by omega, fun grant' hag => ?_, fun hj => .inr ?_⟩
      · rw [linesOf_eq_cons hne, List.take_succ_cons]
        simp only [scanFileLoop_succ hr, hpos, if_false, hview, hp, hread.2.1, feed]
        rw [hrun, Nat.add_assoc, Nat.add_comm 1]
      · rw [scanFileLoop_succ (hreads grant' fun i hi hi' => hag i hi (by omega)),
          scanFileLoop_succ hr]
        simp only [hpos, if_false, hview, hp]
        exact hsame grant' fun i hi hi' => hag i (by omega) hi'
      · have hj' : j < (linesOf (afterLine fp)).length := by
          rw [linesOf_eq_cons hne, List.length_cons] at hj; omega
        rcases hshort hj' with heof | ⟨hlt, l, m, hl, hm, hsize⟩
        · rw [afterLine_eq_nil_of_eofAfter heof] at hj'; exact absurd hj' (by simp)
        · exact ⟨by omega, l, m, by rw [linesOf_eq_cons hne, List.getElem?_cons_succ]; exact hl,
            hm, hsize⟩

/-! ## `scan_file` -/

/-- `if(size) buf = malloc(size)` reads `grant` only at the request it makes. -/
theorem scanFileBuf_reads {grant grant' : Nat → Bool} {size : Nat}
    (h : ∀ i < (scanFileBuf grant size).2, grant' i = grant i) :
    scanFileBuf grant' size = scanFileBuf grant size := by
  unfold scanFileBuf at h ⊢
  by_cases h0 : size = 0
  · simp only [if_pos h0]
  · simp only [if_neg h0] at h ⊢
    have h0' := h 0 (by split_ifs <;> exact Nat.one_pos)
    simp only [granted, h0']

/-- With every allocation granted and no line too long, the loop from a clear indicator feeds
`proc` all the lines. -/
theorem scanFileLoop_granted (proc : σ → List UInt8 → σ × Bool) {fuel : Nat} {b : Buf} (k : Nat)
    {fp : List UInt8} (s : σ) (count : Nat) (hfuel : fp.length < fuel) (hb : b.Valid)
    (hshort : ∀ l ∈ linesOf fp, l.length + l.length / 4 ≤ ptrdiffMax) :
    ∃ b', scanFileLoop (fun _ => true) proc fuel b k fp false s count =
        some (.ok ⟨count + (feed proc s (linesOf fp)).1, (feed proc s (linesOf fp)).2, b'⟩) ∧
      b'.Valid := by
  obtain ⟨j, b', _, h, hb', -, -, hj⟩ := scanFileLoop_spec (fun _ => true) proc fuel b k fp false s
    count hfuel hb
  have hall : (linesOf fp).length ≤ j := by
    by_contra hlt
    rcases hj (Nat.lt_of_not_le hlt) with heof | ⟨-, l, m, hl, hm, hsize⟩
    · cases heof
    · simp only [granted, Bool.true_and, decide_eq_false_iff_not] at hm
      exact hm (hsize.trans (max_le (by decide) (hshort l (List.getElem?_mem hl))))
  rw [List.take_of_length_le hall] at h
  exact ⟨b', h, hb'⟩

theorem scanFile_feeds_lines (proc : σ → List UInt8 → σ × Bool) (s : σ) (file : File) (size : Nat)
    (heof : file.eof = false)
    (hshort : ∀ l ∈ linesOf file.bytes, l.length + l.length / 4 ≤ ptrdiffMax) :
    ∃ b, scanFile (fun _ => true) proc s file size =
        some (.ok ⟨(feed proc s (linesOf file.bytes)).1, (feed proc s (linesOf file.bytes)).2, b⟩) ∧
      b.Valid := by
  obtain ⟨b, h, hb⟩ := scanFileLoop_granted proc _ s 0 (Nat.lt_succ_self _)
    (scanFileBuf_valid _ size) hshort
  exact ⟨b, by rw [scanFile, heof, h, Nat.zero_add], hb⟩

/-- A stream of two lines, the last without a newline, scanned by a `proc` that counts its
calls. -/
theorem scanFile_feeds_lines_two :
    (⟨[104, 10, 105], false⟩ : File).eof = false ∧
      (∀ l ∈ linesOf [104, 10, 105], l.length + l.length / 4 ≤ ptrdiffMax) ∧
      ∃ b, scanFile (fun _ => true) (fun (n : Nat) _ => (n + 1, true)) 0 ⟨[104, 10, 105], false⟩ 0 =
          some (.ok ⟨(feed (fun (n : Nat) _ => (n + 1, true)) 0 (linesOf [104, 10, 105])).1,
            (feed (fun (n : Nat) _ => (n + 1, true)) 0 (linesOf [104, 10, 105])).2, b⟩) ∧
        b.Valid :=
  ⟨rfl, by decide, scanFile_feeds_lines _ _ _ _ rfl (by decide)⟩

/-! ## `scan_stream` and `scan_file(path)` -/

/-- A line as `std::getline` stores it: without its newline. -/
def dropNewline (line : List UInt8) : List UInt8 :=
  if line.getLast? = some 10 then line.dropLast else line

/-- An `std::istream` read with `std::getline`: the characters left, and `good()`. -/
structure IStream where
  chars : List UInt8
  good : Bool

/-- `std::getline(is, line)`: a stream that is not `good()` fails; otherwise it extracts up to
and including the next newline, or to the end, which sets `eofbit`, and stores what it
extracted without the newline; it fails when it extracted nothing. -/
def IStream.getline (is : IStream) : Option (List UInt8 × IStream) :=
  if is.good then
    match is.chars with
    | [] => none
    | cs => some (dropNewline (lineOf cs), ⟨afterLine cs, !eofAfter (lineOf cs)⟩)
  else none

/-- `while(std::getline(input, line)) { if (!proc(line)) break; ++count; }`, on fuel. -/
def scanStreamLoop (proc : σ → List UInt8 → σ × Bool) : Nat → IStream → σ → Nat → Option (Nat × σ)
  | 0, _, _, _ => none
  | fuel + 1, is, s, count =>
    match is.getline with
    | none => some (count, s)
    | some (line, is) =>
      match proc s line with
      | (s, false) => some (count, s)
      | (s, true) => scanStreamLoop proc fuel is s (count + 1)

/-- `scan_stream(input, proc)`: the count and the state `proc` left. -/
def scanStream (proc : σ → List UInt8 → σ × Bool) (s : σ) (input : IStream) : Option (Nat × σ) :=
  scanStreamLoop proc (input.chars.length + 1) input s 0

/-- `scan_file(path, proc)`: the same loop over `std::fstream input(path)`, which is not
`good()` when the file does not open (`none`). -/
def scanPath (proc : σ → List UInt8 → σ × Bool) (s : σ) (file : Option (List UInt8)) :
    Option (Nat × σ) :=
  scanStream proc s (match file with
    | some bytes => ⟨bytes, true⟩
    | none => ⟨[], false⟩)

/-- The lines `std::getline` reads from a stream. -/
def IStream.lines (is : IStream) : List (List UInt8) :=
  if is.good then (linesOf is.chars).map dropNewline else []

theorem IStream.getline_spec (is : IStream) :
    (is.getline = none ∧ is.lines = []) ∨
      ∃ is', is.getline = some (dropNewline (lineOf is.chars), is') ∧
        is.lines = dropNewline (lineOf is.chars) :: is'.lines ∧ is'.chars = afterLine is.chars := by
  rcases is with ⟨_ | ⟨c, cs⟩, _ | _⟩
  · exact .inl ⟨rfl, rfl⟩
  · exact .inl ⟨rfl, rfl⟩
  · exact .inl ⟨rfl, rfl⟩
  · refine .inr ⟨_, rfl, ?_, rfl⟩
    simp only [IStream.lines, if_true, linesOf_eq_cons (List.cons_ne_nil c cs), List.map_cons]
    cases he : eofAfter (lineOf (c :: cs))
    · rfl
    · simp [afterLine_eq_nil_of_eofAfter he]

theorem scanStreamLoop_spec (proc : σ → List UInt8 → σ × Bool) :
    ∀ (fuel : Nat) (is : IStream) (s : σ) (count : Nat), is.chars.length < fuel →
      scanStreamLoop proc fuel is s count =
        some (count + (feed proc s is.lines).1, (feed proc s is.lines).2)
  | 0, _, _, _, h => absurd h (Nat.not_lt_zero _)
  | fuel + 1, is, s, count, h => by
    rcases is.getline_spec with ⟨hg, hl⟩ | ⟨is', hg, hl, hc⟩
    · rw [scanStreamLoop, hg, hl]; rfl
    · have hne : is.chars ≠ [] := by
        rintro he
        cases hgood : is.good <;> simp [IStream.getline, he, hgood] at hg
      rw [scanStreamLoop, hg, hl, feed]
      rcases hp : proc s (dropNewline (lineOf is.chars)) with ⟨s', _ | _⟩
      · simp only [hp, Nat.add_zero]
      · simp only [hp]
        rw [scanStreamLoop_spec proc fuel is' s' (count + 1)
          (by rw [hc]; have := length_afterLine_lt hne; omega), Nat.add_assoc, Nat.add_comm 1]

theorem scanStream_feeds_lines (proc : σ → List UInt8 → σ × Bool) (s : σ) (bytes : List UInt8) :
    scanStream proc s ⟨bytes, true⟩ = some (feed proc s ((linesOf bytes).map dropNewline)) ∧
      scanPath proc s (some bytes) = some (feed proc s ((linesOf bytes).map dropNewline)) := by
  have h := scanStreamLoop_spec proc (bytes.length + 1) ⟨bytes, true⟩ s 0 (Nat.lt_succ_self _)
  simp only [Nat.zero_add, IStream.lines, if_true] at h
  exact ⟨h, h⟩

/-- `feed` of a `proc` that first drops the newline is `feed` over the lines without it. -/
theorem feed_dropNewline (proc : σ → List UInt8 → σ × Bool) (s : σ) (ls : List (List UInt8)) :
    feed (fun s l => proc s (dropNewline l)) s ls = feed proc s (ls.map dropNewline) := by
  induction ls generalizing s with
  | nil => rfl
  | cons l ls ih =>
    simp only [feed, List.map_cons]
    rcases proc s (dropNewline l) with ⟨s', _ | _⟩
    · rfl
    · simp only [ih]

theorem scanFile_drops_to_scanStream (proc : σ → List UInt8 → σ × Bool) (s : σ)
    (bytes : List UInt8) (size : Nat)
    (hshort : ∀ l ∈ linesOf bytes, l.length + l.length / 4 ≤ ptrdiffMax) :
    ∃ b, scanFile (fun _ => true) (fun s l => proc s (dropNewline l)) s ⟨bytes, false⟩ size =
      (scanStream proc s ⟨bytes, true⟩).map fun r => .ok ⟨r.1, r.2, b⟩ := by
  obtain ⟨b, h, -⟩ := scanFileLoop_granted (fun s l => proc s (dropNewline l)) _ s 0
    (Nat.lt_succ_self bytes.length) (scanFileBuf_valid _ size) hshort
  have hs := scanStreamLoop_spec proc (bytes.length + 1) ⟨bytes, true⟩ s 0 (Nat.lt_succ_self _)
  refine ⟨b, ?_⟩
  rw [scanFile, h, scanStream, hs, feed_dropNewline]
  simp [IStream.lines]

/-- A `proc` that counts its calls and rejects an empty line, over `h\ni`. -/
theorem scanFile_drops_to_scanStream_two :
    (∀ l ∈ linesOf [104, 10, 105], l.length + l.length / 4 ≤ ptrdiffMax) ∧
      ∃ b, scanFile (fun _ => true) (fun (n : Nat) l => (n + 1, !(dropNewline l).isEmpty)) 0
          ⟨[104, 10, 105], false⟩ 0 =
        (scanStream (fun (n : Nat) l => (n + 1, !l.isEmpty)) 0 ⟨[104, 10, 105], true⟩).map
          fun r => .ok ⟨r.1, r.2, b⟩ :=
  ⟨by decide, scanFile_drops_to_scanStream (fun (n : Nat) l => (n + 1, !l.isEmpty)) 0
    [104, 10, 105] 0 (by decide)⟩

end Fsys

end ModernCli
