import Mathlib

/-!
# `getline_w32`: reading a line into a growing buffer

On Windows, `fsys::scan_file` reads a stream line by line with `getline_w32(lp, size, fp)`, a
`getline` of its own: `*lp` is `nullptr` or a buffer of `*size` bytes, which the call
allocates, and grows by a quarter, at least to 128 bytes, whenever the next byte and the
terminating zero would not both fit. A stream is the bytes `getc` returns before `EOF`;
`malloc` and `realloc` succeed as the caller's `grant` says, and never for more than
`PTRDIFF_MAX` bytes, the size of the largest object. `size_t` is 64 bits wide. A store past
the end of the buffer is `Overrun`.

* `Fsys.getline_w32_reads_line`: from a null pointer or an allocation of `*size` bytes, every
  call stores only inside the buffer, and returns `-1`, with `*lp` null or an allocation of
  `*size` bytes, or the length of the stream's next line, which stands in the buffer before a
  zero byte, inside `*size`.
* `Fsys.getline_cons_spec`: on a nonempty stream `-1` comes only from a refused request, the
  last the call made, for at most what the line can ask for (`Ret.Refused`);
* `Fsys.getline_reads`: the call reads `grant` only at the requests it makes.
-/

namespace ModernCli

namespace Fsys

/-- `PTRDIFF_MAX` on a 64-bit target: no object, so no allocation, is larger. -/
def ptrdiffMax : Nat := 2 ^ 63 - 1

/-- `*lp` and `*size`. -/
structure Buf where
  /-- `*lp`: `none` for `nullptr`, or the bytes of the allocation it points to. -/
  data : Option (List UInt8)
  /-- `*size`. -/
  size : Nat

/-- `*lp` is `nullptr`, or points to an allocation of `*size` bytes. -/
def Buf.Valid (b : Buf) : Prop :=
  b.data = none ∨ ∃ d, b.data = some d ∧ d.length = b.size ∧ b.size ≤ ptrdiffMax

/-- A store at or past the end of the buffer. -/
structure Overrun where
  /-- The offset of the store. -/
  pos : Nat
  /-- The size of the buffer at the time. -/
  capacity : Nat

/-- The end of a call: its return value, `*lp` and `*size`, the bytes left in the stream and
the number of `malloc` and `realloc` requests made so far. -/
structure Ret where
  ret : Int
  buf : Buf
  rest : List UInt8
  requests : Nat

/-- The `k`-th request to `malloc` or `realloc`, for `n` bytes, succeeds: as `grant k` says,
and only up to `PTRDIFF_MAX` bytes. -/
def granted (grant : Nat → Bool) (k n : Nat) : Bool := grant k && decide (n ≤ ptrdiffMax)

/-- `new_size = *size + (*size >> 2)` in `size_t`, raised to 128 when smaller. -/
def growSize (size : Nat) : Nat :=
  if (size + size / 4) % 2 ^ 64 < 128 then 128 else (size + size / 4) % 2 ^ 64

/-- `realloc(*lp, n)`: the first `n` bytes kept, those past the old end indeterminate (zero
here). -/
def resize (data : List UInt8) (n : Nat) : List UInt8 :=
  data.take n ++ List.replicate (n - data.length) 0

/-- `(*lp)[pos] = b`, inside the buffer or an `Overrun`. -/
def store (data : List UInt8) (pos : Nat) (b : UInt8) : Except Overrun (List UInt8) :=
  if pos < data.length then .ok (data.set pos b) else .error ⟨pos, data.length⟩

/-- `(*lp)[pos] = '\0'; return pos;` after the loop. -/
def finish (data : List UInt8) (size pos : Nat) (rest : List UInt8) (k : Nat) : Except Overrun Ret :=
  (store data pos 0).map fun data => ⟨pos, ⟨some data, size⟩, rest, k⟩

/-- `if (pos + 1 >= *size)`: `realloc(*lp, new_size)`, `none` when it fails; with the number
of requests made. -/
def grow (grant : Nat → Bool) (pos : Nat) (data : List UInt8) (size k : Nat) :
    Option (List UInt8 × Nat) × Nat :=
  if pos + 1 ≥ size then
    (if granted grant k (growSize size) then some (resize data (growSize size), growSize size)
      else none, k + 1)
  else (some (data, size), k)

/-- The loop of `getline_w32`, with `c` the byte `getc` last returned and `rest` the stream
after it: grow the buffer when `pos + 1 >= *size`, store `c` at `pos++`, and stop after a
newline or at the end of the stream. -/
def loop (grant : Nat → Bool) (c : UInt8) : List UInt8 → Nat → List UInt8 → Nat → Nat →
    Except Overrun Ret
  | rest, pos, data, size, k =>
    match grow grant pos data size k with
    | (none, k) => .ok ⟨-1, ⟨some data, size⟩, rest, k⟩
    | (some (data, size), k) =>
      (store data pos c).bind fun data =>
        if c = 10 then finish data size (pos + 1) rest k
        else match rest with
          | [] => finish data size (pos + 1) [] k
          | c' :: rest' => loop grant c' rest' (pos + 1) data size k

/-- `getline_w32(lp, size, fp)` on the stream `fp`, with `k` requests made before: `-1` at the
end of the stream; otherwise a null `*lp` gets `malloc(128)`, and the loop reads the line. -/
def getline (grant : Nat → Bool) (b : Buf) (k : Nat) : List UInt8 → Except Overrun Ret
  | [] => .ok ⟨-1, b, [], k⟩
  | c :: rest =>
    match b.data with
    | some data => loop grant c rest 0 data b.size k
    | none =>
      if granted grant k 128 then loop grant c rest 0 (List.replicate 128 0) 128 (k + 1)
      else .ok ⟨-1, ⟨none, b.size⟩, rest, k + 1⟩

/-- The stream's next line: its bytes up to and including the first newline, or all of them. -/
def lineOf : List UInt8 → List UInt8
  | [] => []
  | c :: cs => if c = 10 then [c] else c :: lineOf cs

/-- The stream after its next line. -/
def afterLine : List UInt8 → List UInt8
  | [] => []
  | c :: cs => if c = 10 then cs else afterLine cs

/-- `lineOf` is the stream up to and including its first newline, or all of it. -/
theorem lineOf_eq_take (l : List UInt8) : lineOf l = l.take (l.indexOf 10 + 1) := by
  induction l with
  | nil => rfl
  | cons c cs ih => by_cases hc : c = 10 <;> simp [lineOf, List.indexOf_cons, hc, ih]

theorem lineOf_append_afterLine (l : List UInt8) : lineOf l ++ afterLine l = l := by
  induction l with
  | nil => rfl
  | cons c cs ih => by_cases hc : c = 10 <;> simp [lineOf, afterLine, hc, ih]

theorem lineOf_cons_length_pos (c : UInt8) (cs : List UInt8) : 0 < (lineOf (c :: cs)).length := by
  by_cases hc : c = 10 <;> simp [lineOf, hc]


/-! ## The buffer stays inside its allocation -/

/-- A return of the line `line`: its length, the line standing before a zero byte in an
allocation of `*size` bytes, and the stream after it. -/
def Ret.Reads (r : Ret) (line rest : List UInt8) : Prop :=
  r.ret = line.length ∧ r.rest = rest ∧ line.length < r.buf.size ∧
    ∃ d, r.buf.data = some d ∧ d.length = r.buf.size ∧ r.buf.size ≤ ptrdiffMax ∧
      d.take line.length = line ∧ d[line.length]? = some 0

/-- A return of `-1`, with `*lp` null or an allocation of `*size` bytes. -/
def Ret.Fails (r : Ret) : Prop := r.ret = -1 ∧ r.buf.Valid

/-- A return of `-1` because the last request the call made, a request after the `k` made
before it, was refused; it asked for at most `max 128 (n + n / 4)` bytes, which is what a line
of `n` bytes can ask for. -/
def Ret.Refused (grant : Nat → Bool) (k n : Nat) (r : Ret) : Prop :=
  r.Fails ∧ k < r.requests ∧
    ∃ m, granted grant (r.requests - 1) m = false ∧ m ≤ max 128 (n + n / 4)

theorem Ret.Refused.mono {grant : Nat → Bool} {k k' n n' : Nat} {r : Ret}
    (h : r.Refused grant k' n) (hk : k ≤ k') (hn : n ≤ n') : r.Refused grant k n' := by
  obtain ⟨hf, hlt, m, hg, hm⟩ := h
  exact ⟨hf, by omega, m, hg, by omega⟩

/-- Without wrapping in `size_t`, the new size leaves room for two more bytes. -/
theorem grow_size_ge {size : Nat} (h : size ≤ ptrdiffMax) : size + 2 ≤ growSize size := by
  unfold growSize ptrdiffMax at *
  rw [Nat.mod_eq_of_lt (by omega)]
  split_ifs <;> omega

theorem growSize_eq {size : Nat} (h : size ≤ ptrdiffMax) : growSize size = max 128 (size + size / 4) := by
  unfold growSize ptrdiffMax at *
  rw [Nat.mod_eq_of_lt (by omega)]
  split_ifs <;> omega

@[simp] theorem length_resize (data : List UInt8) (n : Nat) : (resize data n).length = n := by
  simp only [resize, List.length_append, List.length_take, List.length_replicate]
  omega

theorem take_resize {data : List UInt8} {m n : Nat} (h : m ≤ n) (hm : m ≤ data.length) :
    (resize data n).take m = data.take m := by
  rw [resize, List.take_append_of_le_length (by rw [List.length_take]; omega), List.take_take, min_eq_left h]

theorem take_set_self {l : List UInt8} {n : Nat} (h : n < l.length) (a : UInt8) :
    (l.set n a).take (n + 1) = l.take n ++ [a] := by
  apply List.ext_getElem?
  intro i
  rw [List.getElem?_take, List.getElem?_set]
  rcases Nat.lt_trichotomy i n with hi | rfl | hi
  · rw [if_pos (by omega), if_neg hi.ne', List.getElem?_append_left (by rw [List.length_take]; omega),
      List.getElem?_take_of_lt hi]
  · rw [if_pos (by omega), if_pos rfl, if_pos h, List.getElem?_append_right (by rw [List.length_take]; omega),
      List.length_take, min_eq_left h.le, Nat.sub_self]
    rfl
  · rw [if_neg (by omega), List.getElem?_eq_none
    (by rw [List.length_append, List.length_take, List.length_singleton]; omega)]

theorem take_set_of_le {l : List UInt8} {n m : Nat} (h : m ≤ n) (a : UInt8) :
    (l.set n a).take m = l.take m := by
  apply List.ext_getElem?
  intro i
  rw [List.getElem?_take, List.getElem?_take, List.getElem?_set]
  split_ifs <;> first | omega | rfl

theorem store_of_lt {data : List UInt8} {pos : Nat} (h : pos < data.length) (b : UInt8) :
    store data pos b = .ok (data.set pos b) := if_pos h

/-- The grow step: a failed `realloc`, request `k`, or a buffer of the same bytes with room for
the next byte and a zero. -/
theorem grow_spec (grant : Nat → Bool) {pos : Nat} {data : List UInt8} {size : Nat} (k : Nat)
    (hlen : data.length = size) (hmax : size ≤ ptrdiffMax) (hpos : pos ≤ size) :
    (granted grant k (growSize size) = false ∧ size ≤ pos + 1 ∧
        grow grant pos data size k = (none, k + 1)) ∨
      ∃ d s k', grow grant pos data size k = (some (d, s), k') ∧ k ≤ k' ∧ d.length = s ∧
        s ≤ ptrdiffMax ∧ pos + 1 < s ∧ d.take pos = data.take pos := by
  unfold grow
  split_ifs with hg hok
  · have hs := grow_size_ge hmax
    simp only [granted, Bool.and_eq_true, decide_eq_true_eq] at hok
    exact .inr ⟨_, _, _, rfl, by omega, length_resize _ _, hok.2, by omega,
      take_resize (by omega) (by omega)⟩
  · exact .inl ⟨by simpa using hok, hg, rfl⟩
  · exact .inr ⟨_, _, _, rfl, le_rfl, hlen, hmax, by omega, rfl⟩

/-- `(*lp)[pos] = '\0'; return pos;` returns the line the buffer holds before `pos`. -/
theorem finish_reads {d : List UInt8} {s : Nat} {line : List UInt8} (rest : List UInt8) (k : Nat)
    (hlen : d.length = s) (hmax : s ≤ ptrdiffMax) (hpos : line.length < s)
    (htake : d.take line.length = line) :
    ∃ r, finish d s line.length rest k = .ok r ∧ r.Reads line rest := by
  refine ⟨_, by rw [finish, store_of_lt (by omega)]; rfl, rfl, rfl, hpos, _, rfl,
    by simp [hlen], hmax, by rw [take_set_of_le le_rfl, htake], ?_⟩
  rw [List.getElem?_set]
  simp [hlen, hpos]

/-- The loop's invariant: an allocation of `size` bytes whose first `pos` bytes are `acc`, the
bytes stored so far. -/
structure Filled (acc data : List UInt8) (size : Nat) : Prop where
  length : data.length = size
  bounded : size ≤ ptrdiffMax
  room : acc.length ≤ size
  take_eq : data.take acc.length = acc

theorem Filled.valid {acc data : List UInt8} {size : Nat} (h : Filled acc data size) :
    (⟨some data, size⟩ : Buf).Valid :=
  .inr ⟨data, rfl, h.length, h.bounded⟩

/-- One pass through the loop's body up to the `break`: a refused `realloc`, or `c` stored at
`pos` inside a buffer that still has room for the zero. -/
theorem loop_stored (grant : Nat → Bool) {c : UInt8} (rest : List UInt8) {acc data : List UInt8}
    {size : Nat} (k : Nat) (h : Filled acc data size) :
    (∃ r, loop grant c rest acc.length data size k = .ok r ∧ r.Refused grant k (acc.length + 1)) ∨
      ∃ d s k', k ≤ k' ∧ Filled (acc ++ [c]) d s ∧ acc.length + 1 < s ∧
        loop grant c rest acc.length data size k =
          if c = 10 then finish d s (acc.length + 1) rest k'
          else match rest with
            | [] => finish d s (acc.length + 1) [] k'
            | c' :: rest' => loop grant c' rest' (acc.length + 1) d s k' := by
  rcases grow_spec grant k h.length h.bounded h.room with ⟨hno, hle, hg⟩ |
    ⟨d, s, k', hg, hk, hd, hs, hpos, hdt⟩
  · refine .inl ⟨⟨-1, ⟨some data, size⟩, rest, k + 1⟩, by rw [loop, hg], ⟨rfl, h.valid⟩,
      Nat.lt_succ_self k, _, hno, ?_⟩
    rw [growSize_eq h.bounded]
    omega
  · refine .inr ⟨d.set acc.length c, s, k', hk, ⟨by simp [hd], hs,
    by rw [List.length_append, List.length_singleton]; omega, ?_⟩, hpos, ?_⟩
    · rw [List.length_append, List.length_singleton, take_set_self (by omega), hdt, h.take_eq]
    · rw [loop, hg]
      exact congrArg (Except.bind · _) (store_of_lt (by omega) c)

/-- After the `break`, or at the end of the stream, the loop returns the bytes it stored. -/
theorem finish_filled {line d : List UInt8} {s : Nat} (rest : List UInt8) (k : Nat)
    (h : Filled line d s) (hpos : line.length < s) :
    ∃ r, finish d s line.length rest k = .ok r ∧ r.Reads line rest :=
  finish_reads rest k h.length h.bounded hpos h.take_eq

/-- The loop stores inside the buffer, and returns `-1` on a refused request, with the buffer
it had, or the line read so far followed by the stream's next line. -/
theorem loop_spec (grant : Nat → Bool) (rest : List UInt8) :
    ∀ (c : UInt8) (acc data : List UInt8) (size k : Nat), Filled acc data size →
      ∃ r, loop grant c rest acc.length data size k = .ok r ∧
        (r.Refused grant k (acc ++ lineOf (c :: rest)).length ∨
          r.Reads (acc ++ lineOf (c :: rest)) (afterLine (c :: rest))) := by
  have hlen : ∀ c rest (acc : List UInt8), acc.length + 1 ≤ (acc ++ lineOf (c :: rest)).length :=
    fun c rest acc => by
      rw [List.length_append]
      exact Nat.add_le_add_left (lineOf_cons_length_pos c rest) _
  induction rest with
  | nil =>
    intro c acc data size k h
    rcases loop_stored grant [] k h with ⟨r, hr, hf⟩ | ⟨d, s, k', -, hfill, hpos, hl⟩
    · exact ⟨r, hr, .inl (hf.mono le_rfl (hlen c [] acc))⟩
    · obtain ⟨r, hr, hread⟩ := finish_filled [] k' hfill (by simpa using hpos)
      refine ⟨r, ?_, .inr ?_⟩
      · rw [hl]; split_ifs <;> simpa using hr
      · by_cases hc : c = 10 <;> simpa [lineOf, afterLine, hc] using hread
  | cons c' rest ih =>
    intro c acc data size k h
    rcases loop_stored grant (c' :: rest) k h with ⟨r, hr, hf⟩ |
      ⟨d, s, k', hk, hfill, hpos, hl⟩
    · exact ⟨r, hr, .inl (hf.mono le_rfl (hlen c (c' :: rest) acc))⟩
    · by_cases hc : c = 10
      · obtain ⟨r, hr, hread⟩ := finish_filled (c' :: rest) k' hfill (by simpa using hpos)
        exact ⟨r, by rw [hl, if_pos hc]; simpa using hr, .inr (by simpa [lineOf, afterLine, hc] using hread)⟩
      · obtain ⟨r, hr, hf | hread⟩ := ih c' (acc ++ [c]) d s k' hfill
        · exact ⟨r, by rw [hl, if_neg hc]; simpa using hr,
            .inl (hf.mono hk (by simp [lineOf, hc]))⟩
        · exact ⟨r, by rw [hl, if_neg hc]; simpa using hr,
            .inr (by simpa [lineOf, afterLine, hc] using hread)⟩

/-! ## `getline_w32` -/

/-- The first `getc`, the `malloc` of a null `*lp`, then the loop from `pos = 0`: a refused
request, or the stream's next line. -/
theorem getline_cons_spec (grant : Nat → Bool) {b : Buf} (k : Nat) (c : UInt8) (rest : List UInt8)
    (hb : b.Valid) : ∃ r, getline grant b k (c :: rest) = .ok r ∧
      (r.Refused grant k (lineOf (c :: rest)).length ∨
        r.Reads (lineOf (c :: rest)) (afterLine (c :: rest))) := by
  rcases hb with hd | ⟨data, hd, hlen, hmax⟩
  · by_cases hg : granted grant k 128
    · have hfill : Filled [] (List.replicate 128 0) 128 :=
        ⟨List.length_replicate _ _, by decide, by simp, rfl⟩
      obtain ⟨r, hr, hf | hread⟩ := loop_spec grant rest c [] _ _ (k + 1) hfill
      · exact ⟨r, by simpa [getline, hd, hg] using hr, .inl (hf.mono (Nat.le_succ k) (by simp))⟩
      · exact ⟨r, by simpa [getline, hd, hg] using hr, .inr (by simpa using hread)⟩
    · exact ⟨_, by simp [getline, hd, hg]; rfl, .inl ⟨⟨rfl, .inl rfl⟩, Nat.lt_succ_self k, 128,
        by simpa using hg, le_max_left _ _⟩⟩
  · have hfill : Filled [] data b.size := ⟨hlen, hmax, Nat.zero_le _, rfl⟩
    obtain ⟨r, hr, hres⟩ := loop_spec grant rest c [] data b.size k hfill
    exact ⟨r, by simpa [getline, hd] using hr, by simpa using hres⟩

theorem getline_w32_reads_line (grant : Nat → Bool) (b : Buf) (k : Nat) (fp : List UInt8)
    (hb : b.Valid) : ∃ r, getline grant b k fp = .ok r ∧
      (r.Fails ∨ (1 ≤ r.ret ∧ r.Reads (lineOf fp) (afterLine fp))) := by
  cases fp with
  | nil => exact ⟨_, rfl, .inl ⟨rfl, hb⟩⟩
  | cons c rest =>
    obtain ⟨r, hr, hf | hread⟩ := getline_cons_spec grant k c rest hb
    · exact ⟨r, hr, .inl hf.1⟩
    · have hpos := lineOf_cons_length_pos c rest
      exact ⟨r, hr, .inr ⟨by rw [hread.1]; omega, hread⟩⟩

/-- A first call, with `*lp` null and every allocation granted. -/
theorem getline_w32_reads_line_first : (⟨none, 0⟩ : Buf).Valid ∧
    ∃ r, getline (fun _ => true) ⟨none, 0⟩ 0 [104, 10, 105] = .ok r ∧
      (r.Fails ∨ (1 ≤ r.ret ∧ r.Reads (lineOf [104, 10, 105]) (afterLine [104, 10, 105]))) :=
  ⟨.inl rfl, getline_w32_reads_line _ _ _ _ (.inl rfl)⟩

/-! ## The requests a call reads -/

/-- `grow` makes at most one request. -/
theorem grow_requests {grant : Nat → Bool} {pos : Nat} {data : List UInt8} {size k k' : Nat}
    {o : Option (List UInt8 × Nat)} (h : grow grant pos data size k = (o, k')) : k ≤ k' := by
  unfold grow at h
  split_ifs at h <;> simp only [Prod.mk.injEq] at h <;> omega

/-- `grow` makes a request, and reads `grant`, only when it reallocates. -/
theorem grow_reads {grant grant' : Nat → Bool} {pos : Nat} {data : List UInt8} {size k k' : Nat}
    {o : Option (List UInt8 × Nat)} (h : grow grant pos data size k = (o, k'))
    (hag : k < k' → grant' k = grant k) : grow grant' pos data size k = (o, k') := by
  unfold grow at h ⊢
  by_cases hs : pos + 1 ≥ size
  · simp only [if_pos hs, Prod.mk.injEq] at h
    obtain ⟨rfl, rfl⟩ := h
    simp only [if_pos hs, granted, hag (Nat.lt_succ_self k)]
  · simp only [if_neg hs, Prod.mk.injEq] at h
    obtain ⟨rfl, rfl⟩ := h
    simp only [if_neg hs]

theorem finish_requests {data : List UInt8} {size pos : Nat} {rest : List UInt8} {k : Nat}
    {r : Ret} (h : finish data size pos rest k = .ok r) : r.requests = k := by
  unfold finish store at h
  split_ifs at h <;> cases h
  rfl

/-- The loop reads `grant` only at the requests it makes: its result stays when `grant` changes
at no other request. -/
theorem loop_reads {grant : Nat → Bool} (rest : List UInt8) :
    ∀ (c : UInt8) (pos : Nat) (data : List UInt8) (size k : Nat) (r : Ret),
      loop grant c rest pos data size k = .ok r →
      k ≤ r.requests ∧ ∀ grant' : Nat → Bool, (∀ i, k ≤ i → i < r.requests → grant' i = grant i) →
        loop grant' c rest pos data size k = .ok r := by
  induction rest with
  | nil =>
    intro c pos data size k r h
    rw [loop] at h
    rcases hg : grow grant pos data size k with ⟨_ | ⟨d, s⟩, k'⟩ <;> rw [hg] at h
    · cases h
      have hk := grow_requests hg
      exact ⟨hk, fun grant' hag => by rw [loop, grow_reads hg fun hlt => hag k le_rfl hlt]⟩
    · have hr : r.requests = k' := by
        cases hst : store d pos c <;> simp only [hst, Except.bind] at h
        · cases h
        · split_ifs at h <;> exact finish_requests h
      have hk := grow_requests hg
      refine ⟨by omega, fun grant' hag => ?_⟩
      rw [loop, grow_reads hg fun hlt => hag k le_rfl (by omega)]
      exact h
  | cons c' rest ih =>
    intro c pos data size k r h
    rw [loop] at h
    rcases hg : grow grant pos data size k with ⟨_ | ⟨d, s⟩, k'⟩ <;> rw [hg] at h
    · cases h
      have hk := grow_requests hg
      exact ⟨hk, fun grant' hag => by rw [loop, grow_reads hg fun hlt => hag k le_rfl hlt]⟩
    · have hk := grow_requests hg
      cases hst : store d pos c with
      | error e => simp only [hst, Except.bind] at h; cases h
      | ok d' =>
        simp only [hst, Except.bind] at h
        by_cases hc : c = 10
        · rw [if_pos hc] at h
          have hr := finish_requests h
          refine ⟨by omega, fun grant' hag => ?_⟩
          rw [loop, grow_reads hg fun hlt => hag k le_rfl (by omega)]
          simp only [hst, Except.bind, if_pos hc]
          exact h
        · rw [if_neg hc] at h
          obtain ⟨hr, hread⟩ := ih c' (pos + 1) d' s k' r h
          refine ⟨by omega, fun grant' hag => ?_⟩
          rw [loop, grow_reads hg fun hlt => hag k le_rfl (by omega)]
          simp only [hst, Except.bind, if_neg hc]
          exact hread grant' fun i hi hi' => hag i (by omega) hi'

/-- `getline_w32` reads `grant` only at the requests it makes. -/
theorem getline_reads {grant : Nat → Bool} {b : Buf} {k : Nat} {fp : List UInt8} {r : Ret}
    (h : getline grant b k fp = .ok r) :
    k ≤ r.requests ∧ ∀ grant' : Nat → Bool, (∀ i, k ≤ i → i < r.requests → grant' i = grant i) →
      getline grant' b k fp = .ok r := by
  cases fp with
  | nil => cases h; exact ⟨le_rfl, fun _ _ => rfl⟩
  | cons c rest =>
    cases hd : b.data with
    | some data =>
      simp only [getline, hd] at h
      obtain ⟨hk, hread⟩ := loop_reads rest c 0 data b.size k r h
      exact ⟨hk, fun grant' hag => by simpa only [getline, hd] using hread grant' hag⟩
    | none =>
      simp only [getline, hd] at h
      split_ifs at h with hg
      · obtain ⟨hk, hread⟩ := loop_reads rest c 0 _ 128 (k + 1) r h
        refine ⟨by omega, fun grant' hag => ?_⟩
        have hg' : granted grant' k 128 = true := by rwa [granted, hag k le_rfl (by omega)]
        simp only [getline, hd, hg', if_true]
        exact hread grant' fun i hi hi' => hag i (by omega) hi'
      · cases h
        refine ⟨Nat.le_succ k, fun grant' hag => ?_⟩
        have hg' : granted grant' k 128 = false := by
          simpa only [granted, hag k le_rfl (Nat.lt_succ_self k), Bool.not_eq_true] using hg
        simp only [getline, hd, hg', Bool.false_eq_true, if_false]

end Fsys

end ModernCli
