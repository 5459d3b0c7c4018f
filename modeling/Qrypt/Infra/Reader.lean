import Qrypt.Infra.Bytes

/-!
# Byte streams

The `io.Reader` protocol: one call `Read(p)` hands out at most `len(p)` bytes and may report
an error, `io.EOF` among them.

## What a reader delivers

`Ends e r d` says that the reader `r` hands out exactly the bytes `d` and then the error `e`,
whatever buffer sizes it is called with; `Delivers r d` is the regular case, `io.EOF`. It is stated
by an invariant (`IsContent`) that one call of `Read` keeps.

* `Ends.readFull`, `Ends.copyN`, `Ends.copyAll`, `Ends.limit` — the functions of `io`
* `Body.ends` — a stream of given bytes, in pieces of any size
* `ends_of_isFill` — a reader that refills a buffer

`Yields r d` is what a caller sees of `Delivers r d`: the result of every sequence of calls.
-/

namespace Infra

open List

/-- Error values of the `io` protocol; every other error is kept by its text. -/
inductive Err where
  | eof
  | unexpectedEOF
  | text (msg : String)
  deriving DecidableEq, Repr

/-- The text `err.Error()`. -/
def Err.message : Err → String
  | .eof => "EOF"
  | .unexpectedEOF => "unexpected EOF"
  | .text msg => msg

/-- Result of one call of `Read`: the bytes handed out, the error, the reader afterwards. -/
structure ReadResult (ρ : Type) where
  bytes : Bytes
  err : Option Err
  next : ρ

/-- `io.Reader`. The second argument of `read` is `len(p)`. -/
class Reader (ρ : Type) where
  read : ρ → Nat → ReadResult ρ

open Reader (read)

variable {ρ : Type} [Reader ρ] {e : Err}

/-! ## What a reader delivers -/

/-- `C r d` is an invariant for "`r` still has to hand out `d`, and then reports `e`". -/
def IsContent (e : Err) (C : ρ → Bytes → Prop) : Prop :=
  ∀ r d n, C r d → ∃ rest, d = (read r n).bytes ++ rest ∧ (read r n).bytes.length ≤ n ∧
    ((read r n).err = none → C (read r n).next rest ∧ (0 < n → (read r n).bytes ≠ [])) ∧
    (∀ e', (read r n).err = some e' → e' = e ∧ rest = [] ∧ (e = .eof → C (read r n).next []))

/-- The reader hands out exactly `d`, then the error `e`. -/
def Ends (e : Err) (r : ρ) (d : Bytes) : Prop :=
  ∃ C : ρ → Bytes → Prop, IsContent e C ∧ C r d

/-- The reader hands out exactly `d`, then `io.EOF`. -/
abbrev Delivers (r : ρ) (d : Bytes) : Prop := Ends .eof r d

/-- `Ends` is itself such an invariant. -/
theorem isContent_ends : IsContent e (Ends (ρ := ρ) e) := by
  intro r d n h
  obtain ⟨C, hC, hrd⟩ := h
  obtain ⟨rest, h1, h2, h3, h4⟩ := hC r d n hrd
  exact ⟨rest, h1, h2, fun he => ⟨⟨C, hC, (h3 he).1⟩, (h3 he).2⟩,
    fun e' he => ⟨(h4 e' he).1, (h4 e' he).2.1, fun heof => ⟨C, hC, (h4 e' he).2.2 heof⟩⟩⟩

variable {r : ρ} {d : Bytes}

/--
One call on a reader that hands out `d` and then `e`: either a piece of `d`, or the last piece
together with the error.
-/
theorem Ends.read_cases (h : Ends e r d) (n : Nat) :
    (∃ b rest r', read r n = ⟨b, none, r'⟩ ∧ d = b ++ rest ∧ b.length ≤ n ∧ Ends e r' rest ∧ (0 < n → 0 < b.length)) ∨
    (∃ r', read r n = ⟨d, some e, r'⟩ ∧ d.length ≤ n ∧ (e = .eof → Ends e r' [])) := by
  obtain ⟨rest, hd, hlen, hnone, hsome⟩ := isContent_ends r d n h
  rcases hread : read r n with ⟨b, _ | e', r'⟩ <;> simp only [hread] at hd hlen hnone hsome
  · obtain ⟨hnext, hprog⟩ := hnone trivial
    exact .inl ⟨b, rest, r', rfl, hd, hlen, hnext, fun hn => length_pos_iff.mpr (hprog hn)⟩
  · obtain ⟨rfl, rfl, hnext⟩ := hsome e' rfl
    rw [append_nil] at hd
    subst hd
    exact .inr ⟨r', rfl, hlen, hnext⟩

/-! ## Any sequence of calls -/

/-- Calls `Read` with the given buffer sizes until one of them reports an error. -/
def drain : ρ → List Nat → ReadResult ρ
  | r, [] => ⟨[], none, r⟩
  | r, n :: ns =>
    match read r n with
    | ⟨b, some e, r'⟩ => ⟨b, some e, r'⟩
    | ⟨b, none, r'⟩ => ⟨b ++ (drain r' ns).bytes, (drain r' ns).err, (drain r' ns).next⟩

/-- Reading `r` with any buffer sizes gives exactly `d`: the bytes handed out are a prefix of `d`, the only error is
`io.EOF` after all of `d`, and it comes once the calls with a nonempty buffer outnumber the bytes. -/
def Yields (r : ρ) (d : Bytes) : Prop :=
  ∀ ns : List Nat, (∃ rest, d = (drain r ns).bytes ++ rest ∧ ∀ e, (drain r ns).err = some e → e = .eof ∧ rest = []) ∧
    (d.length < (ns.filter (0 < ·)).length → (drain r ns).err = some .eof)

theorem Ends.drain (h : Ends e r d) (ns : List Nat) :
    (∃ rest, d = (drain r ns).bytes ++ rest ∧
      ∀ e', (Infra.drain r ns).err = some e' → e' = e ∧ rest = []) ∧
    (d.length < (ns.filter (0 < ·)).length → (Infra.drain r ns).err = some e) := by
  induction ns generalizing r d with
  | nil => exact ⟨⟨d, rfl, by simp [Infra.drain]⟩, by simp⟩
  | cons n ns ih =>
    rcases h.read_cases n with ⟨b, rest, r', hread, rfl, -, hnext, hprog⟩ | ⟨r', hread, -, -⟩
    · simp only [Infra.drain, hread]
      obtain ⟨⟨rest', hd', herr'⟩, hprog'⟩ := ih hnext
      refine ⟨⟨rest', by rw [append_assoc, ← hd'], herr'⟩, ?_⟩
      intro hcount
      refine hprog' ?_
      rw [length_append] at hcount
      by_cases hn : 0 < n
      · have hb := hprog hn
        simp only [hn, decide_true, filter_cons_of_pos, length_cons] at hcount
        omega
      · simp only [hn, decide_false, Bool.false_eq_true, not_false_eq_true, filter_cons_of_neg] at hcount
        omega
    · simp only [Infra.drain, hread]
      exact ⟨⟨[], by simp, fun e' he => ⟨(Option.some.inj he).symm, rfl⟩⟩, fun _ => trivial⟩

/-- **A reader that delivers `d` yields `d` under any buffering.** -/
theorem Delivers.yields (h : Delivers r d) : Yields r d :=
  fun ns => Ends.drain h ns

/-- Calls of one byte each, more than `n` of them. -/
theorem length_filter_replicate_one (n : Nat) : ((replicate n 1).filter (0 < ·)).length = n := by
  simp

theorem Yields.unique {d' : Bytes} (h : Yields r d) (h' : Yields r d') : d = d' := by
  obtain ⟨⟨rest, hd, herr⟩, hend⟩ := h (replicate (d.length + 1) 1)
  obtain ⟨⟨rest', hd', herr'⟩, -⟩ := h' (replicate (d.length + 1) 1)
  have heof := hend (by rw [length_filter_replicate_one]; omega)
  rw [hd, hd', (herr _ heof).2, (herr' _ heof).2]

/-- A reader that ends with another error than `io.EOF` yields nothing. -/
theorem Ends.not_yields {x : Bytes} (h : Ends e r d) (he : e ≠ .eof) : ¬ Yields r x := by
  intro hy
  have hend := (h.drain (replicate (d.length + 1) 1)).2 (by rw [length_filter_replicate_one]; omega)
  obtain ⟨⟨_, -, herr⟩, -⟩ := hy (replicate (d.length + 1) 1)
  exact he (herr e hend).1

/-- A reader whose calls are those of `r` hands out what `r` hands out. -/
theorem Ends.map {τ : Type} [Reader τ] (h : Ends e r d) (f : ρ → τ)
    (hf : ∀ r n, read (f r) n = ⟨(read r n).bytes, (read r n).err, f (read r n).next⟩) : Ends e (f r) d := by
  refine ⟨fun t x => ∃ r, t = f r ∧ Ends e r x, ?_, r, rfl, h⟩
  rintro _ x n ⟨r, rfl, hr⟩
  obtain ⟨rest, h1, h2, h3, h4⟩ := isContent_ends r x n hr
  rw [hf]
  exact ⟨rest, h1, h2, fun he => ⟨⟨_, rfl, (h3 he).1⟩, (h3 he).2⟩,
    fun e' he => ⟨(h4 e' he).1, (h4 e' he).2.1, fun heof => ⟨_, rfl, (h4 e' he).2.2 heof⟩⟩⟩

/-! ## `io.ReadFull` -/

/-- The error `io.ReadFull` reports when the reader ends with `e` after `m` of `n` bytes. -/
def readFullErr (m n : Nat) (e : Err) : Option Err :=
  if n ≤ m then none
  else if 0 < m ∧ e = .eof then some .unexpectedEOF
  else some e

/-- The loop of `io.ReadAtLeast`. `fuel` counts the calls of `Read`. -/
def readFullLoop : Nat → ρ → Nat → Bytes → ReadResult ρ
  | 0, r, _, acc => ⟨acc, none, r⟩
  | fuel + 1, r, n, acc =>
    if n ≤ acc.length then ⟨acc, none, r⟩
    else
      match read r (n - acc.length) with
      | ⟨b, none, r'⟩ => readFullLoop fuel r' n (acc ++ b)
      | ⟨b, some e, r'⟩ => ⟨acc ++ b, readFullErr (acc ++ b).length n e, r'⟩

/-- `io.ReadFull(r, buf)` with `len(buf) = n`; the extra call lets the loop see that it is done. -/
def readFull (r : ρ) (n : Nat) : ReadResult ρ := readFullLoop (n + 1) r n []

theorem Ends.readFullLoop (h : Ends e r d) (fuel n : Nat) (acc : Bytes)
    (hf : n < fuel + acc.length) (hle : acc.length ≤ n) :
    (readFullLoop fuel r n acc).bytes = (acc ++ d).take n ∧
      (e = .eof → Ends e (Infra.readFullLoop fuel r n acc).next (d.drop (n - acc.length))) ∧
      (Infra.readFullLoop fuel r n acc).err = readFullErr (acc ++ d).length n e := by
  induction fuel generalizing r d acc with
  | zero => omega
  | succ fuel ih =>
    by_cases hn : n ≤ acc.length
    · have heq : acc.length = n := by omega
      simp only [Infra.readFullLoop, if_pos hn]
      refine ⟨by simp [← heq], fun _ => by simpa [heq] using h, ?_⟩
      rw [readFullErr, if_pos (by simp only [length_append]; omega)]
    · rcases Ends.read_cases h (n - acc.length) with
        ⟨b, rest, r', hread, rfl, hlen, hnext, hprog⟩ | ⟨r', hread, hlen, hnext⟩ <;>
        simp only [hread, Infra.readFullLoop, if_neg hn]
      · have hb := hprog (by omega)
        have key := ih hnext (acc ++ b) (by simp only [length_append]; omega)
          (by simp only [length_append]; omega)
        have hdrop : (b ++ rest).drop (n - acc.length) = rest.drop (n - (acc ++ b).length) := by
          rw [drop_append, drop_of_length_le hlen, nil_append, length_append, Nat.sub_sub]
        rw [append_assoc] at key
        rwa [hdrop]
      · refine ⟨?_, fun heof => ?_, trivial⟩
        · rw [take_of_length_le]
          simp only [length_append]
          omega
        · rw [drop_of_length_le hlen]
          exact hnext heof

/-- **`io.ReadFull` on a reader that hands out `d`** takes the first `n` bytes of `d`. -/
theorem Ends.readFull (h : Ends e r d) (n : Nat) : (readFull r n).bytes = d.take n ∧
      (e = .eof → Ends e (Infra.readFull r n).next (d.drop n)) ∧
      (Infra.readFull r n).err = readFullErr d.length n e := by
  have := h.readFullLoop (n + 1) n [] (by simp) (by simp)
  simpa [Infra.readFull] using this

theorem Delivers.readFull (h : Delivers r d) (n : Nat) :
    (readFull r n).bytes = d.take n ∧ Delivers (Infra.readFull r n).next (d.drop n) ∧
      (Infra.readFull r n).err = readFullErr d.length n .eof :=
  ⟨(Ends.readFull h n).1, (Ends.readFull h n).2.1 rfl, (Ends.readFull h n).2.2⟩

/-! ## `io.LimitReader` -/

/-- `io.LimitedReader`: at most `left` more bytes of `reader`. -/
structure LimitedReader (ρ : Type) where
  reader : ρ
  left : Nat

instance : Reader (LimitedReader ρ) where
  read l n :=
    if l.left = 0 then ⟨[], some .eof, l⟩
    else
      match read l.reader (min n l.left) with
      | ⟨b, err, r'⟩ => ⟨b, err, ⟨r', l.left - b.length⟩⟩

theorem LimitedReader.read_zero (r : ρ) (n : Nat) : read (LimitedReader.mk r 0) n = ⟨[], some .eof, ⟨r, 0⟩⟩ := rfl

theorem LimitedReader.read_pos {r' : ρ} {k n : Nat} {b : Bytes} {err : Option Err} (h : k ≠ 0)
    (hread : read r (min n k) = ⟨b, err, r'⟩) : read (LimitedReader.mk r k) n = ⟨b, err, ⟨r', k - b.length⟩⟩ := by
  show (if k = 0 then _ else _) = _
  rw [if_neg h, hread]

/-- **A limited reader hands out the first bytes of what the inner one does.** -/
theorem Ends.limit (h : Ends e r d) (k : Nat) (hk : e = .eof ∨ d.length < k) :
    Ends e (LimitedReader.mk r k) (d.take k) := by
  refine ⟨fun l x => ∃ d, Ends e l.reader d ∧ (e = .eof ∨ d.length < l.left) ∧ x = d.take l.left, ?_, d, h, hk, rfl⟩
  rintro ⟨r, k⟩ x n ⟨d, hd, hk, rfl⟩
  by_cases h0 : k = 0
  · subst h0
    obtain rfl : e = .eof := hk.resolve_right (Nat.not_lt_zero _)
    exact ⟨[], rfl, Nat.zero_le n, by simp [LimitedReader.read_zero], fun e' he => ⟨by
      simpa [LimitedReader.read_zero, eq_comm] using he, rfl, fun _ => ⟨d, hd, hk, rfl⟩⟩⟩
  · rcases hd.read_cases (min n k) with
      ⟨b, rest, r', hread, rfl, hlen, hnext, hprog⟩ | ⟨r', hread, hlen, hnext⟩ <;>
      simp only [LimitedReader.read_pos h0 hread]
    · refine ⟨rest.take (k - b.length), ?_, by omega, fun _ => ⟨⟨rest, hnext, ?_, rfl⟩,
        fun hn => ne_nil_of_length_pos (hprog (by omega))⟩, nofun⟩
      · rw [take_append, take_of_length_le (by omega)]
      · rw [length_append] at hk
        exact hk.imp_right fun hk => Nat.lt_sub_of_add_lt (by rw [Nat.add_comm]; exact hk)
    · refine ⟨[], ?_, by omega, nofun, fun e' he => ⟨(Option.some.inj he).symm, rfl, fun heof =>
        ⟨[], hnext heof, .inl heof, by simp⟩⟩⟩
      rw [append_nil, take_of_length_le (by omega)]

/-! ## `io.CopyN` into `io.Discard` -/

/-- `io.Discard.ReadFrom`: reads 8192 bytes at a time until an error, and counts them. -/
def discardFrom : Nat → ρ → Nat → Nat × Option Err × ρ
  | 0, r, count => (count, none, r)
  | fuel + 1, r, count =>
    match read r 8192 with
    | ⟨b, none, r'⟩ => discardFrom fuel r' (count + b.length)
    | ⟨b, some e, r'⟩ => (count + b.length, if e = .eof then none else some e, r')

/-- `io.CopyN(io.Discard, r, n)`. -/
def copyN (r : ρ) (n : Nat) : Option Err × ρ :=
  match discardFrom (n + 1) (LimitedReader.mk r n) 0 with
  | (written, err, l) => (if written = n then none else if err = none then some .eof else err, l.reader)

theorem Ends.discardFrom (h : Ends e r d) (fuel k count : Nat) (hf : k < fuel) :
    ∃ err l, discardFrom fuel (LimitedReader.mk r k) count = (count + min k d.length, err, l) ∧
      (d.length < k → err = if e = .eof then none else some e) ∧
      (k < d.length ∨ e = .eof → Ends e l.reader (d.drop k)) := by
  induction fuel generalizing r d k count with
  | zero => omega
  | succ fuel ih =>
    by_cases h0 : k = 0
    · subst h0
      exact ⟨none, ⟨r, 0⟩, by simp [Infra.discardFrom, LimitedReader.read_zero], by omega, fun _ => by simpa using h⟩
    · rcases h.read_cases (min 8192 k) with
        ⟨b, rest, r', hread, rfl, hlen, hnext, hprog⟩ | ⟨r', hread, hlen, hnext⟩ <;>
        simp only [Infra.discardFrom, LimitedReader.read_pos h0 hread]
      · have hb := hprog (by omega)
        obtain ⟨err, l, hl, herr, hdl⟩ := ih hnext (k - b.length) (count + b.length) (by omega)
        have hdrop : (b ++ rest).drop k = rest.drop (k - b.length) := by
          rw [drop_append, drop_of_length_le (by omega), nil_append]
        have hcount : count + b.length + min (k - b.length) rest.length = count + min k (b ++ rest).length := by
          rw [length_append]
          omega
        rw [length_append] at hcount ⊢
        refine ⟨err, l, by rw [hl, hcount], fun hk => herr (by omega), fun hk => ?_⟩
        rw [hdrop]
        exact hdl (hk.imp_left fun hk => by omega)
      · refine ⟨_, ⟨r', k - d.length⟩, rfl.trans ?_, fun _ => rfl, fun hk => ?_⟩
        · rw [Nat.min_eq_right (by omega)]
        · rw [drop_of_length_le (by omega)]
          exact hnext (hk.resolve_left (by omega))

/-- **`io.CopyN` skips the first `n` bytes.** -/
theorem Ends.copyN (h : Ends e r d) (n : Nat) : (copyN r n).1 = (if n ≤ d.length then none else some e) ∧
      (n < d.length ∨ e = .eof → Ends e (Infra.copyN r n).2 (d.drop n)) := by
  obtain ⟨err, l, hl, herr, hdl⟩ := h.discardFrom (n + 1) n 0 (by omega)
  simp only [Infra.copyN, hl]
  refine ⟨?_, hdl⟩
  by_cases hn : n ≤ d.length
  · simp [hn]
  · rw [if_neg (by omega), if_neg hn, herr (by omega)]
    by_cases he : e = .eof <;> simp [he]

/-! ## `io.Copy` -/

/-- `io.Copy(dst, r)`: everything the reader hands out, 32 KiB at a time. `io.EOF` is not reported. -/
def copyAll : Nat → ρ → Bytes → Bytes × Option Err
  | 0, _, acc => (acc, none)
  | fuel + 1, r, acc =>
    match read r 32768 with
    | ⟨b, none, r'⟩ => copyAll fuel r' (acc ++ b)
    | ⟨b, some e, _⟩ => (acc ++ b, if e = .eof then none else some e)

theorem prefix_copyAll (fuel : Nat) (r : ρ) (acc : Bytes) : acc <+: (copyAll fuel r acc).1 := by
  induction fuel generalizing r acc with
  | zero => exact prefix_rfl
  | succ fuel ih =>
    rw [copyAll]
    split
    · exact (prefix_append _ _).trans (ih _ _)
    · exact prefix_append _ _

/-! ## A stream of given bytes -/

/-- A response body or an opened file: the bytes to come, how many of them the next calls hand out (at least one each),
whether the last come together with the final error, and that error. -/
structure Body where
  data : Bytes
  sched : List Nat
  eager : Bool
  last : Err
  deriving DecidableEq, Repr

/-- The size of the piece a body hands out for a buffer of `n` bytes. -/
def Body.chunk (b : Body) (n : Nat) : Nat := min n (max 1 (b.sched.headD n))

instance : Reader Body where
  read b n :=
    if n = 0 then ⟨[], none, b⟩
    else if b.data = [] then ⟨[], some b.last, b⟩
    else
      ⟨b.data.take (b.chunk n),
        if b.data.drop (b.chunk n) = [] ∧ b.eager then some b.last else none,
        { b with data := b.data.drop (b.chunk n), sched := b.sched.tail }⟩

/-- **A body hands out its bytes and then its error.** -/
theorem Body.ends (b : Body) : Ends b.last b b.data := by
  refine ⟨fun b' d => b'.last = b.last ∧ d = b'.data, ?_, rfl, rfl⟩
  rintro b d n ⟨hlast, rfl⟩
  by_cases hn : n = 0
  · subst hn
    exact ⟨b.data, rfl, Nat.le_refl 0, fun _ => ⟨⟨hlast, rfl⟩, by omega⟩, by simp [Reader.read]⟩
  · by_cases hd : b.data = []
    · refine ⟨[], ?_, ?_, ?_, ?_⟩ <;> simp [Reader.read, hn, hd, hlast]
    · have hlen := length_pos_iff.mpr hd
      refine ⟨b.data.drop (b.chunk n), ?_, ?_, ?_, ?_⟩ <;> simp only [Reader.read, if_neg hn, if_neg hd]
      · rw [take_append_drop]
      · simp only [length_take, Body.chunk]
        omega
      · intro _
        refine ⟨⟨hlast, trivial⟩, fun _ => ne_nil_of_length_pos ?_⟩
        simp only [length_take, Body.chunk]
        omega
      · intro e' he
        split at he
        · next hc =>
          cases he
          exact ⟨hlast, hc.1, fun _ => ⟨hlast, hc.1.symm⟩⟩
        · cases he

theorem Body.delivers {b : Body} (h : b.last = .eof) : Delivers b b.data := by
  have hb := b.ends
  rwa [h] at hb

/-! ## Readers that refill a buffer -/

/-- Produces the next piece of a stream. `bound` is at least the number of pieces to come. -/
class Filler (σ : Type) where
  fill : σ → Except Err Bytes × σ
  bound : σ → Nat

/-- A producer of pieces with the part of the last piece that was not handed out yet. -/
structure Buffered (σ : Type) where
  state : σ
  pending : Bytes

section Buffered

variable {σ : Type} [Filler σ]

/-- The loop of `Read`: refills the empty buffer and copies from it until the caller's `n` bytes are there. An `io.EOF`
after the first byte is left to the next call. -/
def Buffered.readLoop : Nat → Buffered σ → Nat → Bytes → ReadResult (Buffered σ)
  | 0, r, _, acc => ⟨acc, none, r⟩
  | fuel + 1, r, n, acc =>
    if n ≤ acc.length then ⟨acc, none, r⟩
    else if r.pending = [] then
      match Filler.fill r.state with
      | (.error e, s') => ⟨acc, if e = .eof ∧ 0 < acc.length then none else some e, ⟨s', []⟩⟩
      | (.ok b, s') => readLoop fuel ⟨s', b.drop (n - acc.length)⟩ n (acc ++ b.take (n - acc.length))
    else
      readLoop fuel ⟨r.state, r.pending.drop (n - acc.length)⟩ n (acc ++ r.pending.take (n - acc.length))

instance : Reader (Buffered σ) where
  read r n := r.readLoop (n + Filler.bound r.state + 1) n []

/-- `K s d` is an invariant for "the producer `s` still has to produce `d`, in nonempty pieces, and
then reports `e`". -/
def IsFill (e : Err) (K : σ → Bytes → Prop) : Prop :=
  ∀ s d, K s d → (∃ b rest s', Filler.fill s = (.ok b, s') ∧ b ≠ [] ∧ d = b ++ rest ∧ K s' rest) ∨
    (∃ s', Filler.fill s = (.error e, s') ∧ d = [] ∧ (e = .eof → K s' []))

/-- The state a call leaves: the rest of the buffer, and a producer of what follows it. -/
def Buffered.Rest (K : σ → Bytes → Prop) (r : Buffered σ) (x : Bytes) : Prop :=
  ∃ d, K r.state d ∧ x = r.pending ++ d

/-- What the loop achieves when `x` is still to be handed out. -/
structure Buffered.LoopSpec (e : Err) (K : σ → Bytes → Prop) (x acc : Bytes) (n : Nat)
    (out rest : Bytes) (res : ReadResult (Buffered σ)) : Prop where
  bytes : res.bytes = acc ++ out
  length : (acc ++ out).length ≤ n
  split : x = out ++ rest
  next : res.err = none → Buffered.Rest K res.next rest
  progress : res.err = none → n = acc.length ∨ acc ++ out ≠ []
  last : ∀ e', res.err = some e' → e' = e ∧ rest = [] ∧ (e = .eof → Buffered.Rest K res.next [])

theorem Buffered.readLoop_spec {K : σ → Bytes → Prop} (hK : IsFill e K) (fuel : Nat)
    (r : Buffered σ) (x : Bytes) (n : Nat) (acc : Bytes) (hx : Buffered.Rest K r x)
    (hf : n < fuel + acc.length) (hle : acc.length ≤ n) :
    ∃ out rest, Buffered.LoopSpec e K x acc n out rest (r.readLoop fuel n acc) := by
  induction fuel generalizing r x acc with
  | zero => omega
  | succ fuel ih =>
    obtain ⟨s, p⟩ := r
    obtain ⟨d, hd, rfl⟩ := hx
    -- copying a nonempty piece `q` and going on with the rest of it
    have copy : ∀ (q : Bytes) (s' : σ) (d' : Bytes), q ≠ [] → K s' d' → ¬ n ≤ acc.length →
        ∃ out rest, Buffered.LoopSpec e K (q ++ d') acc n out rest
          (readLoop fuel ⟨s', q.drop (n - acc.length)⟩ n (acc ++ q.take (n - acc.length))) := by
      intro q s' d' hq hd' hn
      have hqpos := length_pos_iff.mpr hq
      have hlen : (acc ++ q.take (n - acc.length)).length = acc.length + min (n - acc.length) q.length := by
        simp only [length_append, length_take]
      obtain ⟨out, rest, h⟩ :=
        ih ⟨s', q.drop (n - acc.length)⟩ (q.drop (n - acc.length) ++ d')
          (acc ++ q.take (n - acc.length)) ⟨d', hd', rfl⟩ (by omega) (by omega)
      refine ⟨q.take (n - acc.length) ++ out, rest, ?_, ?_, ?_, h.next, fun _ => .inr ?_, h.last⟩
      · rw [h.bytes, append_assoc]
      · rw [← append_assoc]
        exact h.length
      · rw [append_assoc, ← h.split, ← append_assoc, take_append_drop]
      · refine ne_nil_of_length_pos ?_
        simp only [length_append, length_take]
        omega
    by_cases hn : n ≤ acc.length
    · simp only [readLoop, if_pos hn]
      exact ⟨[], p ++ d, by simp, by simpa using hle, rfl, fun _ => ⟨d, hd, rfl⟩, fun _ => .inl (by omega), nofun⟩
    · by_cases hp : p = []
      · subst hp
        rcases hK s d hd with ⟨b, rest, s', hfill, hb, rfl, hrest⟩ | ⟨s', hfill, rfl, hrest⟩
        · simp only [readLoop, if_neg hn, if_true, hfill, nil_append]
          exact copy b s' rest hb hrest hn
        · simp only [readLoop, if_neg hn, if_true, hfill]
          refine ⟨[], [], by simp, by simpa using hle, by simp, ?_, ?_, ?_⟩
          · intro herr
            split at herr
            · next hc => exact ⟨[], hrest hc.1, rfl⟩
            · cases herr
          · intro herr
            split at herr
            · next hc =>
              right
              rw [append_nil]
              exact ne_nil_of_length_pos hc.2
            · cases herr
          · intro e' he
            split at he
            · cases he
            · cases he
              exact ⟨rfl, rfl, fun heof => ⟨[], hrest heof, rfl⟩⟩
      · simp only [readLoop, if_neg hn, if_neg hp]
        exact copy p s d hp hd hn

/-- **A reader that refills a buffer hands out the buffer and what its producer produces.** -/
theorem ends_of_isFill {K : σ → Bytes → Prop} (hK : IsFill e K) {r : Buffered σ} {d : Bytes}
    (h : K r.state d) : Ends e r (r.pending ++ d) := by
  refine ⟨Buffered.Rest K, ?_, d, h, rfl⟩
  intro r x n hx
  obtain ⟨out, rest, hs⟩ := Buffered.readLoop_spec hK (n + Filler.bound r.state + 1) r x n [] hx
    (by simp only [length_nil]; omega) (by simp)
  have hbytes : (read r n).bytes = out := hs.bytes
  rw [hbytes]
  refine ⟨rest, hs.split, hs.length, fun herr => ⟨hs.next herr, fun hn => ?_⟩, hs.last⟩
  rcases hs.progress herr with h | h
  · simp only [length_nil] at h
    omega
  · exact h

end Buffered

end Infra
