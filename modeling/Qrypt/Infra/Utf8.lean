import Qrypt.Infra.Bytes

/-!
# UTF-8

Go's `unicode/utf8`: the first rune of a byte string, the runes of a string with the bytes each of
them takes, validity, and `strings.TrimSpace`, which works on runes.

`decodeRune` accepts exactly the well-formed sequences (shortest form, no surrogates, at most
U+10FFFF); everything else is one invalid byte, as in Go.
-/

namespace Infra

open List

/-! ## The first rune -/

/-- For a byte that starts a longer sequence: how many bytes follow it, and the range of the first
of them. -/
def leadRange (a : UInt8) : Option (Nat × UInt8 × UInt8) :=
  if 0xC2 ≤ a ∧ a ≤ 0xDF then some (1, 0x80, 0xBF)
  else if a = 0xE0 then some (2, 0xA0, 0xBF)
  else if a = 0xED then some (2, 0x80, 0x9F)
  else if 0xE1 ≤ a ∧ a ≤ 0xEF then some (2, 0x80, 0xBF)
  else if a = 0xF0 then some (3, 0x90, 0xBF)
  else if 0xF1 ≤ a ∧ a ≤ 0xF3 then some (3, 0x80, 0xBF)
  else if a = 0xF4 then some (3, 0x80, 0x8F)
  else none

/-- Reads `k` continuation bytes, six bits each. -/
def contBytes : Nat → Nat → Bytes → Option (Nat × Bytes)
  | 0, v, rest => some (v, rest)
  | _ + 1, _, [] => none
  | k + 1, v, b :: rest => if 0x80 ≤ b ∧ b ≤ 0xBF then contBytes k (v * 64 + (b.toNat - 0x80)) rest else none

/-- The first rune and what follows it; nothing for an empty string or an invalid first byte. -/
def decodeRune : Bytes → Option (Nat × Bytes)
  | [] => none
  | a :: rest =>
    if a < 0x80 then some (a.toNat, rest)
    else
      match leadRange a, rest with
      | some (k, lo, hi), b :: _ => if lo ≤ b ∧ b ≤ hi then contBytes k (a.toNat % 2 ^ (6 - k)) rest else none
      | _, _ => none

variable {k v w : Nat} {s rest : Bytes}

theorem contBytes_append (h : contBytes k v s = some (w, rest))
    (t : Bytes) : contBytes k v (s ++ t) = some (w, rest ++ t) := by
  fun_induction contBytes k v s with
  | case1 v s =>
    cases h
    rfl
  | case2 => cases h
  | case3 k v b s hb ih =>
    rw [cons_append, contBytes, if_pos hb]
    exact ih h
  | case4 => cases h

theorem decodeRune_append (h : decodeRune s = some (v, rest)) (t : Bytes) :
    decodeRune (s ++ t) = some (v, rest ++ t) := by
  cases s with
  | nil => cases h
  | cons a s =>
    rw [cons_append]
    simp only [decodeRune] at h ⊢
    split at h
    · next ha =>
      rw [if_pos ha]
      cases h
      rfl
    · next ha =>
      rw [if_neg ha]
      split at h
      · next k lo hi b s' hlead =>
        rw [hlead]
        simp only [cons_append]
        split at h
        · next hb =>
          rw [if_pos hb]
          exact contBytes_append h t
        · cases h
      · cases h

theorem contBytes_chunk (h : contBytes k v s = some (w, rest)) :
    ∃ chunk, s = chunk ++ rest ∧ chunk.length = k ∧ contBytes k v chunk = some (w, []) ∧ ∀ c ∈ chunk, 0x80 ≤ c := by
  fun_induction contBytes k v s with
  | case1 v s =>
    cases h
    exact ⟨[], rfl, rfl, rfl, fun c hc => absurd hc not_mem_nil⟩
  | case2 => cases h
  | case3 k v b s hb ih =>
    obtain ⟨chunk, rfl, hlen, hchunk, hcont⟩ := ih h
    refine ⟨b :: chunk, rfl, by rw [length_cons, hlen], ?_, ?_⟩
    · rw [contBytes, if_pos hb, hchunk]
    · exact forall_mem_cons.mpr ⟨hb.1, hcont⟩
  | case4 => cases h

/-- A rune is one ASCII byte, or a sequence of bytes that starts with another one. -/
theorem decodeRune_chunk {a : UInt8} (h : decodeRune (a :: s) = some (v, rest)) :
    ∃ chunk, s = chunk ++ rest ∧ decodeRune (a :: chunk) = some (v, []) ∧
      (a < 0x80 ∧ chunk = [] ∨ ¬ a < 0x80 ∧ chunk ≠ [] ∧ ∀ c ∈ chunk, 0x80 ≤ c) := by
  simp only [decodeRune] at h ⊢
  split at h
  · next ha =>
    cases h
    exact ⟨[], rfl, if_pos ha, .inl ⟨ha, rfl⟩⟩
  · next ha =>
    split at h
    · next k lo hi b s' hlead =>
      split at h
      · next hb =>
        obtain ⟨chunk, hs, hlen, hchunk, hcont⟩ := contBytes_chunk h
        have hk : 0 < k := by
          unfold leadRange at hlead
          repeat' split at hlead
          all_goals cases hlead <;> decide
        obtain ⟨c, chunk, rfl⟩ : ∃ c t, chunk = c :: t :=
          exists_cons_of_length_pos (by omega)
        obtain ⟨rfl, rfl⟩ := cons.inj hs
        refine ⟨b :: chunk, rfl, ?_, .inr ⟨ha, cons_ne_nil _ _, hcont⟩⟩
        rw [if_neg ha, hlead]
        simp only [if_pos hb, hchunk]
      · cases h
    · cases h

/-! ## All runes -/

def runeError : Nat := 0xFFFD

/-- The runes of a string, each with its bytes; an invalid byte counts as `RuneError`. -/
def runesFuel : Nat → Bytes → List (Nat × Bytes)
  | 0, _ => []
  | fuel + 1, s =>
    match s with
    | [] => []
    | a :: rest =>
      match decodeRune s with
      | some (v, rest') => (v, s.take (s.length - rest'.length)) :: runesFuel fuel rest'
      | none => (runeError, [a]) :: runesFuel fuel rest

def runes (s : Bytes) : List (Nat × Bytes) := runesFuel s.length s

/-- `utf8.ValidString`. -/
def validStringFuel : Nat → Bytes → Bool
  | 0, s => s.isEmpty
  | fuel + 1, s =>
    s.isEmpty ||
      match decodeRune s with
      | some (_, rest) => validStringFuel fuel rest
      | none => false

def validString (s : Bytes) : Bool := validStringFuel s.length s

theorem validString_of_ascii (h : ∀ c ∈ s, c < 0x80) : validString s = true := by
  have go : ∀ (n : Nat) (s : Bytes), s.length ≤ n → (∀ c ∈ s, c < 0x80) → validStringFuel n s = true := by
    intro n
    induction n with
    | zero =>
      intro s hs _
      rw [length_eq_zero_iff.mp (Nat.le_zero.mp hs)]
      rfl
    | succ n ih =>
      intro s hs hc
      cases s with
      | nil => rfl
      | cons a s =>
        have ha := hc a mem_cons_self
        simp only [validStringFuel, decodeRune, if_pos ha, isEmpty_cons, Bool.false_or]
        exact ih s (by simpa using hs) fun c hcs => hc c (mem_cons_of_mem _ hcs)
  exact go s.length s (Nat.le_refl _) h

/-! ## `strings.TrimSpace` -/

def isSpace (r : Nat) : Bool :=
  (0x09 ≤ r && r ≤ 0x0D) || r == 0x20 || r == 0x85 || r == 0xA0 || r == 0x1680 ||
    (0x2000 ≤ r && r ≤ 0x200A) || r == 0x2028 || r == 0x2029 || r == 0x202F || r == 0x205F ||
    r == 0x3000

def trimSpace (s : Bytes) : Bytes :=
  let body := ((runes s).dropWhile fun r => isSpace r.1)
  ((body.reverse.dropWhile fun r => isSpace r.1).reverse.map Prod.snd).flatten

example : trimSpace (ascii "  a b\t") = ascii "a b" := by decide

end Infra
