import Mathlib

/-!
# Bytes, fixed-size arrays and `int64`

The data every module of the development works on: Go byte slices and strings as lists of bytes,
Go's `[n]byte` as a list with its length, and the wrap-around of `int64` arithmetic.

The last part is about *blockwise encodings*: a byte string is cut into blocks of `D` bytes and each block is encoded
on its own (`encodeBlocks`). When every block grows by a fixed number of bytes, whole blocks can be taken or dropped.
-/

namespace Infra

open List

/-- A Go byte slice or string. -/
abbrev Bytes := List UInt8

instance lawfulBEqBytes : LawfulBEq Bytes := inferInstance

def ascii (s : String) : Bytes := s.toList.map fun c => UInt8.ofNat c.toNat

/-- One hexadecimal digit, in lower case. -/
def hexDigit (n : Nat) : UInt8 := if n < 10 then UInt8.ofNat (48 + n) else UInt8.ofNat (87 + n)

/-- `hex.EncodeToString`. -/
def hexEncode (b : Bytes) : Bytes :=
  b.flatMap fun x => [hexDigit (x.toNat / 16), hexDigit (x.toNat % 16)]

theorem not_mem_of_mem_splitOn {c : UInt8} {s l : Bytes} (h : l ∈ s.splitOn c) : c ∉ l := by
  induction s generalizing l with
  | nil =>
    rw [splitOn_nil, mem_singleton] at h
    subst h
    exact not_mem_nil
  | cons b s ih =>
    rw [splitOn_cons_eq_if_modifyHead] at h
    split at h
    · rcases mem_cons.mp h with rfl | h
      · exact not_mem_nil
      · exact ih h
    · next hb =>
      rcases hs : s.splitOn c with _ | ⟨x, xs⟩
      · exact absurd hs (splitOn_ne_nil c s)
      · rw [hs, modifyHead_cons] at h
        rcases mem_cons.mp h with rfl | h
        · have hx : c ∉ x := ih (hs ▸ mem_cons_self)
          have hc : c ≠ b := fun h => hb (by simp [h])
          simp [hc, hx]
        · exact ih (hs ▸ mem_cons_of_mem x h)

/-! ## `[n]byte` -/

/-- Go's `[n]byte`. -/
structure FixedBytes (n : Nat) where
  bytes : Bytes
  size : bytes.length = n
  deriving DecidableEq, Repr

/-- `copy(a[:], b)` into a zeroed array. -/
def FixedBytes.ofBytes (n : Nat) (b : Bytes) : FixedBytes n :=
  ⟨(b ++ replicate n 0).take n, by simp⟩

theorem FixedBytes.ofBytes_bytes {n : Nat} (a : FixedBytes n) : FixedBytes.ofBytes n a.bytes = a := by
  obtain ⟨b, rfl⟩ := a
  simp [ofBytes]

/-! ## `int64` -/

/-- The value of an `int64` expression whose exact value is `x`. -/
def wrap64 (x : Int) : Int := (x + 2 ^ 63) % 2 ^ 64 - 2 ^ 63

/-- `x` is an `int64`. -/
def Fits64 (x : Int) : Prop := -2 ^ 63 ≤ x ∧ x < 2 ^ 63

instance (x : Int) : Decidable (Fits64 x) := inferInstanceAs (Decidable (_ ∧ _))

/-- The values of type `int64`. -/
abbrev I64 := { x : Int // Fits64 x }

instance : Zero I64 := ⟨⟨0, by decide⟩⟩

/-- `uint64` and `uint16` have a zero. -/
instance neZero_pow_64 : NeZero (2 ^ 64 : Nat) := inferInstance

instance neZero_pow_16 : NeZero (2 ^ 16 : Nat) := inferInstance

theorem wrap64_eq {x : Int} (h : Fits64 x) : wrap64 x = x := by
  unfold Fits64 at h
  unfold wrap64
  omega

/-- A sum or product that leaves the range upwards comes back from below. -/
theorem wrap64_of_overflow {x : Int} (h : 2 ^ 63 ≤ x) (h' : x < 2 ^ 63 + 2 ^ 64) : wrap64 x = x - 2 ^ 64 := by
  unfold wrap64
  omega

theorem wrap64_of_underflow {x : Int} (h : x < -2 ^ 63) (h' : -2 ^ 63 - 2 ^ 64 ≤ x) : wrap64 x = x + 2 ^ 64 := by
  unfold wrap64
  omega

theorem fits64_wrap64 (x : Int) : Fits64 (wrap64 x) := by
  unfold Fits64 wrap64
  omega

/-! ## Blockwise encodings -/

section Blocks

variable {α β : Type} (D : Nat) (enc : Nat → List α → List β)

/-- Encodes at most `fuel` blocks of `p`, the first one having index `i`. -/
def encodeBlocksFuel : Nat → Nat → List α → List β
  | 0, _, _ => []
  | fuel + 1, i, p =>
    match p with
    | [] => []
    | p => enc i (p.take D) ++ encodeBlocksFuel fuel (i + 1) (p.drop D)

/-- Encodes `p` block by block, the first block having index `i`. -/
def encodeBlocks (i : Nat) (p : List α) : List β := encodeBlocksFuel D enc p.length i p

variable {D enc}

theorem encodeBlocksFuel_eq (hD : 0 < D) (fuel i : Nat) (p : List α)
    (h : p.length ≤ fuel) : encodeBlocksFuel D enc fuel i p = encodeBlocks D enc i p := by
  induction fuel using Nat.strongRecOn generalizing i p with
  | ind fuel ih =>
    cases p with
    | nil => cases fuel <;> rfl
    | cons a p =>
      obtain ⟨fuel, rfl⟩ : ∃ f, fuel = f + 1 := ⟨fuel - 1, by simp at h; omega⟩
      have hlen : ((a :: p).drop D).length ≤ p.length := by
        simp only [length_drop, length_cons]
        omega
      simp only [length_cons, Nat.add_le_add_iff_right] at h
      show _ ++ encodeBlocksFuel D enc fuel (i + 1) _ = _ ++ encodeBlocksFuel D enc p.length (i + 1) _
      rw [ih fuel (Nat.lt_succ_self _) _ _ (Nat.le_trans hlen h)]
      by_cases hp : p.length = fuel
      · rw [hp, ih fuel (Nat.lt_succ_self _) _ _ (Nat.le_trans hlen h)]
      · rw [ih p.length (by omega) _ _ hlen]

@[simp] theorem encodeBlocks_nil (i : Nat) : encodeBlocks D enc i [] = [] := rfl

theorem encodeBlocks_step (hD : 0 < D) {p : List α} (hp : p ≠ []) (i : Nat) :
    encodeBlocks D enc i p = enc i (p.take D) ++ encodeBlocks D enc (i + 1) (p.drop D) := by
  cases p with
  | nil => exact absurd rfl hp
  | cons a p =>
    rw [← encodeBlocksFuel_eq hD p.length (i + 1) ((a :: p).drop D)]
    · rfl
    · simp only [length_drop, length_cons]
      omega

theorem blocks_induction (hD : 0 < D) {motive : List α → Prop} (nil : motive [])
    (step : ∀ p, p ≠ [] → motive (p.drop D) → motive p) (p : List α) : motive p := by
  induction hn : p.length using Nat.strongRecOn generalizing p with
  | ind n ih =>
    by_cases hp : p = []
    · exact hp ▸ nil
    · have hpos := length_pos_iff.mpr hp
      exact step p hp (ih _ (by simp only [length_drop]; omega) (p.drop D) rfl)

/-- Every nonempty block of at most `D` elements grows by `H`. -/
def Grows (D H : Nat) (enc : Nat → List α → List β) : Prop :=
  ∀ i b, b ≠ [] → b.length ≤ D → (enc i b).length = b.length + H

variable {H : Nat}

theorem Grows.length_first (hg : Grows D H enc) (hD : 0 < D) (i : Nat) {p : List α} (hp : p ≠ []) :
    (enc i (p.take D)).length = min D p.length + H := by
  have hpos := length_pos_iff.mpr hp
  rw [hg i _ _ (by simp only [length_take]; omega), length_take]
  intro h
  have := congrArg length h
  simp only [length_take, length_nil] at this
  omega

/-- **Dropping `j` encoded blocks drops `j` blocks.** -/
theorem encodeBlocks_drop (hg : Grows D H enc) (hD : 0 < D) (i j : Nat) (p : List α) :
    (encodeBlocks D enc i p).drop (j * (D + H)) = encodeBlocks D enc (i + j) (p.drop (j * D)) := by
  induction j generalizing i p with
  | zero => simp
  | succ j ih =>
    by_cases hp : p = []
    · subst hp
      simp
    · rw [encodeBlocks_step hD hp, drop_append, hg.length_first hD i hp]
      by_cases hshort : p.length ≤ D
      · -- the only block: nothing is left on either side
        have h1 : p.drop D = [] := drop_of_length_le hshort
        have hle : D ≤ (j + 1) * D := Nat.le_mul_of_pos_left D (Nat.succ_pos j)
        have hle' : D + H ≤ (j + 1) * (D + H) := Nat.le_mul_of_pos_left (D + H) (Nat.succ_pos j)
        rw [h1, drop_of_length_le (l := p) (by omega), drop_of_length_le]
        · simp
        · rw [hg.length_first hD i hp]
          omega
      · have hmin : min D p.length = D := by omega
        rw [hmin, drop_of_length_le (by
          rw [hg.length_first hD i hp, hmin, Nat.succ_mul]
          omega), nil_append]
        have h1 : (j + 1) * (D + H) - (D + H) = j * (D + H) := by
          rw [Nat.succ_mul, Nat.add_sub_cancel]
        rw [h1, ih, drop_drop, Nat.succ_mul, Nat.add_comm (j * D) D]
        congr 1
        omega

/-- **The first `m` encoded blocks are the encoding of the first `m` blocks.** -/
theorem encodeBlocks_take (hg : Grows D H enc) (hD : 0 < D) (i m : Nat) (p : List α) :
    (encodeBlocks D enc i p).take (m * (D + H)) = encodeBlocks D enc i (p.take (m * D)) := by
  induction m generalizing i p with
  | zero => simp
  | succ m ih =>
    by_cases hp : p = []
    · subst hp
      simp
    · have hpos := length_pos_iff.mpr hp
      have hle : D ≤ (m + 1) * D := Nat.le_mul_of_pos_left D (Nat.succ_pos m)
      have htake : p.take ((m + 1) * D) ≠ [] := by
        intro h
        have := congrArg length h
        simp only [length_take, length_nil] at this
        omega
      rw [encodeBlocks_step hD hp, encodeBlocks_step hD htake, take_append,
        hg.length_first hD i hp, take_take, drop_take, Nat.min_eq_left hle]
      have hsub : (m + 1) * D - D = m * D := by rw [Nat.succ_mul, Nat.add_sub_cancel]
      by_cases hshort : p.length ≤ D
      · have h1 : p.drop D = [] := drop_of_length_le hshort
        have hle' : D + H ≤ (m + 1) * (D + H) := Nat.le_mul_of_pos_left (D + H) (Nat.succ_pos m)
        rw [h1, take_of_length_le]
        · simp
        · rw [hg.length_first hD i hp]
          omega
      · have hmin : min D p.length = D := by omega
        rw [hmin, take_of_length_le (by
          rw [hg.length_first hD i hp, hmin, Nat.succ_mul]
          omega), hsub, Nat.succ_mul, Nat.add_sub_cancel, ih]

/-- **The length of an encoding**: `H` more for every block that was begun. -/
theorem length_encodeBlocks (hg : Grows D H enc) (hD : 0 < D) (i : Nat) (p : List α) :
    (encodeBlocks D enc i p).length = p.length + (p.length + D - 1) / D * H := by
  induction p using blocks_induction hD generalizing i with
  | nil =>
    have h0 : ([] : List α).length + D - 1 < D := by simp only [length_nil]; omega
    rw [Nat.div_eq_of_lt h0]
    simp
  | step p hp ih =>
    have hpos := length_pos_iff.mpr hp
    rw [encodeBlocks_step hD hp, length_append, hg.length_first hD i hp, ih, length_drop]
    by_cases hshort : p.length ≤ D
    · have h1 : (p.length + D - 1) / D = 1 := Nat.div_eq_of_lt_le (by omega) (by omega)
      have h2 : (p.length - D + D - 1) / D = 0 := Nat.div_eq_of_lt (by omega)
      rw [h1, h2]
      omega
    · have h1 : (p.length + D - 1) / D = (p.length - D + D - 1) / D + 1 := by
        rw [← Nat.add_div_right _ hD]
        congr 1
        omega
      rw [h1, Nat.succ_mul]
      omega

end Blocks

end Infra
