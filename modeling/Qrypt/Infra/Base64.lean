import Qrypt.Infra.Bytes

/-!
# Base64

`encoding/base64.StdEncoding`, in which JSON carries byte slices. Like Go's decoder, `base64Decode`
skips line breaks and ignores the bits that padding leaves over.
-/

namespace Infra

open List

def base64Char (n : Nat) : UInt8 :=
  if n < 26 then UInt8.ofNat (65 + n)
  else if n < 52 then UInt8.ofNat (71 + n)
  else if n < 62 then UInt8.ofNat (n - 4)
  else if n = 62 then 43
  else 47

def base64Val (c : UInt8) : Option Nat :=
  if 65 ≤ c ∧ c ≤ 90 then some (c.toNat - 65)
  else if 97 ≤ c ∧ c ≤ 122 then some (c.toNat - 71)
  else if 48 ≤ c ∧ c ≤ 57 then some (c.toNat + 4)
  else if c = 43 then some 62
  else if c = 47 then some 63
  else none

/-- `EncodeToString`. -/
def base64Encode : Bytes → Bytes
  | [] => []
  | [a] => [base64Char (a.toNat / 4), base64Char (a.toNat % 4 * 16), 61, 61]
  | [a, b] =>
    [base64Char (a.toNat / 4), base64Char (a.toNat % 4 * 16 + b.toNat / 16), base64Char (b.toNat % 16 * 4), 61]
  | a :: b :: c :: rest =>
    base64Char (a.toNat / 4) :: base64Char (a.toNat % 4 * 16 + b.toNat / 16) ::
      base64Char (b.toNat % 16 * 4 + c.toNat / 64) :: base64Char (c.toNat % 64) ::
      base64Encode rest

/-- Groups of four characters; only the last one may be padded. -/
def base64Groups : Bytes → Option Bytes
  | [] => some []
  | a :: b :: c :: d :: rest =>
    match base64Val a, base64Val b with
    | some x, some y =>
      if c = 61 ∧ d = 61 ∧ rest = [] then some [UInt8.ofNat (x * 4 + y / 16)]
      else
        match base64Val c with
        | none => none
        | some z =>
          if d = 61 ∧ rest = [] then
            some [UInt8.ofNat (x * 4 + y / 16), UInt8.ofNat (y % 16 * 16 + z / 4)]
          else
            match base64Val d with
            | none => none
            | some w =>
              (base64Groups rest).map fun bytes =>
                UInt8.ofNat (x * 4 + y / 16) :: UInt8.ofNat (y % 16 * 16 + z / 4) ::
                  UInt8.ofNat (z % 4 * 64 + w) :: bytes
    | _, _ => none
  | _ => none

/-- `DecodeString`. -/
def base64Decode (s : Bytes) : Option Bytes := base64Groups (s.filter fun c => c ≠ 10 ∧ c ≠ 13)

theorem base64Val_char : ∀ n < 64, base64Val (base64Char n) = some n ∧ base64Char n ≠ 61 ∧
    base64Char n ≠ 10 ∧ base64Char n ≠ 13 ∧ base64Char n < 0x80 := by decide

theorem ofNat_eq {a : UInt8} {n : Nat} (h : n = a.toNat) : UInt8.ofNat n = a := by
  rw [h, UInt8.ofNat_toNat]

theorem base64Groups_encode (b : Bytes) : base64Groups (base64Encode b) = some b := by
  fun_induction base64Encode b with
  | case1 => rfl
  | case2 a =>
    have ha := a.toNat_lt
    simp only [base64Groups, (base64Val_char (a.toNat / 4) (by omega)).1,
      (base64Val_char (a.toNat % 4 * 16) (by omega)).1, and_self, if_true]
    rw [ofNat_eq (show a.toNat / 4 * 4 + a.toNat % 4 * 16 / 16 = a.toNat by omega)]
  | case3 a b =>
    have ha := a.toNat_lt
    have hb := b.toNat_lt
    have hc := base64Val_char (b.toNat % 16 * 4) (by omega)
    simp only [base64Groups, (base64Val_char (a.toNat / 4) (by omega)).1,
      (base64Val_char (a.toNat % 4 * 16 + b.toNat / 16) (by omega)).1, hc.1, hc.2.1, false_and,
      if_false, and_self, if_true]
    rw [ofNat_eq (a := a) (by omega), ofNat_eq (a := b) (by omega)]
  | case4 a b c rest ih =>
    have ha := a.toNat_lt
    have hb := b.toNat_lt
    have hc := c.toNat_lt
    have hz := base64Val_char (b.toNat % 16 * 4 + c.toNat / 64) (by omega)
    have hw := base64Val_char (c.toNat % 64) (by omega)
    simp only [base64Groups, (base64Val_char (a.toNat / 4) (by omega)).1,
      (base64Val_char (a.toNat % 4 * 16 + b.toNat / 16) (by omega)).1, hz.1, hz.2.1, hw.1, hw.2.1,
      false_and, if_false, ih, Option.map_some]
    rw [ofNat_eq (a := a) (by omega), ofNat_eq (a := b) (by omega), ofNat_eq (a := c) (by omega)]

theorem base64Encode_mem (b : Bytes) : ∀ c ∈ base64Encode b, c ≠ 10 ∧ c ≠ 13 ∧ c < 0x80 := by
  have char : ∀ n < 64, base64Char n ≠ 10 ∧ base64Char n ≠ 13 ∧ base64Char n < 0x80 :=
    fun n hn => (base64Val_char n hn).2.2
  have pad : (61 : UInt8) ≠ 10 ∧ (61 : UInt8) ≠ 13 ∧ (61 : UInt8) < 0x80 := by decide
  fun_induction base64Encode b with
  | case1 => exact nofun
  | case2 a =>
    have ha := a.toNat_lt
    intro c hc
    simp only [mem_cons, not_mem_nil, or_false] at hc
    rcases hc with rfl | rfl | rfl | rfl
    · exact char _ (by omega)
    · exact char _ (by omega)
    · exact pad
    · exact pad
  | case3 a b =>
    have ha := a.toNat_lt
    have hb := b.toNat_lt
    intro c hc
    simp only [mem_cons, not_mem_nil, or_false] at hc
    rcases hc with rfl | rfl | rfl | rfl
    · exact char _ (by omega)
    · exact char _ (by omega)
    · exact char _ (by omega)
    · exact pad
  | case4 a b c rest ih =>
    have ha := a.toNat_lt
    have hb := b.toNat_lt
    have hc := c.toNat_lt
    intro d hd
    simp only [mem_cons] at hd
    rcases hd with rfl | rfl | rfl | rfl | hd
    · exact char _ (by omega)
    · exact char _ (by omega)
    · exact char _ (by omega)
    · exact char _ (by omega)
    · exact ih d hd

/-- **Bytes survive.** -/
theorem base64Decode_encode (b : Bytes) : base64Decode (base64Encode b) = some b := by
  have hfilter : (base64Encode b).filter (fun c => c ≠ 10 ∧ c ≠ 13) = base64Encode b :=
    filter_eq_self.mpr fun c hc => decide_eq_true ⟨(base64Encode_mem b c hc).1, (base64Encode_mem b c hc).2.1⟩
  rw [base64Decode, hfilter, base64Groups_encode]

end Infra
