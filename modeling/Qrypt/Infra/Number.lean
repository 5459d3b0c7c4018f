import Qrypt.Infra.Bytes

/-!
# Numbers

Decimal numbers as `strconv` and `encoding/json` write and read them: an integer with an optional fraction and
exponent.

* `parseInt64_intLit` — an integer survives
* `scanNumber_append` — a number is read up to where it stops
-/

namespace Infra

open List Option

def decimal (n : Nat) : Bytes := (Nat.toDigits 10 n).map fun c => UInt8.ofNat c.toNat

def intLit (i : Int) : Bytes := if i < 0 then 45 :: decimal i.natAbs else decimal i.natAbs

def isDigit (c : UInt8) : Bool := decide (48 ≤ c ∧ c ≤ 57)

/-- `strconv.ParseInt(lit, 10, 64)`. -/
def parseInt64 (lit : Bytes) : Option Int :=
  let neg := lit.head? == some 45
  let digits := if neg then lit.tail else lit
  if digits = [] ∨ digits.any (fun c => !isDigit c) then none
  else
    let n : Int := Nat.ofDigitChars 10 (digits.map fun c => Char.ofNat c.toNat) 0
    let i := if neg then -n else n
    if Fits64 i then some i else none

def scanDigits (s : Bytes) : Option (Bytes × Bytes) :=
  if s.takeWhile isDigit = [] then none else some (s.takeWhile isDigit, s.dropWhile isDigit)

/-- The integer part of a number; no digit may follow a leading zero. -/
def scanInt (s : Bytes) : Option (Bytes × Bytes) :=
  if s.head? = some 48 then some ([48], s.tail) else scanDigits s

/-- The fraction of a number, if there is one. -/
def scanFrac (s : Bytes) : Option (Bytes × Bytes) :=
  if s.head? = some 46 then (scanDigits s.tail).map fun x => (46 :: x.1, x.2) else some ([], s)

/-- The exponent of a number, if there is one. -/
def scanExp (s : Bytes) : Option (Bytes × Bytes) :=
  match s with
  | e :: rest =>
    if e = 101 ∨ e = 69 then
      match rest with
      | c :: rest' =>
        if c = 43 ∨ c = 45 then (scanDigits rest').map fun x => (e :: c :: x.1, x.2)
        else (scanDigits rest).map fun x => (e :: x.1, x.2)
      | [] => none
    else some ([], s)
  | [] => some ([], s)

def scanNumber (s : Bytes) : Option (Bytes × Bytes) := do
  let sign := if s.head? = some 45 then [45] else []
  let (int, s) ← scanInt (if s.head? = some 45 then s.tail else s)
  let (frac, s) ← scanFrac s
  let (exp, s) ← scanExp s
  some (sign ++ int ++ frac ++ exp, s)

/-! ## Integers survive -/

theorem digitByte {c : Char} (h : c.isDigit = true) :
    Char.ofNat (UInt8.ofNat c.toNat).toNat = c ∧ isDigit (UInt8.ofNat c.toNat) = true := by
  have hrange : 48 ≤ c.toNat ∧ c.toNat ≤ 57 := by
    simpa [Char.isDigit, UInt32.le_iff_toNat_le] using h
  have hbyte : (UInt8.ofNat c.toNat).toNat = c.toNat := by
    rw [UInt8.toNat_ofNat', Nat.mod_eq_of_lt (by omega)]
  refine ⟨by rw [hbyte, Char.ofNat_toNat], ?_⟩
  simp only [isDigit, UInt8.le_iff_toNat_le, hbyte, decide_eq_true_eq]
  exact hrange

theorem isDigit_decimal (n : Nat) : ∀ c ∈ decimal n, isDigit c = true := by
  intro c hc
  obtain ⟨d, hd, rfl⟩ := mem_map.mp hc
  exact (digitByte (Nat.isDigit_of_mem_toDigits (by decide) (by decide) hd)).2

theorem decimal_ne_nil (n : Nat) : decimal n ≠ [] := by
  simp [decimal]

theorem ofDigitChars_decimal (n : Nat) : Nat.ofDigitChars 10 ((decimal n).map fun c => Char.ofNat c.toNat) 0 = n := by
  have hback : (decimal n).map (fun c => Char.ofNat c.toNat) = Nat.toDigits 10 n := by
    rw [decimal, List.map_map]
    refine (List.map_congr_left fun c hc => ?_).trans (List.map_id _)
    exact (digitByte (Nat.isDigit_of_mem_toDigits (by decide) (by decide) hc)).1
  rw [hback, Nat.ofDigitChars_ten_toDigits]

theorem head_decimal (n : Nat) (h : 0 < n) : (decimal n).head? ≠ some 48 := by
  induction n using Nat.strongRecOn with
  | _ n ih =>
    by_cases hn : n < 10
    · have small : ∀ m < 10, 0 < m → (decimal m).head? ≠ some 48 := by decide
      exact small n hn h
    · have hsplit : decimal n = decimal (n / 10) ++ [UInt8.ofNat (n % 10).digitChar.toNat] := by
        simp [decimal, Nat.toDigits_of_base_le (by decide) (Nat.not_lt.mp hn)]
      rw [hsplit, head?_append_of_ne_nil _ (decimal_ne_nil _)]
      exact ih (n / 10) (by omega) (by omega)

/-- **Integers survive.** -/
theorem parseInt64_intLit {i : Int} (h : Fits64 i) : parseInt64 (intLit i) = some i := by
  have hdigits : ¬ (decimal i.natAbs = [] ∨ (decimal i.natAbs).any (fun c => !isDigit c) = true) := by
    rintro (hnil | hany)
    · exact decimal_ne_nil _ hnil
    · obtain ⟨c, hc, hbad⟩ := any_eq_true.mp hany
      simp [isDigit_decimal _ c hc] at hbad
  have hhead : (decimal i.natAbs).head? ≠ some 45 := by
    intro hh
    have := isDigit_decimal _ 45 (mem_of_mem_head? hh)
    exact absurd this (by decide)
  unfold parseInt64 intLit
  by_cases hneg : i < 0
  · rw [if_pos hneg]
    simp only [head?_cons, beq_self_eq_true, if_true, tail_cons]
    rw [if_neg hdigits, ofDigitChars_decimal, if_pos] <;> rw [show -(i.natAbs : Int) = i by omega]
    exact h
  · rw [if_neg hneg]
    simp only [beq_false_of_ne hhead, Bool.false_eq_true, if_false]
    rw [if_neg hdigits, ofDigitChars_decimal, if_pos] <;> rw [show (i.natAbs : Int) = i by omega]
    exact h

/-- What follows a number does not belong to it. -/
def EndsNumber (rest : Bytes) : Prop :=
  ∀ c, rest.head? = some c → isDigit c = false ∧ c ≠ 46 ∧ c ≠ 101 ∧ c ≠ 69

variable {rest : Bytes}

theorem scanInt_decimal (n : Nat) (h : EndsNumber rest) : scanInt (decimal n ++ rest) = some (decimal n, rest) := by
  by_cases hn : n = 0
  · subst hn
    rfl
  · rw [scanInt, head?_append_of_ne_nil _ (decimal_ne_nil n),
      if_neg (head_decimal n (Nat.pos_of_ne_zero hn)), scanDigits]
    have htake : (decimal n ++ rest).takeWhile isDigit = decimal n := by
      rw [takeWhile_append_of_pos (isDigit_decimal n)]
      cases rest with
      | nil => simp
      | cons c rest => simp [(h c rfl).1]
    have hdrop : (decimal n ++ rest).dropWhile isDigit = rest := by
      rw [dropWhile_append_of_pos (isDigit_decimal n)]
      cases rest with
      | nil => simp
      | cons c rest => simp [(h c rfl).1]
    rw [htake, hdrop, if_neg (decimal_ne_nil n)]

theorem scanFrac_none (h : EndsNumber rest) : scanFrac rest = some ([], rest) :=
  if_neg fun hh => (h 46 hh).2.1 rfl

theorem scanExp_none (h : EndsNumber rest) : scanExp rest = some ([], rest) := by
  cases rest with
  | nil => rfl
  | cons c rest => exact if_neg (not_or.mpr ⟨(h c rfl).2.2.1, (h c rfl).2.2.2⟩)

theorem scanNumber_intLit (i : Int) (h : EndsNumber rest) : scanNumber (intLit i ++ rest) = some (intLit i, rest) := by
  have hhead : (decimal i.natAbs ++ rest).head? ≠ some 45 := by
    rw [head?_append_of_ne_nil _ (decimal_ne_nil _)]
    intro hh
    have := isDigit_decimal _ 45 (mem_of_mem_head? hh)
    exact absurd this (by decide)
  unfold scanNumber intLit
  by_cases hneg : i < 0
  · simp only [if_pos hneg, cons_append, head?_cons, if_true, tail_cons,
      scanInt_decimal _ h, bind_eq_bind, bind_some, scanFrac_none h, scanExp_none h]
    simp
  · simp only [if_neg hneg, if_neg hhead, scanInt_decimal _ h, bind_eq_bind,
      bind_some, scanFrac_none h, scanExp_none h]
    simp

/-! ## All numbers -/

/-- What is left of a number, or follows it, does not belong to what was read. -/
def Stops (r rest : Bytes) : Prop := r ≠ [] ∨ EndsNumber rest

variable {p x r : Bytes}

theorem scanDigits_append (h : scanDigits p = some (x, r)) (hrest : Stops r rest) :
    scanDigits (p ++ rest) = some (x, r ++ rest) := by
  unfold scanDigits at h
  split at h
  · cases h
  · next hne =>
    cases h
    have hdigits : ∀ c ∈ p.takeWhile isDigit, isDigit c = true := fun c hc => mem_takeWhile_imp hc
    have hhead : ∀ c, (p.dropWhile isDigit ++ rest).head? = some c → isDigit c = false := by
      intro c hc
      cases hr : p.dropWhile isDigit with
      | nil =>
        rw [hr] at hc hrest
        exact (hrest.resolve_left (fun hnil => hnil rfl) c hc).1
      | cons d r =>
        rw [hr] at hc
        cases hc
        have hd := head?_dropWhile_not isDigit p
        rw [hr] at hd
        simpa using hd
    have hsplit : p ++ rest = p.takeWhile isDigit ++ (p.dropWhile isDigit ++ rest) := by
      rw [← append_assoc, takeWhile_append_dropWhile]
    rw [hsplit]
    generalize p.dropWhile isDigit ++ rest = tail at hhead
    have htake : tail.takeWhile isDigit = [] := by
      cases tail with
      | nil => rfl
      | cons c tail => simp [hhead c rfl]
    have hdrop : tail.dropWhile isDigit = tail := by
      cases tail with
      | nil => rfl
      | cons c tail => simp [hhead c rfl]
    rw [scanDigits, takeWhile_append_of_pos hdigits, dropWhile_append_of_pos hdigits, htake, hdrop,
      append_nil, if_neg hne]

theorem scanInt_append (h : scanInt p = some (x, r)) (hrest : Stops r rest) :
    scanInt (p ++ rest) = some (x, r ++ rest) := by
  unfold scanInt at h ⊢
  cases p with
  | nil => cases h
  | cons c p =>
    rw [cons_append, head?_cons]
    rw [head?_cons] at h
    split at h
    · next hz =>
      rw [if_pos hz]
      cases h
      rfl
    · next hz =>
      rw [if_neg hz]
      exact scanDigits_append h hrest

theorem scanFrac_append (h : scanFrac p = some (x, r)) (hrest : Stops r rest) :
    scanFrac (p ++ rest) = some (x, r ++ rest) := by
  cases p with
  | nil =>
    cases h
    exact scanFrac_none (hrest.resolve_left fun hnil => hnil rfl)
  | cons c p =>
    unfold scanFrac at h ⊢
    rw [cons_append, head?_cons]
    rw [head?_cons] at h
    split at h
    · next hdot =>
      obtain ⟨⟨y, r'⟩, hy, heq⟩ := map_eq_some_iff.mp h
      cases heq
      rw [tail_cons] at hy
      rw [if_pos hdot, tail_cons, scanDigits_append hy hrest]
      rfl
    · next hdot =>
      cases h
      rw [if_neg hdot]
      rfl

theorem scanExp_append (h : scanExp p = some (x, r)) (hrest : Stops r rest) :
    scanExp (p ++ rest) = some (x, r ++ rest) := by
  cases p with
  | nil =>
    cases h
    exact scanExp_none (hrest.resolve_left fun hnil => hnil rfl)
  | cons e p =>
    simp only [scanExp, cons_append] at h ⊢
    split at h
    · next he =>
      rw [if_pos he]
      cases p with
      | nil => cases h
      | cons c p =>
        simp only [cons_append] at h ⊢
        split at h
        · next hsign =>
          rw [if_pos hsign]
          obtain ⟨⟨y, r'⟩, hy, heq⟩ := map_eq_some_iff.mp h
          cases heq
          simp [scanDigits_append hy hrest]
        · next hsign =>
          rw [if_neg hsign]
          obtain ⟨⟨y, r'⟩, hy, heq⟩ := map_eq_some_iff.mp h
          cases heq
          rw [← cons_append, scanDigits_append hy hrest]
          rfl
    · next he =>
      cases h
      simp [if_neg he]

/-- **A number is read up to where it stops.** -/
theorem scanNumber_append (h : scanNumber p = some (x, r)) (hrest : Stops r rest) :
    scanNumber (p ++ rest) = some (x, r ++ rest) := by
  cases p with
  | nil => cases h
  | cons c p =>
    simp only [scanNumber, bind_eq_bind, bind_eq_some_iff, Prod.exists] at h
    obtain ⟨int, r₁, hint, frac, r₂, hfrac, exp, r₃, hexp, heq⟩ := h
    cases heq
    have hrest₂ : Stops r₂ rest := by
      by_cases hnil : r₂ = []
      · subst hnil
        cases hexp
        exact hrest
      · exact .inl hnil
    have hrest₁ : Stops r₁ rest := by
      by_cases hnil : r₁ = []
      · subst hnil
        cases hfrac
        exact hrest₂
      · exact .inl hnil
    have hbody : scanInt (if (c :: p ++ rest).head? = some 45 then (c :: p ++ rest).tail else c :: p ++ rest) =
        some (int, r₁ ++ rest) := by
      rw [cons_append, head?_cons, tail_cons]
      rw [head?_cons, tail_cons] at hint
      split at hint
      · next hneg =>
        rw [if_pos hneg]
        exact scanInt_append hint hrest₁
      · next hneg =>
        rw [if_neg hneg, ← cons_append]
        exact scanInt_append hint hrest₁
    simp only [scanNumber, hbody, bind_eq_bind, bind_some, scanFrac_append hfrac hrest₂,
      scanExp_append hexp hrest]
    rw [cons_append, head?_cons, head?_cons]

/-- The text is a number. -/
def IsNumber (lit : Bytes) : Prop := scanNumber lit = some (lit, [])

theorem isNumber_intLit (i : Int) : IsNumber (intLit i) := by
  have hend : EndsNumber [] := by simp [EndsNumber]
  have hscan := scanNumber_intLit i hend
  rwa [append_nil] at hscan

variable {lit : Bytes}

theorem IsNumber.scan (h : IsNumber lit) (hrest : EndsNumber rest) :
    scanNumber (lit ++ rest) = some (lit, rest) := scanNumber_append h (.inr hrest)

theorem IsNumber.cut (h : IsNumber lit) (hp : p <+: lit) (hscan : scanNumber p = some (x, r)) : r = [] := by
  by_contra hr
  obtain ⟨q, rfl⟩ := hp
  have hwhole := h.symm.trans (scanNumber_append hscan (.inl hr))
  have hnil := (Prod.mk.inj (some.inj hwhole)).2
  exact hr (append_eq_nil_iff.mp hnil.symm).1

theorem IsNumber.cons (h : IsNumber lit) : ∃ c t, lit = c :: t ∧ (c = 45 ∨ isDigit c = true) := by
  cases lit with
  | nil => cases h
  | cons c t =>
    refine ⟨c, t, rfl, ?_⟩
    by_contra hc
    rw [not_or, Bool.not_eq_true] at hc
    have hz : c ≠ 48 := by
      rintro rfl
      exact absurd hc.2 (by decide)
    have hint : scanInt (c :: t) = none := by simp [scanInt, scanDigits, hz, hc.2]
    have hnone : scanNumber (c :: t) = none := by simp [scanNumber, hc.1, hint]
    simp [IsNumber, hnone] at h

def numberChars : Bytes := ascii "0123456789+-.eE"

theorem mem_numberChars {c : UInt8} (h : isDigit c = true) : c ∈ numberChars := by
  simp only [isDigit, decide_eq_true_eq, UInt8.le_iff_toNat_le] at h
  have hlt : ∀ n, 48 ≤ n → n ≤ 57 → UInt8.ofNat n ∈ numberChars := by decide
  have hmem := hlt c.toNat h.1 h.2
  rwa [UInt8.ofNat_toNat] at hmem

theorem scanDigits_chars (h : scanDigits p = some (x, r)) : ∀ c ∈ x, c ∈ numberChars := by
  unfold scanDigits at h
  split at h
  · cases h
  · cases h
    intro c hc
    exact mem_numberChars (mem_takeWhile_imp hc)

theorem scanInt_chars (h : scanInt p = some (x, r)) : ∀ c ∈ x, c ∈ numberChars := by
  unfold scanInt at h
  split at h
  · cases h
    intro c hc
    rw [mem_singleton.mp hc]
    decide
  · exact scanDigits_chars h

theorem scanFrac_chars (h : scanFrac p = some (x, r)) : ∀ c ∈ x, c ∈ numberChars := by
  unfold scanFrac at h
  split at h
  · obtain ⟨⟨y, r'⟩, hy, heq⟩ := map_eq_some_iff.mp h
    cases heq
    exact forall_mem_cons.mpr ⟨by decide, scanDigits_chars hy⟩
  · cases h
    simp

theorem scanExp_chars (h : scanExp p = some (x, r)) : ∀ c ∈ x, c ∈ numberChars := by
  cases p with
  | nil =>
    cases h
    simp
  | cons e p =>
    simp only [scanExp] at h
    split at h
    · next he =>
      have hmem : e ∈ numberChars := by
        rcases he with rfl | rfl
        all_goals decide
      cases p with
      | nil => cases h
      | cons c p =>
        simp only at h
        split at h
        · next hsign =>
          have hmem' : c ∈ numberChars := by
            rcases hsign with rfl | rfl
            all_goals decide
          obtain ⟨⟨y, r'⟩, hy, heq⟩ := map_eq_some_iff.mp h
          cases heq
          exact forall_mem_cons.mpr ⟨hmem, forall_mem_cons.mpr ⟨hmem', scanDigits_chars hy⟩⟩
        · obtain ⟨⟨y, r'⟩, hy, heq⟩ := map_eq_some_iff.mp h
          cases heq
          exact forall_mem_cons.mpr ⟨hmem, scanDigits_chars hy⟩
    · cases h
      simp

theorem IsNumber.chars (h : IsNumber lit) : ∀ c ∈ lit, c ∈ numberChars := by
  simp only [IsNumber, scanNumber, bind_eq_bind, bind_eq_some_iff, Prod.exists] at h
  obtain ⟨int, r₁, hint, frac, r₂, hfrac, exp, r₃, hexp, heq⟩ := h
  rw [← (Prod.mk.inj (some.inj heq)).1]
  intro c hc
  simp only [mem_append] at hc
  rcases hc with ((hc | hc) | hc) | hc
  · split at hc
    · rw [mem_singleton.mp hc]
      decide
    · cases hc
  · exact scanInt_chars hint c hc
  · exact scanFrac_chars hfrac c hc
  · exact scanExp_chars hexp c hc

theorem printable_numberChars : ∀ c ∈ numberChars, 0x20 ≤ c := by decide +kernel

/-! ## Floating point -/

/-- `n / d`, rounded to the nearest integer, and to the even one of two. -/
def roundDiv (n d : Nat) : Nat :=
  if 2 * (n % d) < d ∨ (2 * (n % d) = d ∧ n / d % 2 = 0) then n / d else n / d + 1

/-- The integer part of the `float64` nearest to `n / d`: 53 bits are kept. -/
def floatFloor (n d : Nat) : Nat :=
  let q := n / d
  if q < 2 ^ 53 then
    let scale := if q = 0 then 2 ^ 53 else 2 ^ (52 - q.log2)
    roundDiv (n * scale) d / scale
  else
    let unit := 2 ^ (q.log2 - 52)
    roundDiv n (d * unit) * unit

/-- `int64(f)` for the `float64` with this literal; what does not fit becomes the smallest integer. -/
def floatInt64 (lit : Bytes) : I64 :=
  let digits (s : Bytes) : Nat := Nat.ofDigitChars 10 (s.map fun c => Char.ofNat c.toNat) 0
  let body := if lit.head? = some 45 then lit.tail else lit
  let rest := body.dropWhile isDigit
  let frac := if rest.head? = some 46 then rest.tail.takeWhile isDigit else []
  let exp := (rest.dropWhile fun c => c ≠ 101 ∧ c ≠ 69).tail
  let power : Int := digits (exp.dropWhile fun c => c = 43 ∨ c = 45)
  let scale := (if exp.head? = some 45 then -power else power) - frac.length
  let n := floatFloor (digits (body.takeWhile isDigit ++ frac) * 10 ^ scale.toNat) (10 ^ (-scale).toNat)
  let i : Int := if lit.head? = some 45 then -n else n
  if h : Fits64 i then ⟨i, h⟩ else ⟨-2 ^ 63, by decide⟩

example : (floatInt64 (ascii "9007199254740993")).1 = 9007199254740992 ∧ (floatInt64 (ascii "-1.5e2")).1 = -150 ∧
    (floatInt64 (ascii "1e19")).1 = -2 ^ 63 := by decide +kernel

end Infra
