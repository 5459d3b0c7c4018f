import Qrypt.Infra.Json

/-!
# Writing runes

The other direction of `Infra.Utf8`: `utf8.AppendRune` and the strings made of runes.

* `decodeRune_encodeRune`: what is written for a rune is read as that rune
* `encodeRune_of_decodeRune`: a rune that is read is written as the bytes it was read from
-/

namespace Infra

open List

def validRune (r : Int) : Prop := 0 ≤ r ∧ r < 0xD800 ∨ 0xDFFF < r ∧ r ≤ 0x10FFFF

instance (r : Int) : Decidable (validRune r) := inferInstanceAs (Decidable (_ ∨ _))

/-- `utf8.AppendRune`: an invalid rune is written as `RuneError`. -/
def appendRune (r : Int) : Bytes := encodeRune (if validRune r then r.toNat else runeError)

variable {r n : Nat} {lo hi : UInt8} {s rest : Bytes} {rs : List Int}

theorem appendRune_natCast (h : validRune r) : appendRune r = encodeRune r := by
  rw [appendRune, if_pos h, Int.toNat_natCast]

/-! ## One rune -/

theorem leadRange_ofNat (h : n < 256) : leadRange (UInt8.ofNat n) = if 0xC2 ≤ n ∧ n ≤ 0xDF then some (1, 0x80, 0xBF)
      else if n = 0xE0 then some (2, 0xA0, 0xBF)
      else if n = 0xED then some (2, 0x80, 0x9F)
      else if 0xE1 ≤ n ∧ n ≤ 0xEF then some (2, 0x80, 0xBF)
      else if n = 0xF0 then some (3, 0x90, 0xBF)
      else if 0xF1 ≤ n ∧ n ≤ 0xF3 then some (3, 0x80, 0xBF)
      else if n = 0xF4 then some (3, 0x80, 0x8F)
      else none := by
  have hn : (UInt8.ofNat n).toNat = n := by
    rw [UInt8.toNat_ofNat', Nat.mod_eq_of_lt h]
  unfold leadRange
  simp only [UInt8.le_iff_toNat_le, ← UInt8.toNat_inj, hn]
  rfl

theorem contBytes_ofNat (k v : Nat) (h : n < 64) (rest : Bytes) :
    contBytes (k + 1) v (UInt8.ofNat (0x80 + n) :: rest) = contBytes k (v * 64 + n) rest := by
  have hn : (UInt8.ofNat (0x80 + n)).toNat = 0x80 + n := by
    rw [UInt8.toNat_ofNat', Nat.mod_eq_of_lt (by omega)]
  rw [contBytes, hn, Nat.add_sub_cancel_left, if_pos]
  rw [UInt8.le_iff_toNat_le, UInt8.le_iff_toNat_le, hn]
  exact ⟨by simp, by simp; omega⟩

/-- The first continuation byte is in the range the lead byte announces. -/
theorem decodeRune_lead {a k : Nat} (ha : 0x80 ≤ a) (ha' : a < 256) (hn : n < 64)
    (hlead : leadRange (UInt8.ofNat a) = some (k, lo, hi)) (hlo : lo.toNat ≤ 0x80 + n)
    (hhi : 0x80 + n ≤ hi.toNat) (rest : Bytes) :
    decodeRune (UInt8.ofNat a :: UInt8.ofNat (0x80 + n) :: rest)
      = contBytes k (a % 2 ^ (6 - k)) (UInt8.ofNat (0x80 + n) :: rest) := by
  have hna : (UInt8.ofNat a).toNat = a := by
    rw [UInt8.toNat_ofNat', Nat.mod_eq_of_lt ha']
  have hnn : (UInt8.ofNat (0x80 + n)).toNat = 0x80 + n := by
    rw [UInt8.toNat_ofNat', Nat.mod_eq_of_lt (by omega)]
  have hlt : ¬ UInt8.ofNat a < 0x80 := by
    rw [UInt8.lt_iff_toNat_lt, hna]
    exact Nat.not_lt.mpr ha
  simp only [decodeRune, if_neg hlt, hlead, hna]
  rw [if_pos]
  rw [UInt8.le_iff_toNat_le, UInt8.le_iff_toNat_le, hnn]
  exact ⟨hlo, hhi⟩

/-- **What is written for a rune is read as that rune.** One case for each length and narrower range of lead bytes. -/
theorem decodeRune_encodeRune (h : validRune r) (t : Bytes) : decodeRune (encodeRune r ++ t) = some (r, t) := by
  unfold validRune at h
  unfold encodeRune
  split_ifs with h1 h2 h3 h4
  · have hn : (UInt8.ofNat r).toNat = r := by
      rw [UInt8.toNat_ofNat', Nat.mod_eq_of_lt (by omega)]
    have hlt : UInt8.ofNat r < 0x80 := by
      rwa [UInt8.lt_iff_toNat_lt, hn]
    simp only [cons_append, nil_append, decodeRune, if_pos hlt, hn]
  · have hlead : leadRange (UInt8.ofNat (0xC0 + r / 64)) = some (1, 0x80, 0xBF) := by
      rw [leadRange_ofNat (by omega), if_pos (by omega)]
    rw [cons_append, cons_append, nil_append,
      decodeRune_lead (by omega) (by omega) (by omega) hlead (by simp) (by simp; omega),
      contBytes_ofNat _ _ (by omega), contBytes]
    simp only [Option.some.injEq, Prod.mk.injEq, and_true]
    omega
  · omega
  · obtain ⟨lo, hi, hlead, hlo, hhi⟩ : ∃ lo hi : UInt8, leadRange (UInt8.ofNat (0xE0 + r / 4096)) = some (2, lo, hi) ∧
          lo.toNat ≤ 0x80 + r / 64 % 64 ∧ 0x80 + r / 64 % 64 ≤ hi.toNat := by
      rw [leadRange_ofNat (by omega), if_neg (by omega)]
      split_ifs with h4 h5 h6
      · exact ⟨_, _, rfl, by simp; omega, by simp; omega⟩
      · exact ⟨_, _, rfl, by simp, by simp; omega⟩
      · exact ⟨_, _, rfl, by simp, by simp; omega⟩
      all_goals omega
    rw [cons_append, cons_append, cons_append, nil_append,
      decodeRune_lead (by omega) (by omega) (by omega) hlead hlo hhi,
      contBytes_ofNat _ _ (by omega), contBytes_ofNat _ _ (by omega), contBytes]
    simp only [Option.some.injEq, Prod.mk.injEq, and_true]
    omega
  · obtain ⟨lo, hi, hlead, hlo, hhi⟩ : ∃ lo hi : UInt8,
        leadRange (UInt8.ofNat (0xF0 + r / 262144)) = some (3, lo, hi) ∧
          lo.toNat ≤ 0x80 + r / 4096 % 64 ∧ 0x80 + r / 4096 % 64 ≤ hi.toNat := by
      rw [leadRange_ofNat (by omega), if_neg (by omega), if_neg (by omega), if_neg (by omega), if_neg (by omega)]
      split_ifs with h4 h5 h6
      · exact ⟨_, _, rfl, by simp; omega, by simp; omega⟩
      · exact ⟨_, _, rfl, by simp, by simp; omega⟩
      · exact ⟨_, _, rfl, by simp, by simp; omega⟩
      · omega
    rw [cons_append, cons_append, cons_append, cons_append, nil_append,
      decodeRune_lead (by omega) (by omega) (by omega) hlead hlo hhi,
      contBytes_ofNat _ _ (by omega), contBytes_ofNat _ _ (by omega), contBytes_ofNat _ _ (by omega),
      contBytes]
    simp only [Option.some.injEq, Prod.mk.injEq, and_true]
    omega

theorem contBytes_succ {k v w : Nat} (h : contBytes (k + 1) v s = some (w, rest)) :
    ∃ n s', n < 64 ∧ s = UInt8.ofNat (0x80 + n) :: s' ∧ contBytes k (v * 64 + n) s' = some (w, rest) := by
  cases s with
  | nil => cases h
  | cons b s =>
    rw [contBytes] at h
    split at h
    · next hb =>
      have hb' : 128 ≤ b.toNat ∧ b.toNat ≤ 191 := hb
      refine ⟨b.toNat - 0x80, s, by omega, ?_, h⟩
      rw [Nat.add_sub_cancel' hb'.1, UInt8.ofNat_toNat]
    · cases h

theorem lead_bounds {m k : Nat} (hm : m < 256)
    (hlead : leadRange (UInt8.ofNat m) = some (k, lo, hi)) (hlo : lo.toNat ≤ 0x80 + n)
    (hhi : 0x80 + n ≤ hi.toNat) :
    k = 1 ∧ 0xC2 ≤ m ∧ m ≤ 0xDF ∨ k = 2 ∧ 0xE0 ≤ m ∧ m ≤ 0xEF ∧ (m = 0xE0 → 0x20 ≤ n) ∧ (m = 0xED → n < 0x20) ∨
      k = 3 ∧ 0xF0 ≤ m ∧ m ≤ 0xF4 ∧ (m = 0xF0 → 0x10 ≤ n) ∧ (m = 0xF4 → n < 0x10) := by
  rw [leadRange_ofNat hm] at hlead
  split_ifs at hlead <;> cases hlead <;> simp at hlo hhi <;> omega

/-- **A rune that is read is valid, and written as the bytes it was read from.** -/
theorem encodeRune_of_decodeRune (h : decodeRune s = some (r, rest)) : validRune r ∧ s = encodeRune r ++ rest := by
  cases s with
  | nil => cases h
  | cons a s =>
    have ha := a.toNat_lt
    obtain ⟨m, hm, rfl⟩ : ∃ m, m < 256 ∧ a = UInt8.ofNat m := ⟨a.toNat, ha, by simp⟩
    have hmn : (UInt8.ofNat m).toNat = m := by rw [UInt8.toNat_ofNat', Nat.mod_eq_of_lt hm]
    have byte : ∀ {n n' : Nat}, n = n' → UInt8.ofNat n = UInt8.ofNat n' := congrArg _
    simp only [decodeRune, hmn] at h
    split at h
    · next hlt =>
      rw [UInt8.lt_iff_toNat_lt, hmn] at hlt
      have hlt' : m < 128 := hlt
      cases h
      refine ⟨by unfold validRune; omega, ?_⟩
      simp [encodeRune, if_pos hlt']
    · split at h
      · next k lo hi b s' hlead =>
        split at h
        · next hb =>
          simp only [UInt8.le_iff_toNat_le] at hb
          have hpos : 0 < k := by
            unfold leadRange at hlead
            split_ifs at hlead <;> cases hlead <;> decide
          obtain ⟨k, rfl⟩ : ∃ j, k = j + 1 := ⟨k - 1, by omega⟩
          obtain ⟨n, t, hn, hs, h1⟩ := contBytes_succ h
          obtain ⟨rfl, rfl⟩ := cons.inj hs
          rw [UInt8.toNat_ofNat', Nat.mod_eq_of_lt (by omega)] at hb
          rcases lead_bounds hm hlead hb.1 hb.2 with hk | hk | hk
          · obtain rfl : k = 0 := by omega
            have hr := h1
            cases hr
            refine ⟨by unfold validRune; omega, ?_⟩
            rw [encodeRune, if_neg (by omega), if_pos (by omega)]
            exact congrArg₂ cons (byte (by omega)) (congrArg₂ cons (byte (by omega)) rfl)
          · obtain rfl : k = 1 := by omega
            obtain ⟨n', t', hn', rfl, h2⟩ := contBytes_succ h1
            have hr := h2
            cases hr
            refine ⟨by unfold validRune; omega, ?_⟩
            rw [encodeRune, if_neg (by omega), if_neg (by omega), if_neg (by omega), if_pos (by omega)]
            exact congrArg₂ cons (byte (by omega)) (congrArg₂ cons (byte (by omega))
              (congrArg₂ cons (byte (by omega)) rfl))
          · obtain rfl : k = 2 := by omega
            obtain ⟨n', t', hn', rfl, h2⟩ := contBytes_succ h1
            obtain ⟨n'', t'', hn'', rfl, h3⟩ := contBytes_succ h2
            have hr := h3
            cases hr
            refine ⟨by unfold validRune; omega, ?_⟩
            rw [encodeRune, if_neg (by omega), if_neg (by omega), if_neg (by omega), if_neg (by omega)]
            exact congrArg₂ cons (byte (by omega)) (congrArg₂ cons (byte (by omega))
              (congrArg₂ cons (byte (by omega)) (congrArg₂ cons (byte (by omega)) rfl)))
        · cases h
      · cases h

/-! ## Strings -/

/-- The runes a `range` loop over a string sees. -/
def runeValues (s : Bytes) : List Int := (runes s).map fun r => (r.1 : Int)

theorem length_encodeRune_pos (r : Nat) : 0 < (encodeRune r).length := by
  unfold encodeRune
  split_ifs <;> exact Nat.succ_pos _

/-- Runes that are written are read back, and are a valid string. -/
theorem runesFuel_flatMap (rs : List Int) (h : ∀ r ∈ rs, validRune r) (fuel : Nat)
    (hfuel : (rs.flatMap appendRune).length ≤ fuel) :
    (runesFuel fuel (rs.flatMap appendRune)).map (fun r => (r.1 : Int)) = rs ∧
      validStringFuel fuel (rs.flatMap appendRune) = true := by
  induction rs generalizing fuel with
  | nil => cases fuel <;> exact ⟨rfl, rfl⟩
  | cons r rs ih =>
    have hr := h r mem_cons_self
    have henc : appendRune r = encodeRune r.toNat := by rw [appendRune, if_pos hr]
    have hr0 : (r.toNat : Int) = r := by
      unfold validRune at hr
      omega
    have hdec := decodeRune_encodeRune (hr0.symm ▸ hr) (rs.flatMap appendRune)
    rw [flatMap_cons, length_append, henc] at hfuel
    have hpos := length_encodeRune_pos r.toNat
    obtain ⟨fuel, rfl⟩ : ∃ n, fuel = n + 1 := ⟨fuel - 1, by omega⟩
    obtain ⟨hrest, hvalid⟩ := ih (fun r hr => h r (mem_cons_of_mem _ hr)) fuel (by omega)
    rw [flatMap_cons, henc]
    cases hs : encodeRune r.toNat ++ rs.flatMap appendRune with
    | nil => exact absurd (append_eq_nil_iff.mp hs).1 (ne_nil_of_length_pos hpos)
    | cons a t =>
      rw [hs] at hdec
      simp only [runesFuel, validStringFuel, hdec, map_cons, hr0, hrest, hvalid, Bool.or_true, and_self]

/-- **A string of valid runes has those runes.** -/
theorem runeValues_flatMap (h : ∀ r ∈ rs, validRune r) :
    runeValues (rs.flatMap appendRune) = rs := (runesFuel_flatMap rs h _ (Nat.le_refl _)).1

theorem validString_flatMap (h : ∀ r ∈ rs, validRune r) :
    validString (rs.flatMap appendRune) = true := (runesFuel_flatMap rs h _ (Nat.le_refl _)).2

theorem flatMap_runesFuel (fuel : Nat) (s : Bytes) (h : validStringFuel fuel s = true) :
    ((runesFuel fuel s).map fun r => (r.1 : Int)).flatMap appendRune = s ∧
      ∀ r ∈ (runesFuel fuel s).map (fun r => (r.1 : Int)), validRune r := by
  induction fuel generalizing s with
  | zero =>
    rw [validStringFuel, List.isEmpty_iff] at h
    subst h
    exact ⟨rfl, fun r hr => absurd hr List.not_mem_nil⟩
  | succ fuel ih =>
    cases s with
    | nil => exact ⟨rfl, fun r hr => absurd hr not_mem_nil⟩
    | cons a s =>
      simp only [validStringFuel, isEmpty_cons, Bool.false_or] at h
      cases hdec : decodeRune (a :: s) with
      | none => simp only [hdec, Bool.false_eq_true] at h
      | some p =>
        obtain ⟨r, rest⟩ := p
        simp only [hdec] at h
        obtain ⟨hvalid, hs⟩ := encodeRune_of_decodeRune hdec
        obtain ⟨hrest, hall⟩ := ih rest h
        simp only [runesFuel, hdec, map_cons, flatMap_cons, appendRune_natCast hvalid,
          hrest, ← hs, forall_mem_cons]
        exact ⟨trivial, hvalid, hall⟩

/-- **A valid string is what its runes are written as.** -/
theorem flatMap_runeValues (h : validString s = true) :
    (runeValues s).flatMap appendRune = s ∧ ∀ r ∈ runeValues s, validRune r :=
  flatMap_runesFuel s.length s h

end Infra
