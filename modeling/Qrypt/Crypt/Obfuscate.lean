import Qrypt.Crypt.Cipher
import Qrypt.Infra.Rune

/-!
# Obfuscated names

`pkg/crypt/rclone_cipher.go`: `obfuscateSegment` and `deobfuscateSegment`. A name is written rune by
rune, each turned inside its class (digits, letters, Latin-1, blocks of 256 code points) by an amount
that comes from the sum of the name's code points and the name key; the sum stands in front of the
result.
-/

namespace Crypt

open Infra List

/-! ## Turning a rune inside its class -/

/-- The rune `thisdir` places on, among the `m` runes from `low` on. -/
def rotate (low m thisdir r : Int) : Int := low + (r - low + thisdir).tmod m

/-- The rune `thisdir` places back. -/
def unrotate (low m thisdir r : Int) : Int :=
  let orig := (r - low - thisdir).tmod m
  low + if orig < 0 then orig + m else orig

theorem tmod_of_abs_lt {x m : Int} (h : -m < x) (h' : x < m) : x.tmod m = x := by
  rcases Int.le_total 0 x with hx | hx
  · rw [Int.tmod_eq_emod_of_nonneg hx, Int.emod_eq_of_lt hx h']
  · obtain ⟨y, rfl⟩ : ∃ y, x = -y := ⟨-x, by omega⟩
    rw [Int.neg_tmod, Int.tmod_eq_emod_of_nonneg (by omega), Int.emod_eq_of_lt (by omega) (by omega)]

/-- **A turn stays in the class, and is undone by the turn back.** -/
theorem unrotate_rotate {low m thisdir r : Int} (hlow : low ≤ r) (hr : r < low + m)
    (ht : 0 ≤ thisdir) (htm : thisdir < m) :
    low ≤ rotate low m thisdir r ∧ rotate low m thisdir r < low + m ∧
      unrotate low m thisdir (rotate low m thisdir r) = r := by
  unfold rotate unrotate
  rw [Int.tmod_eq_emod_of_nonneg (by omega)]
  by_cases hwrap : r - low + thisdir < m
  · rw [Int.emod_eq_of_lt (by omega) hwrap]
    have hback : low + (r - low + thisdir) - low - thisdir = r - low := by omega
    simp only [hback, tmod_of_abs_lt (show -m < r - low by omega) (show r - low < m by omega)]
    omega
  · have hmod : (r - low + thisdir) % m = r - low + thisdir - m := by
      rw [← Int.sub_emod_right, Int.emod_eq_of_lt (by omega) (by omega)]
    rw [hmod]
    have hback : low + (r - low + thisdir - m) - low - thisdir = r - low - m := by omega
    simp only [hback, tmod_of_abs_lt (show -m < r - low - m by omega) (show r - low - m < m by omega)]
    omega

/-! ## The runes of a name -/

def obfuscQuoteRune : Int := 33

def isLetter (r : Int) : Prop := 65 ≤ r ∧ r ≤ 90 ∨ 97 ≤ r ∧ r ≤ 122

instance (r : Int) : Decidable (isLetter r) := inferInstanceAs (Decidable (_ ∨ _))

/-- The place of a letter in the row of both alphabets, the six runes between them left out. -/
def letterPos (r : Int) : Int := if r - 65 ≥ 26 then r - 65 - 6 else r - 65

def letterAt (pos : Int) : Int := 65 + if pos ≥ 26 then pos + 6 else pos

/-- What `obfuscateSegment` writes for a rune. -/
def obfuscateRune (dir r : Int) : List Int :=
  if r = obfuscQuoteRune then [obfuscQuoteRune, obfuscQuoteRune]
  else if 48 ≤ r ∧ r ≤ 57 then [rotate 48 10 (dir.tmod 9 + 1) r]
  else if isLetter r then [letterAt (rotate 0 52 (dir.tmod 25 + 1) (letterPos r))]
  else if 0xA0 ≤ r ∧ r ≤ 0xFF then [rotate 0xA0 96 (dir.tmod 95 + 1) r]
  else if r ≥ 0x100 then
    let newRune := rotate (r - r.tmod 256) 256 (dir.tmod 127 + 1) r
    if ¬ validRune newRune then [obfuscQuoteRune, r] else [newRune]
  else [r]

/-- What `deobfuscateSegment` writes for a rune that is not quoted. -/
def deobfuscateRune (dir r : Int) : Int :=
  if 48 ≤ r ∧ r ≤ 57 then unrotate 48 10 (dir.tmod 9 + 1) r
  else if isLetter r then letterAt (unrotate 0 52 (dir.tmod 25 + 1) (letterPos r))
  else if 0xA0 ≤ r ∧ r ≤ 0xFF then unrotate 0xA0 96 (dir.tmod 95 + 1) r
  else if r ≥ 0x100 then unrotate (r - r.tmod 256) 256 (dir.tmod 127 + 1) r
  else r

/-- The loop of `deobfuscateSegment`; the flag is `inQuote`. -/
def deobfuscateRunes (dir : Int) : Bool → List Int → List Int
  | _, [] => []
  | true, r :: rs => r :: deobfuscateRunes dir false rs
  | false, r :: rs =>
    if r = obfuscQuoteRune then deobfuscateRunes dir true rs
    else deobfuscateRune dir r :: deobfuscateRunes dir false rs

theorem tmod_succ_bounds {dir : Int} (h : 0 ≤ dir) {k : Int} (hk : 0 < k) :
    0 ≤ dir.tmod k + 1 ∧ dir.tmod k + 1 < k + 1 := by
  rw [Int.tmod_eq_emod_of_nonneg h]
  have h1 := Int.emod_nonneg dir (show k ≠ 0 by omega)
  have h2 := Int.emod_lt_of_pos dir hk
  exact ⟨by omega, by omega⟩

/-- **One rune comes back**: what is written for it is valid, and read as that rune whatever follows. -/
theorem deobfuscateRunes_obfuscateRune {dir r : Int} (hdir : 0 ≤ dir) (hr : validRune r) (rest : List Int) :
    (∀ x ∈ obfuscateRune dir r, validRune x) ∧ deobfuscateRunes dir false (obfuscateRune dir r ++ rest)
        = r :: deobfuscateRunes dir false rest := by
  -- a rune that is written alone, is not the quote and is turned back to `r`
  have single : ∀ {x : Int}, validRune x → x ≠ obfuscQuoteRune → deobfuscateRune dir x = r →
      (∀ y ∈ [x], validRune y) ∧ deobfuscateRunes dir false ([x] ++ rest) = r :: deobfuscateRunes dir false rest := by
    intro x hx hne hback
    refine ⟨fun y hy => mem_singleton.mp hy ▸ hx, ?_⟩
    rw [singleton_append, deobfuscateRunes, if_neg hne, hback]
  -- a rune that is written behind a quote
  have quoted : (∀ y ∈ [obfuscQuoteRune, r], validRune y) ∧ deobfuscateRunes dir false ([obfuscQuoteRune, r] ++ rest)
        = r :: deobfuscateRunes dir false rest := by
    refine ⟨fun y hy => ?_, ?_⟩
    · rcases mem_pair.mp hy with rfl | rfl
      · decide
      · exact hr
    · simp only [cons_append, nil_append, deobfuscateRunes, if_true]
  unfold obfuscateRune
  by_cases hquote : r = obfuscQuoteRune
  · rwa [hquote] at quoted ⊢
  rw [if_neg hquote]
  by_cases hdigit : 48 ≤ r ∧ r ≤ 57
  · rw [if_pos hdigit]
    obtain ⟨ht, ht'⟩ := tmod_succ_bounds hdir (k := 9) (by decide)
    obtain ⟨hlo, hhi, hback⟩ := unrotate_rotate hdigit.1 (m := 10) (by omega) ht (by omega)
    refine single (by unfold validRune; omega) (by unfold obfuscQuoteRune; omega) ?_
    rw [deobfuscateRune, if_pos ⟨hlo, by omega⟩, hback]
  rw [if_neg hdigit]
  by_cases hletter : isLetter r
  · rw [if_pos hletter]
    obtain ⟨ht, ht'⟩ := tmod_succ_bounds hdir (k := 25) (by decide)
    unfold isLetter at hletter
    have hpos : 0 ≤ letterPos r ∧ letterPos r < 52 ∧ letterAt (letterPos r) = r := by
      unfold letterPos letterAt
      split_ifs <;> omega
    obtain ⟨hlo, hhi, hback⟩ :=
      unrotate_rotate hpos.1 (m := 52) (by omega) ht (show dir.tmod 25 + 1 < 52 by omega)
    generalize rotate 0 52 (dir.tmod 25 + 1) (letterPos r) = pos at hlo hhi hback
    have hat : isLetter (letterAt pos) ∧ letterPos (letterAt pos) = pos := by
      unfold letterAt letterPos isLetter
      split_ifs <;> omega
    have hbounds := hat.1
    unfold isLetter at hbounds
    refine single (by unfold validRune; omega) (by unfold obfuscQuoteRune; omega) ?_
    rw [deobfuscateRune, if_neg (by omega), if_pos hat.1, hat.2, hback, hpos.2.2]
  rw [if_neg hletter]
  unfold isLetter at hletter
  by_cases hlatin : 0xA0 ≤ r ∧ r ≤ 0xFF
  · rw [if_pos hlatin]
    obtain ⟨ht, ht'⟩ := tmod_succ_bounds hdir (k := 95) (by decide)
    obtain ⟨hlo, hhi, hback⟩ := unrotate_rotate hlatin.1 (m := 96) (by omega) ht (by omega)
    refine single (by unfold validRune; omega) (by unfold obfuscQuoteRune; omega) ?_
    rw [deobfuscateRune, if_neg (by omega), if_neg (by unfold isLetter; omega), if_pos ⟨hlo, by omega⟩, hback]
  rw [if_neg hlatin]
  by_cases hhigh : r ≥ 0x100
  · rw [if_pos hhigh]
    obtain ⟨ht, ht'⟩ := tmod_succ_bounds hdir (k := 127) (by decide)
    have hmod : r.tmod 256 = r % 256 := Int.tmod_eq_emod_of_nonneg (by omega)
    obtain ⟨hlo, hhi, hback⟩ := unrotate_rotate (m := 256)
      (show r - r.tmod 256 ≤ r by omega) (by omega) ht (show dir.tmod 127 + 1 < 256 by omega)
    by_cases hvalid : validRune (rotate (r - r.tmod 256) 256 (dir.tmod 127 + 1) r)
    · simp only [hvalid, not_true_eq_false, if_false]
      refine single hvalid (by unfold obfuscQuoteRune; omega) ?_
      generalize hnew : rotate (r - r.tmod 256) 256 (dir.tmod 127 + 1) r = new at hlo hhi hback
      have hbase : new - new.tmod 256 = r - r.tmod 256 := by
        rw [Int.tmod_eq_emod_of_nonneg (show 0 ≤ new by omega), hmod]
        omega
      rw [deobfuscateRune, if_neg (by omega), if_neg (by unfold isLetter; omega),
        if_neg (by omega), if_pos (by omega), hbase, hback]
    · simp only [hvalid, not_false_eq_true, if_true]
      exact quoted
  · rw [if_neg hhigh]
    refine single hr hquote ?_
    rw [deobfuscateRune, if_neg hdigit, if_neg (by unfold isLetter; omega), if_neg hlatin, if_neg hhigh]

/-- **The runes of a name come back**, by induction over them. -/
theorem deobfuscateRunes_flatMap {dir : Int} (hdir : 0 ≤ dir) {rs : List Int} (h : ∀ r ∈ rs, validRune r) :
    (∀ x ∈ rs.flatMap (obfuscateRune dir), validRune x) ∧
      deobfuscateRunes dir false (rs.flatMap (obfuscateRune dir)) = rs := by
  induction rs with
  | nil => exact ⟨fun x hx => absurd hx not_mem_nil, rfl⟩
  | cons r rs ih =>
    rw [forall_mem_cons] at h
    obtain ⟨hvalid, hback⟩ := ih h.2
    obtain ⟨hvalid', hback'⟩ :=
      deobfuscateRunes_obfuscateRune hdir h.1 (rs.flatMap (obfuscateRune dir))
    rw [flatMap_cons, hback', hback]
    exact ⟨forall_mem_append.mpr ⟨hvalid', hvalid⟩, rfl⟩

/-! ## Names -/

section Names

variable (nameKey : FixedBytes 32)

/-- What the name key adds to `dir`. -/
def keySum : Int := (nameKey.bytes.map fun b => (b.toNat : Int)).sum

/-- The number in front of an obfuscated name: the code points are added up in an `int`. -/
def nameDir (plaintext : Bytes) : Int := (wrap64 (runeValues plaintext).sum).tmod 256

def obfuscateSegment (plaintext : Bytes) : Bytes :=
  if plaintext = [] then []
  else if validString plaintext = false then ascii "!." ++ plaintext
  else
    let dir := nameDir plaintext
    intLit dir ++ 46 :: ((runeValues plaintext).flatMap (obfuscateRune (dir + keySum nameKey))).flatMap appendRune

def atoi (s : Bytes) : Option Int :=
  if s.head? = some 43 then if s.tail.head? = some 45 then none else parseInt64 s.tail
  else parseInt64 s

def deobfuscateSegment (ciphertext : Bytes) : Except Err Bytes :=
  if ciphertext = [] then .ok []
  else if 46 ∉ ciphertext then .error (.text "not an obfuscated file")
  else
    let num := ciphertext.takeWhile (· ≠ 46)
    let after := (ciphertext.dropWhile (· ≠ 46)).tail
    if num = [33] then .ok after
    else
      match atoi num with
      | none => .error (.text "not an obfuscated file")
      | some dir =>
        .ok ((deobfuscateRunes (wrap64 (dir + keySum nameKey)) false (runeValues after)).flatMap appendRune)

theorem keySum_bounds : 0 ≤ keySum nameKey ∧ keySum nameKey ≤ 8160 := by
  have go : ∀ bs : Bytes, 0 ≤ (bs.map fun b => (b.toNat : Int)).sum ∧
      (bs.map fun b => (b.toNat : Int)).sum ≤ 255 * bs.length := by
    intro bs
    induction bs with
    | nil => exact ⟨Int.le_refl _, Int.le_refl _⟩
    | cons b bs ih =>
      have hb := b.toNat_lt
      rw [map_cons, sum_cons, length_cons]
      omega
  have h := go nameKey.bytes
  rwa [nameKey.size] at h

theorem nameDir_bounds (plaintext : Bytes) : -256 < nameDir plaintext ∧ nameDir plaintext < 256 :=
  ⟨Int.lt_tmod_of_pos _ (by decide), Int.tmod_lt_of_pos _ (by decide)⟩

theorem deobfuscateSegment_number {dir : Int} (h : -256 < dir ∧ dir < 256) (after : Bytes) :
    deobfuscateSegment nameKey (intLit dir ++ 46 :: after) =
      .ok ((deobfuscateRunes (dir + keySum nameKey) false (runeValues after)).flatMap appendRune) := by
  have hchars : ∀ c ∈ intLit dir, c ≠ 46 ∧ c ≠ 33 ∧ c ≠ 43 := by
    have hdec : ∀ c ∈ decimal dir.natAbs, c ≠ 46 ∧ c ≠ 33 ∧ c ≠ 43 := by
      intro c hc
      have hd := isDigit_decimal _ c hc
      refine ⟨?_, ?_, ?_⟩ <;> rintro rfl <;> exact absurd hd (by decide)
    intro c hc
    rw [intLit] at hc
    split at hc
    · rcases mem_cons.mp hc with rfl | hc
      · decide
      · exact hdec c hc
    · exact hdec c hc
  have hfits : Fits64 dir := by
    unfold Fits64
    omega
  have hparse := parseInt64_intLit hfits
  have hhead : (intLit dir).head? ≠ some 43 := fun hh => (hchars 43 (mem_of_mem_head? hh)).2.2 rfl
  have hnum : intLit dir ≠ [33] := fun hh => (hchars 33 (hh ▸ mem_singleton_self _)).2.1 rfl
  have htake : (intLit dir ++ 46 :: after).takeWhile (· ≠ 46) = intLit dir := by
    rw [takeWhile_append_of_pos (fun c hc => by simpa using (hchars c hc).1),
      takeWhile_cons_of_neg (by simp), append_nil]
  have hdrop : ((intLit dir ++ 46 :: after).dropWhile (· ≠ 46)).tail = after := by
    rw [dropWhile_append_of_pos (fun c hc => by simpa using (hchars c hc).1),
      dropWhile_cons_of_neg (by simp), tail_cons]
  have hsum := keySum_bounds nameKey
  unfold deobfuscateSegment
  rw [if_neg (by simp), if_neg (by simp)]
  simp only [htake, hdrop, if_neg hnum, atoi, if_neg hhead, hparse]
  rw [wrap64_eq (by unfold Fits64; omega)]

theorem deobfuscateSegment_obfuscateSegment_eq {s : Bytes} (hne : s ≠ []) (hvalid : validString s = true) :
    deobfuscateSegment nameKey (obfuscateSegment nameKey s) =
      .ok ((deobfuscateRunes (nameDir s + keySum nameKey) false
        (runeValues (((runeValues s).flatMap (obfuscateRune (nameDir s + keySum nameKey))).flatMap
          appendRune))).flatMap appendRune) := by
  rw [obfuscateSegment, if_neg hne, if_neg (by rw [hvalid]; decide),
    deobfuscateSegment_number nameKey (nameDir_bounds s)]

/-- An obfuscated name is read back, as long as the sum of its code points is an `int`; names that are
not valid UTF-8 are marked and kept as they are. -/
theorem deobfuscateSegment_obfuscateSegment (s : Bytes) (h : (runeValues s).sum < 2 ^ 63) :
    deobfuscateSegment nameKey (obfuscateSegment nameKey s) = .ok s := by
  by_cases hne : s = []
  · subst hne
    rfl
  by_cases hvalid : validString s = true
  · rw [deobfuscateSegment_obfuscateSegment_eq nameKey hne hvalid]
    obtain ⟨hback, hrunes⟩ := flatMap_runeValues hvalid
    have hsum : 0 ≤ (runeValues s).sum := sum_nonneg fun r hr => by
      have := hrunes r hr
      unfold validRune at this
      omega
    have hdir : 0 ≤ nameDir s + keySum nameKey := by
      have hkey := keySum_bounds nameKey
      have hmod : 0 ≤ nameDir s := by
        rw [nameDir, wrap64_eq ⟨by omega, h⟩]
        exact Int.tmod_nonneg _ hsum
      omega
    obtain ⟨hout, hinv⟩ := deobfuscateRunes_flatMap hdir hrunes
    rw [runeValues_flatMap hout, hinv, hback]
  · rw [obfuscateSegment, if_neg hne, if_pos (by simpa using hvalid)]
    show deobfuscateSegment nameKey (33 :: 46 :: s) = .ok s
    rw [deobfuscateSegment, if_neg (by simp), if_neg (by simp)]
    rw [takeWhile_cons_of_pos (by decide), takeWhile_cons_of_neg (by decide),
      dropWhile_cons_of_pos (by decide), dropWhile_cons_of_neg (by decide), if_pos rfl,
      tail_cons]

theorem obfuscateSegment_ne_nil {s : Bytes} (hne : s ≠ []) : obfuscateSegment nameKey s ≠ [] := by
  rw [obfuscateSegment, if_neg hne]
  split <;> simp [ascii]

end Names

/-- **Obfuscated names survive** as long as the sum of the code points is an `int`, whatever the key is. -/
theorem obfuscated_names_survive (nameKey : FixedBytes 32) (s : Bytes) (h : (runeValues s).sum < 2 ^ 63) :
    deobfuscateSegment nameKey (obfuscateSegment nameKey s) = .ok s ∧ ∀ dir r rest, r ≥ 0x100 →
        ¬ validRune (rotate (r - r.tmod 256) 256 (dir.tmod 127 + 1) r) →
        obfuscateRune dir r = [obfuscQuoteRune, r] ∧ deobfuscateRunes dir false (obfuscateRune dir r ++ rest)
            = r :: deobfuscateRunes dir false rest := by
  refine ⟨deobfuscateSegment_obfuscateSegment nameKey s h, fun dir r rest hr hinvalid => ?_⟩
  have hquote : obfuscateRune dir r = [obfuscQuoteRune, r] := by
    rw [obfuscateRune, if_neg (by unfold obfuscQuoteRune; omega), if_neg (by omega),
      if_neg (by unfold isLetter; omega), if_neg (by omega), if_pos hr]
    exact if_pos hinvalid
  refine ⟨hquote, ?_⟩
  rw [hquote]
  simp only [cons_append, nil_append, deobfuscateRunes, if_true]

/-- A name with every class in it, next to the surrogates and at the end of Unicode. -/
theorem obfuscated_names_survive_classes : deobfuscateSegment (FixedBytes.ofBytes 32 [])
        (obfuscateSegment (FixedBytes.ofBytes 32 [])
          ([33, 0xD7FF, 0x10FFFF, 0x31, 0x7A, 0x2E, 0xE9].flatMap appendRune)) =
      .ok ([33, 0xD7FF, 0x10FFFF, 0x31, 0x7A, 0x2E, 0xE9].flatMap appendRune) :=
  (obfuscated_names_survive _ _ (by
    rw [runeValues_flatMap (by decide)]
    decide)).1

/-- A name of `n` runes U+10FF01 whose number comes out as -6 is not read back. -/
theorem not_deobfuscateSegment_replicate {n : Nat} (hn : 0 < n) (hdir : (wrap64 (n * 0x10FF01)).tmod 256 = -6) :
    deobfuscateSegment (FixedBytes.ofBytes 32 []) (obfuscateSegment (FixedBytes.ofBytes 32 [])
      ((replicate n 0x10FF01).flatMap appendRune)) ≠ .ok ((replicate n 0x10FF01).flatMap appendRune) := by
  have hvalid : ∀ r ∈ replicate n (0x10FF01 : Int), validRune r := fun r hr =>
    eq_of_mem_replicate hr ▸ by decide
  have hdir' : nameDir ((replicate n 0x10FF01).flatMap appendRune) = -6 := by
    rw [nameDir, runeValues_flatMap hvalid, sum_replicate, nsmul_eq_mul, hdir]
  have hne : (replicate n (0x10FF01 : Int)).flatMap appendRune ≠ [] := by
    obtain ⟨n, rfl⟩ : ∃ m, n = m + 1 := ⟨n - 1, by omega⟩
    exact append_ne_nil_of_left_ne_nil (by decide) _
  rw [deobfuscateSegment_obfuscateSegment_eq _ hne (validString_flatMap hvalid), hdir', runeValues_flatMap hvalid]
  -- every rune is written as U+10FEFC, and that is read as U+10FE01
  have hwritten : ∀ m : Nat, (replicate m (0x10FF01 : Int)).flatMap
      (obfuscateRune (-6 + keySum (FixedBytes.ofBytes 32 []))) = replicate m 0x10FEFC := by
    intro m
    induction m with
    | zero => rfl
    | succ m ih =>
      rw [replicate_succ, flatMap_cons, ih, replicate_succ]
      rfl
  have hread : ∀ m : Nat, deobfuscateRunes (-6 + keySum (FixedBytes.ofBytes 32 [])) false
      (replicate m 0x10FEFC) = replicate m 0x10FE01 := by
    intro m
    induction m with
    | zero => rfl
    | succ m ih =>
      rw [replicate_succ, deobfuscateRunes, if_neg (by decide), ih, replicate_succ]
      rfl
  have hall : ∀ x : Int, validRune x → ∀ r ∈ replicate n x, validRune r := fun x hx r hr =>
    eq_of_mem_replicate hr ▸ hx
  rw [hwritten, runeValues_flatMap (hall _ (by decide)), hread]
  intro heq
  have hrunes := congrArg runeValues (Except.ok.inj heq)
  rw [runeValues_flatMap (hall _ (by decide)), runeValues_flatMap hvalid] at hrunes
  exact absurd (replicate_right_injective (by omega) hrunes) (by decide)

/-- Eight million million runes add up past the range of an `int`. -/
theorem not_deobfuscateSegment_overflow : ∃ s, deobfuscateSegment (FixedBytes.ofBytes 32 [])
      (obfuscateSegment (FixedBytes.ofBytes 32 []) s) ≠ .ok s :=
  ⟨_, not_deobfuscateSegment_replicate (n := 8280571057914) (by decide) (by decide)⟩

end Crypt
