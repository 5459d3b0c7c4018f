import Qrypt.Crypt.Names

/-!
# Which names decryption accepts

`DecryptSegment` in standard mode looks at the last byte of a decrypted piece only, tries the other
text encoding when the configured one fails, and hands `eme.Transform` whatever it decoded. `Rejected` says on which texts it fails with an error, `Genuine` which texts are
those of `EncryptSegment`; on every other text it accepts something it would not have written, or
panics (`decryptSegment_genuine_iff`).
-/

namespace Crypt

open Infra List

/-- Splitting does not see a change of bytes that keeps the separator apart from the others. -/
theorem splitOn_map {f : UInt8 → UInt8} {x : UInt8} (hf : ∀ b, f b = x ↔ b = x) (s : Bytes) :
    (s.map f).splitOn x = (s.splitOn x).map (map f) := by
  induction s with
  | nil => rfl
  | cons b s ih =>
    rw [map_cons, splitOn_cons_eq_if_modifyHead, splitOn_cons_eq_if_modifyHead, ih]
    by_cases hb : b = x
    · simp [if_pos (by simpa using (hf b).mpr hb), if_pos (by simpa using hb)]
    · rw [if_neg (by simpa using fun h => hb ((hf b).mp h)), if_neg (by simpa using hb)]
      cases s.splitOn x <;> rfl

theorem foldByte_semicolon (enc : FilenameEncoding) (b : UInt8) : foldByte enc b = 59 ↔ b = 59 := by
  cases enc with
  | base32 => exact (lowerByte_facts b).2.2.1
  | base64 => exact Iff.rfl

theorem sameText_iff (enc : FilenameEncoding) (s t : Bytes) :
    SameText enc s t ↔ Forall₂ (SameText enc) (s.splitOn 59) (t.splitOn 59) := by
  have hsplit := splitOn_map (foldByte_semicolon enc)
  have hmap : Forall₂ (SameText enc) (s.splitOn 59) (t.splitOn 59) ↔
      (s.splitOn 59).map (map (foldByte enc)) = (t.splitOn 59).map (map (foldByte enc)) := by
    rw [← forall₂_eq_eq_eq, forall₂_map_left_iff, forall₂_map_right_iff]
    rfl
  rw [hmap, ← hsplit, ← hsplit]
  refine ⟨fun h => congrArg _ h, fun h => ?_⟩
  have hjoin := congrArg (intercalate [59]) h
  rwa [intercalate_splitOn, intercalate_splitOn] at hjoin

section

variable (prim : NamePrimitives) (c : NameCipher)

/-- The ciphertext a text stands for: whole blocks, at least one. -/
def ciphertextOf (enc : FilenameEncoding) (part : Bytes) : Option Bytes :=
  match decodeText prim enc part with
  | .error _ => none
  | .ok raw => if raw.length = 0 ∨ raw.length % 16 ≠ 0 then none else some raw

/-- The ciphertext a part is decrypted from: read in the configured encoding, or else in the other. -/
def readAs (part : Bytes) : Option Bytes :=
  (ciphertextOf prim c.filenameEncoding part).or (ciphertextOf prim (otherEncoding c.filenameEncoding) part)

/-- A part that stands for no ciphertext. -/
def Unreadable (part : Bytes) : Prop := part ≠ [] ∧ readAs prim c part = none

/-- A part EME can be applied to, if any. -/
def Short (part : Bytes) : Prop :=
  part = [] ∨ ∀ raw, readAs prim c part = some raw → raw.length ≤ 2048

/-- Some part stands for no ciphertext, and none before it for too long a one. -/
def Rejected : List Bytes → Prop
  | [] => False
  | part :: parts => Unreadable prim c part ∨ Short prim c part ∧ Rejected parts

/-- Every part is the text of a ciphertext that decrypts to a padded piece, and the pieces are cut as
those of a name. -/
def Genuine (s : Bytes) : Prop :=
  ∃ texts, CutLikeName texts ∧
    Forall₂ (fun part text => ∃ raw, EmeInput raw ∧
      SameText c.filenameEncoding part (encodeText prim c.filenameEncoding raw) ∧
      prim.decrypt c.nameKey c.nameTweak raw = pad text) (s.splitOn 59) texts

variable {prim c} {enc : FilenameEncoding} {part s : Bytes}

theorem decodeAndDecrypt_none (hne : part ≠ []) (h : ciphertextOf prim enc part = none) :
    ∃ e, decodeAndDecrypt prim c part enc = .error (.error e) := by
  rw [decodeAndDecrypt, if_neg hne]
  rw [ciphertextOf] at h
  cases hdec : decodeText prim enc part with
  | error e => exact ⟨e, rfl⟩
  | ok raw =>
    simp only [hdec, ite_eq_left_iff, reduceCtorEq, imp_false, not_not] at h
    by_cases h0 : raw.length = 0
    · exact ⟨_, if_pos h0⟩
    · simp only [if_neg h0]
      exact ⟨_, if_pos (h.resolve_left h0)⟩

theorem decodeAndDecrypt_some {raw : Bytes} (hne : part ≠ []) (h : ciphertextOf prim enc part = some raw) :
    decodeAndDecrypt prim c part enc = if raw.length > 2048 then .error .panic
      else .ok (unpad (prim.decrypt c.nameKey c.nameTweak raw)) := by
  rw [decodeAndDecrypt, if_neg hne]
  rw [ciphertextOf] at h
  cases hdec : decodeText prim enc part with
  | error e => rw [hdec] at h; cases h
  | ok raw' =>
    rw [hdec] at h
    simp only [Option.ite_none_left_eq_some, Option.some.injEq, not_or] at h
    obtain ⟨⟨h0, h16⟩, rfl⟩ := h
    simp only [if_neg h0, if_neg h16]

variable (prim c) in
theorem decryptOneSegment_cases (part : Bytes) :
    Unreadable prim c part ∧ (∃ e, decryptOneSegment prim c part = .error (.error e)) ∨
      ¬ Unreadable prim c part ∧ ¬ Short prim c part ∧ decryptOneSegment prim c part = .error .panic ∨
      ¬ Unreadable prim c part ∧ Short prim c part ∧ ∃ p, decryptOneSegment prim c part = .ok p := by
  by_cases hne : part = []
  · refine .inr (.inr ⟨fun hu => hu.1 hne, .inl hne, [], ?_⟩)
    rw [decryptOneSegment, decodeAndDecrypt, if_pos hne]
  -- the part is read as `raw`
  have some_raw : ∀ raw, readAs prim c part = some raw →
      (decryptOneSegment prim c part = if raw.length > 2048 then .error .panic
        else .ok (unpad (prim.decrypt c.nameKey c.nameTweak raw))) →
      ¬ Unreadable prim c part ∧ ¬ Short prim c part ∧ decryptOneSegment prim c part = .error .panic ∨
        ¬ Unreadable prim c part ∧ Short prim c part ∧ ∃ p, decryptOneSegment prim c part = .ok p := by
    intro raw hread hdec
    have hreadable : ¬ Unreadable prim c part := fun hu => by
      simp [hu.2] at hread
    by_cases hlen : raw.length > 2048
    · rw [if_pos hlen] at hdec
      exact .inl ⟨hreadable, fun hs => (hs.resolve_left hne raw hread).not_gt hlen, hdec⟩
    · rw [if_neg hlen] at hdec
      refine .inr ⟨hreadable, .inr fun raw' hread' => ?_, _, hdec⟩
      rw [hread] at hread'
      exact Option.some.inj hread' ▸ Nat.not_lt.mp hlen
  cases hfirst : ciphertextOf prim c.filenameEncoding part with
  | some raw =>
    refine .inr (some_raw raw (by rw [readAs, hfirst]; rfl) ?_)
    rw [decryptOneSegment, decodeAndDecrypt_some hne hfirst]
    split_ifs <;> rfl
  | none =>
    obtain ⟨e, he⟩ := decodeAndDecrypt_none (c := c) hne hfirst
    have hread : readAs prim c part = ciphertextOf prim (otherEncoding c.filenameEncoding) part := by
      simp [readAs, hfirst]
    cases hsecond : ciphertextOf prim (otherEncoding c.filenameEncoding) part with
    | some raw =>
      refine .inr (some_raw raw (hread.trans hsecond) ?_)
      rw [decryptOneSegment, he, decodeAndDecrypt_some hne hsecond]
      split_ifs <;> rfl
    | none =>
      obtain ⟨e', he'⟩ := decodeAndDecrypt_none (c := c) hne hsecond
      refine .inl ⟨⟨hne, hread.trans hsecond⟩, .text "failed to decrypt filename", ?_⟩
      rw [decryptOneSegment, he, he']

/-- **Decryption fails with an error exactly on the rejected texts.** -/
theorem decryptParts_error_iff (parts : List Bytes) :
    (∃ e, decryptParts prim c parts = .error (.error e)) ↔ Rejected prim c parts := by
  induction parts with
  | nil =>
    refine ⟨?_, False.elim⟩
    rintro ⟨e, he⟩
    cases he
  | cons part parts ih =>
    rw [decryptParts, Rejected]
    rcases decryptOneSegment_cases prim c part with
      ⟨hu, e, he⟩ | ⟨hr, hlong, hpanic⟩ | ⟨hr, hshort, p, hp⟩
    · simp only [he]
      exact ⟨fun _ => .inl hu, fun _ => ⟨e, rfl⟩⟩
    · simp only [hpanic, hr, hlong, false_and, or_false, iff_false]
      rintro ⟨e, he⟩
      cases he
    · simp only [hp, hr, hshort, false_or, true_and, ← ih]
      cases decryptParts prim c parts with
      | error e => exact Iff.rfl
      | ok out => simp only [reduceCtorEq]

variable (h : prim.Lawful)

include h

/-- The name a genuine text is decrypted to, and that it is the text of that name. -/
theorem Genuine.accepted (hs : Genuine prim c s) : ∃ p, p ≠ [] ∧ decryptParts prim c (s.splitOn 59) = .ok p ∧
      SameText c.filenameEncoding s (encryptSegmentStandard prim c p) := by
  obtain ⟨texts, hcut, hall⟩ := hs
  obtain ⟨hpieces, hne⟩ := pieces_flatten hcut
  refine ⟨texts.flatten, hne, decryptParts_of_forall₂ (hall.imp ?_), ?_⟩
  · rintro part text ⟨raw, hraw, hsame, hdec⟩
    rw [decryptOneSegment_of_sameText h hraw hsame, hdec, unpad_pad]
  · rw [sameText_iff, splitOn_encryptSegmentStandard h hne, hpieces, forall₂_map_right_iff]
    refine hall.imp ?_
    rintro part text ⟨raw, hraw, hsame, hdec⟩
    rwa [encryptOneSegment, ← hdec, h.encrypt_decrypt _ _ _ hraw]

/-- A text that is the text of the name it is decrypted to is genuine. -/
theorem genuine_of_sameText {p : Bytes} (hp : p ≠ [])
    (hsame : SameText c.filenameEncoding s (encryptSegmentStandard prim c p)) : Genuine prim c s := by
  obtain ⟨hcut, -⟩ := pieces_spec p hp
  rw [sameText_iff, splitOn_encryptSegmentStandard h hp, forall₂_map_right_iff] at hsame
  have hboth := ((forall₂_and_left _ _).mpr ⟨hcut.length_le, hsame.flip⟩).flip
  refine ⟨pieces p, hcut, hboth.imp ?_⟩
  rintro part text ⟨hlen, hpart⟩
  have hpad := emeInput_pad hlen
  exact ⟨_, h.emeInput_encrypt _ _ hpad, hpart, h.decrypt_encrypt _ _ _ hpad⟩

end

/-- **Decryption returns, and accepts only the text of the name it returns, exactly on these texts**:
the empty one, those in which some part stands for no ciphertext and none before it for one of more
than 2048 bytes, and those whose parts are texts, in the configured encoding, of padded pieces cut as
those of a name. -/
theorem decryptSegment_genuine_iff {prim : NamePrimitives} (h : prim.Lawful) (c : NameCipher)
    (hmode : c.filenameEncryption = .standard) (s : Bytes) :
    (decryptSegment prim c s ≠ .error .panic ∧
      ∀ p, decryptSegment prim c s = .ok p →
        SameText c.filenameEncoding s (encryptSegment prim c p)) ↔
      s = [] ∨ Rejected prim c (s.splitOn 59) ∨ Genuine prim c s := by
  by_cases hs : s = []
  · subst hs
    refine ⟨fun _ => .inl rfl, fun _ => ⟨by simp [decryptSegment], fun p hp => ?_⟩⟩
    cases hp
    rfl
  have hdec : decryptSegment prim c s = decryptParts prim c (s.splitOn 59) := by
    rw [decryptSegment, if_neg hs, hmode]
    exact decryptSegmentStandard_eq s
  have henc : ∀ p, p ≠ [] → encryptSegment prim c p = encryptSegmentStandard prim c p := by
    intro p hp
    rw [encryptSegment, if_neg hp, hmode]
  simp only [hdec, hs, false_or]
  constructor
  · rintro ⟨hpanic, haccept⟩
    cases hres : decryptParts prim c (s.splitOn 59) with
    | error f =>
      cases f with
      | error e => exact .inl ((decryptParts_error_iff _).mp ⟨e, hres⟩)
      | panic => exact absurd hres hpanic
    | ok p =>
      have hsame := haccept p hres
      have hp : p ≠ [] := by
        rintro rfl
        exact hs (map_eq_nil_iff.mp hsame)
      rw [henc p hp] at hsame
      exact .inr (genuine_of_sameText h hp hsame)
  · rintro (hrej | hgen)
    · obtain ⟨e, he⟩ := (decryptParts_error_iff _).mpr hrej
      rw [he]
      exact ⟨by simp, fun p hp => by cases hp⟩
    · obtain ⟨p, hp, hok, hsame⟩ := hgen.accepted h
      rw [hok]
      refine ⟨by simp, fun q hq => ?_⟩
      cases hq
      rwa [henc p hp]

theorem decryptSegment_genuine_iff_one :
    (decryptSegment plainPrimitives (zeroNames .base32) (ascii "!") ≠ .error .panic ∧
      ∀ p, decryptSegment plainPrimitives (zeroNames .base32) (ascii "!") = .ok p →
        SameText .base32 (ascii "!") (encryptSegment plainPrimitives (zeroNames .base32) p)) ↔
      ascii "!" = [] ∨ Rejected plainPrimitives (zeroNames .base32) ((ascii "!").splitOn 59) ∨
        Genuine plainPrimitives (zeroNames .base32) (ascii "!") :=
  decryptSegment_genuine_iff lawful_plainPrimitives (zeroNames .base32) rfl (ascii "!")

/-- The base32 text of a block whose last byte announces no padding. -/
def unpaddedText : Bytes := replicate 26 48

/-- It is accepted as a name of sixteen zero bytes, which is written as two blocks. -/
theorem unpaddedText_accepted :
    decryptSegment plainPrimitives (zeroNames .base32) unpaddedText = .ok (replicate 16 0) ∧
      ¬ SameText .base32 unpaddedText (encryptSegment plainPrimitives (zeroNames .base32) (replicate 16 0)) := by
  decide +kernel

end Crypt
