import Qrypt.Crypt.Obfuscate
import Qrypt.Infra.TextCodec

/-!
# Encrypted names

`pkg/crypt/rclone_cipher.go`: `EncryptSegment` and `DecryptSegment`. In standard mode a name is cut
into pieces of at most 1000 bytes; each piece is padded to whole AES blocks, transformed by EME and
written as text, and the texts are joined by semicolons.

EME and the text encodings are parameters (`NamePrimitives`); what is used of them is
`NamePrimitives.Lawful`. `eme.Transform` panics past 128 blocks, so decryption can end in a panic
(`Fault`).
-/

namespace Crypt

open Infra List

/-! ## Parameters -/

/-- `filenameEncoding`; every text but `"base64"` means base32. -/
inductive FilenameEncoding where
  | base32
  | base64
  deriving DecidableEq, Repr

/-- `filenameEncryption`; every text but the two others means standard. -/
inductive FilenameEncryption where
  | standard
  | off
  | obfuscate
  deriving DecidableEq, Repr

/-- What name encryption is made of: `rcloneBase32` and `rcloneBase64`, `eme.Transform` over AES in
both directions, and `strings.ToUpper` of texts with bytes beyond ASCII. -/
structure NamePrimitives where
  base32 : TextCodec
  base64 : TextCodec
  encrypt : FixedBytes 32 → FixedBytes 16 → Bytes → Bytes
  decrypt : FixedBytes 32 → FixedBytes 16 → Bytes → Bytes
  unicodeUpper : Bytes → Bytes

/-- The inputs EME is made for: 1 to 128 blocks. -/
def EmeInput (b : Bytes) : Prop := b ≠ [] ∧ b.length % 16 = 0 ∧ b.length ≤ 2048

/-- What the parameters promise: the encodings decode what they encode, in alphabets without a semicolon, and the two
directions of EME undo each other. -/
structure NamePrimitives.Lawful (prim : NamePrimitives) : Prop where
  base32 : prim.base32.Lawful isBase32Hex
  base64 : prim.base64.Lawful fun c => c ≠ 59
  decrypt_encrypt : ∀ key tweak b, EmeInput b → prim.decrypt key tweak (prim.encrypt key tweak b) = b
  encrypt_decrypt : ∀ key tweak b, EmeInput b → prim.encrypt key tweak (prim.decrypt key tweak b) = b
  length_encrypt : ∀ key tweak b, EmeInput b → (prim.encrypt key tweak b).length = b.length

theorem NamePrimitives.Lawful.emeInput_encrypt {prim : NamePrimitives} (h : prim.Lawful)
    (key : FixedBytes 32) (tweak : FixedBytes 16) {b : Bytes} (hb : EmeInput b) :
    EmeInput (prim.encrypt key tweak b) := by
  have hlen := h.length_encrypt key tweak b hb
  refine ⟨fun hnil => hb.1 ?_, by rw [hlen]; exact hb.2.1, by rw [hlen]; exact hb.2.2⟩
  rw [hnil] at hlen
  exact length_eq_zero_iff.mp hlen.symm

/-- `RcloneCipher`, as far as names go. -/
structure NameCipher where
  nameKey : FixedBytes 32
  nameTweak : FixedBytes 16
  filenameEncryption : FilenameEncryption
  filenameEncoding : FilenameEncoding

/-- How a decryption ends without a value. -/
inductive Fault where
  | error (e : Err)
  | panic
  deriving DecidableEq, Repr

/-! ## Padding -/

/-- Fills the last block; every byte added is the number of bytes added. -/
def pad (b : Bytes) : Bytes :=
  let paddingLen := 16 - b.length % 16
  b ++ replicate paddingLen (UInt8.ofNat paddingLen)

/-- Takes off the padding that the last byte announces, if it announces 1 to 16 bytes. -/
def unpad (b : Bytes) : Bytes :=
  match b.getLast? with
  | none => []
  | some last =>
    let paddingLen := last.toNat
    if 0 < paddingLen ∧ paddingLen ≤ 16 then b.take (b.length - paddingLen) else b

theorem length_pad (b : Bytes) : (pad b).length = (b.length / 16 + 1) * 16 := by
  rw [pad, length_append, length_replicate]
  omega

theorem unpad_pad (b : Bytes) : unpad (pad b) = b := by
  have hn : (UInt8.ofNat (16 - b.length % 16)).toNat = 16 - b.length % 16 := by
    rw [UInt8.toNat_ofNat', Nat.mod_eq_of_lt (by omega)]
  have hlast : (pad b).getLast? = some (UInt8.ofNat (16 - b.length % 16)) := by
    rw [pad, getLast?_append_of_ne_nil _ (by simp; omega), getLast?_replicate, if_neg (by omega)]
  rw [unpad, hlast]
  simp only [hn]
  rw [if_pos (by omega), length_pad, pad]
  exact take_left' (by omega)

theorem emeInput_pad {b : Bytes} (h : b.length ≤ 1000) : EmeInput (pad b) := by
  refine ⟨fun hnil => ?_, by rw [length_pad]; omega, by rw [length_pad]; omega⟩
  have := length_pad b
  rw [hnil, length_nil] at this
  omega

/-! ## Letter case -/

def lowerByte (b : UInt8) : UInt8 := if 65 ≤ b ∧ b ≤ 90 then b + 32 else b

def upperByte (b : UInt8) : UInt8 := if 97 ≤ b ∧ b ≤ 122 then b - 32 else b

theorem lowerByte_facts (b : UInt8) : lowerByte (lowerByte b) = lowerByte b ∧ (lowerByte b < 0x80 ↔ b < 0x80) ∧
      (lowerByte b = 59 ↔ b = 59) ∧ upperByte (lowerByte b) = upperByte b ∧
      (isBase32Hex b → upperByte b = b ∧ b < 0x80 ∧ b ≠ 59) := by
  have hall : ∀ n : Fin 256, let b := UInt8.ofNat n
      lowerByte (lowerByte b) = lowerByte b ∧ (lowerByte b < 0x80 ↔ b < 0x80) ∧
        (lowerByte b = 59 ↔ b = 59) ∧ upperByte (lowerByte b) = upperByte b ∧
        (isBase32Hex b → upperByte b = b ∧ b < 0x80 ∧ b ≠ 59) := by decide +kernel
  have h := hall ⟨b.toNat, b.toNat_lt⟩
  rwa [UInt8.ofNat_toNat] at h

def foldByte : FilenameEncoding → UInt8 → UInt8
  | .base32 => lowerByte
  | .base64 => id

/-- Equal, for base32 up to the case of letters. -/
def SameText (enc : FilenameEncoding) (a b : Bytes) : Prop :=
  a.map (foldByte enc) = b.map (foldByte enc)

instance (enc : FilenameEncoding) (a b : Bytes) : Decidable (SameText enc a b) :=
  inferInstanceAs (Decidable (_ = _))

/-! ## One segment -/

section Segments

variable (prim : NamePrimitives)

def toUpper (s : Bytes) : Bytes :=
  if s.all (· < 0x80) then s.map upperByte else prim.unicodeUpper s

/-- The text of a ciphertext; base32 is written in lower case. -/
def encodeText (enc : FilenameEncoding) (ciphertext : Bytes) : Bytes :=
  match enc with
  | .base64 => prim.base64.encode ciphertext
  | .base32 => (prim.base32.encode ciphertext).map lowerByte

def decodeText (enc : FilenameEncoding) (s : Bytes) : Except Err Bytes :=
  match enc with
  | .base64 => prim.base64.decode s
  | .base32 => prim.base32.decode (toUpper prim s)

def otherEncoding : FilenameEncoding → FilenameEncoding
  | .base64 => .base32
  | .base32 => .base64

variable (c : NameCipher)

def encryptOneSegment (plaintext : Bytes) : Bytes :=
  encodeText prim c.filenameEncoding (prim.encrypt c.nameKey c.nameTweak (pad plaintext))

def decodeAndDecrypt (encrypted : Bytes) (encoding : FilenameEncoding) : Except Fault Bytes :=
  if encrypted = [] then .ok []
  else
    match decodeText prim encoding encrypted with
    | .error e => .error (.error e)
    | .ok rawCiphertext =>
      if rawCiphertext.length = 0 then .error (.error (.text "empty ciphertext"))
      else if rawCiphertext.length % 16 ≠ 0 then
        .error (.error (.text "ciphertext length is not a multiple of 16"))
      -- `eme.Transform` operates on 1 to 128 blocks
      else if rawCiphertext.length > 2048 then .error .panic
      else .ok (unpad (prim.decrypt c.nameKey c.nameTweak rawCiphertext))

def decryptOneSegment (encrypted : Bytes) : Except Fault Bytes :=
  match decodeAndDecrypt prim c encrypted c.filenameEncoding with
  | .ok plain => .ok plain
  | .error .panic => .error .panic
  | .error (.error _) =>
    match decodeAndDecrypt prim c encrypted (otherEncoding c.filenameEncoding) with
    | .ok plain => .ok plain
    | .error .panic => .error .panic
    | .error (.error _) => .error (.error (.text "failed to decrypt filename"))

/-! ## Names -/

def maxSegmentPlainLen : Nat := 1000

def pieces (plaintext : Bytes) : List Bytes :=
  if maxSegmentPlainLen < plaintext.length then
    plaintext.take maxSegmentPlainLen :: pieces (plaintext.drop maxSegmentPlainLen)
  else if 0 < plaintext.length then [plaintext]
  else []
termination_by plaintext.length
decreasing_by
  rw [length_drop, maxSegmentPlainLen]
  omega

def encryptSegmentStandard (plaintext : Bytes) : Bytes :=
  if plaintext.length ≤ maxSegmentPlainLen then encryptOneSegment prim c plaintext
  else [59].intercalate ((pieces plaintext).map (encryptOneSegment prim c))

/-- The parts are decrypted in turn; the first that fails ends it. -/
def decryptParts : List Bytes → Except Fault Bytes
  | [] => .ok []
  | part :: parts =>
    match decryptOneSegment prim c part with
    | .error e => .error e
    | .ok plain =>
      match decryptParts parts with
      | .error e => .error e
      | .ok out => .ok (plain ++ out)

def decryptSegmentStandard (encrypted : Bytes) : Except Fault Bytes :=
  if 59 ∈ encrypted then decryptParts prim c (encrypted.splitOn 59)
  else decryptOneSegment prim c encrypted

def encryptSegment (plaintext : Bytes) : Bytes :=
  if plaintext = [] then []
  else
    match c.filenameEncryption with
    | .off => plaintext
    | .obfuscate => obfuscateSegment c.nameKey plaintext
    | .standard => encryptSegmentStandard prim c plaintext

def decryptSegment (encrypted : Bytes) : Except Fault Bytes :=
  if encrypted = [] then .ok []
  else
    match c.filenameEncryption with
    | .off => .ok encrypted
    | .obfuscate => (deobfuscateSegment c.nameKey encrypted).mapError .error
    | .standard => decryptSegmentStandard prim c encrypted

/-! ## Texts of ciphertexts -/

variable {prim c} (h : prim.Lawful)

include h

theorem semicolon_encodeText (enc : FilenameEncoding) (raw : Bytes) : 59 ∉ encodeText prim enc raw := by
  intro hmem
  cases enc with
  | base64 => exact h.base64.alphabet raw 59 hmem rfl
  | base32 =>
    obtain ⟨b, hb, heq⟩ := mem_map.mp hmem
    have hfacts := lowerByte_facts b
    exact (hfacts.2.2.2.2 (h.base32.alphabet raw b hb)).2.2 (hfacts.2.2.1.mp heq)

variable {raw part p : Bytes}

theorem encodeText_ne_nil (enc : FilenameEncoding) (hraw : raw ≠ []) : encodeText prim enc raw ≠ [] := by
  intro hnil
  cases enc with
  | base64 => exact hraw (h.base64.encode_injective (hnil.trans h.base64.encode_nil.symm))
  | base32 =>
    have hnil' : prim.base32.encode raw = [] := map_eq_nil_iff.mp hnil
    exact hraw (h.base32.encode_injective (hnil'.trans h.base32.encode_nil.symm))

/-- **The text of a ciphertext is decoded in any letter case the encoding does not tell apart.** -/
theorem decodeText_of_sameText {enc : FilenameEncoding}
    (hsame : SameText enc part (encodeText prim enc raw)) : decodeText prim enc part = .ok raw := by
  cases enc with
  | base64 =>
    have heq : part = prim.base64.encode raw := by
      have := hsame
      unfold SameText foldByte at this
      rwa [map_id, map_id] at this
    rw [decodeText, heq, h.base64.decode_encode]
  | base32 =>
    have hfold : part.map lowerByte = (prim.base32.encode raw).map lowerByte := by
      refine hsame.trans ?_
      rw [encodeText, map_map]
      exact map_congr_left fun b _ => (lowerByte_facts b).1
    have hupper : part.map upperByte = prim.base32.encode raw := by
      have hmap := congrArg (map upperByte) hfold
      rw [map_map, map_map] at hmap
      have hleft : ∀ l : Bytes, l.map (upperByte ∘ lowerByte) = l.map upperByte := fun l =>
        map_congr_left fun b _ => (lowerByte_facts b).2.2.2.1
      rw [hleft, hleft] at hmap
      rw [hmap]
      refine (map_congr_left fun b hb => ?_).trans (map_id _)
      exact ((lowerByte_facts b).2.2.2.2 (h.base32.alphabet raw b hb)).1
    have hascii : part.all (· < 0x80) = true := by
      rw [all_eq_true]
      intro b hb
      have hmem : lowerByte b ∈ (prim.base32.encode raw).map lowerByte :=
        hfold ▸ mem_map_of_mem hb
      obtain ⟨b', hb', heq⟩ := mem_map.mp hmem
      have hlt := ((lowerByte_facts b').2.2.2.2 (h.base32.alphabet raw b' hb')).2.1
      rw [← (lowerByte_facts b').2.1, heq, (lowerByte_facts b).2.1] at hlt
      exact decide_eq_true hlt
    rw [decodeText, toUpper, if_pos hascii, hupper, h.base32.decode_encode]

theorem decryptOneSegment_of_sameText (hraw : EmeInput raw)
    (hsame : SameText c.filenameEncoding part (encodeText prim c.filenameEncoding raw)) :
    decryptOneSegment prim c part = .ok (unpad (prim.decrypt c.nameKey c.nameTweak raw)) := by
  have hne : part ≠ [] := by
    rintro rfl
    have hnil := map_eq_nil_iff.mp hsame.symm
    exact encodeText_ne_nil h c.filenameEncoding hraw.1 hnil
  have hlen : raw.length ≠ 0 := fun h0 => hraw.1 (length_eq_zero_iff.mp h0)
  have hdec : decodeAndDecrypt prim c part c.filenameEncoding
      = .ok (unpad (prim.decrypt c.nameKey c.nameTweak raw)) := by
    rw [decodeAndDecrypt, if_neg hne, decodeText_of_sameText h hsame]
    simp only [if_neg hlen]
    rw [if_neg (not_not.mpr hraw.2.1), if_neg (Nat.not_lt.mpr hraw.2.2)]
  rw [decryptOneSegment, hdec]

theorem decryptOneSegment_encryptOneSegment {plaintext : Bytes} (hlen : plaintext.length ≤ 1000) :
    decryptOneSegment prim c (encryptOneSegment prim c plaintext) = .ok plaintext := by
  have hpad := emeInput_pad hlen
  rw [encryptOneSegment, decryptOneSegment_of_sameText h (h.emeInput_encrypt _ _ hpad) rfl,
    h.decrypt_encrypt _ _ _ hpad, unpad_pad]

omit h

/-! ## Pieces -/

/-- Cut as a name is: 1000 bytes each, and 1 to 1000 in the last one. -/
def CutLikeName : List Bytes → Prop
  | [] => False
  | [t] => 0 < t.length ∧ t.length ≤ maxSegmentPlainLen
  | t :: rest => t.length = maxSegmentPlainLen ∧ CutLikeName rest

theorem CutLikeName.length_le : ∀ {ts : List Bytes}, CutLikeName ts → ∀ t ∈ ts, t.length ≤ 1000
  | [], h => h.elim
  | [t], h => by
    intro x hx
    rw [mem_singleton.mp hx]
    exact h.2
  | t :: u :: rest, h => forall_mem_cons.mpr ⟨Nat.le_of_eq h.1, CutLikeName.length_le h.2⟩

/-- **A name is cut into pieces like these, which make up the name.** -/
theorem pieces_spec (p : Bytes) (hp : p ≠ []) : CutLikeName (pieces p) ∧ (pieces p).flatten = p := by
  have hpos : 0 < p.length := length_pos_of_ne_nil hp
  rw [pieces]
  by_cases hlong : maxSegmentPlainLen < p.length
  · rw [if_pos hlong]
    have hrest : p.drop maxSegmentPlainLen ≠ [] :=
      ne_nil_of_length_pos (by rw [length_drop]; omega)
    obtain ⟨hcut, hflat⟩ := pieces_spec (p.drop maxSegmentPlainLen) hrest
    rw [flatten_cons, hflat, take_append_drop]
    refine ⟨?_, rfl⟩
    cases hps : pieces (p.drop maxSegmentPlainLen) with
    | nil =>
      rw [hps] at hcut
      exact hcut.elim
    | cons t rest =>
      rw [hps] at hcut
      exact ⟨length_take_of_le (Nat.le_of_lt hlong), hcut⟩
  · rw [if_neg hlong, if_pos hpos]
    exact ⟨⟨hpos, Nat.not_lt.mp hlong⟩, append_nil p⟩
termination_by p.length
decreasing_by
  rw [length_drop, maxSegmentPlainLen]
  omega

theorem pieces_flatten : ∀ {ts : List Bytes}, CutLikeName ts → pieces ts.flatten = ts ∧ ts.flatten ≠ []
  | [], h => h.elim
  | [t], h => by
    rw [flatten_singleton, pieces, if_neg (Nat.not_lt.mpr h.2), if_pos h.1]
    exact ⟨rfl, ne_nil_of_length_pos h.1⟩
  | t :: u :: rest, h => by
    obtain ⟨hrest, hne⟩ := pieces_flatten h.2
    have hpos : 0 < (u :: rest).flatten.length := length_pos_of_ne_nil hne
    rw [flatten_cons, pieces, if_pos (by rw [length_append, h.1]; omega),
      take_left' h.1, drop_left' h.1, hrest]
    exact ⟨rfl, append_ne_nil_of_right_ne_nil _ hne⟩

theorem encryptSegmentStandard_eq (hp : p ≠ []) : encryptSegmentStandard prim c p
      = [59].intercalate ((pieces p).map (encryptOneSegment prim c)) := by
  rw [encryptSegmentStandard]
  split
  · next hle =>
    rw [pieces, if_neg (Nat.not_lt.mpr hle), if_pos (length_pos_of_ne_nil hp), map_singleton,
      intercalate_singleton]
  · rfl

/-! ## Parts -/

theorem decryptSegmentStandard_eq (s : Bytes) :
    decryptSegmentStandard prim c s = decryptParts prim c (s.splitOn 59) := by
  rw [decryptSegmentStandard]
  split
  · rfl
  · next hmem =>
    rw [splitOn_eq_singleton hmem, decryptParts, decryptParts]
    cases decryptOneSegment prim c s with
    | error e => rfl
    | ok plain => exact congrArg Except.ok (append_nil plain).symm

theorem decryptParts_of_forall₂ {parts texts : List Bytes}
    (hall : Forall₂ (fun part text => decryptOneSegment prim c part = .ok text) parts texts) :
    decryptParts prim c parts = .ok texts.flatten := by
  induction hall with
  | nil => rfl
  | cons hpart _ ih => simp [decryptParts, hpart, ih]

include h in
theorem splitOn_encryptSegmentStandard (hp : p ≠ []) : (encryptSegmentStandard prim c p).splitOn 59
      = (pieces p).map (encryptOneSegment prim c) := by
  rw [encryptSegmentStandard_eq hp, splitOn_intercalate]
  · intro l hl
    obtain ⟨t, -, rfl⟩ := mem_map.mp hl
    exact semicolon_encodeText h _ _
  · intro hnil
    have hcut := (pieces_spec p hp).1
    rwa [map_eq_nil_iff.mp hnil] at hcut

include h in
theorem decryptSegmentStandard_encryptSegmentStandard (hp : p ≠ []) :
    decryptSegmentStandard prim c (encryptSegmentStandard prim c p) = .ok p := by
  obtain ⟨hcut, hflat⟩ := pieces_spec p hp
  have hall : Forall₂ (fun part text => decryptOneSegment prim c part = .ok text)
      ((pieces p).map (encryptOneSegment prim c)) (pieces p) := by
    rw [forall₂_map_left_iff, forall₂_same]
    exact fun t ht => decryptOneSegment_encryptOneSegment h (hcut.length_le t ht)
  rw [decryptSegmentStandard_eq, splitOn_encryptSegmentStandard h hp, decryptParts_of_forall₂ hall, hflat]

include h in
theorem encryptSegmentStandard_ne_nil (hp : p ≠ []) : encryptSegmentStandard prim c p ≠ [] := by
  intro hnil
  have hsplit := splitOn_encryptSegmentStandard h (c := c) hp
  rw [hnil, splitOn_nil] at hsplit
  have hcut := (pieces_spec p hp).1
  cases hps : pieces p with
  | nil =>
    rwa [hps] at hcut
  | cons t rest =>
    rw [hps, map_cons] at hsplit
    have hlen : t.length ≤ 1000 := hcut.length_le t (by rw [hps]; exact mem_cons_self)
    exact encodeText_ne_nil h c.filenameEncoding (h.emeInput_encrypt _ _ (emeInput_pad hlen)).1
      (cons.inj hsplit).1.symm

include h in
/-- Names survive in every mode; in obfuscated mode, those whose code points add up to an `int`. -/
theorem decryptSegment_encryptSegment {s : Bytes}
    (hsum : c.filenameEncryption = .obfuscate → (runeValues s).sum < 2 ^ 63) :
    decryptSegment prim c (encryptSegment prim c s) = .ok s := by
  by_cases hs : s = []
  · rw [encryptSegment, if_pos hs, decryptSegment, if_pos rfl, hs]
  rw [encryptSegment, if_neg hs, decryptSegment]
  cases hmode : c.filenameEncryption with
  | standard =>
    rw [if_neg (encryptSegmentStandard_ne_nil h hs)]
    exact decryptSegmentStandard_encryptSegmentStandard h hs
  | off => exact if_neg hs
  | obfuscate =>
    rw [if_neg (obfuscateSegment_ne_nil c.nameKey hs)]
    simp only [deobfuscateSegment_obfuscateSegment c.nameKey s (hsum hmode)]
    rfl

end Segments

/-- **Standard names survive**: for names of any length, keys and encodings, what `EncryptSegment`
writes is decrypted to the name, and no two names are written alike. -/
theorem standard_names_survive {prim : NamePrimitives} (h : prim.Lawful) (c : NameCipher)
    (hmode : c.filenameEncryption = .standard) :
    (∀ s, decryptSegment prim c (encryptSegment prim c s) = .ok s) ∧ Function.Injective (encryptSegment prim c) := by
  have hround : ∀ s, decryptSegment prim c (encryptSegment prim c s) = .ok s := fun s =>
    decryptSegment_encryptSegment h fun hobf => by rw [hmode] at hobf; cases hobf
  refine ⟨hround, fun a b hab => ?_⟩
  have hdec := congrArg (decryptSegment prim c) hab
  rw [hround, hround] at hdec
  exact Except.ok.inj hdec

/-- Parameters to evaluate the model with: the text encodings of `Infra`, and a cipher that does
nothing. -/
def plainPrimitives : NamePrimitives := ⟨base32Hex, base64URL, fun _ _ b => b, fun _ _ b => b, id⟩

theorem lawful_plainPrimitives : plainPrimitives.Lawful :=
  ⟨lawful_base32Hex, lawful_base64URL, fun _ _ _ _ => rfl, fun _ _ _ _ => rfl, fun _ _ _ _ => rfl⟩

def zeroNames (enc : FilenameEncoding) : NameCipher :=
  ⟨FixedBytes.ofBytes 32 [], FixedBytes.ofBytes 16 [], .standard, enc⟩

theorem standard_names_survive_long : decryptSegment plainPrimitives (zeroNames .base32)
      (encryptSegment plainPrimitives (zeroNames .base32) (replicate 2500 65)) = .ok (replicate 2500 65) :=
  (standard_names_survive lawful_plainPrimitives (zeroNames .base32) rfl).1 _

end Crypt
