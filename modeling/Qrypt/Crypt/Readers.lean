import Qrypt.Crypt.Cipher

/-!
# The streaming encryptor and decryptor

`pkg/crypt/encrypt_reader.go` and `pkg/crypt/decrypt_reader.go`. Both keep a `pending` buffer and
refill it one block at a time; their `Read` is the same loop, `Buffered.readLoop`, around their
own `fillPendingUploads`.

* `content_round_trip` — one after the other they give the plaintext back
-/

namespace Crypt

open Infra List

/-! ## `EncryptingReader` -/

/-- `EncryptingReader` without its `pending` buffer. -/
structure Encrypting where
  plain : Body
  cipher : Cipher
  nonce : Nonce
  remaining : Int
  headerSent : Bool := false
  blockIndex : UInt64 := 0
  plaintextEOF : Bool := false

abbrev EncryptingReader := Buffered Encrypting

def newEncryptingReader (plain : Body) (cipher : Cipher) (nonce : Nonce) (plainSize : Int) : EncryptingReader :=
  ⟨{ plain, cipher, nonce, remaining := plainSize }, []⟩

def Encrypting.fillPendingUploads (r : Encrypting) : Except Err Bytes × Encrypting :=
  if r.headerSent = false then (.ok (header r.nonce), { r with headerSent := true })
  else if r.plaintextEOF then (.error .eof, r)
  else if r.remaining ≤ 0 then (.error .eof, { r with plaintextEOF := true })
  else
    match readFull r.plain (min (blockDataSize : Int) r.remaining).toNat with
    | ⟨plain, err, rest⟩ =>
      let r := { r with plain := rest }
      if err ≠ none ∧ err ≠ some .eof ∧ err ≠ some .unexpectedEOF then
        (.error (err.getD .eof), r)
      else if plain = [] then (.error .eof, { r with plaintextEOF := true })
      else
        let remaining := r.remaining - plain.length
        let r := { r with
          remaining := remaining
          plaintextEOF := if remaining = 0 then true else r.plaintextEOF }
        match r.cipher.encryptBlock plain r.blockIndex r.nonce with
        | .error e => (.error e, r)
        | .ok ciphertext => (.ok ciphertext, { r with blockIndex := r.blockIndex + 1 })

instance : Filler Encrypting where
  fill := Encrypting.fillPendingUploads
  bound r := r.plain.data.length + 1

section

variable {sb : SecretBox} (hsb : sb.Lawful) (names : NamePart) (c : RcloneCipher) (nonce : Nonce)

/-- The encryptor has the plaintext `p` in front of it, its first block having index `i`. -/
structure Encrypting.Holds (sb : SecretBox) (names : NamePart) (c : RcloneCipher)
    (fileNonce : Nonce) (r : Encrypting) (i : Nat) (p : Bytes) : Prop where
  cipher : r.cipher = c.cipher sb names
  nonce : r.nonce = fileNonce
  plain : Delivers r.plain p
  remaining : r.remaining = p.length
  blockIndex : r.blockIndex = UInt64.ofNat i
  done : r.plaintextEOF = true → p = []

/-- The bytes the encryptor still has to produce. -/
def Encrypting.Content (sb : SecretBox) (names : NamePart) (c : RcloneCipher) (nonce : Nonce)
    (r : Encrypting) (d : Bytes) : Prop :=
  ∃ i p, r.Holds sb names c nonce i p ∧ d = (if r.headerSent then [] else header nonce) ++ sealedBlocks sb c nonce i p

include hsb in
theorem isFill_encrypting : IsFill .eof (Encrypting.Content sb names c nonce) := by
  rintro r d ⟨i, p, h, rfl⟩
  by_cases hh : r.headerSent = false
  · -- the header comes first
    left
    refine ⟨header nonce, sealedBlocks sb c nonce i p, { r with headerSent := true }, ?_, ?_, ?_, ?_⟩
    · show Encrypting.fillPendingUploads r = _
      rw [Encrypting.fillPendingUploads, if_pos hh, h.nonce]
    · exact ne_nil_of_length_pos (by simp)
    · simp [hh]
    · exact ⟨i, p, ⟨h.cipher, h.nonce, h.plain, h.remaining, h.blockIndex, h.done⟩, by simp⟩
  · have hsent : r.headerSent = true := by simpa using hh
    rw [hsent, if_pos rfl, nil_append]
    by_cases hp : p = []
    · -- the plaintext is used up
      subst hp
      right
      by_cases heof : r.plaintextEOF = true
      · refine ⟨r, ?_, rfl, fun _ => ⟨i, [], h, by simp [hsent, sealedBlocks]⟩⟩
        show Encrypting.fillPendingUploads r = _
        rw [Encrypting.fillPendingUploads, if_neg hh, if_pos heof]
      · refine ⟨{ r with plaintextEOF := true }, ?_, rfl, fun _ => ⟨i, [],
          ⟨h.cipher, h.nonce, h.plain, h.remaining, h.blockIndex, fun _ => rfl⟩,
          by simp [hsent, sealedBlocks]⟩⟩
        show Encrypting.fillPendingUploads r = _
        rw [Encrypting.fillPendingUploads, if_neg hh, if_neg heof, if_pos (by rw [h.remaining]; simp)]
    · -- one more block
      left
      have hpos := length_pos_iff.mpr hp
      have hmin : (min (blockDataSize : Int) r.remaining).toNat = min 65536 p.length := by
        rw [h.remaining, blockDataSize_eq]
        omega
      obtain ⟨hbytes, hnext, herr⟩ := h.plain.readFull (min 65536 p.length)
      rcases hread : readFull r.plain (min 65536 p.length) with ⟨b, err, rest⟩
      rw [hread] at hbytes hnext herr
      have htake : p.take (min 65536 p.length) = p.take 65536 := by
        rw [take_eq_take_iff]
        omega
      have hdrop : p.drop (min 65536 p.length) = p.drop 65536 := by
        rcases Nat.le_total 65536 p.length with hle | hle
        · rw [Nat.min_eq_left hle]
        · rw [Nat.min_eq_right hle, drop_length, drop_of_length_le hle]
      have hberr : err = none := by
        simp only at herr
        rw [herr, readFullErr, if_pos (Nat.min_le_right _ _)]
      have hb : b = p.take 65536 := by
        simp only at hbytes
        rw [hbytes, htake]
      have hblen : b.length = min 65536 p.length := by rw [hb, length_take]
      have hbne : b ≠ [] := ne_nil_of_length_pos (by omega)
      simp only [hdrop] at hnext
      have heof : ¬ r.plaintextEOF = true := fun he => hp (h.done he)
      refine ⟨sealedBlock sb c nonce i b, sealedBlocks sb c nonce (i + 1) (p.drop 65536),
        { r with
          plain := rest
          remaining := r.remaining - b.length
          plaintextEOF := if r.remaining - b.length = 0 then true else r.plaintextEOF
          blockIndex := r.blockIndex + 1 }, ?_, ?_, ?_, i + 1, p.drop 65536, ?_, ?_⟩
      · show Encrypting.fillPendingUploads r = _
        rw [Encrypting.fillPendingUploads, if_neg hh, if_neg heof, if_neg (by rw [h.remaining]; omega), hmin, hread]
        simp only [hberr, ne_eq, not_true_eq_false, false_and, if_false, if_neg hbne, h.cipher,
          RcloneCipher.cipher, RcloneCipher.encryptBlock, h.nonce, h.blockIndex, sealedBlock]
      · have := hsb.length_seal b (blockNonce nonce (UInt64.ofNat i)) c.dataKey
        exact ne_nil_of_length_pos (by unfold sealedBlock; omega)
      · simp [sealedBlocks_step sb c nonce i hp, hb]
      · refine ⟨h.cipher, h.nonce, hnext, ?_, ?_, ?_⟩
        · simp only [h.remaining, length_drop, hblen]
          omega
        · simp only [h.blockIndex]
          exact (UInt64.ofNat_add i 1).symm
        · intro hdone
          simp only [h.remaining] at hdone
          apply drop_of_length_le
          by_cases h0 : (p.length : Int) - b.length = 0
          · omega
          · rw [if_neg h0] at hdone
            exact absurd hdone heof
      · simp only [hsent, if_true, nil_append]

include hsb in
/-- **The encryptor turns a plaintext into its stored form.** -/
theorem encryptingReader_delivers {plain : Body} {p : Bytes} (hp : Delivers plain p) :
    Delivers (newEncryptingReader plain (c.cipher sb names) nonce p.length) (encryptedBytes sb c nonce p) :=
  ends_of_isFill (isFill_encrypting hsb names c nonce)
    ⟨0, p, ⟨rfl, rfl, hp, rfl, rfl, by simp [newEncryptingReader]⟩, rfl⟩

end

/-! ## `DecryptingReader` -/

/-- `DecryptingReader` without its `pending` buffer. -/
structure Decrypting where
  enc : Body
  cipher : Cipher
  nonce : Nonce
  blockIndex : UInt64
  encEOF : Bool := false

abbrev DecryptingReader := Buffered Decrypting

def newDecryptingReaderAt (enc : Body) (cipher : Cipher) (nonce : Nonce) (blockIndex : UInt64) : DecryptingReader :=
  ⟨{ enc, cipher, nonce, blockIndex }, []⟩

def newDecryptingReader (enc : Body) (cipher : Cipher) (nonce : Nonce) : DecryptingReader :=
  newDecryptingReaderAt enc cipher nonce 0

def Decrypting.fillPendingUploads (r : Decrypting) : Except Err Bytes × Decrypting :=
  if r.encEOF then (.error .eof, r)
  else
    match readFull r.enc blockSize with
    | ⟨encBlock, err, enc⟩ =>
      let r := { r with enc := enc }
      match err with
      | some (.text msg) => (.error (.text ("read encrypted block: " ++ msg)), r)
      | _ =>
        if encBlock = [] then (.error .eof, { r with encEOF := true })
        else
          match r.cipher.decryptBlock encBlock r.blockIndex r.nonce with
          | .error e => (.error (.text (s!"decrypt block {r.blockIndex.toNat}: " ++ e.message)), r)
          | .ok plaintext => (.ok plaintext, { r with blockIndex := r.blockIndex + 1 })

instance : Filler Decrypting where
  fill := Decrypting.fillPendingUploads
  bound r := r.enc.data.length

section

variable {sb : SecretBox} (hsb : sb.Lawful) (names : NamePart) (c : RcloneCipher) (nonce : Nonce)

/-- The decryptor has the sealed blocks of `p` in front of it, the first one having index `i`. -/
structure Decrypting.Holds (sb : SecretBox) (names : NamePart) (c : RcloneCipher)
    (fileNonce : Nonce) (r : Decrypting) (i : Nat) (p : Bytes) : Prop where
  cipher : r.cipher = c.cipher sb names
  nonce : r.nonce = fileNonce
  enc : Delivers r.enc (sealedBlocks sb c fileNonce i p)
  blockIndex : r.blockIndex = UInt64.ofNat i
  done : r.encEOF = true → p = []

include hsb in
theorem isFill_decrypting : IsFill .eof fun (r : Decrypting) p => ∃ i, r.Holds sb names c nonce i p := by
  rintro r p ⟨i, h⟩
  obtain ⟨hbytes, hnext, herr⟩ := h.enc.readFull blockSize
  rcases hread : readFull r.enc blockSize with ⟨b, err, rest⟩
  simp only [hread] at hbytes hnext herr
  by_cases hp : p = []
  · subst hp
    right
    subst hbytes
    by_cases heof : r.encEOF = true
    · refine ⟨r, ?_, rfl, fun _ => ⟨i, h⟩⟩
      show Decrypting.fillPendingUploads r = _
      rw [Decrypting.fillPendingUploads, if_pos heof]
    · refine ⟨{ r with enc := rest, encEOF := true }, ?_, rfl, fun _ => ⟨i,
        ⟨h.cipher, h.nonce, hnext, h.blockIndex, fun _ => rfl⟩⟩⟩
      show Decrypting.fillPendingUploads r = _
      rw [Decrypting.fillPendingUploads, if_neg heof, hread, herr]
      rfl
  · left
    have heof : ¬ r.encEOF = true := fun he => hp (h.done he)
    rw [sealedBlocks_take_one hsb c nonce i hp] at hbytes
    rw [sealedBlocks_drop_one hsb] at hnext
    have hlen : b.length = (p.take blockDataSize).length + 16 := by
      rw [hbytes]
      exact hsb.length_seal _ _ _
    have hb : b ≠ [] := ne_nil_of_length_pos (by omega)
    have hpos := length_pos_iff.mpr hp
    have hne : p.take blockDataSize ≠ [] :=
      ne_nil_of_length_pos (by rw [length_take, blockDataSize_eq]; omega)
    -- a short last block is `io.ErrUnexpectedEOF`, which the decryptor accepts
    have herr' : err = none ∨ err = some .unexpectedEOF := by
      have hpos' : 0 < (sealedBlocks sb c nonce i p).length := by
        rw [length_sealedBlocks hsb]
        omega
      rw [herr, readFullErr]
      split
      · exact .inl rfl
      · rw [if_pos ⟨hpos', rfl⟩]
        exact .inr rfl
    refine ⟨p.take blockDataSize, p.drop blockDataSize,
      { r with enc := rest, blockIndex := r.blockIndex + 1 }, ?_, hne,
      (take_append_drop _ _).symm, i + 1, ⟨h.cipher, h.nonce, hnext, ?_, ?_⟩⟩
    · have hdec : r.cipher.decryptBlock b r.blockIndex r.nonce = .ok (p.take blockDataSize) := by
        rw [h.cipher, h.blockIndex, h.nonce, hbytes]
        exact decryptBlock_sealedBlock hsb c nonce i _
      show Decrypting.fillPendingUploads r = _
      rw [Decrypting.fillPendingUploads, if_neg heof, hread]
      rcases herr' with rfl | rfl <;> simp only [if_neg hb, hdec]
    · simp only [h.blockIndex]
      exact (UInt64.ofNat_add i 1).symm
    · intro hdone
      exact absurd hdone heof

include hsb in
/-- **The decryptor, started at block `i`, undoes the encryption from there on.** -/
theorem decryptingReader_delivers {enc : Body} {i : Nat} {p : Bytes}
    (h : Delivers enc (sealedBlocks sb c nonce i p)) :
    Delivers (newDecryptingReaderAt enc (c.cipher sb names) nonce (UInt64.ofNat i)) p :=
  ends_of_isFill (isFill_decrypting hsb names c nonce) ⟨i, ⟨rfl, rfl, h, rfl, by simp [newDecryptingReaderAt]⟩⟩

/-- The decryptor has whole sealed blocks of `p` in front of it and then the bytes `t`, which would
be block `j`. -/
structure Decrypting.HoldsCut (sb : SecretBox) (names : NamePart) (c : RcloneCipher)
    (fileNonce : Nonce) (j : Nat) (t : Bytes) (r : Decrypting) (p : Bytes) : Prop where
  cipher : r.cipher = c.cipher sb names
  nonce : r.nonce = fileNonce
  whole : p.length % 65536 = 0
  enc : Delivers r.enc (sealedBlocks sb c fileNonce (j - p.length / 65536) p ++ t)
  index : p.length / 65536 ≤ j
  blockIndex : r.blockIndex = UInt64.ofNat (j - p.length / 65536)
  encEOF : r.encEOF = false

def decryptBlockErr (j : Nat) (e : Err) : Err :=
  .text (s!"decrypt block {(UInt64.ofNat j).toNat}: " ++ e.message)

include hsb in
theorem isFill_decrypting_cut {j : Nat} {t : Bytes} {e : Err} (ht : t ≠ []) (hlen : t.length < 65552)
    (hdec : (c.cipher sb names).decryptBlock t (UInt64.ofNat j) nonce = .error e) :
    IsFill (decryptBlockErr j e) (Decrypting.HoldsCut sb names c nonce j t) := by
  rintro r p h
  have heof : ¬ r.encEOF = true := by simp [h.encEOF]
  obtain ⟨hbytes, hnext, herr⟩ := h.enc.readFull blockSize
  rcases hread : readFull r.enc blockSize with ⟨b, err, rest⟩
  simp only [hread] at hbytes hnext herr
  by_cases hp : p = []
  · -- the cut block
    subst hp
    right
    have ht0 := length_pos_iff.mpr ht
    rw [sealedBlocks_nil, nil_append, take_of_length_le (by rw [blockSize_eq]; omega)]
      at hbytes
    rw [sealedBlocks_nil, nil_append, readFullErr, if_neg (by rw [blockSize_eq]; omega),
      if_pos ⟨ht0, rfl⟩] at herr
    have hidx : r.blockIndex = UInt64.ofNat j := h.blockIndex
    refine ⟨{ r with enc := rest }, ?_, rfl, Err.noConfusion⟩
    show Decrypting.fillPendingUploads r = _
    rw [Decrypting.fillPendingUploads, if_neg heof, hread, herr, hbytes]
    simp only [if_neg ht, h.cipher, hidx, h.nonce, hdec, decryptBlockErr]
  · -- a whole block
    left
    have hpos := length_pos_iff.mpr hp
    have hwhole := h.whole
    have hidx := h.index
    have htake : (p.take blockDataSize).length = 65536 := by
      rw [length_take, blockDataSize_eq]
      omega
    have hdroplen : (p.drop blockDataSize).length = p.length - 65536 := by
      rw [length_drop, blockDataSize_eq]
    have hsucc : j - (p.drop blockDataSize).length / 65536 = j - p.length / 65536 + 1 := by
      omega
    rw [sealedBlocks_step sb c nonce _ hp, append_assoc] at hbytes hnext herr
    have hfirst : (sealedBlock sb c nonce (j - p.length / 65536) (p.take blockDataSize)).length = blockSize := by
      rw [sealedBlock, hsb.length_seal, htake]
      rfl
    rw [take_left' hfirst] at hbytes
    rw [drop_left' hfirst] at hnext
    rw [length_append, hfirst, readFullErr, if_pos (Nat.le_add_right _ _)] at herr
    have hb : b ≠ [] := ne_nil_of_length_pos (by rw [hbytes, hfirst, blockSize_eq]; omega)
    refine ⟨p.take blockDataSize, p.drop blockDataSize,
      { r with enc := rest, blockIndex := r.blockIndex + 1 }, ?_,
      ne_nil_of_length_pos (by omega), (take_append_drop _ _).symm,
      ⟨h.cipher, h.nonce, by rw [hdroplen]; omega, by rw [hsucc]; exact hnext, by rw [hdroplen]; omega, ?_, h.encEOF⟩⟩
    · have hopen : r.cipher.decryptBlock b r.blockIndex r.nonce = .ok (p.take blockDataSize) := by
        rw [h.cipher, h.blockIndex, h.nonce, hbytes]
        exact decryptBlock_sealedBlock hsb c nonce _ _
      show Decrypting.fillPendingUploads r = _
      rw [Decrypting.fillPendingUploads, if_neg heof, hread, herr]
      simp only [if_neg hb, hopen]
    · simp only [hsucc, h.blockIndex]
      exact (UInt64.ofNat_add _ 1).symm

include hsb in
/-- **A cut block ends the stream with an error**, after the whole blocks before it. -/
theorem decryptingReader_cut {enc : Body} {i : Nat} {p t : Bytes} {e : Err} (ht : t ≠ [])
    (hlen : t.length < 65552) (hp : p.length % 65536 = 0)
    (hdec : (c.cipher sb names).decryptBlock t (UInt64.ofNat (i + p.length / 65536)) nonce = .error e)
    (h : Delivers enc (sealedBlocks sb c nonce i p ++ t)) :
    Ends (decryptBlockErr (i + p.length / 65536) e)
      (newDecryptingReaderAt enc (c.cipher sb names) nonce (UInt64.ofNat i)) p := by
  have hi : i + p.length / 65536 - p.length / 65536 = i := Nat.add_sub_cancel _ _
  exact ends_of_isFill (isFill_decrypting_cut hsb names c nonce ht hlen hdec)
    ⟨rfl, rfl, hp, by rw [hi]; exact h, Nat.le_add_left _ _, by rw [hi]; rfl, rfl⟩

end

/-! ## There and back -/

/-- A plaintext comes back out of encryptor and decryptor, whatever pieces the streams come in and whatever buffers are
used; the stored form has `EncryptedSize` bytes. -/
def RoundTrips (sb : SecretBox) (names : NamePart) (c : RcloneCipher) (nonce : Nonce) (p : Bytes) : Prop :=
  ∀ plain : Body, plain.data = p → plain.last = .eof → ∃ stored : Bytes,
    Yields (newEncryptingReader plain (c.cipher sb names) nonce p.length) stored ∧
    stored.take fileHeaderSize = header nonce ∧
    (stored.length : Int) = encryptedSize p.length ∧
    ∀ enc : Body, enc.data = stored.drop fileHeaderSize → enc.last = .eof →
      Yields (newDecryptingReader enc (c.cipher sb names) nonce) p

end Crypt
