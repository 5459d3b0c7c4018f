import Qrypt.Crypt.Driver

/-!
# Ranged reads through the encrypting driver

What `Driver.Read` gives for a stored object, against two kinds of raw drivers: one that serves any
range of the object, and one that clamps the range to the size in the entry it is handed, as the
WebDAV and SFTP drivers do.

The range arithmetic is `int64`, so `encryptedRange` is settled first.
-/

namespace Crypt

open Infra Drive List

/-! ## The encrypted range -/

def firstBlock (offset : Nat) : Nat := offset / 65536

def blockCount (offset size : Nat) : Nat := (offset % 65536 + size + 65535) / 65536

def rangeStart (offset : Nat) : Nat := 32 + firstBlock offset * 65552

/-- Offsets below this have an `int64` position in the stored object. -/
def maxOffset : Nat := ((2 ^ 63 - 33) / 65552 + 1) * 65536

/-- Up to this many bytes from the start of a block, the encrypted length is an `int64`. -/
def maxNeeded : Nat := (2 ^ 63 - 1) / 65552 * 65536

theorem rangeStart_lt {offset : Nat} : offset < maxOffset ↔ rangeStart offset < 2 ^ 63 := by
  unfold maxOffset rangeStart firstBlock
  omega

theorem blockCount_lt {offset size : Nat} :
    offset % 65536 + size ≤ maxNeeded ↔ blockCount offset size * 65552 < 2 ^ 63 := by
  unfold maxNeeded blockCount
  omega

/-- The range starts behind the stored object when its first block starts behind the plaintext. -/
theorem storedSize_le_rangeStart {n offset : Nat} :
    storedSize n ≤ rangeStart offset ↔ n ≤ firstBlock offset * 65536 := by
  rw [storedSize_eq]
  unfold rangeStart
  omega

section Range

variable {n offset size : Nat} (ho : offset < 2 ^ 63) (hs : size < 2 ^ 63) (h0 : 0 < size)

/-- The encrypted size before it is clamped to the end of the object. -/
def encSize (offset size : Nat) : Int :=
  wrap64 ((wrap64 (wrap64 ((offset % 65536 : Nat) + size) + blockDataSize - 1)).tdiv blockDataSize * blockSize)

theorem fits64_encSize (offset size : Nat) : Fits64 (encSize offset size) := fits64_wrap64 _

include ho h0 in
/-- `encryptedRange` in terms of the names above. -/
theorem encryptedRange_eq (cp : Cipher) : Driver.encryptedRange cp n offset size = if (n : Int) > 0 then
          if wrap64 (rangeStart offset) ≥ cp.encryptedSize n then none
          else if wrap64 (wrap64 (rangeStart offset) + encSize offset size) > cp.encryptedSize n then
            some (wrap64 (rangeStart offset), wrap64 (cp.encryptedSize n - wrap64 (rangeStart offset)))
          else some (wrap64 (rangeStart offset), encSize offset size)
        else some (wrap64 (rangeStart offset), encSize offset size) := by
  have hdiv : (offset : Int).tdiv blockDataSize = (offset / 65536 : Nat) := by
    rw [Int.tdiv_eq_ediv_of_nonneg (by omega)]
    rfl
  have hmod : (offset : Int).tmod blockDataSize = (offset % 65536 : Nat) := by
    rw [Int.tmod_eq_emod_of_nonneg (by omega)]
    rfl
  have hstart : wrap64 (fileHeaderSize + wrap64 ((offset / 65536 : Nat) * blockSize))
      = wrap64 (rangeStart offset) := by
    rw [fileHeaderSize_eq, blockSize_eq]
    unfold rangeStart firstBlock wrap64
    omega
  have hsize : (size : Int) > 0 := by omega
  unfold Driver.encryptedRange
  simp only [hdiv, hmod, hstart, if_pos hsize]
  rfl

theorem encSize_eq (h : offset % 65536 + size + 65535 < 2 ^ 63) :
    encSize offset size = wrap64 ((blockCount offset size : Nat) * 65552) := by
  have h1 : wrap64 ((offset % 65536 : Nat) + size : Int) = (offset % 65536 + size : Nat) := by
    rw [wrap64_eq]
    · omega
    · unfold Fits64
      omega
  have h2 : wrap64 ((offset % 65536 + size : Nat) + blockDataSize - 1) = (offset % 65536 + size + 65535 : Nat) := by
    rw [blockDataSize_eq, wrap64_eq]
    · omega
    · unfold Fits64
      omega
  have h3 : ((offset % 65536 + size + 65535 : Nat) : Int).tdiv blockDataSize = (blockCount offset size : Nat) := by
    rw [Int.tdiv_eq_ediv_of_nonneg (by omega)]
    rfl
  rw [encSize, h1, h2, h3, blockSize_eq]
  rfl

/-- The encrypted size is right as long as it is an `int64`. -/
theorem encSize_of_le (h : offset % 65536 + size ≤ maxNeeded) :
    encSize offset size = (blockCount offset size * 65552 : Nat) := by
  have hlt := blockCount_lt.mp h
  rw [encSize_eq (by unfold maxNeeded at h; omega), wrap64_eq]
  · omega
  · unfold Fits64
    omega

/-- Past that it is negative, until the rounding up to whole blocks overflows too. -/
theorem encSize_neg (h : maxNeeded < offset % 65536 + size)
    (h' : offset % 65536 + size + 65535 < 2 ^ 63) : encSize offset size < 0 := by
  have hlt : ¬ blockCount offset size * 65552 < 2 ^ 63 :=
    fun hlt => Nat.not_le.mpr h (blockCount_lt.mpr hlt)
  have hle : blockCount offset size ≤ 2 ^ 47 := by
    unfold blockCount
    omega
  rw [encSize_eq h', wrap64_of_overflow] <;> omega

include hs in
theorem encSize_pos_of_wrap (h : 2 ^ 63 ≤ offset % 65536 + size + 65535) : 0 < encSize offset size := by
  have h1 : wrap64 (wrap64 ((offset % 65536 : Nat) + size : Int) + blockDataSize - 1)
      = (offset % 65536 + size + 65535 : Nat) - 2 ^ 64 := by
    rw [blockDataSize_eq]
    unfold wrap64
    omega
  have h2 : (((offset % 65536 + size + 65535 : Nat) - 2 ^ 64 : Int)).tdiv blockDataSize
      = -((2 ^ 64 - (offset % 65536 + size + 65535)) / 65536 : Nat) := by
    have hneg : ((offset % 65536 + size + 65535 : Nat) - 2 ^ 64 : Int)
        = -((2 ^ 64 - (offset % 65536 + size + 65535) : Nat) : Int) := by omega
    rw [hneg, Int.neg_tdiv, Int.tdiv_eq_ediv_of_nonneg (by omega)]
    rfl
  have hlo : 2 ^ 47 - 3 ≤ (2 ^ 64 - (offset % 65536 + size + 65535)) / 65536 := by omega
  have hhi : (2 ^ 64 - (offset % 65536 + size + 65535)) / 65536 ≤ 2 ^ 47 := by omega
  rw [encSize, h1, h2, blockSize_eq]
  generalize (2 ^ 64 - (offset % 65536 + size + 65535)) / 65536 = c at hlo hhi
  rw [wrap64_of_underflow] <;> omega

/-! ### The cases of `encryptedRange` -/

/-- The encrypted size is positive: it is an `int64`, or it has wrapped twice. -/
def SizeOk (offset size : Nat) : Prop :=
  offset % 65536 + size ≤ maxNeeded ∨ 2 ^ 63 ≤ offset % 65536 + size + 65535

instance (offset size : Nat) : Decidable (SizeOk offset size) := inferInstanceAs (Decidable (_ ∨ _))

include hs h0 in
theorem encSize_pos_iff : 0 < encSize offset size ↔ SizeOk offset size := by
  by_cases h1 : offset % 65536 + size ≤ maxNeeded
  · refine ⟨fun _ => .inl h1, fun _ => ?_⟩
    rw [encSize_of_le h1]
    unfold blockCount
    omega
  · by_cases h2 : 2 ^ 63 ≤ offset % 65536 + size + 65535
    · exact ⟨fun _ => .inr h2, fun _ => encSize_pos_of_wrap hs h2⟩
    · have hneg := encSize_neg (Nat.not_le.mp h1) (Nat.not_le.mp h2)
      refine ⟨fun h => by omega, fun h => ?_⟩
      rcases h with h | h
      · exact absurd h h1
      · exact absurd h h2

theorem encSize_neg_of_not_sizeOk (h : ¬ SizeOk offset size) : encSize offset size < 0 := by
  unfold SizeOk at h
  rw [not_or] at h
  exact encSize_neg (Nat.not_le.mp h.1) (Nat.not_le.mp h.2)

variable (sb : SecretBox) (names : NamePart) (c : RcloneCipher) (hn : Fits64 (storedSize n))

include ho h0 hn in
theorem encryptedRange_none (hoff : offset < maxOffset) (hpos : 0 < n) (hend : n ≤ firstBlock offset * 65536) :
    Driver.encryptedRange (c.cipher sb names) n offset size = none := by
  have hlt := rangeStart_lt.mp hoff
  have hle := storedSize_le_rangeStart.mpr hend
  rw [encryptedRange_eq ho h0, if_pos (by omega), if_pos]
  rw [RcloneCipher.cipher_encryptedSize, encryptedSize_of_fits hn, wrap64_eq]
  · omega
  · unfold Fits64
    omega

/-- Clamping to the end of the object: `s` is the start of the range, `t` the end of the object, `z` the size before.
The clamp applies only when the sum does not wrap. -/
theorem clamp_cases {s t : Nat} {z : Int} (hst : s < t) (ht : (t : Int) < 2 ^ 63) (hz : Fits64 z) :
    ∃ es : Int, (if wrap64 ((s : Int) + z) > t then some ((s : Int), wrap64 ((t : Int) - s))
        else some ((s : Int), z)) = some ((s : Int), es) ∧
      (0 < es ↔ 0 < z) ∧ (es < 0 ↔ z < 0) ∧ (es = z ∨ (es = (t : Int) - s ∧ es < z)) := by
  by_cases hclamp : wrap64 ((s : Int) + z) > t
  · rw [if_pos hclamp, wrap64_eq (by unfold Fits64; omega)]
    have hlt : (t : Int) - s < z := by
      unfold Fits64 at hz
      unfold wrap64 at hclamp
      omega
    exact ⟨_, rfl, by omega, by omega, .inr ⟨rfl, hlt⟩⟩
  · rw [if_neg hclamp]
    exact ⟨z, rfl, Iff.rfl, Iff.rfl, .inl rfl⟩

include ho hs h0 hn in
/-- The range starts inside the object, or the size of the object is not known. -/
theorem encryptedRange_some (hoff : offset < maxOffset) (hin : n = 0 ∨ firstBlock offset * 65536 < n) :
    ∃ es : Int, Driver.encryptedRange (c.cipher sb names) n offset size = some ((rangeStart offset : Int), es) ∧
      (0 < es ↔ SizeOk offset size) ∧ (es < 0 ↔ ¬ SizeOk offset size) ∧
      (es = encSize offset size ∨ (0 < n ∧ es = (storedSize n : Int) - rangeStart offset ∧
        es < encSize offset size)) := by
  have hlt := rangeStart_lt.mp hoff
  have hstart : wrap64 (rangeStart offset) = rangeStart offset := by
    rw [wrap64_eq]
    unfold Fits64
    omega
  have hpos : 0 < encSize offset size ↔ SizeOk offset size := encSize_pos_iff hs h0
  have hneg : encSize offset size < 0 ↔ ¬ SizeOk offset size :=
    ⟨fun h hok => absurd (hpos.mpr hok) (Int.not_lt.mpr (Int.le_of_lt h)), encSize_neg_of_not_sizeOk⟩
  rw [encryptedRange_eq ho h0, hstart]
  by_cases h0n : n = 0
  · rw [if_neg (by omega)]
    exact ⟨_, rfl, hpos, hneg, .inl rfl⟩
  · have hin' : rangeStart offset < storedSize n := by
      refine Nat.not_le.mp fun hle => ?_
      have := storedSize_le_rangeStart.mp hle
      omega
    have htot : (c.cipher sb names).encryptedSize n = storedSize n := by
      rw [RcloneCipher.cipher_encryptedSize, encryptedSize_of_fits hn]
    obtain ⟨es, hes, h1, h2, h3⟩ := clamp_cases hin' hn.2 (fits64_encSize offset size)
    rw [if_pos (by omega), htot, if_neg (Int.not_le.mpr (Int.ofNat_lt.mpr hin'))]
    exact ⟨es, hes, h1.trans hpos, h2.trans hneg, h3.imp_right fun h => ⟨by omega, h⟩⟩

include ho h0 hn in
/-- The position of the range is not an `int64`: the offset that is asked for is negative. -/
theorem encryptedRange_overflow (hoff : maxOffset ≤ offset) :
    ∃ eo es, Driver.encryptedRange (c.cipher sb names) n offset size = some (eo, es) ∧ eo < 0 := by
  have hge : 2 ^ 63 ≤ rangeStart offset := by
    have := @rangeStart_lt offset
    omega
  have hstart : wrap64 (rangeStart offset) < 0 := by
    have hle : rangeStart offset < 2 ^ 63 + 2 ^ 63 := by
      unfold rangeStart firstBlock
      omega
    rw [wrap64_of_overflow] <;> omega
  rw [encryptedRange_eq ho h0]
  split
  · have htot : (c.cipher sb names).encryptedSize n = storedSize n := by
      rw [RcloneCipher.cipher_encryptedSize, encryptedSize_of_fits hn]
    rw [htot, if_neg (by omega)]
    split <;> exact ⟨_, _, rfl, hstart⟩
  · exact ⟨_, _, rfl, hstart⟩

end Range

/-! ## The bytes of the encrypted range -/

section Slices

variable {sb : SecretBox} (hsb : sb.Lawful) (c : RcloneCipher) (nonce : Nonce)

include hsb in
/-- From the start of block `i` on, the stored object holds the blocks of the rest. -/
theorem encryptedBytes_dropBlocks (i : Nat) (p : Bytes) : (encryptedBytes sb c nonce p).drop (32 + i * 65552)
      = sealedBlocks sb c nonce i (p.drop (i * 65536)) := by
  rw [encryptedBytes, drop_append, length_header,
    drop_of_length_le (by rw [length_header]; omega), nil_append, Nat.add_sub_cancel_left]
  have h := sealedBlocks_drop hsb c nonce 0 i p
  rwa [Nat.zero_add] at h

include hsb in
/-- A cut inside the blocks: some whole blocks, and a proper prefix of the next one. -/
theorem sealedBlocks_cut (i cut : Nat) (q : Bytes) (hcut : cut < (sealedBlocks sb c nonce i q).length) :
    ∃ t : Bytes, (sealedBlocks sb c nonce i q).take cut
        = sealedBlocks sb c nonce i (q.take (cut / 65552 * 65536)) ++ t ∧
      t.length = cut % 65552 ∧ cut / 65552 * 65536 < q.length ∧
      t <+: sealedBlock sb c nonce (i + cut / 65552) (plainBlock q (cut / 65552)) ∧
      t ≠ sealedBlock sb c nonce (i + cut / 65552) (plainBlock q (cut / 65552)) := by
  have hsplit : cut = cut / 65552 * blockSize + cut % 65552 := by
    rw [blockSize_eq]
    omega
  have hlen := length_sealedBlocks hsb c nonce i q
  have hin : cut / 65552 * 65536 < q.length := by omega
  have hne : q.drop (cut / 65552 * 65536) ≠ [] :=
    ne_nil_of_length_pos (by rw [length_drop]; omega)
  have hrest := sealedBlocks_drop hsb c nonce i (cut / 65552) q
  rw [show cut / 65552 * blockDataSize = cut / 65552 * 65536 from rfl] at hrest
  have hblock := sealedBlocks_take_one hsb c nonce (i + cut / 65552) hne
  rw [show (q.drop (cut / 65552 * 65536)).take blockDataSize = plainBlock q (cut / 65552) from rfl]
    at hblock
  have htlen : ((sealedBlocks sb c nonce (i + cut / 65552) (q.drop (cut / 65552 * 65536))).take
      (cut % 65552)).length = cut % 65552 := by
    rw [length_take, length_sealedBlocks hsb, length_drop]
    omega
  refine ⟨(sealedBlocks sb c nonce (i + cut / 65552) (q.drop (cut / 65552 * 65536))).take
    (cut % 65552), ?_, htlen, hin, ?_, ?_⟩
  · have htake := sealedBlocks_take hsb c nonce i (cut / 65552) q
    rw [show cut / 65552 * blockDataSize = cut / 65552 * 65536 from rfl] at htake
    rw [← htake, ← hrest, ← take_add, ← hsplit]
  · rw [← hblock]
    exact take_prefix_take_left (by rw [blockSize_eq]; omega)
  · -- it is shorter
    intro h
    have hl := congrArg length h
    rw [htlen, sealedBlock, hsb.length_seal, plainBlock, length_take, length_drop,
      blockDataSize_eq, blockHeaderSize_eq] at hl
    omega

end Slices

/-! ## Streams over the decryptor -/

/-- The stream of a range: what the decryptor hands out, without the first `bo` bytes, at most `size`. An error shows
when it comes before the end of the range. -/
theorem rangeStream_ends {e : Err} {r : DecryptingReader} {q : Bytes} (h : Ends e r q)
    (bo : Nat) {size : Nat} (hsize : 0 < size)
    (he : e = .eof ∨ ((0 < bo → bo ≠ q.length) ∧ (q.drop bo).length < size)) :
    Ends e (Driver.rangeStream r bo size) ((q.drop bo).take size) := by
  have hs : (size : Int) > 0 := by omega
  by_cases hbo : 0 < bo
  · have hskip := ends_discardPrefix h bo (he.symm.imp_left fun he => he.1 hbo)
    have hlimit := hskip.limit size (he.imp_right fun he => he.2)
    unfold Driver.rangeStream
    rw [if_pos (by omega), if_pos hs, Int.toNat_natCast, Int.toNat_natCast]
    exact hlimit.map ReadStream.limitSkip fun _ _ => rfl
  · obtain rfl : bo = 0 := by omega
    have hlimit := h.limit size (he.imp_right fun he => by simpa using he.2)
    unfold Driver.rangeStream
    rw [if_neg (by omega), if_pos hs, Int.toNat_natCast, drop_zero]
    exact hlimit.map ReadStream.limit fun _ _ => rfl

/-! ## Raw drivers -/

section Driver

variable {σ : Type}

/-- The raw driver serves the bytes of a stored object: a read of `n` bytes at `off` gives those of the first `clamp off
n` bytes there that exist, in any pieces; a negative offset or size is refused. -/
structure Serves (clamp : Int → Int → Int) (raw : Drive.Driver σ) (backend : σ) (entry : Entry)
    (stored : Bytes) : Prop where
  fits : Fits64 stored.length
  range : ∀ off n : Int, 0 ≤ off → 0 < n → ∃ body : Body, raw.read backend entry off n = .ok body ∧
    body.last = .eof ∧ body.data = (stored.drop off.toNat).take (clamp off n).toNat
  reject : ∀ off n : Int, off < 0 ∨ n < 0 → ∃ e, raw.read backend entry off n = .error e

/-- A read without a size gives the whole object. -/
def ServesWhole (raw : Drive.Driver σ) (backend : σ) (entry : Entry) (stored : Bytes) : Prop :=
  ∃ body : Body, raw.read backend entry 0 0 = .ok body ∧ body.last = .eof ∧ body.data = stored

/-- Reading the entry at `offset` gives a stream that yields `x`. -/
def ReadsAs (d : Driver σ) (entry : Entry) (offset size : Int) (x : Bytes) : Prop :=
  ∃ s d', d.read entry offset size = (.ok s, d') ∧ Yields s x

variable {d : Driver σ} {entry : Entry} {sb : SecretBox} (hsb : sb.Lawful) {names : NamePart}
  {c : RcloneCipher} {nonce : Nonce} {p : Bytes} {clamp : Int → Int → Int} {x : Bytes} {e : Err} {d' : Driver σ}
  {rc : Body} {offset size : Nat} {es : Int}

theorem not_readsAs_of_error {offset size : Int}
    (h : d.read entry offset size = (.error e, d')) : ¬ ReadsAs d entry offset size x := by
  rintro ⟨s, d'', hread, -⟩
  simp [h] at hread

/-- `readHeader` of a stream that starts with a header. -/
theorem readHeader_of_delivers {rest : Bytes} (h : Delivers rc (header nonce ++ rest)) :
    ∃ rc', Driver.readHeader rc = (.ok nonce, rc') ∧ Delivers rc' rest := by
  obtain ⟨hbytes, hnext, herr⟩ := h.readFull fileHeaderSize
  rcases hread : readFull rc fileHeaderSize with ⟨b, err, rc'⟩
  simp only [hread] at hbytes hnext herr
  have hlen : (header nonce).length = fileHeaderSize := length_header nonce
  rw [take_left' hlen] at hbytes
  rw [drop_left' hlen] at hnext
  rw [readFullErr, if_pos (by rw [length_append, hlen]; exact Nat.le_add_right _ _)] at herr
  refine ⟨rc', ?_, hnext⟩
  rw [Driver.readHeader, hread, herr, hbytes]
  simp only [parseHeader_header]

theorem readHeader_short {b : Bytes} (h : Delivers rc b) (hb : b.length < 32) :
    ∃ e rc', Driver.readHeader rc = (.error e, rc') := by
  obtain ⟨-, -, herr⟩ := h.readFull fileHeaderSize
  rcases hread : readFull rc fileHeaderSize with ⟨b', err, rc'⟩
  simp only [hread] at herr
  rw [readFullErr, if_neg (by rw [fileHeaderSize_eq]; omega)] at herr
  rw [Driver.readHeader, hread, herr]
  split
  · exact ⟨_, _, rfl⟩
  · next hr => split at hr <;> cases hr

/-- `fileNonce` finds the nonce: in the cache, or in a header that was served whole. -/
theorem fileNonce_ok (hserve : Serves clamp d.raw d.backend entry (encryptedBytes sb c nonce p))
    (hcache : ∀ n, d.nonceCache entry.id = some n → n = nonce)
    (hhead : d.nonceCache entry.id ≠ none ∨ 32 ≤ clamp 0 32) :
    ∃ d', d.fileNonce entry = (.ok nonce, d') ∧ d'.raw = d.raw ∧ d'.backend = d.backend ∧ d'.cp = d.cp := by
  unfold Driver.fileNonce
  rcases hc : d.nonceCache entry.id with _ | n
  · obtain ⟨body, hread, hlast, hdata⟩ := hserve.range 0 32 (by omega) (by omega)
    have hclamp := hhead.resolve_left (fun h => h hc)
    have hb : Delivers body (header nonce ++ ((sealedBlocks sb c nonce 0 p).take ((clamp 0 32).toNat - 32))) := by
      have := Body.delivers hlast
      rw [hdata] at this
      rwa [Int.toNat_zero, drop_zero, encryptedBytes, take_append, length_header,
        take_of_length_le (by rw [length_header]; omega)] at this
    obtain ⟨rc', hhdr, -⟩ := readHeader_of_delivers hb
    simp only [show ((fileHeaderSize : Nat) : Int) = 32 from rfl, hread, hhdr]
    exact ⟨_, rfl, rfl, rfl, rfl⟩
  · rw [hcache n hc]
    exact ⟨d, rfl, rfl, rfl, rfl⟩

/-- `fileNonce` fails when it has to read a header that is cut off. -/
theorem fileNonce_error (hserve : Serves clamp d.raw d.backend entry (encryptedBytes sb c nonce p))
    (hcache : d.nonceCache entry.id = none) (hhead : clamp 0 32 < 32) : ∃ e, d.fileNonce entry = (.error e, d) := by
  obtain ⟨body, hread, hlast, hdata⟩ := hserve.range 0 32 (by omega) (by omega)
  have hb := Body.delivers hlast
  obtain ⟨e, rc', hhdr⟩ := readHeader_short hb (by
    rw [hdata, length_take]
    omega)
  unfold Driver.fileNonce
  simp only [hcache, show ((fileHeaderSize : Nat) : Int) = 32 from rfl, hread, hhdr]
  exact ⟨e, rfl⟩

theorem read_error_of_fileNonce (hsize : 0 < size)
    (h : d.fileNonce entry = (.error e, d)) : d.read entry offset size = (.error e, d) := by
  unfold Driver.read
  rw [if_neg (by omega), if_neg (by omega), h]

/-- `Driver.Read` once the nonce is known. -/
theorem read_eq (hsize : 0 < offset ∨ 0 < size) (h : d.fileNonce entry = (.ok nonce, d')) (hraw : d'.raw = d.raw)
    (hbackend : d'.backend = d.backend) (hcp : d'.cp = d.cp) :
    d.read entry offset size =
      match Driver.encryptedRange d.cp entry.size offset size with
      | none => (.ok .empty, d')
      | some (encOffset, encSize) =>
        match d.raw.read d.backend entry encOffset encSize with
        | .error e => (.error e, d')
        | .ok rc => (.ok (Driver.rangeStream (newDecryptingReaderAt rc d.cp nonce
            (UInt64.ofNat (firstBlock offset))) (offset % 65536 : Nat) size), d') := by
  have hdiv : ((offset : Int).tdiv blockDataSize).toNat = firstBlock offset := by
    rw [Int.tdiv_eq_ediv_of_nonneg (by omega)]
    rfl
  have hmod : (offset : Int).tmod blockDataSize = (offset % 65536 : Nat) := by
    rw [Int.tmod_eq_emod_of_nonneg (by omega)]
    rfl
  unfold Driver.read
  rw [if_neg (by omega), if_neg (by omega), h]
  cases hrange : Driver.encryptedRange d.cp entry.size offset size with
  | none => simp only [hcp, hrange]
  | some r =>
    obtain ⟨encOffset, encSize⟩ := r
    cases hread : d.raw.read d.backend entry encOffset encSize with
    | error e => simp only [hcp, hrange, hraw, hbackend, hread]
    | ok rc => simp only [hcp, hrange, hraw, hbackend, hread, hdiv, hmod]

/-! ## A raw driver that serves any range -/

/-- The encrypted range is served as a body with the blocks of the plaintext that the range touches. -/
theorem range_data (hes : es = encSize offset size ∨
      es = (storedSize p.length : Int) - rangeStart offset ∧ es < encSize offset size)
    (hfit : offset % 65536 + size ≤ maxNeeded) (hsb : sb.Lawful) :
    ((encryptedBytes sb c nonce p).drop (rangeStart offset)).take es.toNat
      = sealedBlocks sb c nonce (firstBlock offset)
          ((p.drop (firstBlock offset * 65536)).take (blockCount offset size * 65536)) := by
  have htake : ((encryptedBytes sb c nonce p).drop (rangeStart offset)).take es.toNat
      = ((encryptedBytes sb c nonce p).drop (rangeStart offset)).take (blockCount offset size * 65552) := by
    rw [encSize_of_le hfit] at hes
    rcases hes with rfl | ⟨rfl, hlt⟩
    · rw [Int.toNat_natCast]
    · -- the clamped range is all that is left of the object
      rw [take_of_length_le, take_of_length_le] <;>
        rw [length_drop, length_encryptedBytes hsb] <;> omega
  rw [htake, rangeStart, encryptedBytes_dropBlocks hsb]
  exact sealedBlocks_take hsb c nonce _ (blockCount offset size) _

/-- Of the blocks of a range, without the prefix and cut at `size`, the plaintext range is left. -/
theorem range_slice (p : Bytes) (offset size : Nat) :
    ((((p.drop (firstBlock offset * 65536)).take (blockCount offset size * 65536)).drop
      (offset % 65536)).take size) = (p.drop offset).take size := by
  have hoff : firstBlock offset * 65536 + offset % 65536 = offset := by
    unfold firstBlock
    omega
  have hcount : offset % 65536 + size ≤ blockCount offset size * 65536 := by
    unfold blockCount
    omega
  rw [drop_take, drop_drop, hoff, take_take, Nat.min_eq_left (by omega)]

/-- The encrypted form of the range has `int64` position and size, or it lies behind the end of the object. -/
def RangeFits (n offset size : Nat) : Prop :=
  offset < maxOffset ∧ ((0 < n ∧ n ≤ offset / 65536 * 65536) ∨ offset % 65536 + size ≤ maxNeeded)

instance (n offset size : Nat) : Decidable (RangeFits n offset size) :=
  inferInstanceAs (Decidable (_ ∧ _))

theorem drop_eq_nil_of_firstBlock (h : p.length ≤ firstBlock offset * 65536) (size : Nat) :
    (p.drop offset).take size = [] := by
  rw [drop_of_length_le, take_nil]
  unfold firstBlock at h
  omega

include hsb in
theorem readsAs_of_range (hcp : d.cp = c.cipher sb names)
    {body : Body} (h0 : 0 < size) (hfit : offset % 65536 + size ≤ maxNeeded)
    (hread : d.read entry offset size = (.ok (Driver.rangeStream (newDecryptingReaderAt body d.cp
      nonce (UInt64.ofNat (firstBlock offset))) (offset % 65536 : Nat) size), d'))
    (hes : es = encSize offset size ∨ es = (storedSize p.length : Int) - rangeStart offset ∧ es < encSize offset size)
    (hlast : body.last = .eof)
    (hdata : body.data = ((encryptedBytes sb c nonce p).drop (rangeStart offset)).take es.toNat) :
    ReadsAs d entry offset size ((p.drop offset).take size) := by
  rw [range_data hes hfit hsb] at hdata
  have hdec := decryptingReader_delivers hsb names c nonce (hdata ▸ Body.delivers hlast)
  refine ⟨_, _, hread, ?_⟩
  rw [← range_slice, hcp]
  exact Delivers.yields (rangeStream_ends hdec _ h0 (.inl rfl))

include hsb in
theorem readsAs_of_rangeFits (hcp : d.cp = c.cipher sb names)
    (hserve : Serves (fun _ n => n) d.raw d.backend entry (encryptedBytes sb c nonce p))
    (hentry : entry.size = p.length)
    (hcache : ∀ n, d.nonceCache entry.id = some n → n = nonce)
    (ho : offset < 2 ^ 63) (hs : size < 2 ^ 63) (h0 : 0 < size)
    (hfit : RangeFits p.length offset size) : ReadsAs d entry offset size ((p.drop offset).take size) := by
  have hn : Fits64 (storedSize p.length) := length_encryptedBytes hsb c nonce p ▸ hserve.fits
  obtain ⟨d', hnonce, hraw, hbackend, hcp'⟩ := fileNonce_ok hserve hcache (.inr (Int.le_refl _))
  have hread : d.read entry offset size = _ := read_eq (.inr h0) hnonce hraw hbackend hcp'
  by_cases hend : 0 < p.length ∧ p.length ≤ firstBlock offset * 65536
  · rw [hcp, hentry, encryptedRange_none ho h0 sb names c hn hfit.1 hend.1 hend.2] at hread
    refine ⟨_, _, hread, ?_⟩
    rw [drop_eq_nil_of_firstBlock hend.2]
    exact Delivers.yields delivers_empty
  · have hsize : offset % 65536 + size ≤ maxNeeded := hfit.2.resolve_left hend
    obtain ⟨es, hrange, hpos, -, hes⟩ :=
      encryptedRange_some ho hs h0 sb names c hn hfit.1 (by omega)
    obtain ⟨body, hbody, hlast, hdata⟩ :=
      hserve.range (rangeStart offset) es (by omega) (hpos.mpr (.inl hsize))
    rw [← hcp, ← hentry] at hrange
    rw [hrange] at hread
    simp only [hbody] at hread
    exact readsAs_of_range hsb hcp h0 hsize hread (hes.imp_right fun h => h.2) hlast hdata

/-- The raw driver serves what the streaming encryptor yields for `p`, and the nonce is not cached or cached right. -/
structure StoredUnder (clamp : Int → Int → Int) (sb : SecretBox) (names : NamePart)
    (c : RcloneCipher) (nonce : Nonce) (p : Bytes) (d : Driver σ) (entry : Entry)
    (stored : Bytes) : Prop where
  lawful : sb.Lawful
  cipher : d.cp = c.cipher sb names
  encrypted : ∃ plain : Body, plain.data = p ∧ plain.last = .eof ∧
    Yields (newEncryptingReader plain (c.cipher sb names) nonce p.length) stored
  serves : Serves clamp d.raw d.backend entry stored
  cache : ∀ n, d.nonceCache entry.id = some n → n = nonce

theorem StoredUnder.stored_eq {stored : Bytes} (h : StoredUnder clamp sb names c nonce p d entry stored) :
    stored = encryptedBytes sb c nonce p := by
  obtain ⟨plain, hdata, hlast, hy⟩ := h.encrypted
  have hplain : Delivers plain p := hdata ▸ Body.delivers hlast
  exact hy.unique (encryptingReader_delivers h.lawful names c nonce hplain).yields

theorem readsAs_whole (hsb : sb.Lawful) (hcp : d.cp = c.cipher sb names)
    (hwhole : ServesWhole d.raw d.backend entry (encryptedBytes sb c nonce p)) : ReadsAs d entry 0 0 p := by
  obtain ⟨body, hbody, hlast, hdata⟩ := hwhole
  have hb := Body.delivers hlast
  rw [hdata, encryptedBytes] at hb
  obtain ⟨rc, hhdr, hrc⟩ := readHeader_of_delivers hb
  have hdec := decryptingReader_delivers hsb names c nonce hrc
  refine ⟨.plain (newDecryptingReader rc d.cp nonce), d.storeNonce entry.id nonce, ?_, ?_⟩
  · rw [Driver.read, if_neg (by omega), if_pos ⟨rfl, rfl⟩, Driver.readAll, hbody]
    simp only [hhdr]
  · rw [hcp]
    exact Delivers.yields (hdec.map ReadStream.plain fun _ _ => rfl)

theorem rangeFits_of_readsAs (h : StoredUnder (fun _ n => n) sb names c nonce p d entry
      (encryptedBytes sb c nonce p)) (hentry : entry.size = p.length)
    (h0 : 0 < size) (hb : offset + size + 65535 < 2 ^ 63)
    (hreads : ReadsAs d entry offset size x) : RangeFits p.length offset size := by
  have hn : Fits64 (storedSize p.length) :=
    length_encryptedBytes h.lawful c nonce p ▸ h.serves.fits
  obtain ⟨d', hnonce, hraw, hbackend, hcp'⟩ := fileNonce_ok h.serves h.cache (.inr (Int.le_refl _))
  have hread : d.read entry offset size = _ := read_eq (.inr h0) hnonce hraw hbackend hcp'
  rw [h.cipher, hentry] at hread
  -- whatever range is refused, the read fails
  have refused : ∀ eo es : Int, Driver.encryptedRange (c.cipher sb names) p.length offset size
      = some (eo, es) → eo < 0 ∨ es < 0 → False := by
    intro eo es hrange hneg
    obtain ⟨e, he⟩ := h.serves.reject eo es hneg
    rw [hrange] at hread
    simp only [he] at hread
    exact not_readsAs_of_error hread hreads
  have hoff : offset < maxOffset := by
    refine Nat.not_le.mp fun hle => ?_
    obtain ⟨eo, es, hrange, hneg⟩ :=
      encryptedRange_overflow (by omega) h0 sb names c hn hle
    exact refused eo es hrange (.inl hneg)
  refine ⟨hoff, ?_⟩
  by_cases hend : 0 < p.length ∧ p.length ≤ offset / 65536 * 65536
  · exact .inl hend
  · right
    obtain ⟨es, hrange, -, hneg, -⟩ :=
      encryptedRange_some (by omega) (by omega) h0 sb names c hn hoff (by unfold firstBlock; omega)
    refine Nat.not_lt.mp fun hlt => refused _ es hrange (.inr (hneg.mpr ?_))
    unfold SizeOk
    omega

end Driver

/-! ### A raw driver to evaluate the model with -/

def fileEntry (size : Int) : Entry := ⟨ascii "f", [], ascii "f", false, size, none⟩

/-- A backend with one object, served under every id; `clamp` shortens reads. -/
def objectDriver (clamp : Entry → Int → Int → Int) (stored : Bytes) : Drive.Driver Unit where
  list _ _ := .ok [fileEntry stored.length]
  read _ entry off n :=
    if off < 0 ∨ n < 0 then .error (.text "invalid read range")
    else if n = 0 then .ok ⟨stored.drop off.toNat, [], false, .eof⟩
    else .ok ⟨(stored.drop off.toNat).take (clamp entry off n).toNat, [], false, .eof⟩
  mkdir _ _ _ := (.error (.text "read only"), ())
  move _ _ _ := (.error (.text "read only"), ())
  rename _ _ _ := (.error (.text "read only"), ())
  remove _ _ := (some (.text "read only"), ())
  putSource _ _ := (.error (.text "read only"), ())
  requiredUploadHashes := []

theorem serves_objectDriver (clamp : Entry → Int → Int → Int) (entry : Entry) {stored : Bytes}
    (h : Fits64 stored.length) :
    Serves (clamp entry) (objectDriver clamp stored) () entry stored where
  fits := h
  range off n hoff hn := ⟨_, by
    simp only [objectDriver]
    rw [if_neg (by omega), if_neg (by omega)], rfl, rfl⟩
  reject off n hneg := ⟨_, by
    simp only [objectDriver]
    rw [if_pos hneg]⟩

theorem servesWhole_objectDriver (clamp : Entry → Int → Int → Int) (entry : Entry) (stored : Bytes) :
    ServesWhole (objectDriver clamp stored) () entry stored :=
  ⟨_, rfl, rfl, rfl⟩

/-- A fresh driver over a backend that holds `p`. -/
def objectStore (clamp : Entry → Int → Int → Int) (p : Bytes) : Driver Unit :=
  Driver.new (objectDriver clamp (encryptedBytes lengthBox zeroCipher zeroNonce p)) ()
    (zeroCipher.cipher lengthBox plainNames) false

theorem storedUnder_objectStore (clamp : Entry → Int → Int → Int) (entry : Entry) {p : Bytes}
    (hp : Fits64 (storedSize p.length)) :
    StoredUnder (clamp entry) lengthBox plainNames zeroCipher zeroNonce p
      (objectStore clamp p) entry (encryptedBytes lengthBox zeroCipher zeroNonce p) where
  lawful := lawful_lengthBox
  cipher := rfl
  encrypted := ⟨⟨p, [], false, .eof⟩, rfl, rfl, (encryptingReader_delivers lawful_lengthBox plainNames
    zeroCipher zeroNonce (Body.delivers (b := ⟨p, [], false, .eof⟩) rfl)).yields⟩
  serves := serves_objectDriver clamp _ (by rwa [length_encryptedBytes lawful_lengthBox zeroCipher zeroNonce p])
  cache := nofun

end Crypt
