import Qrypt.Crypt.ReadRange

/-!
# Open-ended reads through the encrypting driver

A size of zero asks a driver for everything from the offset on. At offset zero `Driver.Read` takes
the path for whole files; at any other offset its window is one block, that of a read of what is left of
the block. `open_read_iff` says when that is the rest of the file.
-/

namespace Crypt

open Infra Drive List

def blockRest (offset : Nat) : Nat := 65536 - offset % 65536

theorem blockRest_pos (offset : Nat) : 0 < blockRest offset := by
  unfold blockRest
  omega

theorem blockCount_blockRest (offset : Nat) : blockCount offset (blockRest offset) = 1 := by
  unfold blockCount blockRest
  omega

theorem blockRest_fits (offset : Nat) : offset % 65536 + blockRest offset ≤ maxNeeded := by
  unfold blockRest maxNeeded
  omega

/-- **Without a size the window is that of the rest of one block.** -/
theorem encryptedRange_open (cp : Cipher) (n : Int) (offset : Nat) :
    Driver.encryptedRange cp n offset 0 = Driver.encryptedRange cp n offset (blockRest offset) := by
  have hmod : (offset : Int).tmod blockDataSize = (offset % 65536 : Nat) := by
    rfl
  have hpos : (blockRest offset : Int) > 0 := Int.natCast_pos.mpr (blockRest_pos offset)
  have hsize : wrap64 ((wrap64 (wrap64 ((offset % 65536 : Nat) + (blockRest offset : Int))
      + blockDataSize - 1)).tdiv blockDataSize * blockSize) = blockSize := by
    have h := encSize_of_le (blockRest_fits offset)
    rwa [blockCount_blockRest] at h
  unfold Driver.encryptedRange
  simp only [hmod, if_pos hpos, hsize]
  rfl

/-- The stream without a limit: what the decryptor hands out, without the first `bo` bytes. -/
theorem rangeStream_open {r : DecryptingReader} {q : Bytes} (h : Delivers r q) (bo : Nat) :
    Delivers (Driver.rangeStream r bo 0) (q.drop bo) := by
  unfold Driver.rangeStream
  by_cases hbo : 0 < bo
  · rw [if_pos (by omega), if_neg (by omega), Int.toNat_natCast]
    exact (ends_discardPrefix h bo (.inr rfl)).map ReadStream.skip fun _ _ => rfl
  · obtain rfl : bo = 0 := by omega
    exact h.map ReadStream.plain fun _ _ => rfl

section

variable {σ : Type} {d : Driver σ} {entry : Entry} {sb : SecretBox} {names : NamePart}
  {c : RcloneCipher} {nonce : Nonce} {p : Bytes}
  (h : StoredUnder (fun _ n => n) sb names c nonce p d entry (encryptedBytes sb c nonce p))
  (hentry : entry.size = p.length) {offset : Nat} (h0 : 0 < offset) (ho : offset < 2 ^ 63)

include h hentry h0 ho

/-- **An open-ended read gives the rest of the block the offset falls in.** -/
theorem readsAs_open (hoff : offset < maxOffset) :
    ReadsAs d entry offset 0 ((p.drop offset).take (blockRest offset)) := by
  have hn : Fits64 (storedSize p.length) :=
    length_encryptedBytes h.lawful c nonce p ▸ h.serves.fits
  obtain ⟨d', hnonce, hraw, hbackend, hcp'⟩ := fileNonce_ok h.serves h.cache (.inr (Int.le_refl _))
  have hread : d.read entry offset (0 : Nat) = _ := read_eq (.inl h0) hnonce hraw hbackend hcp'
  rw [Nat.cast_zero, encryptedRange_open] at hread
  have hrest := blockRest_pos offset
  by_cases hend : 0 < p.length ∧ p.length ≤ firstBlock offset * 65536
  · rw [h.cipher, hentry, encryptedRange_none ho hrest sb names c hn hoff hend.1 hend.2] at hread
    refine ⟨_, _, hread, ?_⟩
    rw [drop_eq_nil_of_firstBlock hend.2]
    exact Delivers.yields delivers_empty
  · obtain ⟨es, hrange, hpos, -, hes⟩ := encryptedRange_some ho
      (show blockRest offset < 2 ^ 63 by unfold blockRest; omega) hrest sb names c hn hoff (by omega)
    obtain ⟨body, hbody, hlast, hdata⟩ :=
      h.serves.range (rangeStart offset) es (by omega) (hpos.mpr (.inl (blockRest_fits offset)))
    rw [← h.cipher, ← hentry] at hrange
    rw [hrange] at hread
    simp only [hbody] at hread
    -- the window holds one sealed block
    rw [Int.toNat_natCast, range_data (hes.imp_right fun h => h.2) (blockRest_fits offset) h.lawful]
      at hdata
    have hdec := decryptingReader_delivers h.lawful names c nonce (hdata ▸ Body.delivers hlast)
    refine ⟨_, _, hread, ?_⟩
    have hblock : ((p.drop (firstBlock offset * 65536)).take
        (blockCount offset (blockRest offset) * 65536)).drop (offset % 65536)
          = (p.drop offset).take (blockRest offset) := by
      rw [← range_slice p offset]
      refine (take_of_length_le ?_).symm
      rw [blockCount_blockRest, length_drop, length_take]
      unfold blockRest
      omega
    rw [← hblock, h.cipher]
    exact Delivers.yields (rangeStream_open hdec _)

/-- Past the last offset with an `int64` position the raw driver refuses. -/
theorem not_readsAs_open (hoff : maxOffset ≤ offset) (x : Bytes) : ¬ ReadsAs d entry offset 0 x := by
  have hn : Fits64 (storedSize p.length) :=
    length_encryptedBytes h.lawful c nonce p ▸ h.serves.fits
  obtain ⟨d', hnonce, hraw, hbackend, hcp'⟩ := fileNonce_ok h.serves h.cache (.inr (Int.le_refl _))
  have hread : d.read entry offset (0 : Nat) = _ := read_eq (.inl h0) hnonce hraw hbackend hcp'
  rw [Nat.cast_zero, encryptedRange_open, h.cipher, hentry] at hread
  obtain ⟨eo, es, hrange, hneg⟩ :=
    encryptedRange_overflow ho (blockRest_pos offset) sb names c hn hoff
  obtain ⟨e, he⟩ := h.serves.reject eo es (.inl hneg)
  rw [hrange] at hread
  simp only [he] at hread
  exact not_readsAs_of_error hread

end

end Crypt
