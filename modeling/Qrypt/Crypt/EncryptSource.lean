import Qrypt.Crypt.Readers

/-!
# The random-access encrypted source

`pkg/crypt/encrypt_source.go`: an upload source that encrypts on the fly. Drivers read it
sequentially, at offsets, or both; one encrypted block is memoized between the calls.

The abstract file is `ByteFile`: a fixed byte string and a position. `EncryptedReadOnlyFile` refines it over the bytes
of the streaming encryptor (`run_eq`).
-/

namespace Crypt

open Infra List

/-! ## The plaintext file -/

/-- A `drive.ReadOnlyFile`, an `io.ReaderAt`: a read that ends exactly at the end may report `io.EOF` or not. -/
structure PlainFile where
  content : Bytes
  eofAtEnd : Bool

/-- `ReadAt` of the plaintext with a buffer of `n` bytes. -/
def PlainFile.readAt (f : PlainFile) (n : Nat) (off : Int) : Bytes × Option Err :=
  if off < 0 then ([], some (.text "negative offset"))
  else
    let b := (f.content.drop off.toNat).take n
    if b.length < n then (b, some .eof)
    else (b, if f.eofAtEnd ∧ off.toNat + n = f.content.length then some .eof else none)

def readFullAt (f : PlainFile) (n : Nat) (off : Int) : Except Err Bytes :=
  match f.readAt n off with
  | (b, none) => .ok b
  | (b, some e) => if e = .eof ∧ b.length = n then .ok b else .error e

theorem readFullAt_eq {f : PlainFile} {n off : Nat} (h : off + n ≤ f.content.length) :
    readFullAt f n off = .ok ((f.content.drop off).take n) := by
  have hlen : ((f.content.drop off).take n).length = n := by
    simp only [length_take, length_drop]
    omega
  unfold readFullAt PlainFile.readAt
  rw [if_neg (by omega)]
  simp only [Int.toNat_natCast]
  rw [if_neg (by omega)]
  by_cases hc : f.eofAtEnd = true ∧ off + n = f.content.length
  · simp [hc, hlen]
  · simp [hc]

/-! ## `encryptedReadOnlyFile` -/

/-- `encryptedReadOnlyFileSource`, as far as reading goes. -/
structure EncryptedSource where
  plainSize : Int
  cipher : Cipher
  nonce : Nonce

def EncryptedSource.size (s : EncryptedSource) : Int := s.cipher.encryptedSize s.plainSize

structure EncryptedReadOnlyFile where
  plain : PlainFile
  source : EncryptedSource
  size : Int
  pos : Int
  blockIndex : UInt64
  blockData : Bytes
  blockCached : Bool

/-- `encryptedReadOnlyFileSource.Open`. -/
def EncryptedSource.openFile (s : EncryptedSource) (plain : PlainFile) : EncryptedReadOnlyFile where
  plain := plain
  source := s
  size := s.size
  pos := 0
  blockIndex := 0
  blockData := []
  blockCached := false

/-- The position `Seek` moves to. Positions are `int64`, and their sum wraps. -/
def seekTarget (pos size offset whence : Int) : Except Err Int :=
  let check (next : Int) : Except Err Int :=
    if next < 0 then .error (.text "crypt: negative encrypted source position") else .ok next
  if whence = 0 then check offset
  else if whence = 1 then check (wrap64 (pos + offset))
  else if whence = 2 then check (wrap64 (size + offset))
  else .error (.text "crypt: invalid encrypted source seek whence")

theorem fits64_seekTarget {pos size offset whence next : Int} (ho : Fits64 offset)
    (h : seekTarget pos size offset whence = .ok next) : Fits64 next := by
  have check : ∀ x : Int, Fits64 x → (if x < 0 then
      Except.error (Err.text "crypt: negative encrypted source position") else .ok x) = .ok next →
      Fits64 next := by
    intro x hx h
    split at h
    · cases h
    · cases h
      exact hx
  unfold seekTarget at h
  split at h
  · exact check _ ho h
  · split at h
    · exact check _ (fits64_wrap64 _) h
    · split at h
      · exact check _ (fits64_wrap64 _) h
      · cases h

namespace EncryptedReadOnlyFile

variable (f : EncryptedReadOnlyFile)

def encryptedBlock (blockIndex : UInt64)
    (plainOffset plainBlockSize : Int) : Except Err Bytes × EncryptedReadOnlyFile :=
  if f.blockCached ∧ f.blockIndex = blockIndex then (.ok f.blockData, f)
  else
    match readFullAt f.plain plainBlockSize.toNat plainOffset with
    | .error e => (.error e, f)
    | .ok plainBlock =>
      match f.source.cipher.encryptBlock plainBlock blockIndex f.source.nonce with
      | .error e => (.error e, f)
      | .ok encBlock =>
        (.ok encBlock, { f with
          blockIndex := blockIndex
          blockData := encBlock
          blockCached := true })

def readAtNonEmpty (n : Nat) (off : Int) : ReadResult EncryptedReadOnlyFile :=
  if off < fileHeaderSize then ⟨((header f.source.nonce).drop off.toNat).take n, none, f⟩
  else
    let rel := off - fileHeaderSize
    let blockIndex := rel.tdiv blockSize
    let blockOffset := rel.tmod blockSize
    let plainOffset := wrap64 (blockIndex * blockDataSize)
    let plainSize := f.source.plainSize
    if plainOffset ≥ plainSize then ⟨[], some .eof, f⟩
    else
      let remaining := plainSize - plainOffset
      let plainBlockSize := if remaining < blockDataSize then remaining else blockDataSize
      match f.encryptedBlock (UInt64.ofNat blockIndex.toNat) plainOffset plainBlockSize with
      | (.error e, f') => ⟨[], some e, f'⟩
      | (.ok encBlock, f') =>
        if blockOffset ≥ encBlock.length then ⟨[], some .eof, f'⟩
        else ⟨(encBlock.drop blockOffset.toNat).take n, none, f'⟩

/-- The loop of `ReadAt`: `n` bytes are wanted, `acc` has been written. Every round without error writes a byte. -/
def readAtLoop : Nat → EncryptedReadOnlyFile → Nat → Int → Bytes → ReadResult EncryptedReadOnlyFile
  | 0, f, _, _, acc => ⟨acc, none, f⟩
  | fuel + 1, f, n, off, acc =>
    if n = 0 then ⟨acc, none, f⟩
    else
      match f.readAtNonEmpty n off with
      | ⟨b, some e, f'⟩ => ⟨acc ++ b, if e = .eof ∧ 0 < (acc ++ b).length then none else some e, f'⟩
      | ⟨b, none, f'⟩ => readAtLoop fuel f' (n - b.length) (off + b.length) (acc ++ b)

def readAt (n : Nat) (off : Int) : ReadResult EncryptedReadOnlyFile :=
  if off < 0 then ⟨[], some (.text "crypt: negative encrypted source offset"), f⟩
  else if n = 0 then ⟨[], none, f⟩
  else if off ≥ f.size then ⟨[], some .eof, f⟩
  else
    let n := if (n : Int) > f.size - off then (f.size - off).toNat else n
    f.readAtLoop n n off []

def read (n : Nat) : ReadResult EncryptedReadOnlyFile :=
  match f.readAt n f.pos with
  | ⟨b, err, f'⟩ =>
    ⟨b, if err = some .eof ∧ 0 < b.length then none else err, { f' with pos := wrap64 (f'.pos + b.length) }⟩

def seek (offset whence : Int) : Except Err Int × EncryptedReadOnlyFile :=
  match seekTarget f.pos f.size offset whence with
  | .error e => (.error e, f)
  | .ok next => (.ok next, { f with pos := next })

end EncryptedReadOnlyFile

instance : Reader EncryptedReadOnlyFile where
  read := EncryptedReadOnlyFile.read

/-! ## Sequences of calls -/

/-- A call on the source; buffers are given by their length. -/
inductive FileCall where
  | read (n : Nat)
  | readAt (n : Nat) (off : I64)
  | seek (offset : I64) (whence : Int)
  deriving DecidableEq, Repr

/-- What a call returns: the bytes and the error, or the new position. -/
inductive FileResult where
  | bytes (b : Bytes) (err : Option Err)
  | pos (p : Except Err Int)

def EncryptedReadOnlyFile.call (f : EncryptedReadOnlyFile) : FileCall → FileResult × EncryptedReadOnlyFile
  | .read n => (.bytes (f.read n).bytes (f.read n).err, (f.read n).next)
  | .readAt n off => (.bytes (f.readAt n off).bytes (f.readAt n off).err, (f.readAt n off).next)
  | .seek offset whence => (.pos (f.seek offset whence).1, (f.seek offset whence).2)

def EncryptedReadOnlyFile.run : EncryptedReadOnlyFile → List FileCall → List FileResult
  | _, [] => []
  | f, c :: cs => (f.call c).1 :: run (f.call c).2 cs

/-! ## The abstract file -/

/-- A byte string with a position. -/
structure ByteFile where
  content : Bytes
  pos : Int

namespace ByteFile

/-- The bytes at `off`, clipped at the end; `io.EOF` at or behind the end. -/
def readAt (f : ByteFile) (n : Nat) (off : Int) : Bytes × Option Err :=
  if off < 0 then ([], some (.text "crypt: negative encrypted source offset"))
  else if n = 0 then ([], none)
  else if f.content.length ≤ off then ([], some .eof)
  else ((f.content.drop off.toNat).take n, none)

/-- Sets the position, which is an `int64`. -/
def seek (f : ByteFile) (offset whence : Int) : Except Err Int × ByteFile :=
  match seekTarget f.pos f.content.length offset whence with
  | .error e => (.error e, f)
  | .ok next => (.ok next, { f with pos := next })

/-- One call. `Read` is `ReadAt` at the position, which it moves behind the bytes read. -/
def call (f : ByteFile) : FileCall → FileResult × ByteFile
  | .read n => (.bytes (f.readAt n f.pos).1 (f.readAt n f.pos).2,
      { f with pos := f.pos + (f.readAt n f.pos).1.length })
  | .readAt n off => (.bytes (f.readAt n off).1 (f.readAt n off).2, f)
  | .seek offset whence => (.pos (f.seek offset whence).1, (f.seek offset whence).2)

def run : ByteFile → List FileCall → List FileResult
  | _, [] => []
  | f, c :: cs => (f.call c).1 :: run (f.call c).2 cs

end ByteFile

/-! ## One block of the stored object -/

/-- The `j`-th plaintext block. -/
def plainBlock (p : Bytes) (j : Nat) : Bytes := (p.drop (j * blockDataSize)).take blockDataSize

section

variable {sb : SecretBox} (hsb : sb.Lawful) (names : NamePart) (c : RcloneCipher) (nonce : Nonce) {n rel j : Nat}

/-- The block index of an offset inside the stored object is the index of a plaintext block. -/
theorem blockIndex_lt (h : 32 + rel < storedSize n) : rel / 65552 * 65536 < n := by
  rw [storedSize_eq] at h
  omega

theorem blockOffset_lt (h : 32 + rel < storedSize n) : rel % 65552 < min 65536 (n - rel / 65552 * 65536) + 16 := by
  rw [storedSize_eq] at h
  omega

include hsb in
/-- **Behind the header, the stored object continues with the rest of the block it is in.** -/
theorem encryptedBytes_drop (p : Bytes) (h : 32 + rel < storedSize p.length) :
    (encryptedBytes sb c nonce p).drop (32 + rel)
      = (sealedBlock sb c nonce (rel / 65552) (plainBlock p (rel / 65552))).drop (rel % 65552)
        ++ sealedBlocks sb c nonce (rel / 65552 + 1) ((p.drop (rel / 65552 * blockDataSize)).drop blockDataSize) := by
  have hlt := blockIndex_lt h
  have hoff := blockOffset_lt h
  have hne : p.drop (rel / 65552 * blockDataSize) ≠ [] := by
    refine ne_nil_of_length_pos ?_
    rw [length_drop, blockDataSize_eq]
    omega
  have hlen : (sealedBlock sb c nonce (rel / 65552) (plainBlock p (rel / 65552))).length
      = min 65536 (p.length - rel / 65552 * 65536) + 16 := by
    rw [sealedBlock, hsb.length_seal, plainBlock, length_take, length_drop]
    simp only [blockDataSize_eq, blockHeaderSize_eq]
  have hsplit : rel = rel / 65552 * blockSize + rel % 65552 := by
    rw [blockSize_eq]
    omega
  calc (encryptedBytes sb c nonce p).drop (32 + rel) = (sealedBlocks sb c nonce 0 p).drop rel := by
        rw [encryptedBytes, drop_append, length_header,
          drop_of_length_le (by rw [length_header]; omega), nil_append]
        congr 1
        omega
    _ = ((sealedBlocks sb c nonce 0 p).drop (rel / 65552 * blockSize)).drop (rel % 65552) := by
        rw [drop_drop, ← hsplit]
    _ = (sealedBlocks sb c nonce (rel / 65552) (p.drop (rel / 65552 * blockDataSize))).drop (rel % 65552) := by
        rw [sealedBlocks_drop hsb, Nat.zero_add]
    _ = _ := by
        rw [sealedBlocks_step sb c nonce _ hne, drop_append_of_le_length]
        · rfl
        · exact Nat.le_of_lt (hlen ▸ hoff)

/-! ## The refinement -/

/-- The file stands for the stored object of `p`: its size is right, and the memoized block is that of its index. -/
structure Refines (sb : SecretBox) (names : NamePart) (c : RcloneCipher) (fileNonce : Nonce)
    (p : Bytes) (f : EncryptedReadOnlyFile) : Prop where
  fits : Fits64 (storedSize p.length)
  plain : f.plain.content = p
  plainSize : f.source.plainSize = p.length
  cipher : f.source.cipher = c.cipher sb names
  nonce : f.source.nonce = fileNonce
  size : f.size = storedSize p.length
  pos : Fits64 f.pos
  memo : f.blockCached = true → ∃ j, j * 65536 < p.length ∧ f.blockIndex = UInt64.ofNat j ∧
    f.blockData = sealedBlock sb c fileNonce j (plainBlock p j)

/-- Block indices of a file are told apart by their `uint64` values. -/
theorem ofNat_blockIndex_inj {i : Nat} (hn : Fits64 (storedSize n)) (hi : i * 65536 < n)
    (hj : j * 65536 < n) (h : UInt64.ofNat i = UInt64.ofNat j) : i = j := by
  have hle := add_le_storedSize n
  have hlt := hn.2
  have := congrArg UInt64.toNat h
  rw [UInt64.toNat_ofNat', UInt64.toNat_ofNat'] at this
  omega

variable {names c nonce} {p : Bytes} {f : EncryptedReadOnlyFile}

/-- `encryptedBlock` gives the block of its index, from the memo or not. -/
theorem Refines.encryptedBlock (h : Refines sb names c nonce p f) (hj : j * 65536 < p.length) :
    ∃ f', f.encryptedBlock (UInt64.ofNat j) (j * 65536 : Nat)
        (min 65536 (p.length - j * 65536) : Nat) = (.ok (sealedBlock sb c nonce j (plainBlock p j)), f') ∧
      Refines sb names c nonce p f' ∧ f'.pos = f.pos := by
  by_cases hm : f.blockCached = true ∧ f.blockIndex = UInt64.ofNat j
  · obtain ⟨i, hi, hidx, hdata⟩ := h.memo hm.1
    have hij : i = j := ofNat_blockIndex_inj h.fits hi hj (hidx.symm.trans hm.2)
    subst hij
    refine ⟨f, ?_, h, rfl⟩
    rw [EncryptedReadOnlyFile.encryptedBlock, if_pos hm, hdata]
  · have hread : readFullAt f.plain (min 65536 (p.length - j * 65536)) (j * 65536 : Nat) = .ok (plainBlock p j) := by
      rw [readFullAt_eq (by rw [h.plain]; omega), h.plain, plainBlock, blockDataSize_eq]
      congr 1
      rw [take_eq_take_iff, length_drop]
      omega
    refine ⟨{ f with
      blockIndex := UInt64.ofNat j
      blockData := sealedBlock sb c nonce j (plainBlock p j)
      blockCached := true }, ?_, ?_, rfl⟩
    · rw [EncryptedReadOnlyFile.encryptedBlock, if_neg hm, Int.toNat_natCast, hread]
      simp only [h.cipher, h.nonce, RcloneCipher.cipher, RcloneCipher.encryptBlock, sealedBlock]
    · exact ⟨h.fits, h.plain, h.plainSize, h.cipher, h.nonce, h.size, h.pos, fun _ => ⟨j, hj, rfl, rfl⟩⟩

include hsb in
/-- One round of `ReadAt`: a nonempty piece of the stored object at `off`. -/
theorem Refines.readAtNonEmpty (h : Refines sb names c nonce p f) {off : Nat} (hn : 0 < n)
    (hoff : off < storedSize p.length) :
    ∃ b f', f.readAtNonEmpty n off = ⟨b, none, f'⟩ ∧
      b <+: (encryptedBytes sb c nonce p).drop off ∧ b ≠ [] ∧ b.length ≤ n ∧
      Refines sb names c nonce p f' ∧ f'.pos = f.pos := by
  by_cases hh : off < 32
  · refine ⟨((header nonce).drop off).take n, f, ?_, ?_, ?_, length_take_le _ _, h, rfl⟩
    · rw [EncryptedReadOnlyFile.readAtNonEmpty, if_pos (by rw [fileHeaderSize_eq]; omega), h.nonce, Int.toNat_natCast]
    · rw [encryptedBytes, drop_append_of_le_length (by rw [length_header]; omega)]
      exact (List.take_prefix _ _).trans (prefix_append _ _)
    · refine ne_nil_of_length_pos ?_
      rw [length_take, length_drop, length_header]
      omega
  · obtain ⟨rel, rfl⟩ : ∃ rel, off = 32 + rel := ⟨off - 32, by omega⟩
    have hlt := blockIndex_lt hoff
    have hbo := blockOffset_lt hoff
    obtain ⟨f', hblock, hf', hpos⟩ := h.encryptedBlock hlt
    have hlen : (sealedBlock sb c nonce (rel / 65552) (plainBlock p (rel / 65552))).length
        = min 65536 (p.length - rel / 65552 * 65536) + 16 := by
      rw [sealedBlock, hsb.length_seal, plainBlock, length_take, length_drop]
      simp only [blockDataSize_eq, blockHeaderSize_eq]
    have hin : ¬ ((rel % 65552 : Nat) : Int)
        ≥ (sealedBlock sb c nonce (rel / 65552) (plainBlock p (rel / 65552))).length := by
      rw [hlen]
      exact Int.not_le.mpr (Int.ofNat_lt.mpr hbo)
    refine ⟨((sealedBlock sb c nonce (rel / 65552) (plainBlock p (rel / 65552))).drop
      (rel % 65552)).take n, f', ?_, ?_, ?_, length_take_le _ _, hf', hpos⟩
    · have hfit := h.fits
      have hle := add_le_storedSize p.length
      have hrel : ((32 + rel : Nat) : Int) - fileHeaderSize = (rel : Nat) := by
        rw [fileHeaderSize_eq]
        omega
      have hdiv : (rel : Int).tdiv blockSize = (rel / 65552 : Nat) := by
        rw [Int.tdiv_eq_ediv_of_nonneg (by omega), blockSize_eq]
        rfl
      have hmod : (rel : Int).tmod blockSize = (rel % 65552 : Nat) := by
        rw [Int.tmod_eq_emod_of_nonneg (by omega), blockSize_eq]
        rfl
      have hplain : wrap64 ((rel / 65552 : Nat) * blockDataSize : Int) = (rel / 65552 * 65536 : Nat) := by
        rw [wrap64_eq] <;> rw [blockDataSize_eq]
        · omega
        · unfold Fits64 at hfit ⊢
          omega
      have hbs : (if ((p.length : Int) - (rel / 65552 * 65536 : Nat)) < blockDataSize
          then ((p.length : Int) - (rel / 65552 * 65536 : Nat)) else blockDataSize)
          = (min 65536 (p.length - rel / 65552 * 65536) : Nat) := by
        rw [blockDataSize_eq]
        split <;> omega
      rw [EncryptedReadOnlyFile.readAtNonEmpty, if_neg (by rw [fileHeaderSize_eq]; omega)]
      dsimp only
      rw [hrel, hdiv, hmod, hplain, h.plainSize, if_neg (by omega), hbs, Int.toNat_natCast, hblock]
      dsimp only
      rw [if_neg hin, Int.toNat_natCast]
    · rw [encryptedBytes_drop hsb c nonce p hoff]
      exact (List.take_prefix _ _).trans (prefix_append _ _)
    · refine ne_nil_of_length_pos ?_
      rw [length_take, length_drop, hlen]
      omega

include hsb in
/-- The loop of `ReadAt`: `n` bytes at `off`, when there are that many. -/
theorem Refines.readAtLoop (h : Refines sb names c nonce p f) (fuel n off : Nat) (acc : Bytes)
    (hf : n ≤ fuel) (hn : off + n ≤ storedSize p.length) :
    ∃ f', f.readAtLoop fuel n off acc = ⟨acc ++ ((encryptedBytes sb c nonce p).drop off).take n, none, f'⟩ ∧
      Refines sb names c nonce p f' ∧ f'.pos = f.pos := by
  induction fuel generalizing f n off acc with
  | zero =>
    obtain rfl : n = 0 := by omega
    exact ⟨f, by simp [EncryptedReadOnlyFile.readAtLoop], h, rfl⟩
  | succ fuel ih =>
    by_cases h0 : n = 0
    · subst h0
      exact ⟨f, by simp [EncryptedReadOnlyFile.readAtLoop], h, rfl⟩
    · have hoff : off < storedSize p.length := by omega
      obtain ⟨b, f₁, hround, ⟨rest, hb⟩, hne, hlen, h₁, hpos₁⟩ :=
        h.readAtNonEmpty hsb (Nat.pos_of_ne_zero h0) hoff
      have hbpos := length_pos_iff.mpr hne
      obtain ⟨f₂, hloop, h₂, hpos₂⟩ :=
        ih h₁ (n - b.length) (off + b.length) (acc ++ b) (by omega) (by omega)
      refine ⟨f₂, ?_, h₂, hpos₂.trans hpos₁⟩
      have hrest : (encryptedBytes sb c nonce p).drop (off + b.length) = rest := by
        rw [← drop_drop, ← hb, drop_left]
      rw [EncryptedReadOnlyFile.readAtLoop, if_neg h0, hround]
      show f₁.readAtLoop fuel (n - b.length) ((off + b.length : Nat) : Int) (acc ++ b) = _
      rw [hloop, hrest, ← hb, take_append, take_of_length_le hlen, append_assoc]

include hsb in
theorem Refines.readAt (h : Refines sb names c nonce p f) (n : Nat) (off pos : Int) :
    ∃ f', f.readAt n off = ⟨((ByteFile.mk (encryptedBytes sb c nonce p) pos).readAt n off).1,
        ((ByteFile.mk (encryptedBytes sb c nonce p) pos).readAt n off).2, f'⟩ ∧
      Refines sb names c nonce p f' ∧ f'.pos = f.pos := by
  unfold EncryptedReadOnlyFile.readAt ByteFile.readAt
  rw [length_encryptedBytes hsb, h.size]
  by_cases hneg : off < 0
  · exact ⟨f, by rw [if_pos hneg, if_pos hneg], h, rfl⟩
  · rw [if_neg hneg, if_neg hneg]
    by_cases h0 : n = 0
    · exact ⟨f, by rw [if_pos h0, if_pos h0], h, rfl⟩
    · rw [if_neg h0, if_neg h0]
      by_cases hend : (storedSize p.length : Int) ≤ off
      · exact ⟨f, by rw [if_pos hend, if_pos hend], h, rfl⟩
      · rw [if_neg hend, if_neg hend]
        obtain ⟨o, rfl⟩ := Int.eq_ofNat_of_zero_le (Int.not_lt.mp hneg)
        -- the buffer is cut at the end of the object, and so is the slice
        have hclip : (if (n : Int) > (storedSize p.length : Int) - o
            then ((storedSize p.length : Int) - o).toNat else n)
            = min n (storedSize p.length - o) := by
          split <;> omega
        rw [hclip]
        obtain ⟨f', hloop, hf', hpos⟩ :=
          h.readAtLoop hsb (min n (storedSize p.length - o)) (min n (storedSize p.length - o)) o []
            (Nat.le_refl _) (by omega)
        refine ⟨f', ?_, hf', hpos⟩
        rw [hloop, nil_append, Int.toNat_natCast]
        congr 1
        rw [take_eq_take_iff, length_drop, length_encryptedBytes hsb]
        omega

include hsb in
theorem Refines.read (h : Refines sb names c nonce p f) (n : Nat) :
    ∃ f', f.read n = ⟨((ByteFile.mk (encryptedBytes sb c nonce p) f.pos).readAt n f.pos).1,
        ((ByteFile.mk (encryptedBytes sb c nonce p) f.pos).readAt n f.pos).2, f'⟩ ∧
      Refines sb names c nonce p f' ∧
      f'.pos = f.pos + ((ByteFile.mk (encryptedBytes sb c nonce p) f.pos).readAt n f.pos).1.length := by
  obtain ⟨f₁, hread, h₁, hpos₁⟩ := h.readAt hsb n f.pos f.pos
  generalize hr : (ByteFile.mk (encryptedBytes sb c nonce p) f.pos).readAt n f.pos = r at hread ⊢
  -- bytes come without an error, and only from inside the object
  have hr' : (0 < r.1.length → r.2 = none) ∧
      (0 < r.1.length → 0 ≤ f.pos ∧ f.pos + r.1.length ≤ storedSize p.length) := by
    rw [← hr]
    unfold ByteFile.readAt
    rw [length_encryptedBytes hsb]
    split
    · simp
    · split
      · simp
      · split
        · simp
        · refine ⟨fun _ => rfl, fun _ => ?_⟩
          simp only [length_take, length_drop, length_encryptedBytes hsb]
          omega
  have hfit : Fits64 (f.pos + r.1.length) := by
    have h1 := h.pos
    have h2 := h.fits.2
    have h3 := hr'.2
    unfold Fits64 at h1 ⊢
    omega
  have herr : (if r.2 = some .eof ∧ 0 < r.1.length then none else r.2) = r.2 := by
    split
    · next hc => rw [hr'.1 hc.2]
    · rfl
  refine ⟨{ f₁ with pos := f.pos + r.1.length }, ?_, ?_, rfl⟩
  · rw [EncryptedReadOnlyFile.read, hread]
    simp only [herr, hpos₁, wrap64_eq hfit]
  · exact ⟨h₁.fits, h₁.plain, h₁.plainSize, h₁.cipher, h₁.nonce, h₁.size, hfit, h₁.memo⟩

include hsb in
theorem Refines.seek (h : Refines sb names c nonce p f) (offset : I64) (whence : Int) : (f.seek offset whence).1
        = ((ByteFile.mk (encryptedBytes sb c nonce p) f.pos).seek offset whence).1 ∧
      ((ByteFile.mk (encryptedBytes sb c nonce p) f.pos).seek offset whence).2
        = ⟨encryptedBytes sb c nonce p, (f.seek offset whence).2.pos⟩ ∧
      Refines sb names c nonce p (f.seek offset whence).2 := by
  unfold EncryptedReadOnlyFile.seek ByteFile.seek
  rw [length_encryptedBytes hsb, ← h.size]
  rcases hs : seekTarget f.pos f.size offset whence with e | next
  · exact ⟨rfl, rfl, h⟩
  · exact ⟨rfl, rfl, h.fits, h.plain, h.plainSize, h.cipher, h.nonce, h.size, fits64_seekTarget offset.2 hs, h.memo⟩

include hsb in
/-- **One call gives the result of the abstract file and keeps the refinement.** -/
theorem Refines.call (h : Refines sb names c nonce p f) (op : FileCall) :
    (f.call op).1 = ((ByteFile.mk (encryptedBytes sb c nonce p) f.pos).call op).1 ∧
      ((ByteFile.mk (encryptedBytes sb c nonce p) f.pos).call op).2
        = ⟨encryptedBytes sb c nonce p, (f.call op).2.pos⟩ ∧
      Refines sb names c nonce p (f.call op).2 := by
  cases op with
  | read n =>
    obtain ⟨f', hread, hf', hpos⟩ := h.read hsb n
    simp only [EncryptedReadOnlyFile.call, ByteFile.call, hread]
    exact ⟨trivial, by rw [hpos], hf'⟩
  | readAt n off =>
    obtain ⟨f', hread, hf', hpos⟩ := h.readAt hsb n off f.pos
    simp only [EncryptedReadOnlyFile.call, ByteFile.call, hread]
    exact ⟨trivial, by rw [hpos], hf'⟩
  | seek offset whence =>
    obtain ⟨h1, h2, h3⟩ := h.seek hsb offset whence
    simp only [EncryptedReadOnlyFile.call, ByteFile.call]
    exact ⟨by rw [h1], h2, h3⟩

include hsb in
/-- The results of any sequence of calls are those of the abstract file. -/
theorem Refines.run_eq (h : Refines sb names c nonce p f) (ops : List FileCall) :
    f.run ops = (ByteFile.mk (encryptedBytes sb c nonce p) f.pos).run ops := by
  induction ops generalizing f with
  | nil => rfl
  | cons op ops ih =>
    obtain ⟨h1, h2, h3⟩ := h.call hsb op
    rw [EncryptedReadOnlyFile.run, ByteFile.run, h1, h2, ih h3]

theorem refines_openFile (names : NamePart) (c : RcloneCipher) (nonce : Nonce) (p : Bytes)
    (eofAtEnd : Bool) (h : Fits64 (storedSize p.length)) :
    Refines sb names c nonce p ((EncryptedSource.mk p.length (c.cipher sb names) nonce).openFile ⟨p, eofAtEnd⟩) :=
  ⟨h, rfl, rfl, rfl, rfl, encryptedSize_of_fits h, (by decide : Fits64 0), nofun⟩

end

/-! ## The source and the streaming encryptor -/

/-- The random-access source of `p` agrees with the streaming encryptor: every sequence of calls reads what the encryptor
yields, in whatever pieces `p` comes. -/
def SourceMatchesStream (sb : SecretBox) (names : NamePart) (c : RcloneCipher) (nonce : Nonce) (p : Bytes) : Prop :=
  ∃ e : Bytes,
    (∀ plain : Body, plain.data = p → plain.last = .eof →
      Yields (newEncryptingReader plain (c.cipher sb names) nonce p.length) e) ∧
    (e.length : Int) = encryptedSize p.length ∧
    ∀ (eofAtEnd : Bool) (ops : List FileCall),
      ((EncryptedSource.mk p.length (c.cipher sb names) nonce).openFile ⟨p, eofAtEnd⟩).run ops
        = (ByteFile.mk e 0).run ops

/-- A plaintext of `2^63 - 1` zeros: its length is an `int64`, its stored size is not. -/
def longestPlaintext : Bytes := replicate (2 ^ 63 - 1) 0

end Crypt
