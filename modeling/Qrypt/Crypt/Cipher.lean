import Qrypt.Infra.Reader

/-!
# The rclone-compatible cipher

`pkg/crypt/rclone_cipher.go`: the file format (magic, file nonce, sealed blocks), the nonce of a
block, and the size arithmetic, which is done in `int64`.

`secretbox` is not part of the repository; it is a parameter (`SecretBox`), and what is used of
it is `SecretBox.Lawful`.

The encrypted form of a plaintext is `encryptedBytes`: the header and then the sealed blocks.
-/

namespace Crypt

open Infra List

/-! ## File format -/

def fileMagic : Bytes := ascii "RCLONE" ++ [0, 0]

def fileMagicSize : Nat := 8

def fileNonceSize : Nat := 24

def fileHeaderSize : Nat := fileMagicSize + fileNonceSize

def blockHeaderSize : Nat := 16

def blockDataSize : Nat := 64 * 1024

def blockSize : Nat := blockHeaderSize + blockDataSize

theorem fileMagic_length : fileMagic.length = fileMagicSize := rfl

@[simp] theorem fileHeaderSize_eq : fileHeaderSize = 32 := rfl

@[simp] theorem blockDataSize_eq : blockDataSize = 65536 := rfl

@[simp] theorem blockHeaderSize_eq : blockHeaderSize = 16 := rfl

@[simp] theorem blockSize_eq : blockSize = 65552 := rfl

/-- `[FileNonceSize]byte`. -/
abbrev Nonce := FixedBytes fileNonceSize

/-- The bytes in front of the blocks: `FileMagic` and the file nonce. -/
def header (nonce : Nonce) : Bytes := fileMagic ++ nonce.bytes

@[simp] theorem length_header (nonce : Nonce) : (header nonce).length = 32 := by
  rw [header, length_append, nonce.size]
  rfl

/-- Reads the nonce back from the first `FileHeaderSize` bytes of an object. -/
def parseHeader (h : Bytes) : Except Err Nonce :=
  if h.take fileMagicSize = fileMagic then .ok (FixedBytes.ofBytes _ (h.drop fileMagicSize))
  else .error (.text "crypt: invalid rclone file header")

theorem parseHeader_header (nonce : Nonce) : parseHeader (header nonce) = .ok nonce := by
  have htake : (header nonce).take fileMagicSize = fileMagic := take_left' fileMagic_length
  have hdrop : (header nonce).drop fileMagicSize = nonce.bytes :=
    drop_left' fileMagic_length
  rw [parseHeader, if_pos htake, hdrop, FixedBytes.ofBytes_bytes]

/-! ## Blocks -/

/-- `golang.org/x/crypto/nacl/secretbox`: `Seal(nil, m, nonce, key)` and `Open(nil, box, nonce, key)`. -/
structure SecretBox where
  sealBox : Bytes → Nonce → FixedBytes 32 → Bytes
  openBox : Bytes → Nonce → FixedBytes 32 → Option Bytes

/-- What `secretbox` promises: `Open` undoes `Seal`, and `Seal` adds `Overhead` bytes. -/
structure SecretBox.Lawful (sb : SecretBox) : Prop where
  open_seal : ∀ m nonce key, sb.openBox (sb.sealBox m nonce key) nonce key = some m
  length_seal : ∀ m nonce key, (sb.sealBox m nonce key).length = m.length + blockHeaderSize

def lengthTag (n : Nat) : Bytes := (range 16).map fun i => UInt8.ofNat (n / 256 ^ i % 256)

/-- A `SecretBox` to evaluate the model with: the message with its length in front. -/
def lengthBox : SecretBox where
  sealBox m _ _ := lengthTag m.length ++ m
  openBox b _ _ :=
    if b.take 16 = lengthTag (b.length - 16) then some (b.drop 16) else none

theorem length_lengthTag (n : Nat) : (lengthTag n).length = 16 := by
  simp only [lengthTag, length_map, length_range]

theorem lawful_lengthBox : lengthBox.Lawful where
  open_seal m _ _ := by
    simp only [lengthBox, take_left' (length_lengthTag _), length_append,
      length_lengthTag, Nat.add_sub_cancel_left, drop_left' (length_lengthTag _), if_true]
  length_seal m _ _ := by
    simp only [lengthBox, length_append, length_lengthTag, blockHeaderSize_eq]
    omega

/-- The loop that adds a block index to the first eight bytes of the nonce, until nothing is left to add. A carry out of
the top byte of the `uint64` is lost. -/
def addIndex : Nat → UInt64 → Bytes → Bytes
  | 0, _, bs => bs
  | _ + 1, _, [] => []
  | k + 1, u, b :: bs =>
    if u = 0 then b :: bs
    else (u + b.toUInt64).toUInt8 :: addIndex k ((u + b.toUInt64) >>> 8) bs

theorem length_addIndex (k : Nat) (u : UInt64) (bs : Bytes) : (addIndex k u bs).length = bs.length := by
  fun_induction addIndex k u bs with
  | case1 => rfl
  | case2 => rfl
  | case3 => rfl
  | case4 k u b bs hu ih => rw [length_cons, length_cons, ih]

def blockNonce (fileNonce : Nonce) (blockIndex : UInt64) : Nonce :=
  ⟨addIndex 8 blockIndex fileNonce.bytes, by rw [length_addIndex, fileNonce.size]⟩

/-- `RcloneCipher`, as far as file contents go. -/
structure RcloneCipher where
  dataKey : FixedBytes 32
  deriving DecidableEq, Repr

variable (sb : SecretBox)

def RcloneCipher.encryptBlock (c : RcloneCipher) (plaintext : Bytes) (blockIndex : UInt64)
    (fileNonce : Nonce) : Except Err Bytes :=
  .ok (sb.sealBox plaintext (blockNonce fileNonce blockIndex) c.dataKey)

def RcloneCipher.decryptBlock (c : RcloneCipher) (ciphertext : Bytes) (blockIndex : UInt64)
    (fileNonce : Nonce) : Except Err Bytes :=
  match sb.openBox ciphertext (blockNonce fileNonce blockIndex) c.dataKey with
  | some plaintext => .ok plaintext
  | none => .error (.text "failed to authenticate decrypted block")

/-! ## Sizes -/

def encryptedSize (size : Int) : Int :=
  let blocks := size.tdiv blockDataSize
  let residue := size.tmod blockDataSize
  let encSize := wrap64 (fileHeaderSize + wrap64 (blocks * (blockHeaderSize + blockDataSize)))
  if residue ≠ 0 then wrap64 (encSize + (blockHeaderSize + residue)) else encSize

def decryptedSize (size : Int) : Except Err Int :=
  if size ≤ 0 then .ok 0
  else
    let size := size - fileHeaderSize
    if size < 0 then .error (.text "file too short")
    else
      let blocks := size.tdiv blockSize
      let residue := size.tmod blockSize
      let decSize := blocks * blockDataSize
      if residue ≠ 0 then
        if residue - blockHeaderSize ≤ 0 then .error (.text "bad block header")
        else .ok (decSize + (residue - blockHeaderSize))
      else .ok decSize

/-- The number of bytes `n` plaintext bytes are stored in. -/
def storedSize (n : Nat) : Nat :=
  fileHeaderSize + n + (n + blockDataSize - 1) / blockDataSize * blockHeaderSize

theorem storedSize_eq (n : Nat) : storedSize n = 32 + n + (n + 65535) / 65536 * 16 := by
  have h : n + 65536 - 1 = n + 65535 := by omega
  simp only [storedSize, fileHeaderSize_eq, blockDataSize_eq, blockHeaderSize_eq, h]

/-- **`EncryptedSize` is the stored size**, wrapped to an `int64`. -/
theorem encryptedSize_eq (n : Nat) : encryptedSize n = wrap64 (storedSize n) := by
  have hdiv : (n : Int).tdiv blockDataSize = (n / 65536 : Nat) := by
    rfl
  have hmod : (n : Int).tmod blockDataSize = (n % 65536 : Nat) := by
    rfl
  unfold encryptedSize
  rw [hdiv, hmod, storedSize_eq]
  simp only [fileHeaderSize_eq, blockHeaderSize_eq, blockDataSize_eq]
  split <;> unfold wrap64 <;> omega

theorem encryptedSize_of_fits {n : Nat} (h : Fits64 (storedSize n)) : encryptedSize n = storedSize n := by
  rw [encryptedSize_eq, wrap64_eq h]

theorem add_le_storedSize (n : Nat) : 32 + n ≤ storedSize n := by
  rw [storedSize_eq]
  omega

/-- `DecryptedSize` recovers the plaintext size of a stored object. -/
theorem decryptedSize_storedSize (n : Nat) : decryptedSize (storedSize n) = .ok (n : Int) := by
  have hn := storedSize_eq n
  have hdiv : ((storedSize n : Int) - 32).tdiv 65552 = (n / 65536 : Nat) := by
    rw [Int.tdiv_eq_ediv_of_nonneg (by omega)]
    omega
  have hmod : ((storedSize n : Int) - 32).tmod 65552 = (if n % 65536 = 0 then 0 else n % 65536 + 16 : Nat) := by
    rw [Int.tmod_eq_emod_of_nonneg (by omega)]
    split <;> omega
  show (if _ ≤ 0 then _ else if (storedSize n : Int) - 32 < 0 then _
    else if ((storedSize n : Int) - 32).tmod 65552 ≠ 0 then
      if ((storedSize n : Int) - 32).tmod 65552 - 16 ≤ 0 then _ else Except.ok
        (((storedSize n : Int) - 32).tdiv 65552 * 65536 + (((storedSize n : Int) - 32).tmod 65552 - 16))
      else Except.ok (((storedSize n : Int) - 32).tdiv 65552 * 65536)) = _
  rw [if_neg (by omega), if_neg (by omega), hdiv, hmod]
  by_cases h0 : n % 65536 = 0
  · rw [if_pos h0, if_neg (by simp)]
    congr 1
    omega
  · rw [if_neg h0, if_pos (by omega), if_neg (by omega)]
    congr 1
    omega

/-! ## The `Cipher` interface -/

/-- `Cipher`; a random nonce is an input of the functions that use one. -/
structure Cipher where
  encryptSegment : Bytes → Bytes
  decryptSegment : Bytes → Except Err Bytes
  encryptBlock : Bytes → UInt64 → Nonce → Except Err Bytes
  decryptBlock : Bytes → UInt64 → Nonce → Except Err Bytes
  encryptedSize : Int → Int
  decryptedSize : Int → Except Err Int
  contentDedupNonce : FixedBytes 32 → Int → Except Err Nonce

/-- The methods of `RcloneCipher` that do not touch file contents. -/
structure NamePart where
  encryptSegment : Bytes → Bytes
  decryptSegment : Bytes → Except Err Bytes
  contentDedupNonce : FixedBytes 32 → Int → Except Err Nonce

/-- `RcloneCipher` as a `Cipher`. -/
def RcloneCipher.cipher (names : NamePart) (c : RcloneCipher) : Cipher where
  encryptSegment := names.encryptSegment
  decryptSegment := names.decryptSegment
  encryptBlock := c.encryptBlock sb
  decryptBlock := c.decryptBlock sb
  encryptedSize := Crypt.encryptedSize
  decryptedSize := Crypt.decryptedSize
  contentDedupNonce := names.contentDedupNonce

@[simp] theorem RcloneCipher.cipher_encryptedSize (names : NamePart) (c : RcloneCipher) :
    (c.cipher sb names).encryptedSize = Crypt.encryptedSize := rfl

@[simp] theorem RcloneCipher.cipher_decryptedSize (names : NamePart) (c : RcloneCipher) :
    (c.cipher sb names).decryptedSize = Crypt.decryptedSize := rfl

/-- Names kept as they are, to evaluate the model with. -/
def plainNames : NamePart where
  encryptSegment := id
  decryptSegment := .ok
  contentDedupNonce _ _ := .ok (FixedBytes.ofBytes _ [])

def zeroCipher : RcloneCipher := ⟨FixedBytes.ofBytes 32 []⟩

def zeroNonce : Nonce := FixedBytes.ofBytes _ []

/-! ## The encrypted form of a plaintext -/

def sealedBlock (c : RcloneCipher) (nonce : Nonce) (i : Nat) (b : Bytes) : Bytes :=
  sb.sealBox b (blockNonce nonce (UInt64.ofNat i)) c.dataKey

/-- The sealed blocks of `p`, the first one having index `i`. -/
def sealedBlocks (c : RcloneCipher) (nonce : Nonce) (i : Nat) (p : Bytes) : Bytes :=
  encodeBlocks blockDataSize (sealedBlock sb c nonce) i p

/-- The stored object for the plaintext `p`. -/
def encryptedBytes (c : RcloneCipher) (nonce : Nonce) (p : Bytes) : Bytes :=
  header nonce ++ sealedBlocks sb c nonce 0 p

section Lawful

variable {sb} (hsb : sb.Lawful)

include hsb

section

variable (c : RcloneCipher) (nonce : Nonce)
include c nonce

theorem grows_sealedBlock : Grows blockDataSize blockHeaderSize (sealedBlock sb c nonce) :=
  fun _ _ _ _ => hsb.length_seal _ _ _

theorem decryptBlock_sealedBlock (i : Nat) (b : Bytes) :
    c.decryptBlock sb (sealedBlock sb c nonce i b) (UInt64.ofNat i) nonce = .ok b := by
  unfold RcloneCipher.decryptBlock sealedBlock
  rw [hsb.open_seal]

theorem length_sealedBlocks (i : Nat) (p : Bytes) :
    (sealedBlocks sb c nonce i p).length = p.length + (p.length + 65535) / 65536 * 16 := by
  have h : p.length + 65536 - 1 = p.length + 65535 := by omega
  rw [sealedBlocks, length_encodeBlocks (grows_sealedBlock hsb c nonce) (by decide) i p]
  simp only [blockDataSize_eq, blockHeaderSize_eq, h]

theorem length_encryptedBytes (p : Bytes) : (encryptedBytes sb c nonce p).length = storedSize p.length := by
  rw [encryptedBytes, length_append, length_header, length_sealedBlocks hsb, storedSize_eq]
  omega

theorem sealedBlocks_drop (i j : Nat) (p : Bytes) : (sealedBlocks sb c nonce i p).drop (j * blockSize)
      = sealedBlocks sb c nonce (i + j) (p.drop (j * blockDataSize)) :=
  encodeBlocks_drop (grows_sealedBlock hsb c nonce) (by decide) i j p

theorem sealedBlocks_take (i m : Nat) (p : Bytes) : (sealedBlocks sb c nonce i p).take (m * blockSize)
      = sealedBlocks sb c nonce i (p.take (m * blockDataSize)) :=
  encodeBlocks_take (grows_sealedBlock hsb c nonce) (by decide) i m p

end

end Lawful

theorem sealedBlocks_step (c : RcloneCipher) (nonce : Nonce) (i : Nat) {p : Bytes} (hp : p ≠ []) :
    sealedBlocks sb c nonce i p = sealedBlock sb c nonce i (p.take blockDataSize)
      ++ sealedBlocks sb c nonce (i + 1) (p.drop blockDataSize) :=
  encodeBlocks_step (by decide) hp i

theorem sealedBlocks_nil (c : RcloneCipher) (nonce : Nonce) (i : Nat) : sealedBlocks sb c nonce i [] = [] := rfl

variable {sb} in
/-- The first `BlockSize` bytes are the first block. -/
theorem sealedBlocks_take_one (hsb : sb.Lawful) (c : RcloneCipher) (nonce : Nonce) (i : Nat)
    {p : Bytes} (hp : p ≠ []) : (sealedBlocks sb c nonce i p).take blockSize
      = sealedBlock sb c nonce i (p.take blockDataSize) := by
  have hpos := length_pos_iff.mpr hp
  have htake : p.take blockDataSize ≠ [] :=
    ne_nil_of_length_pos (by rw [length_take, blockDataSize_eq]; omega)
  have h := sealedBlocks_take hsb c nonce i 1 p
  rw [Nat.one_mul, Nat.one_mul] at h
  rw [h, sealedBlocks_step sb c nonce i htake, take_take, Nat.min_self,
    drop_of_length_le (length_take_le _ _), sealedBlocks_nil, append_nil]

variable {sb} in
/-- What follows the first `BlockSize` bytes are the other blocks. -/
theorem sealedBlocks_drop_one (hsb : sb.Lawful) (c : RcloneCipher) (nonce : Nonce) (i : Nat)
    (p : Bytes) : (sealedBlocks sb c nonce i p).drop blockSize
      = sealedBlocks sb c nonce (i + 1) (p.drop blockDataSize) := by
  have h := sealedBlocks_drop hsb c nonce i 1 p
  rwa [Nat.one_mul, Nat.one_mul] at h

end Crypt
