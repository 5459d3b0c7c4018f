import Qrypt.Crypt.Cipher

/-!
# Block arithmetic

`pkg/crypt/rclone_cipher.go`: what the nonces of the blocks of a file are as numbers, and how the
sizes of a file and of its encrypted form determine each other.

* `blockNonce_counter_iff` — the nonce of a block is the file nonce plus the index, as long as eight bytes hold the sum
* `encryptedSize_exact` — `DecryptedSize` undoes `EncryptedSize` and accepts nothing else
-/

namespace Crypt

open Infra List

/-! ## Nonces as numbers -/

/-- The number with the given bytes, the least significant one first. -/
def leNat : Bytes → Nat
  | [] => 0
  | b :: bs => b.toNat + 256 * leNat bs

theorem leNat_lt (bs : Bytes) : leNat bs < 256 ^ bs.length := by
  induction bs with
  | nil => exact Nat.one_pos
  | cons b bs ih =>
    have hb := b.toNat_lt
    rw [leNat, length_cons, pow_succ]
    omega

theorem leNat_append (l r : Bytes) : leNat (l ++ r) = leNat l + 256 ^ l.length * leNat r := by
  induction l with
  | nil => rw [nil_append, leNat, length_nil, pow_zero, one_mul, Nat.zero_add]
  | cons b bs ih =>
    rw [cons_append, leNat, leNat, ih, length_cons, pow_succ]
    ring

/-- The first eight bytes of a nonce as a number: the part the index is added to. -/
def lowPart (nonce : Nonce) : Nat := leNat (nonce.bytes.take 8)

/-- The loop leaves everything behind the bytes it runs over alone. -/
theorem drop_addIndex (k : Nat) (u : UInt64) (bs : Bytes) : (addIndex k u bs).drop k = bs.drop k := by
  fun_induction addIndex k u bs with
  | case1 => rfl
  | case2 => rfl
  | case3 => rfl
  | case4 k u b bs hu ih => rw [drop_succ_cons, drop_succ_cons, ih]

/-- **The bytes the loop runs over are increased by the index**, up to the carry out of the last of them. -/
theorem take_addIndex (k : Nat) (u : UInt64) (bs : Bytes) (hk : k ≤ 8) (hbs : k ≤ bs.length) :
    leNat ((addIndex k u bs).take k) = (leNat (bs.take k) + u.toNat) % 256 ^ k := by
  fun_induction addIndex k u bs with
  | case1 => rw [take_zero, leNat, pow_zero, Nat.mod_one]
  | case2 => exact absurd hbs (by simp)
  | case3 k b bs =>
    have hlt := leNat_lt ((b :: bs).take (k + 1))
    rw [length_take_of_le hbs] at hlt
    rw [UInt64.toNat_zero, Nat.add_zero, Nat.mod_eq_of_lt hlt]
  | case4 k u b bs hu ih =>
    have hdvd : 256 * 256 ^ k ∣ 2 ^ 64 := by
      rw [← pow_succ', show (2 : Nat) ^ 64 = 256 ^ 8 from by norm_num]
      exact pow_dvd_pow 256 hk
    have hsum : (u + b.toUInt64).toNat = (u.toNat + b.toNat) % 2 ^ 64 := by
      rw [UInt64.toNat_add, UInt8.toNat_toUInt64]
    have hshift : ((u + b.toUInt64) >>> 8).toNat = (u + b.toUInt64).toNat / 256 := by
      rw [UInt64.toNat_shiftRight, Nat.shiftRight_eq_div_pow]
      rfl
    have hbyte : (u + b.toUInt64).toUInt8.toNat = (u + b.toUInt64).toNat % 256 :=
      UInt64.toNat_toUInt8 _
    rw [take_succ_cons, take_succ_cons, leNat, leNat,
      ih (by omega) (by simpa using hbs), hshift, hbyte, pow_succ']
    -- the low digit and the rest of the sum put together again
    have hsplit : ∀ x y : Nat, x % 256 + 256 * ((y + x / 256) % 256 ^ k) = (x + 256 * y) % (256 * 256 ^ k) := by
      intro x y
      rw [Nat.mod_mul, Nat.add_mul_mod_self_left, Nat.add_mul_div_left _ _ (by decide), Nat.add_comm (x / 256)]
    rw [hsplit, hsum, Nat.add_mod, Nat.mod_mod_of_dvd _ hdvd, ← Nat.add_mod]
    congr 1
    omega

/-- The number of a block's nonce: the low part is increased modulo `2 ^ 64`, the other sixteen
bytes stay. -/
theorem leNat_blockNonce (fileNonce : Nonce) (blockIndex : UInt64) : leNat (blockNonce fileNonce blockIndex).bytes
      = (lowPart fileNonce + blockIndex.toNat) % 2 ^ 64 + 2 ^ 64 * leNat (fileNonce.bytes.drop 8) := by
  have hlen : 8 ≤ fileNonce.bytes.length := by rw [fileNonce.size]; decide
  have hlen' : ((addIndex 8 blockIndex fileNonce.bytes).take 8).length = 8 := by
    rw [length_take, length_addIndex]
    omega
  show leNat (addIndex 8 blockIndex fileNonce.bytes) = _
  conv_lhs => rw [← take_append_drop 8 (addIndex 8 blockIndex fileNonce.bytes)]
  rw [leNat_append, hlen', drop_addIndex, take_addIndex 8 _ _ le_rfl hlen]
  rfl

theorem leNat_fileNonce (fileNonce : Nonce) :
    leNat fileNonce.bytes = lowPart fileNonce + 2 ^ 64 * leNat (fileNonce.bytes.drop 8) ∧
      lowPart fileNonce < 2 ^ 64 ∧ leNat (fileNonce.bytes.drop 8) < 2 ^ 128 := by
  have hsize := fileNonce.size
  have hlen : (fileNonce.bytes.take 8).length = 8 := by
    rw [length_take, hsize]
    rfl
  have hlen' : (fileNonce.bytes.drop 8).length = 16 := by
    rw [length_drop, hsize]
    rfl
  refine ⟨?_, ?_, ?_⟩
  · conv_lhs => rw [← take_append_drop 8 fileNonce.bytes]
    rw [leNat_append, hlen]
    rfl
  · have h := leNat_lt (fileNonce.bytes.take 8)
    rwa [hlen] at h
  · have h := leNat_lt (fileNonce.bytes.drop 8)
    rwa [hlen'] at h

/-- **Different blocks of a file have different nonces.** -/
theorem blockNonce_injective (fileNonce : Nonce) : Function.Injective (blockNonce fileNonce) := by
  intro i j hij
  have h := congrArg (fun n => leNat n.bytes) hij
  simp only [leNat_blockNonce] at h
  have hi := i.toNat_lt
  have hj := j.toNat_lt
  exact UInt64.toNat_inj.mp (by omega)

/-- **The nonce of a block is the file nonce plus the index, as a counter of 24 bytes, and no other
block has it: exactly when the sum does not carry out of the first eight bytes.** -/
theorem blockNonce_counter_iff (fileNonce : Nonce) (blockIndex : UInt64) :
    (leNat (blockNonce fileNonce blockIndex).bytes
        = (leNat fileNonce.bytes + blockIndex.toNat) % 2 ^ 192 ∧
      ∀ other, other ≠ blockIndex → blockNonce fileNonce other ≠ blockNonce fileNonce blockIndex)
      ↔ lowPart fileNonce + blockIndex.toNat < 2 ^ 64 := by
  obtain ⟨hfile, hlow, hhigh⟩ := leNat_fileNonce fileNonce
  have hindex := blockIndex.toNat_lt
  rw [leNat_blockNonce, hfile]
  constructor
  · omega
  · intro hfits
    refine ⟨by omega, fun other hne heq => hne (blockNonce_injective fileNonce heq)⟩

def onesNonce : Nonce := FixedBytes.ofBytes _ (replicate 8 255)

/-- The second block of such a file is sealed under nonce zero. -/
theorem blockNonce_onesNonce :
    leNat (blockNonce onesNonce 1).bytes = 0 ∧ (leNat onesNonce.bytes + 1) % 2 ^ 192 = 2 ^ 64 := by
  decide +kernel

/-! ## Sizes -/

/-- The numbers `EncryptedSize` computes on its way, over the integers. -/
def encryptedSizeSteps (size : Int) : List Int :=
  let blocks := size.tdiv blockDataSize
  let residue := size.tmod blockDataSize
  let encSize := fileHeaderSize + blocks * (blockHeaderSize + blockDataSize)
  [blocks * (blockHeaderSize + blockDataSize), encSize] ++
    if residue ≠ 0 then [blockHeaderSize + residue, encSize + (blockHeaderSize + residue)] else []

/-- The numbers `DecryptedSize` computes on its way, over the integers. -/
def decryptedSizeSteps (size : Int) : List Int :=
  let blocks := (size - fileHeaderSize).tdiv blockSize
  let residue := (size - fileHeaderSize).tmod blockSize
  [size - fileHeaderSize, blocks * blockDataSize, residue - blockHeaderSize,
    blocks * blockDataSize + (residue - blockHeaderSize)]

theorem fits64_encryptedSizeSteps {n : Nat} (h : storedSize n < 2 ^ 63) : ∀ x ∈ encryptedSizeSteps n, Fits64 x := by
  rw [storedSize_eq] at h
  have hdiv : (n : Int).tdiv 65536 = n / 65536 := Int.tdiv_eq_ediv_of_nonneg (by omega)
  have hmod : (n : Int).tmod 65536 = n % 65536 := Int.tmod_eq_emod_of_nonneg (by omega)
  intro x hx
  simp only [encryptedSizeSteps, fileHeaderSize_eq, blockHeaderSize_eq, blockDataSize_eq,
    Nat.cast_ofNat, hdiv, hmod] at hx
  unfold Fits64
  split at hx <;> simp only [cons_append, nil_append, append_nil, mem_cons,
    not_mem_nil, or_false] at hx <;> omega

theorem fits64_decryptedSizeSteps {s : Int} (h : 32 ≤ s) (hs : Fits64 s) : ∀ x ∈ decryptedSizeSteps s, Fits64 x := by
  unfold Fits64 at hs
  have hdiv : (s - 32).tdiv 65552 = (s - 32) / 65552 := Int.tdiv_eq_ediv_of_nonneg (by omega)
  have hmod : (s - 32).tmod 65552 = (s - 32) % 65552 := Int.tmod_eq_emod_of_nonneg (by omega)
  intro x hx
  simp only [decryptedSizeSteps, fileHeaderSize_eq, blockHeaderSize_eq, blockDataSize_eq,
    blockSize_eq, Nat.cast_ofNat, hdiv, hmod, mem_cons, not_mem_nil, or_false] at hx
  unfold Fits64
  omega

theorem storedSize_strictMono : StrictMono storedSize := by
  intro a b hab
  rw [storedSize_eq, storedSize_eq]
  omega

/-- **What `DecryptedSize` accepts is a stored size.** -/
theorem storedSize_of_decryptedSize {s n : Int} (h : 32 ≤ s) (hok : decryptedSize s = .ok n) :
    0 ≤ n ∧ (storedSize n.toNat : Int) = s := by
  have hdiv : (s - 32).tdiv 65552 = (s - 32) / 65552 := Int.tdiv_eq_ediv_of_nonneg (by omega)
  have hmod : (s - 32).tmod 65552 = (s - 32) % 65552 := Int.tmod_eq_emod_of_nonneg (by omega)
  simp only [decryptedSize, fileHeaderSize_eq, blockHeaderSize_eq, blockDataSize_eq, blockSize_eq,
    Nat.cast_ofNat, hdiv, hmod] at hok
  rw [storedSize_eq]
  rw [if_neg (by omega), if_neg (by omega)] at hok
  split at hok
  · split at hok
    · exact absurd hok (by simp)
    · have := Except.ok.inj hok
      omega
  · have := Except.ok.inj hok
    omega

/-- `EncryptedSize` gives `s` only for the file stored in `s` bytes. -/
theorem encryptedSize_eq_iff {n s : I64} (hn : 0 ≤ n.val) (hs : 32 ≤ s.val) :
    encryptedSize n.val = s.val ↔ (storedSize n.val.toNat : Int) = s.val := by
  obtain ⟨n, hfits⟩ := n
  lift n to Nat using hn
  simp only [Int.toNat_natCast, encryptedSize_eq]
  unfold Fits64 at hfits
  by_cases hle : (storedSize n : Int) < 2 ^ 63
  · rw [wrap64_eq ⟨by omega, hle⟩]
  · have hlt : storedSize n < 2 ^ 64 := by
      rw [storedSize_eq]
      omega
    have hs' := s.2.2
    rw [wrap64_of_overflow (by omega) (by omega)]
    omega

/-- **The sizes of files and of their encrypted forms determine each other**, and no step leaves the range of an `int64`,
as long as the encrypted size is below `2 ^ 63`; larger files have larger encrypted sizes. -/
theorem encryptedSize_exact (n s : I64) :
    (0 ≤ n.val → storedSize n.val.toNat < 2 ^ 63 →
      encryptedSize n.val = storedSize n.val.toNat ∧
      decryptedSize (encryptedSize n.val) = .ok n.val ∧
      (∀ x ∈ encryptedSizeSteps n.val, Fits64 x) ∧
      (∀ x ∈ decryptedSizeSteps (encryptedSize n.val), Fits64 x) ∧
      ∀ m : I64, 0 ≤ m.val → m.val < n.val → encryptedSize m.val < encryptedSize n.val) ∧
    (32 ≤ s.val → (decryptedSize s.val = .ok n.val ↔ 0 ≤ n.val ∧ encryptedSize n.val = s.val)) := by
  constructor
  · intro hn hlt
    obtain ⟨n, hfits⟩ := n
    lift n to Nat using hn
    simp only [Int.toNat_natCast] at hlt ⊢
    have hge := add_le_storedSize n
    have hfits' : Fits64 (storedSize n) := ⟨by omega, by omega⟩
    rw [encryptedSize_of_fits hfits']
    refine ⟨rfl, decryptedSize_storedSize n, fits64_encryptedSizeSteps hlt,
      fits64_decryptedSizeSteps (by omega) hfits', ?_⟩
    rintro ⟨m, hm⟩ hm0 hmn
    lift m to Nat using hm0
    have hmono := storedSize_strictMono (Int.ofNat_lt.mp hmn)
    rw [encryptedSize_of_fits ⟨by omega, by omega⟩]
    exact_mod_cast hmono
  · intro hs
    constructor
    · intro hok
      obtain ⟨hn, hstored⟩ := storedSize_of_decryptedSize hs hok
      exact ⟨hn, (encryptedSize_eq_iff hn hs).mpr hstored⟩
    · rintro ⟨hn, heq⟩
      rw [← (encryptedSize_eq_iff hn hs).mp heq, decryptedSize_storedSize, Int.toNat_of_nonneg hn]

theorem encryptedSize_exact_two_blocks : encryptedSize 65537 = 65601 ∧ decryptedSize 65601 = .ok 65537 := by
  have h := encryptedSize_exact ⟨65537, by decide⟩ ⟨65601, by decide⟩
  have hsize := (h.1 (by decide) (by decide)).1
  exact ⟨hsize, (h.2 (by decide)).mpr ⟨by decide, hsize⟩⟩

end Crypt
