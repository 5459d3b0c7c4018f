import Qrypt.Infra.Reader

/-!
# Text encodings of bytes

What a text encoding such as base32 or base64 promises (`TextCodec.Lawful`), and the encodings that
read the bytes as one big number and write it in a base `2 ^ k`, padded with zero bits at its end
(`radixCodec`). `lawful_radixCodec` needs of the alphabet only that characters stand for different
digits.
-/

namespace Infra

open List

/-- A text encoding. -/
structure TextCodec where
  encode : Bytes → Bytes
  decode : Bytes → Except Err Bytes

/-- Decoding undoes encoding, and the texts are written in the alphabet. -/
structure TextCodec.Lawful (t : TextCodec) (alphabet : UInt8 → Prop) : Prop where
  encode_nil : t.encode [] = []
  decode_encode : ∀ b, t.decode (t.encode b) = .ok b
  alphabet : ∀ b, ∀ c ∈ t.encode b, alphabet c

theorem TextCodec.Lawful.encode_injective {t : TextCodec} {alphabet : UInt8 → Prop}
    (h : t.Lawful alphabet) : Function.Injective t.encode := by
  intro a b hab
  have hdec := congrArg t.decode hab
  rw [h.decode_encode, h.decode_encode] at hdec
  exact Except.ok.inj hdec

/-! ## Big numbers, most significant digit first -/

def bigNat (base : Nat) (ds : List Nat) : Nat := ds.foldl (fun n d => n * base + d) 0

/-- The last `m` digits of a number. -/
def bigDigits (base : Nat) : Nat → Nat → List Nat
  | 0, _ => []
  | m + 1, n => bigDigits base m (n / base) ++ [n % base]

theorem bigNat_concat (base : Nat) (ds : List Nat) (d : Nat) :
    bigNat base (ds ++ [d]) = bigNat base ds * base + d := by
  simp [bigNat]

theorem bigNat_bigDigits (base m n : Nat) : bigNat base (bigDigits base m n) = n % base ^ m := by
  induction m generalizing n with
  | zero => rw [pow_zero, Nat.mod_one]; rfl
  | succ m ih => rw [bigDigits, bigNat_concat, ih, pow_succ', Nat.mod_mul, Nat.mul_comm, Nat.add_comm]

theorem length_bigDigits (base m n : Nat) : (bigDigits base m n).length = m := by
  induction m generalizing n with
  | zero => rfl
  | succ m ih => rw [bigDigits, length_append, ih, length_singleton]

theorem bigDigits_lt {base : Nat} (hbase : 0 < base) (m n : Nat) : ∀ d ∈ bigDigits base m n, d < base := by
  induction m generalizing n with
  | zero => exact fun d hd => absurd hd not_mem_nil
  | succ m ih => exact forall_mem_append.mpr ⟨ih _, forall_mem_singleton.mpr (Nat.mod_lt _ hbase)⟩

theorem bigDigits_bigNat {base : Nat} (hbase : 0 < base) {ds : List Nat} (h : ∀ d ∈ ds, d < base) :
    bigDigits base ds.length (bigNat base ds) = ds ∧ bigNat base ds < base ^ ds.length := by
  induction ds using reverseRecOn with
  | nil => exact ⟨rfl, Nat.one_pos⟩
  | append_singleton ds d ih =>
    have hd := h d (mem_append_right _ (mem_singleton_self d))
    obtain ⟨hback, hlt⟩ := ih fun x hx => h x (mem_append_left _ hx)
    rw [bigNat_concat, length_append, length_singleton, bigDigits, Nat.mul_comm]
    constructor
    · rw [Nat.mul_add_div hbase, Nat.div_eq_of_lt hd, Nat.add_zero, hback, Nat.mul_add_mod, Nat.mod_eq_of_lt hd]
    · calc base * bigNat base ds + d < base * (bigNat base ds + 1) := by
            rw [Nat.mul_succ]
            omega
        _ ≤ base * base ^ ds.length := Nat.mul_le_mul_left _ hlt
        _ = base ^ (ds.length + 1) := (pow_succ' _ _).symm

/-! ## Base `2 ^ k` -/

section Radix

variable (k : Nat) (char : Nat → UInt8) (value : UInt8 → Option Nat)

/-- The bytes as digits of `k` bits, the last one filled up with zero bits. -/
def radixEncode (b : Bytes) : Bytes :=
  let m := (8 * b.length + k - 1) / k
  (bigDigits (2 ^ k) m (bigNat 256 (b.map UInt8.toNat) * 2 ^ (m * k - 8 * b.length))).map char

/-- The bytes of a text of digits; bits that do not fill a byte are dropped. -/
def radixBytes (ds : List Nat) : Bytes :=
  let n := ds.length * k / 8
  (bigDigits 256 n (bigNat (2 ^ k) ds / 2 ^ (ds.length * k - 8 * n))).map UInt8.ofNat

/-- Decodes the texts that `radixEncode` writes, and no others. -/
def radixDecode (s : Bytes) : Except Err Bytes :=
  match s.mapM value with
  | none => .error (.text "illegal data")
  | some ds =>
    if radixEncode k char (radixBytes k ds) = s then .ok (radixBytes k ds)
    else .error (.text "illegal data")

/-- The encoding in base `2 ^ k`. -/
def radixCodec : TextCodec where
  encode := radixEncode k char
  decode := radixDecode k char value

variable {k char value} (hk : 0 < k) (hk8 : k ≤ 8) (hval : ∀ n < 2 ^ k, value (char n) = some n)

include hval in
theorem mapM_value {ds : List Nat} (h : ∀ d ∈ ds, d < 2 ^ k) : (ds.map char).mapM value = some ds := by
  induction ds with
  | nil => rfl
  | cons d ds ih =>
    rw [forall_mem_cons] at h
    simp [hval d h.1, ih h.2]

include hk hk8 in
/-- The digits of the bytes give the bytes back: at most `k - 1` zero bits follow them. -/
theorem radixBytes_digits (b : Bytes) : radixBytes k (bigDigits (2 ^ k) ((8 * b.length + k - 1) / k)
      (bigNat 256 (b.map UInt8.toNat) * 2 ^ ((8 * b.length + k - 1) / k * k - 8 * b.length))) = b := by
  generalize hm : (8 * b.length + k - 1) / k = m
  have hmk : 8 * b.length ≤ m * k ∧ m * k < 8 * b.length + k := by
    subst hm
    have h1 := Nat.div_add_mod (8 * b.length + k - 1) k
    have h2 := Nat.mod_lt (8 * b.length + k - 1) hk
    rw [Nat.mul_comm] at h1
    omega
  have hn : m * k / 8 = b.length := by omega
  have hbytes : ∀ d ∈ b.map UInt8.toNat, d < 256 := by
    intro d hd
    obtain ⟨c, -, rfl⟩ := mem_map.mp hd
    exact c.toNat_lt
  obtain ⟨hback, hlt⟩ := bigDigits_bigNat (by decide) hbytes
  rw [length_map] at hback hlt
  have hpow : (2 ^ k) ^ m = 256 ^ b.length * 2 ^ (m * k - 8 * b.length) := by
    rw [← pow_mul, show (256 : Nat) = 2 ^ 8 from rfl, ← pow_mul, ← pow_add, Nat.mul_comm k m,
      Nat.add_sub_cancel' hmk.1]
  rw [radixBytes, length_bigDigits, hn, bigNat_bigDigits, Nat.mod_eq_of_lt,
    Nat.mul_div_cancel _ (Nat.two_pow_pos _), hback, map_map]
  · have hid : UInt8.ofNat ∘ UInt8.toNat = id := by
      funext c
      simp
    rw [hid, map_id]
  · rw [hpow]
    exact Nat.mul_lt_mul_of_pos_right hlt (Nat.two_pow_pos _)

include hk hk8 hval in
theorem lawful_radixCodec {alphabet : UInt8 → Prop} (halpha : ∀ n < 2 ^ k, alphabet (char n)) :
    (radixCodec k char value).Lawful alphabet where
  encode_nil := by
    show radixEncode k char [] = []
    rw [radixEncode, length_nil, Nat.mul_zero, Nat.zero_add, Nat.div_eq_of_lt (by omega)]
    rfl
  decode_encode b := by
    have hdigits := bigDigits_lt (Nat.two_pow_pos k) ((8 * b.length + k - 1) / k)
      (bigNat 256 (b.map UInt8.toNat) * 2 ^ ((8 * b.length + k - 1) / k * k - 8 * b.length))
    have hmap : (radixEncode k char b).mapM value = some _ := mapM_value hval hdigits
    show radixDecode k char value (radixEncode k char b) = .ok b
    rw [radixDecode, hmap]
    simp only [radixBytes_digits hk hk8, if_true]
  alphabet b c hc := by
    obtain ⟨d, hd, rfl⟩ := mem_map.mp hc
    exact halpha d (bigDigits_lt (Nat.two_pow_pos k) _ _ d hd)

end Radix

/-! ## Base32hex and base64url -/

/-- `base32.HexEncoding.WithPadding(NoPadding)`. -/
def base32Hex : TextCodec :=
  radixCodec 5 (fun n => UInt8.ofNat (if n < 10 then 48 + n else 55 + n)) fun c =>
    if 48 ≤ c ∧ c ≤ 57 then some (c.toNat - 48)
    else if 65 ≤ c ∧ c ≤ 86 then some (c.toNat - 55)
    else none

/-- `base64.URLEncoding.WithPadding(NoPadding)`. -/
def base64URL : TextCodec :=
  radixCodec 6 (fun n => UInt8.ofNat (if n < 26 then 65 + n else if n < 52 then 71 + n
      else if n < 62 then n - 4 else if n = 62 then 45 else 95)) fun c =>
    if 65 ≤ c ∧ c ≤ 90 then some (c.toNat - 65)
    else if 97 ≤ c ∧ c ≤ 122 then some (c.toNat - 71)
    else if 48 ≤ c ∧ c ≤ 57 then some (c.toNat + 4)
    else if c = 45 then some 62
    else if c = 95 then some 63
    else none

/-- The digits and the letters up to `V`. -/
def isBase32Hex (c : UInt8) : Prop := 48 ≤ c ∧ c ≤ 57 ∨ 65 ≤ c ∧ c ≤ 86

instance (c : UInt8) : Decidable (isBase32Hex c) := inferInstanceAs (Decidable (_ ∨ _))

theorem lawful_base32Hex : base32Hex.Lawful isBase32Hex :=
  lawful_radixCodec (by decide) (by decide) (by decide) (by decide)

theorem lawful_base64URL : base64URL.Lawful fun c => c ≠ 59 :=
  lawful_radixCodec (by decide) (by decide) (by decide) (by decide)

example : base32Hex.encode (ascii "go") = ascii "CTNG" := by decide +kernel

end Infra
