import Qrypt.Crypt.ReadRange

/-!
# Reads over a driver that clamps to the entry size

The WebDAV and SFTP drivers cut a read off at the size in the entry they are handed. `Driver.List`
replaces that size by the plaintext size, and `Driver.Read` hands the same entry back: the raw
driver then cuts the encrypted bytes off at the plaintext size.

`clamped_read_iff` says which reads survive this. In the others the last block is cut and does not authenticate, or
whole blocks are missing.
-/

namespace Crypt

open Infra Drive List Option

/-- The length of a read of `n` bytes at `off`, for an entry of the given size. -/
def clampToSize (size off n : Int) : Int :=
  if size > 0 ∧ off ≥ size then 0
  else if size > 0 ∧ off + n > size then size - off
  else n

/-- A box that was cut off does not open. -/
def SecretBox.RejectsTruncated (sb : SecretBox) : Prop :=
  ∀ m nonce key t, m.length ≤ blockDataSize → t <+: sb.sealBox m nonce key →
    t ≠ sb.sealBox m nonce key → sb.openBox t nonce key = none

/-- The reads over a clamping driver that give the plaintext range: nothing is stored, or the nonce is known and the
range lies in a block behind the end, or all its blocks end before the plaintext size, or the range and its first
encrypted block lie behind it. The sizes must not overflow. -/
def ClampFits (cached : Bool) (n offset size : Nat) : Prop :=
  offset < maxOffset ∧ ((n = 0 ∧ SizeOk offset size) ∨ (0 < n ∧ (cached = true ∨ 32 ≤ n) ∧
        (n ≤ firstBlock offset * 65536 ∨
          rangeStart offset + blockCount offset size * 65552 ≤ n ∨
          (n ≤ rangeStart offset ∧ n ≤ offset ∧ SizeOk offset size))))

instance (cached : Bool) (n offset size : Nat) : Decidable (ClampFits cached n offset size) :=
  inferInstanceAs (Decidable (_ ∧ _))

/-! ## The served bytes -/

variable {n : Nat} {off m : Int}

theorem clampToSize_header (h : n = 0 ∨ 32 ≤ n) : clampToSize n 0 32 = 32 := by
  unfold clampToSize
  split
  · omega
  · split <;> omega

theorem clampToSize_header_lt (h0 : 0 < n) (h : n < 32) : clampToSize n 0 32 < 32 := by
  unfold clampToSize
  split
  · omega
  · split <;> omega

theorem clampToSize_behind (h0 : 0 < n) (h : (n : Int) ≤ off) : clampToSize n off m = 0 := by
  unfold clampToSize
  rw [if_pos ⟨by omega, h⟩]

theorem clampToSize_of_le (h0 : 0 < m) (h : off + m ≤ n) : clampToSize n off m = m := by
  unfold clampToSize
  rw [if_neg (by omega), if_neg (by omega)]

/-- The range is cut: `cut` bytes are served, fewer than the range needs and than there are. -/
theorem clampToSize_cut {s t need : Nat} {es : Int} (hs : s < n) (hn : n < t) (hes : 0 < es) (hneed : n < s + need) :
    ∃ cut : Nat, (clampToSize n s es).toNat = cut ∧ 0 < cut ∧ cut < need ∧ s + cut < t := by
  unfold clampToSize
  split <;> exact ⟨_, rfl, by omega, by omega, by omega⟩

/-! ## Which reads survive -/

section

variable {σ : Type} {d : Driver σ} {entry : Entry} {sb : SecretBox} {names : NamePart}
  {c : RcloneCipher} {nonce : Nonce} {p : Bytes}

variable {offset size : Nat} {d' : Driver σ} {body : Body} {cut : Nat}

theorem readsAs_nil_of_empty_body (hsb : sb.Lawful) (hcp : d.cp = c.cipher sb names) (h0 : 0 < size)
    (hread : d.read entry offset size = (.ok (Driver.rangeStream (newDecryptingReaderAt body d.cp
      nonce (UInt64.ofNat (firstBlock offset))) (offset % 65536 : Nat) size), d'))
    (hlast : body.last = .eof) (hdata : body.data = []) : ReadsAs d entry offset size [] := by
  have hb := Body.delivers hlast
  rw [hdata, ← sealedBlocks_nil sb c nonce (firstBlock offset)] at hb
  have hdec := decryptingReader_delivers hsb names c nonce hb
  refine ⟨_, _, hread, ?_⟩
  rw [hcp]
  have hends := rangeStream_ends hdec (offset % 65536) h0 (.inl rfl)
  rw [drop_nil, take_nil] at hends
  exact Delivers.yields hends

def cutPlain (p : Bytes) (offset cut : Nat) : Bytes :=
  (p.drop (firstBlock offset * 65536)).take (cut / 65552 * 65536)

theorem length_cutPlain (hin : cut / 65552 * 65536 < (p.drop (firstBlock offset * 65536)).length) :
    (cutPlain p offset cut).length = cut / 65552 * 65536 := by
  rw [cutPlain, length_take, Nat.min_eq_left (Nat.le_of_lt hin)]

theorem length_drop_cutPlain (h0 : 0 < size) (hneed : cut < blockCount offset size * 65552)
    (hin : cut / 65552 * 65536 < (p.drop (firstBlock offset * 65536)).length) :
    ((cutPlain p offset cut).drop (offset % 65536)).length < size := by
  rw [length_drop, length_cutPlain hin]
  unfold blockCount at hneed
  omega

/-- Where the cut falls between two blocks, part of the plaintext range is missing. -/
theorem cutPlain_slice_ne (hcut : 0 < cut) (hmod : cut % 65552 = 0) (hneed : cut < blockCount offset size * 65552)
    (hin : cut / 65552 * 65536 < (p.drop (firstBlock offset * 65536)).length) :
    ((cutPlain p offset cut).drop (offset % 65536)).take size ≠ (p.drop offset).take size := by
  intro h
  have hlen := congrArg length h
  rw [length_take, length_take, length_drop, length_drop, length_cutPlain hin]
    at hlen
  rw [length_drop] at hin
  unfold blockCount at hneed
  unfold firstBlock at hin
  omega

/-- **A range of which too few bytes are served does not read as the plaintext range.** -/
theorem not_readsAs_of_cut (hsb : sb.Lawful) (htr : sb.RejectsTruncated) (hcp : d.cp = c.cipher sb names)
    (h0 : 0 < size)
    (hread : d.read entry offset size = (.ok (Driver.rangeStream (newDecryptingReaderAt body d.cp
      nonce (UInt64.ofNat (firstBlock offset))) (offset % 65536 : Nat) size), d'))
    (hlast : body.last = .eof)
    (hdata : body.data = ((encryptedBytes sb c nonce p).drop (rangeStart offset)).take cut)
    (hcut : 0 < cut) (hneed : cut < blockCount offset size * 65552)
    (hlt : rangeStart offset + cut < storedSize p.length) :
    ¬ ReadsAs d entry offset size ((p.drop offset).take size) := by
  have hlen := length_encryptedBytes hsb c nonce p
  have hblocks := encryptedBytes_dropBlocks hsb c nonce (firstBlock offset) p
  obtain ⟨t, htake, htlen, hin, hpre, hne⟩ := sealedBlocks_cut hsb c nonce (firstBlock offset)
    cut (p.drop (firstBlock offset * 65536)) (by
      rw [← hblocks, length_drop, hlen]
      unfold rangeStart at hlt
      omega)
  rw [rangeStart, hblocks, htake] at hdata
  have hb := Body.delivers hlast
  rw [hdata] at hb
  rintro ⟨s, d'', hread', hy⟩
  rw [hread, hcp] at hread'
  cases hread'
  by_cases ht : t = []
  · -- whole blocks only: the stream ends early
    subst ht
    rw [append_nil] at hb
    have hdec := decryptingReader_delivers hsb names c nonce hb
    have hends := rangeStream_ends hdec (offset % 65536) h0 (.inl rfl)
    have hmod : cut % 65552 = 0 := htlen.symm
    exact cutPlain_slice_ne hcut hmod hneed hin ((Delivers.yields hends).unique hy)
  · -- a cut block: it does not open
    have hopen := htr _ _ _ t (by
      exact length_take_le _ _) hpre hne
    have hq : ((p.drop (firstBlock offset * 65536)).take (cut / 65552 * 65536)).length
        = cut / 65552 * 65536 := length_cutPlain hin
    have hmul : cut / 65552 * 65536 / 65536 = cut / 65552 := by omega
    have hdec : (c.cipher sb names).decryptBlock t (UInt64.ofNat (firstBlock offset +
        ((p.drop (firstBlock offset * 65536)).take (cut / 65552 * 65536)).length / 65536)) nonce
        = .error (.text "failed to authenticate decrypted block") := by
      rw [hq, hmul]
      show RcloneCipher.decryptBlock sb c t _ nonce = _
      rw [RcloneCipher.decryptBlock, hopen]
    have hstream := decryptingReader_cut hsb names c nonce ht (by rw [htlen]; omega) (by rw [hq]; omega) hdec hb
    refine (rangeStream_ends hstream (offset % 65536) h0 (.inr ⟨?_, ?_⟩)).not_yields Err.noConfusion hy
    · omega
    · exact length_drop_cutPlain h0 hneed hin

/-- `Driver.List` shows the entry, and the raw listing has the stored size under its id. -/
structure Listed (d : Driver σ) (entry : Entry) (stored : Bytes) : Prop where
  shown : ∃ parentID entries, d.list parentID = .ok entries ∧ entry ∈ entries
  raw : ∀ parentID raws, d.raw.list d.backend parentID = .ok raws →
    ∀ r ∈ raws, r.id = entry.id → r.isDir = false ∧ r.size = stored.length

theorem Listed.size_eq (h : Listed d entry (encryptedBytes sb c nonce p)) (hsb : sb.Lawful)
    (hcp : d.cp = c.cipher sb names) : entry.size = p.length := by
  obtain ⟨parentID, entries, hlist, hmem⟩ := h.shown
  unfold Driver.list at hlist
  rcases hraw : d.raw.list d.backend parentID with e | raws
  · rw [hraw] at hlist
    cases hlist
  · rw [hraw] at hlist
    cases hlist
    obtain ⟨r, hr, hentry⟩ := mem_filterMap.mp hmem
    unfold Driver.listEntry at hentry
    split at hentry
    · cases hentry
    · split at hentry
      · cases hentry
        obtain ⟨hdir, hsize⟩ := h.raw parentID raws hraw r hr rfl
        simp only [hdir, hsize, hcp, RcloneCipher.cipher_decryptedSize, length_encryptedBytes hsb,
          decryptedSize_storedSize, Bool.false_eq_true, if_false]
      · cases hentry

theorem readsAs_of_clampFits (h : StoredUnder (clampToSize entry.size) sb names c nonce p d entry
      (encryptedBytes sb c nonce p)) (hentry : entry.size = p.length)
    (ho : offset < 2 ^ 63) (hs : size < 2 ^ 63) (h0 : 0 < size)
    (hfit : ClampFits (d.nonceCache entry.id).isSome p.length offset size) :
    ReadsAs d entry offset size ((p.drop offset).take size) := by
  have hsb := h.lawful
  have hcp := h.cipher
  have hserve := h.serves
  have hn : Fits64 (storedSize p.length) := length_encryptedBytes hsb c nonce p ▸ hserve.fits
  rw [hentry] at hserve
  obtain ⟨hoff, hfit⟩ := hfit
  obtain ⟨d', hnonce, hraw, hbackend, hcp'⟩ : ∃ d', d.fileNonce entry = (.ok nonce, d') ∧
      d'.raw = d.raw ∧ d'.backend = d.backend ∧ d'.cp = d.cp := by
    refine fileNonce_ok hserve h.cache ?_
    rcases hfit with ⟨hz, -⟩ | ⟨-, hhead | hhead, -⟩
    · exact .inr (Int.le_of_eq (clampToSize_header (.inl hz)).symm)
    · exact .inl (isSome_iff_ne_none.mp hhead)
    · exact .inr (Int.le_of_eq (clampToSize_header (.inr hhead)).symm)
  have hread : d.read entry offset size = _ := read_eq (.inr h0) hnonce hraw hbackend hcp'
  by_cases hend : 0 < p.length ∧ p.length ≤ firstBlock offset * 65536
  · -- behind the end: the raw driver is not asked
    rw [hcp, hentry, encryptedRange_none ho h0 sb names c hn hoff hend.1 hend.2] at hread
    refine ⟨_, _, hread, ?_⟩
    rw [drop_eq_nil_of_firstBlock hend.2]
    exact Delivers.yields delivers_empty
  · obtain ⟨es, hrange, hpos, -, hes⟩ :=
      encryptedRange_some ho hs h0 sb names c hn hoff (by omega)
    rw [← hcp, ← hentry] at hrange
    rw [hrange] at hread
    have hsizeOk : SizeOk offset size := by
      rcases hfit with ⟨-, hok⟩ | ⟨hp, -, hle | hle | ⟨-, -, hok⟩⟩
      · exact hok
      · exact absurd ⟨hp, hle⟩ hend
      · refine .inl (blockCount_lt.mpr ?_)
        have h1 := hn.2
        have h2 := add_le_storedSize p.length
        omega
      · exact hok
    obtain ⟨body, hbody, hlast, hdata⟩ :=
      hserve.range (rangeStart offset) es (by omega) (hpos.mpr hsizeOk)
    simp only [hbody] at hread
    rcases hfit with ⟨hz, -⟩ | ⟨hp, -, hle | hle | ⟨hle, hle', -⟩⟩
    · -- an empty file: only the header is stored
      have hp : p = [] := length_eq_zero_iff.mp hz
      subst hp
      have hempty : body.data = [] := by
        rw [hdata, drop_of_length_le, take_nil]
        rw [length_encryptedBytes hsb]
        exact Nat.le_add_right 32 _
      rw [drop_nil, take_nil]
      exact readsAs_nil_of_empty_body hsb hcp h0 hread hlast hempty
    · exact absurd ⟨hp, hle⟩ hend
    · -- all blocks of the range end before the plaintext size
      have hneeded : offset % 65536 + size ≤ maxNeeded := by
        refine blockCount_lt.mpr ?_
        have h1 := hn.2
        have h2 := add_le_storedSize p.length
        omega
      have hesle : es ≤ (blockCount offset size * 65552 : Nat) := by
        rw [encSize_of_le hneeded] at hes
        omega
      rw [clampToSize_of_le (hpos.mpr hsizeOk) (by omega)] at hdata
      exact readsAs_of_range hsb hcp h0 hneeded hread (hes.imp_right fun h => h.2) hlast hdata
    · -- nothing is served, and nothing is wanted
      rw [clampToSize_behind hp (by omega)] at hdata
      have hempty : body.data = [] := hdata
      rw [drop_of_length_le hle', take_nil]
      exact readsAs_nil_of_empty_body hsb hcp h0 hread hlast hempty

theorem clampFits_of_readsAs (h : StoredUnder (clampToSize entry.size) sb names c nonce p d entry
      (encryptedBytes sb c nonce p)) (htr : sb.RejectsTruncated) (hentry : entry.size = p.length)
    (ho : offset < 2 ^ 63) (hs : size < 2 ^ 63) (h0 : 0 < size)
    (hreads : ReadsAs d entry offset size ((p.drop offset).take size)) :
    ClampFits (d.nonceCache entry.id).isSome p.length offset size := by
  have hsb := h.lawful
  have hcp := h.cipher
  have hserve := h.serves
  have hn : Fits64 (storedSize p.length) := length_encryptedBytes hsb c nonce p ▸ hserve.fits
  rw [hentry] at hserve
  -- without a cached nonce the header has to be served whole
  have hhead : p.length = 0 ∨ (d.nonceCache entry.id).isSome = true ∨ 32 ≤ p.length := by
    by_cases hc : d.nonceCache entry.id = none
    · by_cases hlen : 0 < p.length ∧ p.length < 32
      · obtain ⟨e, he⟩ := fileNonce_error hserve hc (clampToSize_header_lt hlen.1 hlen.2)
        exact absurd hreads (not_readsAs_of_error (read_error_of_fileNonce h0 he))
      · omega
    · exact .inr (.inl (isSome_iff_ne_none.mpr hc))
  obtain ⟨d', hnonce, hraw, hbackend, hcp'⟩ : ∃ d', d.fileNonce entry = (.ok nonce, d') ∧
      d'.raw = d.raw ∧ d'.backend = d.backend ∧ d'.cp = d.cp := by
    refine fileNonce_ok hserve h.cache ?_
    rcases hhead with hz | hc | hlen
    · exact .inr (Int.le_of_eq (clampToSize_header (.inl hz)).symm)
    · exact .inl (isSome_iff_ne_none.mp hc)
    · exact .inr (Int.le_of_eq (clampToSize_header (.inr hlen)).symm)
  have hread : d.read entry offset size = _ := read_eq (.inr h0) hnonce hraw hbackend hcp'
  -- whatever range is refused, the read fails
  have refused : ∀ eo es : Int, Driver.encryptedRange d.cp entry.size offset size
      = some (eo, es) → eo < 0 ∨ es < 0 → False := by
    intro eo es hrange hneg
    obtain ⟨e, he⟩ := hserve.reject eo es hneg
    rw [hrange] at hread
    simp only [he] at hread
    exact not_readsAs_of_error hread hreads
  have hoff : offset < maxOffset := by
    refine Nat.not_le.mp fun hle => ?_
    obtain ⟨eo, es, hrange, hneg⟩ := encryptedRange_overflow ho h0 sb names c hn hle
    rw [← hcp, ← hentry] at hrange
    exact refused eo es hrange (.inl hneg)
  refine ⟨hoff, ?_⟩
  by_cases hend : 0 < p.length ∧ p.length ≤ firstBlock offset * 65536
  · exact .inr ⟨hend.1, hhead.resolve_left (by omega), .inl hend.2⟩
  obtain ⟨es, hrange, hpos, hneg, -⟩ := encryptedRange_some ho hs h0 sb names c hn hoff (by omega)
  rw [← hcp, ← hentry] at hrange
  have hsizeOk : SizeOk offset size :=
    Decidable.byContradiction fun hno => refused _ es hrange (.inr (hneg.mpr hno))
  by_cases hz : p.length = 0
  · exact .inl ⟨hz, hsizeOk⟩
  have hp : 0 < p.length := Nat.pos_of_ne_zero hz
  refine .inr ⟨hp, hhead.resolve_left hz, .inr ?_⟩
  by_cases hfull : rangeStart offset + blockCount offset size * 65552 ≤ p.length
  · exact .inl hfull
  right
  obtain ⟨body, hbody, hlast, hdata⟩ :=
    hserve.range (rangeStart offset) es (by omega) (hpos.mpr hsizeOk)
  rw [hrange] at hread
  simp only [hbody] at hread
  have hstart : p.length ≤ rangeStart offset := by
    refine Nat.not_lt.mp fun hlt => ?_
    have hstored := add_le_storedSize p.length
    obtain ⟨cut, hcut, hcut0, hneed, hend'⟩ :=
      clampToSize_cut hlt (show p.length < storedSize p.length by omega) (hpos.mpr hsizeOk) (Nat.not_le.mp hfull)
    rw [hcut] at hdata
    exact not_readsAs_of_cut hsb htr hcp h0 hread hlast hdata hcut0 hneed hend' hreads
  refine ⟨hstart, ?_, hsizeOk⟩
  -- nothing is served, so nothing may be wanted
  rw [clampToSize_behind hp (by omega)] at hdata
  have hempty : body.data = [] := hdata
  obtain ⟨s, d₁, hread₁, hy₁⟩ := readsAs_nil_of_empty_body hsb hcp h0 hread hlast hempty
  obtain ⟨s', d₂, hread₂, hy₂⟩ := hreads
  rw [hread₁] at hread₂
  cases hread₂
  have hnil := congrArg length (hy₁.unique hy₂)
  rw [length_take, length_drop, length_nil] at hnil
  omega

end

/-! ### Three stored bytes -/

/-- Below `2 ^ 24` the first three bytes of the tag tell lengths apart. -/
theorem lengthTag_injective {m : Nat} (hm : m < 16777216) (hn : n < 16777216)
    (h : lengthTag m = lengthTag n) : m = n := by
  have digit : ∀ i < 16, m / 256 ^ i % 256 = n / 256 ^ i % 256 := by
    intro i hi
    have hi' := congrArg (fun l => l[i]?) h
    simp only [lengthTag, getElem?_map, getElem?_range hi, map_some, some.injEq] at hi'
    have := congrArg UInt8.toNat hi'
    simpa only [UInt8.toNat_ofNat', Nat.reducePow, Nat.mod_mod] using this
  have h0 := digit 0 (by omega)
  have h1 := digit 1 (by omega)
  have h2 := digit 2 (by omega)
  omega

theorem lengthBox_rejectsTruncated : lengthBox.RejectsTruncated := by
  intro m nonce key t hm hpre hne
  have hlt : t.length < 16 + m.length := by
    have hle := hpre.length_le
    have hne' := mt (hpre.eq_of_length) hne
    simp only [lengthBox, length_append, length_lengthTag] at hle hne'
    omega
  refine if_neg fun htag => ?_
  have h16 : 16 ≤ t.length := by
    have := congrArg length htag
    rw [length_take, length_lengthTag] at this
    omega
  have hsame : t.take 16 = lengthTag m.length := by
    obtain ⟨rest, hrest⟩ := hpre
    have := congrArg (take 16) hrest
    rwa [take_append_of_le_length h16, lengthBox, take_left' (length_lengthTag _)] at this
  rw [blockDataSize_eq] at hm
  have := lengthTag_injective (by omega) (by omega) (htag.symm.trans hsame)
  omega

/-- A fresh wrapper over a clamping backend that holds `p`. -/
def clampedStore (p : Bytes) : Driver Unit := objectStore (fun entry => clampToSize entry.size) p

def listedThree : Entry := { fileEntry 3 with remoteName := some (ascii "f") }

theorem listed_three : Listed (clampedStore [1, 2, 3]) listedThree
      (encryptedBytes lengthBox zeroCipher zeroNonce [1, 2, 3]) where
  shown := ⟨[], [listedThree], rfl, mem_singleton_self _⟩
  raw _ raws hraw r hr _ := by
    cases hraw
    obtain rfl := mem_singleton.mp hr
    exact ⟨rfl, rfl⟩

end Crypt
