import Qrypt.Crypt.Driver
import Qrypt.Drive.Localfs
import Qrypt.Infra.Run

/-!
# The nonce cache

`crypt.Driver` keeps the nonce of every file it has seen by the id of its entry, and never drops
one. This is right as long as an id keeps its object. Where ids are locations it does not: a file
renamed to the place of a removed one takes over its id, and the cached nonce with it.

* `cached_nonces_match` — a cached nonce is the one in the stored header, if renames only lead to ids without one
-/

namespace Crypt

open Infra Drive List Function

/-! ## Headers -/

def storedNonce (obj : Bytes) : Except Err Nonce := parseHeader (obj.take fileHeaderSize)

theorem storedNonce_of_readHeader {rc rc' : Body} {obj : Bytes} {nonce : Nonce}
    (hpre : rc.data <+: obj) (h : Driver.readHeader rc = (.ok nonce, rc')) : storedNonce obj = .ok nonce := by
  obtain ⟨hbytes, -, herr⟩ := (Body.ends rc).readFull fileHeaderSize
  rcases hread : readFull rc fileHeaderSize with ⟨b, _ | e, rc''⟩
  · rw [hread] at hbytes herr
    rw [Driver.readHeader, hread] at h
    have hlen : fileHeaderSize ≤ rc.data.length := by
      refine Nat.not_lt.mp fun hlt => ?_
      simp only [readFullErr, if_neg (Nat.not_le.mpr hlt)] at herr
      split at herr <;> cases herr
    obtain ⟨rest, rfl⟩ := hpre
    rw [storedNonce, take_append_of_le_length hlen, ← hbytes]
    exact congrArg Prod.fst h
  · rw [Driver.readHeader, hread] at h
    cases h

/-- The loop of `ReadAt` only adds to what has been written. -/
theorem prefix_readAtLoop (fuel : Nat) (f : EncryptedReadOnlyFile) (n : Nat) (off : Int)
    (acc : Bytes) : acc <+: (f.readAtLoop fuel n off acc).bytes := by
  induction fuel generalizing f n off acc with
  | zero => exact prefix_rfl
  | succ fuel ih =>
    rw [EncryptedReadOnlyFile.readAtLoop]
    split
    · exact prefix_rfl
    · split
      · exact prefix_append _ _
      · exact (prefix_append _ _).trans (ih _ _ _ _)

theorem header_prefix_readAt {f : EncryptedReadOnlyFile} {n : Nat} (hsize : 32 ≤ f.size)
    (hn : 32 ≤ n) : header f.source.nonce <+: (f.readAt n 0).bytes := by
  have loop : ∀ m : Nat, 32 ≤ m → header f.source.nonce <+: (f.readAtLoop m m 0 []).bytes := by
    intro m hm
    obtain ⟨k, rfl⟩ : ∃ k, m = k + 1 := ⟨m - 1, by omega⟩
    have hfirst : f.readAtNonEmpty (k + 1) 0 = ⟨header f.source.nonce, none, f⟩ := by
      rw [EncryptedReadOnlyFile.readAtNonEmpty, if_pos (by decide), Int.toNat_zero, drop_zero,
        take_of_length_le (by rw [length_header]; exact hm)]
    rw [EncryptedReadOnlyFile.readAtLoop, if_neg (Nat.succ_ne_zero k), hfirst]
    exact prefix_readAtLoop _ _ _ _ _
  unfold EncryptedReadOnlyFile.readAt
  rw [if_neg (by omega), if_neg (by omega), if_neg (by omega)]
  refine loop _ ?_
  split <;> omega

/-- **An encrypted source starts with the header**, whatever its plaintext is. -/
theorem header_prefix_encryptedSource (cp : Cipher) (source : Source) (nonce : Nonce)
    (hashes : SourceHashes) (h : 32 ≤ cp.encryptedSize source.size) :
    header nonce <+: (Driver.encryptedSource cp source nonce hashes).content := by
  have hread := header_prefix_readAt (n := 32768) (f := (EncryptedSource.mk source.size cp
    nonce).openFile ⟨source.content, true⟩) h (by omega)
  simp only [Driver.encryptedSource, copyAll]
  split
  · next b r' hb =>
    have : b = _ := congrArg ReadResult.bytes hb.symm
    rw [this]
    exact hread.trans (prefix_copyAll _ _ _)
  · next b e r' hb =>
    have : b = _ := congrArg ReadResult.bytes hb.symm
    rwa [this]

theorem storedNonce_encryptedSource (cp : Cipher) (source : Source) (nonce : Nonce)
    (hashes : SourceHashes) (h : 32 ≤ cp.encryptedSize source.size) :
    storedNonce (Driver.encryptedSource cp source nonce hashes).content = .ok nonce := by
  obtain ⟨rest, hrest⟩ := header_prefix_encryptedSource cp source nonce hashes h
  have hlen : (header nonce).length = fileHeaderSize := length_header nonce
  rw [storedNonce, ← hrest, take_left' hlen, parseHeader_header]

/-! ## Operations -/

/-- A call of the driver. `random` is what `GenerateRandomNonce` draws during an upload. -/
inductive DriverCall where
  | putSource (req : UploadRequest) (random : Except Err Nonce)
  | read (entry : Entry) (offset size : Int)
  | encryptedHash (entry : Entry) (plain : Body) (plainSize : Int) (algorithm : HashAlgorithm)
  | mkdir (parentID name : Bytes)
  | rename (entry : Entry) (newName : Bytes)
  | move (entry : Entry) (dstParentID : Bytes)
  | remove (entry : Entry)

section

variable {σ : Type} (hash : HashAlgorithm → Bytes → Bytes)

def Driver.call (d : Driver σ) : DriverCall → Driver σ
  | .putSource req random => (d.putSource hash req random).2
  | .read entry offset size => (d.read entry offset size).2
  | .encryptedHash entry plain plainSize algorithm => (d.encryptedHash hash entry plain plainSize algorithm).2
  | .mkdir parentID name => (d.mkdir parentID name).2
  | .rename entry newName => (d.rename entry newName).2
  | .move entry dstParentID => (d.move entry dstParentID).2
  | .remove entry => (d.remove entry).2

/-- One step of a run. -/
def DriverStep (d : Driver σ) (c : DriverCall) (d' : Driver σ) : Prop := d' = d.call hash c

variable {raw : Drive.Driver σ} (st : Objects raw)

/-- A rename or move does not put an object under an id whose cached nonce is another one. -/
def LandsClear (d : Driver σ) (old new : Bytes) : Prop :=
  old ≠ new → ∀ suffix obj nonce, Below suffix → st.objects d.backend (old ++ suffix) = some obj →
    d.nonceCache (new ++ suffix) = some nonce → storedNonce obj = .ok nonce

/-- The calls that keep the cache right: an upload is not too long, and has not replaced an object whose nonce is cached
when it fails; a rename or move lands clear. -/
def CallOk (d : Driver σ) : DriverCall → Prop
  | .putSource req random =>
    (0 ≤ req.source.size ∧ Fits64 (storedSize req.source.size.toNat)) ∧
      ∀ e, (d.putSource hash req random).1 = .error e → ∀ id, d.nonceCache id ≠ none →
        st.objects (d.putSource hash req random).2.backend id = st.objects d.backend id ∨
          st.objects (d.putSource hash req random).2.backend id = none
  | .rename entry newName => LandsClear st d entry.id (st.renamedID entry (d.cp.encryptSegment newName))
  | .move entry dstParentID => LandsClear st d entry.id (st.movedID entry dstParentID)
  | _ => True

def ReadStream.nonce : ReadStream → Option Nonce
  | .empty => none
  | .plain r => some r.state.nonce
  | .skip r => some r.reader.state.nonce
  | .limit r => some r.reader.state.nonce
  | .limitSkip r => some r.reader.reader.state.nonce

/-- `fileNonce` returns the nonce in the stored header of every object that exists, and `Read`
decrypts with it. -/
structure NoncesMatch (d : Driver σ) : Prop where
  fileNonce : ∀ entry nonce obj, (d.fileNonce entry).1 = .ok nonce →
    st.objects d.backend entry.id = some obj → storedNonce obj = .ok nonce
  read : ∀ entry offset size stream nonce obj, (d.read entry offset size).1 = .ok stream →
    stream.nonce = some nonce → st.objects d.backend entry.id = some obj →
    storedNonce obj = .ok nonce

/-! ## One call -/

/-- What carries the runs: the nonce cached for an object is the one in its header. -/
structure CacheRight (sb : SecretBox) (names : NamePart) (c : RcloneCipher) (d : Driver σ) : Prop where
  raw_eq : d.raw = raw
  cp_eq : d.cp = c.cipher sb names
  cache : ∀ id nonce obj, d.nonceCache id = some nonce → st.objects d.backend id = some obj →
    storedNonce obj = .ok nonce

variable {hash st} {sb : SecretBox} {names : NamePart} {c : RcloneCipher} {d : Driver σ}

section

variable (h : CacheRight st sb names c d)
include h

variable {s : σ} {id : Bytes} {nonce : Nonce}

/-- Another backend state: every object whose nonce is cached was there before or has that nonce. -/
theorem CacheRight.withBackend (hs : ∀ id nonce obj, d.nonceCache id = some nonce → st.objects s id = some obj →
      st.objects d.backend id = some obj ∨ storedNonce obj = .ok nonce) :
    CacheRight st sb names c { d with backend := s } where
  raw_eq := h.raw_eq
  cp_eq := h.cp_eq
  cache id nonce obj hc ho := (hs id nonce obj hc ho).elim (h.cache id nonce obj hc) fun h => h

theorem CacheRight.keeps (hs : Keeps (st.objects d.backend) (st.objects s)) :
    CacheRight st sb names c { d with backend := s } := by
  refine h.withBackend fun id nonce obj _ ho => .inl ?_
  rcases hs id with heq | hnone
  · rw [← heq, ho]
  · simp [hnone] at ho

theorem CacheRight.relocates {old new : Bytes}
    (hs : Relocates (st.objects d.backend) (st.objects s) old new) (hok : LandsClear st d old new) :
    CacheRight st sb names c { d with backend := s } := by
  refine h.withBackend fun id nonce obj hc ho => ?_
  rcases hs id with heq | hnone | ⟨suffix, hbelow, rfl, hmoved⟩
  · exact .inl (by rw [← heq, ho])
  · simp [hnone] at ho
  · rw [ho] at hmoved
    by_cases hne : old = new
    · subst hne
      exact .inl hmoved.symm
    · exact .inr (hok hne suffix obj nonce hbelow hmoved.symm hc)

/-- The nonce of one object is stored; the others may have gone away meanwhile. -/
theorem CacheRight.stored (hid : ∀ obj, st.objects s id = some obj → storedNonce obj = .ok nonce)
    (hothers : ∀ id', id' ≠ id → st.objects s id' = st.objects d.backend id' ∨ st.objects s id' = none) :
    CacheRight st sb names c ({ d with backend := s }.storeNonce id nonce) where
  raw_eq := h.raw_eq
  cp_eq := h.cp_eq
  cache id' nonce' obj hc ho := by
    by_cases heq : id' = id
    · subst heq
      simp only [Driver.storeNonce, update_self] at hc
      cases hc
      exact hid obj ho
    · simp only [Driver.storeNonce, update_of_ne heq] at hc ho
      rcases hothers id' heq with hsame | hnone
      · exact h.cache id' nonce' obj hc (hsame.symm.trans ho)
      · simp [hnone] at ho

theorem CacheRight.storeNonce (hid : ∀ obj, st.objects d.backend id = some obj → storedNonce obj = .ok nonce) :
    CacheRight st sb names c (d.storeNonce id nonce) :=
  h.stored hid fun _ _ => .inl rfl

/-- `fileNonce` returns the stored nonce and keeps the cache right. -/
theorem CacheRight.fileNonce (entry : Entry) :
    CacheRight st sb names c (d.fileNonce entry).2 ∧ (d.fileNonce entry).2.backend = d.backend ∧
      ∀ nonce obj, (d.fileNonce entry).1 = .ok nonce →
        st.objects d.backend entry.id = some obj → storedNonce obj = .ok nonce := by
  unfold Driver.fileNonce
  split
  · next nonce hc => exact ⟨h, rfl, fun n obj hn ho => by cases hn; exact h.cache _ _ _ hc ho⟩
  · split
    · exact ⟨h, rfl, nofun⟩
    · next rc hread =>
      rcases hhdr : Driver.readHeader rc with ⟨e | nonce, rc'⟩
      · exact ⟨h, rfl, nofun⟩
      · have hid : ∀ obj, st.objects d.backend entry.id = some obj → storedNonce obj = .ok nonce := by
          intro obj ho
          rw [h.raw_eq] at hread
          exact storedNonce_of_readHeader (st.read hread ho) hhdr
        exact ⟨h.storeNonce hid, rfl, fun n obj hn ho => by cases hn; exact hid obj ho⟩

/-- `readAll` decrypts with the stored nonce and keeps the cache right. -/
theorem CacheRight.readAll (entry : Entry) : CacheRight st sb names c (d.readAll entry).2 ∧
      ∀ stream nonce obj, (d.readAll entry).1 = .ok stream → stream.nonce = some nonce →
        st.objects d.backend entry.id = some obj → storedNonce obj = .ok nonce := by
  unfold Driver.readAll
  split
  · exact ⟨h, nofun⟩
  · next rc hread =>
    rcases hhdr : Driver.readHeader rc with ⟨e | nonce, rc'⟩
    · exact ⟨h, nofun⟩
    · have hid : ∀ obj, st.objects d.backend entry.id = some obj → storedNonce obj = .ok nonce := by
        intro obj ho
        rw [h.raw_eq] at hread
        exact storedNonce_of_readHeader (st.read hread ho) hhdr
      refine ⟨h.storeNonce hid, fun stream n obj hs hn ho => ?_⟩
      cases hs
      cases hn
      exact hid obj ho

end

/-- The streams of a range decrypt with the nonce they are built with. -/
theorem nonce_rangeStream (rc : Body) (cp : Cipher) (nonce : Nonce) (i : UInt64) (bo size : Int) :
    (Driver.rangeStream (newDecryptingReaderAt rc cp nonce i) bo size).nonce = some nonce := by
  unfold Driver.rangeStream
  split <;> split <;> rfl

/-- `Read` decrypts with the stored nonce and keeps the cache right. -/
theorem CacheRight.read (h : CacheRight st sb names c d) (entry : Entry) (offset size : Int) :
    CacheRight st sb names c (d.read entry offset size).2 ∧
      ∀ stream nonce obj, (d.read entry offset size).1 = .ok stream → stream.nonce = some nonce →
        st.objects d.backend entry.id = some obj → storedNonce obj = .ok nonce := by
  unfold Driver.read
  split
  · exact ⟨h, nofun⟩
  · split
    · exact h.readAll entry
    · obtain ⟨hkeep, -, hnonce⟩ := h.fileNonce entry
      rcases hf : d.fileNonce entry with ⟨e | nonce, d'⟩
      · rw [hf] at hkeep
        exact ⟨hkeep, nofun⟩
      · rw [hf] at hkeep hnonce
        simp only
        split
        · refine ⟨hkeep, fun stream n obj hs hn _ => ?_⟩
          cases hs
          cases hn
        · split
          · exact ⟨hkeep, nofun⟩
          · refine ⟨hkeep, fun stream n obj hs hn ho => ?_⟩
            cases hs
            rw [nonce_rangeStream] at hn
            cases hn
            exact hnonce nonce obj rfl ho

theorem CacheRight.encryptedHash (h : CacheRight st sb names c d) (entry : Entry) (plain : Body)
    (plainSize : Int) (algorithm : HashAlgorithm) :
    CacheRight st sb names c (d.encryptedHash hash entry plain plainSize algorithm).2 := by
  obtain ⟨hkeep, -, -⟩ := h.fileNonce entry
  unfold Driver.encryptedHash
  rcases hf : d.fileNonce entry with ⟨e | nonce, d'⟩ <;> rw [hf] at hkeep
  · exact hkeep
  · simp only
    split
    · exact hkeep
    · split <;> exact hkeep

variable (hash) in
theorem uploadHashes_snd (d : Driver σ) (source encSource : Source) :
    ∃ hashCache, (d.uploadHashes hash source encSource).2 = { d with hashCache := hashCache } := by
  unfold Driver.uploadHashes
  split
  · exact ⟨d.hashCache, rfl⟩
  · split
    · exact ⟨d.hashCache, rfl⟩
    · split
      · exact ⟨d.hashCache, rfl⟩
      · unfold Driver.storeUploadHashes
        split
        · exact ⟨d.hashCache, rfl⟩
        · split
          · exact ⟨d.hashCache, rfl⟩
          · exact ⟨_, rfl⟩

theorem CacheRight.withHashCache (h : CacheRight st sb names c d) (hashCache : Int × Bytes → Option SourceHashes) :
    CacheRight st sb names c { d with hashCache := hashCache } :=
  ⟨h.raw_eq, h.cp_eq, h.cache⟩

theorem encryptedSize_of_callOk (h : d.cp = c.cipher sb names) {size : Int} (h0 : 0 ≤ size)
    (hfit : Fits64 (storedSize size.toNat)) : 32 ≤ d.cp.encryptedSize size := by
  have hle := add_le_storedSize size.toNat
  have hcast : size = (size.toNat : Int) := (Int.toNat_of_nonneg h0).symm
  rw [h, hcast, RcloneCipher.cipher_encryptedSize, encryptedSize_of_fits hfit]
  omega

/-- `PutSource` caches the nonce of the header it stores. -/
theorem CacheRight.putSource (h : CacheRight st sb names c d) (req : UploadRequest)
    (random : Except Err Nonce) (hok : CallOk hash st d (.putSource req random)) :
    CacheRight st sb names c (d.putSource hash req random).2 := by
  obtain ⟨⟨h0, hfit⟩, hfail⟩ := hok
  have hsize := encryptedSize_of_callOk h.cp_eq h0 hfit
  unfold Driver.putSource at hfail ⊢
  rcases hnonce : d.nonceForSource req.source random with e | nonce
  · exact h
  · simp only [hnonce] at hfail ⊢
    rcases hup : d.uploadHashes hash req.source (Driver.encryptedSource d.cp req.source nonce {})
      with ⟨e | hashes, d'⟩ <;> simp only [hup] at hfail ⊢
    all_goals
      obtain ⟨hashCache, hd'⟩ := uploadHashes_snd hash d req.source (Driver.encryptedSource d.cp req.source nonce {})
      rw [hup] at hd'
      simp only at hd'
      subst hd'
    · exact h.withHashCache hashCache
    · rcases hput : d.raw.putSource d.backend { req with
          name := d.cp.encryptSegment req.name
          source := Driver.encryptedSource d.cp req.source nonce hashes } with ⟨e | entry, s⟩ <;>
        simp only [hput] at hfail ⊢
      · refine (h.withHashCache hashCache).withBackend fun id n obj hc ho => .inl ?_
        rcases hfail e rfl id (by simp only at hc; rw [hc]; exact nofun) with heq | hnone
        · exact heq.symm.trans ho
        · simp [hnone] at ho
      · rw [h.raw_eq] at hput
        obtain ⟨hstored, hothers⟩ := st.putSource hput
        refine (h.withHashCache hashCache).stored (fun obj ho => ?_) hothers
        rw [hstored] at ho
        cases ho
        exact storedNonce_encryptedSource _ _ _ _ hsize

/-- **Every call that is in order keeps the cache right.** -/
theorem CacheRight.call (h : CacheRight st sb names c d) (op : DriverCall)
    (hok : CallOk hash st d op) : CacheRight st sb names c (d.call hash op) := by
  obtain rfl := h.raw_eq
  cases op with
  | putSource req random => exact h.putSource req random hok
  | read entry offset size => exact (h.read entry offset size).1
  | encryptedHash entry plain plainSize algorithm => exact h.encryptedHash entry plain plainSize algorithm
  | mkdir parentID name =>
    have hs := st.mkdir d.backend parentID (d.cp.encryptSegment name)
    simp only [Driver.call, Driver.mkdir]
    split <;> next heq => exact h.keeps (by rw [heq] at hs; exact hs)
  | rename entry newName =>
    have hs := st.rename d.backend entry (d.cp.encryptSegment newName)
    simp only [Driver.call, Driver.rename]
    split <;> next heq => exact h.relocates (by rw [heq] at hs; exact hs) hok
  | move entry dstParentID =>
    have hs := st.move d.backend entry dstParentID
    simp only [Driver.call, Driver.move]
    split <;> next heq => exact h.relocates (by rw [heq] at hs; exact hs) hok
  | remove entry =>
    have hs := st.remove d.backend entry
    simp only [Driver.call, Driver.remove]
    exact h.keeps hs

/-! ## Runs -/

variable (hash st sb names c) in
/-- **In every run whose calls are in order, `fileNonce` returns the nonce in the stored header**, and
`Read` decrypts with it. -/
theorem cached_nonces_match (backend : σ) (contentDedup : Bool) (h : Reaches (DriverStep hash) (CallOk hash st)
      (Driver.new raw backend (c.cipher sb names) contentDedup) d) : NoncesMatch st d := by
  have hinv : CacheRight st sb names c d := by
    refine h.invariant (CacheRight st sb names c) ⟨rfl, rfl, nofun⟩ ?_
    rintro d op _ hd hok rfl
    exact hd.call op hok
  exact ⟨fun entry => (hinv.fileNonce entry).2.2, fun entry offset size => (hinv.read entry offset size).2⟩

end

/-! ### Renaming over a removed file -/

def emptyDirectory : Driver Disk :=
  Driver.new (localfs (ascii "/r")) ⟨[], [ascii "/r"], []⟩ (zeroCipher.cipher lengthBox plainNames) false

/-- Uploads an empty file under the name, with the nonce. -/
def putEmpty (name : String) (nonce : Nonce) : DriverCall :=
  .putSource ⟨ascii "/r", ascii name, ⟨0, [], {}⟩⟩ (.ok nonce)

def emptyFile (path : String) : Entry :=
  ⟨ascii path, ascii "/r", basePath (ascii path), false, 0, none⟩

def oneNonce : Nonce := FixedBytes.ofBytes _ [1]

theorem callOk_putEmpty (name : String) (nonce : Nonce) {d : Driver Disk} {entry : Entry}
    (h : (d.putSource (fun _ b => b) ⟨ascii "/r", ascii name, ⟨0, [], {}⟩⟩ (.ok nonce)).1 = .ok entry) :
    CallOk (fun _ b => b) (localfsObjects (ascii "/r")) d (putEmpty name nonce) := by
  refine ⟨(by decide : (0 : Int) ≤ 0 ∧ Fits64 (storedSize 0)), fun e he => ?_⟩
  simp [h] at he

/-- The file `a` is uploaded and renamed to `b`. -/
def renamedFile : Driver Disk :=
  (emptyDirectory.call (fun _ b => b) (putEmpty "a" oneNonce)).call (fun _ b => b)
    (.rename (emptyFile "/r/a") (ascii "b"))

theorem cached_nonces_match_renamed : NoncesMatch (localfsObjects (ascii "/r")) renamedFile := by
  refine cached_nonces_match (fun _ b => b) (localfsObjects (ascii "/r")) lengthBox plainNames
    zeroCipher ⟨[], [ascii "/r"], []⟩ false ?_
  refine ((Reaches.refl _).tail (callOk_putEmpty "a" oneNonce rfl) rfl).tail ?_ rfl
  -- only the nonce of the old id is cached
  rintro - suffix obj nonce - - hcache
  have hne : ascii "/r/b" ++ suffix ≠ ascii "/r/a" := by
    intro h
    have := congrArg (fun l => l[3]?) h
    simp [ascii] at this
  have hupdate : update (fun _ => none) (ascii "/r/a") (some oneNonce)
      (ascii "/r/b" ++ suffix) = some nonce := hcache
  simp [update_of_ne hne] at hupdate

/-- The file `a` is replaced: the new content is uploaded as `t`, `a` is removed, and `t` is renamed to `a`. -/
def replacedFile : Driver Disk :=
  [putEmpty "a" zeroNonce, putEmpty "t" oneNonce, .remove (emptyFile "/r/a"),
    .rename (emptyFile "/r/t") (ascii "a")].foldl (Driver.call fun _ b => b) emptyDirectory

/-- After that the nonce of the removed file is returned for the new one. -/
theorem renamed_file_stale_nonce : Reaches (DriverStep fun _ b => b) (fun _ _ => True) emptyDirectory replacedFile ∧
      (replacedFile.fileNonce (emptyFile "/r/a")).1.toOption = some zeroNonce ∧
      replacedFile.backend.file (ascii "/r/a") = some (header oneNonce) ∧
      ¬ NoncesMatch (localfsObjects (ascii "/r")) replacedFile := by
  have hnonce : (replacedFile.fileNonce (emptyFile "/r/a")).1 = .ok zeroNonce := by rfl
  have hfile : replacedFile.backend.file (ascii "/r/a") = some (header oneNonce) := by rfl
  refine ⟨?_, congrArg Except.toOption hnonce, hfile, fun h => ?_⟩
  · exact reaches_foldl (Driver.call fun _ b => b) _ _
  · have hstored := h.fileNonce _ _ _ hnonce hfile
    exact absurd (congrArg Except.toOption hstored) (by decide)

end Crypt
