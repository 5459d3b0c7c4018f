import Qrypt.Crypt.EncryptSource
import Qrypt.Drive.Types
import Qrypt.Infra.Utf8

/-!
# The encrypting driver

`pkg/crypt/drive_wrapper.go`: a driver that encrypts names and contents on their way to a raw
backend. It keeps two caches: the nonce of each file by entry id, and the hashes of encrypted
sources.

The hash functions and the random nonces are parameters: nothing here depends on what they are.
-/

namespace Crypt

open Infra Drive

/-! ## Streams -/

structure DiscardPrefixReader (ρ : Type) where
  reader : ρ
  discard : Nat
  done : Bool

section

variable {ρ : Type} [Reader ρ] {e : Err}

/-- `discardPrefixReader.Read`: drops the prefix before the first read. -/
instance : Reader (DiscardPrefixReader ρ) where
  read r n :=
    if r.done then
      match Reader.read r.reader n with
      | ⟨b, err, reader⟩ => ⟨b, err, { r with reader := reader }⟩
    else
      match copyN r.reader r.discard with
      | (some e, reader) => ⟨[], some e, { r with reader := reader }⟩
      | (none, reader) =>
        match Reader.read reader n with
        | ⟨b, err, reader⟩ => ⟨b, err, { r with reader := reader, done := true }⟩

theorem DiscardPrefixReader.read_skip {r r' : ρ} {k : Nat} (h : copyN r k = (none, r')) (n : Nat) :
    Reader.read (DiscardPrefixReader.mk r k false) n
      = ⟨(Reader.read r' n).bytes, (Reader.read r' n).err, ⟨(Reader.read r' n).next, k, true⟩⟩ := by
  simp only [Reader.read, h]
  rfl

theorem DiscardPrefixReader.read_short {r r' : ρ} {k : Nat} (h : copyN r k = (some e, r')) (n : Nat) :
    Reader.read (DiscardPrefixReader.mk r k false) n = ⟨[], some e, ⟨r', k, false⟩⟩ := by
  simp only [Reader.read, h]
  rfl

/-- **Without its prefix a stream is what is left of it.** -/
theorem ends_discardPrefix {r : ρ} {d : Bytes} (h : Ends e r d) (k : Nat)
    (hk : k ≠ d.length ∨ e = .eof) : Ends e (DiscardPrefixReader.mk r k false) (d.drop k) := by
  refine ⟨fun r x => ∃ d, Ends e r.reader d ∧
    (if r.done then x = d else x = d.drop r.discard ∧ (r.discard ≠ d.length ∨ e = .eof)),
    ?_, d, h, rfl, hk⟩
  -- reading on without a prefix
  have go : ∀ (r : ρ) (k : Nat) (d : Bytes) (n : Nat), Ends e r d →
      ∃ rest, d = (Reader.read r n).bytes ++ rest ∧ (Reader.read r n).bytes.length ≤ n ∧
        ((Reader.read r n).err = none → (∃ d', Ends e (Reader.read r n).next d' ∧ rest = d') ∧
          (0 < n → (Reader.read r n).bytes ≠ [])) ∧
        (∀ e', (Reader.read r n).err = some e' → e' = e ∧ rest = [] ∧
          (e = .eof → ∃ d', Ends e (Reader.read r n).next d' ∧ [] = d')) := by
    intro r k d n hd
    obtain ⟨rest, h1, h2, h3, h4⟩ := isContent_ends r d n hd
    exact ⟨rest, h1, h2, fun he => ⟨⟨rest, (h3 he).1, rfl⟩, (h3 he).2⟩,
      fun e' he => ⟨(h4 e' he).1, (h4 e' he).2.1, fun heof => ⟨[], (h4 e' he).2.2 heof, rfl⟩⟩⟩
  rintro ⟨r, k, done⟩ x n ⟨d, hd, hx⟩
  cases done with
  | true =>
    subst hx
    exact go r k x n hd
  | false =>
    simp only [Bool.false_eq_true, if_false] at hx
    obtain ⟨rfl, hk⟩ := hx
    obtain ⟨herr, hnext⟩ := hd.copyN k
    rcases hcopy : copyN r k with ⟨err, r'⟩
    simp only [hcopy] at herr hnext
    by_cases hle : k ≤ d.length
    · rw [if_pos hle] at herr
      subst herr
      rw [DiscardPrefixReader.read_skip hcopy]
      exact go r' k (d.drop k) n (hnext (hk.imp_left fun hk => by omega))
    · rw [if_neg hle] at herr
      subst herr
      have hdrop : d.drop k = [] := List.drop_of_length_le (by omega)
      rw [DiscardPrefixReader.read_short hcopy, hdrop]
      refine ⟨[], rfl, Nat.zero_le n, nofun, fun e' he => ⟨(Option.some.inj he).symm, rfl,
        fun heof => ⟨[], ?_, by simp [heof]⟩⟩⟩
      have hr' := hnext (.inr heof)
      rwa [hdrop] at hr'

end

/-- The streams `Driver.Read` returns. -/
inductive ReadStream where
  | empty
  | plain (r : DecryptingReader)
  | skip (r : DiscardPrefixReader DecryptingReader)
  | limit (r : LimitedReader DecryptingReader)
  | limitSkip (r : LimitedReader (DiscardPrefixReader DecryptingReader))

instance : Reader ReadStream where
  read
    | .empty, _ => ⟨[], some .eof, .empty⟩
    | .plain r, n => ⟨(Reader.read r n).bytes, (Reader.read r n).err, .plain (Reader.read r n).next⟩
    | .skip r, n => ⟨(Reader.read r n).bytes, (Reader.read r n).err, .skip (Reader.read r n).next⟩
    | .limit r, n => ⟨(Reader.read r n).bytes, (Reader.read r n).err, .limit (Reader.read r n).next⟩
    | .limitSkip r, n => ⟨(Reader.read r n).bytes, (Reader.read r n).err, .limitSkip (Reader.read r n).next⟩

theorem delivers_empty : Delivers ReadStream.empty [] := by
  refine ⟨fun s d => s = .empty ∧ d = [], ?_, rfl, rfl⟩
  rintro _ _ n ⟨rfl, rfl⟩
  exact ⟨[], rfl, Nat.zero_le n, nofun, fun e' he => ⟨(Option.some.inj he).symm, rfl, fun _ => ⟨rfl, rfl⟩⟩⟩

/-! ## The driver -/

/-- `Driver`, together with the state of the backend it wraps. -/
structure Driver (σ : Type) where
  raw : Drive.Driver σ
  backend : σ
  cp : Cipher
  contentDedup : Bool
  nonceCache : Bytes → Option Nonce
  hashCache : Int × Bytes → Option SourceHashes

namespace Driver

variable {σ : Type}

/-- `NewDriver`. -/
def new (raw : Drive.Driver σ) (backend : σ) (cp : Cipher) (contentDedup : Bool) : Driver σ where
  raw := raw
  backend := backend
  cp := cp
  contentDedup := contentDedup
  nonceCache _ := none
  hashCache _ := none

variable (d : Driver σ)

/-- `d.nonceCache.Store(id, nonce)`. -/
def storeNonce (id : Bytes) (nonce : Nonce) : Driver σ :=
  { d with nonceCache := Function.update d.nonceCache id (some nonce) }

def validPlainName (name : Bytes) : Bool :=
  let name := trimSpace name
  name != [] && name != ascii "." && name != ascii ".." && validString name && !name.any (fun b => b == 47 || b == 0)

/-- What `List` makes of one raw entry; entries with foreign names are left out. -/
def listEntry (cp : Cipher) (entry : Entry) : Option Entry :=
  match cp.decryptSegment entry.name with
  | .error _ => none
  | .ok name =>
    if validPlainName name then
      some { entry with
        name := trimSpace name
        size :=
          if entry.isDir then entry.size
          else
            match cp.decryptedSize entry.size with
            | .ok size => size
            | .error _ => entry.size
        remoteName := some entry.name }
    else none

def list (parentID : Bytes) : Except Err (List Entry) :=
  match d.raw.list d.backend parentID with
  | .error e => .error e
  | .ok entries => .ok (entries.filterMap (listEntry d.cp))

/-- Reads and checks the header of a stream; `io.ReadFull` is made to wait for all of it. -/
def readHeader (rc : Body) : Except Err Nonce × Body :=
  match readFull rc fileHeaderSize with
  | ⟨_, some e, rc⟩ => (.error (.text ("crypt: read header: " ++ e.message)), rc)
  | ⟨header, none, rc⟩ => (parseHeader header, rc)

def fileNonce (entry : Entry) : Except Err Nonce × Driver σ :=
  match d.nonceCache entry.id with
  | some nonce => (.ok nonce, d)
  | none =>
    match d.raw.read d.backend entry 0 fileHeaderSize with
    | .error e => (.error e, d)
    | .ok rc =>
      match (readHeader rc).1 with
      | .error e => (.error e, d)
      | .ok nonce => (.ok nonce, d.storeNonce entry.id nonce)

def readAll (entry : Entry) : Except Err ReadStream × Driver σ :=
  match d.raw.read d.backend entry 0 0 with
  | .error e => (.error e, d)
  | .ok rc =>
    match readHeader rc with
    | (.error e, _) => (.error e, d)
    | (.ok nonce, rc) => (.ok (.plain (newDecryptingReader rc d.cp nonce)), d.storeNonce entry.id nonce)

/-- The encrypted range `Driver.Read` asks for: offset and size, or nothing behind the end of the object. All sums and
products are `int64`. -/
def encryptedRange (cp : Cipher) (entrySize offset size : Int) : Option (Int × Int) :=
  let blockIndex := offset.tdiv blockDataSize
  let blockOffset := offset.tmod blockDataSize
  let encOffset := wrap64 (fileHeaderSize + wrap64 (blockIndex * blockSize))
  let encSize :=
    if size > 0 then
      let plainNeeded := wrap64 (blockOffset + size)
      let blocks := (wrap64 (plainNeeded + blockDataSize - 1)).tdiv blockDataSize
      wrap64 (blocks * blockSize)
    else blockSize
  if entrySize > 0 then
    let encTotal := cp.encryptedSize entrySize
    if encOffset ≥ encTotal then none
    else if wrap64 (encOffset + encSize) > encTotal then some (encOffset, wrap64 (encTotal - encOffset))
    else some (encOffset, encSize)
  else some (encOffset, encSize)

/-- The stream over the decryptor: without the first `blockOffset` bytes, and at most `size` when that is positive. -/
def rangeStream (r : DecryptingReader) (blockOffset size : Int) : ReadStream :=
  if blockOffset > 0 then
    if size > 0 then .limitSkip ⟨⟨r, blockOffset.toNat, false⟩, size.toNat⟩
    else .skip ⟨r, blockOffset.toNat, false⟩
  else if size > 0 then .limit ⟨r, size.toNat⟩
  else .plain r

def read (entry : Entry) (offset size : Int) : Except Err ReadStream × Driver σ :=
  if offset < 0 ∨ size < 0 then
    (.error (.text "crypt: read offset and size must be non-negative"), d)
  else if offset = 0 ∧ size = 0 then d.readAll entry
  else
    match d.fileNonce entry with
    | (.error e, d) => (.error e, d)
    | (.ok nonce, d) =>
      match encryptedRange d.cp entry.size offset size with
      | none => (.ok .empty, d)
      | some (encOffset, encSize) =>
        match d.raw.read d.backend entry encOffset encSize with
        | .error e => (.error e, d)
        | .ok rc =>
          let blockIndex := UInt64.ofNat (offset.tdiv blockDataSize).toNat
          (.ok (rangeStream (newDecryptingReaderAt rc d.cp nonce blockIndex) (offset.tmod blockDataSize) size), d)

def mkdir (parentID name : Bytes) : Except Err Entry × Driver σ :=
  let encName := d.cp.encryptSegment name
  match d.raw.mkdir d.backend parentID encName with
  | (.error e, backend) => (.error e, { d with backend := backend })
  | (.ok entry, backend) =>
    (.ok { entry with remoteName := some encName, name := name }, { d with backend := backend })

def move (entry : Entry) (dstParentID : Bytes) : Except Err Entry × Driver σ :=
  match d.raw.move d.backend entry dstParentID with
  | (.error e, backend) => (.error e, { d with backend := backend })
  | (.ok moved, backend) =>
    (.ok { moved with remoteName := some moved.name, name := entry.name }, { d with backend := backend })

def rename (entry : Entry) (newName : Bytes) : Except Err Entry × Driver σ :=
  let encName := d.cp.encryptSegment newName
  match d.raw.rename d.backend entry encName with
  | (.error e, backend) => (.error e, { d with backend := backend })
  | (.ok renamed, backend) =>
    (.ok { renamed with remoteName := some encName, name := newName }, { d with backend := backend })

def remove (entry : Entry) : Option Err × Driver σ :=
  match d.raw.remove d.backend entry with
  | (err, backend) => (err, { d with backend := backend })

/-! ## `PutSource` -/

/-- The encrypted source as the raw driver sees it: what reading its handle to the end gives. -/
def encryptedSource (cp : Cipher) (source : Source) (nonce : Nonce) (hashes : SourceHashes) : Source :=
  let enc := EncryptedSource.mk source.size cp nonce
  { size := enc.size
    content := (copyAll (enc.size.toNat + 1) (enc.openFile ⟨source.content, true⟩) []).1
    hashes := hashes }

/-- `Driver.nonceForSource`; `random` is what `GenerateRandomNonce` draws. -/
def nonceForSource (source : Source) (random : Except Err Nonce) : Except Err Nonce :=
  if d.contentDedup = false then
    match random with
    | .error e => .error (.text ("crypt: generate nonce: " ++ e.message))
    | .ok nonce => .ok nonce
  else
    match source.hashes.sha256 with
    | none => .error (.text "crypt: content_dedup requires source SHA-256 metadata")
    | some sum =>
      if sum.length ≠ 32 then
        .error (.text s!"crypt: source SHA-256 metadata has {sum.length} bytes, want 32")
      else
        match d.cp.contentDedupNonce (FixedBytes.ofBytes 32 sum) source.size with
        | .error e => .error (.text ("crypt: derive content_dedup nonce: " ++ e.message))
        | .ok nonce => .ok nonce

def contentDedupHashCacheKey (source : Source) : Option (Int × Bytes) :=
  match source.hashes.sha256 with
  | some sum => if sum.length = 32 then some (source.size, sum) else none
  | none => none

def cachedUploadHashes (source : Source) (algorithms : List HashAlgorithm) : Option SourceHashes :=
  match (contentDedupHashCacheKey source).bind d.hashCache with
  | none => none
  | some hashes => if algorithms.all fun a => (hashes.get a).isSome then some hashes else none

def storeUploadHashes (source : Source) (hashes : SourceHashes) : Driver σ :=
  if hashes.isEmpty then d
  else
    match contentDedupHashCacheKey source with
    | none => d
    | some key => { d with hashCache := Function.update d.hashCache key (some hashes) }

/-- `readSourceHashes`: hashes what the source reads to, and checks its length. -/
def readSourceHashes (hash : HashAlgorithm → Bytes → Bytes) (source : Source)
    (algorithms : List HashAlgorithm) : Except Err SourceHashes :=
  if (source.content.length : Int) ≠ source.size then
    .error (.text s!"crypt: upload hash source size mismatch: read {source.content.length}, expected {source.size}")
  else .ok (algorithms.foldl (fun h a => h.set a (hash a source.content)) {})

/-- The hashes `PutSource` attaches to the encrypted source. -/
def uploadHashes (hash : HashAlgorithm → Bytes → Bytes) (d : Driver σ) (source encSource : Source) :
    Except Err SourceHashes × Driver σ :=
  if d.contentDedup = false ∨ d.raw.requiredUploadHashes = [] then (.ok {}, d)
  else
    match d.cachedUploadHashes source d.raw.requiredUploadHashes with
    | some hashes => (.ok hashes, d)
    | none =>
      match readSourceHashes hash encSource d.raw.requiredUploadHashes with
      | .error e => (.error e, d)
      | .ok hashes => (.ok hashes, d.storeUploadHashes source hashes)

def putSource (hash : HashAlgorithm → Bytes → Bytes) (d : Driver σ) (req : UploadRequest)
    (random : Except Err Nonce) : Except Err Entry × Driver σ :=
  match d.nonceForSource req.source random with
  | .error e => (.error e, d)
  | .ok nonce =>
    let encName := d.cp.encryptSegment req.name
    match d.uploadHashes hash req.source (encryptedSource d.cp req.source nonce {}) with
    | (.error e, d) => (.error e, d)
    | (.ok hashes, d) =>
      match d.raw.putSource d.backend { req with
          name := encName
          source := encryptedSource d.cp req.source nonce hashes } with
      | (.error e, backend) => (.error e, { d with backend := backend })
      | (.ok entry, backend) =>
        (.ok { entry with remoteName := some encName, name := req.name, size := req.source.size },
          { d with backend := backend }.storeNonce entry.id nonce)

/-! ## `EncryptedHash` -/

/-- `Driver.EncryptedHash`. A byte of the plaintext makes at most 17 of the object, which bounds the calls of `io.Copy`.
-/
def encryptedHash (hash : HashAlgorithm → Bytes → Bytes) (d : Driver σ) (entry : Entry)
    (plain : Body) (plainSize : Int) (algorithm : HashAlgorithm) : Except Err Bytes × Driver σ :=
  match d.fileNonce entry with
  | (.error e, d) => (.error e, d)
  | (.ok nonce, d) =>
    if algorithm = .sha256 then
      (.error (.text "crypt: unsupported hash algorithm \"sha256\""), d)
    else
      match copyAll (34 + 17 * plain.data.length)
          (newEncryptingReader plain d.cp nonce plainSize) [] with
      | (_, some e) => (.error (.text ("crypt: encrypting for hash: " ++ e.message)), d)
      | (enc, none) => (.ok (hexEncode (hash algorithm enc)), d)

end Driver

end Crypt
