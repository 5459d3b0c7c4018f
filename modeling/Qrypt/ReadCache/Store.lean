import Qrypt.Vfs.System

/-!
# The durable read cache

Chunks of remote files in batch files on disk, and the index over them. `putReader` seeds a file
from a stream: one call of `Read` becomes one chunk. So what `getChunk` finds afterwards are the
pieces the stream was handed out in (`getChunk_putReader`), and those are the aligned chunks of the
content exactly when every call but the last filled its buffer.
-/

namespace ReadCache

open Infra Reader List Option
open Vfs (writeAt)

/-- Bytes of a chunk, all but the last one of a file. -/
def readChunkSize : Nat := 512 * 1024

def cacheBatchBlocks : Nat := 16

/-- The path of a batch file: the name of the file's id, and the number of the batch. -/
structure BatchPath where
  cacheID : Bytes
  batch : Nat
  deriving DecidableEq, Repr

/-- The replacement state of a chunk. -/
inductive ChunkState where
  | stateUnproven
  | stateProbationary
  | stateProtected
  deriving DecidableEq, Repr

structure ChunkInfo where
  file : BatchPath
  offset : Nat
  size : Nat
  accessAt : Int
  admitRun : Nat
  state : ChunkState
  deriving DecidableEq, Repr

structure FileChunks where
  fileSize : Int
  chunks : AList fun _ : Nat => ChunkInfo

/-- The chunks of a file that are indexed, in bytes. -/
def chunkBytes (chunks : AList fun _ : Nat => ChunkInfo) : Nat := (chunks.entries.map (·.2.size)).sum

/-- The store with the batch files of its directory. -/
structure Store where
  maxSize : Int
  files : AList fun _ : BatchPath => Bytes
  chunks : AList fun _ : Bytes => FileChunks
  readBytes : Int

/-- What the surroundings answer: the hash behind the names of batch files, the clock, failures of the disk, the bytes
the cache may hold, and what an eviction makes of a store. -/
structure Env where
  cacheFileID : Bytes → Bytes
  now : Int
  ensureReadCacheDir : Option Err
  writeSeed : Nat → Option Err
  rename : BatchPath → Option Err
  maxSize : Int
  evict : Store → Store

/-! ## Reading -/

/-- `ReadAt` into a buffer of `size` bytes; a short read is an error. -/
def readAt (content : Bytes) (off size : Nat) : Option Bytes :=
  if off + size ≤ content.length then some ((content.drop off).take size) else none

/-- The chunks of a file; a file that has none gets an empty map. -/
def fileChunks (c : Store) (fid : Bytes) : FileChunks × Store :=
  match c.chunks.lookup fid with
  | some fc => (fc, c)
  | none => (⟨0, ∅⟩, { c with chunks := c.chunks.insert fid ⟨0, ∅⟩ })

def dropReadChunkIndex (c : Store) (fid : Bytes) (index : Nat) : Store :=
  match c.chunks.lookup fid with
  | none => c
  | some fc =>
    let chunks := fc.chunks.erase index
    { c with
      chunks := if chunks.keys = [] then c.chunks.erase fid else c.chunks.insert fid { fc with chunks := chunks }
      readBytes := c.readBytes - ((fc.chunks.lookup index).map (·.size)).getD 0 }

/-- A hit refreshes the last access once a second, and protects a chunk that another run comes back for. -/
def touchReadChunk (c : Store) (fid : Bytes) (fc : FileChunks) (index : Nat) (info : ChunkInfo) (run : Nat)
    (now : Int) : Store :=
  let info := if info.accessAt + 1000000000 < now then { info with accessAt := now } else info
  let info := if run ≠ 0 ∧ run = info.admitRun then info else { info with state := .stateProtected }
  { c with chunks := c.chunks.insert fid { fc with chunks := fc.chunks.insert index info } }

/-- `GetChunk`; `none` is a miss. A chunk whose bytes are gone from the disk is dropped from the index. -/
def getChunk (c : Store) (fid : Bytes) (index run : Nat) (now : Int) : Option Bytes × Store :=
  if c.maxSize ≤ 0 then (none, c)
  else
    let (fc, c) := fileChunks c fid
    match fc.chunks.lookup index with
    | none => (none, c)
    | some info =>
      match (c.files.lookup info.file).bind (readAt · info.offset info.size) with
      | none => (none, dropReadChunkIndex c fid index)
      | some data => (some data, touchReadChunk c fid fc index info run now)

/-! ## Seeding a file -/

/-- The chunks of a seeding so far, and its temporary batch files under their final names. -/
structure Seed where
  newChunks : AList fun _ : Nat => ChunkInfo
  tempFiles : AList fun _ : BatchPath => Bytes

def seedInfo (cacheID : Bytes) (now : Int) (index size : Nat) : ChunkInfo where
  file := ⟨cacheID, index / cacheBatchBlocks⟩
  offset := index % cacheBatchBlocks * readChunkSize
  size := size
  accessAt := now
  admitRun := 0
  state := .stateUnproven

/-- What a call of `Read` handed out becomes the chunk of that index. -/
def Seed.add (s : Seed) (cacheID : Bytes) (now : Int) (index : Nat) (data : Bytes) : Seed :=
  if data = [] then s
  else
    let info := seedInfo cacheID now index data.length
    ⟨s.newChunks.insert index info,
      s.tempFiles.insert info.file (writeAt ((s.tempFiles.lookup info.file).getD []) data info.offset)⟩

variable {ρ : Type} [Reader ρ]

/-- The loop of `PutReader`: a call of `Read` for each index. `none` is a loop that still runs. -/
def seedLoop (env : Env) (cacheID : Bytes) : Nat → ρ → Nat → Seed → Option (Option Err × Seed)
  | 0, _, _, _ => none
  | fuel + 1, r, index, s =>
    let res := read r readChunkSize
    match if res.bytes = [] then none else env.writeSeed index with
    | some err => some (some err, s)
    | none =>
      let s := s.add cacheID env.now index res.bytes
      match res.err with
      | none => seedLoop env cacheID fuel res.next (index + 1) s
      | some .eof => some (none, s)
      | some err => some (some err, s)

def replaceFileChunks (c : Store) (fid : Bytes) (fileSize : Int) (chunks : AList fun _ : Nat => ChunkInfo) : Store :=
  { c with
    chunks := c.chunks.insert fid ⟨fileSize, chunks⟩
    readBytes := c.readBytes + (chunkBytes chunks - ((c.chunks.lookup fid).map (chunkBytes ·.chunks)).getD 0) }

def evictIfNeeded (env : Env) (c : Store) : Store := if c.readBytes ≤ env.maxSize then c else env.evict c

/-- The end of `PutReader`: temporary files take their final names, the index is replaced, old batch files without
successor are removed. A rename that fails undoes the ones before it. -/
def installSeed (env : Env) (c : Store) (fid : Bytes) (fileSize : Int) (s : Seed) : Option Err × Store :=
  match s.tempFiles.keys.findSome? env.rename with
  | some err =>
    (some err, { c with files := (s.tempFiles.keys.takeWhile fun p => (env.rename p).isNone).foldl (·.erase ·) c.files })
  | none =>
    let old := ((c.chunks.lookup fid).map fun fc => fc.chunks.entries.map (·.2.file)).getD []
    let c := replaceFileChunks { c with files := s.tempFiles ∪ c.files } fid fileSize s.newChunks
    (none, evictIfNeeded env { c with files := (old.filter (· ∉ s.tempFiles)).foldl (·.erase ·) c.files })

/-- `PutReader`, for a number of calls of `Read`. -/
def putReader (env : Env) (fuel : Nat) (c : Store) (fid : Bytes) (fileSize : Int) (r : ρ) :
    Option (Option Err × Store) :=
  if fid = [] ∨ c.maxSize ≤ 0 then some (none, c)
  else
    match env.ensureReadCacheDir with
    | some err => some (some err, c)
    | none =>
      (seedLoop env (env.cacheFileID fid) fuel r 0 ⟨∅, ∅⟩).map fun (err, s) =>
        match err with
        | some err => (some err, c)
        | none => installSeed env c fid fileSize s

/-! ## The pieces of a stream -/

/-- One call of the loop. -/
abbrev call (r : ρ) : ReadResult ρ := read r readChunkSize

def afterCalls (r : ρ) (k : Nat) : ρ := (fun r => (call r).next)^[k] r

/-- The bytes that call number `k` hands out. -/
def piece (r : ρ) (k : Nat) : Bytes := (call (afterCalls r k)).bytes

/-- Chunk `i` of a content. -/
def chunkAt (content : Bytes) (i : Nat) : Bytes := (content.drop (i * readChunkSize)).take readChunkSize

def present (b : Bytes) : Option Bytes := if b = [] then none else some b

/-- Every call but the last one that hands out bytes fills the buffer. -/
def FullReads (r : ρ) : Prop := ∀ k, piece r (k + 1) ≠ [] → (piece r k).length = readChunkSize

variable {r : ρ} {content : Bytes}

theorem call_cases (h : Delivers r content) :
    ∃ rest, content = (call r).bytes ++ rest ∧ (call r).bytes.length ≤ readChunkSize ∧ Delivers (call r).next rest ∧
      ((call r).bytes = [] → content = []) ∧ ∀ e, (call r).err = some e → e = .eof ∧ rest = [] := by
  rcases h.read_cases readChunkSize with ⟨b, rest, r', hread, rfl, hb, hnext, hpos⟩ | ⟨r', hread, hb, hnext⟩
  · rw [call, hread]
    refine ⟨rest, rfl, hb, hnext, fun h => ?_, by simp⟩
    have hpos := hpos (by decide)
    simp_all
  · rw [call, hread]
    exact ⟨[], by simp, hb, hnext rfl, id, by simp⟩

theorem piece_succ (k : Nat) : piece r (k + 1) = piece (call r).next k := rfl

theorem afterCalls_succ (k : Nat) : afterCalls r (k + 1) = (call (afterCalls r k)).next :=
  Function.iterate_succ_apply' _ k r

theorem chunkAt_append {b rest : Bytes} (hb : b.length = readChunkSize) (i : Nat) :
    chunkAt (b ++ rest) (i + 1) = chunkAt rest i := by
  rw [chunkAt, Nat.succ_mul, Nat.add_comm, ← drop_drop, ← hb, drop_left, hb, chunkAt]

theorem chunkAt_nil (i : Nat) : chunkAt [] i = [] := by simp [chunkAt]

theorem rest_cases (h : Delivers r content) (hfull : FullReads r) :
    ∃ rest, content = piece r 0 ++ rest ∧ Delivers (call r).next rest ∧
      (rest = [] ∧ (piece r 0).length ≤ readChunkSize ∨ (piece r 0).length = readChunkSize) := by
  obtain ⟨rest, hcontent, hb, hnext, -, -⟩ := call_cases h
  refine ⟨rest, hcontent, hnext, ?_⟩
  by_cases hrest : rest = []
  · exact .inl ⟨hrest, hb⟩
  · obtain ⟨-, -, -, -, hempty, -⟩ := call_cases hnext
    exact .inr (hfull 0 fun h => hrest (hempty h))

/-- **Full reads hand out the chunks of the content.** -/
theorem piece_eq_chunkAt (h : Delivers r content) (hfull : FullReads r) (i : Nat) : piece r i = chunkAt content i := by
  induction i generalizing r content with
  | zero =>
    obtain ⟨rest, rfl, -, ⟨rfl, hb⟩ | hb⟩ := rest_cases h hfull
    · simp [chunkAt, hb]
    · rw [chunkAt, Nat.zero_mul, drop_zero, take_left' hb]
  | succ i ih =>
    obtain ⟨rest, rfl, hnext, hb⟩ := rest_cases h hfull
    rw [piece_succ, ih hnext fun k => hfull (k + 1)]
    rcases hb with ⟨rfl, hb⟩ | hb
    · have := Nat.le_mul_of_pos_left readChunkSize (show 0 < i + 1 by omega)
      rw [chunkAt_nil, chunkAt, drop_eq_nil_of_le (by simp; omega), take_nil]
    · rw [chunkAt_append hb]

theorem present_inj {a b : Bytes} (h : present a = present b) : a = b := by
  unfold present at h
  split_ifs at h with ha hb hb
  · exact ha.trans hb.symm
  · exact some.inj h

theorem pieces_iff (h : Delivers r content) :
    (∀ i, present (piece r i) = present (chunkAt content i)) ↔ FullReads r := by
  refine ⟨fun hall k hk => ?_, fun hfull i => by rw [piece_eq_chunkAt h hfull]⟩
  rw [present_inj (hall (k + 1))] at hk
  rw [present_inj (hall k)]
  have hlt : (k + 1) * readChunkSize < content.length := by
    by_contra hle
    exact hk (by rw [chunkAt, drop_eq_nil_of_le (by omega), take_nil])
  rw [Nat.succ_mul] at hlt
  simp only [chunkAt, length_take, length_drop]
  omega

/-! ## What a seeding stores -/

theorem readAt_writeAt_self (f : Bytes) {data : Bytes} (off : Nat) (h : data ≠ []) :
    readAt (writeAt f data off) off data.length = some data := by
  have hlen : ((f ++ replicate (off - f.length) 0).take off).length = off := by simp; omega
  rw [writeAt, if_neg h, readAt, if_pos (by simp; omega), append_assoc, drop_left' hlen, take_left]

theorem readAt_writeAt_of_le {f data d : Bytes} {off off' size : Nat} (h : off' + size ≤ off)
    (hread : readAt f off' size = some d) : readAt (writeAt f data off) off' size = some d := by
  unfold readAt at hread
  split_ifs at hread with hle
  rw [← hread, readAt, writeAt]
  split_ifs with hd hlt
  · rfl
  · rw [append_assoc, drop_append_of_le_length (by simp; omega), take_append_of_le_length (by simp; omega),
      drop_take, take_take, drop_append_of_le_length (by omega), Nat.min_eq_left (by omega),
      take_append_of_le_length (by simp; omega)]
  · simp at hlt
    omega

variable {env : Env} {cacheID : Bytes} {index : Nat} {s s' : Seed}

/-- After `index` calls every piece is a chunk that can be read back, and there are no others. -/
structure Seeded (env : Env) (cacheID : Bytes) (r : ρ) (index : Nat) (s : Seed) : Prop where
  chunks : ∀ i, s.newChunks.lookup i =
    if i < index ∧ piece r i ≠ [] then some (seedInfo cacheID env.now i (piece r i).length) else none
  bytes : ∀ i < index, piece r i ≠ [] → (s.tempFiles.lookup ⟨cacheID, i / cacheBatchBlocks⟩).bind
    (readAt · (i % cacheBatchBlocks * readChunkSize) (piece r i).length) = some (piece r i)

/-- A call adds its piece: a chunk before it lies in another batch file, or in front of it. -/
theorem Seeded.add (h : Seeded env cacheID r index s) (hsize : ∀ i, (piece r i).length ≤ readChunkSize) :
    Seeded env cacheID r (index + 1) (s.add cacheID env.now index (piece r index)) := by
  unfold Seed.add
  split_ifs with hpiece
  · refine ⟨fun i => ?_, fun i hi hne => h.bytes i ?_ hne⟩
    · have := h.chunks i
      grind
    · grind
  refine ⟨fun i => ?_, fun i hi hne => ?_⟩
  · rw [lookup_insert_eq, h.chunks]
    grind
  · simp only [lookup_insert_eq, seedInfo, BatchPath.mk.injEq, true_and]
    rcases Nat.lt_succ_iff_lt_or_eq.mp hi with hi | rfl
    · have hread := h.bytes i hi hne
      split_ifs with hbatch
      · rw [hbatch] at hread
        obtain ⟨f, hf, hread⟩ := bind_eq_some_iff.mp hread
        rw [hf, getD_some, bind_some]
        refine readAt_writeAt_of_le ?_ hread
        have hmod : i % cacheBatchBlocks + 1 ≤ index % cacheBatchBlocks := by
          simp only [cacheBatchBlocks] at hbatch ⊢
          omega
        have hle := Nat.mul_le_mul_right readChunkSize hmod
        rw [Nat.add_one_mul] at hle
        exact (Nat.add_le_add_left (hsize i) _).trans hle
      · exact hread
    · rw [if_pos rfl, bind_some, readAt_writeAt_self _ _ hpiece]

theorem Seeded.chunkBytes_add (h : Seeded env cacheID r index s) (now : Int) (data : Bytes) :
    chunkBytes (s.add cacheID now index data).newChunks = chunkBytes s.newChunks + data.length := by
  unfold Seed.add
  split_ifs with hdata
  · rw [hdata, length_nil, Nat.add_zero]
  · rw [chunkBytes, AList.entries_insert_of_notMem (AList.lookup_eq_none.mp (by simp [h.chunks])), map_cons,
      sum_cons, Nat.add_comm]
    rfl

theorem delivers_afterCalls (h : Delivers r content) (k : Nat) : ∃ rest, Delivers (afterCalls r k) rest := by
  induction k with
  | zero => exact ⟨content, h⟩
  | succ k ih =>
    obtain ⟨rest, hrest⟩ := ih
    obtain ⟨rest', -, -, hnext, -⟩ := call_cases hrest
    exact ⟨rest', by rwa [afterCalls_succ]⟩

theorem length_piece_le (h : Delivers r content) (k : Nat) : (piece r k).length ≤ readChunkSize := by
  obtain ⟨rest, hrest⟩ := delivers_afterCalls h k
  obtain ⟨-, -, hb, -⟩ := call_cases hrest
  exact hb

theorem piece_eq_nil {m i : Nat} (h : Delivers (afterCalls r m) []) (hi : m ≤ i) : piece r i = [] := by
  have hdone : Delivers (afterCalls r i) [] := by
    induction i, hi using Nat.le_induction with
    | base => exact h
    | succ i _ ih =>
      obtain ⟨rest, hnil, -, hnext, -⟩ := call_cases ih
      rw [(append_eq_nil_iff.mp hnil.symm).2] at hnext
      rwa [afterCalls_succ]
  obtain ⟨rest, hnil, -⟩ := call_cases hdone
  exact (append_eq_nil_iff.mp hnil.symm).1

/-- **The loop makes a chunk of every piece.** -/
theorem Seeded.seedLoop {fuel : Nat} {rest : Bytes} (hs : Seeded env cacheID r index s) (hr : Delivers r content)
    (hrest : Delivers (afterCalls r index) rest)
    (hbytes : chunkBytes s.newChunks + rest.length = content.length)
    (hloop : seedLoop env cacheID fuel (afterCalls r index) index s = some (none, s')) :
    ∃ m, Seeded env cacheID r m s' ∧ Delivers (afterCalls r m) [] ∧ chunkBytes s'.newChunks = content.length := by
  induction fuel generalizing index s rest with
  | zero => cases hloop
  | succ fuel ih =>
    obtain ⟨rest', rfl, -, hnext, -, hend⟩ := call_cases hrest
    rw [← afterCalls_succ] at hnext
    have hs' := hs.add (length_piece_le hr)
    have hbytes' := hs.chunkBytes_add env.now (piece r index)
    rw [length_append] at hbytes
    simp only [ReadCache.seedLoop] at hloop
    split at hloop
    · cases hloop
    split at hloop
    · rw [← afterCalls_succ] at hloop
      exact ih hs' hnext (by rw [hbytes', Nat.add_assoc]; exact hbytes) hloop
    · next he =>
      cases hloop
      obtain ⟨-, rfl⟩ := hend _ he
      exact ⟨index + 1, hs', hnext, hbytes'.trans hbytes⟩
    · cases hloop

variable {c c' : Store} {fid : Bytes} {fileSize : Int} {fuel : Nat}

/-- **A seeded file is found in the pieces of its stream.** -/
theorem getChunk_putReader (hr : Delivers r content) (hfid : fid ≠ []) (hmax : 0 < c.maxSize)
    (hcap : c.readBytes + (content.length - ((c.chunks.lookup fid).map (chunkBytes ·.chunks)).getD 0) ≤ env.maxSize)
    (hput : putReader env fuel c fid fileSize r = some (none, c')) (i run : Nat) (now : Int) :
    (getChunk c' fid i run now).1 = present (piece r i) := by
  rw [putReader, if_neg (by simp [hfid, hmax])] at hput
  split at hput
  · cases hput
  obtain ⟨⟨err, s⟩, hloop, hput⟩ := map_eq_some_iff.mp hput
  cases err with
  | some err => cases hput
  | none =>
    have hstart : Seeded env (env.cacheFileID fid) r 0 ⟨∅, ∅⟩ := ⟨by simp, by simp⟩
    obtain ⟨m, hs, hdone, hbytes⟩ := hstart.seedLoop hr hr (by simp [chunkBytes]) hloop
    simp only [installSeed] at hput
    split at hput
    · cases hput
    have hsum : ∀ files, (replaceFileChunks { c with files := files } fid fileSize s.newChunks).readBytes ≤ env.maxSize := by
      intro files
      rwa [replaceFileChunks, hbytes]
    rw [Prod.mk.injEq, evictIfNeeded, if_pos (hsum _)] at hput
    obtain ⟨-, rfl⟩ := hput
    simp only [getChunk, fileChunks, replaceFileChunks, AList.lookup_insert, if_neg (Int.not_le.mpr hmax), hs.chunks]
    by_cases hi : i < m ∧ piece r i ≠ []
    · obtain ⟨f, hf, hread⟩ := bind_eq_some_iff.mp (hs.bytes i hi.1 hi.2)
      have hmem := AList.lookup_isSome.mp (isSome_of_eq_some hf)
      rw [if_pos hi]
      simp only [seedInfo]
      rw [lookup_erase_all, if_neg (by simp [hmem]), AList.lookup_union_left hmem, hf, bind_some, hread, present,
        if_neg hi.2]
    · have hnil : piece r i = [] := by
        by_contra hne
        exact hne (piece_eq_nil hdone (by grind))
      rw [if_neg hi, hnil]
      rfl

/-- **A seeded file is cached in aligned chunks exactly when every read but the last was full.** -/
theorem putReader_chunks_iff (hr : Delivers r content) (hfid : fid ≠ []) (hmax : 0 < c.maxSize)
    (hcap : c.readBytes + (content.length - ((c.chunks.lookup fid).map (chunkBytes ·.chunks)).getD 0) ≤ env.maxSize)
    (hput : putReader env fuel c fid content.length r = some (none, c')) :
    (∀ i run now, (getChunk c' fid i run now).1 = present (chunkAt content i)) ↔ FullReads r := by
  rw [← pieces_iff hr]
  constructor
  · intro h i
    rw [← getChunk_putReader hr hfid hmax hcap hput i 0 0, h]
  · intro h i run now
    rw [getChunk_putReader hr hfid hmax hcap hput, h]

def quietEnv : Env := ⟨id, 0, none, fun _ => none, fun _ => none, 10, id⟩

def emptyStore : Store := ⟨10, ∅, ∅, 0⟩

theorem putReader_one_piece : ∃ c', putReader quietEnv 2 emptyStore [7] 1 (Body.mk [1] [] false .eof) = some (none, c') ∧
    ((∀ i run now, (getChunk c' [7] i run now).1 = present (chunkAt [1] i)) ↔ FullReads (Body.mk [1] [] false .eof)) := by
  obtain ⟨c', hput⟩ : ∃ c', putReader quietEnv 2 emptyStore [7] 1 (Body.mk [1] [] false .eof) = some (none, c') :=
    ⟨_, rfl⟩
  exact ⟨c', hput, putReader_chunks_iff (Body.delivers rfl) (by simp) (by decide) (by decide) hput⟩

theorem putReader_short_reads : ∃ c',
    putReader quietEnv 3 emptyStore [7] 2 (Body.mk [1, 2] [1, 1] false .eof) = some (none, c') ∧
    (getChunk c' [7] 0 0 0).1 = some [1] ∧ (getChunk c' [7] 1 0 0).1 = some [2] ∧ chunkAt [1, 2] 0 = [1, 2] := by
  obtain ⟨c', hput⟩ :
      ∃ c', putReader quietEnv 3 emptyStore [7] 2 (Body.mk [1, 2] [1, 1] false .eof) = some (none, c') := ⟨_, rfl⟩
  have hget := getChunk_putReader (Body.delivers rfl) (by simp) (by decide) (by decide) hput
  exact ⟨c', hput, hget 0 0 0, hget 1 0 0, rfl⟩

end ReadCache
