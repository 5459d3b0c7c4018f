import Qrypt.Vfs.Rename

/-!
# Writing

`pkg/vfs/staging.go`: a file is written into a staging file, whose record is frozen by `Flush` and then
uploaded. A generation that an upload has claimed is not written below its size any more: the write
appends to it, or goes to a copy.
-/

namespace Vfs

open Infra Drive Upload

/-! ## Names of staging files -/

/-- `strings.Trim(s, "/")`. -/
def trimSlashes (s : Bytes) : Bytes :=
  ((s.dropWhile (· = 47)).reverse.dropWhile (· = 47)).reverse

def stagingFID (path : Bytes) : Bytes :=
  let path := trimSlashes (cleanVirtualPath path)
  if path = [] then ascii "root"
  else path.map fun c => if c = 47 ∨ c = 92 ∨ c = 58 then 95 else c

/-- The digits of a number, at most `fuel` many. -/
def base36 : Nat → Nat → Bytes
  | 0, _ => []
  | fuel + 1, n => if n < 36 then [hexDigit n] else base36 fuel (n / 36) ++ [hexDigit (n % 36)]

/-- `strconv.FormatInt(n, 36)`. -/
def formatBase36 (n : I64) : Bytes :=
  if n.1 < 0 then 45 :: base36 13 n.1.natAbs else base36 13 n.1.natAbs

def newStagingFID (path : Bytes) (now : I64) : Bytes := stagingFID path ++ 45 :: formatBase36 now

/-- `stagingStore.path`. -/
def stagingPath (dir fid : Bytes) : Bytes := joinPath dir (fid ++ ascii ".staging")

def fileSize (content : Bytes) : I64 := ⟨wrap64 content.length, fits64_wrap64 _⟩

variable {σ : Type} (raw : Driver σ) (cfg : Config)

def timeNow : VfsProg σ I64 := ask raw fun e _ => e.store.now

def fileCall (l : FileCall) : VfsProg σ (Option Err) := call raw (.file l) fun e _ => l.error e

/-- `NewStagingFID` and `CreateStaging`: the id and the path of a new staging file. -/
def createStaging (path : Bytes) : VfsProg σ (Except Err (Bytes × Bytes)) := do
  let now ← timeNow raw
  let fid := newStagingFID path now
  let localPath := stagingPath cfg.stagingDir fid
  match ← fileCall raw (.create localPath) with
  | some err => pure (.error err)
  | none => pure (.ok (fid, localPath))

/-- `SavePending` of a new generation: its staging file goes if it cannot be saved. -/
def saveNew (p : PendingUpload) : VfsProg σ (Option Err) := do
  match ← durable raw (.saveUpload p) with
  | none => pure none
  | some err =>
    let _ ← fileCall raw (.remove p.localPath)
    pure (some err)

/-- Bytes are copied into the staging file of a generation, and hashed on the way. -/
def copyStaging (p : PendingUpload) (content : Bytes) : VfsProg σ (Option Err) := do
  match ← fileCall raw (.copy p.localPath content) with
  | some err =>
    let _ ← fileCall raw (.remove p.localPath)
    pure (some err)
  | none =>
    run raw (.hashes (.write p content 0))
    pure none

/-! ## Creating -/

def createLocked (path : Bytes) : VfsProg σ (Option Err) := do
  run raw (.vis (.restoreDeletedAncestor (dirPath path)))
  run raw (.vis (.cancelDeletedFile path))
  match ← parentOf raw path with
  | .error err => pure (some err)
  | .ok (parent, name) =>
    let old ← pendingByPath raw path
    match ← createStaging raw cfg path with
    | .error err => pure (some err)
    | .ok (fid, localPath) =>
      let now ← timeNow raw
      let pending : PendingUpload :=
        { path := path, fid := fid, parentID := parent.id, name := name, localPath := localPath,
          modTime := now }
      match ← saveNew raw pending with
      | some err => pure (some err)
      | none =>
        run raw (.hashes (.start pending))
        match old.filter fun old => !old.frozen with
        | none => pure none
        | some old =>
          run raw (.store (.removeStagingIfUnreferenced old.localPath))
          run raw (.hashes (.removeFID old.fid))
          pure none

def create (i : Nat) (path : Bytes) : VfsProg σ (Option Err) :=
  let path := cleanVirtualPath path
  locked raw i path (createLocked raw cfg path)

def errIsDir (path : Bytes) : Err := .text ("vfs: path is a directory: " ++ latin1 path)

/-- What `stageExisting` copies: nothing if there is no such file. -/
def remoteContent (path : Bytes) : VfsProg σ (Except Err (Option Bytes)) := do
  let (resolved, notFound) ← ask raw fun e _ => (e.resolve, e.notFound)
  match resolved with
  | .ok entry =>
    if entry.isDir then pure (.error (errIsDir path))
    else ask raw fun e _ => e.read.map some
  | .error err => if notFound err then pure (.ok none) else pure (.error err)

def stageExisting (path : Bytes) : VfsProg σ (Option Err) := do
  match ← parentOf raw path with
  | .error err => pure (some err)
  | .ok (parent, name) =>
    match ← createStaging raw cfg path with
    | .error err => pure (some err)
    | .ok (fid, localPath) =>
      let pending : PendingUpload :=
        { path := path, fid := fid, parentID := parent.id, name := name, localPath := localPath }
      match ← remoteContent raw path with
      | .error err =>
        let _ ← fileCall raw (.remove localPath)
        pure (some err)
      | .ok content =>
        let copied ← (match content with
          | none => pure none
          | some content => do
            run raw (.hashes (.start pending))
            copyStaging raw pending content)
        match copied with
        | some err => pure (some err)
        | none =>
          let modTime ← timeNow raw
          saveNew raw { pending with size := fileSize (content.getD []), modTime := modTime }

/-! ## Generations -/

def appendsToFrozenGeneration (p : PendingUpload) (off : I64) (n : Nat) : Bool :=
  p.frozen && p.uploadStarted && p.replaceUpload.isNone && 0 < n && p.size.1 ≤ off.1

def rotateFrozenGeneration (path : Bytes) (old : PendingUpload) : VfsProg σ (Except Err PendingUpload) := do
  match ← createStaging raw cfg path with
  | .error err => pure (.error err)
  | .ok (fid, localPath) =>
    let pending : PendingUpload :=
      { path := path, fid := fid, parentID := old.parentID, name := old.name, localPath := localPath }
    run raw (.hashes (.start pending))
    let source ← ask raw fun _ s => s.store.staging.lookup old.localPath
    let copied ← (match source with
      | none => pure none
      | some content => copyStaging raw pending content)
    match copied with
    | some err => pure (.error err)
    | none =>
      let now ← timeNow raw
      let pending := { pending with size := fileSize (source.getD []), modTime := now }
      match ← saveNew raw pending with
      | some err => pure (.error err)
      | none => pure (.ok pending)

def writeTarget (path : Bytes) (p : PendingUpload) : VfsProg σ (Except Err PendingUpload) := do
  let reused ← call raw (.store (.tryReuseFrozenStaging p)) fun e s => (s.store.tryReuseFrozenStaging e.store.now p).1
  match reused with
  | some reused => pure (.ok reused)
  | none => rotateFrozenGeneration raw cfg path p

/-! ## Writing -/

/-- `existingFileForWrite`: whether the file has to be staged first. -/
def existingFileForWrite (path : Bytes) : VfsProg σ (Except Err Bool) :=
  ask raw fun e _ =>
    match e.resolve with
    | .ok entry => if entry.isDir then .error (errIsDir path) else .ok true
    | .error err => if e.notFound err then .ok false else .error err

def recordForWrite (path : Bytes) : VfsProg σ (Except Err PendingUpload) := do
  match ← pendingByPath raw path with
  | some pending => pure (.ok pending)
  | none =>
    match ← existingFileForWrite raw path with
    | .error err => pure (.error err)
    | .ok existing =>
      match ← (if existing then stageExisting raw cfg path else createLocked raw cfg path) with
      | some err => pure (.error err)
      | none =>
        match ← pendingByPath raw path with
        | some pending => pure (.ok pending)
        | none => pure (.error (errNoPending path))

def written (p : PendingUpload) (data : Bytes) (off : I64) (now : I64) : PendingUpload :=
  { p with
    size := if p.size.1 < off.1 + data.length then ⟨wrap64 (off.1 + data.length), fits64_wrap64 _⟩
      else p.size
    modTime := now }

/-- The part of `WriteAt` that writes. -/
def writeRecord (p : PendingUpload) (data : Bytes) (off : I64) : VfsProg σ (Option Err) := do
  match ← fileCall raw (.writeStagingAt p.localPath data off) with
  | some err => pure (some err)
  | none =>
    run raw (.hashes (.write p data off.1))
    let now ← timeNow raw
    run raw (.store (.updateUploadTransient (written p data off now)))
    pure none

/-- `WriteAt` under the lock of the path. -/
def writeLocked (path data : Bytes) (off : I64) : VfsProg σ (Option Err) := do
  match ← recordForWrite raw cfg path with
  | .error err => pure (some err)
  | .ok pending =>
    let target ← (if pending.frozen && !appendsToFrozenGeneration pending off data.length then
        writeTarget raw cfg path pending
      else pure (.ok pending))
    match target with
    | .error err => pure (some err)
    | .ok target => writeRecord raw target data off

/-- `WriteAt`. -/
def writeFile (i : Nat) (path data : Bytes) (off : I64) : VfsProg σ (Option Err) :=
  let path := cleanVirtualPath path
  locked raw i path (writeLocked raw cfg path data off)

/-! ## Flushing -/

def errNoStaging (localPath : Bytes) : Err :=
  .text ("open " ++ latin1 localPath ++ ": no such file or directory")

/-- `SyncStaging` and `StagingSize`: the content that is flushed. -/
def syncStaging (localPath : Bytes) : VfsProg σ (Except Err Bytes) :=
  ask raw fun e s =>
    match s.store.staging.lookup localPath, e.disk with
    | some content, none => .ok content
    | _, some err => .error err
    | none, none => .error (errNoStaging localPath)

def zeroByteUploadDebounceDelay : Int := 10 * 10 ^ 9

/-- `Flush` schedules the upload. -/
def queueFlushed (p : PendingUpload) : VfsProg σ Unit := do
  let delay ← ask raw fun _ s => s.service.delay
  let delay := if p.size = 0 ∧ delay < zeroByteUploadDebounceDelay then zeroByteUploadDebounceDelay
    else delay
  if ← ask raw fun e _ => e.running then enqueueAfter raw p delay

/-- `Flush` under the lock of the path. -/
def flushLocked (path : Bytes) : VfsProg σ (Option Err) := do
  match ← pendingByPath raw path with
  | none => pure none
  | some pending =>
    match ← syncStaging raw pending.localPath with
    | .error err => pure (some err)
    | .ok content =>
      let sized := { pending with size := fileSize content }
      let hashes ← ask raw fun _ s => s.hashes.snapshot cfg.hash sized
        (requiredUploadSnapshotHashes raw.requiredUploadHashes)
      let now ← timeNow raw
      let flushed := { sized with
        sourceHashes := hashes.getD sized.sourceHashes
        frozen := true
        modTime := if sized.modTime = 0 then now else sized.modTime }
      match ← durable raw (.saveUpload flushed) with
      | some err => pure (some err)
      | none =>
        let latest ← pendingByPath raw path
        queueFlushed raw (latest.getD flushed)
        pure none

def flush (i : Nat) (path : Bytes) : VfsProg σ (Option Err) :=
  let path := cleanVirtualPath path
  locked raw i path (flushLocked raw cfg path)

/-! ## Truncating -/

def recordForTruncate (path : Bytes) : VfsProg σ (Except Err PendingUpload) := do
  match ← pendingByPath raw path with
  | some pending => pure (.ok pending)
  | none =>
    match ← stageExisting raw cfg path with
    | some err => pure (.error err)
    | none =>
      match ← pendingByPath raw path with
      | some pending => pure (.ok pending)
      | none => pure (.error (errNoPending path))

/-- `Truncate` under the lock of the path. -/
def truncateLocked (path : Bytes) (size : I64) : VfsProg σ (Option Err) := do
  match ← recordForTruncate raw cfg path with
  | .error err => pure (some err)
  | .ok pending =>
    let target ← (if pending.frozen then writeTarget raw cfg path pending else pure (.ok pending))
    match target with
    | .error err => pure (some err)
    | .ok target =>
      match ← fileCall raw (.truncateStaging target.localPath size) with
      | some err => pure (some err)
      | none =>
        run raw (.hashes (.dirty target))
        let now ← timeNow raw
        durable raw (.saveUpload { target with size := size, modTime := now })

/-- `Truncate`. -/
def truncateFile (i : Nat) (path : Bytes) (size : I64) : VfsProg σ (Option Err) :=
  if size.1 < 0 then pure (some (.text "vfs: truncate size must be non-negative"))
  else
    let path := cleanVirtualPath path
    locked raw i path (truncateLocked raw cfg path size)

end Vfs
