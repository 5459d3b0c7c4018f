import Qrypt.Upload.Replay

/-!
# The store of pending uploads

`pkg/vfs/upload/store.go`: the pending uploads in memory, their journal, and the staging files. The
transactions of the store exclude each other (`txMu`), so each one is a function of the store; what
the file system and the runtime decide is an argument of it.

A durable operation appends its intent to the journal first and changes the memory afterwards.
`appendJournal` may rewrite the journal from memory in between.
-/

namespace Upload

open Infra Drive

/-- The text of a byte string, one character a byte. -/
def latin1 (b : Bytes) : String := String.ofList (b.map fun c => Char.ofNat c.toNat)

/-- `os.ErrExist` and `os.ErrNotExist`, wrapped. -/
def errExist (what path : Bytes) : Err :=
  .text ("file already exists: " ++ latin1 what ++ latin1 path)

def errNotExist (what path : Bytes) : Err :=
  .text ("file does not exist: " ++ latin1 what ++ latin1 path)

/-! ## State and environment -/

/-- `PendingStore`, with the journal and the staging files it keeps on disk. -/
structure PendingStore where
  pending : PendingMap := ∅
  idIndex : AList (fun _ : Bytes => Bytes) := ∅
  journal : Option Bytes := none
  staging : AList (fun _ : Bytes => Bytes) := ∅
  compactMaxBytes : Int := 512 * 1024
  compactMaxEntries : Int := 1024

/-- How an append ends: it may fail before the file is open, or with some bytes of the line written. -/
inductive AppendOutcome where
  | ok
  | refused (err : Err)
  | cut (written : Nat) (err : Err)

def AppendOutcome.torn : AppendOutcome → Nat
  | .cut written _ => written
  | _ => 0

/-- What happens to the calls of one journal transaction. Maps are walked in the order of `order`. -/
structure JournalEnv where
  append : AppendOutcome := .ok
  statFails : Bool := false
  openFails : Bool := false
  compact : Option Err := none
  order : Bytes → Nat := fun _ => 0

/-- What happens during an operation: the time, the journal transactions, and the staging files that cannot be removed.
-/
structure StoreEnv where
  now : I64 := 0
  journal : Nat → JournalEnv := fun _ => {}
  removeFails : Bytes → Bool := fun _ => false

namespace PendingStore

variable (c : PendingStore)

/-- `for path, p := range c.pending`. -/
def walk (order : Bytes → Nat) : List (Σ _ : Bytes, PendingUpload) :=
  c.pending.entries.insertionSort fun a b => order a.1 ≤ order b.1

/-- `c.pending[p.Path] = p`, with the index. -/
def put (p : PendingUpload) : PendingStore :=
  { c with
    pending := c.pending.insert p.path p
    idIndex := if p.fid = [] then c.idIndex else c.idIndex.insert p.fid p.path }

/-- `delete(c.pending, path)`, with the index entry of the record. -/
def drop (path fid : Bytes) : PendingStore :=
  { c with
    pending := c.pending.erase path
    idIndex := if fid = [] then c.idIndex else c.idIndex.erase fid }

/-- `staging.remove`; a failure is only logged. -/
def removeStaging (env : StoreEnv) (localPath : Bytes) : PendingStore :=
  if localPath = [] ∨ env.removeFails localPath then c
  else { c with staging := c.staging.erase localPath }

def references (localPath : Bytes) : Bool :=
  c.pending.entries.any fun r => r.2.localPath = localPath

/-- `removeStagingLocked` and `RemoveStagingIfUnreferenced`. -/
def removeStagingIfUnreferenced (env : StoreEnv) (localPath : Bytes) : PendingStore :=
  if c.references localPath then c else c.removeStaging env localPath

/-! ## The journal file -/

def appendJournalLocked (env : JournalEnv) (entry : JournalEntry) : Option Err × PendingStore :=
  let line := marshal entry ++ [10]
  let data := c.journal.getD []
  match env.append with
  | .ok => (none, { c with journal := some (data ++ line) })
  | .refused err => (some err, c)
  | .cut written err => (some err, { c with journal := some (data ++ line.take written) })

def countJournalEntries (env : JournalEnv) (data : Bytes) : Nat :=
  if env.openFails then 0 else (scanLines journalBuffer data).1.length

def shouldCompactJournal (env : JournalEnv) (entries : Nat) : Bool :=
  match c.journal with
  | none => false
  | some data =>
    if env.statFails then false
    else if c.compactMaxBytes ≤ data.length then true
    else
      let entries := if entries = 0 then countJournalEntries env data else entries
      c.compactMaxEntries ≤ entries && c.pending.keys.length + 32 < entries

/-- `compactJournalLocked`: the new file replaces the old one at once, or not at all. -/
def compactJournalLocked (env : JournalEnv) : Option Err × PendingStore :=
  match env.compact with
  | some err => (some err, c)
  | none => (none, { c with journal := some (journalOf ((c.walk env.order).map fun r => dirtyEntry r.2)) })

def appendJournal (env : JournalEnv) (entry : JournalEntry) : Option Err × PendingStore :=
  match c.appendJournalLocked env entry with
  | (some err, c) => (some err, c)
  | (none, c) => if c.shouldCompactJournal env 0 then c.compactJournalLocked env else (none, c)

/-! ## Saving -/

def saveUpload (env : StoreEnv) (p : PendingUpload) : Option Err × PendingStore :=
  match c.appendJournal (env.journal 0) (dirtyEntry p) with
  | (some err, c) => (some err, c)
  | (none, c) => (none, c.put p)

/-- `SaveUpload` saves the record as of now. -/
def stamped (p : PendingUpload) (now : I64) : PendingUpload := { p with updatedAt := now }

/-- `SaveUploadExact` keeps a time that is set. -/
def stampedExact (p : PendingUpload) (now : I64) : PendingUpload :=
  if p.updatedAt = 0 then stamped p now else p

def updateUploadTransient (now : I64) (p : PendingUpload) : PendingStore :=
  c.put (stamped p now)

/-- The record at the path of `p`, if it is still `p`. -/
def unchanged (p : PendingUpload) : Option PendingUpload :=
  (c.pending.lookup p.path).filter fun current => sameUploadRecord current p

def markUploadStarted (p : PendingUpload) : Option PendingUpload × PendingStore :=
  match c.unchanged p with
  | none => (none, c)
  | some current =>
    let current := { current with uploadStarted := true }
    (some current, { c with pending := c.pending.insert p.path current })

/-- What `TryReuseFrozenStaging` asks of the record at the path of `p`. -/
def reusable (current p : PendingUpload) : Bool :=
  current.fid == p.fid && current.localPath == p.localPath && current.frozen &&
    !current.uploadStarted && current.replaceUpload.isNone && !current.permanentFail

def tryReuseFrozenStaging (now : I64) (p : PendingUpload) : Option PendingUpload × PendingStore :=
  match (c.pending.lookup p.path).filter fun current => reusable current p with
  | none => (none, c)
  | some current =>
    let current := { current with frozen := false, sourceHashes := {}, updatedAt := now }
    (some current, { c with pending := c.pending.insert p.path current })

/-! ## Recording the outcome of an upload -/

def withReplacement (upload : UploadReplacement) (now : I64) (p : PendingUpload) : PendingUpload :=
  { p with replaceUpload := some upload, lastError := [], nextAttemptAt := 0, updatedAt := now }

/-- `RetryCount++` and the text of the error. -/
def withAttempt (err : Option Err) (now : I64) (p : PendingUpload) : PendingUpload :=
  { p with
    retryCount := ⟨wrap64 (p.retryCount + 1), fits64_wrap64 _⟩
    lastError := match err with
      | some err => ascii err.message
      | none => p.lastError
    lastAttemptAt := now
    updatedAt := now }

def withFailure (err : Option Err) (retryDelay : I64) (now : I64) (p : PendingUpload) : PendingUpload :=
  { withAttempt err now p with
    nextAttemptAt :=
      if 0 < retryDelay.1 then ⟨wrap64 (now + retryDelay), fits64_wrap64 _⟩ else 0 }

def withPermanentFailure (err : Option Err) (now : I64) (p : PendingUpload) : PendingUpload :=
  { withAttempt err now p with permanentFail := true, nextAttemptAt := 0 }

/-- `Record…IfUnchanged`: the record now in memory, whether it was still `p`, and the error. -/
def recordIfUnchanged (env : StoreEnv) (p : PendingUpload)
    (change : PendingUpload → PendingUpload) : (PendingUpload × Bool × Option Err) × PendingStore :=
  match c.unchanged p with
  | none => (({}, false, none), c)
  | some current =>
    match c.appendJournal (env.journal 0) (dirtyEntry (change current)) with
    | (some err, c) => ((current, true, some err), c)
    | (none, c) => ((change current, true, none), { c with pending := c.pending.insert p.path (change current) })

def recordUploadReplacementIfUnchanged (env : StoreEnv) (p : PendingUpload)
    (upload : UploadReplacement) : (PendingUpload × Bool × Option Err) × PendingStore :=
  c.recordIfUnchanged env p (withReplacement upload env.now)

def recordUploadFailureIfUnchanged (env : StoreEnv) (p : PendingUpload)
    (err : Option Err) (retryDelay : I64) : (PendingUpload × Bool × Option Err) × PendingStore :=
  c.recordIfUnchanged env p (withFailure err retryDelay env.now)

def recordUploadPermanentFailureIfUnchanged (env : StoreEnv) (p : PendingUpload)
    (err : Option Err) : (PendingUpload × Bool × Option Err) × PendingStore :=
  c.recordIfUnchanged env p (withPermanentFailure err env.now)

/-! ## Removing -/

def cleanEntry (path : Bytes) : JournalEntry := { op := .clean, upload := { path := path } }

/-- The entry of `appendCleanBatchLocked`. -/
def cleanBatchEntry (paths : List Bytes) : JournalEntry := { op := .cleanBatch, paths := paths }

/-- `compactJournalLocked` as maintenance: a failure is only logged. -/
def tidyJournal (env : JournalEnv) : PendingStore := (c.compactJournalLocked env).2

def removeUpload (env : StoreEnv) (path : Bytes) : Option Err × PendingStore :=
  match c.pending.lookup path with
  | none => (none, c)
  | some pending =>
    match c.appendJournalLocked (env.journal 0) (cleanEntry path) with
    | (some err, c) => (some err, c)
    | (none, c) => (none, ((c.drop path pending.fid).removeStaging env pending.localPath).tidyJournal (env.journal 0))

def uploadsUnder (order : Bytes → Nat) (dir : Bytes) : List PendingUpload :=
  ((c.walk order).filter fun r => r.1 = dir ∨ isPathUnder r.1 dir).map Sigma.snd

def removeUploadsUnder (env : StoreEnv) (dir : Bytes) : Option Err × PendingStore :=
  let removed := c.uploadsUnder (env.journal 0).order (cleanVirtualPath dir)
  if removed = [] then (none, c)
  else
    match c.appendJournalLocked (env.journal 0) (cleanBatchEntry (removed.map (·.path))) with
    | (some err, c) => (some err, c)
    | (none, c) =>
      let c := removed.foldl (fun c p => c.drop p.path p.fid) c
      let c := removed.foldl (fun c p => c.removeStaging env p.localPath) c
      (none, c.tidyJournal (env.journal 0))

/-- `RemoveUploadIfUnchanged`; no other transaction runs between the append and the second look. -/
def removeUploadIfUnchanged (env : StoreEnv) (p : PendingUpload) : (Bool × Option Err) × PendingStore :=
  match c.unchanged p with
  | none => ((false, none), c)
  | some current =>
    match c.appendJournalLocked (env.journal 0) (cleanEntry p.path) with
    | (some err, c) => ((false, some err), c)
    | (none, c) =>
      ((true, none), ((c.drop p.path current.fid).removeStagingIfUnreferenced env
        p.localPath).tidyJournal (env.journal 0))

/-! ## Renaming -/

def renameEntry (oldPath : Bytes) (next : PendingUpload) : JournalEntry :=
  { op := .rename, oldPath := oldPath, upload := next }

def applyRename (oldPath : Bytes) (next : PendingUpload) : PendingStore :=
  (c.drop oldPath (((c.pending.lookup oldPath).map (·.fid)).getD [])).put next

/-- `renameUploadLocked` and `RenameUpload`. -/
def renameUpload (env : JournalEnv) (oldPath : Bytes) (next : PendingUpload) : Option Err × PendingStore :=
  if next.path ≠ oldPath ∧ (c.pending.lookup next.path).isSome then
    (some (errExist (ascii "pending destination ") next.path), c)
  else
    match c.appendJournal env (renameEntry oldPath next) with
    | (some err, c) => (some err, c)
    | (none, c) => (none, c.applyRename oldPath next)

/-- `strings.TrimPrefix`. -/
def trimStart (s start : Bytes) : Bytes := if start <+: s then s.drop start.length else s

def rebased (oldDir newDir : Bytes) (parentIDs : Bytes → Bytes) (p : PendingUpload) : PendingUpload :=
  let path := newDir ++ trimStart p.path oldDir
  { p with path := path, parentID := parentIDs (dirPath path) }

/-- Why `RebaseUploadsUnder` refuses to move a record. -/
def rebaseError (oldDir newDir : Bytes) (parentIDs : Bytes → Bytes)
    (p : PendingUpload) : Option Err :=
  let nextPath := newDir ++ trimStart p.path oldDir
  if parentIDs (dirPath nextPath) = [] then
    some (errNotExist (ascii "missing parent for ") nextPath)
  else if (c.pending.lookup nextPath).isSome ∧ ¬ isPathUnder nextPath oldDir then
    some (errExist (ascii "pending destination ") nextPath)
  else none

/-- The records `RebaseUploadsUnder` moves, sorted by path. -/
def rebaseTargets (oldDir : Bytes) : List PendingUpload :=
  (c.uploadsUnder (fun _ => 0) oldDir).insertionSort fun a b => a.path ≤ b.path

/-- Moves one record after the other and stops at the first error; `i` journal transactions are done. -/
def rebaseLoop (env : StoreEnv) (move : PendingUpload → PendingUpload) :
    List PendingUpload → Nat → PendingStore → (List PendingUpload × Option Err) × PendingStore
  | [], _, c => (([], none), c)
  | p :: targets, i, c =>
    match c.renameUpload (env.journal i) p.path (move p) with
    | (some err, c) => (([], some err), c)
    | (none, c) =>
      let rest := rebaseLoop env move targets (i + 1) c
      ((move p :: rest.1.1, rest.1.2), rest.2)

def rebaseUploadsUnder (env : StoreEnv) (oldDir newDir : Bytes)
    (parentIDs : Bytes → Bytes) : (List PendingUpload × Option Err) × PendingStore :=
  let oldDir := cleanVirtualPath oldDir
  let newDir := cleanVirtualPath newDir
  let targets := c.rebaseTargets oldDir
  if targets = [] then (([], none), c)
  else
    match targets.findSome? (c.rebaseError oldDir newDir parentIDs) with
    | some err => (([], some err), c)
    | none =>
      let rest := rebaseLoop env (rebased oldDir newDir parentIDs) targets 0 c
      match rest.1.2 with
      | some _ => rest
      | none => (rest.1, rest.2.tidyJournal (env.journal targets.length))

end PendingStore

end Upload
