import Qrypt.Vfs.System

/-!
# Removing

`RemoveCoordinator` of `pkg/vfs/mutation` and `Executor` of `pkg/vfs/delete`, with their adapters. A
removed path is hidden at once; the object is deleted on the backend when the timer of the path fires, or
at once without a delay.
-/

namespace Vfs

open Infra Drive Upload

variable {σ : Type} (raw : Driver σ) (cfg : Config)

/-! ## The executor -/

variable (path : Bytes)

/-- `WaitActiveChildren`: it returns when no delete runs below the directory, or the context is cancelled. -/
def waitForDescendantDeletes (entry : Entry) : VfsProg σ (Option Err) := do
  match ← call raw (.vis (.waitActiveChildren path entry)) fun e _ => e.cancelled with
  | some err => pure (some err)
  | none =>
    Prog.performWhen (Call.apply raw) (fun s => s.vis.noActiveChildren path)
      (.vis (.waitActiveChildren path entry)) fun _ _ => none

/-- The remote part of `Execute`. -/
def deleteEntry (entry : Entry) : VfsProg σ (Option Err) :=
  call raw (.remote (.delete path entry)) fun _ s => (raw.remove s.backend entry).1

/-- `Execute` after `MarkDeleteActive`. -/
def executeActive (entry : Entry) : VfsProg σ (Option Err) := do
  let err ← (if entry.isDir then waitForDescendantDeletes raw path entry else pure none)
  match err with
  | some err => pure (some err)
  | none => deleteEntry raw path entry

def removeAfterRemoteDelete (entry : Entry) : VfsProg σ Unit := do
  let err ← call raw (.removeUploadState path entry) fun e s => (s.store.apply (.removeUpload path, e.store)).1
  match err with
  | some _ => pure ()
  | none => run raw (.hashes (.removePath path))

def execute (entry : Entry) : VfsProg σ Unit := do
  let began ← call raw (.vis (.beginDelete path entry)) fun _ s => s.vis.beginDelete path entry.id
  if began then
    run raw (.vis (.markDeleteActive path entry))
    match ← executeActive raw path entry with
    | some err => run raw (.vis (.markDeleteFailed path entry err))
    | none =>
      run raw (.vis (.markDeleteComplete path entry))
      removeAfterRemoteDelete raw path entry

/-- A timer fires: the callback runs if it is still armed. -/
def timer : VfsProg σ Unit := do
  let entry ← Prog.performWhen (Call.apply raw) (fun s => (s.vis.deleteState.scheduler.lookup path).isSome)
    (.vis (.fire path)) fun _ s => s.vis.deleteState.scheduler.lookup path
  match entry with
  | some entry => execute raw path entry
  | none => pure ()

def scheduleDelete (entry : Entry) : VfsProg σ Unit :=
  if cfg.deleteDelay ≤ 0 then execute raw path entry
  else do
    run raw (.vis (.clearFailure path))
    run raw (.vis (.schedule path entry))

/-- `CommitRemove`, then `ScheduleDelete`. -/
def commitRemove (entry : Entry) : VfsProg σ Unit := do
  run raw (.vis (.markDeleted path entry))
  scheduleDelete raw cfg path entry

/-! ## Files -/

/-- The error of `RemovePendingFile` for an upload that failed for good. -/
def unreconciled (err : Err) : Err :=
  .text ("vfs: cannot remove \"" ++ latin1 path ++
    "\" because its permanently failed upload cannot be reconciled: " ++ err.message ++
    "; unmount and run `qrypt fs journal prune --failed` to discard the local upload")

/-- `RemovePending` of the domain. -/
def removePending : VfsProg σ (Option Err) := do
  match ← durable raw (.removeUpload path) with
  | some err => pure (some err)
  | none =>
    run raw (.service (.cancelUpload path))
    run raw (.hashes (.removePath path))
    pure none

/-- `RemovePendingFile`: whether the path was a pending upload, and the remote object it replaces. -/
def removePendingFile (i : Nat) (path : Bytes) : VfsProg σ (Except Err (Bool × Option Entry)) :=
  locked raw i path do
    match ← pendingByPath raw path with
    | none => pure (.ok (false, none))
    | some _ =>
      match ← ask raw fun e _ => e.remoteEntry with
      | .error err =>
        match ← pendingByPath raw path with
        | some pending => pure (.error (if pending.permanentFail then unreconciled path err else err))
        | none => pure (.error err)
      | .ok remote =>
        match ← removePending raw path with
        | some err => pure (.error err)
        | none => pure (.ok (true, remote))

def removeFile (i : Nat) (path : Bytes) : VfsProg σ (Option Err) := do
  let path := cleanVirtualPath path
  match ← removePendingFile raw i path with
  | .error err => pure (some err)
  | .ok (true, none) => pure none
  | .ok (true, some remote) =>
    commitRemove raw cfg path remote
    pure none
  | .ok (false, _) =>
    match ← ask raw fun e _ => e.resolve with
    | .error err => pure (some err)
    | .ok entry =>
      commitRemove raw cfg path entry
      pure none

/-! ## Directories -/

def errDirNotEmpty : Err := .text ("vfs: directory not empty: " ++ latin1 path)

def hasPendingBelow (s : Sys σ) (path : Bytes) : Bool :=
  s.store.pending.entries.any fun r =>
    r.2.path ≠ path && isPathUnder r.2.path path && !s.vis.overlay.isDeletedPath (cleanVirtualPath r.2.path)

def ensureDirectoryEmpty (entry : Entry) : VfsProg σ (Option Err) := do
  let listed : Except Err (List Entry) ← ask raw fun e s =>
    match raw.list s.backend entry.id with
    | .ok children => .ok children
    | .error err => if e.notFound err then .ok [] else .error err
  match listed with
  | .error err => pure (some err)
  | .ok children =>
    let visible ← ask raw fun _ s => children.any fun child =>
      !isAppleMetadataName child.name &&
        !s.vis.overlay.isDeletedPath (cleanVirtualPath (joinVirtualPath path child.name))
    if visible then pure (some (errDirNotEmpty path))
    else if ← ask raw fun _ s => hasPendingBelow s path then pure (some (errDirNotEmpty path))
    else if ← ask raw fun e _ => e.recentLocalChild then pure (some (errDirNotEmpty path))
    else pure none

def takeoverDirectory (dir : Bytes) : VfsProg σ Unit := do
  run raw (.vis (.addTakeover dir))
  let removed ← ask raw fun _ s => s.vis.scheduledUnder dir
  run raw (.vis (.cancelUnder dir))
  run raw (.vis (.dropDeletes removed))

def prepareDirectory : VfsProg σ (Option Err) := do
  if ← ask raw fun _ s => hasPendingBelow s path then pure (some (errDirNotEmpty path))
  else
    run raw (.service (.cancelChildUploads (fun _ => 0) path))
    run raw (.hashes (.removeUnder path))
    takeoverDirectory raw path
    pure none

def errNotDirectory : Err := .text ("vfs: " ++ latin1 path ++ " is not a directory")

def removeDirectory : VfsProg σ (Option Err) := do
  match ← ask raw fun e _ => e.resolve with
  | .error err => pure (some err)
  | .ok entry =>
    if entry.isDir then
      match ← prepareDirectory raw path with
      | some err => pure (some err)
      | none =>
        commitRemove raw cfg path entry
        pure none
    else pure (some (errNotDirectory path))

def removeDir : VfsProg σ (Option Err) := do
  let path := cleanVirtualPath path
  match ← ask raw fun e _ => e.resolve with
  | .error err => pure (some err)
  | .ok entry =>
    if entry.isDir then
      match ← ensureDirectoryEmpty raw path entry with
      | some err => pure (some err)
      | none => removeDirectory raw cfg path
    else pure (some (errNotDirectory path))

/-! ## Tasks -/

/-- A failed or waiting delete is cancelled: `RestoreDeletedPath`. -/
def restoreDeleted : VfsProg σ Unit := run raw (.vis (.restoreDeletedPath path))

def deleteTaskID (entry : Entry) (path : Bytes) : Bytes :=
  ascii "delete:" ++
    if entry.id = [] then
      let path := cleanVirtualPath path
      if path.head? = some 47 then path.tail else path
    else entry.id

/-- A task of a delete: its path, and whether it runs. -/
structure DeleteTask where
  path : Bytes
  running : Bool

/-- `recordByID`: of several tasks with this id, the one with the first path. -/
def deleteTask (v : Visibility) (id : Bytes) : Option DeleteTask :=
  let records := v.overlay.deleted.entries.filter fun r => deleteTaskID r.2 r.1 = id
  ((records.map (·.1)).mergeSort fun a b => decide (a ≤ b)).head?.map fun path =>
    ⟨path, (v.deleteState.active.lookup path).isSome⟩

/-- `Cancel` of a delete task. -/
def cancelDelete (id : Bytes) : VfsProg σ (Option Err) := do
  match ← ask raw fun _ s => deleteTask s.vis id with
  | none => pure (some (.text "drive: not found"))
  | some task =>
    if task.running then
      pure (some (.text ("vfs: delete task \"" ++ latin1 id ++ "\" is running")))
    else
      let restored ← call raw (.vis (.restoreDeletedPath task.path)) fun e s =>
        (s.vis.restoreDeletedPath e.store.now.1 task.path).1
      match restored with
      | none => pure (some (.text "drive: not found"))
      | some _ => pure none

/-- The delete of the path failed: it neither runs nor waits for its timer. -/
def failedDelete (v : Visibility) (path : Bytes) : Option Entry :=
  if (v.deleteState.active.lookup path).isSome ∨ (v.deleteState.scheduler.lookup path).isSome then none
  else v.overlay.deleted.lookup path

/-- `Retry` of a delete task. -/
def retryDelete : VfsProg σ Unit := do
  match ← ask raw fun _ s => failedDelete s.vis path with
  | none => pure ()
  | some entry =>
    run raw (.vis (.clearFailure path))
    scheduleDelete raw cfg path entry

end Vfs
