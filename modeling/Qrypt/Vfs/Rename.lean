import Qrypt.Vfs.System

/-!
# Renaming

`Coordinator` and `RemoteRenamer` of `pkg/vfs/mutation`, with their adapters: a rename on the backend
that may have two steps, the rename shadow of the old path, and the pending uploads that follow.
-/

namespace Vfs

open Infra Drive Upload

variable {σ : Type} (raw : Driver σ)

/-! ## The backend -/

/-- `Driver.Rename`. -/
def renameEntry (entry : Entry) (newName : Bytes) : VfsProg σ (Except Err Entry) :=
  call raw (.remote (.rename entry newName)) fun _ s => (raw.rename s.backend entry newName).1

/-- `Driver.Move`. -/
def moveEntry (entry : Entry) (dstParentID : Bytes) : VfsProg σ (Except Err Entry) :=
  call raw (.remote (.move entry dstParentID)) fun _ s => (raw.move s.backend entry dstParentID).1

def mergeRenamedEntry (reported : Entry) (newName dstParentID : Bytes) : Entry :=
  { reported with
    name := if newName = [] then reported.name else newName
    parentID := if dstParentID = [] then reported.parentID else dstParentID }

/-- The text of a `PartialError`. -/
def partialError (moveErr rollbackErr : Err) : Err :=
  .text ("vfs: rename/move partially applied (move failed: " ++ moveErr.message ++
    "; rollback failed: " ++ rollbackErr.message ++ ")")

/-- What `RenameMove` comes to. With a `PartialError` the entry has the new name and the old parent. -/
inductive RenameOutcome where
  | done (entry : Entry)
  | failed (err : Err)
  | inBetween (entry : Entry) (err : Err)

/-- The second step of `RenameMove`; `oldName` is given if the entry was renamed before. -/
def moveRenamed (entry : Entry) (oldName : Option Bytes) (dstParentID : Bytes) :
    VfsProg σ RenameOutcome := do
  if entry.parentID = dstParentID then pure (.done entry)
  else
    match ← moveEntry raw entry dstParentID with
    | .ok updated => pure (.done (mergeRenamedEntry updated [] dstParentID))
    | .error err =>
      match oldName with
      | none => pure (.failed err)
      | some oldName =>
        match ← renameEntry raw entry oldName with
        | .ok _ => pure (.failed err)
        | .error rbErr => pure (.inBetween entry (partialError err rbErr))

def renameMove (entry : Entry) (dstParentID newName : Bytes) : VfsProg σ RenameOutcome := do
  if entry.name = newName then moveRenamed raw entry none dstParentID
  else
    match ← renameEntry raw entry newName with
    | .error err => pure (.failed err)
    | .ok updated => moveRenamed raw (mergeRenamedEntry updated newName []) (some entry.name) dstParentID

/-! ## Pending uploads -/

def moveSchedule (oldPath : Bytes) (p : PendingUpload) : VfsProg σ Unit := do
  if ← askFor raw .schedulingAllowed fun e => e.running then
    run raw (.service (.cancelUpload oldPath))
    if p.frozen then enqueue raw p

def errNoPending (path : Bytes) : Err := .text ("vfs: no pending file for " ++ latin1 path)

/-- The record of a file that is renamed; an empty parent keeps the one of the record. -/
def renamedRecord (p : PendingUpload) (newPath parentID name : Bytes) : PendingUpload :=
  { p with
    path := newPath
    name := name
    parentID := if parentID = [] then p.parentID else parentID
    replaceUpload := none }

variable (oldPath newPath : Bytes)

/-- `RenamePending` of the domain. -/
def renameRecord (next : PendingUpload) : VfsProg σ (Option Err) := do
  match ← durable raw (.renameUpload oldPath next) with
  | some err => pure (some err)
  | none =>
    run raw (.hashes (.renamePath oldPath newPath next))
    moveSchedule raw oldPath next
    pure none

def renamePending (i : Nat) (oldPath newPath parentID name : Bytes) : VfsProg σ (Option Err) :=
  locked raw i oldPath do
    match ← pendingByPath raw oldPath with
    | none => pure (some (errNoPending oldPath))
    | some pending => renameRecord raw oldPath newPath (renamedRecord pending newPath parentID name)

def rebaseMoved (oldPath newPath : Bytes) : List PendingUpload → VfsProg σ Unit
  | [] => pure ()
  | next :: moved => do
    let oldChild := oldPath ++ PendingStore.trimStart next.path newPath
    run raw (.hashes (.renamePath oldChild next.path next))
    moveSchedule raw oldChild next
    rebaseMoved oldPath newPath moved

def rebasePendingUploads : VfsProg σ (Option Err) := do
  match ← askFor raw .renamedParents fun e => e.parents with
  | .error err => pure (some err)
  | .ok parents =>
    let (moved, err) ← call raw (.store (.durable (.rebaseUploadsUnder oldPath newPath parents)))
      fun e s => (s.store.rebaseUploadsUnder e.store oldPath newPath parents).1
    match err with
    | some err => pure (some err)
    | none =>
      rebaseMoved raw oldPath newPath moved
      pure none

/-! ## The coordinator -/

/-- `CommitRemoteRename`, as far as the overlay is concerned. -/
def commitRemoteRename (entry : Entry) : VfsProg σ Unit :=
  run raw (.vis (.addRenameOverlay oldPath newPath entry.id entry.isDir))

def intermediatePath (oldPath name : Bytes) : Bytes := joinVirtualPath (dirPath oldPath) name

/-- `errors.Join`. -/
def joinErrors (err : Err) (other : Option Err) : Err :=
  match other with
  | none => err
  | some other => .text (err.message ++ "\n" ++ other.message)

def renamePendingWithRemote (i : Nat) (oldPath newPath parentID name : Bytes) (remoteEntry : Entry) :
    VfsProg σ (Option Err) := do
  match ← renameMove raw remoteEntry parentID name with
  | .failed err => pure (some err)
  | .inBetween renamed err =>
    commitRemoteRename raw oldPath (intermediatePath oldPath name) renamed
    let moveErr ← renamePending raw i oldPath (intermediatePath oldPath name) [] name
    pure (some (joinErrors err moveErr))
  | .done renamed =>
    commitRemoteRename raw oldPath newPath renamed
    renamePending raw i oldPath newPath parentID name

/-- The pending upload is renamed, with the entry that the backend has at its path. -/
def renamePendingTo (i : Nat) (oldPath newPath : Bytes) : VfsProg σ (Option Err) := do
  match ← parentOf raw newPath with
  | .error err => pure (some err)
  | .ok (parent, name) =>
    match ← askFor raw .remoteEntry fun e => e.remoteEntry with
    | .error err => pure (some err)
    | .ok none => renamePending raw i oldPath newPath parent.id name
    | .ok (some entry) => renamePendingWithRemote raw i oldPath newPath parent.id name entry

def renamePendingSource (i : Nat) (oldPath newPath : Bytes) : VfsProg σ (Option Err) := do
  if oldPath = newPath then renamePendingTo raw i oldPath newPath
  else
    match ← pendingByPath raw newPath with
    | some _ => pure (some (errExist (ascii "pending destination ") newPath))
    | none => renamePendingTo raw i oldPath newPath

/-- The entry is renamed on the backend, and the uploads below it follow. -/
def renameRemote (entry : Entry) (parentID name : Bytes) : VfsProg σ (Option Err) := do
  match ← renameMove raw entry parentID name with
  | .failed err => pure (some err)
  | .inBetween renamed err =>
    commitRemoteRename raw oldPath (intermediatePath oldPath name) renamed
    pure (some err)
  | .done renamed =>
    commitRemoteRename raw oldPath newPath renamed
    if renamed.isDir then rebasePendingUploads raw oldPath newPath else pure none

def renameRemoteSource : VfsProg σ (Option Err) := do
  match ← askFor raw .resolve fun e => e.resolve with
  | .error err => pure (some err)
  | .ok entry =>
    match ← parentOf raw newPath with
    | .error err => pure (some err)
    | .ok (parent, name) => renameRemote raw oldPath newPath entry parent.id name

def rename (i : Nat) (oldPath newPath : Bytes) : VfsProg σ (Option Err) := do
  let oldPath := cleanVirtualPath oldPath
  let newPath := cleanVirtualPath newPath
  if oldPath = [47] ∨ newPath = [47] then pure (some (.text "vfs: cannot rename root"))
  else
    match ← pendingByPath raw oldPath with
    | some _ => renamePendingSource raw i oldPath newPath
    | none => renameRemoteSource raw oldPath newPath

end Vfs
