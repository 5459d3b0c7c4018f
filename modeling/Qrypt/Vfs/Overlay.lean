import Qrypt.Upload.Types

/-!
# Deleted paths

`Overlay` and `DelayedDeleteState` of `pkg/vfs/view`: a path that was removed is hidden at once and
deleted on the backend later, when its timer fires. The two share a lock, so every operation of
`Visibility` is a function of both. What the caches of the view hold does not matter for them and is
left out.

A timer of the scheduler is the entry that its callback deletes. When it fires is up to the clock.
-/

namespace Vfs

open Infra Drive Upload

/-- A rename shadow hides the old path until listings show the new one. -/
structure OverlayOp where
  oldPath : Bytes
  newPath : Bytes
  entryID : Bytes
  isDir : Bool
  oldGone : Bool := false
  newSeen : Bool := false
  createdAt : Int := 0

/-- `Overlay`; `deletedDirs` lists the directories among the deleted paths. -/
structure Overlay where
  deleted : AList (fun _ : Bytes => Entry) := ∅
  deletedDirs : List Bytes := []
  renameOverlays : AList (fun _ : Bytes => OverlayOp) := ∅
  restoredDirs : AList (fun _ : Bytes => Int) := ∅
  copyHiddenChildren : AList (fun _ : Bytes => AList fun _ : Bytes => Int) := ∅

structure DelayedDeleteState where
  scheduler : AList (fun _ : Bytes => Entry) := ∅
  active : AList (fun _ : Bytes => Entry) := ∅
  failures : AList (fun _ : Bytes => Bytes) := ∅
  takeovers : List Bytes := []

structure Visibility where
  overlay : Overlay := {}
  deleteState : DelayedDeleteState := {}

def restoredDirTTL : Int := 60 * 10 ^ 9

def renameShadowTTL : Int := 60 * 10 ^ 9

/-- `expired`; a shadow always has the time it was made. -/
def OverlayOp.expired (op : OverlayOp) (now : Int) : Bool := now - op.createdAt > renameShadowTTL

def parentVirtualPath (path : Bytes) : Bytes :=
  let dir := (path.reverse.dropWhile (· ≠ 47)).tail.reverse
  if path = [47] ∨ dir = [] then [47] else dir

def isAppleMetadataName (name : Bytes) : Bool :=
  name = ascii ".DS_Store" || ascii "._" <+: name

/-! ## The overlay -/

namespace Overlay

def setDeleted (o : Overlay) (path : Bytes) (entry : Entry) : Overlay :=
  { o with
    deleted := o.deleted.insert path entry
    deletedDirs := if entry.isDir then path :: o.deletedDirs.filter (· ≠ path)
      else o.deletedDirs.filter (· ≠ path) }

def removeDeleted (o : Overlay) (path : Bytes) : Overlay :=
  { o with
    deleted := o.deleted.erase path
    deletedDirs := o.deletedDirs.filter (· ≠ path) }

/-- A directory at or above the path satisfies the condition; paths get shorter on the way up. -/
def findAbove (found : Bytes → Bool) : Nat → Bytes → Option Bytes
  | 0, _ => none
  | fuel + 1, dir =>
    if found dir then some dir
    else if dir = [47] ∨ dir = [46] then none
    else findAbove found fuel (parentVirtualPath dir)

/-- The directories that `findAbove` looks at. -/
def above : Nat → Bytes → List Bytes
  | 0, _ => []
  | fuel + 1, dir => dir :: if dir = [47] ∨ dir = [46] then [] else above fuel (parentVirtualPath dir)

def ancestors (path : Bytes) : List Bytes := above (path.length + 2) (parentVirtualPath path)

theorem isSome_findAbove (found : Bytes → Bool) (fuel : Nat) (dir : Bytes) :
    (findAbove found fuel dir).isSome = (above fuel dir).any found := by
  induction fuel generalizing dir with
  | zero => rfl
  | succ fuel ih =>
    unfold findAbove above
    by_cases hfound : found dir
    · simp [hfound]
    · by_cases htop : dir = [47] ∨ dir = [46]
      · simp [hfound, htop]
      · simp [hfound, htop, ih]

def isDeletedPath (o : Overlay) (path : Bytes) : Bool :=
  (o.deleted.lookup path).isSome ||
    (findAbove (fun dir => dir ∈ o.deletedDirs) (path.length + 2) (parentVirtualPath path)).isSome

theorem isDeletedPath_eq_false_iff {o : Overlay} {path : Bytes} : o.isDeletedPath path = false ↔
      o.deleted.lookup path = none ∧ ∀ dir ∈ ancestors path, dir ∉ o.deletedDirs := by
  simp [isDeletedPath, isSome_findAbove, ancestors]

def deepestDeletedAncestor (o : Overlay) (path : Bytes) : Option (Bytes × Entry) :=
  (findAbove (fun dir => (o.deleted.lookup dir).any (·.isDir)) (path.length + 2) path).bind fun dir =>
    (o.deleted.lookup dir).map fun entry => (dir, entry)

/-! What hides a path. Shadows and names whose time is over are dropped when they are met; nothing looks at
them any more, so they stay here. -/

def isRenameHiddenPath (o : Overlay) (now : Int) (path : Bytes) : Bool :=
  (o.renameOverlays.lookup path).any (fun op => !op.expired now) ||
    (findAbove (fun dir => (o.renameOverlays.lookup dir).any fun op => op.isDir && !op.expired now)
      (path.length + 2) (parentVirtualPath path)).isSome

/-- `IsCopyHidden`, of a clean path. -/
def isCopyHidden (o : Overlay) (now : Int) (path : Bytes) : Bool :=
  ((o.copyHiddenChildren.lookup (dirPath path)).bind (AList.lookup (basePath path))).any
    fun expires => !(now > expires)

/-- `unavailableLocked`. -/
def unavailable (o : Overlay) (now : Int) (path : Bytes) : Bool :=
  let path := cleanVirtualPath path
  o.isDeletedPath path || o.isRenameHiddenPath now path || o.isCopyHidden now path

end Overlay

/-! ## Removing and restoring -/

namespace Visibility

variable (v : Visibility)

/-- `clearFailureLocked`. -/
def clearFailure (path : Bytes) : Visibility :=
  { v with deleteState := { v.deleteState with failures := v.deleteState.failures.erase path } }

/-- `clearTakeoverLocked`. -/
def clearTakeover (path : Bytes) : Visibility :=
  { v with deleteState :=
    { v.deleteState with
      takeovers := v.deleteState.takeovers.filter fun dir => ¬ (dir = path ∨ isPathUnder dir path) } }

/-- `unscheduleLocked`, and `Cancel` of the scheduler. -/
def unschedule (path : Bytes) : Visibility :=
  { v with deleteState := { v.deleteState with scheduler := v.deleteState.scheduler.erase path } }

def removeDeleted (path : Bytes) : Visibility :=
  { v with overlay := v.overlay.removeDeleted path }

def markDeleted (path : Bytes) (entry : Entry) : Visibility :=
  let o := v.overlay.setDeleted path entry
  { v with overlay :=
    { o with
      renameOverlays := o.renameOverlays.erase path
      restoredDirs := o.restoredDirs.erase path } }.clearFailure path

def setRestored (path : Bytes) (expires : Int) : Visibility :=
  { v with overlay := { v.overlay with restoredDirs := v.overlay.restoredDirs.insert path expires } }

def restoreDeletedPath (now : Int) (path : Bytes) : Option Entry × Visibility :=
  let path := cleanVirtualPath path
  match v.overlay.deleted.lookup path with
  | none => (none, v)
  | some entry =>
    let v := (((v.clearFailure path).clearTakeover path).removeDeleted path).unschedule path
    (some entry, if entry.isDir then v.setRestored path (now + restoredDirTTL) else v)

def restoreDeletedAncestor (now : Int) (path : Bytes) : Visibility :=
  match v.overlay.deepestDeletedAncestor (cleanVirtualPath path) with
  | none => v
  | some (restorePath, _) =>
    let v := (((v.removeDeleted restorePath).clearFailure restorePath).clearTakeover
      restorePath).unschedule restorePath
    v.setRestored restorePath (now + restoredDirTTL)

def cancelDeletedFile (path : Bytes) : Visibility :=
  let path := cleanVirtualPath path
  match v.overlay.deleted.lookup path with
  | none => v
  | some entry => if entry.isDir then v else ((v.removeDeleted path).clearFailure path).unschedule path

/-- `AddRenameOverlay`; the shadows below a directory go with it. -/
def addRenameOverlay (now : Int) (oldPath newPath entryID : Bytes) (recursive : Bool) : Visibility :=
  let oldPath := cleanVirtualPath oldPath
  let op : OverlayOp := ⟨oldPath, cleanVirtualPath newPath, entryID, recursive, false, false, now⟩
  let overlays := v.overlay.renameOverlays.insert oldPath op
  let nested := overlays.entries.filter fun r => r.1 ≠ oldPath ∧ isPathUnder r.2.oldPath oldPath
  let overlays := if recursive then nested.foldl (fun m r => m.erase r.1) overlays else overlays
  { v with overlay := { v.overlay with renameOverlays := overlays } }

/-- `entryListHasPath` for any id. -/
def entryListHasPath (entries : List Entry) (name : Bytes) : Bool := entries.any (·.name = name)

def OverlayOp.listed (op : OverlayOp) (parentPath : Bytes) (entries : List Entry) : OverlayOp :=
  let op := if dirPath op.oldPath = parentPath then
    { op with oldGone := !entryListHasPath entries (basePath op.oldPath) } else op
  if dirPath op.newPath = parentPath then
    { op with newSeen := entryListHasPath entries (basePath op.newPath) } else op

def updateRenameOverlay (now : Int) (parentPath : Bytes) (entries : List Entry) : Visibility :=
  let parentPath := cleanVirtualPath parentPath
  let overlays := v.overlay.renameOverlays.entries.foldl (fun m r =>
    let op := OverlayOp.listed r.2 parentPath entries
    if r.2.expired now ∨ (op.oldGone ∧ op.newSeen) then m.erase r.1 else m.insert op.oldPath op)
    v.overlay.renameOverlays
  { v with overlay := { v.overlay with renameOverlays := overlays } }

def retireRenameShadow (path entryID : Bytes) : Visibility :=
  let path := cleanVirtualPath path
  if (v.overlay.renameOverlays.lookup path).all (·.entryID = entryID) then v
  else { v with overlay :=
    { v.overlay with renameOverlays := v.overlay.renameOverlays.erase path } }

def unhideCopyChild (parentPath name : Bytes) : Visibility :=
  let parentPath := cleanVirtualPath parentPath
  match v.overlay.copyHiddenChildren.lookup parentPath with
  | none => v
  | some names =>
    let names := names.erase name
    { v with overlay :=
      { v.overlay with copyHiddenChildren :=
        if names.entries = [] then v.overlay.copyHiddenChildren.erase parentPath
        else v.overlay.copyHiddenChildren.insert parentPath names } }

def isUnderRestoredDir (now : Int) (path : Bytes) : Bool :=
  let path := cleanVirtualPath path
  v.overlay.restoredDirs.entries.any fun r => !(now > r.2) && (path = r.1 || isPathUnder path r.1)

/-! ## Deleting -/

def beginDelete (path entryID : Bytes) : Bool :=
  let path := cleanVirtualPath path
  match v.overlay.deleted.lookup path with
  | none => false
  | some current =>
    current.id = entryID && !v.deleteState.takeovers.any fun takeover => takeover ≠ path ∧ isPathUnder path takeover

def markDeleteActive (path : Bytes) (entry : Entry) : Visibility :=
  { v with deleteState :=
    { v.deleteState with active := v.deleteState.active.insert path entry } }.clearFailure path

/-- `delete(r.deleteState.active, path)`. -/
def clearActive (path : Bytes) : Visibility :=
  { v with deleteState := { v.deleteState with active := v.deleteState.active.erase path } }

def markDeleteFailed (path : Bytes) (err : Err) : Visibility :=
  let v := v.clearActive path
  { v with deleteState :=
    { v.deleteState with failures := v.deleteState.failures.insert path (ascii err.message) } }

def markDeleteComplete (path : Bytes) : Visibility :=
  let v := (((v.clearActive path).clearFailure path).clearTakeover path).removeDeleted path
  { v with overlay := { v.overlay with restoredDirs := v.overlay.restoredDirs.erase path } }

def cancelDelete (path : Bytes) : Visibility :=
  ((((v.clearActive path).clearFailure path).clearTakeover path).unschedule path).removeDeleted path

/-- `Schedule`: a timer replaces the one that is armed. -/
def schedule (path : Bytes) (entry : Entry) : Visibility :=
  { v with deleteState :=
    { v.deleteState with scheduler := v.deleteState.scheduler.insert path entry } }

def noActiveChildren (dir : Bytes) : Bool :=
  !v.deleteState.active.keys.any fun path => path ≠ dir ∧ isPathUnder path dir

/-! `TakeoverDirectory` takes the locks several times. -/

def addTakeover (dir : Bytes) : Visibility :=
  { v with deleteState :=
    { v.deleteState with takeovers := dir :: v.deleteState.takeovers.filter (· ≠ dir) } }

def scheduledUnder (dir : Bytes) : List Bytes :=
  v.deleteState.scheduler.keys.filter fun path => path ≠ dir ∧ isPathUnder path dir

/-- `CancelUnder` of the scheduler. -/
def cancelUnder (dir : Bytes) : Visibility :=
  (v.deleteState.scheduler.keys.filter fun path => path = dir ∨ isPathUnder path dir).foldl unschedule v

def dropDeletes (paths : List Bytes) : Visibility :=
  paths.foldl (fun v path => (v.removeDeleted path).clearFailure path) v

end Visibility

end Vfs
