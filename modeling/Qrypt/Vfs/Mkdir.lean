import Qrypt.Vfs.Delete
import Qrypt.Vfs.View

/-!
# Directories are created and removed

`MkdirCoordinator` and `RemoveCoordinator` of `pkg/vfs/mutation`, and the delayed delete, as they act on the
view when one call runs after the other and no upload is pending. To create a directory at a path whose
delete waits for its timer is to take the delete back.
-/

namespace Vfs

open Infra Drive Upload

/-- What the backend answers during a call. -/
structure Answers where
  list : View.RemoteList := fun _ => .ok []
  mkdir : Bytes → Bytes → Except Err Entry := fun _ _ => .error errNotFound
  remove : Entry → Option Err := fun _ => none
  /-- `errors.Is(err, drive.ErrNotFound)` -/
  notFound : Err → Bool := fun _ => true
  /-- `isAlreadyExistsError` -/
  conflict : Err → Bool := fun _ => false

namespace View

variable (a : Answers) (now : Int) (fuel : Nat)

/-! ## Mkdir -/

def findExistingChildDir (parentPath parentID name : Bytes) (v : View) : Except Err Entry × View :=
  match a.list parentID with
  | .error err => (.error err, v)
  | .ok entries =>
    let v := v.cacheListedChildren parentPath entries
    match entries.find? fun child => child.name = name && child.isDir with
    | some child => (.ok child, v)
    | none => (.error (.text ("vfs: existing directory not found: " ++ latin1 (joinVirtualPath parentPath name))), v)

/-- The part of `Mkdir` that creates the directory. -/
def createDir (path : Bytes) (v : View) : Except Err Entry × View :=
  match v.resolve a.list [] now fuel (parentVirtualPath path) with
  | (.error err, v) => (.error err, v)
  | (.ok parent, v) =>
    match a.mkdir parent.id (splitName path) with
    | .ok entry => (.ok entry, v.commitMkdir now path entry)
    | .error err =>
      if a.conflict err then
        match v.findExistingChildDir a (dirPath path) parent.id (splitName path) with
        | (.error err, v) => (.error err, v)
        | (.ok entry, v) => (.ok entry, v.commitMkdir now path entry)
      else (.error err, v)

def existingDir (path : Bytes) (entry : Entry) : Except Err Entry :=
  if entry.isDir then .ok entry
  else .error (.text ("vfs: " ++ latin1 path ++ " exists and is not a directory"))

/-- `Mkdir` of a path below a directory that was just restored: it may exist on the backend. -/
def mkdirRestored (path : Bytes) (v : View) : Except Err Entry × View :=
  match v.resolve a.list [] now fuel path with
  | (.ok entry, v) => (existingDir path entry, v)
  | (.error err, v) => if a.notFound err then v.createDir a now fuel path else (.error err, v)

def mkdir (path : Bytes) (v : View) : Except Err Entry × View :=
  let path := cleanVirtualPath path
  match v.resolve a.list [] now fuel path with
  | (.ok entry, v) => (existingDir path entry, v)
  | (.error err, v) =>
    if a.notFound err then
      match v.restoreDeletedPath now path with
      | (some entry, v) => (.ok entry, v)
      | (none, v) =>
        let v := v.restoreDeletedAncestor now (dirPath path)
        if v.vis.isUnderRestoredDir now path then v.mkdirRestored a now fuel path
        else v.createDir a now fuel path
    else (.error err, v)

/-! ## Remove -/

/-- `Execute`; no other delete runs. -/
def execute (path : Bytes) (entry : Entry) (v : View) : View :=
  if v.vis.beginDelete path entry.id then
    let v := { v with vis := v.vis.markDeleteActive path entry }
    match a.remove entry with
    | some err => { v with vis := v.vis.markDeleteFailed path err }
    | none => v.markDeleteComplete path
  else v

def scheduleDelete (delay : Int) (path : Bytes) (entry : Entry) (v : View) : View :=
  if delay ≤ 0 then v.execute a path entry
  else { v with vis := (v.vis.clearFailure path).schedule path entry }

def timer (path : Bytes) (v : View) : View :=
  match v.vis.deleteState.scheduler.lookup path with
  | none => v
  | some entry => { v with vis := v.vis.unschedule path }.execute a path entry

def removeFile (delay : Int) (path : Bytes) (v : View) : Option Err × View :=
  let path := cleanVirtualPath path
  match v.resolve a.list [] now fuel path with
  | (.error err, v) => (some err, v)
  | (.ok entry, v) => (none, (v.commitRemove path entry).scheduleDelete a delay path entry)

def hasRecentLocalChild (dir : Bytes) (v : View) : Bool :=
  v.localDirs.entries.any fun r => !(now > r.2) && r.1 ≠ dir && dirPath r.1 = dir

def ensureDirectoryEmpty (path : Bytes) (entry : Entry) (v : View) : Option Err :=
  let listed : Except Err (List Entry) := match a.list entry.id with
    | .ok children => .ok children
    | .error err => if a.notFound err then .ok [] else .error err
  match listed with
  | .error err => some err
  | .ok children =>
    if children.any fun child =>
        !isAppleMetadataName child.name && !v.isDeleted (joinVirtualPath path child.name) then some (errDirNotEmpty path)
    else if v.hasRecentLocalChild now path then some (errDirNotEmpty path)
    else none

def takeoverDirectory (dir : Bytes) (v : View) : View :=
  let vis := v.vis.addTakeover dir
  { v with vis := (vis.cancelUnder dir).dropDeletes (vis.scheduledUnder dir) }

def removeDirectory (delay : Int) (path : Bytes) (v : View) : Option Err × View :=
  match v.resolve a.list [] now fuel path with
  | (.error err, v) => (some err, v)
  | (.ok entry, v) =>
    if entry.isDir then
      (none, ((v.takeoverDirectory path).commitRemove path entry).scheduleDelete a delay path entry)
    else (some (errNotDirectory path), v)

def removeDir (delay : Int) (path : Bytes) (v : View) : Option Err × View :=
  let path := cleanVirtualPath path
  match v.resolve a.list [] now fuel path with
  | (.error err, v) => (some err, v)
  | (.ok entry, v) =>
    if entry.isDir then
      match v.ensureDirectoryEmpty a now path entry with
      | some err => (some err, v)
      | none => v.removeDirectory a now fuel delay path
    else (some (errNotDirectory path), v)

end View

end Vfs
