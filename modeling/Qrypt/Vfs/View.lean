import Qrypt.Upload.Store
import Qrypt.Vfs.Overlay

/-!
# The view

`View` of `pkg/vfs/view` with its `Runtime`, `Visibility`, `Committer` and `Resolve`: what was seen of the
remote tree, kept by path, under the overlay that hides paths. A mutation commits its result here at once;
a listing of the backend is folded in when it comes back. The modification times that are set locally are
left out, and so is the list of changes that the read cache gets.

Go walks its maps in any order; here the order is the one of the association list. The path is left out
of the text of `ErrNotFound`.
-/

namespace Vfs

open Infra Drive Upload

/-- `View`, with the overlay and the deletes that go with it. -/
structure View where
  entries : AList (fun _ : Bytes => Entry) := ∅
  lists : AList (fun _ : Bytes => List Entry × Int) := ∅
  localDirs : AList (fun _ : Bytes => Int) := ∅
  vis : Visibility := {}

def errNotFound : Err := .text "drive: not found"

def localCreateLookupTTL : Int := 2 * 60 * 10 ^ 9

def directoryCopyHideTTL : Int := 10 * 60 * 10 ^ 9

def listCacheTTL : Int := 10 * 10 ^ 9

def hasName (entries : List Entry) (name : Bytes) : Bool := entries.any (·.name = name)

def entryForPath (path : Bytes) (entry : Entry) : Entry :=
  { entry with name := basePath (cleanVirtualPath path) }

section Keys

variable {β : Type}

/-- `DeleteUnder`: the path and all paths below it go. -/
def deleteUnder (m : AList fun _ : Bytes => β) (path : Bytes) : AList fun _ : Bytes => β :=
  (m.keys.filter fun key => key = path ∨ isPathUnder key path).foldl (fun m key => m.erase key) m

/-- The place of a path below `oldPath` after that directory was renamed. -/
def rebasePath (oldPath newPath path : Bytes) : Bytes :=
  joinVirtualPath newPath (PendingStore.trimStart path (oldPath ++ [47]))

/-- `RebaseCachedPathsLocked`. -/
def rebaseUnder (m : AList fun _ : Bytes => β) (oldPath newPath : Bytes) : AList fun _ : Bytes => β :=
  m.entries.foldl (fun m r =>
    if isPathUnder r.1 oldPath then (m.erase r.1).insert (rebasePath oldPath newPath r.1) r.2 else m) m

end Keys

namespace View

/-- `NewView`. -/
def new (rootID : Bytes) : View :=
  { entries := (∅ : AList _).insert [47] ⟨rootID, [], [47], true, 0, none⟩ }

/-! ## Looking at the view -/

variable (v : View)

def isUnavailable (now : Int) (path : Bytes) : Bool := v.vis.overlay.unavailable now path

def isDeleted (path : Bytes) : Bool := v.vis.overlay.isDeletedPath (cleanVirtualPath path)

def cachedEntry (path : Bytes) : Option Entry := v.entries.lookup (cleanVirtualPath path)

def isRecentLocalDir (now : Int) (path : Bytes) : Bool :=
  (v.localDirs.lookup (cleanVirtualPath path)).any fun expires => !(now > expires)

def freshList (now : Int) (parentPath : Bytes) : Option (List Entry) :=
  match v.lists.lookup (cleanVirtualPath parentPath) with
  | none => none
  | some (entries, expires) => if now < expires then some entries else none

def filterDeleted (now : Int) (parentPath : Bytes) (entries : List Entry) : List Entry :=
  entries.filter fun entry => !v.isUnavailable now (joinVirtualPath parentPath entry.name)

def localChildren (now : Int) (parentPath : Bytes) (entries : List Entry) : List Entry :=
  let parentPath := cleanVirtualPath parentPath
  v.entries.entries.foldl (fun out r =>
    if r.1 = [47] ∨ dirPath r.1 ≠ parentPath ∨ hasName out r.2.name ∨ v.isUnavailable now r.1 then out
    else out ++ [r.2]) entries

def setSize (name : Bytes) (size : Int) : List Entry → List Entry
  | [] => []
  | entry :: entries =>
    if entry.name = name ∧ !hasName entries name then { entry with size := size } :: entries
    else entry :: setSize name size entries

def mergePendingChildren (pending : List PendingUpload) (parentPath : Bytes)
    (entries : List Entry) : List Entry :=
  let parentPath := cleanVirtualPath parentPath
  pending.foldl (fun out p =>
    if dirPath p.path ≠ parentPath ∨ v.isDeleted p.path then out
    else if hasName out p.name then setSize p.name p.size.val out
    else out ++ [⟨p.fid, p.parentID, p.name, false, p.size.val, none⟩]) entries

def projectChildren (pending : List PendingUpload) (now : Int) (parentPath : Bytes)
    (entries : List Entry) : List Entry :=
  v.mergePendingChildren pending parentPath (v.localChildren now parentPath (v.filterDeleted now parentPath entries))

/-! ## Listings -/

def cacheListedChildren (parentPath : Bytes) (entries : List Entry) : View :=
  { v with
    entries := entries.foldl (fun m entry => m.insert (joinVirtualPath parentPath entry.name) entry) v.entries }

def commitChildren (parentPath : Bytes) (entries : List Entry) (expires : Int) : View :=
  let parentPath := cleanVirtualPath parentPath
  let v := v.cacheListedChildren parentPath entries
  { v with lists := v.lists.insert parentPath (entries, expires) }

def updateRenameOverlay (now : Int) (parentPath : Bytes) (entries : List Entry) : View :=
  { v with vis := v.vis.updateRenameOverlay now parentPath entries }

/-- `CommitRemoteChildren`: the view afterwards. -/
def committedChildren (now : Int) (parentPath : Bytes) (remote : List Entry) (expires : Int) : View :=
  let v := v.updateRenameOverlay now parentPath remote
  v.commitChildren parentPath (v.filterDeleted now parentPath remote) expires

/-- `CommitRemoteChildren`: what it returns. -/
def commitRemoteChildren (pending : List PendingUpload) (now : Int) (parentPath : Bytes)
    (remote : List Entry) (expires : Int) : List Entry × View :=
  let visible := (v.updateRenameOverlay now parentPath remote).filterDeleted now parentPath remote
  let v := v.committedChildren now parentPath remote expires
  (v.projectChildren pending now parentPath visible, v)

/-- `CommitResolvedChildren`: the last child with the name, and the view. -/
def commitResolvedChildren (parentPath name : Bytes) (entries : List Entry) : Option Entry × View :=
  (entries.reverse.find? (·.name = name), v.cacheListedChildren parentPath entries)

/-- What the backend lists for an id. -/
abbrev RemoteList := Bytes → Except Err (List Entry)

/-- `Children`, with no other load under way. -/
def children (list : RemoteList) (pending : List PendingUpload) (now : Int) (parentPath parentID : Bytes)
    (v : View) : Except Err (List Entry) × View :=
  let parentPath := cleanVirtualPath parentPath
  if v.isUnavailable now parentPath then (.error errNotFound, v)
  else
    match v.freshList now parentPath with
    | some entries => (.ok (v.projectChildren pending now parentPath entries), v)
    | none =>
      match list parentID with
      | .error err => (.error err, v)
      | .ok remote =>
        let (entries, v) := v.commitRemoteChildren pending now parentPath remote (now + listCacheTTL)
        (.ok entries, v)

/-- `ResolveWithRuntime` of a path that is not cached, when its parent is resolved. -/
def resolveIn (list : RemoteList) (pending : List PendingUpload) (now : Int) (path : Bytes) (parent : Entry)
    (v : View) : Except Err Entry × View :=
  if v.isRecentLocalDir now (parentVirtualPath path) then (.error errNotFound, v)
  else
    match v.children list pending now (parentVirtualPath path) parent.id with
    | (.error err, v) => (.error err, v)
    | (.ok entries, v) =>
      match v.commitResolvedChildren (parentVirtualPath path) (splitName path) entries with
      | (some child, v) => (.ok child, v)
      | (none, v) => (.error errNotFound, v)

/-- `ResolveWithRuntime`; paths get shorter on the way up, and the root is cached. -/
def resolve (list : RemoteList) (pending : List PendingUpload) (now : Int) :
    Nat → Bytes → View → Except Err Entry × View
  | 0, _, v => (.error errNotFound, v)
  | fuel + 1, path, v =>
    if v.isUnavailable now (cleanVirtualPath path) then (.error errNotFound, v)
    else
      match v.cachedEntry path with
      | some entry => (.ok entry, v)
      | none =>
        match resolve list pending now fuel (parentVirtualPath (cleanVirtualPath path)) v with
        | (.error err, v) => (.error err, v)
        | (.ok parent, v) => v.resolveIn list pending now (cleanVirtualPath path) parent

/-- `ListNoPrefetch`. -/
def listPath (list : RemoteList) (pending : List PendingUpload) (now : Int) (fuel : Nat) (path : Bytes)
    (v : View) : Except Err (List Entry) × View :=
  match v.resolve list pending now fuel path with
  | (.error err, v) => (.error err, v)
  | (.ok entry, v) => v.children list pending now path entry.id

/-! ## Commits of mutations -/

/-- `InvalidateListLocked`. -/
def invalidateList (path : Bytes) : View :=
  { v with lists := v.lists.erase (cleanVirtualPath path) }

def dropEntryPath (path : Bytes) : View :=
  let path := cleanVirtualPath path
  { v with entries := v.entries.erase path }.invalidateList (dirPath path)

def retireRenameShadow (path entryID : Bytes) : View :=
  { v with vis := v.vis.retireRenameShadow path entryID }

def commitMkdir (now : Int) (path : Bytes) (entry : Entry) : View :=
  ({ v with
    entries := v.entries.insert path entry
    localDirs := v.localDirs.insert (cleanVirtualPath path) (now + localCreateLookupTTL) }.invalidateList
      (dirPath path)).retireRenameShadow path entry.id

def markDeleted (path : Bytes) (entry : Entry) : View :=
  let entries := v.entries.erase path
  { v with
    vis := v.vis.markDeleted path entry
    entries := if entry.isDir then deleteUnder entries path else entries
    lists := if entry.isDir then deleteUnder v.lists path else v.lists }

def commitRemove (path : Bytes) (entry : Entry) : View :=
  let v := v.markDeleted path entry
  { v with localDirs := deleteUnder v.localDirs (cleanVirtualPath path) }

def commitUploadedEntry (path : Bytes) (entry : Entry) : View :=
  let entry := entryForPath path entry
  ({ v with
    entries := v.entries.insert path entry
    vis := v.vis.unhideCopyChild (dirPath path) entry.name }.invalidateList
      (dirPath path)).retireRenameShadow path entry.id

def dropUploadedEntry (path : Bytes) : View :=
  { v with entries := v.entries.erase path }.invalidateList (dirPath path)

/-- `RebaseLocalDirsLocked`. -/
def rebaseLocalDirs (oldPath newPath : Bytes) : View :=
  { v with localDirs := v.localDirs.entries.foldl (fun m r =>
      if r.1 = oldPath then (m.erase r.1).insert newPath r.2
      else if isPathUnder r.1 oldPath then (m.erase r.1).insert (rebasePath oldPath newPath r.1) r.2
      else m) v.localDirs }

def changesID (path : Bytes) (entry : Entry) : Bool :=
  (v.entries.lookup (cleanVirtualPath path)).any fun previous => previous.id ≠ [] && previous.id ≠ entry.id

/-- The cached entries below a renamed directory: they go if it has another id, else they move along. -/
def moveCached (oldPath newPath : Bytes) (entry : Entry) : View :=
  let entries := (v.entries.erase oldPath).erase newPath
  { v with
    entries := if v.changesID oldPath entry then deleteUnder entries oldPath
      else rebaseUnder entries (cleanVirtualPath oldPath) (cleanVirtualPath newPath)
    lists := if v.changesID oldPath entry then deleteUnder v.lists (cleanVirtualPath oldPath)
      else v.lists }

def commitRemoteRename (now : Int) (oldPath newPath : Bytes) (entry : Entry) : View :=
  let v := ((((v.moveCached oldPath newPath entry).rebaseLocalDirs (cleanVirtualPath oldPath)
    (cleanVirtualPath newPath)).invalidateList (dirPath oldPath)).invalidateList
      (dirPath newPath)).invalidateList newPath
  { v with
    entries := v.entries.insert newPath (entryForPath newPath entry)
    vis := v.vis.addRenameOverlay now oldPath newPath entry.id entry.isDir }

def restoreDeletedPath (now : Int) (path : Bytes) : Option Entry × View :=
  let path := cleanVirtualPath path
  match v.vis.restoreDeletedPath now path with
  | (none, _) => (none, v)
  | (some entry, vis) =>
    (some entry, { v with vis := vis, entries := v.entries.insert path entry }.invalidateList (dirPath path))

def restoreDeletedAncestor (now : Int) (path : Bytes) : View :=
  match v.vis.overlay.deepestDeletedAncestor (cleanVirtualPath path) with
  | none => v
  | some (restorePath, entry) =>
    { v with
      vis := v.vis.restoreDeletedAncestor now path
      entries := v.entries.insert restorePath entry }.invalidateList (dirPath restorePath)

def markDeleteComplete (path : Bytes) : View :=
  { v with vis := v.vis.markDeleteComplete path }.invalidateList (dirPath path)

/-- `PrepareLocalDirectoryCopy`: the cached children of the directory and the given names are hidden. -/
def prepareLocalDirectoryCopy (now : Int) (path : Bytes) (hideNames : AList fun _ : Bytes => Int) : View :=
  let cached := v.entries.entries.filter fun r => dirPath r.1 = path
  let hideNames := cached.foldl (fun names r =>
    if (names.lookup r.2.name).isSome ∨ isAppleMetadataName r.2.name then names
    else names.insert r.2.name (now + directoryCopyHideTTL)) hideNames
  let path := cleanVirtualPath path
  { v with
    entries := cached.foldl (fun m r => m.erase r.1) v.entries
    localDirs := v.localDirs.insert path (now + localCreateLookupTTL)
    lists := v.lists.erase path
    vis := { v.vis with overlay :=
      { v.vis.overlay with copyHiddenChildren :=
        if hideNames.entries = [] then v.vis.overlay.copyHiddenChildren.erase path
        else v.vis.overlay.copyHiddenChildren.insert path hideNames } } }

end View

end Vfs
