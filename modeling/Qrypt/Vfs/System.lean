import Qrypt.Infra.Conc
import Qrypt.Upload.HashTracker
import Qrypt.Upload.Schedule
import Qrypt.Vfs.Overlay

/-!
# The file system as a shared state

The operations of `pkg/vfs` run concurrently on one state: which paths are hidden or locked, the store
of pending uploads with its staging files, the scheduler of the uploads, the hashes of staged writes, and
the backend. Each operation is a program whose actions are the critical sections of its source; `Call` is
what such a section does.

What a path resolves to is an answer of the environment, so it may be out of date; so are the time and the failures
of the local disk. The caches of the view, the counters for diagnostics and the lock of whole subtrees are left out;
without this lock there are more interleavings than the source has.
-/

namespace Vfs

open Infra Drive Upload

/-- What happens during an action. -/
structure Env where
  store : StoreEnv := {}
  clock : Nat → Int := fun _ => 0
  /-- the file system is mounted and schedules uploads -/
  running : Bool := true
  /-- `resolve` -/
  resolve : Except Err Entry := .error (.text "drive: not found")
  /-- `remoteEntry` -/
  remoteEntry : Except Err (Option Entry) := .ok none
  /-- the content of the remote file -/
  read : Except Err Bytes := .ok []
  /-- the ids of the directories below a renamed one -/
  parents : Except Err (Bytes → Bytes) := .ok fun _ => []
  /-- `HasRecentLocalChild` -/
  recentLocalChild : Bool := false
  /-- `errors.Is(err, drive.ErrNotFound)` -/
  notFound : Err → Bool := fun _ => true
  /-- a call of the local disk fails; how much of its work is done then -/
  disk : Option Err := none
  done : Nat := 0
  /-- the context is cancelled -/
  cancelled : Option Err := none

/-- What the file system is set up with. -/
structure Config where
  stagingDir : Bytes := []
  deleteDelay : Int := 0
  hash : HashAlgorithm → Bytes → Bytes := fun _ _ => []

/-- The state of the file system and its backend. -/
structure Sys (σ : Type) where
  vis : Visibility := {}
  store : PendingStore := {}
  service : Service := {}
  hashes : HashTracker := {}
  /-- the thread that holds the lock of a path -/
  locks : Bytes → Option Nat := fun _ => none
  backend : σ

/-! ## Hiding and deleting -/

/-- The critical sections of `Visibility`. -/
inductive VisCall where
  | markDeleted (path : Bytes) (entry : Entry)
  | clearFailure (path : Bytes)
  | schedule (path : Bytes) (entry : Entry)
  | fire (path : Bytes)
  | beginDelete (path : Bytes) (entry : Entry)
  | markDeleteActive (path : Bytes) (entry : Entry)
  | waitActiveChildren (path : Bytes) (entry : Entry)
  | markDeleteFailed (path : Bytes) (entry : Entry) (err : Err)
  | markDeleteComplete (path : Bytes) (entry : Entry)
  | addTakeover (dir : Bytes)
  | cancelUnder (dir : Bytes)
  | dropDeletes (paths : List Bytes)
  | restoreDeletedPath (path : Bytes)
  | restoreDeletedAncestor (path : Bytes)
  | cancelDeletedFile (path : Bytes)
  | addRenameOverlay (oldPath newPath entryID : Bytes) (recursive : Bool)

def VisCall.apply (now : Int) (v : Visibility) : VisCall → Visibility
  | .markDeleted path entry => v.markDeleted path entry
  | .clearFailure path => v.clearFailure path
  | .schedule path entry => v.schedule path entry
  | .fire path => v.unschedule path
  | .beginDelete _ _ => v
  | .markDeleteActive path entry => v.markDeleteActive path entry
  | .waitActiveChildren _ _ => v
  | .markDeleteFailed path _ err => v.markDeleteFailed path err
  | .markDeleteComplete path _ => v.markDeleteComplete path
  | .addTakeover dir => v.addTakeover dir
  | .cancelUnder dir => v.cancelUnder dir
  | .dropDeletes paths => v.dropDeletes paths
  | .restoreDeletedPath path => (v.restoreDeletedPath now path).2
  | .restoreDeletedAncestor path => v.restoreDeletedAncestor now path
  | .cancelDeletedFile path => v.cancelDeletedFile path
  | .addRenameOverlay oldPath newPath entryID recursive => v.addRenameOverlay now oldPath newPath entryID recursive

/-- No marker is new. -/
def FewerMarkers (v' v : Visibility) : Prop :=
  ∀ path entry, v'.overlay.deleted.lookup path = some entry → v.overlay.deleted.lookup path = some entry

section Markers

variable {v v' v'' : Visibility}

theorem fewerMarkers_of_eq (h : v'.overlay.deleted = v.overlay.deleted) : FewerMarkers v' v := by
  intro path entry hmark
  rwa [h] at hmark

theorem FewerMarkers.trans (h : FewerMarkers v'' v') (h' : FewerMarkers v' v) : FewerMarkers v'' v :=
  fun path entry hmark => h' path entry (h path entry hmark)

theorem fewerMarkers_removeDeleted {path : Bytes}
    (h : v'.overlay.deleted = v.overlay.deleted.erase path) : FewerMarkers v' v := by
  intro path entry hmark
  rw [h] at hmark
  exact (lookup_erase_some hmark).2

theorem fewerMarkers_restoreDeletedPath (v : Visibility) (now : Int) (path : Bytes) :
    FewerMarkers (v.restoreDeletedPath now path).2 v := by
  unfold Visibility.restoreDeletedPath
  dsimp only
  split
  · exact fewerMarkers_of_eq rfl
  · split <;> exact fewerMarkers_removeDeleted rfl

theorem fewerMarkers_restoreDeletedAncestor (v : Visibility) (now : Int) (path : Bytes) :
    FewerMarkers (v.restoreDeletedAncestor now path) v := by
  unfold Visibility.restoreDeletedAncestor
  split
  · exact fewerMarkers_of_eq rfl
  · exact fewerMarkers_removeDeleted rfl

theorem fewerMarkers_cancelDeletedFile (v : Visibility) (path : Bytes) :
    FewerMarkers (v.cancelDeletedFile path) v := by
  unfold Visibility.cancelDeletedFile
  dsimp only
  split
  · exact fewerMarkers_of_eq rfl
  · split
    · exact fewerMarkers_of_eq rfl
    · exact fewerMarkers_removeDeleted rfl

theorem fewerMarkers_foldl {f : Visibility → Bytes → Visibility}
    (hf : ∀ v path, FewerMarkers (f v path) v) (paths : List Bytes) (v : Visibility) :
    FewerMarkers (paths.foldl f v) v := by
  induction paths generalizing v with
  | nil => exact fewerMarkers_of_eq rfl
  | cons path paths ih => exact (ih (f v path)).trans (hf v path)

/-- **Only `MarkDeleted` hides a path.** -/
theorem VisCall.markers (call : VisCall) (now : Int) (v : Visibility) :
    (∃ path entry, call = .markDeleted path entry) ∨ FewerMarkers (call.apply now v) v := by
  cases call with
  | markDeleted path entry => exact .inl ⟨path, entry, rfl⟩
  | markDeleteComplete path entry => exact .inr (fewerMarkers_removeDeleted rfl)
  | cancelUnder dir =>
    exact .inr (fewerMarkers_foldl (f := Visibility.unschedule) (fun _ _ => fewerMarkers_of_eq rfl) _ v)
  | dropDeletes paths => exact .inr (fewerMarkers_foldl (fun _ _ => fewerMarkers_removeDeleted rfl) _ v)
  | restoreDeletedPath path => exact .inr (fewerMarkers_restoreDeletedPath v now path)
  | restoreDeletedAncestor path => exact .inr (fewerMarkers_restoreDeletedAncestor v now path)
  | cancelDeletedFile path => exact .inr (fewerMarkers_cancelDeletedFile v path)
  | _ => exact .inr (fewerMarkers_of_eq rfl)

end Markers

/-! ## The backend -/

/-- The calls of the driver that change the backend. `delete` is the call of the delete executor. -/
inductive RemoteCall where
  | delete (path : Bytes) (entry : Entry)
  | remove (entry : Entry)
  | rename (entry : Entry) (newName : Bytes)
  | move (entry : Entry) (dstParentID : Bytes)
  | putSource (req : UploadRequest)

def RemoteCall.apply {σ : Type} (raw : Driver σ) (s : σ) : RemoteCall → σ
  | .delete _ entry => (raw.remove s entry).2
  | .remove entry => (raw.remove s entry).2
  | .rename entry newName => (raw.rename s entry newName).2
  | .move entry dstParentID => (raw.move s entry dstParentID).2
  | .putSource req => (raw.putSource s req).2

/-! ## Staging files -/

/-- A file after a write at an offset; a gap is filled with zeros. -/
def writeAt (content data : Bytes) (off : Nat) : Bytes :=
  if data = [] then content
  else
    (content ++ List.replicate (off - content.length) 0).take off ++ data ++ content.drop (off + data.length)

/-- A file after `os.Truncate`. -/
def truncate (content : Bytes) (size : Nat) : Bytes :=
  content.take size ++ List.replicate (size - content.length) 0

/-- The calls that change staging files. -/
inductive FileCall where
  | create (localPath : Bytes)
  | copy (localPath content : Bytes)
  | writeStagingAt (localPath data : Bytes) (off : I64)
  | truncateStaging (localPath : Bytes) (size : I64)
  | remove (localPath : Bytes)

/-- Why a write fails before it begins: `WriteAt` of `os` refuses such offsets. -/
def writeRefused (data : Bytes) (off : Int) : Option Err :=
  if off < 0 then some (.text "negative offset")
  else if ¬ Fits64 (off + data.length) then some (.text "file too large")
  else none

def FileCall.error (e : Env) : FileCall → Option Err
  | .writeStagingAt _ data off => (writeRefused data off).or e.disk
  | .remove localPath => if e.store.removeFails localPath then e.disk.or (some (.text "remove")) else none
  | _ => e.disk

def FileCall.apply (e : Env) (c : PendingStore) : FileCall → PendingStore
  | .create localPath =>
    if e.disk.isSome ∧ e.done = 0 then c
    else { c with staging := c.staging.insert localPath [] }
  | .copy localPath content =>
    let content := if e.disk.isSome then content.take e.done else content
    { c with staging := c.staging.insert localPath content }
  | .writeStagingAt localPath data off =>
    if (writeRefused data off).isSome then c
    else
      let data := if e.disk.isSome then data.take e.done else data
      let content := (c.staging.lookup localPath).getD []
      { c with staging := c.staging.insert localPath (writeAt content data off.1.toNat) }
  | .truncateStaging localPath size =>
    if e.disk.isSome ∧ e.done = 0 then c
    else
      let content := (c.staging.lookup localPath).getD []
      { c with staging := c.staging.insert localPath (truncate content size.1.toNat) }
  | .remove localPath => c.removeStaging e.store localPath

/-! ## The hash tracker -/

/-- The calls of the hash tracker. -/
inductive HashCall where
  | start (p : PendingUpload)
  | write (p : PendingUpload) (data : Bytes) (off : Int)
  | dirty (p : PendingUpload)
  | removeFID (fid : Bytes)
  | removePath (path : Bytes)
  | removeUnder (dir : Bytes)
  | renamePath (oldPath newPath : Bytes) (p : PendingUpload)

def HashCall.apply (algorithms : List HashAlgorithm) (t : HashTracker) : HashCall → HashTracker
  | .start p => t.start p algorithms
  | .write p data off => t.write p data off algorithms
  | .dirty p => t.dirty p
  | .removeFID fid => t.removeFID fid
  | .removePath path => t.removePath path
  | .removeUnder dir => t.removeUnder dir
  | .renamePath oldPath newPath p => t.renamePath oldPath newPath p

/-! ## Calls -/

/-- What an operation asks the rest of the program. -/
inductive Question where
  | schedulingAllowed
  | resolve
  | parent
  | remoteEntry
  | renamedParents
  | other

/-- An atomic action of an operation. `removeUploadState` is what the delete executor does to the store. -/
inductive Call where
  | ask (question : Question)
  | lock (thread : Nat) (path : Bytes)
  | unlock (path : Bytes)
  | vis (call : VisCall)
  | remote (call : RemoteCall)
  | store (call : StoreCall)
  | file (call : FileCall)
  | hashes (call : HashCall)
  | service (op : ServiceOp)
  | removeUploadState (path : Bytes) (entry : Entry)

variable {σ α : Type}

def Call.apply (raw : Driver σ) (l : Call) (e : Env) (s : Sys σ) : Sys σ :=
  match l with
  | .ask _ => s
  | .lock thread path => { s with locks := Function.update s.locks path (some thread) }
  | .unlock path => { s with locks := Function.update s.locks path none }
  | .vis call => { s with vis := call.apply e.store.now.1 s.vis }
  | .remote call => { s with backend := call.apply raw s.backend }
  | .store call => { s with store := s.store.call (call, e.store) }
  | .file call => { s with store := call.apply e s.store }
  | .hashes call => { s with hashes := call.apply (requiredUploadSnapshotHashes raw.requiredUploadHashes) s.hashes }
  | .service op => { s with service := (s.service.apply s.store (op, e.clock)).2 }
  | .removeUploadState path _ => { s with store := s.store.call (.durable (.removeUpload path), e.store) }

/-- A program of the file system. -/
abbrev VfsProg (σ α : Type) := Prog Call Env (Sys σ) α

section Programs

variable (raw : Driver σ)

/-- An action, and what the operation learns from it. -/
def call (l : Call) (result : Env → Sys σ → α) : VfsProg σ α := Prog.perform (Call.apply raw) l result

def run (l : Call) : VfsProg σ Unit := call raw l fun _ _ => ()

def ask (result : Env → Sys σ → α) : VfsProg σ α := call raw (.ask .other) result

def askFor (question : Question) (answer : Env → α) : VfsProg σ α :=
  call raw (.ask question) fun e _ => answer e

def durable (op : StoreOp) : VfsProg σ (Option Err) :=
  call raw (.store (.durable op)) fun e s => (s.store.apply (op, e.store)).1

def pendingByPath (path : Bytes) : VfsProg σ (Option PendingUpload) :=
  ask raw fun _ s => s.store.pending.lookup path

/-- `parent`: the entry of the directory and the name in it. -/
def parentOf (path : Bytes) : VfsProg σ (Except Err (Entry × Bytes)) :=
  askFor raw .parent fun e => e.resolve.map fun parent => (parent, splitName path)

def locked (thread : Nat) (path : Bytes) (body : VfsProg σ α) : VfsProg σ α := do
  Prog.performWhen (Call.apply raw) (fun s => (s.locks path).isNone) (.lock thread path) fun _ _ => ()
  let r ← body
  run raw (.unlock path)
  pure r

/-- `EnqueueAfter`: a generation that is replaced in the schedule may lose its staging file. -/
def enqueueAfter (p : PendingUpload) (delay : Int) : VfsProg σ Unit := do
  let replaced ← call raw (.service (.enqueueAfter p delay)) fun e s => (s.service.enqueueAfter e.clock p delay).2
  match replaced with
  | some localPath => run raw (.store (.removeStagingIfUnreferenced localPath))
  | none => pure ()

/-- `Enqueue` of the service. -/
def enqueue (p : PendingUpload) : VfsProg σ Unit := do
  let replaced ← call raw (.service (.enqueue p)) fun e s => (s.service.enqueue e.clock p).2
  match replaced with
  | some localPath => run raw (.store (.removeStagingIfUnreferenced localPath))
  | none => pure ()

end Programs

end Vfs
