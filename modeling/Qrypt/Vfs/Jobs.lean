import Qrypt.Vfs.Delete
import Qrypt.Vfs.Staging

/-!
# The operations of the file system, interleaved

`Job` collects the operations that users and timers start. Any number of them runs at the same time.

The delete executor works in steps that others can come between. `Running` is how far it has come; every
operation follows its protocol: what belongs to a delete is only done between `BeginDelete` and the end of
this delete.

* `runs_keep` — what every call of the protocol keeps holds in all runs
-/

namespace Vfs

open Infra Drive Upload

/-- What users, timers and tasks start. -/
inductive Job where
  | create (path : Bytes)
  | writeAt (path data : Bytes) (off : I64)
  | flush (path : Bytes)
  | truncate (path : Bytes) (size : I64)
  | rename (oldPath newPath : Bytes)
  | remove (path : Bytes)
  | removeDir (path : Bytes)
  | timer (path : Bytes)
  | retryDelete (path : Bytes)
  | cancelDelete (id : Bytes)
  | restoreDeleted (path : Bytes)

variable {σ α β : Type} (raw : Driver σ) (cfg : Config)

/-- What a thread does for a job. Timers and tasks name clean paths. -/
def Job.program (i : Nat) : Job → VfsProg σ (Option Err)
  | .create path => Vfs.create raw cfg i path
  | .writeAt path data off => writeFile raw cfg i path data off
  | .flush path => Vfs.flush raw cfg i path
  | .truncate path size => truncateFile raw cfg i path size
  | .rename oldPath newPath => Vfs.rename raw i oldPath newPath
  | .remove path => removeFile raw cfg i path
  | .removeDir path => Vfs.removeDir raw cfg path
  | .timer path => do Vfs.timer raw (cleanVirtualPath path); pure none
  | .retryDelete path => do Vfs.retryDelete raw cfg (cleanVirtualPath path); pure none
  | .cancelDelete id => Vfs.cancelDelete raw id
  | .restoreDeleted path => do Vfs.restoreDeleted raw path; pure none

/-! ## The protocol of the executor -/

/-- A delete that has begun; it is finished on the backend when `MarkDeleteComplete` is through. -/
structure Running where
  path : Bytes
  entry : Entry
  finished : Bool
  deriving DecidableEq

def Call.running : Call → Option Running
  | .vis (.markDeleteActive path entry) => some ⟨path, entry, false⟩
  | .vis (.waitActiveChildren path entry) => some ⟨path, entry, false⟩
  | .remote (.delete path entry) => some ⟨path, entry, false⟩
  | .vis (.markDeleteFailed path entry _) => some ⟨path, entry, false⟩
  | .vis (.markDeleteComplete path entry) => some ⟨path, entry, false⟩
  | .removeUploadState path entry => some ⟨path, entry, true⟩
  | _ => none

def Call.uploads : Call → Bool
  | .remote (.putSource _) => true
  | .remote (.remove _) => true
  | _ => false

def Call.begins : Call → Option Bytes
  | .vis (.beginDelete path _) => some path
  | _ => none

/-- The calls of an executor are about the delete it has begun, and its path is clean; nothing is
uploaded. -/
structure Owned (x : Option Running) (l : Call) : Prop where
  own : ∀ r, l.running = some r → x = some r
  clean : ∀ path, l.begins = some path → cleanVirtualPath path = path
  noUpload : l.uploads = false

def Call.progress (l : Call) (_ : Env) (s : Sys σ) (x : Option Running) : Option Running :=
  match l with
  | .vis (.beginDelete path entry) => if s.vis.beginDelete path entry.id then some ⟨path, entry, false⟩ else x
  | .vis (.markDeleteFailed _ _ _) => none
  | .vis (.markDeleteComplete path entry) => some ⟨path, entry, true⟩
  | .removeUploadState _ _ => none
  | _ => x

/-- Which calls a thread may make, and how far it has come after them. -/
structure Protocol (σ X : Type) where
  ok : X → Call → Prop
  move : Call → Env → Sys σ → X → X

def executor : Protocol σ (Option Running) where
  ok := Owned
  move := Call.progress

variable {X : Type}

/-- The program follows the protocol and leads its thread from `x` to `y`. -/
def Leads (P : Protocol σ X) (x y : X) (p : VfsProg σ α) : Prop :=
  p.Follows (Call.apply raw) P.ok P.move (fun _ z => z = y) x

def Call.plain (l : Call) : Bool := l.running.isNone && l.begins.isNone && !l.uploads

/-- The protocol has no part in the calls that are not the executor's, and the executor comes back to
where it started. -/
structure Neutral (P : Protocol σ X) (x : X) : Prop where
  plain : ∀ l : Call, l.plain = true → P.ok x l ∧ ∀ e s, P.move l e s x = x
  execute : ∀ path entry, cleanVirtualPath path = path → Leads raw P x x (Vfs.execute raw path entry)

variable {raw cfg}

/-! ## Every operation follows the protocol -/

section Protocols

variable {P : Protocol σ X} {x y z : X} {l : Call}

theorem leads_pure (a : α) : Leads raw P x x (pure a) := rfl

theorem Leads.bind {p : VfsProg σ α} {k : α → VfsProg σ β} (hp : Leads raw P x y p)
    (hk : ∀ a, Leads raw P y z (k a)) : Leads raw P x z (p >>= k) := by
  refine Prog.Follows.bind hp fun a w hw => ?_
  rw [hw]
  exact hk a

theorem Leads.ite {c : Prop} [Decidable c] {p q : VfsProg σ α} (hp : Leads raw P x y p)
    (hq : Leads raw P x y q) : Leads raw P x y (if c then p else q) := by
  split
  · exact hp
  · exact hq

theorem leads_when {guard : Sys σ → Bool} {result : Env → Sys σ → α} (hl : P.ok x l)
    (hy : ∀ e s, P.move l e s x = y) : Leads raw P x y (Prog.performWhen (Call.apply raw) guard l result) :=
  Prog.follows_performWhen hl fun e s _ => hy e s

variable (h : Neutral raw P x)
include h

theorem leads_callWhen (hl : l.plain = true) (guard : Sys σ → Bool) (result : Env → Sys σ → α) :
    Leads raw P x x (Prog.performWhen (Call.apply raw) guard l result) :=
  leads_when (h.plain l hl).1 (h.plain l hl).2

theorem leads_call (hl : l.plain = true) (result : Env → Sys σ → α) : Leads raw P x x (call raw l result) :=
  leads_callWhen h hl _ result

theorem leads_run (hl : l.plain = true) : Leads raw P x x (run raw l) := leads_call h hl _

theorem leads_ask {question : Question} (result : Env → Sys σ → α) :
    Leads raw P x x (call raw (.ask question) result) :=
  leads_call h rfl _

theorem leads_durable (op : StoreOp) : Leads raw P x x (durable raw op) := leads_call h rfl _

theorem leads_locked (i : Nat) (path : Bytes) {body : VfsProg σ α} (hbody : Leads raw P x x body) :
    Leads raw P x x (locked raw i path body) :=
  .bind (leads_callWhen h rfl _ _) fun _ => .bind hbody fun _ => .bind (leads_run h rfl) fun _ => leads_pure _

section Removing

variable {i : Nat} {path : Bytes} {entry : Entry}

theorem leads_timer (hclean : cleanVirtualPath path = path) : Leads raw P x x (timer raw path) := by
  refine .bind (leads_callWhen h rfl _ _) ?_
  rintro (_ | entry)
  · exact leads_pure _
  · exact h.execute _ _ hclean

theorem leads_scheduleDelete (hclean : cleanVirtualPath path = path) :
    Leads raw P x x (scheduleDelete raw cfg path entry) :=
  .ite (h.execute _ _ hclean) (.bind (leads_run h rfl) fun _ => leads_run h rfl)

theorem leads_commitRemove (hclean : cleanVirtualPath path = path) :
    Leads raw P x x (commitRemove raw cfg path entry) :=
  .bind (leads_run h rfl) fun _ => leads_scheduleDelete h hclean

theorem leads_removePending : Leads raw P x x (removePending raw path) := by
  refine .bind (leads_durable h _) ?_
  rintro (_ | err)
  · exact .bind (leads_run h rfl) fun _ => .bind (leads_run h rfl) fun _ => leads_pure _
  · exact leads_pure _

theorem leads_removePendingFile : Leads raw P x x (removePendingFile raw i path) := by
  refine leads_locked h _ _ (.bind (leads_ask h _) ?_)
  rintro (_ | pending)
  · exact leads_pure _
  refine .bind (leads_ask h _) ?_
  rintro (err | remote)
  · refine .bind (leads_ask h _) ?_
    rintro (_ | pending)
    · exact leads_pure _
    · exact leads_pure _
  · refine .bind (leads_removePending h) ?_
    rintro (_ | err)
    · exact leads_pure _
    · exact leads_pure _

theorem leads_removeFile : Leads raw P x x (removeFile raw cfg i path) := by
  have hclean := cleanVirtualPath_idem path
  refine .bind (leads_removePendingFile h) ?_
  rintro (err | ⟨_ | _, _ | remote⟩)
  · exact leads_pure _
  · refine .bind (leads_ask h _) ?_
    rintro (err | entry)
    · exact leads_pure _
    · exact .bind (leads_commitRemove h hclean) fun _ => leads_pure _
  · refine .bind (leads_ask h _) ?_
    rintro (err | entry)
    · exact leads_pure _
    · exact .bind (leads_commitRemove h hclean) fun _ => leads_pure _
  · exact leads_pure _
  · exact .bind (leads_commitRemove h hclean) fun _ => leads_pure _

theorem leads_ensureDirectoryEmpty {entry : Entry} : Leads raw P x x (ensureDirectoryEmpty raw path entry) := by
  refine .bind (leads_ask h _) ?_
  rintro (err | children)
  · exact leads_pure _
  · exact .bind (leads_ask h _) fun _ => .ite (leads_pure _) (.bind (leads_ask h _) fun _ =>
      .ite (leads_pure _) (.bind (leads_ask h _) fun _ => .ite (leads_pure _) (leads_pure _)))

theorem leads_takeoverDirectory : Leads raw P x x (takeoverDirectory raw path) :=
  .bind (leads_run h rfl) fun _ => .bind (leads_ask h _) fun _ => .bind (leads_run h rfl) fun _ => leads_run h rfl

theorem leads_prepareDirectory : Leads raw P x x (prepareDirectory raw path) :=
  .bind (leads_ask h _) fun _ => .ite (leads_pure _) (.bind (leads_run h rfl) fun _ =>
    .bind (leads_run h rfl) fun _ => .bind (leads_takeoverDirectory h) fun _ => leads_pure _)

theorem leads_removeDirectory (hclean : cleanVirtualPath path = path) :
    Leads raw P x x (removeDirectory raw cfg path) := by
  refine .bind (leads_ask h _) ?_
  rintro (err | entry)
  · exact leads_pure _
  refine .ite (.bind (leads_prepareDirectory h) ?_) (leads_pure _)
  rintro (_ | err)
  · exact .bind (leads_commitRemove h hclean) fun _ => leads_pure _
  · exact leads_pure _

theorem leads_removeDir : Leads raw P x x (removeDir raw cfg path) := by
  refine .bind (leads_ask h _) ?_
  rintro (err | entry)
  · exact leads_pure _
  refine .ite (.bind (leads_ensureDirectoryEmpty h) ?_) (leads_pure _)
  rintro (_ | err)
  · exact leads_removeDirectory h (cleanVirtualPath_idem path)
  · exact leads_pure _

theorem leads_retryDelete (hclean : cleanVirtualPath path = path) : Leads raw P x x (retryDelete raw cfg path) := by
  refine .bind (leads_ask h _) ?_
  rintro (_ | entry)
  · exact leads_pure _
  · exact .bind (leads_run h rfl) fun _ => leads_scheduleDelete h hclean

theorem leads_cancelDelete {id : Bytes} : Leads raw P x x (cancelDelete raw id) := by
  refine .bind (leads_ask h _) ?_
  rintro (_ | task)
  · exact leads_pure _
  refine .ite (leads_pure _) (.bind (leads_call h rfl _) ?_)
  rintro (_ | entry)
  · exact leads_pure _
  · exact leads_pure _

end Removing

section Renaming

variable {i : Nat} {oldPath newPath : Bytes}

theorem leads_removeReplaced (replaced : Option Bytes) :
    Leads raw P x x (match replaced with
      | some localPath => run raw (.store (.removeStagingIfUnreferenced localPath))
      | none => pure ()) := by
  cases replaced with
  | none => exact leads_pure _
  | some localPath => exact leads_run h rfl

variable {p : PendingUpload} {entry : Entry} {dstParentID parentID name : Bytes}

theorem leads_enqueueAfter {delay : Int} : Leads raw P x x (enqueueAfter raw p delay) :=
  .bind (leads_call h rfl _) (leads_removeReplaced h)

theorem leads_enqueue : Leads raw P x x (enqueue raw p) :=
  .bind (leads_call h rfl _) (leads_removeReplaced h)

theorem leads_moveRenamed {oldName : Option Bytes} : Leads raw P x x (moveRenamed raw entry oldName dstParentID) := by
  refine .ite (leads_pure _) (.bind (leads_call h rfl _) ?_)
  rintro (err | updated)
  · cases oldName with
    | none => exact leads_pure _
    | some oldName =>
      refine .bind (leads_call h rfl _) ?_
      rintro (rbErr | _)
      · exact leads_pure _
      · exact leads_pure _
  · exact leads_pure _

theorem leads_renameMove {newName : Bytes} : Leads raw P x x (renameMove raw entry dstParentID newName) := by
  refine .ite (leads_moveRenamed h) (.bind (leads_call h rfl _) ?_)
  rintro (err | updated)
  · exact leads_pure _
  · exact leads_moveRenamed h

theorem leads_moveSchedule : Leads raw P x x (moveSchedule raw oldPath p) :=
  .bind (leads_ask h _) fun _ => .ite (.bind (leads_run h rfl) fun _ => .ite (leads_enqueue h) (leads_pure _))
    (leads_pure _)

theorem leads_renameRecord {next : PendingUpload} : Leads raw P x x (renameRecord raw oldPath newPath next) := by
  refine .bind (leads_durable h _) ?_
  rintro (_ | err)
  · exact .bind (leads_run h rfl) fun _ => .bind (leads_moveSchedule h) fun _ => leads_pure _
  · exact leads_pure _

theorem leads_renamePending : Leads raw P x x (renamePending raw i oldPath newPath parentID name) := by
  refine leads_locked h _ _ (.bind (leads_ask h _) ?_)
  rintro (_ | pending)
  · exact leads_pure _
  · exact leads_renameRecord h

theorem leads_rebaseMoved (moved : List PendingUpload) : Leads raw P x x (rebaseMoved raw oldPath newPath moved) := by
  induction moved with
  | nil => exact leads_pure _
  | cons next moved ih => exact .bind (leads_run h rfl) fun _ => .bind (leads_moveSchedule h) fun _ => ih

theorem leads_rebasePendingUploads : Leads raw P x x (rebasePendingUploads raw oldPath newPath) := by
  refine .bind (leads_ask h _) ?_
  rintro (err | parents)
  · exact leads_pure _
  refine .bind (leads_call h rfl _) ?_
  rintro ⟨moved, _ | err⟩
  · exact .bind (leads_rebaseMoved h moved) fun _ => leads_pure _
  · exact leads_pure _

theorem leads_renamePendingWithRemote :
    Leads raw P x x (renamePendingWithRemote raw i oldPath newPath parentID name entry) := by
  refine .bind (leads_renameMove h) ?_
  rintro (renamed | err | ⟨renamed, err⟩)
  · exact .bind (leads_run h rfl) fun _ => leads_renamePending h
  · exact leads_pure _
  · exact .bind (leads_run h rfl) fun _ => .bind (leads_renamePending h) fun _ => leads_pure _

theorem leads_renamePendingTo : Leads raw P x x (renamePendingTo raw i oldPath newPath) := by
  refine .bind (leads_ask h _) ?_
  rintro (err | ⟨parent, name⟩)
  · exact leads_pure _
  refine .bind (leads_ask h _) ?_
  rintro (err | _ | entry)
  · exact leads_pure _
  · exact leads_renamePending h
  · exact leads_renamePendingWithRemote h

theorem leads_renamePendingSource : Leads raw P x x (renamePendingSource raw i oldPath newPath) := by
  refine .ite (leads_renamePendingTo h) (.bind (leads_ask h _) ?_)
  rintro (_ | destination)
  · exact leads_renamePendingTo h
  · exact leads_pure _

theorem leads_renameRemote : Leads raw P x x (renameRemote raw oldPath newPath entry parentID name) := by
  refine .bind (leads_renameMove h) ?_
  rintro (renamed | err | ⟨renamed, err⟩)
  · exact .bind (leads_run h rfl) fun _ => .ite (leads_rebasePendingUploads h) (leads_pure _)
  · exact leads_pure _
  · exact .bind (leads_run h rfl) fun _ => leads_pure _

theorem leads_renameRemoteSource : Leads raw P x x (renameRemoteSource raw oldPath newPath) := by
  refine .bind (leads_ask h _) ?_
  rintro (err | entry)
  · exact leads_pure _
  refine .bind (leads_ask h _) ?_
  rintro (err | ⟨parent, name⟩)
  · exact leads_pure _
  · exact leads_renameRemote h

theorem leads_rename : Leads raw P x x (rename raw i oldPath newPath) := by
  refine .ite (leads_pure _) (.bind (leads_ask h _) ?_)
  rintro (_ | pending)
  · exact leads_renameRemoteSource h
  · exact leads_renamePendingSource h

end Renaming

section Writing

variable {i : Nat} {path : Bytes}

theorem leads_createStaging : Leads raw P x x (createStaging raw cfg path) := by
  refine .bind (leads_ask h _) fun _ => .bind (leads_call h rfl _) ?_
  rintro (_ | err)
  · exact leads_pure _
  · exact leads_pure _

variable {p : PendingUpload} {data : Bytes} {off : I64}

theorem leads_saveNew : Leads raw P x x (saveNew raw p) := by
  refine .bind (leads_durable h _) ?_
  rintro (_ | err)
  · exact leads_pure _
  · exact .bind (leads_call h rfl _) fun _ => leads_pure _

theorem leads_copyStaging {content : Bytes} : Leads raw P x x (copyStaging raw p content) := by
  refine .bind (leads_call h rfl _) ?_
  rintro (_ | err)
  · exact .bind (leads_run h rfl) fun _ => leads_pure _
  · exact .bind (leads_call h rfl _) fun _ => leads_pure _

theorem leads_createLocked : Leads raw P x x (createLocked raw cfg path) := by
  refine .bind (leads_run h rfl) fun _ => .bind (leads_run h rfl) fun _ => .bind (leads_ask h _) ?_
  rintro (err | ⟨parent, name⟩)
  · exact leads_pure _
  refine .bind (leads_ask h _) fun old => .bind (leads_createStaging h) ?_
  rintro (err | ⟨fid, localPath⟩)
  · exact leads_pure _
  refine .bind (leads_ask h _) fun now => .bind (leads_saveNew h) ?_
  rintro (_ | err)
  · refine .bind (leads_run h rfl) fun _ => ?_
    split
    · exact leads_pure _
    · exact .bind (leads_run h rfl) fun _ => .bind (leads_run h rfl) fun _ => leads_pure _
  · exact leads_pure _

theorem leads_remoteContent : Leads raw P x x (remoteContent raw path) := by
  refine .bind (leads_ask h _) ?_
  rintro ⟨err | entry, notFound⟩
  · exact .ite (leads_pure _) (leads_pure _)
  · exact .ite (leads_pure _) (leads_ask h _)

theorem leads_stageExisting : Leads raw P x x (stageExisting raw cfg path) := by
  refine .bind (leads_ask h _) ?_
  rintro (err | ⟨parent, name⟩)
  · exact leads_pure _
  refine .bind (leads_createStaging h) ?_
  rintro (err | ⟨fid, localPath⟩)
  · exact leads_pure _
  refine .bind (leads_remoteContent h) ?_
  rintro (err | content)
  · exact .bind (leads_call h rfl _) fun _ => leads_pure _
  refine .bind (y := x) ?_ ?_
  · cases content with
    | none => exact leads_pure _
    | some content => exact .bind (leads_run h rfl) fun _ => leads_copyStaging h
  · rintro (_ | err)
    · exact .bind (leads_ask h _) fun _ => leads_saveNew h
    · exact leads_pure _

theorem leads_rotateFrozenGeneration {old : PendingUpload} :
    Leads raw P x x (rotateFrozenGeneration raw cfg path old) := by
  refine .bind (leads_createStaging h) ?_
  rintro (err | ⟨fid, localPath⟩)
  · exact leads_pure _
  refine .bind (leads_run h rfl) fun _ => .bind (leads_ask h _) fun source => .bind (y := x) ?_ ?_
  · cases source with
    | none => exact leads_pure _
    | some content => exact leads_copyStaging h
  · rintro (_ | err)
    · refine .bind (leads_ask h _) fun now => .bind (leads_saveNew h) ?_
      rintro (_ | err)
      · exact leads_pure _
      · exact leads_pure _
    · exact leads_pure _

theorem leads_writeTarget : Leads raw P x x (writeTarget raw cfg path p) := by
  refine .bind (leads_call h rfl _) ?_
  rintro (_ | reused)
  · exact leads_rotateFrozenGeneration h
  · exact leads_pure _

theorem leads_foundPending : Leads raw P x x (do
      match ← pendingByPath raw path with
      | some pending => pure (.ok pending)
      | none => pure (.error (errNoPending path)) : VfsProg σ (Except Err PendingUpload)) := by
  refine .bind (leads_ask h _) ?_
  rintro (_ | pending)
  · exact leads_pure _
  · exact leads_pure _

theorem leads_recordForWrite : Leads raw P x x (recordForWrite raw cfg path) := by
  refine .bind (leads_ask h _) ?_
  rintro (_ | pending)
  · refine .bind (leads_ask h _) ?_
    rintro (err | existing)
    · exact leads_pure _
    refine .bind (.ite (leads_stageExisting h) (leads_createLocked h)) ?_
    rintro (_ | err)
    · exact leads_foundPending h
    · exact leads_pure _
  · exact leads_pure _

theorem leads_writeRecord : Leads raw P x x (writeRecord raw p data off) := by
  refine .bind (leads_call h rfl _) ?_
  rintro (_ | err)
  · exact .bind (leads_run h rfl) fun _ => .bind (leads_ask h _) fun _ => .bind (leads_run h rfl) fun _ =>
      leads_pure _
  · exact leads_pure _

theorem leads_writeLocked : Leads raw P x x (writeLocked raw cfg path data off) := by
  refine .bind (leads_recordForWrite h) ?_
  rintro (err | pending)
  · exact leads_pure _
  refine .bind (.ite (leads_writeTarget h) (leads_pure _)) ?_
  rintro (err | target)
  · exact leads_pure _
  · exact leads_writeRecord h

theorem leads_queueFlushed : Leads raw P x x (queueFlushed raw p) :=
  .bind (leads_ask h _) fun _ => .bind (leads_ask h _) fun _ => .ite (leads_enqueueAfter h) (leads_pure _)

theorem leads_flushLocked : Leads raw P x x (flushLocked raw cfg path) := by
  refine .bind (leads_ask h _) ?_
  rintro (_ | pending)
  · exact leads_pure _
  refine .bind (leads_ask h _) ?_
  rintro (err | content)
  · exact leads_pure _
  refine .bind (leads_ask h _) fun hashes => .bind (leads_ask h _) fun now => .bind (leads_durable h _) ?_
  rintro (_ | err)
  · exact .bind (leads_ask h _) fun _ => .bind (leads_queueFlushed h) fun _ => leads_pure _
  · exact leads_pure _

theorem leads_recordForTruncate : Leads raw P x x (recordForTruncate raw cfg path) := by
  refine .bind (leads_ask h _) ?_
  rintro (_ | pending)
  · refine .bind (leads_stageExisting h) ?_
    rintro (_ | err)
    · exact leads_foundPending h
    · exact leads_pure _
  · exact leads_pure _

theorem leads_truncateLocked {size : I64} : Leads raw P x x (truncateLocked raw cfg path size) := by
  refine .bind (leads_recordForTruncate h) ?_
  rintro (err | pending)
  · exact leads_pure _
  refine .bind (.ite (leads_writeTarget h) (leads_pure _)) ?_
  rintro (err | target)
  · exact leads_pure _
  refine .bind (leads_call h rfl _) ?_
  rintro (_ | err)
  · exact .bind (leads_run h rfl) fun _ => .bind (leads_ask h _) fun _ => leads_durable h _
  · exact leads_pure _

end Writing

/-- **Every operation follows a protocol** that only the executor has a part in. -/
theorem leads_program (i : Nat) (job : Job) : Leads raw P x x (job.program raw cfg i) := by
  cases job with
  | create path => exact leads_locked h _ _ (leads_createLocked h)
  | writeAt path data off => exact leads_locked h _ _ (leads_writeLocked h)
  | flush path => exact leads_locked h _ _ (leads_flushLocked h)
  | truncate path size => exact .ite (leads_pure _) (leads_locked h _ _ (leads_truncateLocked h))
  | rename oldPath newPath => exact leads_rename h
  | remove path => exact leads_removeFile h
  | removeDir path => exact leads_removeDir h
  | timer path => exact .bind (leads_timer h (cleanVirtualPath_idem path)) fun _ => leads_pure _
  | retryDelete path => exact .bind (leads_retryDelete h (cleanVirtualPath_idem path)) fun _ => leads_pure _
  | cancelDelete id => exact leads_cancelDelete h
  | restoreDeleted path => exact .bind (leads_run h rfl) fun _ => leads_pure _

end Protocols

/-! ## The executor -/

section Executor

variable {path : Bytes} {entry : Entry} {l : Call}

theorem Call.of_plain {l : Call} (h : l.plain = true) : (l.running = none ∧ l.begins = none) ∧ l.uploads = false := by
  simpa [plain] using h

theorem Call.progress_of_plain {l : Call} (h : l.plain = true) (e : Env) (s : Sys σ)
    (x : Option Running) : l.progress e s x = x := by
  obtain ⟨⟨hrun, hbegin⟩, -⟩ := of_plain h
  unfold progress
  split
  · cases hbegin
  · cases hrun
  · cases hrun
  · cases hrun
  · rfl

theorem Owned.of_plain {x : Option Running} (h : l.plain = true) : Owned x l := by
  obtain ⟨⟨hrun, hbegin⟩, hup⟩ := Call.of_plain h
  refine ⟨fun r hr => ?_, fun path hpath => ?_, hup⟩
  · simp [hrun] at hr
  · simp [hbegin] at hpath

theorem leads_idle (h : l.plain = true) : Leads raw executor none none (run raw l) :=
  leads_when (Owned.of_plain h) fun e s => Call.progress_of_plain h e s none

theorem leads_own {y : Option Running} {r : Running} {guard : Sys σ → Bool}
    {result : Env → Sys σ → α} (h : l.running = some r) (hl : l.begins = none ∧ l.uploads = false)
    (hy : ∀ e (s : Sys σ), l.progress e s (some r) = y) :
    Leads raw executor (some r) y (Prog.performWhen (Call.apply raw) guard l result) := by
  refine leads_when ⟨fun r' hr' => ?_, fun path hpath => ?_, hl.2⟩ hy
  · rw [← h, hr']
  · simp [hl.1] at hpath

theorem leads_executeActive :
    Leads raw executor (some ⟨path, entry, false⟩) (some ⟨path, entry, false⟩) (executeActive raw path entry) := by
  refine .bind (y := some ⟨path, entry, false⟩) ?_ ?_
  · refine .ite (.bind (leads_own rfl ⟨rfl, rfl⟩ fun _ _ => rfl) ?_) (leads_pure _)
    rintro (_ | err)
    · exact leads_own rfl ⟨rfl, rfl⟩ fun _ _ => rfl
    · exact leads_pure _
  · rintro (_ | err)
    · exact leads_own rfl ⟨rfl, rfl⟩ fun _ _ => rfl
    · exact leads_pure _

/-- `Execute` after `BeginDelete`. -/
theorem leads_executeBegun {k : Unit → VfsProg σ Unit} (hk : k = fun _ => do
      match ← executeActive raw path entry with
      | some err => run raw (.vis (.markDeleteFailed path entry err))
      | none =>
        run raw (.vis (.markDeleteComplete path entry))
        removeAfterRemoteDelete raw path entry) :
    Leads raw executor (some ⟨path, entry, false⟩) none (run raw (.vis (.markDeleteActive path entry)) >>= k) := by
  subst hk
  refine .bind (leads_own rfl ⟨rfl, rfl⟩ fun _ _ => rfl) fun _ => .bind leads_executeActive ?_
  rintro (_ | err)
  · refine .bind (leads_own (y := some ⟨path, entry, true⟩) rfl ⟨rfl, rfl⟩ fun _ _ => rfl) fun _ => ?_
    refine .bind (leads_own rfl ⟨rfl, rfl⟩ fun _ _ => rfl) ?_
    rintro (_ | err)
    · exact leads_idle rfl
    · exact leads_pure _
  · exact leads_own rfl ⟨rfl, rfl⟩ fun _ _ => rfl

/-- **The executor follows its protocol.** -/
theorem neutral_executor : Neutral raw executor none where
  plain _ hl := ⟨Owned.of_plain hl, fun e s => Call.progress_of_plain hl e s none⟩
  execute path entry hclean := by
    -- what the thread deletes after `BeginDelete` depends on the answer of this call
    refine Prog.Follows.bind
      (Q := fun began x => x = if began then some (Running.mk path entry false) else none) ?_ ?_
    · refine Prog.follows_performWhen ⟨nofun, ?_, rfl⟩ fun _ _ _ => rfl
      rintro _ ⟨⟩
      exact hclean
    · rintro (_ | _) x rfl
      · exact leads_pure _
      · exact leads_executeBegun rfl

end Executor

/-! ## Runs -/

section Runs

variable {H : Type} (raw cfg)

/-- How far the threads have come, beside a history. -/
abbrev Followed (σ X H : Type) := Sys σ × (Nat → X) × H

namespace Protocol

variable (P : Protocol σ X) (note : Nat → Call → Env → Sys σ → (Nat → X) → H → H)

/-- A thread and a job, with what is noted of the calls. -/
def program (i : Nat) (job : Job) : Prog Call Env (Followed σ X H) (Option Err) :=
  (job.program raw cfg i).recorded (tracked P.move note i)

/-- The state and what is noted after a call of thread `i`. -/
def noted (i : Nat) (l : Call) (e : Env) (s : Followed σ X H) : Followed σ X H :=
  (l.apply raw e s.1, Function.update s.2.1 i (P.move l e s.1 (s.2.1 i)), note i l e s.1 s.2.1 s.2.2)

/-- A run of the file system in which every call meets the condition. -/
def Runs (cond : Nat → Call → Env → Followed σ X H → Prop) : Pool Call Env (Followed σ X H) Job (Option Err) →
      Pool Call Env (Followed σ X H) Job (Option Err) → Prop :=
  Reaches (Pool.Step (P.program raw cfg note)) (Pool.Allowed (fun _ _ => True) cond)

variable {raw cfg P note} {cond : Nat → Call → Env → Followed σ X H → Prop} {s₀ : Sys σ} {h₀ : H}
  {x₀ : X} {p : Pool Call Env (Followed σ X H) Job (Option Err)}

/-- **What every call of the protocol keeps holds in all runs.** -/
theorem runs_keep (hneutral : Neutral raw P x₀) (inv : Followed σ X H → Prop) (hinit : inv (s₀, fun _ => x₀, h₀))
    (hkeep : ∀ i l e s, inv s → P.ok (s.2.1 i) l → cond i l e s → inv (P.noted raw note i l e s))
    (h : P.Runs raw cfg note cond (Pool.idle (s₀, fun _ => x₀, h₀)) p) : inv p.shared := by
  have hstart : Pool.Tracked inv note x₀ P.ok (Call.apply raw) P.move
      (Pool.idle (s₀, fun _ => x₀, h₀) : Pool Call Env (Followed σ X H) Job (Option Err)) :=
    { holds := hinit
      idle := fun _ _ => rfl
      busy := fun _ _ ht => by cases ht }
  exact (Pool.sound_of_follows (fun i job _ => leads_program hneutral i job) hkeep hstart h).holds

end Protocol

/-- The deletes that run, beside a history. -/
abbrev Noted (σ H : Type) := Sys σ × (Nat → Option Running) × H

/-- A thread and a job, with what is noted of the calls. -/
def notedProgram (note : Nat → Call → Env → Sys σ → (Nat → Option Running) → H → H) (i : Nat)
    (job : Job) : Prog Call Env (Noted σ H) (Option Err) :=
  (job.program raw cfg i).recorded (tracked Call.progress note i)

/-- The state and what is noted after a call of thread `i`. -/
def Call.noted (note : Nat → Call → Env → Sys σ → (Nat → Option Running) → H → H) (i : Nat) (l : Call)
    (e : Env) (s : Noted σ H) : Noted σ H :=
  (l.apply raw e s.1, Function.update s.2.1 i (l.progress e s.1 (s.2.1 i)), note i l e s.1 s.2.1 s.2.2)

/-- A pool at the start: nothing runs. -/
def started (s : Sys σ) (h : H) : Pool Call Env (Noted σ H) Job (Option Err) :=
  Pool.idle (s, fun _ => none, h)

/-- A run of the file system in which every call meets the condition. -/
def Runs (note : Nat → Call → Env → Sys σ → (Nat → Option Running) → H → H)
    (cond : Nat → Call → Env → Noted σ H → Prop) :
    Pool Call Env (Noted σ H) Job (Option Err) → Pool Call Env (Noted σ H) Job (Option Err) → Prop :=
  Reaches (Pool.Step (notedProgram raw cfg note)) (Pool.Allowed (fun _ _ => True) cond)

variable {raw cfg} {note : Nat → Call → Env → Sys σ → (Nat → Option Running) → H → H}
  {cond : Nat → Call → Env → Noted σ H → Prop} {s₀ : Sys σ} {h₀ : H}
  {p : Pool Call Env (Noted σ H) Job (Option Err)}

/-- **What every call of the executor's protocol keeps holds in all runs.** -/
theorem runs_keep (inv : Noted σ H → Prop) (hinit : inv (s₀, fun _ => none, h₀))
    (hkeep : ∀ i l e s, inv s → Owned (s.2.1 i) l → cond i l e s → inv (l.noted raw note i e s))
    (h : Runs raw cfg note cond (started s₀ h₀) p) : inv p.shared :=
  Protocol.runs_keep neutral_executor inv hinit hkeep h

/-- A schedule whose calls all meet the condition is a run. -/
theorem runs_of_schedule {β : Type} {q : Pool Call Env (Noted σ H) Job (Option Err)}
    (check : Call → Bool) (hcond : ∀ i l e s, check l = true → cond i l e s)
    (evs : List (Event Env Job)) (view : Noted σ H → β) {b : β}
    (h : (q.run (notedProgram raw cfg note) check evs).map (fun p => view p.shared) = some b) :
    ∃ p, Runs raw cfg note cond q p ∧ view p.shared = b :=
  Pool.exists_reaches check hcond evs view h

/-- The next `n` actions of a thread, with the same answers. -/
def steps (i n : Nat) (e : Env) : List (Event Env Job) := List.replicate n (.step i e)

end Runs

/-- A file of one byte, for schedules that are followed. -/
def fileEntry (id parentID name : String) : Entry :=
  ⟨ascii id, ascii parentID, ascii name, false, 1, none⟩

end Vfs
