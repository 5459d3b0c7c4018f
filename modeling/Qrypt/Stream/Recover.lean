import Qrypt.Stream.Types
import Qrypt.Upload.Types

/-!
# Stream uploads after a restart

`recoverUploadStreamTasks` of `pkg/core/upload_stream_task.go`: the batches of persisted tasks are built again
from what the task recorded, from the pending uploads and from what the destination shows.

* `truthful_iff` — only recorded and uploaded items succeed exactly if no other item finds a file of its size at
  its destination
-/

namespace Stream

open Infra Tasks Upload

/-! ## The model -/

/-- What `Stat` tells about a path. -/
structure Entry where
  id : Bytes
  isDir : Bool
  size : I64

/-- The file system after the restart; `inspection` if it lists its pending uploads. -/
structure FileSystem where
  inspection : Bool
  pending : List PendingUpload
  stat : Bytes → Option Entry

variable (fs : FileSystem)

def FileSystem.pendingUploads : List PendingUpload := if fs.inspection then fs.pending else []

/-- `pendingByPath`. -/
def FileSystem.pendingAt (path : Bytes) : Option PendingUpload :=
  fs.pendingUploads.reverse.find? fun p => p.path = path

inductive StreamError where
  | closed
  | missingItems (task : Bytes)
  | missingDestPath (task item : Bytes)
  deriving DecidableEq, Repr

/-- The text of an error; quotes in names are not escaped. -/
def StreamError.text : StreamError → Bytes
  | .closed => ascii "core: closed"
  | .missingItems task => ascii "core: upload stream task \"" ++ task ++ ascii "\" missing items"
  | .missingDestPath task item =>
    ascii "core: upload stream task \"" ++ task ++ ascii "\" item \"" ++ item ++ ascii "\" missing dest_path"

def applyPersistedUploadStreamTracking (item : StreamItem) (prior : ItemTracking) : StreamItem :=
  { item with
    sourceRead := prior.sourceBytesDone
    written := prior.stagingBytesDone
    cloudWritten := prior.cloudBytesDone
    cloudTotal := prior.cloudBytesTotal
    cloudPhase := prior.phase
    remoteID := prior.remoteID
    error := prior.error }

def itemID (i : Nat) (detail : Detail) : Bytes :=
  let id := directUploadDetailString detail (ascii "item_id")
  if id = [] then ascii "item-" ++ decimal (i + 1) else id

def destPath (detail : Detail) : Bytes := directUploadDetailString detail (ascii "dest_path")

def itemSize (detail : Detail) : I64 := directUploadDetailInt64 detail (ascii "size")

/-- `previous`: the last result of an item. -/
def previous (task : Task) (id : Bytes) : Option ItemTracking := task.items.reverse.find? fun r => r.itemID = id

def describedItem (task : Task) (i : Nat) (detail : Detail) : StreamItem :=
  let item : StreamItem :=
    { id := itemID i detail
      destPath := destPath detail
      name := directUploadDetailString detail (ascii "name")
      relativePath := directUploadDetailString detail (ascii "relative_path")
      size := itemSize detail }
  match previous task item.id with
  | some prior => applyPersistedUploadStreamTracking item prior
  | none => item

def pendingItem (item : StreamItem) (pending : PendingUpload) : StreamItem :=
  let item := { item with
    pendingFID := pending.fid
    recovery := .stagingAvailable
    written := pending.size
    size := if item.size.1 = 0 ∧ 0 < pending.size.1 then pending.size else item.size }
  if pending.frozen then
    { item with
      recovery := .pendingUpload
      state := .named .running
      cloudPhase := if item.cloudPhase = [] then ascii "queued_upload" else item.cloudPhase
      cloudTotal := item.size }
  else item

def matchedItem (item : StreamItem) (remote : Entry) : StreamItem :=
  { item with
    state := .named .succeeded
    written := item.size
    cloudWritten := remote.size
    cloudTotal := remote.size
    cloudPhase := ascii "completed"
    remoteID := remote.id
    recovery := .remoteSizeMatch }

/-- The item was recorded as succeeded. -/
def Recorded (task : Task) (id : Bytes) : Prop := ∃ prior, previous task id = some prior ∧ prior.state = .named .succeeded

instance (task : Task) (id : Bytes) : Decidable (Recorded task id) :=
  decidable_of_iff ((previous task id).any fun prior => prior.state = .named .succeeded) (by
    simp [Recorded, Option.any_eq_true])

/-- One round of the loop of `uploadStreamBatchFromTask`. -/
def recoverItem (task : Task) (i : Nat) (detail : Detail) : Except StreamError StreamItem :=
  let item := describedItem task i detail
  if destPath detail = [] then .error (.missingDestPath task.id (itemID i detail))
  else if Recorded task (itemID i detail) then
    .ok { item with recovery := .persistedResult, state := .named .succeeded }
  else
    match fs.pendingAt (destPath detail) with
    | some pending => .ok (pendingItem item pending)
    | none =>
      match fs.stat (destPath detail) with
      | some remote =>
        if remote.isDir = false ∧ remote.size = item.size then .ok (matchedItem item remote)
        else .ok { item with recovery := .sourceRequired }
      | none => .ok { item with recovery := .sourceRequired }

/-- The loop of `uploadStreamBatchFromTask`. -/
def recoverItems (fs : FileSystem) (task : Task) : Nat → List Detail → Except StreamError (List StreamItem)
  | _, [] => .ok []
  | i, detail :: details =>
    match recoverItem fs task i detail, recoverItems fs task (i + 1) details with
    | .error err, _ => .error err
    | .ok _, .error err => .error err
    | .ok item, .ok items => .ok (item :: items)

def detailItems (task : Task) : List Detail :=
  (directUploadDetailItems (task.detail.lookup (ascii "items"))).getD []

/-- `uploadStreamBatchFromTask`; a closed core has no file system. -/
def uploadStreamBatchFromTask (fs : Option FileSystem) (task : Task) : Except StreamError StreamBatch :=
  if detailItems task = [] then .error (.missingItems task.id)
  else
    match fs with
    | none => .error .closed
    | some fs =>
      (recoverItems fs task 0 (detailItems task)).map fun items =>
        { taskID := task.id
          items := items
          bytesTotal := ⟨wrap64 (items.map fun x => x.size.1).sum, fits64_wrap64 _⟩
          conflictPolicy := match task.detail.lookup (ascii "conflict_policy") with
            | some (.str s) => if s = [] then ascii "overwrite" else s
            | _ => ascii "overwrite"
          recovered := true : StreamBatch }.closeDoneIfTerminal

def isRecoverableUploadStreamTask (task : Task) : Bool :=
  if task.type ≠ .named .uploadStreamBatch then false
  else if task.state = .named .failed ∧ (task.error.any fun e => e.code = ascii "interrupted") then true
  else if task.state = .named .running ∨ task.state = .named .queued ∨ task.state = .named .scheduled then true
  else if task.state ≠ .named .failed ∧ task.state ≠ .named .partialFailed then false
  else if task.items.any fun r => r.error.any fun e => e.retryable then true
  else (detailItems task).any fun detail => fs.pendingUploads.any fun p => p.path = destPath detail

/-- `recoverUploadStreamTasks`: the batches that are put; `admits` is the answer of the manager. -/
def recoverUploadStreamTasks (admits : Bytes → Bool) (tasks : List Task) : List StreamBatch :=
  (tasks.filter fun task => isRecoverableUploadStreamTask fs task && admits task.id).filterMap fun task =>
    (uploadStreamBatchFromTask (some fs) task).toOption

/-! ## Success -/

/-- What happened before the restart: the bytes the caller has for each item, and the completed uploads with their
content. -/
structure History where
  supplied : Bytes → Bytes
  uploads : List (Bytes × Bytes)

/-- The bytes of the item were completely uploaded to its destination. -/
def History.Uploaded (h : History) (id dest : Bytes) : Prop := (dest, h.supplied id) ∈ h.uploads

/-- Every item that succeeds was recorded or uploaded. -/
def StreamBatch.Truthful (b : StreamBatch) (task : Task) (h : History) : Prop :=
  ∀ x ∈ b.items, x.state = .named .succeeded → Recorded task x.id ∨ h.Uploaded x.id x.destPath

/-- The destination shows a file of the size that the task gives for the item. -/
def FileSystem.Shows (detail : Detail) : Prop :=
  ∃ remote, fs.stat (destPath detail) = some remote ∧ remote.isDir = false ∧ remote.size = itemSize detail

/-- An item that is neither recorded nor pending was uploaded, or no file of its size is at its destination. -/
def FileSystem.Settles (task : Task) (h : History) : Prop :=
  ∀ x ∈ (detailItems task).zipIdx, ¬ Recorded task (itemID x.2 x.1) → fs.pendingAt (destPath x.1) = none →
    fs.Shows x.1 → h.Uploaded (itemID x.2 x.1) (destPath x.1)

section Items

variable {fs : FileSystem} {task : Task} {i : Nat} {detail : Detail} {item : StreamItem}

theorem describedItem_fields (task : Task) (i : Nat) (detail : Detail) :
    (describedItem task i detail).id = itemID i detail ∧ (describedItem task i detail).destPath = destPath detail ∧
      (describedItem task i detail).size = itemSize detail ∧
      (describedItem task i detail).state = .named .waitingInput := by
  unfold describedItem
  dsimp only
  split
  · simp [applyPersistedUploadStreamTracking]
  · simp

theorem pendingItem_fields (item : StreamItem) (pending : PendingUpload) :
    (pendingItem item pending).id = item.id ∧ (pendingItem item pending).destPath = item.destPath ∧
      ((pendingItem item pending).state = .named .running ∨ (pendingItem item pending).state = item.state) := by
  unfold pendingItem
  dsimp only
  split <;> simp

theorem recoverItem_ok (h : recoverItem fs task i detail = .ok item) :
    item.id = itemID i detail ∧ item.destPath = destPath detail ∧
      (item.state = .named .succeeded ↔ Recorded task (itemID i detail) ∨
        (fs.pendingAt (destPath detail) = none ∧ fs.Shows detail)) := by
  obtain ⟨hid, hdest, hsize, hstate⟩ := describedItem_fields task i detail
  unfold recoverItem at h
  dsimp only at h
  split at h
  · cases h
  split at h
  · next hrec =>
    cases h
    simp [hid, hdest, hrec]
  next hrec =>
  split at h
  · next pending hpending =>
    cases h
    obtain ⟨hid', hdest', hstate'⟩ := pendingItem_fields (describedItem task i detail) pending
    refine ⟨hid'.trans hid, hdest'.trans hdest, ?_⟩
    rw [hstate] at hstate'
    rcases hstate' with hstate' | hstate'
    all_goals simp [hstate', hrec, hpending]
  next hpending =>
  split at h
  · next remote hremote =>
    split at h
    · next hmatch =>
      cases h
      rw [hsize] at hmatch
      simp [matchedItem, hid, hdest, hpending, FileSystem.Shows, hremote, hmatch]
    · next hmatch =>
      cases h
      rw [hsize] at hmatch
      simp [hid, hdest, hstate, hrec, FileSystem.Shows, hremote, hmatch]
  · next hremote =>
    cases h
    simp [hid, hdest, hstate, hrec, FileSystem.Shows, hremote]

end Items

variable {fs : FileSystem} {task : Task} {b : StreamBatch}

theorem recoverItems_ok {i : Nat} {details : List Detail} {items : List StreamItem}
    (h : recoverItems fs task i details = .ok items) :
    List.Forall₂ (fun x item => recoverItem fs task x.2 x.1 = .ok item) (details.zipIdx i) items := by
  induction details generalizing i items with
  | nil =>
    cases h
    exact .nil
  | cons detail details ih =>
    unfold recoverItems at h
    split at h
    · cases h
    · cases h
    · next item items hitem hitems =>
      cases h
      exact .cons hitem (ih hitems)

theorem uploadStreamBatchFromTask_ok
    (h : uploadStreamBatchFromTask (some fs) task = .ok b) : recoverItems fs task 0 (detailItems task) = .ok b.items := by
  unfold uploadStreamBatchFromTask at h
  split at h
  · cases h
  · dsimp only at h
    cases hitems : recoverItems fs task 0 (detailItems task) with
    | error err =>
      rw [hitems] at h
      cases h
    | ok items =>
      rw [hitems] at h
      cases h
      rfl

theorem forall_mem_iff {α β : Type} {R : α → β → Prop} {P : β → Prop} {Q : α → Prop} {l : List α} {l' : List β}
    (h : List.Forall₂ R l l') (hiff : ∀ a b, R a b → (P b ↔ Q a)) : (∀ b ∈ l', P b) ↔ ∀ a ∈ l, Q a := by
  induction h with
  | nil => simp
  | cons hab _ ih => simp [hiff _ _ hab, ih]

theorem truthful_iff_settles (history : History) (h : uploadStreamBatchFromTask (some fs) task = .ok b) :
    b.Truthful task history ↔ fs.Settles task history := by
  refine forall_mem_iff (recoverItems_ok (uploadStreamBatchFromTask_ok h)) fun x item hitem => ?_
  obtain ⟨hid, hdest, hsucc⟩ := recoverItem_ok hitem
  rw [hid, hdest, hsucc]
  constructor
  · intro htrue hrec hpending hshows
    exact (htrue (.inr ⟨hpending, hshows⟩)).resolve_left hrec
  · intro hsettles hcases
    by_cases hrec : Recorded task (itemID x.2 x.1)
    · exact .inl hrec
    · obtain ⟨hpending, hshows⟩ := hcases.resolve_left hrec
      exact .inr (hsettles hrec hpending hshows)

/-- **Recovery reports only uploads that happened exactly if no other item finds a file of its size at its
destination.** -/
theorem truthful_iff (fs : FileSystem) (task : Task) (history : History) (b : StreamBatch)
    (h : uploadStreamBatchFromTask (some fs) task = .ok b) : b.Truthful task history ↔ fs.Settles task history :=
  truthful_iff_settles history h

/-- A task with one item of three bytes that waits for its input. -/
def waitingTask : Task where
  id := ascii "t"
  type := .named .uploadStreamBatch
  state := .named .running
  items := [{ itemID := ascii "a", destPath := ascii "/m/a", state := .named .waitingInput }]
  detail := (∅ : StringMap Json).insertAll
    [(ascii "items", .arr [.obj [(ascii "item_id", .str (ascii "a")), (ascii "dest_path", .str (ascii "/m/a")),
      (ascii "size", .num (ascii "3"))]])]

/-- A file of three bytes is at the destination, and nothing is pending. -/
def olderFile : FileSystem where
  inspection := true
  pending := []
  stat path := if path = ascii "/m/a" then some { id := ascii "r", isDir := false, size := ⟨3, by decide⟩ } else none

theorem truthful_iff_waitingTask : ∃ b, uploadStreamBatchFromTask (some olderFile) waitingTask = .ok b ∧
    (b.Truthful waitingTask { supplied := fun _ => ascii "new", uploads := [(ascii "/m/a", ascii "new")] } ↔
      olderFile.Settles waitingTask { supplied := fun _ => ascii "new", uploads := [(ascii "/m/a", ascii "new")] }) :=
  ⟨_, rfl, truthful_iff _ _ _ _ rfl⟩

/-- **An older file of the same size makes an item succeed.** Nothing was uploaded. -/
theorem older_file_succeeds : ∃ b, uploadStreamBatchFromTask (some olderFile) waitingTask = .ok b ∧
    isRecoverableUploadStreamTask olderFile waitingTask = true ∧
    ¬ b.Truthful waitingTask { supplied := fun _ => ascii "new", uploads := [] } := by
  refine ⟨_, rfl, by decide +kernel, fun htrue => ?_⟩
  rcases htrue _ List.mem_cons_self rfl with hrec | hup
  · exact absurd hrec (by decide +kernel)
  · cases hup

end Stream
