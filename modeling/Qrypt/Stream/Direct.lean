import Qrypt.Stream.Recover
import Qrypt.Task.Store

/-!
# Direct uploads after a restart

`pkg/core/upload_stream_direct_task.go`: the items of a direct upload are read from their sources and uploaded one
after the other. After a restart, and for a retry, the batch is built again from the detail of its task.

* `resumes_iff` — a batch that is built again keeps the outcomes of its items exactly if none of them was recorded as
  succeeded or canceled
-/

namespace Stream

open Infra Tasks List

/-! ## Batches -/

/-- `uploadStreamItem`, with the token of its source. -/
structure DirectItem extends StreamItem where
  sourceToken : Bytes

/-- `uploadStreamBatch` of a direct upload. -/
structure DirectBatch where
  taskID : Bytes
  items : List DirectItem
  bytesTotal : I64
  conflictPolicy : Bytes
  autoRetry : Bool
  retryLimit : I64
  retryCount : I64
  nextAttempt : Time
  canceled : Bool := false

inductive DirectError where
  | missingItems (task : Bytes)
  | duplicateItem (item : Bytes)
  | missingDestPath (task item : Bytes)
  | missingSourcePath (task item : Bytes)

/-- The text of an error; quotes in names are not escaped. -/
def DirectError.text : DirectError → Bytes
  | .missingItems task => ascii "core: direct upload task \"" ++ task ++ ascii "\" missing items"
  | .duplicateItem item => ascii "core: duplicate upload stream item_id \"" ++ item ++ ascii "\""
  | .missingDestPath task item =>
    ascii "core: direct upload task \"" ++ task ++ ascii "\" item \"" ++ item ++ ascii "\" missing dest_path"
  | .missingSourcePath task item =>
    ascii "core: direct upload task \"" ++ task ++ ascii "\" item \"" ++ item ++ ascii "\" missing source_path"

/-- `path.Base`. -/
def pathBase (path : Bytes) : Bytes :=
  let trimmed := (path.reverse.dropWhile (· = 47)).reverse
  if path = [] then ascii "."
  else if trimmed = [] then [47]
  else (trimmed.reverse.takeWhile (· ≠ 47)).reverse

def directUploadDetailBool (detail : StringMap Json) (key : Bytes) : Bool :=
  match detail.lookup key with
  | some (.bool b) => b
  | _ => false

def sourcePath (detail : Detail) : Bytes := directUploadDetailString detail (ascii "source_path")

def directItem (i : Nat) (detail : Detail) : DirectItem where
  id := itemID i detail
  destPath := destPath detail
  name :=
    let name := directUploadDetailString detail (ascii "name")
    if name = [] then pathBase (destPath detail) else name
  relativePath := directUploadDetailString detail (ascii "relative_path")
  size := itemSize detail
  sourceToken := sourcePath detail

/-- The loop of `uploadStreamDirectBatchFromTask`; `seen` are the identifiers so far. -/
def rebuildItems (task : Bytes) : Nat → List Bytes → List Detail → Except DirectError (List DirectItem)
  | _, _, [] => .ok []
  | i, seen, detail :: details =>
    let id := itemID i detail
    if id ∈ seen then .error (.duplicateItem id)
    else if destPath detail = [] then .error (.missingDestPath task id)
    else if sourcePath detail = [] then .error (.missingSourcePath task id)
    else (rebuildItems task (i + 1) (id :: seen) details).map (directItem i detail :: ·)

def uploadStreamDirectBatchFromTask (task : Task) : Except DirectError DirectBatch :=
  if detailItems task = [] then .error (.missingItems task.id)
  else
    (rebuildItems task.id 0 [] (detailItems task)).map fun items =>
      { taskID := task.id
        items
        bytesTotal := ⟨wrap64 (items.map fun x => x.size.1).sum, fits64_wrap64 _⟩
        conflictPolicy := match task.detail.lookup (ascii "conflict_policy") with
          | some (.str s) => if s = [] then ascii "overwrite" else s
          | _ => ascii "overwrite"
        autoRetry := directUploadDetailBool task.detail (ascii "auto_retry")
        retryLimit := match task.detail.lookup (ascii "auto_retry_limit") with
          | some (.num lit) => floatInt64 lit
          | _ => 0
        retryCount := task.retryCount
        nextAttempt := task.nextAttempt }

/-! ## Runs -/

/-- One attempt: the context is done before it starts; it fails, perhaps because the context is done, and `next` is the
time of a retry; or the backend stores the file. -/
inductive Attempt where
  | interrupted
  | failed (err : TaskError) (uploading ctxDone : Bool) (next : Time)
  | uploaded (remoteID : Bytes) (size : I64) (direct : Bool) (phase : Bytes)

/-- A batch that runs, with the items whose sources were handed to the backend so far. -/
structure DirectRun where
  batch : DirectBatch
  uploads : List Bytes := []

namespace DirectBatch

variable (b : DirectBatch)

def setItem (id : Bytes) (f : DirectItem → DirectItem) : DirectBatch :=
  { b with items := b.items.map fun x => if x.id = id then f x else x }

/-- `markCanceled`; an item that was canceled before becomes a failed one. -/
def markCanceled : DirectBatch :=
  { b with
    canceled := true
    items := b.items.map fun x =>
      if x.state = .named .succeeded ∨ x.state = .named .failed then x
      else { x with state := .named .failed, error := some { code := ascii "canceled", message := ascii "context canceled" } } }

def shouldRetryDirectUpload (err : TaskError) : Bool :=
  b.autoRetry && err.retryable && (b.retryLimit.1 ≤ 0 || b.retryCount.1 < b.retryLimit.1)

def scheduleDirectUploadRetry (id : Bytes) (err : TaskError) (next : Time) : DirectBatch :=
  { b with
    retryCount := ⟨wrap64 (b.retryCount.1 + 1), fits64_wrap64 _⟩
    nextAttempt := next }.setItem id fun x =>
      { x with
        state := .named .retryWait
        cloudPhase := ascii "retrying"
        error := some err
        sourceRead := 0
        cloudWritten := 0
        cloudTotal := 0 }

/-- `finishTask`: no item is left in progress. -/
def finishTask : DirectBatch :=
  { b with
    items := b.items.map fun x =>
      if isTerminalStreamItem x.state then x
      else
        { x with
          state := .named .failed
          error := some
            { code := ascii "abandoned"
              message := ascii "upload stream task finished while this item was still in progress" } } }

end DirectBatch

def DirectItem.fail (x : DirectItem) (err : TaskError) : DirectItem :=
  { x with state := .named .failed, error := some err, sourceRead := 0, cloudWritten := 0, cloudTotal := 0 }

def DirectItem.succeed (x : DirectItem) (remoteID : Bytes) (size : I64) (direct : Bool) (phase : Bytes) : DirectItem :=
  { x with
    state := .named .succeeded
    error := none
    remoteID := remoteID
    written := 0
    cloudWritten := size
    cloudTotal := size
    cloudPhase :=
      if direct then
        if phase = [] ∨ phase = ascii "uploading" ∨ phase = ascii "completed" then ascii "direct" else phase
      else ascii "queued_upload" }

/-- Where the loop goes on. -/
inductive After where
  | next | again | stop

/-- `waitDirectUploadRetry` and `uploadStreamDirectItem`, and what the loop makes of them. -/
def DirectRun.attempt (r : DirectRun) (id : Bytes) : Attempt → DirectRun × After
  | .interrupted => ({ r with batch := r.batch.markCanceled }, .stop)
  | .failed err uploading ctxDone next =>
    let r : DirectRun :=
      { batch := r.batch.setItem id fun x => x.fail err
        uploads := if uploading then id :: r.uploads else r.uploads }
    if ctxDone then ({ r with batch := r.batch.markCanceled }, .stop)
    else if r.batch.shouldRetryDirectUpload err then
      ({ r with batch := r.batch.scheduleDirectUploadRetry id err next }, .again)
    else (r, .next)
  | .uploaded remoteID size direct phase =>
    ({ batch := r.batch.setItem id fun x => x.succeed remoteID size direct phase, uploads := id :: r.uploads }, .next)

/-- The loop of `runUploadStreamDirectTask` over a snapshot; it is stopped where no attempt is given. -/
def DirectRun.loop : List Attempt → List Bytes → DirectRun → DirectRun
  | _, [], r => { r with batch := r.batch.finishTask }
  | [], _ :: _, r => r
  | a :: attempts, id :: ids, r =>
    match r.attempt id a with
    | (r, .next) => loop attempts ids r
    | (r, .again) => loop attempts (id :: ids) r
    | (r, .stop) => r

def DirectBatch.runUploadStreamDirectTask (b : DirectBatch) (attempts : List Attempt) : DirectRun :=
  .loop attempts ((b.items.filter fun x => x.state ≠ .named .succeeded).map fun x => x.id) { batch := b }

/-! ## Records -/

def uploadStreamItemPhase (x : StreamItem) : Bytes :=
  if x.cloudPhase ≠ [] then x.cloudPhase
  else
    match x.state with
    | .named .waitingInput | .named .running => ascii "staging"
    | .named .retryWait => ascii "retrying"
    | .named .succeeded => ascii "complete"
    | .named .failed => ascii "failed"
    | .named .canceled => ascii "canceled"
    | _ => ascii "pending"

/-- `trackingItemsLocked`. -/
def DirectBatch.trackingItems (b : DirectBatch) : List ItemTracking :=
  b.items.map fun x =>
    { path := x.destPath
      itemID := x.id
      destPath := x.destPath
      state := x.state
      phase := uploadStreamItemPhase x.toStreamItem
      error := x.error
      remoteID := x.remoteID
      sourceBytesDone := x.sourceRead
      sourceBytesTotal := x.size
      cloudBytesDone := x.cloudWritten
      cloudBytesTotal := x.cloudTotal
      stagingBytesDone := x.written
      stagingBytesTotal := x.size
      resumeOffset := x.written }

def isInterruptedUploadStreamDirectTask (task : Task) : Bool :=
  task.type = .named .uploadStreamDirect ∧ task.state = .named .failed ∧
    (task.error.any fun e => e.code = ascii "interrupted")

/-! ## Outcomes -/

/-- The item was recorded as succeeded or canceled. -/
def Settled (task : Task) (id : Bytes) : Prop :=
  ∃ prior, previous task id = some prior ∧ (prior.state = .named .succeeded ∨ prior.state = .named .canceled)

/-- The run keeps the outcomes that the task recorded. -/
structure DirectRun.Resumes (task : Task) (r : DirectRun) : Prop where
  uploads : ∀ id ∈ r.uploads, ¬ Settled task id
  succeeded : ∀ x ∈ r.batch.items, ∀ prior, previous task x.id = some prior → prior.state = .named .succeeded →
    x.state = .named .succeeded ∧ x.remoteID = prior.remoteID
  canceled : ∀ x ∈ r.batch.items, ∀ prior, previous task x.id = some prior → prior.state = .named .canceled →
    x.state = .named .canceled

/-! ## What a run does to its items -/

namespace DirectBatch

variable {b : DirectBatch}

def ids (b : DirectBatch) : List Bytes := b.items.map fun x => x.id

theorem ids_mapItems {f : DirectItem → DirectItem} (hf : ∀ x, (f x).id = x.id) :
    (b.items.map f).map (fun x => x.id) = b.ids := by
  rw [map_map]
  exact map_congr_left fun x _ => hf x

theorem ids_setItem {f : DirectItem → DirectItem} (hf : ∀ x, (f x).id = x.id) (id : Bytes) :
    (b.setItem id f).ids = b.ids := by
  refine ids_mapItems fun x => ?_
  split
  · exact hf x
  · rfl

theorem ids_scheduleDirectUploadRetry (b : DirectBatch) (id : Bytes) (err : TaskError) (next : Time) :
    (b.scheduleDirectUploadRetry id err next).ids = b.ids := by
  refine ids_mapItems fun x => ?_
  split <;> rfl

theorem ids_markCanceled (b : DirectBatch) : b.markCanceled.ids = b.ids := by
  refine ids_mapItems fun x => ?_
  split <;> rfl

theorem ids_finishTask (b : DirectBatch) : b.finishTask.ids = b.ids := by
  refine ids_mapItems fun x => ?_
  split <;> rfl

end DirectBatch

theorem DirectRun.attempt_spec (r : DirectRun) (id : Bytes) (a : Attempt) :
    (r.attempt id a).1.batch.ids = r.batch.ids ∧ ∀ u ∈ (r.attempt id a).1.uploads, u = id ∨ u ∈ r.uploads := by
  have hset (f : DirectItem → DirectItem) (hf : ∀ x, (f x).id = x.id) := DirectBatch.ids_setItem (b := r.batch) hf id
  cases a with
  | interrupted => exact ⟨DirectBatch.ids_markCanceled _, fun u hu => .inr hu⟩
  | failed err uploading ctxDone next =>
    have huploads : ∀ u ∈ if uploading then id :: r.uploads else r.uploads, u = id ∨ u ∈ r.uploads := by
      intro u hu
      split at hu
      · exact mem_cons.mp hu
      · exact .inr hu
    have hfail := hset (fun x => x.fail err) fun _ => rfl
    simp only [attempt]
    generalize (if uploading then id :: r.uploads else r.uploads) = uploads at huploads ⊢
    split_ifs
    · exact ⟨(DirectBatch.ids_markCanceled _).trans hfail, huploads⟩
    · exact ⟨(DirectBatch.ids_scheduleDirectUploadRetry _ id err next).trans hfail, huploads⟩
    · exact ⟨hfail, huploads⟩
  | uploaded remoteID size direct phase => exact ⟨hset _ fun _ => rfl, fun u hu => mem_cons.mp hu⟩

theorem DirectRun.loop_spec (attempts : List Attempt) (ids : List Bytes) (r : DirectRun) :
    (loop attempts ids r).batch.ids = r.batch.ids ∧ ∀ u ∈ (loop attempts ids r).uploads, u ∈ ids ∨ u ∈ r.uploads := by
  induction attempts generalizing ids r with
  | nil =>
    cases ids with
    | nil => exact ⟨DirectBatch.ids_finishTask _, fun u hu => .inr hu⟩
    | cons id ids => exact ⟨rfl, fun u hu => .inr hu⟩
  | cons a attempts ih =>
    cases ids with
    | nil => exact ⟨DirectBatch.ids_finishTask _, fun u hu => .inr hu⟩
    | cons id ids =>
      obtain ⟨hids, huploads⟩ := r.attempt_spec id a
      have hmem {u : Bytes} (hu : u ∈ (r.attempt id a).1.uploads) : u ∈ id :: ids ∨ u ∈ r.uploads :=
        (huploads u hu).imp_left fun h : u = id => h ▸ mem_cons_self
      rw [loop]
      split
      · next r' heq =>
        rw [heq] at hids hmem
        obtain ⟨hids', huploads'⟩ := ih ids r'
        exact ⟨hids'.trans hids, fun u hu => (huploads' u hu).elim (fun h => .inl (mem_cons_of_mem _ h)) hmem⟩
      · next r' heq =>
        rw [heq] at hids hmem
        obtain ⟨hids', huploads'⟩ := ih (id :: ids) r'
        exact ⟨hids'.trans hids, fun u hu => (huploads' u hu).elim .inl hmem⟩
      · next r' heq =>
        rw [heq] at hids hmem
        exact ⟨hids, fun u hu => hmem hu⟩

/-! ## Building a batch again -/

theorem rebuildItems_ok {task : Bytes} {i : Nat} {seen : List Bytes} {details : List Detail}
    {items : List DirectItem} (h : rebuildItems task i seen details = .ok items) :
    items = (details.zipIdx i).map fun x => directItem x.2 x.1 := by
  induction details generalizing i seen items with
  | nil => exact (Except.ok.inj h).symm
  | cons detail details ih =>
    simp only [rebuildItems] at h
    split_ifs at h
    cases hrest : rebuildItems task (i + 1) (itemID i detail :: seen) details with
    | error err =>
      rw [hrest] at h
      cases h
    | ok rest =>
      rw [hrest] at h
      rw [← Except.ok.inj h, zipIdx_cons, map_cons, ih hrest]

theorem uploadStreamDirectBatchFromTask_ok {task : Task} {b : DirectBatch}
    (h : uploadStreamDirectBatchFromTask task = .ok b) :
    b.items = (detailItems task).zipIdx.map fun x => directItem x.2 x.1 := by
  unfold uploadStreamDirectBatchFromTask at h
  split_ifs at h
  cases hitems : rebuildItems task.id 0 [] (detailItems task) with
  | error err =>
    rw [hitems] at h
    cases h
  | ok items =>
    rw [hitems] at h
    rw [← Except.ok.inj h]
    exact rebuildItems_ok hitems

/-- **A batch that is built again keeps the outcomes of its items exactly if none was recorded as succeeded or
canceled.** -/
theorem resumes_iff (task : Task) (b : DirectBatch) (h : uploadStreamDirectBatchFromTask task = .ok b) :
    (∀ attempts, (b.runUploadStreamDirectTask attempts).Resumes task) ↔
      ∀ x ∈ (detailItems task).zipIdx, ¬ Settled task (itemID x.2 x.1) := by
  have hitems := uploadStreamDirectBatchFromTask_ok h
  have hids : b.ids = (detailItems task).zipIdx.map fun x => itemID x.2 x.1 := by
    rw [DirectBatch.ids, hitems, map_map]
    rfl
  constructor
  · intro hresumes x hx hsettled
    obtain ⟨prior, hprior, hstate⟩ := hsettled
    have hmem : directItem x.2 x.1 ∈ b.items := hitems ▸ mem_map.mpr ⟨x, hx, rfl⟩
    -- the run is stopped before its first attempt
    have hwaiting : ∃ id ids, (b.items.filter fun x => x.state ≠ .named .succeeded).map (fun x => x.id) = id :: ids := by
      refine exists_cons_of_ne_nil fun hnil => ?_
      have := filter_eq_nil_iff.mp (map_eq_nil_iff.mp hnil) _ hmem
      simp [directItem] at this
    obtain ⟨id, ids, hwaiting⟩ := hwaiting
    have hrun := hresumes []
    rw [DirectBatch.runUploadStreamDirectTask, hwaiting, DirectRun.loop] at hrun
    rcases hstate with hstate | hstate
    · have := (hrun.succeeded _ hmem prior hprior hstate).1
      simp [directItem] at this
    · have := hrun.canceled _ hmem prior hprior hstate
      simp [directItem] at this
  · intro hnone attempts
    have hunsettled : ∀ id ∈ b.ids, ¬ Settled task id := by
      intro id hid
      obtain ⟨x, hx, rfl⟩ := mem_map.mp (hids ▸ hid)
      exact hnone x hx
    obtain ⟨hkept, huploads⟩ := DirectRun.loop_spec attempts
      ((b.items.filter fun x => x.state ≠ .named .succeeded).map fun x => x.id) { batch := b }
    have hitem {x : DirectItem} (hx : x ∈ (b.runUploadStreamDirectTask attempts).batch.items) :
        ¬ Settled task x.id := by
      refine hunsettled x.id ?_
      rw [← hkept]
      exact mem_map.mpr ⟨x, hx, rfl⟩
    constructor
    · intro id hid
      have hid := (huploads id hid).resolve_right not_mem_nil
      obtain ⟨x, hx, rfl⟩ := mem_map.mp hid
      exact hunsettled x.id (mem_map.mpr ⟨x, (mem_filter.mp hx).1, rfl⟩)
    · intro x hx prior hprior hstate
      exact absurd ⟨prior, hprior, .inl hstate⟩ (hitem hx)
    · intro x hx prior hprior hstate
      exact absurd ⟨prior, hprior, .inr hstate⟩ (hitem hx)

/-! ## A task with two items -/

def detailOf (id : Bytes) : Json :=
  .obj [(ascii "item_id", .str id), (ascii "dest_path", .str (ascii "/m/" ++ id)), (ascii "source_path", .str id),
    (ascii "size", .num (ascii "0"))]

def runningTask : Task where
  id := ascii "t"
  type := .named .uploadStreamDirect
  state := .named .running
  capabilities := { persistent := true }
  items := [{ itemID := ascii "a", state := .named .waitingInput }, { itemID := ascii "b", state := .named .waitingInput }]
  detail := (∅ : StringMap Json).insertAll
    [(ascii "items", .arr [detailOf (ascii "a"), detailOf (ascii "b")]), (ascii "auto_retry", .bool true)]

theorem resumes_iff_runningTask : ∃ b, uploadStreamDirectBatchFromTask runningTask = .ok b ∧
    ((∀ attempts, (b.runUploadStreamDirectTask attempts).Resumes runningTask) ↔
      ∀ x ∈ (detailItems runningTask).zipIdx, ¬ Settled runningTask (itemID x.2 x.1)) :=
  ⟨_, rfl, resumes_iff runningTask _ rfl⟩

def busy : TaskError := { message := ascii "busy", retryable := true }

/-- The first item is uploaded, the second one fails and is to be tried again. -/
def firstAttempts : List Attempt :=
  [.uploaded (ascii "r") 0 true (ascii "uploading"), .failed busy true false .zero]

/-- The task as it is recorded with the retry, after `updateTaskSnapshotLocked` and `scheduleDirectUploadRetry`. -/
def retryingTask (b : DirectBatch) (task : Task) : Task :=
  { task with
    items := b.trackingItems
    state := .named .retryWait
    retryCount := b.retryCount
    nextAttempt := b.nextAttempt
    capabilities := { task.capabilities with retryable := true }
    error := some busy }

def stoppedTask (b : DirectBatch) : Task :=
  normalizeReplayedTask (retryingTask (b.runUploadStreamDirectTask firstAttempts).batch runningTask)

/-- **A restart uploads a finished item again**, after the retry of another item recorded it as succeeded. -/
theorem finished_item_uploaded_again : ∃ b b', uploadStreamDirectBatchFromTask runningTask = .ok b ∧
    taskDurableKey (retryingTask (b.runUploadStreamDirectTask firstAttempts).batch runningTask) ≠
      taskDurableKey runningTask ∧
    isInterruptedUploadStreamDirectTask (stoppedTask b) = true ∧
    uploadStreamDirectBatchFromTask (stoppedTask b) = .ok b' ∧
    ¬ (b'.runUploadStreamDirectTask [.uploaded (ascii "r") 0 true []]).Resumes (stoppedTask b) := by
  refine ⟨_, _, rfl, ?_, ?_, rfl, fun h => ?_⟩
  · decide +kernel
  · decide +kernel
  · refine h.uploads (ascii "a") ?_ ⟨_, rfl, .inl rfl⟩
    exact mem_cons_self

end Stream
