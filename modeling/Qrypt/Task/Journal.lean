import Qrypt.Task.Types

/-!
# The journal of tasks

`pkg/task/persistent_store.go`: the journal is a text file with one JSON object a line.

* `unmarshal_marshal` — an entry that is valid survives
* `unmarshal_cut` — of an entry that was not written whole nothing is read
-/

namespace Tasks

open Infra

/-! ## Entries -/

inductive JournalOp where
  | put | update | dismiss
  deriving DecidableEq, Repr

def journalOps : Vocabulary JournalOp where
  text
    | .put => ascii "put"
    | .update => ascii "update"
    | .dismiss => ascii "dismiss"
  all := [.put, .update, .dismiss]
  mem_all k := by cases k <;> simp
  nodup := by decide +kernel

structure TaskJournalEntry where
  version : I64 := 0
  op : Word journalOps := default
  task : Task := {}
  id : Bytes := []

/-! ## Entries as objects -/

section Codec

open ValueCodec

/-- A `time.Time`. -/
def timeCodec : ValueCodec Time where
  zero := .zero
  write t := some (.str t.text)
  read old
    | .null => some old
    | .str s => if h : isRFC3339 s = true then some ⟨s, h⟩ else none
    | _ => none
  Valid _ _ := True
  read_write {d t j} _ h := by
    cases h
    simp [t.ok]
  write_none h := by cases h
  fits {d t j} _ h := by
    cases h
    refine .str _ (validString_of_ascii ?_)
    have hall := t.ok
    simp only [isRFC3339, Bool.and_eq_true, List.all_eq_true, decide_eq_true_eq] at hall
    exact hall.1.1.1.1.1.1.1.1.1.1.1.1

/-- A `[]Action`. -/
def actionsCodec : ValueCodec (List Action) := (word actionNames).list fun _ => ⟨_, rfl⟩

/-- `Error` as an object. -/
def errorStruct : Struct TaskError where
  fields :=
    .cons (ascii "code") str.omitEmpty <|
    .cons (ascii "message") str <|
    .cons (ascii "retryable") bool.omitEmpty <|
    .nil
  tuple :=
    { toFun := fun e => (e.code, e.message, e.retryable, ())
      invFun := fun ⟨code, message, retryable, _⟩ => ⟨code, message, retryable⟩
      left_inv := fun _ => rfl
      right_inv := fun _ => rfl }

/-- `Capabilities` as an object. -/
def capabilitiesStruct : Struct Capabilities where
  fields :=
    .cons (ascii "cancelable") bool <|
    .cons (ascii "retryable") bool <|
    .cons (ascii "dismissible") bool <|
    .cons (ascii "persistent") bool <|
    .cons (ascii "actions") actionsCodec <|
    .nil
  tuple :=
    { toFun := fun c => (c.cancelable, c.retryable, c.dismissible, c.persistent, c.actions, ())
      invFun := fun ⟨cancelable, retryable, dismissible, persistent, actions, _⟩ => ⟨cancelable, retryable,
          dismissible, persistent, actions⟩
      left_inv := fun _ => rfl
      right_inv := fun _ => rfl }

/-- `ItemCapabilities` as an object. -/
def itemCapabilitiesStruct : Struct ItemCapabilities where
  fields :=
    .cons (ascii "open_input") bool.omitEmpty <|
    .cons (ascii "commit_input") bool.omitEmpty <|
    .cons (ascii "open_output") bool.omitEmpty <|
    .cons (ascii "cancelable") bool.omitEmpty <|
    .cons (ascii "actions") actionsCodec <|
    .nil
  tuple :=
    { toFun := fun c => (c.openInput, c.commitInput, c.openOutput, c.cancelable, c.actions, ())
      invFun := fun ⟨openInput, commitInput, openOutput, cancelable, actions, _⟩ => ⟨openInput, commitInput,
          openOutput, cancelable, actions⟩
      left_inv := fun _ => rfl
      right_inv := fun _ => rfl }

/-- `Progress` as an object. -/
def progressStruct : Struct Progress where
  fields :=
    .cons (ascii "source_bytes_done") int64.omitEmpty <|
    .cons (ascii "source_bytes_total") int64.omitEmpty <|
    .cons (ascii "cloud_bytes_done") int64.omitEmpty <|
    .cons (ascii "cloud_bytes_total") int64.omitEmpty <|
    .cons (ascii "staging_bytes_done") int64.omitEmpty <|
    .cons (ascii "staging_bytes_total") int64.omitEmpty <|
    .cons (ascii "output_bytes_done") int64.omitEmpty <|
    .cons (ascii "output_bytes_total") int64.omitEmpty <|
    .cons (ascii "transfer_bytes_done") int64.omitEmpty <|
    .cons (ascii "transfer_bytes_total") int64.omitEmpty <|
    .cons (ascii "items_done") int64.omitEmpty <|
    .cons (ascii "items_total") int64.omitEmpty <|
    .cons (ascii "items_failed") int64.omitEmpty <|
    .cons (ascii "current_path") str.omitEmpty <|
    .cons (ascii "phase") str.omitEmpty <|
    .cons (ascii "speed_bps") int64.omitEmpty <|
    .cons (ascii "eta_ms") int64.omitEmpty <|
    .nil
  tuple :=
    { toFun := fun p => (p.sourceBytesDone, p.sourceBytesTotal, p.cloudBytesDone, p.cloudBytesTotal,
        p.stagingBytesDone,
          p.stagingBytesTotal, p.outputBytesDone, p.outputBytesTotal, p.transferBytesDone, p.transferBytesTotal,
          p.itemsDone, p.itemsTotal, p.itemsFailed, p.currentPath, p.phase, p.speedBPS, p.etaMS, ())
      invFun := fun ⟨sourceBytesDone, sourceBytesTotal, cloudBytesDone, cloudBytesTotal, stagingBytesDone,
          stagingBytesTotal, outputBytesDone, outputBytesTotal, transferBytesDone, transferBytesTotal,
          itemsDone, itemsTotal, itemsFailed, currentPath, phase, speedBPS, etaMS, _⟩ => ⟨sourceBytesDone,
              sourceBytesTotal, cloudBytesDone, cloudBytesTotal, stagingBytesDone,
          stagingBytesTotal, outputBytesDone, outputBytesTotal, transferBytesDone, transferBytesTotal,
          itemsDone, itemsTotal, itemsFailed, currentPath, phase, speedBPS, etaMS⟩
      left_inv := fun _ => rfl
      right_inv := fun _ => rfl }

/-- `ItemTracking` as an object. -/
def itemStruct : Struct ItemTracking where
  fields :=
    .cons (ascii "path") str.omitEmpty <|
    .cons (ascii "item_id") str.omitEmpty <|
    .cons (ascii "source_path") str.omitEmpty <|
    .cons (ascii "dest_path") str.omitEmpty <|
    .cons (ascii "mount") str.omitEmpty <|
    .cons (ascii "state") (word itemStates) <|
    .cons (ascii "phase") str.omitEmpty <|
    .cons (ascii "error") errorStruct.pointer <|
    .cons (ascii "remote_id") str.omitEmpty <|
    .cons (ascii "source_bytes_done") int64.omitEmpty <|
    .cons (ascii "source_bytes_total") int64.omitEmpty <|
    .cons (ascii "cloud_bytes_done") int64.omitEmpty <|
    .cons (ascii "cloud_bytes_total") int64.omitEmpty <|
    .cons (ascii "staging_bytes_done") int64.omitEmpty <|
    .cons (ascii "staging_bytes_total") int64.omitEmpty <|
    .cons (ascii "output_bytes_done") int64.omitEmpty <|
    .cons (ascii "output_bytes_total") int64.omitEmpty <|
    .cons (ascii "transfer_bytes_done") int64.omitEmpty <|
    .cons (ascii "transfer_bytes_total") int64.omitEmpty <|
    .cons (ascii "resume_offset") int64.omitEmpty <|
    .cons (ascii "capabilities") itemCapabilitiesStruct.codec <|
    .nil
  tuple :=
    { toFun := fun i => (i.path, i.itemID, i.sourcePath, i.destPath, i.mount, i.state, i.phase, i.error, i.remoteID,
          i.sourceBytesDone, i.sourceBytesTotal, i.cloudBytesDone, i.cloudBytesTotal, i.stagingBytesDone,
          i.stagingBytesTotal, i.outputBytesDone, i.outputBytesTotal, i.transferBytesDone, i.transferBytesTotal,
          i.resumeOffset, i.capabilities, ())
      invFun := fun ⟨path, itemID, sourcePath, destPath, mount, state, phase, error, remoteID, sourceBytesDone,
          sourceBytesTotal, cloudBytesDone, cloudBytesTotal, stagingBytesDone, stagingBytesTotal,
          outputBytesDone, outputBytesTotal, transferBytesDone, transferBytesTotal, resumeOffset, capabilities,
          _⟩ => ⟨path, itemID, sourcePath, destPath, mount, state, phase, error, remoteID, sourceBytesDone,
          sourceBytesTotal, cloudBytesDone, cloudBytesTotal, stagingBytesDone, stagingBytesTotal,
          outputBytesDone, outputBytesTotal, transferBytesDone, transferBytesTotal, resumeOffset, capabilities⟩
      left_inv := fun _ => rfl
      right_inv := fun _ => rfl }

/-- `Tracking` as an object. -/
def trackingStruct : Struct (List ItemTracking) where
  fields := .cons (ascii "items") itemStruct.slice .nil
  tuple :=
    { toFun := fun l => (l, ())
      invFun := fun x => x.1
      left_inv := fun _ => rfl
      right_inv := fun _ => rfl }

/-- `Task` as an object. -/
def taskStruct : Struct Task where
  fields :=
    .cons (ascii "id") str <|
    .cons (ascii "operation") (word operations).omitEmpty <|
    .cons (ascii "type") (word typeNames) <|
    .cons (ascii "state") (word states) <|
    .cons (ascii "scope") (word scopes).omitEmpty <|
    .cons (ascii "visibility") (word visibilities).omitEmpty <|
    .cons (ascii "mount") str.omitEmpty <|
    .cons (ascii "path") str.omitEmpty <|
    .cons (ascii "name") str.omitEmpty <|
    .cons (ascii "created_at") timeCodec <|
    .cons (ascii "started_at") timeCodec <|
    .cons (ascii "updated_at") timeCodec <|
    .cons (ascii "completed_at") timeCodec <|
    .cons (ascii "retry_count") int64.omitEmpty <|
    .cons (ascii "next_attempt_at") timeCodec <|
    .cons (ascii "version") (uint (2 ^ 64)).omitEmpty <|
    .cons (ascii "schema_version") (uint (2 ^ 16)).omitEmpty <|
    .cons (ascii "execution_generation") (uint (2 ^ 64)).omitEmpty <|
    .cons (ascii "idempotency_key") str.omitEmpty <|
    .cons (ascii "operation_fingerprint") str.omitEmpty <|
    .cons (ascii "dismiss_requested") bool.omitEmpty <|
    .cons (ascii "progress") progressStruct.codec <|
    .cons (ascii "capabilities") capabilitiesStruct.codec <|
    .cons (ascii "error") errorStruct.pointer <|
    .cons (ascii "result") trackingStruct.codec <|
    .cons (ascii "detail") anyMap <|
    .nil
  tuple :=
    { toFun := fun t => (t.id, t.operation, t.type, t.state, t.scope, t.visibility, t.mount, t.path, t.name,
        t.createdAt,
          t.startedAt, t.updatedAt, t.completedAt, t.retryCount, t.nextAttempt, t.version, t.schemaVersion,
          t.executionGeneration, t.idempotencyKey, t.operationFingerprint, t.dismissRequested, t.progress,
          t.capabilities, t.error, t.items, t.detail, ())
      invFun := fun ⟨id, operation, type, state, scope, visibility, mount, path, name, createdAt, startedAt,
          updatedAt,
          completedAt, retryCount, nextAttempt, version, schemaVersion, executionGeneration, idempotencyKey,
          operationFingerprint, dismissRequested, progress, capabilities, error, items, detail, _⟩ => ⟨id,
              operation, type, state, scope, visibility, mount, path, name, createdAt, startedAt, updatedAt,
          completedAt, retryCount, nextAttempt, version, schemaVersion, executionGeneration, idempotencyKey,
          operationFingerprint, dismissRequested, progress, capabilities, error, items, detail⟩
      left_inv := fun _ => rfl
      right_inv := fun _ => rfl }

/-- `taskJournalEntry` as an object. -/
def entryStruct : Struct TaskJournalEntry where
  fields :=
    .cons (ascii "version") int64.omitEmpty <|
    .cons (ascii "op") (word journalOps) <|
    .cons (ascii "task") taskStruct.codec <|
    .cons (ascii "id") str.omitEmpty <|
    .nil
  tuple :=
    { toFun := fun e => (e.version, e.op, e.task, e.id, ())
      invFun := fun ⟨version, op, task, id, _⟩ => ⟨version, op, task, id⟩
      left_inv := fun _ => rfl
      right_inv := fun _ => rfl }

end Codec

def marshal (e : TaskJournalEntry) : Bytes := (Json.obj (entryStruct.members e)).encode

/-- `json.Unmarshal` into a fresh entry. -/
def unmarshal (line : Bytes) : Option TaskJournalEntry := (parseJson line).bind (entryStruct.codec.read {})

/-- The entry can be written and read: its strings are valid UTF-8, and nothing is nested too deep. -/
def TaskJournalEntry.Valid (e : TaskJournalEntry) : Prop := entryStruct.Valid maxNestingDepth e

variable {e : TaskJournalEntry}

/-- **A valid entry survives.** -/
theorem unmarshal_marshal (h : e.Valid) : unmarshal (marshal e) = some e := by
  rw [unmarshal, marshal, parseJson_encode (Struct.fits_members h)]
  exact Struct.decode_members h

/-- **Of an entry that was not written whole nothing is read.** -/
theorem unmarshal_cut (h : e.Valid) {p : Bytes} (hp : p <+: marshal e) (hne : p ≠ marshal e) : unmarshal p = none := by
  simp [unmarshal, parseJson_cut (Struct.fits_members h) hp hne]

theorem unmarshal_append (h : e.Valid) {rest : Bytes} (hends : EndsNumber rest)
    (hrest : skipSpace rest ≠ []) : unmarshal (marshal e ++ rest) = none := by
  have hparse : parseValue ((marshal e ++ rest).length + 1) maxNestingDepth (marshal e ++ rest) =
      some (.obj (entryStruct.members e), rest) := by
    refine (Struct.fits_members h).survives _ rest ?_ hends
    rw [marshal, List.length_append]
    omega
  rw [unmarshal, parseJson, hparse]
  simp only [if_neg hrest]
  rfl

end Tasks
