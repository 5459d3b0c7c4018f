import Qrypt.Infra.Lines
import Qrypt.Infra.Map
import Qrypt.Task.Idempotency
import Qrypt.Task.Journal

/-!
# The store of tasks

`pkg/task/store.go`, `persistent_store.go`: tasks in memory, and a store that writes the tasks that are to
persist to a journal. Opening a store replays the journal.
-/

namespace Tasks

open Infra

/-! ## Memory -/

/-- `ManagedTask`: a task with its run function and its context, by their numbers. -/
structure ManagedTask where
  task : Task
  run : Option Nat := none
  cancel : Option Nat := none

structure MemoryStore where
  seq : Fin (2 ^ 64) := 0
  tasks : AList (fun _ : Bytes => ManagedTask) := ∅

namespace MemoryStore

variable (s : MemoryStore)

def loadTask (item : Task) : MemoryStore where
  seq := max s.seq item.version
  tasks := s.tasks.insert item.id { task := item }

def store (id : Bytes) (m : ManagedTask) : MemoryStore where
  seq := s.seq + 1
  tasks := s.tasks.insert id { m with task := { m.task with version := s.seq + 1 } }

def putManaged (m : ManagedTask) : MemoryStore := s.store m.task.id m

/-- `UpdateManaged`, `UpdateManagedInPlace`. -/
def updateManaged (id : Bytes) (fn : ManagedTask → ManagedTask) : MemoryStore :=
  match s.tasks.lookup id with
  | none => s
  | some m => s.store id (fn m)

def dismissManaged (id : Bytes) : MemoryStore := { s with tasks := s.tasks.erase id }

end MemoryStore

/-! ## What is worth a record -/

structure DurableKey where
  operation : OperationKind
  idempotencyKey : Bytes
  idempotencyKeys : Bytes
  operationFingerprint : Bytes
  generation : Fin (2 ^ 64)
  state : State
  cancelable : Bool
  retryable : Bool
  dismissible : Bool
  persistent : Bool
  errorCode : Bytes
  errorMessage : Bytes
  offlineDetail : Bytes
  shareDetail : Bytes
  deriving DecidableEq

def detailDigest (detail : StringMap Json) (key : Bytes) : Bytes :=
  match detail.lookup key with
  | none | some .null => []
  | some value => value.encode

def taskDurableKey (t : Task) : DurableKey where
  operation := t.operation
  idempotencyKey := t.idempotencyKey
  idempotencyKeys := idempotencyKeysDigest t.detail
  operationFingerprint := t.operationFingerprint
  generation := t.executionGeneration
  state := t.state
  cancelable := t.capabilities.cancelable
  retryable := t.capabilities.retryable
  dismissible := t.capabilities.dismissible
  persistent := t.capabilities.persistent
  errorCode := (t.error.map (·.code)).getD []
  errorMessage := (t.error.map (·.message)).getD []
  offlineDetail := detailDigest t.detail (ascii "offline")
  shareDetail := detailDigest t.detail (ascii "share")

def currentJournalVersion : I64 := ⟨1, by decide⟩

def updateEntry (t : Task) (id : Bytes) : TaskJournalEntry := ⟨currentJournalVersion, .named .update, t, id⟩

def dismissEntry (id : Bytes) : TaskJournalEntry := ⟨currentJournalVersion, .named .dismiss, {}, id⟩

/-! ## The persistent store -/

/-- The operations of the store. Updates change the task by any function. -/
inductive StoreOp where
  | put (m : ManagedTask)
  | update (id : Bytes) (fn : ManagedTask → ManagedTask)
  | dismiss (id : Bytes)

namespace StoreOp

def apply (s : MemoryStore) : StoreOp → MemoryStore
  | .put m => s.putManaged m
  | .update id fn => s.updateManaged id fn
  | .dismiss id => s.dismissManaged id

/-- The record the operation appends. That of an update is written before the task gets its version. -/
def entry (s : MemoryStore) : StoreOp → Option TaskJournalEntry
  | .put m =>
    if m.task.capabilities.persistent then some (updateEntry { m.task with version := s.seq + 1 } m.task.id) else none
  | .update id fn =>
    match s.tasks.lookup id with
    | none => none
    | some m =>
      if taskDurableKey (fn m).task ≠ taskDurableKey m.task ∧ (fn m).task.capabilities.persistent then
        some (updateEntry (fn m).task id)
      else none
  | .dismiss id => if (s.tasks.lookup id).isSome then some (dismissEntry id) else none

end StoreOp

/-- `PersistentStore`, with the bytes of its journal. -/
structure PersistentStore where
  inner : MemoryStore := {}
  journal : Bytes := []
  persistenceErr : Option Err := none

def journalOf (entries : List TaskJournalEntry) : Bytes := joinLines (entries.map marshal)

/-- An operation; the journal file may refuse the record. -/
def PersistentStore.apply (s : PersistentStore) (op : StoreOp × Option Err) : PersistentStore :=
  match op.1.entry s.inner, op.2 with
  | none, _ => { s with inner := op.1.apply s.inner }
  | some e, none => { s with inner := op.1.apply s.inner, journal := s.journal ++ journalOf [e] }
  | some _, some err => { s with inner := op.1.apply s.inner, persistenceErr := some err }

def recordsOf (s : MemoryStore) : List (StoreOp × Option Err) → List TaskJournalEntry
  | [] => []
  | op :: ops => (if op.2.isNone then (op.1.entry s).toList else []) ++ recordsOf (op.1.apply s) ops

/-! ## Replay -/

def normalizeReplayedTask (item : Task) : Task :=
  let item := if item.schemaVersion = 0 then { item with schemaVersion := currentTaskSchemaVersion } else item
  let item :=
    if item.visibility.text = [] then
      { item with visibility := if item.scope = .named .user then .named .visible else .named .hidden }
    else item
  let item :=
    { item with
      progress := { item.progress with phase := legacyPhase item.progress.phase }
      items := item.items.map fun i : ItemTracking => { i with phase := legacyPhase i.phase } }
  let ended := { item.capabilities with cancelable := false, retryable := false, dismissible := true }
  match item.state with
  | .named .queued | .named .scheduled | .named .running | .named .retryWait | .named .canceling
  | .named .waitingInput | .named .waitingOutput =>
    { item with
      state := .named .failed
      capabilities := ended
      error := some ⟨ascii "interrupted", ascii "task was interrupted before completion", false⟩ }
  | .named .succeeded | .named .partialFailed | .named .failed | .named .canceled =>
    { item with capabilities := ended, error := item.error.map fun e : TaskError => { e with retryable := false } }
  | .other _ _ => item

/-- Why a journal is not accepted. -/
inductive ReplayError where
  | malformed (line : Bytes)
  | unsupportedVersion (version : I64)
  | scan (err : Err)

def replayEntry (s : MemoryStore) (e : TaskJournalEntry) : MemoryStore :=
  match e.op with
  | .named .put | .named .update =>
    if e.task.id ≠ [] ∧ e.task.capabilities.persistent then s.loadTask (normalizeReplayedTask e.task) else s
  | .named .dismiss => if e.id ≠ [] then s.dismissManaged e.id else s
  | .other _ _ => s

def replayLine (s : MemoryStore) (line : Bytes) : Except ReplayError MemoryStore :=
  if line = [] then .ok s
  else
    match unmarshal line with
    | none => .error (.malformed line)
    | some e =>
      if currentJournalVersion.1 < e.version.1 then .error (.unsupportedVersion e.version) else .ok (replayEntry s e)

def replayBuffer : Nat := 10 * 1024 * 1024

def replay (journal : Bytes) : Except ReplayError MemoryStore :=
  let scanned := scanLines replayBuffer journal
  match scanned.1.foldlM replayLine {} with
  | .error err => .error err
  | .ok s =>
    match scanned.2 with
    | some err => .error (.scan err)
    | none => .ok s

def newPersistentStore (journal : Bytes) : Except ReplayError PersistentStore :=
  (replay journal).map fun s => { inner := s, journal := journal }

end Tasks
