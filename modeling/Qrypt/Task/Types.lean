import Qrypt.Infra.Struct

/-!
# Tasks

`pkg/task/task.go`, `descriptor.go`: tasks, their items and states, the types of tasks, and filters.
-/

namespace Tasks

open Infra

/-! ## Words -/

inductive StateName where
  | queued | scheduled | running | retryWait | canceling | succeeded | partialFailed | failed | canceled
  | waitingInput | waitingOutput
  deriving DecidableEq, Repr

/-- The states; the last two are found in old journals only. -/
def states : Vocabulary StateName where
  text
    | .queued => ascii "queued"
    | .scheduled => ascii "scheduled"
    | .running => ascii "running"
    | .retryWait => ascii "retry_wait"
    | .canceling => ascii "canceling"
    | .succeeded => ascii "succeeded"
    | .partialFailed => ascii "partial_failed"
    | .failed => ascii "failed"
    | .canceled => ascii "canceled"
    | .waitingInput => ascii "waiting_input"
    | .waitingOutput => ascii "waiting_output"
  all := [.queued, .scheduled, .running, .retryWait, .canceling, .succeeded, .partialFailed, .failed, .canceled,
    .waitingInput, .waitingOutput]
  mem_all k := by cases k <;> simp
  nodup := by decide +kernel

abbrev State := Word states

inductive ItemStateName where
  | queued | running | retryWait | waitingInput | waitingOutput | succeeded | failed | canceled
  deriving DecidableEq, Repr

def itemStates : Vocabulary ItemStateName where
  text
    | .queued => ascii "queued"
    | .running => ascii "running"
    | .retryWait => ascii "retry_wait"
    | .waitingInput => ascii "waiting_input"
    | .waitingOutput => ascii "waiting_output"
    | .succeeded => ascii "succeeded"
    | .failed => ascii "failed"
    | .canceled => ascii "canceled"
  all := [.queued, .running, .retryWait, .waitingInput, .waitingOutput, .succeeded, .failed, .canceled]
  mem_all k := by cases k <;> simp
  nodup := by decide +kernel

abbrev ItemState := Word itemStates

inductive ScopeName where
  | user | sync | internal
  deriving DecidableEq, Repr

def scopes : Vocabulary ScopeName where
  text
    | .user => ascii "user"
    | .sync => ascii "sync"
    | .internal => ascii "internal"
  all := [.user, .sync, .internal]
  mem_all k := by cases k <;> simp
  nodup := by decide +kernel

abbrev Scope := Word scopes

inductive VisibilityName where
  | visible | hidden
  deriving DecidableEq, Repr

def visibilities : Vocabulary VisibilityName where
  text
    | .visible => ascii "visible"
    | .hidden => ascii "hidden"
  all := [.visible, .hidden]
  mem_all k := by cases k <;> simp
  nodup := by decide +kernel

abbrev Visibility := Word visibilities

inductive OperationName where
  | upload | download | delete | copy | move | share
  deriving DecidableEq, Repr

def operations : Vocabulary OperationName where
  text
    | .upload => ascii "upload"
    | .download => ascii "download"
    | .delete => ascii "delete"
    | .copy => ascii "copy"
    | .move => ascii "move"
    | .share => ascii "share"
  all := [.upload, .download, .delete, .copy, .move, .share]
  mem_all k := by cases k <;> simp
  nodup := by decide +kernel

abbrev OperationKind := Word operations

inductive ActionName where
  | cancel | retry | dismiss | openInput | commitInput | openOutput
  deriving DecidableEq, Repr

def actionNames : Vocabulary ActionName where
  text
    | .cancel => ascii "cancel"
    | .retry => ascii "retry"
    | .dismiss => ascii "dismiss"
    | .openInput => ascii "open_input"
    | .commitInput => ascii "commit_input"
    | .openOutput => ascii "open_output"
  all := [.cancel, .retry, .dismiss, .openInput, .commitInput, .openOutput]
  mem_all k := by cases k <;> simp
  nodup := by decide +kernel

abbrev Action := Word actionNames

inductive TypeName where
  | uploadRemote | uploadBatch | uploadStreamBatch | uploadStreamDirect | download | downloadStreamBatch
  | deleteRemote | deleteBatch | copy | moveRemote | moveBatch | offlineDownload | offlineFetch | shareSave
  | shareFetch
  deriving DecidableEq, Repr

def typeNames : Vocabulary TypeName where
  text
    | .uploadRemote => ascii "upload_remote"
    | .uploadBatch => ascii "upload_batch"
    | .uploadStreamBatch => ascii "upload_stream_batch"
    | .uploadStreamDirect => ascii "upload_stream_direct"
    | .download => ascii "download"
    | .downloadStreamBatch => ascii "download_stream_batch"
    | .deleteRemote => ascii "delete_remote"
    | .deleteBatch => ascii "delete_batch"
    | .copy => ascii "copy"
    | .moveRemote => ascii "move_remote"
    | .moveBatch => ascii "move_batch"
    | .offlineDownload => ascii "offline_download"
    | .offlineFetch => ascii "offline_fetch"
    | .shareSave => ascii "share_save"
    | .shareFetch => ascii "share_fetch"
  all := [.uploadRemote, .uploadBatch, .uploadStreamBatch, .uploadStreamDirect, .download, .downloadStreamBatch,
    .deleteRemote, .deleteBatch, .copy, .moveRemote, .moveBatch, .offlineDownload, .offlineFetch, .shareSave,
    .shareFetch]
  mem_all k := by cases k <;> simp
  nodup := by decide +kernel

/-- `Type`. -/
abbrev TaskType := Word typeNames

/-! ## Times -/

def daysIn (month year : Nat) : Nat :=
  if month = 2 then if year % 4 = 0 ∧ (year % 100 ≠ 0 ∨ year % 400 = 0) then 29 else 28
  else if month = 4 ∨ month = 6 ∨ month = 9 ∨ month = 11 then 30 else 31

def digitsValue (s : Bytes) : Nat := s.foldl (fun n c => n * 10 + (c.toNat - 48)) 0

/-- A decimal number of a fixed length, within its limits. -/
def inRange (s : Bytes) (length low high : Nat) : Bool :=
  decide (s.length = length) && s.all isDigit && decide (low ≤ digitsValue s) && decide (digitsValue s ≤ high)

def isZone (s : Bytes) : Bool :=
  s == [90] || (s.length == 6 && (s.head? == some 43 || s.head? == some 45) && inRange ((s.drop 1).take 2) 2 0 23 &&
      (s.drop 3).head? == some 58 && inRange (s.drop 4) 2 0 59)

/-- A time in the form of RFC 3339, as `time.Time` is written in JSON. -/
def isRFC3339 (s : Bytes) : Bool :=
  let year := s.take 4
  let month := (s.drop 5).take 2
  let day := (s.drop 8).take 2
  let rest := s.drop 19
  let fraction := (rest.drop 1).takeWhile isDigit
  let zone := if rest.head? = some 46 ∧ fraction ≠ [] then rest.drop (1 + fraction.length) else rest
  s.all (fun c => decide (c < 0x80)) && inRange year 4 0 9999 && (s.drop 4).head? == some 45 &&
    inRange month 2 1 12 && (s.drop 7).head? == some 45 &&
    inRange day 2 1 (daysIn (digitsValue month) (digitsValue year)) && (s.drop 10).head? == some 84 &&
    inRange ((s.drop 11).take 2) 2 0 23 && (s.drop 13).head? == some 58 && inRange ((s.drop 14).take 2) 2 0 59 &&
    (s.drop 16).head? == some 58 && inRange ((s.drop 17).take 2) 2 0 59 && isZone zone

/-- A `time.Time`, by its text. Tasks only copy times and compare them with the zero time. -/
structure Time where
  text : Bytes
  ok : isRFC3339 text = true
  deriving DecidableEq, Repr

def Time.zero : Time := ⟨ascii "0001-01-01T00:00:00Z", by decide +kernel⟩

/-! ## Tasks -/

structure Progress where
  sourceBytesDone : I64 := 0
  sourceBytesTotal : I64 := 0
  cloudBytesDone : I64 := 0
  cloudBytesTotal : I64 := 0
  stagingBytesDone : I64 := 0
  stagingBytesTotal : I64 := 0
  outputBytesDone : I64 := 0
  outputBytesTotal : I64 := 0
  transferBytesDone : I64 := 0
  transferBytesTotal : I64 := 0
  itemsDone : I64 := 0
  itemsTotal : I64 := 0
  itemsFailed : I64 := 0
  currentPath : Bytes := []
  phase : Bytes := []
  speedBPS : I64 := 0
  etaMS : I64 := 0
  deriving DecidableEq, Repr

structure Capabilities where
  cancelable : Bool := false
  retryable : Bool := false
  dismissible : Bool := false
  persistent : Bool := false
  actions : List Action := []
  deriving DecidableEq, Repr

/-- `Error`. -/
structure TaskError where
  code : Bytes := []
  message : Bytes := []
  retryable : Bool := false
  deriving DecidableEq, Repr

structure ItemCapabilities where
  openInput : Bool := false
  commitInput : Bool := false
  openOutput : Bool := false
  cancelable : Bool := false
  actions : List Action := []
  deriving DecidableEq, Repr

structure ItemTracking where
  path : Bytes := []
  itemID : Bytes := []
  sourcePath : Bytes := []
  destPath : Bytes := []
  mount : Bytes := []
  state : ItemState := default
  phase : Bytes := []
  error : Option TaskError := none
  remoteID : Bytes := []
  sourceBytesDone : I64 := 0
  sourceBytesTotal : I64 := 0
  cloudBytesDone : I64 := 0
  cloudBytesTotal : I64 := 0
  stagingBytesDone : I64 := 0
  stagingBytesTotal : I64 := 0
  outputBytesDone : I64 := 0
  outputBytesTotal : I64 := 0
  transferBytesDone : I64 := 0
  transferBytesTotal : I64 := 0
  resumeOffset : I64 := 0
  capabilities : ItemCapabilities := {}
  deriving DecidableEq, Repr

/-- `Task`. The items are those of its `Tracking`. -/
structure Task where
  id : Bytes := []
  operation : OperationKind := default
  type : TaskType := default
  state : State := default
  scope : Scope := default
  visibility : Visibility := default
  mount : Bytes := []
  path : Bytes := []
  name : Bytes := []
  createdAt : Time := .zero
  startedAt : Time := .zero
  updatedAt : Time := .zero
  completedAt : Time := .zero
  retryCount : I64 := 0
  nextAttempt : Time := .zero
  version : Fin (2 ^ 64) := 0
  schemaVersion : Fin (2 ^ 16) := 0
  executionGeneration : Fin (2 ^ 64) := 0
  idempotencyKey : Bytes := []
  operationFingerprint : Bytes := []
  dismissRequested : Bool := false
  progress : Progress := {}
  capabilities : Capabilities := {}
  error : Option TaskError := none
  items : List ItemTracking := []
  detail : StringMap Json := ∅

def currentTaskSchemaVersion : Fin (2 ^ 16) := 1

def isTerminalState : State → Bool
  | .named .succeeded | .named .partialFailed | .named .failed | .named .canceled => true
  | _ => false

def normalizeManagedTaskCapabilities (item : Task) : Task :=
  if isTerminalState item.state then
    { item with capabilities :=
        { item.capabilities with cancelable := false, dismissible := true, actions := [.named .dismiss] } }
  else
    let cancelable := item.state ≠ .named .canceling
    { item with capabilities :=
        { item.capabilities with
            cancelable := cancelable, dismissible := false,
            actions := (if cancelable then [.named .cancel] else []) ++
              if item.capabilities.retryable then [.named .retry] else [] } }

/-- Only capabilities change, and a task stays persistent and retryable. -/
theorem normalizeManagedTaskCapabilities_eq (item : Task) : ∃ capabilities : Capabilities,
    normalizeManagedTaskCapabilities item = { item with capabilities := capabilities } ∧
      capabilities.persistent = item.capabilities.persistent ∧
      capabilities.retryable = item.capabilities.retryable := by
  unfold normalizeManagedTaskCapabilities
  split <;> exact ⟨_, rfl, rfl, rfl⟩

/-! ## Declarations of types -/

/-- `Descriptor`: what a type of tasks declares. -/
structure Descriptor where
  type : TypeName
  operation : OperationName
  scope : ScopeName := .user
  visibility : VisibilityName := .visible

def descriptors : List Descriptor :=
  [{ type := .uploadRemote, operation := .upload },
    { type := .uploadBatch, operation := .upload },
    { type := .uploadStreamBatch, operation := .upload },
    { type := .uploadStreamDirect, operation := .upload },
    { type := .download, operation := .download },
    { type := .downloadStreamBatch, operation := .download },
    { type := .deleteRemote, operation := .delete },
    { type := .deleteBatch, operation := .delete },
    { type := .copy, operation := .copy },
    { type := .moveRemote, operation := .move },
    { type := .moveBatch, operation := .move },
    { type := .offlineDownload, operation := .download },
    { type := .offlineFetch, operation := .download },
    { type := .shareSave, operation := .share },
    { type := .shareFetch, operation := .download }]

def describe (typ : TaskType) : Option Descriptor := descriptors.find? fun d => .named d.type = typ

def operationForType (typ : TaskType) : OperationKind :=
  match describe typ with
  | some d => .named d.operation
  | none => default

def scopeForType (typ : TaskType) : Scope :=
  match describe typ with
  | some d => .named d.scope
  | none => .named .internal

def visibilityForType (typ : TaskType) : Visibility :=
  match describe typ with
  | some d => .named d.visibility
  | none => .named .hidden

structure Filter where
  id : Bytes := []
  types : List TaskType := []
  states : List State := []
  scope : Scope := default
  visibility : Visibility := default
  mount : Bytes := []
  path : Bytes := []
  limit : I64 := 0

/-- `Filter.Match`. -/
def Filter.matches (f : Filter) (t : Task) : Bool :=
  decide (f.id = [] ∨ t.id = f.id) && decide (f.scope = default ∨ t.scope = f.scope) &&
    decide (f.visibility = default ∨ t.visibility = f.visibility) &&
    decide (f.types = [] ∨ t.type ∈ f.types) && decide (f.states = [] ∨ t.state ∈ f.states) &&
    decide (f.mount = [] ∨ t.mount = f.mount) && decide (f.path = [] ∨ t.path = f.path)

def legacyPhase (s : Bytes) : Bytes :=
  if s = ascii "waiting_input" then ascii "staging"
  else if s = ascii "waiting_output" then ascii "ready"
  else if s = ascii "retry_wait" then ascii "retrying"
  else if s = ascii "queued" then ascii "pending"
  else s

end Tasks
