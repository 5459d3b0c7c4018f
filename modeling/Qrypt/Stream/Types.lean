import Qrypt.Task.Types

/-!
# Stream uploads

`pkg/core/upload_stream_task.go`, `upload_stream_direct_task.go`: a batch of items whose bytes the application
supplies, and what the detail of its task tells about them.
-/

namespace Stream

open Infra Tasks

/-! ## Items -/

/-- Where the state of a recovered item comes from. -/
inductive Recovery where
  | none | persistedResult | stagingAvailable | pendingUpload | remoteSizeMatch | sourceRequired
  deriving DecidableEq, Repr

/-- `Recovery`, as it is written into the task. -/
def Recovery.text : Recovery → Bytes
  | .none => []
  | .persistedResult => ascii "persisted_result"
  | .stagingAvailable => ascii "staging_available"
  | .pendingUpload => ascii "pending_upload"
  | .remoteSizeMatch => ascii "remote_size_match"
  | .sourceRequired => ascii "source_required"

/-- `uploadStreamItem`. -/
structure StreamItem where
  id : Bytes
  destPath : Bytes
  name : Bytes := []
  relativePath : Bytes := []
  size : I64 := 0
  sourceRead : I64 := 0
  written : I64 := 0
  cloudWritten : I64 := 0
  cloudTotal : I64 := 0
  cloudPhase : Bytes := []
  remoteID : Bytes := []
  state : ItemState := .named .waitingInput
  error : Option TaskError := none
  recovery : Recovery := .none
  pendingFID : Bytes := []
  deriving DecidableEq, Repr

def isTerminalStreamItem : ItemState → Bool
  | .named .succeeded | .named .failed | .named .canceled => true
  | _ => false

/-- `uploadStreamBatch`; `done` says whether its channel of that name is closed. -/
structure StreamBatch where
  taskID : Bytes
  items : List StreamItem
  bytesTotal : I64
  conflictPolicy : Bytes
  recovered : Bool := false
  done : Bool := false
  deriving DecidableEq, Repr

/-- `closeDoneIfTerminalLocked`. -/
def StreamBatch.closeDoneIfTerminal (b : StreamBatch) : StreamBatch :=
  { b with done := b.done || b.items.all fun x => isTerminalStreamItem x.state }

/-! ## Details -/

/-- An object of a detail. -/
abbrev Detail := List (Bytes × Json)

def directUploadDetailItems : Option Json → Option (List Detail)
  | some (.arr items) => items.mapM fun
    | .obj members => some members
    | _ => none
  | _ => none

/-- The value of a key; of two equal keys the last one counts. -/
def Detail.get (detail : Detail) (key : Bytes) : Option Json := (detail.reverse.find? fun m => m.1 = key).map Prod.snd

def directUploadDetailString (detail : Detail) (key : Bytes) : Bytes :=
  match detail.get key with
  | some (.str s) => s
  | _ => []

def directUploadDetailInt64 (detail : Detail) (key : Bytes) : I64 :=
  match detail.get key with
  | some (.num lit) => floatInt64 lit
  | _ => 0

end Stream
