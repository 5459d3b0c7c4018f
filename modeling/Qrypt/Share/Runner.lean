import Qrypt.Infra.Restart
import Qrypt.Share.Fetch

/-!
# The runner of a share task

`pkg/core/share_runner.go`, `share_fetch.go`: a task saves the selected entries of a share into the account, and a
fetch then downloads them and removes the copies it saved. The detail of the task is journaled at every step, and a
retry or a restart begins with what was journaled last.

`runSave` and `runFetch` are programs whose calls go to the provider, to the journal and to the destination.
-/

namespace Share

open Infra Upload Vfs

/-! ## Outcomes of a save -/

/-- `sharePhase`. -/
inductive Phase where
  | none | opening | save | verify | download | cleanup | complete
  deriving DecidableEq, Repr

inductive SaveState where
  | queued | running | succeeded | partly | failed
  | other (text : Bytes)
  deriving DecidableEq, Repr

def SaveState.complete : SaveState → Bool
  | .succeeded | .partly | .failed => true
  | _ => false

/-- `drive.Entry`, as far as it is read. -/
structure CloudEntry where
  id : Bytes
  name : Bytes
  size : Int
  deriving DecidableEq

/-- `drive.ShareError`. -/
structure ItemError where
  code : Bytes
  message : Bytes
  deriving DecidableEq

/-- `drive.ShareSaveItem`. -/
structure SaveItem where
  sourceID : Bytes
  sourceName : Bytes := []
  sourceSize : Int := 0
  saved : Option CloudEntry := none
  savedID : Bytes := []
  savedName : Bytes := []
  error : Option ItemError := none
  deriving DecidableEq

/-- `drive.ShareSaveOutcome`. -/
structure SaveOutcome where
  handle : Bytes := []
  state : SaveState
  items : List SaveItem := []
  deriving DecidableEq

/-- `shareSaveItemIdentity`: the name and the id. -/
def shareSaveItemIdentity (item : SaveItem) : Bytes × Bytes :=
  let name := (item.saved.map CloudEntry.name).getD []
  let id := (item.saved.map CloudEntry.id).getD []
  (if name = [] then item.savedName else name, if id = [] then item.savedID else id)

/-- `shareSavedEntries`, for one item. -/
def savedEntry (item : SaveItem) : SavedEntry where
  name := if (shareSaveItemIdentity item).1 = [] then item.sourceName else (shareSaveItemIdentity item).1
  size :=
    match item.saved with
    | some entry => if 0 < entry.size then entry.size else item.sourceSize
    | none => item.sourceSize
  remoteID := (shareSaveItemIdentity item).2
  errorCode := (item.error.map ItemError.code).getD []
  errorMessage := (item.error.map ItemError.message).getD []

def shareSavedEntries (o : SaveOutcome) : List SavedEntry := o.items.map savedEntry

/-- The test of `reconcileShareOutcome`. -/
def SaveItem.isFor (item : SaveItem) (entry : Entry) : Bool :=
  item.sourceID = entry.id ∨ item.sourceName = entry.name ∨ item.saved.any fun s => s.name = entry.name

/-- The first item for an entry, and the other ones. -/
def takeItem (entry : Entry) : List SaveItem → Option (SaveItem × List SaveItem)
  | [] => none
  | item :: items =>
    if item.isFor entry then some (item, items)
    else (takeItem entry items).map fun out => (out.1, item :: out.2)

/-- The items of `reconcileShareOutcome`; each provider item is used once. -/
def reconcileItems : List Entry → List SaveItem → List SaveItem
  | [], _ => []
  | entry :: entries, items =>
    match takeItem entry items with
    | none =>
      { sourceID := entry.id, sourceName := entry.name, sourceSize := entry.size
        error := some ⟨ascii "share_provider_error", ascii "provider did not report this entry"⟩ } ::
        reconcileItems entries items
    | some (item, rest) =>
      { item with
        sourceID := entry.id, sourceName := entry.name
        sourceSize := if item.sourceSize = 0 then entry.size else item.sourceSize } ::
        reconcileItems entries rest

def reconcileShareOutcome (o : SaveOutcome) (entries : List Entry) : SaveOutcome :=
  if ¬ o.state.complete ∨ entries = [] then o
  else
    let items := reconcileItems entries o.items
    let failed := items.countP fun item => item.error.isSome
    { o with
      items
      state := if failed = 0 then .succeeded else if failed = items.length then .failed else .partly }

/-- The state of `shareOutcomeResult` is `StateFailed`. -/
def SaveOutcome.isFailed (o : SaveOutcome) : Bool := o.state.complete && o.items.all fun item => item.error.isSome

/-! ## Details -/

/-- `shareDetail`, as far as the runner reads what it wrote. -/
structure Detail where
  phase : Phase := .opening
  toRequested : Bool
  keepCloud : Bool := false
  saveHandle : Bytes := []
  saveState : SaveState := .other []
  saved : List SavedEntry := []
  selectedEntries : List Entry := []
  transferred : List SavedEntry := []

namespace Detail

variable (d : Detail)

def hasSaved : Bool := d.saved.any fun s => s.errorCode = []

def recordOutcome (o : SaveOutcome) : Detail := { d with saveState := o.state, saved := shareSavedEntries o }

def canResumeVerification : Bool := (d.phase = .verify ∨ d.phase = .complete) ∧ d.hasSaved

def savePhaseDone : Bool := d.saveState ≠ .queued ∧ d.saveState ≠ .running ∧ d.hasSaved

end Detail

/-! ## Calls -/

/-- An error, by its text and by what the runner asks of it. -/
structure RunError where
  text : Bytes
  /-- Its code is `ShareErrNotFound`. -/
  shareNotFound : Bool := false
  /-- It is `drive.ErrNotFound`. -/
  notFound : Bool := false
  deriving DecidableEq

namespace RunError

def canceled : RunError := { text := ascii "context canceled" }

/-- `ErrShareUnsupported`. -/
def unsupported (what : Bytes) : RunError := { text := ascii "core: share is unsupported: " ++ what }

def unsupportedMount (mount : Bytes) : RunError := unsupported (ascii "mount \"" ++ mount ++ ascii "\"")

def noneSelected : RunError :=
  { text := ascii "share_not_found: no share entry matched the selection", shareNotFound := true }

def unverified : RunError :=
  { text := ascii "share_destination_unverified: saved entries did not appear in the destination" }

def noDestination : RunError :=
  { text := ascii "task: invalid operation: share fetch requires a download destination" }

/-- The text of a `ShareError` without a provider code. -/
def ofShare (code message : Bytes) : RunError :=
  { text := code ++ ascii ": " ++ if message = [] then code else message }

def noReason : RunError :=
  { text := ascii "share_provider_error: provider reported a failed save without a reason" }

end RunError

def shareOutcomeError (o : SaveOutcome) : RunError :=
  match o.items.findSome? SaveItem.error with
  | some err => .ofShare err.code err.message
  | none => .noReason

def shareDetailError (entries : List SavedEntry) : RunError :=
  match entries.find? fun s => s.errorCode ≠ [] with
  | some s => .ofShare s.errorCode s.errorMessage
  | none => .noReason

/-- What happens to the transfer of one file: `stream` is a download by URL, with the bytes it counts and those at the
path; `left` is there after a failure. -/
structure TransferAnswer where
  openErr : Option RunError := none
  read : Except RunError Body := .error .canceled
  write : Nat → Option RunError := fun _ => none
  close : Option RunError := none
  stream : Except (Int × RunError) (Int × Bytes) := .error (0, .canceled)
  left : Option Bytes := none

/-- What the provider and the file systems answer. -/
structure Answers where
  openShare : Option RunError := none
  list : Except RunError (List Entry) := .ok []
  destinationEntry : Option RunError := none
  save : Except RunError SaveOutcome := .error .canceled
  getSave : Except RunError SaveOutcome := .error .canceled
  /-- The context is done while a poll waits. -/
  interrupted : Bool := false
  verified : Bool := true
  urls : Except RunError Nat := .error .canceled
  prepare : Option RunError := none
  transfer : TransferAnswer := {}
  remove : Option RunError := none

/-- The calls of a run. -/
inductive Call where
  | load
  | persist (d : Detail)
  | openShare
  | listEntries
  | destinationEntry
  /-- `SaveShareEntries`. -/
  | saveShareEntries (entries : List Entry)
  | getShareSave (handle : Bytes) (entries : List Entry)
  /-- `verifyDestination`, `verifySavedEntries`. -/
  | verify
  | shareDownloadTargets
  | prepareDestination
  | transfer (t : Target) (path : Bytes)
  | remove (entry : SavedEntry)

/-- The chunk of `copyShareReader`. -/
def offlineTransferChunk : Nat := 256 * 1024

/-- `copyShareReader`: the bytes written, and the error. Each round but the last hands out a byte. -/
def copyShareReader (write : Nat → Option RunError) : Nat → Body → Bytes → Bytes × Option RunError
  | 0, _, acc => (acc, none)
  | fuel + 1, body, acc =>
    let r := Reader.read body offlineTransferChunk
    match if r.bytes = [] then none else write acc.length with
    | some err => (acc, some err)
    | none =>
      match r.err with
      | some .eof => (acc ++ r.bytes, none)
      | some err => (acc ++ r.bytes, some { text := ascii err.message })
      | none => copyShareReader write fuel r.next (acc ++ r.bytes)

/-- `transferTarget`: the bytes it counts and those of the file, or the bytes counted and the error. -/
def transferTarget (t : Target) (a : TransferAnswer) : Except (Int × RunError) (Int × Bytes) :=
  match a.openErr with
  | some err => .error (0, err)
  | none =>
    if t.direct then a.stream
    else
      match a.read with
      | .error err => .error (0, err)
      | .ok body =>
        match copyShareReader a.write (body.data.length + 1) body [] with
        | (acc, some err) => .error (acc.length, err)
        | (acc, none) =>
          match a.close with
          | some err => .error (acc.length, err)
          | none => .ok (acc.length, acc)

def fileAfter (t : Target) (a : TransferAnswer) : Option Bytes :=
  match transferTarget t a with
  | .ok (_, bytes) => some bytes
  | .error _ => a.left

/-- A copy that was removed from the account, and the destination at that time. -/
structure Removal where
  entry : SavedEntry
  files : Bytes → Option Bytes

/-- The journal and the destination. The last three fields are the history: whether a complete outcome with a saved
entry was journaled, whether entries were submitted after that, and what was removed. -/
structure World where
  detail : Detail
  files : Bytes → Option Bytes := fun _ => none
  sealed : Bool := false
  again : Bool := false
  removals : List Removal := []

def Detail.isSealed (d : Detail) : Bool := d.saveState.complete && d.hasSaved

/-- What a call does. A run that is stopped in a transfer is one whose transfer failed. -/
def World.apply : Call → Answers → World → World
  | .persist d, _, w => { w with detail := d, sealed := w.sealed || d.isSealed }
  | .saveShareEntries _, _, w => { w with again := w.again || w.sealed }
  | .transfer t path, e, w => { w with files := Function.update w.files path (fileAfter t e.transfer) }
  | .remove entry, _, w => { w with removals := ⟨entry, w.files⟩ :: w.removals }
  | _, _, w => w

abbrev ShareProg (α : Type) := Prog Call Answers World α

def call {α : Type} (c : Call) (result : Answers → α) : ShareProg α := Prog.perform World.apply c fun e _ => result e

def check (c : Call) (err : Answers → Option RunError) : ShareProg (Except RunError Unit) :=
  call c fun e =>
    match err e with
    | some err => .error err
    | none => .ok ()

def persist (d : Detail) : ShareProg (Except RunError Unit) := call (.persist d) fun _ => .ok ()

/-- The mount, whether the provider can be polled and how often before the process stops, whether it hands out URLs, and
the resolved download destination. -/
structure Config where
  mount : Bytes := []
  poller : Bool := false
  polls : Nat := 0
  fetcher : Bool := false
  destination : Option Destination := none

/-! ## Saving -/

def openSession : ShareProg (Except RunError Unit) := check .openShare Answers.openShare

def listSelected : ShareProg (Except RunError (List Entry)) :=
  call .listEntries fun e => e.list.bind fun l => if l = [] then .error .noneSelected else .ok l

variable (cfg : Config)

/-- `pollSave`, for a number of polls. -/
def pollSave (cfg : Config) (handle : Bytes) (entries : List Entry) :
    Nat → Detail → ShareProg (Except RunError (SaveOutcome × Detail))
  | 0, _ => .ret (.error .canceled)
  | polls + 1, d =>
    if ¬ cfg.poller then
      .ret (.error (.unsupported (ascii "this provider cannot poll an asynchronous save")))
    else
      (call (.getShareSave handle entries) fun e => if e.interrupted then .error .canceled else e.getSave).tryBind fun o =>
        (persist (d.recordOutcome o)).tryBind fun _ =>
          if o.state.complete then .ret (.ok (o, d.recordOutcome o))
          else pollSave cfg handle entries polls (d.recordOutcome o)

def awaitSave (d : Detail) (entries : List Entry) (o : SaveOutcome) :
    ShareProg (Except RunError (SaveOutcome × Detail)) :=
  if o.state.complete then .ret (.ok (o, d)) else pollSave cfg d.saveHandle entries cfg.polls d

def saveSelected (d : Detail) (entries : List Entry) : ShareProg (Except RunError (SaveOutcome × Detail)) :=
  if ¬ d.toRequested then .ret (.error (.unsupportedMount cfg.mount))
  else
    let d := { d with selectedEntries := entries }
    (persist d).tryBind fun _ =>
    (check .destinationEntry Answers.destinationEntry).tryBind fun _ =>
    (call (.saveShareEntries entries) Answers.save).tryBind fun o =>
      let d := { d with saveHandle := o.handle }.recordOutcome o
      (persist d).tryBind fun _ =>
      (awaitSave cfg d entries o).tryBind fun out =>
        let o := reconcileShareOutcome out.1 entries
        let d := { out.2.recordOutcome o with phase := .verify }
        (persist d).tryBind fun _ => .ret (.ok (o, d))

def resumeSelection (d : Detail) : ShareProg (Except RunError (List Entry × Detail)) :=
  if d.selectedEntries ≠ [] then .ret (.ok (d.selectedEntries, d))
  else
    openSession.tryBind fun _ =>
    listSelected.tryBind fun entries =>
      let d := { d with selectedEntries := entries }
      (persist d).tryBind fun _ => .ret (.ok (entries, d))

/-- `resumeSave`: no outcome if the provider does not know the handle. -/
def resumeSave (d : Detail) (entries : List Entry) : ShareProg (Except RunError (Option SaveOutcome × Detail)) :=
  if ¬ cfg.poller then .ret (.error (.unsupported (ascii "this provider cannot resume an asynchronous save")))
  else
    (call (.getShareSave d.saveHandle entries) Answers.getSave).bind fun
      | .error err =>
        if err.shareNotFound then
          let d := { d with saveHandle := [] }
          (persist d).tryBind fun _ => .ret (.ok (none, d))
        else .ret (.error err)
      | .ok o => (awaitSave cfg d entries o).tryBind fun out => .ret (.ok (some out.1, out.2))

/-- The save of a handle is looked up again; one the provider does not know is submitted again. -/
def resumeOrSave (d : Detail) (entries : List Entry) : ShareProg (Except RunError (SaveOutcome × Detail)) :=
  (resumeSave cfg d entries).tryBind fun
    | (some o, d) => .ret (.ok (reconcileShareOutcome o entries, d))
    | (none, d) => openSession.tryBind fun _ => saveSelected cfg d entries

def finishSave (d : Detail) (o : SaveOutcome) : ShareProg (Except RunError Unit) :=
  let d := d.recordOutcome o
  if o.isFailed then
    (persist { d with phase := .complete }).tryBind fun _ => .ret (.error (shareOutcomeError o))
  else
    (persist { d with phase := .verify }).tryBind fun _ =>
    (call .verify fun e => .ok e.verified).tryBind fun verified =>
    (persist { d with phase := .complete }).tryBind fun _ =>
      if verified then .ret (.ok ()) else .ret (.error .unverified)

def finishFromDetail (d : Detail) : ShareProg (Except RunError Unit) :=
  (persist { d with phase := .complete }).tryBind fun _ =>
    if d.hasSaved ∨ d.saved = [] then .ret (.ok ()) else .ret (.error (shareDetailError d.saved))

/-- A phase that was not set is `open`. -/
def Detail.started (d : Detail) : Detail := if d.phase = .none then { d with phase := .opening } else d

def runSave (d : Detail) : ShareProg (Except RunError Unit) :=
  if ¬ d.toRequested then .ret (.error (.unsupportedMount cfg.mount))
  else
    let d := d.started
    if d.canResumeVerification then
      (call .verify fun e => .ok e.verified).tryBind fun verified =>
        if verified then finishFromDetail d else (persist d).tryBind fun _ => .ret (.error .unverified)
    else if d.saveHandle ≠ [] then
      (resumeSelection d).tryBind fun out =>
        let d := { out.2 with phase := .save }
        (persist d).tryBind fun _ =>
        (resumeOrSave cfg d out.1).tryBind fun out => finishSave out.2 out.1
    else
      openSession.tryBind fun _ =>
        let d := { d with phase := .save }
        (persist d).tryBind fun _ =>
        listSelected.tryBind fun entries =>
        (saveSelected cfg d entries).tryBind fun out => finishSave out.2 out.1

/-! ## Fetching -/

/-- The provider save of `fetchSavePhase`. -/
def fetchSave (d : Detail) : ShareProg (Except RunError (SaveOutcome × Detail)) :=
  if d.saveHandle ≠ [] then (resumeSelection d).tryBind fun out => resumeOrSave cfg out.2 out.1
  else openSession.tryBind fun _ => listSelected.tryBind fun entries => saveSelected cfg d entries

def fetchSavePhase (d : Detail) : ShareProg (Except RunError Detail) :=
  (fetchSave cfg d).tryBind fun out =>
    let d := { out.2.recordOutcome out.1 with phase := .verify }
    (persist d).tryBind fun _ =>
      if out.1.isFailed then
        (persist { d with phase := .complete }).tryBind fun _ => .ret (.error (shareOutcomeError out.1))
      else
        (call .verify fun e => .ok e.verified).tryBind fun verified =>
          if verified then .ret (.ok d) else .ret (.error .unverified)

def FetchError.toRun (err : FetchError) : RunError := { text := err.text }

/-- `fetchTargets`, with its calls. -/
def listTargets (d : Detail) (fromSave : Bool) : ShareProg (Except RunError (List Target)) :=
  if fromSave then .ret ((fetchTargets d.saved (.error .noneSaved) true).mapError FetchError.toRun)
  else if ¬ cfg.fetcher then .ret (.error (.unsupportedMount cfg.mount))
  else
    openSession.tryBind fun _ =>
    listSelected.tryBind fun entries =>
    (call .shareDownloadTargets Answers.urls).tryBind fun downloads =>
      .ret ((fetchTargets d.saved (.ok { entries, downloads }) false).mapError FetchError.toRun)

/-- The loop of `downloadPhase`: `earlier` is what previous runs transferred, `results` what this one has so far. -/
def downloadLoop (dest : Destination) (earlier : List SavedEntry) :
    List Target → List SavedEntry → Detail → ShareProg (Except RunError Detail)
  | [], _, d => .ret (.ok d)
  | t :: ts, results, d =>
    match completed earlier t with
    | some entry => downloadLoop dest earlier ts (results ++ [entry]) { d with transferred := results ++ [entry] }
    | none =>
      (call (.transfer t (dest.file t.name)) fun e => transferTarget t e.transfer).bind fun
        | .error (written, err) =>
          let result := failedEntry t written (.provider err.text)
          (persist { d with transferred := results ++ [result] }).tryBind fun _ => .ret (.error err)
        | .ok (written, _) =>
          let result : SavedEntry := { name := t.name, size := written, remoteID := t.remoteID }
          let d := { d with transferred := results ++ [result] }
          (persist d).tryBind fun _ => downloadLoop dest earlier ts (results ++ [result]) d

/-- `downloadPhase`. -/
def runDownload (d : Detail) (fromSave : Bool) : ShareProg (Except RunError Detail) :=
  (listTargets cfg d fromSave).tryBind fun targets =>
    match cfg.destination with
    | none => .ret (.error .noDestination)
    | some dest =>
      (check .prepareDestination Answers.prepare).tryBind fun _ =>
        if dest.single ∧ targets.length ≠ 1 then .ret (.error FetchError.singleFile.toRun)
        else downloadLoop dest d.transferred targets [] d

/-- The loop of `cleanupFetch`. -/
def cleanupLoop : List SavedEntry → ShareProg (Except RunError Unit)
  | [] => .ret (.ok ())
  | s :: rest =>
    if s.errorCode ≠ [] ∨ s.remoteID = [] then cleanupLoop rest
    else
      (check (.remove s) fun e => e.remove.filter fun err => ¬ err.notFound).tryBind fun _ => cleanupLoop rest

def cleanupFetch (d : Detail) (fromSave : Bool) : ShareProg (Except RunError Unit) :=
  if ¬ fromSave ∨ d.keepCloud then .ret (.ok ()) else cleanupLoop d.saved

def finishFetch (d : Detail) : ShareProg (Except RunError Unit) :=
  let failures := (d.saved ++ d.transferred).filter fun s => s.errorCode ≠ []
  (persist d).tryBind fun _ =>
    if (d.transferred.all fun s => s.errorCode ≠ []) ∧ failures ≠ [] then .ret (.error (shareDetailError failures))
    else .ret (.ok ())

def enterDownload (d : Detail) : ShareProg (Except RunError Detail) :=
  if d.phase = .opening ∨ d.phase = .save ∨ d.phase = .verify then
    (persist { d with phase := .download }).tryBind fun _ => .ret (.ok { d with phase := .download })
  else .ret (.ok d)

/-- The download of `runFetch`. -/
def download (d : Detail) : ShareProg (Except RunError Detail) :=
  if d.phase = .download then
    (runDownload cfg d d.toRequested).tryBind fun d =>
      (persist { d with phase := .cleanup }).tryBind fun _ => .ret (.ok { d with phase := .cleanup })
  else .ret (.ok d)

/-- `runFetch` after the save. -/
def fetchSaved (d : Detail) : ShareProg (Except RunError Unit) :=
  (enterDownload d).tryBind fun d =>
  (download cfg d).tryBind fun d =>
  (if d.phase = .cleanup then cleanupFetch d d.toRequested else .ret (.ok ())).tryBind fun _ =>
    finishFetch { d with phase := .complete }

def runFetch (d : Detail) : ShareProg (Except RunError Unit) :=
  let d := d.started
  (if d.toRequested ∧ ¬ d.savePhaseDone then fetchSavePhase cfg d else .ret (.ok d)).tryBind fun d => fetchSaved cfg d

/-- `runShareTask`: a run begins with the journaled detail. -/
def runShareTask (fetch : Bool) (cfg : Config) : ShareProg (Except RunError Unit) :=
  (Prog.perform World.apply .load fun _ w => w.detail).bind fun d => if fetch then runFetch cfg d else runSave cfg d

def World.created (toRequested keepCloud : Bool) (files : Bytes → Option Bytes) : World where
  detail := { toRequested, keepCloud }
  files

/-! ## Rules for the calls -/

/-- The world after `persist`. -/
def World.persisted (w : World) (d : Detail) : World := { w with detail := d, sealed := w.sealed || d.isSealed }

/-- A call that neither journals, submits, transfers nor removes. -/
def Call.quiet : Call → Bool
  | .persist _ | .saveShareEntries _ | .transfer _ _ | .remove _ => false
  | _ => true

theorem World.apply_quiet {c : Call} (h : c.quiet = true) (e : Answers) (w : World) : w.apply c e = w := by
  cases c <;> first | rfl | cases h

section Rules

variable {α β : Type} {inv : World → Prop} {cond : Call → Answers → World → Prop} {w : World} {R : β → World → Prop}
  {k : Unit → ShareProg (Except RunError β)} {c : Call}

theorem keeps_persist_then {d : Detail} (hinv : inv w) (hk : (k ()).Keeps inv cond (Prog.Ok R) (w.persisted d)) :
    ((persist d).tryBind k).Keeps inv cond (Prog.Ok R) w :=
  ⟨hinv, fun _ _ _ => hk⟩

theorem keeps_quiet_then {result : Answers → Except RunError α} {k : α → ShareProg (Except RunError β)}
    (hc : c.quiet = true) (hinv : inv w)
    (hk : ∀ e a, cond c e w → result e = .ok a → (k a).Keeps inv cond (Prog.Ok R) w) :
    ((call c result).tryBind k).Keeps inv cond (Prog.Ok R) w := by
  refine Prog.Keeps.perform_tryBind hinv (fun e _ => ?_) fun e a he ha => ?_
  · rwa [World.apply_quiet hc]
  · rw [World.apply_quiet hc]
    exact hk e a he ha

theorem keeps_check_then {err : Answers → Option RunError}
    (hc : c.quiet = true) (hinv : inv w) (hk : (k ()).Keeps inv cond (Prog.Ok R) w) :
    ((check c err).tryBind k).Keeps inv cond (Prog.Ok R) w :=
  keeps_quiet_then hc hinv fun _ _ _ _ => hk

end Rules

end Share
