import Qrypt.Infra.Conc
import Qrypt.Task.Store

/-!
# The task manager

`pkg/task/manager.go`. Requests and the goroutines that run tasks share the store, the submission lock, the
events and the subscribers. Each of them is a program whose actions are the critical sections of the source;
`Call` is what such a section does.

What a run function does is a list of updates and its result. The order in which a map is listed, the time and
the failures of the journal are up to the environment. Tasks of other sources and the cancellation of a request's
own context while it waits are left out.
-/

namespace Tasks

open Infra

/-! ## Events -/

inductive EventType where
  | updated | removed | gap
  deriving DecidableEq, Repr

/-- `Event`. -/
structure TaskEvent where
  seq : Fin (2 ^ 64) := 0
  type : EventType
  taskID : Bytes := []
  task : Option Task := none
  snapshotRequired : Bool := false
  fromSeq : Fin (2 ^ 64) := 0
  toSeq : Fin (2 ^ 64) := 0

/-- `subscriber`: a filter and a channel of limited length. -/
structure Subscriber where
  filter : Filter
  events : List TaskEvent := []
  buffer : Nat

def defaultSubscriptionBuffer : Nat := 128

def eventHistoryLimit : Nat := 256

def Subscriber.wants (s : Subscriber) (ev : TaskEvent) : Bool := ev.task.all s.filter.matches

def Subscriber.full (s : Subscriber) : Bool := decide (s.buffer ≤ s.events.length)

def Subscriber.send (s : Subscriber) (ev : TaskEvent) : Subscriber :=
  if s.full then s else { s with events := s.events ++ [ev] }

def gapEvent (ev : TaskEvent) (fromSeq : Fin (2 ^ 64)) : TaskEvent :=
  { seq := ev.seq, type := .gap, taskID := ev.taskID, snapshotRequired := true, fromSeq := fromSeq, toSeq := ev.seq }

/-! ## The manager -/

/-- `Manager`. Contexts are numbered; `goroutines` are the calls of `go m.run`, and `begun` those that run. -/
structure Manager where
  store : PersistentStore := {}
  submitMu : Bool := false
  mu : Bool := false
  contexts : Nat := 0
  canceled : List Nat := []
  closed : Bool := false
  goroutines : List (Nat × Bytes) := []
  begun : List Nat := []
  eventSeq : Fin (2 ^ 64) := 0
  eventHistory : List TaskEvent := []
  nextSubID : Nat := 0
  subscribers : List (Nat × Subscriber) := []

namespace Manager

variable (m : Manager)

def tasks : AList (fun _ : Bytes => ManagedTask) := m.store.inner.tasks

/-- `ctx.Err() != nil`. -/
def ctxErr (ctx : Nat) : Bool := m.closed || decide (ctx ∈ m.canceled)

def withInner (inner : MemoryStore) : Manager := { m with store := { m.store with inner := inner } }

def append (e : TaskJournalEntry) : Option Err → Manager
  | none => { m with store := { m.store with journal := m.store.journal ++ journalOf [e] } }
  | some err => { m with store := { m.store with persistenceErr := some err } }

/-- The next event; the history keeps the last ones. -/
def number (ev : TaskEvent) : TaskEvent := { ev with seq := m.eventSeq + 1 }

/-- `broadcast`, up to the channels that are full. -/
def broadcast (ev : TaskEvent) : Manager :=
  let history := m.eventHistory ++ [m.number ev]
  { m with
    eventSeq := m.eventSeq + 1
    eventHistory := history.drop (history.length - eventHistoryLimit)
    subscribers := m.subscribers.map fun s => if s.2.wants (m.number ev) then (s.1, s.2.send (m.number ev)) else s }

def overflowing (ev : TaskEvent) : List Nat :=
  (m.subscribers.filter fun s => s.2.wants ev && s.2.full).map (·.1)

def withSubscriber (id : Nat) (fn : Subscriber → Subscriber) : Manager :=
  { m with subscribers := m.subscribers.map fun s => if s.1 = id then (s.1, fn s.2) else s }

def channel (id : Nat) : List TaskEvent :=
  ((m.subscribers.find? fun s => s.1 = id).map fun s => s.2.events).getD []

/-- What `SubscribeFrom` sends first. -/
def missed (filter : Filter) (afterSeq : Fin (2 ^ 64)) : List TaskEvent :=
  if afterSeq = 0 then []
  else
    match m.eventHistory with
    | [] =>
      if afterSeq < m.eventSeq then
        [{ seq := m.eventSeq, type := .gap, snapshotRequired := true, fromSeq := afterSeq + 1, toSeq := m.eventSeq }]
      else []
    | first :: history =>
      if afterSeq < first.seq - 1 then
        [{ seq := m.eventSeq, type := .gap, snapshotRequired := true, fromSeq := afterSeq + 1,
           toSeq := first.seq - 1 }]
      else (first :: history).filter fun ev => decide (afterSeq < ev.seq) && ev.task.all filter.matches

/-- `SubscribeFrom`. -/
def subscribe (filter : Filter) (afterSeq : Fin (2 ^ 64)) : Manager :=
  { m with
    nextSubID := m.nextSubID + 1
    subscribers := m.subscribers ++
      [(m.nextSubID + 1,
        { filter := filter, events := m.missed filter afterSeq,
          buffer := max defaultSubscriptionBuffer (m.eventHistory.length + 1) })] }

end Manager

/-! ## Changes of a task -/

/-- The error of a run function; `canceled` stands for `errors.Is(err, ErrCanceled)`. -/
structure RunError where
  text : Bytes
  canceled : Bool := false

def interrupted : TaskError := { code := ascii "interrupted", message := ascii "task was interrupted before completion" }

/-- The text of `context.Canceled`. -/
def contextCanceled : Bytes := ascii "context canceled"

def unclassified (err : Option TaskError) : Bool := err.all fun e => e.code = []

variable (item : Task)

/-- The end of a task: it can be dismissed. -/
def Task.ended (now : Time) : Task :=
  { item with
    updatedAt := now
    completedAt := now
    capabilities := { item.capabilities with cancelable := false, dismissible := true } }

/-- `startRun`. -/
def Task.start (now : Time) (ctxErr : Bool) : Task :=
  if isTerminalState item.state then item
  else if item.state = .named .canceling then
    { item.ended now with
      state := .named .canceled
      error :=
        if unclassified item.error then
          some { message := if ctxErr then contextCanceled else ascii "task was canceled before it started" }
        else item.error }
  else if ctxErr then
    { item.ended now with
      state := .named .failed
      error := if unclassified item.error then some interrupted else item.error
      capabilities := { (item.ended now).capabilities with retryable := false } }
  else { item with state := .named .running, startedAt := now, updatedAt := now }

/-- `startRun` lets the run function start. -/
def Task.mayStart (ctxErr : Bool) : Bool :=
  !isTerminalState item.state && decide (item.state ≠ .named .canceling) && !ctxErr

def withMessage (err : Option TaskError) (text : Bytes) : Option TaskError :=
  err.map fun e : TaskError => { e with message := text }

/-- The last update of `run`. -/
def Task.finish (now : Time) (ctxErr : Bool) : Option RunError → Task
  | some err =>
    if err.canceled then
      { item.ended now with
        state := .named .canceled
        error :=
          if unclassified item.error then some { message := err.text }
          else if item.error.all fun e => e.message = [] then withMessage item.error err.text
          else item.error }
    else if ctxErr then
      if item.state = .named .canceling then
        { item.ended now with state := .named .canceled, error := some { message := contextCanceled } }
      else
        { item.ended now with
          state := .named .failed
          error := if unclassified item.error then some interrupted else withMessage item.error err.text
          capabilities := { (item.ended now).capabilities with retryable := false } }
    else
      { item.ended now with
        state := .named .failed
        error :=
          if unclassified item.error then some { message := err.text, retryable := item.capabilities.retryable }
          else withMessage item.error err.text }
  | none =>
    if item.state = .named .partialFailed then item.ended now
    else { item.ended now with state := .named .succeeded, error := none }

def Task.tagPhase : Task :=
  match item.detail.lookup (ascii "phase") with
  | some (.str phase) => { item with progress := { item.progress with phase := legacyPhase phase } }
  | _ => item

/-- A change of the stored task. -/
inductive Change where
  | start (generation : Fin (2 ^ 64)) (ctx : Nat)
  | runner (generation : Fin (2 ^ 64)) (fn : Task → Task)
  | finish (generation : Fin (2 ^ 64)) (ctx : Nat) (err : Option RunError)
  | cancel
  | retry (ctx : Nat)
  | recover (run ctx : Nat)
  | caller (fn : Task → Task)
  | requestDismiss

namespace Change

/-- The update of `updateForGeneration`: runners of other generations change nothing. -/
def forGeneration (generation : Fin (2 ^ 64)) (now : Time) (fn : Task → Task) (m : ManagedTask) : ManagedTask :=
  if generation ≠ 0 ∧ m.task.executionGeneration ≠ generation then m
  else
    let item : Task := { normalizeManagedTaskCapabilities (fn m.task) with updatedAt := now }
    { m with task := item.tagPhase }

def ctx : Change → Option Nat
  | .start _ ctx => some ctx
  | .finish _ ctx _ => some ctx
  | _ => none

def canceling (item : Task) : Task :=
  if isTerminalState item.state then item else { item with state := .named .canceling }

def requeued (item : Task) : Task :=
  { item with
    state := .named .queued
    error := none
    executionGeneration := item.executionGeneration + 1
    completedAt := .zero }

def apply (now : Time) (ctxErr : Bool) (m : ManagedTask) : Change → ManagedTask
  | .start generation _ => forGeneration generation now (·.start now ctxErr) m
  | .runner generation fn => forGeneration generation now fn m
  | .finish generation _ err => forGeneration generation now (·.finish now ctxErr err) m
  | .cancel => { m with task := canceling m.task }
  | .retry ctx =>
    let item : Task := requeued m.task
    { m with
      cancel := some ctx
      task := { item with retryCount := ⟨wrap64 (item.retryCount.1 + 1), fits64_wrap64 _⟩ } }
  | .recover run ctx =>
    let item : Task := requeued m.task
    { run := some run
      cancel := some ctx
      task :=
        { item with
          capabilities := { item.capabilities with cancelable := true, retryable := false, dismissible := false } } }
  | .caller fn => { m with task := { normalizeManagedTaskCapabilities (fn m.task) with updatedAt := now } }
  | .requestDismiss => { m with task := canceling { m.task with dismissRequested := true } }

end Change

/-- What no change of the manager's own touches. -/
structure SameTask (t' t : Task) : Prop where
  id : t'.id = t.id
  scope : t'.scope = t.scope
  key : t'.idempotencyKey = t.idempotencyKey
  fingerprint : t'.operationFingerprint = t.operationFingerprint
  detail : t'.detail = t.detail
  persistent : t'.capabilities.persistent = t.capabilities.persistent

theorem SameTask.trans {t t' t'' : Task} (h : SameTask t'' t') (h' : SameTask t' t) : SameTask t'' t :=
  ⟨h.id.trans h'.id, h.scope.trans h'.scope, h.key.trans h'.key, h.fingerprint.trans h'.fingerprint,
    h.detail.trans h'.detail, h.persistent.trans h'.persistent⟩

theorem sameTask_start (item : Task) (now : Time) (ctxErr : Bool) : SameTask (item.start now ctxErr) item ∧
      (item.start now ctxErr).executionGeneration = item.executionGeneration := by
  unfold Task.start
  split_ifs
  all_goals exact ⟨⟨rfl, rfl, rfl, rfl, rfl, rfl⟩, rfl⟩

theorem sameTask_finish (item : Task) (now : Time) (ctxErr : Bool) (err : Option RunError) :
    SameTask (item.finish now ctxErr err) item ∧
      (item.finish now ctxErr err).executionGeneration = item.executionGeneration := by
  unfold Task.finish
  split
  all_goals
    split_ifs
    all_goals exact ⟨⟨rfl, rfl, rfl, rfl, rfl, rfl⟩, rfl⟩

theorem sameTask_canceling (item : Task) : SameTask (Change.canceling item) item ∧
      (Change.canceling item).executionGeneration = item.executionGeneration := by
  unfold Change.canceling
  split
  all_goals exact ⟨⟨rfl, rfl, rfl, rfl, rfl, rfl⟩, rfl⟩

theorem sameTask_normalize (item : Task) (now : Time) :
    SameTask { normalizeManagedTaskCapabilities item with updatedAt := now } item ∧
      (normalizeManagedTaskCapabilities item).executionGeneration = item.executionGeneration := by
  obtain ⟨capabilities, heq, hpersistent, -⟩ := normalizeManagedTaskCapabilities_eq item
  rw [heq]
  exact ⟨⟨rfl, rfl, rfl, rfl, rfl, hpersistent⟩, rfl⟩

theorem sameTask_tagPhase (item : Task) :
    SameTask item.tagPhase item ∧ item.tagPhase.executionGeneration = item.executionGeneration := by
  unfold Task.tagPhase
  split
  all_goals exact ⟨⟨rfl, rfl, rfl, rfl, rfl, rfl⟩, rfl⟩

namespace Change

variable {generation : Fin (2 ^ 64)} {now : Time} {ctxErr : Bool} {fn : Task → Task} {m : ManagedTask} {change : Change}

def fn? : Change → Option (Task → Task)
  | .runner _ fn => some fn
  | .caller fn => some fn
  | _ => none

def renews : Change → Bool
  | .retry _ => true
  | .recover _ _ => true
  | _ => false

theorem sameTask_forGeneration (h : SameTask (fn m.task) m.task) :
    SameTask (forGeneration generation now fn m).task m.task := by
  unfold forGeneration
  split
  · exact ⟨rfl, rfl, rfl, rfl, rfl, rfl⟩
  · exact (sameTask_tagPhase _).1.trans ((sameTask_normalize (fn m.task) now).1.trans h)

theorem generation_forGeneration (h : (fn m.task).executionGeneration = m.task.executionGeneration) :
    (forGeneration generation now fn m).task.executionGeneration = m.task.executionGeneration := by
  unfold forGeneration
  split
  · rfl
  · exact (sameTask_tagPhase _).2.trans ((sameTask_normalize (fn m.task) now).2.trans h)

/-- **A change leaves the task what it is**, if the function a caller gives does. -/
theorem sameTask_apply (h : ∀ fn, change.fn? = some fn → SameTask (fn m.task) m.task) :
    SameTask (change.apply now ctxErr m).task m.task := by
  cases change with
  | start g ctx => exact sameTask_forGeneration (sameTask_start m.task now ctxErr).1
  | runner g fn => exact sameTask_forGeneration (h fn rfl)
  | finish g ctx err => exact sameTask_forGeneration (sameTask_finish m.task now ctxErr err).1
  | cancel => exact (sameTask_canceling m.task).1
  | retry ctx => exact ⟨rfl, rfl, rfl, rfl, rfl, rfl⟩
  | recover run ctx => exact ⟨rfl, rfl, rfl, rfl, rfl, rfl⟩
  | caller fn => exact (sameTask_normalize (fn m.task) now).1.trans (h fn rfl)
  | requestDismiss => exact (sameTask_canceling _).1.trans ⟨rfl, rfl, rfl, rfl, rfl, rfl⟩

/-- **Only retries and recoveries begin a new generation**, if the function a caller gives does not. -/
theorem generation_apply
    (h : ∀ fn, change.fn? = some fn → (fn m.task).executionGeneration = m.task.executionGeneration) :
    (change.apply now ctxErr m).task.executionGeneration =
      if change.renews then m.task.executionGeneration + 1 else m.task.executionGeneration := by
  cases change with
  | start g ctx => exact generation_forGeneration (sameTask_start m.task now ctxErr).2
  | runner g fn => exact generation_forGeneration (h fn rfl)
  | finish g ctx err => exact generation_forGeneration (sameTask_finish m.task now ctxErr err).2
  | cancel => exact (sameTask_canceling m.task).2
  | retry ctx => rfl
  | recover run ctx => rfl
  | caller fn => exact (sameTask_normalize (fn m.task) now).2.trans (h fn rfl)
  | requestDismiss => exact (sameTask_canceling _).2

end Change

/-! ## Critical sections -/

/-- The order in which a map is listed. -/
structure Order where
  of : List ManagedTask → List ManagedTask := id
  perm : ∀ l, (of l).Perm l := by exact fun l => List.Perm.refl l

/-- What happens during an action. -/
structure Env where
  now : Time := .zero
  /-- the journal refuses the record -/
  err : Option Err := none
  order : Order := {}

/-- What the manager does in one step. -/
inductive Call where
  | lockSubmit
  | unlockSubmit
  | find (item : Task)
  | newContext
  | put (m : ManagedTask)
  | persist (item : Task)
  | get (id : Bytes)
  | list (filter : Filter)
  | update (id : Bytes) (change : Change)
  | dismiss (id : Bytes)
  | recordDismiss (id : Bytes)
  | cancel (ctx : Nat)
  | spawn (ctx : Nat) (id : Bytes)
  | take (k : Nat)
  | invoke (id : Bytes) (generation : Fin (2 ^ 64)) (run : Nat)
  | returned (id : Bytes) (generation : Fin (2 ^ 64))
  | hasSubscribers
  | broadcast (ev : TaskEvent)
  | dropOldest (sub : Nat)
  | sendGap (sub : Nat) (gap : TaskEvent)
  | unlockEvents
  | subscribe (filter : Filter) (afterSeq : Fin (2 ^ 64))
  | receive (sub : Nat)
  | closeSubscription (sub : Nat)
  | close

def Manager.waiting (m : Manager) (k : Nat) : Option (Nat × Bytes) := if k ∈ m.begun then none else m.goroutines[k]?

def Manager.changeErr (m : Manager) (change : Change) : Bool := change.ctx.any m.ctxErr

def Call.apply : Call → Env → Manager → Manager
  | .lockSubmit, _, m => { m with submitMu := true }
  | .unlockSubmit, _, m => { m with submitMu := false }
  | .find _, _, m => m
  | .newContext, _, m => { m with contexts := m.contexts + 1 }
  | .put managed, _, m => m.withInner (m.store.inner.putManaged managed)
  | .persist item, e, m => if item.capabilities.persistent then m.append (updateEntry item item.id) e.err else m
  | .get _, _, m => m
  | .list _, _, m => m
  | .update id change, e, m =>
    { m with store := m.store.apply (.update id fun x => change.apply e.now (m.changeErr change) x, e.err) }
  | .dismiss id, _, m => m.withInner (m.store.inner.dismissManaged id)
  | .recordDismiss id, e, m => m.append (dismissEntry id) e.err
  | .cancel ctx, _, m => { m with canceled := ctx :: m.canceled }
  | .spawn ctx id, _, m => { m with goroutines := m.goroutines ++ [(ctx, id)] }
  | .take k, _, m => if (m.waiting k).isSome then { m with begun := k :: m.begun } else m
  | .invoke _ _ _, _, m => m
  | .returned _ _, _, m => m
  | .hasSubscribers, _, m => m
  | .broadcast ev, _, m => { m.broadcast ev with mu := (m.overflowing ev) ≠ [] }
  | .dropOldest sub, _, m => m.withSubscriber sub fun s => { s with events := s.events.tail }
  | .sendGap sub gap, _, m => m.withSubscriber sub fun s => s.send gap
  | .unlockEvents, _, m => { m with mu := false }
  | .subscribe filter afterSeq, _, m => m.subscribe filter afterSeq
  | .receive sub, _, m => m.withSubscriber sub fun s => { s with events := s.events.tail }
  | .closeSubscription sub, _, m => { m with subscribers := m.subscribers.filter fun s => s.1 ≠ sub }
  | .close, _, m => { m with closed := true, subscribers := [] }

def Call.ready : Call → Manager → Bool
  | .lockSubmit, m => !m.submitMu
  | .take k, m => (m.waiting k).isSome
  | .hasSubscribers, m => !m.mu
  | .broadcast _, m => !m.mu
  | .subscribe _ _, m => !m.mu
  | .closeSubscription _, m => !m.mu
  | .close, m => !m.mu
  | _, _ => true

/-- The tasks after an update, whether its record is written or not. -/
theorem tasks_update (id : Bytes) (change : Change) (e : Env) (m : Manager) (id' : Bytes) :
    ((Call.update id change).apply e m).tasks.lookup id' =
      if id' = id then
        (m.tasks.lookup id).map fun x =>
          { change.apply e.now (m.changeErr change) x with
            task := { (change.apply e.now (m.changeErr change) x).task with version := m.store.inner.seq + 1 } }
      else m.tasks.lookup id' := by
  have hinner : ((Call.update id change).apply e m).store.inner =
      m.store.inner.updateManaged id fun x => change.apply e.now (m.changeErr change) x := by
    unfold Call.apply PersistentStore.apply
    dsimp only
    split
    all_goals rfl
  unfold Manager.tasks
  rw [hinner]
  unfold MemoryStore.updateManaged
  by_cases hid : id' = id
  · subst hid
    rw [if_pos rfl]
    cases hx : m.store.inner.tasks.lookup id' with
    | none => exact hx
    | some x => exact AList.lookup_insert _
  · rw [if_neg hid]
    split
    · rfl
    · exact AList.lookup_insert_ne hid

/-! ## Requests -/

/-- A program of the manager. -/
abbrev ManagerProg (α : Type) := Prog Call Env Manager α

def perform {α : Type} (l : Call) (result : Env → Manager → α) : ManagerProg α :=
  Prog.performWhen Call.apply l.ready l result

def run (l : Call) : ManagerProg Unit := perform l fun _ _ => ()

/-- The errors of requests. -/
inductive ManagerError where
  | context (err : Err)
  | idRequired
  | runRequired
  | conflict (key : Bytes)
  | notFound (id : Bytes)
  | notCancelable (id : Bytes)
  | notRetryable (id : Bytes)
  | notTerminal (id : Bytes)
  | notDismissible (id : Bytes)

def getManaged (id : Bytes) : ManagerProg (Option ManagedTask) := perform (.get id) fun _ m => m.tasks.lookup id

def Manager.listManaged (m : Manager) (order : Order) (filter : Filter) : List ManagedTask :=
  (order.of (m.tasks.entries.map (·.2))).filter fun x => filter.matches x.task

/-- The task before and after an update, and whether its context was canceled. -/
structure Updated where
  before : ManagedTask
  after : ManagedTask
  ctxErr : Bool

def Manager.updated (m : Manager) (id : Bytes) (change : Change) (now : Time) : Option Updated :=
  (m.tasks.lookup id).map fun x =>
    let changed : ManagedTask := change.apply now (m.changeErr change) x
    { before := x
      after := { changed with task := { changed.task with version := m.store.inner.seq + 1 } }
      ctxErr := m.changeErr change }

def updateManaged (id : Bytes) (change : Change) : ManagerProg (Option Updated) :=
  perform (.update id change) fun e m => m.updated id change e.now

def sendGaps (ev : TaskEvent) : List Nat → ManagerProg Unit
  | [] => run .unlockEvents
  | sub :: subs => do
    let dropped ← perform (.dropOldest sub) fun _ m => (m.channel sub).head?
    run (.sendGap sub (gapEvent ev ((dropped.map (·.seq)).getD 0)))
    sendGaps ev subs

def broadcast (ev : TaskEvent) : ManagerProg Unit := do
  let (ev, full) ← perform (.broadcast ev) fun _ m => (m.number ev, m.overflowing ev)
  if full = [] then pure () else sendGaps ev full

def broadcastTaskUpdated : ManagerProg Unit :=
  broadcast { type := .updated, taskID := item.id, task := some item }

def broadcastTaskRemoved : ManagerProg Unit :=
  broadcast { type := .removed, taskID := item.id, task := some item }

def announce (updated : Option Updated) : ManagerProg Unit :=
  match updated with
  | some u => broadcastTaskUpdated u.after.task
  | none => pure ()

/-- `updateForGeneration`: without subscribers there is no event. -/
def updateForGeneration (id : Bytes) (change : Change) : ManagerProg (Option Updated) := do
  let hasSubscribers ← perform .hasSubscribers fun _ m => decide (m.subscribers ≠ [])
  let updated ← updateManaged id change
  announce (if hasSubscribers then updated else none)
  pure updated

def dismissManaged (id : Bytes) : ManagerProg Bool := do
  let found ← perform (.dismiss id) fun _ m => (m.tasks.lookup id).isSome
  if found then do
    run (.recordDismiss id)
    pure true
  else pure false

/-- The removal of a task, and its event. -/
def removeManaged : ManagerProg Bool := do
  let removed ← dismissManaged item.id
  if removed then do
    broadcastTaskRemoved item
    pure true
  else pure false

def findIdempotent (listed : List ManagedTask) (item : Task) : Option (Except ManagerError Task) :=
  listed.findSome? fun m =>
    if m.task.scope ≠ item.scope then none
    else
      (idempotencyKeyFingerprint m.task item.idempotencyKey).map fun fingerprint =>
        if fingerprint = item.operationFingerprint then .ok m.task else .error (.conflict item.idempotencyKey)

/-- The lookup of a key, under the submission lock. -/
def lookupKey : ManagerProg (Option (Except ManagerError Task)) :=
  perform (.find item) fun e m => findIdempotent (m.listManaged e.order {}) item

/-- What `SubmitIdempotent` sets first. -/
def Task.submitted : Task :=
  { item with
    operation := if item.operation = default then operationForType item.type else item.operation
    executionGeneration := if item.executionGeneration = 0 then 1 else item.executionGeneration
    schemaVersion := if item.schemaVersion = 0 then currentTaskSchemaVersion else item.schemaVersion }

def Task.created (now : Time) : Task :=
  normalizeManagedTaskCapabilities
    { item with
      createdAt := if item.createdAt = .zero then now else item.createdAt
      updatedAt := now
      state := if item.state = default then .named .queued else item.state
      visibility := if item.visibility = default then visibilityForType item.type else item.visibility }

def submitNew (run : Nat) : ManagerProg Task := do
  let (ctx, now) ← perform .newContext fun e m => (m.contexts, e.now)
  let managed : ManagedTask := { task := item.created now, run := some run, cancel := some ctx }
  let stored ← perform (.put managed) fun _ m => { managed.task with version := m.store.inner.seq + 1 }
  Tasks.run (.persist stored)
  broadcastTaskUpdated stored
  Tasks.run (.spawn ctx stored.id)
  pure stored

def submitIdempotent (ctx : Option Err) (item : Task) : Option Nat → ManagerProg (Except ManagerError Task)
  | none => pure (.error (ctx.elim .runRequired .context))
  | some f =>
    match ctx with
    | some err => pure (.error (.context err))
    | none => do
      let item : Task := item.submitted
      run .lockSubmit
      let existing ← if item.idempotencyKey = [] then pure none else lookupKey item
      let result ← match existing with
        | some found => pure found
        | none => .ok <$> submitNew item f
      run .unlockSubmit
      pure result

/-- `FindIdempotent`. -/
def findIdempotentTask : ManagerProg (Option (Except ManagerError Task)) :=
  if item.idempotencyKey = [] then pure none
  else do
    let item : Task := { item with scope := if item.scope = default then scopeForType item.type else item.scope }
    run .lockSubmit
    let existing ← lookupKey item
    run .unlockSubmit
    pure existing

/-! ## The goroutine of a task -/

def runUpdates (id : Bytes) (generation : Fin (2 ^ 64)) : List (Task → Task) → ManagerProg Unit
  | [] => pure ()
  | fn :: fns => do
    let _ ← updateForGeneration id (.runner generation fn)
    runUpdates id generation fns

def Updated.current (u : Updated) (generation : Fin (2 ^ 64)) : Bool :=
  !decide (generation ≠ 0 ∧ u.before.task.executionGeneration ≠ generation)

def dismissRequested (id : Bytes) (generation : Fin (2 ^ 64)) (updated : Option Updated) : ManagerProg Unit :=
  if updated.any fun u => u.current generation && u.before.task.dismissRequested then do
    let _ ← removeManaged { id := id }
    pure ()
  else pure ()

/-- `run`: the `k`-th goroutine. The run function makes updates and returns. -/
def runTask (k : Nat) (updates : List (Task → Task)) (result : Option RunError) : ManagerProg Unit := do
  let (ctx, id) ← perform (.take k) fun _ m => (m.waiting k).getD (0, [])
  match ← getManaged id with
  | none => pure ()
  | some managed =>
    match managed.run with
    | none => pure ()
    | some f =>
      let generation := managed.task.executionGeneration
      let started ← updateForGeneration id (.start generation ctx)
      if started.any fun u => u.current generation && u.before.task.mayStart u.ctxErr then
        run (.invoke id generation f)
        runUpdates id generation updates
        run (.returned id generation)
        let finished ← updateForGeneration id (.finish generation ctx result)
        dismissRequested id generation finished
      else dismissRequested id generation started

/-! ## Requests about a task -/

def request (ctx : Option Err) (id : Bytes) (p : ManagerProg (Except ManagerError Unit)) :
    ManagerProg (Except ManagerError Unit) :=
  if id = [] then pure (.error .idRequired)
  else
    match ctx with
    | some err => pure (.error (.context err))
    | none => p

/-- `CancelTask`: the event is that of the task as it was before. -/
def cancelTask (ctx : Option Err) (id : Bytes) : ManagerProg (Except ManagerError Unit) :=
  request ctx id do
    match ← getManaged id with
    | none => pure (.error (.notFound id))
    | some managed =>
      if managed.task.capabilities.cancelable then
        match managed.cancel with
        | none => pure (.ok ())
        | some runCtx => do
          let _ ← updateManaged id .cancel
          broadcastTaskUpdated managed.task
          run (.cancel runCtx)
          pure (.ok ())
      else pure (.error (.notCancelable id))

/-- `RetryTask`: the goroutine is started even if the task is gone. -/
def retryTask (ctx : Option Err) (id : Bytes) : ManagerProg (Except ManagerError Unit) :=
  request ctx id do
    match ← getManaged id with
    | none => pure (.error (.notFound id))
    | some managed =>
      if managed.task.capabilities.retryable && managed.run.isSome then do
        let runCtx ← perform .newContext fun _ m => m.contexts
        let updated ← updateManaged id (.retry runCtx)
        announce updated
        run (.spawn runCtx id)
        pure (.ok ())
      else pure (.error (.notRetryable id))

def recoverTask (ctx : Option Err) (id : Bytes) : Option Nat → ManagerProg (Except ManagerError Unit)
  | none => pure (.error (if id = [] then .idRequired else .runRequired))
  | some f => request ctx id do
    match ← getManaged id with
    | none => pure (.ok ())
    | some _ => do
      let runCtx ← perform .newContext fun _ m => m.contexts
      match ← updateManaged id (.recover f runCtx) with
      | none => do
        run (.cancel runCtx)
        pure (.ok ())
      | some u => do
        broadcastTaskUpdated u.after.task
        run (.spawn runCtx id)
        pure (.ok ())

def updateTask (id : Bytes) (fn : Task → Task) : ManagerProg (Option Task) :=
  if id = [] then pure none
  else do
    let updated ← updateManaged id (.caller fn)
    announce updated
    pure (updated.map (·.after.task))

/-- `DismissTask`: a task that can be canceled is canceled first. -/
def dismissTask (ctx : Option Err) (id : Bytes) : ManagerProg (Except ManagerError Unit) :=
  request ctx id do
    match ← getManaged id with
    | none => pure (.error (.notFound id))
    | some managed =>
      if managed.task.capabilities.cancelable then
        match managed.cancel with
        | none => pure (.ok ())
        | some runCtx => do
          let updated ← updateManaged id .requestDismiss
          announce updated
          run (.cancel runCtx)
          pure (.ok ())
      else if !isTerminalState managed.task.state then pure (.error (.notTerminal id))
      else if !managed.task.capabilities.dismissible then pure (.error (.notDismissible id))
      else do
        let removed ← dismissManaged id
        if removed then do
          broadcastTaskRemoved managed.task
          pure (.ok ())
        else pure (.error (.notFound id))

def dismissEach : List ManagedTask → ManagerProg Nat
  | [] => pure 0
  | m :: rest =>
    if isTerminalState m.task.state && m.task.capabilities.dismissible then do
      let removed ← removeManaged m.task
      let n ← dismissEach rest
      pure (if removed then n + 1 else n)
    else dismissEach rest

def dismissFinishedTasks (filter : Filter) : ManagerProg Nat := do
  let listed ← perform (.list filter) fun e m => m.listManaged e.order filter
  dismissEach listed

end Tasks
