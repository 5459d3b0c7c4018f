import Qrypt.Task.Manager

/-!
# The manager's requests and goroutines, interleaved

`Job` collects the requests and the goroutines of tasks. Any number of them runs at the same time. `At` is where
one of them is, as far as others have to know: whether it holds the submission lock, which goroutine it is about
to start, which generation it has read, which run function it is in.

* `runs_keep` — what every step in this order keeps holds in all runs
-/

namespace Tasks

open Infra

/-- What callers and `go` start. -/
inductive Job where
  | submit (ctx : Option Err) (item : Task) (run : Option Nat)
  | find (item : Task)
  | goroutine (k : Nat) (updates : List (Task → Task)) (result : Option RunError)
  | cancel (ctx : Option Err) (id : Bytes)
  | retry (ctx : Option Err) (id : Bytes)
  | recover (ctx : Option Err) (id : Bytes) (run : Option Nat)
  | updateTask (id : Bytes) (fn : Task → Task)
  | dismiss (ctx : Option Err) (id : Bytes)
  | dismissFinished (filter : Filter)
  | list (filter : Filter)
  | subscribe (filter : Filter) (afterSeq : Fin (2 ^ 64))
  | receive (sub : Nat)
  | closeSubscription (sub : Nat)
  | close

def Job.program : Job → ManagerProg Unit
  | .submit ctx item f => do let _ ← submitIdempotent ctx item f
  | .find item => do let _ ← findIdempotentTask item
  | .goroutine k updates result => runTask k updates result
  | .cancel ctx id => do let _ ← cancelTask ctx id
  | .retry ctx id => do let _ ← retryTask ctx id
  | .recover ctx id f => do let _ ← recoverTask ctx id f
  | .updateTask id fn => do let _ ← Tasks.updateTask id fn
  | .dismiss ctx id => do let _ ← dismissTask ctx id
  | .dismissFinished filter => do let _ ← dismissFinishedTasks filter
  | .list filter => run (.list filter)
  | .subscribe filter afterSeq => run (.subscribe filter afterSeq)
  | .receive sub => run (.receive sub)
  | .closeSubscription sub => run (.closeSubscription sub)
  | .close => run .close

/-! ## Protocols -/

/-- Which steps a thread may take, and where it is after them. -/
structure Protocol (X : Type) where
  ok : X → Call → Prop
  move : Call → Env → Manager → X → X

variable {X α β : Type} {P : Protocol X} {x y z : X} {l : Call}

/-- The program follows the protocol and leads its thread from `x` to `y`. -/
def Leads (P : Protocol X) (x y : X) (p : ManagerProg α) : Prop :=
  p.Follows Call.apply P.ok P.move (fun _ z => z = y) x

theorem leads_pure (a : α) : Leads P x x (pure a) := rfl

variable {k : α → ManagerProg β} {m : Manager}

theorem Leads.bind {p : ManagerProg α} (hp : Leads P x y p) (hk : ∀ a, Leads P y z (k a)) : Leads P x z (p >>= k) := by
  refine Prog.Follows.bind hp fun a w hw => ?_
  rw [hw]
  exact hk a

theorem Leads.ite {c : Prop} [Decidable c] {p q : ManagerProg α} (hp : Leads P x y p) (hq : Leads P x y q) :
    Leads P x y (if c then p else q) := by
  split
  · exact hp
  · exact hq

variable {result : Env → Manager → α}

theorem leads_perform (hl : P.ok x l) (hy : ∀ e m, P.move l e m x = y) : Leads P x y (perform l result) :=
  Prog.follows_performWhen hl fun e m _ => hy e m

theorem follows_perform {Q : α → X → Prop} (hl : P.ok x l)
    (hQ : ∀ e m, l.ready m = true → Q (result e m) (P.move l e m x)) :
    (perform l result).Follows Call.apply P.ok P.move Q x :=
  Prog.follows_performWhen hl hQ

def Call.plain : Call → Bool
  | .newContext | .list _ | .cancel _ | .hasSubscribers | .broadcast _ | .dropOldest _ | .sendGap _ _
  | .unlockEvents | .subscribe _ _ | .receive _ | .closeSubscription _ | .close => true
  | _ => false

/-- The protocol has no part in these steps. -/
def Neutral (P : Protocol X) : Prop := ∀ x l, l.plain = true → P.ok x l ∧ ∀ e m, P.move l e m x = x

section Neutral

variable (h : Neutral P)
include h

theorem leads_plain (hl : l.plain = true) (result : Env → Manager → α) : Leads P x x (perform l result) :=
  leads_perform (h x l hl).1 (h x l hl).2

theorem leads_run (hl : l.plain = true) : Leads P x x (run l) := leads_plain h hl _

theorem leads_sendGaps (ev : TaskEvent) (subs : List Nat) : Leads P x x (sendGaps ev subs) := by
  induction subs with
  | nil => exact leads_run h rfl
  | cons sub subs ih => exact .bind (leads_plain h rfl _) fun _ => .bind (leads_run h rfl) fun _ => ih

theorem leads_broadcast (ev : TaskEvent) : Leads P x x (broadcast ev) := by
  refine .bind (leads_plain h rfl _) ?_
  rintro ⟨ev, full⟩
  exact .ite (leads_pure _) (leads_sendGaps h ev full)

theorem leads_announce (updated : Option Updated) : Leads P x x (announce updated) := by
  cases updated with
  | none => exact leads_pure _
  | some u => exact leads_broadcast h _

end Neutral

/-! ## Where a thread is -/

/-- Where a thread is. The submission lock is held in `locked`, `checked`, `stored` and `spawning true`. -/
inductive At where
  | free
  | locked
  | checked (item : Task)
  | stored (item : Task)
  | spawning (held : Bool) (id : Bytes)
  | entered (id : Bytes)
  | read (id : Bytes) (generation : Fin (2 ^ 64))
  | granted (id : Bytes) (generation : Fin (2 ^ 64))
  | executing (id : Bytes) (generation : Fin (2 ^ 64))
  | dismissed (id : Bytes)

/-- What a submission stores is what it looked up, with a generation. -/
structure Submits (item : Task) (m : ManagedTask) : Prop where
  id : m.task.id = item.id
  scope : m.task.scope = item.scope
  key : m.task.idempotencyKey = item.idempotencyKey
  fingerprint : m.task.operationFingerprint = item.operationFingerprint
  detail : m.task.detail = item.detail
  persistent : m.task.capabilities.persistent = item.capabilities.persistent
  generation : m.task.executionGeneration ≠ 0

/-- The steps a thread may take. -/
def At.ok : At → Call → Prop
  | x, .lockSubmit => x = .free
  | x, .unlockSubmit => x = .locked ∨ ∃ item, x = .checked item
  | x, .find _ => x = .locked
  | x, .put m => ∃ item, Submits item m ∧ (x = .locked ∧ item.idempotencyKey = [] ∨ x = .checked item)
  | x, .persist item => x = .stored item
  | x, .get id => x = .free ∨ x = .entered id
  | x, .update id (.start generation _) => x = .read id generation
  | x, .update id (.runner generation _) => x = .executing id generation
  | x, .update _ _ => x = .free
  | x, .dismiss _ => x = .free
  | x, .recordDismiss id => x = .dismissed id
  | x, .spawn _ id => ∃ held, x = .spawning held id
  | x, .take _ => x = .free
  | x, .invoke id generation _ => x = .granted id generation
  | x, .returned id generation => x = .executing id generation
  | _, _ => True

/-- `startRun` lets a goroutine start. -/
def Manager.starts (m : Manager) (id : Bytes) (generation : Fin (2 ^ 64)) (ctx : Nat) : Bool :=
  (m.tasks.lookup id).any fun x =>
    !decide (generation ≠ 0 ∧ x.task.executionGeneration ≠ generation) && x.task.mayStart (m.ctxErr ctx)

/-- Where a thread is after a step; it stays where it is if the step has to wait. -/
def At.move : Call → Env → Manager → At → At
  | .lockSubmit, _, m, x => if m.submitMu then x else .locked
  | .unlockSubmit, _, _, _ => .free
  | .find item, e, m, x => if (findIdempotent (m.listManaged e.order {}) item).isSome then x else .checked item
  | .put managed, _, m, _ => .stored { managed.task with version := m.store.inner.seq + 1 }
  | .persist item, _, _, _ => .spawning true item.id
  | .get id, _, m, .entered _ =>
    match m.tasks.lookup id with
    | some x => if x.run.isSome then .read id x.task.executionGeneration else .free
    | none => .free
  | .update id (.start generation ctx), _, m, _ => if m.starts id generation ctx then .granted id generation else .free
  | .update id (.retry _), _, _, _ => .spawning false id
  | .update id (.recover _ _), _, m, _ => if (m.tasks.lookup id).isSome then .spawning false id else .free
  | .dismiss id, _, m, _ => if (m.tasks.lookup id).isSome then .dismissed id else .free
  | .recordDismiss _, _, _, _ => .free
  | .spawn _ _, _, _, .spawning held _ => if held then .locked else .free
  | .take k, _, m, x =>
    match m.waiting k with
    | some goroutine => .entered goroutine.2
    | none => x
  | .invoke id generation _, _, _, _ => .executing id generation
  | .returned _ _, _, _, _ => .free
  | _, _, _, x => x

def order : Protocol At where
  ok := At.ok
  move := At.move

theorem neutral_order : Neutral order := by
  intro x l hl
  cases l <;> first | exact ⟨trivial, fun _ _ => by simp [order, At.move]⟩ | cases hl

theorem submits_created (item : Task) (now : Time) (f ctx : Option Nat) :
    Submits item.submitted { task := item.submitted.created now, run := f, cancel := ctx } := by
  have hne : item.submitted.executionGeneration ≠ 0 := by
    unfold Task.submitted
    dsimp only
    split
    · decide
    · assumption
  unfold Task.created
  obtain ⟨capabilities, heq, hpersistent, -⟩ := normalizeManagedTaskCapabilities_eq
    { item.submitted with
      createdAt := if item.submitted.createdAt = .zero then now else item.submitted.createdAt
      updatedAt := now
      state := if item.submitted.state = default then .named .queued else item.submitted.state
      visibility :=
        if item.submitted.visibility = default then visibilityForType item.submitted.type
        else item.submitted.visibility }
  rw [heq]
  exact ⟨rfl, rfl, rfl, rfl, rfl, hpersistent, hne⟩

/-! ## Every program keeps to the order -/

/-- A step, and a program that goes on where its result says the thread is. -/
theorem leads_perform_bind (hl : P.ok x l)
    (hk : ∀ e m, l.ready m = true → Leads P (P.move l e m x) z (k (result e m))) :
    Leads P x z (perform l result >>= k) :=
  Prog.Follows.bind (Q := fun a w => Leads P w z (k a)) (follows_perform hl hk) fun _ _ h => h

section Programs

variable {id : Bytes} {generation : Fin (2 ^ 64)} {a b : At} {change : Change} {item : Task}

/-- An update, and a program that goes on where its result says the thread is. -/
theorem leads_update_bind {k : Option Updated → ManagerProg β} (hok : a.ok (.update id change))
    (hk : ∀ e m, Leads order (At.move (.update id change) e m a) b (k (m.updated id change e.now))) :
    Leads order a b (updateForGeneration id change >>= k) := by
  have hstep : (updateForGeneration id change).Follows Call.apply order.ok order.move
      (fun u w => Leads order w b (k u)) a := by
    refine Prog.Follows.bind (leads_plain neutral_order rfl _) fun hasSubscribers w hw => ?_
    subst hw
    refine Prog.Follows.bind (Q := fun u w => Leads order w b (k u)) (follows_perform hok fun e m _ => hk e m)
      fun updated w hw => ?_
    refine Prog.Follows.bind (leads_announce neutral_order _) fun _ w' hw' => ?_
    subst hw'
    exact hw
  exact Prog.Follows.bind hstep fun _ _ h => h

theorem leads_update (hok : a.ok (.update id change)) (hmove : ∀ e m, At.move (.update id change) e m a = a) :
    Leads order a a (updateForGeneration id change) := by
  refine .bind (leads_plain neutral_order rfl _) fun hasSubscribers => ?_
  exact .bind (leads_perform hok hmove) fun updated => .bind (leads_announce neutral_order _) fun _ => leads_pure _

theorem leads_runUpdates (updates : List (Task → Task)) :
    Leads order (.executing id generation) (.executing id generation) (runUpdates id generation updates) := by
  induction updates with
  | nil => exact leads_pure _
  | cons fn fns ih => exact .bind (leads_update rfl fun _ _ => rfl) fun _ => ih

theorem leads_dismissManaged : Leads order .free .free (dismissManaged id) := by
  refine leads_perform_bind rfl fun e m _ => ?_
  show Leads order (if (m.tasks.lookup id).isSome then .dismissed id else .free) .free _
  cases (m.tasks.lookup id).isSome with
  | false => exact leads_pure _
  | true => exact .bind (leads_perform rfl fun _ _ => rfl) fun _ => leads_pure _

theorem leads_removeManaged (item : Task) : Leads order .free .free (removeManaged item) := by
  refine .bind leads_dismissManaged fun removed => .ite ?_ (leads_pure _)
  exact .bind (leads_broadcast neutral_order _) fun _ => leads_pure _

theorem leads_dismissRequested (updated : Option Updated) :
    Leads order .free .free (dismissRequested id generation updated) :=
  .ite (.bind (leads_removeManaged _) fun _ => leads_pure _) (leads_pure _)

/-- `startRun`, from the state it meets. -/
theorem starts_eq (m : Manager) (ctx : Nat) (now : Time) :
    m.starts id generation ctx = ((m.updated id (.start generation ctx) now).any fun u =>
      u.current generation && u.before.task.mayStart u.ctxErr) := by
  unfold Manager.starts Manager.updated
  cases m.tasks.lookup id with
  | none => rfl
  | some x => rfl

theorem leads_runTask (k : Nat) (updates : List (Task → Task)) (result : Option RunError) :
    Leads order .free .free (runTask k updates result) := by
  refine leads_perform_bind rfl fun e m hready => ?_
  obtain ⟨⟨ctx, id⟩, hk⟩ := Option.isSome_iff_exists.mp hready
  rw [show order.move (.take k) e m .free = .entered id from by simp [order, At.move, hk], hk]
  refine leads_perform_bind (.inr rfl) fun e m _ => ?_
  show Leads order (match m.tasks.lookup id with
    | some x => if x.run.isSome then .read id x.task.executionGeneration else .free
    | none => .free) .free _
  cases m.tasks.lookup id with
  | none => exact leads_pure _
  | some managed =>
    cases hrun : managed.run with
    | none =>
      simp only [hrun]
      exact leads_pure _
    | some f =>
      simp only [hrun]
      refine leads_update_bind rfl fun e m => ?_
      show Leads order (if m.starts id managed.task.executionGeneration ctx then
        .granted id managed.task.executionGeneration else .free) .free _
      rw [starts_eq m ctx e.now]
      split
      · refine .bind (leads_perform rfl fun _ _ => rfl) fun _ => .bind (leads_runUpdates updates) fun _ => ?_
        refine .bind (leads_perform rfl fun _ _ => rfl) fun _ => ?_
        exact .bind (leads_update rfl fun _ _ => rfl) fun _ => leads_dismissRequested _
      · exact leads_dismissRequested _

theorem leads_lockSubmit_bind {k : Unit → ManagerProg β} (hk : Leads order .locked b (k ())) :
    Leads order .free b (run .lockSubmit >>= k) := by
  refine leads_perform_bind rfl fun e m hready => ?_
  have hfree : m.submitMu = false := by simpa [Call.ready] using hready
  rwa [show order.move .lockSubmit e m .free = .locked from by simp [order, At.move, hfree]]

/-- The end of a submission: the lock is held, and the key was looked up if there is one. -/
theorem leads_submitNew (f : Nat)
    (ha : a = .locked ∧ item.submitted.idempotencyKey = [] ∨ a = .checked item.submitted) :
    Leads order a .locked (submitNew item.submitted f) := by
  refine .bind (leads_plain neutral_order rfl _) ?_
  rintro ⟨ctx, now⟩
  refine leads_perform_bind ⟨item.submitted, submits_created item now _ _, ha⟩ fun e m _ => ?_
  refine .bind (leads_perform rfl fun _ _ => rfl) fun _ => ?_
  refine .bind (leads_broadcast neutral_order _) fun _ => ?_
  exact .bind (leads_perform ⟨true, rfl⟩ fun _ _ => rfl) fun _ => leads_pure _

/-- A lookup under the lock: where nothing is found, the lock is held for what was looked up. -/
theorem leads_lookupKey_bind {k : Option (Except ManagerError Task) → ManagerProg β}
    (hfound : ∀ r, Leads order .locked b (k (some r))) (hnone : Leads order (.checked item) b (k none)) :
    Leads order .locked b (lookupKey item >>= k) := by
  refine leads_perform_bind rfl fun e m _ => ?_
  show Leads order (if (findIdempotent (m.listManaged e.order {}) item).isSome then .locked else .checked item) b _
  cases findIdempotent (m.listManaged e.order {}) item with
  | none => exact hnone
  | some r => exact hfound r

theorem leads_submitIdempotent (ctx : Option Err) (item : Task) (f : Option Nat) :
    Leads order .free .free (submitIdempotent ctx item f) := by
  cases f with
  | none => exact leads_pure _
  | some f =>
    cases ctx with
    | some err => exact leads_pure _
    | none =>
      have hend : ∀ r : Except ManagerError Task, Leads order .locked .free (do run .unlockSubmit; pure r) :=
        fun r => .bind (leads_perform (.inl rfl) fun _ _ => rfl) fun _ => leads_pure _
      have hnew : ∀ {a}, a = .locked ∧ item.submitted.idempotencyKey = [] ∨ a = .checked item.submitted →
          Leads order a .free (do
            let result : Except ManagerError Task ← .ok <$> submitNew item.submitted f
            run .unlockSubmit
            pure result) :=
        fun ha => .bind (.bind (leads_submitNew f ha) fun _ => leads_pure _) hend
      refine leads_lockSubmit_bind ?_
      by_cases hkey : item.submitted.idempotencyKey = []
      · rw [if_pos hkey]
        exact hnew (.inl ⟨rfl, hkey⟩)
      · rw [if_neg hkey]
        refine leads_lookupKey_bind (fun r => ?_) (hnew (.inr rfl))
        exact hend r

theorem leads_findIdempotentTask (item : Task) : Leads order .free .free (findIdempotentTask item) := by
  refine .ite (leads_pure _) (leads_lockSubmit_bind (leads_lookupKey_bind ?_ ?_))
  · intro r
    exact .bind (leads_perform (.inl rfl) fun _ _ => rfl) fun _ => leads_pure _
  · exact .bind (leads_perform (.inr ⟨_, rfl⟩) fun _ _ => rfl) fun _ => leads_pure _

theorem leads_request (ctx : Option Err) {p : ManagerProg (Except ManagerError Unit)}
    (hp : Leads order .free .free p) : Leads order .free .free (request ctx id p) := by
  refine .ite (leads_pure _) ?_
  cases ctx with
  | none => exact hp
  | some err => exact leads_pure _

theorem leads_getManaged : Leads order .free .free (getManaged id) := leads_perform (.inl rfl) fun _ _ => rfl

theorem leads_cancelTask (ctx : Option Err) : Leads order .free .free (cancelTask ctx id) := by
  refine leads_request ctx (.bind leads_getManaged ?_)
  rintro (_ | managed)
  · exact leads_pure _
  refine .ite ?_ (leads_pure _)
  cases managed.cancel with
  | none => exact leads_pure _
  | some runCtx =>
    refine .bind (leads_perform rfl fun _ _ => rfl) fun _ => .bind (leads_broadcast neutral_order _) fun _ => ?_
    exact .bind (leads_run neutral_order rfl) fun _ => leads_pure _

theorem leads_retryTask (ctx : Option Err) : Leads order .free .free (retryTask ctx id) := by
  refine leads_request ctx (.bind leads_getManaged ?_)
  rintro (_ | managed)
  · exact leads_pure _
  refine .ite (.bind (leads_plain neutral_order rfl _) fun runCtx => ?_) (leads_pure _)
  refine .bind (leads_perform rfl fun _ _ => rfl) fun updated => .bind (leads_announce neutral_order _) fun _ => ?_
  exact .bind (leads_perform ⟨false, rfl⟩ fun _ _ => rfl) fun _ => leads_pure _

theorem leads_recoverTask (ctx : Option Err) (f : Option Nat) : Leads order .free .free (recoverTask ctx id f) := by
  cases f with
  | none => exact leads_pure _
  | some f =>
    refine leads_request ctx (.bind leads_getManaged ?_)
    rintro (_ | managed)
    · exact leads_pure _
    refine .bind (leads_plain neutral_order rfl _) fun runCtx => leads_perform_bind rfl fun e m _ => ?_
    show Leads order (if (m.tasks.lookup id).isSome then .spawning false id else .free) .free _
    unfold Manager.updated
    cases m.tasks.lookup id with
    | none => exact .bind (leads_run neutral_order rfl) fun _ => leads_pure _
    | some x =>
      refine .bind (leads_broadcast neutral_order _) fun _ => ?_
      exact .bind (leads_perform ⟨false, rfl⟩ fun _ _ => rfl) fun _ => leads_pure _

theorem leads_updateTask (fn : Task → Task) : Leads order .free .free (updateTask id fn) := by
  refine .ite (leads_pure _) (.bind (leads_perform rfl fun _ _ => rfl) fun updated => ?_)
  exact .bind (leads_announce neutral_order _) fun _ => leads_pure _

theorem leads_dismissTask (ctx : Option Err) : Leads order .free .free (dismissTask ctx id) := by
  refine leads_request ctx (.bind leads_getManaged ?_)
  rintro (_ | managed)
  · exact leads_pure _
  refine .ite ?_ (.ite (leads_pure _) (.ite (leads_pure _) ?_))
  · cases managed.cancel with
    | none => exact leads_pure _
    | some runCtx =>
      refine .bind (leads_perform rfl fun _ _ => rfl) fun _ => .bind (leads_announce neutral_order _) fun _ => ?_
      exact .bind (leads_run neutral_order rfl) fun _ => leads_pure _
  · refine .bind leads_dismissManaged fun removed => .ite ?_ (leads_pure _)
    exact .bind (leads_broadcast neutral_order _) fun _ => leads_pure _

theorem leads_dismissEach (listed : List ManagedTask) : Leads order .free .free (dismissEach listed) := by
  induction listed with
  | nil => exact leads_pure _
  | cons m rest ih => exact .ite (.bind (leads_removeManaged _) fun _ => .bind ih fun _ => leads_pure _) ih

/-- **Every request and every goroutine keeps to the order.** -/
theorem leads_program (job : Job) : Leads order .free .free job.program := by
  cases job with
  | submit ctx item f => exact .bind (leads_submitIdempotent ctx item f) fun _ => leads_pure _
  | find item => exact .bind (leads_findIdempotentTask item) fun _ => leads_pure _
  | goroutine k updates result => exact leads_runTask k updates result
  | cancel ctx id => exact .bind (leads_cancelTask ctx) fun _ => leads_pure _
  | retry ctx id => exact .bind (leads_retryTask ctx) fun _ => leads_pure _
  | recover ctx id f => exact .bind (leads_recoverTask ctx f) fun _ => leads_pure _
  | updateTask id fn => exact .bind (leads_updateTask fn) fun _ => leads_pure _
  | dismiss ctx id => exact .bind (leads_dismissTask ctx) fun _ => leads_pure _
  | dismissFinished filter =>
    exact .bind (.bind (leads_plain neutral_order rfl _) leads_dismissEach) fun _ => leads_pure _
  | list filter => exact leads_run neutral_order rfl
  | subscribe filter afterSeq => exact leads_run neutral_order rfl
  | receive sub => exact leads_run neutral_order rfl
  | closeSubscription sub => exact leads_run neutral_order rfl
  | close => exact leads_run neutral_order rfl

end Programs

/-! ## Runs -/

/-- The manager, where its threads are, and a history. -/
abbrev Followed (X H : Type) := Manager × (Nat → X) × H

namespace Protocol

variable {H : Type} (P) (note : Nat → Call → Env → Manager → (Nat → X) → H → H)

/-- A thread and a job, with what is noted of the steps. -/
def program (i : Nat) (job : Job) : Prog Call Env (Followed X H) Unit :=
  job.program.recorded (tracked P.move note i)

/-- The state and what is noted after a step of thread `i`. -/
def noted (i : Nat) (l : Call) (e : Env) (s : Followed X H) : Followed X H :=
  (l.apply e s.1, Function.update s.2.1 i (P.move l e s.1 (s.2.1 i)), note i l e s.1 s.2.1 s.2.2)

def begun (m : Manager) (x : X) (h : H) : Pool Call Env (Followed X H) Job Unit := Pool.idle (m, fun _ => x, h)

/-- A run of the manager in which every step meets the condition. -/
def Runs (cond : Nat → Call → Env → Followed X H → Prop) :
    Pool Call Env (Followed X H) Job Unit → Pool Call Env (Followed X H) Job Unit → Prop :=
  Reaches (Pool.Step (P.program note)) (Pool.Allowed (fun _ _ => True) cond)

variable {P note} {cond : Nat → Call → Env → Followed X H → Prop} {m₀ : Manager} {h₀ : H} {x₀ : X}
  {p q : Pool Call Env (Followed X H) Job Unit}

/-- **What every step of the protocol keeps holds in all runs.** -/
theorem runs_keep (hlead : ∀ job : Job, Leads P x₀ x₀ job.program) (inv : Followed X H → Prop)
    (hinit : inv (m₀, fun _ => x₀, h₀))
    (hkeep : ∀ i l e s, inv s → P.ok (s.2.1 i) l → cond i l e s → inv (P.noted note i l e s))
    (h : P.Runs note cond (begun m₀ x₀ h₀) p) : inv p.shared := by
  have hstart : Pool.Tracked inv note x₀ P.ok Call.apply P.move
      (begun m₀ x₀ h₀ : Pool Call Env (Followed X H) Job Unit) :=
    { holds := hinit
      idle := fun _ _ => rfl
      busy := fun _ _ ht => by cases ht }
  exact (Pool.sound_of_follows (fun _ job _ => hlead job) hkeep hstart h).holds

/-- A schedule whose steps all meet the condition is a run. -/
theorem runs_of_schedule (check : Call → Bool) (hcond : ∀ i l e s, check l = true → cond i l e s)
    (evs : List (Event Env Job)) (view : Followed X H → β) {b : β}
    (h : (q.run (P.program note) check evs).map (fun p => view p.shared) = some b) :
    ∃ p, P.Runs note cond q p ∧ view p.shared = b :=
  Pool.exists_reaches check hcond evs view h

end Protocol

/-- What a thread does for a job, without a history. -/
abbrev thread : Nat → Job → Prog Call Env (Followed At Unit) Unit := order.program fun _ _ _ _ _ u => u

/-- A run of a manager from its start, without a history. -/
def RunsFrom (m : Manager) (cond : Nat → Call → Env → Followed At Unit → Prop) :
    Pool Call Env (Followed At Unit) Job Unit → Prop :=
  order.Runs (fun _ _ _ _ _ u => u) cond (Protocol.begun m .free ())

/-- **What every step in the order of the manager keeps holds in all runs.** -/
theorem runsFrom_keep {cond : Nat → Call → Env → Followed At Unit → Prop} (inv : Followed At Unit → Prop)
    (hinit : inv (m, fun _ => .free, ()))
    (hkeep : ∀ i l e s, inv s → (s.2.1 i).ok l → cond i l e s → inv (order.noted (fun _ _ _ _ _ u => u) i l e s))
    {p : Pool Call Env (Followed At Unit) Job Unit} (h : RunsFrom m cond p) : inv p.shared :=
  Protocol.runs_keep leads_program inv hinit hkeep h

theorem runsFrom_schedule (evs : List (Event Env Job)) (view : Followed At Unit → β) {b : β}
    (h : ((Protocol.begun m .free ()).run (order.program fun _ _ _ _ _ u => u) (fun _ => true) evs).map
      (fun p => view p.shared) = some b) : ∃ p, RunsFrom m (fun _ _ _ _ => True) p ∧ view p.shared = b :=
  Protocol.runs_of_schedule (fun _ => true) (fun _ _ _ _ _ => trivial) evs view h

/-- The next `n` actions of a thread, with the same answers. -/
def steps (i n : Nat) (e : Env) : List (Event Env Job) := List.replicate n (.step i e)

end Tasks
