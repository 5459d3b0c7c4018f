import Qrypt.Infra.Run
import Qrypt.Infra.Bytes

/-!
# Credential sessions

The sessions of `pkg/core/internal/credentials`: processes that share a state directory keep one `session.json` per
credential. A process commits a payload against the version it has in memory and the one in the file; a process whose
params have another seed writes its own session over the stored one.

* `session_kept` — what a run keeps if nobody overwrites a newer session
-/

namespace Credentials

open Infra List Option

/-- `uint64`. -/
abbrev Version := Fin (2 ^ 64)

/-! ## The file -/

structure SessionFile where
  version : Version
  paramsSeed : Bytes
  account : Bytes
  data : Bytes
  deriving DecidableEq

/-- `session.json`, as `load` sees it. -/
inductive Stored where
  | absent
  | unreadable
  | valid (file : SessionFile)
  deriving DecidableEq

/-- What fails while the session lock is taken or held. -/
inductive Fault where
  | lock
  | quarantine
  | write
  deriving DecidableEq

inductive SaveResult where
  | saved
  | conflict
  | failed
  deriving DecidableEq

def Stored.write (stored : Stored) (next : SessionFile) (fault : Option Fault) : Stored × SaveResult :=
  if fault = some .write then (stored, .failed) else (.valid next, .saved)

/-- `save`, under the session lock. -/
def Stored.save (stored : Stored) (next : SessionFile) (expected : Version) (fault : Option Fault) :
    Stored × SaveResult :=
  if fault = some .lock then (stored, .failed)
  else
    match stored with
    | .absent => Stored.absent.write next fault
    | .valid current => if current.version ≠ expected then (stored, .conflict) else stored.write next fault
    | .unreadable => if fault = some .quarantine then (stored, .failed) else Stored.absent.write next fault

/-- `overwrite`, under the session lock: the version is not looked at. -/
def Stored.overwrite (stored : Stored) (next : SessionFile) (fault : Option Fault) : Stored × SaveResult :=
  if fault = some .lock then (stored, .failed) else stored.write next fault

/-- `quarantine`, under the session lock. -/
def Stored.quarantine (stored : Stored) (fault : Option Fault) : Stored :=
  if fault = some .lock then stored
  else
    match stored with
    | .absent => .absent
    | .valid file => .valid file
    | .unreadable => if fault = some .quarantine then .unreadable else .absent

/-! ## The processes -/

/-- `Session`, without its subscribers. -/
structure Session where
  seed : Bytes
  version : Version := 0
  payload : Bytes := []
  account : Bytes := []
  deriving DecidableEq

/-- `fileLocked`. -/
def Session.file (s : Session) : SessionFile where
  version := s.version
  paramsSeed := s.seed
  account := s.account
  data := s.payload

/-- What an `Update` writes. -/
def Session.next (s : Session) (payload account : Bytes) : SessionFile where
  version := s.version + 1
  paramsSeed := s.seed
  account := account
  data := payload

def Session.adopt (s : Session) (state : SessionFile) : Session :=
  { s with version := state.version, payload := state.data, account := state.account }

/-- A file operation that a call of `Manager.Session` still has to make; the manager is locked meanwhile. -/
inductive Pending where
  /-- `newSession` found an unreadable file. -/
  | quarantine (session : Session)
  /-- `newSession` found a session of another seed. -/
  | opening (session : Session)
  /-- `reconcileSeed` has changed the session in memory. -/
  | reseed (file : SessionFile)
  deriving DecidableEq

/-- A `Refresh` that runs: its attempt, and the version handed to its function, unless the next snapshot is to be taken.
-/
structure Refreshing where
  attempt : Nat
  current : Option Version
  deriving DecidableEq

/-- A process: its session, the call of `Manager.Session` that runs, whether an `Update` that lost has yet to look at
the file again, and the `Refresh` that runs. -/
structure Process where
  session : Option Session := none
  pending : Option Pending := none
  adopting : Bool := false
  refreshing : Option Refreshing := none
  deriving DecidableEq

/-- The file and the processes that share it. -/
structure State where
  file : Stored
  proc : Nat → Process

def State.start (file : Stored) : State := ⟨file, fun _ => {}⟩

def State.set (s : State) (p : Nat) (proc : Process) : State := { s with proc := Function.update s.proc p proc }

/-- The steps of a process. -/
inductive Act where
  /-- `Manager.Session` up to its first file operation under the session lock. -/
  | session (p : Nat) (seed : Bytes)
  | quarantine (p : Nat) (fault : Option Fault)
  | overwrite (p : Nat) (fault : Option Fault)
  | update (p : Nat) (expected : Version) (payload account : Bytes) (fault : Option Fault)
  /-- The second look of an `Update` that lost. -/
  | adopt (p : Nat)
  /-- The snapshot of an attempt of `Refresh`. -/
  | refreshSnapshot (p : Nat)
  | refreshUpdate (p : Nat) (payload account : Bytes) (fault : Option Fault)
  /-- The function of `Refresh` fails, or its context is done. -/
  | refreshStop (p : Nat)

/-- What a step returns to its caller. -/
inductive Reply where
  | none
  /-- A snapshot, with a nil error. -/
  | ok (session : Session)
  /-- A snapshot, with `ErrCredentialVersionConflict`. -/
  | conflict (session : Session)
  /-- A snapshot, with another error. -/
  | failed (session : Session)
  deriving DecidableEq

/-- `newSession`, up to its first file operation under the session lock. -/
def newSession (stored : Stored) (seed : Bytes) : Process :=
  match stored with
  | .absent => { session := some { seed } }
  | .unreadable => { pending := some (.quarantine { seed }) }
  | .valid state =>
    if state.paramsSeed = seed then { session := some (({ seed } : Session).adopt state) }
    else { pending := some (.opening { seed, version := state.version + 1 }) }

/-- `reconcileSeed`, in the lock of the session. -/
def reconcileSeed (proc : Process) (session : Session) (seed : Bytes) : Process :=
  if session.seed = seed then proc
  else
    let session : Session := { seed, version := session.version + 1 }
    { proc with session := some session, pending := some (.reseed session.file) }

/-- `Update`, up to the second look after a conflict. -/
def State.update (s : State) (p : Nat) (session : Session) (expected : Version) (payload account : Bytes)
    (fault : Option Fault) : State × Reply :=
  if expected ≠ session.version then (s, .conflict session)
  else
    let next := session.next payload account
    let out := s.file.save next session.version fault
    let s := { s with file := out.1 }
    match out.2 with
    | .saved =>
      let session : Session := { session with version := next.version, payload, account }
      (s.set p { s.proc p with session := some session }, .ok session)
    | .conflict => (s.set p { s.proc p with adopting := true }, .none)
    | .failed => (s, .failed session)

/-- What a `Refresh` does after its `Update`: two attempts at most, the second after a conflict only. -/
def Refreshing.after (r : Refreshing) : Reply → Option Refreshing
  | .ok _ | .failed _ => none
  | .conflict _ | .none => if r.attempt = 0 then some { attempt := 1, current := none } else none

/-- A step, if it is possible: the state after it, and the reply. -/
def State.step (s : State) : Act → Option (State × Reply)
  | .session p seed =>
    if (s.proc p).pending ≠ none ∨ (s.proc p).adopting then none
    else
      match (s.proc p).session with
      | none => some (s.set p (newSession s.file seed), .none)
      | some session => some (s.set p (reconcileSeed (s.proc p) session seed), .none)
  | .quarantine p fault =>
    match (s.proc p).pending with
    | some (.quarantine session) =>
      some ({ s with file := s.file.quarantine fault }.set p { s.proc p with session := some session, pending := none },
        .none)
    | _ => none
  | .overwrite p fault =>
    match (s.proc p).pending with
    | some (.opening session) =>
      let out := s.file.overwrite session.file fault
      -- a session that could not be stored keeps the version of the stored one
      let session := if out.2 = .saved then session else { session with version := session.version - 1 }
      some ({ s with file := out.1 }.set p { s.proc p with session := some session, pending := none }, .none)
    | some (.reseed file) =>
      some ({ s with file := (s.file.overwrite file fault).1 }.set p { s.proc p with pending := none }, .none)
    | _ => none
  | .update p expected payload account fault =>
    match (s.proc p).session, (s.proc p).adopting with
    | some session, false => some (s.update p session expected payload account fault)
    | _, _ => none
  | .adopt p =>
    match (s.proc p).session, (s.proc p).adopting with
    | some session, true =>
      let session :=
        match s.file with
        | .valid state => if state.paramsSeed = session.seed then session.adopt state else session
        | _ => session
      some (s.set p { s.proc p with session := some session, adopting := false }, .conflict session)
    | _, _ => none
  | .refreshSnapshot p =>
    match (s.proc p).session, (s.proc p).adopting, (s.proc p).refreshing with
    | some session, false, none =>
      some (s.set p { s.proc p with refreshing := some ⟨0, some session.version⟩ }, .none)
    | some session, false, some ⟨attempt, none⟩ =>
      some (s.set p { s.proc p with refreshing := some ⟨attempt, some session.version⟩ }, .none)
    | _, _, _ => none
  | .refreshUpdate p payload account fault =>
    match (s.proc p).session, (s.proc p).adopting, (s.proc p).refreshing with
    | some session, false, some ⟨attempt, some current⟩ =>
      let out := s.update p session current payload account fault
      some (out.1.set p { out.1.proc p with refreshing := Refreshing.after ⟨attempt, some current⟩ out.2 }, out.2)
    | _, _, _ => none
  | .refreshStop p => some (s.set p { s.proc p with refreshing := none }, .none)

/-- A step leads from one state to another. -/
def Step (s : State) (a : Act) (s' : State) : Prop := ∃ r, s.step a = some (s', r)

/-! ## What a step does to the file -/

def State.overwrites (s : State) : Act → Option SessionFile
  | .overwrite p fault =>
    if fault = some .lock ∨ fault = some .write then none
    else
      match (s.proc p).pending with
      | some (.opening session) => some session.file
      | some (.reseed file) => some file
      | _ => none
  | _ => none

def State.expected (s : State) : Act → Option Version
  | .update _ expected _ _ _ => some expected
  | .refreshUpdate p _ _ _ => (s.proc p).refreshing.bind Refreshing.current
  | _ => none

/-- What a step makes of the file: nothing, an unreadable one is put aside, an update commits, a session is overwritten.
-/
inductive Change (s : State) (a : Act) : Stored → Reply → Prop
  | same (r : Reply) (hr : ∀ session, r ≠ .ok session) : Change s a s.file r
  | aside (r : Reply) (hr : ∀ session, r ≠ .ok session) (h : s.file = .unreadable) : Change s a .absent r
  | commit {expected : Version} {next : SessionFile} (session : Session) (hexpected : s.expected a = some expected)
    (hnext : next.version = expected + 1) (hstored : ∀ g, s.file = .valid g → g.version = expected) :
    Change s a (.valid next) (.ok session)
  | overwrite {f : SessionFile} (h : s.overwrites a = some f) : Change s a (.valid f) .none

theorem Stored.save_cases (stored : Stored) (next : SessionFile) (expected : Version) (fault : Option Fault) :
    ((stored.save next expected fault).2 = .saved ∧ (stored.save next expected fault).1 = .valid next ∧
      ∀ g, stored = .valid g → g.version = expected) ∨
    ((stored.save next expected fault).2 ≠ .saved ∧ ((stored.save next expected fault).1 = stored ∨
      stored = .unreadable ∧ (stored.save next expected fault).1 = .absent)) := by
  unfold Stored.save Stored.write
  cases stored with
  | absent => rcases fault with _ | _ | _ | _ <;> simp
  | unreadable => rcases fault with _ | _ | _ | _ <;> simp
  | valid current => by_cases h : current.version = expected <;> rcases fault with _ | _ | _ | _ <;> simp [h]

theorem Stored.overwrite_cases (stored : Stored) (next : SessionFile) (fault : Option Fault) :
    (stored.overwrite next fault).1 = if fault = some .lock ∨ fault = some .write then stored else .valid next := by
  unfold Stored.overwrite Stored.write
  rcases fault with _ | _ | _ | _ <;> simp

theorem Stored.quarantine_cases (stored : Stored) (fault : Option Fault) :
    stored.quarantine fault = stored ∨ stored = .unreadable ∧ stored.quarantine fault = .absent := by
  unfold Stored.quarantine
  rcases stored with _ | _ | file <;> rcases fault with _ | _ | _ | _ <;> simp

@[simp] theorem State.file_set (s : State) (p : Nat) (proc : Process) : (s.set p proc).file = s.file := rfl

variable {s : State} {a : Act} {s' : State}

theorem State.file_update {p : Nat} {session : Session} {expected : Version}
    {payload account : Bytes} {fault : Option Fault} (hexpected : s.expected a = some expected) :
    Change s a (s.update p session expected payload account fault).1.file
      (s.update p session expected payload account fault).2 := by
  unfold State.update
  split
  · exact .same _ (by simp)
  next hversion =>
    obtain rfl := not_not.mp hversion
    dsimp only
    generalize hnext : session.next payload account = next
    rcases s.file.save_cases next session.version fault with ⟨hsaved, hfile, hstored⟩ | ⟨hsaved, hfile⟩
    · rw [hsaved]
      simp only [State.file_set, hfile]
      exact .commit _ hexpected (by rw [← hnext]; rfl) hstored
    · have hkept : ∀ r : Reply, (∀ session, r ≠ .ok session) →
          Change s a (s.file.save next session.version fault).1 r := by
        intro r hr
        rcases hfile with hfile | ⟨hunreadable, hfile⟩
        · rw [hfile]
          exact .same r hr
        · rw [hfile]
          exact .aside r hr hunreadable
      split
      · exact absurd ‹_› hsaved
      · exact hkept _ (by simp)
      · exact hkept _ (by simp)

/-- **What a step does to the file.** -/
theorem file_step {r : Reply} (h : s.step a = some (s', r)) : Change s a s'.file r := by
  cases a with
  | session p seed =>
    simp only [State.step] at h
    split at h
    · cases h
    split at h
    all_goals
      cases h
      exact .same _ (by simp)
  | quarantine p fault =>
    simp only [State.step] at h
    split at h
    · cases h
      rcases s.file.quarantine_cases fault with hsame | ⟨hunreadable, haside⟩
      · simp only [State.file_set, hsame]
        exact .same _ (by simp)
      · simp only [State.file_set, haside]
        exact .aside _ (by simp) hunreadable
    · cases h
  | overwrite p fault =>
    -- the two callers write different sessions
    have hwrite : ∀ f, (∀ hok : ¬ (fault = some .lock ∨ fault = some .write), s.overwrites (.overwrite p fault) = some f) →
        Change s (.overwrite p fault) (s.file.overwrite f fault).1 .none := by
      intro f hf
      rw [Stored.overwrite_cases]
      split
      · exact .same _ (by simp)
      next hok => exact .overwrite (hf hok)
    simp only [State.step] at h
    split at h
    · next session hpending =>
      cases h
      exact hwrite _ fun hok => by simp [State.overwrites, hok, hpending]
    · next file hpending =>
      cases h
      exact hwrite _ fun hok => by simp [State.overwrites, hok, hpending]
    · cases h
  | update p expected payload account fault =>
    simp only [State.step] at h
    split at h
    · have hupdate := some.inj h
      rw [show s' = _ from (congrArg Prod.fst hupdate).symm, show r = _ from (congrArg Prod.snd hupdate).symm]
      exact State.file_update rfl
    · cases h
  | adopt p =>
    simp only [State.step] at h
    split at h
    · cases h
      exact .same _ (by simp)
    · cases h
  | refreshSnapshot p =>
    simp only [State.step] at h
    split at h
    all_goals
      cases h
    all_goals exact .same _ (by simp)
  | refreshUpdate p payload account fault =>
    simp only [State.step] at h
    split at h
    · next session attempt current _ _ hrefreshing =>
      cases h
      exact State.file_update (by simp [State.expected, hrefreshing])
    · cases h
  | refreshStop p =>
    cases h
    exact .same _ (by simp)

/-! ## Runs -/

/-- What is stored when a session is overwritten is not newer and no payload of the seed written, and no version wraps.
-/
structure Fair (s : State) (a : Act) : Prop where
  notNewer : ∀ f g, s.overwrites a = some f → s.file = .valid g → g.version ≤ f.version
  notSame : ∀ f g, s.overwrites a = some f → s.file = .valid g → g.paramsSeed = f.paramsSeed → g.data = []
  noWrap : ∀ expected, s.expected a = some expected → expected.val + 1 < 2 ^ 64

/-- A step that neither commits an update nor adopts another seed. -/
structure Undisturbed (seed : Bytes) (s : State) (a : Act) : Prop where
  fair : Fair s a
  noUpdate : ∀ s' session, s.step a ≠ some (s', .ok session)
  sameSeed : ∀ f, s.overwrites a = some f → f.paramsSeed = seed

/-- The stored version does not decrease. -/
def State.NotOlder (s s' : State) : Prop :=
  ∀ g, s.file = .valid g → ∃ g', s'.file = .valid g' ∧ g.version ≤ g'.version

theorem State.NotOlder.refl (s : State) : s.NotOlder s := fun g h => ⟨g, h, Nat.le_refl _⟩

theorem State.NotOlder.trans {s'' : State} (h : s.NotOlder s') (h' : s'.NotOlder s'') : s.NotOlder s'' := by
  intro g hg
  obtain ⟨g', hg', hle⟩ := h g hg
  obtain ⟨g'', hg'', hle'⟩ := h' g' hg'
  exact ⟨g'', hg'', Nat.le_trans hle hle'⟩

theorem notOlder_step (hfair : Fair s a) (h : Step s a s') : s.NotOlder s' := by
  obtain ⟨r, h⟩ := h
  have hchange := file_step h
  intro g hg
  generalize s'.file = file at hchange ⊢
  cases hchange with
  | same _ hr => exact ⟨g, hg, Nat.le_refl _⟩
  | aside _ hr hunreadable => simp [hunreadable] at hg
  | commit session hexpected hnext hstored =>
    have hwrap := hfair.noWrap _ hexpected
    refine ⟨_, rfl, ?_⟩
    rw [hnext, hstored g hg, Fin.le_def, Fin.val_add]
    simp only [Fin.val_one']
    omega
  | overwrite hover => exact ⟨_, rfl, hfair.notNewer _ _ hover hg⟩

/-- One step that commits no update and adopts no other seed leaves a payload where it is. -/
theorem file_of_undisturbed {g : SessionFile} (hundisturbed : Undisturbed g.paramsSeed s a)
    (h : Step s a s') (hg : s.file = .valid g) (hdata : g.data ≠ []) : s'.file = .valid g := by
  obtain ⟨r, h⟩ := h
  have hchange := file_step h
  generalize s'.file = file at hchange ⊢
  cases hchange with
  | same _ hr => exact hg
  | aside _ hr hunreadable => simp [hunreadable] at hg
  | commit session hexpected hnext hstored => exact absurd h (hundisturbed.noUpdate _ _)
  | overwrite hover =>
    have hseed := hundisturbed.sameSeed _ hover
    exact absurd (hundisturbed.fair.notSame _ _ hover hg hseed.symm) hdata

/-- What a run keeps: the stored version does not decrease, an update replaces the version it expects, and a payload
stays until an update replaces it or another seed is adopted. -/
structure Kept (s : State) : Prop where
  version : ∀ s', Reaches Step Fair s s' → s.NotOlder s'
  replaced : ∀ {a s' session expected}, s.step a = some (s', .ok session) → s.expected a = some expected →
    ∀ g, s.file = .valid g → g.version = expected
  payload : ∀ g s', s.file = .valid g → g.data ≠ [] → Reaches Step (Undisturbed g.paramsSeed) s s' →
    s'.file = .valid g

/-- Two processes use one seed, then the params change. The first one adopts the new seed and commits a payload. -/
def rotation : List Act :=
  [.session 0 (ascii "A"), .update 0 0 (ascii "a") [] none, .session 1 (ascii "A"), .update 0 1 (ascii "b") [] none,
    .session 0 (ascii "B"), .overwrite 0 none, .update 0 3 (ascii "c") [] none]

def lateAdoption : List Act := [.session 1 (ascii "B"), .overwrite 1 none]

def State.run (s : State) : List Act → Option State
  | [] => some s
  | a :: acts => (s.step a).bind fun out => out.1.run acts

theorem reaches_run {ok : State → Act → Prop} (acts : List Act) (hok : ∀ s, ∀ a ∈ acts, ok s a)
    (h : s.run acts = some s') : Reaches Step ok s s' := by
  induction acts generalizing s with
  | nil => exact some.inj h ▸ .refl s
  | cons a acts ih =>
    obtain ⟨out, hout, hrest⟩ := bind_eq_some_iff.mp h
    exact .head (hok s a mem_cons_self) ⟨out.2, hout⟩ (ih (fun s a ha => hok s a (mem_cons_of_mem _ ha)) hrest)

theorem State.run_append (s : State) (acts acts' : List Act) :
    s.run (acts ++ acts') = (s.run acts).bind fun s => s.run acts' := by
  induction acts generalizing s with
  | nil => rfl
  | cons a acts ih =>
    simp only [cons_append, State.run, bind_assoc]
    exact congrArg _ (funext fun out => ih out.1)

end Credentials
