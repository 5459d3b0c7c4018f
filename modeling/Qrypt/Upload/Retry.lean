import Qrypt.Upload.Schedule

/-!
# Retries

`Domain.RetryByID` and `Service.Retry` of `pkg/vfs/upload`. A retry looks a record up by its id, puts its times back
and saves it again, under another lock: a newer generation is replaced by the one the retry found, and a path that was
removed or renamed comes back (`retry_restores_old_generation`).

While no other call changes the generation at the path of a record that a retry is about to save, every
path holds what the other calls left there (`retry_keeps_generations`).
-/

namespace Upload

open Infra Drive PendingStore Function

/-! ## The retry -/

/-- `PendingByID`, first lock: the path of an id. -/
def PendingStore.pathOfID (c : PendingStore) (id : Bytes) : Option Bytes := c.idIndex.lookup id

/-- `PendingByID`, second lock: the record at that path. -/
def PendingStore.recordOfID (c : PendingStore) (id path : Bytes) : Option PendingUpload :=
  (c.pending.lookup path).filter fun p => p.fid = id

/-- The record `Retry` saves: its quiet window is over, and its failures are forgotten. -/
def retried (delay : Int) (now : Int) (p : PendingUpload) : PendingUpload :=
  let qw := quietWindow delay p
  { p with
    updatedAt := if 0 < qw then ⟨wrap64 (now - qw - 1), fits64_wrap64 _⟩
      else ⟨wrap64 now, fits64_wrap64 _⟩
    permanentFail := false
    lastError := []
    nextAttemptAt := 0 }

/-- How far a `RetryByID` has come. -/
inductive Retry where
  | idle
  | indexed (id path : Bytes)
  | found (p : PendingUpload)
  | saved (p : PendingUpload)
  | latest (p : PendingUpload)
  | cancelled (p : PendingUpload)
  | replaced (localPath : Bytes)

/-- What a retry does next, with what happens during the call. -/
inductive RetryCall where
  | pathOfID (id : Bytes)
  | recordOfID
  | save (now : Int) (env : StoreEnv)
  | uploadByPath
  | cancelUpload
  | enqueueAfter (clock : Nat → Int)
  | removeStagingIfUnreferenced (env : StoreEnv)

/-- One call of a retry. A call that is not the next one does nothing. -/
def Retry.next (s : Scheduler) : Retry → RetryCall → Retry × Scheduler
  | .idle, .pathOfID id =>
    match s.store.pathOfID id with
    | some path => (.indexed id path, s)
    | none => (.idle, s)
  | .indexed id path, .recordOfID =>
    match s.store.recordOfID id path with
    | some p => (.found p, s)
    | none => (.idle, s)
  | .found p, .save now env =>
    let p := retried s.service.delay now p
    match s.store.saveUpload env (stampedExact p env.now) with
    | (some _, store) => (.idle, { s with store := store })
    | (none, store) => (.saved p, { s with store := store })
  | .saved p, .uploadByPath => (.latest ((s.store.pending.lookup p.path).getD p), s)
  | .latest p, .cancelUpload => (.cancelled p, { s with service := s.service.cancelUpload p.path })
  | .cancelled p, .enqueueAfter clock =>
    let r := s.service.enqueueAfter clock p 0
    (match r.2 with
      | some localPath => .replaced localPath
      | none => .idle, { s with service := r.1 })
  | .replaced localPath, .removeStagingIfUnreferenced env =>
    (.idle, { s with store := s.store.removeStagingIfUnreferenced env localPath })
  | r, _ => (r, s)

/-! ## Retries among other calls -/

/-- What tells the generations at a path apart: the id and the staging file. -/
def PendingStore.generation (c : PendingStore) (path : Bytes) : Option (Bytes × Bytes) :=
  (c.pending.lookup path).map fun p => (p.fid, p.localPath)

/-- Service and store, the retries under way, and the generation that the other calls left at each path. -/
structure Retries where
  scheduler : Scheduler := {}
  retries : Nat → Retry := fun _ => .idle
  left : Bytes → Option (Bytes × Bytes) := fun _ => none

/-- A call of a retry, or any other call. -/
inductive RetriesOp where
  | retry (i : Nat) (call : RetryCall)
  | other (l : ServiceOp × (Nat → Int))

/-- The state after a call. Where a call that is no retry's changes the generation, it is noted. -/
def Retries.apply (s : Retries) : RetriesOp → Retries
  | .retry i call =>
    let r := (s.retries i).next s.scheduler call
    { s with scheduler := r.2, retries := update s.retries i r.1 }
  | .other l =>
    let store := l.1.storeAfter s.scheduler.store
    { s with
      scheduler := { service := (s.scheduler.service.apply s.scheduler.store l).2, store := store }
      left := fun path => if store.generation path = s.scheduler.store.generation path then s.left path
        else store.generation path }

/-- A step. -/
def RetriesStep (s : Retries) (op : RetriesOp) (s' : Retries) : Prop := s' = s.apply op

/-- **What is to hold**: every path has the generation that the calls other than retries left there. -/
def NotOlder (s : Retries) : Prop := ∀ path, s.scheduler.store.generation path = s.left path

/-- No other call changes the generation at the path of a record that a retry has found and not yet saved. -/
def Undisturbed (s : Retries) : RetriesOp → Prop
  | .retry _ _ => True
  | .other l => ∀ i p, s.retries i = .found p →
    (l.1.storeAfter s.scheduler.store).generation p.path = s.scheduler.store.generation p.path

/-! ## One step -/

def PendingUpload.generation (p : PendingUpload) : Bytes × Bytes := (p.fid, p.localPath)

theorem retried_generation (delay now : Int) (p : PendingUpload) (at' : I64) :
    (stampedExact (retried delay now p) at').generation = p.generation ∧
      (stampedExact (retried delay now p) at').path = p.path := by
  unfold stampedExact
  split <;> exact ⟨rfl, rfl⟩

/-- Saving a record of the generation that is there changes no generation. -/
theorem generation_saveUpload {c : PendingStore} {p : PendingUpload} (env : StoreEnv)
    (h : c.generation p.path = some p.generation) (path : Bytes) :
    (c.saveUpload env p).2.generation path = c.generation path := by
  unfold PendingStore.saveUpload
  rcases happend : c.appendJournal (env.journal 0) (dirtyEntry p) with ⟨_ | err, c'⟩
  · have hpending := pending_of_appendJournal happend
    show ((c'.pending.insert p.path p).lookup path).map _ = _
    rw [hpending, lookup_insert_eq]
    split
    · next hpath =>
      rw [hpath, h]
      rfl
    · rfl
  · show (c'.pending.lookup path).map _ = _
    rw [pending_of_appendJournal happend]
    rfl

/-- The invariant: a record that a retry is about to save is of the generation at its path. -/
structure RetriesOk (s : Retries) : Prop where
  keyed : Keyed s.scheduler.store.pending
  notOlder : NotOlder s
  found : ∀ i p, s.retries i = .found p → s.scheduler.store.generation p.path = some p.generation

variable {s : Retries}

/-- What a call of a retry does: the generations stay, and what it found is there. -/
structure CallOk (s : Scheduler) (r : Retry × Scheduler) : Prop where
  keyed : Keyed r.2.store.pending
  same : ∀ path, r.2.store.generation path = s.store.generation path
  found : ∀ p, r.1 = .found p → s.store.generation p.path = some p.generation

theorem CallOk.of_store_eq {s : Scheduler} {r : Retry × Scheduler} (hkeyed : Keyed s.store.pending)
    (hstore : r.2.store = s.store) (hfound : ∀ p, r.1 ≠ .found p) : CallOk s r where
  keyed := by rwa [hstore]
  same path := by rw [hstore]
  found p hp := absurd hp (hfound p)

theorem generation_removeStagingIfUnreferenced (c : PendingStore) (env : StoreEnv) (localPath path : Bytes) :
    (c.removeStagingIfUnreferenced env localPath).generation path = c.generation path := by
  unfold PendingStore.removeStagingIfUnreferenced
  split
  · rfl
  · simp [generation, removeStaging_pending]

/-- **One call of a retry**, from a state where what it found is still there. -/
theorem callOk_next {s : Scheduler} {r : Retry} (hkeyed : Keyed s.store.pending)
    (hfound : ∀ p, r = .found p → s.store.generation p.path = some p.generation) (call : RetryCall) :
    CallOk s (r.next s call) := by
  have hstay : CallOk s (r, s) := ⟨hkeyed, fun _ => rfl, hfound⟩
  unfold Retry.next
  split
  · split <;> exact .of_store_eq hkeyed rfl fun _ => Retry.noConfusion
  · next id path =>
    split
    · next p hp =>
      refine ⟨hkeyed, fun _ => rfl, fun p' hp' => ?_⟩
      cases hp'
      have hlookup := (Option.filter_eq_some_iff.mp hp).1
      rw [hkeyed path p hlookup, PendingStore.generation, hlookup]
      rfl
    · exact .of_store_eq hkeyed rfl fun _ => Retry.noConfusion
  · next p now env =>
    obtain ⟨hgen, hpath⟩ := retried_generation s.service.delay now p env.now
    have hsame := generation_saveUpload env (hpath.symm ▸ hgen.symm ▸ hfound p rfl)
    have hsaved := hkeyed.saveUpload env (stampedExact (retried s.service.delay now p) env.now)
    dsimp only
    rcases hsave : s.store.saveUpload env (stampedExact (retried s.service.delay now p) env.now) with ⟨_ | err, store⟩
    · rw [hsave] at hsame hsaved
      exact ⟨hsaved, hsame, fun _ => Retry.noConfusion⟩
    · rw [hsave] at hsame hsaved
      exact ⟨hsaved, hsame, fun _ => Retry.noConfusion⟩
  · exact .of_store_eq hkeyed rfl fun _ => Retry.noConfusion
  · exact .of_store_eq hkeyed rfl fun _ => Retry.noConfusion
  · refine .of_store_eq hkeyed rfl fun p => ?_
    dsimp only
    split <;> exact Retry.noConfusion
  · next localPath env =>
    exact ⟨hkeyed.removeStagingIfUnreferenced env localPath,
      generation_removeStagingIfUnreferenced s.store env localPath, fun _ => Retry.noConfusion⟩
  · exact hstay

theorem RetriesOk.step {s' : Retries} {op : RetriesOp} (h : RetriesOk s) (hok : Undisturbed s op)
    (hs : RetriesStep s op s') : RetriesOk s' := by
  subst hs
  cases op with
  | retry i call =>
    obtain ⟨hkeyed, hsame, hfound⟩ := callOk_next h.keyed (fun p => h.found i p) call
    refine ⟨hkeyed, fun path => (hsame path).trans (h.notOlder path), fun j p hj => ?_⟩
    rw [Retries.apply, hsame]
    change update s.retries i _ j = _ at hj
    by_cases hij : j = i
    · rw [hij, update_self] at hj
      exact hfound p hj
    · rw [update_of_ne hij] at hj
      exact h.found j p hj
  | other l =>
    refine ⟨h.keyed.storeAfter l.1, fun path => ?_, fun i p hi => ?_⟩
    · show (l.1.storeAfter s.scheduler.store).generation path = ite _ _ _
      split
      · next heq => exact heq.trans (h.notOlder path)
      · rfl
    · exact (hok i p hi).trans (h.found i p hi)

/-! ## Every run -/

/-- A store that was just opened, and no retry. -/
def Retries.start (service : Service) (store : PendingStore) : Retries :=
  { scheduler := { service := service, store := store }, left := store.generation }

/-- **Retries keep the generations**, as long as no other call changes the generation at a path between the lookup and
the save of its record. -/
theorem retry_keeps_generations {start : StartEnv} {dir : Bytes} {journal : Option Bytes}
    {files : StagingFiles} {store : PendingStore} (service : Service)
    (hstore : newPendingStore start dir journal files = .ok store)
    (hrun : Reaches RetriesStep Undisturbed (Retries.start service store) s) : NotOlder s := by
  have hstart : RetriesOk (Retries.start service store) :=
    ⟨keyed_newPendingStore hstore, fun _ => rfl, fun _ _ => Retry.noConfusion⟩
  exact (hrun.invariant RetriesOk hstart fun _ _ _ h hok hs => h.step hok hs).notOlder

def retriesRun (ops : List RetriesOp) : Retries :=
  ops.foldl Retries.apply (Retries.start {} (((newPendingStore {} (ascii "/d") none ∅).toOption).getD {}))

def storeOp (op : StoreOp) : RetriesOp := .other (.store (.durable op, {}), fun _ => 0)

/-- A file is staged, and a retry has found its record. -/
def lookedUp : List RetriesOp :=
  [storeOp (.saveUpload stagedFile), .retry 0 (.pathOfID stagedFile.fid), .retry 0 .recordOfID]

theorem retry_keeps_generations_saved :
    (retriesRun (lookedUp ++ [.retry 0 (.save 7 {})])).left stagedFile.path ≠ none ∧
      NotOlder (retriesRun (lookedUp ++ [.retry 0 (.save 7 {})])) := by
  have hstore : newPendingStore {} (ascii "/d") none ∅
      = .ok (((newPendingStore {} (ascii "/d") none ∅).toOption).getD {}) := rfl
  refine ⟨by decide +kernel, retry_keeps_generations {} hstore ?_⟩
  refine .head (a := storeOp (.saveUpload stagedFile)) (fun _ _ => Retry.noConfusion) rfl ?_
  refine .head (a := .retry 0 (.pathOfID stagedFile.fid)) trivial rfl ?_
  refine .head (a := .retry 0 .recordOfID) trivial rfl ?_
  exact .head (a := .retry 0 (.save 7 {})) trivial rfl (.refl _)

/-- **A retry brings an older generation back.** -/
theorem retry_restores_old_generation : ¬ NotOlder (retriesRun (lookedUp ++
      [storeOp (.saveUpload { stagedFile with fid := ascii "2", localPath := ascii "/d/staging/2" }),
        .retry 0 (.save 7 {})])) ∧
      ¬ NotOlder (retriesRun (lookedUp ++ [storeOp (.removeUpload stagedFile.path), .retry 0 (.save 7 {})])) := by
  constructor
  · intro h
    exact absurd (h stagedFile.path) (by decide +kernel)
  · intro h
    exact absurd (h stagedFile.path) (by decide +kernel)

end Upload
