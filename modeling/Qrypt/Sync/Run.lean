import Qrypt.Sync.Execute

/-!
# Runs of a sync

`Run` and `resume` of `pkg/syncer/sync.go`, with the hash comparison of `compare.go`.

* `run_world` — a run leaves the world as it was, or makes the root of the destination and executes a plan
-/

namespace Sync

open Infra

/-! ## Hashes -/

/-- `RemoteHashInfo`. -/
structure HashInfo where
  algorithm : Bytes
  hash : Bytes
  verified : Bool
  deriving DecidableEq

/-- An error; `unsupported` if it is one of `ErrUnsupported`. -/
structure HashError where
  text : Bytes
  unsupported : Bool := false
  deriving DecidableEq

/-- What the two sides tell about the hashes of a file. -/
structure HashAnswers where
  remoteA : Except HashError HashInfo
  remoteB : Except HashError HashInfo
  /-- The local file, encrypted as the virtual one is, by the algorithm. -/
  encryptedHash : Bytes → Except HashError Bytes
  /-- `LocalFileHash`. -/
  localHash : Bytes → Except HashError Bytes

/-- A side that cannot tell counts as equal, unless hashes are forced. -/
def degrade (autoHash : Bool) (err : HashError) : Except HashError Bool :=
  if autoHash ∧ err.unsupported then .ok true else .error err

def compareHashPair (a b : Target) (autoHash : Bool) (h : HashAnswers) : Except HashError Bool :=
  if a.kind = .vfs ∧ b.kind = .vfs then
    if a.encrypted ∨ b.encrypted then
      degrade autoHash { text := ascii "hash comparison between encrypted mounts is not supported" }
    else
      match h.remoteA with
      | .error err => degrade autoHash err
      | .ok infoA =>
        match h.remoteB with
        | .error err => degrade autoHash err
        | .ok infoB =>
          if infoA.algorithm ≠ infoB.algorithm then
            degrade autoHash
              ⟨ascii "hash algorithms differ between sides: " ++ infoA.algorithm ++ ascii " vs " ++ infoB.algorithm, false⟩
          else if ¬ infoA.verified ∨ ¬ infoB.verified then .ok false
          else .ok (infoA.hash = infoB.hash)
  else
    let virtual := if a.kind = .vfs then a else b
    match if a.kind = .vfs then h.remoteA else h.remoteB with
    | .error err => degrade autoHash err
    | .ok info =>
      if ¬ info.verified then .ok false
      else
        match if virtual.encrypted then h.encryptedHash info.algorithm else h.localHash info.algorithm with
        | .error err => degrade autoHash err
        | .ok hash => .ok (hash = info.hash)

/-! ## Requests -/

/-- `--compare`. -/
inductive CompareMode where
  | sizeMTime | mtimeOnly | hash
  | other (text : Bytes)
  deriving DecidableEq, Repr

structure Request where
  source : Target
  destination : Target
  dryRun : Bool := false
  delete : Bool := false
  hash : Bool := false
  compareMode : CompareMode := .sizeMTime
  conflict : ConflictPolicy := .error
  resume : Bool := false
  deriving DecidableEq

/-- What `plan.json` and `state.jsonl` hold. -/
structure Saved where
  plan : List PlanEntry
  done : List (TreePath × Action)
  conflict : ConflictPolicy

/-- Everything a run asks for. -/
structure Env where
  mounts : Mounts
  sourceErr : Option Bytes := none
  destErr : Option Bytes := none
  hashes : TreePath → HashAnswers
  sessionErr : Option Bytes := none
  root : OpFault := {}
  faults : Action → TreePath → OpFault
  /-- The errors of `waitIdle`, after the deletions and at the end. -/
  wait : Option Bytes := none
  finalWait : Option Bytes := none

structure Summary where
  adds : Nat := 0
  update : Nat := 0
  delete : Nat := 0
  skip : Nat := 0
  conflict : Nat := 0
  failed : Nat := 0
  bytes : Int := 0
  deriving DecidableEq

def Summary.add (s : Summary) (e : PlanEntry) : Summary :=
  match e.action with
  | .add => { s with adds := s.adds + 1, bytes := s.bytes + e.bytes }
  | .update => { s with update := s.update + 1, bytes := s.bytes + e.bytes }
  | .delete => { s with delete := s.delete + 1 }
  | .skip => { s with skip := s.skip + 1 }
  | .conflict => { s with conflict := s.conflict + 1 }

structure Result where
  ok : Bool := false
  dryRun : Bool := false
  summary : Summary := {}
  entries : List PlanEntry := []

/-- The end of a run: the world, the result with a possible error, and what is saved for the next run. -/
structure Outcome where
  world : World
  result : Result := {}
  err : Option Bytes := none
  saved : Option Saved := none

/-- `SnapshotTarget`; an error that says that nothing is there has no text. -/
def snapshotTarget (w : World) (target : Target) (err : Option Bytes) : Except (Option Bytes) Snapshot :=
  match err with
  | some err => .error (some err)
  | none =>
    match (w.side target.kind).get target.root with
    | some .dir => .ok (snapshot (w.side target.kind) target.root)
    | none => .error none
    | some (.file _) =>
      match target.kind with
      | .vfs => .error (some (ascii "not a directory"))
      | .disk => .ok .empty

def targetSupportsMTime (m : Mounts) (destination : Target) : Bool :=
  match destination.kind with
  | .disk => true
  | .vfs => if m.drivers.any fun d => d.1 = destination.mountName then m.persists destination.mountName else true

instance : LawfulBEq (TreePath × Action) := inferInstance

def transferPending (plan : List PlanEntry) (done : List (TreePath × Action)) : Bool :=
  plan.any fun e => (e.action = .add ∨ e.action = .update ∨ e.action = .delete) ∧ e.key ∉ done

def compareOptions (env : Env) (req : Request) : CompareOptions :=
  let autoHash := !(req.hash || req.compareMode = .hash)
  { skipSize := req.compareMode = .mtimeOnly
    hash := fun p => (compareHashPair req.source req.destination autoHash (env.hashes p)).mapError HashError.text }

def planOptions (env : Env) (req : Request) : PlanOptions :=
  { deleteExtra := req.delete, conflict := req.conflict
    compareMTime := targetSupportsMTime env.mounts req.destination || req.compareMode = .mtimeOnly }

def planOf (env : Env) (req : Request) (w : World) : Except Bytes (List PlanEntry) :=
  match snapshotTarget w req.source env.sourceErr with
  | .error err => .error (err.getD (ascii "not found"))
  | .ok snapA =>
    let snapB : Except Bytes Snapshot :=
      match snapshotTarget w req.destination env.destErr with
      | .error (some err) => .error err
      | .error none => .ok .empty
      | .ok snapB => .ok snapB
    match snapB with
    | .error err => .error err
    | .ok snapB =>
      (compareTrees snapA snapB (compareOptions env req)).map fun diffs => plan diffs snapA snapB (planOptions env req)

/-- The part of `Run` and `resume` that changes the destination, and its result. -/
def execute (env : Env) (req : Request) (w : World) (ops : List PlanEntry) (saved : Saved) (result : Result) : Outcome :=
  let made := mkdir req.destination.kind (w.side req.destination.kind) req.destination.root env.root
  let w := w.set req.destination.kind made.2
  if made.1 = false then
    { world := w, result := result, err := some (ascii "create sync destination: failed"),
      saved := if req.resume then some saved else none }
  else
    let s := executePlan env.mounts req.source req.destination env.faults env.wait.isNone ops
      { world := w, done := saved.done }
    let result := { result with summary := { result.summary with failed := s.failed } }
    let kept : Saved := { saved with done := s.done }
    match env.finalWait with
    | some err => { world := s.world, result := result, err := some err, saved := some kept }
    | none =>
      { world := s.world
        result := { result with
          ok := s.failed = 0 ∧ (result.summary.conflict = 0 ∨ saved.conflict ≠ .error) }
        saved := if transferPending saved.plan s.done then some kept else none }

/-- The checks of `Run`. -/
def refusal (req : Request) : Option Bytes :=
  if req.source.kind = .disk ∧ req.destination.kind = .disk then
    some (ascii "at least one side must be a virtual path (/MOUNT/...): got \"" ++ req.source.raw ++ ascii "\" and \"" ++
      req.destination.raw ++ ascii "\"")
  else
    match req.conflict with
    | .other text => some (ascii "--conflict must be error, skip, or source (got \"" ++ text ++ ascii "\")")
    | _ =>
      match checkContainment req.source req.destination with
      | some err => some err
      | none =>
        match req.resume, req.compareMode with
        | false, .other text =>
          some (ascii "invalid --compare mode \"" ++ text ++ ascii "\" (want size-mtime, mtime-only, or hash)")
        | _, _ => none

/-- `Run` and `resume`; `saved` is what an earlier run of the same pair left. -/
def run (env : Env) (req : Request) (saved : Option Saved) (w : World) : Outcome :=
  match refusal req with
  | some err => { world := w, err := some err, saved := saved }
  | none =>
    if req.resume then
      match saved with
      | none => { world := w, err := some (ascii "sync: no resumable sync session") }
      | some saved =>
        let pending := saved.plan.filter fun e => e.key ∉ saved.done
        execute env req w pending saved { entries := pending, summary := pending.foldl Summary.add {} }
    else
      match planOf env req w with
      | .error err => { world := w, err := some err, saved := saved }
      | .ok plan =>
        let result : Result := { entries := plan, dryRun := req.dryRun, summary := plan.foldl Summary.add {} }
        if req.dryRun then
          { world := w, saved := saved,
            result := { result with ok := result.summary.conflict = 0 ∨ req.conflict ≠ .error } }
        else
          match env.sessionErr with
          | some err => { world := w, err := some err, saved := saved }
          | none => execute env req w plan { plan := plan, done := [], conflict := req.conflict } result

/-! ## The plan of a run, path by path -/

def entryAt (w : World) (target : Target) (p : TreePath) : Option Entry :=
  if p = [] then none else ((w.side target.kind).get (target.root ++ p)).map Entry.ofNode

theorem entryAt_ne {p : TreePath} (h : p ≠ []) (w : World) (target : Target) :
    entryAt w target p = ((w.side target.kind).get (target.root ++ p)).map Entry.ofNode := if_neg h

variable {w : World} {target : Target} {err : Option Bytes} {env : Env} {req : Request}

theorem entryAt_eq_none (h : (w.side target.kind).get target.root ≠ some .dir)
    (p : TreePath) : entryAt w target p = none := by
  unfold entryAt
  split
  · rfl
  · next hp =>
    rw [Option.map_eq_none_iff]
    by_contra hget
    exact h (FileTree.get_of_below hget hp)

theorem entry_snapshotTarget {s : Snapshot}
    (h : snapshotTarget w target err = .ok s) (p : TreePath) : s.entry p = entryAt w target p := by
  unfold snapshotTarget at h
  split at h
  · cases h
  · split at h
    · cases h
      rfl
    · cases h
    · next hfile =>
      split at h
      · cases h
      · cases h
        exact (entryAt_eq_none (by simp [hfile]) p).symm

theorem snapshotTarget_none
    (h : snapshotTarget w target err = .error none) (p : TreePath) : entryAt w target p = none := by
  unfold snapshotTarget at h
  split at h
  · cases h
  · split at h
    · cases h
    · next hnone => exact entryAt_eq_none (by simp [hnone]) p
    · split at h <;> cases h

variable {ops : List PlanEntry}

theorem exists_of_planOf (h : planOf env req w = .ok ops) : ∃ snapA snapB diffs,
      (∀ p, snapA.entry p = entryAt w req.source p) ∧ (∀ p, snapB.entry p = entryAt w req.destination p) ∧
      compareTrees snapA snapB (compareOptions env req) = .ok diffs ∧
      ops = plan diffs snapA snapB (planOptions env req) := by
  unfold planOf at h
  split at h
  · cases h
  next snapA hA =>
  have hdiffs : ∀ snapB, (∀ p, snapB.entry p = entryAt w req.destination p) →
      (compareTrees snapA snapB (compareOptions env req)).map
        (fun diffs => plan diffs snapA snapB (planOptions env req)) = .ok ops →
      ∃ snapA snapB diffs, (∀ p, snapA.entry p = entryAt w req.source p) ∧
        (∀ p, snapB.entry p = entryAt w req.destination p) ∧
        compareTrees snapA snapB (compareOptions env req) = .ok diffs ∧
        ops = plan diffs snapA snapB (planOptions env req) := by
    intro snapB hB hmap
    cases hcompare : compareTrees snapA snapB (compareOptions env req) with
    | error err =>
      rw [hcompare] at hmap
      cases hmap
    | ok diffs =>
      rw [hcompare] at hmap
      exact ⟨snapA, snapB, diffs, entry_snapshotTarget hA, hB, hcompare, (Except.ok.inj hmap).symm⟩
  cases hB : snapshotTarget w req.destination env.destErr with
  | error err =>
    rw [hB] at h
    cases err with
    | some err => cases h
    | none => exact hdiffs .empty (fun p => (snapshotTarget_none hB p).symm) h
  | ok snapB =>
    rw [hB] at h
    exact hdiffs snapB (entry_snapshotTarget hB) h

/-- **The steps of a plan are those of the single paths.** -/
theorem mem_planOf (h : planOf env req w = .ok ops) (e : PlanEntry) : e ∈ ops ↔ ∃ d,
      differAt (compareOptions env req) e.path (entryAt w req.source e.path) (entryAt w req.destination e.path) =
        .ok (some d) ∧
      e ∈ planAt (planOptions env req) (entryAt w req.source e.path) (entryAt w req.destination e.path) d := by
  obtain ⟨snapA, snapB, diffs, hA, hB, hcompare, rfl⟩ := exists_of_planOf h
  simp only [plan, List.mem_flatMap, hA, hB]
  constructor
  · rintro ⟨d, hd, he⟩
    have hdiffer := (mem_compareTrees hcompare d).mp hd
    rw [hA, hB] at hdiffer
    rw [planAt_path he]
    exact ⟨d, hdiffer, he⟩
  · rintro ⟨d, hdiffer, he⟩
    have hpath : d.path = e.path := differAt_path hdiffer
    refine ⟨d, (mem_compareTrees hcompare d).mpr ?_, ?_⟩
    · rw [hA, hB, hpath]
      exact hdiffer
    · rw [hpath]
      exact he

theorem path_ne (h : planOf env req w = .ok ops) {e : PlanEntry} (he : e ∈ ops) : e.path ≠ [] := by
  obtain ⟨d, hd, -⟩ := (mem_planOf h e).mp he
  intro hnil
  rw [hnil] at hd
  cases hd

/-- The comparison of a path does not fail in a run that has a plan. -/
theorem differAt_of_planOf (h : planOf env req w = .ok ops) (p : TreePath) : ∃ d,
      differAt (compareOptions env req) p (entryAt w req.source p) (entryAt w req.destination p) = .ok d := by
  obtain ⟨snapA, snapB, diffs, hA, hB, hcompare, rfl⟩ := exists_of_planOf h
  rw [← hA, ← hB]
  by_cases hp : p ∈ sortedPaths snapA snapB
  · exact differAt_of_compareEach hcompare hp
  · rw [mem_sortedPaths, not_or, not_not, not_not] at hp
    rw [hp.1, hp.2]
    exact ⟨none, rfl⟩

theorem nodup_planOf (h : planOf env req w = .ok ops) : (ops.map PlanEntry.key).Nodup := by
  obtain ⟨snapA, snapB, diffs, -, -, hcompare, rfl⟩ := exists_of_planOf h
  exact nodup_plan (nodup_compareEach (nodup_sortedPaths _ _) hcompare) _ _ _

/-- If the roots are directories and no comparison fails, there is a plan. -/
theorem exists_planOf (hsource : env.sourceErr = none)
    (hdest : env.destErr = none) (hS : (w.side req.source.kind).get req.source.root = some .dir)
    (hD : (w.side req.destination.kind).get req.destination.root = some .dir ∨
      (w.side req.destination.kind).get req.destination.root = none)
    (hdiffer : ∀ p, ∃ d,
      differAt (compareOptions env req) p (entryAt w req.source p) (entryAt w req.destination p) = .ok d) :
    ∃ ops, planOf env req w = .ok ops := by
  have hA : snapshotTarget w req.source env.sourceErr = .ok (snapshot (w.side req.source.kind) req.source.root) := by
    simp only [snapshotTarget, hsource, hS]
  have hentryA := entry_snapshotTarget hA
  have hplan : ∀ snapB : Snapshot, (∀ p, snapB.entry p = entryAt w req.destination p) →
      ∃ ops, (compareTrees (snapshot (w.side req.source.kind) req.source.root) snapB (compareOptions env req)).map
        (fun diffs => plan diffs (snapshot (w.side req.source.kind) req.source.root) snapB (planOptions env req)) =
          .ok ops := by
    intro snapB hB
    have hcompare : ∃ ds, compareTrees (snapshot (w.side req.source.kind) req.source.root) snapB
        (compareOptions env req) = .ok ds := by
      refine exists_compareEach fun p _ => ?_
      rw [hentryA, hB]
      exact hdiffer p
    obtain ⟨ds, hds⟩ := hcompare
    rw [hds]
    exact ⟨_, rfl⟩
  unfold planOf
  rw [hA]
  rcases hD with hD | hD
  · have hB : snapshotTarget w req.destination env.destErr =
        .ok (snapshot (w.side req.destination.kind) req.destination.root) := by
      simp only [snapshotTarget, hdest, hD]
    rw [hB]
    exact hplan _ (entry_snapshotTarget hB)
  · have hB : snapshotTarget w req.destination env.destErr = .error none := by
      simp only [snapshotTarget, hdest, hD]
    rw [hB]
    exact hplan _ fun p => (snapshotTarget_none hB p).symm

/-! ## The world of a run -/

/-- Nothing at or below the source is removed, created or overwritten. -/
def SourceUntouched (req : Request) (w w' : World) : Prop :=
  ∀ q, req.source.root <+: q → (w'.side req.source.kind).get q = (w.side req.source.kind).get q

/-- **What the steps and the creation of the root keep, the execution keeps.** -/
theorem execute_rule {P : World → Prop} {saved : Saved} {result : Result} (hroot : P (w.set req.destination.kind
      (mkdir req.destination.kind (w.side req.destination.kind) req.destination.root env.root).2))
    (hstep : ∀ e ∈ ops, e.Acts → ∀ w, P w →
      P (perform env.mounts req.source req.destination w e (env.faults e.action e.path)).2) :
    P (execute env req w ops saved result).world := by
  unfold execute
  dsimp only
  split
  · exact hroot
  · have hplan : P (executePlan env.mounts req.source req.destination env.faults env.wait.isNone ops
        { world := _, done := saved.done }).world := executePlan_rule hstep hroot
    split <;> exact hplan

/-- **A run leaves the world as it was, or executes a plan.** -/
theorem run_world (env : Env) (req : Request) (saved : Option Saved) (w : World) : (run env req saved w).world = w ∨
      ((req.dryRun = true → req.resume = true) ∧
        ∃ ops saved' result, (run env req saved w).world = (execute env req w ops saved' result).world ∧
          (req.resume = false → planOf env req w = .ok ops)) := by
  unfold run
  split
  · exact .inl rfl
  · split
    · next hresume =>
      split
      · exact .inl rfl
      · exact .inr ⟨fun _ => hresume, _, _, _, rfl, by simp [hresume]⟩
    · split
      · exact .inl rfl
      · next ops hops =>
        split
        · exact .inl rfl
        · next hdry =>
          split
          · exact .inl rfl
          · exact .inr ⟨fun h => absurd h hdry, _, _, _, rfl, fun _ => hops⟩

/-- **A run that reports success has executed a plan of its own without failures.** -/
theorem execute_of_ok {saved : Option Saved} (hresume : req.resume = false)
    (hdry : req.dryRun = false) (hok : (run env req saved w).result.ok = true) :
    refusal req = none ∧ ∃ ops t, planOf env req w = .ok ops ∧
      mkdir req.destination.kind (w.side req.destination.kind) req.destination.root env.root = (true, t) ∧
      ((steps ops).foldl (execStep env.mounts req.source req.destination env.faults)
        { world := w.set req.destination.kind t }).failed = 0 ∧
      (run env req saved w).world = ((steps ops).foldl (execStep env.mounts req.source req.destination env.faults)
          { world := w.set req.destination.kind t }).world ∧
      (run env req saved w).result.summary.conflict = (ops.foldl Summary.add {}).conflict := by
  unfold run at hok ⊢
  split at hok
  · cases hok
  next hrefusal =>
  refine ⟨hrefusal, ?_⟩
  simp only [hresume, Bool.false_eq_true, if_false] at hok ⊢
  cases hplan : planOf env req w with
  | error err =>
    simp [hplan] at hok
  | ok ops =>
    rw [hplan] at hok
    simp only [hdry, Bool.false_eq_true, if_false] at hok ⊢
    cases hsession : env.sessionErr with
    | some err =>
      simp [hsession] at hok
    | none =>
      rw [hsession] at hok
      unfold execute at hok ⊢
      cases hmade : mkdir req.destination.kind (w.side req.destination.kind) req.destination.root env.root with
      | mk made t =>
        cases made with
        | false =>
          simp [hmade] at hok
        | true =>
          simp only [hmade, Bool.true_eq_false, if_false] at hok ⊢
          cases hfinal : env.finalWait with
          | some err =>
            simp [hfinal] at hok
          | none =>
            rw [hfinal] at hok
            simp only [decide_eq_true_eq] at hok
            have hsteps := executePlan_of_failed hok.1
            refine ⟨ops, t, rfl, rfl, ?_, ?_, rfl⟩
            · rw [← hsteps]
              exact hok.1
            · rw [← hsteps]

/-! ## Runs with one step -/

section Single

variable {env : Env} {req : Request} {w : World} {t : FileTree FileData}

theorem execute_world
    (hroot : mkdir req.destination.kind (w.side req.destination.kind) req.destination.root env.root = (true, t))
    (ops : List PlanEntry) (saved : Saved) (result : Result) :
    (execute env req w ops saved result).world =
      (executePlan env.mounts req.source req.destination env.faults env.wait.isNone ops
        { world := w.set req.destination.kind t, done := saved.done }).world := by
  unfold execute
  rw [hroot]
  rw [if_neg (by simp)]
  split <;> rfl

section

variable (hrefusal : refusal req = none) (hexec : req.dryRun = true → req.resume = true)
  (hsession : env.sessionErr = none)
include hrefusal hexec hsession

/-- An accepted run that is no dry one executes the saved plan or a new one. -/
theorem exists_run_world {ops : List PlanEntry} (hplan : req.resume = false → planOf env req w = .ok ops) :
    ∃ saved ops' saved' result, (run env req saved w).world = (execute env req w ops' saved' result).world ∧
      saved'.done = [] ∧ ops' = ops := by
  cases hresume : req.resume with
  | true =>
    refine ⟨some { plan := ops, done := [], conflict := .error }, ops, { plan := ops, done := [], conflict := .error },
      { entries := ops, summary := ops.foldl Summary.add {} }, ?_, rfl, rfl⟩
    simp [run, hrefusal, hresume]
  | false =>
    have hdry : req.dryRun = false := by
      cases hd : req.dryRun with
      | false => rfl
      | true => simp [hexec hd] at hresume
    refine ⟨none, ops, { plan := ops, done := [], conflict := req.conflict },
      { entries := ops, dryRun := req.dryRun, summary := ops.foldl Summary.add {} }, ?_, rfl, rfl⟩
    simp [run, hrefusal, hresume, hplan hresume, hdry, hsession]

theorem exists_run_quiet (hfaults : env.faults = fun _ _ => .quiet)
    (hroot : mkdir req.destination.kind (w.side req.destination.kind) req.destination.root env.root = (true, t))
    {ops : List PlanEntry} (hplan : req.resume = false → planOf env req w = .ok ops) :
    ∃ saved, (run env req saved w).world = w.set req.destination.kind t := by
  obtain ⟨saved, ops', saved', result, hrun, -, -⟩ := exists_run_world hrefusal hexec hsession hplan
  refine ⟨saved, ?_⟩
  rw [hrun, execute_world hroot]
  refine executePlan_rule (P := fun w' => w' = w.set req.destination.kind t) ?_ rfl
  intro e _ hact w' hw'
  rwa [hfaults, perform_quiet w' hact]

/-- If all other steps fail quietly, a run makes the root and takes one step. -/
theorem exists_run_only (hwait : env.wait = none) {e : PlanEntry}
    (hact : e.Acts) (hfaults : env.faults = onlyStep e)
    (hroot : mkdir req.destination.kind (w.side req.destination.kind) req.destination.root env.root = (true, t))
    (hplan : req.resume = false → ∃ ops, planOf env req w = .ok ops ∧ e ∈ ops) :
    ∃ saved, (run env req saved w).world =
      (perform env.mounts req.source req.destination (w.set req.destination.kind t) e {}).2 := by
  have hops : ∃ ops : List PlanEntry, (req.resume = false → planOf env req w = .ok ops) ∧ e ∈ ops ∧
      (ops.map PlanEntry.key).Nodup := by
    cases hresume : req.resume with
    | true => exact ⟨[e], by simp, by simp, by simp⟩
    | false =>
      obtain ⟨ops, hops, he⟩ := hplan hresume
      exact ⟨ops, fun _ => hops, he, nodup_planOf hops⟩
  obtain ⟨ops, hplan', he, hnodup⟩ := hops
  obtain ⟨saved, ops', saved', result, hrun, hdone, rfl⟩ := exists_run_world hrefusal hexec hsession hplan'
  refine ⟨saved, ?_⟩
  rw [hrun, execute_world hroot, hwait, hdone, hfaults]
  rw [Option.isNone_none, executePlan_only hnodup he hact (fun e' _ hkey => if_neg hkey)]
  simp [onlyStep, PlanEntry.key]

end

end Single

end Sync
