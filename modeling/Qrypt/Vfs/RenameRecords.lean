import Qrypt.Upload.Rebase
import Qrypt.Vfs.RenameMove

/-!
# Pending uploads that follow a rename

A rename moves the pending record of a file, and a rename of a directory those of the files below it. Each
record is moved by a transaction of the store, and its upload is scheduled anew.

* `ensures_renamePending`, `ensures_rebasePendingUploads` — the records are moved and wait for their upload
  again, or an error is reported.
-/

namespace Vfs

open Infra Drive Upload List

variable {σ ω α : Type} {raw : Driver σ}

/-! ## The log of a call -/

/-- The actions of a program, with what they met. -/
abbrev Log (σ : Type) := List (Call × Env × Sys σ)

/-- A call failed that the records depend on. -/
inductive Fails (raw : Driver σ) : Call × Env × Sys σ → Prop
  | rename {c : Call × Env × Sys σ} : FailedRename raw c → Fails raw c
  | store {op : StoreOp} {e : Env} {s : Sys σ} {err : Err} :
    (s.store.apply (op, e.store)).1 = some err → Fails raw (.store (.durable op), e, s)
  | parents {e : Env} {s : Sys σ} {err : Err} : e.parents = .error err → Fails raw (.ask .renamedParents, e, s)

/-- While the call ran, uploads were scheduled. -/
def Scheduling (log : Log σ) : Prop := ∀ c ∈ log, c.1 = .ask .schedulingAllowed → c.2.1.running = true

/-- The calls left the backend and the records alone, and none of them failed. -/
structure Quiet (raw : Driver σ) (s : Sys σ) (log : Log σ) (s' : Sys σ) : Prop where
  backend : s'.backend = s.backend
  pending : s'.store.pending = s.store.pending
  calls : ∀ c ∈ log, c.2.2.backend = s.backend ∧ ¬ Fails raw c

def Call.quiet : Call → Bool
  | .ask .renamedParents => false
  | .ask _ | .lock .. | .unlock _ | .vis _ | .hashes _ | .service _ => true
  | .store (.removeStagingIfUnreferenced _) => true
  | _ => false

variable {s s₁ s₂ : Sys σ} {log log₁ log₂ : Log σ} {cond : Call → Env → Sys σ → Prop}

theorem Quiet.refl (s : Sys σ) : Quiet raw s [] s := ⟨rfl, rfl, by simp⟩

theorem Quiet.append (h₁ : Quiet raw s log₁ s₁) (h₂ : Quiet raw s₁ log₂ s₂) : Quiet raw s (log₁ ++ log₂) s₂ where
  backend := h₂.backend.trans h₁.backend
  pending := h₂.pending.trans h₁.pending
  calls := forall_mem_append.mpr ⟨h₁.calls, h₁.backend ▸ h₂.calls⟩

theorem pending_removeStagingIfUnreferenced (c : PendingStore) (env : StoreEnv) (localPath : Bytes) :
    (c.removeStagingIfUnreferenced env localPath).pending = c.pending := by
  unfold PendingStore.removeStagingIfUnreferenced
  split
  · rfl
  · unfold PendingStore.removeStaging
    split <;> rfl

theorem quiet_call {l : Call} (hl : l.quiet = true) (e : Env) (s : Sys σ) :
    Quiet raw s [(l, e, s)] (l.apply raw e s) := by
  have hfails : ¬ Fails raw (l, e, s) := by
    intro hfail
    cases hfail with
    | rename hfail =>
      unfold FailedRename at hfail
      split at hfail
      · next heq =>
        cases heq
        cases hl
      · exact hfail
    | store hfail => cases hl
    | parents hfail => cases hl
  refine ⟨?_, ?_, by simp [hfails]⟩
  · cases l with
    | remote call => cases hl
    | _ => rfl
  · cases l with
    | store call =>
      cases call with
      | removeStagingIfUnreferenced localPath => exact pending_removeStagingIfUnreferenced s.store e.store localPath
      | _ => cases hl
    | file call => cases hl
    | removeUploadState path entry => cases hl
    | _ => rfl

/-! ## The schedule -/

/-- The schedule after some calls: what waited for other paths still waits. -/
structure KeepsTasks (s s' : Sys σ) (paths : Bytes → Prop) : Prop where
  closed : s'.service.closed = s.service.closed
  holds : ∀ p t, s.service.Holds p t → ¬ paths p.path → s'.service.Holds p t

/-- The record waits for its upload, if it may be uploaded and the service is open. -/
def Waits (s : Sys σ) (p : PendingUpload) : Prop :=
  s.service.closed = false → p.frozen = true → p.permanentFail = false → ∃ t, s.service.Holds p t

theorem ensures_enqueue (p : PendingUpload) (s : Sys σ) :
    (enqueue raw p).Ensures cond (fun log _ s' => Quiet raw s log s' ∧ KeepsTasks s s' (· = p.path) ∧ Waits s' p) s := by
  refine Prog.Ensures.bind (ensures_call ?_)
  intro e _
  have hquiet : Quiet raw s [(.service (.enqueue p), e, s)] (Call.apply raw (.service (.enqueue p)) e s) :=
    quiet_call rfl e s
  have hkeeps : KeepsTasks s (Call.apply raw (.service (.enqueue p)) e s) (· = p.path) :=
    ⟨Service.closed_enqueue, fun q t hq hne => hq.enqueue (Ne.symm hne)⟩
  have hwaits : Waits (Call.apply raw (.service (.enqueue p)) e s) p := by
    intro hopen hfrozen hfail
    exact Service.holds_enqueue (hkeeps.closed.symm.trans hopen) hfail
  split
  · next localPath _ =>
    refine ensures_call ?_
    intro e' _
    exact ⟨hquiet.append (quiet_call rfl e' _), ⟨hkeeps.closed, hkeeps.holds⟩, hwaits⟩
  · exact ⟨hquiet, hkeeps, hwaits⟩

theorem ensures_moveSchedule (oldPath : Bytes) (p : PendingUpload) (s : Sys σ) :
    (moveSchedule raw oldPath p).Ensures cond (fun log _ s' => Quiet raw s log s' ∧
      KeepsTasks s s' (fun path => path = cleanVirtualPath oldPath ∨ path = p.path) ∧
      (Scheduling log → Waits s' p)) s := by
  refine Prog.Ensures.bind (ensures_call ?_)
  intro e _
  have hask : Quiet raw s [(.ask .schedulingAllowed, e, s)] s := quiet_call rfl e s
  dsimp only
  split
  · refine Prog.Ensures.bind (ensures_call ?_)
    intro e' _
    set s₁ := Call.apply raw (.service (.cancelUpload oldPath)) e' s with hs₁
    have hcancel : Quiet raw s [(.service (.cancelUpload oldPath), e', s)] s₁ := quiet_call rfl e' s
    have hkeeps : KeepsTasks s s₁ (· = cleanVirtualPath oldPath) :=
      ⟨closed_removeScheduledLocked _ _, fun q t hq hne => hq.removeScheduledLocked (Ne.symm hne)⟩
    split
    · refine (ensures_enqueue p s₁).mono ?_
      rintro log _ s' ⟨hquiet, hkeeps', hwaits⟩
      refine ⟨hask.append (hcancel.append hquiet), ?_, fun _ => hwaits⟩
      constructor
      · exact hkeeps'.closed.trans hkeeps.closed
      · intro q t hq hne
        rw [not_or] at hne
        exact hkeeps'.holds q t (hkeeps.holds q t hq hne.1) hne.2
    · next hfrozen =>
      refine ⟨hask.append hcancel, ⟨hkeeps.closed, ?_⟩, fun _ _ hfrozen' => absurd hfrozen' hfrozen⟩
      intro q t hq hne
      exact hkeeps.holds q t hq fun h => hne (.inl h)
  · next hstopped =>
    refine ⟨hask, ⟨rfl, fun q t hq _ => hq⟩, ?_⟩
    intro hsched
    exact absurd (hsched _ mem_cons_self rfl) hstopped

/-! ## One record -/

/-- Records were moved, as `moved` says, and wait for their upload again; or a call failed, and `left` holds. -/
structure RecordsFollow (raw : Driver σ) (s : Sys σ) (moved : List PendingUpload → PendingMap → Prop)
    (left : PendingMap → Prop) (log : Log σ) (result : Option Err) (s' : Sys σ) : Prop where
  backend : s'.backend = s.backend
  calls : ∀ c ∈ log, c.2.2.backend = s.backend
  outcome : (result = none ∧ (∀ c ∈ log, ¬ Fails raw c) ∧ ∃ next, moved next s'.store.pending ∧
      (Scheduling log → ∀ p ∈ next, Waits s' p)) ∨
    (result.isSome = true ∧ left s'.store.pending ∧ ∃ c ∈ log, Fails raw c)

variable {moved : List PendingUpload → PendingMap → Prop} {left : PendingMap → Prop} {result : Option Err}

theorem Scheduling.of_append_left (h : Scheduling (log₁ ++ log₂)) : Scheduling log₁ :=
  fun c hc => h c (mem_append_left _ hc)

theorem Scheduling.of_append_right (h : Scheduling (log₁ ++ log₂)) : Scheduling log₂ :=
  fun c hc => h c (mem_append_right _ hc)

theorem RecordsFollow.after (h₁ : Quiet raw s log₁ s₁) (h : RecordsFollow raw s₁ moved left log₂ result s₂) :
    RecordsFollow raw s moved left (log₁ ++ log₂) result s₂ where
  backend := h.backend.trans h₁.backend
  calls := forall_mem_append.mpr ⟨fun c hc => (h₁.calls c hc).1, fun c hc => (h.calls c hc).trans h₁.backend⟩
  outcome := by
    refine h.outcome.imp ?_ ?_
    · rintro ⟨hresult, hfine, next, hmoved, hwaits⟩
      refine ⟨hresult, ?_, next, hmoved, ?_⟩
      · exact forall_mem_append.mpr ⟨fun c hc => (h₁.calls c hc).2, hfine⟩
      · intro hsched
        exact hwaits hsched.of_append_right
    · rintro ⟨hresult, hleft, c, hc, hfail⟩
      exact ⟨hresult, hleft, c, mem_append_right _ hc, hfail⟩

theorem RecordsFollow.before (h : RecordsFollow raw s moved left log₁ result s₁) (h₂ : Quiet raw s₁ log₂ s₂)
    (hservice : s₂.service = s₁.service) : RecordsFollow raw s moved left (log₁ ++ log₂) result s₂ where
  backend := h₂.backend.trans h.backend
  calls := forall_mem_append.mpr ⟨h.calls, fun c hc => (h₂.calls c hc).1.trans h.backend⟩
  outcome := by
    refine h.outcome.imp ?_ ?_
    · rintro ⟨hresult, hfine, next, hmoved, hwaits⟩
      refine ⟨hresult, ?_, next, h₂.pending ▸ hmoved, ?_⟩
      · exact forall_mem_append.mpr ⟨hfine, fun c hc => (h₂.calls c hc).2⟩
      · intro hsched p hp
        simpa only [Waits, hservice] using hwaits hsched.of_append_left p hp
    · rintro ⟨hresult, hleft, c, hc, hfail⟩
      exact ⟨hresult, h₂.pending ▸ hleft, c, mem_append_left _ hc, hfail⟩

variable {i : Nat} {path oldPath newPath : Bytes} {op : StoreOp} {e : Env}

theorem ensures_locked {body : VfsProg σ (Option Err)} (hlock : s.locks path = none)
    (h : ∀ e, body.Ensures cond (RecordsFollow raw (Call.apply raw (.lock i path) e s) moved left)
      (Call.apply raw (.lock i path) e s)) :
    (locked raw i path body).Ensures cond (RecordsFollow raw s moved left) s := by
  refine Prog.Ensures.bind ⟨by simp [hlock], ?_⟩
  intro e _
  refine Prog.Ensures.bind (p := body) ((h e).mono ?_)
  intro log result s₁ hfollows
  refine Prog.Ensures.bind (ensures_call ?_)
  intro e' _
  have hlocked : Quiet raw s [(.lock i path, e, s)] (Call.apply raw (.lock i path) e s) := quiet_call rfl e s
  have hbody := (hfollows.after hlocked).before (quiet_call (l := .unlock path) rfl e' s₁) rfl
  simpa using hbody

theorem recordsFollow_failed {err : Err} (h : (s.store.apply (op, e.store)).1 = some err)
    (hleft : left (s.store.apply (op, e.store)).2.pending) :
    RecordsFollow raw s moved left [(.store (.durable op), e, s)] (some err)
      (Call.apply raw (.store (.durable op)) e s) where
  backend := rfl
  calls := by simp
  outcome := .inr ⟨rfl, hleft, _, mem_singleton_self _, .store h⟩

/-- A transaction of the store that was done, and quiet calls that put the records into the schedule. -/
theorem recordsFollow_done {next : List PendingUpload} (h : (s.store.apply (op, e.store)).1 = none)
    (hmoved : moved next (s.store.apply (op, e.store)).2.pending)
    (hquiet : Quiet raw (Call.apply raw (.store (.durable op)) e s) log₁ s₁)
    (hwaits : Scheduling log₁ → ∀ p ∈ next, Waits s₁ p) :
    RecordsFollow raw s moved left ((.store (.durable op), e, s) :: log₁) none s₁ where
  backend := hquiet.backend
  calls := forall_mem_cons.mpr ⟨rfl, fun c hc => (hquiet.calls c hc).1⟩
  outcome := by
    refine .inl ⟨rfl, ?_, next, hquiet.pending ▸ hmoved, ?_⟩
    · intro c hc
      rcases mem_cons.mp hc with rfl | hc
      · intro hfail
        cases hfail with
        | rename hfail => exact hfail
        | store hfail => simp [h] at hfail
      · exact (hquiet.calls c hc).2
    · intro hsched
      exact hwaits fun c hc => hsched c (mem_cons_of_mem _ hc)

/-- The record at `oldPath` became the given one. -/
def OneMoved (s : Sys σ) (oldPath : Bytes) (p : PendingUpload) (next : List PendingUpload) (m : PendingMap) : Prop :=
  next = [p] ∧ PendingStore.Renamed s.store.pending m oldPath p

theorem ensures_renameRecord (oldPath newPath : Bytes) (p : PendingUpload) (s : Sys σ) :
    (renameRecord raw oldPath newPath p).Ensures cond
      (RecordsFollow raw s (OneMoved s oldPath p) (· = s.store.pending)) s := by
  refine Prog.Ensures.bind (ensures_call ?_)
  intro e _
  cases herr : (s.store.apply (.renameUpload oldPath p, e.store)).1 with
  | some err =>
    have hpending : (s.store.apply (.renameUpload oldPath p, e.store)).2.pending = s.store.pending :=
      PendingStore.pending_renameUpload_failed (Prod.ext herr rfl)
    exact recordsFollow_failed herr hpending
  | none =>
    have hmoved : PendingStore.Renamed s.store.pending
        (s.store.apply (.renameUpload oldPath p, e.store)).2.pending oldPath p :=
      PendingStore.renameUpload_done (Prod.ext herr rfl)
    set s₁ := Call.apply raw (.store (.durable (.renameUpload oldPath p))) e s with hs₁
    refine Prog.Ensures.bind (ensures_call ?_)
    intro e' _
    set s₂ := Call.apply raw (.hashes (.renamePath oldPath newPath p)) e' s₁ with hs₂
    have hhashes : Quiet raw s₁ [(.hashes (.renamePath oldPath newPath p), e', s₁)] s₂ := quiet_call rfl e' s₁
    refine Prog.Ensures.bind ((ensures_moveSchedule oldPath p s₂).mono ?_)
    rintro log _ s₃ ⟨hquiet, -, hwaits⟩
    simp only [Prog.ensures_pure, append_nil]
    refine recordsFollow_done herr ⟨rfl, hmoved⟩ (hhashes.append hquiet) ?_
    intro hsched q hq
    rw [mem_singleton.mp hq]
    exact hwaits fun c hc => hsched c (by simp [hc])

/-- **`RenamePending` moves the record and schedules it, or reports an error.** -/
theorem ensures_renamePending {parentID name : Bytes} {p : PendingUpload}
    (hlock : s.locks oldPath = none) (hp : s.store.pending.lookup oldPath = some p) :
    (renamePending raw i oldPath newPath parentID name).Ensures cond
      (RecordsFollow raw s (OneMoved s oldPath (renamedRecord p newPath parentID name)) (· = s.store.pending))
      s := by
  refine ensures_locked hlock ?_
  intro e₀
  set s₁ := Call.apply raw (.lock i oldPath) e₀ s with hs₁
  refine Prog.Ensures.bind (ensures_call ?_)
  intro e₁ _
  have hask : Quiet raw s₁ [(.ask .other, e₁, s₁)] s₁ := quiet_call rfl e₁ s₁
  have hlookup : s₁.store.pending.lookup oldPath = some p := hp
  rw [hlookup]
  refine (ensures_renameRecord oldPath newPath (renamedRecord p newPath parentID name) s₁).mono ?_
  intro log result s₂ hfollow
  exact hfollow.after hask

/-! ## The records below a directory -/

/-- The path of a record below a directory, and the one it gets. -/
structure BelowDir (oldDir newDir : Bytes) (move : PendingUpload → PendingUpload) (p : PendingUpload) : Prop where
  old : oldDir ++ PendingStore.trimStart (move p).path newDir = p.path
  clean : cleanVirtualPath p.path = p.path

theorem ensures_rebaseMoved {oldDir newDir : Bytes} {move : PendingUpload → PendingUpload}
    (targets : List PendingUpload) (hbelow : ∀ p ∈ targets, BelowDir oldDir newDir move p)
    (hapart : targets.Pairwise (PendingStore.Apart move)) (s : Sys σ) :
    (rebaseMoved raw oldDir newDir (targets.map move)).Ensures cond (fun log _ s' => Quiet raw s log s' ∧
      KeepsTasks s s' (fun path => ∃ p ∈ targets, path = p.path ∨ path = (move p).path) ∧
      (Scheduling log → ∀ p ∈ targets, Waits s' (move p))) s := by
  induction targets generalizing s with
  | nil => exact ⟨.refl s, ⟨rfl, fun q t hq _ => hq⟩, by simp⟩
  | cons p targets ih =>
    obtain ⟨hp, hbelow⟩ := forall_mem_cons.mp hbelow
    obtain ⟨hfirst, hapart⟩ := pairwise_cons.mp hapart
    simp only [map_cons, rebaseMoved, hp.old]
    refine Prog.Ensures.bind (ensures_call ?_)
    intro e _
    set s₁ := Call.apply raw (.hashes (.renamePath p.path (move p).path (move p))) e s with hs₁
    have hhashes : Quiet raw s [(.hashes (.renamePath p.path (move p).path (move p)), e, s)] s₁ :=
      quiet_call rfl e s
    refine Prog.Ensures.bind ((ensures_moveSchedule p.path (move p) s₁).mono ?_)
    rintro log _ s₂ ⟨hquiet, hkeeps, hwaits⟩
    refine (ih hbelow hapart s₂).mono ?_
    rintro log' _ s₃ ⟨hquiet', hkeeps', hwaits'⟩
    rw [hp.clean] at hkeeps
    refine ⟨by simpa using hhashes.append (hquiet.append hquiet'), ⟨hkeeps'.closed.trans hkeeps.closed, ?_⟩, ?_⟩
    · intro q t hq hne
      refine hkeeps'.holds q t (hkeeps.holds q t hq ?_) ?_
      · exact fun h => hne ⟨p, mem_cons_self, h⟩
      · rintro ⟨r, hr, hpath⟩
        exact hne ⟨r, mem_cons_of_mem _ hr, hpath⟩
    · intro hsched q hq
      rcases mem_cons.mp hq with rfl | hq
      · -- no later record comes from or goes to the place of the first
        intro hopen hfrozen hfail
        obtain ⟨t, ht⟩ := hwaits (fun c hc => hsched c (by simp [hc])) (hkeeps'.closed ▸ hopen) hfrozen hfail
        refine ⟨t, hkeeps'.holds _ t ht ?_⟩
        rintro ⟨r, hr, hpath | hpath⟩
        · exact (hfirst r hr).1 hpath.symm
        · exact (hfirst r hr).2 hpath.symm
      · exact hwaits' (fun c hc => hsched c (by simp [hc])) q hq

/-- What the records have to be like before a rename. -/
structure Records (m : PendingMap) : Prop where
  keyed : Keyed m
  ids : DistinctIDs m
  clean : ∀ k r, m.lookup k = some r → cleanVirtualPath k = k

/-- The records at or below a path were moved to the matching paths. -/
structure AllMoved (c : PendingStore) (oldPath path : Bytes) (next : List PendingUpload) (m : PendingMap) : Prop where
  ids : DistinctIDs m
  moved : ∀ p ∈ c.rebaseTargets oldPath, ∃ q ∈ next, q.fid = p.fid ∧
    q.path = path ++ p.path.drop oldPath.length ∧ m.lookup q.path = some q

/-- A record could not be moved. -/
structure LeftBehind (c : PendingStore) (oldPath path : Bytes) (m : PendingMap) : Prop where
  ids : DistinctIDs m
  some_left : ∃ p ∈ c.rebaseTargets oldPath, m.lookup p.path = some p
  same : oldPath = path → ∀ p ∈ c.rebaseTargets oldPath, RecordAt m p.path p.fid

theorem Records.leftBehind {c : PendingStore} (h : Records c.pending)
    (hsome : c.rebaseTargets oldPath ≠ []) : LeftBehind c oldPath path c.pending where
  ids := h.ids
  some_left := by
    obtain ⟨p, hp⟩ := exists_mem_of_ne_nil _ hsome
    exact ⟨p, hp, (PendingStore.toMove_rebaseTargets h.keyed oldPath).at_path p hp⟩
  same := by
    intro _ p hp
    exact ⟨p, (PendingStore.toMove_rebaseTargets h.keyed oldPath).at_path p hp, rfl⟩

section Rebase

variable {c c' : PendingStore} {env : StoreEnv} {oldPath newPath : Bytes} {parents : Bytes → Bytes}

section

variable (h : Records c.pending) (hold : cleanVirtualPath oldPath = oldPath)
include h hold

theorem belowDir_rebased {p : PendingUpload} (hp : p ∈ c.rebaseTargets oldPath) :
    BelowDir oldPath newPath (PendingStore.rebased oldPath newPath parents) p ∧
      (PendingStore.rebased oldPath newPath parents p).path = newPath ++ p.path.drop oldPath.length := by
  obtain ⟨hclean, hpath⟩ := PendingStore.path_rebaseTargets h.keyed h.clean hold hp
  have hrest : PendingStore.trimStart p.path oldPath = p.path.drop oldPath.length := by
    conv_lhs => rw [← hpath, PendingStore.trimStart_append]
  have hnext : (PendingStore.rebased oldPath newPath parents p).path = newPath ++ p.path.drop oldPath.length :=
    congrArg (newPath ++ ·) hrest
  refine ⟨⟨?_, hclean⟩, hnext⟩
  rw [hnext, PendingStore.trimStart_append, hpath]

theorem allMoved_rebased (hnew : cleanVirtualPath newPath = newPath) {next : List PendingUpload}
    (hdone : c.rebaseUploadsUnder env oldPath newPath parents = ((next, none), c')) :
    AllMoved c oldPath newPath next c'.pending := by
  obtain ⟨rfl, hrebased⟩ := PendingStore.rebaseUploadsUnder_done h.keyed hold hnew hdone
  constructor
  · have hids : DistinctIDs (c.rebaseUploadsUnder env oldPath newPath parents).2.pending :=
      PendingStore.distinctIDs_rebaseUploadsUnder h.keyed h.ids
    rwa [hdone] at hids
  · intro p hp
    exact ⟨_, mem_map_of_mem hp, rfl, (belowDir_rebased h hold hp).2, hrebased.moved p hp⟩

theorem leftBehind_rebased (hnew : cleanVirtualPath newPath = newPath) {next : List PendingUpload} {err : Err}
    (hfail : c.rebaseUploadsUnder env oldPath newPath parents = ((next, some err), c')) :
    LeftBehind c oldPath newPath c'.pending := by
  constructor
  · have hids : DistinctIDs (c.rebaseUploadsUnder env oldPath newPath parents).2.pending :=
      PendingStore.distinctIDs_rebaseUploadsUnder h.keyed h.ids
    rwa [hfail] at hids
  · exact PendingStore.rebaseUploadsUnder_failed h.keyed hold hnew hfail
  · rintro rfl p hp
    have hrecord : RecordAt c.pending p.path p.fid :=
      ⟨p, (PendingStore.toMove_rebaseTargets h.keyed oldPath).at_path p hp, rfl⟩
    have hsame : RecordAt (c.rebaseUploadsUnder env oldPath oldPath parents).2.pending p.path p.fid :=
      PendingStore.rebaseUploadsUnder_same h.keyed h.clean hold hrecord
    rwa [hfail] at hsame

end

end Rebase

/-- **`RebasePendingUploads` moves the records below the directory and schedules them, or reports an
error.** -/
theorem ensures_rebasePendingUploads (h : Records s.store.pending)
    (hsome : s.store.rebaseTargets oldPath ≠ []) (hold : cleanVirtualPath oldPath = oldPath)
    (hnew : cleanVirtualPath newPath = newPath) :
    (rebasePendingUploads raw oldPath newPath).Ensures cond
      (RecordsFollow raw s (AllMoved s.store oldPath newPath) (LeftBehind s.store oldPath newPath)) s := by
  refine Prog.Ensures.bind (ensures_call ?_)
  intro e₀ _
  dsimp only
  cases hparents : e₀.parents with
  | error err => exact ⟨rfl, by simp, .inr ⟨rfl, h.leftBehind hsome, _, mem_singleton_self _, .parents hparents⟩⟩
  | ok parents =>
    refine Prog.Ensures.bind (ensures_call ?_)
    intro e _
    have hask : Quiet raw s [(.ask .renamedParents, e₀, s)] s := by
      refine ⟨rfl, rfl, ?_⟩
      intro c hc
      rw [mem_singleton.mp hc]
      refine ⟨rfl, ?_⟩
      intro hfail
      cases hfail with
      | rename hfail => exact hfail
      | parents hfail => simp [hparents] at hfail
    have hstate : Call.apply raw (.ask .renamedParents) e₀ s = s := rfl
    rw [hstate]
    set s₁ := Call.apply raw (.store (.durable (.rebaseUploadsUnder oldPath newPath parents))) e s with hs₁
    rcases hrebase : s.store.rebaseUploadsUnder e.store oldPath newPath parents with ⟨⟨next, _ | err⟩, c'⟩
    · have herr := congrArg (·.1.2) hrebase
      have hc' : (s.store.apply (.rebaseUploadsUnder oldPath newPath parents, e.store)).2 = c' :=
        congrArg (·.2) hrebase
      obtain ⟨hnext, hrebased⟩ := PendingStore.rebaseUploadsUnder_done h.keyed hold hnew hrebase
      dsimp only
      rw [hnext]
      refine Prog.Ensures.bind ((ensures_rebaseMoved _ (fun p hp => (belowDir_rebased h hold hp).1)
        hrebased.apart s₁).mono ?_)
      rintro log _ s₂ ⟨hquiet, -, hwaits⟩
      simp only [Prog.ensures_pure, append_nil]
      have hmoved : AllMoved s.store oldPath newPath next
          (s.store.apply (.rebaseUploadsUnder oldPath newPath parents, e.store)).2.pending := by
        rw [hc']
        exact allMoved_rebased h hold hnew hrebase
      refine .after hask (recordsFollow_done herr hmoved hquiet ?_)
      intro hsched p hp
      rw [hnext] at hp
      obtain ⟨q, hq, rfl⟩ := mem_map.mp hp
      exact hwaits hsched q hq
    · have herr := congrArg (·.1.2) hrebase
      have hc' : (s.store.apply (.rebaseUploadsUnder oldPath newPath parents, e.store)).2 = c' :=
        congrArg (·.2) hrebase
      refine RecordsFollow.after hask (recordsFollow_failed herr ?_)
      rw [hc']
      exact leftBehind_rebased h hold hnew hrebase

end Vfs
