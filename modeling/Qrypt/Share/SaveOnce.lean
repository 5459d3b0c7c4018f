import Qrypt.Share.Runner

/-!
# A finished save is not submitted again

`pkg/core/share_runner.go`, `share_fetch.go`. Whether a run submits the entries is decided from the phase, the handle,
the state and the saved entries, which are journaled in several steps.

* `saved_once` — after a complete outcome with a saved entry was journaled, no run submits the entries again
-/

namespace Share

open Infra

def SaveOutcome.isSealed (o : SaveOutcome) : Bool :=
  o.state.complete && (shareSavedEntries o).any fun s => s.errorCode = []

variable {o : SaveOutcome}

theorem SaveOutcome.complete_of_isSealed (h : o.isSealed = true) : o.state.complete = true :=
  (Bool.and_eq_true_iff.mp h).1

/-- An outcome is still complete after it was matched with the selection. -/
theorem complete_reconcileShareOutcome (h : o.state.complete = true) (entries : List Entry) :
    (reconcileShareOutcome o entries).state.complete = true := by
  unfold reconcileShareOutcome
  split
  · exact h
  · dsimp only
    split_ifs
    · rfl
    · rfl
    · rfl

/-! ## Conditions -/

/-- Some entry stays saved when the outcome is matched with the selection. -/
def SaveOutcome.Matched (o : SaveOutcome) (entries : List Entry) : Prop :=
  o.isSealed = true → (shareSavedEntries (reconcileShareOutcome o entries)).any (fun s => s.errorCode = []) = true

/-- The provider's promise: outcomes without a handle are about the selected entries, and the handle of a complete save
stays known. -/
def Promised : Call → Answers → World → Prop
  | .saveShareEntries entries, e, _ => ∀ o, e.save = .ok o → o.handle = [] → o.Matched entries
  | .getShareSave handle entries, e, w =>
    (∀ o, e.getSave = .ok o → handle = [] → o.Matched entries) ∧
      (w.sealed = true → ∀ err, e.getSave = .error err → err.shareNotFound = false)
  | _, _, _ => True

def Detail.betweenWrites (d : Detail) : Bool := d.isSealed && d.phase = .save && d.saveHandle = []

/-- The states in which a run may start. -/
def MayStart (fetch : Bool) (_ : Config) (w : World) : Prop := fetch = false → w.detail.betweenWrites = false

/-! ## The invariant -/

/-- The next run of the task will find the save. -/
def Detail.Settled (fetch : Bool) (d : Detail) : Prop :=
  d.saveHandle ≠ [] ∨ d.isSealed = true ∧ (fetch = true ∨ d.phase = .save ∨ d.phase = .verify ∨ d.phase = .complete)

/-- What holds between any two calls. -/
structure SavedOnce (fetch : Bool) (w : World) : Prop where
  once : w.again = false
  noted : w.detail.isSealed = true → w.sealed = true
  settled : w.sealed = true → w.detail.Settled fetch

/-- The program keeps the save, and its result meets `Q`. -/
abbrev Saves {α : Type} (fetch : Bool) (Q : α → World → Prop) (p : ShareProg (Except RunError α)) (w : World) : Prop :=
  p.Keeps (SavedOnce fetch) Promised (Prog.Ok Q) w

/-- A detail that is about to be journaled still shows the save that was journaled. -/
def Kept (d : Detail) (w : World) : Prop := w.sealed = true → d.saveHandle ≠ [] ∨ d.isSealed = true

variable {fetch : Bool} {cfg : Config} {w : World} {d : Detail} {entries : List Entry}

theorem SavedOnce.persisted (h : SavedOnce fetch w) (hd : (w.persisted d).sealed = true → d.Settled fetch) :
    SavedOnce fetch (w.persisted d) where
  once := h.once
  noted := fun hs => Bool.or_eq_true_iff.mpr (.inr hs)
  settled := hd

/-- The save is found in a phase of the save task, and in any phase of a fetch. -/
theorem Kept.settled (h : Kept d w)
    (hphase : fetch = true ∨ d.phase = .save ∨ d.phase = .verify ∨ d.phase = .complete)
    (hs : (w.persisted d).sealed = true) : d.Settled fetch := by
  rcases Bool.or_eq_true_iff.mp hs with hs | hs
  · exact (h hs).imp_right fun hd => ⟨hd, hphase⟩
  · exact .inr ⟨hs, hphase⟩

theorem Kept.persisted (h : Kept d w) : Kept d (w.persisted d) :=
  fun hs => (Bool.or_eq_true_iff.mp hs).elim h .inr

/-- A detail that has a handle, or shows a save only if one was journaled. -/
theorem kept_of_handle (h : d.saveHandle ≠ []) : Kept d w := fun _ => .inl h

theorem kept_of_not_sealed (h : w.sealed = false) : Kept d w := fun hs => absurd hs (by simp [h])

/-- `persist` of a detail that shows the save, then the rest. -/
theorem keeps_kept_then {β : Type} {R : β → World → Prop} {k : Unit → ShareProg (Except RunError β)}
    (hw : SavedOnce fetch w) (hd : Kept d w)
    (hphase : fetch = true ∨ d.phase = .save ∨ d.phase = .verify ∨ d.phase = .complete)
    (hk : SavedOnce fetch (w.persisted d) → Kept d (w.persisted d) →
      Saves fetch R (k ()) (w.persisted d)) : Saves fetch R ((persist d).tryBind k) w :=
  keeps_persist_then hw (hk (hw.persisted (hd.settled hphase)) hd.persisted)

/-! ## Saving -/

/-- The outcome that `saveSelected` goes on with still has a saved entry when it is matched with the selection. -/
def Submitted (fetch : Bool) (entries : List Entry) (handle : Bytes) (out : SaveOutcome × Detail) (w : World) : Prop :=
  out.2.saveHandle = handle ∧ (fetch = true ∨ out.2.phase = .save) ∧
    (w.sealed = true → handle ≠ [] ∨ (reconcileShareOutcome out.1 entries).isSealed = true)

theorem isSealed_reconcile (h : o.Matched entries) (ho : o.isSealed = true) :
    (reconcileShareOutcome o entries).isSealed = true :=
  Bool.and_eq_true_iff.mpr ⟨complete_reconcileShareOutcome (SaveOutcome.complete_of_isSealed ho) entries, h ho⟩

theorem keeps_pollSave {handle : Bytes} {polls : Nat} (hw : SavedOnce fetch w) (hhandle : d.saveHandle = handle)
    (hphase : fetch = true ∨ d.phase = .save) (hs : w.sealed = true → handle ≠ []) :
    Saves fetch (Submitted fetch entries handle) (pollSave cfg handle entries polls d) w := by
  induction polls generalizing d w with
  | zero => exact ⟨hw, trivial⟩
  | succ polls ih =>
    refine .ite (fun _ => ⟨hw, trivial⟩) fun _ => ?_
    refine keeps_quiet_then rfl hw fun e o hcond ho => ?_
    have hget : e.getSave = .ok o := by
      by_cases hint : e.interrupted = true
      · simp [if_pos hint] at ho
      · rwa [if_neg hint] at ho
    have hd : Kept (d.recordOutcome o) w := fun h => .inl (hhandle.trans_ne (hs h))
    refine keeps_kept_then hw hd (hphase.imp_right .inl) fun hw' _ => ?_
    refine .ite (fun _ => ?_) fun hcomplete => ?_
    · refine ⟨hw', hhandle, hphase, fun hs' => ?_⟩
      by_cases hempty : handle = []
      · -- nothing was journaled before, so it is this outcome that was journaled
        have ho : o.isSealed = true :=
          (Bool.or_eq_true_iff.mp hs').resolve_left fun h => hs h hempty
        exact .inr (isSealed_reconcile (hcond.1 o hget hempty) ho)
      · exact .inl hempty
    · refine ih hw' hhandle hphase fun hs' => ?_
      refine hs ((Bool.or_eq_true_iff.mp hs').resolve_right fun h => hcomplete ?_)
      exact SaveOutcome.complete_of_isSealed h

theorem keeps_awaitSave (hw : SavedOnce fetch w) (hphase : fetch = true ∨ d.phase = .save)
    (hs : w.sealed = true →
      d.saveHandle ≠ [] ∨ o.state.complete = true ∧ (reconcileShareOutcome o entries).isSealed = true) :
    Saves fetch (Submitted fetch entries d.saveHandle) (awaitSave cfg d entries o) w := by
  refine .ite (fun _ => ?_) fun hcomplete => ?_
  · exact ⟨hw, rfl, hphase, fun h => (hs h).imp_right And.right⟩
  · exact keeps_pollSave hw rfl hphase fun h => (hs h).resolve_right fun hc => hcomplete hc.1

/-- What a save ends with: recorded, it shows the save. -/
def Recorded (out : SaveOutcome × Detail) (w : World) : Prop := Kept (out.2.recordOutcome out.1) w

theorem keeps_saveSelected (hw : SavedOnce fetch w) (hphase : fetch = true ∨ d.phase = .save)
    (hs : w.sealed = false) (hd : d.isSealed = false) : Saves fetch Recorded (saveSelected cfg d entries) w := by
  refine .ite (fun _ => ⟨hw, trivial⟩) fun _ => ?_
  refine keeps_kept_then hw (kept_of_not_sealed hs) (hphase.imp_right .inl) fun hw' _ => ?_
  have hs' : (w.persisted { d with selectedEntries := entries }).sealed = false :=
    Bool.or_eq_false_iff.mpr ⟨hs, hd⟩
  refine keeps_check_then rfl hw' ?_
  generalize w.persisted { d with selectedEntries := entries } = v at hw' hs'
  have hv (e : Answers) : World.apply (.saveShareEntries entries) e v = v := by
    obtain ⟨dv, fv, sv, av, rv⟩ := v
    obtain rfl : sv = false := hs'
    simp [World.apply]
  -- the submission itself: nothing complete was journaled so far
  refine Prog.Keeps.perform_tryBind hw' (fun e _ => by rwa [hv]) fun e o hcond hsave => ?_
  rw [hv]
  refine keeps_kept_then hw' (kept_of_not_sealed hs') (hphase.imp_right .inl) fun hw'' _ => ?_
  refine .tryBind (keeps_awaitSave hw'' ?_ fun h => ?_) fun out u hu hout => ?_
  · exact hphase
  · have ho : o.isSealed = true := (Bool.or_eq_true_iff.mp h).resolve_left (by simp [hs'])
    by_cases hempty : o.handle = []
    · exact .inr ⟨SaveOutcome.complete_of_isSealed ho, isSealed_reconcile (hcond o hsave hempty) ho⟩
    · exact .inl hempty
  · obtain ⟨hhandle, -, hsub⟩ := hout
    have hk : Kept (out.2.recordOutcome (reconcileShareOutcome out.1 entries)) u :=
      fun h => (hsub h).imp_left hhandle.trans_ne
    exact keeps_kept_then hu hk (.inr (.inr (.inl rfl))) fun hu' hk' => ⟨hu', hk'⟩

/-- What `resumeSelection` and `resumeSave` are given: a handle, and a detail that shows no more than the journal. -/
def Shown (d : Detail) (w : World) : Prop := d.isSealed = true → w.sealed = true

theorem Shown.persisted (d : Detail) (w : World) : Shown d (w.persisted d) := fun h => Bool.or_eq_true_iff.mpr (.inr h)

section

variable (hw : SavedOnce fetch w)
include hw

/-- `persist` of a detail that has a handle. -/
theorem keeps_handle_then {β : Type} {R : β → World → Prop} {k : Unit → ShareProg (Except RunError β)}
    (hh : d.saveHandle ≠ [])
    (hk : SavedOnce fetch (w.persisted d) → Saves fetch R (k ()) (w.persisted d)) :
    Saves fetch R ((persist d).tryBind k) w :=
  keeps_persist_then hw (hk (hw.persisted fun _ => .inl hh))

theorem keeps_resumeSelection (hh : d.saveHandle ≠ []) (hd : Shown d w) :
    Saves fetch (fun out w => out.2.saveHandle ≠ [] ∧ Shown out.2 w) (resumeSelection d) w := by
  refine .ite (fun _ => ?_) fun _ => ?_
  · exact ⟨hw, hh, hd⟩
  · refine keeps_check_then rfl hw (keeps_quiet_then rfl hw fun e entries _ _ => ?_)
    exact keeps_handle_then hw hh fun hw' => ⟨hw', hh, Shown.persisted _ w⟩

/-- What `resumeSave` ends with. -/
def Resumed (fetch : Bool) : Option SaveOutcome × Detail → World → Prop
  | (some _, d), _ => d.saveHandle ≠ []
  | (none, d), w => (fetch = true ∨ d.phase = .save) ∧ w.sealed = false ∧ d.isSealed = false

theorem keeps_resumeSave (hphase : fetch = true ∨ d.phase = .save)
    (hh : d.saveHandle ≠ []) (hd : Shown d w) : Saves fetch (Resumed fetch) (resumeSave cfg d entries) w := by
  refine .ite (fun _ => ⟨hw, trivial⟩) fun _ => ?_
  have hcall : (call (.getShareSave d.saveHandle entries) Answers.getSave).Keeps (SavedOnce fetch) Promised
      (fun x w' => w' = w ∧ ∃ e, Promised (.getShareSave d.saveHandle entries) e w ∧ e.getSave = x) w :=
    .perform hw fun e hcond => ⟨hw, rfl, e, hcond, rfl⟩
  refine hcall.bind fun x w' _ hx => ?_
  obtain ⟨hsame, e, hcond, hget⟩ := hx
  rw [hsame]
  cases x with
  | error err =>
    refine .ite (fun hgone => ?_) fun _ => ?_
    · -- the provider does not know the handle, so no complete outcome was journaled
      have hs : w.sealed = false := by
        by_contra h
        have := hcond.2 (by simpa using h) err hget
        simp [this] at hgone
      have hns : d.isSealed = false := by
        by_contra h
        have := hd (by simpa using h)
        simp [hs] at this
      refine keeps_kept_then hw (kept_of_not_sealed hs) (hphase.imp_right .inl) fun hw' _ => ?_
      exact ⟨hw', hphase, Bool.or_eq_false_iff.mpr ⟨hs, hns⟩, hns⟩
    · exact ⟨hw, trivial⟩
  | ok o =>
    refine (keeps_awaitSave hw hphase fun _ => .inl hh).tryBind fun out u hu hout => ?_
    exact ⟨hu, hout.1.trans_ne hh⟩

theorem keeps_resumeOrSave (hphase : fetch = true ∨ d.phase = .save)
    (hh : d.saveHandle ≠ []) (hd : Shown d w) : Saves fetch Recorded (resumeOrSave cfg d entries) w := by
  refine (keeps_resumeSave hw hphase hh hd).tryBind fun out u hu hout => ?_
  obtain ⟨_ | o, d'⟩ := out
  · obtain ⟨hphase', hs, hns⟩ := hout
    exact keeps_check_then rfl hu (keeps_saveSelected hu hphase' hs hns)
  · exact ⟨hu, kept_of_handle hout⟩

/-! ## Save tasks -/

theorem keeps_finishSave {out : SaveOutcome × Detail} (hout : Recorded out w) :
    Saves fetch (fun _ _ => True) (finishSave out.2 out.1) w := by
  refine .ite (fun _ => ?_) fun _ => ?_
  · exact keeps_kept_then hw hout (.inr (.inr (.inr rfl))) fun hw' _ => ⟨hw', trivial⟩
  · refine keeps_kept_then hw hout (.inr (.inr (.inl rfl))) fun hw' hout' => ?_
    refine keeps_quiet_then rfl hw' fun e verified _ _ => ?_
    refine keeps_kept_then hw' hout' (.inr (.inr (.inr rfl))) fun hw'' _ => ?_
    exact .ite (fun _ => ⟨hw'', trivial⟩) fun _ => ⟨hw'', trivial⟩

theorem keeps_finishFromDetail (hd : Kept d w) : Saves fetch (fun _ _ => True) (finishFromDetail d) w := by
  refine keeps_kept_then hw hd (.inr (.inr (.inr rfl))) fun hw' _ => ?_
  exact .ite (fun _ => ⟨hw', trivial⟩) fun _ => ⟨hw', trivial⟩

end

section Started

variable (d : Detail)

theorem Detail.saveHandle_started : d.started.saveHandle = d.saveHandle := by
  unfold Detail.started
  split_ifs
  · rfl
  · rfl

theorem Detail.isSealed_started : d.started.isSealed = d.isSealed := by
  unfold Detail.started
  split_ifs
  · rfl
  · rfl

theorem Detail.canResumeVerification_started : d.started.canResumeVerification = d.canResumeVerification := by
  unfold Detail.started
  split_ifs with h
  · simp [Detail.canResumeVerification, h]
  · rfl

end Started

theorem SavedOnce.resumes (hw : SavedOnce false w) (hstart : w.detail.betweenWrites = false) (hs : w.sealed = true) :
    w.detail.saveHandle ≠ [] ∨ w.detail.canResumeVerification = true := by
  by_cases hh : w.detail.saveHandle = []
  · obtain ⟨hsealed, hphase⟩ := (hw.settled hs).resolve_left (not_not_intro hh)
    have hsaved : w.detail.hasSaved = true := (Bool.and_eq_true_iff.mp hsealed).2
    rcases hphase with hphase | hphase | hphase
    · cases hphase
    · simp [Detail.betweenWrites, hsealed, hphase, hh] at hstart
    · simp [Detail.canResumeVerification, hphase, hsaved]
  · exact .inl hh

theorem keeps_runSave (hw : SavedOnce false w) (hstart : w.detail.betweenWrites = false) :
    Saves false (fun _ _ => True) (runSave cfg w.detail) w := by
  have hfound := hw.resumes hstart
  have hshown : Shown w.detail w := hw.noted
  have hkept : Kept w.detail w := fun hs => (hw.settled hs).imp_right And.left
  rw [← Detail.saveHandle_started, ← Detail.canResumeVerification_started] at hfound
  rw [Shown, ← Detail.isSealed_started] at hshown
  rw [Kept, ← Detail.isSealed_started, ← Detail.saveHandle_started] at hkept
  refine .ite (fun _ => ⟨hw, trivial⟩) fun _ => ?_
  generalize w.detail.started = d at *
  refine .ite (fun hresume => ?_) fun hresume => .ite (fun hh => ?_) fun hh => ?_
  · -- only the verification is outstanding
    have hp : d.phase = .verify ∨ d.phase = .complete := by
      simp only [Detail.canResumeVerification, decide_eq_true_eq] at hresume
      exact hresume.1
    refine keeps_quiet_then rfl hw fun e verified _ _ => .ite (fun _ => ?_) fun _ => ?_
    · exact keeps_finishFromDetail hw hkept
    · exact keeps_kept_then hw hkept (.inr (.inr hp)) fun hw' _ => ⟨hw', trivial⟩
  · -- the handle is looked up
    refine (keeps_resumeSelection hw hh hshown).tryBind fun out u hu hout => ?_
    refine keeps_handle_then hu hout.1 fun hu' => ?_
    refine .tryBind (keeps_resumeOrSave hu' ?_ hout.1 (Shown.persisted _ u)) fun out v hv hout => ?_
    · exact .inr rfl
    · exact keeps_finishSave hv hout
  · -- nothing was journaled yet
    have hs : w.sealed = false := Bool.eq_false_iff.mpr fun hs => (hfound hs).elim hh hresume
    have hns : d.isSealed = false := Bool.eq_false_iff.mpr fun h => Bool.eq_false_iff.mp hs (hshown h)
    refine keeps_check_then rfl hw ?_
    refine keeps_kept_then hw (kept_of_not_sealed hs) (.inr (.inl rfl)) fun hw' _ => ?_
    refine keeps_quiet_then rfl hw' fun e entries _ _ => ?_
    refine .tryBind (keeps_saveSelected hw' ?_ ?_ hns) fun out v hv hout => ?_
    · exact .inr rfl
    · exact Bool.or_eq_false_iff.mpr ⟨hs, hns⟩
    · exact keeps_finishSave hv hout

/-! ## Fetch tasks -/

section

variable (hw : SavedOnce true w)
include hw

theorem keeps_fetchSave (hshown : Shown d w) (hs : d.saveHandle = [] → w.sealed = false) :
    Saves true Recorded (fetchSave cfg d) w := by
  refine .ite (fun hh => ?_) fun hh => ?_
  · refine (keeps_resumeSelection hw hh hshown).tryBind fun out u hu hout => ?_
    exact keeps_resumeOrSave hu (.inl rfl) hout.1 hout.2
  · have hs := hs (not_not.mp hh)
    have hns : d.isSealed = false := Bool.eq_false_iff.mpr fun h => Bool.eq_false_iff.mp hs (hshown h)
    refine keeps_check_then rfl hw (keeps_quiet_then rfl hw fun e entries _ _ => ?_)
    exact keeps_saveSelected hw (.inl rfl) hs hns

theorem keeps_fetchSavePhase (hshown : Shown d w)
    (hs : d.saveHandle = [] → w.sealed = false) : Saves true Kept (fetchSavePhase cfg d) w := by
  refine (keeps_fetchSave hw hshown hs).tryBind fun out u hu hout => ?_
  refine keeps_kept_then hu hout (.inl rfl) fun hu' hk => .ite (fun _ => ?_) fun _ => ?_
  · exact keeps_kept_then hu' hk (.inl rfl) fun hv _ => ⟨hv, trivial⟩
  · refine keeps_quiet_then rfl hu' fun e verified _ _ => .ite (fun _ => ?_) fun _ => ?_
    · exact ⟨hu', hk⟩
    · exact ⟨hu', trivial⟩

theorem keeps_downloadLoop {dest : Destination} {earlier results : List SavedEntry} {targets : List Target}
    (hd : Kept d w) : Saves true Kept (downloadLoop dest earlier targets results d) w := by
  induction targets generalizing results d w with
  | nil => exact ⟨hw, hd⟩
  | cons t ts ih =>
    unfold downloadLoop
    cases completed earlier t with
    | some entry => exact ih hw hd
    | none =>
      have hcall : (call (.transfer t (dest.file t.name)) fun e => transferTarget t e.transfer).Keeps
          (SavedOnce true) Promised (fun _ w' => w'.sealed = w.sealed) w :=
        .perform hw fun e _ => ⟨⟨hw.once, hw.noted, hw.settled⟩, rfl⟩
      refine hcall.bind fun x u hu hsame => ?_
      have hd' : Kept d u := fun h => hd (hsame ▸ h)
      rcases x with ⟨written, err⟩ | ⟨written, bytes⟩
      · exact keeps_kept_then hu hd' (.inl rfl) fun hv _ => ⟨hv, trivial⟩
      · exact keeps_kept_then hu hd' (.inl rfl) fun hv hk => ih hv hk

theorem keeps_listTargets {fromSave : Bool} (hd : Kept d w) :
    Saves true (fun _ w => Kept d w) (listTargets cfg d fromSave) w := by
  have hret (x : Except RunError (List Target)) : Saves true (fun _ w => Kept d w) (Prog.ret x : ShareProg _) w := by
    cases x with
    | error err => exact ⟨hw, trivial⟩
    | ok targets => exact ⟨hw, hd⟩
  refine .ite (fun _ => hret _) fun _ => .ite (fun _ => hret _) fun _ => ?_
  refine keeps_check_then rfl hw (keeps_quiet_then rfl hw fun e entries _ _ => ?_)
  exact keeps_quiet_then rfl hw fun e downloads _ _ => hret _

theorem keeps_runDownload {fromSave : Bool} (hd : Kept d w) : Saves true Kept (runDownload cfg d fromSave) w := by
  refine (keeps_listTargets hw hd).tryBind fun targets u hu hk => ?_
  cases cfg.destination with
  | none => exact ⟨hu, trivial⟩
  | some dest =>
    refine keeps_check_then rfl hu (.ite (fun _ => ⟨hu, trivial⟩) fun _ => ?_)
    exact keeps_downloadLoop hu hk

theorem keeps_cleanupLoop {saved : List SavedEntry} (hd : Kept d w) :
    Saves true (fun _ w => Kept d w) (cleanupLoop saved) w := by
  induction saved generalizing w with
  | nil => exact ⟨hw, hd⟩
  | cons s rest ih =>
    refine .ite (fun _ => ih hw hd) fun _ => ?_
    have hw' (e : Answers) : SavedOnce true (w.apply (.remove s) e) := ⟨hw.once, hw.noted, hw.settled⟩
    exact .perform_tryBind hw (fun e _ => hw' e) fun e _ _ _ => ih (hw' e) hd

theorem keeps_finishFetch (hd : Kept d w) : Saves true (fun _ _ => True) (finishFetch d) w := by
  refine keeps_kept_then hw hd (.inl rfl) fun hw' _ => ?_
  exact .ite (fun _ => ⟨hw', trivial⟩) fun _ => ⟨hw', trivial⟩

theorem keeps_fetchSaved (hd : Kept d w) : Saves true (fun _ _ => True) (fetchSaved cfg d) w := by
  have henter : Saves true Kept (enterDownload d) w := by
    refine .ite (fun _ => ?_) fun _ => ⟨hw, hd⟩
    exact keeps_kept_then hw hd (.inl rfl) fun hw' hk => ⟨hw', hk⟩
  refine henter.tryBind fun d u hu hd => ?_
  have hdownload : Saves true Kept (download cfg d) u := by
    refine .ite (fun _ => ?_) fun _ => ⟨hu, hd⟩
    refine (keeps_runDownload hu hd).tryBind fun d v hv hd => ?_
    exact keeps_kept_then hv hd (.inl rfl) fun hv' hk => ⟨hv', hk⟩
  refine hdownload.tryBind fun d v hv hd => ?_
  refine .tryBind (Q := fun _ w => Kept d w) ?_ fun _ x hx hd => keeps_finishFetch hx hd
  refine .ite (fun _ => .ite (fun _ => ⟨hv, hd⟩) fun _ => ?_) fun _ => ⟨hv, hd⟩
  exact keeps_cleanupLoop hv hd

theorem keeps_runFetch : Saves true (fun _ _ => True) (runFetch cfg w.detail) w := by
  have hshown : Shown w.detail w := hw.noted
  have hkept : Kept w.detail w := fun hs => (hw.settled hs).imp_right And.left
  rw [Shown, ← Detail.isSealed_started] at hshown
  rw [Kept, ← Detail.isSealed_started, ← Detail.saveHandle_started] at hkept
  unfold runFetch
  generalize w.detail.started = d at *
  refine .tryBind (Q := Kept) ?_ fun d u hu hd => keeps_fetchSaved hu hd
  refine .ite (fun hsave => ?_) fun _ => ⟨hw, hkept⟩
  refine keeps_fetchSavePhase hw hshown fun hh => Bool.eq_false_iff.mpr fun hs => hsave.2 ?_
  -- a save that was journaled without a handle is found by `savePhaseDone`
  have hsealed : d.isSealed = true := (hkept hs).resolve_left (not_not_intro hh)
  obtain ⟨hcomplete, hsaved⟩ := Bool.and_eq_true_iff.mp hsealed
  have hstate : d.saveState ≠ .queued ∧ d.saveState ≠ .running := by
    constructor
    · intro h
      simp [h, SaveState.complete] at hcomplete
    · intro h
      simp [h, SaveState.complete] at hcomplete
  simp [Detail.savePhaseDone, hstate, hsaved]

end

/-! ## Runs -/

/-- **A journaled save is not submitted again**, in all runs with any number of stops and starts in which the provider
keeps its promises and no save task is started between the two writes of a save without a handle. -/
theorem saved_once (fetch toRequested keepCloud : Bool) (files : Bytes → Option Bytes)
    {m : Machine Call Answers World (Except RunError Unit)}
    (h : Reaches (Machine.Step (runShareTask fetch)) (Machine.Allowed (MayStart fetch) Promised)
      ⟨World.created toRequested keepCloud files, .ret (.ok ())⟩ m) : m.shared.again = false := by
  have hinit : SavedOnce fetch (World.created toRequested keepCloud files) :=
    ⟨rfl, fun h => absurd h Bool.false_ne_true, fun h => absurd h Bool.false_ne_true⟩
  have hmain (cfg : Config) (w : World) (hw : SavedOnce fetch w) (hstart : MayStart fetch cfg w) :
      (runShareTask fetch cfg).Keeps (SavedOnce fetch) Promised (fun _ _ => True) w := by
    have hrun : Saves fetch (fun _ _ => True) (runShareTask fetch cfg) w := by
      refine ⟨hw, fun e _ _ => ?_⟩
      cases fetch with
      | false => exact keeps_runSave hw (hstart rfl)
      | true => exact keeps_runFetch hw
    exact hrun.mono fun _ _ _ _ => trivial
  exact (Machine.sound hmain hinit h).once

/-! ## A provider without handles -/

def sharedEntry : Entry where
  id := [49]
  name := [97]
  size := 1

def atOnce : Answers where
  list := .ok [sharedEntry]
  save := .ok { state := .succeeded, items := [{ sourceID := [49], savedID := [50] }] }

def checkedSave (m : Machine Call Answers World (Except RunError Unit)) : Machine.Event Answers Config → Bool
  | .start _ => !m.shared.detail.betweenWrites
  | .step e =>
    match m.prog.label? with
    | some (.getShareSave _ _) => false
    | some (.saveShareEntries entries) =>
      match e.save with
      | .ok o => (shareSavedEntries (reconcileShareOutcome o entries)).any fun s => s.errorCode = []
      | .error _ => true
    | _ => true

theorem allowed_of_checkedSave {m : Machine Call Answers World (Except RunError Unit)}
    {ev : Machine.Event Answers Config} (h : checkedSave m ev = true) : m.Allowed (MayStart false) Promised ev := by
  cases ev with
  | start cfg => exact fun _ => by simpa [checkedSave] using h
  | step e =>
    intro l hl
    simp only [checkedSave, hl] at h
    cases l with
    | saveShareEntries entries =>
      intro o ho _ _
      simpa [ho] using h
    | getShareSave handle entries => cases h
    | _ => trivial

def runFrom (check : Machine Call Answers World (Except RunError Unit) → Machine.Event Answers Config → Bool)
    (evs : List (Machine.Event Answers Config)) : Option (Machine Call Answers World (Except RunError Unit)) :=
  Machine.run check (runShareTask false) ⟨World.created true false fun _ => none, .ret (.ok ())⟩ evs

theorem saved_once_atOnce : ∃ m : Machine Call Answers World (Except RunError Unit),
    Reaches (Machine.Step (runShareTask false)) (Machine.Allowed (MayStart false) Promised)
      ⟨World.created true false fun _ => none, .ret (.ok ())⟩ m ∧
    m.shared.sealed = true ∧ m.shared.again = false := by
  have hrun : (runFrom checkedSave (.start {} :: List.replicate 12 (.step atOnce) ++
      .start {} :: List.replicate 3 (.step atOnce))).map (fun m => m.shared.sealed) = some true := by
    decide +kernel
  obtain ⟨m, hm, hsealed⟩ := Option.map_eq_some_iff.mp hrun
  have hreach := Machine.reaches_run (fun _ _ => allowed_of_checkedSave) hm
  exact ⟨m, hreach, hsealed, saved_once false true false _ hreach⟩

/-- **A journaled save is submitted again**: the process stops after the outcome was journaled and before the phase is.
-/
theorem stopped_between_writes_again : ∃ m : Machine Call Answers World (Except RunError Unit),
    Reaches (Machine.Step (runShareTask false)) (fun _ _ => True)
      ⟨World.created true false fun _ => none, .ret (.ok ())⟩ m ∧ m.shared.again = true := by
  have hrun : (runFrom (fun _ _ => true) (.start {} :: List.replicate 8 (.step atOnce) ++
      .start {} :: List.replicate 7 (.step atOnce))).map (fun m => m.shared.again) = some true := by
    decide +kernel
  obtain ⟨m, hm, hagain⟩ := Option.map_eq_some_iff.mp hrun
  exact ⟨m, Machine.reaches_run (fun _ _ _ => trivial) hm, hagain⟩

end Share
