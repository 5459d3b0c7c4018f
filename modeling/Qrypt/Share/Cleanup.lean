import Qrypt.Share.SaveOnce

/-!
# What a fetch removes

`pkg/core/share_fetch.go`: the copies that a fetch saved are removed from the account after the download. Which files
are downloaded is known from the journaled results of this and of earlier runs.

* `removed_complete` — whenever a copy of known size is removed, the destination holds its bytes
-/

namespace Share

open Infra List Function Option

/-! ## Readers -/

theorem copyShareReader_ok {write : Nat → Option RunError} {fuel : Nat} {body : Body} {last : Err}
    {data acc out : Bytes} (hbody : Ends last body data) (hfuel : data.length < fuel)
    (h : copyShareReader write fuel body acc = (out, none)) : last = .eof ∧ out = acc ++ data := by
  induction fuel generalizing body data acc with
  | zero => omega
  | succ fuel ih =>
    rcases hbody.read_cases offlineTransferChunk with
      ⟨b, rest, next, hread, rfl, -, hnext, hprog⟩ | ⟨next, hread, -, -⟩
    · have hb := hprog (by decide)
      rw [length_append] at hfuel
      simp only [copyShareReader, hread] at h
      split at h
      · cases h
      · obtain ⟨hlast, hout⟩ := ih hnext (by omega) h
        exact ⟨hlast, by rw [hout, append_assoc]⟩
    · simp only [copyShareReader, hread] at h
      split at h
      · cases h
      · cases last with
        | eof => exact ⟨rfl, (Prod.mk.inj h).1.symm⟩
        | unexpectedEOF => cases h
        | text msg => cases h

variable {out : Int × Bytes} {o : SaveOutcome} {β : Type} {saved earlier : List SavedEntry} {targets : List Target}

/-- A file that was transferred from the account is what the reader handed out. -/
theorem transferTarget_ok {t : Target} {a : TransferAnswer} (ht : t.direct = false)
    (h : transferTarget t a = .ok out) : ∃ body, a.read = .ok body ∧ body.last = .eof ∧ out.2 = body.data := by
  unfold transferTarget at h
  split at h
  · cases h
  simp only [ht, Bool.false_eq_true, if_false] at h
  split at h
  · cases h
  · next body hread =>
    split at h
    · cases h
    · next acc hcopy =>
      split at h
      · cases h
      · obtain ⟨hlast, hacc⟩ := copyShareReader_ok body.ends (Nat.lt_succ_self _) hcopy
        obtain rfl := Except.ok.inj h
        exact ⟨body, hread, hlast, hacc⟩

/-! ## Conditions -/

def keptEntries (saved : List SavedEntry) : List SavedEntry := saved.filter fun s => s.errorCode = []

def savedTarget (s : SavedEntry) : Target where
  name := s.name
  size := s.size
  remoteID := s.remoteID
  direct := false

section Conditions

variable (content : Bytes → Bytes) (dest : Destination)

/-- Saved entries have different ids, and different files in a directory. -/
structure Apart (saved : List SavedEntry) : Prop where
  ids : ((keptEntries saved).map SavedEntry.remoteID).Nodup
  files : dest.single = false → ((keptEntries saved).map fun s => dest.file s.name).Nodup

/-- The outcome as it is reported, and as it is matched with the selection. -/
def ApartOutcome (o : SaveOutcome) (entries : List Entry) : Prop :=
  Apart dest (shareSavedEntries o) ∧ Apart dest (shareSavedEntries (reconcileShareOutcome o entries))

/-- A reader that ends without an error has handed out the bytes of the object, as many as the size says. -/
def FullRead (t : Target) (body : Body) : Prop :=
  body.last = .eof → 0 < t.size → (body.data.length : Int) = t.size ∧ body.data <+: content t.remoteID

/-- What the provider answers. -/
def Delivered : Call → Answers → World → Prop
  | .saveShareEntries entries, e, _ => ∀ o, e.save = .ok o → ApartOutcome dest o entries
  | .getShareSave _ entries, e, _ => ∀ o, e.getSave = .ok o → ApartOutcome dest o entries
  | .transfer t _, e, _ => t.direct = false → ∀ body, e.transfer.read = .ok body → FullRead content t body
  | _, _, _ => True

/-- A run that resolves the destination like the others. -/
def SameDestination (cfg : Config) (_ : World) : Prop := ∀ d, cfg.destination = some d → d = dest

/-! ## The invariant -/

/-- The destination holds the bytes of an entry of known size. -/
def Holds (files : Bytes → Option Bytes) (s : SavedEntry) : Prop :=
  0 < s.size → ∃ bytes, files (dest.file s.name) = some bytes ∧ (bytes.length : Int) = s.size ∧
    bytes <+: content s.remoteID

/-- The entry with this id was saved, and the destination holds it. -/
def HoldsID (files : Bytes → Option Bytes) (saved : List SavedEntry) (id : Bytes) : Prop :=
  ∃ s ∈ keptEntries saved, s.remoteID = id ∧ Holds content dest files s

/-- What a detail says of the destination. -/
structure Progress (files : Bytes → Option Bytes) (d : Detail) : Prop where
  apart : Apart dest d.saved
  transferred : ∀ e ∈ d.transferred, e.errorCode = [] →
    d.savePhaseDone = true ∧ HoldsID content dest files d.saved e.remoteID
  cleanup : d.phase = .cleanup → d.savePhaseDone = true ∧ ∀ s ∈ keptEntries d.saved, Holds content dest files s

/-- What holds between any two calls. -/
structure Downloaded (w : World) : Prop where
  removed : ∀ r ∈ w.removals, Holds content dest r.files r.entry
  progress : w.detail.toRequested = true → Progress content dest w.files w.detail

/-- The program keeps that, and its result meets `Q`. -/
abbrev Fetches {α : Type} (Q : α → World → Prop) (p : ShareProg (Except RunError α)) (w : World) : Prop :=
  p.Keeps (Downloaded content dest) (Delivered content dest) (Prog.Ok Q) w

/-- A detail before the download. -/
structure Fresh (d : Detail) : Prop where
  requested : d.toRequested = true
  apart : Apart dest d.saved
  untransferred : ∀ e ∈ d.transferred, e.errorCode ≠ []
  phase : d.phase ≠ .cleanup

end Conditions

variable {content : Bytes → Bytes} {dest : Destination} {cfg : Config} {w : World} {d : Detail} {entries : List Entry}

theorem Fresh.progress (h : Fresh dest d) (files : Bytes → Option Bytes) : Progress content dest files d where
  apart := h.apart
  transferred := fun e he hok => absurd hok (h.untransferred e he)
  cleanup := fun hphase => absurd hphase h.phase

theorem Fresh.recordOutcome (h : Fresh dest d) (ho : Apart dest (shareSavedEntries o)) :
    Fresh dest (d.recordOutcome o) where
  requested := h.requested
  apart := ho
  untransferred := h.untransferred
  phase := h.phase

theorem Downloaded.persisted (hw : Downloaded content dest w)
    (hd : d.toRequested = true → Progress content dest w.files d) : Downloaded content dest (w.persisted d) where
  removed := hw.removed
  progress := hd

/-- `persist` of a detail that is right about the destination, then the rest. -/
theorem keeps_progress_then {R : β → World → Prop} {k : Unit → ShareProg (Except RunError β)}
    (hw : Downloaded content dest w) (hd : d.toRequested = true → Progress content dest w.files d)
    (hk : Downloaded content dest (w.persisted d) →
      Fetches content dest R (k ()) (w.persisted d)) : Fetches content dest R ((persist d).tryBind k) w :=
  keeps_persist_then hw (hk (hw.persisted hd))

/-- `persist` of a detail before the download, then the rest. -/
theorem keeps_fresh_then {R : β → World → Prop} {k : Unit → ShareProg (Except RunError β)}
    (hw : Downloaded content dest w) (hd : Fresh dest d)
    (hk : Downloaded content dest (w.persisted d) →
      Fetches content dest R (k ()) (w.persisted d)) : Fetches content dest R ((persist d).tryBind k) w :=
  keeps_progress_then hw (fun _ => hd.progress _) hk

/-! ## Saving -/

/-- A complete outcome that is still to be matched with the selection. -/
def Awaited (dest : Destination) (entries : List Entry) (out : SaveOutcome × Detail) : Prop :=
  Fresh dest out.2 ∧ out.1.state.complete = true ∧
    Apart dest (shareSavedEntries (reconcileShareOutcome out.1 entries))

/-- A complete outcome that is about to be recorded. -/
def Matching (dest : Destination) (out : SaveOutcome × Detail) : Prop :=
  Fresh dest out.2 ∧ out.1.state.complete = true ∧ Apart dest (shareSavedEntries out.1)

theorem Awaited.matching {out : SaveOutcome × Detail} (h : Awaited dest entries out) :
    Matching dest (reconcileShareOutcome out.1 entries, out.2) :=
  ⟨h.1, complete_reconcileShareOutcome h.2.1 entries, h.2.2⟩

section

variable (hw : Downloaded content dest w) (hd : Fresh dest d)
include hw hd

theorem fresh_pollSave {handle : Bytes} {polls : Nat} :
    Fetches content dest (fun out _ => Awaited dest entries out) (pollSave cfg handle entries polls d) w := by
  induction polls generalizing d w with
  | zero => exact ⟨hw, trivial⟩
  | succ polls ih =>
    refine .ite (fun _ => ⟨hw, trivial⟩) fun _ => ?_
    refine keeps_quiet_then rfl hw fun e o hcond ho => ?_
    have hget : e.getSave = .ok o := by
      by_cases hint : e.interrupted = true
      · simp [if_pos hint] at ho
      · rwa [if_neg hint] at ho
    obtain ⟨hraw, hmatched⟩ := hcond o hget
    refine keeps_fresh_then hw (hd.recordOutcome hraw) fun hw' => .ite (fun hcomplete => ?_) fun _ => ?_
    · exact ⟨hw', hd.recordOutcome hraw, hcomplete, hmatched⟩
    · exact ih hw' (hd.recordOutcome hraw)

theorem fresh_awaitSave {o : SaveOutcome} (ho : Apart dest (shareSavedEntries (reconcileShareOutcome o entries))) :
    Fetches content dest (fun out _ => Awaited dest entries out) (awaitSave cfg d entries o) w :=
  .ite (fun hcomplete => ⟨hw, hd, hcomplete, ho⟩) fun _ => fresh_pollSave hw hd

theorem fresh_saveSelected : Fetches content dest (fun out _ => Matching dest out) (saveSelected cfg d entries) w := by
  refine .ite (fun _ => ⟨hw, trivial⟩) fun _ => ?_
  have hd' : Fresh dest { d with selectedEntries := entries } := ⟨hd.requested, hd.apart, hd.untransferred, hd.phase⟩
  refine keeps_fresh_then hw hd' fun hu => keeps_check_then rfl hu ?_
  have hsubmit (e : Answers) : Downloaded content dest
      ((w.persisted { d with selectedEntries := entries }).apply (.saveShareEntries entries) e) :=
    ⟨hu.removed, hu.progress⟩
  refine .perform_tryBind hu (fun e _ => hsubmit e) fun e o hcond ho => ?_
  obtain ⟨hraw, hmatched⟩ := hcond o ho
  have hd'' : Fresh dest ({ d with selectedEntries := entries, saveHandle := o.handle }.recordOutcome o) :=
    ⟨hd.requested, hraw, hd.untransferred, hd.phase⟩
  refine keeps_fresh_then (hsubmit e) hd'' fun hv => ?_
  refine (fresh_awaitSave hv hd'' hmatched).tryBind fun out x hx hout => ?_
  obtain ⟨hfresh, hcomplete, hsaved⟩ := hout.matching
  have hverify : Fresh dest { out.2.recordOutcome (reconcileShareOutcome out.1 entries) with phase := .verify } :=
    ⟨hfresh.requested, hsaved, hfresh.untransferred, by simp⟩
  exact keeps_fresh_then hx hverify fun hx' => ⟨hx', hverify, hcomplete, hsaved⟩

theorem fresh_resumeSelection : Fetches content dest (fun out _ => Fresh dest out.2) (resumeSelection d) w := by
  refine .ite (fun _ => ⟨hw, hd⟩) fun _ => ?_
  refine keeps_check_then rfl hw (keeps_quiet_then rfl hw fun e entries _ _ => ?_)
  have hd' : Fresh dest { d with selectedEntries := entries } := ⟨hd.requested, hd.apart, hd.untransferred, hd.phase⟩
  exact keeps_fresh_then hw hd' fun hw' => ⟨hw', hd'⟩

theorem fresh_resumeSave :
    Fetches content dest (fun out _ => Fresh dest out.2 ∧ ∀ o, out.1 = some o → Awaited dest entries (o, out.2))
      (resumeSave cfg d entries) w := by
  refine .ite (fun _ => ⟨hw, trivial⟩) fun _ => ?_
  have hcall : (call (.getShareSave d.saveHandle entries) Answers.getSave).Keeps (Downloaded content dest)
      (Delivered content dest)
      (fun x w' => ∃ e, Delivered content dest (.getShareSave d.saveHandle entries) e w' ∧ e.getSave = x) w :=
    .perform hw fun e hcond => ⟨hw, e, hcond, rfl⟩
  refine hcall.bind fun x u hu hx => ?_
  obtain ⟨e, hcond, hget⟩ := hx
  cases x with
  | error err =>
    refine .ite (fun _ => ?_) fun _ => ⟨hu, trivial⟩
    have hd' : Fresh dest { d with saveHandle := [] } := ⟨hd.requested, hd.apart, hd.untransferred, hd.phase⟩
    exact keeps_fresh_then hu hd' fun hu' => ⟨hu', hd', fun o ho => nomatch ho⟩
  | ok o =>
    refine (fresh_awaitSave hu hd (hcond o hget).2).tryBind fun out v hv hout => ?_
    exact ⟨hv, hout.1, fun o ho => some.inj ho ▸ hout⟩

theorem fresh_resumeOrSave : Fetches content dest (fun out _ => Matching dest out) (resumeOrSave cfg d entries) w := by
  refine (fresh_resumeSave hw hd).tryBind fun out u hu hout => ?_
  obtain ⟨_ | o, d'⟩ := out
  · exact keeps_check_then rfl hu (fresh_saveSelected hu hout.1)
  · exact ⟨hu, (hout.2 o rfl).matching⟩

theorem fresh_fetchSave : Fetches content dest (fun out _ => Matching dest out) (fetchSave cfg d) w := by
  refine .ite (fun _ => ?_) fun _ => ?_
  · refine (fresh_resumeSelection hw hd).tryBind fun out u hu hout => ?_
    exact fresh_resumeOrSave hu hout
  · refine keeps_check_then rfl hw (keeps_quiet_then rfl hw fun e entries _ _ => ?_)
    exact fresh_saveSelected hw hd

end

theorem savePhaseDone_of_not_failed (d : Detail) (hcomplete : o.state.complete = true)
    (h : ¬ o.isFailed = true) : (d.recordOutcome o).savePhaseDone = true := by
  have hstate : o.state ≠ .queued ∧ o.state ≠ .running := by
    constructor
    · intro h
      simp [h, SaveState.complete] at hcomplete
    · intro h
      simp [h, SaveState.complete] at hcomplete
  have hitem : ∃ item ∈ o.items, item.error = none := by
    by_contra hall
    push Not at hall
    refine h (Bool.and_eq_true_iff.mpr ⟨hcomplete, all_eq_true.mpr fun item hitem => ?_⟩)
    exact isSome_iff_ne_none.mpr (hall item hitem)
  obtain ⟨item, hmem, hnone⟩ := hitem
  have hsaved : (d.recordOutcome o).hasSaved = true := by
    refine any_eq_true.mpr ⟨savedEntry item, mem_map.mpr ⟨item, hmem, rfl⟩, ?_⟩
    simp [savedEntry, hnone]
  simp only [Detail.savePhaseDone, decide_eq_true_eq]
  exact ⟨hstate.1, hstate.2, hsaved⟩

theorem fresh_fetchSavePhase (hw : Downloaded content dest w) (hd : Fresh dest d) :
    Fetches content dest (fun d _ => Fresh dest d ∧ d.phase = .verify ∧ d.savePhaseDone = true)
      (fetchSavePhase cfg d) w := by
  refine (fresh_fetchSave hw hd).tryBind fun out u hu hout => ?_
  obtain ⟨hfresh, hcomplete, hsaved⟩ := hout
  have hverify : Fresh dest { out.2.recordOutcome out.1 with phase := .verify } :=
    ⟨hfresh.requested, hsaved, hfresh.untransferred, by simp⟩
  refine keeps_fresh_then hu hverify fun hu' => .ite (fun _ => ?_) fun hfailed => ?_
  · have hfinal : Fresh dest { out.2.recordOutcome out.1 with phase := .complete } :=
      ⟨hfresh.requested, hsaved, hfresh.untransferred, by simp⟩
    exact keeps_fresh_then hu' hfinal fun hv => ⟨hv, trivial⟩
  · refine keeps_quiet_then rfl hu' fun e verified _ _ => .ite (fun _ => ?_) fun _ => ⟨hu', trivial⟩
    exact ⟨hu', hverify, rfl, savePhaseDone_of_not_failed out.2 hcomplete hfailed⟩

/-! ## Targets -/

theorem fetchTargets_saved {listing : Except FetchError Listing} (h : fetchTargets saved listing true = .ok targets) :
    targets = (keptEntries saved).map savedTarget ∧ ∀ s ∈ keptEntries saved, s.remoteID ≠ [] := by
  simp only [fetchTargets, if_true] at h
  split at h
  · cases h
  · next hnone =>
    split_ifs at h
    obtain rfl := Except.ok.inj h
    refine ⟨rfl, fun s hs hid => ?_⟩
    simpa [hid] using find?_eq_none.mp hnone s hs

/-- Keys of entries with an id are the same only for the same id. -/
theorem shareTransferKey_inj {name name' id id' : Bytes} (hid : id' ≠ [])
    (h : shareTransferKey name id = shareTransferKey name' id') : id = id' := by
  rw [shareTransferKey, shareTransferKey, if_pos hid] at h
  split_ifs at h
  · exact append_cancel_left h
  · simp [ascii] at h

theorem completed_some {s entry : SavedEntry} (hid : s.remoteID ≠ [])
    (h : completed earlier (savedTarget s) = some entry) :
    entry ∈ earlier ∧ entry.errorCode = [] ∧ entry.remoteID = s.remoteID := by
  have hmem := mem_of_find?_eq_some h
  have hkey := find?_some h
  simp only [decide_eq_true_eq] at hkey
  exact ⟨mem_reverse.mp hmem, hkey.1, shareTransferKey_inj hid hkey.2⟩

theorem completed_none {s e : SavedEntry} (hid : s.remoteID ≠ [])
    (h : completed earlier (savedTarget s) = none) (he : e ∈ earlier) (hok : e.errorCode = []) :
    e.remoteID ≠ s.remoteID := by
  intro hsame
  have := find?_eq_none.mp h e (mem_reverse.mpr he)
  simp [hok, savedTarget, shareTransferKey, hsame, hid] at this

/-! ## The download -/

section Loop

variable (content : Bytes → Bytes) (dest : Destination)

/-- The download between two targets: the entries before `rest` are at the destination. -/
structure Looping (earlier results before rest : List SavedEntry) (d : Detail) (w : World) : Prop where
  split : keptEntries d.saved = before ++ rest
  ids : ∀ s ∈ keptEntries d.saved, s.remoteID ≠ []
  saved : d.savePhaseDone = true
  apart : Apart dest d.saved
  files : ((keptEntries d.saved).map fun s => dest.file s.name).Nodup
  phase : d.phase = .download
  kept : ∀ e ∈ earlier, e.errorCode = [] → HoldsID content dest w.files d.saved e.remoteID
  arrived : ∀ s ∈ before, Holds content dest w.files s
  counted : ∀ e ∈ results, e.errorCode = [] → ∃ s ∈ before, s.remoteID = e.remoteID
  listed : ∀ e ∈ d.transferred, e.errorCode = [] → e ∈ earlier ∨ e ∈ results
  journal : ∃ transferred, w.detail = { d with transferred } ∧
    ∀ e ∈ transferred, e.errorCode = [] → e ∈ earlier ∨ e ∈ results

end Loop

variable {earlier results before rest : List SavedEntry} {s : SavedEntry}

variable {files : Bytes → Option Bytes}

theorem Holds.update {path : Bytes} {x : Option Bytes}
    (h : Holds content dest files s) (hne : dest.file s.name ≠ path) : Holds content dest (update files path x) s := by
  intro hsize
  obtain ⟨bytes, hfile, hbytes⟩ := h hsize
  exact ⟨bytes, by rwa [update_of_ne hne], hbytes⟩

namespace Looping

section

variable (h : Looping content dest earlier results before rest d w)
include h

theorem mem_before (hs : s ∈ before) : s ∈ keptEntries d.saved := h.split ▸ mem_append_left rest hs

theorem holdsID {e : SavedEntry} (he : e ∈ earlier ∨ e ∈ results) (hok : e.errorCode = []) :
    HoldsID content dest w.files d.saved e.remoteID := by
  rcases he with he | he
  · exact h.kept e he hok
  · obtain ⟨s, hs, hid⟩ := h.counted e he hok
    exact ⟨s, h.mem_before hs, hid, h.arrived s hs⟩

theorem progress {transferred : List SavedEntry}
    (ht : ∀ e ∈ transferred, e.errorCode = [] → e ∈ earlier ∨ e ∈ results) :
    Progress content dest w.files { d with transferred } where
  apart := h.apart
  transferred := fun e he hok => ⟨h.saved, h.holdsID (ht e he hok) hok⟩
  cleanup := fun hphase => by
    have := h.phase.symm.trans hphase
    cases this

end

theorem update (h : Looping content dest earlier results before (s :: rest) d w)
    (hnone : completed earlier (savedTarget s) = none) (x : Option Bytes) :
    Looping content dest earlier results before (s :: rest) d
      { w with files := update w.files (dest.file s.name) x } := by
  have hs : s ∈ keptEntries d.saved := h.split ▸ mem_append_right before mem_cons_self
  have hother {s' : SavedEntry} (hs' : s' ∈ keptEntries d.saved) (hne : s' ≠ s) :
      dest.file s'.name ≠ dest.file s.name := fun heq => hne (inj_on_of_nodup_map h.files hs' hs heq)
  refine { h with kept := fun e he hok => ?_, arrived := fun s' hs' => ?_ }
  · obtain ⟨s', hs', hid, hholds⟩ := h.kept e he hok
    refine ⟨s', hs', hid, hholds.update (hother hs' ?_)⟩
    rintro rfl
    exact completed_none (h.ids s' hs') hnone he hok hid.symm
  · refine (h.arrived s' hs').update (hother (h.mem_before hs') ?_)
    rintro rfl
    -- an entry is saved once
    have hnodup : (before ++ s' :: rest).Nodup := h.split ▸ h.apart.ids.of_map
    exact (nodup_append.mp hnodup).2.2 s' hs' s' mem_cons_self rfl

theorem finish (h : Looping content dest earlier results before (s :: rest) d w) {entry : SavedEntry}
    (hholds : Holds content dest w.files s) (hid : entry.remoteID = s.remoteID) :
    Looping content dest earlier (results ++ [entry]) (before ++ [s]) rest
      { d with transferred := results ++ [entry] } w := by
  have hresult (e : SavedEntry) (he : e ∈ earlier ∨ e ∈ results) : e ∈ earlier ∨ e ∈ results ++ [entry] :=
    he.imp_right (mem_append_left _)
  constructor
  · exact h.split.trans (append_cons before s rest)
  · exact h.ids
  · exact h.saved
  · exact h.apart
  · exact h.files
  · exact h.phase
  · exact h.kept
  · exact forall_mem_append.mpr ⟨h.arrived, forall_mem_singleton.mpr hholds⟩
  · intro e he hok
    rcases mem_append.mp he with he | he
    · obtain ⟨s', hs', hsame⟩ := h.counted e he hok
      exact ⟨s', mem_append_left _ hs', hsame⟩
    · exact ⟨s, by simp, by rw [mem_singleton.mp he, hid]⟩
  · exact fun e he _ => .inr he
  · obtain ⟨transferred, hw, ht⟩ := h.journal
    exact ⟨transferred, hw, fun e he hok => hresult e (ht e he hok)⟩

theorem downloaded (h : Looping content dest earlier results before rest d w)
    (hremoved : ∀ r ∈ w.removals, Holds content dest r.files r.entry) : Downloaded content dest w := by
  obtain ⟨transferred, hw, ht⟩ := h.journal
  exact ⟨hremoved, fun _ => hw ▸ h.progress ht⟩

theorem persisted (h : Looping content dest earlier results before rest d w) :
    Looping content dest earlier results before rest d (w.persisted d) :=
  { h with journal := ⟨d.transferred, rfl, h.listed⟩ }

end Looping

theorem holds_transferred {e : Answers}
    (hcond : Delivered content dest (.transfer (savedTarget s) (dest.file s.name)) e w)
    (h : transferTarget (savedTarget s) e.transfer = .ok out) :
    Holds content dest (update files (dest.file s.name) (fileAfter (savedTarget s) e.transfer)) s := by
  obtain ⟨body, hread, hlast, hbytes⟩ := transferTarget_ok rfl h
  intro hsize
  obtain ⟨hlength, hpre⟩ := hcond rfl body hread hlast hsize
  refine ⟨body.data, ?_, hlength, hpre⟩
  rw [update_self, fileAfter, h]
  exact congrArg some hbytes

/-- **The download of saved entries.** -/
theorem keeps_downloadSaved (hw : Downloaded content dest w)
    (h : Looping content dest earlier results before rest d w) :
    Fetches content dest
      (fun d' w => d'.toRequested = d.toRequested ∧ ∃ results before, Looping content dest earlier results before [] d' w)
      (downloadLoop dest earlier (rest.map savedTarget) results d) w := by
  induction rest generalizing results before d w with
  | nil => exact ⟨hw, rfl, results, before, h⟩
  | cons s rest ih =>
    have hs : s ∈ keptEntries d.saved := h.split ▸ mem_append_right before mem_cons_self
    rw [map_cons, downloadLoop]
    cases hcompleted : completed earlier (savedTarget s) with
    | some entry =>
      -- an earlier run has finished the target
      obtain ⟨hmem, hok, hid⟩ := completed_some (h.ids s hs) hcompleted
      obtain ⟨s', hs', hid', hholds⟩ := h.kept entry hmem hok
      obtain rfl : s' = s := inj_on_of_nodup_map h.apart.ids hs' hs (hid'.trans hid)
      exact ih hw (h.finish hholds hid)
    | none =>
      have hcall : (call (.transfer (savedTarget s) (dest.file (savedTarget s).name)) fun e =>
          transferTarget (savedTarget s) e.transfer).Keeps (Downloaded content dest) (Delivered content dest)
          (fun x w' => Looping content dest earlier results before (s :: rest) d w' ∧
            ∀ out, x = .ok out → Holds content dest w'.files s) w := by
        refine .perform hw fun e hcond => ?_
        have hupdate := h.update hcompleted (fileAfter (savedTarget s) e.transfer)
        exact ⟨hupdate.downloaded hw.removed, hupdate, fun out hout => holds_transferred hcond hout⟩
      refine hcall.bind fun x u hu hx => ?_
      obtain ⟨hloop, hholds⟩ := hx
      rcases x with ⟨written, err⟩ | ⟨written, bytes⟩
      · refine keeps_progress_then hu (fun _ => ?_) fun hv => ⟨hv, trivial⟩
        refine hloop.progress fun e he hok => ?_
        rcases mem_append.mp he with he | he
        · exact .inr he
        · rw [mem_singleton.mp he] at hok
          simp [failedEntry, ascii] at hok
      · have hfinish : Looping content dest earlier (results ++ [⟨s.name, written, s.remoteID, [], []⟩])
            (before ++ [s]) rest { d with transferred := results ++ [⟨s.name, written, s.remoteID, [], []⟩] } u :=
          hloop.finish (hholds _ rfl) rfl
        refine keeps_progress_then hu (fun _ => hfinish.progress hfinish.listed) fun hv => ?_
        exact ih hv hfinish.persisted

theorem keeps_downloadDirect {dest' : Destination} (hw : Downloaded content dest w)
    (hd : d.toRequested = false) (hdetail : w.detail.toRequested = false) :
    Fetches content dest (fun d' _ => d'.toRequested = false) (downloadLoop dest' earlier targets results d) w := by
  induction targets generalizing results d w with
  | nil => exact ⟨hw, hd⟩
  | cons t ts ih =>
    have hnone {P : Prop} (h : d.toRequested = true) : P := absurd (hd.symm.trans h) Bool.false_ne_true
    unfold downloadLoop
    cases completed earlier t with
    | some entry => exact ih hw hd hdetail
    | none =>
      have hcall : (call (.transfer t (dest'.file t.name)) fun e => transferTarget t e.transfer).Keeps
          (Downloaded content dest) (Delivered content dest) (fun _ w' => w'.detail.toRequested = false) w :=
        .perform hw fun e _ => ⟨⟨hw.removed, fun h => absurd (hdetail.symm.trans h) Bool.false_ne_true⟩, hdetail⟩
      refine hcall.bind fun x u hu hdetail' => ?_
      rcases x with ⟨written, err⟩ | ⟨written, bytes⟩
      · exact keeps_progress_then hu hnone fun hv => ⟨hv, trivial⟩
      · exact keeps_progress_then hu hnone fun hv => ih hv hd hd

/-! ## Fetch tasks -/

/-- What a run of a fetch carries from phase to phase. -/
structure Carried (content : Bytes → Bytes) (dest : Destination) (d : Detail) (w : World) : Prop where
  saved : d.toRequested = true → d.savePhaseDone = true ∧ Progress content dest w.files d
  direct : d.toRequested = false → w.detail.toRequested = false
  journal : d.phase = .download → w.detail = d

theorem Progress.phase (h : Progress content dest files d) {phase : Phase}
    (hne : phase ≠ .cleanup) : Progress content dest files { d with phase } where
  apart := h.apart
  transferred := h.transferred
  cleanup := fun hphase => absurd hphase hne

theorem keeps_enterDownload (hw : Downloaded content dest w) (hd : Carried content dest d w) :
    Fetches content dest (Carried content dest) (enterDownload d) w := by
  refine .ite (fun _ => ?_) fun _ => ⟨hw, hd⟩
  refine keeps_progress_then hw (fun h => (hd.saved h).2.phase (by simp)) fun hw' => ⟨hw', ?_⟩
  exact ⟨fun h => ⟨(hd.saved h).1, (hd.saved h).2.phase (by simp)⟩, id, fun _ => rfl⟩

/-- What the download ends with. -/
def Finished (content : Bytes → Bytes) (dest : Destination) (d : Detail) (w : World) : Prop :=
  d.toRequested = true → d.savePhaseDone = true ∧ Progress content dest w.files d ∧
    ∀ s ∈ keptEntries d.saved, Holds content dest w.files s

theorem Looping.finished (h : Looping content dest earlier results before [] d w) : Finished content dest d w := by
  intro _
  refine ⟨h.saved, h.progress h.listed, fun s hs => h.arrived s ?_⟩
  rwa [h.split, append_nil] at hs

/-- The targets are in different files, also if there is a single one. -/
theorem files_nodup (h : Apart dest saved)
    (hsingle : ¬ (dest.single = true ∧ ((keptEntries saved).map savedTarget).length ≠ 1)) :
    ((keptEntries saved).map fun s => dest.file s.name).Nodup := by
  by_cases hs : dest.single = true
  · have hlength : (keptEntries saved).length = 1 := by simpa [hs] using hsingle
    obtain ⟨s, hs⟩ := length_eq_one_iff.mp hlength
    simp [hs]
  · exact h.files (by simpa using hs)

section

variable (hw : Downloaded content dest w)
include hw

theorem keeps_runDownload_saved (hd : Carried content dest d w)
    (hphase : d.phase = .download) (hreq : d.toRequested = true) (hcfg : SameDestination dest cfg w) :
    Fetches content dest (Finished content dest) (runDownload cfg d true) w := by
  obtain ⟨hdone, hprogress⟩ := hd.saved hreq
  have htargets : Fetches content dest
    (fun targets w' => w' = w ∧ targets = (keptEntries d.saved).map savedTarget ∧ ∀ s ∈ keptEntries d.saved, s.remoteID ≠ [])
    (listTargets cfg d true) w := by
    refine .ite (fun _ => ⟨hw, ?_⟩) fun h => absurd rfl h
    cases hfetch : fetchTargets d.saved (.error .noneSaved) true with
    | error err => trivial
    | ok targets => exact ⟨rfl, fetchTargets_saved hfetch⟩
  refine htargets.tryBind fun targets u hu htargets => ?_
  obtain ⟨rfl, rfl, hids⟩ := htargets
  cases hdest : cfg.destination with
  | none => exact ⟨hu, trivial⟩
  | some dest' =>
    obtain rfl := hcfg dest' hdest
    refine keeps_check_then rfl hu (.ite (fun _ => ⟨hu, trivial⟩) fun hsingle => ?_)
    have hloop : Looping content dest' d.transferred [] [] (keptEntries d.saved) d u := by
      constructor
      · rfl
      · exact hids
      · exact hdone
      · exact hprogress.apart
      · exact files_nodup hprogress.apart hsingle
      · exact hphase
      · exact fun e he hok => (hprogress.transferred e he hok).2
      · exact fun s hs => absurd hs not_mem_nil
      · exact fun e he => absurd he not_mem_nil
      · exact fun e he _ => .inl he
      · exact ⟨d.transferred, hd.journal hphase, fun e he _ => .inl he⟩
    refine (keeps_downloadSaved hu hloop).mono fun x v _ hx => ?_
    cases x with
    | error err => trivial
    | ok d' =>
      obtain ⟨-, results, before, hend⟩ := hx
      exact hend.finished

theorem keeps_runDownload_direct (hd : Carried content dest d w)
    (hreq : d.toRequested = false) : Fetches content dest (Finished content dest) (runDownload cfg d false) w := by
  have hdetail : w.detail.toRequested = false := hd.direct hreq
  have hret (x : Except RunError (List Target)) : Fetches content dest (fun _ w' => w'.detail.toRequested = false)
    (Prog.ret x : ShareProg _) w := by
    cases x with
    | error err => exact ⟨hw, trivial⟩
    | ok targets => exact ⟨hw, hdetail⟩
  have htargets : Fetches content dest (fun _ w' => w'.detail.toRequested = false) (listTargets cfg d false) w := by
    refine .ite (fun _ => hret _) fun _ => .ite (fun _ => hret _) fun _ => ?_
    refine keeps_check_then rfl hw (keeps_quiet_then rfl hw fun e entries _ _ => ?_)
    exact keeps_quiet_then rfl hw fun e downloads _ _ => hret _
  refine htargets.tryBind fun targets u hu hdetail => ?_
  cases cfg.destination with
  | none => exact ⟨hu, trivial⟩
  | some dest' =>
    refine keeps_check_then rfl hu (.ite (fun _ => ⟨hu, trivial⟩) fun _ => ?_)
    refine (keeps_downloadDirect hu hreq hdetail).mono fun x v _ hx => ?_
    cases x with
    | error err => trivial
    | ok d' => exact fun h => absurd (Eq.symm hx |>.trans h) Bool.false_ne_true

/-- What the cleanup is given: in its phase, the destination holds the saved entries. -/
def Cleanable (content : Bytes → Bytes) (dest : Destination) (d : Detail) (w : World) : Prop :=
  d.toRequested = true → Progress content dest w.files d

theorem keeps_download (hd : Carried content dest d w)
    (hcfg : SameDestination dest cfg w) : Fetches content dest (Cleanable content dest) (download cfg d) w := by
  refine .ite (fun hphase => ?_) fun _ => ⟨hw, fun h => (hd.saved h).2⟩
  have hrun : Fetches content dest (Finished content dest) (runDownload cfg d d.toRequested) w := by
    cases hreq : d.toRequested with
    | true => exact keeps_runDownload_saved hw hd hphase hreq hcfg
    | false => exact keeps_runDownload_direct hw hd hreq
  refine hrun.tryBind fun d u hu hfinished => ?_
  have hclean : Cleanable content dest { d with phase := .cleanup } u := by
    intro hreq
    obtain ⟨hdone, hprogress, hall⟩ := hfinished hreq
    exact ⟨hprogress.apart, hprogress.transferred, fun _ => ⟨hdone, hall⟩⟩
  exact keeps_progress_then hu hclean fun hu' => ⟨hu', hclean⟩

/-- **The cleanup removes what the destination holds.** -/
theorem keeps_cleanupLoop_holds {saved : List SavedEntry} (h : ∀ s ∈ keptEntries saved, Holds content dest w.files s) :
    Fetches content dest (fun _ w' => w'.files = w.files) (cleanupLoop saved) w := by
  induction saved generalizing w with
  | nil => exact ⟨hw, rfl⟩
  | cons s rest ih =>
    have hrest : ∀ s' ∈ keptEntries rest, Holds content dest w.files s' := by
      intro s' hs'
      obtain ⟨hmem, hok⟩ := mem_filter.mp hs'
      exact h s' (mem_filter.mpr ⟨mem_cons_of_mem _ hmem, hok⟩)
    refine .ite (fun _ => ih hw hrest) fun hkept => ?_
    have hok : s.errorCode = [] := by
      by_contra hne
      exact hkept (.inl hne)
    have hs : Holds content dest w.files s := h s (mem_filter.mpr ⟨mem_cons_self, by simpa using hok⟩)
    have hw' (e : Answers) : Downloaded content dest (w.apply (.remove s) e) :=
      ⟨forall_mem_cons.mpr ⟨hs, hw.removed⟩, hw.progress⟩
    exact .perform_tryBind hw (fun e _ => hw' e) fun e _ _ _ => ih (hw' e) hrest

theorem keeps_fetchSaved_holds (hd : Carried content dest d w)
    (hcfg : SameDestination dest cfg w) : Fetches content dest (fun _ _ => True) (fetchSaved cfg d) w := by
  refine (keeps_enterDownload hw hd).tryBind fun d u hu hd => ?_
  refine (keeps_download hu hd hcfg).tryBind fun d v hv hclean => ?_
  refine .tryBind (Q := fun _ w' => w'.files = v.files) ?_ fun _ x hx hfiles => ?_
  · refine .ite (fun hphase => .ite (fun _ => ⟨hv, rfl⟩) fun hremove => ?_) fun _ => ⟨hv, rfl⟩
    have hreq : d.toRequested = true := by
      by_contra h
      exact hremove (.inl h)
    exact keeps_cleanupLoop_holds hv ((hclean hreq).cleanup hphase).2
  · refine keeps_progress_then hx (fun hreq => ?_) fun hx' => ?_
    · rw [hfiles]
      exact (hclean hreq).phase (by simp)
    · exact .ite (fun _ => ⟨hx', trivial⟩) fun _ => ⟨hx', trivial⟩

theorem keeps_runFetch_holds (hcfg : SameDestination dest cfg w) :
    Fetches content dest (fun _ _ => True) (runFetch cfg w.detail) w := by
  refine .tryBind (Q := Carried content dest) ?_ fun d u hu hd => keeps_fetchSaved_holds hu hd hcfg
  have hstarted : w.detail.started.toRequested = w.detail.toRequested ∧
      w.detail.started.savePhaseDone = w.detail.savePhaseDone ∧
      (w.detail.started.phase = .download → w.detail.started = w.detail) ∧
      (w.detail.toRequested = true → Progress content dest w.files w.detail.started) := by
    unfold Detail.started
    split_ifs
    · exact ⟨rfl, rfl, fun h => absurd h (by simp), fun h => (hw.progress h).phase (by simp)⟩
    · exact ⟨rfl, rfl, fun _ => rfl, hw.progress⟩
  obtain ⟨hreq, hdone, hphase, hprogress⟩ := hstarted
  refine .ite (fun hsave => ?_) fun hskip => ⟨hw, ?_⟩
  · -- nothing was transferred before the save is done
    have hp := hprogress (hreq.symm.trans hsave.1)
    have hfresh : Fresh dest w.detail.started :=
      ⟨hsave.1, hp.apart, fun e he hok => hsave.2 (hp.transferred e he hok).1, fun h => hsave.2 (hp.cleanup h).1⟩
    refine (fresh_fetchSavePhase hw hfresh).mono fun x u _ hx => ?_
    cases x with
    | error err => trivial
    | ok d =>
      obtain ⟨hfresh, hverify, hdone⟩ := hx
      refine ⟨fun _ => ⟨hdone, hfresh.progress _⟩, fun h => ?_, fun h => ?_⟩
      · exact absurd (h.symm.trans hfresh.requested) Bool.false_ne_true
      · exact absurd (hverify.symm.trans h) (by simp)
  · refine ⟨fun h => ⟨?_, hprogress (hreq.symm.trans h)⟩, hreq.symm.trans, fun h => (hphase h).symm⟩
    by_contra hnot
    exact hskip ⟨h, hnot⟩

end

/-! ## Runs -/

/-- **A fetch removes only what it has downloaded.** In all runs of a fetch task, with any number of stops and starts,
in which no reader ends early, saved entries are apart and the destination is resolved alike. -/
theorem removed_complete (content : Bytes → Bytes) (dest : Destination) (toRequested keepCloud : Bool)
    (files : Bytes → Option Bytes) {m : Machine Call Answers World (Except RunError Unit)}
    (h : Reaches (Machine.Step (runShareTask true)) (Machine.Allowed (SameDestination dest) (Delivered content dest))
      ⟨World.created toRequested keepCloud files, .ret (.ok ())⟩ m) :
    ∀ r ∈ m.shared.removals, Holds content dest r.files r.entry := by
  have hinit : Downloaded content dest (World.created toRequested keepCloud files) := by
    refine ⟨fun r hr => absurd hr not_mem_nil, fun hreq => Fresh.progress ⟨hreq, ⟨?_, ?_⟩, ?_, ?_⟩ _⟩
    · exact nodup_nil
    · exact fun _ => nodup_nil
    · exact fun e he => absurd he not_mem_nil
    · simp [World.created]
  have hmain (cfg : Config) (w : World) (hw : Downloaded content dest w) (hcfg : SameDestination dest cfg w) :
      (runShareTask true cfg).Keeps (Downloaded content dest) (Delivered content dest) (fun _ _ => True) w := by
    have hrun : Fetches content dest (fun _ _ => True)
      (runShareTask true cfg) w := ⟨hw, fun e _ _ => keeps_runFetch_holds hw hcfg⟩
    exact hrun.mono fun _ _ _ _ => trivial
  exact (Machine.sound hmain hinit h).removed

/-! ## A reader that ends early -/

def twoBytes (_ : Bytes) : Bytes := [97, 98]

/-- The share has one entry of two bytes, and the reader hands out the given ones. -/
def savedAnswers (data : Bytes) : Answers where
  list := .ok [{ id := [49], name := [97], size := 2 }]
  save := .ok { state := .succeeded, items := [{ sourceID := [49], savedID := [50] }] }
  transfer := { read := .ok { data := data, sched := [], eager := false, last := .eof } }

def downloadDir : Destination := .ofElems false [[100]]

deriving instance DecidableEq for Destination

theorem apart_iff (dest : Destination) (saved : List SavedEntry) :
    (((keptEntries saved).map SavedEntry.remoteID).Nodup ∧
      (dest.single = false → ((keptEntries saved).map fun s => dest.file s.name).Nodup)) ↔ Apart dest saved := by
  constructor
  · intro h
    exact ⟨h.1, h.2⟩
  · intro h
    exact ⟨h.ids, h.files⟩

instance (dest : Destination) (saved : List SavedEntry) : Decidable (Apart dest saved) :=
  decidable_of_iff _ (apart_iff dest saved)

def checkedFetch (m : Machine Call Answers World (Except RunError Unit)) : Machine.Event Answers Config → Bool
  | .start cfg => cfg.destination = some downloadDir
  | .step e =>
    match m.prog.label? with
    | some (.getShareSave _ _) => false
    | some (.saveShareEntries entries) =>
      match e.save with
      | .ok o =>
        decide (Apart downloadDir (shareSavedEntries o) ∧
          Apart downloadDir (shareSavedEntries (reconcileShareOutcome o entries)))
      | .error _ => true
    | some (.transfer t _) =>
      match e.transfer.read with
      | .ok body => decide ((body.data.length : Int) = t.size ∧ body.data <+: twoBytes t.remoteID)
      | .error _ => true
    | _ => true

theorem allowed_of_checkedFetch {m : Machine Call Answers World (Except RunError Unit)}
    {ev : Machine.Event Answers Config} (h : checkedFetch m ev = true) :
    m.Allowed (SameDestination downloadDir) (Delivered twoBytes downloadDir) ev := by
  cases ev with
  | start cfg =>
    intro d hd
    have hcfg : cfg.destination = some downloadDir := by simpa [checkedFetch] using h
    exact some.inj (hd.symm.trans hcfg)
  | step e =>
    intro l hl
    simp only [checkedFetch, hl] at h
    cases l with
    | saveShareEntries entries =>
      intro o ho
      simpa [ho, ApartOutcome] using h
    | getShareSave handle entries => cases h
    | transfer t path =>
      intro _ body hbody _ _
      simpa [hbody] using h
    | _ => trivial

/-- A fetch that runs to the removal, with the given bytes. -/
def fetchRun (check : Machine Call Answers World (Except RunError Unit) → Machine.Event Answers Config → Bool)
    (data : Bytes) : Option (Machine Call Answers World (Except RunError Unit)) :=
  Machine.run check (runShareTask true) ⟨World.created true false fun _ => none, .ret (.ok ())⟩
    (.start { destination := some downloadDir } :: replicate 16 (.step (savedAnswers data)))

theorem removed_complete_twoBytes : ∃ m : Machine Call Answers World (Except RunError Unit),
    Reaches (Machine.Step (runShareTask true))
      (Machine.Allowed (SameDestination downloadDir) (Delivered twoBytes downloadDir))
      ⟨World.created true false fun _ => none, .ret (.ok ())⟩ m ∧
    ∃ r ∈ m.shared.removals, r.entry.size = 2 ∧ Holds twoBytes downloadDir r.files r.entry := by
  have hrun : (fetchRun checkedFetch [97, 98]).map (fun m => m.shared.removals.map fun r => r.entry.size) =
      some [2] := by
    decide +kernel
  obtain ⟨m, hm, hsizes⟩ := map_eq_some_iff.mp hrun
  have hreach := Machine.reaches_run (fun _ _ => allowed_of_checkedFetch) hm
  obtain ⟨r, hr, hsize⟩ := mem_map.mp (hsizes ▸ mem_singleton.mpr rfl :
    (2 : Int) ∈ m.shared.removals.map fun r => r.entry.size)
  exact ⟨m, hreach, r, hr, hsize, removed_complete twoBytes downloadDir true false _ hreach r hr⟩

/-- **A copy is removed after a reader ended early.** -/
theorem short_reader_removed : ∃ m : Machine Call Answers World (Except RunError Unit),
    Reaches (Machine.Step (runShareTask true)) (fun _ _ => True)
      ⟨World.created true false fun _ => none, .ret (.ok ())⟩ m ∧
    ∃ r ∈ m.shared.removals, ¬ Holds twoBytes downloadDir r.files r.entry := by
  have hrun : (fetchRun (fun _ _ => true) [97]).map
      (fun m => m.shared.removals.map fun r => (r.entry.size, r.files (downloadDir.file r.entry.name))) =
      some [(2, some [97])] := by
    decide +kernel
  obtain ⟨m, hm, hremoved⟩ := map_eq_some_iff.mp hrun
  obtain ⟨r, hr, heq⟩ := mem_map.mp (hremoved ▸ mem_singleton.mpr rfl :
    ((2 : Int), some [97]) ∈ m.shared.removals.map fun r => (r.entry.size, r.files (downloadDir.file r.entry.name)))
  obtain ⟨hsize, hfile⟩ := Prod.mk.inj heq
  refine ⟨m, Machine.reaches_run (fun _ _ _ => trivial) hm, r, hr, fun hholds => ?_⟩
  obtain ⟨bytes, hbytes, hlength, -⟩ := hholds (by rw [hsize]; decide)
  rw [hfile] at hbytes
  rw [← some.inj hbytes, hsize] at hlength
  exact absurd hlength (by decide)

end Share
