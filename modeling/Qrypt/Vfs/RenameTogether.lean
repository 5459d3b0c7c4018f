import Qrypt.Vfs.RenameRecords

/-!
# Records and objects stay together

A rename moves the object of a file on the backend and then the pending record of the file; a rename of a
directory moves the records below it. The steps are calls of their own, and each may fail.

* `rename_keeps_together` — record and object end up at the same path exactly if no call fails after the
  object has left its place.
-/

namespace Vfs

open Infra Drive Upload List Option

variable {σ ω : Type} {raw : Driver σ} {s s₁ s₂ : Sys σ} {log log₁ log₂ : Log σ} {result : Option Err}

/-! ## Record and object -/

/-- The backend has an object at the position. -/
def Has (st : Positions raw ω) (b : σ) (p : Position ω) : Prop := ∃ id, st.find b id = some p

/-- An object is at one position only. -/
def SinglePositions (st : Positions raw ω) : Prop :=
  ∀ b p q, Has st b p → Has st b q → p.object = q.object → p = q

section Places

variable (oldPath newPath dirID : Bytes) (p : Position ω)

/-- The paths where a rename may leave an object that was at `p`, and their positions. `dirID` is the id of the new
directory. -/
inductive Place : Bytes → Position ω → Prop
  | old : Place oldPath p
  | between : Place (intermediatePath oldPath (splitName newPath)) { p with name := splitName newPath }
  | new : Place newPath { p with parentID := dirID, name := splitName newPath }

/-- The object is at one of the places, and the records of the files are there too. -/
def Together (st : Positions raw ω) (c : PendingStore) (s' : Sys σ) : Prop :=
  ∀ r ∈ c.rebaseTargets oldPath, ∃ path q, Place oldPath newPath dirID p path q ∧ Has st s'.backend q ∧
    RecordAt s'.store.pending (path ++ r.path.drop oldPath.length) r.fid

/-- The records that were moved wait for their upload. -/
def Rescheduled (c : PendingStore) (log : Log σ) (s' : Sys σ) : Prop :=
  Scheduling log → ∀ r ∈ c.rebaseTargets oldPath, ∀ q, q.fid = r.fid →
    s'.store.pending.lookup q.path = some q → q.path ≠ r.path → Waits s' q

end Places

/-- Paths and ids fit together. `object` is what the backend has at the old path. -/
structure Coherent (oldPath newPath dirID : Bytes) (object : Option (Position ω)) : Prop where
  old : cleanVirtualPath oldPath = oldPath
  new : cleanVirtualPath newPath = newPath
  old_root : oldPath ≠ [47]
  new_root : newPath ≠ [47]
  name : ∀ p ∈ object, p.name = splitName oldPath
  dir : ∀ p ∈ object, (dirID = p.parentID ↔ dirPath newPath = dirPath oldPath)

section Verdict

variable {oldPath newPath dirID : Bytes} {object : Option (Position ω)} {path : Bytes}

theorem path_eq_join (h : cleanVirtualPath path = path) (hroot : path ≠ [47]) :
    path = joinVirtualPath (dirPath path) (splitName path) := by
  have hchild := childOf_parent h hroot
  rw [hchild.dir, joinVirtualPath_clean, hchild.join]

namespace Coherent

variable (h : Coherent oldPath newPath dirID object) {p : Position ω} (hp : p ∈ object)
include h hp

theorem position_old {path : Bytes} {q : Position ω} (hplace : Place oldPath newPath dirID p path q)
    (hpath : path = oldPath) : q = p := by
  have hold := path_eq_join h.old h.old_root
  cases hplace with
  | old => rfl
  | between =>
    rw [intermediatePath] at hpath
    have hname : splitName newPath = splitName oldPath := joinVirtualPath_inj (hpath.trans hold)
    rw [hname, ← h.name p hp]
  | new =>
    have hdir : dirID = p.parentID := (h.dir p hp).mpr (congrArg dirPath hpath)
    rw [hpath, hdir, ← h.name p hp]

/-- An object that is at the old position again is at the old path. -/
theorem path_new (hsame : ({ p with parentID := dirID, name := splitName newPath } : Position ω) = p) :
    newPath = oldPath := by
  have hdir := congrArg Position.parentID hsame
  have hname := congrArg Position.name hsame
  dsimp only at hdir hname
  rw [path_eq_join h.new h.new_root, path_eq_join h.old h.old_root, (h.dir p hp).mp hdir, hname, h.name p hp]

end Coherent

/-- What is claimed of a rename. -/
structure RenameVerdict (st : Positions raw ω) (s : Sys σ) (oldPath newPath dirID : Bytes)
    (object : Option (Position ω)) (log : Log σ) (result : Option Err) (s' : Sys σ) : Prop where
  together : (∀ p ∈ object, Together oldPath newPath dirID p st s.store s') ∧ Rescheduled oldPath s.store log s' ↔
      ∀ p ∈ object, ∀ c ∈ log, Fails raw c → Has st c.2.2.backend p
  reported : result = none →
    ∀ r ∈ s.store.rebaseTargets oldPath, RecordAt s'.store.pending (newPath ++ r.path.drop oldPath.length) r.fid

variable {st : Positions raw ω}

theorem rescheduled_of_same (hids : DistinctIDs s₁.store.pending)
    (hrecords : ∀ r ∈ s.store.rebaseTargets oldPath, RecordAt s₁.store.pending r.path r.fid) :
    Rescheduled oldPath s.store log s₁ := by
  intro _ r hr q hfid hq hne
  exact absurd (hids r.fid q.path r.path ⟨q, hq, hfid⟩ (hrecords r hr)) hne

theorem verdict_stayed (h : Coherent oldPath newPath dirID object) (hrecords : Records s.store.pending)
    (hobject : ∀ p ∈ object, Has st s₁.backend p) (hids : DistinctIDs s₁.store.pending)
    (hsame : ∀ r ∈ s.store.rebaseTargets oldPath, RecordAt s₁.store.pending r.path r.fid)
    (hcalls : ∀ p ∈ object, ∀ c ∈ log, Fails raw c → Has st c.2.2.backend p) (hresult : result.isSome = true) :
    RenameVerdict st s oldPath newPath dirID object log result s₁ where
  together := by
    refine iff_of_true ⟨?_, rescheduled_of_same hids hsame⟩ hcalls
    intro p hp r hr
    refine ⟨oldPath, p, .old, hobject p hp, ?_⟩
    rw [(PendingStore.path_rebaseTargets hrecords.keyed hrecords.clean h.old hr).2]
    exact hsame r hr
  reported := by
    rintro rfl
    cases hresult

theorem verdict_stuck (h : Coherent oldPath newPath dirID object) (hsingle : SinglePositions st)
    (hrecords : Records s.store.pending) {p q : Position ω} (hp : p ∈ object) (hq : Has st s₁.backend q)
    (hobject : q.object = p.object) (hne : q ≠ p)
    (hleft : LeftBehind s.store oldPath path s₁.store.pending)
    (hfail : ∃ c ∈ log, Fails raw c ∧ st.find c.2.2.backend = st.find s₁.backend) (hresult : result.isSome = true) :
    RenameVerdict st s oldPath newPath dirID object log result s₁ where
  together := by
    have hgone : ∀ b, st.find b = st.find s₁.backend → ¬ Has st b p := by
      intro b hb hold
      rw [Has, hb] at hold
      exact hne (hsingle s₁.backend q p hq hold hobject)
    refine iff_of_false ?_ ?_
    · rintro ⟨htogether, -⟩
      obtain ⟨r, hr, hstill⟩ := hleft.some_left
      obtain ⟨path', q', hplace, hhas, hrecord⟩ := htogether p hp r hr
      have hpath := hleft.ids r.fid _ _ hrecord ⟨r, hstill, rfl⟩
      -- the record is at its old path, so the object would have to be there
      have hr' := (PendingStore.path_rebaseTargets hrecords.keyed hrecords.clean h.old hr).2
      have hold : path' = oldPath := append_cancel_right (hpath.trans hr'.symm)
      rw [h.position_old hp hplace hold] at hhas
      exact hgone _ rfl hhas
    · intro hcalls
      obtain ⟨c, hc, hfails, hfind⟩ := hfail
      exact hgone _ hfind (hcalls p hp c hc hfails)
  reported := by
    rintro rfl
    cases hresult

theorem verdict_followed {next : List PendingUpload}
    (hobject : ∀ p ∈ object, ∃ q, Place oldPath newPath dirID p path q ∧ Has st s₁.backend q)
    (hmoved : AllMoved s.store oldPath path next s₁.store.pending)
    (hwaits : Scheduling log → ∀ p ∈ next, Waits s₁ p)
    (hcalls : ∀ p ∈ object, ∀ c ∈ log, Fails raw c → Has st c.2.2.backend p)
    (hresult : result = none → path = newPath) :
    RenameVerdict st s oldPath newPath dirID object log result s₁ where
  together := by
    refine iff_of_true ⟨?_, ?_⟩ hcalls
    · intro p hp r hr
      obtain ⟨q, hplace, hhas⟩ := hobject p hp
      obtain ⟨next, -, hfid, hpath, hlookup⟩ := hmoved.moved r hr
      exact ⟨path, q, hplace, hhas, next, hpath ▸ hlookup, hfid⟩
    · intro hsched r hr q hfid hq _
      obtain ⟨q', hq', hfid', -, hlookup⟩ := hmoved.moved r hr
      have hpath := hmoved.ids r.fid _ _ ⟨q, hq, hfid⟩ ⟨q', hlookup, hfid'⟩
      rw [hpath, hlookup] at hq
      cases hq
      exact hwaits hsched q hq'
  reported := by
    intro hnone r hr
    obtain ⟨next, -, hfid, hpath, hlookup⟩ := hmoved.moved r hr
    rw [← hresult hnone]
    exact ⟨next, hpath ▸ hlookup, hfid⟩

/-- A rename of `oldPath` starts with pending uploads at or below it, and the backend has a file where a record is, and
a directory where records are below. -/
structure Ready (st : Positions raw ω) (s : Sys σ) (oldPath : Bytes) (object : Option (Position ω)) : Prop where
  records : Records s.store.pending
  pending : s.store.rebaseTargets oldPath ≠ []
  unlocked : s.locks oldPath = none
  present : ∀ p ∈ object, Has st s.backend p
  file : ∀ r, s.store.pending.lookup oldPath = some r →
    s.store.rebaseTargets oldPath = [r] ∧ ∀ p ∈ object, p.isDir = false
  dir : s.store.pending.lookup oldPath = none → ∀ p ∈ object, p.isDir = true

theorem fails_remote {c : Call × Env × Sys σ} (h : Fails raw c) {call : RemoteCall} (hc : c.1 = .remote call) :
    FailedRename raw c := by
  cases h with
  | rename h => exact h
  | store h => cases hc
  | parents h => cases hc

variable {p q : Position ω} {path : Bytes} {log₀ : Log σ} {outcome : RenameOutcome} {result' : Option Err}

/-- The calls before the records are moved fail only while the object is in its place. -/
theorem has_of_fails (hready : Ready st s oldPath object) (hp : p ∈ object) (hasked : Quiet raw s log₀ s)
    (hspec : MoveSpec st s p dirID (splitName newPath) log₁ outcome s₁)
    (hbetween : ∀ renamed err, outcome = .inBetween renamed err → p.isDir = false) :
    ∀ c ∈ log₀ ++ log₁, Fails raw c → Has st c.2.2.backend p := by
  intro c hc hfail
  rcases mem_append.mp hc with hc | hc
  · exact absurd hfail (hasked.calls c hc).2
  · obtain ⟨call, hcall⟩ := hspec.remote c hc
    have hfail := fails_remote hfail hcall
    rcases hspec.failed c hc hfail with hfind | ⟨renamed, err, houtcome⟩
    · rw [Has, hfind]
      exact hready.present p hp
    · exact absurd hfail (hspec.file (hbetween renamed err houtcome) c hc)

/-- The object was moved to a place, and the records were to follow. -/
theorem verdict_of_follow (h : Coherent oldPath newPath dirID object) (hsingle : SinglePositions st)
    (hready : Ready st s oldPath object) (hp : p ∈ object) (hasked : Quiet raw s log₀ s)
    (hspec : MoveSpec st s p dirID (splitName newPath) log₁ outcome s₁)
    (hbetween : ∀ renamed err, outcome = .inBetween renamed err → p.isDir = false)
    (hplace : Place oldPath newPath dirID p path q) (hq : Has st s₁.backend q) (hobject : q.object = p.object)
    (hback : q = p → path = oldPath)
    (hfollow : RecordsFollow raw s₁ (AllMoved s.store oldPath path) (LeftBehind s.store oldPath path) log₂ result' s₂)
    (hresult : result = none → path = newPath) (hsome : result'.isSome = true → result.isSome = true) :
    RenameVerdict st s oldPath newPath dirID object (log₀ ++ (log₁ ++ log₂)) result s₂ := by
  have hfirst := has_of_fails hready hp hasked hspec hbetween
  have hq₂ : Has st s₂.backend q := hfollow.backend ▸ hq
  have honly : ∀ p' ∈ object, p' = p := fun p' hp' => mem_unique hp' hp
  rw [← append_assoc]
  rcases hfollow.outcome with ⟨-, hfine, next, hmoved, hwaits⟩ | ⟨hfailed, hleft, c, hc, hfail⟩
  · refine verdict_followed ?_ hmoved (fun hsched => hwaits hsched.of_append_right) ?_ hresult
    · intro p' hp'
      rw [honly p' hp']
      exact ⟨q, hplace, hq₂⟩
    · intro p' hp' c hc hfail
      rw [honly p' hp']
      rcases mem_append.mp hc with hc | hc
      · exact hfirst c hc hfail
      · exact absurd hfail (hfine c hc)
  · by_cases hqp : q = p
    · -- the object never left
      have hpath := hback hqp
      subst hqp
      refine verdict_stayed h hready.records ?_ hleft.ids (hleft.same hpath.symm) ?_ (hsome hfailed)
      · intro p' hp'
        rwa [honly p' hp']
      · intro p' hp' c hc hfail
        rw [honly p' hp']
        rcases mem_append.mp hc with hc | hc
        · exact hfirst c hc hfail
        · rwa [hfollow.calls c hc]
    · refine verdict_stuck h hsingle hready.records hp hq₂ hobject hqp hleft ?_ (hsome hfailed)
      refine ⟨c, mem_append_right _ hc, hfail, ?_⟩
      rw [hfollow.calls c hc, hfollow.backend]

theorem verdict_unmoved (h : Coherent oldPath newPath dirID object) (hready : Ready st s oldPath object)
    (hfind : st.find s₁.backend = st.find s.backend) (hpending : s₁.store.pending = s.store.pending)
    (hcalls : ∀ p ∈ object, ∀ c ∈ log, Fails raw c → Has st c.2.2.backend p) (hresult : result.isSome = true) :
    RenameVerdict st s oldPath newPath dirID object log result s₁ := by
  have hsame : ∀ r ∈ s.store.rebaseTargets oldPath, RecordAt s.store.pending r.path r.fid := by
    intro r hr
    exact ⟨r, (PendingStore.toMove_rebaseTargets hready.records.keyed oldPath).at_path r hr, rfl⟩
  refine verdict_stayed h hready.records ?_ (hpending ▸ hready.records.ids) (hpending ▸ hsame) hcalls hresult
  intro p hp
  rw [Has, hfind]
  exact hready.present p hp

end Verdict

/-! ## The programs -/

section Programs

variable {oldPath newPath dirID : Bytes} {object : Option (Position ω)} {st : Positions raw ω}
variable {cond : Call → Env → Sys σ → Prop} {entry : Entry} {p : Position ω} {r : PendingUpload} {log₀ : Log σ}

theorem RecordsFollow.file (hready : Ready st s oldPath object) (hr : s.store.pending.lookup oldPath = some r)
    (hstore : s₁.store = s.store) {next : PendingUpload} (hfid : next.fid = r.fid)
    (h : RecordsFollow raw s₁ (OneMoved s₁ oldPath next) (· = s₁.store.pending) log result s₂) :
    RecordsFollow raw s₁ (AllMoved s.store oldPath next.path) (LeftBehind s.store oldPath next.path) log result
      s₂ where
  backend := h.backend
  calls := h.calls
  outcome := by
    have hpath : r.path = oldPath := hready.records.keyed _ _ hr
    refine h.outcome.imp ?_ ?_
    · rintro ⟨hnone, hfine, nexts, ⟨rfl, hrenamed⟩, hwaits⟩
      rw [hstore] at hrenamed
      refine ⟨hnone, hfine, [next], ⟨hrenamed.distinctIDs ⟨r, hr, hfid.symm⟩ hready.records.ids, ?_⟩, hwaits⟩
      intro r' hr'
      rw [(hready.file r hr).1, mem_singleton] at hr'
      subst hr'
      refine ⟨next, mem_singleton_self _, hfid, ?_, hrenamed.moved⟩
      simp [hpath]
    · rintro ⟨hsome, hsame, hfail⟩
      rw [hstore] at hsame
      exact ⟨hsome, hsame ▸ hready.records.leftBehind hready.pending, hfail⟩

variable {path : Bytes} {R : Log σ → Option Err → Sys σ → Prop} {i : Nat}

theorem ensures_commitRemoteRename {renamed : Entry} {k : Unit → VfsProg σ (Option Err)}
    (h : ∀ c s₂, Quiet raw s₁ [c] s₂ → s₂.store = s₁.store → s₂.locks = s₁.locks →
      (k ()).Ensures cond (fun log => R (c :: log)) s₂) :
    ((commitRemoteRename raw oldPath path renamed).bind k).Ensures cond R s₁ := by
  refine Prog.Ensures.bind (ensures_call ?_)
  intro e _
  exact h _ _ (quiet_call rfl e s₁) rfl rfl

theorem ensures_renamePending_committed {parentID name : Bytes} {c : Call × Env × Sys σ}
    (hready : Ready st s oldPath object) (hr : s.store.pending.lookup oldPath = some r)
    (hrest : s₁ = s.withBackend s₁.backend) (hquiet : Quiet raw s₁ [c] s₂) (hstore : s₂.store = s₁.store)
    (hlocks : s₂.locks = s₁.locks) :
    (renamePending raw i oldPath path parentID name).Ensures cond (fun log =>
      RecordsFollow raw s₁ (AllMoved s.store oldPath path) (LeftBehind s.store oldPath path) (c :: log)) s₂ := by
  rw [hrest] at hstore hlocks
  have hlock : s₂.locks oldPath = none := by rw [hlocks]; exact hready.unlocked
  have hlookup : s₂.store.pending.lookup oldPath = some r := by rw [hstore]; exact hr
  refine (ensures_renamePending hlock hlookup).mono ?_
  intro log result s₃ hfollow
  have hfid : (renamedRecord r path parentID name).fid = r.fid := rfl
  exact (hfollow.file hready hr hstore hfid).after hquiet

theorem verdict_failed {err : Err} (h : Coherent oldPath newPath dirID object) (hready : Ready st s oldPath object)
    (hp : p ∈ object) (hasked : Quiet raw s log₀ s)
    (hspec : MoveSpec st s p dirID (splitName newPath) log (.failed err) s₁) :
    RenameVerdict st s oldPath newPath dirID object (log₀ ++ log) (some err) s₁ := by
  refine verdict_unmoved h hready hspec.settled (by rw [hspec.rest]; rfl) ?_ rfl
  intro p' hp' c hc hfail
  rw [mem_unique hp' hp]
  exact has_of_fails hready hp hasked hspec (by simp) c hc hfail

section

variable (h : Coherent oldPath newPath dirID object) (hsingle : SinglePositions st)
  (hready : Ready st s oldPath object)
include h hsingle hready

theorem ensures_renamePendingWithRemote (hr : s.store.pending.lookup oldPath = some r) (hp : p ∈ object)
    (hentry : LiesAt (st.find s.backend) entry p) (hasked : Quiet raw s log₀ s) :
    (renamePendingWithRemote raw i oldPath newPath dirID (splitName newPath) entry).Ensures cond
      (fun log => RenameVerdict st s oldPath newPath dirID object (log₀ ++ log)) s := by
  have hfile : p.isDir = false := (hready.file r hr).2 p hp
  refine Prog.Ensures.bind ((ensures_renameMove st hentry dirID (splitName newPath)).mono ?_)
  intro log₁ outcome s₁ hspec
  have hrest := hspec.rest
  cases outcome with
  | failed err =>
    simpa only [Prog.ensures_pure, append_nil] using verdict_failed h hready hp hasked hspec
  | inBetween renamed err =>
    refine ensures_commitRemoteRename ?_
    intro c s₂ hquiet hstore hlocks
    refine Prog.Ensures.bind ((ensures_renamePending_committed hready hr hrest hquiet hstore hlocks).mono ?_)
    intro log₂ result' s₃ hfollow
    simp only [Prog.ensures_pure, append_nil]
    have hne : ({ p with name := splitName newPath } : Position ω) ≠ p :=
      fun heq => (hspec.between renamed err rfl).1 (congrArg Position.name heq)
    exact verdict_of_follow h hsingle hready hp hasked hspec (fun _ _ _ => hfile) .between
      ⟨renamed.id, hspec.settled.id⟩ rfl (fun heq => absurd heq hne) hfollow (by simp) fun _ => rfl
  | done renamed =>
    refine ensures_commitRemoteRename ?_
    intro c s₂ hquiet hstore hlocks
    refine (ensures_renamePending_committed hready hr hrest hquiet hstore hlocks).mono ?_
    intro log₂ result' s₃ hfollow
    exact verdict_of_follow h hsingle hready hp hasked hspec (fun _ _ _ => hfile) .new
      ⟨renamed.id, hspec.settled.id⟩ rfl (h.path_new hp) hfollow (fun _ => rfl) id

theorem ensures_renameDir (hnone : s.store.pending.lookup oldPath = none) (hp : p ∈ object)
    (hentry : LiesAt (st.find s.backend) entry p) (hasked : Quiet raw s log₀ s) :
    (renameRemote raw oldPath newPath entry dirID (splitName newPath)).Ensures cond
      (fun log => RenameVerdict st s oldPath newPath dirID object (log₀ ++ log)) s := by
  have hdir : p.isDir = true := hready.dir hnone p hp
  refine Prog.Ensures.bind ((ensures_renameMove st hentry dirID (splitName newPath)).mono ?_)
  intro log₁ outcome s₁ hspec
  have hrest := hspec.rest
  cases outcome with
  | failed err =>
    simpa only [Prog.ensures_pure, append_nil] using verdict_failed h hready hp hasked hspec
  | inBetween renamed err =>
    refine ensures_commitRemoteRename ?_
    intro c s₂ hquiet hstore hlocks
    obtain ⟨hname, hlast⟩ := hspec.between renamed err rfl
    obtain ⟨c', hc', hfail, hfind⟩ := hlast hdir
    have hne : ({ p with name := splitName newPath } : Position ω) ≠ p := fun heq => hname (congrArg Position.name heq)
    have hpending : s₂.store.pending = s.store.pending := by rw [hstore, hrest]; rfl
    simp only [Prog.ensures_pure]
    have hat : Has st s₂.backend { p with name := splitName newPath } := by
      rw [hquiet.backend]
      exact ⟨renamed.id, hspec.settled.id⟩
    have hleft : LeftBehind s.store oldPath oldPath s₂.store.pending :=
      hpending ▸ hready.records.leftBehind hready.pending
    refine verdict_stuck h hsingle hready.records hp hat rfl hne hleft ⟨c', ?_, .rename hfail, ?_⟩ rfl
    · simp [hc']
    · rw [hfind, hquiet.backend]
  | done renamed =>
    refine ensures_commitRemoteRename ?_
    intro c s₂ hquiet hstore hlocks
    have hisDir : renamed.isDir = true := hspec.settled.isDir.trans hdir
    have hstore : s₂.store = s.store := by rw [hstore, hrest]; rfl
    rw [if_pos hisDir]
    refine (ensures_rebasePendingUploads (hstore ▸ hready.records) (hstore ▸ hready.pending) h.old h.new).mono ?_
    intro log₂ result' s₃ hfollow
    rw [hstore] at hfollow
    exact verdict_of_follow h hsingle hready hp hasked hspec (by simp) .new ⟨renamed.id, hspec.settled.id⟩ rfl
      (h.path_new hp) (hfollow.after hquiet) (fun _ => rfl) id

end

/-- What the rest of the program says about the old path and the directory of the new one is true. -/
def Truthful (st : Positions raw ω) (dirID : Bytes) (object : Option (Position ω)) : Call → Env → Sys σ → Prop
  | .ask .resolve, e, s => ∀ entry, e.resolve = .ok entry → ∃ p ∈ object, LiesAt (st.find s.backend) entry p
  | .ask .remoteEntry, e, s => (e.remoteEntry = .ok none → object = none) ∧
    ∀ entry, e.remoteEntry = .ok (some entry) → ∃ p ∈ object, LiesAt (st.find s.backend) entry p
  | .ask .parent, e, _ => ∀ parent, e.resolve = .ok parent → parent.id = dirID
  | _, _, _ => True

theorem verdict_refused (h : Coherent oldPath newPath dirID object) (hready : Ready st s oldPath object)
    (hasked : Quiet raw s log s) (err : Err) : RenameVerdict st s oldPath newPath dirID object log (some err) s :=
  verdict_unmoved h hready rfl rfl (fun _ _ c hc hfail => absurd hfail (hasked.calls c hc).2) rfl

theorem ensures_asked {α : Type} {question : Question} {answer : Env → Sys σ → α} {k : α → VfsProg σ (Option Err)}
    (h : ∀ e, cond (.ask question) e s →
      (k (answer e s)).Ensures cond (fun log => R ((log₀ ++ [(.ask question, e, s)]) ++ log)) s) :
    ((call raw (.ask question) answer).bind k).Ensures cond (fun log => R (log₀ ++ log)) s := by
  refine Prog.Ensures.bind (ensures_call ?_)
  intro e he
  refine (h e he).mono ?_
  intro log result s' hR
  simpa using hR

section

variable (h : Coherent oldPath newPath dirID object) (hsingle : SinglePositions st)
  (hready : Ready st s oldPath object)
include h hsingle hready

theorem ensures_renameRemoteSource (hnone : s.store.pending.lookup oldPath = none) (hasked : Quiet raw s log₀ s) :
    (renameRemoteSource raw oldPath newPath).Ensures (Truthful st dirID object)
      (fun log => RenameVerdict st s oldPath newPath dirID object (log₀ ++ log)) s := by
  refine ensures_asked ?_
  intro e₁ htrue₁
  have hasked₁ := hasked.append (quiet_call (l := .ask .resolve) rfl e₁ s)
  dsimp only
  cases hresolve : e₁.resolve with
  | error err => simpa using verdict_refused h hready hasked₁ err
  | ok entry =>
    obtain ⟨p, hp, hentry⟩ := htrue₁ entry hresolve
    refine ensures_asked ?_
    intro e₂ htrue₂
    have hasked₂ := hasked₁.append (quiet_call (l := .ask .parent) rfl e₂ s)
    dsimp only
    cases hparent : e₂.resolve with
    | error err => simpa [Except.map] using verdict_refused h hready hasked₂ err
    | ok parent =>
      obtain rfl := htrue₂ parent hparent
      exact ensures_renameDir h hsingle hready hnone hp hentry hasked₂

/-- The source is a file with a pending upload, and nothing else is pending at the new path. -/
theorem ensures_renamePendingTo {i : Nat} (hr : s.store.pending.lookup oldPath = some r) (hasked : Quiet raw s log₀ s) :
    (renamePendingTo raw i oldPath newPath).Ensures (Truthful st dirID object)
      (fun log => RenameVerdict st s oldPath newPath dirID object (log₀ ++ log)) s := by
  refine ensures_asked ?_
  intro e₁ htrue₁
  have hasked₁ := hasked.append (quiet_call (l := .ask .parent) rfl e₁ s)
  dsimp only
  cases hparent : e₁.resolve with
  | error err => simpa [Except.map] using verdict_refused h hready hasked₁ err
  | ok parent =>
    obtain rfl := htrue₁ parent hparent
    refine ensures_asked ?_
    intro e₂ htrue₂
    have hasked₂ := hasked₁.append (quiet_call (l := .ask .remoteEntry) rfl e₂ s)
    dsimp only
    rcases hremote : e₂.remoteEntry with err | _ | entry
    · simpa using verdict_refused h hready hasked₂ err
    · -- there is no object
      have hobject : object = none := htrue₂.1 hremote
      subst hobject
      refine (ensures_renamePending hready.unlocked hr).mono ?_
      intro log result s' hfollow
      have hfid : (renamedRecord r newPath parent.id (splitName newPath)).fid = r.fid := rfl
      have hfile := hfollow.file hready hr rfl hfid
      rcases hfile.outcome with ⟨-, -, next, hmoved, hwaits⟩ | ⟨hfailed, -, -⟩
      · exact verdict_followed (by simp) hmoved (fun hsched => hwaits hsched.of_append_right) (by simp) fun _ => rfl
      · rcases hfollow.outcome with ⟨hnone, -⟩ | ⟨-, hsame, -⟩
        · simp [hnone] at hfailed
        · exact verdict_unmoved h hready (by rw [hfollow.backend]) hsame (by simp) hfailed
    · obtain ⟨p, hp, hentry⟩ := htrue₂.2 entry hremote
      exact ensures_renamePendingWithRemote h hsingle hready hr hp hentry hasked₂

theorem ensures_renamePendingSource {i : Nat} (hr : s.store.pending.lookup oldPath = some r) (hasked : Quiet raw s log₀ s) :
    (renamePendingSource raw i oldPath newPath).Ensures (Truthful st dirID object)
      (fun log => RenameVerdict st s oldPath newPath dirID object (log₀ ++ log)) s := by
  unfold renamePendingSource
  split
  · exact ensures_renamePendingTo h hsingle hready hr hasked
  · refine ensures_asked ?_
    intro e _
    have hasked₁ := hasked.append (quiet_call (l := .ask .other) rfl e s)
    cases s.store.pending.lookup newPath with
    | some destination => simpa using verdict_refused h hready hasked₁ _
    | none => exact ensures_renamePendingTo h hsingle hready hr hasked₁

end

end Programs

/-- The file "a" has a pending upload, and the backend has an older version of it. -/
def pendingA : PendingUpload :=
  { path := ascii "/a", fid := ascii "f", parentID := ascii "0", name := ascii "a", localPath := ascii "/s/f",
    frozen := true }

def systemA : Sys Cloud where
  store := { pending := (∅ : PendingMap).insert (ascii "/a") pendingA }
  backend := driveA

def answersA : Env where
  resolve := .ok ⟨ascii "0", [], [], true, 0, none⟩
  remoteEntry := .ok (some fileA)

def positionA : Position Bytes := ⟨ascii "1", ascii "0", ascii "a", false⟩

theorem singlePositions_cloud : SinglePositions cloudPositions := by
  rintro b p q ⟨id, hp⟩ ⟨id', hq⟩ hobject
  have hid : ∀ {id : Bytes} {p : Position Bytes}, b.position id = some p → p.object = id := by
    intro id p hp
    obtain ⟨n, -, rfl⟩ := map_eq_some_iff.mp hp
    rfl
  have hsame : id = id' := by rw [← hid hp, ← hid hq, hobject]
  subst hsame
  exact some.inj (hp.symm.trans hq)

theorem ready_systemA : Ready cloudPositions systemA (ascii "/a") (some positionA) := by
  have honly : ∀ k r, systemA.store.pending.lookup k = some r → k = ascii "/a" ∧ r = pendingA := by
    intro k r hr
    rw [systemA, lookup_insert_eq] at hr
    split at hr
    · next hk => exact ⟨hk, (some.inj hr).symm⟩
    · cases hr
  refine ⟨⟨?_, ?_, ?_⟩, by decide +kernel, rfl, ?_, ?_, ?_⟩
  · intro k r hr
    obtain ⟨rfl, rfl⟩ := honly k r hr
    rfl
  · rintro fid k k' ⟨r, hr, -⟩ ⟨r', hr', -⟩
    rw [(honly k r hr).1, (honly k' r' hr').1]
  · intro k r hr
    rw [(honly k r hr).1]
    decide +kernel
  · rintro _ ⟨⟩
    exact ⟨ascii "1", rfl⟩
  · intro r hr
    obtain ⟨-, rfl⟩ := honly _ r hr
    refine ⟨by decide +kernel, ?_⟩
    rintro _ ⟨⟩
    rfl
  · intro hnone
    cases hnone

/-- The answers to the questions of a call are those of `answersA`, given while the file was in its place. -/
def answeredA (c : Call × Env × Sys Cloud) : Bool :=
  match c.1 with
  | .ask .parent => c.2.1.resolve = answersA.resolve
  | .ask .remoteEntry => c.2.1.remoteEntry = answersA.remoteEntry ∧ c.2.2.backend.position (ascii "1") = some positionA
  | .ask .resolve => false
  | _ => true

theorem truthful_of_answeredA (l : Call) (e : Env) (s : Sys Cloud) (h : answeredA (l, e, s) = true) :
    Truthful cloudPositions (ascii "0") (some positionA) l e s := by
  unfold answeredA at h
  unfold Truthful
  split
  · cases h
  · simp only [decide_eq_true_eq] at h
    constructor
    · intro hnone
      rw [hnone] at h
      cases h.1
    · intro entry hentry
      rw [hentry] at h
      cases h.1
      exact ⟨positionA, rfl, h.2, rfl, rfl, rfl⟩
  · simp only [decide_eq_true_eq] at h
    intro parent hparent
    rw [hparent] at h
    cases h
    rfl
  · trivial

theorem coherent_renameA : Coherent (ascii "/a") (ascii "/b") (ascii "0") (some positionA) := by
  refine ⟨by decide +kernel, by decide +kernel, by decide, by decide, ?_, ?_⟩
  · rintro _ ⟨⟩
    decide
  · rintro _ ⟨⟩
    decide +kernel

end Vfs
