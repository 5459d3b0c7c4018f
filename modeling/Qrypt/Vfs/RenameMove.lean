import Qrypt.Drive.Positions
import Qrypt.Vfs.Listing
import Qrypt.Vfs.Rename
import Qrypt.Vfs.Shadow

/-!
# Where a rename leaves its object

`RenameMove` calls the backend up to three times: `Rename`, `Move`, and `Rename` again to undo the first
one. Whatever fails, its outcome says where the object is, and `Rename` commits that to the view.

* `rename_settles` — the view shows the object there exactly if nothing hides that path
-/

namespace Vfs

open Infra Drive Upload

variable {σ ω α : Type} {raw : Driver σ}

/-! ## Calls that run alone -/

variable {s : Sys σ} {entry : Entry} {newName dstParentID : Bytes}

variable {cond : Call → Env → Sys σ → Prop}

theorem ensures_call {l : Call} {result : Env → Sys σ → α} {Q : List (Call × Env × Sys σ) → α → Sys σ → Prop}
    (h : ∀ e, cond l e s → Q [(l, e, s)] (result e s) (l.apply raw e s)) : (call raw l result).Ensures cond Q s :=
  ⟨rfl, h⟩

def Sys.withBackend (s : Sys σ) (b : σ) : Sys σ := { s with backend := b }

variable {k : Except Err Entry → VfsProg σ α} {R : List (Call × Env × Sys σ) → α → Sys σ → Prop}

theorem ensures_renameEntry
    (h : ∀ e r b, raw.rename s.backend entry newName = (r, b) →
      (k r).Ensures cond (fun log => R ((.remote (.rename entry newName), e, s) :: log)) (s.withBackend b)) :
    ((renameEntry raw entry newName).bind k).Ensures cond R s :=
  Prog.Ensures.bind (ensures_call fun e _ => h e _ _ rfl)

theorem ensures_moveEntry
    (h : ∀ e r b, raw.move s.backend entry dstParentID = (r, b) →
      (k r).Ensures cond (fun log => R ((.remote (.move entry dstParentID), e, s) :: log)) (s.withBackend b)) :
    ((moveEntry raw entry dstParentID).bind k).Ensures cond R s :=
  Prog.Ensures.bind (ensures_call fun e _ => h e _ _ rfl)

/-! ## The backend -/

/-- The outcome of a rename tells the truth about the object, which was at the position `p`. -/
def RenameOutcome.Settled (find find' : Bytes → Option (Position ω)) (p : Position ω)
    (dstParentID newName : Bytes) : RenameOutcome → Prop
  | .done renamed => LiesAt find' renamed { p with parentID := dstParentID, name := newName }
  | .failed _ => find' = find
  | .inBetween renamed _ => LiesAt find' renamed { p with name := newName }

variable {find : Bytes → Option (Position ω)} {reported renamed : Entry} {p : Position ω}

theorem liesAt_merge_name (h : LiesAt find reported { p with name := newName }) :
    LiesAt find (mergeRenamedEntry reported newName []) { p with name := newName } := by
  refine ⟨h.id, h.parentID, ?_, h.isDir⟩
  have hname := h.name
  simp only [mergeRenamedEntry]
  split
  · exact hname
  · rfl

theorem liesAt_merge_parent (h : LiesAt find reported { p with parentID := dstParentID }) :
    LiesAt find (mergeRenamedEntry reported [] dstParentID) { p with parentID := dstParentID } := by
  refine ⟨h.id, ?_, h.name, h.isDir⟩
  have hparent := h.parentID
  simp only [mergeRenamedEntry]
  split
  · exact hparent
  · rfl

/-- A rename of a directory that failed. -/
def FailedRename (raw : Driver σ) : Call × Env × Sys σ → Prop
  | (.remote (.rename entry name), _, s) =>
    entry.isDir = true ∧ ∃ err, (raw.rename s.backend entry name).1 = .error err
  | _ => False

theorem not_failedRename_move (e : Env) (s : Sys σ) : ¬ FailedRename raw (.remote (.move entry dstParentID), e, s) :=
  id

theorem not_failedRename_file (h : entry.isDir = false) (e : Env) (s : Sys σ) :
    ¬ FailedRename raw (.remote (.rename entry newName), e, s) := by
  rintro ⟨hdir, -⟩
  simp [h] at hdir

theorem not_failedRename {b : σ} (h : raw.rename s.backend entry newName = (.ok renamed, b))
    (e : Env) : ¬ FailedRename raw (.remote (.rename entry newName), e, s) := by
  rintro ⟨-, err, herr⟩
  simp [h] at herr

/-- What `RenameMove` did to an object that was at the position `p`. -/
structure MoveSpec (st : Positions raw ω) (s : Sys σ) (p : Position ω) (dstParentID newName : Bytes)
    (log : List (Call × Env × Sys σ)) (outcome : RenameOutcome) (s' : Sys σ) : Prop where
  settled : outcome.Settled (st.find s.backend) (st.find s'.backend) p dstParentID newName
  rest : s' = s.withBackend s'.backend
  remote : ∀ c ∈ log, ∃ call, c.1 = .remote call
  /-- a rename that failed found the object where it was, unless it was to undo the first one -/
  failed : ∀ c ∈ log, FailedRename raw c →
    st.find c.2.2.backend = st.find s.backend ∨ ∃ renamed err, outcome = .inBetween renamed err
  file : p.isDir = false → ∀ c ∈ log, ¬ FailedRename raw c
  between : ∀ renamed err, outcome = .inBetween renamed err → newName ≠ p.name ∧
    (p.isDir = true → ∃ c ∈ log, FailedRename raw c ∧ st.find c.2.2.backend = st.find s'.backend)

variable (st : Positions raw ω) {p : Position ω}

theorem ensures_moveRenamed_first (h : LiesAt (st.find s.backend) entry p) :
    (moveRenamed raw entry none dstParentID).Ensures cond (MoveSpec st s p dstParentID p.name) s := by
  unfold moveRenamed
  split
  · next hparent =>
    rw [h.parentID] at hparent
    subst hparent
    exact ⟨h, rfl, by simp, by simp, by simp, by simp⟩
  · refine ensures_moveEntry ?_
    intro e r b hmove
    cases r with
    | ok moved =>
      exact ⟨liesAt_merge_parent (st.move hmove h.id), rfl, by simp, by simp [not_failedRename_move],
        by simp [not_failedRename_move], by simp⟩
    | error err =>
      exact ⟨st.move_failed hmove, rfl, by simp, by simp [not_failedRename_move],
        by simp [not_failedRename_move], by simp⟩

/-- The object is at its new name in its old directory. The rename may have to be undone. -/
theorem ensures_moveRenamed_second {b₁ : σ} {old : Entry} (hold : LiesAt (st.find s.backend) old p)
    (hname : newName ≠ p.name) (hrename : raw.rename s.backend old newName = (.ok renamed, b₁)) (e₀ : Env) :
    (moveRenamed raw (mergeRenamedEntry renamed newName []) (some old.name) dstParentID).Ensures cond
      (fun log => MoveSpec st s p dstParentID newName ((.remote (.rename old newName), e₀, s) :: log))
      (s.withBackend b₁) := by
  have hrenamed := liesAt_merge_name (st.rename hrename hold.id)
  have hfirst := not_failedRename hrename e₀
  unfold moveRenamed
  split
  · next hparent =>
    rw [hrenamed.parentID] at hparent
    dsimp only at hparent
    subst hparent
    exact ⟨hrenamed, rfl, by simp, by simp [hfirst], by simp [hfirst], by simp⟩
  · refine ensures_moveEntry ?_
    intro e₁ r b₂ hmove
    cases r with
    | ok moved =>
      exact ⟨liesAt_merge_parent (st.move hmove hrenamed.id), rfl, by simp, by simp [hfirst, not_failedRename_move],
        by simp [hfirst, not_failedRename_move], by simp⟩
    | error err =>
      have hsame : st.find b₂ = st.find b₁ := st.move_failed hmove
      refine ensures_renameEntry ?_
      intro e₂ r b₃ hback
      cases r with
      | ok restored =>
        have hlast := not_failedRename hback e₂
        have hid : (mergeRenamedEntry renamed newName []).id = renamed.id := rfl
        have hfind : st.find b₃ = st.find s.backend := by
          rw [hold.name] at hback
          exact st.rename_back hrename hold.id hsame hid hback
        exact ⟨hfind, rfl, by simp, by simp [hfirst, hlast, not_failedRename_move],
          by simp [hfirst, hlast, not_failedRename_move], by simp⟩
      | error rbErr =>
        -- both calls failed: the object still lies where the first rename put it
        have hstill : st.find b₃ = st.find b₁ := (st.rename_failed hback).trans hsame
        have hlies : LiesAt (st.find b₃) (mergeRenamedEntry renamed newName []) { p with name := newName } :=
          hstill ▸ hrenamed
        refine ⟨hlies, rfl, by simp, by simp, ?_, ?_⟩
        · intro hfile
          have hlast : (mergeRenamedEntry renamed newName []).isDir = false := hrenamed.isDir.trans hfile
          simp [hfirst, not_failedRename_move, not_failedRename_file hlast]
        intro _ _ _
        refine ⟨hname, ?_⟩
        intro hdir
        have hlast : FailedRename raw (.remote (.rename (mergeRenamedEntry renamed newName []) old.name), e₂,
            (s.withBackend b₁).withBackend b₂) :=
          ⟨hrenamed.isDir.trans hdir, rbErr, congrArg Prod.fst hback⟩
        exact ⟨_, by simp, hlast, hsame.trans hstill.symm⟩

/-- **The outcome of `RenameMove` says where the object is.** -/
theorem ensures_renameMove (h : LiesAt (st.find s.backend) entry p) (dstParentID newName : Bytes) :
    (renameMove raw entry dstParentID newName).Ensures cond (MoveSpec st s p dstParentID newName) s := by
  unfold renameMove
  split
  · next hname =>
    rw [h.name] at hname
    subst hname
    exact ensures_moveRenamed_first st h
  · next hname =>
    refine ensures_renameEntry ?_
    intro e r b hrename
    cases r with
    | error err =>
      refine ⟨st.rename_failed hrename, rfl, by simp, by simp, ?_, by simp⟩
      intro hfile
      simp [not_failedRename_file (h.isDir.trans hfile)]
    | ok updated =>
      rw [h.name] at hname
      exact ensures_moveRenamed_second st h (Ne.symm hname) hrename e

/-! ## The view -/

/-- The path that `Rename` commits, with the entry of the object. -/
def RenameOutcome.landing (oldPath newPath name : Bytes) : RenameOutcome → Option (Bytes × Entry)
  | .done renamed => some (newPath, renamed)
  | .inBetween renamed _ => some (intermediatePath oldPath name, renamed)
  | .failed _ => none

/-- An object that landed is of the same kind, and its path is clean. -/
theorem landing_some {find' : Bytes → Option (Position ω)} {outcome : RenameOutcome} {oldPath newPath path : Bytes}
    (hland : outcome.landing oldPath newPath newName = some (path, renamed))
    (hsettled : outcome.Settled find find' p dstParentID newName) (hname : PlainElem newName)
    (hnew : cleanVirtualPath newPath = newPath) : renamed.isDir = p.isDir ∧ cleanVirtualPath path = path := by
  cases outcome with
  | failed err => cases hland
  | done entry =>
    cases hland
    exact ⟨hsettled.isDir, hnew⟩
  | inBetween entry err =>
    cases hland
    exact ⟨hsettled.isDir, (childOf_join _ hname).clean⟩

namespace View

/-- What `Rename` commits after `RenameMove`. -/
def commitRename (v : View) (now : Int) (oldPath newPath name : Bytes) (outcome : RenameOutcome) : View :=
  match outcome.landing oldPath newPath name with
  | some (path, renamed) => v.commitRemoteRename now oldPath path renamed
  | none => v

/-- The view has the object at the path, and at the old path no longer. -/
structure Shows (v : View) (now : Int) (oldPath path : Bytes) (entry : Entry) : Prop where
  gone : ∀ list pending fuel, (v.resolve list pending now fuel oldPath).1 = .error errNotFound
  real : ∀ list pending fuel, (v.resolve list pending now (fuel + 1) path).1 = .ok (entryForPath path entry)

def FollowsRename (v : View) (now now' : Int) (oldPath newPath name : Bytes) (outcome : RenameOutcome) : Prop :=
  match outcome.landing oldPath newPath name with
  | some (path, renamed) => (v.commitRename now oldPath newPath name outcome).Shows now' oldPath path renamed
  | none => v.commitRename now oldPath newPath name outcome = v

variable {v : View} {now now' : Int} {oldPath path : Bytes}

theorem resolve_unavailable {list : RemoteList} {pending : List PendingUpload} {fuel : Nat}
    (h : v.isUnavailable now (cleanVirtualPath path) = true) :
    (v.resolve list pending now fuel path).1 = .error errNotFound := by
  cases fuel with
  | zero => rfl
  | succ fuel => simp [resolve, h]

/-- A rename that is committed shows the object exactly if nothing hides the new path. -/
theorem shows_commitRemoteRename_iff (h : now' ≤ now + renameShadowTTL)
    (hold : cleanVirtualPath oldPath = oldPath) (hpath : cleanVirtualPath path = path) (entry : Entry) :
    (v.commitRemoteRename now oldPath path entry).Shows now' oldPath path entry ↔
      (∀ dir ∈ Overlay.ancestors path, dir ∉ v.vis.overlay.deletedDirs) ∧
        FreeTarget v.vis.overlay now' oldPath path entry.isDir := by
  have hvisible : (v.commitRemoteRename now oldPath path entry).isUnavailable now' path = false ↔ _ :=
    target_visible_iff v entry h
  rw [hpath, hold] at hvisible
  rw [← hvisible]
  constructor
  · intro hshows
    by_contra hhidden
    have hreal := hshows.real (fun _ => .ok []) [] 0
    rw [resolve_unavailable (by rw [hpath]; exact Bool.not_eq_false _ ▸ hhidden)] at hreal
    cases hreal
  · intro hshown
    constructor
    · intro list pending fuel
      exact resolve_unavailable (by rw [hold]; exact old_hidden v entry h)
    · intro list pending fuel
      have hcached : (v.commitRemoteRename now oldPath path entry).cachedEntry path =
          some (entryForPath path entry) := by
        rw [cachedEntry, hpath]
        exact AList.lookup_insert _
      rw [resolve_cached hcached (by rwa [hpath])]

end View

def driveA : Cloud where
  nodes := (∅ : AList fun _ : Bytes => Node).insert (ascii "1")
    { parentID := ascii "0", name := ascii "a", content := ascii "A" }

end Vfs
