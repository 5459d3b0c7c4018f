import Qrypt.Drive.Cloud
import Qrypt.Vfs.Jobs

/-!
# A delete that ends, and the next delete of its path

A path can be removed, made again and removed again while its first delete still runs on the backend;
`MarkDeleteComplete` and `MarkDeleteFailed` of the first delete then find the marker of the second one.

`intended` is the state as it should be: a delete that ends touches the marker, the failure and the timer
of its own entry only.

* `deletes_keep_newer` — the two agree, as long as no path is removed while a delete of another entry runs at it
-/

namespace Vfs

open Infra Drive Upload Function

/-! ## The intended state -/

def newerDelete (v : Visibility) (path : Bytes) (entry : Entry) : Bool :=
  (v.overlay.deleted.lookup path).any fun current => current.id ≠ entry.id

/-- A delete ends: it is not active any more, and a newer delete of the path stays as it is. -/
def finishOwn (v : Visibility) (path : Bytes) (entry : Entry) (finish : Visibility → Visibility) : Visibility :=
  if newerDelete v path entry then
    if (v.deleteState.active.lookup path).any (·.id = entry.id) then v.clearActive path else v
  else finish v

/-- The end of `Execute`, with the result of the remote delete. -/
def finishDelete (path : Bytes) (entry : Entry) : Option Err → VisCall
  | some err => .markDeleteFailed path entry err
  | none => .markDeleteComplete path entry

/-- The marker, the failure and the timer of a path. -/
def deleteAt (v : Visibility) (path : Bytes) : Option Entry × Option Bytes × Option Entry :=
  (v.overlay.deleted.lookup path, v.deleteState.failures.lookup path, v.deleteState.scheduler.lookup path)

variable {v : Visibility} {path : Bytes} {entry : Entry}

/-- **What a delete that ends does to a newer one.** -/
theorem deleteAt_finishDelete (now : Int) (result : Option Err) (h : newerDelete v path entry = true) :
    deleteAt ((finishDelete path entry result).apply now v) path = deleteAt v path ↔
      ∃ err, result = some err ∧ v.deleteState.failures.lookup path = some (ascii err.message) := by
  obtain ⟨newer, hnewer, -⟩ := (Option.any_eq_true ..).mp h
  cases result with
  | none =>
    -- the marker is dropped, whatever entry it belongs to
    have hgone : (deleteAt ((finishDelete path entry none).apply now v) path).1 = none :=
      AList.lookup_erase path v.overlay.deleted
    constructor
    · intro hsame
      rw [hsame] at hgone
      cases hnewer.symm.trans hgone
    · rintro ⟨err, herr, -⟩
      cases herr
  | some err =>
    have hfail : deleteAt ((finishDelete path entry (some err)).apply now v) path =
        (v.overlay.deleted.lookup path, some (ascii err.message), v.deleteState.scheduler.lookup path) := by
      simp [deleteAt, finishDelete, VisCall.apply, Visibility.markDeleteFailed, Visibility.clearActive]
    rw [hfail]
    constructor
    · intro hsame
      exact ⟨err, rfl, (Prod.mk.inj (Prod.mk.inj hsame).2).1.symm⟩
    · rintro ⟨err', herr, hsame⟩
      cases herr
      exact congrArg (fun failure => (_, failure, _)) hsame.symm

variable {σ : Type}

def noteIntended (_ : Nat) (l : Call) (e : Env) (_ : Sys σ) (_ : Nat → Option Running)
    (v : Visibility) : Visibility :=
  match l with
  | .vis (.markDeleteFailed path entry err) => finishOwn v path entry (·.markDeleteFailed path err)
  | .vis (.markDeleteComplete path entry) => finishOwn v path entry (·.markDeleteComplete path)
  | .vis call => call.apply e.store.now.1 v
  | _ => v

/-- A path is not removed while a delete of another entry runs at it. -/
def NotOverlapping (_ : Nat) (l : Call) (_ : Env) (s : Noted σ Visibility) : Prop :=
  match l with
  | .vis (.markDeleted path entry) =>
    ∀ k r, s.2.1 k = some r → r.finished = false → r.path = path → r.entry.id = entry.id
  | _ => True

/-! ## The invariant -/

/-- The state is the intended one, and a marker at the path of a delete that runs is its own. -/
structure AsIntended (s : Noted σ Visibility) : Prop where
  same : s.1.vis = s.2.2
  own : ∀ k r, s.2.1 k = some r → r.finished = false →
    ∀ current, s.1.vis.overlay.deleted.lookup r.path = some current → current.id = r.entry.id

variable {raw : Driver σ} {s : Noted σ Visibility} {i : Nat} {l : Call} {e : Env}

theorem marker_of_beginDelete {id : Bytes} (hclean : cleanVirtualPath path = path)
    (h : v.beginDelete path id = true) :
    ∃ current, v.overlay.deleted.lookup path = some current ∧ current.id = id := by
  unfold Visibility.beginDelete at h
  dsimp only at h
  rw [hclean] at h
  split at h
  · cases h
  · next current hcurrent =>
    simp only [Bool.and_eq_true, decide_eq_true_eq] at h
    exact ⟨current, hcurrent, h.1⟩

/-- The running deletes and their markers after a call that marks nothing. -/
theorem AsIntended.own_progress (h : AsIntended s) (hown : Owned (s.2.1 i) l) (hfew : FewerMarkers v s.1.vis) :
    ∀ k r, update s.2.1 i (l.progress e s.1 (s.2.1 i)) k = some r → r.finished = false →
      ∀ current, v.overlay.deleted.lookup r.path = some current → current.id = r.entry.id := by
  intro k r hr hfin current hmark
  have hmark := hfew _ _ hmark
  by_cases hk : k = i
  · subst hk
    rw [update_self] at hr
    unfold Call.progress at hr
    split at hr
    · next path entry =>
      split at hr
      · next hbegin =>
        cases hr
        obtain ⟨found, hfound, hid⟩ := marker_of_beginDelete (hown.clean path rfl) hbegin
        rw [hfound] at hmark
        cases hmark
        exact hid
      · exact h.own k r hr hfin current hmark
    · cases hr
    · cases hr
      cases hfin
    · cases hr
    · exact h.own k r hr hfin current hmark
  · rw [update_of_ne hk] at hr
    exact h.own k r hr hfin current hmark

theorem AsIntended.finishOwn_eq (h : AsIntended s)
    (hrun : s.2.1 i = some ⟨path, entry, false⟩) (finish : Visibility → Visibility) :
    finishOwn s.2.2 path entry finish = finish s.1.vis := by
  have hnot : newerDelete s.1.vis path entry = false := by
    unfold newerDelete
    cases hmark : s.1.vis.overlay.deleted.lookup path with
    | none => rfl
    | some current => simp [h.own i _ hrun rfl current hmark]
  unfold finishOwn
  simp [← h.same, hnot]

theorem AsIntended.same_call (h : AsIntended s) {call : VisCall} (hown : Owned (s.2.1 i) (.vis call)) :
    call.apply e.store.now.1 s.1.vis = noteIntended i (.vis call) e s.1 s.2.1 s.2.2 := by
  cases call with
  | markDeleteFailed path entry err => exact (h.finishOwn_eq (hown.own _ rfl) (·.markDeleteFailed path err)).symm
  | markDeleteComplete path entry => exact (h.finishOwn_eq (hown.own _ rfl) (·.markDeleteComplete path)).symm
  | _ => simp only [noteIntended, h.same]

/-- **A path is removed**, and no delete of another entry runs at it. -/
theorem AsIntended.markDeleted (h : AsIntended s) (hc : NotOverlapping i (.vis (.markDeleted path entry)) e s) :
    AsIntended ((Call.vis (.markDeleted path entry)).noted raw noteIntended i e s) := by
  refine ⟨congrArg (·.markDeleted path entry) h.same, fun k r hr hfin current hmark => ?_⟩
  have hr : s.2.1 k = some r := (congrFun (update_eq_self i s.2.1) k).symm.trans hr
  have hmark : (s.1.vis.overlay.deleted.insert path entry).lookup r.path = some current := hmark
  rw [lookup_insert_eq] at hmark
  split at hmark
  · next hpath =>
    cases hmark
    exact (hc k r hr hfin hpath).symm
  · exact h.own k r hr hfin current hmark

/-- **Every call keeps the intended state.** -/
theorem AsIntended.step (h : AsIntended s) (hown : Owned (s.2.1 i) l)
    (hc : NotOverlapping i l e s) : AsIntended (l.noted raw noteIntended i e s) := by
  cases l with
  | vis call =>
    rcases call.markers e.store.now.1 s.1.vis with ⟨path, entry, rfl⟩ | hfew
    · exact h.markDeleted hc
    · exact ⟨h.same_call hown, h.own_progress hown hfew⟩
  | _ => exact ⟨h.same, h.own_progress hown (fewerMarkers_of_eq rfl)⟩

/-! ## Runs -/

variable {cfg : Config} {s₀ : Sys σ} {p : Pool Call Env (Noted σ Visibility) Job (Option Err)}

/-- In a run without overlaps, markers, failures and timers are the intended ones. -/
theorem vis_eq_intended (h : Runs raw cfg noteIntended NotOverlapping (started s₀ s₀.vis) p) :
    p.shared.1.vis = p.shared.2.2 :=
  (runs_keep AsIntended ⟨rfl, fun _ _ hr => nomatch hr⟩ (fun _ _ _ _ hs hl hc => hs.step hl hc) h).same

/-- **A delete that ends leaves a newer delete of its path alone**, in every run in which no path is removed while a
delete of another entry runs at it. Otherwise the newer one stays as it is only if the remote delete failed with the
failure it already has. -/
theorem deletes_keep_newer :
    (∀ p, Runs raw cfg noteIntended NotOverlapping (started s₀ s₀.vis) p →
      p.shared.1.vis = p.shared.2.2) ∧
    ∀ (v : Visibility) path entry now (result : Option Err), newerDelete v path entry = true →
      (deleteAt ((finishDelete path entry result).apply now v) path = deleteAt v path ↔
        ∃ err, result = some err ∧ v.deleteState.failures.lookup path = some (ascii err.message)) := by
  constructor
  · intro p h
    exact vis_eq_intended h
  · intro v path entry now result h
    exact deleteAt_finishDelete now result h

/-- `b` is marked and its timer is armed. -/
def markedFile (entry : Entry) : Visibility :=
  (Visibility.markDeleted {} (ascii "/b") entry).schedule (ascii "/b") entry

theorem deletes_keep_newer_done : ∃ p, Runs cloud {} noteIntended NotOverlapping
        (started { vis := markedFile (fileEntry "1" "0" "b"), backend := oneFile }
          (markedFile (fileEntry "1" "0" "b"))) p ∧
      p.shared.1.vis.overlay.deleted.lookup (ascii "/b") = none ∧ p.shared.1.vis = p.shared.2.2 := by
  have hcond : ∀ i l e (s : Noted Cloud Visibility),
      (match l with | .vis (.markDeleted _ _) => false | _ => true) = true →
        NotOverlapping i l e s := by
    intro i l e s hl
    unfold NotOverlapping
    split
    · cases hl
    · trivial
  have hrun : ∃ p, Runs cloud {} noteIntended NotOverlapping
      (started { vis := markedFile (fileEntry "1" "0" "b"), backend := oneFile }
        (markedFile (fileEntry "1" "0" "b"))) p ∧
      p.shared.1.vis.overlay.deleted.lookup (ascii "/b") = none :=
    runs_of_schedule _ hcond (.start 0 (.timer (ascii "/b")) :: steps 0 6 {})
      (fun s => s.1.vis.overlay.deleted.lookup (ascii "/b")) (by decide +kernel)
  obtain ⟨p, hp, hgone⟩ := hrun
  exact ⟨p, hp, hgone, deletes_keep_newer.1 p hp⟩

/-- `b` is removed and its delete begins; it is made again and removed as another entry; then the first
delete ends. -/
def removedTwice (first second : Entry) : List (Event Env Job) :=
  .start 0 (.remove (ascii "/b")) :: steps 0 7 { resolve := .ok first } ++
  .start 1 (.timer (ascii "/b")) :: steps 1 3 {} ++
  .start 0 (.create (ascii "/b")) :: steps 0 11 { resolve := .ok ⟨ascii "0", [], [], true, 0, none⟩ } ++
  .start 0 (.remove (ascii "/b")) :: steps 0 10 { remoteEntry := .ok (some second) } ++
  steps 1 2 {}

/-- **A delete that ends takes the marker of a newer one with it**: the path is visible again, and the newer one does
not begin. -/
theorem finished_delete_drops_newer : ∃ p, Runs cloud { deleteDelay := 1 } noteIntended (fun _ _ _ _ => True)
        (started { backend := oneFile } {}) p ∧
      p.shared.2.2.overlay.deleted.lookup (ascii "/b") = some (fileEntry "2" "0" "b") ∧
      p.shared.1.vis.deleteState.scheduler.lookup (ascii "/b") = some (fileEntry "2" "0" "b") ∧
      p.shared.1.vis.overlay.deleted.lookup (ascii "/b") = none ∧
      p.shared.1.vis.beginDelete (ascii "/b") (ascii "2") = false ∧
      p.shared.1.vis ≠ p.shared.2.2 := by
  have hrun : ∃ p, Runs cloud { deleteDelay := 1 } noteIntended (fun _ _ _ _ => True)
      (started { backend := oneFile } {}) p ∧
      (p.shared.2.2.overlay.deleted.lookup (ascii "/b"),
        p.shared.1.vis.deleteState.scheduler.lookup (ascii "/b"),
        p.shared.1.vis.overlay.deleted.lookup (ascii "/b"),
        p.shared.1.vis.beginDelete (ascii "/b") (ascii "2")) =
      (some (fileEntry "2" "0" "b"), some (fileEntry "2" "0" "b"), none, false) :=
    runs_of_schedule (fun _ => true) (fun _ _ _ _ _ => trivial)
      (removedTwice (fileEntry "1" "0" "b") (fileEntry "2" "0" "b"))
      (fun s : Noted Cloud Visibility => (s.2.2.overlay.deleted.lookup (ascii "/b"),
        s.1.vis.deleteState.scheduler.lookup (ascii "/b"),
        s.1.vis.overlay.deleted.lookup (ascii "/b"), s.1.vis.beginDelete (ascii "/b") (ascii "2")))
      (by decide +kernel)
  obtain ⟨p, hp, hview⟩ := hrun
  obtain ⟨hmarker, htimer, hgone, hbegin⟩ := by simpa only [Prod.mk.injEq] using hview
  refine ⟨p, hp, hmarker, htimer, hgone, hbegin, fun hsame => ?_⟩
  simp [hsame, hmarker] at hgone

end Vfs
