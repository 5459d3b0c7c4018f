import Qrypt.Drive.Cloud
import Qrypt.Vfs.Jobs

/-!
# A delete that was taken back

A removed path comes back when its delete is cancelled, when it is made again, or when something is made
below it. The executor decides in `BeginDelete`, marks the delete in `MarkDeleteActive`, and calls
`Driver.Remove`; others can come between these.

* `restored_not_deleted` — a delete that was taken back before its `BeginDelete` is not carried out
-/

namespace Vfs

open Infra Drive Upload List Function Option

variable {σ α : Type}

/-! ## The protocol -/

/-- `Driver.Remove` is called for what `BeginDelete` has agreed to. -/
def AimOk (x : Option (Bytes × Entry)) (l : Call) : Prop :=
  match l with
  | .vis (.beginDelete path _) => cleanVirtualPath path = path
  | .remote (.delete path entry) => x = some (path, entry)
  | _ => True

/-- The path and the entry that a thread is about to call `Driver.Remove` for. -/
def Call.aim (l : Call) (_ : Env) (s : Sys σ) (x : Option (Bytes × Entry)) : Option (Bytes × Entry) :=
  match l with
  | .vis (.beginDelete path entry) => if s.vis.beginDelete path entry.id then some (path, entry) else x
  | .vis (.markDeleteFailed _ _ _) => none
  | .remote (.delete _ _) => none
  | _ => x

def aims : Protocol σ (Option (Bytes × Entry)) where
  ok := AimOk
  move := Call.aim

section Neutral

variable {raw : Driver σ} {path : Bytes} {entry : Entry} {x : Option (Bytes × Entry)}

def Call.aiming : Call → Bool
  | .vis (.beginDelete _ _) => true
  | .vis (.markDeleteFailed _ _ _) => true
  | .remote (.delete _ _) => true
  | _ => false

theorem aimOk_other {l : Call} (h : l.aiming = false) : AimOk x l := by
  unfold AimOk
  split
  · cases h
  · cases h
  · trivial

theorem Call.aim_other {l : Call} (h : l.aiming = false) (e : Env) (s : Sys σ) : l.aim e s x = x := by
  unfold aim
  split
  · cases h
  · cases h
  · cases h
  · rfl

theorem Call.aiming_of_plain {l : Call} (h : l.plain = true) : l.aiming = false := by
  obtain ⟨⟨hrun, hbegin⟩, -⟩ := Call.of_plain h
  unfold aiming
  split
  · cases hbegin
  · cases hrun
  · cases hrun
  · rfl

theorem leads_aside {l : Call} {guard : Sys σ → Bool} {result : Env → Sys σ → α} (h : l.aiming = false) :
    Leads raw aims x x (Prog.performWhen (Call.apply raw) guard l result) :=
  leads_when (aimOk_other h) (Call.aim_other h)

/-- Only a delete whose descendants could not be waited for still aims at its object afterwards. -/
theorem follows_executeActive : (executeActive raw path entry).Follows (Call.apply raw) AimOk Call.aim
      (fun err y => y = none ∨ err.isSome ∧ y = some (path, entry)) (some (path, entry)) := by
  refine Prog.Follows.bind (Q := fun _ y => y = some (path, entry)) ?_ ?_
  · refine Leads.ite (Leads.bind (leads_aside rfl) ?_) (leads_pure _)
    rintro (_ | err)
    · exact leads_aside rfl
    · exact leads_pure _
  · rintro (_ | err) y rfl
    · exact Prog.follows_performWhen rfl fun _ _ _ => .inl rfl
    · exact .inr ⟨rfl, rfl⟩

/-- **The executor follows the protocol.** -/
theorem neutral_aims : Neutral raw aims none where
  plain _ hl := ⟨aimOk_other (Call.aiming_of_plain hl), Call.aim_other (Call.aiming_of_plain hl)⟩
  execute path entry hclean := by
    refine Prog.Follows.bind (Q := fun began x => x = if began then some (path, entry) else none) ?_ ?_
    · exact Prog.follows_performWhen hclean fun _ _ _ => rfl
    rintro (_ | _) x rfl
    · exact leads_pure _
    refine Prog.Follows.bind (leads_aside rfl) fun _ y hy => ?_
    subst hy
    refine Prog.Follows.bind follows_executeActive ?_
    rintro (_ | err) y hy
    · -- the delete was carried out
      obtain rfl : y = none := hy.resolve_right fun h => absurd h.1 (by decide)
      refine Leads.bind (leads_aside rfl) fun _ => Leads.bind (leads_aside rfl) ?_
      rintro (_ | err)
      · exact leads_aside rfl
      · exact leads_pure _
    · exact Prog.follows_performWhen trivial fun _ _ _ => rfl

end Neutral

/-! ## What is noted -/

/-- The delete that a call takes back, with the path of its marker. -/
def VisCall.takesBack (v : Visibility) : VisCall → Option (Bytes × Entry)
  | .restoreDeletedPath path =>
    (v.overlay.deleted.lookup (cleanVirtualPath path)).map fun entry => (cleanVirtualPath path, entry)
  | .restoreDeletedAncestor path => v.overlay.deepestDeletedAncestor (cleanVirtualPath path)
  | .cancelDeletedFile path =>
    ((v.overlay.deleted.lookup (cleanVirtualPath path)).filter fun entry => !entry.isDir).map
      fun entry => (cleanVirtualPath path, entry)
  | _ => none

/-- The deletes that were taken back, and those among them that were carried out afterwards. -/
structure Restores where
  restored : List (Bytes × Bytes) := []
  late : List (Bytes × Bytes) := []

/-- A removed path is a new delete; a call may take a delete back; `Driver.Remove` carries one out. -/
def noteRestores (_ : Nat) (l : Call) (_ : Env) (s : Sys σ) (_ : Nat → Option (Bytes × Entry))
    (h : Restores) : Restores :=
  match l with
  | .vis (.markDeleted path entry) => { h with restored := h.restored.filter (· ≠ (path, entry.id)) }
  | .vis call =>
    match call.takesBack s.vis with
    | some (path, entry) => { h with restored := (path, entry.id) :: h.restored }
    | none => h
  | .remote (.delete path entry) =>
    if (path, entry.id) ∈ h.restored then { h with late := (path, entry.id) :: h.late } else h
  | _ => h

/-- A delete is not taken back between its `BeginDelete` and its `Driver.Remove`. -/
def BeforeBegin (_ : Nat) (l : Call) (_ : Env) (s : Followed σ (Option (Bytes × Entry)) Restores) : Prop :=
  match l with
  | .vis call => ∀ path entry, call.takesBack s.1.vis = some (path, entry) →
      ∀ k aimed, s.2.1 k = some (path, aimed) → aimed.id ≠ entry.id
  | _ => True

/-! ## The invariant -/

/-- What was taken back is neither marked nor aimed at. -/
structure TakenBack (s : Followed σ (Option (Bytes × Entry)) Restores) : Prop where
  marker : ∀ path entry, s.1.vis.overlay.deleted.lookup path = some entry → (path, entry.id) ∉ s.2.2.restored
  aimed : ∀ k path entry, s.2.1 k = some (path, entry) → (path, entry.id) ∉ s.2.2.restored
  late : s.2.2.late = []

section Step

variable {raw : Driver σ} {s : Followed σ (Option (Bytes × Entry)) Restores} {i : Nat} {l : Call}
  {e : Env} {call : VisCall} {path : Bytes} {entry : Entry}

theorem VisCall.lookup_takesBack {now : Int} {v : Visibility} (h : call.takesBack v = some (path, entry)) :
    (call.apply now v).overlay.deleted.lookup path = none := by
  unfold takesBack at h
  split at h
  · next p =>
    obtain ⟨found, hfound, hpath⟩ := map_eq_some_iff.mp h
    cases hpath
    simp only [apply, Visibility.restoreDeletedPath, hfound]
    split <;> exact AList.lookup_erase ..
  · next p =>
    simp only [apply, Visibility.restoreDeletedAncestor, h]
    exact AList.lookup_erase ..
  · next p =>
    obtain ⟨found, hfound, hpath⟩ := map_eq_some_iff.mp h
    cases hpath
    obtain ⟨hfound, hdir⟩ := filter_eq_some_iff.mp hfound
    simp only [apply, Visibility.cancelDeletedFile, hfound]
    rw [if_neg (by simpa using hdir)]
    exact AList.lookup_erase ..
  · cases h

/-- What a thread aims at after a call, it aimed at before, or has found the marker of. -/
theorem aims_move {k : Nat} (hok : AimOk (s.2.1 i) l)
    (h : update s.2.1 i (l.aim e s.1 (s.2.1 i)) k = some (path, entry)) :
    s.2.1 k = some (path, entry) ∨
      ∃ found, s.1.vis.overlay.deleted.lookup path = some found ∧ found.id = entry.id := by
  by_cases hk : k = i
  · subst hk
    rw [update_self] at h
    unfold Call.aim at h
    split at h
    · split at h
      · next hbegin =>
        cases h
        unfold Visibility.beginDelete at hbegin
        dsimp only at hbegin
        rw [show cleanVirtualPath path = path from hok] at hbegin
        split at hbegin
        · cases hbegin
        · next found hfound =>
          simp only [Bool.and_eq_true, decide_eq_true_eq] at hbegin
          exact .inr ⟨found, hfound, hbegin.1⟩
      · exact .inl h
    · cases h
    · cases h
    · exact .inl h
  · rw [update_of_ne hk] at h
    exact .inl h

theorem TakenBack.keep (h : TakenBack s) (e : Env) (hok : AimOk (s.2.1 i) l) {v : Sys σ} {r : Restores}
    (hfew : FewerMarkers v.vis s.1.vis) (hrestored : r.restored = s.2.2.restored)
    (hlate : r.late = []) : TakenBack (v, update s.2.1 i (l.aim e s.1 (s.2.1 i)), r) := by
  refine ⟨fun path entry hmark => ?_, fun k path entry haim => ?_, hlate⟩
  · rw [hrestored]
    exact h.marker path entry (hfew path entry hmark)
  · rw [hrestored]
    rcases aims_move hok haim with haimed | ⟨found, hfound, hid⟩
    · exact h.aimed k path entry haimed
    · exact hid ▸ h.marker path found hfound

/-- **A path is removed**: this is a new delete. -/
theorem TakenBack.markDeleted (h : TakenBack s) (path : Bytes) (entry : Entry) :
    TakenBack (aims.noted raw noteRestores i (.vis (.markDeleted path entry)) e s) := by
  have hfewer : ∀ target, target ∈ s.2.2.restored.filter (· ≠ (path, entry.id)) →
      target ∈ s.2.2.restored := fun target ht => (mem_filter.mp ht).1
  refine ⟨fun p found hmark hmem => ?_, fun k p found haim hmem => ?_, h.late⟩
  · have hmark : (s.1.vis.overlay.deleted.insert path entry).lookup p = some found := hmark
    rw [lookup_insert_eq] at hmark
    split at hmark
    · next hp =>
      cases hmark
      have hne := (mem_filter.mp hmem).2
      simp [hp] at hne
    · exact h.marker p found hmark (hfewer _ hmem)
  · have haim : s.2.1 k = some (p, found) :=
      (congrFun (update_eq_self i s.2.1) k).symm.trans haim
    exact h.aimed k p found haim (hfewer _ hmem)

/-- **A delete is taken back**, and no executor is about to carry it out. -/
theorem TakenBack.takesBack (h : TakenBack s) (htake : call.takesBack s.1.vis = some (path, entry))
    (hfew : FewerMarkers (call.apply e.store.now.1 s.1.vis) s.1.vis)
    (hc : BeforeBegin i (.vis call) e s)
    (hnote : noteRestores i (.vis call) e s.1 s.2.1 s.2.2 =
      { s.2.2 with restored := (path, entry.id) :: s.2.2.restored })
    (hmove : aims.move (.vis call) e s.1 (s.2.1 i) = s.2.1 i) :
    TakenBack (aims.noted raw noteRestores i (.vis call) e s) := by
  unfold Protocol.noted
  rw [hnote, hmove, update_eq_self]
  refine ⟨fun p found hmark hmem => ?_, fun k p found haim hmem => ?_, h.late⟩
  · rcases mem_cons.mp hmem with heq | hmem
    · have hnone : (call.apply e.store.now.1 s.1.vis).overlay.deleted.lookup path = none :=
        VisCall.lookup_takesBack htake
      rw [← (Prod.mk.inj heq).1] at hnone
      exact absurd (hnone.symm.trans hmark) (by simp)
    · exact h.marker p found (hfew p found hmark) hmem
  · rcases mem_cons.mp hmem with heq | hmem
    · obtain ⟨rfl, hid⟩ := Prod.mk.inj heq
      exact hc p entry htake k found haim hid
    · exact h.aimed k p found haim hmem

/-- **Every call keeps what was taken back.** -/
theorem TakenBack.step (h : TakenBack s) (hok : AimOk (s.2.1 i) l) (hc : BeforeBegin i l e s) :
    TakenBack (aims.noted raw noteRestores i l e s) := by
  cases l with
  | vis call =>
    rcases call.markers e.store.now.1 s.1.vis with ⟨path, entry, rfl⟩ | hfew
    · exact h.markDeleted path entry
    cases htake : call.takesBack s.1.vis with
    | none =>
      have hnote : ∀ h', (noteRestores i (.vis call) e s.1 s.2.1 h').late = h'.late := by
        intro h'
        cases call <;> simp_all [noteRestores]
      cases call with
      | markDeleted path entry => exact h.markDeleted path entry
      | _ =>
        refine h.keep e hok hfew ?_ ((hnote _).trans h.late)
        simp only [noteRestores, htake]
    | some target =>
      cases call with
      | restoreDeletedPath path => exact h.takesBack htake hfew hc (by simp only [noteRestores, htake]) rfl
      | restoreDeletedAncestor path => exact h.takesBack htake hfew hc (by simp only [noteRestores, htake]) rfl
      | cancelDeletedFile path => exact h.takesBack htake hfew hc (by simp only [noteRestores, htake]) rfl
      | _ => cases htake
  | remote call =>
    cases call with
    | delete path entry =>
      -- the executor still aims at this delete, so it was not taken back
      have hnot : (path, entry.id) ∉ s.2.2.restored := h.aimed i path entry hok
      have hnote : noteRestores i (.remote (.delete path entry)) e s.1 s.2.1 s.2.2 = s.2.2 :=
        if_neg hnot
      refine h.keep e hok (fewerMarkers_of_eq rfl) (by rw [hnote]) (by rw [hnote, h.late])
    | _ => exact h.keep e hok (fewerMarkers_of_eq rfl) rfl h.late
  | _ => exact h.keep e hok (fewerMarkers_of_eq rfl) rfl h.late

end Step

/-! ## Runs -/

variable {raw : Driver σ} {cfg : Config} {s₀ : Sys σ}
  {p : Pool Call Env (Followed σ (Option (Bytes × Entry)) Restores) Job (Option Err)}

/-- **A delete that was taken back is not carried out**, in every run in which none is taken back between its
`BeginDelete` and its `Driver.Remove`. -/
theorem restored_not_deleted (h : aims.Runs raw cfg noteRestores BeforeBegin (Pool.idle (s₀, fun _ => none, {})) p) :
    p.shared.2.2.late = [] := by
  refine (Protocol.runs_keep neutral_aims TakenBack ?_ ?_ h).late
  · exact ⟨fun _ _ _ => not_mem_nil, fun _ _ _ _ => not_mem_nil, rfl⟩
  · intro i l e s hs hok hc
    exact hs.step hok hc

/-- A file that was removed, and its delete waits. -/
def removedFile : Sys Cloud where
  vis := (Visibility.markDeleted {} (ascii "/b") (fileEntry "1" "0" "b")).schedule (ascii "/b")
    (fileEntry "1" "0" "b")
  backend := oneFile

theorem restored_not_deleted_waiting : ∃ p, aims.Runs cloud {} noteRestores BeforeBegin
        (Pool.idle (removedFile, fun _ => none, {})) p ∧
      p.shared.2.2.restored = [(ascii "/b", ascii "1")] ∧ p.shared.2.2.late = [] := by
  have hrun : ∃ p, aims.Runs cloud {} noteRestores BeforeBegin (Pool.idle (removedFile, fun _ => none, {})) p ∧
      p.shared.2.2.restored = [(ascii "/b", ascii "1")] := by
    refine ⟨_, Reaches.head (a := .start 0 (.restoreDeleted (ascii "/b"))) trivial rfl
      (Reaches.head (a := .step 0 {}) ?_ rfl (Reaches.refl _)), ?_⟩
    · -- nothing runs, so nothing is aimed at
      intro t l ht hl
      obtain rfl := some.inj ht
      obtain rfl := some.inj hl
      rintro path entry - k aimed haim
      cases haim
    · decide +kernel
  obtain ⟨p, hp, hrestored⟩ := hrun
  exact ⟨p, hp, hrestored, restored_not_deleted hp⟩

/-- **A delete that is cancelled after `BeginDelete` is carried out.** -/
theorem cancel_after_begin : ∃ p, aims.Runs cloud {} noteRestores (fun _ _ _ _ => True)
        (Pool.idle (removedFile, fun _ => none, {})) p ∧
      p.shared.2.2.restored = [(ascii "/b", ascii "1")] ∧
      p.shared.2.2.late = [(ascii "/b", ascii "1")] ∧
      p.shared.1.backend.file (ascii "1") = none := by
  have hrun : ∃ p, aims.Runs cloud {} noteRestores (fun _ _ _ _ => True)
      (Pool.idle (removedFile, fun _ => none, {})) p ∧
      (p.shared.2.2.restored, p.shared.2.2.late, p.shared.1.backend.file (ascii "1")) =
        ([(ascii "/b", ascii "1")], [(ascii "/b", ascii "1")], none) :=
    Pool.exists_reaches (fun _ => true) (fun _ _ _ _ _ => trivial) (.start 0 (.timer (ascii "/b")) :: steps 0 2 {} ++
        .start 1 (.cancelDelete (ascii "delete:1")) :: steps 1 2 {} ++ steps 0 2 {})
      (fun s : Followed Cloud (Option (Bytes × Entry)) Restores =>
        (s.2.2.restored, s.2.2.late, s.1.backend.file (ascii "1")))
      (by decide +kernel)
  obtain ⟨p, hp, hview⟩ := hrun
  obtain ⟨hrestored, hlate, hgone⟩ := by simpa only [Prod.mk.injEq] using hview
  exact ⟨p, hp, hrestored, hlate, hgone⟩

end Vfs
