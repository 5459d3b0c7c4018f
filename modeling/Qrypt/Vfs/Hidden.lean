import Qrypt.Drive.Cloud
import Qrypt.Vfs.Jobs
import Qrypt.Vfs.Paths

/-!
# Which paths are hidden

`isDeletedPath`, `isRenameHiddenPath` and `deepestDeletedAncestor` of `pkg/vfs/view` walk up from a path and look each
directory up, with `deletedDirs` as an index.

* `hidden_iff_scan` — in every run the walks find what a scan of all marks finds
-/

namespace Vfs

open Infra Drive Upload List

variable {elems : List Bytes} {fuel : Nat} {o : Overlay} {v : Visibility}

/-! ## The walk -/

theorem parent_concat {above : List Bytes} {name : Bytes} (h : ∀ e ∈ above ++ [name], PlainElem e) :
    (∀ e ∈ above, PlainElem e) ∧ parentVirtualPath (rootedPath (above ++ [name])) = rootedPath above ∧
      (rootedPath above).length < (rootedPath (above ++ [name])).length := by
  obtain ⟨habove, hname⟩ := forall_mem_append.mp h
  have hchild := childOf_rootedPath habove (hname name mem_cons_self)
  rw [← cleanVirtualPath_rootedPath habove]
  exact ⟨habove, hchild.parent, hchild.longer⟩

theorem above_rootedPath (h : ∀ e ∈ elems, PlainElem e) (hfuel : (rootedPath elems).length ≤ fuel) :
    Overlay.above fuel (rootedPath elems) = (elems.inits.map rootedPath).reverse := by
  induction fuel generalizing elems with
  | zero => simp [rootedPath] at hfuel
  | succ fuel ih =>
    rcases eq_nil_or_concat elems with rfl | ⟨above, name, rfl⟩
    · simp [Overlay.above, rootedPath]
    · rw [concat_eq_append] at h hfuel ⊢
      obtain ⟨habove, hparent, hlonger⟩ := parent_concat h
      have htop : ¬ (rootedPath (above ++ [name]) = [47] ∨ rootedPath (above ++ [name]) = [46]) := by
        rw [rootedPath_eq_root_iff h]
        simp [rootedPath]
      rw [Overlay.above, if_neg htop, hparent, ih habove (by omega)]
      simp [inits_append]

/-- The walk from the parent, after a look at the path itself. -/
theorem walk_iff {found : Bytes → Bool} {here : Bool} (h : ∀ e ∈ elems, PlainElem e)
    (hhere : found (rootedPath elems) = true → here = true) :
    (here || (Overlay.findAbove found ((rootedPath elems).length + 2) (parentVirtualPath (rootedPath elems))).isSome) = true ↔
      here = true ∨ ∃ front, front <+: elems ∧ found (rootedPath front) = true := by
  rw [Overlay.isSome_findAbove]
  rcases eq_nil_or_concat elems with rfl | ⟨above, name, rfl⟩
  · rw [show parentVirtualPath (rootedPath []) = rootedPath [] from rfl, above_rootedPath h (by simp)]
    simp
  · rw [concat_eq_append] at h hhere ⊢
    obtain ⟨habove, hparent, hlonger⟩ := parent_concat h
    rw [hparent, above_rootedPath habove (by omega)]
    simp only [any_reverse, any_map, Bool.or_eq_true, any_eq_true, mem_inits, Function.comp_apply, prefix_concat_iff,
      or_and_right, exists_or, exists_eq_left]
    tauto

/-! ## The index -/

/-- `deletedDirs` lists the directories among the deleted paths. -/
def Overlay.Indexed (o : Overlay) : Prop :=
  ∀ dir, dir ∈ o.deletedDirs ↔ ∃ e, o.deleted.lookup dir = some e ∧ e.isDir = true

theorem Overlay.Indexed.setDeleted (h : o.Indexed) (path : Bytes) (entry : Entry) : (o.setDeleted path entry).Indexed := by
  intro dir
  simp only [Overlay.setDeleted, lookup_insert_eq]
  by_cases hdir : dir = path <;> cases hisDir : entry.isDir <;> simp [hdir, hisDir, h dir]

theorem Overlay.Indexed.removeDeleted (h : o.Indexed) (path : Bytes) : (o.removeDeleted path).Indexed := by
  intro dir
  simp only [Overlay.removeDeleted, lookup_erase_eq]
  by_cases hdir : dir = path <;> simp [hdir, h dir]

theorem indexed_apply (h : v.overlay.Indexed) (now : Int) (call : VisCall) : (call.apply now v).overlay.Indexed := by
  cases call with
  | markDeleted path entry => exact h.setDeleted path entry
  | markDeleteComplete path => exact h.removeDeleted path
  | cancelUnder dir => exact foldlRecOn (motive := fun v => v.overlay.Indexed) _ Visibility.unschedule h fun _ hv _ _ => hv
  | dropDeletes paths =>
    exact foldlRecOn (motive := fun v : Visibility => v.overlay.Indexed) _ _ h fun _ hv path _ => hv.removeDeleted path
  | restoreDeletedPath path =>
    simp only [VisCall.apply, Visibility.restoreDeletedPath]
    split
    · exact h
    · split <;> exact h.removeDeleted _
  | restoreDeletedAncestor path =>
    simp only [VisCall.apply, Visibility.restoreDeletedAncestor]
    split
    · exact h
    · exact h.removeDeleted _
  | cancelDeletedFile path =>
    simp only [VisCall.apply, Visibility.cancelDeletedFile]
    split
    · exact h
    · split
      · exact h
      · exact h.removeDeleted _
  | _ => exact h

variable {σ H : Type} {raw : Driver σ} {cfg : Config} {note : Nat → Call → Env → Sys σ → (Nat → Option Running) → H → H}
  {cond : Nat → Call → Env → Noted σ H → Prop} {s₀ : Sys σ} {h₀ : H}
  {p : Pool Call Env (Noted σ H) Job (Option Err)}

theorem indexed_of_runs (hs₀ : s₀.vis.overlay.Indexed) (h : Runs raw cfg note cond (started s₀ h₀) p) :
    p.shared.1.vis.overlay.Indexed := by
  refine runs_keep (fun s => s.1.vis.overlay.Indexed) hs₀ (fun i l e s hs _ _ => ?_) h
  cases l with
  | vis call => exact indexed_apply hs _ call
  | _ => exact hs

/-- **The walks find what a scan of the marks finds**, in every run. -/
theorem hidden_iff_scan (hs₀ : s₀.vis.overlay.Indexed) (hrun : Runs raw cfg note cond (started s₀ h₀) p)
    (h : ∀ e ∈ elems, PlainElem e) (now : Int) : ∃ o, p.shared.1.vis.overlay = o ∧
    (o.isDeletedPath (rootedPath elems) = true ↔ ∃ front e, front <+: elems ∧
      o.deleted.lookup (rootedPath front) = some e ∧ (front = elems ∨ e.isDir = true)) ∧
    (o.isRenameHiddenPath now (rootedPath elems) = true ↔ ∃ front op, front <+: elems ∧
      o.renameOverlays.lookup (rootedPath front) = some op ∧ op.expired now = false ∧
      (front = elems ∨ op.isDir = true)) := by
  have hindexed := indexed_of_runs hs₀ hrun
  refine ⟨_, rfl, ?_, ?_⟩
  · rw [Overlay.isDeletedPath, walk_iff h]
    all_goals
      simp only [decide_eq_true_eq, hindexed _, Option.isSome_iff_exists]
      grind
  · rw [Overlay.isRenameHiddenPath, walk_iff h]
    all_goals
      simp only [Option.any_eq_true, Bool.and_eq_true, Bool.not_eq_true']
      grind

/-- A directory that was removed. -/
def removedDir : Sys Cloud where
  vis := Visibility.markDeleted {} (rootedPath [ascii "d"]) ⟨ascii "1", ascii "0", ascii "d", true, 0, none⟩
  backend := oneFile

theorem hidden_iff_scan_removedDir :
    removedDir.vis.overlay.isDeletedPath (rootedPath [ascii "d", ascii "f"]) = true := by
  have hempty : Overlay.Indexed {} := fun dir => by simp
  have hrun : Runs cloud {} (fun _ _ _ _ _ (h : Unit) => h) (fun _ _ _ _ => True) (started removedDir ())
    (started removedDir ()) := Reaches.refl _
  have hplain : ∀ e ∈ [ascii "d", ascii "f"], PlainElem e := by
    unfold PlainElem
    decide
  obtain ⟨_, rfl, h, -⟩ := hidden_iff_scan (hempty.setDeleted _ _) hrun hplain 0
  exact h.mpr ⟨[ascii "d"], _, by simp, AList.lookup_insert _, .inr rfl⟩

end Vfs
