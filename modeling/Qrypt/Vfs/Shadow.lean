import Qrypt.Vfs.View

/-!
# Renames and what hides a path

`CommitRemoteRename` shadows the old path, so that listings which still have the old name do not bring it
back. It leaves alone whatever hides the new path: the shadow of an earlier rename, a delete that waits for
its timer, a name that a copy hides.

* `rename_shows_target` — when the new path is visible after a rename, and that the old one is hidden.
-/

namespace Vfs

open Infra Drive Upload List

namespace Overlay

/-- The shadow at a path hides the target. -/
def Shadows (path : Bytes) (op : OverlayOp) (target : Bytes) : Prop :=
  path = target ∨ (op.isDir = true ∧ path ∈ ancestors target)

theorem isRenameHiddenPath_eq_false_iff {o : Overlay} {now : Int} {path : Bytes} :
    o.isRenameHiddenPath now path = false ↔
      ∀ key op, o.renameOverlays.lookup key = some op → Shadows key op path → op.expired now = true := by
  rw [isRenameHiddenPath, isSome_findAbove, Bool.or_eq_false_iff, any_eq_false]
  constructor
  · rintro ⟨hself, habove⟩ key op hop (rfl | ⟨hdir, hmem⟩)
    · simpa [hop] using hself
    · simpa [hop, hdir] using habove key hmem
  · intro h
    constructor
    · cases hop : o.renameOverlays.lookup path with
      | none => rfl
      | some op => simpa using h path op hop (.inl rfl)
    · intro dir hmem
      cases hop : o.renameOverlays.lookup dir with
      | none => simp
      | some op =>
        cases hdir : op.isDir with
        | false => simp [hdir]
        | true => simpa [hdir] using h dir op hop (.inr ⟨hdir, hmem⟩)

end Overlay

/-! ## A rename -/

variable (v : Visibility) (now : Int) (oldPath newPath id : Bytes) (isDir : Bool)

def renameShadow : OverlayOp :=
  ⟨cleanVirtualPath oldPath, cleanVirtualPath newPath, id, isDir, false, false, now⟩

variable {v now oldPath newPath id isDir}

theorem lookup_addRenameOverlay {key : Bytes} {op : OverlayOp} :
    (v.addRenameOverlay now oldPath newPath id isDir).overlay.renameOverlays.lookup key = some op ↔
      (key = cleanVirtualPath oldPath ∧ renameShadow now oldPath newPath id isDir = op) ∨
        (key ≠ cleanVirtualPath oldPath ∧ v.overlay.renameOverlays.lookup key = some op ∧
          ¬(isDir = true ∧ isPathUnder op.oldPath (cleanVirtualPath oldPath) = true)) := by
  set overlays := v.overlay.renameOverlays.insert (cleanVirtualPath oldPath)
    (renameShadow now oldPath newPath id isDir) with hoverlays
  have hinsert : overlays.lookup key = some op ↔
      (key = cleanVirtualPath oldPath ∧ renameShadow now oldPath newPath id isDir = op) ∨
        (key ≠ cleanVirtualPath oldPath ∧ v.overlay.renameOverlays.lookup key = some op) := by
    rw [hoverlays, lookup_insert_eq]
    by_cases hkey : key = cleanVirtualPath oldPath <;> simp [hkey]
  cases isDir with
  | false =>
    have hsame : (v.addRenameOverlay now oldPath newPath id false).overlay.renameOverlays = overlays := rfl
    rw [hsame, hinsert]
    simp
  | true =>
    -- the shadows below the directory are dropped from those with the new one
    set dropped := (overlays.entries.filter fun r => r.1 ≠ cleanVirtualPath oldPath ∧
      isPathUnder r.2.oldPath (cleanVirtualPath oldPath)).map Sigma.fst with hdropped
    have herased : (v.addRenameOverlay now oldPath newPath id true).overlay.renameOverlays =
        dropped.foldl (fun m k => m.erase k) overlays := by
      rw [hdropped, foldl_map]
      rfl
    have hmem : overlays.lookup key = some op →
        (key ∈ dropped ↔ key ≠ cleanVirtualPath oldPath ∧
          isPathUnder op.oldPath (cleanVirtualPath oldPath) = true) := by
      intro hop
      simp only [hdropped, mem_map, mem_filter, decide_eq_true_eq]
      constructor
      · rintro ⟨⟨k, op'⟩, ⟨hr, hne, hunder⟩, rfl⟩
        have hop' : overlays.lookup k = some op' := AList.mem_lookup_iff.mpr hr
        rw [hop] at hop'
        cases hop'
        exact ⟨hne, hunder⟩
      · intro hcond
        exact ⟨⟨key, op⟩, ⟨AList.mem_lookup_iff.mp hop, hcond⟩, rfl⟩
    rw [herased, lookup_erase_all]
    by_cases hop : overlays.lookup key = some op
    · rw [hop]
      grind
    · grind

/-! ## The target -/

/-- What was there before a rename leaves its target visible. -/
structure FreeTarget (o : Overlay) (now : Int) (oldPath newPath : Bytes) (isDir : Bool) : Prop where
  /-- the path changes, and a directory does not move into itself -/
  moved : oldPath ≠ newPath
  outside : isDir = true → oldPath ∉ Overlay.ancestors newPath
  /-- no delete of the new path waits for its timer -/
  unmarked : o.deleted.lookup newPath = none
  /-- an earlier rename from the new path, or of a directory above it, is over or is replaced -/
  unshadowed : ∀ key op, o.renameOverlays.lookup key = some op → key ≠ oldPath → Overlay.Shadows key op newPath →
      op.expired now = true ∨ (isDir = true ∧ isPathUnder op.oldPath oldPath = true)
  /-- no copy hides the name -/
  shown : o.isCopyHidden now newPath = false

variable {now' : Int}

theorem not_expired_renameShadow (h : now' ≤ now + renameShadowTTL) :
    (renameShadow now oldPath newPath id isDir).expired now' = false := by
  simp [OverlayOp.expired, renameShadow]
  omega

variable (v : View) (entry : Entry)

theorem isUnavailable_commitRemoteRename (now now' : Int) (oldPath newPath path : Bytes) :
    (v.commitRemoteRename now oldPath newPath entry).isUnavailable now' path =
      (v.vis.addRenameOverlay now oldPath newPath entry.id entry.isDir).overlay.unavailable now' path :=
  rfl

theorem old_hidden (h : now' ≤ now + renameShadowTTL) :
    (v.commitRemoteRename now oldPath newPath entry).isUnavailable now' oldPath = true := by
  have hshadow : (v.vis.addRenameOverlay now oldPath newPath entry.id
      entry.isDir).overlay.renameOverlays.lookup (cleanVirtualPath oldPath) =
        some (renameShadow now oldPath newPath entry.id entry.isDir) :=
    lookup_addRenameOverlay.mpr (.inl ⟨rfl, rfl⟩)
  rw [isUnavailable_commitRemoteRename]
  simp [Overlay.unavailable, Overlay.isRenameHiddenPath, hshadow, not_expired_renameShadow h]

theorem not_renameHidden_iff (h : now' ≤ now + renameShadowTTL) (target : Bytes) :
    (v.vis.addRenameOverlay now oldPath newPath id isDir).overlay.isRenameHiddenPath now' target = false ↔
      cleanVirtualPath oldPath ≠ target ∧ (isDir = true → cleanVirtualPath oldPath ∉ Overlay.ancestors target) ∧
        ∀ key op, v.vis.overlay.renameOverlays.lookup key = some op → key ≠ cleanVirtualPath oldPath →
          Overlay.Shadows key op target → op.expired now' = true ∨
              (isDir = true ∧ isPathUnder op.oldPath (cleanVirtualPath oldPath) = true) := by
  rw [Overlay.isRenameHiddenPath_eq_false_iff]
  constructor
  · intro hall
    have hnew : ¬ Overlay.Shadows (cleanVirtualPath oldPath) (renameShadow now oldPath newPath id isDir) target := by
      intro hshadows
      have hexpired := hall _ _ (lookup_addRenameOverlay.mpr (.inl ⟨rfl, rfl⟩)) hshadows
      simp [not_expired_renameShadow h] at hexpired
    refine ⟨fun heq => hnew (.inl heq), fun hdir hmem => hnew (.inr ⟨hdir, hmem⟩), ?_⟩
    intro key op hop hkey hshadows
    by_cases hdropped : isDir = true ∧ isPathUnder op.oldPath (cleanVirtualPath oldPath) = true
    · exact .inr hdropped
    · exact .inl (hall key op (lookup_addRenameOverlay.mpr (.inr ⟨hkey, hop, hdropped⟩)) hshadows)
  · rintro ⟨hmoved, houtside, hrest⟩ key op hop hshadows
    rcases lookup_addRenameOverlay.mp hop with ⟨rfl, rfl⟩ | ⟨hkey, hold, hkept⟩
    · rcases hshadows with heq | ⟨hdir, hmem⟩
      · exact absurd heq hmoved
      · exact absurd hmem (houtside hdir)
    · exact (hrest key op hold hkey hshadows).resolve_right hkept

theorem target_visible_iff (h : now' ≤ now + renameShadowTTL) :
    (v.commitRemoteRename now oldPath newPath entry).isUnavailable now' newPath = false ↔
      (∀ dir ∈ Overlay.ancestors (cleanVirtualPath newPath), dir ∉ v.vis.overlay.deletedDirs) ∧
        FreeTarget v.vis.overlay now' (cleanVirtualPath oldPath) (cleanVirtualPath newPath) entry.isDir := by
  have hdeleted : (v.vis.addRenameOverlay now oldPath newPath entry.id
      entry.isDir).overlay.isDeletedPath (cleanVirtualPath newPath) = false ↔
        v.vis.overlay.deleted.lookup (cleanVirtualPath newPath) = none ∧
          ∀ dir ∈ Overlay.ancestors (cleanVirtualPath newPath), dir ∉ v.vis.overlay.deletedDirs :=
    Overlay.isDeletedPath_eq_false_iff
  rw [isUnavailable_commitRemoteRename, Overlay.unavailable, Bool.or_eq_false_iff,
    Bool.or_eq_false_iff, hdeleted, not_renameHidden_iff v h]
  constructor
  · rintro ⟨⟨⟨hunmarked, hdirs⟩, hmoved, houtside, hunshadowed⟩, hshown⟩
    exact ⟨hdirs, hmoved, houtside, hunmarked, hunshadowed, hshown⟩
  · rintro ⟨hdirs, hmoved, houtside, hunmarked, hunshadowed, hshown⟩
    exact ⟨⟨⟨hunmarked, hdirs⟩, hmoved, houtside, hunshadowed⟩, hshown⟩

/-- **A rename leaves its target visible exactly if nothing hid it before, and hides the old path.** For the first half
the directories of the target are not deleted. -/
theorem rename_shows_target (v : View) (now now' : Int) (oldPath newPath : Bytes) (entry : Entry)
    (h : now' ≤ now + renameShadowTTL) :
    ((∀ dir ∈ Overlay.ancestors (cleanVirtualPath newPath), dir ∉ v.vis.overlay.deletedDirs) →
      ((v.commitRemoteRename now oldPath newPath entry).isUnavailable now' newPath = false ↔
        FreeTarget v.vis.overlay now' (cleanVirtualPath oldPath) (cleanVirtualPath newPath) entry.isDir)) ∧
      (v.commitRemoteRename now oldPath newPath entry).isUnavailable now' oldPath = true := by
  refine ⟨?_, old_hidden v entry h⟩
  intro hdirs
  exact (target_visible_iff v entry h).trans (and_iff_right hdirs)

/-- The file with id "1", under the name "a" in the root. -/
def fileA : Entry := ⟨ascii "1", ascii "0", ascii "a", false, 1, none⟩

theorem rename_shows_target_fresh :
    let v := (View.new (ascii "0")).commitRemoteRename 0 (ascii "/a") (ascii "/b") fileA
    v.isUnavailable 1 (ascii "/b") = false ∧ v.isUnavailable 1 (ascii "/a") = true := by
  have hrename := rename_shows_target (View.new (ascii "0")) 0 1 (ascii "/a") (ascii "/b") fileA (by decide)
  refine ⟨(hrename.1 fun _ _ => not_mem_nil).mpr ⟨?_, ?_, ?_, ?_, ?_⟩, hrename.2⟩
  · decide +kernel
  · decide +kernel
  · rfl
  · intro key op hop
    cases hop
  · rfl

/-- After a rename there and back, after the two renames of a safe save, and after a rename onto a path whose delete
waits, the target is hidden. -/
theorem renamed_target_hidden :
    let v := View.new (ascii "0")
    let fileB : Entry := ⟨ascii "2", ascii "0", ascii "tmp", false, 1, none⟩
    ((v.commitRemoteRename 0 (ascii "/a") (ascii "/b") fileA).commitRemoteRename 1 (ascii "/b") (ascii "/a")
        fileA).isUnavailable 1 (ascii "/a") = true ∧
      ((v.commitRemoteRename 0 (ascii "/a") (ascii "/a~") fileA).commitRemoteRename 1 (ascii "/tmp")
        (ascii "/a") fileB).isUnavailable 1 (ascii "/a") = true ∧
      ((v.commitRemove (ascii "/a") fileA).commitRemoteRename 1 (ascii "/tmp")
        (ascii "/a") fileB).isUnavailable 1 (ascii "/a") = true := by
  decide +kernel

end Vfs
