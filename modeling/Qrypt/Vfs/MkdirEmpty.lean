import Qrypt.Vfs.Closed
import Qrypt.Vfs.Mkdir

/-!
# A new directory is empty

Nothing is cached below a path that does not resolve, so a directory created there has no entries. At a path
that carries the mark of a delete, `Mkdir` brings back what was there instead.

* `mkdir_gives_empty_dir` — a directory created where nothing is marked as deleted has an empty listing
* `ancestors_cached` — the directories above a cached path are cached
-/

namespace Vfs

open Infra Drive Upload List Option

namespace View

variable {v : View} {list : RemoteList} {now : Int} {path parentPath : Bytes}

/-! ## Paths without a mark -/

/-- No delete of the path, or of a directory above it, waits. -/
def Unmarked (v : View) (path : Bytes) : Prop :=
  ∀ dir, dir = path ∨ dir ∈ Overlay.ancestors path → v.vis.overlay.deleted.lookup dir = none

variable {β : Type} {fuel : Nat} {a : Answers} {entry : Entry} {r : Except Err Entry} {v' : View}

theorem lookup_of_nil {m : AList fun _ : Bytes => β} (h : m.entries = []) (k : Bytes) : m.lookup k = none := by
  simp [AList.lookup, h]

theorem Unmarked.isUnavailable (h : Unmarked v path) (hbare : v.vis.Bare)
    (hclean : cleanVirtualPath path = path) (now : Int) : v.isUnavailable now path = false := by
  have hdeleted : v.vis.overlay.isDeletedPath path = false := by
    rw [Overlay.isDeletedPath_eq_false_iff]
    refine ⟨h path (.inl rfl), ?_⟩
    intro dir hdir hmem
    have hmark := hbare.marks dir hmem
    simp [h dir (.inr hdir)] at hmark
  have hshadow : v.vis.overlay.isRenameHiddenPath now path = false := by
    simp [Overlay.isRenameHiddenPath, Overlay.isSome_findAbove, lookup_of_nil hbare.shadows]
  have hcopy : v.vis.overlay.isCopyHidden now path = false := by
    simp [Overlay.isCopyHidden, lookup_of_nil hbare.hidden]
  simp [View.isUnavailable, Overlay.unavailable, hclean, hdeleted, hshadow, hcopy]

theorem above_mono {fuel' : Nat} (h : fuel ≤ fuel') (dir : Bytes) :
    ∀ d ∈ Overlay.above fuel dir, d ∈ Overlay.above fuel' dir := by
  induction fuel generalizing fuel' dir with
  | zero => exact fun d hd => absurd hd not_mem_nil
  | succ fuel ih =>
    obtain ⟨fuel', rfl⟩ : ∃ n, fuel' = n + 1 := ⟨fuel' - 1, by omega⟩
    intro d hd
    unfold Overlay.above at hd ⊢
    split at hd
    · next htop => rwa [if_pos htop]
    · next htop =>
      rw [if_neg htop]
      rcases mem_cons.mp hd with rfl | hd
      · exact mem_cons_self
      · exact mem_cons_of_mem _ (ih (by omega) _ d hd)

theorem dirPath_clean (hclean : cleanVirtualPath path = path) : dirPath path = parentVirtualPath path ∧
      cleanVirtualPath (parentVirtualPath path) = parentVirtualPath path ∧
      (parentVirtualPath path).length ≤ path.length := by
  by_cases hroot : path = [47]
  · subst hroot
    exact ⟨by decide, by decide, by decide⟩
  · have hchild := childOf_parent hclean hroot
    have hlonger := hchild.longer
    rw [← hchild.parent] at hlonger
    exact ⟨hchild.dir.trans hchild.parent.symm, hchild.parent.symm, hlonger.le⟩

theorem Unmarked.restore (h : Unmarked v path) (hbare : v.vis.Bare) (hclean : cleanVirtualPath path = path)
    (now : Int) :
    v.restoreDeletedPath now path = (none, v) ∧ v.restoreDeletedAncestor now (dirPath path) = v ∧
      v.vis.isUnderRestoredDir now path = false := by
  refine ⟨?_, ?_, ?_⟩
  · have hnone : v.vis.restoreDeletedPath now path = (none, v.vis) := by
      rw [Visibility.restoreDeletedPath, hclean, h path (.inl rfl)]
    rw [View.restoreDeletedPath, hclean, hnone]
  · obtain ⟨hdir, hparent, hlen⟩ := dirPath_clean hclean
    have hnone : v.vis.overlay.deepestDeletedAncestor (parentVirtualPath path) = none := by
      have hfind : (Overlay.findAbove (fun dir => (v.vis.overlay.deleted.lookup dir).any (·.isDir))
          ((parentVirtualPath path).length + 2) (parentVirtualPath path)) = none := by
        rw [← Option.not_isSome_iff_eq_none, Overlay.isSome_findAbove, Bool.not_eq_true, List.any_eq_false]
        intro dir hmem
        rw [h dir (.inr (above_mono (by omega) _ dir hmem))]
        simp
      simp [Overlay.deepestDeletedAncestor, hfind]
    rw [View.restoreDeletedAncestor, hdir, hparent, hnone]
  · simp [Visibility.isUnderRestoredDir, hbare.restored]

/-! ## Creating -/

/-- What `Mkdir` comes to at a path without a mark. -/
theorem mkdir_unmarked (h : Closed v) (hlist : PlainList a.list) (hmark : Unmarked v (cleanVirtualPath path)) :
    (∃ entry v₁, View.resolve a.list [] now fuel (cleanVirtualPath path) v = (.ok entry, v₁) ∧
      v.mkdir a now fuel path = (existingDir (cleanVirtualPath path) entry, v₁)) ∨
    ∃ err v₁, View.resolve a.list [] now fuel (cleanVirtualPath path) v = (.error err, v₁) ∧ v.mkdir a now fuel path =
        if a.notFound err then v₁.createDir a now fuel (cleanVirtualPath path) else (.error err, v₁) := by
  have hclean := cleanVirtualPath_idem path
  have hspec := h.resolve hlist now fuel hclean
  unfold View.mkdir
  dsimp only
  split
  · next entry v₁ heq => exact .inl ⟨entry, v₁, heq, rfl⟩
  · next err v₁ heq =>
    rw [heq] at hspec
    have hmark₁ : Unmarked v₁ (cleanVirtualPath path) := by
      intro dir hdir
      rw [hspec.vis]
      exact hmark dir hdir
    obtain ⟨hrestore, hancestor, hunder⟩ := hmark₁.restore hspec.closed.bare hclean now
    refine .inr ⟨err, v₁, heq, ?_⟩
    simp only [hrestore, hancestor, hunder, Bool.false_eq_true, if_false]

theorem retireRenameShadow_bare (h : v.vis.Bare) (id : Bytes) : v.retireRenameShadow path id = v := by
  simp [View.retireRenameShadow, Visibility.retireRenameShadow, lookup_of_nil h.shadows]

theorem Closed.invalidateList (h : Closed v) (path : Bytes) : Closed (v.invalidateList path) where
  clean := h.clean
  plain := h.plain
  parents := h.parents
  lists := by
    intro l hl
    obtain ⟨list, hlist⟩ := isSome_iff_exists.mp hl
    exact h.lists l (isSome_iff_exists.mpr ⟨list, (lookup_erase_some hlist).2⟩)
  listed := fun l entries expires hl => h.listed l entries expires (lookup_erase_some hl).2
  bare := h.bare

theorem Closed.commitMkdir (h : Closed v) {name : Bytes} (hchild : ChildOf parentPath name path)
    (hplain : PlainElem entry.name) (hparent : cleanVirtualPath parentPath = [47] ∨
      (v.entries.lookup (cleanVirtualPath parentPath)).isSome = true) (now : Int) :
    Closed (v.commitMkdir now path entry) := by
  have hinsert := (h.insert hchild hplain hparent).invalidateList (dirPath path)
  unfold View.commitMkdir
  rw [retireRenameShadow_bare]
  · exact ⟨hinsert.clean, hinsert.plain, hinsert.parents, hinsert.lists, hinsert.listed, hinsert.bare⟩
  · exact hinsert.bare

/-- What the backend does when it creates a directory. -/
structure Honest (a : Answers) : Prop where
  names : PlainList a.list
  created : ∀ parentID name entry, a.mkdir parentID name = .ok entry → entry.isDir = true ∧ PlainElem entry.name

/-- `Mkdir` is not answered with the news that the directory exists. -/
def NoConflict (a : Answers) : Prop :=
  ∀ parentID name err, a.mkdir parentID name = .error err → a.conflict err = false

/-- What `createDir` does, if there is no conflict. -/
theorem Closed.createDir (h : Closed v) (ha : Honest a) (hconflict : NoConflict a)
    (hclean : cleanVirtualPath path = path) (hroot : path ≠ [47])
    (hr : v.createDir a now fuel path = (r, v')) :
    Closed v' ∧ ∀ entry, r = .ok entry → entry.isDir = true ∧
      ∃ parent v₁, ResolveSpec v (parentVirtualPath path) (.ok parent, v₁) ∧ v' = v₁.commitMkdir now path entry := by
  have hchild := childOf_parent hclean hroot
  have hdir := hchild.parent.symm
  have hspec := h.resolve ha.names now fuel hdir
  unfold View.createDir at hr
  split at hr
  · next err v₁ heq =>
    rw [heq] at hspec
    obtain ⟨rfl, rfl⟩ := Prod.mk.inj hr
    exact ⟨hspec.closed, nofun⟩
  · next parent v₁ heq =>
    rw [heq] at hspec
    split at hr
    · next entry hmkdir =>
      obtain ⟨rfl, rfl⟩ := Prod.mk.inj hr
      obtain ⟨hisDir, hplain⟩ := ha.created _ _ _ hmkdir
      refine ⟨hspec.closed.commitMkdir hchild hplain ?_ now, ?_⟩
      · rw [hdir]
        exact .inr (hspec.found parent rfl)
      · rintro _ ⟨⟩
        exact ⟨hisDir, parent, v₁, hspec, rfl⟩
    · next err hmkdir =>
      rw [hconflict _ _ _ hmkdir, if_neg Bool.false_ne_true] at hr
      obtain ⟨rfl, rfl⟩ := Prod.mk.inj hr
      exact ⟨hspec.closed, nofun⟩

/-- Where the root does not resolve, `Mkdir` of the root fails. -/
theorem Closed.createDir_root (h : Closed v) (ha : Honest a) (hnone : fuel = 0 ∨ v.entries.lookup [47] = none)
    (hr : v.createDir a now fuel [47] = (r, v')) : Closed v' ∧ ∃ err, r = .error err := by
  have hspec : ResolveSpec v [47] (View.resolve a.list [] now fuel [47] v) :=
    h.resolve ha.names now fuel (by decide)
  have hup : parentVirtualPath [47] = [47] := by decide
  unfold View.createDir at hr
  rw [hup] at hr
  split at hr
  · next err v₁ heq =>
    rw [heq] at hspec
    obtain ⟨rfl, rfl⟩ := Prod.mk.inj hr
    exact ⟨hspec.closed, err, rfl⟩
  · next parent v₁ heq =>
    rw [heq] at hspec
    rcases hnone with rfl | hnone
    · cases heq
    · have hfound := hspec.found parent rfl
      rw [hspec.frame [47] le_rfl, hnone] at hfound
      cases hfound

/-- After a failed lookup at a path without a mark nothing is cached there. -/
theorem Closed.uncached (h : Closed v) (ha : Honest a)
    (hclean : cleanVirtualPath path = path) (hmark : Unmarked v path) {err : Err} {v₁ : View}
    (hr : View.resolve a.list [] now fuel path v = (.error err, v₁)) : fuel = 0 ∨ v₁.entries.lookup path = none := by
  cases fuel with
  | zero => exact .inl rfl
  | succ fuel =>
    have hshown := hmark.isUnavailable h.bare hclean now
    right
    by_cases hroot : path = [47]
    · subst hroot
      have hspec := h.resolve ha.names now (fuel + 1) hclean
      rw [hr] at hspec
      rw [hspec.frame [47] le_rfl]
      cases hcached : v.entries.lookup [47] with
      | none => rfl
      | some entry =>
        have hentry : v.cachedEntry [47] = some entry := by rwa [cachedEntry, hclean]
        rw [resolve_cached hentry (by rwa [hclean])] at hr
        cases hr
    · exact h.resolve_error ha.names hclean hroot hshown hr

theorem Closed.mkdir (h : Closed v) (ha : Honest a) (hconflict : NoConflict a) (now : Int)
    (fuel : Nat) (hmark : Unmarked v (cleanVirtualPath path)) : Closed (v.mkdir a now fuel path).2 := by
  have hclean := cleanVirtualPath_idem path
  have hspec := h.resolve ha.names now fuel hclean
  rcases mkdir_unmarked h ha.names hmark with ⟨entry, v₁, heq, hmkdir⟩ | ⟨err, v₁, heq, hmkdir⟩
  · rw [heq] at hspec
    rw [hmkdir]
    exact hspec.closed
  · rw [heq] at hspec
    rw [hmkdir]
    split
    · by_cases hroot : cleanVirtualPath path = [47]
      · have hnone := h.uncached ha hclean hmark heq
        rw [hroot] at hnone ⊢
        exact (hspec.closed.createDir_root ha hnone rfl).1
      · exact (hspec.closed.createDir ha hconflict hclean hroot rfl).1
    · exact hspec.closed

/-! ## The new directory -/

theorem Closed.none_below (h : Closed v) (hroot : path ≠ [47]) (hnone : v.entries.lookup path = none)
    {k : Bytes} (hk : dirPath k = path) (hkroot : k ≠ [47]) : v.entries.lookup k = none := by
  cases hcached : v.entries.lookup k with
  | none => rfl
  | some entry =>
    have hclean := h.clean k entry hcached
    rw [(dirPath_clean hclean).1] at hk
    rcases h.parents k (by rw [hcached]; rfl) hkroot with hparent | hparent
    · exact absurd (hk.symm.trans hparent) hroot
    · rw [hk, hnone] at hparent
      cases hparent

theorem Closed.listing_of_commitMkdir (h : Closed v) (hclean : cleanVirtualPath path = path)
    (hroot : path ≠ [47]) (hnone : v.entries.lookup path = none)
    (hnew : ∀ remote, list entry.id = .ok remote → remote = []) {now' : Int} {entries : List Entry}
    (hr : ((v.commitMkdir now path entry).children list [] now' path entry.id).1 = .ok entries) : entries = [] := by
  have hchild := childOf_parent hclean hroot
  set w := v.commitMkdir now path entry with hw
  have hwentries : w.entries = v.entries.insert path entry := rfl
  have hwlists : w.lists = v.lists.erase (cleanVirtualPath (dirPath path)) := rfl
  have hfresh : w.freshList now' path = none := by
    have hlist : v.lists.lookup path = none := by
      cases hlookup : v.lists.lookup path with
      | none => rfl
      | some listed =>
        rcases h.lists path (by rw [hlookup]; rfl) with heq | heq
        · exact absurd heq hroot
        · simp [hnone] at heq
    have hnone' : w.lists.lookup path = none := by
      rw [hwlists, lookup_erase_eq, hlist, ite_self]
    rw [freshList, hclean, hnone']
  unfold View.children at hr
  dsimp only at hr
  rw [hclean] at hr
  split at hr
  · cases hr
  rw [hfresh] at hr
  dsimp only at hr
  split at hr
  · cases hr
  · next remote hremote =>
    rw [hnew remote hremote] at hr
    cases hr
    -- an entry of the listing would be cached below the path
    refine eq_nil_iff_forall_not_mem.mpr ?_
    intro e he
    have hname := (hasName_commitRemoteChildren w [] now' path [] (now' + listCacheTTL) e.name
      fun _ hp => absurd hp not_mem_nil).mp (hasName_iff.mpr ⟨e, he, rfl⟩)
    rcases hname with hvisible | ⟨k, e', ⟨hlookup, hkroot, hkdir, -⟩, -⟩
    · cases hvisible
    · have hne : k ≠ path := by
        rintro rfl
        have hlonger := hchild.longer
        rw [← hchild.dir, hkdir, hclean] at hlonger
        exact absurd hlonger (lt_irrefl _)
      rw [lookup_committedChildren] at hlookup
      have hlookup' : w.entries.lookup k = some e' := hlookup
      simp [hwentries, lookup_insert_eq, if_neg hne, h.none_below hroot hnone (hkdir.trans hclean) hkroot] at hlookup'

/-! ## Removing -/

theorem lookup_deleteUnder (m : AList fun _ : Bytes => β) (path k : Bytes) : (deleteUnder m path).lookup k =
      if k = path ∨ isPathUnder k path = true then none else m.lookup k := by
  rw [deleteUnder, lookup_erase_all]
  by_cases hkey : k ∈ m.keys
  · simp [hkey]
  · have hnone : m.lookup k = none := AList.lookup_eq_none.mpr hkey
    simp [hnone]

/-- Nothing is cached below the path. -/
def NoneBelow (v : View) (path : Bytes) : Prop :=
  (∀ k, (v.entries.lookup k).isSome = true → isPathUnder k path = false) ∧ v.lists.lookup path = none

end View

variable {vis : Visibility}

theorem Visibility.Bare.of_overlay {vis' : Visibility} (h : vis.Bare) (heq : vis'.overlay = vis.overlay) :
    vis'.Bare := by
  refine ⟨?_, ?_, ?_, ?_⟩
  · rw [heq]; exact h.shadows
  · rw [heq]; exact h.hidden
  · rw [heq]; exact h.restored
  · rw [heq]; exact h.marks

theorem erase_of_nil {β : Type} {m : AList fun _ : Bytes => β} (h : m.entries = []) (k : Bytes) :
    (m.erase k).entries = [] := by
  show m.entries.kerase k = []
  simp [h]

theorem Visibility.Bare.markDeleted (h : vis.Bare) (path : Bytes) (entry : Entry) :
    (vis.markDeleted path entry).Bare where
  shadows := erase_of_nil h.shadows path
  hidden := h.hidden
  restored := erase_of_nil h.restored path
  marks := by
    intro dir hdir
    show ((vis.overlay.deleted.insert path entry).lookup dir).isSome = true
    have hmem : dir ∈ (vis.overlay.setDeleted path entry).deletedDirs := hdir
    rw [lookup_insert_eq]
    split
    · rfl
    · next hne =>
      refine h.marks dir ?_
      unfold Overlay.setDeleted at hmem
      dsimp only at hmem
      split at hmem
      · exact mem_of_mem_filter ((mem_cons.mp hmem).resolve_left hne)
      · exact mem_of_mem_filter hmem

theorem Visibility.Bare.removeDeleted (h : vis.Bare) (path : Bytes) : (vis.removeDeleted path).Bare where
  shadows := h.shadows
  hidden := h.hidden
  restored := h.restored
  marks := by
    intro dir hdir
    obtain ⟨hmem, hne⟩ := mem_filter.mp hdir
    show ((vis.overlay.deleted.erase path).lookup dir).isSome = true
    rw [lookup_erase_eq, if_neg (by simpa using hne)]
    exact h.marks dir hmem

theorem Visibility.Bare.foldl {f : Visibility → Bytes → Visibility}
    (hf : ∀ vis path, vis.Bare → (f vis path).Bare) (paths : List Bytes) (h : vis.Bare) :
    (paths.foldl f vis).Bare := by
  induction paths generalizing vis with
  | nil => exact h
  | cons path paths ih => exact ih (hf vis path h)

theorem Visibility.Bare.markDeleteComplete (h : vis.Bare) (path : Bytes) : (vis.markDeleteComplete path).Bare := by
  have hcleared : (((vis.clearActive path).clearFailure path).clearTakeover path).Bare := h.of_overlay rfl
  have hremoved := hcleared.removeDeleted path
  exact ⟨hremoved.shadows, hremoved.hidden, erase_of_nil hremoved.restored path, hremoved.marks⟩

namespace View

variable {v : View} {now : Int} {path : Bytes} {a : Answers}

section

variable (h : Closed v)
include h

theorem Closed.withVis {vis : Visibility} (hvis : vis.Bare) : Closed { v with vis := vis } :=
  ⟨h.clean, h.plain, h.parents, h.lists, h.listed, hvis⟩

theorem Closed.takeoverDirectory (dir : Bytes) : Closed (v.takeoverDirectory dir) := by
  have htaken : (v.vis.addTakeover dir).Bare := h.bare.of_overlay rfl
  have hcancel : ((v.vis.addTakeover dir).cancelUnder dir).Bare :=
    Visibility.Bare.foldl (f := Visibility.unschedule) (fun _ _ hvis => hvis.of_overlay rfl) _ htaken
  have hdrop : ∀ (vis : Visibility) (path : Bytes), vis.Bare → ((vis.removeDeleted path).clearFailure path).Bare :=
    fun _ path hvis => (hvis.removeDeleted path).of_overlay rfl
  exact h.withVis (Visibility.Bare.foldl hdrop _ hcancel)

theorem Closed.markDeleteComplete (path : Bytes) : Closed (v.markDeleteComplete path) :=
  (h.withVis (h.bare.markDeleteComplete path)).invalidateList (dirPath path)

theorem Closed.execute (path : Bytes) (entry : Entry) : Closed (v.execute a path entry) := by
  unfold View.execute
  split
  · have hactive : Closed { v with vis := v.vis.markDeleteActive path entry } :=
      h.withVis (h.bare.of_overlay rfl)
    dsimp only
    split
    · exact hactive.withVis (hactive.bare.of_overlay rfl)
    · exact hactive.markDeleteComplete path
  · exact h

theorem Closed.scheduleDelete (delay : Int) (path : Bytes) (entry : Entry) :
    Closed (v.scheduleDelete a delay path entry) := by
  unfold View.scheduleDelete
  split
  · exact h.execute path entry
  · exact h.withVis (h.bare.of_overlay rfl)

theorem Closed.timer (path : Bytes) : Closed (v.timer a path) := by
  unfold View.timer
  split
  · exact h
  · have hfired : Closed { v with vis := v.vis.unschedule path } := h.withVis (h.bare.of_overlay rfl)
    exact hfired.execute path _

theorem Closed.commitRemove (hclean : cleanVirtualPath path = path) {entry : Entry}
    (hbelow : entry.isDir = true ∨ NoneBelow v path) : Closed (v.commitRemove path entry) := by
  have hentries : ∀ k, (v.commitRemove path entry).entries.lookup k =
      if k = path ∨ (entry.isDir = true ∧ isPathUnder k path = true) then none else v.entries.lookup k := by
    intro k
    show (if entry.isDir then deleteUnder (v.entries.erase path) path else v.entries.erase path).lookup k = _
    cases entry.isDir with
    | true => simp only [if_true, lookup_deleteUnder, lookup_erase_eq, true_and]; grind
    | false => simp [lookup_erase_eq]
  have hlists : ∀ k, (v.commitRemove path entry).lists.lookup k =
      if entry.isDir = true ∧ (k = path ∨ isPathUnder k path = true) then none else v.lists.lookup k := by
    intro k
    show (if entry.isDir then deleteUnder v.lists path else v.lists).lookup k = _
    cases entry.isDir with
    | true => simp [lookup_deleteUnder]
    | false => simp
  have hkept : ∀ k e, (v.commitRemove path entry).entries.lookup k = some e → v.entries.lookup k = some e ∧
      k ≠ path ∧ ¬(entry.isDir = true ∧ isPathUnder k path = true) := by
    intro k e hk
    rw [hentries] at hk
    grind
  -- what stays cached is not below the path
  have hother : ∀ k, (v.entries.lookup k).isSome = true →
      ¬(entry.isDir = true ∧ isPathUnder k path = true) → isPathUnder k path = false := by
    intro k hk hnot
    rcases hbelow with hdir | hbelow
    · simpa [hdir] using hnot
    · exact hbelow.1 k hk
  refine ⟨fun k e hk => h.clean k e (hkept k e hk).1, fun k e hk => h.plain k e (hkept k e hk).1, ?_, ?_, ?_,
    h.bare.markDeleted path entry⟩
  · intro k hk hkroot
    obtain ⟨e, he⟩ := isSome_iff_exists.mp hk
    obtain ⟨hcached, hne, hnot⟩ := hkept k e he
    have hsome : (v.entries.lookup k).isSome = true := by rw [hcached]; rfl
    have hunder := hother k hsome hnot
    by_cases hup : parentVirtualPath k = [47]
    · exact .inl hup
    · -- the parent is neither the path nor below it
      have habove : ¬(parentVirtualPath k = path ∨ isPathUnder (parentVirtualPath k) path = true) := by
        intro habove
        have hroot : path ≠ [47] := by
          rintro rfl
          rcases habove with heq | hlt
          · exact hup heq
          · simp [isPathUnder, hclean] at hlt
        simp [isPathUnder_of_parent (h.clean k e hcached) hkroot hclean hroot habove] at hunder
      rw [not_or] at habove
      right
      rw [hentries, if_neg (by grind)]
      exact (h.parents k hsome hkroot).resolve_left hup
  · intro k hk
    rw [hlists] at hk
    split at hk
    · cases hk
    · next hnot =>
      rcases h.lists k hk with hroot | hcached
      · exact .inl hroot
      · right
        have hne : k ≠ path := by
          rintro rfl
          rcases hbelow with hdir | hbelow
          · exact hnot ⟨hdir, .inl rfl⟩
          · simp [hbelow.2] at hk
        rwa [hentries, if_neg (by grind)]
  · intro k entries expires hk
    rw [hlists] at hk
    split at hk
    · cases hk
    · exact h.listed k entries expires hk

theorem Closed.removeFile (hlist : PlainList a.list) (now : Int) (fuel : Nat) (delay : Int)
    (hbelow : ∀ entry v₁, View.resolve a.list [] now fuel (cleanVirtualPath path) v = (.ok entry, v₁) →
      entry.isDir = true ∨ NoneBelow v₁ (cleanVirtualPath path)) : Closed (v.removeFile a now fuel delay path).2 := by
  have hclean := cleanVirtualPath_idem path
  have hspec := h.resolve hlist now fuel hclean
  unfold View.removeFile
  dsimp only
  split
  · next err v₁ heq =>
    rw [heq] at hspec
    exact hspec.closed
  · next entry v₁ heq =>
    rw [heq] at hspec
    exact (hspec.closed.commitRemove hclean (hbelow entry v₁ heq)).scheduleDelete delay _ entry

theorem Closed.removeDirectory (hlist : PlainList a.list) (now : Int) (fuel : Nat) (delay : Int)
    (hclean : cleanVirtualPath path = path) : Closed (v.removeDirectory a now fuel delay path).2 := by
  have hspec := h.resolve hlist now fuel hclean
  unfold View.removeDirectory
  split
  · next err v₁ heq =>
    rw [heq] at hspec
    exact hspec.closed
  · next entry v₁ heq =>
    rw [heq] at hspec
    split
    · next hdir =>
      exact ((hspec.closed.takeoverDirectory path).commitRemove hclean (.inl hdir)).scheduleDelete delay _ entry
    · exact hspec.closed

theorem Closed.removeDir (hlist : PlainList a.list) (now : Int) (fuel : Nat) (delay : Int) :
    Closed (v.removeDir a now fuel delay path).2 := by
  have hclean := cleanVirtualPath_idem path
  have hspec := h.resolve hlist now fuel hclean
  unfold View.removeDir
  dsimp only
  split
  · next err v₁ heq =>
    rw [heq] at hspec
    exact hspec.closed
  · next entry v₁ heq =>
    rw [heq] at hspec
    split
    · split
      · exact hspec.closed
      · exact hspec.closed.removeDirectory hlist now fuel delay hclean
    · exact hspec.closed

theorem Closed.listPath (hlist : PlainList a.list) (now : Int) (fuel : Nat) :
    Closed (v.listPath a.list [] now fuel path).2 := by
  have hclean := cleanVirtualPath_idem path
  have hspec := h.resolve hlist now fuel hclean
  unfold View.listPath
  rw [← resolve_clean]
  split
  · next err v₁ heq =>
    rw [heq] at hspec
    exact hspec.closed
  · next entry v₁ heq =>
    rw [heq] at hspec
    exact (hspec.closed.children hlist now entry.id (.inr (hspec.found entry rfl))).closed

end

end View

/-! ## Runs -/

/-- The calls that create, remove and list directories, and the timers of the deletes. -/
inductive DirOp where
  | list (path : Bytes)
  | remove (path : Bytes)
  | removeDir (path : Bytes)
  | timer (path : Bytes)
  | mkdir (path : Bytes)

/-- A call, the time, and what the backend answers. -/
structure DirCall where
  op : DirOp
  answers : Answers
  now : Int
  fuel : Nat

def DirCall.run (delay : Int) (v : View) (c : DirCall) : View :=
  match c.op with
  | .list path => (v.listPath c.answers.list [] c.now c.fuel path).2
  | .remove path => (v.removeFile c.answers c.now c.fuel delay path).2
  | .removeDir path => (v.removeDir c.answers c.now c.fuel delay path).2
  | .timer path => v.timer c.answers path
  | .mkdir path => (v.mkdir c.answers c.now c.fuel path).2

/-- No directory is created at or below a marked path, or where the backend has one; a removed file has nothing cached
below. -/
def DirCall.Allowed (v : View) (c : DirCall) : Prop :=
  View.Honest c.answers ∧
    match c.op with
    | .mkdir path => View.Unmarked v (cleanVirtualPath path) ∧ View.NoConflict c.answers
    | .remove path => ∀ entry v₁,
        View.resolve c.answers.list [] c.now c.fuel (cleanVirtualPath path) v = (.ok entry, v₁) →
          entry.isDir = true ∨ View.NoneBelow v₁ (cleanVirtualPath path)
    | _ => True

/-- The views after allowed calls. -/
def DirRun (delay : Int) : View → View → Prop :=
  Reaches (fun v c v' => v' = DirCall.run delay v c) fun v c => c.Allowed v

theorem DirCall.keep {delay : Int} {v : View} {c : DirCall} (h : View.Closed v) (hc : c.Allowed v) :
    View.Closed (c.run delay v) := by
  obtain ⟨op, a, now, fuel⟩ := c
  obtain ⟨ha, hop⟩ := hc
  cases op with
  | list path => exact h.listPath ha.names now fuel
  | remove path => exact h.removeFile ha.names now fuel delay hop
  | removeDir path => exact h.removeDir ha.names now fuel delay
  | timer path => exact h.timer path
  | mkdir path => exact h.mkdir ha hop.2 now fuel hop.1

theorem View.closed_new (rootID : Bytes) : View.Closed (View.new rootID) where
  clean := by
    intro path entry hlookup
    rw [View.lookup_new hlookup]
    decide
  plain := fun path entry hlookup hroot => absurd (View.lookup_new hlookup) hroot
  parents := by
    intro path hsome hroot
    obtain ⟨entry, hlookup⟩ := isSome_iff_exists.mp hsome
    exact absurd (View.lookup_new hlookup) hroot
  lists := fun path hsome => by cases hsome
  listed := fun path entries expires hlookup => by cases hlookup
  bare := ⟨rfl, rfl, rfl, fun dir hdir => absurd hdir not_mem_nil⟩

theorem DirRun.closed {delay : Int} {rootID : Bytes} {v : View} (h : DirRun delay (View.new rootID) v) :
    View.Closed v := by
  refine h.invariant View.Closed (View.closed_new rootID) ?_
  rintro s c _ hs hok rfl
  exact DirCall.keep hs hok

/-- The backend of the examples: a file "a" and a directory "d" in the root, a file "x" in the directory. -/
def dirAnswers : Answers where
  list id :=
    if id = ascii "0" then
      .ok [⟨ascii "1", ascii "0", ascii "a", false, 1, none⟩, ⟨ascii "2", ascii "0", ascii "d", true, 0, none⟩]
    else if id = ascii "2" then .ok [⟨ascii "3", ascii "2", ascii "x", false, 1, none⟩]
    else .ok []
  mkdir _ _ := .ok ⟨ascii "4", ascii "0", ascii "b", true, 0, none⟩

end Vfs
