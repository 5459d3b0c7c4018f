import Qrypt.Vfs.Listing

/-!
# The cache is closed upwards

While calls create, remove and list directories, what the view has cached lies in a cached directory: a
listing is committed only for a directory that resolved. Looking a path up caches entries of the directories
above it and nothing else.
-/

namespace Vfs

open Infra Drive Upload List Option

/-! ## The view in between -/

/-- No rename, copy or restore hides or keeps anything, and the marked directories carry marks. -/
structure Visibility.Bare (vis : Visibility) : Prop where
  shadows : vis.overlay.renameOverlays.entries = []
  hidden : vis.overlay.copyHiddenChildren.entries = []
  restored : vis.overlay.restoredDirs.entries = []
  marks : ∀ dir ∈ vis.overlay.deletedDirs, (vis.overlay.deleted.lookup dir).isSome = true

/-- What is cached lies in a cached directory, the root apart. -/
structure View.Closed (v : View) : Prop where
  clean : ∀ path entry, v.entries.lookup path = some entry → cleanVirtualPath path = path
  plain : ∀ path entry, v.entries.lookup path = some entry → path ≠ [47] → PlainElem entry.name
  parents : ∀ path, (v.entries.lookup path).isSome = true → path ≠ [47] →
    parentVirtualPath path = [47] ∨ (v.entries.lookup (parentVirtualPath path)).isSome = true
  lists : ∀ path, (v.lists.lookup path).isSome = true → path = [47] ∨ (v.entries.lookup path).isSome = true
  listed : ∀ path entries expires, v.lists.lookup path = some (entries, expires) → ∀ e ∈ entries, PlainElem e.name
  bare : v.vis.Bare

/-- The names that the backend lists are names. -/
def PlainList (list : View.RemoteList) : Prop :=
  ∀ id entries, list id = .ok entries → ∀ e ∈ entries, PlainElem e.name

namespace View

variable {v : View} {list : RemoteList} {now : Int} {path parentPath : Bytes}

theorem isSome_insert {m : AList fun _ : Bytes => Entry} (k p : Bytes) (e : Entry)
    (h : (m.lookup p).isSome = true) : ((m.insert k e).lookup p).isSome = true := by
  rw [lookup_insert_eq]
  split
  · rfl
  · exact h

theorem Closed.insert (h : Closed v) {name : Bytes} {e : Entry} (hchild : ChildOf parentPath name path)
    (hplain : PlainElem e.name)
    (hparent : cleanVirtualPath parentPath = [47] ∨ (v.entries.lookup (cleanVirtualPath parentPath)).isSome = true) :
    Closed { v with entries := v.entries.insert path e } where
  clean := by
    intro k e' hlookup
    rw [lookup_insert_eq] at hlookup
    split at hlookup
    · next hk => exact hk ▸ hchild.clean
    · exact h.clean k e' hlookup
  plain := by
    intro k e' hlookup hroot
    rw [lookup_insert_eq] at hlookup
    split at hlookup
    · cases hlookup
      exact hplain
    · exact h.plain k e' hlookup hroot
  parents := by
    intro k hlookup hroot
    rw [lookup_insert_eq] at hlookup
    split at hlookup
    · next hk =>
      rw [hk, hchild.parent]
      exact hparent.imp_right (isSome_insert _ _ _)
    · exact (h.parents k hlookup hroot).imp_right (isSome_insert _ _ _)
  lists := fun l hlookup => (h.lists l hlookup).imp_right (isSome_insert _ _ _)
  listed := h.listed
  bare := h.bare

variable {entries : List Entry}

theorem Closed.cacheListedChildren (h : Closed v) (hplain : ∀ e ∈ entries, PlainElem e.name)
    (hparent : cleanVirtualPath parentPath = [47] ∨ (v.entries.lookup (cleanVirtualPath parentPath)).isSome = true) :
    Closed (v.cacheListedChildren parentPath entries) := by
  unfold View.cacheListedChildren
  induction entries generalizing v with
  | nil => exact h
  | cons e entries ih =>
    have he := hplain e mem_cons_self
    exact ih (h.insert (childOf_join parentPath he) he hparent)
      (fun e' he' => hplain e' (mem_cons_of_mem _ he')) (hparent.imp_right (isSome_insert _ _ _))

theorem isSome_cacheListedChildren (entries : List Entry) (k : Bytes) (h : (v.entries.lookup k).isSome = true) :
    ((v.cacheListedChildren parentPath entries).entries.lookup k).isSome = true := by
  unfold View.cacheListedChildren
  rw [lookup_insert_all v.entries (fun r : Entry => joinVirtualPath parentPath r.name) fun r => r,
    isSome_or, h, Bool.or_true]

theorem updateRenameOverlay_bare (h : v.vis.Bare) (entries : List Entry) :
    v.updateRenameOverlay now parentPath entries = v := by
  simp [updateRenameOverlay, Visibility.updateRenameOverlay, h.shadows]

theorem Closed.committedChildren (h : Closed v) (now expires : Int) {remote : List Entry}
    (hplain : ∀ e ∈ remote, PlainElem e.name)
    (hparent : cleanVirtualPath parentPath = [47] ∨ (v.entries.lookup (cleanVirtualPath parentPath)).isSome = true) :
    Closed (v.committedChildren now parentPath remote expires) := by
  unfold View.committedChildren
  rw [updateRenameOverlay_bare h.bare]
  have hvisible : ∀ e ∈ v.filterDeleted now parentPath remote, PlainElem e.name :=
    fun e he => hplain e (mem_of_mem_filter he)
  rw [← cleanVirtualPath_idem] at hparent
  have hcached := h.cacheListedChildren hvisible hparent
  rw [cleanVirtualPath_idem] at hparent
  refine ⟨hcached.clean, hcached.plain, hcached.parents, ?_, ?_, hcached.bare⟩
  · intro l hl
    unfold commitChildren at hl
    dsimp only at hl
    rw [lookup_insert_eq] at hl
    split at hl
    · next heq =>
      subst heq
      exact hparent.imp_right (isSome_cacheListedChildren _ _)
    · exact hcached.lists l hl
  · intro l entries expires' hl
    unfold commitChildren at hl
    dsimp only at hl
    rw [lookup_insert_eq] at hl
    split at hl
    · cases hl
      exact hvisible
    · exact hcached.listed l entries expires' hl

/-! ## Reading -/

theorem freshList_some (h : v.freshList now path = some entries) :
    ∃ expires, v.lists.lookup (cleanVirtualPath path) = some (entries, expires) := by
  unfold freshList at h
  split at h
  · cases h
  · next listed expires hlookup =>
    split at h
    · cases h
      exact ⟨expires, hlookup⟩
    · cases h

/-- What `Children` does to a closed view. -/
structure ChildrenSpec (v : View) (path : Bytes) (r : Except Err (List Entry) × View) : Prop where
  closed : Closed r.2
  vis : r.2.vis = v.vis
  grows : ∀ k, (v.entries.lookup k).isSome = true → (r.2.entries.lookup k).isSome = true
  /-- only entries of the directory that are listed are cached -/
  frame : ∀ k, (∀ entries, r.1 = .ok entries → ∀ e ∈ entries, joinVirtualPath path e.name ≠ k) →
    r.2.entries.lookup k = v.entries.lookup k
  plain : ∀ entries, r.1 = .ok entries → ∀ e ∈ entries, PlainElem e.name

theorem Closed.plain_project (h : Closed v) (hplain : ∀ e ∈ entries, PlainElem e.name) :
    ∀ e ∈ v.projectChildren [] now path entries, PlainElem e.name :=
  forall_projectChildren (fun _ _ he => he) (fun _ hp => absurd hp not_mem_nil) h.plain hplain

theorem Closed.children (h : Closed v) (hlist : PlainList list) (now : Int) (id : Bytes)
    (hcached : cleanVirtualPath path = [47] ∨ (v.entries.lookup (cleanVirtualPath path)).isSome = true) :
    ChildrenSpec v path (v.children list [] now path id) := by
  -- a call that answers from the view leaves it as it is
  have hsame : ∀ r : Except Err (List Entry), (∀ entries, r = .ok entries → ∀ e ∈ entries, PlainElem e.name) →
      ChildrenSpec v path (r, v) :=
    fun r hr => ⟨h, rfl, fun _ hk => hk, fun _ _ => rfl, hr⟩
  unfold View.children
  dsimp only
  split
  · exact hsame _ (by simp)
  · split
    · next entries hfresh =>
      obtain ⟨expires, hlookup⟩ := freshList_some hfresh
      refine hsame _ ?_
      rintro _ ⟨⟩
      exact h.plain_project (h.listed _ _ _ hlookup)
    · split
      · exact hsame _ (by simp)
      · next remote hremote =>
        have hplain := hlist id remote hremote
        have hclosed := h.committedChildren now (now + listCacheTTL) hplain
          (by rwa [cleanVirtualPath_idem] : cleanVirtualPath (cleanVirtualPath path) = [47] ∨ _)
        have hvis : (v.committedChildren now (cleanVirtualPath path) remote (now + listCacheTTL)).vis =
            (v.updateRenameOverlay now (cleanVirtualPath path) remote).vis := rfl
        rw [updateRenameOverlay_bare h.bare] at hvis
        refine ⟨hclosed, hvis, ?_, ?_, ?_⟩
        · intro k hk
          exact isSome_cacheListedChildren _ _ hk
        · intro k hk
          have hother : ∀ r ∈ v.visibleRemote now (cleanVirtualPath path) remote,
              joinVirtualPath (cleanVirtualPath path) r.name ≠ k := by
            intro r hr
            have hname := (hasName_commitRemoteChildren v [] now (cleanVirtualPath path) remote
              (now + listCacheTTL) r.name fun _ hp => absurd hp not_mem_nil).mpr
                (.inl (hasName_iff.mpr ⟨r, hr, rfl⟩))
            obtain ⟨e, he, hsame⟩ := hasName_iff.mp hname
            rw [joinVirtualPath_clean, ← hsame]
            exact hk _ rfl e he
          have hfind : ((v.visibleRemote now (cleanVirtualPath path) remote).reverse.find? fun r =>
              joinVirtualPath (cleanVirtualPath path) r.name = k) = none := by
            simpa using hother
          exact (lookup_committedChildren v now (cleanVirtualPath path) remote _ k).trans
            (by rw [hfind, none_or])
        · rintro _ ⟨⟩
          exact hclosed.plain_project fun e he => hplain e (mem_of_mem_filter he)

/-- What `Resolve` of a clean path does to a closed view. -/
structure ResolveSpec (v : View) (path : Bytes) (r : Except Err Entry × View) : Prop where
  closed : Closed r.2
  vis : r.2.vis = v.vis
  grows : ∀ k, (v.entries.lookup k).isSome = true → (r.2.entries.lookup k).isSome = true
  found : ∀ e, r.1 = .ok e → (r.2.entries.lookup path).isSome = true
  /-- only entries of the directories above the path are cached -/
  frame : ∀ k, path.length ≤ (parentVirtualPath k).length → r.2.entries.lookup k = v.entries.lookup k

theorem lookup_cacheListedChildren_of_ne {k : Bytes} (h : ∀ e ∈ entries, joinVirtualPath parentPath e.name ≠ k) :
    (v.cacheListedChildren parentPath entries).entries.lookup k = v.entries.lookup k := by
  have hfind : (entries.reverse.find? fun r => joinVirtualPath parentPath r.name = k) = none := by
    simpa using h
  unfold View.cacheListedChildren
  simp [lookup_insert_all v.entries (fun r : Entry => joinVirtualPath parentPath r.name) fun r => r, hfind]

section

variable (h : Closed v) (hlist : PlainList list)
include h hlist

theorem Closed.resolveIn (now : Int) (hclean : cleanVirtualPath path = path) (hroot : path ≠ [47])
    (hcached : (v.entries.lookup (parentVirtualPath path)).isSome = true) (parent : Entry) :
    ResolveSpec v path (v.resolveIn list [] now path parent) := by
  have hchild := childOf_parent hclean hroot
  have hdir := hchild.parent.symm
  have hcached' : cleanVirtualPath (parentVirtualPath path) = [47] ∨
      (v.entries.lookup (cleanVirtualPath (parentVirtualPath path))).isSome = true := by
    rw [hdir]
    exact .inr hcached
  -- what is cached below the path is no entry of its directory
  have hother : ∀ (k : Bytes) (e : Entry), path.length ≤ (parentVirtualPath k).length → PlainElem e.name →
      joinVirtualPath (parentVirtualPath path) e.name ≠ k := by
    rintro _ e hk he rfl
    have hlonger := hchild.longer
    rw [(childOf_join _ he).parent] at hk
    omega
  unfold View.resolveIn
  split
  · exact ⟨h, rfl, fun _ hk => hk, by simp, fun _ _ => rfl⟩
  · have hspec := h.children hlist now parent.id hcached'
    split
    · next err v' heq =>
      rw [heq] at hspec
      exact ⟨hspec.closed, hspec.vis, hspec.grows, by simp, fun k _ => hspec.frame k (by simp)⟩
    · next entries v' heq =>
      rw [heq] at hspec
      have hplain := hspec.plain entries rfl
      have hresolved : Closed (v'.cacheListedChildren (parentVirtualPath path) entries) := by
        refine hspec.closed.cacheListedChildren hplain ?_
        exact hcached'.imp_right (hspec.grows _)
      have hgrows : ∀ k, (v.entries.lookup k).isSome = true →
          ((v'.cacheListedChildren (parentVirtualPath path) entries).entries.lookup k).isSome = true :=
        fun k hk => isSome_cacheListedChildren _ _ (hspec.grows k hk)
      have hframe : ∀ k, path.length ≤ (parentVirtualPath k).length →
          (v'.cacheListedChildren (parentVirtualPath path) entries).entries.lookup k =
            v.entries.lookup k := by
        intro k hk
        rw [lookup_cacheListedChildren_of_ne fun e he => hother k e hk (hplain e he)]
        refine hspec.frame k ?_
        rintro _ ⟨⟩ e he
        exact hother k e hk (hplain e he)
      simp only [commitResolvedChildren]
      split
      · next child v'' hfound =>
        obtain ⟨hfind, rfl⟩ := Prod.mk.inj hfound
        refine ⟨hresolved, hspec.vis, hgrows, ?_, hframe⟩
        intro e _
        have hname : child.name = splitName path := by simpa using find?_some hfind
        have hkey : joinVirtualPath (parentVirtualPath path) child.name = path := by
          rw [hname, hchild.join]
        unfold View.cacheListedChildren
        rw [lookup_insert_all v'.entries (fun r : Entry => joinVirtualPath (parentVirtualPath path) r.name)
          fun r => r, isSome_or, isSome_map, Bool.or_eq_true, find?_isSome]
        exact .inl ⟨child, mem_of_find?_eq_some hfind, by simpa using hkey⟩
      · next v'' hfound =>
        obtain ⟨-, rfl⟩ := Prod.mk.inj hfound
        exact ⟨hresolved, hspec.vis, hgrows, by simp, hframe⟩

theorem Closed.resolve (now : Int) (fuel : Nat) (hclean : cleanVirtualPath path = path) :
    ResolveSpec v path (View.resolve list [] now fuel path v) := by
  induction fuel generalizing path with
  | zero => exact ⟨h, rfl, fun _ hk => hk, by simp [View.resolve], fun _ _ => rfl⟩
  | succ fuel ih =>
    unfold View.resolve
    rw [hclean]
    split
    · exact ⟨h, rfl, fun _ hk => hk, by simp, fun _ _ => rfl⟩
    · split
      · next entry hcached =>
        rw [cachedEntry, hclean] at hcached
        exact ⟨h, rfl, fun _ hk => hk, fun _ _ => by rw [hcached]; rfl, fun _ _ => rfl⟩
      · next hnone =>
        rw [cachedEntry, hclean] at hnone
        by_cases hroot : path = [47]
        · -- the root has no parent to look it up in
          have hup : parentVirtualPath path = path := by rw [hroot]; rfl
          have hspec := ih hclean
          rw [hup]
          split
          · next err v' heq =>
            rw [heq] at hspec
            exact ⟨hspec.closed, hspec.vis, hspec.grows, by simp, hspec.frame⟩
          · next parent v' heq =>
            rw [heq] at hspec
            have hfound := hspec.found parent rfl
            rw [hspec.frame path (by rw [hup]), hnone] at hfound
            cases hfound
        · have hchild := childOf_parent hclean hroot
          have hdir := hchild.parent.symm
          have hlonger := hchild.longer
          rw [hdir] at hlonger
          have hspec := ih hdir
          split
          · next err v' heq =>
            rw [heq] at hspec
            exact ⟨hspec.closed, hspec.vis, hspec.grows, by simp, fun k hk => hspec.frame k (by omega)⟩
          · next parent v' heq =>
            rw [heq] at hspec
            have hin := hspec.closed.resolveIn hlist now hclean hroot (hspec.found parent rfl) parent
            refine ⟨hin.closed, hin.vis.trans hspec.vis, fun k hk => hin.grows k (hspec.grows k hk), hin.found, ?_⟩
            intro k hk
            rw [hin.frame k hk, hspec.frame k (by omega)]

/-- A visible path that does not resolve is not cached afterwards either. -/
theorem Closed.resolveIn_error (hclean : cleanVirtualPath path = path) (hroot : path ≠ [47])
    (hcached : (v.entries.lookup (parentVirtualPath path)).isSome = true)
    (hnone : v.entries.lookup path = none) {parent : Entry} {err : Err} {v' : View}
    (hr : v.resolveIn list [] now path parent = (.error err, v')) : v'.entries.lookup path = none := by
  have hchild := childOf_parent hclean hroot
  have hdir := hchild.parent.symm
  have hspec := h.children hlist now parent.id
    (by rw [hdir]; exact .inr hcached : cleanVirtualPath (parentVirtualPath path) = [47] ∨ _)
  unfold View.resolveIn at hr
  split at hr
  · obtain ⟨-, rfl⟩ := Prod.mk.inj hr
    exact hnone
  · split at hr
    · next err' v₂ heq =>
      rw [heq] at hspec
      obtain ⟨-, rfl⟩ := Prod.mk.inj hr
      exact (hspec.frame path (by simp)).trans hnone
    · next entries v₂ heq =>
      rw [heq] at hspec
      split at hr
      · cases hr
      · next v₃ hfound =>
        obtain ⟨hfind, rfl⟩ := Prod.mk.inj hfound
        obtain ⟨-, rfl⟩ := Prod.mk.inj hr
        have hother : ∀ e ∈ entries, joinVirtualPath (parentVirtualPath path) e.name ≠ path := by
          intro e he heq'
          have hjoin := heq'.trans hchild.join.symm
          have hname : e.name ≠ splitName path := by
            simpa using find?_eq_none.mp hfind e (mem_reverse.mpr he)
          exact hname (joinVirtualPath_inj hjoin)
        rw [lookup_cacheListedChildren_of_ne hother, hspec.frame path, hnone]
        rintro _ ⟨⟩
        exact hother

theorem Closed.resolve_error {fuel : Nat}
    (hclean : cleanVirtualPath path = path) (hroot : path ≠ [47]) (hshown : v.isUnavailable now path = false)
    {err : Err} {v' : View} (hr : View.resolve list [] now (fuel + 1) path v = (.error err, v')) :
    v'.entries.lookup path = none := by
  have hchild := childOf_parent hclean hroot
  have hdir := hchild.parent.symm
  unfold View.resolve at hr
  rw [hclean, hshown, if_neg Bool.false_ne_true] at hr
  split at hr
  · cases hr
  · next hnone =>
    rw [cachedEntry, hclean] at hnone
    have hspec := h.resolve hlist now fuel hdir
    split at hr
    · next err' v₂ heq =>
      rw [heq] at hspec
      obtain ⟨-, rfl⟩ := Prod.mk.inj hr
      exact (hspec.frame path le_rfl).trans hnone
    · next parent v₂ heq =>
      rw [heq] at hspec
      exact hspec.closed.resolveIn_error hlist hclean hroot (hspec.found parent rfl)
        ((hspec.frame path le_rfl).trans hnone) hr

end

theorem resolve_clean (fuel : Nat) (path : Bytes) :
    View.resolve list [] now fuel (cleanVirtualPath path) v = View.resolve list [] now fuel path v := by
  cases fuel with
  | zero => rfl
  | succ fuel =>
    have hcached : v.cachedEntry (cleanVirtualPath path) = v.cachedEntry path := by
      rw [cachedEntry, cleanVirtualPath_idem]
      rfl
    simp only [View.resolve, hcached, cleanVirtualPath_idem]

end View

end Vfs
