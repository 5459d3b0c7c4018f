import Qrypt.Vfs.Paths
import Qrypt.Vfs.View

/-!
# Listings of a directory

What `CommitRemoteChildren` makes of a listing of the backend. The names that the overlay hides are left
out, and every cached entry of the directory that is not listed is put in, whatever it was cached for.

* `listing_follows_remote` — the listing has the names of the backend, and nothing else resolves, exactly
  if the view has cached nothing else in the directory.
-/

namespace Vfs

open Infra Drive Upload List Option

theorem hasName_iff {entries : List Entry} {name : Bytes} :
    hasName entries name = true ↔ ∃ e ∈ entries, e.name = name := by
  simp [hasName]

theorem hasName_append (entries others : List Entry) (name : Bytes) :
    hasName (entries ++ others) name = (hasName entries name || hasName others name) :=
  any_append

namespace View

variable (v : View) (pending : List PendingUpload) (now : Int) (parentPath : Bytes)

/-! ## Merging -/

/-- The entry is cached in the directory, at a visible path. -/
def CachedIn (path : Bytes) (entry : Entry) : Prop :=
  v.entries.lookup path = some entry ∧ path ≠ [47] ∧ dirPath path = cleanVirtualPath parentPath ∧
    v.isUnavailable now path = false

theorem hasName_localChildren (entries : List Entry) (name : Bytes) :
    hasName (v.localChildren now parentPath entries) name = true ↔
      hasName entries name = true ∨ ∃ path entry, v.CachedIn now parentPath path entry ∧ entry.name = name := by
  have hfold : ∀ (cached : List (Sigma fun _ : Bytes => Entry)) (out : List Entry),
      hasName (cached.foldl (fun out r =>
        if r.1 = [47] ∨ dirPath r.1 ≠ cleanVirtualPath parentPath ∨ hasName out r.2.name ∨
          v.isUnavailable now r.1 then out else out ++ [r.2]) out) name = true ↔
        hasName out name = true ∨ ∃ r ∈ cached, r.1 ≠ [47] ∧
          dirPath r.1 = cleanVirtualPath parentPath ∧ v.isUnavailable now r.1 = false ∧ r.2.name = name := by
    intro cached
    induction cached with
    | nil => simp
    | cons r cached ih =>
      intro out
      rw [foldl_cons, ih]
      split
      · next hskip =>
        -- a name that is there already adds nothing
        simp only [mem_cons, exists_eq_or_imp]
        grind
      · next hskip =>
        simp only [hasName_append, mem_cons, exists_eq_or_imp, Bool.or_eq_true]
        simp only [not_or] at hskip
        have hlast : hasName [r.2] name = true ↔ r.2.name = name := by simp [hasName]
        rw [hlast]
        grind
  rw [localChildren, hfold]
  constructor
  · rintro (hname | ⟨r, hr, hroot, hdir, hshown, hname⟩)
    · exact .inl hname
    · exact .inr ⟨r.1, r.2, ⟨AList.mem_lookup_iff.mpr hr, hroot, hdir, hshown⟩, hname⟩
  · rintro (hname | ⟨path, entry, ⟨hlookup, hroot, hdir, hshown⟩, hname⟩)
    · exact .inl hname
    · exact .inr ⟨⟨path, entry⟩, AList.mem_lookup_iff.mp hlookup, hroot, hdir, hshown, hname⟩

theorem mergePendingChildren_of_none (entries : List Entry)
    (h : ∀ p ∈ pending, dirPath p.path ≠ cleanVirtualPath parentPath) :
    v.mergePendingChildren pending parentPath entries = entries := by
  unfold mergePendingChildren
  induction pending with
  | nil => rfl
  | cons p pending ih =>
    rw [foldl_cons, if_pos (.inl (h p mem_cons_self))]
    exact ih fun q hq => h q (mem_cons_of_mem _ hq)

/-! ## Where the entries of a listing come from -/

section Forall

variable {v pending now parentPath} {P : Entry → Prop}

variable {entries : List Entry}

theorem forall_localChildren (hcached : ∀ path e, v.entries.lookup path = some e → path ≠ [47] → P e)
    (h : ∀ e ∈ entries, P e) : ∀ e ∈ v.localChildren now parentPath entries, P e := by
  have hfold : ∀ (cached : List (Sigma fun _ : Bytes => Entry)) (out : List Entry),
      (∀ r ∈ cached, r.1 ≠ [47] → P r.2) → (∀ e ∈ out, P e) → ∀ e ∈ cached.foldl (fun out r =>
          if r.1 = [47] ∨ dirPath r.1 ≠ cleanVirtualPath parentPath ∨ hasName out r.2.name ∨
            v.isUnavailable now r.1 then out else out ++ [r.2]) out, P e := by
    intro cached
    induction cached with
    | nil => exact fun out _ hout => hout
    | cons r cached ih =>
      intro out hall hout
      rw [foldl_cons]
      refine ih _ (fun r' hr' => hall r' (mem_cons_of_mem _ hr')) ?_
      split
      · exact hout
      · next hskip =>
        refine forall_mem_append.mpr ⟨hout, forall_mem_singleton.mpr ?_⟩
        exact hall r mem_cons_self fun hroot => hskip (.inl hroot)
  exact hfold _ _ (fun r hr => hcached r.1 r.2 (AList.mem_lookup_iff.mpr hr)) h

section

variable (hsize : ∀ e size, P e → P { e with size := size })
include hsize

theorem forall_setSize (name : Bytes) (size : Int)
    (h : ∀ e ∈ entries, P e) : ∀ e ∈ setSize name size entries, P e := by
  induction entries with
  | nil => exact h
  | cons entry entries ih =>
    have hrest : ∀ e ∈ entries, P e := fun e he => h e (mem_cons_of_mem _ he)
    unfold setSize
    split
    · exact forall_mem_cons.mpr ⟨hsize _ _ (h entry mem_cons_self), hrest⟩
    · exact forall_mem_cons.mpr ⟨h entry mem_cons_self, ih hrest⟩

theorem forall_mergePendingChildren (hpending : ∀ p ∈ pending, P ⟨p.fid, p.parentID, p.name, false, p.size.val, none⟩)
    (h : ∀ e ∈ entries, P e) : ∀ e ∈ v.mergePendingChildren pending parentPath entries, P e := by
  unfold mergePendingChildren
  induction pending generalizing entries with
  | nil => exact h
  | cons p pending ih =>
    rw [foldl_cons]
    refine ih (fun q hq => hpending q (mem_cons_of_mem _ hq)) ?_
    split
    · exact h
    · split
      · exact forall_setSize hsize _ _ h
      · exact forall_mem_append.mpr ⟨h, forall_mem_singleton.mpr (hpending p mem_cons_self)⟩

theorem forall_projectChildren (hpending : ∀ p ∈ pending, P ⟨p.fid, p.parentID, p.name, false, p.size.val, none⟩)
    (hcached : ∀ path e, v.entries.lookup path = some e → path ≠ [47] → P e)
    (h : ∀ e ∈ entries, P e) : ∀ e ∈ v.projectChildren pending now parentPath entries, P e := by
  refine forall_mergePendingChildren hsize hpending (forall_localChildren hcached ?_)
  intro e he
  exact h e (mem_of_mem_filter he)

end

end Forall

/-! ## Committing a listing -/

section Commit

variable (remote : List Entry) (expires : Int)

def visibleRemote : List Entry := (v.updateRenameOverlay now parentPath remote).filterDeleted now parentPath remote

theorem isUnavailable_committedChildren (now' : Int) (path : Bytes) :
    (v.committedChildren now parentPath remote expires).isUnavailable now' path =
      (v.updateRenameOverlay now parentPath remote).isUnavailable now' path := rfl

theorem lookup_committedChildren (path : Bytes) :
    (v.committedChildren now parentPath remote expires).entries.lookup path =
      ((v.visibleRemote now parentPath remote).reverse.find? fun r =>
        joinVirtualPath parentPath r.name = path).or (v.entries.lookup path) := by
  have hentries : (v.committedChildren now parentPath remote expires).entries =
      (v.visibleRemote now parentPath remote).foldl
        (fun m r => m.insert (joinVirtualPath (cleanVirtualPath parentPath) r.name) r) v.entries := rfl
  simp only [hentries, joinVirtualPath_clean]
  rw [lookup_insert_all v.entries (fun r => joinVirtualPath parentPath r.name) (fun r => r), Option.map_id']

theorem filterDeleted_visibleRemote : (v.committedChildren now parentPath remote expires).filterDeleted now parentPath
      (v.visibleRemote now parentPath remote) = v.visibleRemote now parentPath remote := by
  unfold visibleRemote filterDeleted
  rw [List.filter_filter]
  simp [isUnavailable_committedChildren]

theorem hasName_commitRemoteChildren (name : Bytes)
    (h : ∀ p ∈ pending, dirPath p.path ≠ cleanVirtualPath parentPath) :
    hasName (v.commitRemoteChildren pending now parentPath remote expires).1 name = true ↔
      hasName (v.visibleRemote now parentPath remote) name = true ∨
        ∃ path entry, (v.committedChildren now parentPath remote expires).CachedIn now parentPath path entry ∧
          entry.name = name := by
  have hlisted : (v.commitRemoteChildren pending now parentPath remote expires).1 =
      (v.committedChildren now parentPath remote expires).localChildren now parentPath
        (v.visibleRemote now parentPath remote) := by
    show View.mergePendingChildren _ _ _ (View.localChildren _ _ _ (View.filterDeleted _ _ _ _)) = _
    rw [mergePendingChildren_of_none _ _ _ _ h]
    exact congrArg _ (filterDeleted_visibleRemote v now parentPath remote expires)
  rw [hlisted, hasName_localChildren]

theorem freshList_committedChildren (h : now < expires) :
    (v.committedChildren now parentPath remote expires).freshList now parentPath =
      some (v.visibleRemote now parentPath remote) := by
  have hlists : (v.committedChildren now parentPath remote expires).lists =
      v.lists.insert (cleanVirtualPath parentPath) (v.visibleRemote now parentPath remote, expires) := rfl
  simp [freshList, hlists, h]

/-- The view has cached nothing in the directory that the listing lacks, at a visible path. -/
structure OnlyListed : Prop where
  names : ∀ path entry, (v.updateRenameOverlay now parentPath remote).CachedIn now parentPath path entry →
    (∀ r ∈ v.visibleRemote now parentPath remote, joinVirtualPath parentPath r.name ≠ path) →
      hasName (v.visibleRemote now parentPath remote) entry.name = true
  paths : ∀ name, PlainElem name → hasName remote name = false →
    (v.entries.lookup (joinVirtualPath parentPath name)).isSome = true →
      (v.updateRenameOverlay now parentPath remote).isUnavailable now (joinVirtualPath parentPath name) = true

variable {v pending now parentPath remote expires}

theorem names_iff_cached (h : ∀ p ∈ pending, dirPath p.path ≠ cleanVirtualPath parentPath) :
    (∀ name, hasName (v.commitRemoteChildren pending now parentPath remote expires).1 name =
        hasName (v.visibleRemote now parentPath remote) name) ↔
      ∀ path entry, (v.updateRenameOverlay now parentPath remote).CachedIn now parentPath path entry →
        (∀ r ∈ v.visibleRemote now parentPath remote, joinVirtualPath parentPath r.name ≠ path) →
          hasName (v.visibleRemote now parentPath remote) entry.name = true := by
  constructor
  · rintro hnames path entry ⟨hlookup, hroot, hdir, hshown⟩ hother
    -- the commit leaves the cached entry, so it is put in the listing
    have hkept : (v.committedChildren now parentPath remote expires).entries.lookup path = some entry := by
      have hfind : ((v.visibleRemote now parentPath remote).reverse.find? fun r =>
          joinVirtualPath parentPath r.name = path) = none := by
        simpa using hother
      rwa [lookup_committedChildren, hfind]
    rw [← hnames entry.name, hasName_commitRemoteChildren _ _ _ _ _ _ _ h]
    exact .inr ⟨path, entry, ⟨hkept, hroot, hdir, hshown⟩, rfl⟩
  · intro honly name
    rw [Bool.eq_iff_iff, hasName_commitRemoteChildren _ _ _ _ _ _ _ h, or_iff_left_iff_imp]
    rintro ⟨path, entry, ⟨hlookup, hroot, hdir, hshown⟩, rfl⟩
    rw [lookup_committedChildren] at hlookup
    cases hfind : (v.visibleRemote now parentPath remote).reverse.find? fun r =>
        joinVirtualPath parentPath r.name = path with
    | some r =>
      rw [hfind] at hlookup
      cases hlookup
      exact hasName_iff.mpr ⟨entry, mem_reverse.mp (mem_of_find?_eq_some hfind), rfl⟩
    | none =>
      rw [hfind] at hlookup
      refine honly path entry ⟨hlookup, hroot, hdir, hshown⟩ ?_
      simpa using hfind

end Commit

theorem projectChildren_clean (entries : List Entry) :
    v.projectChildren pending now (cleanVirtualPath parentPath) entries =
      v.projectChildren pending now parentPath entries := by
  simp only [projectChildren, mergePendingChildren, localChildren, filterDeleted, cleanVirtualPath_idem,
    joinVirtualPath_clean]

/-! ## Resolving -/

section Resolve

variable {v pending now parentPath} {list : RemoteList} {fuel : Nat} {name : Bytes}

theorem resolve_cached {path : Bytes} {entry : Entry} (hcached : v.cachedEntry path = some entry)
    (hshown : v.isUnavailable now (cleanVirtualPath path) = false) :
    resolve list pending now (fuel + 1) path v = (.ok entry, v) := by
  simp [resolve, hcached, hshown]

/-- A child that the listing of its directory lacks is not found. -/
theorem resolveIn_unlisted (h : PlainElem name) {listed : List Entry}
    (hfresh : v.freshList now parentPath = some listed)
    (hname : hasName (v.projectChildren pending now (cleanVirtualPath parentPath) listed) name = false)
    (parent : Entry) :
    ∃ err, (v.resolveIn list pending now (joinVirtualPath parentPath name) parent).1 = .error err := by
  have hdir := (childOf_join parentPath h).parent
  have hsplit := (childOf_join parentPath h).split
  have hfresh' : v.freshList now (cleanVirtualPath parentPath) = some listed := by
    rwa [freshList, cleanVirtualPath_idem]
  simp only [resolveIn, hdir, hsplit, children, cleanVirtualPath_idem, hfresh']
  by_cases hrecent : v.isRecentLocalDir now (cleanVirtualPath parentPath) = true
  · exact ⟨_, by rw [if_pos hrecent]⟩
  rw [if_neg hrecent]
  by_cases hhidden : v.isUnavailable now (cleanVirtualPath parentPath) = true
  · exact ⟨errNotFound, by simp [hhidden]⟩
  · have hfind : (v.projectChildren pending now (cleanVirtualPath parentPath) listed).reverse.find?
        (fun e => decide (e.name = name)) = none := by
      simpa [hasName] using hname
    exact ⟨errNotFound, by simp [hhidden, commitResolvedChildren, hfind]⟩

theorem resolve_unlisted (h : PlainElem name) {parent : Entry} (hparent : v.cachedEntry parentPath = some parent)
    (hcached : v.isUnavailable now (joinVirtualPath parentPath name) = false →
      v.entries.lookup (joinVirtualPath parentPath name) = none)
    {listed : List Entry} (hfresh : v.freshList now parentPath = some listed)
    (hname : hasName (v.projectChildren pending now (cleanVirtualPath parentPath) listed) name = false) :
    ∃ err, (resolve list pending now (fuel + 2) (joinVirtualPath parentPath name) v).1 = .error err := by
  have hclean := (childOf_join parentPath h).clean
  have hdir := (childOf_join parentPath h).parent
  rw [resolve, hclean, hdir]
  by_cases hshown : v.isUnavailable now (joinVirtualPath parentPath name) = true
  · exact ⟨_, by rw [if_pos hshown]⟩
  rw [if_neg hshown]
  have hnone : v.cachedEntry (joinVirtualPath parentPath name) = none := by
    rw [cachedEntry, hclean]
    exact hcached (by simpa using hshown)
  rw [hnone]
  have hparent' : v.cachedEntry (cleanVirtualPath parentPath) = some parent := by
    rwa [cachedEntry, cleanVirtualPath_idem]
  by_cases hhidden : v.isUnavailable now (cleanVirtualPath parentPath) = true
  · exact ⟨errNotFound, by simp [resolve, cleanVirtualPath_idem, hhidden]⟩
  · rw [resolve_cached hparent' (by simpa [cleanVirtualPath_idem] using hhidden)]
    exact resolveIn_unlisted h hfresh hname parent

end Resolve

/-! ## The listing and the backend -/

/-- **The listing has the visible names of the backend, and a name that the backend lacks does not resolve, exactly if
the view has cached nothing else in the directory.** No upload is pending there, and its own entry is cached. -/
theorem listing_follows_remote (v : View) (pending : List PendingUpload) (now expires : Int)
    (parentPath : Bytes) (remote : List Entry) (list : RemoteList) (fuel : Nat)
    (hpending : ∀ p ∈ pending, dirPath p.path ≠ cleanVirtualPath parentPath)
    (hparent : (v.cachedEntry parentPath).isSome = true) (hfresh : now < expires) :
    ((∀ name, hasName (v.commitRemoteChildren pending now parentPath remote expires).1 name =
        hasName (v.visibleRemote now parentPath remote) name) ∧
      ∀ name, PlainElem name → hasName remote name = false →
        ∃ err, (resolve list pending now (fuel + 2) (joinVirtualPath parentPath name)
          (v.commitRemoteChildren pending now parentPath remote expires).2).1 = .error err) ↔
      v.OnlyListed now parentPath remote := by
  constructor
  · rintro ⟨hnames, hresolve⟩
    refine ⟨(names_iff_cached hpending).mp hnames, ?_⟩
    intro name hplain hname hcached
    have hclean := (childOf_join parentPath hplain).clean
    by_contra hshown
    -- a visible path that is cached resolves
    obtain ⟨entry, hentry⟩ : ∃ entry, (v.committedChildren now parentPath remote expires).entries.lookup
        (joinVirtualPath parentPath name) = some entry := by
      rw [← isSome_iff_exists, lookup_committedChildren, isSome_or, hcached, Bool.or_true]
    have hresolved : resolve list pending now (fuel + 2) (joinVirtualPath parentPath name)
        (v.committedChildren now parentPath remote expires) =
          (.ok entry, v.committedChildren now parentPath remote expires) := by
      refine resolve_cached (by rwa [cachedEntry, hclean]) ?_
      rw [hclean, isUnavailable_committedChildren]
      simpa using hshown
    obtain ⟨err, herr⟩ := hresolve name hplain hname
    cases (congrArg Prod.fst hresolved).symm.trans herr
  · rintro ⟨hcached, hpaths⟩
    have hnames : ∀ name, hasName (v.commitRemoteChildren pending now parentPath remote expires).1 name =
        hasName (v.visibleRemote now parentPath remote) name := (names_iff_cached hpending).mpr hcached
    refine ⟨hnames, ?_⟩
    intro name hplain hname
    show ∃ err, (resolve list pending now (fuel + 2) (joinVirtualPath parentPath name)
      (v.committedChildren now parentPath remote expires)).1 = .error err
    have hother : ∀ r ∈ v.visibleRemote now parentPath remote,
        joinVirtualPath parentPath r.name ≠ joinVirtualPath parentPath name := by
      intro r hr heq
      have hlisted : hasName remote name = true :=
        hasName_iff.mpr ⟨r, (mem_filter.mp hr).1, joinVirtualPath_inj heq⟩
      simp [hname] at hlisted
    obtain ⟨parent, hparent'⟩ : ∃ parent,
        (v.committedChildren now parentPath remote expires).cachedEntry parentPath = some parent := by
      rw [← isSome_iff_exists, cachedEntry, lookup_committedChildren, isSome_or]
      rw [cachedEntry] at hparent
      rw [hparent, Bool.or_true]
    refine resolve_unlisted hplain hparent' ?_ (freshList_committedChildren v now parentPath remote expires hfresh) ?_
    · intro hshown
      have hfind : ((v.visibleRemote now parentPath remote).reverse.find? fun r =>
          joinVirtualPath parentPath r.name = joinVirtualPath parentPath name) = none := by
        simpa using hother
      rw [lookup_committedChildren, hfind, none_or]
      cases hlookup : v.entries.lookup (joinVirtualPath parentPath name) with
      | none => rfl
      | some entry =>
        have hhidden := hpaths name hplain hname (by rw [hlookup]; rfl)
        simp [isUnavailable_committedChildren, hhidden] at hshown
    · rw [projectChildren_clean]
      refine (hnames name).trans (Bool.eq_false_iff.mpr ?_)
      intro hlisted
      obtain ⟨r, hr, rfl⟩ := hasName_iff.mp hlisted
      exact hother r hr rfl

def listedFile : Entry := ⟨ascii "1", ascii "0", ascii "a", false, 1, none⟩

theorem lookup_new {rootID path : Bytes} {entry : Entry}
    (h : (View.new rootID).entries.lookup path = some entry) : path = [47] := by
  rw [View.new, lookup_insert_eq] at h
  split at h
  · assumption
  · cases h

theorem listing_follows_remote_first :
    let v := (View.new (ascii "0")).commitRemoteChildren [] 0 [47] [listedFile] 10
    (∀ name, hasName v.1 name = hasName [listedFile] name) ∧
      ∀ name, PlainElem name → hasName [listedFile] name = false →
        ∃ err, (resolve (fun _ => .ok []) [] 0 2 (joinVirtualPath [47] name) v.2).1 = .error err := by
  refine (listing_follows_remote (View.new (ascii "0")) [] 0 10 [47] [listedFile] (fun _ => .ok []) 0
    (by simp) (by decide) (by decide)).mpr ⟨?_, ?_⟩
  · rintro path entry ⟨hlookup, hroot, -⟩
    exact absurd (lookup_new hlookup) hroot
  · intro name hplain _ hcached
    obtain ⟨entry, hentry⟩ := isSome_iff_exists.mp hcached
    have hroot := lookup_new hentry
    exact absurd (joinVirtualPath_inj hroot) hplain.1

/-- Another client deletes a file that was listed; the backend's next listing is empty, and the file is still listed and
resolves. -/
theorem deleted_elsewhere_listed :
    let v := ((View.new (ascii "0")).children (fun _ => .ok [listedFile]) [] 0 [47] (ascii "0")).2
    let later := v.children (fun _ => .ok []) [] (11 * 10 ^ 9) [47] (ascii "0")
    later.1 = .ok [listedFile] ∧
      (resolve (fun _ => .ok []) [] (11 * 10 ^ 9) 2 (ascii "/a") later.2).1 = .ok listedFile := by
  decide +kernel

end View

end Vfs
