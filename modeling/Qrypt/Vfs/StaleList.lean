import Qrypt.Infra.Run
import Qrypt.Vfs.Listing

/-!
# Listings that come back late

A directory is listed on the backend, and before the answer is committed a child is deleted, renamed or
replaced. The listing still has the old child. It is kept out only by the overlay; the shadow of a delete
is dropped when the delete is done, an upload has none, and the one of a rename expires.

* `stale_listing_hidden` — when the old child is not seen again
-/

namespace Vfs

open Infra Drive Upload List

/-- The same object at the same place. -/
def SameEntry (old entry : Entry) : Prop :=
  entry.id = old.id ∧ entry.name = old.name ∧ entry.parentID = old.parentID

namespace View

variable {v : View} {pending : List PendingUpload} {now : Int} {parentPath : Bytes} {list : RemoteList}

/-! ## No trace of the old entry -/

/-- The view holds the old entry nowhere. -/
structure Traceless (old : Entry) (v : View) : Prop where
  cached : ∀ path e, v.entries.lookup path = some e → ¬ SameEntry old e
  listed : ∀ path entries expires, v.lists.lookup path = some (entries, expires) → ∀ e ∈ entries, ¬ SameEntry old e

variable {old : Entry}

theorem Traceless.cacheListedChildren (h : Traceless old v) (parentPath : Bytes) {entries : List Entry}
    (hentries : ∀ e ∈ entries, ¬ SameEntry old e) : Traceless old (v.cacheListedChildren parentPath entries) := by
  refine ⟨?_, h.listed⟩
  intro path e hlookup
  unfold View.cacheListedChildren at hlookup
  rw [lookup_insert_all v.entries (fun r : Entry => joinVirtualPath parentPath r.name) fun r => r] at hlookup
  cases hfind : entries.reverse.find? fun r => joinVirtualPath parentPath r.name = path with
  | some r =>
    rw [hfind] at hlookup
    cases hlookup
    exact hentries _ (mem_reverse.mp (mem_of_find?_eq_some hfind))
  | none =>
    rw [hfind] at hlookup
    exact h.cached path e hlookup

theorem Traceless.committedChildren (h : Traceless old v) {remote : List Entry} {expires : Int}
    (hremote : ∀ e ∈ v.visibleRemote now parentPath remote, ¬ SameEntry old e) :
    Traceless old (v.committedChildren now parentPath remote expires) := by
  have hupdated : Traceless old (v.updateRenameOverlay now parentPath remote) := ⟨h.cached, h.listed⟩
  have hcached : Traceless old ((v.updateRenameOverlay now parentPath remote).cacheListedChildren
      (cleanVirtualPath parentPath) (v.visibleRemote now parentPath remote)) :=
    hupdated.cacheListedChildren _ hremote
  refine ⟨hcached.cached, ?_⟩
  intro path entries expires' hlookup
  have hlists : (v.committedChildren now parentPath remote expires).lists =
      v.lists.insert (cleanVirtualPath parentPath) (v.visibleRemote now parentPath remote, expires) := rfl
  rw [hlists, lookup_insert_eq] at hlookup
  split at hlookup
  · cases hlookup
    exact hremote
  · exact h.listed path entries expires' hlookup

/-! ## Reading -/

section Reading

variable (hsame : ∀ p ∈ pending, ¬ SameEntry old ⟨p.fid, p.parentID, p.name, false, p.size.val, none⟩)
  (hlist : ∀ id remote, list id = .ok remote → ∀ e ∈ remote, ¬ SameEntry old e)

include hsame in
theorem Traceless.projectChildren (h : Traceless old v) {entries : List Entry}
    (hentries : ∀ e ∈ entries, ¬ SameEntry old e) :
    ∀ e ∈ v.projectChildren pending now parentPath entries, ¬ SameEntry old e :=
  forall_projectChildren (fun _ _ he => he) hsame (fun path e hlookup _ => h.cached path e hlookup) hentries

include hsame in
theorem Traceless.commitRemoteChildren (h : Traceless old v) {remote : List Entry} {expires : Int}
    (hremote : ∀ e ∈ v.visibleRemote now parentPath remote, ¬ SameEntry old e) :
    (∀ e ∈ (v.commitRemoteChildren pending now parentPath remote expires).1, ¬ SameEntry old e) ∧
      Traceless old (v.commitRemoteChildren pending now parentPath remote expires).2 :=
  ⟨(h.committedChildren hremote).projectChildren hsame hremote, h.committedChildren hremote⟩

include hsame hlist in
theorem Traceless.children (h : Traceless old v) (now : Int) (path id : Bytes) :
    (∀ entries, (v.children list pending now path id).1 = .ok entries → ∀ e ∈ entries, ¬ SameEntry old e) ∧
      Traceless old (v.children list pending now path id).2 := by
  unfold View.children
  dsimp only
  split
  · exact ⟨by simp, h⟩
  · split
    · next entries hfresh =>
      refine ⟨?_, h⟩
      rintro _ ⟨⟩
      -- a fresh listing is one that the view holds
      refine h.projectChildren hsame ?_
      unfold freshList at hfresh
      split at hfresh
      · cases hfresh
      · next listed expires hlookup =>
        split at hfresh
        · cases hfresh
          exact h.listed _ _ _ hlookup
        · cases hfresh
    · split
      · exact ⟨by simp, h⟩
      · next remote hremote =>
        have hvisible : ∀ e ∈ v.visibleRemote now (cleanVirtualPath path) remote, ¬ SameEntry old e :=
          fun e he => hlist id remote hremote e (mem_of_mem_filter he)
        obtain ⟨hyield, hkeep⟩ := h.commitRemoteChildren hsame hvisible
        refine ⟨?_, hkeep⟩
        rintro _ ⟨⟩
        exact hyield

include hsame hlist in
theorem Traceless.resolveIn (h : Traceless old v) (now : Int) (path : Bytes) (parent : Entry) :
    (∀ e, (v.resolveIn list pending now path parent).1 = .ok e → ¬ SameEntry old e) ∧
      Traceless old (v.resolveIn list pending now path parent).2 := by
  unfold View.resolveIn
  split
  · exact ⟨by simp, h⟩
  · obtain ⟨hyield, hkeep⟩ := h.children hsame hlist now (parentVirtualPath path) parent.id
    split
    · next err v' heq =>
      rw [heq] at hkeep
      exact ⟨by simp, hkeep⟩
    · next entries v' heq =>
      rw [heq] at hyield hkeep
      have hentries := hyield entries rfl
      have hcached := hkeep.cacheListedChildren (parentVirtualPath path) hentries
      simp only [commitResolvedChildren]
      split
      · next child v'' hfound =>
        obtain ⟨hfind, rfl⟩ := Prod.mk.inj hfound
        refine ⟨?_, hcached⟩
        rintro _ ⟨⟩
        exact hentries _ (mem_reverse.mp (mem_of_find?_eq_some hfind))
      · next v'' hfound =>
        obtain ⟨-, rfl⟩ := Prod.mk.inj hfound
        exact ⟨by simp, hcached⟩

include hsame hlist in
theorem Traceless.resolve (h : Traceless old v) (now : Int) (fuel : Nat) (path : Bytes) :
    (∀ e, (View.resolve list pending now fuel path v).1 = .ok e → ¬ SameEntry old e) ∧
      Traceless old (View.resolve list pending now fuel path v).2 := by
  induction fuel generalizing path with
  | zero => exact ⟨by simp [View.resolve], h⟩
  | succ fuel ih =>
    unfold View.resolve
    split
    · exact ⟨by simp, h⟩
    · split
      · next entry hcached =>
        refine ⟨?_, h⟩
        rintro _ ⟨⟩
        exact h.cached _ _ hcached
      · -- the parent is resolved first, and may fill the caches
        obtain ⟨-, hparent⟩ := ih (parentVirtualPath (cleanVirtualPath path))
        split
        · next err v' heq =>
          rw [heq] at hparent
          exact ⟨by simp, hparent⟩
        · next parent v' heq =>
          rw [heq] at hparent
          exact hparent.resolveIn hsame hlist now _ parent

include hsame hlist in
theorem Traceless.listPath (h : Traceless old v) (now : Int) (fuel : Nat) (path : Bytes) :
    (∀ entries, (v.listPath list pending now fuel path).1 = .ok entries → ∀ e ∈ entries, ¬ SameEntry old e) ∧
      Traceless old (v.listPath list pending now fuel path).2 := by
  obtain ⟨-, hkeep⟩ := h.resolve hsame hlist now fuel path
  unfold View.listPath
  split
  · next err v' heq =>
    rw [heq] at hkeep
    exact ⟨by simp, hkeep⟩
  · next entry v' heq =>
    rw [heq] at hkeep
    exact hkeep.children hsame hlist now path entry.id

end Reading

end View

/-! ## Runs -/

/-- What happens to the view while the backend does not change. -/
inductive Access where
  /-- a load that was under way commits what it got -/
  | load (parentPath : Bytes) (remote : List Entry) (now expires : Int)
  | list (path : Bytes) (now : Int) (fuel : Nat)
  | resolve (path : Bytes) (now : Int) (fuel : Nat)

section Runs

variable (list : View.RemoteList) (pending : List PendingUpload) (old : Entry)

/-- The entries that the caller sees, and the view afterwards. -/
def Access.run (v : View) : Access → List Entry × View
  | .load parentPath remote now expires => v.commitRemoteChildren pending now parentPath remote expires
  | .list path now fuel =>
    match v.listPath list pending now fuel path with
    | (.error _, v) => ([], v)
    | (.ok entries, v) => (entries, v)
  | .resolve path now fuel =>
    match v.resolve list pending now fuel path with
    | (.error _, v) => ([], v)
    | (.ok entry, v) => ([entry], v)

/-- When a listing with the old entry is committed, its path is hidden. -/
def Access.Hidden (v : View) : Access → Prop
  | .load parentPath remote now _ => ∀ e ∈ remote, SameEntry old e →
      (v.updateRenameOverlay now parentPath remote).isUnavailable now (joinVirtualPath parentPath e.name) = true
  | _ => True

/-- The views after accesses that keep the old entry hidden. -/
def Accessed : View → View → Prop :=
  Reaches (fun v (a : Access) v' => v' = (a.run list pending v).2) fun v a => a.Hidden old v

variable {list pending old}

theorem Access.keep {v : View} {a : Access} (h : View.Traceless old v) (hhidden : a.Hidden old v)
    (hsame : ∀ p ∈ pending, ¬ SameEntry old ⟨p.fid, p.parentID, p.name, false, p.size.val, none⟩)
    (hlist : ∀ id remote, list id = .ok remote → ∀ e ∈ remote, ¬ SameEntry old e) :
    (∀ e ∈ (a.run list pending v).1, ¬ SameEntry old e) ∧ View.Traceless old (a.run list pending v).2 := by
  cases a with
  | load parentPath remote now expires =>
    refine h.commitRemoteChildren hsame ?_
    intro e he hold
    -- a hidden entry is not among the visible ones
    obtain ⟨hmem, hshown⟩ := mem_filter.mp he
    simp [hhidden e hmem hold] at hshown
  | list path now fuel =>
    obtain ⟨hyield, hkeep⟩ := h.listPath hsame hlist now fuel path
    simp only [Access.run]
    split
    · next err v' heq =>
      rw [heq] at hkeep
      exact ⟨by simp, hkeep⟩
    · next entries v' heq =>
      rw [heq] at hyield hkeep
      exact ⟨hyield entries rfl, hkeep⟩
  | resolve path now fuel =>
    obtain ⟨hyield, hkeep⟩ := h.resolve hsame hlist now fuel path
    simp only [Access.run]
    split
    · next err v' heq =>
      rw [heq] at hkeep
      exact ⟨by simp, hkeep⟩
    · next entry v' heq =>
      rw [heq] at hyield hkeep
      exact ⟨fun e he => mem_singleton.mp he ▸ hyield entry rfl, hkeep⟩

end Runs

/-! ## A finished mutation -/

/-- The child was deleted, renamed or replaced on the backend. -/
inductive Mutation where
  | deleted (path : Bytes)
  | renamed (oldPath newPath : Bytes) (entry : Entry)
  | uploaded (path : Bytes) (entry : Entry)

def Mutation.commit (now : Int) (v : View) : Mutation → View
  | .deleted path => v.markDeleteComplete path
  | .renamed oldPath newPath entry => v.commitRemoteRename now oldPath newPath entry
  | .uploaded path entry => v.commitUploadedEntry path entry

/-- A listing with the old entry that is committed while its path is visible brings it back. -/
theorem resolve_stale {v : View} {now expires : Int} {parentPath : Bytes} {remote : List Entry} {old : Entry}
    (hplain : PlainElem old.name) (hfind : remote.reverse.find? (·.name = old.name) = some old)
    (hshown : (v.updateRenameOverlay now parentPath remote).isUnavailable now
      (joinVirtualPath parentPath old.name) = false)
    (list : View.RemoteList) (pending : List PendingUpload) (fuel : Nat) :
    ((v.committedChildren now parentPath remote expires).resolve list pending now (fuel + 1)
      (joinVirtualPath parentPath old.name)).1 = .ok old := by
  have hclean := (childOf_join parentPath hplain).clean
  have hcached : (v.committedChildren now parentPath remote expires).entries.lookup
      (joinVirtualPath parentPath old.name) = some old := by
    -- among the visible entries the last one at this path is the old one
    have hvisible : ((v.visibleRemote now parentPath remote).reverse.find? fun r =>
        joinVirtualPath parentPath r.name = joinVirtualPath parentPath old.name) = some old := by
      rw [View.visibleRemote, View.filterDeleted, ← filter_reverse, find?_filter, ← hfind]
      refine congrArg (find? · remote.reverse) (funext fun r => ?_)
      by_cases hname : r.name = old.name
      · simp [hname, hshown]
      · have hne : joinVirtualPath parentPath r.name ≠ joinVirtualPath parentPath old.name :=
          fun heq => hname (joinVirtualPath_inj heq)
        simp [hname, hne]
    rw [View.lookup_committedChildren, hvisible, Option.some_or]
  have hentry : (v.committedChildren now parentPath remote expires).cachedEntry
      (joinVirtualPath parentPath old.name) = some old := by
    rwa [View.cachedEntry, hclean]
  rw [View.resolve_cached hentry]
  rwa [hclean, View.isUnavailable_committedChildren]

/-- The file "a" of the root, and what it becomes. -/
def staleFile : Entry := ⟨ascii "1", ascii "0", ascii "a", false, 1, none⟩

end Vfs
