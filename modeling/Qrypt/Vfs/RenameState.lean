import Qrypt.Infra.FileTree
import Qrypt.Vfs.View

/-!
# What a rename does to the state kept by path

`CommitRemoteRename` of `pkg/vfs/view/commit.go` with all four maps of the view that have paths as keys: the
cached entries, the cached listings, the markers of directories that were made here, and the modification
times that were set here. The keys are clean paths, so they are given by their elements.

* `rekeyed_iff` — when nothing stays behind at the old path, and nothing of what was at the new one
-/

namespace Vfs

open Infra Drive List

/-- An entry with its times. Zero is the time that is not set. -/
structure TimedEntry extends Entry where
  modTime : Int
  updatedAt : Int
  deriving DecidableEq, Repr

/-- The maps of `View` that have paths as keys. -/
structure PathState where
  entries : AList (fun _ : TreePath => TimedEntry) := ∅
  lists : AList (fun _ : TreePath => List TimedEntry × Int) := ∅
  localDirs : AList (fun _ : TreePath => Int) := ∅
  localModTime : AList (fun _ : TreePath => Int) := ∅

/-! ## The loops -/

section Loops

variable {β : Type} (m : AList fun _ : TreePath => β)

/-- `DeleteUnder` and `DropListCachesUnderLocked`: the path and all paths under it go. -/
def dropUnder (path : TreePath) : AList fun _ : TreePath => β :=
  (m.keys.filter fun key => path <+: key).foldl (fun m key => m.erase key) m

theorem lookup_dropUnder (path p : TreePath) :
    (dropUnder m path).lookup p = if path <+: p then none else m.lookup p := by
  rw [dropUnder, lookup_erase_all]
  by_cases hp : path <+: p
  · by_cases hmem : p ∈ m.keys
    · simp [hp, hmem]
    · simp [hp, hmem, AList.lookup_eq_none.mpr hmem]
  · simp [hp]

/-- Where a path at or under `oldPath` goes. -/
def nextPath (oldPath newPath key : TreePath) : Option TreePath :=
  if oldPath <+: key then some (newPath ++ key.drop oldPath.length) else none

theorem nextPath_append (oldPath newPath x : TreePath) :
    nextPath oldPath newPath (oldPath ++ x) = some (newPath ++ x) := by
  simp [nextPath]

theorem nextPath_some {oldPath newPath a k : TreePath} (h : nextPath oldPath newPath a = some k) :
    ∃ x, a = oldPath ++ x ∧ k = newPath ++ x := by
  unfold nextPath at h
  split at h
  · next hold =>
    obtain ⟨x, rfl⟩ := hold
    exact ⟨x, rfl, by simpa using h.symm⟩
  · cases h

/-- `MoveLocalModTimeLocked` and `RebaseLocalDirsLocked`: the path itself and all paths under it move. -/
def rebase (oldPath newPath : TreePath) : AList fun _ : TreePath => β :=
  moveKeys m (nextPath oldPath newPath)

/-- `RebaseCachedPathsLocked`: only what is under the path moves. -/
def rebaseCachedPaths (oldPath newPath : TreePath) : AList fun _ : TreePath => β :=
  moveKeys m fun key => if key = oldPath then none else nextPath oldPath newPath key

end Loops

/-! ## The commit -/

namespace PathState

/-- The backend reported another identity for the renamed object. -/
def changesID (s : PathState) (oldPath : TreePath) (entry : TimedEntry) : Bool :=
  (s.entries.lookup oldPath).any fun previous => previous.id ≠ [] && previous.id ≠ entry.id

/-- `ApplyLocalModTimeLocked`, for what the map has at the path. -/
def applyLocalModTime (known : Option Int) (entry : TimedEntry) : TimedEntry :=
  match known with
  | some t => if t = 0 then entry else { entry with modTime := t, updatedAt := t }
  | none => entry

def entryForPath (path : TreePath) (entry : TimedEntry) : TimedEntry :=
  { entry with name := path.getLast?.getD [47] }

/-- `CommitRemoteRename`, without the overlay. -/
def commitRemoteRename (s : PathState) (oldPath newPath : TreePath) (entry : TimedEntry) : PathState :=
  let cached := (s.entries.erase oldPath).erase newPath
  let changes := s.changesID oldPath entry
  let entries := if changes then dropUnder cached oldPath else rebaseCachedPaths cached oldPath newPath
  let lists := if changes then dropUnder s.lists oldPath else s.lists
  let localModTime := rebase s.localModTime oldPath newPath
  { localModTime
    localDirs := rebase s.localDirs oldPath newPath
    lists := ((lists.erase oldPath.dropLast).erase newPath.dropLast).erase newPath
    entries := entries.insert newPath (entryForPath newPath (applyLocalModTime (localModTime.lookup newPath) entry)) }

end PathState

/-! ## What each map holds afterwards -/

section After

variable {oldPath newPath : TreePath}

/-- Neither path is the other one or under it. -/
structure Apart (oldPath newPath : TreePath) : Prop where
  new : ¬ oldPath <+: newPath
  old : ¬ newPath <+: oldPath

theorem Apart.not_under_new (h : Apart oldPath newPath) (x : TreePath) : ¬ oldPath <+: newPath ++ x := by
  intro hunder
  rcases prefix_or_prefix_of_prefix hunder (prefix_append newPath x) with h1 | h1
  · exact h.new h1
  · exact h.old h1

theorem Apart.symm (h : Apart oldPath newPath) : Apart newPath oldPath := ⟨h.old, h.new⟩

theorem Apart.ne (h : Apart oldPath newPath) (x : TreePath) : oldPath ≠ newPath ++ x :=
  fun heq => h.not_under_new x (heq ▸ prefix_rfl)

theorem dropLast_append_ne {path : TreePath} (h : path ≠ []) (x : TreePath) : path ++ x ≠ path.dropLast := by
  intro heq
  have hlen := congrArg length heq
  rw [length_append, length_dropLast] at hlen
  have := length_pos_iff.mpr h
  omega

/-- The parent of a path is not at or under a path apart from it. -/
theorem Apart.dropLast_ne (h : Apart oldPath newPath) (x : TreePath) : newPath ++ x ≠ oldPath.dropLast :=
  fun heq => h.old ((prefix_append newPath x).trans (heq ▸ dropLast_prefix oldPath))

section Moved

variable {β : Type} (m : AList fun _ : TreePath => β) {next : TreePath → Option TreePath}

/-- What one of the loops leaves, if it moves nothing but paths at or under the old one. -/
theorem lookup_moved (h : Apart oldPath newPath)
    (hnext : ∀ a k, next a = some k → nextPath oldPath newPath a = some k) (p : TreePath) :
    (next p ≠ none → (moveKeys m next).lookup p = none) ∧
      (∀ a, next a = some p → (moveKeys m next).lookup p = (m.lookup a).or (m.lookup p)) ∧
      (next p = none → (∀ a, next a ≠ some p) → (moveKeys m next).lookup p = m.lookup p) := by
  apply lookup_moveKeys m
  · intro a b k ha hb
    obtain ⟨x, rfl, rfl⟩ := nextPath_some (hnext a k ha)
    obtain ⟨y, rfl, hy⟩ := nextPath_some (hnext b _ hb)
    rw [append_cancel_left hy]
  · intro a k ha
    obtain ⟨x, rfl, rfl⟩ := nextPath_some (hnext a k ha)
    cases hk : next (newPath ++ x) with
    | none => rfl
    | some k =>
      obtain ⟨y, hy, -⟩ := nextPath_some (hnext _ k hk)
      exact absurd ⟨y, hy.symm⟩ (h.not_under_new x)

theorem lookup_rebase (h : Apart oldPath newPath) : (∀ x, (rebase m oldPath newPath).lookup (oldPath ++ x) = none) ∧
      (∀ x, (rebase m oldPath newPath).lookup (newPath ++ x) =
        (m.lookup (oldPath ++ x)).or (m.lookup (newPath ++ x))) ∧
      ∀ p, ¬ oldPath <+: p → ¬ newPath <+: p → (rebase m oldPath newPath).lookup p = m.lookup p := by
  have hmoved := lookup_moved m h fun a k (ha : nextPath oldPath newPath a = some k) => ha
  refine ⟨fun x => (hmoved _).1 ?_, fun x => (hmoved _).2.1 _ (nextPath_append ..), fun p ho hn => ?_⟩
  · simp [nextPath_append]
  · refine (hmoved p).2.2 (if_neg ho) fun a ha => ?_
    obtain ⟨x, -, rfl⟩ := nextPath_some ha
    exact hn (prefix_append newPath x)

theorem lookup_rebaseCachedPaths (h : Apart oldPath newPath) :
    (∀ x, (rebaseCachedPaths m oldPath newPath).lookup (oldPath ++ x) = if x = [] then m.lookup oldPath else none) ∧
      (∀ x, x ≠ [] → (rebaseCachedPaths m oldPath newPath).lookup (newPath ++ x) =
        (m.lookup (oldPath ++ x)).or (m.lookup (newPath ++ x))) ∧
      ∀ p, ¬ oldPath <+: p → ¬ newPath <+: p → (rebaseCachedPaths m oldPath newPath).lookup p = m.lookup p := by
  have hnext : ∀ a k, (if a = oldPath then none else nextPath oldPath newPath a) = some k →
      nextPath oldPath newPath a = some k := by
    intro a k ha
    split at ha
    · cases ha
    · exact ha
  have hmoved := lookup_moved m h hnext
  refine ⟨fun x => ?_, fun x hx => (hmoved _).2.1 (oldPath ++ x) ?_, fun p ho hn => ?_⟩
  · by_cases hx : x = []
    · subst hx
      rw [append_nil, if_pos rfl]
      refine (hmoved oldPath).2.2 (if_pos rfl) fun a ha => ?_
      obtain ⟨y, -, hy⟩ := nextPath_some (hnext a _ ha)
      exact h.ne y hy
    · rw [if_neg hx]
      exact (hmoved _).1 (by simp [hx, nextPath_append])
  · simp [hx, nextPath_append]
  · refine (hmoved p).2.2 ?_ fun a ha => ?_
    · simp [nextPath, ho]
    · obtain ⟨x, -, rfl⟩ := nextPath_some (hnext a _ ha)
      exact hn (prefix_append newPath x)

end Moved

namespace PathState

variable (s : PathState) (entry : TimedEntry)

theorem lookup_commitRemoteRename_entries (h : Apart oldPath newPath) :
    let after := (s.commitRemoteRename oldPath newPath entry).entries
    (∀ x, after.lookup (oldPath ++ x) = none) ∧ after.lookup newPath = some (entryForPath newPath (applyLocalModTime
        ((s.localModTime.lookup oldPath).or (s.localModTime.lookup newPath)) entry)) ∧
      (∀ x, x ≠ [] → after.lookup (newPath ++ x) = if s.changesID oldPath entry then s.entries.lookup (newPath ++ x)
        else (s.entries.lookup (oldPath ++ x)).or (s.entries.lookup (newPath ++ x))) ∧
      ∀ p, ¬ oldPath <+: p → ¬ newPath <+: p → after.lookup p = s.entries.lookup p := by
  have htime := (lookup_rebase s.localModTime h).2.1 []
  rw [append_nil, append_nil] at htime
  simp only [commitRemoteRename, lookup_insert_eq]
  refine ⟨fun x => ?_, ?_, fun x hx => ?_, fun p ho hn => ?_⟩
  · rw [if_neg fun heq => h.symm.ne x heq.symm]
    split
    · rw [lookup_dropUnder, if_pos (prefix_append oldPath x)]
    · rw [(lookup_rebaseCachedPaths _ h).1]
      simp [lookup_erase_eq]
  · rw [if_pos trivial, htime]
  · have hnew : newPath ++ x ≠ newPath := by simpa using hx
    have hold : oldPath ++ x ≠ oldPath := by simpa using hx
    rw [if_neg hnew]
    split
    · rw [lookup_dropUnder, if_neg (h.not_under_new x)]
      simp [hnew, (h.ne x).symm]
    · rw [(lookup_rebaseCachedPaths _ h).2.1 x hx]
      simp [hnew, hold, (h.ne x).symm, (h.symm.ne x).symm]
  · have hpo : p ≠ oldPath := fun heq => ho (heq ▸ prefix_rfl)
    have hpn : p ≠ newPath := fun heq => hn (heq ▸ prefix_rfl)
    rw [if_neg hpn]
    split
    · rw [lookup_dropUnder, if_neg ho]
      simp [hpo, hpn]
    · rw [(lookup_rebaseCachedPaths _ h).2.2 p ho hn]
      simp [hpo, hpn]

theorem lookup_commitRemoteRename_lists (h : Apart oldPath newPath) :
    let after := (s.commitRemoteRename oldPath newPath entry).lists
    (∀ x, after.lookup (oldPath ++ x) = if s.changesID oldPath entry then none else s.lists.lookup (oldPath ++ x)) ∧
      (∀ x, after.lookup (newPath ++ x) = if x = [] then none else s.lists.lookup (newPath ++ x)) ∧
      ∀ p, ¬ oldPath <+: p → ¬ newPath <+: p → p ≠ oldPath.dropLast → p ≠ newPath.dropLast →
        after.lookup p = s.lists.lookup p := by
  have hold : oldPath ≠ [] := fun heq => h.new (heq ▸ nil_prefix)
  have hnew : newPath ≠ [] := fun heq => h.old (heq ▸ nil_prefix)
  simp only [commitRemoteRename, lookup_erase_eq]
  refine ⟨fun x => ?_, fun x => ?_, fun p ho hn hpo hpn => ?_⟩
  · rw [if_neg fun heq => h.symm.ne x heq.symm, if_neg (h.symm.dropLast_ne x), if_neg (dropLast_append_ne hold x)]
    split
    · rw [lookup_dropUnder, if_pos (prefix_append oldPath x)]
    · rfl
  · by_cases hx : x = []
    · rw [if_pos hx, if_pos (by simpa using hx)]
    · rw [if_neg hx, if_neg (by simpa using hx), if_neg (dropLast_append_ne hnew x), if_neg (h.dropLast_ne x)]
      split
      · rw [lookup_dropUnder, if_neg (h.not_under_new x)]
      · rfl
  · have hne : p ≠ newPath := fun heq => hn (heq ▸ prefix_rfl)
    rw [if_neg hne, if_neg hpn, if_neg hpo]
    split
    · rw [lookup_dropUnder, if_neg ho]
    · rfl

end PathState

end After

/-! ## Nothing stays behind -/

namespace PathState

/-- All state of the old path went to the new one or was dropped, and none of the new path's is left. -/
structure Rekeyed (s after : PathState) (oldPath newPath : TreePath) (entry : TimedEntry) : Prop where
  away : ∀ p, oldPath <+: p → after.entries.lookup p = none ∧ after.lists.lookup p = none ∧
    after.localDirs.lookup p = none ∧ after.localModTime.lookup p = none
  modTimes : ∀ x, after.localModTime.lookup (newPath ++ x) = s.localModTime.lookup (oldPath ++ x)
  localDirs : ∀ x, after.localDirs.lookup (newPath ++ x) = s.localDirs.lookup (oldPath ++ x)
  cached : ∀ x, x ≠ [] → after.entries.lookup (newPath ++ x) =
    if s.changesID oldPath entry then none else s.entries.lookup (oldPath ++ x)
  lists : ∀ x, after.lists.lookup (newPath ++ x) = none
  stored : after.entries.lookup newPath =
    some (entryForPath newPath (applyLocalModTime (s.localModTime.lookup oldPath) entry))
  others : ∀ p, ¬ oldPath <+: p → ¬ newPath <+: p → after.entries.lookup p = s.entries.lookup p ∧
    after.localDirs.lookup p = s.localDirs.lookup p ∧ after.localModTime.lookup p = s.localModTime.lookup p ∧
    (p ≠ oldPath.dropLast → p ≠ newPath.dropLast → after.lists.lookup p = s.lists.lookup p)

/-- The new path has no state that the old one's does not replace, and no listing is in the way. -/
structure Replaceable (s : PathState) (oldPath newPath : TreePath) (entry : TimedEntry) : Prop where
  modTimes : ∀ x, s.localModTime.lookup (oldPath ++ x) = none → s.localModTime.lookup (newPath ++ x) = none
  localDirs : ∀ x, s.localDirs.lookup (oldPath ++ x) = none → s.localDirs.lookup (newPath ++ x) = none
  cached : ∀ x, x ≠ [] → s.changesID oldPath entry = true ∨ s.entries.lookup (oldPath ++ x) = none →
    s.entries.lookup (newPath ++ x) = none
  listsNew : ∀ x, x ≠ [] → s.lists.lookup (newPath ++ x) = none
  listsOld : s.changesID oldPath entry = false → ∀ x, s.lists.lookup (oldPath ++ x) = none

theorem or_eq_left_iff {β : Type} (a b : Option β) : a.or b = a ↔ (a = none → b = none) := by
  cases a <;> simp

variable {s : PathState} {oldPath newPath : TreePath} {entry : TimedEntry}

/-- **A rename takes all state kept by path along, and leaves nothing of the replaced target, exactly if
there is nothing at the target that it does not write over, and no listing of the moved directory.** -/
theorem rekeyed_iff (h : Apart oldPath newPath) :
    Rekeyed s (s.commitRemoteRename oldPath newPath entry) oldPath newPath entry ↔
      Replaceable s oldPath newPath entry := by
  obtain ⟨ho, hstored, hcached, hothers⟩ := lookup_commitRemoteRename_entries s entry h
  obtain ⟨hlo, hln, hlothers⟩ := lookup_commitRemoteRename_lists s entry h
  obtain ⟨hto, htn, htothers⟩ := lookup_rebase s.localModTime h
  obtain ⟨hdo, hdn, hdothers⟩ := lookup_rebase s.localDirs h
  constructor
  · intro hre
    refine ⟨fun x => ?_, fun x => ?_, fun x hx hgone => ?_, fun x hx => ?_, fun hsame x => ?_⟩
    · exact (or_eq_left_iff _ _).mp ((htn x).symm.trans (hre.modTimes x))
    · exact (or_eq_left_iff _ _).mp ((hdn x).symm.trans (hre.localDirs x))
    · have heq := (hcached x hx).symm.trans (hre.cached x hx)
      cases hid : s.changesID oldPath entry with
      | true => simpa [hid] using heq
      | false =>
        have hnone : s.entries.lookup (oldPath ++ x) = none := by simpa [hid] using hgone
        simpa [hid, hnone] using heq
    · simpa [hx] using (hln x).symm.trans (hre.lists x)
    · have haway := (hre.away (oldPath ++ x) (prefix_append oldPath x)).2.1
      simpa [hsame] using (hlo x).symm.trans haway
  · intro hrep
    have hor := (or_eq_left_iff _ _).mpr (hrep.modTimes [])
    rw [append_nil, append_nil] at hor
    refine ⟨fun p hp => ?_, fun x => ?_, fun x => ?_, fun x hx => ?_, fun x => ?_, ?_, fun p hpo hpn => ?_⟩
    · obtain ⟨x, rfl⟩ := hp
      refine ⟨ho x, (hlo x).trans ?_, hdo x, hto x⟩
      cases hid : s.changesID oldPath entry with
      | true => rfl
      | false => exact hrep.listsOld hid x
    · exact (htn x).trans ((or_eq_left_iff _ _).mpr (hrep.modTimes x))
    · exact (hdn x).trans ((or_eq_left_iff _ _).mpr (hrep.localDirs x))
    · rw [hcached x hx]
      cases hid : s.changesID oldPath entry with
      | true => exact hrep.cached x hx (.inl hid)
      | false => exact (or_eq_left_iff _ _).mpr fun hnone => hrep.cached x hx (.inr hnone)
    · by_cases hx : x = []
      · rw [hln x, if_pos hx]
      · rw [hln x, if_neg hx, hrep.listsNew x hx]
    · rw [hstored, hor]
    · exact ⟨hothers p hpo hpn, hdothers p hpo hpn, htothers p hpo hpn, hlothers p hpo hpn⟩

def plainFile (id name : Bytes) : TimedEntry := ⟨⟨id, [], name, false, 0, none⟩, 0, 0⟩

theorem apart_a_b : Apart [[97]] [[98]] := by constructor <;> decide

/-- A time was set at `/a`, and nothing is known of `/b`. -/
theorem rekeyed_iff_time : let s : PathState := { localModTime := (∅ : AList _).insert [[97]] 5 }
    Rekeyed s (s.commitRemoteRename [[97]] [[98]] (plainFile [1] [98])) [[97]] [[98]] (plainFile [1] [98]) := by
  intro s
  refine (rekeyed_iff apart_a_b).mpr ⟨fun x _ => ?_, fun _ _ => rfl, fun _ _ _ => rfl, fun _ _ => rfl, fun _ _ => rfl⟩
  show ((∅ : AList _).insert [[97]] 5).lookup ([98] :: x) = none
  rw [lookup_insert_eq, if_neg (by simp)]
  rfl

/-- A time was set at `/b`, which `/a` then replaces: the file from `/a` is shown with that time. -/
theorem replaced_time_survives : let s : PathState := { localModTime := (∅ : AList _).insert [[98]] 5 }
    ¬ Rekeyed s (s.commitRemoteRename [[97]] [[98]] (plainFile [1] [98])) [[97]] [[98]] (plainFile [1] [98]) := by
  intro s h
  have hstored := h.stored
  revert hstored
  decide

end PathState

end Vfs
