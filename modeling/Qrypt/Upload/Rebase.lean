import Qrypt.Upload.Schedule

/-!
# Records and tasks that follow a rename

`RenameUpload` moves one record, and `RebaseUploadsUnder` those below a directory, one after the other. It
stops at the first one that cannot be moved, which then is where it was.

* `rebaseUploadsUnder_done`, `rebaseUploadsUnder_failed` — where the records are afterwards.
* `Service.Holds` — a record that waits in the schedule, and what other paths' tasks do to it.
-/

namespace Upload

open Infra List

/-- The record with the given id is at the path. -/
def RecordAt (m : PendingMap) (path fid : Bytes) : Prop := ∃ r, m.lookup path = some r ∧ r.fid = fid

/-- No two records have one id. -/
def DistinctIDs (m : PendingMap) : Prop :=
  ∀ fid path path', RecordAt m path fid → RecordAt m path' fid → path = path'

namespace PendingStore

variable {c c' : PendingStore} {oldPath : Bytes} {next : PendingUpload}

/-! ## One record -/

variable {env : JournalEnv} {err : Err} {p : PendingUpload} {i : Nat} {k fid dir : Bytes}

theorem pending_renameUpload_failed
    (h : c.renameUpload env oldPath next = (some err, c')) : c'.pending = c.pending := by
  unfold renameUpload at h
  split at h
  · cases h
    rfl
  · rcases happend : c.appendJournal env (renameEntry oldPath next) with ⟨_ | err', c₁⟩
    · simp [happend] at h
    · rw [happend] at h
      cases h
      exact pending_of_appendJournal happend

/-- A record that was moved: its place was free, and nothing else changed. -/
structure Renamed (m m' : PendingMap) (oldPath : Bytes) (next : PendingUpload) : Prop where
  free : next.path = oldPath ∨ m.lookup next.path = none
  lookup : ∀ k, m'.lookup k = if k = next.path then some next else if k = oldPath then none else m.lookup k

theorem renameUpload_done (h : c.renameUpload env oldPath next = (none, c')) :
    Renamed c.pending c'.pending oldPath next := by
  unfold renameUpload at h
  split at h
  · cases h
  · next hfree =>
    rcases happend : c.appendJournal env (renameEntry oldPath next) with ⟨_ | err', c₁⟩
    · rw [happend] at h
      cases h
      constructor
      · rwa [not_and_or, not_not, Option.not_isSome_iff_eq_none] at hfree
      · intro k
        rw [applyRename, put, drop, lookup_insert_eq, lookup_erase_eq, pending_of_appendJournal happend]
    · simp [happend] at h

namespace Renamed

variable {m m' : PendingMap}

theorem other (h : Renamed m m' oldPath next) {k : Bytes} {r : PendingUpload} (hk : k ≠ oldPath)
    (hr : m.lookup k = some r) : m'.lookup k = some r ∧ k ≠ next.path := by
  have hne : k ≠ next.path := by
    rintro rfl
    rcases h.free with hsame | hnone
    · exact hk hsame
    · simp [hnone] at hr
  exact ⟨by rw [h.lookup, if_neg hne, if_neg hk, hr], hne⟩

theorem moved (h : Renamed m m' oldPath next) : m'.lookup next.path = some next := by
  rw [h.lookup, if_pos rfl]

theorem distinctIDs (h : Renamed m m' oldPath next) (hrecord : RecordAt m oldPath next.fid)
    (hids : DistinctIDs m) : DistinctIDs m' := by
  have hback : ∀ {fid path}, RecordAt m' path fid →
      (path = next.path ∧ fid = next.fid) ∨ (path ≠ oldPath ∧ RecordAt m path fid) := by
    rintro fid path ⟨r, hr, rfl⟩
    rw [h.lookup] at hr
    split at hr
    · next hpath =>
      cases hr
      exact .inl ⟨hpath, rfl⟩
    · split at hr
      · cases hr
      · next hpath => exact .inr ⟨hpath, r, hr, rfl⟩
  intro fid path path' hpath hpath'
  rcases hback hpath with ⟨rfl, rfl⟩ | ⟨hne, hold⟩
  · rcases hback hpath' with ⟨rfl, -⟩ | ⟨hne', hold'⟩
    · rfl
    · exact absurd (hids _ _ _ hold' hrecord) hne'
  · rcases hback hpath' with ⟨rfl, rfl⟩ | ⟨-, hold'⟩
    · exact absurd (hids _ _ _ hold hrecord) hne
    · exact hids _ _ _ hold hold'

end Renamed

/-! ## The records below a directory -/

/-- The records that are still to be moved are where they were. -/
structure ToMove (m : PendingMap) (targets : List PendingUpload) : Prop where
  at_path : ∀ p ∈ targets, m.lookup p.path = some p
  nodup : (targets.map (·.path)).Nodup

theorem ToMove.tail {m m' : PendingMap} {targets : List PendingUpload}
    (h : ToMove m (p :: targets)) (hrenamed : Renamed m m' p.path next) :
    ToMove m' targets ∧ ∀ q ∈ targets, q.path ≠ next.path := by
  have hnodup := nodup_cons.mp h.nodup
  have hother : ∀ q ∈ targets, m'.lookup q.path = some q ∧ q.path ≠ next.path := by
    intro q hq
    refine hrenamed.other ?_ (h.at_path q (mem_cons_of_mem _ hq))
    intro heq
    exact hnodup.1 (mem_map.mpr ⟨q, hq, heq⟩)
  exact ⟨⟨fun q hq => (hother q hq).1, hnodup.2⟩, fun q hq => (hother q hq).2⟩

/-- Two records that were moved, the first one before the second. -/
def Apart (move : PendingUpload → PendingUpload) (p q : PendingUpload) : Prop :=
  q.path ≠ (move p).path ∧ (move q).path ≠ (move p).path

variable {env : StoreEnv} {move : PendingUpload → PendingUpload} {targets : List PendingUpload}

/-- Every record was moved, and the records that were elsewhere are there. -/
structure Rebased (m m' : PendingMap) (move : PendingUpload → PendingUpload)
    (targets : List PendingUpload) : Prop where
  moved : ∀ p ∈ targets, m'.lookup (move p).path = some (move p)
  apart : targets.Pairwise (Apart move)
  other : ∀ {k r}, k ∉ targets.map (·.path) → m.lookup k = some r →
    m'.lookup k = some r ∧ ∀ q ∈ targets, (move q).path ≠ k

theorem rebaseLoop_done {moved : List PendingUpload} (h : ToMove c.pending targets)
    (hloop : rebaseLoop env move targets i c = ((moved, none), c')) :
    moved = targets.map move ∧ Rebased c.pending c'.pending move targets := by
  induction targets generalizing c i moved with
  | nil =>
    cases hloop
    exact ⟨rfl, fun _ hp => absurd hp not_mem_nil, .nil,
      fun _ hr => ⟨hr, fun _ hq => absurd hq not_mem_nil⟩⟩
  | cons p targets ih =>
    unfold rebaseLoop at hloop
    rcases hrename : c.renameUpload (env.journal i) p.path (move p) with ⟨_ | err, c₁⟩
    · rw [hrename] at hloop
      dsimp only at hloop
      rcases hrest : rebaseLoop env move targets (i + 1) c₁ with ⟨⟨moved', err'⟩, c₂⟩
      rw [hrest] at hloop
      obtain ⟨⟨rfl, rfl⟩, rfl⟩ := hloop
      have hrenamed := renameUpload_done hrename
      obtain ⟨htail, hfree⟩ := h.tail hrenamed
      obtain ⟨rfl, hrebased⟩ := ih htail hrest
      -- the place of the first record is none that the others leave or take
      have hplace : (move p).path ∉ targets.map (·.path) := by
        intro hmem
        obtain ⟨q, hq, hpath⟩ := mem_map.mp hmem
        exact hfree q hq hpath
      obtain ⟨hkept, hnew⟩ := hrebased.other hplace hrenamed.moved
      refine ⟨rfl, ?_, ?_, ?_⟩
      · exact forall_mem_cons.mpr ⟨hkept, hrebased.moved⟩
      · exact pairwise_cons.mpr ⟨fun q hq => ⟨hfree q hq, hnew q hq⟩, hrebased.apart⟩
      · intro k r hk hr
        rw [map_cons, mem_cons, not_or] at hk
        obtain ⟨hr₁, hne⟩ := hrenamed.other hk.1 hr
        obtain ⟨hr₂, hne₂⟩ := hrebased.other hk.2 hr₁
        exact ⟨hr₂, forall_mem_cons.mpr ⟨hne.symm, hne₂⟩⟩
    · simp [hrename] at hloop

theorem rebaseLoop_failed {moved : List PendingUpload} (h : ToMove c.pending targets)
    (hloop : rebaseLoop env move targets i c = ((moved, some err), c')) :
    ∃ p ∈ targets, c'.pending.lookup p.path = some p := by
  induction targets generalizing c i moved with
  | nil => cases hloop
  | cons p targets ih =>
    unfold rebaseLoop at hloop
    rcases hrename : c.renameUpload (env.journal i) p.path (move p) with ⟨_ | err', c₁⟩
    · rw [hrename] at hloop
      dsimp only at hloop
      rcases hrest : rebaseLoop env move targets (i + 1) c₁ with ⟨⟨moved', err''⟩, c₂⟩
      rw [hrest] at hloop
      obtain ⟨⟨rfl, rfl⟩, rfl⟩ := hloop
      obtain ⟨q, hq, hleft⟩ := ih (h.tail (renameUpload_done hrename)).1 hrest
      exact ⟨q, mem_cons_of_mem _ hq, hleft⟩
    · rw [hrename] at hloop
      cases hloop
      refine ⟨p, mem_cons_self, ?_⟩
      rw [pending_renameUpload_failed hrename]
      exact h.at_path p mem_cons_self

theorem distinctIDs_rebaseLoop (hfid : ∀ p, (move p).fid = p.fid) (h : ToMove c.pending targets)
    (hids : DistinctIDs c.pending) : DistinctIDs (rebaseLoop env move targets i c).2.pending := by
  induction targets generalizing c i with
  | nil => exact hids
  | cons p targets ih =>
    unfold rebaseLoop
    rcases hrename : c.renameUpload (env.journal i) p.path (move p) with ⟨_ | err, c₁⟩
    · have hrenamed := renameUpload_done hrename
      have hrecord : RecordAt c.pending p.path (move p).fid :=
        ⟨p, h.at_path p mem_cons_self, (hfid p).symm⟩
      exact ih (h.tail hrenamed).1 (hrenamed.distinctIDs hrecord hids)
    · intro fid path path' hpath hpath'
      rw [pending_renameUpload_failed hrename] at hpath hpath'
      exact hids fid path path' hpath hpath'

theorem rebaseLoop_same (hmove : ∀ p ∈ targets, (move p).path = p.path ∧ (move p).fid = p.fid)
    (h : ToMove c.pending targets) (hrecord : RecordAt c.pending k fid) :
    RecordAt (rebaseLoop env move targets i c).2.pending k fid := by
  induction targets generalizing c i with
  | nil => exact hrecord
  | cons p targets ih =>
    obtain ⟨⟨hpath, hfid⟩, hmove⟩ := forall_mem_cons.mp hmove
    unfold rebaseLoop
    rcases hrename : c.renameUpload (env.journal i) p.path (move p) with ⟨_ | err, c₁⟩
    · have hrenamed := renameUpload_done hrename
      refine ih hmove (h.tail hrenamed).1 ?_
      obtain ⟨r, hr, rfl⟩ := hrecord
      by_cases hk : k = p.path
      · have hp := h.at_path p mem_cons_self
        subst hk
        rw [hp] at hr
        cases hr
        refine ⟨move p, ?_, hfid⟩
        rw [← hpath]
        exact hrenamed.moved
      · exact ⟨r, (hrenamed.other hk hr).1, rfl⟩
    · obtain ⟨r, hr, rfl⟩ := hrecord
      exact ⟨r, by rw [pending_renameUpload_failed hrename]; exact hr, rfl⟩

/-! ## The whole call -/

theorem mem_rebaseTargets : p ∈ c.rebaseTargets dir ↔
      ∃ key, c.pending.lookup key = some p ∧ (key = dir ∨ isPathUnder key dir = true) := by
  have hwalk := (perm_insertionSort (fun a b => (fun _ => 0 : Bytes → Nat) a.1 ≤ (fun _ => 0) b.1)
    c.pending.entries)
  simp only [rebaseTargets, uploadsUnder, mem_insertionSort, mem_map, mem_filter, decide_eq_true_eq]
  constructor
  · rintro ⟨⟨key, p⟩, ⟨hmem, hdir⟩, rfl⟩
    exact ⟨key, AList.mem_lookup_iff.mpr (hwalk.mem_iff.mp hmem), hdir⟩
  · rintro ⟨key, hkey, hdir⟩
    exact ⟨⟨key, p⟩, ⟨hwalk.mem_iff.mpr (AList.mem_lookup_iff.mp hkey), hdir⟩, rfl⟩

theorem toMove_rebaseTargets (hkeyed : Keyed c.pending) (dir : Bytes) : ToMove c.pending (c.rebaseTargets dir) where
  at_path := by
    intro p hp
    obtain ⟨key, hkey, -⟩ := mem_rebaseTargets.mp hp
    rwa [hkeyed key p hkey]
  nodup := by
    have hwalk := (perm_insertionSort (fun a b => (fun _ => 0 : Bytes → Nat) a.1 ≤ (fun _ => 0) b.1)
      c.pending.entries)
    have hkeys := (hwalk.map Sigma.fst).nodup_iff.mpr c.pending.keys_nodup
    have hsorted := (perm_insertionSort (fun a b : PendingUpload => a.path ≤ b.path)
      (c.uploadsUnder (fun _ => 0) dir)).map (·.path)
    refine hsorted.nodup_iff.mpr ?_
    have hpaths : (c.uploadsUnder (fun _ => 0) dir).map (·.path) =
        ((c.walk fun _ => 0).filter fun r => r.1 = dir ∨ isPathUnder r.1 dir).map Sigma.fst := by
      rw [uploadsUnder, map_map]
      refine map_congr_left ?_
      intro r hr
      exact hkeyed _ _ (AList.mem_lookup_iff.mpr (hwalk.mem_iff.mp (mem_filter.mp hr).1))
    rw [hpaths]
    exact (filter_sublist.map Sigma.fst).nodup hkeys

variable {oldDir newDir : Bytes} {parentIDs : Bytes → Bytes} {moved : List PendingUpload}

theorem rebaseUploadsUnder_done (hkeyed : Keyed c.pending) (hold : cleanVirtualPath oldDir = oldDir)
    (hnew : cleanVirtualPath newDir = newDir)
    (h : c.rebaseUploadsUnder env oldDir newDir parentIDs = ((moved, none), c')) :
    moved = (c.rebaseTargets oldDir).map (rebased oldDir newDir parentIDs) ∧
      Rebased c.pending c'.pending (rebased oldDir newDir parentIDs) (c.rebaseTargets oldDir) := by
  have htargets := toMove_rebaseTargets hkeyed oldDir
  simp only [rebaseUploadsUnder, hold, hnew] at h
  split at h
  · next hnil =>
    cases h
    rw [hnil]
    exact ⟨rfl, fun _ hp => absurd hp not_mem_nil, .nil,
      fun _ hr => ⟨hr, fun _ hq => absurd hq not_mem_nil⟩⟩
  · split at h
    · cases h
    · rcases hloop : rebaseLoop env (rebased oldDir newDir parentIDs) (c.rebaseTargets oldDir) 0 c with
        ⟨⟨moved', _ | err⟩, c₁⟩
      · rw [hloop] at h
        obtain ⟨rfl, rfl⟩ := h
        rw [pending_tidyJournal]
        exact rebaseLoop_done htargets hloop
      · simp [hloop] at h

theorem rebaseUploadsUnder_failed (hkeyed : Keyed c.pending)
    (hold : cleanVirtualPath oldDir = oldDir) (hnew : cleanVirtualPath newDir = newDir)
    (h : c.rebaseUploadsUnder env oldDir newDir parentIDs = ((moved, some err), c')) :
    ∃ p ∈ c.rebaseTargets oldDir, c'.pending.lookup p.path = some p := by
  have htargets := toMove_rebaseTargets hkeyed oldDir
  simp only [rebaseUploadsUnder, hold, hnew] at h
  split at h
  · cases h
  · next hne =>
    split at h
    · cases h
      obtain ⟨p, hp⟩ := exists_mem_of_ne_nil _ hne
      exact ⟨p, hp, htargets.at_path p hp⟩
    · rcases hloop : rebaseLoop env (rebased oldDir newDir parentIDs) (c.rebaseTargets oldDir) 0 c with
        ⟨⟨moved', _ | err⟩, c₁⟩
      · rw [hloop] at h
        simp only [Prod.mk.injEq, reduceCtorEq, and_false, false_and] at h
      · rw [hloop] at h
        cases h
        exact rebaseLoop_failed htargets hloop

theorem path_rebaseTargets (hkeyed : Keyed c.pending) (hclean : ∀ k r, c.pending.lookup k = some r → cleanVirtualPath k = k)
    (hdir : cleanVirtualPath dir = dir) (hp : p ∈ c.rebaseTargets dir) :
    cleanVirtualPath p.path = p.path ∧ dir ++ p.path.drop dir.length = p.path := by
  obtain ⟨key, hkey, hunder⟩ := mem_rebaseTargets.mp hp
  obtain rfl := hkeyed key p hkey
  have hpath := hclean _ _ hkey
  refine ⟨hpath, ?_⟩
  rcases hunder with heq | hunder
  · rw [heq]
    simp
  · simp only [isPathUnder, hpath, hdir, decide_eq_true_eq] at hunder
    rw [← hunder.2.2.1, length_take, Nat.min_eq_left hunder.2.1.le, take_append_drop]

theorem trimStart_append (dir rest : Bytes) : trimStart (dir ++ rest) dir = rest := by
  rw [trimStart, if_pos (prefix_append ..), drop_left]

/-- A directory that keeps its path keeps its records, whatever fails. -/
theorem rebaseUploadsUnder_same (hkeyed : Keyed c.pending)
    (hclean : ∀ k r, c.pending.lookup k = some r → cleanVirtualPath k = k)
    (hdir : cleanVirtualPath oldDir = oldDir) (hrecord : RecordAt c.pending k fid) :
    RecordAt (c.rebaseUploadsUnder env oldDir oldDir parentIDs).2.pending k fid := by
  have hloop : RecordAt (rebaseLoop env (rebased oldDir oldDir parentIDs) (c.rebaseTargets oldDir) 0
      c).2.pending k fid := by
    refine rebaseLoop_same ?_ (toMove_rebaseTargets hkeyed oldDir) hrecord
    intro p hp
    obtain ⟨-, hpath⟩ := path_rebaseTargets hkeyed hclean hdir hp
    refine ⟨?_, rfl⟩
    have hrest : trimStart p.path oldDir = p.path.drop oldDir.length := by
      conv_lhs => rw [← hpath, trimStart_append]
    exact (congrArg (oldDir ++ ·) hrest).trans hpath
  simp only [rebaseUploadsUnder, hdir]
  split
  · exact hrecord
  · split
    · exact hrecord
    · split
      · exact hloop
      · rwa [pending_tidyJournal]

theorem distinctIDs_rebaseUploadsUnder (hkeyed : Keyed c.pending) (hids : DistinctIDs c.pending) :
    DistinctIDs (c.rebaseUploadsUnder env oldDir newDir parentIDs).2.pending := by
  have hloop : DistinctIDs (rebaseLoop env (rebased (cleanVirtualPath oldDir) (cleanVirtualPath newDir)
      parentIDs) (c.rebaseTargets (cleanVirtualPath oldDir)) 0 c).2.pending :=
    distinctIDs_rebaseLoop (fun _ => rfl) (toMove_rebaseTargets hkeyed _) hids
  unfold rebaseUploadsUnder
  dsimp only
  split
  · exact hids
  · split
    · exact hids
    · split
      · exact hloop
      · rwa [pending_tidyJournal]

end PendingStore

/-! ## The schedule -/

namespace Service

variable {s : Service}

/-- The record waits in the schedule. -/
structure Holds (s : Service) (p : PendingUpload) (t : Nat) : Prop where
  scheduled : s.scheduled.lookup p.path = some t
  task : (s.tasks t).pending = p
  created : t < s.next

variable {p q : PendingUpload} {t : Nat} {clock : Nat → Int}

theorem Holds.removeScheduledLocked (h : s.Holds p t) {path : Bytes} (hne : path ≠ p.path) :
    (s.removeScheduledLocked path).Holds p t := by
  unfold Service.removeScheduledLocked
  split
  · exact h
  · constructor
    · rw [lookup_erase_eq, if_neg hne.symm]
      exact h.scheduled
    · exact h.task
    · exact h.created

theorem Holds.newTask (h : s.Holds p t) {path : Bytes} (hne : path ≠ p.path) (task : ScheduledUpload) :
    (s.newTask path task).Holds p t := by
  have hcreated := h.created
  constructor
  · rw [Service.newTask, lookup_insert_eq, if_neg hne.symm]
    exact h.scheduled
  · have htask : (s.newTask path task).tasks t = s.tasks t := Function.update_of_ne (Nat.ne_of_lt hcreated) ..
    rw [htask]
    exact h.task
  · exact Nat.lt_succ_of_lt hcreated

theorem Holds.pushTask (h : s.Holds p t) (t' : Nat) : (s.pushTask t').Holds p t :=
  ⟨h.scheduled, h.task, h.created⟩

theorem Holds.scheduleUpload (h : s.Holds p t) (hne : q.path ≠ p.path) (now delay : Int) :
    (s.scheduleUpload now q delay).1.Holds p t := by
  unfold Service.scheduleUpload
  split
  · exact h
  · have hnew := (h.removeScheduledLocked hne).newTask hne ⟨q, now + delay⟩
    dsimp only
    split
    · exact hnew
    · exact hnew.pushTask _

theorem holds_scheduleUpload (hopen : s.closed = false) (now delay : Int) :
    ∃ t, (s.scheduleUpload now p delay).1.Holds p t := by
  have htask : ((s.removeScheduledLocked p.path).newTask p.path ⟨p, now + delay⟩).tasks
      (s.removeScheduledLocked p.path).next = ⟨p, now + delay⟩ := Function.update_self ..
  have hnew : ((s.removeScheduledLocked p.path).newTask p.path ⟨p, now + delay⟩).Holds p
      (s.removeScheduledLocked p.path).next :=
    ⟨AList.lookup_insert _, by rw [htask], Nat.lt_succ_self _⟩
  refine ⟨(s.removeScheduledLocked p.path).next, ?_⟩
  simp only [scheduleUpload, hopen, Bool.false_eq_true, if_false]
  split
  · exact hnew
  · exact hnew.pushTask _

theorem closed_scheduleUpload (now delay : Int) : (s.scheduleUpload now p delay).1.closed = s.closed := by
  have hnew := closed_removeScheduledLocked s p.path
  unfold scheduleUpload
  split
  · rfl
  · dsimp only
    split <;> exact hnew

/-! What `Enqueue` does, it does by `scheduleUpload`. -/

theorem Holds.enqueue (h : s.Holds p t) (hne : q.path ≠ p.path) : (s.enqueue clock q).1.Holds p t := by
  unfold Service.enqueue
  split
  · exact h
  · exact h.scheduleUpload hne _ _

theorem holds_enqueue (hopen : s.closed = false) (hfail : p.permanentFail = false) :
    ∃ t, (s.enqueue clock p).1.Holds p t := by
  simp only [enqueue, hfail, Bool.false_eq_true, if_false]
  exact holds_scheduleUpload hopen _ _

theorem closed_enqueue : (s.enqueue clock p).1.closed = s.closed := by
  unfold enqueue
  split
  · rfl
  · exact closed_scheduleUpload _ _

end Service

end Upload
