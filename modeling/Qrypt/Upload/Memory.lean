import Qrypt.Upload.Recovery

/-!
# The records in memory

What the calls of the store do to the map of pending uploads, whatever becomes of the journal: records
are put under their own paths and erased.

* `keyed_newPendingStore`, `Keyed.call` — every record is found under its own path
-/

namespace Upload

open Infra Drive PendingStore

/-- Every record is found under its own path. -/
def Keyed (m : PendingMap) : Prop := ∀ path p, m.lookup path = some p → p.path = path

/-- The calls of the store that change records or remove staging files. -/
inductive StoreCall where
  | durable (op : StoreOp)
  | updateUploadTransient (p : PendingUpload)
  | markUploadStarted (p : PendingUpload)
  | tryReuseFrozenStaging (p : PendingUpload)
  | removeStagingIfUnreferenced (localPath : Bytes)

def PendingStore.call (c : PendingStore) (l : StoreCall × StoreEnv) : PendingStore :=
  match l.1 with
  | .durable op => (c.apply (op, l.2)).2
  | .updateUploadTransient p => c.updateUploadTransient l.2.now p
  | .markUploadStarted p => (c.markUploadStarted p).2
  | .tryReuseFrozenStaging p => (c.tryReuseFrozenStaging l.2.now p).2
  | .removeStagingIfUnreferenced localPath => c.removeStagingIfUnreferenced l.2 localPath

variable {c : PendingStore} {m : PendingMap} {env : StoreEnv}

theorem keyed_empty : Keyed ∅ := fun _ _ h => nomatch h

theorem Keyed.insert (h : Keyed m) {path : Bytes} {p : PendingUpload} (hp : p.path = path) :
    Keyed (m.insert path p) := by
  intro q r hr
  rw [lookup_insert_eq] at hr
  split at hr
  · next hq =>
    cases hr
    exact hp.trans hq.symm
  · exact h q r hr

theorem Keyed.erase (h : Keyed m) (path : Bytes) : Keyed (m.erase path) := by
  intro q r hr
  rw [lookup_erase_eq] at hr
  split at hr
  · cases hr
  · exact h q r hr

theorem Keyed.eraseAll (h : Keyed m) (paths : List Bytes) : Keyed (paths.foldl (fun m k => m.erase k) m) :=
  List.foldlRecOn _ _ h fun _ hm path _ => hm.erase path

/-! ## The journal leaves the memory alone -/

variable {env : JournalEnv} {e : JournalEntry} {r : Option Err} {c' : PendingStore}

theorem pending_of_appendJournalLocked (h : c.appendJournalLocked env e = (r, c')) : c'.pending = c.pending := by
  unfold appendJournalLocked at h
  cases happend : env.append <;> simp only [happend, Prod.mk.injEq] at h <;> rw [← h.2]

theorem pending_tidyJournal (c : PendingStore) (env : JournalEnv) : (c.tidyJournal env).pending = c.pending := by
  unfold tidyJournal compactJournalLocked
  cases env.compact <;> rfl

theorem pending_of_appendJournal (h : c.appendJournal env e = (r, c')) : c'.pending = c.pending := by
  unfold appendJournal at h
  rcases hlocked : c.appendJournalLocked env e with ⟨_ | err, c₁⟩
  · simp only [hlocked] at h
    split at h
    · rw [← pending_of_appendJournalLocked hlocked, ← pending_tidyJournal c₁ env, tidyJournal, h]
    · cases h
      exact pending_of_appendJournalLocked hlocked
  · simp only [hlocked, Prod.mk.injEq] at h
    rw [← h.2]
    exact pending_of_appendJournalLocked hlocked

/-! ## The start -/

theorem Keyed.replayEntry (h : Keyed m) (stat : Bytes → Bool) (e : JournalEntry) : Keyed (replayEntry stat m e) := by
  unfold Upload.replayEntry
  cases e.op with
  | dirty =>
    dsimp only
    split
    · exact h.insert rfl
    · exact h
  | clean => exact h.erase _
  | cleanBatch => exact h.eraseAll _
  | rename => exact (h.erase _).insert rfl
  | other => exact h

theorem keyed_loadJournal (stat : Bytes → Bool) (journal : Option Bytes) : Keyed (loadJournal stat journal).1 := by
  cases journal with
  | none => exact keyed_empty
  | some data =>
    refine List.foldlRecOn _ _ keyed_empty fun m hm line _ => ?_
    unfold replayLine
    split
    · exact hm.replayEntry stat _
    · exact hm

/-- **A store that was opened finds every record under its own path.** -/
theorem keyed_newPendingStore {start : StartEnv} {dir : Bytes} {journal : Option Bytes}
    {files : StagingFiles} (h : newPendingStore start dir journal files = .ok c) : Keyed c.pending := by
  unfold newPendingStore at h
  dsimp only at h
  split at h
  · cases h
  · cases h
  · have hload := keyed_loadJournal (fun path => ((cleanupUploadTemps start
      (joinPath dir (ascii "staging")) files).lookup path).isSome) journal
    split at h
    · cases h
    · next hloaded =>
      rw [hloaded] at hload
      cases h
      show Keyed (ite _ _ _ : PendingStore).pending
      split
      · rwa [pending_tidyJournal]
      · exact hload

/-! ## Calls -/

theorem Keyed.saveUpload (h : Keyed c.pending) (env : StoreEnv) (p : PendingUpload) :
    Keyed (c.saveUpload env p).2.pending := by
  unfold PendingStore.saveUpload
  rcases happend : c.appendJournal (env.journal 0) (dirtyEntry p) with ⟨_ | err, c'⟩
  · rw [← pending_of_appendJournal happend] at h
    exact h.insert rfl
  · rwa [← pending_of_appendJournal happend] at h

theorem Keyed.recordIfUnchanged (h : Keyed c.pending) (env : StoreEnv) (p : PendingUpload)
    {change : PendingUpload → PendingUpload} (hchange : ∀ r, (change r).path = r.path) :
    Keyed (c.recordIfUnchanged env p change).2.pending := by
  unfold PendingStore.recordIfUnchanged
  cases hsame : c.unchanged p with
  | none => exact h
  | some current =>
    have hpath := (hchange current).trans (unchanged_eq_some hsame).2
    rcases happend : c.appendJournal (env.journal 0) (dirtyEntry (change current)) with ⟨_ | err, c'⟩
    · rw [← pending_of_appendJournal happend] at h
      simp only [happend]
      exact h.insert hpath
    · rw [← pending_of_appendJournal happend] at h
      simp only [happend]
      exact h

theorem Keyed.removeUpload (h : Keyed c.pending) (env : StoreEnv) (path : Bytes) :
    Keyed (c.removeUpload env path).2.pending := by
  unfold PendingStore.removeUpload
  cases c.pending.lookup path with
  | none => exact h
  | some p =>
    rcases happend : c.appendJournalLocked (env.journal 0) (cleanEntry path) with ⟨_ | err, c'⟩
    · rw [← pending_of_appendJournalLocked happend] at h
      simp only [pending_tidyJournal, removeStaging_pending]
      exact h.erase path
    · rwa [← pending_of_appendJournalLocked happend] at h

theorem Keyed.removeStagingIfUnreferenced (h : Keyed c.pending) (env : StoreEnv)
    (localPath : Bytes) : Keyed (c.removeStagingIfUnreferenced env localPath).pending := by
  unfold PendingStore.removeStagingIfUnreferenced
  split
  · exact h
  · rwa [removeStaging_pending]

theorem Keyed.removeUploadIfUnchanged (h : Keyed c.pending) (env : StoreEnv) (p : PendingUpload) :
    Keyed (c.removeUploadIfUnchanged env p).2.pending := by
  unfold PendingStore.removeUploadIfUnchanged
  cases c.unchanged p with
  | none => exact h
  | some current =>
    rcases happend : c.appendJournalLocked (env.journal 0) (cleanEntry p.path) with ⟨_ | err, c'⟩
    · rw [← pending_of_appendJournalLocked happend] at h
      simp only [pending_tidyJournal]
      exact Keyed.removeStagingIfUnreferenced (h.erase p.path) env p.localPath
    · rwa [← pending_of_appendJournalLocked happend] at h

theorem Keyed.removeUploadsUnder (h : Keyed c.pending) (env : StoreEnv) (dir : Bytes) :
    Keyed (c.removeUploadsUnder env dir).2.pending := by
  unfold PendingStore.removeUploadsUnder
  dsimp only
  generalize c.uploadsUnder (env.journal 0).order (cleanVirtualPath dir) = removed
  split
  · exact h
  · rcases happend : c.appendJournalLocked (env.journal 0) (cleanBatchEntry (removed.map (·.path))) with ⟨_ | err, c'⟩
    · rw [← pending_of_appendJournalLocked happend] at h
      simp only [happend, pending_tidyJournal, (foldl_removeStaging env removed _).2, (foldl_drop removed c').2]
      exact h.eraseAll _
    · rw [← pending_of_appendJournalLocked happend] at h
      simp only [happend]
      exact h

theorem Keyed.renameUpload (h : Keyed c.pending) (env : JournalEnv) (oldPath : Bytes)
    (next : PendingUpload) : Keyed (c.renameUpload env oldPath next).2.pending := by
  unfold PendingStore.renameUpload
  split
  · exact h
  · rcases happend : c.appendJournal env (renameEntry oldPath next) with ⟨_ | err, c'⟩
    · rw [← pending_of_appendJournal happend] at h
      exact (h.erase oldPath).insert rfl
    · rwa [← pending_of_appendJournal happend] at h

theorem Keyed.rebaseLoop (env : StoreEnv) (move : PendingUpload → PendingUpload)
    (targets : List PendingUpload) (i : Nat) (h : Keyed c.pending) :
    Keyed (rebaseLoop env move targets i c).2.pending := by
  induction targets generalizing c i with
  | nil => exact h
  | cons p targets ih =>
    have hrenamed := h.renameUpload (env.journal i) p.path (move p)
    unfold PendingStore.rebaseLoop
    rcases hrename : c.renameUpload (env.journal i) p.path (move p) with ⟨_ | err, c'⟩
    · rw [hrename] at hrenamed
      exact ih (i + 1) hrenamed
    · rwa [hrename] at hrenamed

theorem Keyed.rebaseUploadsUnder (h : Keyed c.pending) (env : StoreEnv) (oldDir newDir : Bytes)
    (parentIDs : Bytes → Bytes) : Keyed (c.rebaseUploadsUnder env oldDir newDir parentIDs).2.pending := by
  unfold PendingStore.rebaseUploadsUnder
  dsimp only
  have hloop := Keyed.rebaseLoop env (rebased (cleanVirtualPath oldDir) (cleanVirtualPath newDir)
    parentIDs) (c.rebaseTargets (cleanVirtualPath oldDir)) 0 h
  split
  · exact h
  · split
    · exact h
    · split
      · exact hloop
      · rwa [pending_tidyJournal]

theorem Keyed.markUploadStarted (h : Keyed c.pending) (p : PendingUpload) :
    Keyed (c.markUploadStarted p).2.pending := by
  unfold PendingStore.markUploadStarted
  cases hsame : c.unchanged p with
  | none => exact h
  | some current => exact h.insert (unchanged_eq_some hsame).2

theorem Keyed.tryReuseFrozenStaging (h : Keyed c.pending) (now : I64) (p : PendingUpload) :
    Keyed (c.tryReuseFrozenStaging now p).2.pending := by
  unfold PendingStore.tryReuseFrozenStaging
  cases hreuse : (c.pending.lookup p.path).filter fun current => reusable current p with
  | none => exact h
  | some current => exact h.insert (h p.path current (Option.filter_eq_some_iff.mp hreuse).1)

/-- **Every record is found under its own path**, after any call. -/
theorem Keyed.call (h : Keyed c.pending) (l : StoreCall × StoreEnv) : Keyed (c.call l).pending := by
  obtain ⟨call, env⟩ := l
  cases call with
  | durable op =>
    cases op with
    | saveUpload p => exact h.saveUpload env _
    | saveUploadExact p => exact h.saveUpload env _
    | renameUpload oldPath next => exact h.renameUpload _ oldPath next
    | rebaseUploadsUnder oldDir newDir parentIDs => exact h.rebaseUploadsUnder env oldDir newDir parentIDs
    | recordUploadFailureIfUnchanged p err retryDelay => exact h.recordIfUnchanged env p fun _ => rfl
    | recordUploadPermanentFailureIfUnchanged p err => exact h.recordIfUnchanged env p fun _ => rfl
    | recordUploadReplacementIfUnchanged p upload => exact h.recordIfUnchanged env p fun _ => rfl
    | removeUpload path => exact h.removeUpload env path
    | removeUploadsUnder dir => exact h.removeUploadsUnder env dir
    | removeUploadIfUnchanged p => exact h.removeUploadIfUnchanged env p
  | updateUploadTransient p => exact h.insert rfl
  | markUploadStarted p => exact h.markUploadStarted p
  | tryReuseFrozenStaging p => exact h.tryReuseFrozenStaging env.now p
  | removeStagingIfUnreferenced localPath => exact h.removeStagingIfUnreferenced env localPath

end Upload
