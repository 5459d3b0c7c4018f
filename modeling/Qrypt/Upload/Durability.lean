import Qrypt.Infra.Run
import Qrypt.Upload.Store

/-!
# Durability of the journal

The journal is to hold, after every durable operation, the records that are in memory. `InSync` says so for every
path, together with what keeps the records writable.

When an append reaches a threshold, the journal is rewritten from memory, which does not have the new record
yet (`saved_record_lost`). Away from the thresholds replay gives the records in memory (`journal_replays_memory`).
-/

namespace Upload

open Infra Drive PendingStore List Option

/-! ## Operations -/

/-- The durable operations. -/
inductive StoreOp where
  | saveUpload (p : PendingUpload)
  | saveUploadExact (p : PendingUpload)
  | renameUpload (oldPath : Bytes) (next : PendingUpload)
  | rebaseUploadsUnder (oldDir newDir : Bytes) (parentIDs : Bytes → Bytes)
  | recordUploadFailureIfUnchanged (p : PendingUpload) (err : Option Err) (retryDelay : I64)
  | recordUploadPermanentFailureIfUnchanged (p : PendingUpload) (err : Option Err)
  | recordUploadReplacementIfUnchanged (p : PendingUpload) (upload : UploadReplacement)
  | removeUpload (path : Bytes)
  | removeUploadsUnder (dir : Bytes)
  | removeUploadIfUnchanged (p : PendingUpload)

/-- An operation with what happens during it: its error, and the store afterwards. -/
def PendingStore.apply (c : PendingStore) (l : StoreOp × StoreEnv) : Option Err × PendingStore :=
  match l.1 with
  | .saveUpload p => c.saveUpload l.2 (stamped p l.2.now)
  | .saveUploadExact p => c.saveUpload l.2 (stampedExact p l.2.now)
  | .renameUpload oldPath next => c.renameUpload (l.2.journal 0) oldPath next
  | .rebaseUploadsUnder oldDir newDir parentIDs =>
    let r := c.rebaseUploadsUnder l.2 oldDir newDir parentIDs
    (r.1.2, r.2)
  | .recordUploadFailureIfUnchanged p err retryDelay =>
    let r := c.recordUploadFailureIfUnchanged l.2 p err retryDelay
    (r.1.2.2, r.2)
  | .recordUploadPermanentFailureIfUnchanged p err =>
    let r := c.recordUploadPermanentFailureIfUnchanged l.2 p err
    (r.1.2.2, r.2)
  | .recordUploadReplacementIfUnchanged p upload =>
    let r := c.recordUploadReplacementIfUnchanged l.2 p upload
    (r.1.2.2, r.2)
  | .removeUpload path => c.removeUpload l.2 path
  | .removeUploadsUnder dir => c.removeUploadsUnder l.2 dir
  | .removeUploadIfUnchanged p =>
    let r := c.removeUploadIfUnchanged l.2 p
    (r.1.2, r.2)

/-- A step of the store: an operation returns, with or without an error. -/
def StoreStep (c : PendingStore) (l : StoreOp × StoreEnv) (c' : PendingStore) : Prop :=
  c' = (c.apply l).2

/-- The lines an operation that rewrites a record appends through `appendJournal`. -/
def StoreOp.updates (c : PendingStore) (env : StoreEnv) : StoreOp → List JournalEntry
  | .saveUpload p => [dirtyEntry (stamped p env.now)]
  | .saveUploadExact p => [dirtyEntry (stampedExact p env.now)]
  | .renameUpload oldPath next => [renameEntry oldPath next]
  | .rebaseUploadsUnder oldDir newDir parentIDs =>
    (c.rebaseTargets (cleanVirtualPath oldDir)).map fun p => renameEntry p.path
      (rebased (cleanVirtualPath oldDir) (cleanVirtualPath newDir) parentIDs p)
  | .recordUploadFailureIfUnchanged p err retryDelay =>
    ((c.unchanged p).map fun r => dirtyEntry (withFailure err retryDelay env.now r)).toList
  | .recordUploadPermanentFailureIfUnchanged p err =>
    ((c.unchanged p).map fun r => dirtyEntry (withPermanentFailure err env.now r)).toList
  | .recordUploadReplacementIfUnchanged p upload =>
    ((c.unchanged p).map fun r => dirtyEntry (withReplacement upload env.now r)).toList
  | _ => []

def StoreOp.removals (c : PendingStore) (env : StoreEnv) : StoreOp → List JournalEntry
  | .removeUpload path => [cleanEntry path]
  | .removeUploadsUnder dir =>
    [cleanBatchEntry ((c.uploadsUnder (env.journal 0).order (cleanVirtualPath dir)).map (·.path))]
  | .removeUploadIfUnchanged p => [cleanEntry p.path]
  | _ => []

def PendingStore.journalLines (c : PendingStore) : Nat :=
  (scanLines journalBuffer (c.journal.getD [])).1.length

/-- The journal stays below the thresholds while the given lines are appended. -/
structure PendingStore.Below (c : PendingStore) (es : List JournalEntry) : Prop where
  size : ((c.journal.getD []).length + (es.map fun e => (marshal e).length + 1).sum : Nat) < c.compactMaxBytes
  entries : (c.journalLines + es.length : Nat) < c.compactMaxEntries ∨
    c.journalLines + es.length ≤ c.pending.keys.length + 32

/-- No append reaches a threshold, a failing append leaves no bytes, and the lines can be read back. -/
structure StepOk (c : PendingStore) (l : StoreOp × StoreEnv) : Prop where
  below : l.1.updates c l.2 ≠ [] → c.Below (l.1.updates c l.2)
  whole : ∀ i, (l.2.journal i).append.torn = 0
  writable : ∀ e ∈ l.1.updates c l.2 ++ l.1.removals c l.2, e.Writable

/-- Replaying the journal, with all staging files in place, gives the record in memory for every path, but for
`UploadStarted`. -/
structure ReplaysMemory (c : PendingStore) : Prop where
  noError : (loadJournal (fun _ => true) c.journal).2.2 = none
  record : ∀ path, (loadJournal (fun _ => true) c.journal).1.lookup path
    = (c.pending.lookup path).map PendingUpload.journaled

/-! ## Journal and memory in step -/

/-- The journal consists of complete lines whose replay gives the records in memory, which are kept under their paths.
-/
structure InSync (journal : Option Bytes) (pending : PendingMap) : Prop where
  replay : ∃ es, journal.getD [] = journalOf es ∧ (∀ e ∈ es, e.Writable) ∧
    ∀ q, replayed es q = (pending.lookup q).map PendingUpload.journaled
  path : ∀ {q r}, pending.lookup q = some r → r.path = q
  writable : ∀ {q r}, pending.lookup q = some r → (dirtyEntry r).Writable

theorem inSync_empty : InSync none ∅ where
  replay := ⟨[], rfl, fun _ he => absurd he not_mem_nil, fun _ => rfl⟩
  path h := nomatch h
  writable h := nomatch h

section InSync

variable {journal journal' : Option Bytes} {pending pending' : PendingMap} {e : JournalEntry}

theorem InSync.congr (h : InSync journal pending) (hj : journal'.getD [] = journal.getD []) :
    InSync journal' pending where
  replay := by
    rw [hj]
    exact h.replay
  path := h.path
  writable := h.writable

theorem InSync.append (h : InSync journal pending) (he : e.Writable)
    (heffect : ∀ q, e.journaled.effect (fun q => (pending.lookup q).map PendingUpload.journaled) q
      = (pending'.lookup q).map PendingUpload.journaled)
    (hrecord : ∀ {q r}, pending'.lookup q = some r →
      pending.lookup q = some r ∨ r.path = q ∧ (dirtyEntry r).Writable) :
    InSync (some (journal.getD [] ++ (marshal e ++ [10]))) pending' where
  replay := by
    obtain ⟨es, hdata, hes, hreplay⟩ := h.replay
    refine ⟨es ++ [e], ?_, ?_, ?_⟩
    · simp [journalOf_append, ← hdata]
    · exact forall_mem_append.mpr ⟨hes, forall_mem_singleton.mpr he⟩
    · intro q
      rw [replayed_append, funext hreplay, heffect]
  path hr := (hrecord hr).elim h.path fun h => h.1
  writable hr := (hrecord hr).elim h.writable fun h => h.2

variable {rs : List (Σ _ : Bytes, PendingUpload)}

theorem find_walk (hpath : ∀ {q r}, pending.lookup q = some r → r.path = q)
    (hperm : rs.Perm pending.entries) (q : Bytes) :
    ((rs.map Sigma.snd).find? fun p => p.path = q) = pending.lookup q := by
  have hmem : ∀ p ∈ rs.map Sigma.snd, pending.lookup p.path = some p := by
    intro p hp
    obtain ⟨⟨k, p⟩, hr, rfl⟩ := mem_map.mp hp
    have hk := AList.mem_lookup_iff.mpr (hperm.mem_iff.mp hr)
    obtain rfl := hpath hk
    exact hk
  rcases hq : pending.lookup q with _ | r
  · refine find?_eq_none.mpr fun p hp heq => ?_
    have heq : p.path = q := of_decide_eq_true heq
    rw [← heq, hmem p hp] at hq
    cases hq
  · have hr : r ∈ rs.map Sigma.snd :=
      mem_map.mpr ⟨⟨q, r⟩, hperm.mem_iff.mpr (AList.mem_lookup_iff.mp hq), rfl⟩
    rcases hf : (rs.map Sigma.snd).find? (fun p => p.path = q) with _ | p
    · exact absurd (decide_eq_true (hpath hq)) (find?_eq_none.mp hf r hr)
    · have hp := hmem p (mem_of_find?_eq_some hf)
      have hpath : p.path = q := by simpa using find?_some hf
      rw [hpath, hq] at hp
      exact hf.trans (congrArg some (some.inj hp).symm)

theorem inSync_rewritten (hpath : ∀ {q r}, pending.lookup q = some r → r.path = q)
    (hwritable : ∀ {q r}, pending.lookup q = some r → (dirtyEntry r).Writable)
    (hperm : rs.Perm pending.entries) :
    InSync (some (journalOf (rs.map fun r => dirtyEntry r.2))) pending where
  replay := by
    have hnodup : ((rs.map Sigma.snd).map fun p => p.path).Nodup := by
      have hkeys : (rs.map Sigma.snd).map (fun p => p.path) = rs.map Sigma.fst := by
        rw [List.map_map]
        refine List.map_congr_left fun r hr => ?_
        exact hpath (AList.mem_lookup_iff.mpr (hperm.mem_iff.mp hr))
      rw [hkeys]
      exact (hperm.map Sigma.fst).nodup_iff.mpr pending.keys_nodup
    have hmap : rs.map (fun r => dirtyEntry r.2) = (rs.map Sigma.snd).map dirtyEntry := by
      simp
    refine ⟨_, rfl, ?_, fun q => ?_⟩
    · intro e he
      obtain ⟨⟨k, p⟩, hr, rfl⟩ := List.mem_map.mp he
      exact hwritable (AList.mem_lookup_iff.mpr (hperm.mem_iff.mp hr))
    · rw [hmap, replayed_dirty hnodup, find_walk hpath hperm]
  path := hpath
  writable := hwritable

end InSync

abbrev PendingStore.InStep (c : PendingStore) : Prop := InSync c.journal c.pending

/-- What `InSync` is for. -/
theorem InSync.replaysMemory {c : PendingStore} (h : c.InStep) : ReplaysMemory c := by
  obtain ⟨es, hdata, hes, hreplay⟩ := h.replay
  have hload : loadJournal (fun _ => true) c.journal = loadJournal (fun _ => true) (some (journalOf es)) := by
    rw [← hdata]
    cases c.journal with
    | none => rfl
    | some data => rfl
  constructor
  · rw [hload, loadJournal_journalOf hes]
  · intro path
    rw [hload, lookup_loadJournal hes, hreplay]

/-! ## Journal calls -/

variable {c : PendingStore} {env : JournalEnv} {e : JournalEntry}

def PendingStore.appended (c : PendingStore) (e : JournalEntry) : PendingStore :=
  { c with journal := some (c.journal.getD [] ++ (marshal e ++ [10])) }

/-- An append that is whole fails without a trace, or writes its line. -/
theorem appendJournalLocked_cases (hwhole : env.append.torn = 0) (e : JournalEntry) :
    (∃ err journal, c.appendJournalLocked env e = (some err, { c with journal := journal }) ∧
      journal.getD [] = c.journal.getD []) ∨
    c.appendJournalLocked env e = (none, c.appended e) := by
  unfold appendJournalLocked
  cases happend : env.append with
  | ok => exact .inr rfl
  | refused err => exact .inl ⟨err, c.journal, rfl, rfl⟩
  | cut written err =>
    rw [happend] at hwhole
    obtain rfl : written = 0 := hwhole
    exact .inl ⟨err, some _, rfl, append_nil _⟩

theorem journalLines_of_inSync (h : c.InStep) (he : e.Writable) :
    (scanLines journalBuffer (c.journal.getD [] ++ (marshal e ++ [10]))).1.length = c.journalLines + 1 := by
  obtain ⟨es, hdata, hes, -⟩ := h.replay
  have hlines : ∀ es : List JournalEntry, (∀ e ∈ es, e.Writable) →
      (scanLines journalBuffer (journalOf es)).1.length = es.length := by
    intro es hes
    have := congrArg (fun r => r.2.1) (loadJournal_journalOf hes fun _ => true)
    exact this
  have hes' := forall_mem_append.mpr ⟨hes, forall_mem_singleton.mpr he⟩
  rw [PendingStore.journalLines, hdata, ← journalOf_append, hlines es hes, hlines _ hes',
    length_append, length_singleton]

theorem shouldCompactJournal_appended (h : c.InStep) (he : e.Writable)
    (hbelow : c.Below [e]) : (c.appended e).shouldCompactJournal env 0 = false := by
  have hsize := hbelow.size
  have hentries := hbelow.entries
  simp only [map_cons, map_nil, sum_cons, sum_nil, length_singleton]
    at hsize hentries
  simp only [shouldCompactJournal, PendingStore.appended, if_true]
  split
  · rfl
  · rw [if_neg]
    · unfold countJournalEntries
      split
      · rw [Bool.and_eq_false_iff]
        exact .inr (decide_eq_false (Nat.not_lt_zero _))
      · rw [journalLines_of_inSync h he, Bool.and_eq_false_iff, decide_eq_false_iff_not, decide_eq_false_iff_not]
        omega
    · simp only [length_append, length_singleton]
      omega

/-- `appendJournal` below the thresholds. -/
theorem appendJournal_cases (h : c.InStep) (he : e.Writable) (hwhole : env.append.torn = 0) (hbelow : c.Below [e]) :
    (∃ err journal, c.appendJournal env e = (some err, { c with journal := journal }) ∧
      journal.getD [] = c.journal.getD []) ∨
    c.appendJournal env e = (none, c.appended e) := by
  unfold appendJournal
  rcases appendJournalLocked_cases hwhole e with ⟨err, journal, happend, hj⟩ | happend
  · rw [happend]
    exact .inl ⟨err, journal, rfl, hj⟩
  · rw [happend]
    simp only [shouldCompactJournal_appended h he hbelow]
    exact .inr rfl

/-- Maintenance keeps journal and memory in step, whether it fails or not. -/
theorem inSync_tidyJournal (h : c.InStep) (env : JournalEnv) : (c.tidyJournal env).InStep := by
  unfold tidyJournal compactJournalLocked
  cases env.compact with
  | some err => exact h
  | none => exact inSync_rewritten h.path h.writable (perm_insertionSort _ _)

/-! ## Operations keep step -/

variable {p : PendingUpload}

theorem InSync.put (h : c.InStep) (he : (dirtyEntry p).Writable) :
    InSync (c.appended (dirtyEntry p)).journal (c.pending.insert p.path p) := by
  refine h.append he (fun q => ?_) fun {q r} hr => ?_
  · rw [lookup_insert_eq, effect_dirtyEntry]
    split <;> rfl
  · rw [lookup_insert_eq] at hr
    grind

theorem inSync_saveUpload {env : StoreEnv} (h : c.InStep)
    (he : (dirtyEntry p).Writable) (hwhole : (env.journal 0).append.torn = 0)
    (hbelow : c.Below [dirtyEntry p]) : (c.saveUpload env p).2.InStep := by
  unfold saveUpload
  rcases appendJournal_cases h he hwhole hbelow with ⟨err, journal, happend, hj⟩ | happend
  · rw [happend]
    exact h.congr hj
  · rw [happend]
    exact h.put he

theorem unchanged_eq_some {current : PendingUpload} (h : c.unchanged p = some current) :
    c.pending.lookup p.path = some current ∧ current.path = p.path := by
  obtain ⟨hlookup, hsame⟩ := filter_eq_some_iff.mp h
  refine ⟨hlookup, ?_⟩
  simp only [sameUploadRecord, Bool.and_eq_true, beq_iff_eq] at hsame
  simp only [hsame]

theorem inSync_recordIfUnchanged {env : StoreEnv}
    {change : PendingUpload → PendingUpload} (hpath : ∀ r, (change r).path = r.path)
    (h : c.InStep)
    (he : ∀ e ∈ ((c.unchanged p).map fun r => dirtyEntry (change r)).toList, e.Writable)
    (hwhole : (env.journal 0).append.torn = 0)
    (hbelow : ((c.unchanged p).map fun r => dirtyEntry (change r)).toList ≠ [] →
      c.Below ((c.unchanged p).map fun r => dirtyEntry (change r)).toList) :
    (c.recordIfUnchanged env p change).2.InStep := by
  unfold recordIfUnchanged
  cases hcur : c.unchanged p with
  | none => exact h
  | some current =>
    rw [hcur] at he hbelow
    have he := he _ mem_cons_self
    simp only
    rcases appendJournal_cases h he hwhole (hbelow (cons_ne_nil _ _)) with
      ⟨err, journal, happend, hj⟩ | happend
    · rw [happend]
      exact h.congr hj
    · rw [happend]
      have hp : (change current).path = p.path := (hpath current).trans (unchanged_eq_some hcur).2
      have hput := h.put he
      rwa [hp] at hput

variable {path oldPath : Bytes} {next : PendingUpload} {es : List JournalEntry}

/-- The record at a path is removed, then the journal rewritten if it can be. -/
theorem InSync.remove (h : c.InStep) (he : (cleanEntry path).Writable) :
    InSync (c.appended (cleanEntry path)).journal (c.pending.erase path) := by
  refine h.append he (fun q => ?_) fun {q r} hr => ?_
  · rw [lookup_erase_eq]
    show (if q = path then none else _) = _
    split <;> rfl
  · exact .inl (lookup_erase_some hr).2

@[simp] theorem removeStaging_journal (c : PendingStore) (env : StoreEnv) (localPath : Bytes) :
    (c.removeStaging env localPath).journal = c.journal := by
  unfold removeStaging
  split <;> rfl

@[simp] theorem removeStaging_pending (c : PendingStore) (env : StoreEnv) (localPath : Bytes) :
    (c.removeStaging env localPath).pending = c.pending := by
  unfold removeStaging
  split <;> rfl

theorem inSync_removeUpload {env : StoreEnv} (h : c.InStep)
    (he : (cleanEntry path).Writable) (hwhole : (env.journal 0).append.torn = 0) :
    (c.removeUpload env path).2.InStep := by
  unfold removeUpload
  cases c.pending.lookup path with
  | none => exact h
  | some pending =>
    rcases appendJournalLocked_cases hwhole (cleanEntry path) with
      ⟨err, journal, happend, hj⟩ | happend
    · rw [happend]
      exact h.congr hj
    · rw [happend]
      refine inSync_tidyJournal ?_ _
      rw [PendingStore.InStep, removeStaging_journal, removeStaging_pending]
      exact h.remove he

theorem inSync_removeUploadIfUnchanged {env : StoreEnv} (h : c.InStep) (he : (cleanEntry p.path).Writable)
    (hwhole : (env.journal 0).append.torn = 0) : (c.removeUploadIfUnchanged env p).2.InStep := by
  unfold removeUploadIfUnchanged
  cases c.unchanged p with
  | none => exact h
  | some current =>
    rcases appendJournalLocked_cases hwhole (cleanEntry p.path) with
      ⟨err, journal, happend, hj⟩ | happend
    · rw [happend]
      exact h.congr hj
    · rw [happend]
      refine inSync_tidyJournal ?_ _
      unfold removeStagingIfUnreferenced
      split
      · exact h.remove he
      · rw [PendingStore.InStep, removeStaging_journal, removeStaging_pending]
        exact h.remove he

theorem foldl_drop (ps : List PendingUpload) (c : PendingStore) :
    (ps.foldl (fun c p => c.drop p.path p.fid) c).journal = c.journal ∧
    (ps.foldl (fun c p => c.drop p.path p.fid) c).pending
      = (ps.map (·.path)).foldl (fun m k => m.erase k) c.pending := by
  induction ps generalizing c with
  | nil => exact ⟨rfl, rfl⟩
  | cons p ps ih => exact ih (c.drop p.path p.fid)

theorem foldl_removeStaging (env : StoreEnv) (ps : List PendingUpload) (c : PendingStore) :
    (ps.foldl (fun c p => c.removeStaging env p.localPath) c).journal = c.journal ∧
    (ps.foldl (fun c p => c.removeStaging env p.localPath) c).pending = c.pending := by
  induction ps generalizing c with
  | nil => exact ⟨rfl, rfl⟩
  | cons p ps ih =>
    obtain ⟨hj, hp⟩ := ih (c.removeStaging env p.localPath)
    rw [removeStaging_journal] at hj
    rw [removeStaging_pending] at hp
    exact ⟨hj, hp⟩

theorem InSync.removeAll {paths : List Bytes} (h : c.InStep) (he : (cleanBatchEntry paths).Writable) :
    InSync (c.appended (cleanBatchEntry paths)).journal (paths.foldl (fun m k => m.erase k) c.pending) := by
  refine h.append he (fun q => ?_) fun {q r} hr => ?_
  · rw [lookup_erase_all]
    show (if q ∈ paths then none else _) = _
    split <;> rfl
  · rw [lookup_erase_all] at hr
    grind

theorem inSync_removeUploadsUnder {env : StoreEnv} {dir : Bytes} (h : c.InStep) (he : (cleanBatchEntry
      ((c.uploadsUnder (env.journal 0).order (cleanVirtualPath dir)).map (·.path))).Writable)
    (hwhole : (env.journal 0).append.torn = 0) : (c.removeUploadsUnder env dir).2.InStep := by
  unfold removeUploadsUnder
  generalize c.uploadsUnder (env.journal 0).order (cleanVirtualPath dir) = removed at he ⊢
  simp only
  split
  · exact h
  · rcases appendJournalLocked_cases hwhole (cleanBatchEntry (removed.map (·.path))) with
      ⟨err, journal, happend, hj⟩ | happend
    · rw [happend]
      exact h.congr hj
    · rw [happend]
      refine inSync_tidyJournal ?_ _
      rw [PendingStore.InStep, (foldl_removeStaging env _ _).1, (foldl_removeStaging env _ _).2, (foldl_drop _ _).1,
        (foldl_drop _ _).2]
      exact h.removeAll he

/-! ### Renames -/

theorem InSync.rename (h : c.InStep) (he : (renameEntry oldPath next).Writable) :
    InSync (c.appended (renameEntry oldPath next)).journal ((c.pending.erase oldPath).insert next.path next) := by
  refine h.append he (fun q => ?_) fun {q r} hr => ?_
  · rw [lookup_insert_eq, lookup_erase_eq]
    show (if q = next.path then some next.journaled else if q = oldPath then none else _) = _
    split_ifs <;> rfl
  · have hnext : (dirtyEntry next).Writable := he.dirtyEntry (.inr rfl)
    rw [lookup_insert_eq, lookup_erase_eq] at hr
    grind

theorem length_keys_move {α β : Type} [DecidableEq α] (m : AList fun _ : α => β) {old new : α}
    (b : β) (hfree : new ≠ old → new ∉ m) : m.keys.length ≤ ((m.erase old).insert new b).keys.length := by
  have hnot : new ∉ m.keys.erase old := by
    intro hmem
    obtain ⟨hne, hmem⟩ := m.keys_nodup.mem_erase_iff.mp hmem
    exact hfree hne hmem
  rw [AList.keys_insert, AList.keys_erase, erase_of_not_mem hnot, length_cons, length_erase]
  split <;> omega

/-- One rename below the thresholds: it fails without a trace, or is done. -/
theorem renameUpload_cases (h : c.InStep) (he : (renameEntry oldPath next).Writable)
    (hwhole : env.append.torn = 0) (hbelow : c.Below [renameEntry oldPath next]) :
    (∃ err c', c.renameUpload env oldPath next = (some err, c') ∧ c'.InStep) ∨
    (c.renameUpload env oldPath next
        = (none, (c.appended (renameEntry oldPath next)).applyRename oldPath next) ∧
      InSync (c.appended (renameEntry oldPath next)).journal ((c.pending.erase oldPath).insert next.path next) ∧
      c.pending.keys.length ≤ ((c.pending.erase oldPath).insert next.path next).keys.length) := by
  unfold renameUpload
  split
  · exact .inl ⟨_, c, rfl, h⟩
  · next hfree =>
    rcases appendJournal_cases h he hwhole hbelow with ⟨err, journal, happend, hj⟩ | happend
    · rw [happend]
      exact .inl ⟨err, _, rfl, h.congr hj⟩
    · rw [happend]
      refine .inr ⟨rfl, h.rename he, length_keys_move _ _ fun hne hmem => ?_⟩
      exact hfree ⟨hne, AList.lookup_isSome.mpr hmem⟩

/-- Appending the first of several lines leaves room for the others. -/
theorem PendingStore.Below.tail {m : PendingMap} (h : c.InStep)
    (he : e.Writable) (hbelow : c.Below (e :: es)) (hm : c.pending.keys.length ≤ m.keys.length) :
    ({ c.appended e with pending := m } : PendingStore).Below es where
  size := by
    have hsize := hbelow.size
    simp only [map_cons, sum_cons] at hsize
    simp only [PendingStore.appended, getD_some, length_append, length_singleton]
    omega
  entries := by
    have hentries := hbelow.entries
    rw [length_cons] at hentries
    have hlines : ({ c.appended e with pending := m } : PendingStore).journalLines
        = c.journalLines + 1 := journalLines_of_inSync h he
    show (_ : Int) < c.compactMaxEntries ∨ _ ≤ m.keys.length + 32
    omega

theorem PendingStore.Below.head (hbelow : c.Below (e :: es)) : c.Below [e] where
  size := by
    have hsize := hbelow.size
    simp only [map_cons, sum_cons, map_nil, sum_nil] at hsize ⊢
    omega
  entries := by
    have hentries := hbelow.entries
    rw [length_cons] at hentries
    rw [length_singleton]
    omega

/-- The loop of `RebaseUploadsUnder`. -/
theorem inSync_rebaseLoop {env : StoreEnv} {move : PendingUpload → PendingUpload}
    (hwhole : ∀ i, (env.journal i).append.torn = 0) (targets : List PendingUpload) (i : Nat)
    (c : PendingStore) (h : c.InStep)
    (he : ∀ p ∈ targets, (renameEntry p.path (move p)).Writable)
    (hbelow : targets ≠ [] → c.Below (targets.map fun p => renameEntry p.path (move p))) :
    (rebaseLoop env move targets i c).2.InStep := by
  induction targets generalizing i c with
  | nil => exact h
  | cons p targets ih =>
    have hp := he p mem_cons_self
    have hbelow := hbelow (cons_ne_nil _ _)
    rw [rebaseLoop]
    rcases renameUpload_cases h hp (hwhole i) hbelow.head with
      ⟨err, c', hrename, hc'⟩ | ⟨hrename, hc', hkeys⟩
    · rwa [hrename]
    · rw [hrename]
      refine ih (i + 1) _ hc' (fun p hp => he p (mem_cons_of_mem _ hp)) fun _ => ?_
      have htail := PendingStore.Below.tail h hp hbelow hkeys
      exact ⟨htail.size, htail.entries⟩

theorem inSync_rebaseUploadsUnder {env : StoreEnv} {oldDir newDir : Bytes} {parentIDs : Bytes → Bytes} (h : c.InStep)
    (he : ∀ p ∈ c.rebaseTargets (cleanVirtualPath oldDir), (renameEntry p.path
      (rebased (cleanVirtualPath oldDir) (cleanVirtualPath newDir) parentIDs p)).Writable)
    (hwhole : ∀ i, (env.journal i).append.torn = 0)
    (hbelow : c.rebaseTargets (cleanVirtualPath oldDir) ≠ [] →
      c.Below ((c.rebaseTargets (cleanVirtualPath oldDir)).map fun p => renameEntry p.path
        (rebased (cleanVirtualPath oldDir) (cleanVirtualPath newDir) parentIDs p))) :
    (c.rebaseUploadsUnder env oldDir newDir parentIDs).2.InStep := by
  unfold rebaseUploadsUnder
  simp only
  split
  · exact h
  · split
    · exact h
    · have hloop := inSync_rebaseLoop hwhole _ 0 c h he hbelow
      split
      · exact hloop
      · exact inSync_tidyJournal hloop _

/-! ## Runs -/

/-- **One operation keeps journal and memory in step.** -/
theorem inSync_step {c' : PendingStore} {l : StoreOp × StoreEnv} (h : c.InStep)
    (hok : StepOk c l) (hstep : StoreStep c l c') : c'.InStep := by
  obtain ⟨op, env⟩ := l
  obtain ⟨hbelow, hwhole, hwritable⟩ := hok
  rw [hstep]
  cases op with
  | saveUpload p =>
    exact inSync_saveUpload h (hwritable _ mem_cons_self) (hwhole 0) (hbelow (cons_ne_nil _ _))
  | saveUploadExact p =>
    exact inSync_saveUpload h (hwritable _ mem_cons_self) (hwhole 0) (hbelow (cons_ne_nil _ _))
  | renameUpload oldPath next =>
    rcases renameUpload_cases h (hwritable _ mem_cons_self) (hwhole 0)
      (hbelow (cons_ne_nil _ _)) with ⟨err, c', hrename, hc'⟩ | ⟨hrename, hc', -⟩
    all_goals
      simp only [PendingStore.apply, hrename]
      exact hc'
  | rebaseUploadsUnder oldDir newDir parentIDs =>
    refine inSync_rebaseUploadsUnder h (fun p hp => ?_) hwhole fun hne => hbelow ?_
    · exact hwritable _ (mem_append_left _ (mem_map_of_mem hp))
    · exact fun hnil => hne (map_eq_nil_iff.mp hnil)
  | recordUploadFailureIfUnchanged p err retryDelay =>
    exact inSync_recordIfUnchanged (fun _ => rfl) h
      (fun e he => hwritable e (mem_append_left _ he)) (hwhole 0) hbelow
  | recordUploadPermanentFailureIfUnchanged p err =>
    exact inSync_recordIfUnchanged (fun _ => rfl) h
      (fun e he => hwritable e (mem_append_left _ he)) (hwhole 0) hbelow
  | recordUploadReplacementIfUnchanged p upload =>
    exact inSync_recordIfUnchanged (fun _ => rfl) h
      (fun e he => hwritable e (mem_append_left _ he)) (hwhole 0) hbelow
  | removeUpload path => exact inSync_removeUpload h (hwritable _ mem_cons_self) (hwhole 0)
  | removeUploadsUnder dir => exact inSync_removeUploadsUnder h (hwritable _ mem_cons_self) (hwhole 0)
  | removeUploadIfUnchanged p => exact inSync_removeUploadIfUnchanged h (hwritable _ mem_cons_self) (hwhole 0)

def emptyStore (maxBytes maxEntries : Int) : PendingStore :=
  { compactMaxBytes := maxBytes, compactMaxEntries := maxEntries }

/-- **The journal is durable away from the thresholds.** In every run from an empty store whose appends stay below the
thresholds, leave no partial lines and write readable ones, replay gives the records in memory. -/
theorem journal_replays_memory {maxBytes maxEntries : Int} {c : PendingStore}
    (h : Reaches StoreStep StepOk (emptyStore maxBytes maxEntries) c) : ReplaysMemory c := by
  have hsync := h.invariant (fun c => c.InStep) inSync_empty fun c l c' hc hok hstep => inSync_step hc hok hstep
  exact hsync.replaysMemory

theorem fits64_stagedSize : Fits64 3 := by decide

def stagedFile : PendingUpload :=
  { path := ascii "/a", fid := ascii "f1", parentID := ascii "root", name := ascii "a",
    localPath := ascii "/s/f1", size := ⟨3, fits64_stagedSize⟩ }

theorem writable_stagedFile : (dirtyEntry stagedFile).Writable := by
  refine ⟨⟨rfl, rfl, rfl, fun _ h => absurd h not_mem_nil, ?_⟩, by decide +kernel⟩
  exact ⟨rfl, rfl, rfl, rfl, rfl, rfl, fun _ h => absurd h (not_mem_none _),
    fun _ h => absurd h (not_mem_none _)⟩

theorem stepOk_save : StepOk (emptyStore (512 * 1024) 1024) (.saveUpload stagedFile, {}) where
  below _ := ⟨by decide +kernel, .inr (by decide)⟩
  whole _ := rfl
  writable e he := by
    obtain rfl := mem_singleton.mp he
    exact writable_stagedFile

theorem journal_replays_memory_save :
    ReplaysMemory ((emptyStore (512 * 1024) 1024).apply (.saveUpload stagedFile, {})).2 :=
  journal_replays_memory ((Reaches.refl _).tail stepOk_save rfl)

/-- **A saved record can be lost**: at a threshold of one byte the journal is rewritten from the still empty memory. -/
theorem saved_record_lost : ((emptyStore 1 1024).apply (.saveUpload stagedFile, {})).1 = none ∧
    ((emptyStore 1 1024).apply (.saveUpload stagedFile, {})).2.pending.lookup stagedFile.path = some stagedFile ∧
    (loadJournal (fun _ => true)
      ((emptyStore 1 1024).apply (.saveUpload stagedFile, {})).2.journal).1.lookup stagedFile.path
      = none := by
  decide +kernel

end Upload
