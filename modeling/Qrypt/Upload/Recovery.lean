import Qrypt.Upload.Durability

/-!
# Starting from a torn journal

`NewPendingStore` of `pkg/vfs/upload/store.go`. A crash during an append leaves the beginning of a line
at the end of the journal. The reader skips it, but it stays in the file, and the next append continues
it: the two together are no entry, and what was appended is lost (`torn_line_hides_save`).

A journal that is rewritten is whole again, be it at the start or by the removal of a record. As long
as nothing else is appended before, replay gives the records in memory (`torn_journal_recovers`).
-/

namespace Upload

open Infra Drive PendingStore List Option

/-! ## Starting -/

/-- What happens during `NewPendingStore`: directories and files that cannot be made, opened, rewritten or removed. -/
structure StartEnv where
  mkdir : Option Err := none
  openJournal : Option Err := none
  journal : JournalEnv := {}
  removeFails : Bytes → Bool := fun _ => false

/-- The staging files, by path. -/
abbrev StagingFiles := AList fun _ : Bytes => Bytes

def nameIn (dir path : Bytes) : Option Bytes :=
  let name := path.drop (dir.length + 1)
  if dir ++ [47] <+: path ∧ 47 ∉ name then some name else none

/-- `os.Remove` of the chosen files, one after the other. -/
def removeFiles (env : StartEnv) (files : StagingFiles) (chosen : Bytes → Bool) : StagingFiles :=
  (files.keys.filter fun path => chosen path && !env.removeFails path).foldl
    (fun files path => files.erase path) files

def cleanupUploadTemps (env : StartEnv) (dir : Bytes) (files : StagingFiles) : StagingFiles :=
  removeFiles env files fun path => (nameIn dir path).any fun name => ascii ".staging.upload-" <:+: name

namespace PendingStore

def indexed (c : PendingStore) (order : Bytes → Nat) : PendingStore :=
  { c with
    idIndex := (c.walk order).foldl
      (fun index r => if r.2.fid = [] then index else index.insert r.2.fid r.2.path) c.idIndex }

def sweepUnreferencedStaging (c : PendingStore) (env : StartEnv) (dir : Bytes) : PendingStore :=
  { c with
    staging := removeFiles env c.staging fun path =>
      (nameIn dir path).any (fun name => ascii ".staging" <:+ name) &&
        !c.pending.entries.any fun r => cleanPath r.2.localPath = cleanPath path }

end PendingStore

/-- `NewPendingStore` in a directory with the given journal and staging files. -/
def newPendingStore (env : StartEnv) (dir : Bytes) (journal : Option Bytes) (files : StagingFiles) :
    Except Err PendingStore :=
  let stagingDir := joinPath dir (ascii "staging")
  let files := cleanupUploadTemps env stagingDir files
  match env.mkdir, journal.bind fun _ => env.openJournal with
  | some err, _ => .error err
  | none, some err => .error err
  | none, none =>
    match loadJournal (fun path => (files.lookup path).isSome) journal with
    | (_, _, some err) => .error err
    | (pending, entries, none) =>
      let c : PendingStore :=
        PendingStore.indexed { pending := pending, journal := journal, staging := files } env.journal.order
      let c := if c.shouldCompactJournal env.journal entries then c.tidyJournal env.journal else c
      .ok (c.sweepUnreferencedStaging env stagingDir)

/-! ## Records that can be written -/

/-- The records are kept under their paths and can be written. -/
structure RecordsWritable (pending : PendingMap) : Prop where
  path : ∀ {q r}, pending.lookup q = some r → r.path = q
  writable : ∀ {q r}, pending.lookup q = some r → (dirtyEntry r).Writable

variable {pending : PendingMap} {p : PendingUpload} {torn : Bytes} {c : PendingStore}

theorem RecordsWritable.mono {pending' : PendingMap} (h : RecordsWritable pending)
    (hsub : ∀ {q r}, pending'.lookup q = some r → pending.lookup q = some r) :
    RecordsWritable pending' where
  path hr := h.path (hsub hr)
  writable hr := h.writable (hsub hr)

theorem RecordsWritable.erase (h : RecordsWritable pending) (path : Bytes) : RecordsWritable (pending.erase path) := by
  refine h.mono fun {q r} hr => ?_
  rw [lookup_erase_eq] at hr
  split at hr
  · cases hr
  · exact hr

theorem RecordsWritable.eraseAll (h : RecordsWritable pending)
    (paths : List Bytes) : RecordsWritable (paths.foldl (fun m k => m.erase k) pending) := by
  induction paths generalizing pending with
  | nil => exact h
  | cons path paths ih => exact ih (h.erase path)

/-- `UploadStarted` is not written. -/
theorem writable_journaled (h : (dirtyEntry p).Writable) : (dirtyEntry p.journaled).Writable := by
  have hu := h.valid.upload
  refine ⟨⟨h.valid.opOk, h.valid.op, h.valid.oldPath, h.valid.paths, ?_⟩, h.short⟩
  exact ⟨hu.path, hu.fid, hu.parentID, hu.name, hu.localPath, hu.lastError, hu.replaceUpload, hu.staging⟩

variable {es : List JournalEntry}

/-- A replayed record stands in one of the entries, under its path. -/
theorem mem_of_replayed {q : Bytes} {r : PendingUpload} (hr : replayed es q = some r) :
    ∃ e ∈ es, (e.op = .dirty ∨ e.op = .rename) ∧ e.upload.path = q ∧ r = e.upload.journaled := by
  induction es using reverseRecOn generalizing q r with
  | nil => cases hr
  | append_singleton es e ih =>
    have before : replayed es q = some r → ∃ e' ∈ es ++ [e],
        (e'.op = .dirty ∨ e'.op = .rename) ∧ e'.upload.path = q ∧ r = e'.upload.journaled := by
      intro hr
      obtain ⟨e', he', h⟩ := ih hr
      exact ⟨e', mem_append_left _ he', h⟩
    have hlast : e ∈ es ++ [e] := mem_append_right _ mem_cons_self
    rw [replayed_append] at hr
    cases hop : e.op with
    | dirty =>
      simp only [JournalEntry.effect, JournalEntry.journaled, hop] at hr
      split at hr
      · next hq => exact ⟨e, hlast, .inl hop, hq.symm, (some.inj hr).symm⟩
      · exact before hr
    | clean =>
      simp only [JournalEntry.effect, JournalEntry.journaled, hop] at hr
      split at hr
      · cases hr
      · exact before hr
    | cleanBatch =>
      simp only [JournalEntry.effect, JournalEntry.journaled, hop] at hr
      split at hr
      · cases hr
      · exact before hr
    | rename =>
      simp only [JournalEntry.effect, JournalEntry.journaled, hop] at hr
      split at hr
      · next hq => exact ⟨e, hlast, .inr hop, hq.symm, (some.inj hr).symm⟩
      · split at hr
        · cases hr
        · exact before hr
    | other text =>
      simp only [JournalEntry.effect, JournalEntry.journaled, hop] at hr
      exact before hr

/-! ## Reading a torn journal -/

/-- The entries that are read: the last one counts when only its newline is missing. -/
def entriesRead (es : List JournalEntry) (e : JournalEntry) (torn : Bytes) : List JournalEntry :=
  if torn = marshal e then es ++ [e] else es

variable {e : JournalEntry}

theorem entriesRead_writable (hes : ∀ e ∈ es, e.Writable)
    (he : e.Writable) (torn : Bytes) : ∀ e' ∈ entriesRead es e torn, e'.Writable := by
  intro e' he'
  unfold entriesRead at he'
  split at he'
  · rcases mem_append.mp he' with he' | he'
    · exact hes e' he'
    · rwa [mem_singleton.mp he']
  · exact hes e' he'

/-- **A torn line is skipped**, unless only its newline is missing. -/
theorem loadJournal_torn (hes : ∀ e ∈ es, e.Writable) (he : e.Writable) (htorn : torn <+: marshal e)
    (stat : Bytes → Bool) :
    (loadJournal stat (some (journalOf es ++ torn))).1
        = ((entriesRead es e torn).map JournalEntry.journaled).foldl (replayEntry stat) ∅ ∧
      (loadJournal stat (some (journalOf es ++ torn))).2.2 = none := by
  have hlines : ∀ l ∈ es.map marshal, IsLine journalBuffer l := by
    intro l hl
    obtain ⟨e', he', rfl⟩ := mem_map.mp hl
    exact (hes e' he').isLine
  have hcomplete := loadJournal_journalOf hes stat
  simp only [loadJournal, journalOf, scanLines_joinLines hlines, Prod.mk.injEq] at hcomplete
  have hcr : (es.map marshal).map dropCR = es.map marshal := by
    refine (map_congr_left fun l hl => ?_).trans (map_id _)
    exact if_neg (hlines l hl).carriageReturn
  have hscan := scanLines_append (fun l hl => (hlines l hl).newline) (fun l hl => (hlines l hl).short) torn
  rw [scanLines_line (he.isLine_cut htorn), hcr] at hscan
  simp only [loadJournal, journalOf, hscan, foldl_append, hcomplete.1, and_true]
  unfold entriesRead
  by_cases hwhole : torn = marshal e
  · have hne : marshal e ≠ [] := cons_ne_nil _ _
    rw [if_pos hwhole, hwhole, if_neg hne, map_append, foldl_append, foldl_cons,
      replayLine, unmarshal_marshal he.valid]
    rfl
  · rw [if_neg hwhole]
    split
    · rfl
    · simp [foldl_cons, replayLine, unmarshal_cut he.valid htorn hwhole]

/-- Replay with the files of the entries present is replay with all files present. -/
theorem foldl_replayEntry_congr {stat : Bytes → Bool}
    (h : ∀ e ∈ es, e.op = .dirty → stat e.upload.localPath = true) (m : PendingMap) :
    (es.map JournalEntry.journaled).foldl (replayEntry stat) m
      = (es.map JournalEntry.journaled).foldl (replayEntry fun _ => true) m := by
  rw [foldl_map, foldl_map]
  refine foldl_ext _ _ m fun m e he => ?_
  unfold replayEntry
  cases hop : e.journaled.op with
  | dirty =>
    have hstat : stat e.journaled.upload.localPath = true := h e he hop
    simp only [hstat]
  | clean => rfl
  | cleanBatch => rfl
  | rename => rfl
  | other text => rfl

/-! ## The invariant -/

/-- Replay gives the records in memory, and a journal of complete lines is in step with them. -/
structure Recovered (c : PendingStore) : Prop where
  replays : ReplaysMemory c
  records : RecordsWritable c.pending
  complete : lastLine (c.journal.getD []) = [] → InSync c.journal c.pending

theorem recovered_of_inSync (h : InSync c.journal c.pending) : Recovered c :=
  ⟨h.replaysMemory, ⟨h.path, h.writable⟩, fun _ => h⟩

theorem inSync_tidyJournal_of_writable {env : JournalEnv}
    (h : RecordsWritable c.pending) (hcompact : env.compact = none) :
    InSync (c.tidyJournal env).journal (c.tidyJournal env).pending := by
  unfold tidyJournal compactJournalLocked
  rw [hcompact]
  exact inSync_rewritten h.path h.writable (perm_insertionSort _ _)

theorem Recovered.congr (h : Recovered c) {journal : Option Bytes}
    (hj : journal.getD [] = c.journal.getD []) : Recovered { c with journal := journal } where
  replays := by
    have hload : loadJournal (fun _ => true) journal = loadJournal (fun _ => true) c.journal := by
      have hsome : ∀ j : Option Bytes, loadJournal (fun _ => true) j
          = loadJournal (fun _ => true) (some (j.getD [])) := by
        intro j
        cases j with
        | none => rfl
        | some data => rfl
      rw [hsome journal, hsome c.journal, hj]
    exact ⟨by rw [hload]; exact h.replays.noError, by rw [hload]; exact h.replays.record⟩
  records := h.records
  complete hlast := by
    rw [hj] at hlast
    exact (h.complete hlast).congr hj

variable {c : PendingStore} {env : StoreEnv}

/-- A removal appends its line, forgets records and rewrites the journal. -/
theorem recovered_removal (forget : PendingStore → PendingStore)
    (h : Recovered c) (hwhole : (env.journal 0).append.torn = 0)
    (hcompact : (env.journal 0).compact = none)
    (hforget : RecordsWritable (forget (c.appended e)).pending) :
    Recovered (match c.appendJournalLocked (env.journal 0) e with
      | (some err, c) => ((some err : Option Err), c)
      | (none, c) => (none, (forget c).tidyJournal (env.journal 0))).2 := by
  rcases appendJournalLocked_cases (c := c) hwhole e with ⟨err, journal, happend, hj⟩ | happend
  · rw [happend]
    exact h.congr hj
  · rw [happend]
    exact recovered_of_inSync (inSync_tidyJournal_of_writable hforget hcompact)

/-- The condition of a durable run, and an incomplete line is not continued except by a removal that rewrites the
journal. -/
structure StepSafe (c : PendingStore) (l : StoreOp × StoreEnv) : Prop where
  ok : StepOk c l
  newline : lastLine (c.journal.getD []) ≠ [] → l.1.updates c l.2 = [] ∧ (l.2.journal 0).compact = none

theorem recovered_recordIfUnchanged {change : PendingUpload → PendingUpload} (h : Recovered c)
    (hnone : ((c.unchanged p).map fun r => dirtyEntry (change r)).toList = []) :
    Recovered (c.recordIfUnchanged env p change).2 := by
  unfold recordIfUnchanged
  cases hcur : c.unchanged p with
  | none => exact h
  | some current => simp [hcur] at hnone

section

variable (h : Recovered c) (hwhole : (env.journal 0).append.torn = 0) (hcompact : (env.journal 0).compact = none)
include h hwhole hcompact

theorem recovered_removeUpload {path : Bytes} : Recovered (c.removeUpload env path).2 := by
  unfold removeUpload
  cases c.pending.lookup path with
  | none => exact h
  | some pending =>
    refine recovered_removal (fun c =>
      (c.drop path pending.fid).removeStaging env pending.localPath) h hwhole hcompact ?_
    rw [removeStaging_pending]
    exact h.records.erase path

theorem recovered_removeUploadsUnder {dir : Bytes} : Recovered (c.removeUploadsUnder env dir).2 := by
  unfold removeUploadsUnder
  generalize c.uploadsUnder (env.journal 0).order (cleanVirtualPath dir) = removed
  simp only
  split
  · exact h
  · refine recovered_removal (fun c => removed.foldl (fun c p => c.removeStaging env p.localPath)
        (removed.foldl (fun c p => c.drop p.path p.fid) c)) h hwhole hcompact ?_
    rw [(foldl_removeStaging env _ _).2, (foldl_drop _ _).2]
    exact h.records.eraseAll _

theorem recovered_removeUploadIfUnchanged {p : PendingUpload} : Recovered (c.removeUploadIfUnchanged env p).2 := by
  unfold removeUploadIfUnchanged
  cases c.unchanged p with
  | none => exact h
  | some current =>
    simp only
    rcases appendJournalLocked_cases (c := c) hwhole (cleanEntry p.path) with
      ⟨err, journal, happend, hj⟩ | happend
    · rw [happend]
      exact h.congr hj
    · rw [happend]
      refine recovered_of_inSync (inSync_tidyJournal_of_writable ?_ hcompact)
      unfold removeStagingIfUnreferenced
      split
      · exact h.records.erase p.path
      · rw [removeStaging_pending]
        exact h.records.erase p.path

end

/-- **One step keeps what was recovered.** -/
theorem recovered_step {c' : PendingStore} {l : StoreOp × StoreEnv} (h : Recovered c)
    (hsafe : StepSafe c l) (hstep : StoreStep c l c') : Recovered c' := by
  by_cases hlast : lastLine (c.journal.getD []) = []
  · exact recovered_of_inSync (inSync_step (h.complete hlast) hsafe.ok hstep)
  · -- the last line is torn: nothing is updated, and a removal rewrites the journal
    obtain ⟨hnone, hcompact⟩ := hsafe.newline hlast
    have hwhole := hsafe.ok.whole 0
    obtain ⟨op, env⟩ := l
    rw [hstep]
    cases op with
    | saveUpload p => cases hnone
    | saveUploadExact p => cases hnone
    | renameUpload oldPath next => cases hnone
    | rebaseUploadsUnder oldDir newDir parentIDs =>
      have htargets := map_eq_nil_iff.mp hnone
      simp only [PendingStore.apply, rebaseUploadsUnder, htargets, if_true]
      exact h
    | recordUploadFailureIfUnchanged p err retryDelay => exact recovered_recordIfUnchanged h hnone
    | recordUploadPermanentFailureIfUnchanged p err => exact recovered_recordIfUnchanged h hnone
    | recordUploadReplacementIfUnchanged p upload => exact recovered_recordIfUnchanged h hnone
    | removeUpload path => exact recovered_removeUpload h hwhole hcompact
    | removeUploadsUnder dir => exact recovered_removeUploadsUnder h hwhole hcompact
    | removeUploadIfUnchanged p => exact recovered_removeUploadIfUnchanged h hwhole hcompact

/-! ## After the start -/

theorem recovered_loaded (hes : ∀ e ∈ es, e.Writable) (he : e.Writable) (htorn : torn <+: marshal e)
    (stat : Bytes → Bool)
    (hstat : ∀ e' ∈ es ++ [e], e'.op = .dirty → stat e'.upload.localPath = true)
    (hjournal : c.journal = some (journalOf es ++ torn))
    (hpending : c.pending = (loadJournal stat c.journal).1) : Recovered c := by
  have hread := entriesRead_writable hes he torn
  have hmem : ∀ e' ∈ entriesRead es e torn, e' ∈ es ++ [e] := by
    intro e' he'
    unfold entriesRead at he'
    split at he'
    · exact he'
    · exact mem_append_left _ he'
  obtain ⟨hload, hnoError⟩ := loadJournal_torn hes he htorn fun _ => true
  have hsame : c.pending = (loadJournal (fun _ => true) c.journal).1 := by
    rw [hpending, hjournal, (loadJournal_torn hes he htorn stat).1, hload,
      foldl_replayEntry_congr fun e' he' => hstat e' (hmem e' he')]
  have hlookup : ∀ q, c.pending.lookup q = replayed (entriesRead es e torn) q := by
    intro q
    rw [hsame, hjournal, hload]
    exact congrFun (lookup_replay _ ∅) q
  have hrecords : RecordsWritable c.pending := by
    constructor
    · intro q r hr
      rw [hlookup] at hr
      obtain ⟨e', -, -, hpath, rfl⟩ := mem_of_replayed hr
      exact hpath
    · intro q r hr
      rw [hlookup] at hr
      obtain ⟨e', he', hop, -, rfl⟩ := mem_of_replayed hr
      exact writable_journaled ((hread e' he').dirtyEntry hop)
  have hjournaled : ∀ q, (c.pending.lookup q).map PendingUpload.journaled = c.pending.lookup q := by
    intro q
    cases hr : c.pending.lookup q with
    | none => rfl
    | some r =>
      rw [hlookup] at hr
      obtain ⟨e', -, -, -, rfl⟩ := mem_of_replayed hr
      rfl
  refine ⟨⟨?_, fun path => ?_⟩, hrecords, fun hlast => ?_⟩
  · rw [hjournal, hnoError]
  · rw [← hsame, hjournaled]
  · -- nothing stands behind the last newline
    have hlines : ∀ l ∈ es.map marshal, 10 ∉ l := by
      intro l hl
      obtain ⟨e', he', rfl⟩ := mem_map.mp hl
      exact (hes e' he').isLine.newline
    rw [hjournal, getD_some, journalOf,
      lastLine_joinLines_append hlines (he.isLine_cut htorn).newline] at hlast
    subst hlast
    have hes' : entriesRead es e [] = es := if_neg (cons_ne_nil _ _).symm
    refine ⟨⟨es, ?_, hes, fun q => ?_⟩, hrecords.path, hrecords.writable⟩
    · rw [hjournal, append_nil, getD_some]
    · rw [hjournaled, hlookup, hes']

theorem recovered_tidyJournal {env : JournalEnv} (h : Recovered c) : Recovered (c.tidyJournal env) := by
  cases hcompact : env.compact with
  | none => exact recovered_of_inSync (inSync_tidyJournal_of_writable h.records hcompact)
  | some err =>
    unfold tidyJournal compactJournalLocked
    rwa [hcompact]

theorem Recovered.sweep (h : Recovered c) (env : StartEnv) (dir : Bytes) :
    Recovered (c.sweepUnreferencedStaging env dir) :=
  ⟨⟨h.replays.noError, h.replays.record⟩, h.records, h.complete⟩

/-- **A torn journal is recovered from.** In every durable run that does not continue the torn line except by a removal
that rewrites the journal, replay gives the records in memory and no error. -/
theorem torn_journal_recovers {torn dir : Bytes} {start : StartEnv} {files : StagingFiles} {c₀ : PendingStore}
    (hes : ∀ e ∈ es, e.Writable) (he : e.Writable) (htorn : torn <+: marshal e)
    (hfiles : ∀ e' ∈ es ++ [e], e'.op = .dirty →
      ((cleanupUploadTemps start (joinPath dir (ascii "staging")) files).lookup e'.upload.localPath).isSome = true)
    (hstart : newPendingStore start dir (some (journalOf es ++ torn)) files = .ok c₀)
    (h : Reaches StoreStep StepSafe c₀ c) : ReplaysMemory c := by
  have h₀ : Recovered c₀ := by
    unfold newPendingStore at hstart
    simp only at hstart
    split at hstart
    · cases hstart
    · cases hstart
    · split at hstart
      · cases hstart
      · next pending entries hload =>
        cases hstart
        refine Recovered.sweep ?_ _ _
        have hloaded : Recovered (PendingStore.indexed
            { pending := pending, journal := some (journalOf es ++ torn),
              staging := cleanupUploadTemps start (joinPath dir (ascii "staging")) files }
            start.journal.order) := by
          refine recovered_loaded hes he htorn (fun path => ((cleanupUploadTemps start
            (joinPath dir (ascii "staging")) files).lookup path).isSome) hfiles rfl ?_
          show pending = (loadJournal _ (some (journalOf es ++ torn))).1
          rw [hload]
        split
        · exact recovered_tidyJournal hloaded
        · exact hloaded
  exact (h.invariant Recovered h₀ fun c l c' hc hsafe hstep => recovered_step hc hsafe hstep).replays

/-- The journal of one staged file, and the beginning of a second line. -/
def tornJournal : Bytes := journalOf [dirtyEntry stagedFile] ++ (marshal (dirtyEntry stagedFile)).take 10

/-- The files of the store: the staged one. -/
def stagedFiles : StagingFiles := (∅ : StagingFiles).insert stagedFile.localPath (ascii "abc")

def tornStore : PendingStore :=
  (newPendingStore {} (ascii "/s") (some tornJournal) stagedFiles).toOption.getD {}

theorem newPendingStore_tornJournal :
    newPendingStore {} (ascii "/s") (some tornJournal) stagedFiles = .ok tornStore := by
  have hok : (newPendingStore {} (ascii "/s") (some tornJournal) stagedFiles).isOk = true := by
    decide +kernel
  unfold tornStore
  cases hstart : newPendingStore {} (ascii "/s") (some tornJournal) stagedFiles with
  | ok c => rfl
  | error err =>
    rw [hstart] at hok
    cases hok

theorem stepSafe_removeStaged : StepSafe tornStore (.removeUpload stagedFile.path, {}) := by
  refine ⟨⟨fun h => absurd rfl h, fun _ => rfl, fun e he => ?_⟩, fun _ => ⟨rfl, rfl⟩⟩
  rw [mem_singleton.mp he]
  refine ⟨⟨rfl, rfl, rfl, fun _ h => absurd h not_mem_nil, ?_⟩, by decide +kernel⟩
  exact ⟨rfl, rfl, rfl, rfl, rfl, rfl, fun _ h => absurd h (not_mem_none _),
    fun _ h => absurd h (not_mem_none _)⟩

theorem torn_journal_recovers_removed : lastLine tornJournal ≠ [] ∧
    ReplaysMemory (tornStore.apply (.removeUpload stagedFile.path, {})).2 := by
  have hes : ∀ e ∈ [dirtyEntry stagedFile], e.Writable := by
    intro e he
    rw [mem_singleton.mp he]
    exact writable_stagedFile
  refine ⟨by decide +kernel, torn_journal_recovers hes writable_stagedFile (List.take_prefix 10 _)
    (fun e he _ => ?_) newPendingStore_tornJournal
    ((Reaches.refl _).tail stepSafe_removeStaged rfl)⟩
  · have he : e = dirtyEntry stagedFile := by simpa using he
    rw [he]
    decide +kernel

def nextFile : PendingUpload := { stagedFile with path := ascii "/b", fid := ascii "f2" }

/-- **A torn line hides what is saved next**: the line of the saved record continues it. -/
theorem torn_line_hides_save : (newPendingStore {} (ascii "/s") (some tornJournal) stagedFiles).isOk = true ∧
    (tornStore.apply (.saveUpload nextFile, {})).1 = none ∧
    (tornStore.apply (.saveUpload nextFile, {})).2.pending.lookup nextFile.path = some nextFile ∧
    (loadJournal (fun _ => true)
      (tornStore.apply (.saveUpload nextFile, {})).2.journal).1.lookup nextFile.path = none := by
  decide +kernel

end Upload
