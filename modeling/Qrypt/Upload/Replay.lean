import Qrypt.Infra.Map
import Qrypt.Upload.Journal

/-!
# Replay of the journal

`loadJournal` of `pkg/vfs/upload/store.go`. What an entry means is said twice: `replayEntry` changes
the map as the code does, `JournalEntry.effect` is the change of the record found under each path.

* `loadJournal_journalOf` — a journal of complete lines is replayed entry by entry
-/

namespace Upload

open Infra Drive List

/-- The map of pending uploads, by path. -/
abbrev PendingMap := AList fun _ : Bytes => PendingUpload

/-- One entry of the journal is replayed. A dirty entry only counts while its staging file exists. -/
def replayEntry (stat : Bytes → Bool) (pending : PendingMap) (entry : JournalEntry) : PendingMap :=
  match entry.op with
  | .dirty => if stat entry.upload.localPath then pending.insert entry.upload.path entry.upload else pending
  | .clean => pending.erase entry.upload.path
  | .cleanBatch => entry.paths.foldl (fun pending p => pending.erase p) pending
  | .rename => (pending.erase entry.oldPath).insert entry.upload.path entry.upload
  | .other _ => pending

/-- One line; what is not an entry is skipped. -/
def replayLine (stat : Bytes → Bool) (pending : PendingMap) (line : Bytes) : PendingMap :=
  match unmarshal line with
  | some entry => replayEntry stat pending entry
  | none => pending

/-- `loadJournal` into an empty store: the pending uploads, the number of lines, and the error. A missing file is empty.
-/
def loadJournal (stat : Bytes → Bool) (journal : Option Bytes) : PendingMap × Nat × Option Err :=
  match journal with
  | none => (∅, 0, none)
  | some data =>
    let scanned := scanLines journalBuffer data
    (scanned.1.foldl (replayLine stat) ∅, scanned.1.length, scanned.2)

/-! ## What an entry means -/

/-- The records under each path after an entry whose staging file exists. -/
def JournalEntry.effect (e : JournalEntry) (m : Bytes → Option PendingUpload) :
    Bytes → Option PendingUpload := fun p =>
  match e.op with
  | .dirty => if p = e.upload.path then some e.upload else m p
  | .clean => if p = e.upload.path then none else m p
  | .cleanBatch => if p ∈ e.paths then none else m p
  | .rename => if p = e.upload.path then some e.upload else if p = e.oldPath then none else m p
  | .other _ => m p

/-- **Replay is the effect of the entry on every path.** -/
theorem lookup_replayEntry (m : PendingMap) (e : JournalEntry) :
    (fun p => (replayEntry (fun _ => true) m e).lookup p) = e.effect fun p => m.lookup p := by
  funext p
  unfold replayEntry JournalEntry.effect
  cases e.op with
  | dirty => exact lookup_insert_eq m _ p _
  | clean => exact lookup_erase_eq m _ p
  | cleanBatch => exact lookup_erase_all m _ p
  | rename =>
    show (AList.insert _ _ _).lookup p = _
    rw [lookup_insert_eq, lookup_erase_eq]
  | other => rfl

/-! ## Complete journals -/

def JournalEntry.journaled (e : JournalEntry) : JournalEntry :=
  { e with upload := e.upload.journaled }

def journalOf (es : List JournalEntry) : Bytes := joinLines (es.map marshal)

theorem journalOf_append (es : List JournalEntry) (e : JournalEntry) :
    journalOf (es ++ [e]) = journalOf es ++ (marshal e ++ [10]) := by
  rw [journalOf, map_append, joinLines_append, map_singleton, joinLines_singleton, journalOf]

/-- **A journal of complete lines is replayed entry by entry.** -/
theorem loadJournal_journalOf {es : List JournalEntry} (h : ∀ e ∈ es, e.Writable)
    (stat : Bytes → Bool) : loadJournal stat (some (journalOf es))
      = ((es.map JournalEntry.journaled).foldl (replayEntry stat) ∅, es.length, none) := by
  have hlines : ∀ l ∈ es.map marshal, IsLine journalBuffer l := by
    intro l hl
    obtain ⟨e, he, rfl⟩ := mem_map.mp hl
    exact (h e he).isLine
  have hreplay : ∀ m, (es.map marshal).foldl (replayLine stat) m
      = (es.map JournalEntry.journaled).foldl (replayEntry stat) m := by
    intro m
    rw [foldl_map, foldl_map]
    refine foldl_ext _ _ m fun m e he => ?_
    rw [replayLine, unmarshal_marshal (h e he).valid]
    rfl
  unfold loadJournal journalOf
  simp only [scanLines_joinLines hlines, hreplay, length_map]

/-- The records a journal of the given entries holds, all staging files being present. -/
def replayed (es : List JournalEntry) : Bytes → Option PendingUpload :=
  es.foldl (fun m e => e.journaled.effect m) fun _ => none

theorem replayed_append (es : List JournalEntry) (e : JournalEntry) :
    replayed (es ++ [e]) = e.journaled.effect (replayed es) := by
  simp [replayed, foldl_append]

theorem lookup_replay (es : List JournalEntry) (m : PendingMap) :
    (fun p => ((es.map JournalEntry.journaled).foldl (replayEntry fun _ => true) m).lookup p)
      = es.foldl (fun m e => e.journaled.effect m) fun p => m.lookup p := by
  induction es generalizing m with
  | nil => rfl
  | cons e es ih => rw [map_cons, foldl_cons, foldl_cons, ih, lookup_replayEntry]

theorem lookup_loadJournal {es : List JournalEntry} (h : ∀ e ∈ es, e.Writable) (p : Bytes) :
    (loadJournal (fun _ => true) (some (journalOf es))).1.lookup p = replayed es p := by
  rw [loadJournal_journalOf h]
  exact congrFun (lookup_replay es ∅) p

/-! ## Rewritten journals -/

def dirtyEntry (p : PendingUpload) : JournalEntry := { op := .dirty, upload := p }

theorem effect_dirtyEntry (p : PendingUpload) (m : Bytes → Option PendingUpload) (q : Bytes) :
    (dirtyEntry p).journaled.effect m q = if q = p.path then some p.journaled else m q := rfl

/-- The record of an entry can be written alone when the entry can. -/
theorem JournalEntry.Writable.dirtyEntry {e : JournalEntry} (h : e.Writable)
    (hop : e.op = .dirty ∨ e.op = .rename) : (dirtyEntry e.upload).Writable where
  valid :=
    { opOk := show JournalOp.ofText (ascii "dirty") = .dirty by decide
      op := show validString (ascii "dirty") = true by decide
      oldPath := show validString [] = true by decide
      paths := fun _ hp => absurd hp not_mem_nil
      upload := h.valid.upload }
  short := by
    refine Nat.lt_of_le_of_lt (RecordCodec.length_encode_le fun f _ => ?_) h.short
    cases f
    case op =>
      show (quote (ascii "op")).length + (quote (ascii "dirty")).length + 2
        ≤ (quote (ascii "op")).length + (quote e.op.text).length + 2
      rcases hop with hop | hop <;> rw [hop] <;> decide
    case oldPath => exact Nat.zero_le _
    case paths => exact Nat.zero_le _
    all_goals exact Nat.le_refl _

/-- **A rewritten journal holds the records it was made of**, in whatever order. -/
theorem replayed_dirty {ps : List PendingUpload} (hnd : (ps.map (·.path)).Nodup) (q : Bytes) :
    replayed (ps.map dirtyEntry) q = (ps.find? fun p => p.path = q).map PendingUpload.journaled := by
  -- the last line for a path decides, so the induction takes the lines from the end
  induction ps using reverseRecOn with
  | nil => rfl
  | append_singleton ps p ih =>
    rw [map_append, nodup_append] at hnd
    obtain ⟨hps, -, hdisj⟩ := hnd
    rw [map_append, map_singleton, replayed_append, effect_dirtyEntry, ih hps, find?_append]
    split
    · next hq =>
      have hnone : ps.find? (fun r => r.path = q) = none := by
        refine find?_eq_none.mpr fun r hr heq => ?_
        have heq : r.path = q := of_decide_eq_true heq
        exact hdisj _ (mem_map_of_mem hr) _ (mem_singleton_self p.path) (heq.trans hq)
      rw [hnone]
      simp [hq]
    · next hq =>
      have hp : ¬ p.path = q := fun h => hq h.symm
      simp [hp]

end Upload
