import Qrypt.Task.Store

/-!
# The journal after a crash

The process may stop after any byte of the journal. `Survives` states that the rest opens, that every task is what
its last complete record holds, and that the records of the next run are read with it when it is opened again.

* `survives_iff` — this is so exactly if the stop cut no record, or left one without its newline and nothing was
  appended
-/

namespace Tasks

open Infra List Option

/-! ## The last record of a task -/

/-- What a record tells about the task with the given id; tasks without an id are not replayed. -/
def TaskJournalEntry.tells (e : TaskJournalEntry) (id : Bytes) : Option (Option Task) :=
  match e.op with
  | .named .put | .named .update =>
    if e.task.id = id ∧ id ≠ [] ∧ e.task.capabilities.persistent then some (some e.task) else none
  | .named .dismiss => if e.id = id ∧ id ≠ [] then some none else none
  | .other _ _ => none

/-- The task that the last record about it holds; none if that is a dismissal. -/
def lastRecord (es : List TaskJournalEntry) (id : Bytes) : Option Task := (es.reverse.findSome? (·.tells id)).join

/-- The tasks are those of their last records. -/
def Recovered (s : MemoryStore) (es : List TaskJournalEntry) : Prop :=
  ∀ id, (s.tasks.lookup id).map (·.task) = (lastRecord es id).map normalizeReplayedTask

def loaded (es : List TaskJournalEntry) : MemoryStore := es.foldl replayEntry {}

theorem lastRecord_concat (es : List TaskJournalEntry) (e : TaskJournalEntry) (id : Bytes) :
    lastRecord (es ++ [e]) id = ((e.tells id).getD (lastRecord es id)) := by
  unfold lastRecord
  rw [reverse_append, reverse_singleton, singleton_append, findSome?_cons]
  cases e.tells id with
  | none => rfl
  | some r => rfl

theorem id_normalizeReplayedTask (t : Task) : (normalizeReplayedTask t).id = t.id := by
  unfold normalizeReplayedTask
  dsimp only
  split
  all_goals
    split_ifs
    all_goals rfl

theorem lookup_loadTask (s : MemoryStore) (t : Task) (id : Bytes) :
    ((s.loadTask (normalizeReplayedTask t)).tasks.lookup id).map (·.task) =
      if t.id = id then some (normalizeReplayedTask t) else (s.tasks.lookup id).map (·.task) := by
  unfold MemoryStore.loadTask
  rw [id_normalizeReplayedTask, lookup_insert_eq]
  by_cases hid : t.id = id
  · simp [hid]
  · simp [hid, Ne.symm hid]

theorem lookup_dismissManaged (s : MemoryStore) (eid id : Bytes) :
    ((s.dismissManaged eid).tasks.lookup id).map (·.task) =
      if eid = id then none else (s.tasks.lookup id).map (·.task) := by
  unfold MemoryStore.dismissManaged
  by_cases hid : eid = id
  · simp [hid]
  · simp [hid, Ne.symm hid]

theorem lookup_replayEntry (s : MemoryStore) (e : TaskJournalEntry) (id : Bytes) :
    ((replayEntry s e).tasks.lookup id).map (·.task) =
      ((e.tells id).map (·.map normalizeReplayedTask)).getD ((s.tasks.lookup id).map (·.task)) := by
  -- a record about another task, or without an id, leaves this task alone
  have hload : ((if e.task.id ≠ [] ∧ e.task.capabilities.persistent then
        s.loadTask (normalizeReplayedTask e.task) else s).tasks.lookup id).map (·.task) =
      ((if e.task.id = id ∧ id ≠ [] ∧ e.task.capabilities.persistent then some (some e.task) else none).map
        (·.map normalizeReplayedTask)).getD ((s.tasks.lookup id).map (·.task)) := by
    by_cases hid : e.task.id = id
    · subst hid
      split_ifs with h h' h'
      · rw [lookup_loadTask, if_pos rfl]
        rfl
      · exact absurd ⟨rfl, h⟩ h'
      · exact absurd h'.2 h
      · rfl
    · rw [if_neg fun h : e.task.id = id ∧ _ => hid h.1]
      split_ifs
      · simp [lookup_loadTask, if_neg hid]
      · rfl
  have hdismiss : ((if e.id ≠ [] then s.dismissManaged e.id else s).tasks.lookup id).map (·.task) =
      ((if e.id = id ∧ id ≠ [] then some none else none).map
        (·.map normalizeReplayedTask)).getD ((s.tasks.lookup id).map (·.task)) := by
    by_cases hid : e.id = id
    · subst hid
      split_ifs with h h' h'
      · rw [lookup_dismissManaged, if_pos rfl]
        rfl
      · exact absurd ⟨rfl, h⟩ h'
      · exact absurd h'.2 h
      · rfl
    · rw [if_neg fun h : e.id = id ∧ _ => hid h.1]
      split_ifs
      · rw [lookup_dismissManaged, if_neg hid]
        rfl
      · rfl
  unfold replayEntry TaskJournalEntry.tells
  cases e.op with
  | named op =>
    cases op with
    | put => exact hload
    | update => exact hload
    | dismiss => exact hdismiss
  | other text h => rfl

/-- **Replay finds the last records.** -/
theorem recovered_loaded (es : List TaskJournalEntry) : Recovered (loaded es) es := by
  intro id
  induction es using reverseRecOn with
  | nil => rfl
  | append_singleton es e ih =>
    rw [lastRecord_concat, loaded, foldl_append, foldl_cons, foldl_nil, lookup_replayEntry]
    cases e.tells id with
    | none => exact ih
    | some r => rfl

/-! ## Reading lines -/

/-- A record as the store writes it. -/
structure TaskJournalEntry.Written (e : TaskJournalEntry) : Prop where
  valid : e.Valid
  version : e.version = currentJournalVersion

variable {e : TaskJournalEntry}

theorem printable_marshal (h : e.Valid) : ∀ c ∈ marshal e, 0x20 ≤ c :=
  (Struct.fits_members h).printable

theorem marshal_eq_cons (e : TaskJournalEntry) : ∃ t, marshal e = 123 :: t :=
  ⟨encodeMembers (entryStruct.members e) ++ [125], by simp [marshal, Json.encode]⟩

theorem marshal_ne_nil (e : TaskJournalEntry) : marshal e ≠ [] := by
  obtain ⟨t, ht⟩ := marshal_eq_cons e
  simp [ht]

variable {line bad p : Bytes} {es : List TaskJournalEntry} {s : MemoryStore}

theorem isLine_of_printable (h : ∀ c ∈ line, 0x20 ≤ c) (hshort : line.length < replayBuffer) :
    IsLine replayBuffer line where
  newline hmem := absurd (h 10 hmem) (by decide)
  carriageReturn hlast := absurd (h 13 (mem_of_getLast? hlast)) (by decide)
  short := hshort

theorem replayLine_marshal (h : e.Written) (s : MemoryStore) : replayLine s (marshal e) = .ok (replayEntry s e) := by
  rw [replayLine, if_neg (marshal_ne_nil e), unmarshal_marshal h.valid]
  simp [h.version]

theorem foldlM_replayLine (h : ∀ e ∈ es, e.Written) (s : MemoryStore) :
    (es.map marshal).foldlM replayLine s = .ok (es.foldl replayEntry s) := by
  induction es generalizing s with
  | nil => rfl
  | cons e es ih =>
    rw [map_cons, foldlM_cons, replayLine_marshal (h e mem_cons_self)]
    exact ih (fun e' he' => h e' (mem_cons_of_mem e he')) _

theorem foldlM_ne_ok {ε σ α : Type} {f : σ → α → Except ε σ} {a : α} (ha : ∀ s s', f s a ≠ .ok s')
    {xs : List α} (hmem : a ∈ xs) (s s' : σ) : xs.foldlM f s ≠ .ok s' := by
  induction xs generalizing s with
  | nil => cases hmem
  | cons x xs ih =>
    rw [foldlM_cons]
    cases hx : f s x with
    | error err => exact fun h => by cases h
    | ok t =>
      rcases mem_cons.mp hmem with rfl | hmem
      · exact absurd hx (ha s t)
      · exact ih hmem t

/-- **A line that does not fit the buffer or that no record stands on makes the journal unreadable.** -/
theorem replay_ne_ok {data : Bytes} (hmem : bad ∈ splitLines data)
    (hbad : replayBuffer ≤ bad.length ∨ ∀ s s', replayLine s (dropCR bad) ≠ .ok s') (s : MemoryStore) :
    replay data ≠ .ok s := by
  intro hreplay
  unfold replay at hreplay
  dsimp only at hreplay
  split at hreplay
  · cases hreplay
  · next t hfold =>
    split at hreplay
    · cases hreplay
    · next hend =>
      -- the scanner did not stop early, so it handed out every line
      have hlen : ¬ ((splitLines data).takeWhile (·.length < replayBuffer)).length < (splitLines data).length := by
        intro hlt
        simp [scanLines, hlt] at hend
      have hall := (List.takeWhile_prefix _).eq_of_length_le (Nat.not_lt.mp hlen)
      rcases hbad with hlong | hbad
      · have hshort := takeWhile_eq_self_iff.mp hall bad hmem
        exact absurd (of_decide_eq_true hshort) (Nat.not_lt.mpr hlong)
      · refine foldlM_ne_ok hbad ?_ _ _ hfold
        show dropCR bad ∈ ((splitLines data).takeWhile (·.length < replayBuffer)).map dropCR
        rw [hall]
        exact mem_map.mpr ⟨bad, hmem, rfl⟩

theorem scanLines_journalOf (h : ∀ e ∈ es, e.Written)
    (hshort : ∀ e ∈ es, (marshal e).length < replayBuffer) {last : Bytes} (hlast : IsLine replayBuffer last) :
    scanLines replayBuffer (journalOf es ++ last) = (es.map marshal ++ (if last = [] then [] else [last]), none) := by
  have hlines : ∀ l ∈ es.map marshal, IsLine replayBuffer l := by
    intro l hl
    obtain ⟨e, he, rfl⟩ := mem_map.mp hl
    exact isLine_of_printable (printable_marshal (h e he).valid) (hshort e he)
  rw [journalOf, scanLines_append (fun l hl => (hlines l hl).newline) (fun l hl => (hlines l hl).short),
    scanLines_line hlast, map_dropCR hlines]

/-- **Complete records are replayed one by one.** -/
theorem replay_journalOf (h : ∀ e ∈ es, e.Written)
    (hshort : ∀ e ∈ es, (marshal e).length < replayBuffer) : replay (journalOf es) = .ok (loaded es) := by
  have hnil : IsLine replayBuffer [] := ⟨by simp, by simp, by decide⟩
  have hscan := scanLines_journalOf h hshort hnil
  rw [append_nil] at hscan
  unfold replay
  simp [hscan, foldlM_replayLine h, loaded]

theorem replay_journalOf_marshal
    (h : ∀ x ∈ es ++ [e], x.Written) (hshort : ∀ x ∈ es ++ [e], (marshal x).length < replayBuffer) :
    replay (journalOf es ++ marshal e) = .ok (loaded (es ++ [e])) := by
  have hlast := isLine_of_printable (printable_marshal (h e (by simp)).valid) (hshort e (by simp))
  have hscan := scanLines_journalOf (fun x hx => h x (mem_append_left _ hx))
    (fun x hx => hshort x (mem_append_left _ hx)) hlast
  have hlines : es.map marshal ++ [marshal e] = (es ++ [e]).map marshal := by simp
  unfold replay
  simp only [hscan, if_neg (marshal_ne_nil e), hlines, foldlM_replayLine h]
  rfl

theorem not_mem_of_printable (h : ∀ c ∈ line, 0x20 ≤ c) : 10 ∉ line :=
  fun hmem => absurd (h 10 hmem) (by decide)

/-- **Behind complete records nothing but a short record is accepted.** -/
theorem replay_append_ne_ok (h : ∀ e ∈ es, e.Written)
    (hprint : ∀ c ∈ bad, 0x20 ≤ c) (hnil : bad ≠ []) (hbad : replayBuffer ≤ bad.length ∨ unmarshal bad = none)
    {tail : Bytes} (htail : tail = [] ∨ ∃ rest, tail = 10 :: rest) (s : MemoryStore) :
    replay (journalOf es ++ (bad ++ tail)) ≠ .ok s := by
  have hcr : dropCR bad = bad :=
    if_neg fun hlast => absurd (hprint 13 (mem_of_getLast? hlast)) (by decide)
  have hnl : ∀ l ∈ es.map marshal, 10 ∉ l := by
    intro l hl
    obtain ⟨e, he, rfl⟩ := mem_map.mp hl
    exact not_mem_of_printable (printable_marshal (h e he).valid)
  have hmem : bad ∈ splitLines (bad ++ tail) := by
    rcases htail with rfl | ⟨rest, rfl⟩
    · simp [splitLines, splitOn_eq_singleton (not_mem_of_printable hprint), hnil]
    · have hone : ∀ l ∈ [bad], 10 ∉ l := by
        intro l hl
        rw [mem_singleton.mp hl]
        exact not_mem_of_printable hprint
      have hsplit := splitLines_append hone rest
      rw [joinLines_singleton, append_assoc, singleton_append] at hsplit
      simp [hsplit]
  have hmem' : bad ∈ splitLines (journalOf es ++ (bad ++ tail)) := by
    rw [journalOf, splitLines_append hnl]
    exact mem_append_right _ hmem
  refine replay_ne_ok hmem' (hbad.imp_right fun hnone s s' => ?_) s
  rw [hcr, replayLine, if_neg hnil, hnone]
  simp

/-! ## Where the writing stopped -/

/-- The records a part of the journal holds whole, with or without the newline of the last one. -/
def complete : List TaskJournalEntry → Bytes → List TaskJournalEntry
  | [], _ => []
  | e :: es, p => if marshal e <+: p then e :: complete es (p.drop ((marshal e).length + 1)) else []

theorem complete_nil (es : List TaskJournalEntry) : complete es [] = [] := by
  cases es with
  | nil => rfl
  | cons e es => exact if_neg fun h => marshal_ne_nil e (prefix_nil.mp h)

theorem journalOf_cons (e : TaskJournalEntry) (es : List TaskJournalEntry) :
    journalOf (e :: es) = marshal e ++ 10 :: journalOf es := by
  simp [journalOf, joinLines]

theorem journalOf_append (es more : List TaskJournalEntry) :
    journalOf (es ++ more) = journalOf es ++ journalOf more := by
  rw [journalOf, map_append, joinLines_append]
  rfl

theorem complete_subset (es : List TaskJournalEntry) (p : Bytes) : complete es p ⊆ es := by
  induction es generalizing p with
  | nil => exact List.Subset.refl _
  | cons e es ih =>
    unfold complete
    split
    · exact cons_subset_cons e (ih _)
    · exact nil_subset _

/-- Where the writing of records stopped: behind a newline, behind a record, or within one. -/
inductive Stopped (es : List TaskJournalEntry) (p : Bytes) : Prop where
  | newline (h : p = journalOf (complete es p))
  | record (c : List TaskJournalEntry) (e : TaskJournalEntry) (hc : complete es p = c ++ [e])
      (h : p = journalOf c ++ marshal e)
  | within (e : TaskJournalEntry) (he : e ∈ es) (t : Bytes) (h : p = journalOf (complete es p) ++ t) (hnil : t ≠ [])
      (hcut : t <+: marshal e) (hne : t ≠ marshal e)

theorem stopped (hp : p <+: journalOf es) : Stopped es p := by
  induction es generalizing p with
  | nil => exact .newline (prefix_nil.mp hp)
  | cons e es ih =>
    rw [journalOf_cons] at hp
    rcases cut_append hp with ⟨hcut, hne⟩ | ⟨q, rfl, hq⟩
    · have hnone : complete (e :: es) p = [] := if_neg fun h => hne (hcut.eq_of_length_le h.length_le)
      by_cases hnil : p = []
      · refine .newline ?_
        rw [hnone, hnil]
        rfl
      · exact .within e mem_cons_self p (by rw [hnone]; rfl) hnil hcut hne
    · have hsome : complete (e :: es) (marshal e ++ q) = e :: complete es (q.drop 1) := by
        rw [complete, if_pos (prefix_append _ _), drop_append, drop_eq_nil_of_le (Nat.le_succ _)]
        simp
      cases q with
      | nil =>
        refine .record [] e ?_ (append_nil _)
        rw [hsome, drop_nil, complete_nil]
        rfl
      | cons b q =>
        obtain ⟨rfl, hrest⟩ := cons_prefix_cons.mp hq
        rw [drop_one, tail_cons] at hsome
        cases ih hrest with
        | newline h =>
          refine .newline ?_
          rw [hsome, journalOf_cons, ← h]
        | record c x hc h =>
          refine .record (e :: c) x (by rw [hsome, hc]; rfl) ?_
          nth_rewrite 1 [h]
          rw [journalOf_cons]
          simp
        | within x hx t h hnil hcut hne =>
          refine .within x (mem_cons_of_mem e hx) t ?_ hnil hcut hne
          nth_rewrite 1 [h]
          rw [hsome, journalOf_cons]
          simp

/-! ## The records of a run -/

theorem run_eq (ops : List (StoreOp × Option Err)) (s : PersistentStore) :
    (ops.foldl PersistentStore.apply s).journal = s.journal ++ journalOf (recordsOf s.inner ops) := by
  induction ops generalizing s with
  | nil => exact (append_nil _).symm
  | cons op ops ih =>
    obtain ⟨op, err⟩ := op
    rw [foldl_cons, ih, recordsOf, journalOf_append, ← append_assoc]
    unfold PersistentStore.apply
    cases hentry : op.entry s.inner with
    | none => cases err <;> simp [journalOf, joinLines]
    | some e => cases err <;> simp [journalOf, joinLines]

theorem version_entry {op : StoreOp} (h : op.entry s = some e) : e.version = currentJournalVersion := by
  cases op with
  | put m =>
    simp only [StoreOp.entry, ite_none_right_eq_some, some.injEq] at h
    rw [← h.2]
    rfl
  | update id fn =>
    simp only [StoreOp.entry] at h
    split at h
    · cases h
    · simp only [ite_none_right_eq_some, some.injEq] at h
      rw [← h.2]
      rfl
  | dismiss id =>
    simp only [StoreOp.entry, ite_none_right_eq_some, some.injEq] at h
    rw [← h.2]
    rfl

theorem version_recordsOf {ops : List (StoreOp × Option Err)}
    (h : e ∈ recordsOf s ops) : e.version = currentJournalVersion := by
  induction ops generalizing s with
  | nil => cases h
  | cons op ops ih =>
    rw [recordsOf, mem_append] at h
    rcases h with h | h
    · split at h
      · exact version_entry (mem_toList.mp h)
      · cases h
    · exact ih h

theorem newPersistentStore_eq_ok {s : PersistentStore} :
    newPersistentStore p = .ok s ↔ ∃ inner, replay p = .ok inner ∧ s = { inner := inner, journal := p } := by
  unfold newPersistentStore
  cases replay p with
  | error err => simp [Except.map]
  | ok inner => simp [Except.map, eq_comm]

/-! ## Reading what is left -/

/-- A journal that was stopped opens with its complete records, and opens again with the records of the next run. -/
def Survives (es : List TaskJournalEntry) (p : Bytes) (ops : List (StoreOp × Option Err)) : Prop :=
  ∃ s, newPersistentStore p = .ok s ∧ Recovered s.inner (complete es p) ∧
    ∃ s', newPersistentStore (ops.foldl PersistentStore.apply s).journal = .ok s' ∧
      Recovered s'.inner (complete es p ++ recordsOf s.inner ops)

/-- Records that are read, the last one with or without its newline, are short. -/
theorem short_of_replay (h : ∀ e ∈ es, e.Written)
    (hp : journalOf es = p ∨ journalOf es = p ++ [10]) (hok : replay p = .ok s) :
    ∀ e ∈ es, (marshal e).length < replayBuffer := by
  intro e he
  by_contra hlong
  obtain ⟨c, rest, rfl⟩ := append_of_mem he
  have hc : ∀ x ∈ c, x.Written := fun x hx => h x (mem_append_left _ hx)
  rw [journalOf_append, journalOf_cons] at hp
  -- the record is followed by nothing or by its newline
  obtain ⟨tail, htail, hsplit⟩ : ∃ tail, (tail = [] ∨ ∃ rest, tail = 10 :: rest) ∧
      p = journalOf c ++ (marshal e ++ tail) := by
    rcases hp with hp | hp
    · exact ⟨_, .inr ⟨_, rfl⟩, hp.symm⟩
    · rcases eq_nil_or_concat (journalOf rest) with hrest | ⟨r, b, hrest⟩
      · refine ⟨[], .inl rfl, ?_⟩
        rw [hrest, ← append_assoc] at hp
        rw [append_nil]
        exact (append_cancel_right hp).symm
      · refine ⟨10 :: r, .inr ⟨r, rfl⟩, ?_⟩
        rw [hrest, concat_eq_append] at hp
        have hp' : (journalOf c ++ (marshal e ++ 10 :: r)) ++ [b] = p ++ [10] := by
          rw [← hp]
          simp
        exact (append_inj_left' hp' rfl).symm
  rw [hsplit] at hok
  exact replay_append_ne_ok hc (printable_marshal (h e he).valid) (marshal_ne_nil e)
    (.inl (Nat.not_lt.mp hlong)) htail s hok

theorem unmarshal_marshal_append (h : e.Valid) (x : TaskJournalEntry) : unmarshal (marshal e ++ marshal x) = none := by
  obtain ⟨t, ht⟩ := marshal_eq_cons x
  refine unmarshal_append h ?_ ?_
  · intro d hd
    cases hd
    decide
  · rw [ht, skipSpace_cons (by decide)]
    simp

theorem replay_of_stopped {c : List TaskJournalEntry} (h : ∀ e ∈ c, e.Written)
    (hshort : ∀ e ∈ c, (marshal e).length < replayBuffer)
    (hp : p = journalOf c ∨ p ++ [10] = journalOf c) : replay p = .ok (loaded c) := by
  rcases hp with rfl | hp
  · exact replay_journalOf h hshort
  · rcases eq_nil_or_concat c with rfl | ⟨c, e, rfl⟩
    · simp [journalOf, joinLines] at hp
    · rw [concat_eq_append] at *
      rw [journalOf_append, journalOf_cons, ← append_assoc] at hp
      rw [append_cancel_right hp]
      exact replay_journalOf_marshal h hshort

section Stop

variable {es : List TaskJournalEntry} {p : Bytes} (later : List (StoreOp × Option Err))

/-- What has to be read when the journal is opened the second time. -/
theorem survives_of_short (hes : ∀ e ∈ es, e.Written)
    (hmore : ∀ e ∈ recordsOf (loaded (complete es p)) later, e.Written)
    (hshort : ∀ e ∈ complete es p ++ recordsOf (loaded (complete es p)) later, (marshal e).length < replayBuffer)
    (hend : p = journalOf (complete es p) ∨
      p ++ [10] = journalOf (complete es p) ∧ recordsOf (loaded (complete es p)) later = []) :
    Survives es p later := by
  have hwritten : ∀ e ∈ complete es p ++ recordsOf (loaded (complete es p)) later, e.Written := fun e he =>
    (mem_append.mp he).elim (fun he => hes e (complete_subset es p he)) (hmore e)
  have hopen : replay p = .ok (loaded (complete es p)) :=
    replay_of_stopped (fun e he => hwritten e (mem_append_left _ he))
      (fun e he => hshort e (mem_append_left _ he)) (hend.imp_right And.left)
  have hagain : replay (p ++ journalOf (recordsOf (loaded (complete es p)) later)) =
      .ok (loaded (complete es p ++ recordsOf (loaded (complete es p)) later)) := by
    refine replay_of_stopped hwritten hshort ?_
    rw [journalOf_append]
    rcases hend with hend | ⟨hend, hnone⟩
    · rw [← hend]
      exact .inl rfl
    · rw [← hend, hnone]
      simp [journalOf, joinLines]
  refine ⟨_, newPersistentStore_eq_ok.mpr ⟨_, hopen, rfl⟩, recovered_loaded _, _,
    newPersistentStore_eq_ok.mpr ⟨_, ?_, rfl⟩, recovered_loaded _⟩
  rwa [run_eq]

theorem short_of_survives (hes : ∀ e ∈ es, e.Written)
    (hmore : ∀ e ∈ recordsOf (loaded (complete es p)) later, e.Written) (hp : p <+: journalOf es)
    (h : Survives es p later) :
    (∀ e ∈ complete es p ++ recordsOf (loaded (complete es p)) later, (marshal e).length < replayBuffer) ∧
      (p = journalOf (complete es p) ∨
        p ++ [10] = journalOf (complete es p) ∧ recordsOf (loaded (complete es p)) later = []) := by
  obtain ⟨s, hs, -, s', hs', -⟩ := h
  obtain ⟨inner, hopen, rfl⟩ := newPersistentStore_eq_ok.mp hs
  obtain ⟨inner', hagain, -⟩ := newPersistentStore_eq_ok.mp hs'
  rw [run_eq] at hagain
  have hc : ∀ e ∈ complete es p, e.Written := fun e he => hes e (complete_subset es p he)
  -- whatever was opened is what the complete records say
  have hinner : p = journalOf (complete es p) ∨ p ++ [10] = journalOf (complete es p) →
      (∀ e ∈ complete es p, (marshal e).length < replayBuffer) ∧ inner = loaded (complete es p) := by
    intro hend
    have hshort := short_of_replay hc (hend.imp Eq.symm Eq.symm) hopen
    exact ⟨hshort, Except.ok.inj (hopen.symm.trans (replay_of_stopped hc hshort hend))⟩
  cases stopped hp with
  | newline hend =>
    obtain ⟨-, rfl⟩ := hinner (.inl hend)
    refine ⟨?_, .inl hend⟩
    refine short_of_replay (fun e he => (mem_append.mp he).elim (hc e) (hmore e)) (.inl ?_) hagain
    rw [journalOf_append, ← hend]
  | record c e hce hend =>
    have hend' : p ++ [10] = journalOf (complete es p) := by
      rw [hce, journalOf_append, journalOf_cons, hend, append_assoc]
      rfl
    obtain ⟨hshort, rfl⟩ := hinner (.inr hend')
    -- the first record of the next run would share a line with the last one
    cases hnone : recordsOf (loaded (complete es p)) later with
    | nil => exact ⟨by rwa [append_nil], .inr ⟨hend', rfl⟩⟩
    | cons x more =>
      rw [hnone] at hmore
      have hx := (hmore x mem_cons_self).valid
      have he : e.Written := hc e (by simp [hce])
      have hline : (p ++ journalOf (x :: more)) =
          journalOf c ++ ((marshal e ++ marshal x) ++ 10 :: journalOf more) := by
        rw [hend, journalOf_cons]
        simp
      refine absurd hagain ?_
      rw [hnone, hline]
      refine replay_append_ne_ok (fun y hy => hc y (by simp [hce, hy])) ?_ ?_
        (.inr (unmarshal_marshal_append he.valid x)) (.inr ⟨_, rfl⟩) _
      · intro b hb
        exact (mem_append.mp hb).elim (printable_marshal he.valid b) (printable_marshal hx b)
      · simp [marshal_ne_nil]
  | within e he t hend hnil hcut hne =>
    have hprint : ∀ b ∈ t, 0x20 ≤ b := fun b hb => printable_marshal (hes e he).valid b (hcut.subset hb)
    refine absurd hopen ?_
    rw [hend, ← append_nil t]
    exact replay_append_ne_ok hc hprint hnil (.inr (unmarshal_cut (hes e he).valid hcut hne)) (.inl rfl) _

end Stop

/-- **The journal survives a stop** exactly if no record is too long and the writing stopped between two records, or
before the newline of the last one if nothing was written behind it. -/
theorem survives_iff (ops later : List (StoreOp × Option Err)) (p : Bytes)
    (hp : p <+: (ops.foldl PersistentStore.apply {}).journal)
    (hvalid : ∀ e ∈ recordsOf {} ops, e.Valid)
    (hlater : ∀ e ∈ recordsOf (loaded (complete (recordsOf {} ops) p)) later, e.Valid) :
    Survives (recordsOf {} ops) p later ↔
      (∀ e ∈ complete (recordsOf {} ops) p ++ recordsOf (loaded (complete (recordsOf {} ops) p)) later,
        (marshal e).length < replayBuffer) ∧
      (p = journalOf (complete (recordsOf {} ops) p) ∨
        p ++ [10] = journalOf (complete (recordsOf {} ops) p) ∧
          recordsOf (loaded (complete (recordsOf {} ops) p)) later = []) := by
  rw [run_eq] at hp
  have hes : ∀ e ∈ recordsOf {} ops, e.Written := fun e he => ⟨hvalid e he, version_recordsOf he⟩
  have hmore : ∀ e ∈ recordsOf (loaded (complete (recordsOf {} ops) p)) later, e.Written :=
    fun e he => ⟨hlater e he, version_recordsOf he⟩
  exact ⟨short_of_survives later hes hmore hp, fun h => survives_of_short later hes hmore h.1 h.2⟩

theorem complete_journalOf (es : List TaskJournalEntry) : complete es (journalOf es) = es := by
  induction es with
  | nil => rfl
  | cons e es ih =>
    rw [journalOf_cons, complete, if_pos (prefix_append _ _), drop_append,
      drop_eq_nil_of_le (Nat.le_succ _)]
    simp [ih]

def savedTask (id : Bytes) : ManagedTask := { task := { id := id, capabilities := { persistent := true } } }

/-! ### Parts of a record that hold nothing -/

theorem valid_noProgress : progressStruct.Valid 9998 {} :=
  ⟨_, rfl, trivial, trivial, trivial, trivial, trivial, trivial, trivial, trivial, trivial, trivial, trivial,
    trivial, trivial, rfl, rfl, trivial, trivial, trivial⟩

theorem valid_noError : errorStruct.pointer.Valid 9998 none := by
  intro e he
  cases he

theorem valid_noItems : trackingStruct.Valid 9998 [] := ⟨_, rfl, ⟨_, rfl, forall_mem_nil _⟩, trivial⟩

theorem fits_noDetail : (Json.obj (∅ : StringMap Json).entries).Fits (9997 + 1) :=
  .obj (forall_mem_nil _) (forall_mem_nil _)

theorem valid_savedTask {id : Bytes} (h : validString id = true) (version : Fin (2 ^ 64)) :
    (updateEntry { (savedTask id).task with version := version } id).Valid := by
  have hcapabilities : capabilitiesStruct.Valid 9998 (savedTask id).task.capabilities :=
    ⟨_, rfl, trivial, trivial, trivial, trivial, ⟨_, rfl, forall_mem_nil _⟩, trivial⟩
  have htask : taskStruct.Valid 9999 { (savedTask id).task with version := version } :=
    ⟨_, rfl, h, rfl, rfl, rfl, rfl, rfl, rfl, rfl, rfl, trivial, trivial, trivial, trivial, trivial, trivial,
      trivial, trivial, trivial, rfl, rfl, trivial, valid_noProgress, hcapabilities, valid_noError, valid_noItems,
      fits_noDetail, trivial⟩
  exact ⟨_, rfl, trivial, rfl, htask, h, trivial⟩

/-- The stop comes behind the record of the task `a`; the next run saves the task `b`. -/
theorem survives_saved : Survives (recordsOf {} [(.put (savedTask (ascii "a")), none)])
    (journalOf (recordsOf {} [(.put (savedTask (ascii "a")), none)])) [(.put (savedTask (ascii "b")), none)] := by
  refine (survives_iff _ _ _ ?_ ?_ ?_).mpr ?_
  · exact prefix_refl _
  · intro e he
    rw [mem_singleton.mp he]
    exact valid_savedTask (by decide) 1
  · intro e he
    rw [mem_singleton.mp he]
    exact valid_savedTask (by decide) _
  · rw [complete_journalOf]
    exact ⟨by decide +kernel, .inl rfl⟩

/-- The stop comes within the record of the task `b`, and the task `a` is lost with it. -/
theorem lost_by_torn_record : ∃ p,
    p <+: ([(StoreOp.put (savedTask (ascii "a")), none), (.put (savedTask (ascii "b")), none)].foldl
      PersistentStore.apply {}).journal ∧
    ascii "a" ∈ (complete (recordsOf {} [(.put (savedTask (ascii "a")), none),
      (.put (savedTask (ascii "b")), none)]) p).map (·.id) ∧
    ∀ s, newPersistentStore p ≠ .ok s := by
  have hentry : (updateEntry { (savedTask (ascii "a")).task with version := 1 } (ascii "a")).Written :=
    ⟨valid_savedTask (by decide) 1, rfl⟩
  refine ⟨journalOf [updateEntry { (savedTask (ascii "a")).task with version := 1 } (ascii "a")] ++ [123], ?_, ?_, ?_⟩
  · decide +kernel
  · decide +kernel
  · intro s hs
    obtain ⟨inner, hopen, -⟩ := newPersistentStore_eq_ok.mp hs
    have hes : ∀ e ∈ [updateEntry { (savedTask (ascii "a")).task with version := 1 } (ascii "a")], e.Written := by
      intro e he
      rwa [mem_singleton.mp he]
    have hbrace : ∀ c ∈ ([123] : Bytes), 0x20 ≤ c := by simp
    exact replay_append_ne_ok hes hbrace (by simp) (.inr rfl) (.inl rfl) inner hopen

end Tasks
