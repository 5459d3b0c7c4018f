import Qrypt.Task.Recovery
import Qrypt.Task.Runs

/-!
# Idempotency keys identify one task

A submission looks its key up and stores its task under the submission lock. Further keys are bound by
`UpdateTask`, which does not take the lock, and callers look them up before. Restarts load what the journal holds.

* `keys_identify` — each key identifies one task, if it is bound only while nobody else holds or submits it
-/

namespace Tasks

open Infra List Function Option

/-! ## Keys of a task -/

/-- The task holds the keys of the other one. -/
structure Covers (t' t : Task) : Prop where
  scope : t'.scope = t.scope
  keys : ∀ key fp, idempotencyKeyFingerprint t key = some fp → idempotencyKeyFingerprint t' key = some fp

theorem Covers.refl (t : Task) : Covers t t := ⟨rfl, fun _ _ h => h⟩

variable {t t' item : Task} {pos : Nat → At} {x : At} {m : Manager} {id : Bytes} {l : Call}

theorem Covers.trans {t'' : Task} (h : Covers t'' t') (h' : Covers t' t) : Covers t'' t :=
  ⟨h.scope.trans h'.scope, fun key fp hk => h.keys key fp (h'.keys key fp hk)⟩

theorem fingerprint_congr (hkey : t'.idempotencyKey = t.idempotencyKey)
    (hfp : t'.operationFingerprint = t.operationFingerprint) (hdetail : t'.detail = t.detail) (key : Bytes) :
    idempotencyKeyFingerprint t' key = idempotencyKeyFingerprint t key := by
  unfold idempotencyKeyFingerprint boundIdempotencyBindings
  rw [hkey, hfp, hdetail]

theorem SameTask.keys (h : SameTask t' t) (key : Bytes) :
    idempotencyKeyFingerprint t' key = idempotencyKeyFingerprint t key :=
  fingerprint_congr h.key h.fingerprint h.detail key

theorem SameTask.covers (h : SameTask t' t) : Covers t' t :=
  ⟨h.scope, fun key _ hk => (h.keys key).trans hk⟩

theorem Change.forGeneration_cases (generation : Fin (2 ^ 64)) (now : Time) (fn : Task → Task) (x : ManagedTask) :
    SameTask (forGeneration generation now fn x).task x.task ∨
      SameTask (forGeneration generation now fn x).task (fn x.task) := by
  unfold forGeneration
  split
  · exact .inl ⟨rfl, rfl, rfl, rfl, rfl, rfl⟩
  · exact .inr ((sameTask_tagPhase _).1.trans (sameTask_normalize (fn x.task) now).1)

theorem Change.apply_cases (change : Change) (now : Time) (ctxErr : Bool) (x : ManagedTask) :
    SameTask (change.apply now ctxErr x).task x.task ∨
      ∃ fn, change.fn? = some fn ∧ SameTask (change.apply now ctxErr x).task (fn x.task) := by
  cases change with
  | runner g fn => exact (forGeneration_cases g now fn x).imp_right fun h => ⟨fn, rfl, h⟩
  | caller fn => exact .inr ⟨fn, rfl, (sameTask_normalize (fn x.task) now).1⟩
  | _ => exact .inl (Change.sameTask_apply fun fn h => by cases h)

theorem sameTask_normalizeReplayedTask (t : Task) : SameTask (normalizeReplayedTask t) t := by
  refine ⟨id_normalizeReplayedTask t, ?_, ?_, ?_, ?_, ?_⟩
  all_goals
    unfold normalizeReplayedTask
    dsimp only
    split
    all_goals
      split_ifs
      all_goals rfl

/-! ## The submission lock -/

def At.locks : At → Bool
  | .locked | .checked _ | .stored _ | .spawning true _ => true
  | _ => false

/-- At most one thread holds the submission lock. -/
structure Exclusive (submitMu : Bool) (pos : Nat → At) : Prop where
  alone : ∀ i j, (pos i).locks = true → (pos j).locks = true → i = j
  held : ∀ i, (pos i).locks = true → submitMu = true

theorem update_eq {α : Type} {pos : Nat → α} {i j : Nat} {x y : α} (h : update pos i x j = y) :
    j = i ∧ x = y ∨ j ≠ i ∧ pos j = y := by
  by_cases hj : j = i
  · subst hj
    rw [update_self] at h
    exact .inl ⟨rfl, h⟩
  · rw [update_of_ne hj] at h
    exact .inr ⟨hj, h⟩

theorem Exclusive.move {mu mu' : Bool} {i : Nat} (h : Exclusive mu pos)
    (hx : x.locks = true → mu' = true ∧ ((pos i).locks = true ∨ mu = false))
    (hmu : mu' = true ∨ mu' = mu ∨ (pos i).locks = true) : Exclusive mu' (update pos i x) := by
  -- whoever else holds the lock held it before, so the thread did not
  have hother : ∀ j, j ≠ i → (pos j).locks = true → mu = true ∧ (pos i).locks = false := by
    intro j hji hj
    refine ⟨h.held j hj, ?_⟩
    cases hi : (pos i).locks with
    | false => rfl
    | true => exact absurd (h.alone j i hj hi) hji
  have hnot : ∀ j, j ≠ i → (pos j).locks = true → x.locks = true → False := by
    intro j hji hj hxl
    obtain ⟨hmu, hi⟩ := hother j hji hj
    rcases (hx hxl).2 with hlock | hfree
    · simp [hi] at hlock
    · simp [hmu] at hfree
  refine ⟨fun j k hj hk => ?_, fun j hj => ?_⟩
  · rw [update_apply] at hj hk
    split_ifs at hj hk with hji hki hki
    · exact hji.trans hki.symm
    · exact (hnot k hki hk hj).elim
    · exact (hnot j hji hj hk).elim
    · exact h.alone j k hj hk
  · rw [update_apply] at hj
    split_ifs at hj with hji
    · exact (hx hj).1
    · obtain ⟨hheld, hi⟩ := hother j hji hj
      rcases hmu with hmu | hmu | hmu
      · exact hmu
      · exact hmu.trans hheld
      · simp [hi] at hmu

/-! ## The invariant -/

/-- No task holds the key of the item. -/
def Vacant (m : Manager) (item : Task) : Prop :=
  ∀ id x, m.tasks.lookup id = some x → x.task.scope = item.scope →
    idempotencyKeyFingerprint x.task item.idempotencyKey = none

/-- Each key of a scope is held by one task. -/
def KeysUnique (m : Manager) : Prop :=
  ∀ id id' x x' key, m.tasks.lookup id = some x → m.tasks.lookup id' = some x' → x.task.scope = x'.task.scope →
    (idempotencyKeyFingerprint x.task key).isSome → (idempotencyKeyFingerprint x'.task key).isSome → id = id'

/-- A task is stored whose keys no other task of its scope holds. -/
theorem KeysUnique.insert {m' : Manager} (h : KeysUnique m) {y : ManagedTask}
    (htasks : ∀ id', m'.tasks.lookup id' = if id' = id then some y else m.tasks.lookup id')
    (hothers : ∀ key id' z, (idempotencyKeyFingerprint y.task key).isSome → id' ≠ id → m.tasks.lookup id' = some z →
      z.task.scope = y.task.scope → idempotencyKeyFingerprint z.task key = none) : KeysUnique m' := by
  have hsome : ∀ {t key}, (idempotencyKeyFingerprint t key).isSome → idempotencyKeyFingerprint t key ≠ none :=
    fun h hnone => by simp [hnone] at h
  intro id₁ id₂ x₁ x₂ key hx₁ hx₂ hscope hkey₁ hkey₂
  rw [htasks] at hx₁ hx₂
  split at hx₁
  all_goals split at hx₂
  · next h₁ h₂ => exact h₁.trans h₂.symm
  · next h₁ h₂ =>
    cases hx₁
    exact absurd (hothers key id₂ x₂ hkey₁ h₂ hx₂ hscope.symm) (hsome hkey₂)
  · next h₁ h₂ =>
    cases hx₂
    exact absurd (hothers key id₁ x₁ hkey₂ h₁ hx₁ hscope) (hsome hkey₁)
  · exact h id₁ id₂ x₁ x₂ key hx₁ hx₂ hscope hkey₁ hkey₂

/-- The task is still there, with its keys. -/
def Kept (m : Manager) (t : Task) : Prop := ∃ x, m.tasks.lookup t.id = some x ∧ Covers x.task t

/-- Each key of a scope is held by one task in memory, and the last records are of tasks in memory or of tasks whose
removal is still to be written. -/
structure KeysApart (m : Manager) (pos : Nat → At) : Prop where
  named : ∀ id x, m.tasks.lookup id = some x → x.task.id = id
  unique : ∀ id id' x x' key, m.tasks.lookup id = some x → m.tasks.lookup id' = some x' →
    x.task.scope = x'.task.scope → (idempotencyKeyFingerprint x.task key).isSome →
    (idempotencyKeyFingerprint x'.task key).isSome → id = id'
  vacant : ∀ i item, pos i = .checked item → Vacant m item
  stored : ∀ i t, pos i = .stored t → Kept m t
  journal : ∃ es, m.store.journal = journalOf es ∧ (∀ e ∈ es, e.Written) ∧
    ∀ id t, lastRecord es id = some t → t.id = id ∧ Kept m t ∨ ∃ i, pos i = .dismissed id

namespace KeysApart

variable {m m' : Manager} {pos : Nat → At} {i : Nat} {x : At}

/-- A place that asks for no more than the old one. -/
structure Quiet (m : Manager) (x' x : At) : Prop where
  checked : ∀ item, x' = .checked item → x = .checked item ∨ Vacant m item
  stored : ∀ t, x' = .stored t → x = .stored t ∨ Kept m t
  dismissed : ∀ id, x = .dismissed id → x' = .dismissed id

theorem move (h : KeysApart m pos) (hx : Quiet m x (pos i)) : KeysApart m (update pos i x) := by
  refine ⟨h.named, h.unique, fun j item hj => ?_, fun j t hj => ?_, ?_⟩
  · rcases update_eq hj with ⟨-, heq⟩ | ⟨-, heq⟩
    · exact (hx.checked item heq).elim (h.vacant i item) fun hv => hv
    · exact h.vacant j item heq
  · rcases update_eq hj with ⟨-, heq⟩ | ⟨-, heq⟩
    · exact (hx.stored t heq).elim (h.stored i t) fun hk => hk
    · exact h.stored j t heq
  · obtain ⟨es, hjournal, hwritten, hlast⟩ := h.journal
    refine ⟨es, hjournal, hwritten, fun id t ht => (hlast id t ht).imp_right ?_⟩
    rintro ⟨j, hj⟩
    refine ⟨j, ?_⟩
    by_cases hji : j = i
    · subst hji
      exact (update_self ..).trans (hx.dismissed id hj)
    · exact (update_of_ne hji ..).trans hj

theorem same (h : KeysApart m pos) (htasks : ∀ id, m'.tasks.lookup id = m.tasks.lookup id)
    (hjournal : m'.store.journal = m.store.journal) : KeysApart m' pos := by
  have hkept : ∀ t, Kept m t → Kept m' t := by
    rintro t ⟨x, hx, hcovers⟩
    exact ⟨x, (htasks _).trans hx, hcovers⟩
  have hback : ∀ {id x}, m'.tasks.lookup id = some x → m.tasks.lookup id = some x :=
    fun hx => (htasks _).symm.trans hx
  refine ⟨fun id x hx => h.named id x (hback hx), fun id id' x x' key hx hx' => ?_, fun j item hj id x hx => ?_,
    fun j t hj => hkept t (h.stored j t hj), ?_⟩
  · exact h.unique id id' x x' key (hback hx) (hback hx')
  · exact h.vacant j item hj id x (hback hx)
  · obtain ⟨es, hes, hwritten, hlast⟩ := h.journal
    exact ⟨es, hjournal.trans hes, hwritten, fun id t ht => (hlast id t ht).imp_left fun hk => ⟨hk.1, hkept t hk.2⟩⟩

theorem record (h : KeysApart m pos) {t : Task} {id : Bytes} (hvalid : (updateEntry t id).Valid) (hkept : Kept m t)
    (htasks : ∀ id, m'.tasks.lookup id = m.tasks.lookup id)
    (hjournal : m'.store.journal = m.store.journal ++ journalOf [updateEntry t id]) : KeysApart m' pos := by
  obtain ⟨es, hes, hwritten, hlast⟩ := h.journal
  have hsame : KeysApart { m with store := { m.store with journal := m'.store.journal } } pos := by
    refine ⟨h.named, h.unique, h.vacant, h.stored, es ++ [updateEntry t id], ?_, ?_, fun id' t' ht' => ?_⟩
    · rw [hjournal, hes, journalOf_append]
    · exact forall_mem_append.mpr ⟨hwritten, forall_mem_singleton.mpr ⟨hvalid, rfl⟩⟩
    · rw [lastRecord_concat] at ht'
      by_cases htells : t.id = id' ∧ id' ≠ [] ∧ t.capabilities.persistent
      · rw [show (updateEntry t id).tells id' = some (some t) from if_pos htells] at ht'
        cases ht'
        exact .inl ⟨htells.1, hkept⟩
      · rw [show (updateEntry t id).tells id' = none from if_neg htells] at ht'
        exact hlast id' t' ht'
  exact hsame.same htasks rfl

/-- A task is stored, new or in place of one whose keys it keeps. -/
theorem insert (h : KeysApart m pos) {id : Bytes} {y : ManagedTask}
    (htasks : ∀ id', m'.tasks.lookup id' = if id' = id then some y else m.tasks.lookup id')
    (hjournal : m'.store.journal = m.store.journal) (hid : y.task.id = id)
    (hold : ∀ x, m.tasks.lookup id = some x → Covers y.task x.task)
    (hothers : ∀ key id' z, (idempotencyKeyFingerprint y.task key).isSome → id' ≠ id → m.tasks.lookup id' = some z →
      z.task.scope = y.task.scope → idempotencyKeyFingerprint z.task key = none)
    (hchecked : ∀ j item, pos j = .checked item → y.task.scope = item.scope →
      idempotencyKeyFingerprint y.task item.idempotencyKey = none) : KeysApart m' pos := by
  have hkept : ∀ t, Kept m t → Kept m' t := by
    rintro t ⟨x, hx, hcovers⟩
    by_cases ht : t.id = id
    · exact ⟨y, (htasks _).trans (if_pos ht), (hold x (ht ▸ hx)).trans hcovers⟩
    · exact ⟨x, ((htasks _).trans (if_neg ht)).trans hx, hcovers⟩
  refine ⟨fun id' x hx => ?_, KeysUnique.insert h.unique htasks hothers, fun j item hj id' x hx hscope => ?_,
    fun j t hj => hkept t (h.stored j t hj), ?_⟩
  · rw [htasks] at hx
    split at hx
    · next heq =>
      cases hx
      exact hid.trans heq.symm
    · exact h.named id' x hx
  · rw [htasks] at hx
    split at hx
    · cases hx
      exact hchecked j item hj hscope
    · exact h.vacant j item hj id' x hx hscope
  · obtain ⟨es, hes, hwritten, hlast⟩ := h.journal
    exact ⟨es, hjournal.trans hes, hwritten, fun id t ht => (hlast id t ht).imp_left fun hk => ⟨hk.1, hkept t hk.2⟩⟩

end KeysApart

/-! ## What a binding may do -/

/-- The task keeps the keys of the stored one. Keys that it adds are held by no task of the scope and are not being
submitted. -/
structure Extends (m : Manager) (pos : Nat → At) (x : ManagedTask) (t : Task) : Prop where
  id : t.id = x.task.id
  covers : Covers t x.task
  unheld : ∀ key, (idempotencyKeyFingerprint t key).isSome → idempotencyKeyFingerprint x.task key = none →
    ∀ id' z, m.tasks.lookup id' = some z → z.task.scope = x.task.scope → idempotencyKeyFingerprint z.task key = none
  unsubmitted : ∀ key, (idempotencyKeyFingerprint t key).isSome → idempotencyKeyFingerprint x.task key = none →
    ∀ j item, pos j = .checked item → item.scope = x.task.scope → item.idempotencyKey ≠ key

theorem Extends.same {x : ManagedTask} (h : Extends m pos x t) (ht : SameTask t' t) : Extends m pos x t' where
  id := ht.id.trans h.id
  covers := ht.covers.trans h.covers
  unheld key hkey := h.unheld key (ht.keys key ▸ hkey)
  unsubmitted key hkey := h.unsubmitted key (ht.keys key ▸ hkey)

theorem extends_refl (m : Manager) (pos : Nat → At) (x : ManagedTask) : Extends m pos x x.task where
  id := rfl
  covers := .refl _
  unheld key hkey hnone := by simp [hnone] at hkey
  unsubmitted key hkey hnone := by simp [hnone] at hkey

/-- When keys stay apart: a submission brings a new id, and keys besides its own that nobody holds; an update extends
its task; a task is not removed before its submission has written it, and its removal is written; records can be read
back. -/
def KeysOrderly (_ : Nat) (l : Call) (e : Env) (s : Followed At Unit) : Prop :=
  match l with
  | .put y =>
    s.1.tasks.lookup y.task.id = none ∧
      ∀ key id z, (idempotencyKeyFingerprint y.task key).isSome → key ≠ y.task.idempotencyKey →
        s.1.tasks.lookup id = some z → z.task.scope = y.task.scope → idempotencyKeyFingerprint z.task key = none
  | .persist item => item.capabilities.persistent = true → (updateEntry item item.id).Valid
  | .update id change =>
    ∀ x, s.1.tasks.lookup id = some x → (updateEntry (change.apply e.now (s.1.changeErr change) x).task id).Valid ∧
        ∀ fn, change.fn? = some fn → Extends s.1 s.2.1 x (fn x.task)
  | .dismiss id => ∀ j item, s.2.1 j = .stored item → item.id ≠ id
  | .recordDismiss id => e.err = none ∧ (dismissEntry id).Valid
  | _ => True

theorem journal_update (id : Bytes) (change : Change) (e : Env) (m : Manager) :
    ((Call.update id change).apply e m).store.journal = m.store.journal ∨
      ∃ x, m.tasks.lookup id = some x ∧ ((Call.update id change).apply e m).store.journal =
        m.store.journal ++ journalOf [updateEntry (change.apply e.now (m.changeErr change) x).task id] := by
  unfold Call.apply PersistentStore.apply
  dsimp only
  split
  · exact .inl rfl
  · next entry hentry herr =>
    simp only [StoreOp.entry] at hentry
    split at hentry
    · cases hentry
    · next x hx =>
      rw [ite_none_right_eq_some, some.injEq] at hentry
      exact .inr ⟨x, hx, by rw [hentry.2]⟩
  · exact .inl rfl

namespace KeysApart

variable {m m' : Manager} {pos : Nat → At} {i : Nat} {x : At} {id : Bytes}

theorem update (h : KeysApart m pos) {change : Change} {e : Env} (hcond : ∀ x, m.tasks.lookup id = some x →
      (updateEntry (change.apply e.now (m.changeErr change) x).task id).Valid ∧
        ∀ fn, change.fn? = some fn → Extends m pos x (fn x.task)) :
    KeysApart ((Call.update id change).apply e m) pos := by
  have htasks := tasks_update id change e m
  cases hx : m.tasks.lookup id with
  | none =>
    refine h.same (fun id' => ?_) ?_
    · rw [htasks]
      split
      · next heq =>
        rw [heq, hx]
        rfl
      · rfl
    · rcases journal_update id change e m with hsame | ⟨x, hx', -⟩
      · exact hsame
      · rw [hx] at hx'
        cases hx'
  | some x =>
    obtain ⟨hvalid, hfn⟩ := hcond x hx
    have hext : Extends m pos x (change.apply e.now (m.changeErr change) x).task := by
      rcases change.apply_cases e.now (m.changeErr change) x with hsame | ⟨fn, hchange, hsame⟩
      · exact (extends_refl m pos x).same hsame
      · exact (hfn fn hchange).same hsame
    obtain ⟨y, hy, hlookup⟩ : ∃ y : ManagedTask, SameTask y.task (change.apply e.now (m.changeErr change) x).task ∧
        ∀ id', ((Call.update id change).apply e m).tasks.lookup id' =
          if id' = id then some y else m.tasks.lookup id' := by
      rw [hx, map_some] at htasks
      refine ⟨_, ?_, htasks⟩
      exact ⟨rfl, rfl, rfl, rfl, rfl, rfl⟩
    have hext' := hext.same hy
    have hid : y.task.id = id := hext'.id.trans (h.named id x hx)
    -- the task in memory first, then its record
    have hmem : KeysApart { (Call.update id change).apply e m with
        store := { ((Call.update id change).apply e m).store with journal := m.store.journal } } pos := by
      refine h.insert hlookup rfl hid ?_ (fun key id' z hkey hne hz hscope => ?_) fun j item hj hscope => ?_
      · rintro x' hx'
        rw [hx] at hx'
        cases hx'
        exact hext'.covers
      · cases hkeyx : idempotencyKeyFingerprint x.task key with
        | none => exact hext'.unheld key hkey hkeyx id' z hz (hscope.trans hext'.covers.scope)
        | some fp =>
          by_contra hkeyz
          exact hne (h.unique id' id z x key hz hx (hscope.trans hext'.covers.scope) (isSome_iff_ne_none.mpr hkeyz)
            (by simp [hkeyx]))
      · have hscope' : x.task.scope = item.scope := hext'.covers.scope.symm.trans hscope
        by_contra hkey
        exact hext'.unsubmitted item.idempotencyKey (isSome_iff_ne_none.mpr hkey)
          (h.vacant j item hj id x hx hscope') j item hj hscope'.symm rfl
    rcases journal_update id change e m with hsame | ⟨x', hx', hgrown⟩
    · exact hmem.same (fun _ => rfl) hsame
    · rw [hx] at hx'
      cases hx'
      refine hmem.record hvalid ⟨y, ?_, hy.covers⟩ (fun _ => rfl) hgrown
      exact (hlookup _).trans (if_pos (hy.id.symm.trans hid))

theorem put (h : KeysApart m pos) (hlock : Exclusive m.submitMu pos) {item : Task} {y : ManagedTask}
    (hsubmits : Submits item y) (hi : pos i = .locked ∧ item.idempotencyKey = [] ∨ pos i = .checked item)
    (hnew : m.tasks.lookup y.task.id = none)
    (hothers : ∀ key id z, (idempotencyKeyFingerprint y.task key).isSome → key ≠ y.task.idempotencyKey →
      m.tasks.lookup id = some z → z.task.scope = y.task.scope → idempotencyKeyFingerprint z.task key = none) :
    KeysApart (m.withInner (m.store.inner.putManaged y))
      (Function.update pos i (.stored { y.task with version := m.store.inner.seq + 1 })) := by
  have hlookup : ∀ id', (m.withInner (m.store.inner.putManaged y)).tasks.lookup id' =
      if id' = y.task.id then some { y with task := { y.task with version := m.store.inner.seq + 1 } }
      else m.tasks.lookup id' := fun id' => lookup_insert_eq ..
  have hlocks : (pos i).locks = true := by
    rcases hi with ⟨hi, -⟩ | hi
    all_goals
      rw [hi]
      rfl
  -- the lock keeps other submissions from having looked anything up
  have hfree : KeysApart m (Function.update pos i .locked) := by
    refine h.move ⟨fun item h => ?_, fun t h => ?_, fun id h => ?_⟩
    · cases h
    · cases h
    · rw [h] at hlocks
      cases hlocks
  have hnone : ∀ j item', Function.update pos i .locked j ≠ .checked item' := by
    intro j item' hj
    rcases update_eq hj with ⟨-, heq⟩ | ⟨hji, heq⟩
    · cases heq
    · exact hji (hlock.alone j i (by rw [heq]; rfl) hlocks)
  have hmem := hfree.insert hlookup rfl rfl (fun x hx => ?_) (fun key id' z hkey hne hz hscope => ?_)
    fun j item' hj => (hnone j item' hj).elim
  · have hstored := hmem.move (i := i) (x := .stored { y.task with version := m.store.inner.seq + 1 })
      ⟨fun item h => ?_, fun t ht => ?_, fun id hid => ?_⟩
    · rwa [update_idem] at hstored
    · cases h
    · cases ht
      exact .inr ⟨_, (hlookup _).trans (if_pos rfl), .refl _⟩
    · simp at hid
  · simp [hnew] at hx
  · by_cases hprimary : key = y.task.idempotencyKey
    · rcases hi with ⟨-, hempty⟩ | hi
      · rw [hprimary, hsubmits.key, hempty] at hkey
        cases hkey
      · rw [hprimary, hsubmits.key]
        exact h.vacant i item hi id' z hz (hscope.trans hsubmits.scope)
    · exact hothers key id' z hkey hprimary hz hscope

theorem dismiss (h : KeysApart m pos) (hi : pos i = .free) (hcond : ∀ j item, pos j = .stored item → item.id ≠ id) :
    KeysApart (m.withInner (m.store.inner.dismissManaged id))
      (Function.update pos i (if (m.tasks.lookup id).isSome then .dismissed id else .free)) := by
  have hlookup : ∀ id', (m.withInner (m.store.inner.dismissManaged id)).tasks.lookup id' =
      if id' = id then none else m.tasks.lookup id' := fun id' => lookup_erase_eq ..
  have hback : ∀ {id' x}, (m.withInner (m.store.inner.dismissManaged id)).tasks.lookup id' = some x →
      m.tasks.lookup id' = some x := fun hx => (lookup_erase_some hx).2
  have hkept : ∀ t, t.id ≠ id → Kept m t → Kept (m.withInner (m.store.inner.dismissManaged id)) t := by
    rintro t ht ⟨x, hx, hcovers⟩
    exact ⟨x, ((hlookup _).trans (if_neg ht)).trans hx, hcovers⟩
  refine ⟨fun id' x hx => h.named id' x (hback hx), fun id₁ id₂ x₁ x₂ key hx₁ hx₂ => ?_, fun j item hj id' x hx => ?_,
    fun j t hj => ?_, ?_⟩
  · exact h.unique id₁ id₂ x₁ x₂ key (hback hx₁) (hback hx₂)
  · rcases update_eq hj with ⟨-, heq⟩ | ⟨-, heq⟩
    · split at heq
      all_goals cases heq
    · exact h.vacant j item heq id' x (hback hx)
  · rcases update_eq hj with ⟨-, heq⟩ | ⟨-, heq⟩
    · split at heq
      all_goals cases heq
    · exact hkept t (hcond j t heq) (h.stored j t heq)
  · obtain ⟨es, hes, hwritten, hlast⟩ := h.journal
    refine ⟨es, hes, hwritten, fun id' t ht => ?_⟩
    rcases hlast id' t ht with ⟨hid, hk⟩ | ⟨j, hj⟩
    · by_cases heq : t.id = id
      · obtain ⟨x, hx, -⟩ := hk
        rw [heq] at hx
        refine .inr ⟨i, ?_⟩
        simp [hx, ← hid, heq]
      · exact .inl ⟨hid, hkept t heq hk⟩
    · refine .inr ⟨j, (update_of_ne ?_ ..).trans hj⟩
      rintro rfl
      simp [hi] at hj

theorem lastRecord_nil (es : List TaskJournalEntry) : lastRecord es [] = none := by
  induction es using reverseRecOn with
  | nil => rfl
  | append_singleton es e ih =>
    have htells : e.tells [] = none := by
      unfold TaskJournalEntry.tells
      split
      all_goals simp
    rwa [lastRecord_concat, htells]

theorem recordDismiss (h : KeysApart m pos) (hi : pos i = .dismissed id) (hvalid : (dismissEntry id).Valid) :
    KeysApart (m.append (dismissEntry id) none) (Function.update pos i .free) := by
  refine ⟨h.named, h.unique, fun j item hj => ?_, fun j t hj => ?_, ?_⟩
  · rcases update_eq hj with ⟨-, heq⟩ | ⟨-, heq⟩
    · cases heq
    · exact h.vacant j item heq
  · rcases update_eq hj with ⟨-, heq⟩ | ⟨-, heq⟩
    · cases heq
    · exact h.stored j t heq
  · obtain ⟨es, hes, hwritten, hlast⟩ := h.journal
    refine ⟨es ++ [dismissEntry id], ?_, ?_, fun id' t ht => ?_⟩
    · rw [journalOf_append, ← hes]
      rfl
    · exact forall_mem_append.mpr ⟨hwritten, forall_mem_singleton.mpr ⟨hvalid, rfl⟩⟩
    · rw [lastRecord_concat] at ht
      by_cases htells : id = id' ∧ id' ≠ []
      · simp [show (dismissEntry id).tells id' = some none from if_pos htells] at ht
      · rw [show (dismissEntry id).tells id' = none from if_neg htells] at ht
        refine (hlast id' t ht).imp_right ?_
        rintro ⟨j, hj⟩
        refine ⟨j, (update_of_ne ?_ ..).trans hj⟩
        rintro rfl
        rw [hi] at hj
        obtain ⟨rfl⟩ : id = id' := by simpa using hj
        -- tasks without an id have no record
        have hnil : id = [] := by simpa using htells
        rw [hnil, getD_none, lastRecord_nil] at ht
        cases ht

end KeysApart

/-! ## Steps -/

theorem mem_listManaged {order : Order} {x : ManagedTask} :
    x ∈ m.listManaged order {} ↔ ∃ id, m.tasks.lookup id = some x := by
  have hmatches : (fun x : ManagedTask => Filter.matches {} x.task) = fun _ => true := by
    simp [Filter.matches]
  unfold Manager.listManaged
  rw [hmatches, List.filter_true, (order.perm _).mem_iff, List.mem_map]
  constructor
  · rintro ⟨⟨id, x'⟩, hmem, rfl⟩
    exact ⟨id, AList.mem_lookup_iff.mpr hmem⟩
  · rintro ⟨id, hx⟩
    exact ⟨⟨id, x⟩, AList.mem_lookup_iff.mp hx, rfl⟩

theorem vacant_of_find {order : Order} (h : findIdempotent (m.listManaged order {}) item = none) : Vacant m item := by
  intro id x hx hscope
  have hnone := findSome?_eq_none_iff.mp h x (mem_listManaged.mpr ⟨id, hx⟩)
  rw [if_neg (not_not.mpr hscope)] at hnone
  exact map_eq_none_iff.mp hnone

theorem submitMu_apply (hlock : l ≠ .lockSubmit) (hunlock : l ≠ .unlockSubmit) (e : Env) (m : Manager) :
    (l.apply e m).submitMu = m.submitMu := by
  cases l with
  | lockSubmit => exact absurd rfl hlock
  | unlockSubmit => exact absurd rfl hunlock
  | persist item =>
    simp only [Call.apply]
    split
    · cases e.err <;> rfl
    · rfl
  | recordDismiss id =>
    simp only [Call.apply]
    cases e.err <;> rfl
  | take k =>
    simp only [Call.apply]
    split <;> rfl
  | _ => rfl

/-- The thread has looked up a key, or still has to write a record. -/
def At.owes : At → Bool
  | .checked _ | .stored _ | .dismissed _ => true
  | _ => false

/-- An update is not made under the submission lock, nor before or after a record. -/
theorem move_update {change : Change} (hok : x.ok (.update id change)) (e : Env) (m : Manager) :
    x.owes = false ∧ (At.move (.update id change) e m x).owes = false ∧
      (At.move (.update id change) e m x).locks = false := by
  cases change with
  | start g ctx =>
    rw [show x = .read id g from hok]
    simp only [At.move]
    split
    all_goals exact ⟨rfl, rfl, rfl⟩
  | runner g fn =>
    rw [show x = .executing id g from hok]
    exact ⟨rfl, rfl, rfl⟩
  | recover f ctx =>
    rw [show x = .free from hok]
    simp only [At.move]
    split
    all_goals exact ⟨rfl, rfl, rfl⟩
  | _ =>
    rw [show x = .free from hok]
    exact ⟨rfl, rfl, rfl⟩

theorem locks_move (hlock : l ≠ .lockSubmit) (hok : x.ok l) {e : Env}
    (h : (At.move l e m x).locks = true) : x.locks = true := by
  cases l with
  | lockSubmit => exact absurd rfl hlock
  | unlockSubmit => cases h
  | find item =>
    rw [show x = .locked from hok]
    rfl
  | put y =>
    obtain ⟨item, -, ⟨rfl, -⟩ | rfl⟩ := hok
    all_goals rfl
  | persist item =>
    rw [show x = .stored item from hok]
    rfl
  | get id =>
    obtain rfl | rfl : x = .free ∨ x = .entered id := hok
    · exact h
    · simp only [At.move] at h
      split at h
      · split at h
        all_goals cases h
      · cases h
  | update id change =>
    rw [(move_update hok e m).2.2] at h
    cases h
  | dismiss id =>
    simp only [At.move] at h
    split at h
    all_goals cases h
  | recordDismiss id => cases h
  | spawn ctx id =>
    obtain ⟨held, rfl⟩ := hok
    cases held with
    | false => cases h
    | true => rfl
  | take k =>
    simp only [At.move] at h
    split at h
    · cases h
    · exact h
  | invoke id g f => cases h
  | returned id g => cases h
  | _ => exact h

theorem Exclusive.step (h : Exclusive m.submitMu pos) (i : Nat) (l : Call) (e : Env)
    (hok : (pos i).ok l) : Exclusive (l.apply e m).submitMu (update pos i (At.move l e m (pos i))) := by
  by_cases hlock : l = .lockSubmit
  · subst hlock
    refine h.move (fun hlocks => ⟨rfl, ?_⟩) (.inl rfl)
    cases hmu : m.submitMu with
    | false => exact .inr rfl
    | true =>
      rw [show At.move .lockSubmit e m (pos i) = pos i from by simp [At.move, hmu]] at hlocks
      exact .inl hlocks
  by_cases hunlock : l = .unlockSubmit
  · subst hunlock
    refine h.move (fun hlocks => by cases hlocks) (.inr (.inr ?_))
    rcases hok with hi | ⟨item, hi⟩
    all_goals
      rw [hi]
      rfl
  · refine h.move (fun hlocks => ?_) (.inr (.inl (submitMu_apply hlock hunlock e m)))
    have hi := locks_move hlock hok hlocks
    exact ⟨(submitMu_apply hlock hunlock e m).trans (h.held i hi), .inl hi⟩

theorem KeysApart.Quiet.of_not_owes {x' : At} (hx' : x'.owes = false)
    (hx : ∀ id, x ≠ .dismissed id) : KeysApart.Quiet m x' x where
  checked item h := by
    rw [h] at hx'
    cases hx'
  stored t h := by
    rw [h] at hx'
    cases hx'
  dismissed id h := absurd h (hx id)

theorem At.ne_dismissed (h : x.owes = false) (id : Bytes) : x ≠ .dismissed id := by
  rintro rfl
  cases h

theorem KeysApart.step (h : KeysApart m pos) (hlock : Exclusive m.submitMu pos) (i : Nat)
    (l : Call) (e : Env) (u : Unit) (hok : (pos i).ok l) (hcond : KeysOrderly i l e (m, pos, u)) :
    KeysApart (l.apply e m) (Function.update pos i (At.move l e m (pos i))) := by
  -- most threads neither wrote down what they looked up nor owe a record, before and after
  have hgo : ∀ {m' x}, KeysApart m' pos → x.owes = false → (pos i).owes = false →
      KeysApart m' (Function.update pos i x) :=
    fun h' hx hi => h'.move (.of_not_owes hx (At.ne_dismissed hi))
  cases l with
  | lockSubmit =>
    have hi : pos i = .free := hok
    rw [hi]
    refine hgo (h.same (fun _ => rfl) rfl) ?_ (by rw [hi]; rfl)
    simp only [At.move]
    split <;> rfl
  | unlockSubmit =>
    have hsame : KeysApart (Call.unlockSubmit.apply e m) pos := h.same (fun _ => rfl) rfl
    refine hsame.move (.of_not_owes rfl fun id hid => ?_)
    obtain hi | ⟨item, hi⟩ : pos i = .locked ∨ ∃ item, pos i = .checked item := hok
    all_goals
      simp [hi] at hid
  | find item =>
    have hi : pos i = .locked := hok
    rw [hi]
    simp only [Call.apply, At.move]
    cases hfind : findIdempotent (m.listManaged e.order {}) item with
    | some r => exact hgo h rfl (by rw [hi]; rfl)
    | none =>
      refine h.move ⟨fun item' hitem => ?_, fun t ht => ?_, fun id hid => ?_⟩
      · cases hitem
        exact .inr (vacant_of_find hfind)
      · cases ht
      · simp [hi] at hid
  | put y =>
    obtain ⟨item, hsubmits, hi⟩ := hok
    exact h.put hlock hsubmits hi hcond.1 hcond.2
  | persist item =>
    have hi : pos i = .stored item := hok
    have hmoved : KeysApart m (Function.update pos i (.spawning true item.id)) :=
      h.move (.of_not_owes rfl fun id hid => by rw [hi] at hid; cases hid)
    simp only [Call.apply, At.move]
    split
    · next hpersistent =>
      cases e.err with
      | none => exact hmoved.record (hcond hpersistent) (h.stored i item hi) (fun _ => rfl) rfl
      | some err => exact hmoved.same (fun _ => rfl) rfl
    · exact hmoved
  | get id =>
    obtain hi | hi : pos i = .free ∨ pos i = .entered id := hok
    · rw [hi]
      exact hgo h rfl (by rw [hi]; rfl)
    · rw [hi]
      refine hgo h ?_ (by rw [hi]; rfl)
      simp only [At.move]
      split
      · split <;> rfl
      · rfl
  | update id change =>
    obtain ⟨hi, hx, -⟩ := move_update hok e m
    exact hgo (h.update hcond) hx hi
  | dismiss id => exact h.dismiss hok hcond
  | recordDismiss id =>
    obtain ⟨herr, hvalid⟩ := hcond
    simp only [Call.apply, herr]
    exact h.recordDismiss hok hvalid
  | spawn ctx id =>
    obtain ⟨held, hi⟩ := hok
    rw [hi]
    refine hgo (h.same (fun _ => rfl) rfl) ?_ (by rw [hi]; rfl)
    cases held <;> rfl
  | take k =>
    have hi : pos i = .free := hok
    rw [hi]
    refine hgo ?_ ?_ (by rw [hi]; rfl)
    · simp only [Call.apply]
      split
      · exact h.same (fun _ => rfl) rfl
      · exact h
    · simp only [At.move]
      split <;> rfl
  | invoke id g f => exact hgo h rfl (by rw [show pos i = .granted id g from hok]; rfl)
  | returned id g => exact hgo h rfl (by rw [show pos i = .executing id g from hok]; rfl)
  | _ =>
    refine (?_ : KeysApart _ (Function.update pos i (pos i)))
    rw [Function.update_eq_self]
    exact h.same (fun _ => rfl) rfl

/-! ## Runs -/

/-- The keys are apart, and the submission lock is held at most once. -/
def Apart (s : Followed At Unit) : Prop := Exclusive s.1.submitMu s.2.1 ∧ KeysApart s.1 s.2.1

/-- **No orderly step lets two tasks hold a key.** -/
theorem Apart.step {s : Followed At Unit} (h : Apart s) (i : Nat) (l : Call) (e : Env) (hok : (s.2.1 i).ok l)
    (hcond : KeysOrderly i l e s) : Apart (order.noted (fun _ _ _ _ _ u => u) i l e s) :=
  ⟨h.1.step i l e hok, h.2.step h.1 i l e s.2.2 hok hcond⟩

theorem exclusive_free (mu : Bool) : Exclusive mu fun _ => .free := by
  refine ⟨fun i j hi => ?_, fun i hi => ?_⟩
  all_goals cases hi

theorem apart_empty : Apart ({}, fun _ => .free, ()) := by
  refine ⟨exclusive_free _, fun id x hx => ?_, fun id id' x x' key hx => ?_, fun i item hi => ?_, fun i t hi => ?_,
    [], rfl, fun e he => ?_, fun id t ht => ?_⟩
  · cases hx
  · cases hx
  · cases hi
  · cases hi
  · cases he
  · cases ht

/-- **A restart keeps the keys apart.** -/
theorem apart_restart (h : KeysApart m pos) (hpos : ∀ i id, pos i ≠ .dismissed id)
    {s : PersistentStore} (hopen : newPersistentStore m.store.journal = .ok s) :
    Apart ({ store := s }, fun _ => .free, ()) := by
  obtain ⟨es, hes, hwritten, hlast⟩ := h.journal
  obtain ⟨inner, hreplay, rfl⟩ := newPersistentStore_eq_ok.mp hopen
  -- what was loaded is what the last records say
  have hinner : inner = loaded es := by
    have hshort := short_of_replay hwritten (.inl hes.symm) hreplay
    rw [hes, replay_journalOf hwritten hshort] at hreplay
    exact (Except.ok.inj hreplay).symm
  have hrecovered : Recovered inner es := hinner ▸ recovered_loaded es
  have hkept : ∀ id t, lastRecord es id = some t → t.id = id ∧ Kept m t :=
    fun id t ht => (hlast id t ht).resolve_right fun ⟨i, hi⟩ => hpos i id hi
  have hback : ∀ {id x}, inner.tasks.lookup id = some x →
      ∃ y, m.tasks.lookup id = some y ∧ x.task.id = id ∧ Covers y.task x.task := by
    intro id x hx
    have hx' := hrecovered id
    rw [hx, map_some, eq_comm, map_eq_some_iff] at hx'
    obtain ⟨t, ht, heq⟩ := hx'
    obtain ⟨hid, y, hy, hcovers⟩ := hkept id t ht
    have hsame := sameTask_normalizeReplayedTask t
    rw [heq] at hsame
    refine ⟨y, hid ▸ hy, hsame.id.trans hid, hcovers.scope.trans hsame.scope.symm, fun key fp hkey => ?_⟩
    exact hcovers.keys key fp ((hsame.keys key).symm.trans hkey)
  refine ⟨exclusive_free _, fun id x hx => (hback hx).choose_spec.2.1, fun id id' x x' key hx hx' hscope hkey hkey' => ?_,
    fun i item hi => ?_, fun i t hi => ?_, es, hes, hwritten, fun id t ht => ?_⟩
  · obtain ⟨y, hy, -, hcovers⟩ := hback hx
    obtain ⟨y', hy', -, hcovers'⟩ := hback hx'
    obtain ⟨fp, hfp⟩ := isSome_iff_exists.mp hkey
    obtain ⟨fp', hfp'⟩ := isSome_iff_exists.mp hkey'
    refine h.unique id id' y y' key hy hy' ?_ ?_ ?_
    · rw [hcovers.scope, hcovers'.scope, hscope]
    · simp [hcovers.keys key fp hfp]
    · simp [hcovers'.keys key fp' hfp']
  · cases hi
  · cases hi
  · obtain ⟨hid, -⟩ := hkept id t ht
    have hx := hrecovered id
    rw [ht, map_some, map_eq_some_iff] at hx
    obtain ⟨x, hx, heq⟩ := hx
    refine .inl ⟨hid, x, hid ▸ hx, ?_⟩
    rw [heq]
    exact (sameTask_normalizeReplayedTask t).covers

/-- Runs of a manager, of the one opened with its journal, and so on. No removal is under way when the process ends. -/
inductive Lives : Pool Call Env (Followed At Unit) Job Unit → Prop where
  | start {p} (h : RunsFrom {} KeysOrderly p) : Lives p
  | restart {p q} (hp : Lives p) (hdone : ∀ i id, p.shared.2.1 i ≠ .dismissed id) {s : PersistentStore}
      (hopen : newPersistentStore p.shared.1.store.journal = .ok s) (h : RunsFrom { store := s } KeysOrderly q) : Lives q

theorem Lives.apart {p : Pool Call Env (Followed At Unit) Job Unit} (h : Lives p) : Apart p.shared := by
  induction h with
  | start h => exact runsFrom_keep Apart apart_empty (fun i l e s hs => hs.step i l e) h
  | restart _ hdone hopen h ih =>
    exact runsFrom_keep Apart (apart_restart ih.2 hdone hopen) (fun i l e s hs => hs.step i l e) h

/-! ## What a key stands for -/

/-- Each key of a scope is held by one task with one fingerprint, and a submission of it answers with the task or the
conflict and changes nothing. -/
structure Identifies (m : Manager) : Prop where
  unique : ∀ id id' x x' key fp fp', m.tasks.lookup id = some x → m.tasks.lookup id' = some x' →
    x.task.scope = x'.task.scope → idempotencyKeyFingerprint x.task key = some fp →
    idempotencyKeyFingerprint x'.task key = some fp' → id = id' ∧ fp = fp'
  answer : ∀ id x item f fp env, m.tasks.lookup id = some x → x.task.scope = item.scope →
    idempotencyKeyFingerprint x.task item.idempotencyKey = some fp → m.submitMu = false →
    ((submitIdempotent none item (some f)).exec env 0 m).map (fun r => (r.result, r.state)) =
      some (if fp = item.operationFingerprint then .ok x.task else .error (.conflict item.idempotencyKey), m)

/-- The lookup of a key that is held, in whatever order the tasks are listed. -/
theorem findIdempotent_held (h : KeysUnique m) {x : ManagedTask}
    {fp : Bytes} (hx : m.tasks.lookup id = some x) (hscope : x.task.scope = item.scope)
    (hkey : idempotencyKeyFingerprint x.task item.idempotencyKey = some fp) (order : Order) :
    findIdempotent (m.listManaged order {}) item =
      some (if fp = item.operationFingerprint then .ok x.task else .error (.conflict item.idempotencyKey)) := by
  have hhit : (findIdempotent (m.listManaged order {}) item).isSome = true := by
    refine findSome?_isSome_iff.mpr ⟨x, mem_listManaged.mpr ⟨id, hx⟩, ?_⟩
    rw [if_neg (not_not.mpr hscope), hkey]
    rfl
  obtain ⟨r, hr⟩ := isSome_iff_exists.mp hhit
  obtain ⟨x', hmem, hx'⟩ := exists_of_findSome?_eq_some hr
  obtain ⟨id', hlookup⟩ := mem_listManaged.mp hmem
  -- whichever task is found first is the one that holds the key
  rw [ite_none_left_eq_some, not_not] at hx'
  obtain ⟨hscope', hfound⟩ := hx'
  obtain ⟨fp', hkey', -⟩ := map_eq_some_iff.mp hfound
  obtain rfl : id' = id := by
    refine h id' id x' x item.idempotencyKey hlookup hx (hscope'.trans hscope.symm) ?_ ?_
    · rw [hkey']
      rfl
    · rw [hkey]
      rfl
  rw [hx] at hlookup
  cases hlookup
  rw [hkey] at hfound
  exact hr.trans hfound.symm

theorem exec_perform_bind {α β : Type} (hready : l.ready m = true) (result : Env → Manager → α)
    (k : α → ManagerProg β) (env : Nat → Env) (n : Nat) :
    ((perform l result >>= k).exec env n m).map (fun r => (r.result, r.state)) =
      ((k (result (env n) m)).exec env (n + 1) (l.apply (env n) m)).map fun r => (r.result, r.state) := by
  show (if l.ready m then _ else none : Option _).map _ = _
  rw [if_pos hready, Option.map_map]
  rfl

theorem KeysUnique.identifies (h : KeysUnique m) : Identifies m where
  unique id id' x x' key fp fp' hx hx' hscope hkey hkey' := by
    obtain rfl : id = id' := by
      refine h id id' x x' key hx hx' hscope ?_ ?_
      · rw [hkey]
        rfl
      · rw [hkey']
        rfl
    rw [hx] at hx'
    cases hx'
    rw [hkey] at hkey'
    exact ⟨rfl, some.inj hkey'⟩
  answer id x item f fp env hx hscope hkey hfree := by
    have hne : item.submitted.idempotencyKey ≠ [] := by
      intro hnil
      rw [show item.idempotencyKey = [] from hnil] at hkey
      cases hkey
    have hscope' : x.task.scope = item.submitted.scope := hscope
    have hfind : findIdempotent (Manager.listManaged { m with submitMu := true } (env 1).order {}) item.submitted =
        some (if fp = item.operationFingerprint then .ok x.task else .error (.conflict item.idempotencyKey)) :=
      findIdempotent_held h hx hscope' hkey (env 1).order
    have hready : Call.lockSubmit.ready m = true := by simp [Call.ready, hfree]
    unfold submitIdempotent run lookupKey
    dsimp only
    rw [if_neg hne, exec_perform_bind hready, exec_perform_bind rfl]
    dsimp only [Call.apply]
    rw [hfind]
    show some (_, { m with submitMu := false }) = _
    rw [← hfree]

/-- **A key identifies one task**, across all runs and restarts whose steps are orderly. -/
theorem keys_identify {p : Pool Call Env (Followed At Unit) Job Unit} (h : Lives p) : Identifies p.shared.1 :=
  KeysUnique.identifies h.apart.2.unique

/-! ### A submission and a restart -/

def Call.unguarded : Call → Bool
  | .put _ | .persist _ | .update _ _ | .dismiss _ | .recordDismiss _ => false
  | _ => true

theorem keysOrderly_of_unguarded (i : Nat) (l : Call) (e : Env) (s : Followed At Unit) (h : l.unguarded = true) :
    KeysOrderly i l e s := by
  cases l
  case put | persist | update | dismiss | recordDismiss => cases h
  all_goals trivial

def keyedTask (id key : Bytes) : Task :=
  { id := id, idempotencyKey := key, operationFingerprint := [102], capabilities := { persistent := true } }

def keyedStored : Task := { (keyedTask [97] [107]).submitted.created .zero with version := 1 }

theorem valid_keyedStored : (updateEntry keyedStored keyedStored.id).Valid := by
  have hcapabilities : capabilitiesStruct.Valid 9998 keyedStored.capabilities :=
    ⟨_, rfl, trivial, trivial, trivial, trivial, ⟨_, rfl, forall_mem_singleton.mpr rfl⟩, trivial⟩
  have htask : taskStruct.Valid 9999 keyedStored :=
    ⟨_, rfl, rfl, rfl, rfl, rfl, rfl, rfl, rfl, rfl, rfl, trivial, trivial, trivial, trivial, trivial, trivial,
      trivial, trivial, trivial, rfl, rfl, trivial, valid_noProgress, hcapabilities, valid_noError, valid_noItems,
      fits_noDetail, trivial⟩
  exact ⟨_, rfl, trivial, rfl, htask, rfl, trivial⟩

def keyedSubmission : List (Event Env Job) := .start 0 (.submit none (keyedTask [97] [107]) (some 0)) :: steps 0 3 {}

def beforeKeyed : Pool Call Env (Followed At Unit) Job Unit :=
  ((Protocol.begun {} .free ()).run thread Call.unguarded keyedSubmission).getD (Protocol.begun {} .free ())

def keyedPut : Pool Call Env (Followed At Unit) Job Unit := (beforeKeyed.next thread (.step 0 {})).getD beforeKeyed

def keyedWritten : Pool Call Env (Followed At Unit) Job Unit := (keyedPut.next thread (.step 0 {})).getD keyedPut

theorem runsFrom_keyedWritten : RunsFrom {} KeysOrderly keyedWritten := by
  have hbefore : RunsFrom {} KeysOrderly beforeKeyed := Pool.reaches_run keysOrderly_of_unguarded keyedSubmission rfl
  have hput : RunsFrom {} KeysOrderly keyedPut := by
    refine Pool.reaches_step hbefore 0 {}
      (.put { task := (keyedTask [97] [107]).submitted.created .zero, run := some 0, cancel := some 0 }) rfl rfl
      ⟨rfl, fun key id z _ _ hz => ?_⟩
    cases hz
  exact Pool.reaches_step hput 0 {} (.persist keyedStored) rfl rfl fun _ => valid_keyedStored

theorem keys_identify_restarted : ∃ p, Lives p ∧
    ((p.shared.1.tasks.lookup [97]).map fun x => idempotencyKeyFingerprint x.task [107]) = some (some [102]) ∧
    Identifies p.shared.1 := by
  have hwritten : ∀ e ∈ [updateEntry keyedStored keyedStored.id], e.Written := by
    exact forall_mem_singleton.mpr ⟨valid_keyedStored, rfl⟩
  have hshort : ∀ e ∈ [updateEntry keyedStored keyedStored.id], (marshal e).length < replayBuffer := by
    exact forall_mem_singleton.mpr (by decide +kernel)
  have hdone : ∀ i id, keyedWritten.shared.2.1 i ≠ .dismissed id := by
    rintro (_ | i) id h
    all_goals cases h
  have hopen : newPersistentStore keyedWritten.shared.1.store.journal = .ok _ :=
    newPersistentStore_eq_ok.mpr ⟨_, replay_journalOf hwritten hshort, rfl⟩
  have hlives := (Lives.start runsFrom_keyedWritten).restart hdone hopen (Reaches.refl _)
  exact ⟨_, hlives, by decide +kernel, keys_identify hlives⟩

def bindKey (key : Bytes) (item : Task) : Task := bindIdempotencyKeyFingerprint item key [103]

/-- **A key that two tasks hold**: it was looked up before it was bound, and submitted in between. -/
theorem key_of_two_tasks : ∃ p, RunsFrom {} (fun _ _ _ _ => True) p ∧
    ((p.shared.1.tasks.lookup [97]).map fun x => idempotencyKeyFingerprint x.task [108]) = some (some [103]) ∧
    ((p.shared.1.tasks.lookup [98]).map fun x => idempotencyKeyFingerprint x.task [108]) = some (some [102]) := by
  have hrun : ∃ p, RunsFrom {} (fun _ _ _ _ => True) p ∧
      ((p.shared.1.tasks.lookup [97]).map fun x => idempotencyKeyFingerprint x.task [108],
        (p.shared.1.tasks.lookup [98]).map fun x => idempotencyKeyFingerprint x.task [108]) =
      (some (some [103]), some (some [102])) :=
    runsFrom_schedule ((.start 0 (.submit none (keyedTask [97] [107]) (some 0)) :: steps 0 8 {}) ++
        (.start 1 (.find (keyedTask [] [108])) :: steps 1 3 {}) ++
        (.start 2 (.submit none (keyedTask [98] [108]) (some 0)) :: steps 2 8 {}) ++
        (.start 1 (.updateTask [97] (bindKey [108])) :: steps 1 2 {}))
      (fun s => ((s.1.tasks.lookup [97]).map fun x => idempotencyKeyFingerprint x.task [108],
        (s.1.tasks.lookup [98]).map fun x => idempotencyKeyFingerprint x.task [108])) (by decide +kernel)
  obtain ⟨p, hp, hview⟩ := hrun
  exact ⟨p, hp, (Prod.mk.inj hview).1, (Prod.mk.inj hview).2⟩

end Tasks
