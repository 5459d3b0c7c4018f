import Qrypt.Task.Runs

/-!
# One runner for a task

A goroutine reads the generation of its task some time after it was started, and `startRun` turns away those that
read an old one. So a new generation has to wait until every goroutine of the task has read the old one and no run
function is executing. `RetryTask` and `RecoverTask` do not wait.

* `one_runner` — no two run functions of one task execute at the same time, if new generations wait for its goroutines
-/

namespace Tasks

open Infra Function Option

/-! ## Who may run a task -/

/-- The thread starts a goroutine of the task, or is one that has not read the generation. -/
def At.unread (id : Bytes) : At → Prop
  | .stored item => item.id = id
  | .spawning _ id' => id' = id
  | .entered id' => id' = id
  | _ => False

/-- The thread executes the run function of the task, or is about to. -/
def At.runs (id : Bytes) : At → Prop
  | .granted id' _ => id' = id
  | .executing id' _ => id' = id
  | _ => False

/-- The thread has to do with the task. -/
def At.about (id : Bytes) (x : At) : Prop := x.unread id ∨ (∃ g, x = .read id g) ∨ x.runs id

/-- The thread may yet run the task at the generation, or runs it. -/
def At.claims (id : Bytes) (g : Fin (2 ^ 64)) (x : At) : Prop := x.unread id ∨ x = .read id g ∨ x.runs id

/-- The thread has to do with no task. -/
def At.idle (x : At) : Prop := ∀ id, ¬ x.about id

theorem At.claims.about {id : Bytes} {g : Fin (2 ^ 64)} {x : At} (h : x.claims id g) : x.about id :=
  h.imp_right fun h => h.imp_left fun h => ⟨g, h⟩

theorem At.unread.only {id : Bytes} {x : At} (h : x.unread id) :
    (∀ id', x.about id' → id' = id) ∧ (∀ id', ¬ x.runs id') ∧ ∀ id' g, x ≠ .read id' g := by
  cases x with
  | stored item =>
    subst h
    refine ⟨fun id' h' => ?_, fun _ h' => h', fun _ _ h' => by cases h'⟩
    rcases h' with h' | ⟨_, h'⟩ | h'
    · exact Eq.symm h'
    · cases h'
    · exact h'.elim
  | spawning held id₁ =>
    subst h
    refine ⟨fun id' h' => ?_, fun _ h' => h', fun _ _ h' => by cases h'⟩
    rcases h' with h' | ⟨_, h'⟩ | h'
    · exact Eq.symm h'
    · cases h'
    · exact h'.elim
  | entered id₁ =>
    subst h
    refine ⟨fun id' h' => ?_, fun _ h' => h', fun _ _ h' => by cases h'⟩
    rcases h' with h' | ⟨_, h'⟩ | h'
    · exact Eq.symm h'
    · cases h'
    · exact h'.elim
  | _ => exact h.elim

/-- At most one goroutine has a claim to each stored task, by the generations and the places of the goroutines. -/
structure OneRunner {ι : Type} (gen : Bytes → Option (Fin (2 ^ 64))) (place : ι → At) : Prop where
  running : ∀ id a b, (place a).runs id → (place b).runs id → a = b
  alone : ∀ id g, gen id = some g → ∀ a b, (place a).claims id g → (place b).claims id g → a = b
  older : ∀ id g a g', gen id = some g → place a = .read id g' → g' ≤ g
  positive : ∀ a id g, place a = .read id g → g ≠ 0
  fresh : ∀ id g a, gen id = some g → (place a).unread id → g ≠ 0

namespace OneRunner

variable {ι : Type} {gen gen' : Bytes → Option (Fin (2 ^ 64))} {place : ι → At} {a b : ι} {x : At}
  {id : Bytes} {g : Fin (2 ^ 64)}

theorem of_idle (h : ∀ a, (place a).idle) : OneRunner gen place where
  running id a _ ha _ := absurd (.inr (.inr ha)) (h a id)
  alone id _ _ a _ ha _ := absurd ha.about (h a id)
  older id _ a g' _ ha := absurd (.inr (.inl ⟨g', ha⟩)) (h a id)
  positive a id g ha := absurd (.inr (.inl ⟨g, ha⟩)) (h a id)
  fresh id _ a _ ha := absurd (.inl ha) (h a id)

/-- A place whose claims are those it had. -/
structure Less (gen : Bytes → Option (Fin (2 ^ 64))) (x' x : At) : Prop where
  unread : ∀ id, x'.unread id → x.unread id
  runs : ∀ id, x'.runs id → x.runs id
  read : ∀ id g, x' = .read id g → x = .read id g ∨ x.unread id ∧ gen id = some g

theorem Less.claims {x' : At} (h : Less gen x' x) (hc : x'.claims id g) : x.claims id g := by
  rcases hc with hc | hc | hc
  · exact .inl (h.unread id hc)
  · rcases h.read id g hc with hread | ⟨hunread, -⟩
    · exact .inr (.inl hread)
    · exact .inl hunread
  · exact .inr (.inr (h.runs id hc))

theorem less_refl (x : At) : Less gen x x := ⟨fun _ h => h, fun _ h => h, fun _ _ h => .inl h⟩

theorem less_of_idle {x' : At} (h : x'.idle) : Less gen x' x :=
  ⟨fun id hx => absurd (.inl hx) (h id), fun id hx => absurd (.inr (.inr hx)) (h id),
    fun id g hx => absurd (.inr (.inl ⟨g, hx⟩)) (h id)⟩

/-- **Claims that move.** Each place has the claims of one old place. -/
theorem transfer (h : OneRunner gen place) {place' : ι → At} (src : ι → ι)
    (hsrc : ∀ a, Less gen (place' a) (place (src a)))
    (hinj : ∀ a b id, (place' a).about id → (place' b).about id → src a = src b → a = b) :
    OneRunner gen place' where
  running id a b ha hb :=
    hinj a b id (.inr (.inr ha)) (.inr (.inr hb)) (h.running id _ _ ((hsrc a).runs id ha) ((hsrc b).runs id hb))
  alone id g hg a b ha hb := by
    exact hinj a b id ha.about hb.about (h.alone id g hg _ _ ((hsrc a).claims ha) ((hsrc b).claims hb))
  older id g a g' hg ha := by
    rcases (hsrc a).read id g' ha with hread | ⟨-, hgen⟩
    · exact h.older id g _ g' hg hread
    · rw [hg] at hgen
      exact le_of_eq (some.inj hgen).symm
  positive a id g ha := by
    rcases (hsrc a).read id g ha with hread | ⟨hunread, hgen⟩
    · exact h.positive _ id g hread
    · exact h.fresh id g _ hgen hunread
  fresh id g a hg ha := h.fresh id g _ hg ((hsrc a).unread id ha)

theorem fewer (h : OneRunner gen place) (hgen : ∀ id g, gen' id = some g → gen id = some g) : OneRunner gen' place where
  running := h.running
  alone id g hg := h.alone id g (hgen id g hg)
  older id g a g' hg := h.older id g a g' (hgen id g hg)
  positive := h.positive
  fresh id g a hg := h.fresh id g a (hgen id g hg)

variable [DecidableEq ι]

theorem less (h : OneRunner gen place) (hx : Less gen x (place a)) : OneRunner gen (update place a x) := by
  refine h.transfer id (fun b => ?_) fun _ _ _ _ _ hab => hab
  by_cases hb : b = a
  · subst hb
    rwa [update_self]
  · rw [update_of_ne hb]
    exact less_refl _

theorem handover (h : OneRunner gen place) (ha : x.idle) {y : At} (hy : Less gen y (place a)) :
    OneRunner gen (update (update place a x) b y) := by
  refine h.transfer (fun c => if c = b then a else c) (fun c => ?_) fun c d id hc hd hcd => ?_
  · by_cases hcb : c = b
    · subst hcb
      rwa [update_self, if_pos rfl]
    · rw [update_of_ne hcb, if_neg hcb]
      by_cases hca : c = a
      · subst hca
        rw [update_self]
        exact less_of_idle ha
      · rw [update_of_ne hca]
        exact less_refl _
  · -- the old place has no claims left
    have hold : ∀ {c}, c ≠ b → (update (update place a x) b y c).about id → c ≠ a := by
      rintro c hcb hc rfl
      rw [update_of_ne hcb, update_self] at hc
      exact ha id hc
    by_cases hcb : c = b
    · by_cases hdb : d = b
      · rw [hcb, hdb]
      · rw [if_pos hcb, if_neg hdb] at hcd
        exact absurd hcd.symm (hold hdb hd)
    · by_cases hdb : d = b
      · rw [if_neg hcb, if_pos hdb] at hcd
        exact absurd hcd (hold hcb hc)
      · rwa [if_neg hcb, if_neg hdb] at hcd

theorem update_cases (place : ι → At) (a : ι) (x : At) (b : ι) :
    b = a ∧ update place a x b = x ∨ b ≠ a ∧ update place a x b = place b := by
  by_cases hba : b = a
  · exact .inl ⟨hba, by rw [hba, update_self]⟩
  · exact .inr ⟨hba, update_of_ne hba _ _⟩

/-- **A goroutine that read the generation of its task starts.** -/
theorem start (h : OneRunner gen place) (ha : place a = .read id g) (hg : gen id = some g) :
    OneRunner gen (update place a (.granted id g)) := by
  have hplace := update_cases place a (.granted id g)
  have hclaims : ∀ {b id' g'}, gen id' = some g' → (update place a (.granted id g) b).claims id' g' →
      (place b).claims id' g' := by
    intro b id' g' hg' hb
    rcases hplace b with ⟨rfl, hnew⟩ | ⟨-, hold⟩
    · rw [hnew] at hb
      rcases hb with hb | hb | hb
      · exact hb.elim
      · cases hb
      · have hid : id = id' := hb
        subst hid
        rw [hg] at hg'
        cases hg'
        exact .inr (.inl ha)
    · rwa [hold] at hb
  refine ⟨fun id' b c hb hc => ?_, fun id' g' hg' b c hb hc => ?_, fun id' g' b g'' hg' hb => ?_,
    fun b id' g' hb => ?_, fun id' g' b hg' hb => ?_⟩
  · by_cases hid : id' = id
    · subst hid
      exact h.alone id' g hg b c (hclaims hg (.inr (.inr hb))) (hclaims hg (.inr (.inr hc)))
    · rcases hplace b with ⟨-, hnew⟩ | ⟨-, hold⟩
      · rw [hnew] at hb
        exact absurd (Eq.symm hb) hid
      · rcases hplace c with ⟨-, hnew'⟩ | ⟨-, hold'⟩
        · rw [hnew'] at hc
          exact absurd (Eq.symm hc) hid
        · rw [hold] at hb
          rw [hold'] at hc
          exact h.running id' b c hb hc
  · exact h.alone id' g' hg' b c (hclaims hg' hb) (hclaims hg' hc)
  · rcases hplace b with ⟨-, hnew⟩ | ⟨-, hold⟩
    · simp [hnew] at hb
    · exact h.older id' g' b g'' hg' (hold ▸ hb)
  · rcases hplace b with ⟨-, hnew⟩ | ⟨-, hold⟩
    · simp [hnew] at hb
    · exact h.positive b id' g' (hold ▸ hb)
  · rcases hplace b with ⟨-, hnew⟩ | ⟨-, hold⟩
    · rw [hnew] at hb
      exact hb.elim
    · exact h.fresh id' g' b hg' (hold ▸ hb)

/-- **A new generation**: nobody claims it yet but the thread that starts its goroutine. -/
theorem renew (h : OneRunner gen place) (hx : x.unread id) (hgen : ∀ id', id' ≠ id → gen' id' = gen id')
    (hg : ∀ g, gen' id = some g → g ≠ 0 ∧ ∀ b, ¬ (place b).claims id g ∧ ∀ g', place b = .read id g' → g' ≤ g) :
    OneRunner gen' (update place a x) := by
  have hplace := update_cases place a x
  obtain ⟨hxid, hxruns, hxread⟩ := hx.only
  have hother : ∀ {b id'}, id' ≠ id → (update place a x b).about id' →
      update place a x b = place b := by
    intro b id' hid hb
    rcases hplace b with ⟨-, hnew⟩ | ⟨-, hold⟩
    · rw [hnew] at hb
      exact absurd (hxid id' hb) hid
    · exact hold
  have hruns : ∀ {b id'}, (update place a x b).runs id' → (place b).runs id' := by
    intro b id' hb
    rcases hplace b with ⟨-, hnew⟩ | ⟨-, hold⟩
    · rw [hnew] at hb
      exact absurd hb (hxruns id')
    · rwa [hold] at hb
  have hreads : ∀ {b id' g'}, update place a x b = .read id' g' → place b = .read id' g' := by
    intro b id' g' hb
    rcases hplace b with ⟨-, hnew⟩ | ⟨-, hold⟩
    · rw [hnew] at hb
      exact absurd hb (hxread id' g')
    · rwa [hold] at hb
  have hself : ∀ {b g}, gen' id = some g → (update place a x b).claims id g → b = a := by
    intro b g hg' hb
    rcases hplace b with ⟨hba, -⟩ | ⟨-, hold⟩
    · exact hba
    · rw [hold] at hb
      exact absurd hb ((hg g hg').2 b).1
  refine ⟨fun id' b c hb hc => h.running id' b c (hruns hb) (hruns hc), fun id' g' hg' b c hb hc => ?_,
    fun id' g' b g'' hg' hb => ?_, fun b id' g' hb => h.positive b id' g' (hreads hb), fun id' g' b hg' hb => ?_⟩
  all_goals by_cases hid : id' = id
  · subst hid
    rw [hself hg' hb, hself hg' hc]
  · rw [hgen id' hid] at hg'
    rw [hother hid hb.about] at hb
    rw [hother hid hc.about] at hc
    exact h.alone id' g' hg' b c hb hc
  · subst hid
    exact ((hg g' hg').2 b).2 g'' (hreads hb)
  · rw [hgen id' hid] at hg'
    exact h.older id' g' b g'' hg' (hreads hb)
  · subst hid
    exact (hg g' hg').1
  · rw [hgen id' hid] at hg'
    rw [hother hid (.inl hb)] at hb
    exact h.fresh id' g' b hg' hb

end OneRunner

/-! ## The manager -/

def Manager.generation (m : Manager) (id : Bytes) : Option (Fin (2 ^ 64)) :=
  (m.tasks.lookup id).map (·.task.executionGeneration)

def places (s : Followed At Unit) : Nat ⊕ Nat → At
  | .inl i => s.2.1 i
  | .inr k => ((s.1.waiting k).map fun goroutine => At.entered goroutine.2).getD .free

/-- A new generation begins when each goroutine of the task has read the old one and none executes; a task is submitted
under an id that no goroutine has; nothing else changes generations. -/
def Orderly (_ : Nat) (l : Call) (_ : Env) (s : Followed At Unit) : Prop :=
  match l with
  | .put m => ∀ a, ¬ (places s a).about m.task.id
  | .update id change =>
    (∀ fn, change.fn? = some fn → ∀ t, (fn t).executionGeneration = t.executionGeneration) ∧
      (change.renews = true → ∀ g, s.1.generation id = some g →
        g.val + 1 < 2 ^ 64 ∧ ∀ a, ¬ (places s a).unread id ∧ ¬ (places s a).runs id)
  | _ => True

/-- The goroutines that run have been started, and each stored task has at most one that may run it. -/
structure Runners (s : Followed At Unit) : Prop where
  begun : ∀ k ∈ s.1.begun, k < s.1.goroutines.length
  one : OneRunner s.1.generation (places s)

theorem idle_of_not_about {x : At} (h : ∀ id, ¬ x.unread id ∧ ¬ x.runs id) (hr : ∀ id g, x ≠ .read id g) : x.idle := by
  rintro id (hx | ⟨g, hx⟩ | hx)
  · exact (h id).1 hx
  · exact hr id g hx
  · exact (h id).2 hx

theorem idle_free : At.free.idle := idle_of_not_about (fun _ => ⟨fun h => h, fun h => h⟩) fun _ _ h => by cases h

theorem idle_locked : At.locked.idle := idle_of_not_about (fun _ => ⟨fun h => h, fun h => h⟩) fun _ _ h => by cases h

theorem idle_checked (item : Task) : (At.checked item).idle :=
  idle_of_not_about (fun _ => ⟨fun h => h, fun h => h⟩) fun _ _ h => by cases h

theorem idle_dismissed (id : Bytes) : (At.dismissed id).idle :=
  idle_of_not_about (fun _ => ⟨fun h => h, fun h => h⟩) fun _ _ h => by cases h

section Step

variable {s : Followed At Unit} {i : Nat} {l : Call} {e : Env} {note : Nat → Call → Env → Manager → (Nat → At) → Unit → Unit}

theorem places_noted (hw : ∀ k, (l.apply e s.1).waiting k = s.1.waiting k) :
    places (order.noted note i l e s) = update (places s) (.inl i) (At.move l e s.1 (s.2.1 i)) := by
  funext a
  cases a with
  | inl j =>
    by_cases hj : j = i
    · subst hj
      simp [places, Protocol.noted, order]
    · simp [places, Protocol.noted, hj]
  | inr k => simp [places, Protocol.noted, hw k]

/-- What a step does to goroutines and tasks. -/
structure Leaves (m' m : Manager) : Prop where
  goroutines : m'.goroutines = m.goroutines
  begun : m'.begun = m.begun
  generation : ∀ id g, m'.generation id = some g → m.generation id = some g

variable {m' m : Manager} {id : Bytes} {ctx : Nat}

theorem Leaves.waiting (h : Leaves m' m) (k : Nat) : m'.waiting k = m.waiting k := by
  simp [Manager.waiting, h.begun, h.goroutines]

theorem leaves_of_eq (hg : m'.goroutines = m.goroutines) (hb : m'.begun = m.begun)
    (ht : m'.tasks = m.tasks) : Leaves m' m := by
  refine ⟨hg, hb, fun id g h => ?_⟩
  rwa [Manager.generation, ht] at h

theorem Runners.less (h : Runners s) (hl : Leaves (l.apply e s.1) s.1)
    (hless : OneRunner.Less s.1.generation (At.move l e s.1 (s.2.1 i)) (s.2.1 i)) :
    Runners (order.noted note i l e s) := by
  refine ⟨?_, ?_⟩
  · show ∀ k ∈ (l.apply e s.1).begun, k < (l.apply e s.1).goroutines.length
    rw [hl.begun, hl.goroutines]
    exact h.begun
  · rw [places_noted hl.waiting]
    exact (h.one.less hless).fewer hl.generation

theorem leaves_append (m : Manager) (entry : TaskJournalEntry) (err : Option Err) : Leaves (m.append entry err) m := by
  cases err with
  | none => exact leaves_of_eq rfl rfl rfl
  | some err => exact leaves_of_eq rfl rfl rfl

theorem leaves_dismiss (id : Bytes) : Leaves ((Call.dismiss id).apply e s.1) s.1 := by
  refine ⟨rfl, rfl, fun id' g hg => ?_⟩
  obtain ⟨x, hx, rfl⟩ := map_eq_some_iff.mp hg
  have hlookup : (s.1.tasks.erase id).lookup id' = some x := hx
  exact map_eq_some_iff.mpr ⟨x, (lookup_erase_some hlookup).2, rfl⟩

variable {change : Change}

theorem generation_update
    (hfn : ∀ fn, change.fn? = some fn → ∀ t, (fn t).executionGeneration = t.executionGeneration) (id' : Bytes) :
    ((Call.update id change).apply e s.1).generation id' =
      if id' = id ∧ change.renews then (s.1.generation id).map (· + 1) else s.1.generation id' := by
  unfold Manager.generation
  rw [tasks_update]
  have hgen := fun x : ManagedTask => @Change.generation_apply e.now (s.1.changeErr change) x change fun fn h => hfn fn h _
  by_cases hid : id' = id
  · subst hid
    cases hr : change.renews with
    | true => simp [hgen, hr, comp_def]
    | false => simp [hgen, hr, comp_def]
  · simp [hid]

/-- **A submission**: nobody has to do with the id. -/
theorem Runners.put (h : Runners s) {m : ManagedTask} (hm : m.task.executionGeneration ≠ 0)
    (hc : Orderly i (.put m) e s) : Runners (order.noted note i (.put m) e s) := by
  have hgen : ∀ id, (order.noted note i (.put m) e s).1.generation id =
      if id = m.task.id then some m.task.executionGeneration else s.1.generation id := by
    intro id
    show (((s.1.tasks).insert m.task.id _).lookup id).map _ = _
    rw [lookup_insert_eq]
    split <;> rfl
  refine ⟨h.begun, ?_⟩
  rw [places_noted fun _ => rfl]
  refine h.one.renew rfl (fun id hid => by rw [hgen, if_neg hid]) fun g hg => ?_
  rw [hgen, if_pos rfl] at hg
  cases hg
  exact ⟨hm, fun b => ⟨fun hb => hc b hb.about, fun g' hb => absurd (.inr (.inl ⟨g', hb⟩)) (hc b)⟩⟩

theorem leaves_update (hr : change.renews = false)
    (hc : Orderly i (.update id change) e s) : Leaves ((Call.update id change).apply e s.1) s.1 := by
  refine ⟨rfl, rfl, fun id' g hg => ?_⟩
  rw [generation_update hc.1, hr] at hg
  simpa using hg

/-- **`startRun`** lets the one goroutine start that read the generation the task has. -/
theorem Runners.start (h : Runners s) {g : Fin (2 ^ 64)} (hx : s.2.1 i = .read id g)
    (hc : Orderly i (.update id (.start g ctx)) e s) :
    Runners (order.noted note i (.update id (.start g ctx)) e s) := by
  have hl := leaves_update rfl hc
  have hmove : At.move (.update id (.start g ctx)) e s.1 (s.2.1 i) =
      if s.1.starts id g ctx then .granted id g else .free := rfl
  cases hstarts : s.1.starts id g ctx with
  | false =>
    rw [hstarts] at hmove
    exact h.less hl (hmove ▸ OneRunner.less_of_idle idle_free)
  | true =>
    rw [hstarts] at hmove
    refine ⟨h.begun, ?_⟩
    rw [places_noted hl.waiting, hmove]
    have hplace : places s (.inl i) = .read id g := hx
    refine (h.one.start hplace ?_).fewer hl.generation
    -- the generation is not zero, so it is the one of the task
    obtain ⟨x, hx', hmay⟩ := (any_eq_true _ _).mp hstarts
    have hg0 := h.one.positive (.inl i) id g hx
    simp only [Bool.and_eq_true, Bool.not_eq_true', decide_eq_false_iff_not, not_and, not_not] at hmay
    exact map_eq_some_iff.mpr ⟨x, hx', hmay.1 hg0⟩

/-- **A retry or a recovery**: nobody executes, and those that read a generation read an old one. -/
theorem Runners.renew (h : Runners s) (hr : change.renews = true)
    (hmove : At.move (.update id change) e s.1 (s.2.1 i) = .spawning false id)
    (hc : Orderly i (.update id change) e s) : Runners (order.noted note i (.update id change) e s) := by
  have hgen : ∀ id', ((Call.update id change).apply e s.1).generation id' =
      if id' = id ∧ change.renews then (s.1.generation id).map (· + 1) else s.1.generation id' := generation_update hc.1
  refine ⟨h.begun, ?_⟩
  rw [places_noted fun _ => rfl, hmove]
  refine h.one.renew rfl (fun id' hid => ?_) fun g hg => ?_
  · exact (hgen id').trans (if_neg fun h => hid h.1)
  · have hg' := (hgen id).symm.trans hg
    rw [if_pos ⟨rfl, hr⟩] at hg'
    obtain ⟨g₀, hg₀, rfl⟩ := map_eq_some_iff.mp hg'
    obtain ⟨hwrap, hquiet⟩ := hc.2 hr g₀ hg₀
    have hlt : g₀ < g₀ + 1 := by
      rw [Fin.lt_def, Fin.val_add_one_of_lt']
      · exact Nat.lt_succ_self _
      · exact hwrap
    refine ⟨Fin.ne_of_gt (lt_of_le_of_lt (Fin.zero_le g₀) hlt), fun b => ⟨?_, fun g' hb => ?_⟩⟩
    · rintro (hb | hb | hb)
      · exact (hquiet b).1 hb
      · exact absurd (h.one.older id g₀ b _ hg₀ hb) (not_le_of_gt hlt)
      · exact (hquiet b).2 hb
    · exact (h.one.older id g₀ b g' hg₀ hb).trans (le_of_lt hlt)

/-- **`go`**: the new goroutine takes the claim of the thread that starts it. -/
theorem Runners.spawn (h : Runners s) {held : Bool} (hx : s.2.1 i = .spawning held id) :
    Runners (order.noted note i (.spawn ctx id) e s) := by
  have hlen : s.1.goroutines.length ∉ s.1.begun := fun hmem => lt_irrefl _ (h.begun _ hmem)
  refine ⟨fun k hk => ?_, ?_⟩
  · have hk := h.begun k hk
    show k < (s.1.goroutines ++ [(ctx, id)]).length
    rw [List.length_append]
    omega
  · have hplaces : places (order.noted note i (.spawn ctx id) e s) =
        update (update (places s) (.inl i) (if held then .locked else .free))
          (.inr s.1.goroutines.length) (.entered id) := by
      funext a
      cases a with
      | inl j =>
        rw [update_of_ne (by simp)]
        by_cases hj : j = i
        · subst hj
          simp [places, Protocol.noted, order, hx, At.move]
        · simp [places, Protocol.noted, hj]
      | inr k =>
        by_cases hk : k = s.1.goroutines.length
        · subst hk
          simp [places, Protocol.noted, Call.apply, Manager.waiting, hlen]
        · have hget : (s.1.goroutines ++ [(ctx, id)])[k]? = s.1.goroutines[k]? := by
            rcases Nat.lt_or_gt_of_ne hk with hlt | hgt
            · exact List.getElem?_append_left hlt
            · rw [List.getElem?_eq_none (Nat.le_of_lt hgt), List.getElem?_eq_none]
              simpa using hgt
          rw [update_of_ne (by simpa using hk), update_of_ne (by simp)]
          simp [places, Protocol.noted, Call.apply, Manager.waiting, hget]
    rw [hplaces]
    refine h.one.handover ?_ ⟨fun id' hid => ?_, fun _ hid => hid.elim, fun _ _ hid => by cases hid⟩
    · split
      · exact idle_locked
      · exact idle_free
    · show (s.2.1 i).unread id'
      rwa [hx]

theorem Runners.take (h : Runners s) {k : Nat} : Runners (order.noted note i (.take k) e s) := by
  cases hk : s.1.waiting k with
  | none =>
    have happly : (Call.take k).apply e s.1 = s.1 := by simp [Call.apply, hk]
    have hmove : At.move (.take k) e s.1 (s.2.1 i) = s.2.1 i := by simp [At.move, hk]
    refine h.less ?_ ?_
    · rw [happly]
      exact leaves_of_eq rfl rfl rfl
    · rw [hmove]
      exact OneRunner.less_refl _
  | some goroutine =>
    have happly : (Call.take k).apply e s.1 = { s.1 with begun := k :: s.1.begun } := by simp [Call.apply, hk]
    have hmove : At.move (.take k) e s.1 (s.2.1 i) = .entered goroutine.2 := by simp [At.move, hk]
    have hlt : k < s.1.goroutines.length := by
      unfold Manager.waiting at hk
      split at hk
      · cases hk
      · exact (List.getElem?_eq_some_iff.mp hk).1
    have hplaces : places (order.noted note i (.take k) e s) =
        update (update (places s) (.inr k) .free) (.inl i) (.entered goroutine.2) := by
      funext a
      cases a with
      | inl j =>
        by_cases hj : j = i
        · subst hj
          simp [places, Protocol.noted, order, hmove]
        · simp [places, Protocol.noted, hj]
      | inr k' =>
        rw [update_of_ne (by simp)]
        by_cases hk' : k' = k
        · subst hk'
          simp [places, Protocol.noted, happly, Manager.waiting]
        · simp [places, Protocol.noted, happly, Manager.waiting, hk']
    refine ⟨?_, ?_⟩
    · show ∀ k' ∈ ((Call.take k).apply e s.1).begun, k' < ((Call.take k).apply e s.1).goroutines.length
      rw [happly]
      intro k' hk'
      rcases List.mem_cons.mp hk' with rfl | hk'
      · exact hlt
      · exact h.begun k' hk'
    · have hgen : (order.noted note i (.take k) e s).1.generation = s.1.generation := by
        show ((Call.take k).apply e s.1).generation = _
        rw [happly]
        rfl
      rw [hplaces, hgen]
      refine h.one.handover idle_free ?_
      simp only [places, hk, map_some, getD_some]
      exact OneRunner.less_refl _

theorem Runners.update (h : Runners s) (hok : (s.2.1 i).ok (.update id change))
    (hc : Orderly i (.update id change) e s) : Runners (order.noted note i (.update id change) e s) := by
  cases change with
  | start g ctx => exact h.start hok hc
  | retry ctx => exact h.renew rfl rfl hc
  | recover f ctx =>
    cases hx : s.1.tasks.lookup id with
    | some x => exact h.renew rfl (by simp [At.move, hx]) hc
    | none =>
      have hnone : s.1.generation id = none := by simp [Manager.generation, hx]
      refine h.less ⟨rfl, rfl, fun id' g hg => ?_⟩ ?_
      · rw [generation_update hc.1, hnone] at hg
        split at hg
        · cases hg
        · exact hg
      · rw [show At.move (.update id (.recover f ctx)) e s.1 (s.2.1 i) = .free from by simp [At.move, hx]]
        exact OneRunner.less_of_idle idle_free
  | _ => exact h.less (leaves_update rfl hc) (OneRunner.less_refl _)

/-- **Every step keeps the claims apart.** -/
theorem Runners.step (h : Runners s) (hok : (s.2.1 i).ok l) (hc : Orderly i l e s) :
    Runners (order.noted note i l e s) := by
  have hsame : ∀ {l}, Leaves (l.apply e s.1) s.1 → At.move l e s.1 (s.2.1 i) = s.2.1 i →
      Runners (order.noted note i l e s) :=
    fun hl hmove => h.less hl (hmove.symm ▸ OneRunner.less_refl _)
  have hidle : ∀ {l x}, Leaves (l.apply e s.1) s.1 → At.move l e s.1 (s.2.1 i) = x → x.idle →
      Runners (order.noted note i l e s) :=
    fun hl hmove hx => h.less hl (hmove ▸ OneRunner.less_of_idle hx)
  cases l with
  | lockSubmit =>
    have hx : s.2.1 i = .free := hok
    refine hidle (leaves_of_eq rfl rfl rfl) rfl ?_
    rw [hx, At.move]
    split
    · exact idle_free
    · exact idle_locked
  | unlockSubmit => exact hidle (leaves_of_eq rfl rfl rfl) rfl idle_free
  | find item =>
    have hx : s.2.1 i = .locked := hok
    refine hidle (leaves_of_eq rfl rfl rfl) rfl ?_
    rw [hx, At.move]
    split
    · exact idle_locked
    · exact idle_checked item
  | put m =>
    obtain ⟨item, hm, -⟩ := hok
    exact h.put hm.generation hc
  | persist item =>
    have hx : s.2.1 i = .stored item := hok
    refine h.less ?_ (hx ▸ ⟨fun _ hid => hid, fun _ hid => hid, fun _ _ hid => by cases hid⟩)
    simp only [Call.apply]
    split
    · exact leaves_append _ _ _
    · exact leaves_of_eq rfl rfl rfl
  | get id =>
    rcases hok with hx | hx
    · exact hsame (leaves_of_eq rfl rfl rfl) (by rw [hx]; rfl)
    · -- the generation that is read is the one of the task
      refine h.less (leaves_of_eq rfl rfl rfl) ?_
      rw [hx, At.move]
      cases hlookup : s.1.tasks.lookup id with
      | none => exact OneRunner.less_of_idle idle_free
      | some x =>
        dsimp only
        split
        · refine ⟨fun _ hid => hid.elim, fun _ hid => hid.elim, fun id' g hid => .inr ?_⟩
          cases hid
          exact ⟨rfl, by simp [Manager.generation, hlookup]⟩
        · exact OneRunner.less_of_idle idle_free
  | update id change => exact h.update hok hc
  | dismiss id =>
    refine hidle (leaves_dismiss id) rfl ?_
    simp only [At.move]
    split
    · exact idle_dismissed id
    · exact idle_free
  | recordDismiss id => exact hidle (leaves_append _ _ _) rfl idle_free
  | spawn ctx id =>
    obtain ⟨held, hx⟩ := hok
    exact h.spawn hx
  | take k => exact h.take
  | invoke id g f =>
    have hx : s.2.1 i = .granted id g := hok
    exact h.less (leaves_of_eq rfl rfl rfl) (hx ▸ ⟨fun _ hid => hid, fun _ hid => hid, fun _ _ hid => by cases hid⟩)
  | returned id g => exact hidle (leaves_of_eq rfl rfl rfl) rfl idle_free
  | _ => exact hsame (leaves_of_eq rfl rfl rfl) (by simp [At.move])

end Step

/-! ## Runs -/

/-- **At most one run function of a task executes**, in every run in which each new generation of a task waits for its
goroutines: they have read the old one, and none executes. -/
theorem one_runner (store : PersistentStore) {p : Pool Call Env (Followed At Unit) Job Unit}
    (h : RunsFrom { store := store } Orderly p) {id : Bytes} {i j : Nat}
    {g g' : Fin (2 ^ 64)} (hi : p.shared.2.1 i = .executing id g)
    (hj : p.shared.2.1 j = .executing id g') : i = j := by
  have hinit : Runners ({ store := store }, fun _ => .free, ()) := by
    refine ⟨by simp, OneRunner.of_idle fun a => ?_⟩
    cases a with
    | inl i => exact idle_free
    | inr k => simpa [places, Manager.waiting] using idle_free
  have hrun := (runsFrom_keep Runners hinit (fun _ _ _ _ hs hok hc => hs.step hok hc) h).one.running
    id (.inl i) (.inl j)
  have hexec : ∀ {k g}, p.shared.2.1 k = .executing id g → (places p.shared (.inl k)).runs id := by
    intro k g hk
    rw [places, hk]
    rfl
  exact Sum.inl_injective (hrun (hexec hi) (hexec hj))

def retryable : Task := { id := [97], capabilities := { retryable := true } }

/-- Thread `i` is the `k`-th goroutine and executes its run function. -/
def executes (i k : Nat) : List (Event Env Job) := .start i (.goroutine k [] none) :: steps i 5 {}

def At.executing? (id : Bytes) : At → Option (Fin (2 ^ 64))
  | .executing id' g => if id' = id then some g else none
  | _ => none

def Call.unconditional : Call → Bool
  | .put _ => false
  | .update _ change => change.fn?.isNone && !change.renews
  | _ => true

theorem orderly_of_unconditional (i : Nat) (l : Call) (e : Env) (s : Followed At Unit) (h : l.unconditional = true) :
    Orderly i l e s := by
  cases l with
  | put m => cases h
  | update id change =>
    simp only [Call.unconditional, Bool.and_eq_true, isNone_iff_eq_none, Bool.not_eq_true'] at h
    refine ⟨fun fn hfn => ?_, fun hr => ?_⟩
    · simp [h.1] at hfn
    · simp [h.2] at hr
  | _ => trivial

def submission : List (Event Env Job) := .start 0 (.submit none retryable (some 0)) :: steps 0 2 {}

def beforePut : Pool Call Env (Followed At Unit) Job Unit :=
  ((Protocol.begun {} .free ()).run thread Call.unconditional submission).getD (Protocol.begun {} .free ())

def afterPut : Pool Call Env (Followed At Unit) Job Unit := (beforePut.next thread (.step 0 {})).getD beforePut

theorem runsFrom_afterPut : RunsFrom {} Orderly afterPut := by
  have hbefore : RunsFrom {} Orderly beforePut := Pool.reaches_run orderly_of_unconditional submission rfl
  refine Pool.reaches_step hbefore 0 {}
    (.put { task := retryable.submitted.created .zero, run := some 0, cancel := some 0 }) rfl rfl ?_
  have hidle : ∀ a, (places beforePut.shared a).idle := by
    rintro ((_ | j) | k)
    · exact idle_locked
    · exact idle_free
    · exact idle_free
  exact fun a ha => hidle a _ ha

theorem one_runner_submitted : ∃ p, RunsFrom {} Orderly p ∧ p.shared.2.1 1 = .executing [97] 1 ∧
    ∀ j g, p.shared.2.1 j = .executing [97] g → j = 1 := by
  have hrest : ∃ p, Reaches (Pool.Step thread) (Pool.Allowed (fun _ _ => True) Orderly) afterPut p ∧
      p.shared.2.1 1 = .executing [97] 1 :=
    Pool.exists_reaches Call.unconditional orderly_of_unconditional (steps 0 4 {} ++ executes 1 0)
      (fun s => s.2.1 1) rfl
  obtain ⟨p, hp, hview⟩ := hrest
  have hrun : RunsFrom {} Orderly p := runsFrom_afterPut.trans hp
  exact ⟨p, hrun, hview, fun j g hj => one_runner _ hrun hj hview⟩

/-- Thread 0 submits the task, thread 1 retries it before its goroutine runs. -/
def retriedEarly : List (Event Env Job) :=
  submission ++ steps 0 5 {} ++ .start 1 (.retry none [97]) :: steps 1 5 {}

/-- **Two runners of one generation**: a task is retried before its goroutine has read the generation. -/
theorem two_runners : ∃ p, RunsFrom {} (fun _ _ _ _ => True) p ∧
    (p.shared.2.1 2).executing? [97] = some 2 ∧ (p.shared.2.1 3).executing? [97] = some 2 := by
  have hrun : ∃ p, RunsFrom {} (fun _ _ _ _ => True) p ∧
      ((p.shared.2.1 2).executing? [97], (p.shared.2.1 3).executing? [97]) = (some 2, some 2) :=
    runsFrom_schedule (retriedEarly ++ executes 2 0 ++ executes 3 1)
      (fun s => ((s.2.1 2).executing? [97], (s.2.1 3).executing? [97])) (by decide +kernel)
  obtain ⟨p, hp, hview⟩ := hrun
  exact ⟨p, hp, (Prod.mk.inj hview).1, (Prod.mk.inj hview).2⟩

end Tasks
