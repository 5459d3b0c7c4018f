import Qrypt.Infra.Run

/-!
# Programs that share a state

A program is a tree of atomic actions. An action may wait for a condition on the shared state; what
it does may depend on the environment: the time, a failing call, the answer of a third party. A
pool runs any number of programs whose actions interleave in any order.

* `Prog.Follows` — a program keeps to a protocol; `Pool.sound_of_follows` puts programs that do together.
* `Prog.Ensures` is total correctness of a program that runs alone.
-/

namespace Infra

open Function Option

variable {L E S J H α β : Type}

/-! ## Programs -/

/-- A program: its result, or an atomic action and what follows it. -/
inductive Prog (L E S α : Type) where
  | ret (a : α)
  | act (label : L) (guard : S → Bool) (update : E → S → S) (next : E → S → Prog L E S α)

namespace Prog

def bind : Prog L E S α → (α → Prog L E S β) → Prog L E S β
  | .ret a, k => k a
  | .act l g u n, k => .act l g u fun e s => (n e s).bind k

instance : Monad (Prog L E S) where
  pure := .ret
  bind := .bind

/-- A call: an action whose effect its label tells. It may have to wait. -/
def performWhen (apply : L → E → S → S) (guard : S → Bool) (l : L) (result : E → S → α) : Prog L E S α :=
  .act l guard (apply l) fun e s => .ret (result e s)

def perform (apply : L → E → S → S) (l : L) (result : E → S → α) : Prog L E S α :=
  performWhen apply (fun _ => true) l result

def label? : Prog L E S α → Option L
  | .ret _ => none
  | .act l _ _ _ => some l

end Prog

/-! ## Histories -/

namespace Prog

/-- The program beside a history that notes each action before it happens. -/
def recorded (hist : L → E → S → H → H) : Prog L E S α → Prog L E (S × H) α
  | .ret a => .ret a
  | .act l g u n => .act l (fun s => g s.1) (fun e s => (u e s.1, hist l e s.1 s.2))
      fun e s => (n e s.1).recorded hist

end Prog

/-! ## Pools -/

/-- A program that runs, and the job it was started for. -/
structure Task (L E S J α : Type) where
  job : J
  prog : Prog L E S α

/-- The shared state, and the programs that run on it. -/
structure Pool (L E S J α : Type) where
  shared : S
  task : Nat → Option (Task L E S J α)

/-- A thread starts a job, or takes its next action. -/
inductive Event (E J : Type) where
  | start (i : Nat) (job : J)
  | step (i : Nat) (env : E)

namespace Pool

variable (prog : Nat → J → Prog L E S α)

def idle (s : S) : Pool L E S J α := ⟨s, fun _ => none⟩

/-- The pool after an event, if the event is possible. -/
def next (p : Pool L E S J α) : Event E J → Option (Pool L E S J α)
  | .start i job =>
    match p.task i with
    | some ⟨_, .act _ _ _ _⟩ => none
    | _ => some { p with task := update p.task i (some ⟨job, prog i job⟩) }
  | .step i e =>
    match p.task i with
    | some ⟨job, .act _ g u n⟩ =>
      if g p.shared then
        some ⟨u e p.shared, update p.task i (some ⟨job, n e p.shared⟩)⟩
      else none
    | _ => none

/-- A step of the pool. -/
def Step (p : Pool L E S J α) (ev : Event E J) (p' : Pool L E S J α) : Prop :=
  p.next prog ev = some p'

def checked (check : L → Bool) (p : Pool L E S J α) : Event E J → Bool
  | .start _ _ => true
  | .step i _ => ((p.task i).bind fun t => t.prog.label?).all check

/-- The events of a schedule, one after the other, as long as their labels pass a check. -/
def run (check : L → Bool) (p : Pool L E S J α) : List (Event E J) → Option (Pool L E S J α)
  | [] => some p
  | ev :: evs => if p.checked check ev then (p.next prog ev).bind fun p' => p'.run check evs else none

/-- A condition on the jobs that are started and on the actions that are taken. -/
def Allowed (startOk : Nat → J → Prop) (cond : Nat → L → E → S → Prop) (p : Pool L E S J α) : Event E J → Prop
  | .start i job => startOk i job
  | .step i e => ∀ t l, p.task i = some t → t.prog.label? = some l → cond i l e p.shared

variable {prog} {startOk : Nat → J → Prop} {cond : Nat → L → E → S → Prop} {p₀ p p' : Pool L E S J α} {ev : Event E J}

theorem Step.cases (h : Step prog p ev p') :
    (∃ i job, ev = .start i job ∧
      p' = { p with task := update p.task i (some ⟨job, prog i job⟩) }) ∨
    ∃ i e job l g u n, ev = .step i e ∧ p.task i = some ⟨job, .act l g u n⟩ ∧ g p.shared = true ∧
      p' = ⟨u e p.shared, update p.task i (some ⟨job, n e p.shared⟩)⟩ := by
  unfold Step next at h
  cases ev with
  | start i job =>
    refine .inl ⟨i, job, rfl, ?_⟩
    simp only at h
    split at h
    · cases h
    · exact (some.inj h).symm
  | step i e =>
    simp only at h
    split at h
    · rename_i job l g u n ht
      by_cases hg : g p.shared = true
      · rw [if_pos hg] at h
        exact .inr ⟨i, e, job, l, g, u, n, rfl, ht, hg, (some.inj h).symm⟩
      · simp [if_neg hg] at h
    · cases h

theorem reaches_run {check : L → Bool} (hcond : ∀ i l e s, check l = true → cond i l e s)
    (evs : List (Event E J)) (h : p.run prog check evs = some p') :
    Reaches (Step prog) (Allowed (fun _ _ => True) cond) p p' := by
  induction evs generalizing p with
  | nil => exact some.inj h ▸ Reaches.refl p
  | cons ev evs ih =>
    unfold run at h
    split at h
    · next hcheck =>
      obtain ⟨q, hq, hrest⟩ := bind_eq_some_iff.mp h
      refine Reaches.head ?_ hq (ih hrest)
      cases ev with
      | start i job => trivial
      | step i e =>
        intro t l ht hl
        simp only [checked, ht, bind_some, hl, all_some] at hcheck
        exact hcond i l e p.shared hcheck
    · cases h

/-- A schedule that can be followed leads to a state that can be looked at. -/
theorem exists_reaches (check : L → Bool) (hcond : ∀ i l e s, check l = true → cond i l e s)
    (evs : List (Event E J)) (view : S → β) {b : β}
    (h : (p.run prog check evs).map (fun p => view p.shared) = some b) :
    ∃ p', Reaches (Step prog) (Allowed (fun _ _ => True) cond) p p' ∧ view p'.shared = b := by
  obtain ⟨p', hp', rfl⟩ := map_eq_some_iff.mp h
  exact ⟨p', reaches_run hcond evs hp', rfl⟩

theorem reaches_step {q q' : Pool L E S J α} (h : Reaches (Step prog) (Allowed startOk cond) p q) (i : Nat) (e : E)
    (l : L) (hnext : q.next prog (.step i e) = some q')
    (hlabel : (q.task i).bind (·.prog.label?) = some l) (hcond : cond i l e q.shared) :
    Reaches (Step prog) (Allowed startOk cond) p q' := by
  refine h.tail (a := .step i e) (fun t l' ht hl => ?_) hnext
  rw [ht, bind_some, hl] at hlabel
  cases hlabel
  exact hcond

end Pool

/-! ## Programs that follow a protocol -/

section Follows

variable {X : Type} (apply : L → E → S → S) (ok : X → L → Prop) (move : L → E → S → X → X)

/-- The calls follow a protocol: `x` is how far the program has come, `ok` which calls may follow, `move` where they
lead. -/
def Prog.Follows (Q : α → X → Prop) : X → Prog L E S α → Prop
  | x, .ret a => Q a x
  | x, .act l g u n => ok x l ∧ u = apply l ∧ ∀ e s, g s = true → (n e s).Follows Q (move l e s x)

variable {apply ok move} {Q : α → X → Prop} {x : X}

theorem Prog.Follows.bind {R : β → X → Prop} {p : Prog L E S α}
    {k : α → Prog L E S β} (h : p.Follows apply ok move Q x)
    (hk : ∀ a x, Q a x → (k a).Follows apply ok move R x) : (p.bind k).Follows apply ok move R x := by
  induction p generalizing x with
  | ret a => exact hk a x h
  | act l g u n ih => exact ⟨h.1, h.2.1, fun e s hg => ih e s (h.2.2 e s hg)⟩

theorem Prog.follows_performWhen {l : L} {guard : S → Bool} {result : E → S → α}
    (hl : ok x l) (hQ : ∀ e s, guard s = true → Q (result e s) (move l e s x)) :
    (Prog.performWhen apply guard l result).Follows apply ok move Q x :=
  ⟨hl, rfl, hQ⟩

/-- How far each thread has come, kept beside a history. -/
def tracked (move : L → E → S → X → X) (note : Nat → L → E → S → (Nat → X) → H → H) (i : Nat) (l : L)
    (e : E) (s : S) (h : (Nat → X) × H) : (Nat → X) × H :=
  (update h.1 i (move l e s (h.1 i)), note i l e s h.1 h.2)

/-- The invariant holds, and every thread is where its part of the history says. -/
structure Pool.Tracked (inv : S × (Nat → X) × H → Prop)
    (note : Nat → L → E → S → (Nat → X) → H → H) (x₀ : X) (ok : X → L → Prop)
    (apply : L → E → S → S) (move : L → E → S → X → X)
    (p : Pool L E (S × (Nat → X) × H) J α) : Prop where
  holds : inv p.shared
  idle : ∀ i, p.task i = none → p.shared.2.1 i = x₀
  busy : ∀ i t, p.task i = some t → ∃ q : Prog L E S α, t.prog = q.recorded (tracked move note i) ∧
    q.Follows apply ok move (fun _ x => x = x₀) (p.shared.2.1 i)

/-- **Programs that follow a protocol** keep an invariant that every call of the protocol keeps. -/
theorem Pool.sound_of_follows {prog : Nat → J → Prog L E S α} {x₀ : X}
    {note : Nat → L → E → S → (Nat → X) → H → H} {startOk : Nat → J → Prop}
    {cond : Nat → L → E → S × (Nat → X) × H → Prop} {inv : S × (Nat → X) × H → Prop}
    {p₀ p : Pool L E (S × (Nat → X) × H) J α}
    (hprog : ∀ i job, startOk i job → (prog i job).Follows apply ok move (fun _ x => x = x₀) x₀)
    (hkeep : ∀ i l e s, inv s → ok (s.2.1 i) l → cond i l e s → inv (apply l e s.1, tracked move note i l e s.1 s.2))
    (h0 : Tracked inv note x₀ ok apply move p₀)
    (h : Reaches (Step fun i job => (prog i job).recorded (tracked move note i))
      (Allowed startOk cond) p₀ p) : Tracked inv note x₀ ok apply move p := by
  refine h.invariant _ h0 fun p ev p' hp hok hs => ?_
  cases ev with
  | start i job =>
    simp only [Step, next] at hs
    have hx : p.shared.2.1 i = x₀ ∧ p' = ⟨p.shared, update p.task i
          (some ⟨job, (prog i job).recorded (tracked move note i)⟩)⟩ := by
      cases ht : p.task i with
      | none =>
        rw [ht] at hs
        exact ⟨hp.idle i ht, (some.inj hs).symm⟩
      | some t =>
        rw [ht] at hs
        obtain ⟨q, hq, hf⟩ := hp.busy i t ht
        obtain ⟨job', prog'⟩ := t
        subst hq
        cases q with
        | ret a => exact ⟨hf, (some.inj hs).symm⟩
        | act l g u n => cases hs
    obtain ⟨hx, rfl⟩ := hx
    refine ⟨hp.holds, fun k hk => ?_, fun k t hk => ?_⟩
    · by_cases hki : k = i
      · subst hki
        simp only [update_self, reduceCtorEq] at hk
      · simp only [update_of_ne hki] at hk
        exact hp.idle k hk
    · by_cases hki : k = i
      · subst hki
        simp only [update_self, some.injEq] at hk
        subst hk
        exact ⟨prog k job, rfl, hx ▸ hprog k job hok⟩
      · simp only [update_of_ne hki] at hk
        exact hp.busy k t hk
  | step i e =>
    obtain ⟨_, _, hev, _⟩ | ⟨_, _, job, l, g, u, n, hev, ht, hg, rfl⟩ := Step.cases hs
    · cases hev
    cases hev
    obtain ⟨q, hq, hf⟩ := hp.busy i _ ht
    cases q with
    | ret a => cases hq
    | act l' g' u' n' =>
      cases hq
      obtain ⟨hl, rfl, hn⟩ := hf
      refine ⟨hkeep i l e p.shared hp.holds hl (hok _ l ht rfl), fun k hk => ?_, fun k t hk => ?_⟩
      · by_cases hki : k = i
        · subst hki
          simp only [update_self, reduceCtorEq] at hk
        · simp only [update_of_ne hki] at hk
          exact (update_of_ne hki _ _).trans (hp.idle k hk)
      · by_cases hki : k = i
        · subst hki
          simp only [update_self, some.injEq] at hk
          subst hk
          exact ⟨n' e p.shared.1, rfl, by
            simpa only [tracked, update_self] using hn e p.shared.1 hg⟩
        · simp only [update_of_ne hki] at hk
          obtain ⟨q, hq, hf⟩ := hp.busy k t hk
          exact ⟨q, hq, by simpa only [tracked, update_of_ne hki] using hf⟩

end Follows

/-! ## A program that runs alone -/

/-- What a program did: its actions, each with the environment and the state it met, its result, and the
state it left. -/
structure Report (L E S α : Type) where
  log : List (L × E × S)
  result : α
  state : S

namespace Prog

/-- A program that runs alone; the `k`-th action has the environment `env k`. -/
def exec (env : Nat → E) : Prog L E S α → Nat → S → Option (Report L E S α)
  | .ret a, _, s => some ⟨[], a, s⟩
  | .act l g u n, k, s =>
    if g s then
      ((n (env k) s).exec env (k + 1) (u (env k) s)).map fun r => { r with log := (l, env k, s) :: r.log }
    else none

/-- Along the run of `exec`, the environment meets the condition. -/
def Along (env : Nat → E) (cond : L → E → S → Prop) : Prog L E S α → Nat → S → Prop
  | .ret _, _, _ => True
  | .act l _ u n, k, s => cond l (env k) s ∧ (n (env k) s).Along env cond (k + 1) (u (env k) s)

/-- The program returns, whatever the environment does within the condition, and `Q` holds of its log, result and state.
-/
def Ensures (cond : L → E → S → Prop) (Q : List (L × E × S) → α → S → Prop) : Prog L E S α → S → Prop
  | .ret a, s => Q [] a s
  | .act l g u n, s => g s = true ∧
    ∀ e, cond l e s → (n e s).Ensures cond (fun log a s' => Q ((l, e, s) :: log) a s') (u e s)

variable {cond : L → E → S → Prop} {Q Q' : List (L × E × S) → α → S → Prop} {s : S}

@[simp] theorem ensures_pure (a : α) : (pure a : Prog L E S α).Ensures cond Q s ↔ Q [] a s := Iff.rfl

variable {p : Prog L E S α} {env : Nat → E} {k : Nat}

theorem Ensures.mono (h : p.Ensures cond Q s) (hQ : ∀ log a s, Q log a s → Q' log a s) : p.Ensures cond Q' s := by
  induction p generalizing s Q Q' with
  | ret a => exact hQ [] a s h
  | act l g u n ih =>
    refine ⟨h.1, ?_⟩
    intro e he
    exact ih e s (h.2 e he) fun log a s' => hQ ((l, e, s) :: log) a s'

theorem Ensures.bind {k : α → Prog L E S β} {R : List (L × E × S) → β → S → Prop}
    (h : p.Ensures cond (fun log a s' => (k a).Ensures cond (fun log' b s'' => R (log ++ log') b s'') s') s) :
    (p.bind k).Ensures cond R s := by
  induction p generalizing s R with
  | ret a => exact h
  | act l g u n ih =>
    refine ⟨h.1, ?_⟩
    intro e he
    exact ih e s (h.2 e he)

/-- **A program that ensures its result returns it.** -/
theorem Ensures.exec (h : p.Ensures cond Q s)
    (henv : p.Along env cond k s) : ∃ r, p.exec env k s = some r ∧ Q r.log r.result r.state := by
  induction p generalizing s k Q with
  | ret a => exact ⟨⟨[], a, s⟩, rfl, h⟩
  | act l g u n ih =>
    obtain ⟨r, hrun, hQ⟩ := ih (env k) s (h.2 (env k) henv.1) henv.2
    refine ⟨{ r with log := (l, env k, s) :: r.log }, ?_, hQ⟩
    simp only [Prog.exec, h.1, if_true, hrun, map_some]

theorem along_of_exec {r : Report L E S α}
    (h : p.exec env k s = some r) (hlog : ∀ c ∈ r.log, cond c.1 c.2.1 c.2.2) : p.Along env cond k s := by
  induction p generalizing s k r with
  | ret a => trivial
  | act l g u n ih =>
    simp only [Prog.exec] at h
    split at h
    · obtain ⟨r', hr', rfl⟩ := map_eq_some_iff.mp h
      obtain ⟨hfirst, hrest⟩ := List.forall_mem_cons.mp hlog
      exact ⟨hfirst, ih (env k) s hr' hrest⟩
    · cases h

theorem along_of_forall (h : ∀ k l s, cond l (env k) s) (p : Prog L E S α) (k : Nat) (s : S) :
    p.Along env cond k s := by
  induction p generalizing s k with
  | ret a => trivial
  | act l g u n ih => exact ⟨h k l s, ih (env k) s (k + 1) (u (env k) s)⟩

end Prog

end Infra
