import Qrypt.Infra.Conc

/-!
# Programs that are stopped and started again

A program that works on a state nobody else changes. It may be stopped after any of its actions, and then be started
again: what it kept for itself is gone, the state is what it left.

* `Prog.Keeps` — an invariant holds after each action, and the result meets an assertion
* `Machine.sound` — along every run of starts and actions, if each start keeps the invariant
-/

namespace Infra

open Option

variable {L E S J α β ε : Type}

/-! ## Keeping an invariant -/

namespace Prog

/-- The invariant holds before and after each action that meets the condition, and the result meets `Q`. -/
def Keeps (inv : S → Prop) (cond : L → E → S → Prop) (Q : α → S → Prop) : Prog L E S α → S → Prop
  | .ret a, s => inv s ∧ Q a s
  | .act l g u n, s => inv s ∧ ∀ e, g s = true → cond l e s → (n e s).Keeps inv cond Q (u e s)

/-- A program that may fail, then the rest. -/
def tryBind (p : Prog L E S (Except ε α)) (k : α → Prog L E S (Except ε β)) : Prog L E S (Except ε β) :=
  p.bind fun
    | .error err => .ret (.error err)
    | .ok a => k a

/-- A result that is an error, or meets `Q`. -/
def Ok (Q : α → S → Prop) : Except ε α → S → Prop
  | .error _, _ => True
  | .ok a, s => Q a s

namespace Keeps

variable {inv : S → Prop} {cond : L → E → S → Prop} {Q Q' : α → S → Prop} {s : S} {p : Prog L E S α}

theorem holds (h : p.Keeps inv cond Q s) : inv s := by
  cases p with
  | ret a => exact h.1
  | act l g u n => exact h.1

theorem mono (h : p.Keeps inv cond Q s) (hQ : ∀ a s, inv s → Q a s → Q' a s) : p.Keeps inv cond Q' s := by
  induction p generalizing s with
  | ret a => exact ⟨h.1, hQ a s h.1 h.2⟩
  | act l g u n ih => exact ⟨h.1, fun e hg hc => ih e s (h.2 e hg hc)⟩

variable {R : β → S → Prop} {k : α → Prog L E S (Except ε β)} {apply : L → E → S → S} {l : L}

/-- **Sequencing.** -/
theorem bind {k : α → Prog L E S β} (h : p.Keeps inv cond Q s)
    (hk : ∀ a s, inv s → Q a s → (k a).Keeps inv cond R s) : (p.bind k).Keeps inv cond R s := by
  induction p generalizing s with
  | ret a => exact hk a s h.1 h.2
  | act l g u n ih => exact ⟨h.1, fun e hg hc => ih e s (h.2 e hg hc)⟩

theorem tryBind {p : Prog L E S (Except ε α)}
    (h : p.Keeps inv cond (Ok Q) s) (hk : ∀ a s, inv s → Q a s → (k a).Keeps inv cond (Ok R) s) :
    (p.tryBind k).Keeps inv cond (Ok R) s := by
  refine h.bind fun a s hinv hQ => ?_
  cases a with
  | error err => exact ⟨hinv, trivial⟩
  | ok a => exact hk a s hinv hQ

theorem ite {c : Prop} [Decidable c] {q : Prog L E S α} (hp : c → p.Keeps inv cond Q s)
    (hq : ¬ c → q.Keeps inv cond Q s) : (if c then p else q).Keeps inv cond Q s := by
  split
  · exact hp ‹c›
  · exact hq ‹¬ c›

theorem perform {result : E → S → α} (hinv : inv s)
    (h : ∀ e, cond l e s → inv (apply l e s) ∧ Q (result e s) (apply l e s)) :
    (Prog.perform apply l result).Keeps inv cond Q s :=
  ⟨hinv, fun e _ hc => h e hc⟩

theorem perform_tryBind {result : E → S → Except ε α} (hinv : inv s) (h : ∀ e, cond l e s → inv (apply l e s))
    (hk : ∀ e a, cond l e s → result e s = .ok a → (k a).Keeps inv cond (Ok R) (apply l e s)) :
    ((Prog.perform apply l result).tryBind k).Keeps inv cond (Ok R) s := by
  have hcall : (Prog.perform apply l result).Keeps inv cond
      (fun x s' => ∃ e, cond l e s ∧ s' = apply l e s ∧ x = result e s) s :=
    perform hinv fun e hc => ⟨h e hc, e, hc, rfl, rfl⟩
  refine hcall.bind fun x s' hinv' hx => ?_
  obtain ⟨e, hc, rfl, rfl⟩ := hx
  cases hr : result e s with
  | error err => exact ⟨hinv', trivial⟩
  | ok a => exact hk e a hc hr

end Keeps

end Prog

/-! ## Machines -/

/-- The state and the rest of the program that runs. -/
structure Machine (L E S α : Type) where
  shared : S
  prog : Prog L E S α

namespace Machine

/-- The program starts, whatever it was doing before, or takes its next action. -/
inductive Event (E J : Type) where
  | start (job : J)
  | step (env : E)

variable (main : J → Prog L E S α)

/-- The machine after an event, if the event is possible. -/
def next (m : Machine L E S α) : Event E J → Option (Machine L E S α)
  | .start job => some ⟨m.shared, main job⟩
  | .step e =>
    match m.prog with
    | .ret _ => none
    | .act _ g u n => if g m.shared then some ⟨u e m.shared, n e m.shared⟩ else none

def Step (m : Machine L E S α) (ev : Event E J) (m' : Machine L E S α) : Prop := m.next main ev = some m'

/-- A condition on the states in which the program starts, and on the actions it takes. -/
def Allowed (startOk : J → S → Prop) (cond : L → E → S → Prop) (m : Machine L E S α) : Event E J → Prop
  | .start job => startOk job m.shared
  | .step e => ∀ l, m.prog.label? = some l → cond l e m.shared

variable {main} {inv : S → Prop} {startOk : J → S → Prop} {cond : L → E → S → Prop} {m m' : Machine L E S α}

theorem keeps_step {ev : Event E J}
    (hmain : ∀ job s, inv s → startOk job s → (main job).Keeps inv cond (fun _ _ => True) s)
    (h : m.prog.Keeps inv cond (fun _ _ => True) m.shared) (hok : m.Allowed startOk cond ev)
    (hstep : Step main m ev m') : m'.prog.Keeps inv cond (fun _ _ => True) m'.shared := by
  cases ev with
  | start job =>
    obtain rfl := some.inj hstep
    exact hmain job _ h.holds hok
  | step e =>
    obtain ⟨s, prog⟩ := m
    cases prog with
    | ret a => cases hstep
    | act l g u n =>
      simp only [Step, next, ite_none_right_eq_some] at hstep
      obtain ⟨hg, hstep⟩ := hstep
      obtain rfl := some.inj hstep
      exact h.2 e hg (hok l rfl)

/-- **Soundness.** The invariant holds in all states of all runs that meet the conditions. -/
theorem sound (hmain : ∀ job s, inv s → startOk job s → (main job).Keeps inv cond (fun _ _ => True) s) {s₀ : S}
    {a : α} (h0 : inv s₀) (hrun : Reaches (Step main) (Allowed startOk cond) ⟨s₀, .ret a⟩ m) : inv m.shared :=
  (hrun.invariant (fun m => m.prog.Keeps inv cond (fun _ _ => True) m.shared) ⟨h0, trivial⟩
    fun _ _ _ h hok hstep => keeps_step hmain h hok hstep).holds

/-- The events of a schedule, one after the other, as long as they pass a check. -/
def run (check : Machine L E S α → Event E J → Bool) (main : J → Prog L E S α) (m : Machine L E S α) :
    List (Event E J) → Option (Machine L E S α)
  | [] => some m
  | ev :: evs => if check m ev then (m.next main ev).bind fun m => m.run check main evs else none

theorem reaches_run {check : Machine L E S α → Event E J → Bool} {ok : Machine L E S α → Event E J → Prop}
    (hok : ∀ m ev, check m ev = true → ok m ev) {evs : List (Event E J)} (h : m.run check main evs = some m') :
    Reaches (Step main) ok m m' := by
  induction evs generalizing m with
  | nil => exact some.inj h ▸ .refl m
  | cons ev evs ih =>
    simp only [run, ite_none_right_eq_some] at h
    obtain ⟨hcheck, h⟩ := h
    obtain ⟨m₁, hm₁, hrest⟩ := bind_eq_some_iff.mp h
    exact .head (hok m ev hcheck) hm₁ (ih hrest)

end Machine

end Infra
