import Mathlib

/-!
# Runs

A system is a step relation on states whose steps carry a label: the operation, the thread that
takes the step, or both. `Reaches step ok s s'` is a run from `s` to `s'` all of whose steps meet
the condition `ok` in the state they start from.
-/

namespace Infra

variable {S A : Type*} {step : S → A → S → Prop} {ok : S → A → Prop} {s₀ s s' : S} {a : A}

/-- A run whose steps all meet `ok`. -/
def Reaches (step : S → A → S → Prop) (ok : S → A → Prop) : S → S → Prop :=
  Relation.ReflTransGen fun s s' => ∃ a, ok s a ∧ step s a s'

theorem Reaches.refl (s : S) : Reaches step ok s s := Relation.ReflTransGen.refl

theorem Reaches.tail (h : Reaches step ok s₀ s) (hok : ok s a) (hs : step s a s') : Reaches step ok s₀ s' :=
  Relation.ReflTransGen.tail h ⟨a, hok, hs⟩

theorem Reaches.head (hok : ok s a) (hs : step s a s') {s₁ : S} (h : Reaches step ok s' s₁) : Reaches step ok s s₁ :=
  Relation.ReflTransGen.head ⟨a, hok, hs⟩ h

/-- **What holds at first and is kept by every step holds along every run.** -/
theorem Reaches.invariant (h : Reaches step ok s₀ s) (Inv : S → Prop) (h0 : Inv s₀)
    (hstep : ∀ s a s', Inv s → ok s a → step s a s' → Inv s') : Inv s := by
  induction h with
  | refl => exact h0
  | tail _ hs ih =>
    obtain ⟨a, hok, hs⟩ := hs
    exact hstep _ a _ ih hok hs

theorem reaches_foldl (f : S → A → S) (as : List A) (s : S) :
    Reaches (fun s a s' => s' = f s a) (fun _ _ => True) s (as.foldl f s) := by
  induction as generalizing s with
  | nil => exact Reaches.refl s
  | cons a as ih => exact Relation.ReflTransGen.head ⟨a, trivial, rfl⟩ (ih (f s a))

end Infra
