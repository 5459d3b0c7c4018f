import Qrypt.Infra.Bytes

/-!
# Finite maps

Looking up a key after a change of an association list.
-/

namespace Infra

open List

variable {α β : Type} [DecidableEq α] (m : AList fun _ : α => β)

theorem lookup_insert_eq (k p : α) (r : β) : (m.insert k r).lookup p = if p = k then some r else m.lookup p := by
  split
  · next h =>
    subst h
    exact AList.lookup_insert m
  · next h => exact AList.lookup_insert_ne h

theorem lookup_erase_eq (k p : α) : (m.erase k).lookup p = if p = k then none else m.lookup p := by
  split
  · next h =>
    subst h
    exact AList.lookup_erase p m
  · next h => exact AList.lookup_erase_ne h

theorem lookup_erase_all (ks : List α) (p : α) : ∀ [Decidable (p ∈ ks)],
    (ks.foldl (fun m k => m.erase k) m).lookup p = if p ∈ ks then none else m.lookup p := by
  induction ks generalizing m with
  | nil => simp
  | cons k ks ih =>
    rw [foldl_cons, ih, lookup_erase_eq]
    by_cases hk : p = k <;> simp [hk]

theorem lookup_insert_all {γ : Type} (key : γ → α) (value : γ → β) (xs : List γ) (p : α) :
    (xs.foldl (fun m x => m.insert (key x) (value x)) m).lookup p =
      ((xs.reverse.find? fun x => key x = p).map value).or (m.lookup p) := by
  induction xs generalizing m with
  | nil => rfl
  | cons x xs ih =>
    rw [foldl_cons, ih, lookup_insert_eq, reverse_cons, find?_append]
    cases hfind : xs.reverse.find? fun x => key x = p with
    | some y => rfl
    | none =>
      by_cases hx : p = key x
      · simp [hx]
      · simp [hx, Ne.symm hx]

/-- Keys move to where `next` sends them, one after the other. -/
def moveKeys (next : α → Option α) : AList fun _ : α => β :=
  m.entries.foldl (fun m r =>
    match next r.1 with
    | some k => (m.erase r.1).insert k r.2
    | none => m) m

/-- **Nothing is left where keys moved away, and what moved is found where it went**, if keys go to different places,
none of which is moved away. -/
theorem lookup_moveKeys {next : α → Option α} (hinj : ∀ a b k, next a = some k → next b = some k → a = b)
    (hstay : ∀ a k, next a = some k → next k = none) (p : α) :
    (next p ≠ none → (moveKeys m next).lookup p = none) ∧
      (∀ a, next a = some p → (moveKeys m next).lookup p = (m.lookup a).or (m.lookup p)) ∧
      (next p = none → (∀ a, next a ≠ some p) → (moveKeys m next).lookup p = m.lookup p) := by
  have go : ∀ (l : List (Sigma fun _ : α => β)) (acc : AList fun _ : α => β), l.NodupKeys →
      let out := l.foldl (fun m r =>
        match next r.1 with
        | some k => (m.erase r.1).insert k r.2
        | none => m) acc
      (next p ≠ none → out.lookup p = if p ∈ l.keys then none else acc.lookup p) ∧
        (∀ a, next a = some p → out.lookup p = (l.dlookup a).or (acc.lookup p)) ∧
        (next p = none → (∀ a, next a ≠ some p) → out.lookup p = acc.lookup p) := by
    intro l
    induction l with
    | nil => exact fun acc _ => ⟨fun _ => rfl, fun _ _ => rfl, fun _ _ => rfl⟩
    | cons r l ih =>
      intro acc hnodup
      obtain ⟨hr, hl⟩ := nodupKeys_cons.mp hnodup
      have htail : l.dlookup r.1 = none := dlookup_eq_none.mpr hr
      rw [foldl_cons]
      cases hnext : next r.1 with
      | none =>
        obtain ⟨h1, h2, h3⟩ := ih acc hl
        refine ⟨fun hp => ?_, fun a ha => ?_, h3⟩
        · have hne : p ≠ r.1 := fun h => hp (h ▸ hnext)
          simpa [hne] using h1 hp
        · have hne : a ≠ r.1 := fun h => by rw [h, hnext] at ha; cases ha
          rw [dlookup_cons_ne _ _ hne]
          exact h2 a ha
      | some k =>
        have hk := hstay r.1 k hnext
        obtain ⟨h1, h2, h3⟩ := ih ((acc.erase r.1).insert k r.2) hl
        refine ⟨fun hp => ?_, fun a ha => ?_, fun hp hfrom => ?_⟩
        · have hne : p ≠ k := fun h => hp (h ▸ hk)
          rw [h1 hp, lookup_insert_eq, if_neg hne, lookup_erase_eq]
          by_cases hpr : p = r.1 <;> simp [hpr]
        · rw [h2 a ha, lookup_insert_eq]
          by_cases har : a = r.1
          · subst har
            obtain rfl : k = p := Option.some.inj (hnext.symm.trans ha)
            rw [htail, if_pos rfl, dlookup_cons_eq]
            rfl
          · have hne : p ≠ k := fun h => har (hinj a r.1 k (h ▸ ha) hnext)
            have hpr : p ≠ r.1 := fun h => by rw [h] at ha; rw [hstay a _ ha] at hnext; cases hnext
            rw [dlookup_cons_ne _ _ har, if_neg hne, lookup_erase_eq, if_neg hpr]
        · have hne : p ≠ k := fun h => hfrom r.1 (h ▸ hnext)
          have hpr : p ≠ r.1 := fun h => by rw [h, hnext] at hp; cases hp
          rw [h3 hp hfrom, lookup_insert_eq, if_neg hne, lookup_erase_eq, if_neg hpr]
  obtain ⟨h1, h2, h3⟩ := go m.entries m m.nodupKeys
  refine ⟨fun hp => (h1 hp).trans ?_, h2, h3⟩
  split
  · rfl
  · next hmem => exact AList.lookup_eq_none.mpr hmem

variable {m}

theorem lookup_erase_some {k p : α} {r : β} (h : (m.erase k).lookup p = some r) : p ≠ k ∧ m.lookup p = some r := by
  rw [lookup_erase_eq] at h
  split at h
  · cases h
  · next hp => exact ⟨hp, h⟩

end Infra
