import Qrypt.Share.Runner
import Qrypt.Task.Types

/-!
# Which item of a save belongs to which entry

`reconcileShareOutcome` (`pkg/core/share_outcome.go`) goes through the selected entries and takes for each the first
unused item that has its id or its name. An item that only has the name may stand before the one with the id.

* `attributed_iff` — every entry gets its own item iff none meets an item of its name before the one of its id
-/

namespace Share

open Infra List Tasks

variable {entry : Entry} {entries : List Entry} {items : List SaveItem} {o : SaveOutcome}

/-! ## Used items -/

def usedItems : List Entry → List SaveItem → List (Option SaveItem)
  | [], _ => []
  | entry :: entries, items =>
    items.find? (·.isFor entry) :: usedItems entries (items.eraseP (·.isFor entry))

def reportItem (entry : Entry) : Option SaveItem → SaveItem
  | none =>
    { sourceID := entry.id, sourceName := entry.name, sourceSize := entry.size
      error := some ⟨ascii "share_provider_error", ascii "provider did not report this entry"⟩ }
  | some item =>
    { item with
      sourceID := entry.id, sourceName := entry.name
      sourceSize := if item.sourceSize = 0 then entry.size else item.sourceSize }

theorem takeItem_eq (entry : Entry) (items : List SaveItem) : takeItem entry items =
    (items.find? (·.isFor entry)).map fun item => (item, items.eraseP (·.isFor entry)) := by
  induction items with
  | nil => rfl
  | cons item items ih =>
    rw [takeItem]
    split_ifs with h
    · simp [h]
    · simp [h, ih, Function.comp_def]

/-- The loop of `reconcileShareOutcome` reports of every entry the item used for it. -/
theorem reconcileItems_eq (entries : List Entry) (items : List SaveItem) :
    reconcileItems entries items = zipWith reportItem entries (usedItems entries items) := by
  induction entries generalizing items with
  | nil => rfl
  | cons entry entries ih =>
    rw [reconcileItems, takeItem_eq, usedItems, zipWith_cons_cons]
    cases hfind : items.find? (·.isFor entry) with
    | none =>
      rw [eraseP_of_forall_not (by simpa using hfind), ← ih]
      rfl
    | some item =>
      rw [← ih]
      rfl

/-- Whatever is reported, it is reported of the entries in their order. -/
theorem map_reconcileItems (entries : List Entry) (items : List SaveItem) :
    (reconcileItems entries items).map (fun item => (item.sourceID, item.sourceName)) =
      entries.map fun entry => (entry.id, entry.name) := by
  induction entries generalizing items with
  | nil => rfl
  | cons entry entries ih =>
    rw [reconcileItems]
    split <;> simp [ih]

theorem find_append_eraseP {α : Type} (p : α → Bool) (l : List α) : (l.find? p).toList ++ l.eraseP p ~ l := by
  induction l with
  | nil => exact .nil
  | cons a l ih =>
    cases hp : p a with
    | true => simp [hp]
    | false =>
      simp only [find?_cons, hp, eraseP_cons, cond_false]
      exact perm_middle.trans (ih.cons a)

/-- **No item is used twice.** -/
theorem usedItems_subperm (entries : List Entry) (items : List SaveItem) :
    (usedItems entries items).reduceOption <+~ items := by
  induction entries generalizing items with
  | nil => exact nil_subperm
  | cons entry entries ih =>
    refine Subperm.trans ?_ (find_append_eraseP (·.isFor entry) items).subperm
    rw [usedItems]
    cases items.find? (·.isFor entry) with
    | none => exact ih _
    | some item => exact (subperm_cons item).mpr (ih _)

/-! ## Attribution -/

/-- The state of `shareOutcomeResult`. -/
def shareOutcomeState (o : SaveOutcome) : StateName :=
  let saved := o.items.countP fun item => item.error = none
  let failed := o.items.countP fun item => item.error.isSome
  if ¬ o.state.complete then .running
  else if 0 < saved ∧ failed = 0 then .succeeded
  else if 0 < saved ∧ 0 < failed then .partialFailed
  else .failed

def SaveState.ofTask : SaveState → StateName
  | .succeeded => .succeeded
  | .partly => .partialFailed
  | .failed => .failed
  | _ => .running

/-- One item for each entry, its own if the provider reported it, none used twice, and the state their errors ask for.
-/
structure Attributed (o : SaveOutcome) (entries : List Entry) (o' : SaveOutcome) : Prop where
  order : o'.items.map (fun item => (item.sourceID, item.sourceName)) = entries.map fun entry => (entry.id, entry.name)
  used : o'.items = zipWith reportItem entries (usedItems entries o.items)
  own : ∀ x ∈ entries.zip (usedItems entries o.items), (∃ item ∈ o.items, item.sourceID = x.1.id) →
    ∃ item, x.2 = some item ∧ item.sourceID = x.1.id
  once : (usedItems entries o.items).reduceOption <+~ o.items
  succeeded : o'.state = .succeeded ↔ ∀ item ∈ o'.items, item.error = none
  failed : o'.state = .failed ↔ ∀ item ∈ o'.items, item.error ≠ none
  partly : o'.state = .partly ↔ (∃ item ∈ o'.items, item.error = none) ∧ ∃ item ∈ o'.items, item.error ≠ none
  result : shareOutcomeState o' = o'.state.ofTask

/-- Each entry whose id an item carries meets, among the items left, one with its id before any other with its name. -/
def MeetsOwn (reported : List SaveItem) : List Entry → List SaveItem → Prop
  | [], _ => True
  | entry :: entries, items =>
    ((∃ item ∈ reported, item.sourceID = entry.id) →
      ∃ item, items.find? (·.isFor entry) = some item ∧ item.sourceID = entry.id) ∧
    MeetsOwn reported entries (items.eraseP (·.isFor entry))

theorem meetsOwn_iff (reported : List SaveItem) (entries : List Entry) (items : List SaveItem) :
    MeetsOwn reported entries items ↔ ∀ x ∈ entries.zip (usedItems entries items),
      (∃ item ∈ reported, item.sourceID = x.1.id) → ∃ item, x.2 = some item ∧ item.sourceID = x.1.id := by
  induction entries generalizing items with
  | nil => simp [MeetsOwn]
  | cons entry entries ih => rw [MeetsOwn, usedItems, zip_cons_cons, forall_mem_cons, ih]

/-- **Every entry gets its own item** iff one is selected and each meets its own item first. -/
theorem attributed_iff (hcomplete : o.state.complete = true) (entries : List Entry) :
    Attributed o entries (reconcileShareOutcome o entries) ↔ entries ≠ [] ∧ MeetsOwn o.items entries o.items := by
  rw [meetsOwn_iff]
  constructor
  · rintro h
    refine ⟨?_, h.own⟩
    rintro rfl
    -- without entries there is no item, so the state is that of a success and of a failure
    have hitems : (reconcileShareOutcome o []).items = [] := h.used
    have hsucceeded := h.succeeded.mpr (by simp [hitems])
    have hfailed := h.failed.mpr (by simp [hitems])
    rw [hsucceeded] at hfailed
    cases hfailed
  · rintro ⟨hne, hown⟩
    have hmap := map_reconcileItems entries o.items
    have hlength : (reconcileItems entries o.items).length ≠ 0 := by
      rw [← length_map, hmap, length_map]
      simpa using hne
    rw [reconcileShareOutcome, if_neg (by simp [hcomplete, hne])]
    generalize hitems : reconcileItems entries o.items = l at hmap hlength
    have hnone : (∀ item ∈ l, item.error = none) ↔ (l.countP fun item => item.error.isSome) = 0 := by simp
    have hall : (∀ item ∈ l, item.error ≠ none) ↔ (l.countP fun item => item.error.isSome) = l.length := by
      simp [Option.isSome_iff_ne_none]
    have hcount : l.length = (l.countP fun item => item.error.isSome) + l.countP fun item => item.error = none := by
      simpa using l.length_eq_countP_add_countP fun item => item.error.isSome
    have hpartly : ((∃ item ∈ l, item.error = none) ∧ ∃ item ∈ l, item.error ≠ none) ↔
        ¬ (∀ item ∈ l, item.error ≠ none) ∧ ¬ ∀ item ∈ l, item.error = none := by
      simp only [not_forall, not_not, exists_prop, ne_eq]
    refine ⟨hmap, hitems.symm.trans (reconcileItems_eq entries o.items), hown, usedItems_subperm entries o.items, ?_, ?_,
      ?_, ?_⟩
    · rw [hnone]
      dsimp only
      split_ifs with h₀ <;> simp [h₀]
    · rw [hall]
      dsimp only
      split_ifs with h₀ h₁
      · simpa [h₀] using hlength.symm
      all_goals simp [h₁]
    · rw [hpartly, hall, hnone]
      dsimp only
      split_ifs with h₀ h₁
      · simp [h₀]
      · simp [h₁]
      · simp [h₀, h₁]
    · dsimp only [shareOutcomeState]
      generalize (l.countP fun item => item.error.isSome) = failed at hcount
      have hstate : SaveState.complete (if failed = 0 then .succeeded else if failed = l.length then .failed else .partly)
          = true := by split_ifs <;> rfl
      rw [if_neg (by simp [hstate])]
      split_ifs <;> first | rfl | omega

/-- The selected entries: two of one name. -/
def sameNamed : List Entry := [⟨ascii "1", ascii "a", 5⟩, ⟨ascii "2", ascii "a", 5⟩]

/-- The provider saved the entry `2` and not the entry `1`. -/
def secondSaved : SaveOutcome where
  state := .partly
  items :=
    [{ sourceID := ascii "2", sourceName := ascii "a", saved := some ⟨ascii "f", ascii "a", 5⟩ },
      { sourceID := ascii "1", sourceName := ascii "a", error := some ⟨ascii "share_quota", []⟩ }]

theorem attributed_second : Attributed secondSaved sameNamed.tail (reconcileShareOutcome secondSaved sameNamed.tail) :=
  (attributed_iff rfl _).mpr ⟨by simp [sameNamed], fun _ => ⟨_, rfl, rfl⟩, trivial⟩

/-- **Results exchanged**: the entry `1` is reported as saved, and the entry `2` as failed. -/
theorem not_attributed_of_same_name : secondSaved.state.complete = true ∧ (sameNamed.map Entry.id).Nodup ∧
    (reconcileShareOutcome secondSaved sameNamed).items.map (fun item => (item.sourceID, item.error.isSome)) =
      [(ascii "1", false), (ascii "2", true)] ∧
    ¬ Attributed secondSaved sameNamed (reconcileShareOutcome secondSaved sameNamed) := by
  refine ⟨rfl, by decide, by decide, fun h => ?_⟩
  obtain ⟨item, hitem, hid⟩ := h.own _ (.head _) ⟨_, .tail _ (.head _), rfl⟩
  cases hitem
  exact absurd hid (by decide)

end Share
