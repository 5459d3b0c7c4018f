import Qrypt.Share.Runner
import Qrypt.Stream.Direct

/-!
# The selected entries of a share

`listAll` and `selected` (`pkg/core/share_runner.go`) with `offlineSelectIndexes` (`pkg/core/offline_inspect.go`): what
`listSelected` of the runner gets from a provider that answers page by page. The loop over the pages ends without an
error when its budget does.

* `picksWhole_iff` — the selection is made from the whole listing iff nothing is selected from one that is cut off
-/

namespace Share.Pages

open Infra List

/-! ## Pages -/

/-- `drive.ShareEntryPage`. -/
structure Page where
  entries : List Entry
  next : Bytes := []

/-- `ListShareEntries` for the top directory of a session. -/
abbrev Provider := Bytes → Except RunError Page

def maxShareListPages : Nat := 50

/-- The loop of `listAll`, with the pages left of the budget. -/
def listFrom (list : Provider) : Nat → Bytes → List Entry → Except RunError (List Entry)
  | 0, _, entries => .ok entries
  | pages + 1, cursor, entries =>
    match list cursor with
    | .error err => .error err
    | .ok result =>
      if result.next = [] then .ok (entries ++ result.entries)
      else listFrom list pages result.next (entries ++ result.entries)

def listAll (list : Provider) : Except RunError (List Entry) := listFrom list maxShareListPages [] []

/-! ## Selections -/

/-- `OfflineSelectionMode`; `other` is any other text. -/
inductive SelectionMode where
  | unset | all | largest | includes | other
  deriving DecidableEq, Repr

structure OfflineSelection where
  mode : SelectionMode := .unset
  largest : Int := 0
  includes : List Bytes := []
  excludes : List Bytes := []

section

-- `path.Match`, with nothing for a malformed pattern.
variable (pathMatch : Bytes → Bytes → Option Bool)

def offlineGlobMatch (pattern name : Bytes) : Bool :=
  if pattern = [] then false
  else if pathMatch pattern name = some true then true
  else if 47 ∈ pattern then false
  else pathMatch pattern (Stream.pathBase name) = some true

def offlineMatches (name : Bytes) (incl excl : List Bytes) : Bool :=
  (incl = [] || incl.any fun pattern => offlineGlobMatch pathMatch pattern name) &&
    !excl.any fun pattern => offlineGlobMatch pathMatch pattern name

/-- The indexes in the order of `sort.SliceStable`, each with its file. -/
def bySize (files : List Entry) : List (Entry × Nat) :=
  files.zipIdx.insertionSort fun a b => b.1.size ≤ a.1.size

def offlineSelectIndexes (files : List Entry) (selection : OfflineSelection) : List Bool :=
  match selection.mode with
  | .largest => files.zipIdx.map fun file => file.2 ∈ ((bySize files).take selection.largest.toNat).map Prod.snd
  | .includes => files.map fun file => offlineMatches pathMatch file.name selection.includes selection.excludes
  | _ => files.map fun _ => true

def selected (selection : OfflineSelection) (entries : List Entry) : List Entry :=
  ((entries.zip (offlineSelectIndexes pathMatch entries selection)).filter Prod.snd).map Prod.fst

def listSelected (list : Provider) (selection : OfflineSelection) : Except RunError (List Entry) :=
  (listAll list).bind fun entries =>
    if selected pathMatch selection entries = [] then .error .noneSelected
    else .ok (selected pathMatch selection entries)

/-! ## What is selected -/

/-- The entries that a selection picks: of the largest as many as it asks for, with none left out that is larger. -/
def Picks (selection : OfflineSelection) (entries out : List Entry) : Prop :=
  match selection.mode with
  | .largest => out <+ entries ∧ out.length = min selection.largest.toNat entries.length ∧
    ∃ left, entries ~ out ++ left ∧ ∀ a ∈ out, ∀ b ∈ left, b.size ≤ a.size
  | .includes =>
    out = entries.filter fun e => offlineMatches pathMatch e.name selection.includes selection.excludes
  | _ => out = entries

end

variable {pathMatch : Bytes → Bytes → Option Bool} {selection : OfflineSelection} {entries : List Entry}

theorem filter_zip_map {α β : Type} (l : List α) (f : α → β) (p : α → Bool) :
    (((l.map f).zip (l.map p)).filter Prod.snd).map Prod.fst = (l.filter p).map f := by
  induction l with
  | nil => rfl
  | cons a l ih => cases h : p a <;> simp [h, ih]

theorem bySize_perm (entries : List Entry) : bySize entries ~ entries.zipIdx := perm_insertionSort _ _

-- An index is at one place of the order, so none of the rest is among the first.
theorem filter_first {t d : List (Entry × Nat)} (h : ((t ++ d).map Prod.snd).Nodup) :
    ((t ++ d).filter fun e => e.2 ∈ t.map Prod.snd) = t := by
  rw [map_append, nodup_append] at h
  rw [filter_append, filter_eq_self.2, filter_eq_nil_iff.2, append_nil]
  · intro e he hmem
    exact h.2.2 _ (of_decide_eq_true hmem) _ (mem_map_of_mem he) rfl
  · intro e he
    exact decide_eq_true (mem_map_of_mem he)

theorem filter_bySize (entries : List Entry) (n : Nat) :
    (entries.zipIdx.filter fun e => e.2 ∈ ((bySize entries).take n).map Prod.snd) ~ (bySize entries).take n := by
  have hnodup : ((bySize entries).map Prod.snd).Nodup := by
    rw [((bySize_perm entries).map _).nodup_iff, zipIdx_map_snd]
    exact nodup_range'
  rw [← take_append_drop n (bySize entries)] at hnodup
  have hfirst := filter_first hnodup
  rw [take_append_drop] at hfirst
  exact ((bySize_perm entries).symm.filter _).trans (.of_eq hfirst)

theorem picks_selected : Picks pathMatch selection entries (selected pathMatch selection entries) := by
  have hmap : ∀ p : Entry → Bool, ((entries.zip (entries.map p)).filter Prod.snd).map Prod.fst = entries.filter p := by
    intro p
    simpa using filter_zip_map entries id p
  cases hmode : selection.mode with
  | largest =>
    have hperm := (filter_bySize entries selection.largest.toNat).map Prod.fst
    have hfst : (bySize entries).map Prod.fst ~ entries := by simpa using (bySize_perm entries).map Prod.fst
    have hsorted : (bySize entries).Pairwise _ := pairwise_insertionSort _ _
    rw [← take_append_drop selection.largest.toNat (bySize entries), pairwise_append] at hsorted
    have hzip := filter_zip_map entries.zipIdx Prod.fst fun e =>
      e.2 ∈ ((bySize entries).take selection.largest.toNat).map Prod.snd
    rw [zipIdx_map_fst] at hzip
    simp only [Picks, selected, offlineSelectIndexes, hmode, hzip]
    refine ⟨?_, ?_, ((bySize entries).drop selection.largest.toNat).map Prod.fst, ?_, ?_⟩
    · simpa only [zipIdx_map_fst] using (filter_sublist (l := entries.zipIdx)).map Prod.fst
    · rw [hperm.length_eq, length_map, length_take, (bySize_perm entries).length_eq, length_zipIdx]
    · refine (hfst.symm.trans (.of_eq ?_)).trans (hperm.symm.append_right _)
      rw [← map_append, take_append_drop]
    · intro a ha b hb
      obtain ⟨a, hfirst, rfl⟩ := mem_map.1 (hperm.mem_iff.1 ha)
      obtain ⟨b, hrest, rfl⟩ := mem_map.1 hb
      exact hsorted.2.2 a hfirst b hrest
  | includes => simp only [Picks, selected, offlineSelectIndexes, hmode, hmap]
  | unset | all | other => simp only [Picks, selected, offlineSelectIndexes, hmode, hmap, filter_true]

/-! ## The whole listing -/

/-- The first pages of a listing from a cursor on, and whether the last of them ends it. -/
inductive Reads (list : Provider) : Nat → Bytes → List Entry → Bool → Prop
  | none {cursor : Bytes} : Reads list 0 cursor [] false
  | last {cursor : Bytes} {page : Page} (hpage : list cursor = .ok page) (hnext : page.next = []) :
    Reads list 1 cursor page.entries true
  | more {pages : Nat} {cursor : Bytes} {page : Page} {rest : List Entry} {ends : Bool}
    (hpage : list cursor = .ok page) (hnext : page.next ≠ []) (h : Reads list pages page.next rest ends) :
    Reads list (pages + 1) cursor (page.entries ++ rest) ends

variable {list : Provider} {pages n : Nat} {cursor : Bytes} {acc es whole : List Entry}

theorem Reads.not_cut (h : Reads list pages cursor whole true) (hle : pages ≤ n) : ¬ Reads list n cursor es false := by
  generalize hends : true = ends at h
  induction h generalizing n es with
  | none => cases hends
  | last hpage hnext =>
    rintro (_ | _ | ⟨hpage', hnext', -⟩)
    · omega
    · simp_all
  | more hpage hnext _ ih =>
    rintro (_ | _ | ⟨hpage', -, hcut⟩)
    · omega
    · cases hpage.symm.trans hpage'
      exact ih (by omega) hends hcut

theorem listFrom_of_cut (h : Reads list n cursor es false) : listFrom list n cursor acc = .ok (acc ++ es) := by
  generalize hends : false = ends at h
  induction h generalizing acc with
  | none => simp [listFrom]
  | last => cases hends
  | more hpage hnext _ ih => simp [listFrom, hpage, hnext, ih hends]

theorem listFrom_ok (h : listFrom list n cursor acc = .ok es) :
    ∃ rest, es = acc ++ rest ∧ ((∃ pages ≤ n, Reads list pages cursor rest true) ∨ Reads list n cursor rest false) := by
  induction n generalizing cursor acc with
  | zero =>
    cases h
    exact ⟨[], by simp, .inr .none⟩
  | succ n ih =>
    simp only [listFrom] at h
    split at h
    · cases h
    · next page hpage =>
      split_ifs at h with hnext
      · cases h
        exact ⟨page.entries, rfl, .inl ⟨1, by omega, .last hpage hnext⟩⟩
      · obtain ⟨rest, rfl, hrest⟩ := ih h
        refine ⟨page.entries ++ rest, by simp, hrest.imp ?_ (.more hpage hnext)⟩
        rintro ⟨pages, hle, hwhole⟩
        exact ⟨pages + 1, by omega, .more hpage hnext hwhole⟩

/-- What is selected is picked from a listing that was read to its last page. -/
def PicksWhole (pathMatch : Bytes → Bytes → Option Bool) (list : Provider) (selection : OfflineSelection) : Prop :=
  ∀ out, listSelected pathMatch list selection = .ok out →
    ∃ pages ≤ maxShareListPages, ∃ whole, Reads list pages [] whole true ∧ Picks pathMatch selection whole out

/-- **The selection is made from the whole listing iff nothing is selected from one that the budget cuts off.** -/
theorem picksWhole_iff (pathMatch : Bytes → Bytes → Option Bool) (list : Provider) (selection : OfflineSelection) :
    PicksWhole pathMatch list selection ↔
      ∀ es, Reads list maxShareListPages [] es false → selected pathMatch selection es = [] := by
  constructor
  · intro h es hcut
    by_contra hne
    obtain ⟨pages, hle, whole, hwhole, -⟩ := h (selected pathMatch selection es) (by
      rw [listSelected, listAll, listFrom_of_cut hcut]
      exact if_neg hne)
    exact hwhole.not_cut hle hcut
  · intro h out hout
    rw [listSelected] at hout
    cases hall : listAll list with
    | error err => simp [hall, Except.bind] at hout
    | ok es =>
      simp only [hall, Except.bind] at hout
      split_ifs at hout with hne
      cases hout
      obtain ⟨_, rfl, ⟨pages, hle, hwhole⟩ | hcut⟩ := listFrom_ok hall
      · exact ⟨pages, hle, _, hwhole, picks_selected⟩
      · exact absurd (h _ hcut) hne

/-- A share of 51 pages, each with an entry that is larger than those before it. -/
def growing : Provider := fun cursor =>
  .ok { entries := [⟨[], [], cursor.length⟩], next := if cursor.length < 50 then 1 :: cursor else [] }

theorem Reads.growing (h : Reads growing pages cursor whole true) (hle : cursor.length ≤ 50) :
    cursor.length + pages = 51 := by
  generalize hends : true = ends at h
  induction h with
  | none => cases hends
  | last hpage hnext =>
    cases hpage
    grind
  | more hpage hnext _ ih =>
    cases hpage
    grind

theorem not_picksWhole_of_cut : ¬ PicksWhole (fun _ _ => none) growing { mode := .largest, largest := 1 } := by
  intro h
  have hsize : ((listSelected (fun _ _ => none) growing { mode := .largest, largest := 1 }).toOption.map
    (map Entry.size)) = some [49] := by decide +kernel
  cases hout : listSelected (fun _ _ => none) growing { mode := .largest, largest := 1 } with
  | error err => simp [hout, Except.toOption] at hsize
  | ok out =>
    obtain ⟨pages, hle, whole, hwhole, -⟩ := h out hout
    have hpages := hwhole.growing (Nat.zero_le 50)
    simp only [length_nil, maxShareListPages] at hle hpages
    omega

end Share.Pages
