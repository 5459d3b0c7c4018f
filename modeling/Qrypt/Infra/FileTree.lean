import Mathlib.Data.List.Infix
import Mathlib.Data.List.Dedup
import Qrypt.Infra.Path

/-!
# File trees

A finite tree of directories and files with data, by paths. The parent of whatever is there is a directory, so
that a tree with a hole cannot be built.

* `Within` — a change stays at or below a path; it is closed under composition, and each operation has it
-/

namespace Infra

open List

/-- The elements of a path. -/
abbrev TreePath := List Bytes

def treePath (path : Bytes) : TreePath := ((path.splitOn 47).foldl (cleanStep true) []).reverse

theorem cleanPath_eq_rootedPath (path : Bytes) : cleanPath (47 :: path) = rootedPath (treePath path) := by
  have hsplit : (47 :: path : Bytes).splitOn 47 = [] :: path.splitOn 47 := by
    show ([] ++ 47 :: path : Bytes).splitOn 47 = _
    rw [splitOn_append_cons_self_of_not_mem not_mem_nil]
  simp [cleanPath, hsplit, cleanStep, rootedPath, treePath]

theorem treePath_cons (path : Bytes) : treePath (47 :: path) = treePath path := by
  have hsplit : (47 :: path : Bytes).splitOn 47 = [] :: path.splitOn 47 := by
    show ([] ++ 47 :: path : Bytes).splitOn 47 = _
    rw [splitOn_append_cons_self_of_not_mem not_mem_nil]
  simp [treePath, hsplit, cleanStep]

theorem plain_treePath (path : Bytes) : ∀ e ∈ treePath path, PlainElem e := by
  intro e he
  exact forall_plain_foldl _ (fun _ he => not_mem_of_mem_splitOn he) (fun _ h => absurd h not_mem_nil) e
    (mem_reverse.mp he)

theorem treePath_rootedPath {elems : TreePath} (h : ∀ e ∈ elems, PlainElem e) : treePath (rootedPath elems) = elems := by
  have hclean := cleanPath_eq_rootedPath ([47].intercalate elems)
  have hsame : cleanPath (47 :: [47].intercalate elems) = rootedPath elems := cleanPath_plain h
  rw [hsame] at hclean
  show treePath (47 :: [47].intercalate elems) = elems
  exact (rootedPath_inj h (plain_treePath _) hclean).symm

inductive Node (α : Type) where
  | dir
  | file (data : α)
  deriving DecidableEq, Repr

/-- A finite tree; `support` holds all its paths, and its names are single elements. -/
structure FileTree (α : Type) where
  get : TreePath → Option (Node α)
  support : List TreePath
  mem_support : ∀ {p}, get p ≠ none → p ∈ support
  plain : ∀ {p}, get p ≠ none → ∀ e ∈ p, PlainElem e
  root : get [] = some .dir
  closed : ∀ {p n}, get (p ++ [n]) ≠ none → get p = some .dir

namespace FileTree

variable {α : Type} {t : FileTree α} {p q : TreePath}

/-- **What is below a path makes it a directory.** -/
theorem get_of_below (h : t.get (p ++ q) ≠ none) (hq : q ≠ []) : t.get p = some .dir := by
  induction q using reverseRecOn with
  | nil => exact absurd rfl hq
  | append_singleton q n ih =>
    have hdir : t.get (p ++ q) = some .dir := by
      apply t.closed (n := n)
      rwa [append_assoc]
    by_cases hnil : q = []
    · subst hnil
      simpa using hdir
    · exact ih (by simp [hdir]) hnil

/-- Something is directly below the path. -/
def HasChild (t : FileTree α) (p : TreePath) : Prop := ∃ n, t.get (p ++ [n]) ≠ none

instance (t : FileTree α) (p : TreePath) : Decidable (t.HasChild p) :=
  decidable_of_iff (∃ q ∈ t.support, q ≠ [] ∧ q.dropLast = p ∧ t.get q ≠ none) (by
    constructor
    · rintro ⟨q, -, hne, rfl, hget⟩
      exact ⟨q.getLast hne, by rwa [dropLast_append_getLast]⟩
    · rintro ⟨n, hget⟩
      exact ⟨p ++ [n], t.mem_support hget, by simp, by simp, hget⟩)

theorem get_eq_none_of_no_child (h : ¬ t.HasChild p) (hq : p <+: q) (hne : q ≠ p) : t.get q = none := by
  by_contra hget
  obtain ⟨r, rfl⟩ := hq
  cases r with
  | nil => simp at hne
  | cons n r =>
    refine h ⟨n, fun hnone => ?_⟩
    have happ : p ++ n :: r = (p ++ [n]) ++ r := by simp
    rw [happ] at hget
    by_cases hr : r = []
    · subst hr
      exact hget (by simpa using hnone)
    · simp [get_of_below hget hr] at hnone

/-! ## Operations -/

def empty : FileTree α where
  get q := if q = [] then some .dir else none
  support := [[]]
  mem_support := by
    intro q hq
    split at hq
    · next heq => simp [heq]
    · exact absurd rfl hq
  plain := by
    intro q hq
    split at hq
    · next heq => simp [heq]
    · exact absurd rfl hq
  root := if_pos rfl
  closed := by
    intro q n hq
    simp at hq

/-- Everything at and below a path is removed; the root stays. -/
def removeAll (t : FileTree α) (p : TreePath) : FileTree α where
  get q := if p <+: q ∧ q ≠ [] then none else t.get q
  support := t.support
  mem_support := by
    intro q hq
    split at hq
    · exact absurd rfl hq
    · exact t.mem_support hq
  plain := by
    intro q hq
    split at hq
    · exact absurd rfl hq
    · exact t.plain hq
  root := by simp [t.root]
  closed := by
    intro q n hq
    split at hq
    · exact absurd rfl hq
    · next hout =>
      rw [if_neg]
      · exact t.closed hq
      · rintro ⟨hp, -⟩
        exact hout ⟨hp.trans (prefix_append q [n]), by simp⟩

instance decidableIsDir (x : Option (Node α)) : Decidable (x = some .dir) :=
  match x with
  | none => isFalse (by simp)
  | some .dir => isTrue rfl
  | some (.file _) => isFalse (by simp)

instance (elem : Bytes) : Decidable (PlainElem elem) := inferInstanceAs (Decidable (_ ∧ _ ∧ _ ∧ _))

/-- A file may be written: its parent is a directory, and it is none itself. -/
structure Writable (t : FileTree α) (p : TreePath) : Prop where
  plain : ∀ e ∈ p, PlainElem e
  ne : p ≠ []
  parent : t.get p.dropLast = some .dir
  notDir : t.get p ≠ some .dir

instance (t : FileTree α) (p : TreePath) : Decidable (t.Writable p) :=
  decidable_of_iff ((∀ e ∈ p, PlainElem e) ∧ p ≠ [] ∧ t.get p.dropLast = some .dir ∧ t.get p ≠ some .dir)
    ⟨fun h => ⟨h.1, h.2.1, h.2.2.1, h.2.2.2⟩, fun h => ⟨h.plain, h.ne, h.parent, h.notDir⟩⟩

theorem dropLast_ne (h : p ≠ []) : p.dropLast ≠ p := by
  intro heq
  have hlen := congrArg length heq
  rw [length_dropLast] at hlen
  have := length_pos_iff.mpr h
  omega

def write (t : FileTree α) (p : TreePath) (data : α) (h : t.Writable p) : FileTree α where
  get q := if q = p then some (.file data) else t.get q
  support := t.support.insert p
  mem_support := by
    intro q hq
    split at hq
    · next heq => simp [heq]
    · exact mem_insert_of_mem (t.mem_support hq)
  plain := by
    intro q hq
    split at hq
    · next heq => exact heq ▸ h.plain
    · exact t.plain hq
  root := by rw [if_neg h.ne.symm, t.root]
  closed := by
    intro q n hq
    split at hq
    · next heq =>
      have hparent : q = p.dropLast := by simp [← heq]
      rw [hparent, if_neg (dropLast_ne h.ne)]
      exact h.parent
    · have hdir := t.closed hq
      rw [if_neg]
      · exact hdir
      · rintro rfl
        exact h.notDir hdir

def makeDirs (t : FileTree α) (p : TreePath) (h : ∀ e ∈ p, PlainElem e) : FileTree α where
  get q := if q <+: p then some .dir else t.get q
  support := p.inits ++ t.support
  mem_support := by
    intro q hq
    split at hq
    · next hp => simp [hp]
    · exact mem_append_right _ (t.mem_support hq)
  plain := by
    intro q hq
    split at hq
    · next hp => exact fun e he => h e (hp.subset he)
    · exact t.plain hq
  root := by simp
  closed := by
    intro q n hq
    by_cases hqp : q <+: p
    · rw [if_pos hqp]
    · rw [if_neg hqp]
      rw [if_neg fun hqn => hqp ((prefix_append q [n]).trans hqn)] at hq
      exact t.closed hq

def erase (t : FileTree α) (p : TreePath) (hp : p ≠ []) (h : ¬ t.HasChild p) : FileTree α where
  get q := if q = p then none else t.get q
  support := t.support
  mem_support := by
    intro q hq
    split at hq
    · exact absurd rfl hq
    · exact t.mem_support hq
  plain := by
    intro q hq
    split at hq
    · exact absurd rfl hq
    · exact t.plain hq
  root := by rw [if_neg hp.symm, t.root]
  closed := by
    intro q n hq
    split at hq
    · exact absurd rfl hq
    · rw [if_neg]
      · exact t.closed hq
      · rintro rfl
        exact h ⟨n, hq⟩

@[simp] theorem get_removeAll (t : FileTree α) (p q : TreePath) :
    (t.removeAll p).get q = if p <+: q ∧ q ≠ [] then none else t.get q := rfl

@[simp] theorem get_write (t : FileTree α) (p q : TreePath) (data : α) (h : t.Writable p) :
    (t.write p data h).get q = if q = p then some (.file data) else t.get q := rfl

@[simp] theorem get_makeDirs (t : FileTree α) (p q : TreePath) (h : ∀ e ∈ p, PlainElem e) :
    (t.makeDirs p h).get q = if q <+: p then some .dir else t.get q := rfl

@[simp] theorem get_erase (t : FileTree α) (p q : TreePath) (hp : p ≠ []) (h : ¬ t.HasChild p) :
    (t.erase p hp h).get q = if q = p then none else t.get q := rfl

/-- Some of what is at and below a path is removed, one leaf after the other. -/
def removeSome (t : FileTree α) (p : TreePath) (gone : List TreePath) : FileTree α :=
  gone.foldl (fun t q => if h : p <+: q ∧ q ≠ [] ∧ ¬ t.HasChild q then t.erase q h.2.1 h.2.2 else t) t

/-! ## Frames -/

/-- The trees are the same but at and below a path. -/
def Within (p : TreePath) (t t' : FileTree α) : Prop := ∀ q, ¬ p <+: q → t'.get q = t.get q

namespace Within

variable {p p' : TreePath} {t t' t'' : FileTree α}

theorem refl (p : TreePath) (t : FileTree α) : Within p t t := fun _ _ => rfl

theorem trans (h : Within p t t') (h' : Within p t' t'') : Within p t t'' :=
  fun q hq => (h' q hq).trans (h q hq)

theorem mono (h : Within p t t') (hp : p' <+: p) : Within p' t t' :=
  fun q hq => h q fun hpq => hq (hp.trans hpq)

theorem removeAll (p : TreePath) (t : FileTree α) : Within p t (t.removeAll p) := by
  intro q hq
  simp [hq]

theorem write {data : α} (h : t.Writable p) : Within p t (t.write p data h) := by
  intro q hq
  have hne : q ≠ p := by
    rintro rfl
    exact hq prefix_rfl
  simp [hne]

theorem erase (hp : p ≠ []) (h : ¬ t.HasChild p) : Within p t (t.erase p hp h) := by
  intro q hq
  have hne : q ≠ p := by
    rintro rfl
    exact hq prefix_rfl
  simp [hne]

theorem removeSome (p : TreePath) (gone : List TreePath) (t : FileTree α) : Within p t (t.removeSome p gone) := by
  induction gone generalizing t with
  | nil => exact refl p t
  | cons q gone ih =>
    unfold FileTree.removeSome at ih ⊢
    rw [foldl_cons]
    refine trans ?_ (ih _)
    split
    · next h => exact (erase h.2.1 h.2.2).mono h.1
    · exact refl p t

end Within

theorem get_removeSome (t : FileTree α) (p : TreePath) (gone : List TreePath) (q : TreePath) :
    (t.removeSome p gone).get q = none ∨ (t.removeSome p gone).get q = t.get q := by
  induction gone generalizing t with
  | nil => exact .inr rfl
  | cons r gone ih =>
    unfold removeSome at ih ⊢
    rw [foldl_cons]
    split
    · next h =>
      rcases ih (t.erase r h.2.1 h.2.2) with hnone | hsame
      · exact .inl hnone
      · rw [get_erase] at hsame
        by_cases hq : q = r
        · rw [if_pos hq] at hsame
          exact .inl hsame
        · rw [if_neg hq] at hsame
          exact .inr hsame
    · exact ih t

end FileTree

end Infra
