import Qrypt.Vfs.Overlay

/-!
# Virtual paths

A clean virtual path is a list of names. Its parent, its last name and the path of a child are read off the
list.
-/

namespace Vfs

open Infra Drive Upload List

variable {elems : List Bytes} {name : Bytes}

theorem exists_elems (path : Bytes) : ∃ elems, (∀ e ∈ elems, PlainElem e) ∧ cleanVirtualPath path = rootedPath elems :=
  exists_rootedPath _

theorem cleanVirtualPath_rootedPath (h : ∀ e ∈ elems, PlainElem e) :
    cleanVirtualPath (rootedPath elems) = rootedPath elems :=
  cleanPath_plain h

theorem rootedPath_eq_root_iff (h : ∀ e ∈ elems, PlainElem e) : rootedPath elems = [47] ↔ elems = [] := by
  cases elems with
  | nil => simp [rootedPath]
  | cons e es =>
    have he : e ≠ [] := (h e mem_cons_self).1
    cases es with
    | nil => simp [rootedPath, he]
    | cons e' es => simp [rootedPath, intercalate_cons_cons]

theorem joinVirtualPath_rootedPath (h : ∀ e ∈ elems, PlainElem e) :
    joinVirtualPath (rootedPath elems) name = rootedPath (elems ++ [name]) := by
  simp only [joinVirtualPath, cleanVirtualPath_rootedPath h, rootedPath_eq_root_iff h, rootedPath_append]
  split <;> rfl

theorem parentVirtualPath_rootedPath (h : 47 ∉ name) :
    parentVirtualPath (rootedPath (elems ++ [name])) = rootedPath elems := by
  simp only [parentVirtualPath, dropWhile_rootedPath h, tail_cons, reverse_reverse]
  cases elems with
  | nil => simp [rootedPath]
  | cons e es =>
    have hroot : rootedPath ((e :: es) ++ [name]) ≠ [47] := by
      rw [rootedPath_append]
      simp [rootedPath]
    have hdir : rootedPath (e :: es) ≠ [] := by simp [rootedPath]
    simp only [cons_ne_nil, if_false, hroot, hdir, or_self]

theorem splitName_rootedPath (h : PlainElem name) : splitName (rootedPath (elems ++ [name])) = name := by
  obtain ⟨hnil, -, -, hslash⟩ := h
  have hroot : rootedPath (elems ++ [name]) ≠ [47] := by
    rw [rootedPath_append]
    cases elems with
    | nil => simpa using hnil
    | cons e es => simp [rootedPath]
  rw [splitName, if_neg hroot, rootedPath_append, reverse_append, reverse_cons,
    append_assoc, takeWhile_append_of_pos]
  · simp
  · intro a ha
    simpa using ne_of_mem_of_not_mem (mem_reverse.mp ha) hslash

/-! ## Children -/

/-- A child of a clean path. -/
structure ChildOf (parentPath name path : Bytes) : Prop where
  plain : PlainElem name
  clean : cleanVirtualPath path = path
  join : joinVirtualPath parentPath name = path
  parent : parentVirtualPath path = cleanVirtualPath parentPath
  dir : dirPath path = cleanVirtualPath parentPath
  split : splitName path = name
  longer : (cleanVirtualPath parentPath).length < path.length

theorem childOf_rootedPath (h : ∀ e ∈ elems, PlainElem e) (hname : PlainElem name) :
    ChildOf (rootedPath elems) name (rootedPath (elems ++ [name])) := by
  have hall : ∀ e ∈ elems ++ [name], PlainElem e :=
    forall_mem_append.mpr ⟨h, forall_mem_singleton.mpr hname⟩
  have hclean := cleanVirtualPath_rootedPath h
  refine ⟨hname, cleanVirtualPath_rootedPath hall, joinVirtualPath_rootedPath h, ?_, ?_,
    splitName_rootedPath hname, ?_⟩
  · rw [hclean, parentVirtualPath_rootedPath hname.2.2.2]
  · rw [hclean, dirPath_rootedPath h hname.2.2.2]
  · rw [hclean, rootedPath_append]
    have hpos : 0 < name.length := length_pos_iff.mpr hname.1
    split
    · next hnil => simp [hnil, rootedPath, hpos]
    · simp

theorem joinVirtualPath_clean (path name : Bytes) :
    joinVirtualPath (cleanVirtualPath path) name = joinVirtualPath path name := by
  simp only [joinVirtualPath, cleanVirtualPath_idem]

theorem childOf_join (parentPath : Bytes) (h : PlainElem name) :
    ChildOf parentPath name (joinVirtualPath parentPath name) := by
  obtain ⟨elems, hplain, hclean⟩ := exists_elems parentPath
  have hchild := childOf_rootedPath hplain h
  rw [← hclean] at hchild
  have hpath : joinVirtualPath parentPath name = rootedPath (elems ++ [name]) := by
    rw [← hchild.join, joinVirtualPath_clean]
  rw [hpath]
  exact ⟨h, hchild.clean, hpath, by rw [hchild.parent, cleanVirtualPath_idem],
    by rw [hchild.dir, cleanVirtualPath_idem], hchild.split, by
      have hlonger := hchild.longer
      rwa [cleanVirtualPath_idem] at hlonger⟩

theorem childOf_parent {path : Bytes} (hclean : cleanVirtualPath path = path) (hroot : path ≠ [47]) :
    ChildOf (parentVirtualPath path) (splitName path) path := by
  obtain ⟨elems, hplain, heq⟩ := exists_elems path
  rw [hclean] at heq
  rcases eq_nil_or_concat elems with rfl | ⟨elems', name, rfl⟩
  · exact absurd heq hroot
  · rw [concat_eq_append] at heq hplain
    have hchild := childOf_rootedPath (fun e he => hplain e (mem_append_left _ he)) (hplain name (by simp))
    rw [← heq] at hchild
    have hparent : parentVirtualPath path = rootedPath elems' := by
      rw [hchild.parent, cleanVirtualPath_rootedPath fun e he => hplain e (mem_append_left _ he)]
    rwa [hparent, hchild.split]

theorem joinVirtualPath_inj {path name name' : Bytes}
    (h : joinVirtualPath path name = joinVirtualPath path name') : name = name' := by
  unfold joinVirtualPath at h
  dsimp only at h
  split at h
  · exact (cons.inj h).2
  · exact (cons.inj (append_cancel_left h)).2

theorem isPathUnder_of_parent {path dir : Bytes} (hclean : cleanVirtualPath path = path) (hroot : path ≠ [47])
    (hdir : cleanVirtualPath dir = dir) (hne : dir ≠ [47])
    (h : parentVirtualPath path = dir ∨ isPathUnder (parentVirtualPath path) dir = true) :
    isPathUnder path dir = true := by
  have hchild := childOf_parent hclean hroot
  have hparent := hchild.parent.symm
  have hpath : parentVirtualPath path ≠ [47] → path = parentVirtualPath path ++ 47 :: splitName path := by
    intro hp
    have hjoin := hchild.join
    rw [joinVirtualPath, hparent, if_neg hp] at hjoin
    exact hjoin.symm
  simp only [isPathUnder, hclean, hdir, hparent, decide_eq_true_eq] at h ⊢
  rcases h with h | ⟨-, hlt, htake, hslash⟩
  · rw [h] at hpath
    rw [hpath hne]
    simp [hne]
  · have hp : parentVirtualPath path ≠ [47] := by
      intro hp
      rw [hp] at hlt
      cases dir with
      | nil => cases hdir
      | cons => simp at hlt
    rw [hpath hp]
    refine ⟨hne, ?_, ?_, ?_⟩
    · simp
      omega
    · rw [take_append_of_le_length (by omega), htake]
    · rw [getElem?_append_left (by omega), hslash]

end Vfs
