import Qrypt.Infra.Bytes

/-!
# Slash-separated paths

The lexical functions of the packages `path` and `path/filepath`.
-/

namespace Infra

open List

/-- One element of a path is added to those kept so far, the last one first. -/
def cleanStep (rooted : Bool) (out : List Bytes) (elem : Bytes) : List Bytes :=
  if elem = [] ∨ elem = ascii "." then out
  else if elem = ascii ".." then
    match out with
    | [] => if rooted then [] else [elem]
    | top :: rest => if top = ascii ".." then elem :: out else rest
  else elem :: out

/-- `Clean`. -/
def cleanPath (path : Bytes) : Bytes :=
  let rooted := path.head? == some 47
  let out := [47].intercalate ((path.splitOn 47).foldl (cleanStep rooted) []).reverse
  if rooted then 47 :: out else if out = [] then ascii "." else out

/-- `Join` of two elements. -/
def joinPath (a b : Bytes) : Bytes :=
  if a = [] ∧ b = [] then []
  else if a = [] then cleanPath b
  else cleanPath (a ++ 47 :: b)

/-- `Dir`. -/
def dirPath (path : Bytes) : Bytes := cleanPath (path.reverse.dropWhile (· ≠ 47)).reverse

/-- `Base`. -/
def basePath (path : Bytes) : Bytes :=
  if path = [] then ascii "."
  else
    let base := ((path.reverse.dropWhile (· = 47)).takeWhile (· ≠ 47)).reverse
    if base = [] then ascii "/" else base

example : cleanPath (ascii "/a//./b/../c/") = ascii "/a/c" := by decide
example : joinPath (dirPath (ascii "r/x")) (ascii "y") = ascii "r/y" := by decide

/-! ## Clean paths -/

/-- A part of a clean path. -/
def PlainElem (elem : Bytes) : Prop := elem ≠ [] ∧ elem ≠ ascii "." ∧ elem ≠ ascii ".." ∧ 47 ∉ elem

variable {out : List Bytes} {elem path : Bytes} {elems : List Bytes} {rooted : Bool}

theorem cleanStep_plain (h : PlainElem elem) : cleanStep true out elem = elem :: out := by
  obtain ⟨hnil, hdot, hdots, -⟩ := h
  simp [cleanStep, hnil, hdot, hdots]

theorem forall_plain_cleanStep (hout : ∀ o ∈ out, PlainElem o)
    (helem : 47 ∉ elem) : ∀ o ∈ cleanStep true out elem, PlainElem o := by
  unfold cleanStep
  split
  · exact hout
  next hne =>
  rw [not_or] at hne
  split
  · split
    · simp
    · next top rest =>
      split
      · next htop => exact absurd htop (hout top mem_cons_self).2.2.1
      · exact fun o ho => hout o (mem_cons_of_mem _ ho)
  · next hdots => exact forall_mem_cons.mpr ⟨⟨hne.1, hne.2, hdots, helem⟩, hout⟩

theorem forall_plain_foldl (elems : List Bytes) (helems : ∀ e ∈ elems, 47 ∉ e)
    (hout : ∀ o ∈ out, PlainElem o) : ∀ o ∈ elems.foldl (cleanStep true) out, PlainElem o := by
  induction elems generalizing out with
  | nil => exact hout
  | cons elem elems ih =>
    exact ih (fun e he => helems e (mem_cons_of_mem _ he))
      (forall_plain_cleanStep hout (helems elem mem_cons_self))

theorem foldl_cleanStep_plain (elems out : List Bytes) (h : ∀ e ∈ elems, PlainElem e) :
    elems.foldl (cleanStep true) out = elems.reverse ++ out := by
  induction elems generalizing out with
  | nil => rfl
  | cons elem elems ih =>
    rw [foldl_cons, cleanStep_plain (h elem mem_cons_self),
      ih _ fun e he => h e (mem_cons_of_mem _ he)]
    simp

def rootedPath (elems : List Bytes) : Bytes := 47 :: [47].intercalate elems

theorem cleanPath_rootedPath (h : ∀ e ∈ elems, 47 ∉ e) :
    cleanPath (rootedPath elems) = rootedPath (elems.foldl (cleanStep true) []).reverse := by
  have hsplit : (rootedPath elems).splitOn 47 = [] :: ([47].intercalate elems).splitOn 47 := by
    show ([] ++ 47 :: [47].intercalate elems : Bytes).splitOn 47 = _
    rw [splitOn_append_cons_self_of_not_mem not_mem_nil]
  have hfold : ([] :: ([47].intercalate elems).splitOn 47).foldl (cleanStep true) [] =
      elems.foldl (cleanStep true) [] := by
    cases elems with
    | nil => rfl
    | cons e es =>
      rw [splitOn_intercalate 47 h (by simp), foldl_cons]
      rfl
  have hrooted : ((rootedPath elems).head? == some 47) = true := rfl
  simp only [cleanPath, hrooted, hsplit, hfold, if_true]
  rfl

theorem cleanPath_plain (h : ∀ e ∈ elems, PlainElem e) : cleanPath (rootedPath elems) = rootedPath elems := by
  rw [cleanPath_rootedPath fun e he => (h e he).2.2.2, foldl_cleanStep_plain _ _ h, append_nil,
    reverse_reverse]

theorem exists_rootedPath (path : Bytes) :
    ∃ elems, (∀ e ∈ elems, PlainElem e) ∧ cleanPath (47 :: path) = rootedPath elems := by
  refine ⟨(((47 :: path).splitOn 47).foldl (cleanStep true) []).reverse, ?_, by simp [cleanPath, rootedPath]⟩
  intro e he
  exact forall_plain_foldl _ (fun _ he => not_mem_of_mem_splitOn he)
    (fun _ h => absurd h not_mem_nil) e (mem_reverse.mp he)

/-- **Cleaning a rooted path again changes nothing.** -/
theorem cleanPath_cleanPath (path : Bytes) : cleanPath (cleanPath (47 :: path)) = cleanPath (47 :: path) := by
  obtain ⟨elems, hplain, heq⟩ := exists_rootedPath path
  rw [heq, cleanPath_plain hplain]

/-! ## Paths below others -/

/-- The elements of a path that is read from some directory on, the last one first. -/
def relativeElems (path : Bytes) : List Bytes := (path.splitOn 47).foldl (cleanStep false) []

/-- What cleaning keeps: no empty element and no single dot, and parents only at the bottom. -/
structure Kept (out : List Bytes) : Prop where
  solid : ∀ o ∈ out, o ≠ [] ∧ o ≠ ascii "."
  bottom : ascii ".." ∈ out → out.getLast? = some (ascii "..")
  slash : ∀ o ∈ out, 47 ∉ o

theorem kept_cleanStep (h : Kept out) (helem : 47 ∉ elem) : Kept (cleanStep false out elem) := by
  unfold cleanStep
  split
  · exact h
  next hne =>
  rw [not_or] at hne
  have hpush : (ascii ".." ∈ elem :: out → (elem :: out).getLast? = some (ascii "..")) → Kept (elem :: out) := by
    intro hbottom
    refine ⟨?_, hbottom, ?_⟩
    · simpa [hne] using h.solid
    · simpa [helem] using h.slash
  split
  · next hdots =>
    split
    · refine hpush fun _ => ?_
      simp [hdots]
    · next top rest =>
      split
      · next htop =>
        refine hpush fun _ => ?_
        exact h.bottom (by simp [htop])
      · refine ⟨fun o ho => h.solid o (mem_cons_of_mem _ ho), fun hmem => ?_,
          fun o ho => h.slash o (mem_cons_of_mem _ ho)⟩
        have hlast := h.bottom (mem_cons_of_mem _ hmem)
        cases rest with
        | nil => cases hmem
        | cons o rest => rwa [getLast?_cons_cons] at hlast
  · next hdots =>
    refine hpush fun hmem => ?_
    have hmem : ascii ".." ∈ out := by simpa [Ne.symm hdots] using hmem
    have hlast := h.bottom hmem
    cases out with
    | nil => cases hmem
    | cons o out => rwa [getLast?_cons_cons]

theorem kept_foldl (helems : ∀ e ∈ elems, 47 ∉ e) (h : Kept out) : Kept (elems.foldl (cleanStep false) out) := by
  induction elems generalizing out with
  | nil => exact h
  | cons elem elems ih =>
    exact ih (fun e he => helems e (mem_cons_of_mem _ he)) (kept_cleanStep h (helems elem mem_cons_self))

theorem kept_relativeElems (path : Bytes) : Kept (relativeElems path) := by
  refine kept_foldl (fun _ he => not_mem_of_mem_splitOn he) ⟨?_, ?_, ?_⟩
  all_goals simp

theorem foldl_cleanStep_cleanStep {kept : List Bytes} (h : Kept kept) (elem : Bytes) :
    cleanStep rooted (kept.reverse.foldl (cleanStep rooted) out) elem =
      (cleanStep false kept elem).reverse.foldl (cleanStep rooted) out := by
  have hpush : cleanStep false kept elem = elem :: kept →
      cleanStep rooted (kept.reverse.foldl (cleanStep rooted) out) elem =
        (cleanStep false kept elem).reverse.foldl (cleanStep rooted) out := by
    intro hstep
    simp [hstep]
  by_cases hskip : elem = [] ∨ elem = ascii "."
  · simp [cleanStep, hskip]
  by_cases hdots : elem = ascii ".."
  · subst hdots
    cases kept with
    | nil => exact hpush (by decide)
    | cons top rest =>
      by_cases htop : top = ascii ".."
      · subst htop
        exact hpush (by simp [cleanStep, hskip])
      · -- an element that was added is taken away again
        have hsolid := h.solid top mem_cons_self
        have hstep : cleanStep false (top :: rest) (ascii "..") = rest := by simp [cleanStep, hskip, htop]
        have htop' : ∀ out, cleanStep rooted out top = top :: out := by
          simp [cleanStep, hsolid, htop]
        rw [hstep, reverse_cons, foldl_append, foldl_cons, foldl_nil, htop']
        simp [cleanStep, hskip, htop]
  · exact hpush (by simp [cleanStep, hskip, hdots])

/-- **Only the cleaned elements of a path matter to the directory it is read from.** -/
theorem foldl_cleanStep_relative (helems : ∀ e ∈ elems, 47 ∉ e) (out : List Bytes) :
    elems.foldl (cleanStep rooted) out =
      ((elems.foldl (cleanStep false) []).reverse).foldl (cleanStep rooted) out := by
  induction elems using reverseRecOn with
  | nil => rfl
  | append_singleton elems elem ih =>
    have hkept : Kept (elems.foldl (cleanStep false) []) := by
      refine kept_foldl (fun e he => helems e (mem_append_left _ he)) ⟨?_, ?_, ?_⟩
      all_goals simp
    rw [foldl_append, foldl_append, foldl_cons, foldl_nil, foldl_cons, foldl_nil,
      ih fun e he => helems e (mem_append_left _ he)]
    exact foldl_cleanStep_cleanStep hkept elem

theorem cleanPath_append_congr (base : Bytes) {path' : Bytes} (h : relativeElems path = relativeElems path') :
    cleanPath (base ++ 47 :: path) = cleanPath (base ++ 47 :: path') := by
  have hrelative : ∀ (path : Bytes) rooted out, (path.splitOn 47).foldl (cleanStep rooted) out =
      (relativeElems path).reverse.foldl (cleanStep rooted) out :=
    fun path rooted out => foldl_cleanStep_relative (fun _ he => not_mem_of_mem_splitOn he) out
  have hhead : ∀ path, (base ++ 47 :: path).head? = (base ++ [47]).head? := by
    intro path
    cases base <;> rfl
  simp only [cleanPath, hhead, splitOn_append_cons_self, foldl_append, hrelative, h]

theorem relativeElems_plain (h : PlainElem elem) : relativeElems elem = [elem] := by
  obtain ⟨hnil, hdot, hdots, hslash⟩ := h
  simp [relativeElems, splitOn_eq_singleton hslash, cleanStep, hnil, hdot]

theorem not_mem_foldl (helems : ∀ e ∈ elems, 47 ∉ e)
    (hout : ∀ o ∈ out, 47 ∉ o) : ∀ o ∈ elems.foldl (cleanStep rooted) out, 47 ∉ o := by
  induction elems generalizing out with
  | nil => exact hout
  | cons elem elems ih =>
    refine ih (fun e he => helems e (mem_cons_of_mem _ he)) ?_
    have hpush : ∀ o ∈ elem :: out, 47 ∉ o := by simpa [helems elem mem_cons_self] using hout
    unfold cleanStep
    split
    · exact hout
    split
    · split
      · split
        · simp
        · simpa using helems elem mem_cons_self
      · split
        · exact hpush
        · exact fun o ho => hout o (mem_cons_of_mem _ ho)
    · exact hpush

/-- **Children of a directory with different names are different.** -/
theorem cleanPath_append_inj (base : Bytes) {name name' : Bytes} (h : PlainElem name) (h' : PlainElem name')
    (heq : cleanPath (base ++ 47 :: name) = cleanPath (base ++ 47 :: name')) : name = name' := by
  have hhead : ∀ path : Bytes, ((base ++ 47 :: path).head? == some 47) = ((base ++ [47]).head? == some 47) := by
    intro path
    cases base <;> rfl
  generalize ((base ++ [47]).head? == some 47) = rooted at hhead
  generalize hout : (base.splitOn 47).foldl (cleanStep rooted) [] = out
  have hslash : ∀ o ∈ out, 47 ∉ o := by
    rw [← hout]
    exact not_mem_foldl (fun _ he => not_mem_of_mem_splitOn he) (by simp)
  have hsplit : ∀ {name : Bytes}, PlainElem name →
      ([47].intercalate (out.reverse ++ [name])).splitOn 47 = out.reverse ++ [name] := by
    intro name hname
    refine splitOn_intercalate 47 (forall_mem_append.mpr ⟨fun e he => ?_, ?_⟩) (by simp)
    · exact hslash e (mem_reverse.mp he)
    · exact forall_mem_singleton.mpr hname.2.2.2
  have hpath : ∀ {name : Bytes}, PlainElem name → cleanPath (base ++ 47 :: name) =
      (if rooted then [47] else []) ++ [47].intercalate (out.reverse ++ [name]) := by
    intro name hname
    have hstep : cleanStep rooted out name = name :: out := by
      simp [cleanStep, hname.1, hname.2.1, hname.2.2.1]
    have hne : [47].intercalate (out.reverse ++ [name]) ≠ [] := by
      intro hnil
      have hlast := congrArg getLast? (hsplit hname)
      rw [hnil] at hlast
      simpa [hname.1] using hlast.symm
    simp only [cleanPath, hhead, splitOn_append_cons_self, foldl_append, hout,
      splitOn_eq_singleton hname.2.2.2, foldl_cons, foldl_nil, hstep, reverse_cons, hne]
    cases rooted <;> rfl
  rw [hpath h, hpath h', append_cancel_left_eq] at heq
  have hlists : out.reverse ++ [name] = out.reverse ++ [name'] := by
    rw [← hsplit h, heq, hsplit h']
  simpa using hlists

theorem rootedPath_inj {elems' : List Bytes} (h : ∀ e ∈ elems, PlainElem e) (h' : ∀ e ∈ elems', PlainElem e)
    (heq : rootedPath elems = rootedPath elems') : elems = elems' := by
  have hsplit : ∀ {l : List Bytes}, (∀ e ∈ l, PlainElem e) →
      ([47].intercalate l).splitOn 47 = if l = [] then [[]] else l := by
    intro l hl
    split
    · next hnil => simp [hnil]
    · next hnil => exact splitOn_intercalate 47 (fun e he => (hl e he).2.2.2) hnil
  have hsame := congrArg (splitOn 47) (cons.inj heq).2
  rw [hsplit h, hsplit h'] at hsame
  split at hsame
  all_goals split at hsame
  · simp_all
  · next hnil =>
    have hmem := h' [] (by simp [← hsame])
    exact absurd rfl hmem.1
  · have hmem := h [] (by simp [hsame])
    exact absurd rfl hmem.1
  · exact hsame

theorem cleanPath_rootedPath_append (h : ∀ e ∈ elems, PlainElem e) (path : Bytes) :
    cleanPath (rootedPath elems ++ 47 :: path) =
      rootedPath ((relativeElems path).reverse.foldl (cleanStep true) elems.reverse).reverse := by
  have hbase : (rootedPath elems).splitOn 47 = [] :: ([47].intercalate elems).splitOn 47 := by
    show ([] ++ 47 :: [47].intercalate elems : Bytes).splitOn 47 = _
    rw [splitOn_append_cons_self_of_not_mem not_mem_nil]
  have hfold : ([] :: ([47].intercalate elems).splitOn 47).foldl (cleanStep true) [] = elems.reverse := by
    cases elems with
    | nil => rfl
    | cons e es =>
      rw [splitOn_intercalate 47 (fun e he => (h e he).2.2.2) (by simp), foldl_cons,
        show cleanStep true [] [] = [] from rfl, foldl_cleanStep_plain _ _ h, append_nil]
  have hrooted : ((rootedPath elems ++ 47 :: path).head? == some 47) = true := rfl
  simp only [cleanPath, hrooted, splitOn_append_cons_self, hbase, foldl_append, hfold, if_true]
  rw [foldl_cleanStep_relative fun _ he => not_mem_of_mem_splitOn he]
  rfl

theorem count_foldl_le {b : Bytes} (h : b ∉ elems) (out : List Bytes) :
    (elems.foldl (cleanStep true) out).count b ≤ out.count b := by
  induction elems generalizing out with
  | nil => exact Nat.le_refl _
  | cons elem elems ih =>
    rw [mem_cons, not_or] at h
    refine (ih h.2 _).trans ?_
    unfold cleanStep
    split
    · exact Nat.le_refl _
    split
    · split
      · simp
      · split
        · rw [count_cons_of_ne (Ne.symm h.1)]
        · exact count_le_count_cons
    · rw [count_cons_of_ne (Ne.symm h.1)]

/-- **Only a path that is a single name leads from every directory to a child of it.** -/
theorem relativeElems_of_child (h : ∀ elems : List Bytes, elems ≠ [] → (∀ e ∈ elems, PlainElem e) →
      ∃ name, PlainElem name ∧ cleanPath (rootedPath elems ++ 47 :: path) = rootedPath (elems ++ [name])) :
    ∃ name, PlainElem name ∧ relativeElems path = [name] := by
  have hkept := kept_relativeElems path
  -- a directory whose name is longer than all of the path
  obtain ⟨b, hb, hfresh⟩ : ∃ b, PlainElem b ∧ b ∉ relativeElems path := by
    refine ⟨replicate ((relativeElems path).flatten.length + 3) 98, ⟨?_, ?_, ?_, ?_⟩, fun hmem => ?_⟩
    · simp
    · intro heq
      have hlen := congrArg length heq
      rw [length_replicate, show (ascii ".").length = 1 from by decide] at hlen
      omega
    · intro heq
      have hlen := congrArg length heq
      rw [length_replicate, show (ascii "..").length = 2 from by decide] at hlen
      omega
    · simp
    · have hle := (sublist_flatten_of_mem hmem).length_le
      rw [length_replicate] at hle
      omega
  have hplain : ∀ e ∈ [b, b], PlainElem e := by simp [hb]
  obtain ⟨name, hname, heq⟩ := h [b, b] (by simp) hplain
  rw [cleanPath_rootedPath_append hplain] at heq
  have hout : ∀ e ∈ (relativeElems path).reverse.foldl (cleanStep true) [b, b], PlainElem e :=
    forall_plain_foldl _ (fun e he => hkept.slash e (mem_reverse.mp he)) hplain
  have hstack : (relativeElems path).reverse.foldl (cleanStep true) [b, b] = [name, b, b] := by
    have hinj := rootedPath_inj (fun e he => hout e (mem_reverse.mp he)) (by simp [hb, hname]) heq
    simpa using congrArg reverse hinj
  by_cases hdots : ascii ".." ∈ relativeElems path
  · -- the path would leave the directory
    obtain ⟨rest, hrest⟩ : ∃ rest, (relativeElems path).reverse = ascii ".." :: rest := by
      have hlast := hkept.bottom hdots
      rw [← head?_reverse] at hlast
      exact head?_eq_some_iff.mp hlast
    have hfresh' : b ∉ rest := by
      intro hmem
      refine hfresh (mem_reverse.mp ?_)
      rw [hrest]
      exact mem_cons_of_mem _ hmem
    have hparent : ascii ".." ≠ [] ∧ ascii ".." ≠ ascii "." := by decide
    have hup : cleanStep true [b, b] (ascii "..") = [b] := by simp [cleanStep, hb.2.2.1, hparent]
    rw [hrest, foldl_cons, hup] at hstack
    have hle := count_foldl_le hfresh' [b]
    have htwo : [b, b].count b ≤ [name, b, b].count b := count_le_count_cons
    rw [hstack] at hle
    have hcount := htwo.trans hle
    simp at hcount
  · have hall : ∀ e ∈ (relativeElems path).reverse, PlainElem e := by
      intro e he
      have he := mem_reverse.mp he
      exact ⟨(hkept.solid e he).1, (hkept.solid e he).2, fun hd => hdots (hd ▸ he), hkept.slash e he⟩
    rw [foldl_cleanStep_plain _ _ hall, reverse_reverse] at hstack
    refine ⟨name, hname, ?_⟩
    have hsame : relativeElems path ++ [b, b] = [name] ++ [b, b] := hstack
    exact append_cancel_right hsame

/-! ## The last element -/

theorem rootedPath_append (elems : List Bytes) (elem : Bytes) :
    rootedPath (elems ++ [elem]) = (if elems = [] then [] else rootedPath elems) ++ 47 :: elem := by
  induction elems with
  | nil => simp [rootedPath]
  | cons e es ih =>
    cases es with
    | nil => simp [rootedPath]
    | cons e' es =>
      simp only [rootedPath, cons_append, intercalate_cons_cons, cons_ne_nil,
        if_false, cons.injEq, true_and] at ih ⊢
      simp [ih]

section Last

variable {elems : List Bytes} {elem : Bytes}

theorem dropWhile_rootedPath (h : 47 ∉ elem) : (rootedPath (elems ++ [elem])).reverse.dropWhile (· ≠ 47) =
      47 :: (if elems = [] then [] else rootedPath elems).reverse := by
  rw [rootedPath_append, reverse_append, reverse_cons, append_assoc, dropWhile_append_of_pos]
  · rfl
  · intro a ha
    simpa using ne_of_mem_of_not_mem (mem_reverse.mp ha) h

theorem dirPath_rootedPath (h : ∀ e ∈ elems, PlainElem e) (helem : 47 ∉ elem) :
    dirPath (rootedPath (elems ++ [elem])) = rootedPath elems := by
  have hdir : ((rootedPath (elems ++ [elem])).reverse.dropWhile (· ≠ 47)).reverse = rootedPath (elems ++ [[]]) := by
    rw [dropWhile_rootedPath helem, rootedPath_append, reverse_cons, reverse_reverse]
  have hnil : ∀ e ∈ elems ++ [[]], 47 ∉ e := forall_mem_append.mpr ⟨fun e he => (h e he).2.2.2, by simp⟩
  rw [dirPath, hdir, cleanPath_rootedPath hnil, foldl_append, foldl_cleanStep_plain _ _ h]
  simp [cleanStep]

theorem dropWhile_slash_rootedPath (h : PlainElem elem) :
    (rootedPath (elems ++ [elem])).reverse.dropWhile (· = 47) = (rootedPath (elems ++ [elem])).reverse := by
  obtain ⟨hnil, -, -, hslash⟩ := h
  rw [rootedPath_append, reverse_append, reverse_cons]
  cases hrev : elem.reverse with
  | nil => exact absurd (reverse_eq_nil_iff.mp hrev) hnil
  | cons b bs =>
    have hb : b ≠ 47 := by
      rintro rfl
      exact hslash (mem_reverse.mp (hrev ▸ mem_cons_self))
    simp [hb]

theorem basePath_rootedPath (h : PlainElem elem) : basePath (rootedPath (elems ++ [elem])) = elem := by
  have hdrop : (rootedPath (elems ++ [elem])).reverse.dropWhile (· = 47) = _ := dropWhile_slash_rootedPath h
  obtain ⟨hnil, -, -, hslash⟩ := h
  have htake : ((rootedPath (elems ++ [elem])).reverse.takeWhile (· ≠ 47)).reverse = elem := by
    rw [rootedPath_append, reverse_append, reverse_cons, append_assoc, takeWhile_append_of_pos]
    · simp
    · intro a ha
      simpa using ne_of_mem_of_not_mem (mem_reverse.mp ha) hslash
  have hne : rootedPath (elems ++ [elem]) ≠ [] := by simp [rootedPath]
  simp only [basePath, hne, hdrop, htake, hnil, if_false]

end Last

end Infra
