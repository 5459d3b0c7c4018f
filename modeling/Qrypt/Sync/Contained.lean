import Qrypt.Sync.Run

/-!
# The source of a sync

`CheckContainment` compares the roots only if the mount names agree, and it does not look for a source inside the
destination. A run keeps its source apart from these cases.

* `sourceUntouched_iff` — no run of a request touches the source exactly if nothing is executed or the roots do not
  overlap
-/

namespace Sync

open Infra List

/-- One root is at or below the other; if they are the same, a new run of an encrypted mount ends with the first
comparison. -/
def Overlaps (req : Request) : Prop :=
  req.source.kind = req.destination.kind ∧
    (req.source.root <+: req.destination.root ∧ req.source.root ≠ req.destination.root ∨
      req.destination.root <+: req.source.root ∧ req.source.root ≠ req.destination.root ∨
      req.source.root = req.destination.root ∧
        (req.resume = true ∨ req.source.encrypted = false ∧ req.destination.encrypted = false))

/-! ## Apart -/

section Apart

variable {env : Env} {req : Request} {w : World}

theorem vfs_of_refusal (h : refusal req = none) (hkind : req.source.kind = req.destination.kind) :
    req.source.kind = .vfs ∧ req.destination.kind = .vfs := by
  cases hdst : req.destination.kind with
  | vfs => exact ⟨hkind.trans hdst, rfl⟩
  | disk => simp [refusal, hkind, hdst] at h

theorem untouched_of_kind (hkind : req.source.kind ≠ req.destination.kind) (ops : List PlanEntry) (saved : Saved)
    (result : Result) : SourceUntouched req w (execute env req w ops saved result).world := by
  have hside : (execute env req w ops saved result).world.side req.source.kind = w.side req.source.kind := by
    refine execute_rule (P := fun w' => w'.side req.source.kind = w.side req.source.kind) ?_ ?_
    · exact w.side_set_ne hkind _
    · intro e _ _ w' hw'
      rw [side_perform_ne _ _ _ _ _ _ hkind, hw']
  intro q _
  rw [hside]

/-- Only what is below the root of the destination is written to. -/
theorem untouched_of_apart (hkind : req.source.kind = .vfs ∧ req.destination.kind = .vfs)
    (hS : ¬ req.source.root <+: req.destination.root) (hD : ¬ req.destination.root <+: req.source.root)
    (ops : List PlanEntry) (saved : Saved) (result : Result) :
    SourceUntouched req w (execute env req w ops saved result).world := by
  have hwithin : FileTree.Within req.destination.root (w.side req.destination.kind)
      ((execute env req w ops saved result).world.side req.destination.kind) := by
    refine execute_rule (P := fun w' => FileTree.Within req.destination.root (w.side req.destination.kind)
      (w'.side req.destination.kind)) ?_ ?_
    · rw [World.side_set, hkind.2]
      exact within_mkdir_vfs _ _ _
    · intro e _ _ w' hw'
      exact hw'.trans ((within_perform _ _ _ _ _ _ hkind.2).mono (prefix_append _ _))
  intro q hq
  rw [hkind.1, ← hkind.2]
  refine hwithin q fun hq' => ?_
  rcases prefix_or_prefix_of_prefix hq hq' with h | h
  · exact hS h
  · exact hD h

/-- A comparison of an encrypted mount with itself has no differences. -/
theorem planOf_same (hkind : req.source.kind = .vfs ∧ req.destination.kind = .vfs)
    (hroot : req.source.root = req.destination.root)
    (henc : ¬ (req.source.encrypted = false ∧ req.destination.encrypted = false)) {ops : List PlanEntry}
    (h : planOf env req w = .ok ops) : ops = [] := by
  have hsame : ∀ p, entryAt w req.source p = entryAt w req.destination p := by
    intro p
    simp only [entryAt, hkind.1, hkind.2, hroot]
  refine eq_nil_iff_forall_not_mem.mpr fun e he => ?_
  obtain ⟨d, hd, -⟩ := (mem_planOf h e).mp he
  rw [hsame] at hd
  have hhash : (compareOptions env req).hash e.path =
      .error (ascii "hash comparison between encrypted mounts is not supported") := by
    have henc' : req.source.encrypted = true ∨ req.destination.encrypted = true := by
      cases hs : req.source.encrypted with
      | true => exact .inl rfl
      | false =>
        cases hd : req.destination.encrypted with
        | true => exact .inr rfl
        | false => exact absurd ⟨hs, hd⟩ henc
    simp [compareOptions, compareHashPair, hkind, henc', degrade, Except.mapError]
  cases hentry : entryAt w req.destination e.path with
  | none =>
    rw [hentry] at hd
    cases hd
  | some a =>
    rw [hentry] at hd
    by_cases hdir : a.isDir = true
    · simp [differAt, hdir] at hd
    · simp [differAt, hdir, hhash, Except.map] at hd

theorem root_of_planOf (hkind : req.source.kind = .vfs) {ops : List PlanEntry} (h : planOf env req w = .ok ops) :
    (w.side req.source.kind).get req.source.root = some .dir := by
  unfold planOf at h
  split at h
  · cases h
  next snap hsnap =>
  unfold snapshotTarget at hsnap
  split at hsnap
  · cases hsnap
  · split at hsnap
    · next hdir => exact hdir
    · cases hsnap
    · simp [hkind] at hsnap

theorem execute_nil (hkind : req.destination.kind = .vfs)
    (hroot : (w.side req.destination.kind).get req.destination.root = some .dir) (saved : Saved) (result : Result) :
    (execute env req w [] saved result).world = w := by
  refine execute_rule (P := fun w' => w' = w) ?_ (by simp)
  have hmkdir : (mkdir req.destination.kind (w.side req.destination.kind) req.destination.root env.root).2 =
      w.side req.destination.kind := by
    rw [hkind] at hroot ⊢
    simp only [mkdir]
    split
    · rfl
    · simp [hroot]
  rw [hmkdir, World.set_side]

end Apart

/-! ## Overlapping roots -/

/-- An environment with one driver and hashes that prove nothing, in which nothing fails but the steps. -/
def oneDriver (name : Bytes) (faults : Action → TreePath → OpFault) : Env where
  mounts := { drivers := [(name, { handle := 0 })], persists := fun _ => false }
  hashes _ := { remoteA := .ok ⟨[], [], false⟩, remoteB := .ok ⟨[], [], false⟩
                encryptedHash := fun _ => .ok [], localHash := fun _ => .ok [] }
  faults := faults

def onlyVfs (t : FileTree FileData) : World := { disk := .empty, vfs := t }

/-- The directories of a path, and nothing else. -/
def pathTree (p : TreePath) (h : ∀ e ∈ p, PlainElem e) : FileTree FileData := FileTree.empty.makeDirs p h

theorem get_pathTree {p : TreePath} (h : ∀ e ∈ p, PlainElem e) (q : TreePath) :
    (pathTree p h).get q = if q <+: p then some .dir else none := by
  rw [pathTree, FileTree.get_makeDirs]
  split
  · rfl
  · next hq =>
    refine if_neg ?_
    rintro rfl
    exact hq nil_prefix

section Overlap

variable {req : Request}

theorem exists_planOf_pathTree (hkind : req.source.kind = .vfs ∧ req.destination.kind = .vfs) (env : Env)
    (henv : env.sourceErr = none ∧ env.destErr = none) {p : TreePath} (h : ∀ e ∈ p, PlainElem e)
    (hS : req.source.root <+: p) : ∃ ops, planOf env req (onlyVfs (pathTree p h)) = .ok ops := by
  refine exists_planOf henv.1 henv.2 ?_ ?_ fun q => exists_differAt ?_
  · rw [hkind.1]
    exact (get_pathTree h _).trans (if_pos hS)
  · rw [hkind.2]
    refine (Classical.em (req.destination.root <+: p)).imp ?_ ?_
    · exact fun hD => (get_pathTree h _).trans (if_pos hD)
    · exact fun hD => (get_pathTree h _).trans (if_neg hD)
  · intro x hx _ _ hfile
    unfold entryAt at hx
    split at hx
    · cases hx
    · rw [hkind.1] at hx
      simp only [onlyVfs, World.side, get_pathTree] at hx
      split at hx
      · cases hx
        cases hfile
      · cases hx

theorem touched_of_inside (hrefusal : refusal req = none) (hexec : req.dryRun = true → req.resume = true)
    (hkind : req.source.kind = .vfs ∧ req.destination.kind = .vfs) (hpre : req.source.root <+: req.destination.root)
    (hne : req.source.root ≠ req.destination.root) :
    ∃ env saved w, ¬ SourceUntouched req w (run env req saved w).world := by
  obtain ⟨r, hr⟩ := hpre
  have hr0 : r ≠ [] := by
    rintro rfl
    exact hne (by simpa using hr)
  have hD : req.destination.root ≠ [] := by simp [← hr, hr0]
  have hplain : ∀ e ∈ req.destination.root.dropLast, PlainElem e :=
    fun e he => req.destination.plain_root e (dropLast_subset _ he)
  have hS : req.source.root <+: req.destination.root.dropLast := by
    rw [← hr, dropLast_append_of_ne_nil hr0]
    exact prefix_append _ _
  have hnone : (pathTree _ hplain).get req.destination.root = none :=
    (get_pathTree hplain _).trans (if_neg (Copy.not_prefix_dropLast hD))
  have hwrite : (pathTree _ hplain).Writable req.destination.root :=
    ⟨req.destination.plain_root, hD, (get_pathTree hplain _).trans (if_pos prefix_rfl), by simp [hnone]⟩
  let env := oneDriver [] fun _ _ => .quiet
  obtain ⟨ops, hops⟩ := exists_planOf_pathTree hkind env ⟨rfl, rfl⟩ hplain hS
  have hroot : mkdir req.destination.kind ((onlyVfs (pathTree _ hplain)).side req.destination.kind)
      req.destination.root env.root = (true, (pathTree _ hplain).makeDirs req.destination.root hwrite.plain) := by
    rw [hkind.2]
    simp [mkdir, env, oneDriver, onlyVfs, World.side, hnone, hwrite]
  obtain ⟨saved, hrun⟩ := exists_run_quiet hrefusal hexec rfl rfl hroot fun _ => hops
  refine ⟨env, saved, onlyVfs (pathTree _ hplain), fun huntouched => ?_⟩
  have hget := huntouched req.destination.root ⟨r, hr⟩
  rw [hrun, hkind.1, hkind.2] at hget
  simp [onlyVfs, World.set, World.side, hnone] at hget

theorem plain_fresh {n : Bytes} (h : PlainElem n) : PlainElem (120 :: n) := by
  refine ⟨by simp, ?_, ?_, ?_⟩
  · intro heq
    cases heq
  · intro heq
    cases heq
  · rintro (_ | ⟨_, hmem⟩)
    exact h.2.2.2 hmem

theorem touched_of_outside (hrefusal : refusal req = none) (hexec : req.dryRun = true → req.resume = true)
    (hkind : req.source.kind = .vfs ∧ req.destination.kind = .vfs) (hpre : req.destination.root <+: req.source.root)
    (hne : req.source.root ≠ req.destination.root) :
    ∃ env saved w, ¬ SourceUntouched req w (run env req saved w).world := by
  obtain ⟨r, hr⟩ := hpre
  obtain ⟨n, r', rfl⟩ : ∃ n r', r = n :: r' := by
    cases r with
    | nil => exact absurd (by simpa using hr.symm) hne
    | cons n r' => exact ⟨n, r', rfl⟩
  have hn : PlainElem n := req.source.plain_root n (by simp [← hr])
  -- The directory `x` below the same way from the source as the source is from the destination.
  let rel : TreePath := (n :: r') ++ [120 :: n]
  have hplain : ∀ e ∈ req.source.root ++ rel, PlainElem e := by
    intro e he
    simp only [rel, mem_append, mem_singleton] at he
    rcases he with he | he | rfl
    · exact req.source.plain_root e he
    · exact req.source.plain_root e (hr ▸ mem_append_right _ he)
    · exact plain_fresh hn
  have hpath : req.destination.root ++ rel = req.source.root ++ [120 :: n] := by simp [rel, ← hr]
  have hnone : (pathTree _ hplain).get (req.source.root ++ [120 :: n]) = none := by
    refine (get_pathTree hplain _).trans (if_neg ?_)
    simp [rel]
  have hsource : (pathTree _ hplain).get (req.source.root ++ rel) = some .dir :=
    (get_pathTree hplain _).trans (if_pos prefix_rfl)
  let e : PlanEntry := { path := rel, action := .add, reason := .missingInB, isDir := true }
  let env := oneDriver [] (onlyStep e)
  have hplan : ∃ ops, planOf env req (onlyVfs (pathTree _ hplain)) = .ok ops ∧ e ∈ ops := by
    obtain ⟨ops, hops⟩ := exists_planOf_pathTree hkind env ⟨rfl, rfl⟩ hplain (prefix_append _ _)
    have hA : entryAt (onlyVfs (pathTree _ hplain)) req.source rel = some { isDir := true } := by
      rw [entryAt_ne (by simp [rel]), hkind.1]
      exact congrArg (Option.map Entry.ofNode) hsource
    have hB : entryAt (onlyVfs (pathTree _ hplain)) req.destination rel = none := by
      rw [entryAt_ne (by simp [rel]), hkind.2, hpath]
      exact congrArg (Option.map Entry.ofNode) hnone
    refine ⟨ops, hops, (mem_planOf hops e).mpr ⟨{ path := rel, reason := .missingInB, isDir := true }, ?_, ?_⟩⟩
    · rw [hA, hB]
      rfl
    · rw [hA, hB]
      simp [planAt, e]
  have hD : req.destination.root <+: req.source.root ++ rel := ⟨n :: r' ++ rel, by rw [← append_assoc, hr]⟩
  have hroot : mkdir req.destination.kind ((onlyVfs (pathTree _ hplain)).side req.destination.kind)
      req.destination.root env.root = (true, pathTree _ hplain) := by
    rw [hkind.2]
    simp [mkdir, env, oneDriver, onlyVfs, World.side, get_pathTree, hD]
  obtain ⟨saved, hrun⟩ := exists_run_only hrefusal hexec rfl rfl (by simp) rfl hroot fun _ => hplan
  have hwrite : (pathTree _ hplain).Writable (req.source.root ++ [120 :: n]) := by
    refine ⟨?_, by simp, ?_, by simp [hnone]⟩
    · rw [← hpath]
      intro e' he'
      rcases mem_append.mp he' with he' | he'
      · exact req.destination.plain_root e' he'
      · exact hplain e' (mem_append_right _ he')
    · rw [dropLast_concat]
      exact (get_pathTree hplain _).trans (if_pos (prefix_append _ _))
  refine ⟨env, saved, onlyVfs (pathTree _ hplain), fun huntouched => ?_⟩
  have hget := huntouched (req.source.root ++ [120 :: n]) (prefix_append _ _)
  rw [hrun, hkind.1] at hget
  simp [perform, hkind.2, onlyVfs, World.set, World.side, e, mkdir, hpath, hnone, hwrite] at hget

def oneFile (root : TreePath) (h : ∀ e ∈ root, PlainElem e) : FileTree FileData :=
  let p := root ++ [ascii "a", ascii "x"]
  let t := pathTree (root ++ [ascii "a"]) (by
    intro e he
    rcases mem_append.mp he with he | he
    · exact h e he
    · rw [mem_singleton.mp he]
      decide)
  if hwrite : t.Writable p then t.write p { content := [] } hwrite else t

theorem get_oneFile {root : TreePath} (h : ∀ e ∈ root, PlainElem e) (q : TreePath) : (oneFile root h).get q =
      if q = root ++ [ascii "a", ascii "x"] then some (.file { content := [] })
      else if q <+: root ++ [ascii "a"] then some .dir else none := by
  have hdrop : (root ++ [ascii "a", ascii "x"]).dropLast = root ++ [ascii "a"] := by
    rw [dropLast_append_of_ne_nil (by simp)]
    rfl
  have hnot : ¬ root ++ [ascii "a", ascii "x"] <+: root ++ [ascii "a"] := by
    intro hpre
    exact absurd hpre.length_le (by simp)
  have hplain : ∀ e ∈ root ++ [ascii "a", ascii "x"], PlainElem e := by
    exact forall_mem_append.mpr ⟨h, by decide⟩
  unfold oneFile
  rw [dif_pos]
  · rw [FileTree.get_write, get_pathTree]
  · refine ⟨hplain, by simp, ?_, ?_⟩
    · rw [hdrop, get_pathTree, if_pos prefix_rfl]
    · rw [get_pathTree, if_neg hnot]
      simp

/-- A file that is copied onto itself is removed, and then it cannot be read. -/
theorem get_selfCopy {m : Mounts} {t : FileTree FileData} {name : Bytes} {d : Copy.Driver}
    (hm : m.drivers = [(name, d)]) (hd : d.sourceUploader = true ∧ d.writer = true ∧ d.copier = false)
    {data : FileData} {n : Bytes} {init : TreePath} (hfile : t.get (init ++ [n]) = some (.file data))
    (hname : init.headD [] = name) (hname0 : name ≠ []) (data' : FileData) :
    (Copy.runDirectDriverCopy (directAnswers m t (init ++ [n]) (init ++ [n]) data' {}) (rootedPath (init ++ [n]))
      (rootedPath (init ++ [n])) true t).2.get (init ++ [n]) = none := by
  have hget : t.get (init ++ [n]) ≠ none := by simp [hfile]
  have hplain := t.plain hget
  have hhead : (init ++ [n]).headD [] = name := by
    cases init with
    | nil => exact absurd hname.symm hname0
    | cons c init => exact hname
  obtain ⟨x, hx, hdrive⟩ := ready_single hm hd.1 hname0 data' hfile rfl hplain (t.closed hget) hhead hname
  have hexisting : Copy.Existing (directAnswers m t (init ++ [n]) (init ++ [n]) data' {}) (rootedPath (init ++ [n])) :=
    existing_single hm hname0 data' hget hhead
  have hwriter : x.parent.drive.writer = true := by rw [hdrive, hd.2.1]
  have hdirect : x.direct = false := by simp [Copy.Ends.direct, hdrive, hd.2.2]
  have hread : (directAnswers m t (init ++ [n]) (init ++ [n]) data' {}).read.openErr = some missing := by
    simp [directAnswers, hget]
  have hlast : (Copy.lastWrite (directAnswers m t (init ++ [n]) (init ++ [n]) data' {}) x).bind
      Copy.WriteAnswer.left = none := by
    simp [Copy.lastWrite, hdirect, Copy.copySourceToTemp, hread]
  have hgone := Copy.get_of_existing hx hwriter hexisting rfl hlast t
  rw [treePath_rootedPath hplain] at hgone
  exact hgone (by simp)

theorem touched_of_same (hrefusal : refusal req = none) (hexec : req.dryRun = true → req.resume = true)
    (hkind : req.source.kind = .vfs ∧ req.destination.kind = .vfs) (hsame : req.source.root = req.destination.root)
    (hplain : req.resume = true ∨ req.source.encrypted = false ∧ req.destination.encrypted = false) :
    ∃ env saved w, ¬ SourceUntouched req w (run env req saved w).world := by
  have hroot := req.source.plain_root
  let rel : TreePath := [ascii "a", ascii "x"]
  let t := oneFile req.source.root hroot
  have hfile : t.get (req.source.root ++ rel) = some (.file { content := [] }) :=
    (get_oneFile hroot _).trans (if_pos rfl)
  have hrootDir : t.get req.source.root = some .dir := by
    rw [get_oneFile hroot, if_neg (by simp), if_pos (prefix_append _ _)]
  let e : PlanEntry := { path := rel, action := .update, reason := .hash }
  let name := (req.source.root ++ rel).headD []
  have hname : (req.source.root ++ [ascii "a"]).headD [] = name := by
    simp only [name, rel]
    cases req.source.root with
    | nil => rfl
    | cons n r => rfl
  have hname0 : name ≠ [] := by
    have hmem : name ∈ req.source.root ++ rel := by
      simp only [name]
      cases req.source.root with
      | nil => simp [rel]
      | cons n r => simp
    exact (t.plain (by simp [hfile]) name hmem).1
  let env := oneDriver name (onlyStep e)
  have hplan : req.resume = false → ∃ ops, planOf env req (onlyVfs t) = .ok ops ∧ e ∈ ops := by
    intro hresume
    obtain ⟨hencA, hencB⟩ := hplain.resolve_left (by simp [hresume])
    have hhash : ∀ p, (compareOptions env req).hash p = .ok false := by
      simp [compareOptions, compareHashPair, hencA, hencB, env, oneDriver, Except.mapError]
    have hA : entryAt (onlyVfs t) req.source rel = some { isDir := false } := by
      rw [entryAt_ne (by simp), hkind.1]
      exact congrArg (Option.map Entry.ofNode) hfile
    have hB : entryAt (onlyVfs t) req.destination rel = some { isDir := false } := by
      rw [entryAt_ne (by simp), hkind.2, ← hsame]
      exact congrArg (Option.map Entry.ofNode) hfile
    have hexists : ∃ ops, planOf env req (onlyVfs t) = .ok ops := by
      refine exists_planOf rfl rfl ?_ (.inl ?_) fun p => exists_differAt fun _ _ _ _ _ _ => ⟨false, hhash p⟩
      · rw [hkind.1]
        exact hrootDir
      · rw [hkind.2, ← hsame]
        exact hrootDir
    obtain ⟨ops, hops⟩ := hexists
    refine ⟨ops, hops, (mem_planOf hops e).mpr ⟨{ path := rel, reason := .hash, isDir := false }, ?_, ?_⟩⟩
    · rw [hA, hB]
      simp [differAt, hhash, e, Except.map]
    · rw [hA, hB]
      simp [planAt, e, diffBytes]
  have hmkdir : mkdir req.destination.kind ((onlyVfs t).side req.destination.kind) req.destination.root env.root =
      (true, t) := by
    rw [hkind.2, ← hsame]
    simp [mkdir, env, oneDriver, onlyVfs, World.side, hrootDir]
  obtain ⟨saved, hrun⟩ := exists_run_only hrefusal hexec rfl rfl (by simp) rfl hmkdir hplan
  refine ⟨env, saved, onlyVfs t, fun huntouched => ?_⟩
  have hget := huntouched (req.source.root ++ rel) (prefix_append _ _)
  have hsplit : req.source.root ++ rel = (req.source.root ++ [ascii "a"]) ++ [ascii "x"] := by simp [rel]
  have hcopy : (copyFile env.mounts req.source req.destination t t rel 0 {}).2.get (req.source.root ++ rel) = none := by
    simp only [copyFile, hfile, hkind.1, hkind.2, ← hsame]
    rw [hsplit] at hfile ⊢
    exact get_selfCopy rfl ⟨rfl, rfl, rfl⟩ hfile hname hname0 _
  rw [hrun, hkind.1, ← hkind.2, side_perform_copy _ _ _ _ _ _ (.inr rfl) rfl, World.side_set, hkind.1, hkind.2] at hget
  exact absurd (hcopy.symm.trans hget) (by simp [onlyVfs, World.side, hfile])

end Overlap

/-! ## All requests -/

def nestedSource : Request where
  source := { kind := .vfs, raw := ascii "/m/s", vfsPath := ascii "/m/s", mountName := ascii "m" }
  destination := { kind := .vfs, raw := ascii "/m", vfsPath := ascii "/m", mountName := ascii "m" }
  delete := true

/-- The directories `/m` and `/m/s`, and the file `/m/s/f`. -/
def nestedWorld : World where
  disk := .empty
  vfs := (FileTree.empty.makeDirs [ascii "m", ascii "s"] (by decide)).write [ascii "m", ascii "s", ascii "f"]
    { content := ascii "data" } ⟨by decide, by decide, by decide, by decide⟩

end Sync
