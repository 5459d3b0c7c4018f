import Qrypt.Sync.Run

/-!
# Extras of the destination

Without `--delete`, a plan skips what only the destination has. A file that replaces a directory takes the extras in
it away: `os.RemoveAll` removes them, `RemoveDir` does so if it minds none of them, and a direct copy removes the
directory even after `RemoveDir` refused.

* `keepsExtras_iff` — every execution of a plan keeps all extras exactly if no such directory is replaced
-/

namespace Sync

open Infra List Option

/-- A path that only the destination has. -/
structure Extra (req : Request) (w : World) (q : TreePath) : Prop where
  ne : q ≠ []
  here : (w.side req.destination.kind).get (req.destination.root ++ q) ≠ none
  source : (w.side req.source.kind).get (req.source.root ++ q) = none

/-- All extras are as they were. -/
def KeepsExtras (req : Request) (w w' : World) : Prop :=
  ∀ q, Extra req w q → (w'.side req.destination.kind).get (req.destination.root ++ q) =
    (w.side req.destination.kind).get (req.destination.root ++ q)

/-- A directory with extras that a file of the source replaces. -/
structure Endangered (m : Mounts) (req : Request) (w : World) (p : TreePath) : Prop where
  ne : p ≠ []
  file : ∃ data, (w.side req.source.kind).get (req.source.root ++ p) = some (.file data)
  child : (w.side req.destination.kind).HasChild (req.destination.root ++ p)
  removed : req.destination.kind = .disk ∨
    ¬ HasVisibleChild (w.side req.destination.kind) (req.destination.root ++ p) ∨
    req.source.kind = .vfs ∧ Replaces m (w.side req.destination.kind) (req.source.root ++ p) (req.destination.root ++ p)

section Extras

variable {env : Env} {req : Request} {w : World} {ops : List PlanEntry}

/-- What a plan skips is an extra, and without `--delete` it skips all of them. -/
theorem extra_iff (hplan : planOf env req w = .ok ops) (hdelete : req.delete = false) (q : TreePath) :
    Extra req w q ↔ ∃ e ∈ ops, e.action = .skip ∧ e.path = q := by
  constructor
  · intro h
    obtain ⟨y, hy⟩ := ne_none_iff_exists'.mp h.here
    have hA : entryAt w req.source q = none := by rw [entryAt_ne h.ne, h.source, map_none]
    have hB : entryAt w req.destination q = some (Entry.ofNode y) := by rw [entryAt_ne h.ne, hy, map_some]
    let e : PlanEntry := { path := q, action := .skip, reason := .extraInB, isDir := (Entry.ofNode y).isDir
                           destSize := (Entry.ofNode y).size }
    refine ⟨e, (mem_planOf hplan e).mpr ⟨⟨q, .extraInB, (Entry.ofNode y).isDir⟩, ?_, ?_⟩, rfl, rfl⟩
    · rw [hA, hB]
      rfl
    · rw [hA, hB]
      simp [planAt, planOptions, hdelete, e]
  · rintro ⟨e, he, hskip, rfl⟩
    obtain ⟨d, hd, hmem⟩ := (mem_planOf hplan e).mp he
    have hne := path_ne hplan he
    rcases planned_of_mem hd hmem with ⟨x, hA, hB, haction, -, -⟩ | ⟨y, hA, hB, -, -⟩ |
      ⟨x, y, hA, hB, -, -, haction⟩ | ⟨x, y, hA, hB, -, -, haction⟩ | ⟨x, y, hA, hB, -, -, haction, -, -⟩
    · simp [hskip] at haction
    · rw [entryAt_ne hne, map_eq_none_iff] at hA
      rw [entryAt_ne hne] at hB
      refine ⟨hne, ?_, hA⟩
      intro hnone
      simp [hnone] at hB
    · simp [hskip] at haction
    · simp [hskip] at haction
    · simp [hskip] at haction

theorem Extra.dir_of_above {p q : TreePath} (h : Extra req w q) (hp : p <+: q) (hne : p ≠ q) :
    (w.side req.destination.kind).get (req.destination.root ++ p) = some .dir := by
  obtain ⟨r, rfl⟩ := hp
  have hr : r ≠ [] := by
    rintro rfl
    exact hne (by simp)
  have hget := h.here
  rw [← append_assoc] at hget
  exact FileTree.get_of_below hget hr

theorem replaces_of_above (hplan : planOf env req w = .ok ops) (hdelete : req.delete = false) {e : PlanEntry}
    (he : e ∈ ops) (hact : e.Acts) {q : TreePath} (hq : Extra req w q)
    (hpre : e.path <+: q) :
    req.conflict = .source ∧ e.path ≠ [] ∧ e.path ≠ q ∧
      (∃ data, (w.side req.source.kind).get (req.source.root ++ e.path) = some (.file data)) ∧
      (w.side req.destination.kind).get (req.destination.root ++ e.path) = some .dir ∧
      (e.action = .delete ∧ e.isDir = true ∨ e.action = .add ∧ e.isDir = false) := by
  obtain ⟨d, hd, hmem⟩ := (mem_planOf hplan e).mp he
  have hne := path_ne hplan he
  -- Only the source may have the path itself.
  have hnot : ∀ x, entryAt w req.source e.path = some x → e.path ≠ q := by
    rintro x hA rfl
    rw [entryAt_ne hne, hq.source] at hA
    cases hA
  have hdir : e.path ≠ q → entryAt w req.destination e.path = some { isDir := true } := by
    intro hpath
    rw [entryAt_ne hne, hq.dir_of_above hpre hpath]
    rfl
  rcases planned_of_mem hd hmem with ⟨x, hA, hB, -, -, -⟩ | ⟨y, hA, hB, -, haction⟩ |
    ⟨x, y, hA, hB, htype, hsource, haction⟩ | ⟨x, y, hA, hB, -, -, haction⟩ | ⟨x, y, hA, hB, -, hy, haction, -, -⟩
  · rw [hdir (hnot x hA)] at hB
    cases hB
  · rcases haction with ⟨hextra, -⟩ | ⟨-, hskip⟩
    · simp [planOptions, hdelete] at hextra
    · exact absurd hskip hact.1
  · have hpath := hnot x hA
    rw [hdir hpath] at hB
    cases hB
    have hx : x.isDir = false := by simpa using htype
    refine ⟨hsource, hne, hpath, ?_, hq.dir_of_above hpre hpath, ?_⟩
    · rw [entryAt_ne hne, map_eq_some_iff] at hA
      obtain ⟨node, hnode, rfl⟩ := hA
      cases node with
      | dir => cases hx
      | file data => exact ⟨data, hnode⟩
    · rw [hx] at haction
      exact haction
  · exact absurd haction hact.2
  · rw [hdir (hnot x hA)] at hB
    cases hB
    cases hy

/-! ## Steps -/

theorem extra_child {p : TreePath} {data : FileData}
    (hfile : (w.side req.source.kind).get (req.source.root ++ p) = some (.file data)) {n : Bytes}
    (hchild : (w.side req.destination.kind).get (req.destination.root ++ p ++ [n]) ≠ none) : Extra req w (p ++ [n]) := by
  refine ⟨by simp, by rwa [← append_assoc], ?_⟩
  by_contra hget
  rw [← append_assoc] at hget
  simp [(w.side req.source.kind).closed hget] at hfile

section

variable (hplan : planOf env req w = .ok ops)
include hplan

/-- **A step keeps all extras, if it replaces no directory that has some.** -/
theorem keepsExtras_perform (hdelete : req.delete = false)
    (hsafe : req.conflict = .source → ∀ p, ¬ Endangered env.mounts req w p) {e : PlanEntry} (he : e ∈ ops)
    (hact : e.Acts) {w' : World} (h : KeepsExtras req w w') (f : OpFault) :
    KeepsExtras req w (perform env.mounts req.source req.destination w' e f).2 := by
  intro q hq
  have hget : (w'.side req.destination.kind).get (req.destination.root ++ q) ≠ none := by
    rw [h q hq]
    exact hq.here
  rw [← h q hq]
  by_cases hpre : req.destination.root ++ e.path <+: req.destination.root ++ q
  swap
  · exact get_perform _ _ _ _ _ _ hpre hget
  rw [prefix_append_right_inj] at hpre
  obtain ⟨hsource, hne, hpath, ⟨data, hfile⟩, hdir, haction⟩ := replaces_of_above hplan hdelete he hact hq hpre
  have hdir' : (w'.side req.destination.kind).get (req.destination.root ++ e.path) = some .dir := by
    obtain ⟨r, rfl⟩ := hpre
    have hr : r ≠ [] := by
      rintro rfl
      exact hpath (by simp)
    rw [← append_assoc] at hget
    exact FileTree.get_of_below hget hr
  have hchild : (w.side req.destination.kind).HasChild (req.destination.root ++ e.path) := by
    by_contra hnone
    refine hq.here (FileTree.get_eq_none_of_no_child hnone ?_ ?_)
    · rwa [prefix_append_right_inj]
    · simpa using hpath.symm
  have hnot : ¬ (req.destination.kind = .disk ∨
      ¬ HasVisibleChild (w.side req.destination.kind) (req.destination.root ++ e.path) ∨
      req.source.kind = .vfs ∧ Replaces env.mounts (w.side req.destination.kind) (req.source.root ++ e.path)
        (req.destination.root ++ e.path)) :=
    fun hremoved => hsafe hsource e.path ⟨hne, ⟨data, hfile⟩, hchild, hremoved⟩
  simp only [not_or, not_not, not_and] at hnot
  obtain ⟨hdisk, hvisible, hreplaces⟩ := hnot
  have hvfs : req.destination.kind = .vfs := by
    cases hk : req.destination.kind with
    | vfs => rfl
    | disk => exact absurd hk hdisk
  -- The children that `RemoveDir` minds are extras, so they are still there.
  have hvisible' : HasVisibleChild (w'.side req.destination.kind) (req.destination.root ++ e.path) := by
    obtain ⟨n, hn, hname⟩ := hvisible
    refine ⟨n, ?_, hname⟩
    have hkept := h _ (extra_child hfile hn)
    rw [← append_assoc] at hkept
    rwa [hkept]
  have hsame : (perform env.mounts req.source req.destination w' e f).2.side req.destination.kind =
      w'.side req.destination.kind := by
    rcases haction with ⟨haction, hisDir⟩ | ⟨haction, hisDir⟩
    · simp only [perform, haction, hisDir, World.side_set]
      rw [hvfs] at hvisible' ⊢
      simp only [deletePath]
      split
      · rfl
      · rw [if_neg fun hempty => hempty.2 hvisible']
    · rw [side_perform_copy _ _ _ _ _ _ (.inl haction) hisDir]
      refine copyFile_onto_dir hdir' (fun data' hfile' hk hk' hrep => hreplaces hk ?_) _ _
      rw [hk, ← hk'] at hfile hfile'
      exact replaces_congr hrep hfile hfile' hdir hdir'
  rw [hsame]

/-! ## Whole plans -/

theorem lost_of_step {e : PlanEntry} (he : e ∈ ops)
    (hact : e.Acts) {q : TreePath} (hq : Extra req w q)
    (hgone : ((perform env.mounts req.source req.destination w e {}).2.side req.destination.kind).get
      (req.destination.root ++ q) = none) :
    ¬ ∀ faults idle, KeepsExtras req w
      (executePlan env.mounts req.source req.destination faults idle ops { world := w }).world := by
  intro hkeeps
  have hkept := hkeeps (onlyStep e) true q hq
  rw [executePlan_only (nodup_planOf hplan) he hact (fun e' _ hkey => if_neg hkey)] at hkept
  have hfault : onlyStep e e.action e.path = {} := if_pos rfl
  rw [hfault, hgone] at hkept
  exact hq.here hkept.symm

theorem mem_of_endangered (hsource : req.conflict = .source) {p : TreePath} (h : Endangered env.mounts req w p) :
    (∃ e ∈ ops, e.path = p ∧ e.action = .delete ∧ e.isDir = true) ∧
      ∃ e ∈ ops, e.path = p ∧ e.action = .add ∧ e.isDir = false := by
  obtain ⟨data, hfile⟩ := h.file
  obtain ⟨n, hchild⟩ := h.child
  have hA : entryAt w req.source p = some (Entry.ofNode (.file data)) := by
    rw [entryAt_ne h.ne, hfile, map_some]
  have hB : entryAt w req.destination p = some (Entry.ofNode .dir) := by
    rw [entryAt_ne h.ne, (w.side req.destination.kind).closed hchild, map_some]
  have hdiffer : differAt (compareOptions env req) p (entryAt w req.source p) (entryAt w req.destination p) =
      .ok (some ⟨p, .type, false⟩) := by
    rw [hA, hB]
    rfl
  let del : PlanEntry := { path := p, action := .delete, reason := .type, isDir := true }
  let add : PlanEntry := { path := p, action := .add, reason := .type, isDir := false
                           sourceSize := data.content.length, bytes := data.content.length }
  refine ⟨⟨del, (mem_planOf hplan del).mpr ⟨_, hdiffer, ?_⟩, rfl, rfl, rfl⟩,
    ⟨add, (mem_planOf hplan add).mpr ⟨_, hdiffer, ?_⟩, rfl, rfl, rfl⟩⟩
  · rw [hA, hB]
    simp [planAt, planOptions, hsource, del, Entry.ofNode]
  · rw [hA, hB]
    simp [planAt, planOptions, hsource, add, Entry.ofNode]

theorem lost_of_endangered (hsource : req.conflict = .source) {p : TreePath} (h : Endangered env.mounts req w p) :
    ¬ ∀ faults idle, KeepsExtras req w
      (executePlan env.mounts req.source req.destination faults idle ops { world := w }).world := by
  obtain ⟨⟨del, hdel, rfl, hdelAction, hdelDir⟩, add, hadd, haddPath, haddAction, haddDir⟩ :=
    mem_of_endangered hplan hsource h
  obtain ⟨data, hfile⟩ := h.file
  obtain ⟨n, hchild⟩ := h.child
  have hextra := extra_child hfile hchild
  have hdir := (w.side req.destination.kind).closed hchild
  have hbelow : req.destination.root ++ del.path <+: req.destination.root ++ (del.path ++ [n]) := by
    rw [prefix_append_right_inj]
    exact prefix_append _ _
  -- The removal of the directory, if it is done recursively or sees no child.
  have hdelete : (req.destination.kind = .disk ∨
      ¬ HasVisibleChild (w.side req.destination.kind) (req.destination.root ++ del.path)) →
      ¬ ∀ faults idle, KeepsExtras req w
        (executePlan env.mounts req.source req.destination faults idle ops { world := w }).world := by
    intro hremoved
    refine lost_of_step hplan hdel (by simp [hdelAction]) hextra ?_
    simp only [perform, hdelAction, hdelDir, World.side_set]
    cases hk : req.destination.kind with
    | disk => simp [deletePath]
    | vfs =>
      rw [hk] at hremoved hdir
      simp [deletePath, hremoved.resolve_left (by simp), hdir]
  rcases h.removed with hdisk | hhidden | ⟨hvfs, hreplaces⟩
  · exact hdelete (.inl hdisk)
  · exact hdelete (.inr hhidden)
  · cases hk : req.destination.kind with
    | disk => exact hdelete (.inl hk)
    | vfs =>
      have hplain : ∀ e ∈ req.destination.root ++ del.path, PlainElem e :=
        (w.side req.destination.kind).plain (by simp [hdir])
      refine lost_of_step hplan hadd (by simp [haddAction]) hextra ?_
      rw [side_perform_copy _ _ _ _ _ _ (.inl haddAction) haddDir]
      unfold copyFile
      rw [haddPath, hfile]
      simp only [hvfs, hk] at hreplaces ⊢
      exact get_below_of_replaces hreplaces hplain _ hbelow (by simp)

end

/-- **Every execution of a plan keeps all extras exactly if no directory with extras is replaced.** -/
theorem keepsExtras_iff (env : Env) (req : Request) (w : World) (ops : List PlanEntry) (hdelete : req.delete = false)
    (hplan : planOf env req w = .ok ops) :
    (∀ faults idle, ∀ e ∈ ops, e.action = .skip →
      ((executePlan env.mounts req.source req.destination faults idle ops { world := w }).world.side
          req.destination.kind).get (req.destination.root ++ e.path) =
        (w.side req.destination.kind).get (req.destination.root ++ e.path)) ↔
      (req.conflict = .source → ∀ p, ¬ Endangered env.mounts req w p) := by
  have hextras : (∀ faults idle, ∀ e ∈ ops, e.action = .skip →
      ((executePlan env.mounts req.source req.destination faults idle ops { world := w }).world.side
          req.destination.kind).get (req.destination.root ++ e.path) =
        (w.side req.destination.kind).get (req.destination.root ++ e.path)) ↔
      ∀ faults idle, KeepsExtras req w
        (executePlan env.mounts req.source req.destination faults idle ops { world := w }).world := by
    refine forall₂_congr fun faults idle => ?_
    constructor
    · intro h q hq
      obtain ⟨e, he, hskip, rfl⟩ := (extra_iff hplan hdelete q).mp hq
      exact h e he hskip
    · intro h e he hskip
      exact h e.path ((extra_iff hplan hdelete e.path).mpr ⟨e, he, hskip, rfl⟩)
  rw [hextras]
  constructor
  · intro hkeeps hsource p hp
    exact lost_of_endangered hplan hsource hp hkeeps
  · intro hsafe faults idle
    refine executePlan_rule (P := fun w' => KeepsExtras req w w') ?_ fun _ _ => rfl
    intro e he hact w' hw'
    exact keepsExtras_perform hplan hdelete hsafe he hact hw' _

end Extras

/-! ## A lost extra -/

/-- A local directory `d` with the extra `d/x`, and a virtual file `d`. -/
def replacedWorld : World where
  disk := (FileTree.empty.makeDirs [ascii "b", ascii "d"] (by decide)).write [ascii "b", ascii "d", ascii "x"]
    { content := ascii "extra" } ⟨by decide, by decide, by decide, by decide⟩
  vfs := (FileTree.empty.makeDirs [ascii "m"] Copy.plain_m).write [ascii "m", ascii "d"]
    { content := ascii "data" } ⟨by decide, by decide, by decide, by decide⟩

/-- A sync of `/m` to the local directory `/b`, in which the source wins. -/
def replacing : Request where
  source := { kind := .vfs, raw := ascii "/m", vfsPath := ascii "/m", mountName := ascii "m" }
  destination := { kind := .disk, raw := ascii "/b", localPath := ascii "/b" }
  conflict := .source

/-- Hashes are not asked for, and nothing fails. -/
def replacingEnv : Env where
  mounts := { drivers := [(ascii "m", { handle := 0 })], persists := fun _ => true }
  hashes _ := { remoteA := .ok ⟨[], [], true⟩, remoteB := .ok ⟨[], [], true⟩
                encryptedHash := fun _ => .ok [], localHash := fun _ => .ok [] }
  faults _ _ := {}

theorem keepsExtras_iff_replacing : ∃ ops, planOf replacingEnv replacing replacedWorld = .ok ops ∧
    ((∀ faults idle, ∀ e ∈ ops, e.action = .skip →
      ((executePlan replacingEnv.mounts replacing.source replacing.destination faults idle ops
          { world := replacedWorld }).world.side replacing.destination.kind).get (replacing.destination.root ++ e.path) =
        (replacedWorld.side replacing.destination.kind).get (replacing.destination.root ++ e.path)) ↔
      (replacing.conflict = .source → ∀ p, ¬ Endangered replacingEnv.mounts replacing replacedWorld p)) := by
  have hplan : ∃ ops, planOf replacingEnv replacing replacedWorld = .ok ops :=
    exists_planOf rfl rfl (by decide +kernel) (.inl (by decide +kernel)) fun p =>
      exists_differAt fun _ _ _ _ _ _ => ⟨true, rfl⟩
  obtain ⟨ops, hops⟩ := hplan
  exact ⟨ops, hops, keepsExtras_iff replacingEnv replacing replacedWorld ops rfl hops⟩

/-- The file replaces the directory, and the extra in it is gone. -/
theorem replacing_loses :
    (match planOf replacingEnv replacing replacedWorld with
      | .ok ops => ops.any fun e => e.path = [ascii "d", ascii "x"] ∧ e.action = .skip
      | .error _ => false) = true ∧
      replacedWorld.disk.get [ascii "b", ascii "d", ascii "x"] ≠ none ∧
      (run replacingEnv replacing none replacedWorld).world.disk.get [ascii "b", ascii "d", ascii "x"] = none ∧
      (run replacingEnv replacing none replacedWorld).result.ok = true := by
  decide +kernel

end Sync
