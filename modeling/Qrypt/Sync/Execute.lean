import Qrypt.Copy.Direct
import Qrypt.Sync.Plan

/-!
# Execution of a sync

`pkg/syncer`: `executor.go`, `transfer.go`, the hash comparison of `compare.go`, and `sync.go`. A plan is executed
on the tree of the destination, each call failing as the environment pleases.

* `within_perform` — a step changes nothing but at and below its path
-/

namespace Sync

open Infra Upload List Option

/-! ## Worlds and failures -/

/-- The local and the virtual tree. -/
structure World where
  disk : FileTree FileData
  vfs : FileTree FileData

namespace World

def side (w : World) : TargetKind → FileTree FileData
  | .disk => w.disk
  | .vfs => w.vfs

def set (w : World) (k : TargetKind) (t : FileTree FileData) : World :=
  match k with
  | .disk => { w with disk := t }
  | .vfs => { w with vfs := t }

@[simp] theorem side_set (w : World) (k : TargetKind) (t : FileTree FileData) : (w.set k t).side k = t := by
  cases k <;> rfl

theorem side_set_ne (w : World) {k k' : TargetKind} (h : k' ≠ k) (t : FileTree FileData) :
    (w.set k t).side k' = w.side k' := by
  cases k <;> cases k'
  · exact absurd rfl h
  · rfl
  · rfl
  · exact absurd rfl h

@[simp] theorem set_side (w : World) (k : TargetKind) : w.set k (w.side k) = w := by
  cases k <;> rfl

end World

/-- The mounts: their drivers, and whether they keep the times they are given. -/
structure Mounts where
  drivers : List (Bytes × Copy.Driver)
  persists : Bytes → Bool

/-- What may go wrong in a step. -/
structure OpFault where
  /-- The call fails. -/
  fail : Bool := false
  /-- What a failing removal has removed. -/
  gone : List TreePath := []
  /-- The number of elements for which a failing `MkdirAll` has made directories. -/
  made : Nat := 0
  /-- What a failing write leaves. -/
  left : Option FileData := none
  /-- The time the destination sets by itself. -/
  stamp : Int := 0
  /-- The errors of the calls of a direct copy. -/
  source : Option Copy.CopyError := none
  pending : Bool := false
  parent : Option Copy.CopyError := none
  dest : Option Copy.CopyError := none
  unseen : Bool := false
  remove : Option Copy.CopyError := none
  copy : Option Copy.CopyError := none
  read : Option Copy.CopyError := none
  put : Option Copy.CopyError := none
  /-- The record of the step is not written. -/
  unrecorded : Bool := false

def OpFault.quiet : OpFault :=
  { fail := true, source := some { text := ascii "failed" } }

def onlyStep (e : PlanEntry) (a : Action) (p : TreePath) : OpFault := if (p, a) = e.key then {} else .quiet

/-! ## Calls -/

def isAppleMetadataName (name : Bytes) : Bool := name = ascii ".DS_Store" || (ascii "._").isPrefixOf name

/-- A directory has a child that `RemoveDir` minds. -/
def HasVisibleChild (t : FileTree FileData) (p : TreePath) : Prop :=
  ∃ n, t.get (p ++ [n]) ≠ none ∧ isAppleMetadataName n = false

instance (t : FileTree FileData) (p : TreePath) : Decidable (HasVisibleChild t p) :=
  decidable_of_iff (∃ q ∈ t.support, q ≠ [] ∧ q.dropLast = p ∧ t.get q ≠ none ∧
      isAppleMetadataName (q.getLastD []) = false) (by
    constructor
    · rintro ⟨q, -, hne, rfl, hget, hname⟩
      obtain ⟨init, last, rfl⟩ := (eq_nil_or_concat' q).resolve_left hne
      refine ⟨last, ?_, ?_⟩
      · simpa using hget
      · simpa using hname
    · rintro ⟨n, hget, hname⟩
      exact ⟨p ++ [n], t.mem_support hget, by simp, by simp, hget, by simpa using hname⟩)

def deletePath (k : TargetKind) (t : FileTree FileData) (p : TreePath) (isDir : Bool) (f : OpFault) :
    Bool × FileTree FileData :=
  match k, isDir with
  | .vfs, true =>
    if f.fail then (false, t)
    else if t.get p = some .dir ∧ ¬ HasVisibleChild t p then (true, t.removeAll p) else (false, t)
  | .vfs, false =>
    if f.fail then (false, t) else if t.get p ≠ none then (true, t.removeAll p) else (false, t)
  | .disk, true => if f.fail then (false, t.removeSome p f.gone) else (true, t.removeAll p)
  | .disk, false =>
    if f.fail then (false, t)
    else if h : p ≠ [] ∧ t.get p ≠ none ∧ ¬ t.HasChild p then (true, t.erase p h.1 h.2.2) else (false, t)

/-- No element of the path is a file. -/
def Passable (t : FileTree FileData) (p : TreePath) : Prop :=
  (∀ e ∈ p, PlainElem e) ∧ ∀ q ∈ p.inits, t.get q = none ∨ t.get q = some .dir

instance (t : FileTree FileData) (p : TreePath) : Decidable (Passable t p) := inferInstanceAs (Decidable (_ ∧ _))

def mkdirAll (t : FileTree FileData) (p : TreePath) (f : OpFault) : Bool × FileTree FileData :=
  if f.fail then (false, if h : 0 < f.made ∧ Passable t (p.take f.made) then t.makeDirs (p.take f.made) h.2.1 else t)
  else if h : Passable t p then (true, t.makeDirs p h.1) else (false, t)

/-- `Mkdir` and `EnsureRoot`. -/
def mkdir (k : TargetKind) (t : FileTree FileData) (p : TreePath) (f : OpFault) : Bool × FileTree FileData :=
  match k with
  | .vfs =>
    if f.fail then (false, t)
    else if t.get p ≠ none then (true, t)
    else if h : t.Writable p then (true, t.makeDirs p h.plain) else (false, t)
  | .disk => mkdirAll t p f

def copied (m : Mounts) (dst : Target) (modTime : Int) (f : OpFault) (data : FileData) : FileData :=
  let keeps := dst.kind = .disk ∨ m.persists dst.mountName = true
  { content := data.content, modTime := if 0 < modTime ∧ keeps then modTime else f.stamp }

/-- What `DebugResolve` tells about a virtual path. -/
def resolveInfo (t : FileTree FileData) (p : TreePath) : Copy.ResolveInfo :=
  match t.get p with
  | none => { mount := p.headD [] }
  | some .dir => { mount := p.headD [], remoteID := rootedPath p, isDir := true }
  | some (.file data) => { mount := p.headD [], remoteID := rootedPath p, size := data.content.length }

def missing : Copy.CopyError := { text := ascii "not found", notFound := true }

/-- The answers of the calls of a direct copy; the source may be gone when it is read. -/
def directAnswers (m : Mounts) (t : FileTree FileData) (src dst : TreePath) (data : FileData) (f : OpFault) :
    Copy.Answers FileData :=
  let answer (err : Option Copy.CopyError) (info : Copy.ResolveInfo) : Except Copy.CopyError Copy.ResolveInfo :=
    err.elim (.ok info) .error
  let gone : Option Copy.CopyError := if dst <+: src ∧ t.get dst ≠ none ∧ f.unseen = false then some missing else none
  let write (err : Option Copy.CopyError) : Copy.WriteAnswer FileData :=
    match err with
    | some err => { err := some err, left := f.left }
    | none => { left := some data }
  { drivers := m.drivers
    source := answer f.source { resolveInfo t src with pending := f.pending }
    parent := answer f.parent (resolveInfo t dst.dropLast)
    dest := answer f.dest (if f.unseen then { mount := dst.headD [] } else resolveInfo t dst)
    remove := { err := f.remove, gone := f.gone }
    copy := write (gone.or f.copy)
    read := { openErr := gone.or f.read, data := data.content }
    put := write f.put }

def writeFile (t : FileTree FileData) (p : TreePath) (data : FileData) : Bool × FileTree FileData :=
  if h : t.Writable p then (true, t.write p data h) else (false, t)

/-- `CopyFile`: the source of the copy is given by its tree, which may be the one that is written to. -/
def copyFile (m : Mounts) (src dst : Target) (from_ t : FileTree FileData) (rel : TreePath) (modTime : Int)
    (f : OpFault) : Bool × FileTree FileData :=
  match from_.get (src.root ++ rel) with
  | some (.file data) =>
    let data := copied m dst modTime f data
    match src.kind, dst.kind with
    | .vfs, .vfs =>
      let y := Copy.runDirectDriverCopy (directAnswers m t (src.root ++ rel) (dst.root ++ rel) data f)
        (rootedPath (src.root ++ rel)) (rootedPath (dst.root ++ rel)) true t
      (y.1.pass, y.2)
    | .disk, .vfs =>
      if f.fail then (false, Copy.leave t (dst.root ++ rel) f.left)
      -- `Create` does not look for a directory at its path, and the upload leaves it alone.
      else if t.get (dst.root ++ rel) = some .dir then (true, t)
      else writeFile t (dst.root ++ rel) data
    | .vfs, .disk => if f.fail then (false, t) else writeFile t (dst.root ++ rel) data
    | .disk, .disk => (false, t)
  | _ => (false, t)

/-! ## Plans -/

/-- The call of a step, and whether it succeeded. -/
def perform (m : Mounts) (src dst : Target) (w : World) (e : PlanEntry) (f : OpFault) : Bool × World :=
  let t := w.side dst.kind
  let y := match e.action with
    | .delete => deletePath dst.kind t (dst.root ++ e.path) e.isDir f
    | .add | .update =>
      if e.isDir then mkdir dst.kind t (dst.root ++ e.path) f
      else copyFile m src dst (w.side src.kind) t e.path e.sourceModTime f
    | .skip | .conflict => (true, t)
  (y.1, w.set dst.kind y.2)

/-- A plan during its execution. -/
structure ExecState where
  world : World
  failed : Nat := 0
  done : List (TreePath × Action) := []

/-- A step of a plan, unless it is done: the call and `recordOutcome`. -/
def execStep (m : Mounts) (src dst : Target) (faults : Action → TreePath → OpFault) (s : ExecState) (e : PlanEntry) :
    ExecState :=
  if e.key ∈ s.done then s
  else
    let f := faults e.action e.path
    let y := perform m src dst s.world e f
    if y.1 = true ∧ f.unrecorded = false then { s with world := y.2, done := e.key :: s.done }
    else { s with world := y.2, failed := s.failed + 1 }

/-- The deletions, those of children before those of their parents. -/
def deletions (plan : List PlanEntry) : List PlanEntry := plan.reverse.filter fun e => e.action = .delete

/-- The directories, and then the files. -/
def creations (plan : List PlanEntry) : List PlanEntry :=
  let created := plan.filter fun e => e.action = .add ∨ e.action = .update
  created.filter (fun e => e.isDir) ++ created.filter fun e => !e.isDir

/-- `ExecutePlan`; `idle` if the deletions come to an end. -/
def executePlan (m : Mounts) (src dst : Target) (faults : Action → TreePath → OpFault) (idle : Bool)
    (plan : List PlanEntry) (s : ExecState) : ExecState :=
  let s := (deletions plan).foldl (execStep m src dst faults) s
  if idle then (creations plan).foldl (execStep m src dst faults) s else { s with failed := s.failed + 1 }

/-! ## Frames -/

section Frames

variable (t : FileTree FileData) (p : TreePath) (f : OpFault)

theorem tree_deletePath (k : TargetKind) (isDir : Bool) :
    (deletePath k t p isDir f).2 = t ∨ (deletePath k t p isDir f).2 = t.removeAll p ∨
      (deletePath k t p isDir f).2 = t.removeSome p f.gone ∨
      ∃ hne hchild, (deletePath k t p isDir f).2 = t.erase p hne hchild := by
  unfold deletePath
  split
  · split_ifs <;> simp
  · split_ifs <;> simp
  · split_ifs <;> simp
  · split_ifs with hfail h
    · exact .inl rfl
    · exact .inr (.inr (.inr ⟨h.1, h.2.2, rfl⟩))
    · exact .inl rfl

theorem within_deletePath (k : TargetKind) (isDir : Bool) : FileTree.Within p t (deletePath k t p isDir f).2 := by
  rcases tree_deletePath t p f k isDir with h | h | h | ⟨hne, hchild, h⟩ <;> rw [h]
  · exact .refl _ _
  · exact .removeAll _ _
  · exact .removeSome _ _ _
  · exact .erase hne hchild

theorem get_deletePath (k : TargetKind) (isDir : Bool) (q : TreePath) :
    (deletePath k t p isDir f).2.get q = none ∨ (deletePath k t p isDir f).2.get q = t.get q := by
  rcases tree_deletePath t p f k isDir with h | h | h | ⟨hne, hchild, h⟩ <;> rw [h]
  · exact .inr rfl
  · exact FileTree.get_removeAll .. ▸ ite_eq_or_eq ..
  · exact FileTree.get_removeSome _ _ _ _
  · exact FileTree.get_erase .. ▸ ite_eq_or_eq ..

theorem within_writeFile (data : FileData) : FileTree.Within p t (writeFile t p data).2 := by
  unfold writeFile
  split
  · next h => exact .write h
  · exact .refl _ _

theorem within_mkdir_vfs : FileTree.Within p t (mkdir .vfs t p f).2 := by
  simp only [mkdir]
  split_ifs with hfail hget hwrite
  · exact .refl _ _
  · exact .refl _ _
  · intro q hq
    rw [FileTree.get_makeDirs]
    split
    · next hqp =>
      obtain ⟨r, hr⟩ := hqp
      have hne : r ≠ [] := by
        rintro rfl
        rw [append_nil] at hr
        exact hq (hr ▸ prefix_rfl)
      obtain ⟨r', n, rfl⟩ := (eq_nil_or_concat' r).resolve_left hne
      have hparent := hwrite.parent
      rw [← hr, ← append_assoc, dropLast_concat] at hparent
      by_cases hr' : r' = []
      · subst hr'
        rw [append_nil] at hparent
        exact hparent.symm
      · exact (FileTree.get_of_below (by simp [hparent]) hr').symm
    · rfl
  · exact .refl _ _

theorem get_mkdir_of_not_prefix (k : TargetKind) (q : TreePath) (hq : ¬ q <+: p) :
    (mkdir k t p f).2.get q = t.get q := by
  cases k with
  | vfs =>
    simp only [mkdir]
    split_ifs
    · rfl
    · rfl
    · rw [FileTree.get_makeDirs, if_neg hq]
    · rfl
  | disk =>
    simp only [mkdir, mkdirAll]
    split_ifs
    · rw [FileTree.get_makeDirs, if_neg fun h => hq (h.trans (List.take_prefix _ _))]
    · rfl
    · rw [FileTree.get_makeDirs, if_neg hq]
    · rfl

theorem get_mkdir (k : TargetKind) (q : TreePath) (hq : t.get q ≠ none) : (mkdir k t p f).2.get q = t.get q := by
  have hpass : ∀ p', (h : Passable t p') → (t.makeDirs p' h.1).get q = t.get q := by
    intro p' h
    rw [FileTree.get_makeDirs]
    split
    · next hqp => exact ((h.2 q ((mem_inits q p').mpr hqp)).resolve_left hq).symm
    · rfl
  cases k with
  | vfs =>
    by_cases hpq : p <+: q
    · simp only [mkdir]
      split_ifs with hfail hget hwrite
      · rfl
      · rfl
      · rw [FileTree.get_makeDirs]
        split
        · next hqp =>
          have heq : q = p := hqp.eq_of_length (le_antisymm hqp.length_le hpq.length_le)
          exact absurd (heq ▸ hq) hget
        · rfl
      · rfl
    · exact within_mkdir_vfs t p f q hpq
  | disk =>
    simp only [mkdir, mkdirAll]
    split_ifs with hfail hmade hpassable
    · exact hpass _ hmade.2
    · rfl
    · exact hpass _ hpassable
    · rfl

end Frames

theorem plain_of_file {src dst : Target} {from_ : FileTree FileData} {rel : TreePath} {data : FileData}
    (h : from_.get (src.root ++ rel) = some (.file data)) : ∀ e ∈ dst.root ++ rel, PlainElem e := by
  have hget : from_.get (src.root ++ rel) ≠ none := by simp [h]
  exact forall_mem_append.mpr ⟨dst.plain_root, (forall_mem_append.mp (from_.plain hget)).2⟩

theorem within_copyFile (m : Mounts) (src dst : Target) (from_ t : FileTree FileData) (rel : TreePath) (modTime : Int)
    (f : OpFault) : FileTree.Within (dst.root ++ rel) t (copyFile m src dst from_ t rel modTime f).2 := by
  unfold copyFile
  split
  · next data hdata =>
    have hplain : ∀ e ∈ dst.root ++ rel, PlainElem e := plain_of_file hdata
    split
    · have hwithin := Copy.within_runDirectDriverCopy
        (directAnswers m t (src.root ++ rel) (dst.root ++ rel) (copied m dst modTime f data) f)
        (rootedPath (src.root ++ rel)) (rootedPath (dst.root ++ rel)) true t
      rwa [treePath_rootedPath hplain] at hwithin
    · split_ifs
      · exact Copy.within_leave _ _ _
      · exact .refl _ _
      · exact within_writeFile _ _ _
    · split_ifs
      · exact .refl _ _
      · exact within_writeFile _ _ _
    · exact .refl _ _
  · exact .refl _ _

section Perform

variable (m : Mounts) (src dst : Target) (w : World) (e : PlanEntry) (f : OpFault)

theorem side_perform_ne {k : TargetKind} (h : k ≠ dst.kind) : (perform m src dst w e f).2.side k = w.side k :=
  w.side_set_ne h _

theorem side_perform_copy (haction : e.action = .add ∨ e.action = .update) (hfile : e.isDir = false) :
    (perform m src dst w e f).2.side dst.kind =
      (copyFile m src dst (w.side src.kind) (w.side dst.kind) e.path e.sourceModTime f).2 := by
  rcases haction with haction | haction
  all_goals simp [perform, haction, hfile]

theorem fst_perform_copy (haction : e.action = .add ∨ e.action = .update) (hfile : e.isDir = false) :
    (perform m src dst w e f).1 =
      (copyFile m src dst (w.side src.kind) (w.side dst.kind) e.path e.sourceModTime f).1 := by
  rcases haction with haction | haction
  all_goals simp [perform, haction, hfile]

theorem get_perform {q : TreePath} (hq : ¬ (dst.root ++ e.path) <+: q) (hget : (w.side dst.kind).get q ≠ none) :
    ((perform m src dst w e f).2.side dst.kind).get q = (w.side dst.kind).get q := by
  simp only [perform, World.side_set]
  split
  · exact within_deletePath _ _ _ _ _ q hq
  · split
    · exact get_mkdir _ _ _ _ q hget
    · exact within_copyFile _ _ _ _ _ _ _ _ q hq
  · split
    · exact get_mkdir _ _ _ _ q hget
    · exact within_copyFile _ _ _ _ _ _ _ _ q hq
  · rfl
  · rfl

theorem get_perform_mkdir (haction : e.action = .add ∨ e.action = .update) (hdir : e.isDir = true) {q : TreePath}
    (hget : (w.side dst.kind).get q ≠ none) :
    ((perform m src dst w e f).2.side dst.kind).get q = (w.side dst.kind).get q := by
  rcases haction with haction | haction
  all_goals
    simp only [perform, haction, hdir, if_true, World.side_set]
    exact get_mkdir _ _ _ _ q hget

/-- **A step on the virtual tree changes nothing but at and below its path.** -/
theorem within_perform (hk : dst.kind = .vfs) :
    FileTree.Within (dst.root ++ e.path) (w.side dst.kind) ((perform m src dst w e f).2.side dst.kind) := by
  simp only [perform, World.side_set]
  split
  · exact within_deletePath _ _ _ _ _
  · split
    · rw [hk]
      exact within_mkdir_vfs _ _ _
    · exact within_copyFile _ _ _ _ _ _ _ _
  · split
    · rw [hk]
      exact within_mkdir_vfs _ _ _
    · exact within_copyFile _ _ _ _ _ _ _ _
  · exact .refl _ _
  · exact .refl _ _

end Perform

/-! ## Whole plans -/

section Plans

variable {m : Mounts} {src dst : Target} {faults : Action → TreePath → OpFault} {idle : Bool} {plan : List PlanEntry}

theorem world_execStep (s : ExecState) (e : PlanEntry) : (execStep m src dst faults s e).world = s.world ∨
    (execStep m src dst faults s e).world = (perform m src dst s.world e (faults e.action e.path)).2 := by
  unfold execStep
  dsimp only
  split_ifs
  · exact .inl rfl
  · exact .inr rfl
  · exact .inr rfl

variable {P : World → Prop} {l : List PlanEntry} {s : ExecState} {e : PlanEntry}

theorem foldl_execStep
    (hstep : ∀ e ∈ l, ∀ w, P w → P (perform m src dst w e (faults e.action e.path)).2) (h : P s.world) :
    P (l.foldl (execStep m src dst faults) s).world := by
  induction l generalizing s with
  | nil => exact h
  | cons e l ih =>
    refine ih (fun e' he' => hstep e' (mem_cons_of_mem _ he')) ?_
    rcases world_execStep s e with heq | heq
    · rwa [heq]
    · rw [heq]
      exact hstep e mem_cons_self s.world h

theorem mem_of_mem_deletions (h : e ∈ deletions plan) : e ∈ plan ∧ e.action = .delete := by
  simpa [deletions] using h

theorem mem_of_mem_creations (h : e ∈ creations plan) : e ∈ plan ∧ (e.action = .add ∨ e.action = .update) := by
  simp only [creations, mem_append, mem_filter, decide_eq_true_eq] at h
  rcases h with h | h
  all_goals exact h.1

theorem act_of_mem_deletions (h : e ∈ deletions plan) : e.Acts := by
  simp [(mem_of_mem_deletions h).2]

theorem act_of_mem_creations (h : e ∈ creations plan) : e.Acts := by
  rcases (mem_of_mem_creations h).2 with haction | haction
  all_goals simp [haction]

/-- **What every step of a plan keeps, the execution of the plan keeps.** -/
theorem executePlan_rule (hstep : ∀ e ∈ plan, e.Acts →
      ∀ w, P w → P (perform m src dst w e (faults e.action e.path)).2)
    (h : P s.world) : P (executePlan m src dst faults idle plan s).world := by
  have hdeleted : P ((deletions plan).foldl (execStep m src dst faults) s).world := by
    refine foldl_execStep (fun e he w hw => ?_) h
    exact hstep e (mem_of_mem_deletions he).1 (act_of_mem_deletions he) w hw
  unfold executePlan
  split
  · refine foldl_execStep (fun e he w hw => ?_) hdeleted
    exact hstep e (mem_of_mem_creations he).1 (act_of_mem_creations he) w hw
  · exact hdeleted

/-! ## One step alone -/

theorem perform_quiet (w : World) (h : e.Acts) : perform m src dst w e .quiet = (false, w) := by
  have hdelete : deletePath dst.kind (w.side dst.kind) (dst.root ++ e.path) e.isDir .quiet = (false, w.side dst.kind) := by
    unfold deletePath
    split <;> rfl
  have hmkdir : mkdir dst.kind (w.side dst.kind) (dst.root ++ e.path) .quiet = (false, w.side dst.kind) := by
    unfold mkdir
    split <;> rfl
  have hcopy : copyFile m src dst (w.side src.kind) (w.side dst.kind) e.path e.sourceModTime .quiet =
      (false, w.side dst.kind) := by
    unfold copyFile
    split
    · split <;> rfl
    · rfl
  unfold perform
  cases haction : e.action with
  | delete => simp [hdelete]
  | add => cases hdir : e.isDir <;> simp [hmkdir, hcopy]
  | update => cases hdir : e.isDir <;> simp [hmkdir, hcopy]
  | skip => exact absurd haction h.1
  | conflict => exact absurd haction h.2

variable (m src dst) in
theorem execStep_quiet (hact : e.Acts)
    (hquiet : faults e.action e.path = .quiet) (s : ExecState) :
    (execStep m src dst faults s e).world = s.world ∧ (execStep m src dst faults s e).done = s.done := by
  by_cases hdone : e.key ∈ s.done
  · simp [execStep, hdone]
  · simp [execStep, hdone, hquiet, perform_quiet s.world hact]

variable (m src dst) in
theorem foldl_quiet (hact : ∀ e ∈ l, e.Acts)
    (hquiet : ∀ e ∈ l, faults e.action e.path = .quiet) (s : ExecState) :
    (l.foldl (execStep m src dst faults) s).world = s.world ∧
      (l.foldl (execStep m src dst faults) s).done = s.done := by
  induction l generalizing s with
  | nil => exact ⟨rfl, rfl⟩
  | cons e l ih =>
    obtain ⟨hworld, hdone⟩ := execStep_quiet m src dst (hact e mem_cons_self) (hquiet e mem_cons_self) s
    obtain ⟨hworld', hdone'⟩ := ih (fun x hx => hact x (mem_cons_of_mem _ hx))
      (fun x hx => hquiet x (mem_cons_of_mem _ hx)) (execStep m src dst faults s e)
    exact ⟨hworld'.trans hworld, hdone'.trans hdone⟩

theorem foldl_only (hact : ∀ e ∈ l, e.Acts)
    (hnodup : (l.map PlanEntry.key).Nodup) (he : e ∈ l)
    (hquiet : ∀ e' ∈ l, e'.key ≠ e.key → faults e'.action e'.path = .quiet) (hdone : s.done = []) :
    (l.foldl (execStep m src dst faults) s).world = (perform m src dst s.world e (faults e.action e.path)).2 := by
  induction l generalizing s with
  | nil => cases he
  | cons e' l ih =>
    rw [map_cons, nodup_cons] at hnodup
    have hact' := (forall_mem_cons.mp hact).2
    rw [foldl_cons]
    rcases mem_cons.mp he with rfl | he
    · have hrest : ∀ x ∈ l, faults x.action x.path = .quiet := by
        intro x hx
        refine hquiet x (mem_cons_of_mem _ hx) fun heq => hnodup.1 ?_
        rw [← heq]
        exact mem_map_of_mem hx
      rw [(foldl_quiet m src dst hact' hrest _).1]
      unfold execStep
      rw [if_neg (by simp [hdone])]
      dsimp only
      split_ifs
      · rfl
      · rfl
    · have hne : e'.key ≠ e.key := fun heq => hnodup.1 (heq ▸ mem_map_of_mem he)
      obtain ⟨hworld, hdone'⟩ := execStep_quiet m src dst (hact e' mem_cons_self)
        (hquiet e' mem_cons_self hne) s
      rw [ih hact' hnodup.2 he (fun x hx => hquiet x (mem_cons_of_mem _ hx)) (hdone'.trans hdone), hworld]

theorem nodup_deletions (h : (plan.map PlanEntry.key).Nodup) : ((deletions plan).map PlanEntry.key).Nodup := by
  have hrev : (plan.reverse.map PlanEntry.key).Nodup := by
    rw [map_reverse, nodup_reverse]
    exact h
  exact hrev.sublist (filter_sublist.map _)

theorem nodup_creations (h : (plan.map PlanEntry.key).Nodup) : ((creations plan).map PlanEntry.key).Nodup := by
  have hfilter : ((plan.filter fun e => e.action = .add ∨ e.action = .update).map PlanEntry.key).Nodup :=
    h.sublist (filter_sublist.map _)
  refine (Perm.map _ ?_).nodup_iff.mpr hfilter
  exact filter_append_perm (fun e : PlanEntry => e.isDir) _

/-- **If all other steps fail quietly, one step decides.** -/
theorem executePlan_only (hnodup : (plan.map PlanEntry.key).Nodup) (he : e ∈ plan)
    (hact : e.Acts)
    (hquiet : ∀ e' ∈ plan, e'.key ≠ e.key → faults e'.action e'.path = .quiet) (w : World) :
    (executePlan m src dst faults true plan { world := w }).world =
      (perform m src dst w e (faults e.action e.path)).2 := by
  have hquiet' : ∀ l : List PlanEntry, (∀ x ∈ l, x ∈ plan) → e ∉ l → ∀ x ∈ l, faults x.action x.path = .quiet := by
    intro l hl hnot x hx
    refine hquiet x (hl x hx) fun heq => hnot ?_
    rwa [← inj_on_of_nodup_map hnodup (hl x hx) he heq]
  unfold executePlan
  rw [if_pos rfl]
  by_cases hdelete : e.action = .delete
  · have hcreate : e ∉ creations plan := by
      intro hmem
      have := (mem_of_mem_creations hmem).2
      simp [hdelete] at this
    rw [(foldl_quiet m src dst (fun x hx => act_of_mem_creations hx)
      (hquiet' _ (fun x hx => (mem_of_mem_creations hx).1) hcreate) _).1]
    refine foldl_only (fun x hx => act_of_mem_deletions hx) (nodup_deletions hnodup) ?_ ?_ rfl
    · simp [deletions, he, hdelete]
    · exact fun x hx => hquiet x (mem_of_mem_deletions hx).1
  · have hkeep : e ∉ deletions plan := fun hmem => hdelete (mem_of_mem_deletions hmem).2
    have hcreate : e ∈ creations plan := by
      have haction : e.action = .add ∨ e.action = .update := by
        cases h : e.action <;> simp_all
      cases hdir : e.isDir <;> simp [creations, he, haction]
    obtain ⟨hworld, hdone⟩ := foldl_quiet m src dst (fun x hx => act_of_mem_deletions hx)
      (hquiet' _ (fun x hx => (mem_of_mem_deletions hx).1) hkeep) { world := w }
    rw [foldl_only (fun x hx => act_of_mem_creations hx) (nodup_creations hnodup) hcreate
      (fun x hx => hquiet x (mem_of_mem_creations hx).1) hdone, hworld]

end Plans

/-! ## Plans that succeed -/

def steps (plan : List PlanEntry) : List PlanEntry := deletions plan ++ creations plan

section Success

variable {m : Mounts} {src dst : Target} {faults : Action → TreePath → OpFault} {idle : Bool} {plan : List PlanEntry}

theorem nodup_steps (h : (plan.map PlanEntry.key).Nodup) : ((steps plan).map PlanEntry.key).Nodup := by
  rw [steps, map_append, nodup_append]
  refine ⟨nodup_deletions h, nodup_creations h, fun k hk k' hk' heq => ?_⟩
  obtain ⟨e, he, rfl⟩ := mem_map.mp hk
  obtain ⟨e', he', rfl⟩ := mem_map.mp hk'
  have haction : e.action = e'.action := congrArg Prod.snd heq
  rw [(mem_of_mem_deletions he).2] at haction
  simpa [← haction] using (mem_of_mem_creations he').2

theorem failed_execStep (s : ExecState) (e : PlanEntry) : s.failed ≤ (execStep m src dst faults s e).failed := by
  unfold execStep
  dsimp only
  split_ifs
  · exact le_rfl
  · exact le_rfl
  · exact Nat.le_succ _

theorem failed_foldl (l : List PlanEntry) (s : ExecState) :
    s.failed ≤ (l.foldl (execStep m src dst faults) s).failed := by
  induction l generalizing s with
  | nil => exact le_rfl
  | cons e l ih => exact (failed_execStep s e).trans (ih _)

variable {s : ExecState} {l₁ l₂ : List PlanEntry} {e : PlanEntry}

theorem done_foldl {l : List PlanEntry} {k : TreePath × Action}
    (h : k ∈ (l.foldl (execStep m src dst faults) s).done) : k ∈ s.done ∨ k ∈ l.map PlanEntry.key := by
  induction l generalizing s with
  | nil => exact .inl h
  | cons e l ih =>
    rcases ih h with hdone | hl
    · have hstep : k ∈ s.done ∨ k = e.key := by
        unfold execStep at hdone
        dsimp only at hdone
        split_ifs at hdone
        · exact .inl hdone
        · exact (mem_cons.mp hdone).symm
        · exact .inl hdone
      rcases hstep with hs | rfl
      · exact .inl hs
      · exact .inr (by simp)
    · exact .inr (mem_cons_of_mem _ hl)

theorem split_steps (h : steps plan = l₁ ++ e :: l₂) (he : e.action ≠ .delete) :
    ∃ l, l₁ = deletions plan ++ l ∧ creations plan = l ++ e :: l₂ := by
  rw [steps, append_eq_append_iff] at h
  rcases h with ⟨l, hl₁, hcreate⟩ | ⟨l, hdelete, hl⟩
  · exact ⟨l, hl₁, hcreate⟩
  · cases l with
    | nil => exact ⟨[], by simpa using hdelete.symm, by simpa using hl.symm⟩
    | cons e' l =>
      rw [cons_append, cons.injEq] at hl
      have hmem : e ∈ deletions plan := by
        rw [hdelete, hl.1]
        simp
      exact absurd (mem_of_mem_deletions hmem).2 he

theorem executePlan_of_failed (h : (executePlan m src dst faults idle plan s).failed = 0) :
    executePlan m src dst faults idle plan s = (steps plan).foldl (execStep m src dst faults) s := by
  unfold executePlan at h ⊢
  split at h
  · rw [if_pos (by assumption), steps, foldl_append]
  · cases h

/-- **In a plan without failures, every step succeeds.** -/
theorem step_of_ok (hnodup : ((l₁ ++ e :: l₂).map PlanEntry.key).Nodup) (hdone : s.done = [])
    (hfailed : ((l₁ ++ e :: l₂).foldl (execStep m src dst faults) s).failed = 0) :
    (perform m src dst (l₁.foldl (execStep m src dst faults) s).world e (faults e.action e.path)).1 = true ∧
      ((l₁ ++ [e]).foldl (execStep m src dst faults) s).world =
        (perform m src dst (l₁.foldl (execStep m src dst faults) s).world e (faults e.action e.path)).2 := by
  have hnew : e.key ∉ (l₁.foldl (execStep m src dst faults) s).done := by
    intro hmem
    rcases done_foldl hmem with hs | hl
    · simp [hdone] at hs
    · rw [map_append, map_cons, nodup_append] at hnodup
      exact hnodup.2.2 _ hl _ mem_cons_self rfl
  rw [foldl_append, foldl_cons] at hfailed
  have hstep := (failed_foldl l₂ _).trans hfailed.le
  rw [foldl_append, foldl_cons, foldl_nil]
  generalize l₁.foldl (execStep m src dst faults) s = s₁ at hnew hstep
  unfold execStep at hstep ⊢
  rw [if_neg hnew] at hstep ⊢
  dsimp only at hstep ⊢
  split at hstep
  · next hok => exact ⟨hok.1, by rw [if_pos hok]⟩
  · simp at hstep

end Success

/-! ## Direct copies -/

section Direct

variable {m : Mounts} {t : FileTree FileData} {src dst : TreePath}

/-- A direct copy finds its ends, and removes what is at the destination. -/
structure Replaces (m : Mounts) (t : FileTree FileData) (src dst : TreePath) : Prop where
  ends : ∃ x, Copy.Ready (directAnswers m t src dst { content := [] } {}) (rootedPath src) (rootedPath dst) x ∧
    x.parent.drive.writer = true
  existing : Copy.Existing (directAnswers m t src dst { content := [] } {}) (rootedPath dst)

variable {a : Copy.Answers FileData} {path name : Bytes} {info : Copy.ResolveInfo} {r : Copy.Resolved}
  {data : FileData} {f : OpFault} {x : Copy.Ends} {d : Copy.Driver}

theorem info_resolveCopyPath
    (h : Copy.resolveCopyPath a path (.ok info) = .ok r) : r.info = info ∧ r.isMissing = decide (info.remoteID = []) := by
  unfold Copy.resolveCopyPath at h
  dsimp only at h
  split at h
  · cases h
  · cases h
    exact ⟨rfl, rfl⟩

theorem none_of_resolveCopyPath {err : Option Copy.CopyError}
    (h : Copy.resolveCopyPath a path (err.elim (.ok info) .error) = .ok r) : err = none := by
  cases err with
  | none => rfl
  | some err => simp [Copy.resolveCopyPath] at h

/-- Failures do not help: what a copy removes, it removes without them. -/
theorem replaces_of_ready (hx : Copy.Ready (directAnswers m t src dst data f) (rootedPath src) (rootedPath dst) x)
    (hwriter : x.parent.drive.writer = true)
    (hexisting : Copy.Existing (directAnswers m t src dst data f) (rootedPath dst)) : Replaces m t src dst := by
  obtain ⟨e, he, hmissing⟩ := hexisting
  have hsource : f.source = none := none_of_resolveCopyPath hx.src
  have hparent : f.parent = none := none_of_resolveCopyPath hx.parent
  have hdest : f.dest = none := none_of_resolveCopyPath he
  have hsrc := hx.src
  have hpar := hx.parent
  simp only [directAnswers, hsource, elim_none] at hsrc
  simp only [directAnswers, hparent, elim_none] at hpar
  simp only [directAnswers, hdest, elim_none] at he
  have hpending : f.pending = false := by
    have hinfo := (info_resolveCopyPath hsrc).1
    have hsettled := hx.settled
    rw [hinfo] at hsettled
    exact hsettled
  have hseen : f.unseen = false := by
    cases hu : f.unseen with
    | false => rfl
    | true =>
      rw [hu] at he
      rw [(info_resolveCopyPath he).2] at hmissing
      simp at hmissing
  rw [hpending] at hsrc
  rw [hseen] at he
  exact ⟨⟨x, { hx with src := hsrc, parent := hpar }, hwriter⟩, e, he, hmissing⟩

theorem resolveCopyPath_congr {info' : Copy.ResolveInfo}
    (hmount : info'.mount = info.mount) (h : Copy.resolveCopyPath a path (.ok info) = .ok r) :
    ∃ r', Copy.resolveCopyPath a path (.ok info') = .ok r' ∧ r'.mount = r.mount ∧ r'.drive = r.drive := by
  obtain ⟨mount, driver', remoteID', isDir', pending', size'⟩ := info'
  obtain rfl : mount = info.mount := hmount
  unfold Copy.resolveCopyPath at h ⊢
  dsimp only at h ⊢
  split at h
  · cases h
  · next hfind =>
    cases h
    rw [hfind]
    exact ⟨_, rfl, rfl, rfl⟩

/-- Whether a copy of a file replaces a directory is decided by the drivers. -/
theorem replaces_congr {t' : FileTree FileData} {data' : FileData} (h : Replaces m t' src dst)
    (hsrc : t.get src = some (.file data)) (hsrc' : t'.get src = some (.file data')) (hdst : t.get dst = some .dir)
    (hdst' : t'.get dst = some .dir) : Replaces m t src dst := by
  obtain ⟨⟨x, hx, hwriter⟩, hexisting⟩ := h
  have hparent : t.get dst.dropLast = some .dir ∧ t'.get dst.dropLast = some .dir := by
    rcases eq_nil_or_concat' dst with rfl | ⟨init, n, rfl⟩
    · exact ⟨hdst, hdst'⟩
    · rw [dropLast_concat]
      have hget : t.get (init ++ [n]) ≠ none := by simp [hdst]
      have hget' : t'.get (init ++ [n]) ≠ none := by simp [hdst']
      exact ⟨t.closed hget, t'.closed hget'⟩
  have hinfo : resolveInfo t dst.dropLast = resolveInfo t' dst.dropLast := by
    simp only [resolveInfo, hparent.1, hparent.2]
  have hinfo' : resolveInfo t dst = resolveInfo t' dst := by
    simp only [resolveInfo, hdst, hdst']
  have hsame : ({ resolveInfo t src with pending := false } : Copy.ResolveInfo).mount =
      ({ resolveInfo t' src with pending := false } : Copy.ResolveInfo).mount := by
    simp only [resolveInfo, hsrc, hsrc']
  obtain ⟨r, hr, hmount, -⟩ := resolveCopyPath_congr hsame hx.src
  have hrinfo := (info_resolveCopyPath hr).1
  refine ⟨⟨⟨r, x.parent⟩, ⟨hr, ?_, ?_, ?_, hx.name, ?_, hx.dir, ⟨?_, hx.mounts.2⟩, hx.uploader⟩, hwriter⟩, ?_⟩
  · simp [hrinfo, resolveInfo, hsrc]
  · rw [hrinfo]
  · simp [hrinfo, resolveInfo, hsrc, rootedPath]
  · have := hx.parent
    simp only [directAnswers, elim_none, ← hinfo] at this ⊢
    exact this
  · rw [hmount]
    exact hx.mounts.1
  · obtain ⟨e, he, hmissing⟩ := hexisting
    refine ⟨e, ?_, hmissing⟩
    simp only [directAnswers, elim_none, ← hinfo'] at he ⊢
    exact he

/-- **A copy that replaces takes away what was below its destination.** -/
theorem get_below_of_replaces (h : Replaces m t src dst) (hplain : ∀ e ∈ dst, PlainElem e) (data : FileData)
    {q : TreePath} (hq : dst <+: q) (hne : q ≠ dst) :
    (Copy.runDirectDriverCopy (directAnswers m t src dst data {}) (rootedPath src) (rootedPath dst) true t).2.get q =
      none := by
  obtain ⟨⟨x, hx, hwriter⟩, hexisting⟩ := h
  have hready : Copy.Ready (directAnswers m t src dst data {}) (rootedPath src) (rootedPath dst) x := { hx with }
  refine Copy.get_below_of_existing hready hwriter hexisting rfl t ?_ ?_
  · rwa [treePath_rootedPath hplain]
  · rwa [treePath_rootedPath hplain]

theorem directCopy_of_not_replaces (h : ¬ Replaces m t src dst) (hdir : t.get dst = some .dir) (data : FileData)
    (f : OpFault) :
    (Copy.runDirectDriverCopy (directAnswers m t src dst data f) (rootedPath src) (rootedPath dst) true t).2 = t := by
  have hplain : ∀ e ∈ dst, PlainElem e := t.plain (by simp [hdir])
  obtain ⟨left, heq⟩ := Copy.tree_of_not_existing true t
    fun x hx hwriter hexisting => h (replaces_of_ready hx hwriter hexisting)
  rw [heq, treePath_rootedPath hplain]
  exact Copy.leave_of_dir hdir left

/-- A copy onto a directory leaves it alone, unless it is a direct one that replaces it. -/
theorem copyFile_onto_dir {src dst : Target} {from_ : FileTree FileData} {rel : TreePath}
    (hdir : t.get (dst.root ++ rel) = some .dir)
    (hnot : ∀ data, from_.get (src.root ++ rel) = some (.file data) → src.kind = .vfs → dst.kind = .vfs →
      ¬ Replaces m t (src.root ++ rel) (dst.root ++ rel)) (modTime : Int) (f : OpFault) :
    (copyFile m src dst from_ t rel modTime f).2 = t := by
  have hwrite : ∀ data, (writeFile t (dst.root ++ rel) data).2 = t := by
    intro data
    unfold writeFile
    rw [dif_neg]
    exact fun hwrite => hwrite.notDir hdir
  unfold copyFile
  split
  · next data hfile =>
    split
    · next hk hk' => exact directCopy_of_not_replaces (hnot data hfile hk hk') hdir _ _
    · split
      · exact Copy.leave_of_dir hdir f.left
      · rfl
    · split
      · rfl
      · exact hwrite _
    · rfl
  · rfl

theorem parent_of_ready (hx : Copy.Ready (directAnswers m t src dst data f) (rootedPath src) (rootedPath dst) x) :
    t.get dst.dropLast = some .dir := by
  have hparent := hx.parent
  have hisDir := hx.dir
  have hnone : f.parent = none := none_of_resolveCopyPath hparent
  simp only [directAnswers, hnone, elim_none] at hparent
  rw [(info_resolveCopyPath hparent).1] at hisDir
  unfold resolveInfo at hisDir
  split at hisDir
  · cases hisDir
  · assumption
  · cases hisDir

section Copies

variable {src dst : Target} {from_ : FileTree FileData} {rel : TreePath} {modTime : Int} {f : OpFault}

theorem notDir_copyFile (hdir : t.get (dst.root ++ rel) ≠ some .dir) :
    (copyFile m src dst from_ t rel modTime f).2.get (dst.root ++ rel) ≠ some .dir := by
  have hwrite : ∀ data, (writeFile t (dst.root ++ rel) data).2.get (dst.root ++ rel) ≠ some .dir := by
    intro data
    unfold writeFile
    split
    · simp
    · exact hdir
  unfold copyFile
  split
  swap
  · exact hdir
  next data hfile =>
  split
  · have hplain : ∀ e ∈ dst.root ++ rel, PlainElem e := plain_of_file hfile
    have hcopy := Copy.notDir_runDirectDriverCopy
      (directAnswers m t (src.root ++ rel) (dst.root ++ rel) (copied m dst modTime f data) f)
      (rootedPath (src.root ++ rel)) (rootedPath (dst.root ++ rel)) true (t := t)
    rw [treePath_rootedPath hplain] at hcopy
    exact hcopy hdir
  · split
    · exact Copy.leave_notDir hdir _
    · exact hwrite _
  · split
    · exact hdir
    · exact hwrite _
  · exact hdir

/-- **A copy that succeeds leaves the content of its source.** -/
theorem copyFile_ok (hok : (copyFile m src dst from_ t rel modTime f).1 = true)
    (hdir : t.get (dst.root ++ rel) ≠ some .dir) :
    ∃ data data', from_.get (src.root ++ rel) = some (.file data) ∧
      (copyFile m src dst from_ t rel modTime f).2.get (dst.root ++ rel) = some (.file data') ∧
      data'.content = data.content := by
  have hwrite : ∀ data, (writeFile t (dst.root ++ rel) data).1 = true →
      (writeFile t (dst.root ++ rel) data).2.get (dst.root ++ rel) = some (.file data) := by
    intro data hok
    unfold writeFile at hok ⊢
    split at hok
    · next hwrite => simp [hwrite]
    · cases hok
  unfold copyFile at hok ⊢
  split at hok
  swap
  · cases hok
  next data hfile =>
  rw [hfile]
  refine ⟨data, copied m dst modTime f data, rfl, ?_, rfl⟩
  cases hsrc : src.kind with
  | vfs =>
    cases hdst : dst.kind with
    | vfs =>
      rw [hsrc, hdst] at hok
      have hplain : ∀ e ∈ dst.root ++ rel, PlainElem e := plain_of_file hfile
      have hget := Copy.get_of_pass hok
      rw [treePath_rootedPath hplain] at hget
      obtain ⟨w, herr, hw, hleft⟩ := hget hdir fun x hx => parent_of_ready hx
      refine hleft _ ?_
      rcases hw with rfl | rfl
      all_goals
        simp only [directAnswers] at herr ⊢
        split at herr
        · cases herr
        · simp only [*]
    | disk =>
      rw [hsrc, hdst] at hok
      dsimp only at hok ⊢
      split at hok
      · cases hok
      · next hfail => simpa [hfail] using hwrite _ hok
  | disk =>
    cases hdst : dst.kind with
    | vfs =>
      rw [hsrc, hdst] at hok
      dsimp only at hok ⊢
      split at hok
      · cases hok
      · next hfail => simpa [hfail, hdir] using hwrite _ hok
    | disk =>
      simp [hsrc, hdst] at hok

end Copies

theorem resolveCopyPath_single
    (hm : a.drivers = [(name, d)]) (hname : name ≠ []) (path : Bytes) (info : Copy.ResolveInfo)
    (hinfo : info.mount = name) : ∃ driver, Copy.resolveCopyPath a path (.ok info) =
      .ok { mount := name, driver := driver, info := info, drive := d, isMissing := info.remoteID = [] } := by
  cases name with
  | nil => exact absurd rfl hname
  | cons c cs => simp [Copy.resolveCopyPath, hm, hinfo]

theorem ready_single (hm : m.drivers = [(name, d)]) (hup : d.sourceUploader = true)
    (hname : name ≠ []) {file : FileData} (data : FileData) (hsrc : t.get src = some (.file file)) {n : Bytes}
    {init : TreePath} (hdst : dst = init ++ [n]) (hplain : ∀ e ∈ dst, PlainElem e) (hdir : t.get init = some .dir)
    (hhead : src.headD [] = name) (hhead' : init.headD [] = name) :
    ∃ x, Copy.Ready (directAnswers m t src dst data {}) (rootedPath src) (rootedPath dst) x ∧ x.parent.drive = d := by
  have hinfo : (resolveInfo t src).mount = name ∧ (resolveInfo t src).isDir = false ∧
      (resolveInfo t src).remoteID = rootedPath src := by
    simp only [resolveInfo, hsrc]
    exact ⟨hhead, trivial, trivial⟩
  have hparent : dst.dropLast = init := by simp [hdst]
  have hinfo' : (resolveInfo t dst.dropLast).mount = name ∧ (resolveInfo t dst.dropLast).isDir = true := by
    rw [hparent]
    simp only [resolveInfo, hdir]
    exact ⟨hhead', trivial⟩
  have hbase : basePath (rootedPath dst) = n := by
    rw [hdst]
    exact basePath_rootedPath (hplain n (by simp [hdst]))
  have hclean : cleanVirtualPath (rootedPath dst) = rootedPath dst := by
    rw [Copy.cleanVirtualPath_eq_rootedPath, treePath_rootedPath hplain]
  have hn : PlainElem n := hplain n (by simp [hdst])
  obtain ⟨driver, hresolve⟩ := resolveCopyPath_single (a := directAnswers m t src dst data {}) hm hname
    (cleanVirtualPath (rootedPath src)) { resolveInfo t src with pending := false } hinfo.1
  obtain ⟨driver', hresolve'⟩ := resolveCopyPath_single (a := directAnswers m t src dst data {}) hm hname
    (Copy.splitDestPath (cleanVirtualPath (rootedPath dst))).1 _ hinfo'.1
  have hfound : (resolveInfo t src).remoteID ≠ [] := by
    rw [hinfo.2.2]
    simp [rootedPath]
  refine ⟨⟨_, _⟩, ⟨hresolve, hinfo.2.1, rfl, hfound, ?_, hresolve', hinfo'.2, ⟨hname, hname⟩, hup⟩, rfl⟩
  simp only [Copy.splitDestPath, hclean, hbase]
  refine ⟨hn.1, ?_⟩
  rintro rfl
  exact hn.2.2.2 (by simp)

theorem existing_single (hm : m.drivers = [(name, d)]) (hname : name ≠ [])
    (data : FileData) (hdst : t.get dst ≠ none) (hhead : dst.headD [] = name) :
    Copy.Existing (directAnswers m t src dst data {}) (rootedPath dst) := by
  have hinfo : (resolveInfo t dst).mount = name ∧ (resolveInfo t dst).remoteID = rootedPath dst := by
    unfold resolveInfo
    split
    · next hnone => exact absurd hnone hdst
    · exact ⟨hhead, rfl⟩
    · exact ⟨hhead, rfl⟩
  obtain ⟨driver, hresolve⟩ := resolveCopyPath_single (a := directAnswers m t src dst data {}) hm hname
    (cleanVirtualPath (rootedPath dst)) _ hinfo.1
  refine ⟨_, hresolve, ?_⟩
  rw [hinfo.2]
  simp [rootedPath]

end Direct

end Sync
