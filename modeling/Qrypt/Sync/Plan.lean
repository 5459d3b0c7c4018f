import Mathlib.Data.List.Sort
import Qrypt.Infra.FileTree
import Qrypt.Infra.Number

/-!
# Plans of a sync

`pkg/syncer`: `target.go`, `snapshot.go`, `compare.go` and `plan.go`. Two trees are listed, compared path by path,
and each difference becomes steps of a plan.

* `nodup_plan` — a plan does nothing twice
-/

namespace Sync

open Infra List

/-! ## Targets -/

/-- `TargetKind`: `TargetLocal` and `TargetVFS`. -/
inductive TargetKind where
  | disk | vfs
  deriving DecidableEq, Repr

structure Target where
  kind : TargetKind
  raw : Bytes := []
  vfsPath : Bytes := []
  localPath : Bytes := []
  mountName : Bytes := []
  encrypted : Bool := false
  deriving DecidableEq, Repr

def Target.root (t : Target) : TreePath :=
  match t.kind with
  | .vfs => treePath t.vfsPath
  | .disk => treePath t.localPath

theorem Target.plain_root (t : Target) : ∀ e ∈ t.root, PlainElem e := by
  unfold root
  split <;> exact plain_treePath _

/-- `CheckContainment`; quotes in names are not escaped. -/
def checkContainment (source destination : Target) : Option Bytes :=
  if source.kind ≠ .vfs ∨ destination.kind ≠ .vfs then none
  else if destination.mountName ≠ source.mountName then none
  else
    let src := cleanPath source.vfsPath
    let dst := cleanPath destination.vfsPath
    if src = dst then some (ascii "SOURCE and DESTINATION are the same path")
    else if (src ++ [47]).isPrefixOf (dst ++ [47]) then
      some (ascii "DESTINATION \"" ++ destination.raw ++ ascii "\" is inside SOURCE \"" ++ source.raw ++ ascii "\"")
    else none

/-! ## Snapshots -/

/-- The bytes of a file and its time in seconds. -/
structure FileData where
  content : Bytes
  modTime : Int := 0
  deriving DecidableEq, Repr

structure Entry where
  isDir : Bool
  size : Int := 0
  modTime : Int := 0
  deriving DecidableEq, Repr

def Entry.ofNode : Node FileData → Entry
  | .dir => { isDir := true }
  | .file data => { isDir := false, size := data.content.length, modTime := data.modTime }

/-- `Snapshot`: the entries by their relative paths. -/
structure Snapshot where
  paths : List TreePath
  entry : TreePath → Option Entry
  mem_paths : ∀ {p}, p ∈ paths ↔ entry p ≠ none

def Snapshot.empty : Snapshot := ⟨[], fun _ => none, by simp⟩

/-- What is below a path of a tree: `SnapshotVFS` and `SnapshotLocal`. -/
def snapshot (t : FileTree FileData) (root : TreePath) : Snapshot where
  paths := (t.support.filter fun p => root <+: p ∧ p ≠ root ∧ t.get p ≠ none).map fun p => p.drop root.length
  entry p := if p = [] then none else (t.get (root ++ p)).map Entry.ofNode
  mem_paths := by
    intro p
    simp only [mem_map, mem_filter, decide_eq_true_eq]
    constructor
    · rintro ⟨q, ⟨-, ⟨r, rfl⟩, hne, hget⟩, rfl⟩
      have hr : r ≠ [] := by
        rintro rfl
        exact hne (append_nil root)
      simpa [hr] using hget
    · intro h
      have hp : p ≠ [] := by
        rintro rfl
        simp at h
      rw [if_neg hp, ne_eq, Option.map_eq_none_iff] at h
      exact ⟨root ++ p, ⟨t.mem_support h, prefix_append root p, by simp [hp], h⟩, by simp⟩

/-! ## Differences -/

/-- The reasons of a difference. -/
inductive Reason where
  | missingInB | extraInB | type | mtime | size | hash
  deriving DecidableEq, Repr

/-- `Difference`, without the details that only the check command prints. -/
structure Difference where
  path : TreePath
  reason : Reason
  isDir : Bool
  deriving DecidableEq, Repr

/-- `CompareOptions`; hashes are always asked for. -/
structure CompareOptions where
  skipSize : Bool
  hash : TreePath → Except Bytes Bool

/-- One round of `CompareTrees`. -/
def differAt (opts : CompareOptions) (p : TreePath) : Option Entry → Option Entry → Except Bytes (Option Difference)
  | none, none => .ok none
  | some a, none => .ok (some { path := p, reason := .missingInB, isDir := a.isDir })
  | none, some b => .ok (some { path := p, reason := .extraInB, isDir := b.isDir })
  | some a, some b =>
    if a.isDir ≠ b.isDir then .ok (some { path := p, reason := .type, isDir := a.isDir })
    else if a.isDir then .ok none
    else if opts.skipSize ∧ a.modTime ≠ b.modTime then .ok (some { path := p, reason := .mtime, isDir := false })
    else if ¬ opts.skipSize ∧ a.size ≠ b.size then .ok (some { path := p, reason := .size, isDir := false })
    else if a.modTime ≠ b.modTime then .ok (some { path := p, reason := .mtime, isDir := false })
    else
      (opts.hash p).map fun equal => if equal then none else some { path := p, reason := .hash, isDir := false }

/-- The text of a path; paths are sorted by it. -/
def pathText (p : TreePath) : Bytes := [47].intercalate p

def sortedPaths (a b : Snapshot) : List TreePath :=
  (a.paths ++ b.paths).dedup.insertionSort fun p q => ¬ pathText q < pathText p

variable {p : TreePath} {o : PlanOptions} {a b : Option Entry} {d : Difference} {e : PlanEntry}
  {opts : CompareOptions}

theorem mem_sortedPaths {a b : Snapshot} : p ∈ sortedPaths a b ↔ a.entry p ≠ none ∨ b.entry p ≠ none := by
  simp [sortedPaths, a.mem_paths, b.mem_paths]

theorem nodup_sortedPaths (a b : Snapshot) : (sortedPaths a b).Nodup :=
  (perm_insertionSort _ _).nodup_iff.mpr (nodup_dedup _)

/-- The loop of `CompareTrees`. -/
def compareEach (source destination : Snapshot) (opts : CompareOptions) :
    List TreePath → Except Bytes (List Difference)
  | [] => .ok []
  | p :: ps =>
    match differAt opts p (source.entry p) (destination.entry p) with
    | .error err => .error err
    | .ok d =>
      match compareEach source destination opts ps with
      | .error err => .error err
      | .ok ds => .ok (d.toList ++ ds)

def compareTrees (source destination : Snapshot) (opts : CompareOptions) : Except Bytes (List Difference) :=
  compareEach source destination opts (sortedPaths source destination)

section Compare

variable {source destination : Snapshot} {opts : CompareOptions} {p : TreePath} {a b : Option Entry}

theorem differAt_path {d : Difference} (h : differAt opts p a b = .ok (some d)) : d.path = p := by
  unfold differAt at h
  split at h
  · cases h
  · cases h
    rfl
  · cases h
    rfl
  · split_ifs at h
    · cases h
      rfl
    · cases h
    · cases h
      rfl
    · cases h
      rfl
    · cases h
      rfl
    · cases hhash : opts.hash p with
      | error err =>
        rw [hhash] at h
        cases h
      | ok equal =>
        rw [hhash] at h
        cases equal with
        | true => cases h
        | false =>
          cases h
          rfl

theorem exists_differAt (h : ∀ x ∈ a, ∀ y ∈ b, x.isDir = false → y.isDir = false → ∃ equal, opts.hash p = .ok equal) :
    ∃ d, differAt opts p a b = .ok d := by
  unfold differAt
  split
  · exact ⟨_, rfl⟩
  · exact ⟨_, rfl⟩
  · exact ⟨_, rfl⟩
  · next x y =>
    split_ifs with htype hdir
    · exact ⟨_, rfl⟩
    · exact ⟨_, rfl⟩
    · exact ⟨_, rfl⟩
    · exact ⟨_, rfl⟩
    · exact ⟨_, rfl⟩
    · obtain ⟨equal, hequal⟩ := h x rfl y rfl (by simpa using hdir) (by simpa [hdir] using htype)
      rw [hequal]
      exact ⟨_, rfl⟩

variable {ps : List TreePath} {ds : List Difference}

theorem mem_compareEach (h : compareEach source destination opts ps = .ok ds) (d : Difference) :
    d ∈ ds ↔ d.path ∈ ps ∧ differAt opts d.path (source.entry d.path) (destination.entry d.path) = .ok (some d) := by
  induction ps generalizing ds with
  | nil =>
    cases h
    simp
  | cons p ps ih =>
    unfold compareEach at h
    split at h
    · cases h
    next d' hd' =>
    split at h
    · cases h
    next ds' hds' =>
    cases h
    rw [mem_append, ih hds', Option.mem_toList, mem_cons]
    constructor
    · rintro (hd | ⟨hps, hd⟩)
      · cases hd
        have hpath := differAt_path hd'
        rw [hpath]
        exact ⟨.inl rfl, hd'⟩
      · exact ⟨.inr hps, hd⟩
    · rintro ⟨hp | hps, hd⟩
      · rw [hp, hd'] at hd
        exact .inl (Except.ok.inj hd)
      · exact .inr ⟨hps, hd⟩

theorem differAt_of_compareEach (h : compareEach source destination opts ps = .ok ds) (hp : p ∈ ps) :
    ∃ d, differAt opts p (source.entry p) (destination.entry p) = .ok d := by
  induction ps generalizing ds with
  | nil => cases hp
  | cons q ps ih =>
    unfold compareEach at h
    split at h
    · cases h
    next d hd =>
    split at h
    · cases h
    next ds' hds' =>
    rcases mem_cons.mp hp with rfl | hp
    · exact ⟨d, hd⟩
    · exact ih hds' hp

theorem sublist_compareEach (h : compareEach source destination opts ps = .ok ds) : ds.map Difference.path <+ ps := by
  induction ps generalizing ds with
  | nil =>
    cases h
    exact .slnil
  | cons p ps ih =>
    unfold compareEach at h
    split at h
    · cases h
    next d hd =>
    split at h
    · cases h
    next ds' hds' =>
    cases h
    cases d with
    | none => exact (ih hds').cons p
    | some d => simpa [differAt_path hd] using (ih hds').cons_cons p

theorem nodup_compareEach (hps : ps.Nodup)
    (h : compareEach source destination opts ps = .ok ds) : (ds.map Difference.path).Nodup :=
  hps.sublist (sublist_compareEach h)

theorem exists_compareEach (h : ∀ p ∈ ps, ∃ d, differAt opts p (source.entry p) (destination.entry p) = .ok d) :
    ∃ ds, compareEach source destination opts ps = .ok ds := by
  induction ps with
  | nil => exact ⟨[], rfl⟩
  | cons p ps ih =>
    obtain ⟨d, hd⟩ := h p mem_cons_self
    obtain ⟨ds, hds⟩ := ih fun q hq => h q (mem_cons_of_mem _ hq)
    exact ⟨d.toList ++ ds, by simp only [compareEach, hd, hds]⟩

/-- **The differences of two trees are those of their paths.** -/
theorem mem_compareTrees (h : compareTrees source destination opts = .ok ds) (d : Difference) :
    d ∈ ds ↔ differAt opts d.path (source.entry d.path) (destination.entry d.path) = .ok (some d) := by
  rw [mem_compareEach h, mem_sortedPaths]
  constructor
  · exact fun hd => hd.2
  · intro hd
    refine ⟨?_, hd⟩
    by_contra hnone
    rw [not_or, not_not, not_not] at hnone
    rw [hnone.1, hnone.2] at hd
    cases hd

end Compare

/-! ## Plans -/

inductive Action where
  | add | update | delete | skip | conflict
  deriving DecidableEq, Repr

def Action.text : Action → Bytes
  | .add => ascii "add"
  | .update => ascii "update"
  | .delete => ascii "delete"
  | .skip => ascii "skip"
  | .conflict => ascii "conflict"

/-- The reason of a step, as a plan shows it. -/
def Reason.text : Reason → Bytes
  | .missingInB => ascii "missing"
  | .extraInB => ascii "extra"
  | .type => ascii "type"
  | .mtime => ascii "mtime"
  | .size => ascii "size"
  | .hash => ascii "hash"

structure PlanEntry where
  path : TreePath
  action : Action
  reason : Reason
  isDir : Bool := false
  sourceSize : Int := 0
  destSize : Int := 0
  bytes : Int := 0
  sourceModTime : Int := 0
  deriving DecidableEq, Repr

/-- `--conflict`. -/
inductive ConflictPolicy where
  | error | skip | source
  | other (text : Bytes)
  deriving DecidableEq, Repr

/-- The settings of a plan. -/
structure PlanOptions where
  deleteExtra : Bool
  conflict : ConflictPolicy
  compareMTime : Bool
  deriving DecidableEq, Repr

def diffBytes (a b : Int) : Int := if b < a then a - b else b - a

/-- One round of `Plan`, from the entries of the two snapshots. -/
def planAt (o : PlanOptions) (a b : Option Entry) (d : Difference) : List PlanEntry :=
  let a := a.getD { isDir := false }
  let b := b.getD { isDir := false }
  match d.reason with
  | .missingInB =>
    [{ path := d.path, action := .add, reason := d.reason, isDir := d.isDir, sourceSize := a.size, bytes := a.size,
       sourceModTime := a.modTime }]
  | .size | .mtime | .hash =>
    if d.reason = .mtime ∧ ¬ o.compareMTime then []
    else
      [{ path := d.path, action := .update, reason := d.reason, isDir := d.isDir, sourceSize := a.size,
         destSize := b.size, bytes := diffBytes a.size b.size, sourceModTime := a.modTime }]
  | .extraInB =>
    if o.deleteExtra then [{ path := d.path, action := .delete, reason := d.reason, isDir := d.isDir }]
    else [{ path := d.path, action := .skip, reason := d.reason, isDir := d.isDir, destSize := b.size }]
  | .type =>
    if o.conflict = .source then
      [{ path := d.path, action := .delete, reason := d.reason, isDir := b.isDir, destSize := b.size },
       { path := d.path, action := .add, reason := d.reason, isDir := a.isDir, sourceSize := a.size,
         bytes := a.size }]
    else [{ path := d.path, action := .conflict, reason := d.reason, isDir := a.isDir }]

def plan (diffs : List Difference) (snapA snapB : Snapshot) (o : PlanOptions) : List PlanEntry :=
  diffs.flatMap fun d => planAt o (snapA.entry d.path) (snapB.entry d.path) d

def PlanEntry.key (e : PlanEntry) : TreePath × Action := (e.path, e.action)

/-- A step that does something. -/
@[simp] def PlanEntry.Acts (e : PlanEntry) : Prop := e.action ≠ .skip ∧ e.action ≠ .conflict

theorem planAt_path (h : e ∈ planAt o a b d) : e.path = d.path := by
  unfold planAt at h
  all_goals repeat' split at h
  all_goals simp at h
  all_goals rcases h with rfl | rfl <;> rfl

theorem nodup_planAt (o : PlanOptions) (a b : Option Entry) (d : Difference) :
    ((planAt o a b d).map PlanEntry.key).Nodup := by
  unfold planAt
  all_goals repeat' split
  all_goals simp [PlanEntry.key]

/-- **A plan does nothing twice.** -/
theorem nodup_plan {diffs : List Difference} (h : (diffs.map Difference.path).Nodup) (snapA snapB : Snapshot)
    (o : PlanOptions) : ((plan diffs snapA snapB o).map PlanEntry.key).Nodup := by
  induction diffs with
  | nil => simp [plan]
  | cons d diffs ih =>
    obtain ⟨hd, hdiffs⟩ := nodup_cons.mp h
    have hsplit : plan (d :: diffs) snapA snapB o =
        planAt o (snapA.entry d.path) (snapB.entry d.path) d ++ plan diffs snapA snapB o := by
      simp [plan]
    rw [hsplit, map_append, nodup_append]
    refine ⟨nodup_planAt _ _ _ _, ih hdiffs, fun k hk k' hk' heq => ?_⟩
    obtain ⟨e, he, rfl⟩ := mem_map.mp hk
    obtain ⟨e', he', rfl⟩ := mem_map.mp hk'
    obtain ⟨d', hd', he'⟩ := mem_flatMap.mp he'
    have hpath : e.path = e'.path := congrArg Prod.fst heq
    rw [planAt_path he, planAt_path he'] at hpath
    exact hd (hpath ▸ mem_map_of_mem hd')

/-! ## The steps of a path -/

/-- The difference of a path is one of the two entries. -/
inductive Differs (opts : CompareOptions) (p : TreePath) (a b : Option Entry) (d : Difference) : Prop
  | missing (x : Entry) (ha : a = some x) (hb : b = none) (hd : d = ⟨p, .missingInB, x.isDir⟩)
  | extra (y : Entry) (ha : a = none) (hb : b = some y) (hd : d = ⟨p, .extraInB, y.isDir⟩)
  | type (x y : Entry) (ha : a = some x) (hb : b = some y) (htype : x.isDir ≠ y.isDir) (hd : d = ⟨p, .type, x.isDir⟩)
  | changed (x y : Entry) (ha : a = some x) (hb : b = some y) (hx : x.isDir = false) (hy : y.isDir = false)
      (reason : Reason)
      (hreason : reason = .mtime ∧ x.modTime ≠ y.modTime ∨ reason = .size ∧ opts.skipSize = false ∧ x.size ≠ y.size ∨
        reason = .hash ∧ opts.hash p = .ok false)
      (hd : d = ⟨p, reason, false⟩)

theorem differs_of_differAt (h : differAt opts p a b = .ok (some d)) : Differs opts p a b d := by
  unfold differAt at h
  split at h
  · cases h
  · next x =>
    cases h
    exact .missing x rfl rfl rfl
  · next y =>
    cases h
    exact .extra y rfl rfl rfl
  · next x y =>
    by_cases htype : x.isDir = y.isDir
    · by_cases hdir : x.isDir = true
      · simp [← htype, hdir] at h
      · have hx : x.isDir = false := by simpa using hdir
        have hy : y.isDir = false := htype ▸ hx
        simp only [htype, ne_eq, not_true_eq_false, if_false, hy, Bool.false_eq_true] at h
        split_ifs at h with h1 h2 h3
        · cases h
          exact .changed x y rfl rfl hx hy .mtime (.inl ⟨rfl, h1.2⟩) rfl
        · cases h
          exact .changed x y rfl rfl hx hy .size (.inr (.inl ⟨rfl, by simpa using h2.1, h2.2⟩)) rfl
        · cases hhash : opts.hash p with
          | error err =>
            rw [hhash] at h
            cases h
          | ok equal =>
            rw [hhash] at h
            cases equal with
            | true => cases h
            | false =>
              cases h
              exact .changed x y rfl rfl hx hy .hash (.inr (.inr ⟨rfl, hhash⟩)) rfl
        · cases h
          exact .changed x y rfl rfl hx hy .mtime (.inl ⟨rfl, h3⟩) rfl
    · rw [if_pos htype] at h
      cases h
      exact .type x y rfl rfl htype rfl

/-- What a step of a plan tells about the two entries of its path. -/
inductive Planned (o : PlanOptions) (a b : Option Entry) (e : PlanEntry) : Prop
  | missing (x : Entry) (ha : a = some x) (hb : b = none) (haction : e.action = .add) (hdir : e.isDir = x.isDir)
      (htime : e.sourceModTime = x.modTime)
  | extra (y : Entry) (ha : a = none) (hb : b = some y) (hdir : e.isDir = y.isDir)
      (haction : o.deleteExtra = true ∧ e.action = .delete ∨ o.deleteExtra = false ∧ e.action = .skip)
  | replace (x y : Entry) (ha : a = some x) (hb : b = some y) (htype : x.isDir ≠ y.isDir) (hsource : o.conflict = .source)
      (haction : e.action = .delete ∧ e.isDir = y.isDir ∨ e.action = .add ∧ e.isDir = x.isDir)
  | conflict (x y : Entry) (ha : a = some x) (hb : b = some y) (htype : x.isDir ≠ y.isDir) (hpolicy : o.conflict ≠ .source)
      (haction : e.action = .conflict)
  | changed (x y : Entry) (ha : a = some x) (hb : b = some y) (hx : x.isDir = false) (hy : y.isDir = false)
      (haction : e.action = .update) (hdir : e.isDir = false) (htime : e.sourceModTime = x.modTime)

/-- **Each step of a plan is one of five kinds.** -/
theorem planned_of_mem (hd : differAt opts p a b = .ok (some d)) (he : e ∈ planAt o a b d) : Planned o a b e := by
  rcases differs_of_differAt hd with ⟨x, rfl, rfl, rfl⟩ | ⟨y, rfl, rfl, rfl⟩ | ⟨x, y, rfl, rfl, htype, rfl⟩ |
    ⟨x, y, rfl, rfl, hx, hy, reason, hreason, rfl⟩
  · simp only [planAt, mem_singleton] at he
    subst he
    exact .missing x rfl rfl rfl rfl rfl
  · simp only [planAt] at he
    split at he
    · next hdelete =>
      rw [mem_singleton] at he
      subst he
      exact .extra y rfl rfl rfl (.inl ⟨hdelete, rfl⟩)
    · next hdelete =>
      rw [mem_singleton] at he
      subst he
      exact .extra y rfl rfl rfl (.inr ⟨by simpa using hdelete, rfl⟩)
  · simp only [planAt] at he
    split at he
    · next hsource =>
      simp only [mem_cons, not_mem_nil, or_false] at he
      rcases he with rfl | rfl
      · exact .replace x y rfl rfl htype hsource (.inl ⟨rfl, rfl⟩)
      · exact .replace x y rfl rfl htype hsource (.inr ⟨rfl, rfl⟩)
    · next hpolicy =>
      rw [mem_singleton] at he
      subst he
      exact .conflict x y rfl rfl htype hpolicy rfl
  · have hupdate : e ∈ (if reason = .mtime ∧ ¬ o.compareMTime then [] else
        [({ path := p, action := .update, reason := reason, isDir := false, sourceSize := x.size, destSize := y.size,
            bytes := diffBytes x.size y.size, sourceModTime := x.modTime } : PlanEntry)]) := by
      rcases hreason with ⟨rfl, -⟩ | ⟨rfl, -⟩ | ⟨rfl, -⟩ <;> exact he
    split at hupdate
    · cases hupdate
    · rw [mem_singleton] at hupdate
      subst hupdate
      exact .changed x y rfl rfl hx hy rfl rfl rfl

end Sync
