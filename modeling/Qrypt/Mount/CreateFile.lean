import Qrypt.Infra.FileTree
import Qrypt.Vfs.System

/-!
# Creating a file through the mount

`Create`, `Mknod`, `Write`, `Flush` and `Release` of the FUSE adapter in `pkg/mount`, with its table of handles.
The file system below is the interface that the adapter calls; `FileSys.Contract` says what its calls do when
they succeed, in terms of what is at each path. The kernel gives clean paths, so they are lists of elements.

* `createsFile_iff` — a file is made exactly for names with a dot
-/

namespace Mount

open Infra Drive Vfs Function

/-! ## The file system below -/

/-- The errors that `fuseErr` tells apart. -/
inductive FsErr where
  | readOnly | notFound | crossMount | isDir | dirNotEmpty | other

/-- The error codes of the adapter. -/
inductive Errno where
  | eio | erofs | enoent | exdev | eisdir | enotempty | enosys

def fuseErr : FsErr → Errno
  | .readOnly => .erofs
  | .notFound => .enoent
  | .crossMount => .exdev
  | .isDir => .eisdir
  | .dirNotEmpty => .enotempty
  | .other => .eio

/-- The calls of the adapter. -/
structure FileSys (σ : Type) where
  create : TreePath → σ → Except FsErr Unit × σ
  mkdir : TreePath → σ → Except FsErr Entry × σ
  stat : TreePath → σ → Except FsErr Entry × σ
  writeAt : TreePath → Bytes → Nat → σ → Except FsErr Nat × σ
  flush : TreePath → σ → Except FsErr Unit × σ
  isReadOnlyPath : TreePath → σ → Bool

variable {σ : Type}

/-- What the calls do. `node` is what is at a path, `saved` what was handed on for upload. -/
structure FileSys.Contract (fs : FileSys σ) (node : σ → TreePath → Option (Node Bytes))
    (saved : σ → TreePath → Option Bytes) : Prop where
  create : ∀ {p s s'}, node s p = none → node s p.dropLast = some .dir → fs.create p s = (.ok (), s') →
    node s' p = some (.file [])
  mkdir : ∀ {p s s' entry}, fs.mkdir p s = (.ok entry, s') → node s' p = some .dir
  stat : ∀ {p s n}, node s p = some n → ∃ entry, (fs.stat p s).1 = .ok entry ∧ (entry.isDir = true ↔ n = .dir)
  stat_keeps : ∀ p s, node (fs.stat p s).2 = node s
  writeAt : ∀ {p s s' c data off n}, node s p = some (.file c) → fs.writeAt p data off s = (.ok n, s') →
    n = data.length → node s' p = some (.file (Vfs.writeAt c data off))
  flush : ∀ {p s s' c}, node s p = some (.file c) → fs.flush p s = (.ok (), s') → saved s' p = some c

/-! ## The adapter -/

/-- `fuseHandle`. -/
structure Handle where
  path : TreePath
  flags : BitVec 64
  entry : Option Entry
  activeReads : Nat := 0
  released : Bool := false

/-- `adapter`. `freeSlots` counts the slots for operations that are under way. -/
structure Adapter (σ : Type) where
  fs : σ
  stopping : Bool := false
  freeSlots : Nat := 256
  readOnly : Bool := false
  handles : AList (fun _ : UInt64 => Handle) := ∅
  nextFH : UInt64 := 0

def isFinderDirectoryCreate (path : TreePath) : Bool :=
  let name := path.getLast?.getD [47]
  !name.contains 46 && !(name.head? = some 46)

namespace Adapter

variable (fs : FileSys σ) {α : Type}

variable (a : Adapter σ)

/-- An operation between `beginOp` and `done`. -/
def operation (body : Adapter σ → Except Errno α × Adapter σ) : Except Errno α × Adapter σ :=
  if a.stopping || a.freeSlots = 0 then (.error .eio, a)
  else
    let r := body { a with freeSlots := a.freeSlots - 1 }
    (r.1, { r.2 with freeSlots := r.2.freeSlots + 1 })

/-- An operation that `isReadOnlyPath` guards. -/
def changing (path : TreePath) (body : Adapter σ → Except Errno α × Adapter σ) : Except Errno α × Adapter σ :=
  a.operation fun a => if a.readOnly || fs.isReadOnlyPath path a.fs then (.error .erofs, a) else body a

/-- A call of the file system, with the code of its error. -/
def call (f : σ → Except FsErr α × σ) : Except Errno α × Adapter σ :=
  ((f a.fs).1.mapError fuseErr, { a with fs := (f a.fs).2 })

def nextHandleWithFlags (path : TreePath) (flags : BitVec 64) (entry : Option Entry) : UInt64 × Adapter σ :=
  (a.nextFH + 1, { a with nextFH := a.nextFH + 1, handles := a.handles.insert (a.nextFH + 1) { path, flags, entry } })

def handleWritable (fh : UInt64) : Bool :=
  match a.handles.lookup fh with
  | none => fh = 0
  | some handle => handle.flags &&& 3 ≠ 0

def mkdir (path : TreePath) : Except Errno Entry × Adapter σ :=
  a.changing fs path fun a => a.call (fs.mkdir path)

def create (path : TreePath) (flags : BitVec 64) : Except Errno UInt64 × Adapter σ :=
  a.changing fs path fun a =>
    if isFinderDirectoryCreate path then
      ((a.mkdir fs path).1.map fun _ => 0, (a.mkdir fs path).2)
    else
      match a.call (fs.create path) with
      | (.error errc, a) => (.error errc, a)
      | (.ok _, a) =>
        let entry := fs.stat path a.fs
        let r := { a with fs := entry.2 }.nextHandleWithFlags path (flags ||| 2) entry.1.toOption
        (.ok r.1, r.2)

/-- `Mknod`; the constants are `S_IFDIR`, `S_IFREG` and `S_IFMT`. -/
def mknod (path : TreePath) (mode : UInt32) : Except Errno Unit × Adapter σ :=
  a.changing fs path fun a =>
    if mode &&& 0x4000 ≠ 0 then ((a.mkdir fs path).1.map fun _ => (), (a.mkdir fs path).2)
    else if mode &&& 0x8000 = 0 ∧ mode &&& 0xF000 ≠ 0 then (.error .enosys, a)
    else if isFinderDirectoryCreate path then ((a.mkdir fs path).1.map fun _ => (), (a.mkdir fs path).2)
    else a.call (fs.create path)

def write (path : TreePath) (data : Bytes) (off : Nat) : Except Errno Nat × Adapter σ :=
  a.changing fs path fun a => a.call (fs.writeAt path data off)

def flush (path : TreePath) (fh : UInt64) : Except Errno Unit × Adapter σ :=
  a.operation fun a => if a.handleWritable fh then a.call (fs.flush path) else (.ok (), a)

def release (fh : UInt64) : Adapter σ :=
  match a.handles.lookup fh with
  | none => a
  | some handle =>
    if 0 < handle.activeReads then { a with handles := a.handles.insert fh { handle with released := true } }
    else { a with handles := a.handles.erase fh }

def writeAll (a : Adapter σ) (path : TreePath) : List (Bytes × Nat) → Option (Adapter σ)
  | [] => some a
  | (data, off) :: writes =>
    match a.write fs path data off with
    | (.ok n, a) => if n = data.length then a.writeAll path writes else none
    | (.error _, _) => none

/-- Writes, then `Flush` and `Release`, all of which succeed. -/
def store (path : TreePath) (fh : UInt64) (writes : List (Bytes × Nat)) : Option (Adapter σ) :=
  (a.writeAll fs path writes).bind fun a =>
    match a.flush fs path fh with
    | (.ok _, a) => some (a.release fh)
    | (.error _, _) => none

/-! ## What a successful operation did -/

section Ok

variable {fs} {a a' : Adapter σ} {path : TreePath} {v : α} {body : Adapter σ → Except Errno α × Adapter σ}

theorem operation_ok (h : a.operation body = (.ok v, a')) :
    ∃ b b', b.fs = a.fs ∧ b.handles = a.handles ∧ body b = (.ok v, b') ∧ a'.fs = b'.fs ∧ a'.handles = b'.handles := by
  unfold operation at h
  split at h
  · cases h
  · obtain ⟨h1, rfl⟩ := Prod.mk.inj h
    exact ⟨{ a with freeSlots := a.freeSlots - 1 }, _, rfl, rfl, Prod.ext h1 rfl, rfl, rfl⟩

theorem changing_ok (h : a.changing fs path body = (.ok v, a')) :
    ∃ b b', b.fs = a.fs ∧ b.handles = a.handles ∧ body b = (.ok v, b') ∧ a'.fs = b'.fs ∧ a'.handles = b'.handles := by
  obtain ⟨b, b', hfs, hh, hbody, hfs', hh'⟩ := operation_ok h
  split at hbody
  · cases hbody
  · exact ⟨b, b', hfs, hh, hbody, hfs', hh'⟩

theorem call_ok {f : σ → Except FsErr α × σ} (h : a.call f = (.ok v, a')) :
    f a.fs = (.ok v, a'.fs) ∧ a'.handles = a.handles := by
  obtain ⟨h1, rfl⟩ := Prod.mk.inj h
  refine ⟨Prod.ext ?_ rfl, rfl⟩
  cases hf : (f a.fs).1 with
  | ok w =>
    rw [hf] at h1
    cases h1
    rfl
  | error e =>
    rw [hf] at h1
    cases h1

end Ok

/-! ## A file is made -/

/-- The path is a file, the handle is one for writing, and what is written through it is stored. -/
structure MadeFile (fs : FileSys σ) (saved : σ → TreePath → Option Bytes) (a : Adapter σ) (path : TreePath)
    (fh : UInt64) : Prop where
  stat : ∃ entry, (fs.stat path a.fs).1 = .ok entry ∧ entry.isDir = false
  writable : ∃ handle, a.handles.lookup fh = some handle ∧ handle.flags &&& 3 ≠ 0
  stores : ∀ writes a', a.store fs path fh writes = some a' →
    saved a'.fs path = some (writes.foldl (fun c w => writeAt c w.1 w.2) [])

/-- `Create` and `Mknod` of a path that is free, in a directory, make a file there if they return 0. -/
def CreatesFile (path : TreePath) : Prop :=
  ∀ {σ : Type} {fs : FileSys σ} {node saved}, fs.Contract node saved → ∀ a : Adapter σ,
    node a.fs path = none → node a.fs path.dropLast = some .dir →
    (∀ flags fh a', a.create fs path flags = (.ok fh, a') → MadeFile fs saved a' path fh) ∧
      ∀ mode a', mode &&& 0xF000 = 0x8000 → a.mknod fs path mode = (.ok (), a') →
        ∃ entry, (fs.stat path a'.fs).1 = .ok entry ∧ entry.isDir = false

section Made

variable {fs} {node : σ → TreePath → Option (Node Bytes)} {saved : σ → TreePath → Option Bytes}
  {a a' : Adapter σ} {path : TreePath} {c : Bytes} {writes : List (Bytes × Nat)}

theorem stat_file (hfs : fs.Contract node saved) {s : σ} (h : node s path = some (.file c)) :
    ∃ entry, (fs.stat path s).1 = .ok entry ∧ entry.isDir = false := by
  obtain ⟨entry, hentry, hdir⟩ := hfs.stat h
  exact ⟨entry, hentry, by simpa using hdir⟩

theorem writeAll_some (hfs : fs.Contract node saved)
    (hnode : node a.fs path = some (.file c)) (h : a.writeAll fs path writes = some a') :
    node a'.fs path = some (.file (writes.foldl (fun c w => writeAt c w.1 w.2) c)) ∧ a'.handles = a.handles := by
  induction writes generalizing a c with
  | nil =>
    cases h
    exact ⟨hnode, rfl⟩
  | cons w writes ih =>
    unfold writeAll at h
    split at h
    · next n a₁ hwrite =>
      obtain ⟨b, b', hb, hbh, hcall, hb', hbh'⟩ := changing_ok hwrite
      obtain ⟨hcall, hh⟩ := call_ok hcall
      rw [hb] at hcall
      split at h
      · next hn =>
        have hnode₁ := hfs.writeAt hnode hcall hn
        rw [← hb'] at hnode₁
        obtain ⟨h1, h2⟩ := ih hnode₁ h
        exact ⟨h1, by rw [h2, hbh', hh, hbh]⟩
      · cases h
    · cases h

theorem release_fs (a : Adapter σ) (fh : UInt64) : (a.release fh).fs = a.fs := by
  unfold release
  split
  · rfl
  · split <;> rfl

theorem store_some (hfs : fs.Contract node saved) {fh : UInt64}
    (hnode : node a.fs path = some (.file c)) (hw : a.handleWritable fh = true)
    (h : a.store fs path fh writes = some a') :
    saved a'.fs path = some (writes.foldl (fun c w => writeAt c w.1 w.2) c) := by
  obtain ⟨a₁, hwrites, h⟩ := Option.bind_eq_some_iff.mp h
  obtain ⟨hnode₁, hh⟩ := writeAll_some hfs hnode hwrites
  split at h
  · next a₂ hflush =>
    cases h
    obtain ⟨b, b', hb, hbh, hbody, hb', -⟩ := operation_ok hflush
    have hwb : b.handleWritable fh = true := by
      unfold handleWritable at hw ⊢
      rwa [hbh, hh]
    rw [if_pos hwb] at hbody
    obtain ⟨hcall, -⟩ := call_ok hbody
    rw [hb] at hcall
    rw [release_fs, hb']
    exact hfs.flush hnode₁ hcall
  · cases h

theorem or_two_and_three (flags : BitVec 64) : (flags ||| 2) &&& 3 ≠ 0 := by
  intro h
  have hbit := congrArg (·.getLsbD 1) h
  simp at hbit

section

variable (hfs : fs.Contract node saved) (hname : isFinderDirectoryCreate path = false)
  (hfree : node a.fs path = none) (hdir : node a.fs path.dropLast = some .dir)
include hfs hname hfree hdir

/-- `Create` on the way of names with a dot. -/
theorem madeFile_create {flags : BitVec 64} {fh : UInt64}
    (h : a.create fs path flags = (.ok fh, a')) : MadeFile fs saved a' path fh := by
  obtain ⟨b, b', hb, -, hbody, hb', hh'⟩ := changing_ok h
  rw [hname] at hbody
  simp only [Bool.false_eq_true, if_false] at hbody
  split at hbody
  · cases hbody
  · next b₁ hcall =>
    obtain ⟨hcall, -⟩ := call_ok hcall
    rw [hb] at hcall
    obtain ⟨hfh, rfl⟩ := Prod.mk.inj hbody
    cases hfh
    have hnode : node a'.fs path = some (.file []) := by
      rw [hb']
      show node (fs.stat path b₁.fs).2 path = _
      rw [hfs.stat_keeps]
      exact hfs.create hfree hdir hcall
    have hlookup : a'.handles.lookup (b₁.nextFH + 1) =
        some { path, flags := flags ||| 2, entry := (fs.stat path b₁.fs).1.toOption } := by
      rw [hh']
      exact AList.lookup_insert _
    refine ⟨stat_file hfs hnode, ⟨_, hlookup, or_two_and_three flags⟩, fun writes a'' hstore => ?_⟩
    refine store_some hfs hnode ?_ hstore
    have hthree := or_two_and_three flags
    show a'.handleWritable (b₁.nextFH + 1) = true
    unfold handleWritable
    rw [hlookup]
    exact decide_eq_true hthree

theorem mknod_file {mode : UInt32} (hmode : mode &&& 0xF000 = 0x8000) (h : a.mknod fs path mode = (.ok (), a')) :
    node a'.fs path = some (.file []) := by
  obtain ⟨b, b', hb, -, hbody, hb', -⟩ := changing_ok h
  have hnodir : mode &&& 0x4000 = 0 := by
    have hsub : (0x4000 : UInt32) = 0xF000 &&& 0x4000 := by decide
    rw [hsub, ← UInt32.and_assoc, hmode]
    decide
  rw [if_neg (not_not.mpr hnodir)] at hbody
  split at hbody
  · cases hbody
  · rw [hname] at hbody
    obtain ⟨hcall, -⟩ := call_ok hbody
    rw [hb] at hcall
    rw [hb']
    exact hfs.create hfree hdir hcall

end

end Made

/-! ## Names without a dot -/

/-- A file system whose state is what is at each path, and whose calls succeed. -/
def plainFS : FileSys (TreePath → Option (Node Bytes)) where
  create p s := (.ok (), update s p (some (.file [])))
  mkdir p s := (.ok ⟨[], [], [], true, 0, none⟩, update s p (some .dir))
  stat p s := (match s p with
    | none => .error .notFound
    | some n => .ok ⟨[], [], [], decide (n = .dir), 0, none⟩, s)
  writeAt p data off s := match s p with
    | some (.file c) => (.ok data.length, update s p (some (.file (writeAt c data off))))
    | _ => (.error .isDir, s)
  flush _ s := (.ok (), s)
  isReadOnlyPath _ _ := false

def plainSaved (s : TreePath → Option (Node Bytes)) (p : TreePath) : Option Bytes :=
  match s p with
  | some (.file c) => some c
  | _ => none

theorem plainFS_contract : plainFS.Contract id plainSaved where
  create := by
    rintro p s _ - - ⟨-, rfl⟩
    exact update_self ..
  mkdir := by
    rintro p s _ _ ⟨-, rfl⟩
    exact update_self ..
  stat := by
    intro p s n h
    refine ⟨⟨[], [], [], decide (n = .dir), 0, none⟩, ?_, ?_⟩
    · simp only [plainFS, show s p = some n from h]
    · exact decide_eq_true_iff
  stat_keeps p s := rfl
  writeAt := by
    intro p s s' c data off n h hwrite _
    simp only [plainFS, show s p = some (.file c) from h] at hwrite
    obtain ⟨-, rfl⟩ := Prod.mk.inj hwrite
    exact update_self ..
  flush := by
    rintro p s _ c h ⟨-, rfl⟩
    simp only [plainSaved, show s p = some (.file c) from h]

def freeAt (path : TreePath) : Adapter (TreePath → Option (Node Bytes)) :=
  { fs := fun p => if p = path then none else some .dir }

theorem not_createsFile {d : TreePath} {name : Bytes} (hname : 46 ∉ name) : ¬ CreatesFile (d ++ [name]) := by
  intro h
  have hfinder : isFinderDirectoryCreate (d ++ [name]) = true := by
    have hhead : name.head? ≠ some 46 := fun heq => hname (List.mem_of_head? heq)
    simp [isFinderDirectoryCreate, hname, hhead]
  have hmade := (h plainFS_contract (freeAt (d ++ [name])) (by simp [freeAt]) (by simp [freeAt])).1 0 0 _ (by
    simp only [create, changing, operation, hfinder]
    rfl)
  obtain ⟨entry, hentry, hdir⟩ := hmade.stat
  simp [plainFS, mkdir, changing, operation, call, freeAt] at hentry
  simp [← hentry] at hdir

/-- **Creating a file through the mount makes a file exactly if the name has a dot**: other names are taken for
directories of the Finder. -/
theorem createsFile_iff (dir : TreePath) (name : Bytes) : CreatesFile (dir ++ [name]) ↔ 46 ∈ name := by
  constructor
  · intro h
    by_contra hname
    exact not_createsFile hname h
  · intro hname σ fs node saved hfs a hfree hdir
    have hfinder : isFinderDirectoryCreate (dir ++ [name]) = false := by
      simp [isFinderDirectoryCreate, hname]
    refine ⟨fun flags fh a' h => madeFile_create hfs hfinder hfree hdir h, fun mode a' hmode h => ?_⟩
    exact stat_file hfs (mknod_file hfs hfinder hfree hdir hmode h)

/-- `/Makefile` becomes a directory. -/
theorem makefile_becomes_directory : ¬ CreatesFile [ascii "Makefile"] := by
  have hname : 46 ∉ ascii "Makefile" := by decide
  exact not_createsFile (d := []) hname

end Adapter

end Mount
