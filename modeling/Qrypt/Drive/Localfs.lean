import Qrypt.Drive.Objects
import Qrypt.Infra.Path

/-!
# The local directory backend

`pkg/drivers/localfs`: a directory of the operating system as a drive. Ids are paths, so a renamed
file has a new id and a later file can have an old one.

The file tree is modelled with what the system calls check: which files and directories exist. Of
the faults of the system only a failing write is modelled. Errors are kept by their `errno` text.
-/

namespace Drive

open Infra List

/-- The files and directories by their paths, and for the uploads to come after how many bytes the
copy fails. -/
structure Disk where
  files : List (Bytes × Bytes)
  dirs : List Bytes
  writeFaults : List (Option Nat) := []
  deriving DecidableEq, Repr

namespace Disk

variable (disk : Disk)

def file (path : Bytes) : Option Bytes := disk.files.lookup path

/-- What is left of a path at or below `dir`. -/
def suffixOf (dir path : Bytes) : Option Bytes :=
  if path = dir then some []
  else if (dir ++ [47]) <+: path then some (path.drop dir.length)
  else none

/-- The path after `old` became `new`. -/
def rebase (old new path : Bytes) : Bytes :=
  match suffixOf old path with
  | some suffix => new ++ suffix
  | none => path

def occupied (path : Bytes) : Bool :=
  disk.files.any (fun f => (suffixOf path f.1).isSome) || disk.dirs.any fun d => d ≠ path ∧ (suffixOf path d).isSome

/-- `os.Create` and the writes to the file. -/
def write (path content : Bytes) : Disk :=
  { disk with files := (path, content) :: disk.files.filter (·.1 ≠ path) }

def rename (old new : Bytes) : Except Err Disk :=
  if (disk.file old).isNone ∧ old ∉ disk.dirs then .error (.text "no such file or directory")
  else if new ∈ disk.dirs then .error (.text "file exists")
  else if dirPath new ∉ disk.dirs then .error (.text "no such file or directory")
  else
    match disk.file old with
    | some content =>
      if old = new then .ok disk
      else .ok { disk with
        files := (new, content) :: disk.files.filter fun f => f.1 ≠ old ∧ f.1 ≠ new }
    | none =>
      if (suffixOf old new).isSome then .error (.text "invalid argument")
      -- only a file can be there
      else if disk.occupied new then .error (.text "not a directory")
      else .ok { disk with
        files := disk.files.map fun f => (rebase old new f.1, f.2)
        dirs := disk.dirs.map (rebase old new) }

/-- `os.Remove`. -/
def removeFile (path : Bytes) : Except Err Disk :=
  if (disk.file path).isSome then .ok { disk with files := disk.files.filter (·.1 ≠ path) }
  else if path ∉ disk.dirs then .error (.text "no such file or directory")
  else if disk.occupied path then .error (.text "directory not empty")
  else .ok { disk with dirs := disk.dirs.filter (· ≠ path) }

def removeAll (path : Bytes) : Disk :=
  { disk with
    files := disk.files.filter fun f => (suffixOf path f.1).isNone
    dirs := disk.dirs.filter fun d => (suffixOf path d).isNone }

def mkdir (path : Bytes) : Except Err Disk :=
  if dirPath path ∉ disk.dirs then .error (.text "no such file or directory")
  else if path ∈ disk.dirs ∨ (disk.file path).isSome then .error (.text "file exists")
  else .ok { disk with dirs := path :: disk.dirs }

end Disk

namespace Localfs

def resolve (root id : Bytes) : Bytes :=
  if id = [] ∨ id = ascii "0" ∨ id = ascii "/" then root else id

def list (root : Bytes) (disk : Disk) (parentID : Bytes) : Except Err (List Entry) :=
  let dir := resolve root parentID
  if dir ∉ disk.dirs then .error (.text "no such file or directory")
  else
    let files := (disk.files.filter fun f => dirPath f.1 = dir).map fun f =>
      Entry.mk f.1 dir (basePath f.1) false f.2.length none
    let dirs := (disk.dirs.filter fun d => dirPath d = dir ∧ d ≠ dir).map fun d =>
      Entry.mk d dir (basePath d) true 0 none
    .ok ((files ++ dirs).insertionSort fun a b => a.name ≤ b.name)

/-- `Driver.Read` with `util.OpenRead`. A directory opens, and fails at the first read. -/
def read (disk : Disk) (entry : Entry) (offset size : Int) : Except Err Body :=
  match disk.file entry.id with
  | some content =>
    let rest := content.drop offset.toNat
    .ok ⟨if size > 0 then rest.take size.toNat else rest, [], false, .eof⟩
  | none =>
    if entry.id ∈ disk.dirs then .ok ⟨[], [], false, .text "is a directory"⟩
    else .error (.text "no such file or directory")

def mkdir (root : Bytes) (disk : Disk) (parentID name : Bytes) : Except Err Entry × Disk :=
  let path := joinPath (resolve root parentID) name
  match disk.mkdir path with
  | .error e => (.error e, disk)
  | .ok disk => (.ok ⟨path, resolve root parentID, name, true, 0, none⟩, disk)

/-- The id `Driver.Move` leads to. -/
def movedID (root : Bytes) (entry : Entry) (dstParentID : Bytes) : Bytes :=
  joinPath (resolve root dstParentID) (basePath entry.id)

def move (root : Bytes) (disk : Disk) (entry : Entry) (dstParentID : Bytes) : Except Err Entry × Disk :=
  let newID := movedID root entry dstParentID
  match disk.rename entry.id newID with
  | .error e => (.error e, disk)
  | .ok disk =>
    (.ok { entry with
      id := newID
      parentID := resolve root dstParentID
      name := basePath newID }, disk)

/-- The id `Driver.Rename` leads to. -/
def renamedID (entry : Entry) (newName : Bytes) : Bytes := joinPath (dirPath entry.id) newName

def rename (disk : Disk) (entry : Entry) (newName : Bytes) : Except Err Entry × Disk :=
  let newID := renamedID entry newName
  match disk.rename entry.id newID with
  | .error e => (.error e, disk)
  | .ok disk => (.ok { entry with id := newID, parentID := dirPath newID, name := newName }, disk)

def remove (disk : Disk) (entry : Entry) : Option Err × Disk :=
  if entry.isDir then (none, disk.removeAll entry.id)
  else
    match disk.removeFile entry.id with
    | .error e => (some e, disk)
    | .ok disk => (none, disk)

/-- `Driver.PutSource`. The file is truncated before the copy, and left behind when it fails. -/
def putSource (root : Bytes) (disk : Disk) (req : UploadRequest) : Except Err Entry × Disk :=
  let parent := resolve root req.parentID
  let path := joinPath parent req.name
  if dirPath path ∉ disk.dirs then (.error (.text "no such file or directory"), disk)
  else if path ∈ disk.dirs then (.error (.text "is a directory"), disk)
  else
    match disk.writeFaults with
    | some k :: rest =>
      (.error (.text "input/output error"), { disk with writeFaults := rest }.write path (req.source.content.take k))
    | faults =>
      (.ok ⟨path, parent, req.name, false, req.source.content.length, none⟩,
        { disk with writeFaults := faults.tail }.write path req.source.content)

end Localfs

def localfs (root : Bytes) : Driver Disk where
  list := Localfs.list root
  read := Localfs.read
  mkdir := Localfs.mkdir root
  move := Localfs.move root
  rename := Localfs.rename
  remove := Localfs.remove
  putSource := Localfs.putSource root
  requiredUploadHashes := []

/-! ## The contract -/

theorem lookup_filter_key (q : Bytes → Bool) (l : List (Bytes × Bytes)) (id : Bytes) :
    (l.filter fun f => q f.1).lookup id = if q id then l.lookup id else none := by
  induction l with
  | nil => simp
  | cons f l ih =>
    obtain ⟨k, v⟩ := f
    by_cases hid : id = k
    · subst hid
      cases hq : q id with
      | true => simp [hq]
      | false => simpa [hq] using ih
    · cases hq : q k with
      | true => simp [hq, lookup_cons, beq_false_of_ne hid, ih]
      | false => simp [hq, lookup_cons, beq_false_of_ne hid, ih]

variable {disk' disk : Disk} {path id suffix old new : Bytes}

theorem keeps_filter (disk : Disk) (q : Bytes → Bool)
    (h : disk'.files = disk.files.filter fun f => q f.1) : Keeps disk.file disk'.file := by
  intro id
  rw [Disk.file, h, lookup_filter_key]
  split
  · exact .inl rfl
  · exact .inr rfl

theorem Disk.file_write_self (disk : Disk) (path content : Bytes) :
    (disk.write path content).file path = some content := by
  simp [Disk.write, Disk.file]

theorem Disk.file_write_ne (disk : Disk) (content : Bytes) (h : id ≠ path) :
    (disk.write path content).file id = disk.file id := by
  have hq := lookup_filter_key (fun p => decide (p ≠ path)) disk.files id
  rw [if_pos (decide_eq_true h)] at hq
  simpa [Disk.write, Disk.file, lookup_cons, beq_false_of_ne h] using hq

theorem Disk.suffixOf_eq_some {dir : Bytes} (h : suffixOf dir path = some suffix) :
    Below suffix ∧ path = dir ++ suffix := by
  unfold suffixOf at h
  split at h
  · cases h
    exact ⟨.inl rfl, by simpa using ‹path = dir›⟩
  · split at h
    · next hpre =>
      cases h
      obtain ⟨rest, rfl⟩ := hpre
      rw [append_assoc, drop_left]
      exact ⟨.inr rfl, rfl⟩
    · cases h

theorem Disk.suffixOf_append (dir : Bytes) (h : Below suffix) : suffixOf dir (dir ++ suffix) = some suffix := by
  unfold suffixOf
  rcases h with rfl | h
  · rw [if_pos (append_nil dir)]
  · obtain ⟨rest, rfl⟩ : ∃ rest, suffix = 47 :: rest := head?_eq_some_iff.mp h
    rw [if_neg (by simp), if_pos ⟨rest, by simp⟩, drop_left]

theorem lookup_map_key {g : Bytes → Bytes} {id' : Bytes} :
    ∀ {l : List (Bytes × Bytes)}, (∀ f ∈ l, g f.1 = id ↔ f.1 = id') →
      (l.map fun f => (g f.1, f.2)).lookup id = l.lookup id'
  | [], _ => rfl
  | (k, v) :: l, h => by
    have ih := lookup_map_key fun f hf => h f (mem_cons_of_mem _ hf)
    have hk := h (k, v) mem_cons_self
    by_cases hid : k = id'
    · have hg := hk.mpr hid
      subst hid
      subst hg
      simp
    · have hg : g k ≠ id := mt hk.mp hid
      rw [map_cons, lookup_cons, lookup_cons, beq_false_of_ne hg.symm,
        beq_false_of_ne (Ne.symm hid), ih]

theorem relocates_rebase (hfree : ∀ f ∈ disk.files, Disk.suffixOf new f.1 = none)
    (h : disk'.files = disk.files.map fun f => (Disk.rebase old new f.1, f.2)) :
    Relocates disk.file disk'.file old new := by
  intro id
  rw [Disk.file, Disk.file, h]
  rcases hid : Disk.suffixOf new id with _ | suffix
  · -- not below the new place: a file stays, or was taken along
    by_cases hold : Disk.suffixOf old id = none
    · refine .inl (lookup_map_key fun f _ => ?_)
      unfold Disk.rebase
      split
      · next t ht =>
        refine ⟨fun he => ?_, fun he => ?_⟩
        · simp [← he, Disk.suffixOf_append new (Disk.suffixOf_eq_some ht).1] at hid
        · simp [he, hold] at ht
      · rfl
    · right
      left
      refine lookup_eq_none_iff.mpr fun x hx => ?_
      obtain ⟨f, -, rfl⟩ := mem_map.mp hx
      refine bne_iff_ne.mpr fun he => ?_
      unfold Disk.rebase at he
      split at he
      · next t ht => simp [he, Disk.suffixOf_append new (Disk.suffixOf_eq_some ht).1] at hid
      · next ht =>
        rw [he] at hold
        exact hold ht
  · right
    right
    obtain ⟨hbelow, rfl⟩ := Disk.suffixOf_eq_some hid
    refine ⟨suffix, hbelow, rfl, lookup_map_key fun f hf => ?_⟩
    unfold Disk.rebase
    split
    · next t ht =>
      obtain ⟨-, hf'⟩ := Disk.suffixOf_eq_some ht
      rw [hf', append_cancel_left_eq, append_cancel_left_eq]
    · next ht =>
      refine ⟨fun he => ?_, fun he => ?_⟩
      · simp [← he, hfree f hf] at hid
      · simp [he, Disk.suffixOf_append old hbelow] at ht

/-- `os.Rename` takes the file or the files below the directory along. -/
theorem Disk.relocates_rename (h : disk.rename old new = .ok disk') : Relocates disk.file disk'.file old new := by
  unfold Disk.rename at h
  split at h
  · cases h
  split at h
  · cases h
  split at h
  · cases h
  split at h
  · next content hfile =>
    split at h
    · cases h
      exact (Keeps.refl _).relocates _ _
    · cases h
      intro id
      by_cases hid : id = new
      · subst hid
        refine .inr (.inr ⟨[], .inl rfl, (append_nil _).symm, ?_⟩)
        rw [append_nil, hfile]
        simp [Disk.file]
      · have hq := lookup_filter_key (fun p => decide (p ≠ old ∧ p ≠ new)) disk.files id
        have hcons : ∀ l : List (Bytes × Bytes), ((new, content) :: l).lookup id = l.lookup id :=
          fun l => by rw [lookup_cons, beq_false_of_ne hid]
        rw [Disk.file, Disk.file, hcons, hq]
        split
        · exact .inl rfl
        · exact .inr (.inl rfl)
  · split at h
    · cases h
    · split at h
      · cases h
      · next hocc =>
        cases h
        refine relocates_rebase (fun f hf => ?_) rfl
        rw [Disk.occupied, Bool.or_eq_true, not_or, Bool.not_eq_true, Bool.not_eq_true, any_eq_false] at hocc
        exact Option.isNone_iff_eq_none.mp (by simpa using hocc.1 f hf)

/-- **The local directory backend meets the contract.** -/
def localfsObjects (root : Bytes) : Objects (localfs root) where
  objects disk := disk.file
  renamedID := Localfs.renamedID
  movedID := Localfs.movedID root
  read := by
    intro disk entry off n rc obj hread hobj
    simp only [localfs, Localfs.read, hobj] at hread
    cases hread
    split
    · exact take_prefix _ _
    · exact prefix_rfl
  mkdir := by
    intro disk parentID name
    simp only [localfs, Localfs.mkdir, Disk.mkdir]
    split
    · exact Keeps.refl _
    · next h =>
      split at h
      · cases h
      · split at h
        · cases h
        · cases h
          exact Keeps.refl _
  remove := by
    intro disk entry
    simp only [localfs, Localfs.remove]
    split
    · exact keeps_filter disk (fun p => (Disk.suffixOf entry.id p).isNone) rfl
    · split
      · exact Keeps.refl _
      · next h =>
        unfold Disk.removeFile at h
        split at h
        · cases h
          exact keeps_filter disk (fun p => decide (p ≠ entry.id)) rfl
        · split at h
          · cases h
          · split at h
            · cases h
            · cases h
              exact Keeps.refl _
  rename := by
    intro disk entry newName
    simp only [localfs, Localfs.rename]
    split
    · exact (Keeps.refl _).relocates _ _
    · next h => exact Disk.relocates_rename h
  rename_id := by
    intro disk entry newName renamed disk' h
    simp only [localfs, Localfs.rename] at h
    split at h
    · cases h
    · cases h
      rfl
  move := by
    intro disk entry dstParentID
    simp only [localfs, Localfs.move]
    split
    · exact (Keeps.refl _).relocates _ _
    · next h => exact Disk.relocates_rename h
  move_id := by
    intro disk entry dstParentID moved disk' h
    simp only [localfs, Localfs.move] at h
    split at h
    · cases h
    · cases h
      rfl
  putSource := by
    intro disk req entry disk' h
    simp only [localfs, Localfs.putSource] at h
    split at h
    · cases h
    · split at h
      · cases h
      · split at h
        · cases h
        · cases h
          exact ⟨Disk.file_write_self _ _ _, fun id hid => .inl (Disk.file_write_ne _ _ hid)⟩

end Drive
