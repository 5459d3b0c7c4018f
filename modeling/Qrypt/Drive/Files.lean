import Qrypt.Drive.Types
import Qrypt.Infra.Map

/-!
# The files of a backend

`Files` is the contract of `List`, `Remove`, `Rename` and `PutSource` in terms of files with their
directories, names and contents. It covers backends that assign ids, and those whose ids are locations,
where an upload and a rename replace the file that has the name. A call that fails changes nothing.
-/

namespace Drive

open Infra

variable {σ : Type}

/-- A file in a directory. -/
structure RemoteFile where
  parentID : Bytes
  name : Bytes
  content : Bytes
  deriving DecidableEq

/-- The files by their ids, and what the operations do to them. -/
structure Files (raw : Driver σ) where
  file : σ → Bytes → Option RemoteFile
  list : ∀ {s parentID entries}, raw.list s parentID = .ok entries → ∀ e ∈ entries, e.isDir = false →
    ∃ f, file s e.id = some f ∧ f.parentID = parentID ∧ f.name = e.name
  list_all : ∀ {s parentID entries}, raw.list s parentID = .ok entries → ∀ id f, file s id = some f →
    f.parentID = parentID → ∃ e ∈ entries, e.isDir = false ∧ e.id = id ∧ e.name = f.name
  list_nodup : ∀ {s parentID entries}, raw.list s parentID = .ok entries → (entries.map (·.id)).Nodup
  remove : ∀ {s entry s'}, raw.remove s entry = (none, s') → file s' = Function.update (file s) entry.id none
  remove_failed : ∀ {s entry err s'}, raw.remove s entry = (some err, s') → file s' = file s
  rename : ∀ {s entry newName renamed s' f}, raw.rename s entry newName = (.ok renamed, s') →
    file s entry.id = some f → file s' = Function.update (Function.update (file s) entry.id none) renamed.id
          (some { f with name := newName }) ∧
        (renamed.id = entry.id ∨ ∀ g, file s renamed.id = some g → g.parentID = f.parentID ∧ g.name = newName)
  rename_failed : ∀ {s entry newName err s'}, raw.rename s entry newName = (.error err, s') → file s' = file s
  putSource : ∀ {s req entry s'}, raw.putSource s req = (.ok entry, s') →
    file s' = Function.update (file s) entry.id (some ⟨req.parentID, req.name, req.source.content⟩) ∧
      entry.name = req.name ∧
      ∀ g, file s entry.id = some g → g.parentID = req.parentID ∧ g.name = req.name
  putSource_failed : ∀ {s req err s'}, raw.putSource s req = (.error err, s') → file s' = file s

/-! ## One directory -/

/-- A directory whose ids are the names of its files. Renames may fail. -/
structure Folder where
  files : AList (fun _ : Bytes => Bytes) := ∅
  renameFails : Bool := false

namespace Folder

def rootID : Bytes := ascii "0"

def entry (name content : Bytes) : Entry := ⟨name, rootID, name, false, content.length, none⟩

def missing : Err := .text "drive: not found"

def list (s : Folder) (parentID : Bytes) : Except Err (List Entry) :=
  if parentID = rootID then .ok (s.files.entries.map fun r => entry r.1 r.2) else .error missing

def read (s : Folder) (e : Entry) (offset size : Int) : Except Err Body :=
  match s.files.lookup e.id with
  | none => .error missing
  | some content =>
    let rest := content.drop offset.toNat
    .ok ⟨if size > 0 then rest.take size.toNat else rest, [], false, .eof⟩

def rename (s : Folder) (e : Entry) (newName : Bytes) : Except Err Entry × Folder :=
  match s.files.lookup e.id with
  | none => (.error missing, s)
  | some content =>
    if s.renameFails then (.error (.text "drive: rename refused"), s)
    else (.ok (entry newName content), { s with files := (s.files.erase e.id).insert newName content })

def remove (s : Folder) (e : Entry) : Option Err × Folder :=
  if (s.files.lookup e.id).isNone then (some missing, s) else (none, { s with files := s.files.erase e.id })

def putSource (s : Folder) (req : UploadRequest) : Except Err Entry × Folder :=
  if req.parentID = rootID then
    (.ok (entry req.name req.source.content), { s with files := s.files.insert req.name req.source.content })
  else (.error missing, s)

end Folder

/-- The driver; it has no other directories. -/
def folder : Driver Folder where
  list := Folder.list
  read := Folder.read
  mkdir s _ _ := (.error Folder.missing, s)
  move s _ _ := (.error Folder.missing, s)
  rename := Folder.rename
  remove := Folder.remove
  putSource := Folder.putSource
  requiredUploadHashes := []

namespace Folder

variable {s : Folder}

def file (s : Folder) (id : Bytes) : Option RemoteFile := (s.files.lookup id).map fun c => ⟨rootID, id, c⟩

theorem file_erase (k : Bytes) : Folder.file { s with files := s.files.erase k } = Function.update s.file k none := by
  funext id
  by_cases hid : id = k
  · subst hid
    simp [file]
  · simp [file, hid]

theorem file_insert (k c : Bytes) :
    Folder.file { s with files := s.files.insert k c } = Function.update s.file k (some ⟨rootID, k, c⟩) := by
  funext id
  by_cases hid : id = k
  · subst hid
    simp [file]
  · simp [file, hid]

end Folder

def folderFiles : Files folder where
  file := Folder.file
  list := by
    intro s parentID entries h e he _
    simp only [folder, Folder.list] at h
    split at h
    · next hroot =>
      cases h
      obtain ⟨⟨k, c⟩, hr, rfl⟩ := List.mem_map.mp he
      have hlookup : s.files.lookup k = some c := AList.mem_lookup_iff.mpr hr
      exact ⟨⟨Folder.rootID, k, c⟩, by simp [Folder.file, Folder.entry, hlookup], hroot.symm, rfl⟩
    · cases h
  list_all := by
    intro s parentID entries h id f hf hparent
    simp only [folder, Folder.list] at h
    split at h
    · cases h
      obtain ⟨c, hc, rfl⟩ := Option.map_eq_some_iff.mp hf
      exact ⟨Folder.entry id c, List.mem_map.mpr ⟨⟨id, c⟩, AList.mem_lookup_iff.mp hc, rfl⟩, rfl, rfl, rfl⟩
    · cases h
  list_nodup := by
    intro s parentID entries h
    simp only [folder, Folder.list] at h
    split at h
    · cases h
      have hkeys : (s.files.entries.map fun r => Folder.entry r.1 r.2).map (·.id) = s.files.keys := by
        rw [List.map_map]
        rfl
      rw [hkeys]
      exact s.files.keys_nodup
    · cases h
  remove := by
    intro s e s' h
    simp only [folder, Folder.remove] at h
    split at h
    · cases h
    · cases h
      exact Folder.file_erase e.id
  remove_failed := by
    intro s e err s' h
    simp only [folder, Folder.remove] at h
    split at h
    · cases h
      rfl
    · cases h
  rename := by
    intro s e newName renamed s' f h hf
    obtain ⟨c, hc, rfl⟩ := Option.map_eq_some_iff.mp hf
    simp only [folder, Folder.rename, hc] at h
    split at h
    · cases h
    · cases h
      refine ⟨?_, .inr ?_⟩
      · exact (Folder.file_insert (s := { s with files := s.files.erase e.id }) newName c).trans
          (by rw [Folder.file_erase]; rfl)
      · intro g hg
        obtain ⟨c', -, rfl⟩ := Option.map_eq_some_iff.mp hg
        exact ⟨rfl, rfl⟩
  rename_failed := by
    intro s e newName err s' h
    simp only [folder, Folder.rename] at h
    split at h
    · cases h
      rfl
    · split at h
      · cases h
        rfl
      · cases h
  putSource := by
    intro s req e s' h
    simp only [folder, Folder.putSource] at h
    split at h
    · next hroot =>
      cases h
      refine ⟨?_, rfl, ?_⟩
      · rw [hroot]
        exact Folder.file_insert req.name req.source.content
      · intro g hg
        obtain ⟨c, -, rfl⟩ := Option.map_eq_some_iff.mp hg
        exact ⟨hroot.symm, rfl⟩
    · cases h
  putSource_failed := by
    intro s req err s' h
    simp only [folder, Folder.putSource] at h
    split at h
    · cases h
    · cases h
      rfl

end Drive
