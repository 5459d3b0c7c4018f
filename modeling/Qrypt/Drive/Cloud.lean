import Qrypt.Drive.Objects
import Qrypt.Infra.Map

/-!
# A backend that assigns ids

A drive whose ids say nothing about locations: a renamed or moved entry keeps its id, an uploaded file
gets a new one, and a directory may hold several entries of one name. It stands for the cloud drives; the
results that speak about every backend are applied to it.
-/

namespace Drive

open Infra

/-- A file or a directory. -/
structure Node where
  parentID : Bytes
  name : Bytes
  isDir : Bool := false
  content : Bytes := []

/-- The entries of the drive by their ids, and how many ids were assigned. -/
structure Cloud where
  nodes : AList (fun _ : Bytes => Node) := ∅
  next : Nat := 0

namespace Cloud

def entry (id : Bytes) (n : Node) : Entry := ⟨id, n.parentID, n.name, n.isDir, n.content.length, none⟩

variable (s : Cloud)

def file (id : Bytes) : Option Bytes :=
  ((s.nodes.lookup id).filter fun n => !n.isDir).map (·.content)

def newID : Bytes := ascii "id" ++ List.replicate s.next 43

def add (n : Node) : Except Err Entry × Cloud :=
  (.ok (entry s.newID n), { nodes := s.nodes.insert s.newID n, next := s.next + 1 })

def update (id : Bytes) (f : Node → Node) : Except Err Entry × Cloud :=
  match s.nodes.lookup id with
  | none => (.error (.text "drive: not found"), s)
  | some n => (.ok (entry id (f n)), { s with nodes := s.nodes.insert id (f n) })

def list (parentID : Bytes) : Except Err (List Entry) :=
  .ok ((s.nodes.entries.filter (·.2.parentID = parentID)).map fun r => entry r.1 r.2)

def read (e : Entry) (offset size : Int) : Except Err Body :=
  match s.file e.id with
  | none => .error (.text "drive: not found")
  | some content =>
    let rest := content.drop offset.toNat
    .ok ⟨if size > 0 then rest.take size.toNat else rest, [], false, .eof⟩

def mkdir (parentID name : Bytes) : Except Err Entry × Cloud :=
  s.add { parentID := parentID, name := name, isDir := true }

def move (e : Entry) (dstParentID : Bytes) : Except Err Entry × Cloud :=
  s.update e.id fun n => { n with parentID := dstParentID }

def rename (e : Entry) (newName : Bytes) : Except Err Entry × Cloud :=
  s.update e.id fun n => { n with name := newName }

def remove (e : Entry) : Option Err × Cloud :=
  if (s.nodes.lookup e.id).isNone then (some (.text "drive: not found"), s)
  else (none, { s with nodes := s.nodes.erase e.id })

def putSource (req : UploadRequest) : Except Err Entry × Cloud :=
  s.add { parentID := req.parentID, name := req.name, content := req.source.content }

end Cloud

def cloud : Driver Cloud where
  list := Cloud.list
  read := Cloud.read
  mkdir := Cloud.mkdir
  move := Cloud.move
  rename := Cloud.rename
  remove := Cloud.remove
  putSource := Cloud.putSource
  requiredUploadHashes := []

/-! ## The contract -/

namespace Cloud

variable {s : Cloud} {id : Bytes}

theorem file_insert (nodes : AList fun _ : Bytes => Node) (next : Nat) (k : Bytes) (n : Node) :
    Cloud.file ⟨nodes.insert k n, next⟩ id =
      if id = k then (if n.isDir then none else some n.content) else Cloud.file ⟨nodes, next⟩ id := by
  unfold file
  rw [lookup_insert_eq]
  split
  · cases hdir : n.isDir <;> simp [hdir]
  · rfl

/-- Entries that are renamed or moved keep their ids and contents. -/
theorem file_update {f : Node → Node} (hdir : ∀ n, (f n).isDir = n.isDir)
    (hcontent : ∀ n, (f n).content = n.content) (s : Cloud) (k : Bytes) : (s.update k f).2.file id = s.file id := by
  unfold update
  cases hk : s.nodes.lookup k with
  | none => rfl
  | some n =>
    refine (file_insert s.nodes s.next k (f n)).trans ?_
    split
    · next hid =>
      subst hid
      cases hn : n.isDir <;> simp [file, hk, hdir, hcontent, hn]
    · rfl

theorem id_update {f : Node → Node} {k : Bytes} {e : Entry} {s' : Cloud}
    (h : s.update k f = (.ok e, s')) : e.id = k := by
  unfold update at h
  split at h
  · cases h
  · cases h
    rfl

end Cloud

/-- **The backend meets the contract**, with the ids of the entries. -/
def cloudObjects : Objects cloud where
  objects s := s.file
  renamedID entry _ := entry.id
  movedID entry _ := entry.id
  read := by
    intro s entry off n rc obj hread hobj
    simp only [cloud, Cloud.read, hobj] at hread
    cases hread
    split
    · exact List.take_prefix _ _
    · exact List.prefix_rfl
  mkdir := by
    intro s parentID name id
    have h : ((cloud.mkdir s parentID name).2.file id) = _ :=
      Cloud.file_insert s.nodes (s.next + 1) s.newID { parentID := parentID, name := name, isDir := true }
    split at h
    · exact .inr h
    · exact .inl h
  remove := by
    intro s entry id
    simp only [cloud, Cloud.remove]
    split
    · exact .inl rfl
    · simp only [Cloud.file, lookup_erase_eq]
      split
      · exact .inr rfl
      · exact .inl rfl
  rename := by
    intro s entry newName id
    exact .inl (Cloud.file_update (f := fun n => { n with name := newName }) (fun _ => rfl) (fun _ => rfl) s entry.id)
  rename_id := Cloud.id_update
  move := by
    intro s entry dstParentID id
    exact .inl (Cloud.file_update (f := fun n => { n with parentID := dstParentID }) (fun _ => rfl)
      (fun _ => rfl) s entry.id)
  move_id := Cloud.id_update
  putSource := by
    intro s req entry s' h
    cases h
    refine ⟨?_, fun id hid => .inl ?_⟩
    · exact (Cloud.file_insert ..).trans (if_pos rfl)
    · exact (Cloud.file_insert ..).trans (if_neg hid)

def oneFile : Cloud where
  nodes := (∅ : AList fun _ : Bytes => Node).insert (ascii "1")
    { parentID := ascii "0", name := ascii "b", content := ascii "B" }

end Drive
