import Qrypt.Infra.JsonCut
import Qrypt.Infra.Lines
import Qrypt.Infra.Record
import Qrypt.Upload.Types

/-!
# The journal of pending uploads

`pkg/vfs/upload/store.go`: the journal is a text file with one JSON object a line. `marshal` is what
`json.Marshal` makes of an entry and `unmarshal` what `json.Unmarshal` reads from a line.

* `unmarshal_marshal` — an entry whose strings are valid UTF-8 survives
* `unmarshal_cut` — of an entry that was not written whole nothing is read
-/

namespace Upload

open Infra Drive List Option

/-- The operations of the journal; a line may hold any text. -/
inductive JournalOp where
  | dirty
  | clean
  | cleanBatch
  | rename
  | other (text : Bytes)
  deriving DecidableEq, Repr

def JournalOp.text : JournalOp → Bytes
  | .dirty => ascii "dirty"
  | .clean => ascii "clean"
  | .cleanBatch => ascii "clean_batch"
  | .rename => ascii "rename"
  | .other text => text

def JournalOp.ofText (text : Bytes) : JournalOp :=
  if text = ascii "dirty" then .dirty
  else if text = ascii "clean" then .clean
  else if text = ascii "clean_batch" then .cleanBatch
  else if text = ascii "rename" then .rename
  else .other text

structure JournalEntry where
  op : JournalOp := .other []
  oldPath : Bytes := []
  paths : List Bytes := []
  upload : PendingUpload := {}
  deriving DecidableEq, Repr

/-! ## Nested objects -/

def hashName : HashAlgorithm → Bytes
  | .md5 => ascii "md5"
  | .sha1 => ascii "sha1"
  | .sha256 => ascii "sha256"

/-- One hash of an object of hashes. Keys are taken as they are; algorithms without a name here are not kept. -/
def intoHash (h : SourceHashes) (m : Bytes × Json) : Option SourceHashes :=
  (intoBytes m.2).map fun sum =>
    match [HashAlgorithm.md5, .sha1, .sha256].find? fun a => hashName a = m.1 with
    | some a => h.set a sum
    | none => h

/-- A `SourceHashes` field. -/
def intoHashes (old : SourceHashes) : Json → Option SourceHashes
  | .null => some {}
  | .obj members => members.foldlM intoHash old
  | _ => none

/-- The members hashes are written with, sorted by key. -/
def hashMembers (h : SourceHashes) : List (Bytes × Json) :=
  [HashAlgorithm.md5, .sha1, .sha256].filterMap fun a =>
    (h.get a).map fun sum => (hashName a, .str (base64Encode sum))

/-- The fields of `UploadReplacement`. -/
inductive ReplacementField where
  | id | parentID | name | size
  deriving DecidableEq, Repr

/-- `UploadReplacement` as an object. -/
def replacementCodec : RecordCodec ReplacementField UploadReplacement where
  key
    | .id => ascii "id"
    | .parentID => ascii "parent_id"
    | .name => ascii "name"
    | .size => ascii "size"
  all := [.id, .parentID, .name, .size]
  zero := {}
  get r
    | .id => some (.str r.id)
    | .parentID => if r.parentID = [] then none else some (.str r.parentID)
    | .name => some (.str r.name)
    | .size => some (.num (intLit r.size))
  set f j r :=
    match f with
    | .id => (intoString r.id j).map fun x => { r with id := x }
    | .parentID => (intoString r.parentID j).map fun x => { r with parentID := x }
    | .name => (intoString r.name j).map fun x => { r with name := x }
    | .size => (intoInt64 r.size j).map fun x => { r with size := x }
  copy f a r :=
    match f with
    | .id => { r with id := a.id }
    | .parentID => { r with parentID := a.parentID }
    | .name => { r with name := a.name }
    | .size => { r with size := a.size }

/-- The fields of `UploadStagingStatus`. -/
inductive StagingField where
  | existsOnDisk | size | sizeMatches | error | path
  deriving DecidableEq, Repr

/-- `UploadStagingStatus` as an object. -/
def stagingCodec : RecordCodec StagingField UploadStagingStatus where
  key
    | .existsOnDisk => ascii "exists"
    | .size => ascii "size"
    | .sizeMatches => ascii "size_matches"
    | .error => ascii "error"
    | .path => ascii "path"
  all := [.existsOnDisk, .size, .sizeMatches, .error, .path]
  zero := {}
  get s
    | .existsOnDisk => some (.bool s.existsOnDisk)
    | .size => if s.size = 0 then none else some (.num (intLit s.size))
    | .sizeMatches => some (.bool s.sizeMatches)
    | .error => if s.error = [] then none else some (.str s.error)
    | .path => if s.path = [] then none else some (.str s.path)
  set f j s :=
    match f with
    | .existsOnDisk => (intoBool s.existsOnDisk j).map fun x => { s with existsOnDisk := x }
    | .size => (intoInt64 s.size j).map fun x => { s with size := x }
    | .sizeMatches => (intoBool s.sizeMatches j).map fun x => { s with sizeMatches := x }
    | .error => (intoString s.error j).map fun x => { s with error := x }
    | .path => (intoString s.path j).map fun x => { s with path := x }
  copy f a s :=
    match f with
    | .existsOnDisk => { s with existsOnDisk := a.existsOnDisk }
    | .size => { s with size := a.size }
    | .sizeMatches => { s with sizeMatches := a.sizeMatches }
    | .error => { s with error := a.error }
    | .path => { s with path := a.path }

/-! ## Entries -/

/-- The fields of a journal entry; those of the record are embedded in it. -/
inductive JournalField where
  | op | oldPath | paths | path | fid | parentID | name | localPath | size | modTime | updatedAt
  | retryCount | lastError | permanentFail | lastAttemptAt | nextAttemptAt | replaceUpload
  | sourceHashes | staging | frozen
  deriving DecidableEq, Repr

/-- `JournalEntry` as an object. -/
def journalCodec : RecordCodec JournalField JournalEntry where
  key
    | .op => ascii "op"
    | .oldPath => ascii "old_path"
    | .paths => ascii "paths"
    | .path => ascii "path"
    | .fid => ascii "fid"
    | .parentID => ascii "parent_id"
    | .name => ascii "name"
    | .localPath => ascii "local_path"
    | .size => ascii "size"
    | .modTime => ascii "mod_time"
    | .updatedAt => ascii "updated_at"
    | .retryCount => ascii "retry_count"
    | .lastError => ascii "last_error"
    | .permanentFail => ascii "permanent_fail"
    | .lastAttemptAt => ascii "last_attempt_at"
    | .nextAttemptAt => ascii "next_attempt_at"
    | .replaceUpload => ascii "replace_upload"
    | .sourceHashes => ascii "source_hashes"
    | .staging => ascii "staging"
    | .frozen => ascii "frozen"
  all := [.op, .oldPath, .paths, .path, .fid, .parentID, .name, .localPath, .size, .modTime,
    .updatedAt, .retryCount, .lastError, .permanentFail, .lastAttemptAt, .nextAttemptAt,
    .replaceUpload, .sourceHashes, .staging, .frozen]
  zero := {}
  get e
    | .op => some (.str e.op.text)
    | .oldPath => if e.oldPath = [] then none else some (.str e.oldPath)
    | .paths => if e.paths = [] then none else some (.arr (e.paths.map .str))
    | .path => some (.str e.upload.path)
    | .fid => some (.str e.upload.fid)
    | .parentID => some (.str e.upload.parentID)
    | .name => some (.str e.upload.name)
    | .localPath => some (.str e.upload.localPath)
    | .size => some (.num (intLit e.upload.size))
    | .modTime => if e.upload.modTime = 0 then none else some (.num (intLit e.upload.modTime))
    | .updatedAt => some (.num (intLit e.upload.updatedAt))
    | .retryCount => if e.upload.retryCount = 0 then none else some (.num (intLit e.upload.retryCount))
    | .lastError => if e.upload.lastError = [] then none else some (.str e.upload.lastError)
    | .permanentFail => if e.upload.permanentFail = false then none else some (.bool e.upload.permanentFail)
    | .lastAttemptAt => if e.upload.lastAttemptAt = 0 then none else some (.num (intLit e.upload.lastAttemptAt))
    | .nextAttemptAt => if e.upload.nextAttemptAt = 0 then none else some (.num (intLit e.upload.nextAttemptAt))
    | .replaceUpload => e.upload.replaceUpload.map fun r => .obj (replacementCodec.members r)
    | .sourceHashes => if e.upload.sourceHashes.isEmpty then none else some (.obj (hashMembers e.upload.sourceHashes))
    | .staging => e.upload.staging.map fun s => .obj (stagingCodec.members s)
    | .frozen => if e.upload.frozen = false then none else some (.bool e.upload.frozen)
  set f j e :=
    match f with
    | .op => (intoString e.op.text j).map fun x => { e with op := .ofText x }
    | .oldPath => (intoString e.oldPath j).map fun x => { e with oldPath := x }
    | .paths => (intoStrings j).map fun x => { e with paths := x }
    | .path => (intoString e.upload.path j).map fun x => { e with upload.path := x }
    | .fid => (intoString e.upload.fid j).map fun x => { e with upload.fid := x }
    | .parentID => (intoString e.upload.parentID j).map fun x => { e with upload.parentID := x }
    | .name => (intoString e.upload.name j).map fun x => { e with upload.name := x }
    | .localPath => (intoString e.upload.localPath j).map fun x => { e with upload.localPath := x }
    | .size => (intoInt64 e.upload.size j).map fun x => { e with upload.size := x }
    | .modTime => (intoInt64 e.upload.modTime j).map fun x => { e with upload.modTime := x }
    | .updatedAt => (intoInt64 e.upload.updatedAt j).map fun x => { e with upload.updatedAt := x }
    | .retryCount => (intoInt64 e.upload.retryCount j).map fun x => { e with upload.retryCount := x }
    | .lastError => (intoString e.upload.lastError j).map fun x => { e with upload.lastError := x }
    | .permanentFail => (intoBool e.upload.permanentFail j).map fun x => { e with upload.permanentFail := x }
    | .lastAttemptAt => (intoInt64 e.upload.lastAttemptAt j).map fun x => { e with upload.lastAttemptAt := x }
    | .nextAttemptAt => (intoInt64 e.upload.nextAttemptAt j).map fun x => { e with upload.nextAttemptAt := x }
    | .replaceUpload => (replacementCodec.intoPointer e.upload.replaceUpload j).map fun x =>
        { e with upload.replaceUpload := x }
    | .sourceHashes => (intoHashes e.upload.sourceHashes j).map fun x => { e with upload.sourceHashes := x }
    | .staging => (stagingCodec.intoPointer e.upload.staging j).map fun x => { e with upload.staging := x }
    | .frozen => (intoBool e.upload.frozen j).map fun x => { e with upload.frozen := x }
  copy f a e :=
    match f with
    | .op => { e with op := a.op }
    | .oldPath => { e with oldPath := a.oldPath }
    | .paths => { e with paths := a.paths }
    | .path => { e with upload.path := a.upload.path }
    | .fid => { e with upload.fid := a.upload.fid }
    | .parentID => { e with upload.parentID := a.upload.parentID }
    | .name => { e with upload.name := a.upload.name }
    | .localPath => { e with upload.localPath := a.upload.localPath }
    | .size => { e with upload.size := a.upload.size }
    | .modTime => { e with upload.modTime := a.upload.modTime }
    | .updatedAt => { e with upload.updatedAt := a.upload.updatedAt }
    | .retryCount => { e with upload.retryCount := a.upload.retryCount }
    | .lastError => { e with upload.lastError := a.upload.lastError }
    | .permanentFail => { e with upload.permanentFail := a.upload.permanentFail }
    | .lastAttemptAt => { e with upload.lastAttemptAt := a.upload.lastAttemptAt }
    | .nextAttemptAt => { e with upload.nextAttemptAt := a.upload.nextAttemptAt }
    | .replaceUpload => { e with upload.replaceUpload := a.upload.replaceUpload }
    | .sourceHashes => { e with upload.sourceHashes := a.upload.sourceHashes }
    | .staging => { e with upload.staging := a.upload.staging }
    | .frozen => { e with upload.frozen := a.upload.frozen }

def marshal (e : JournalEntry) : Bytes := (Json.obj (journalCodec.members e)).encode

/-- `json.Unmarshal` into a fresh entry. -/
def unmarshal (line : Bytes) : Option JournalEntry :=
  match parseJson line with
  | some (.obj members) => journalCodec.decode {} members
  | some .null => some {}
  | _ => none

/-! ## Entries survive -/

theorem lawful_replacementCodec : replacementCodec.Lawful fun _ => True where
  nodup := by decide
  fieldOf_key f := by cases f <;> decide
  set_get b f j a _ hget _ := by
    cases f <;> simp [replacementCodec, eq_comm] at hget ⊢ <;> simp [hget]
  copy_none b f a hget := by
    cases f <;> simp [replacementCodec] at hget ⊢
    simp [hget]
  copy_comm f g a b x h := by
    cases f <;> cases g <;> first | rfl | exact absurd rfl h
  copy_zero f := by cases f <;> rfl

theorem lawful_stagingCodec : stagingCodec.Lawful fun _ => True where
  nodup := by decide
  fieldOf_key f := by cases f <;> decide
  set_get b f j a _ hget _ := by
    cases f <;> simp [stagingCodec, eq_comm] at hget ⊢ <;> simp [hget]
  copy_none b f a hget := by
    cases f <;> simp [stagingCodec] at hget ⊢ <;> simp [hget]
  copy_comm f g a b x h := by
    cases f <;> cases g <;> first | rfl | exact absurd rfl h
  copy_zero f := by cases f <;> rfl

theorem replacement_survives (r : UploadReplacement) :
    replacementCodec.intoPointer none (.obj (replacementCodec.members r)) = some (some r) :=
  congrArg (Option.map some) (lawful_replacementCodec.decode_members (b := r) trivial)

theorem staging_survives (s : UploadStagingStatus) :
    stagingCodec.intoPointer none (.obj (stagingCodec.members s)) = some (some s) :=
  congrArg (Option.map some) (lawful_stagingCodec.decode_members (b := s) trivial)

theorem intoHash_hashName (h : SourceHashes) (a : HashAlgorithm) (sum : Bytes) :
    intoHash h (hashName a, .str (base64Encode sum)) = some (h.set a sum) := by
  have hfind : [HashAlgorithm.md5, .sha1, .sha256].find? (fun b => hashName b = hashName a)
      = some a := by cases a <;> decide
  simp only [intoHash, intoBytes_str, map_some, hfind]

theorem hashes_survive (h : SourceHashes) : intoHashes {} (.obj (hashMembers h)) = some h := by
  obtain ⟨md5, sha1, sha256⟩ := h
  cases md5 <;> cases sha1 <;> cases sha256 <;>
    simp [intoHashes, hashMembers, SourceHashes.get, intoHash_hashName, SourceHashes.set]

/-- The operation is not another spelling of a known one. -/
def JournalEntry.OpOk (e : JournalEntry) : Prop := JournalOp.ofText e.op.text = e.op

theorem of_ite_none {α : Type} {p : Prop} [Decidable p] {x : α} (h : (if p then none else some x) = none) : p := by
  by_contra hp
  simp [if_neg hp] at h

theorem lawful_journalCodec : journalCodec.Lawful JournalEntry.OpOk where
  nodup := by decide
  fieldOf_key f := by cases f <;> decide
  set_get b f j a hop hget hzero := by
    cases f
    case op =>
      obtain rfl := some.inj hget
      exact congrArg (fun op => some { a with op := op }) hop
    case paths =>
      obtain rfl := some.inj (ite_none_left_eq_some.mp hget).2
      exact congrArg (Option.map _) (intoStrings_arr _)
    case replaceUpload =>
      have hz : a.upload.replaceUpload = none :=
        (congrArg (fun e => e.upload.replaceUpload) hzero).symm
      obtain ⟨r, hr, rfl⟩ := map_eq_some_iff.mp hget
      show Option.map _ (replacementCodec.intoPointer a.upload.replaceUpload _) = some _
      rw [hz, replacement_survives]
      show some { a with upload.replaceUpload := some r }
        = some { a with upload.replaceUpload := b.upload.replaceUpload }
      rw [hr]
    case staging =>
      have hz : a.upload.staging = none := (congrArg (fun e => e.upload.staging) hzero).symm
      obtain ⟨s, hs, rfl⟩ := map_eq_some_iff.mp hget
      show Option.map _ (stagingCodec.intoPointer a.upload.staging _) = some _
      rw [hz, staging_survives]
      show some { a with upload.staging := some s } = some { a with upload.staging := b.upload.staging }
      rw [hs]
    case sourceHashes =>
      have hz : a.upload.sourceHashes = {} :=
        (congrArg (fun e => e.upload.sourceHashes) hzero).symm
      obtain rfl := some.inj (ite_none_left_eq_some.mp hget).2
      show Option.map _ (intoHashes a.upload.sourceHashes _) = some _
      rw [hz, hashes_survive]
      rfl
    -- strings and booleans are read back by definition, integers by their decimal form
    all_goals first
      | (obtain rfl := some.inj hget; rfl)
      | (obtain rfl := some.inj hget; exact congrArg (Option.map _) (intoInt64_num _ _))
      | (obtain rfl := some.inj (ite_none_left_eq_some.mp hget).2; rfl)
      | (obtain rfl := some.inj (ite_none_left_eq_some.mp hget).2
         exact congrArg (Option.map _) (intoInt64_num _ _))
  copy_none b f a hget := by
    cases f
    case sourceHashes =>
      have hempty : b.upload.sourceHashes.isEmpty = true := of_ite_none hget
      refine congrArg (fun x => { a with upload.sourceHashes := x }) ?_
      revert hempty
      rcases b.upload.sourceHashes with ⟨_ | _, _ | _, _ | _⟩ <;> simp [SourceHashes.isEmpty]
      rfl
    -- a field is always written, or it is empty
    all_goals first
      | exact absurd hget (some_ne_none _)
      | simp [journalCodec, of_ite_none hget]
      | simp [journalCodec, map_eq_none_iff.mp hget]
  copy_comm f g a b x h := by
    cases f <;> cases g <;> first | rfl | exact absurd rfl h
  copy_zero f := by cases f <;> rfl

theorem foldl_copy (e : JournalEntry) : journalCodec.all.foldl (fun x f => journalCodec.copy f e x) {}
      = { e with upload := e.upload.journaled } := by
  obtain ⟨op, oldPath, paths, p⟩ := e
  cases p
  simp only [journalCodec, foldl_cons, foldl_nil, PendingUpload.journaled]

variable {e : JournalEntry}

/-- Decoding the members of an entry gives it back, without the mark that stays in memory. -/
theorem decode_members (h : e.OpOk) :
    journalCodec.decode {} (journalCodec.members e) = some { e with upload := e.upload.journaled } :=
  (lawful_journalCodec.decode_members h).trans (congrArg some (foldl_copy e))

/-! ### Valid strings -/

/-- The strings of a record are valid UTF-8. -/
structure PendingUpload.Valid (p : PendingUpload) : Prop where
  path : validString p.path = true
  fid : validString p.fid = true
  parentID : validString p.parentID = true
  name : validString p.name = true
  localPath : validString p.localPath = true
  lastError : validString p.lastError = true
  replaceUpload : ∀ r ∈ p.replaceUpload,
    validString r.id = true ∧ validString r.parentID = true ∧ validString r.name = true
  staging : ∀ s ∈ p.staging, validString s.error = true ∧ validString s.path = true

/-- The strings of an entry are valid UTF-8. -/
structure JournalEntry.Valid (e : JournalEntry) : Prop where
  opOk : e.OpOk
  op : validString e.op.text = true
  oldPath : validString e.oldPath = true
  paths : ∀ p ∈ e.paths, validString p = true
  upload : e.upload.Valid

theorem fits_members {F β : Type} {c : RecordCodec F β} {b : β} {d : Nat}
    (hkey : ∀ f, validString (c.key f) = true) (h : ∀ f j, c.get b f = some j → j.Fits d) :
    (Json.obj (c.members b)).Fits (d + 1) := by
  have mem : ∀ m ∈ c.members b, ∃ f j, c.get b f = some j ∧ m = (c.key f, j) := by
    intro m hm
    obtain ⟨f, -, hf⟩ := mem_filterMap.mp hm
    obtain ⟨j, hj, rfl⟩ := map_eq_some_iff.mp hf
    exact ⟨f, j, hj, rfl⟩
  refine .obj (fun m hm => ?_) fun m hm => ?_
  · obtain ⟨f, j, -, rfl⟩ := mem m hm
    exact hkey f
  · obtain ⟨f, j, hj, rfl⟩ := mem m hm
    exact h f j hj

theorem fits_of_ite {p : Prop} [Decidable p] {x j : Json} {d : Nat}
    (h : (if p then none else some x) = some j) (hx : x.Fits d) : j.Fits d := by
  obtain rfl := some.inj (ite_none_left_eq_some.mp h).2
  exact hx

theorem fits_of_some {x j : Json} {d : Nat} (h : some x = some j) (hx : x.Fits d) : j.Fits d := some.inj h ▸ hx

theorem fits_hashMembers (h : SourceHashes) (d : Nat) : (Json.obj (hashMembers h)).Fits (d + 1) := by
  have mem : ∀ m ∈ hashMembers h, ∃ a sum, m = (hashName a, .str (base64Encode sum)) := by
    intro m hm
    obtain ⟨a, -, ha⟩ := mem_filterMap.mp hm
    obtain ⟨sum, -, rfl⟩ := map_eq_some_iff.mp ha
    exact ⟨a, sum, rfl⟩
  refine .obj (fun m hm => ?_) fun m hm => ?_
  · obtain ⟨a, sum, rfl⟩ := mem m hm
    show validString (hashName a) = true
    cases a <;> decide
  · obtain ⟨a, sum, rfl⟩ := mem m hm
    exact .str d (validString_of_ascii fun c hc => (base64Encode_mem sum c hc).2.2)

theorem fits_replacement {r : UploadReplacement} (d : Nat)
    (h : validString r.id = true ∧ validString r.parentID = true ∧ validString r.name = true) :
    (Json.obj (replacementCodec.members r)).Fits (d + 1) := by
  refine fits_members (fun f => by cases f <;> decide) fun f j hj => ?_
  cases f
  case parentID => exact fits_of_ite hj (.str d h.2.1)
  case id => exact fits_of_some hj (.str d h.1)
  case name => exact fits_of_some hj (.str d h.2.2)
  all_goals exact fits_of_some hj (.num d (isNumber_intLit _))

theorem fits_staging {s : UploadStagingStatus} (d : Nat)
    (h : validString s.error = true ∧ validString s.path = true) :
    (Json.obj (stagingCodec.members s)).Fits (d + 1) := by
  refine fits_members (fun f => by cases f <;> decide) fun f j hj => ?_
  cases f
  case existsOnDisk => exact fits_of_some hj (.bool d _)
  case size => exact fits_of_ite hj (.num d (isNumber_intLit _))
  case sizeMatches => exact fits_of_some hj (.bool d _)
  case error => exact fits_of_ite hj (.str d h.1)
  case path => exact fits_of_ite hj (.str d h.2)

theorem JournalEntry.Valid.fits (h : e.Valid) (d : Nat) : (Json.obj (journalCodec.members e)).Fits (d + 2) := by
  have hu := h.upload
  refine fits_members (fun f => by cases f <;> decide) fun f j hj => ?_
  cases f
  case op => exact fits_of_some hj (.str _ h.op)
  case oldPath => exact fits_of_ite hj (.str _ h.oldPath)
  case paths =>
    refine fits_of_ite hj (.arr fun j hj => ?_)
    obtain ⟨p, hp, rfl⟩ := mem_map.mp hj
    exact .str d (h.paths p hp)
  case path => exact fits_of_some hj (.str _ hu.path)
  case fid => exact fits_of_some hj (.str _ hu.fid)
  case parentID => exact fits_of_some hj (.str _ hu.parentID)
  case name => exact fits_of_some hj (.str _ hu.name)
  case localPath => exact fits_of_some hj (.str _ hu.localPath)
  case size => exact fits_of_some hj (.num _ (isNumber_intLit _))
  case updatedAt => exact fits_of_some hj (.num _ (isNumber_intLit _))
  case lastError => exact fits_of_ite hj (.str _ hu.lastError)
  case permanentFail => exact fits_of_ite hj (.bool _ _)
  case frozen => exact fits_of_ite hj (.bool _ _)
  case replaceUpload =>
    obtain ⟨r, hr, rfl⟩ := map_eq_some_iff.mp hj
    exact fits_replacement d (hu.replaceUpload r hr)
  case staging =>
    obtain ⟨s, hs, rfl⟩ := map_eq_some_iff.mp hj
    exact fits_staging d (hu.staging s hs)
  case sourceHashes => exact fits_of_ite hj (fits_hashMembers _ d)
  all_goals exact fits_of_ite hj (.num _ (isNumber_intLit _))

/-- **An entry whose strings are valid survives.** -/
theorem unmarshal_marshal (h : e.Valid) : unmarshal (marshal e) = some { e with upload := e.upload.journaled } := by
  have hparse := parseJson_encode (h.fits 9998)
  rw [unmarshal, marshal, hparse]
  exact decode_members h.opOk

def journalBuffer : Nat := 4 * 1024 * 1024

/-- The entry is written as one line that can be read back. -/
structure JournalEntry.Writable (e : JournalEntry) : Prop where
  valid : e.Valid
  short : (marshal e).length < journalBuffer

theorem JournalEntry.Writable.isLine_cut (h : e.Writable) {p : Bytes}
    (hp : p <+: marshal e) : IsLine journalBuffer p := by
  have hprint := (h.valid.fits 0).printable
  refine ⟨fun h10 => ?_, fun h13 => ?_, Nat.lt_of_le_of_lt hp.length_le h.short⟩
  · exact absurd (hprint 10 (hp.subset h10)) (by decide)
  · exact absurd (hprint 13 (hp.subset (mem_of_getLast? h13))) (by decide)

theorem JournalEntry.Writable.isLine (h : e.Writable) :
    IsLine journalBuffer (marshal e) := h.isLine_cut (prefix_refl _)

/-- **Of an entry that was not written whole nothing is read.** -/
theorem unmarshal_cut (h : e.Valid) {p : Bytes} (hp : p <+: marshal e)
    (hne : p ≠ marshal e) : unmarshal p = none := by
  rw [unmarshal, parseJson_cut (h.fits 9998) hp hne]

end Upload
