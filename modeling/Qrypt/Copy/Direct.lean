import Qrypt.Infra.FileTree
import Qrypt.Infra.Number
import Qrypt.Upload.Types

/-!
# Direct copies

`runDirectDriverCopy` of `pkg/vfs/drivecopy/directcopy.go`: a file is copied between drivers. An entry that exists
at the destination is removed first.

* `preserves_iff` — what was at the destination survives a failed copy, and a directory survives every copy, exactly
  if the existing entry is a file and nothing fails after its removal
-/

namespace Copy

open Infra Upload List Option

-- The data of a file; a copy only hands it on.
variable {α : Type}

/-! ## Answers -/

/-- An error; `notFound` if it is one of `ErrNotFound`. -/
structure CopyError where
  text : Bytes
  notFound : Bool := false
  deriving DecidableEq

/-- `DebugResolveInfo`, as far as it is read. -/
structure ResolveInfo where
  mount : Bytes := []
  driver : Bytes := []
  remoteID : Bytes := []
  isDir : Bool := false
  pending : Bool := false
  size : Int := 0
  deriving DecidableEq

/-- A driver, by its identity, and what it can do; `driver` is the name its snapshot gives. -/
structure Driver where
  handle : Nat
  driver : Bytes := []
  sourceUploader : Bool := true
  writer : Bool := true
  copier : Bool := false
  deriving DecidableEq

/-- The answer of `Remove`; one that fails may have removed some of the entry. -/
structure RemoveAnswer where
  err : Option CopyError := none
  gone : List TreePath := []

/-- The answer of a call that creates the file, and what it leaves there, also if it fails. -/
structure WriteAnswer (α : Type) where
  err : Option CopyError := none
  left : Option α := none

/-- The answers of `Read`, of the temporary file and of the reader in between. -/
structure ReadAnswer where
  openErr : Option CopyError := none
  tempErr : Option CopyError := none
  data : Bytes := []
  copyErr : Option CopyError := none
  syncErr : Option CopyError := none
  closeErr : Option CopyError := none

/-- Everything a copy asks for. -/
structure Answers (α : Type) where
  isNamespace : Bool := true
  mounts : List Bytes := []
  drivers : List (Bytes × Driver) := []
  source : Except CopyError ResolveInfo
  parent : Except CopyError ResolveInfo
  dest : Except CopyError ResolveInfo
  remove : RemoveAnswer := {}
  copy : WriteAnswer α := {}
  read : ReadAnswer := {}
  put : WriteAnswer α := {}

/-! ## Results -/

/-- `TransferStep`; it is ok if it has no error. -/
structure TransferStep where
  phase : Bytes
  bytes : Int := 0
  err : Option Bytes := none
  deriving DecidableEq

/-- `DriverCopyResult`. -/
structure CopyResult where
  sourcePath : Bytes
  destPath : Bytes
  sourceMount : Bytes := []
  destMount : Bytes := []
  sourceType : Bytes := []
  destType : Bytes := []
  pass : Bool := false
  bytes : Int := 0
  steps : List TransferStep := []
  deriving DecidableEq

namespace CopyResult

/-- `appendCopyStep`. -/
def step (r : CopyResult) (phase : String) (bytes : Int) (err : Option Bytes) : CopyResult :=
  { r with steps := r.steps ++ [{ phase := ascii phase, bytes := bytes, err := err }] }

def fail (r : CopyResult) (phase : String) (text : Bytes) : CopyResult := r.step phase 0 (some text)

def finish (r : CopyResult) : CopyResult := { r with pass := r.pass && r.steps.all fun s => s.err.isNone }

def firstCopyError (r : CopyResult) : Bytes :=
  match r.steps.find? fun s => s.err.any (· ≠ []) with
  | some s => s.phase ++ ascii ": " ++ s.err.getD []
  | none => ascii "copy failed"

end CopyResult

/-! ## Resolving -/

variable (a : Answers α)

def cacheMountName (path : Bytes) : Bytes :=
  if !a.isNamespace then if a.mounts.length = 1 then a.mounts.headD [] else []
  else (path.dropWhile (· = 47)).takeWhile (· ≠ 47)

/-- `copyResolvedPath`. -/
structure Resolved where
  mount : Bytes
  driver : Bytes
  info : ResolveInfo
  drive : Driver
  isMissing : Bool
  deriving DecidableEq

/-- `resolveCopyPath`, with the answer of `DebugResolve`. -/
def resolveCopyPath (path : Bytes) (answer : Except CopyError ResolveInfo) : Except CopyError Resolved :=
  match answer with
  | .error err => .error err
  | .ok info =>
    let mount := if info.mount ≠ [] then info.mount else cacheMountName a (cleanVirtualPath path)
    let mount := match mount, a.drivers with
      | [], [only] => only.1
      | mount, _ => mount
    match a.drivers.find? fun d => d.1 = mount with
    | none => .error { text := ascii "mount \"" ++ mount ++ ascii "\" not found" }
    | some (_, drive) =>
      .ok { mount := mount
            driver := if info.remoteID ≠ [] ∧ info.driver = [] then drive.driver else info.driver
            info := info
            drive := drive
            isMissing := info.remoteID = [] }

def splitDestPath (path : Bytes) : Bytes × Bytes :=
  (cleanVirtualPath (dirPath (cleanVirtualPath path)), basePath (cleanVirtualPath path))

/-! ## Copying -/

/-- The two ends of a copy. -/
structure Ends where
  src : Resolved
  parent : Resolved
  deriving DecidableEq

/-- The part of `runDirectDriverCopy` that finds the source and the parent of the destination. -/
def findEnds (r : CopyResult) : Except CopyResult (CopyResult × Ends) :=
  match resolveCopyPath a r.sourcePath a.source with
  | .error err => .error (r.fail "resolve_source" err.text)
  | .ok src =>
    let r := { r.step "resolve_source" 0 none with sourceMount := src.mount, sourceType := src.driver }
    if src.info.isDir then .error (r.fail "validate_source" (ascii "source is a directory"))
    else if src.info.pending then
      .error (r.fail "validate_source" (ascii "source has pending local changes; flush/upload it before direct copy"))
    else if src.info.remoteID = [] then
      .error (r.fail "validate_source" (ascii "source not found: " ++ r.sourcePath))
    else
      let (parentPath, name) := splitDestPath r.destPath
      if name = [] ∨ name = [47] then .error (r.fail "validate_dest" (ascii "dest must include a file name"))
      else
        match resolveCopyPath a parentPath a.parent with
        | .error err => .error (r.fail "resolve_dest_parent" err.text)
        | .ok parent =>
          let r := { r.step "resolve_dest_parent" 0 none with destMount := parent.mount, destType := parent.driver }
          if !parent.info.isDir then
            .error (r.fail "validate_dest_parent" (ascii "dest parent is not a directory: " ++ parentPath))
          else if src.mount = [] ∨ parent.mount = [] then
            .error (r.fail "validate_mounts" (ascii "source and dest mounts are required"))
          else if !parent.drive.sourceUploader then
            .error (r.fail "capability_check" (ascii "dest driver does not implement SourceUploader"))
          else .ok (r, { src := src, parent := parent })

def Ends.direct (x : Ends) : Bool := decide (x.parent.drive.handle = x.src.drive.handle) && x.parent.drive.copier

/-- `copySourceToTemp`: its error, if it has one. -/
def copySourceToTemp (expectedSize : Int) : Option Bytes :=
  match a.read.openErr, a.read.tempErr, a.read.copyErr, a.read.syncErr, a.read.closeErr with
  | some err, _, _, _, _ => some err.text
  | none, some err, _, _, _ => some err.text
  | none, none, some err, _, _ => some err.text
  | none, none, none, some err, _ => some err.text
  | none, none, none, none, some err => some err.text
  | none, none, none, none, none =>
    if 0 < expectedSize ∧ (a.read.data.length : Int) ≠ expectedSize then
      some (ascii "source read size mismatch: got " ++ decimal a.read.data.length ++ ascii " bytes, want " ++
        intLit expectedSize)
    else none

/-- What a call leaves at a path; a directory stays. -/
def leave (t : FileTree α) (dest : TreePath) (left : Option α) : FileTree α :=
  match left with
  | some data => if h : t.Writable dest then t.write dest data h else t
  | none => t

/-- The end of `runDirectDriverCopy`: the file is created. -/
def transfer (x : Ends) (r : CopyResult) (dest : TreePath) (t : FileTree α) : CopyResult × FileTree α :=
  if x.direct then
    let r := r.step "server_side_copy" x.src.info.size (a.copy.err.map CopyError.text)
    (if a.copy.err.isSome then r else { r with bytes := x.src.info.size, pass := true }, leave t dest a.copy.left)
  else
    let err := copySourceToTemp a x.src.info.size
    let read : Int := if a.read.openErr.isSome ∨ a.read.tempErr.isSome then 0 else a.read.data.length
    let r := r.step "read_source_to_temp" read err
    if err.isSome then (r, t)
    else
      let r := { r with bytes := read }.step "driver_put_source" read (a.put.err.map CopyError.text)
      (if a.put.err.isSome then r else { r with pass := true }, leave t dest a.put.left)

/-- The part of `runDirectDriverCopy` that clears the destination. -/
def clearAndTransfer (overwrite : Bool) (x : Ends) (r : CopyResult) (dest : TreePath)
    (t : FileTree α) : CopyResult × FileTree α :=
  match resolveCopyPath a r.destPath a.dest with
  | .error err =>
    if err.notFound then transfer a x (r.step "check_dest_exists" 0 none) dest t
    else (r.fail "check_dest_exists" err.text, t)
  | .ok existing =>
    if existing.isMissing then transfer a x (r.step "check_dest_exists" 0 none) dest t
    else if !overwrite then (r.fail "check_dest_exists" (ascii "dest already exists: " ++ r.destPath), t)
    else
      let r := r.step "check_dest_exists" 0 none
      if !x.parent.drive.writer then
        (r.fail "remove_existing" (ascii "dest exists and driver does not implement Writer"), t)
      else
        match a.remove.err with
        | some err => (r.fail "remove_existing" err.text, t.removeSome dest a.remove.gone)
        | none => transfer a x (r.step "remove_existing" 0 none) dest (t.removeAll dest)

/-- `runDirectDriverCopy`, over the tree that the virtual paths belong to. -/
def runDirectDriverCopy (srcPath dstPath : Bytes) (overwrite : Bool) (t : FileTree α) : CopyResult × FileTree α :=
  match findEnds a { sourcePath := cleanVirtualPath srcPath, destPath := cleanVirtualPath dstPath } with
  | .error r => (r.finish, t)
  | .ok (r, x) =>
    let y := clearAndTransfer a overwrite x r (treePath dstPath) t
    (y.1.finish, y.2)

/-! ## What a copy does -/

namespace CopyResult

/-- No step has failed so far. -/
structure Clean (r : CopyResult) : Prop where
  pass : r.pass = false
  steps : ∀ s ∈ r.steps, s.err = none

variable {r : CopyResult}

theorem Clean.step (h : r.Clean) (phase : String) (bytes : Int) : (r.step phase bytes none).Clean := by
  exact ⟨h.pass, forall_mem_append.mpr ⟨h.steps, forall_mem_singleton.mpr rfl⟩⟩

theorem finish_pass (hpass : r.pass = true) (h : ∀ s ∈ r.steps, s.err = none) : r.finish.pass = true := by
  simpa [finish, hpass] using fun s hs => h s hs

theorem pass_finish_fail (r : CopyResult) (phase : String) (text : Bytes) : (r.fail phase text).finish.pass = false := by
  simp [fail, step, finish]

theorem pass_finish (h : r.pass = false) : r.finish.pass = false := by
  simp [finish, h]

end CopyResult

theorem cleanVirtualPath_eq_rootedPath (path : Bytes) : cleanVirtualPath path = rootedPath (treePath path) := by
  unfold cleanVirtualPath
  rw [cleanPath_eq_rootedPath]
  split
  · next hhead =>
    obtain ⟨rest, rfl⟩ : ∃ rest, path = 47 :: rest := by
      cases path with
      | nil => cases hhead
      | cons c rest => exact ⟨rest, by rw [some.inj hhead]⟩
    rw [tail_cons, treePath_cons]
  · rfl

/-- The source is a file without pending changes, and the parent of the destination a directory that takes it. -/
structure Ready (a : Answers α) (srcPath dstPath : Bytes) (x : Ends) : Prop where
  src : resolveCopyPath a (cleanVirtualPath srcPath) a.source = .ok x.src
  file : x.src.info.isDir = false
  settled : x.src.info.pending = false
  found : x.src.info.remoteID ≠ []
  name : (splitDestPath (cleanVirtualPath dstPath)).2 ≠ [] ∧ (splitDestPath (cleanVirtualPath dstPath)).2 ≠ [47]
  parent : resolveCopyPath a (splitDestPath (cleanVirtualPath dstPath)).1 a.parent = .ok x.parent
  dir : x.parent.info.isDir = true
  mounts : x.src.mount ≠ [] ∧ x.parent.mount ≠ []
  uploader : x.parent.drive.sourceUploader = true

section Ends

variable {a : Answers α} {r r' : CopyResult} {x : Ends} {srcPath dstPath : Bytes}

theorem findEnds_ok (hr : r.Clean) (hsrc : r.sourcePath = cleanVirtualPath srcPath)
    (hdst : r.destPath = cleanVirtualPath dstPath) (h : findEnds a r = .ok (r', x)) :
    r'.Clean ∧ r'.destPath = cleanVirtualPath dstPath ∧ Ready a srcPath dstPath x := by
  unfold findEnds at h
  split at h
  · cases h
  next src hresolve =>
  dsimp only at h
  split at h
  · cases h
  next hfile =>
  split at h
  · cases h
  next hpending =>
  split at h
  · cases h
  next hfound =>
  split at h
  · cases h
  next hname =>
  split at h
  · cases h
  next parent hparent =>
  split at h
  · cases h
  next hdir =>
  split at h
  · cases h
  next hmounts =>
  split at h
  · cases h
  next hup =>
  cases h
  rw [not_or] at hname hmounts
  have hdst' : (r.step "resolve_source" 0 none).destPath = cleanVirtualPath dstPath := hdst
  refine ⟨⟨hr.pass, ((hr.step _ _).step _ _).steps⟩, hdst, ?_⟩
  rw [hsrc] at hresolve
  rw [hdst'] at hname hparent
  exact
    { src := hresolve
      file := by simpa using hfile
      settled := by simpa using hpending
      found := hfound
      name := hname
      parent := hparent
      dir := by simpa using hdir
      mounts := hmounts
      uploader := by simpa using hup }

theorem findEnds_error (h : findEnds a r = .error r') : r'.finish.pass = false := by
  unfold findEnds at h
  dsimp only at h
  repeat' split at h
  all_goals cases h
  all_goals exact CopyResult.pass_finish_fail _ _ _

theorem exists_findEnds (hx : Ready a srcPath dstPath x) :
    ∃ r', findEnds a { sourcePath := cleanVirtualPath srcPath, destPath := cleanVirtualPath dstPath } = .ok (r', x) := by
  simp [findEnds, CopyResult.step, hx.src, hx.file, hx.settled, hx.found, hx.name, hx.parent, hx.dir, hx.mounts, hx.uploader]

end Ends

/-- The answer of the call that creates the file, if the copy comes to it. -/
def lastWrite (x : Ends) : Option (WriteAnswer α) :=
  if x.direct then some a.copy
  else if (copySourceToTemp a x.src.info.size).isSome then none
  else some a.put

theorem transfer_eq (a : Answers α) (x : Ends) {r : CopyResult} (hr : r.Clean) (dest : TreePath) (t : FileTree α) :
    (transfer a x r dest t).1.finish.pass = (lastWrite a x).any (fun w => w.err.isNone) ∧
      (transfer a x r dest t).2 = leave t dest ((lastWrite a x).bind WriteAnswer.left) := by
  unfold transfer lastWrite
  by_cases hdirect : x.direct = true
  · cases herr : a.copy.err with
    | none =>
      have hpass := CopyResult.finish_pass (r := { r.step "server_side_copy" x.src.info.size none with
        bytes := x.src.info.size, pass := true }) rfl (hr.step _ _).steps
      simpa [hdirect, herr] using hpass
    | some err =>
      have hpass := CopyResult.pass_finish (r := r.step "server_side_copy" x.src.info.size (some err.text)) hr.pass
      simpa [hdirect, herr] using hpass
  · generalize hbytes : (if a.read.openErr.isSome = true ∨ a.read.tempErr.isSome = true then (0 : Int) else
      a.read.data.length) = read
    cases hread : copySourceToTemp a x.src.info.size with
    | some text =>
      have hpass := CopyResult.pass_finish (r := r.step "read_source_to_temp" read (some text)) hr.pass
      simpa [hdirect, leave] using hpass
    | none =>
      have hclean : ({ r.step "read_source_to_temp" read none with bytes := read } : CopyResult).Clean :=
        ⟨hr.pass, (hr.step _ _).steps⟩
      cases herr : a.put.err with
      | none =>
        have hpass := CopyResult.finish_pass (r := { ({ r.step "read_source_to_temp" read none with
          bytes := read } : CopyResult).step "driver_put_source" read none with pass := true }) rfl (hclean.step _ _).steps
        simpa [hdirect, herr] using hpass
      | some err =>
        have hpass := CopyResult.pass_finish (r := ({ r.step "read_source_to_temp" read none with
          bytes := read } : CopyResult).step "driver_put_source" read (some err.text)) hclean.pass
        simpa [hdirect, herr] using hpass

/-! ## What was at the destination -/

/-- All that was at a path is still there. -/
def Kept (dest : TreePath) (t t' : FileTree α) : Prop :=
  ∀ q, dest <+: q → t.get q ≠ none → t'.get q = t.get q

/-- A failed copy keeps what was at the destination, and every copy keeps a directory. -/
def Preserves (dest : TreePath) (t : FileTree α) (out : CopyResult × FileTree α) : Prop :=
  (out.1.pass = false ∨ t.get dest = some .dir) → Kept dest t out.2

/-- The destination resolves to an entry. -/
def Existing (dstPath : Bytes) : Prop :=
  ∃ e, resolveCopyPath a (cleanVirtualPath dstPath) a.dest = .ok e ∧ e.isMissing = false

/-- The destination resolves to nothing. -/
def Absent (dstPath : Bytes) : Prop :=
  (∃ e, resolveCopyPath a (cleanVirtualPath dstPath) a.dest = .ok e ∧ e.isMissing = true) ∨
    ∃ err, resolveCopyPath a (cleanVirtualPath dstPath) a.dest = .error err ∧ err.notFound = true

def cleared (dest : TreePath) (t : FileTree α) : FileTree α :=
  match a.remove.err with
  | some _ => t.removeSome dest a.remove.gone
  | none => t.removeAll dest

/-- The removal takes nothing, or a file that is created again; a call that fails for an unseen entry leaves it. -/
structure Careful (a : Answers α) (srcPath dstPath : Bytes) (overwrite : Bool) (t : FileTree α) : Prop where
  existing : ∀ x, Ready a srcPath dstPath x → overwrite = true → x.parent.drive.writer = true → Existing a dstPath →
    Kept (treePath dstPath) t (cleared a (treePath dstPath) t) ∨
      ∃ data, t.get (treePath dstPath) = some (.file data) ∧ a.remove.err = none ∧
        ∃ w ∈ lastWrite a x, w.err = none ∨ w.left = some data
  unseen : ∀ x, Ready a srcPath dstPath x → Absent a dstPath → ∀ data, t.get (treePath dstPath) = some (.file data) →
      ∀ w ∈ lastWrite a x, w.err = none ∨ w.left = none ∨ w.left = some data

section Kept

variable {dest : TreePath} {t : FileTree α} {left : Option α}

theorem kept_refl (dest : TreePath) (t : FileTree α) : Kept dest t t := fun _ _ _ => rfl

theorem kept_of_none (h : t.get dest = none) (t' : FileTree α) : Kept dest t t' := by
  rintro q ⟨r, rfl⟩ hq
  by_cases hr : r = []
  · subst hr
    rw [append_nil] at hq
    exact absurd h hq
  · simp [FileTree.get_of_below hq hr] at h

theorem kept_of_file {data : α} {t' : FileTree α} (h : t.get dest = some (.file data))
    (h' : t'.get dest = some (.file data)) : Kept dest t t' := by
  rintro q ⟨r, rfl⟩ hq
  by_cases hr : r = []
  · subst hr
    rw [append_nil, h, h']
  · simp [FileTree.get_of_below hq hr] at h

theorem writable_of_file {data : α} (h : t.get dest = some (.file data)) : t.Writable dest := by
  have hne : dest ≠ [] := by
    rintro rfl
    simp [t.root] at h
  refine ⟨t.plain (by simp [h]), hne, t.closed (n := dest.getLast hne) ?_, by simp [h]⟩
  rw [dropLast_append_getLast hne, h]
  simp

theorem kept_leave_iff : Kept dest t (leave t dest left) ↔
    ∀ data, t.get dest = some (.file data) → left = none ∨ left = some data := by
  constructor
  · intro h data hdata
    have hwrite := writable_of_file hdata
    have hsame := h dest prefix_rfl (by simp [hdata])
    cases left with
    | none => exact .inl rfl
    | some bytes => simpa [leave, hwrite, hdata] using hsame
  · intro h
    rcases hget : t.get dest with _ | ⟨_ | data⟩
    · exact kept_of_none hget _
    · have hwrite : ¬ t.Writable dest := fun hw => hw.notDir hget
      have hleave : leave t dest left = t := by
        cases left with
        | none => rfl
        | some bytes => simp [leave, hwrite]
      rw [hleave]
      exact kept_refl dest t
    · have hwrite := writable_of_file hget
      refine kept_of_file hget ?_
      rcases h data hget with rfl | rfl
      · exact hget
      · simp [leave, hwrite]

theorem not_prefix_dropLast (h : dest ≠ []) : ¬ dest <+: dest.dropLast := by
  intro hp
  have hlen := hp.length_le
  rw [length_dropLast] at hlen
  have := length_pos_iff.mpr h
  omega

/-- After the removal, the entry is back only if it was a file and its bytes are left. -/
theorem kept_removeAll_leave_iff (hne : dest ≠ []) : Kept dest t (leave (t.removeAll dest) dest left) ↔
    Kept dest t (t.removeAll dest) ∨ ∃ data, t.get dest = some (.file data) ∧ left = some data := by
  have hgone : (t.removeAll dest).get dest = none := by simp [hne]
  rcases hget : t.get dest with _ | ⟨_ | data⟩
  · simp [kept_of_none hget]
  · have hlost : ∀ t' : FileTree α, t'.get dest ≠ some .dir → ¬ Kept dest t t' := by
      intro t' hdir h
      exact hdir ((h dest prefix_rfl (by simp [hget])).trans hget)
    have hleft : (leave (t.removeAll dest) dest left).get dest ≠ some .dir := by
      unfold leave
      split
      · split
        · simp
        · simp [hne]
      · simp [hne]
    have hcleared : (t.removeAll dest).get dest ≠ some .dir := by
      rw [hgone]
      simp
    simp [hlost _ hleft, hlost _ hcleared]
  · have hparent : (t.removeAll dest).get dest.dropLast = some .dir := by
      rw [FileTree.get_removeAll, if_neg fun h => not_prefix_dropLast hne h.1]
      exact (writable_of_file hget).parent
    have hwrite : (t.removeAll dest).Writable dest :=
      ⟨(writable_of_file hget).plain, hne, hparent, by rw [hgone]; simp⟩
    have hlost : ¬ Kept dest t (t.removeAll dest) := by
      intro h
      have := h dest prefix_rfl (by simp [hget])
      rw [hgone, hget] at this
      cases this
    constructor
    · intro h
      have hsame := h dest prefix_rfl (by simp [hget])
      cases left with
      | none => exact .inl h
      | some bytes =>
        refine .inr ⟨data, rfl, ?_⟩
        simpa [leave, hwrite, hget] using hsame
    · rintro (h | ⟨data', hdata, rfl⟩)
      · exact absurd h hlost
      · cases hdata
        exact kept_of_file hget (by simp [leave, hwrite])

end Kept

variable {a : Answers α} {srcPath dstPath : Bytes} {t : FileTree α} {dest : TreePath}

theorem Ready.dest_ne {x : Ends} (h : Ready a srcPath dstPath x) : treePath dstPath ≠ [] := by
  intro hnil
  have hroot : cleanVirtualPath dstPath = [47] := by
    rw [cleanVirtualPath_eq_rootedPath, hnil]
    rfl
  have hname := h.name.2
  rw [hroot] at hname
  exact hname (by decide)

section Transfer

variable (a : Answers α) (x : Ends) {r : CopyResult} {dest : TreePath} {t : FileTree α}

/-- Nothing was removed: a call that fails has to leave a file as it was. -/
theorem preserves_transfer_iff (hr : r.Clean) :
    Preserves dest t ((transfer a x r dest t).1.finish, (transfer a x r dest t).2) ↔
      ∀ data, t.get dest = some (.file data) → ∀ w ∈ lastWrite a x, w.err = none ∨ w.left = none ∨ w.left = some data := by
  obtain ⟨hpass, htree⟩ := transfer_eq a x hr dest t
  simp only [Preserves, hpass, htree, kept_leave_iff]
  cases hlast : lastWrite a x with
  | none => simp
  | some w =>
    cases herr : w.err with
    | some err => simp [herr]
    | none =>
      refine ⟨fun _ data _ w' hw' => ?_, fun _ h data hdata => ?_⟩
      · cases hw'
        exact .inl herr
      · simp [herr, hdata] at h

/-- The entry was removed: it has to be a file, and to be created again. -/
theorem preserves_replace_iff (hr : r.Clean) (hne : dest ≠ []) :
    Preserves dest t ((transfer a x r dest (t.removeAll dest)).1.finish, (transfer a x r dest (t.removeAll dest)).2) ↔
      Kept dest t (t.removeAll dest) ∨
        ∃ data, t.get dest = some (.file data) ∧ ∃ w ∈ lastWrite a x, w.err = none ∨ w.left = some data := by
  obtain ⟨hpass, htree⟩ := transfer_eq a x hr dest (t.removeAll dest)
  simp only [Preserves, hpass, htree, kept_removeAll_leave_iff hne]
  cases hlast : lastWrite a x with
  | none => simp
  | some w =>
    cases herr : w.err with
    | some err => simp [herr]
    | none =>
      rcases hget : t.get dest with _ | ⟨_ | data⟩
      · simp [kept_of_none hget]
      · simp
      · simp [herr]

end Transfer

/-- **What was at the destination survives exactly if a removed entry is a file and is created again.** -/
theorem preserves_iff (a : Answers α) (srcPath dstPath : Bytes) (overwrite : Bool) (t : FileTree α) :
    Preserves (treePath dstPath) t (runDirectDriverCopy a srcPath dstPath overwrite t) ↔
      Careful a srcPath dstPath overwrite t := by
  unfold runDirectDriverCopy
  cases hends : findEnds a { sourcePath := cleanVirtualPath srcPath, destPath := cleanVirtualPath dstPath } with
  | error r =>
    have hnot : ∀ x, ¬ Ready a srcPath dstPath x := by
      intro x hx
      obtain ⟨r', hok⟩ := exists_findEnds hx
      cases hends.symm.trans hok
    exact ⟨fun _ => ⟨fun x hx => absurd hx (hnot x), fun x hx => absurd hx (hnot x)⟩, fun _ _ => kept_refl _ t⟩
  | ok rx =>
    obtain ⟨r, x⟩ := rx
    obtain ⟨hclean, hpath, hready⟩ := findEnds_ok ⟨rfl, by simp⟩ rfl rfl hends
    have honly : ∀ x', Ready a srcPath dstPath x' → x' = x := by
      intro x' hx'
      obtain ⟨r', hok⟩ := exists_findEnds hx'
      cases hends.symm.trans hok
      rfl
    have hcareful : Careful a srcPath dstPath overwrite t ↔
        (overwrite = true → x.parent.drive.writer = true → Existing a dstPath →
          Kept (treePath dstPath) t (cleared a (treePath dstPath) t) ∨
            ∃ data, t.get (treePath dstPath) = some (.file data) ∧ a.remove.err = none ∧
              ∃ w ∈ lastWrite a x, w.err = none ∨ w.left = some data) ∧
        (Absent a dstPath → ∀ data, t.get (treePath dstPath) = some (.file data) →
          ∀ w ∈ lastWrite a x, w.err = none ∨ w.left = none ∨ w.left = some data) := by
      refine ⟨fun h => ⟨h.existing x hready, h.unseen x hready⟩, fun h => ⟨fun x' hx' => ?_, fun x' hx' => ?_⟩⟩
      · rw [honly x' hx']
        exact h.1
      · rw [honly x' hx']
        exact h.2
    have hkept : ∀ r' : CopyResult, Preserves (treePath dstPath) t (r', t) := fun _ _ => kept_refl _ t
    rw [hcareful]
    dsimp only
    unfold clearAndTransfer
    rw [hpath]
    cases hresolve : resolveCopyPath a (cleanVirtualPath dstPath) a.dest with
    | error err =>
      have hexisting : ¬ Existing a dstPath := by simp [Existing, hresolve]
      cases hfound : err.notFound with
      | false => simp [hkept, hexisting, Absent, hresolve, hfound]
      | true =>
        have habsent : Absent a dstPath := .inr ⟨err, hresolve, hfound⟩
        simpa [hfound, hexisting, habsent] using preserves_transfer_iff a x (hclean.step _ _)
    | ok e =>
      cases hmissing : e.isMissing with
      | true =>
        have habsent : Absent a dstPath := .inl ⟨e, hresolve, hmissing⟩
        have hexisting : ¬ Existing a dstPath := by simp [Existing, hresolve, hmissing]
        simpa [hmissing, hexisting, habsent] using preserves_transfer_iff a x (hclean.step _ _)
      | false =>
        have habsent : ¬ Absent a dstPath := by simp [Absent, hresolve, hmissing]
        have hexisting : Existing a dstPath := ⟨e, hresolve, hmissing⟩
        cases overwrite with
        | false => simp [hmissing, hkept, habsent]
        | true =>
          cases hwriter : x.parent.drive.writer with
          | false => simp [hmissing, hkept, habsent]
          | true =>
            cases hremove : a.remove.err with
            | some err =>
              have hpass := CopyResult.pass_finish_fail (r.step "check_dest_exists" 0 none) "remove_existing" err.text
              simp [hmissing, habsent, hexisting, Preserves, hpass, cleared, hremove]
            | none =>
              have hiff := preserves_replace_iff a x ((hclean.step "check_dest_exists" 0).step "remove_existing" 0)
                hready.dest_ne (t := t)
              simpa [hmissing, habsent, hexisting, cleared, hremove] using hiff

theorem within_leave (t : FileTree α) (dest : TreePath) (left : Option α) : FileTree.Within dest t (leave t dest left) := by
  unfold leave
  split
  · split
    · exact .write _
    · exact .refl _ _
  · exact .refl _ _

/-- What a copy may do: nothing, a removal that fails, or a write to what was there or what the removal left. -/
theorem runDirectDriverCopy_cases (a : Answers α) (srcPath dstPath : Bytes) (overwrite : Bool) (t : FileTree α) :
    ((runDirectDriverCopy a srcPath dstPath overwrite t).1.pass = false ∧
        (runDirectDriverCopy a srcPath dstPath overwrite t).2 = t) ∨
      (∃ x, Ready a srcPath dstPath x ∧ x.parent.drive.writer = true ∧ Existing a dstPath ∧
        (runDirectDriverCopy a srcPath dstPath overwrite t).1.pass = false ∧
        (runDirectDriverCopy a srcPath dstPath overwrite t).2 = t.removeSome (treePath dstPath) a.remove.gone) ∨
      ∃ x base, Ready a srcPath dstPath x ∧
        (base = t ∨ x.parent.drive.writer = true ∧ Existing a dstPath ∧ base = t.removeAll (treePath dstPath)) ∧
        (runDirectDriverCopy a srcPath dstPath overwrite t).1.pass = (lastWrite a x).any (fun w => w.err.isNone) ∧
        (runDirectDriverCopy a srcPath dstPath overwrite t).2 =
          leave base (treePath dstPath) ((lastWrite a x).bind WriteAnswer.left) := by
  unfold runDirectDriverCopy
  split
  · next r hends => exact .inl ⟨findEnds_error hends, rfl⟩
  next r x hends =>
  obtain ⟨hclean, hpath, hready⟩ := findEnds_ok ⟨rfl, by simp⟩ rfl rfl hends
  have hwrite := transfer_eq a x (hclean.step "check_dest_exists" 0) (treePath dstPath) t
  unfold clearAndTransfer
  rw [hpath]
  split
  · split
    · exact .inr (.inr ⟨x, t, hready, .inl rfl, hwrite⟩)
    · exact .inl ⟨CopyResult.pass_finish_fail _ _ _, rfl⟩
  next e hresolve =>
  split
  · exact .inr (.inr ⟨x, t, hready, .inl rfl, hwrite⟩)
  next hmissing =>
  have hexisting : Existing a dstPath := ⟨e, hresolve, by simpa using hmissing⟩
  split
  · exact .inl ⟨CopyResult.pass_finish_fail _ _ _, rfl⟩
  split
  · exact .inl ⟨CopyResult.pass_finish_fail _ _ _, rfl⟩
  next hwriter =>
  have hwriter' : x.parent.drive.writer = true := by simpa using hwriter
  split
  · exact .inr (.inl ⟨x, hready, hwriter', hexisting, CopyResult.pass_finish_fail _ _ _, rfl⟩)
  · exact .inr (.inr ⟨x, _, hready, .inr ⟨hwriter', hexisting, rfl⟩,
      transfer_eq a x ((hclean.step _ _).step _ _) _ _⟩)

/-- **A copy changes nothing but its destination.** -/
theorem within_runDirectDriverCopy (a : Answers α) (srcPath dstPath : Bytes) (overwrite : Bool) (t : FileTree α) :
    FileTree.Within (treePath dstPath) t (runDirectDriverCopy a srcPath dstPath overwrite t).2 := by
  rcases runDirectDriverCopy_cases a srcPath dstPath overwrite t with ⟨-, htree⟩ | ⟨x, -, -, -, -, htree⟩ |
    ⟨x, base, -, hbase, -, htree⟩
  · rw [htree]
    exact .refl _ _
  · rw [htree]
    exact .removeSome _ _ _
  · rw [htree]
    rcases hbase with rfl | ⟨-, -, rfl⟩
    · exact within_leave _ _ _
    · exact .trans (.removeAll _ _) (within_leave _ _ _)

theorem leave_of_dir (h : t.get dest = some .dir) (left : Option α) : leave t dest left = t := by
  unfold leave
  split
  · rw [dif_neg]
    exact fun hwrite => hwrite.notDir h
  · rfl

theorem leave_notDir (h : t.get dest ≠ some .dir) (left : Option α) : (leave t dest left).get dest ≠ some .dir := by
  unfold leave
  split
  · split
    · simp
    · exact h
  · exact h

/-- **A copy makes no directory.** -/
theorem notDir_runDirectDriverCopy (a : Answers α) (srcPath dstPath : Bytes) (overwrite : Bool)
    (h : t.get (treePath dstPath) ≠ some .dir) :
    (runDirectDriverCopy a srcPath dstPath overwrite t).2.get (treePath dstPath) ≠ some .dir := by
  rcases runDirectDriverCopy_cases a srcPath dstPath overwrite t with ⟨-, htree⟩ | ⟨x, -, -, -, -, htree⟩ |
    ⟨x, base, -, hbase, -, htree⟩
  · rwa [htree]
  · rw [htree]
    rcases FileTree.get_removeSome t (treePath dstPath) a.remove.gone (treePath dstPath) with hnone | hsame
    · simp [hnone]
    · rwa [hsame]
  · rw [htree]
    refine leave_notDir ?_ _
    rcases hbase with rfl | ⟨-, -, rfl⟩
    · exact h
    · rw [FileTree.get_removeAll]
      split
      · simp
      · exact h

/-- **A copy that passes leaves its file**, if it is no directory that is in the way. -/
theorem get_of_pass {overwrite : Bool} (hpass : (runDirectDriverCopy a srcPath dstPath overwrite t).1.pass = true)
    (hdir : t.get (treePath dstPath) ≠ some .dir)
    (hparent : ∀ x, Ready a srcPath dstPath x → t.get (treePath dstPath).dropLast = some .dir) :
    ∃ w, w.err = none ∧ (w = a.copy ∨ w = a.put) ∧ ∀ data, w.left = some data →
      (runDirectDriverCopy a srcPath dstPath overwrite t).2.get (treePath dstPath) = some (.file data) := by
  rcases runDirectDriverCopy_cases a srcPath dstPath overwrite t with ⟨hfail, -⟩ | ⟨x, -, -, -, hfail, -⟩ |
    ⟨x, base, hready, hbase, hany, htree⟩
  · simp [hpass] at hfail
  · simp [hpass] at hfail
  rw [hpass] at hany
  obtain ⟨w, hw, herr⟩ : ∃ w, lastWrite a x = some w ∧ w.err = none := by
    cases hlast : lastWrite a x with
    | none => simp [hlast] at hany
    | some w => exact ⟨w, rfl, by simpa [hlast] using hany.symm⟩
  have hne := hready.dest_ne
  have hwritable : base.Writable (treePath dstPath) := by
    refine ⟨plain_treePath _, hne, ?_, ?_⟩
    · rcases hbase with rfl | ⟨-, -, rfl⟩
      · exact hparent x hready
      · rw [FileTree.get_removeAll, if_neg fun hpre => not_prefix_dropLast hne hpre.1]
        exact hparent x hready
    · rcases hbase with rfl | ⟨-, -, rfl⟩
      · exact hdir
      · simp [hne]
  refine ⟨w, herr, ?_, fun data hleft => ?_⟩
  · unfold lastWrite at hw
    split_ifs at hw
    · exact .inl (some.inj hw).symm
    · exact .inr (some.inj hw).symm
  · rw [htree, hw, bind_some, hleft]
    simp [leave, hwritable]

theorem tree_of_not_existing (overwrite : Bool) (t : FileTree α)
    (h : ∀ x, Ready a srcPath dstPath x → x.parent.drive.writer = true → ¬ Existing a dstPath) :
    ∃ left, (runDirectDriverCopy a srcPath dstPath overwrite t).2 = leave t (treePath dstPath) left := by
  rcases runDirectDriverCopy_cases a srcPath dstPath overwrite t with ⟨-, htree⟩ | ⟨x, hready, hwriter, hexisting, -⟩ |
    ⟨x, base, hready, hbase, -, htree⟩
  · exact ⟨none, htree⟩
  · exact absurd hexisting (h x hready hwriter)
  · rcases hbase with rfl | ⟨hwriter, hexisting, -⟩
    · exact ⟨_, htree⟩
    · exact absurd hexisting (h x hready hwriter)

section

variable {a : Answers α} {srcPath dstPath : Bytes} {x : Ends} (hx : Ready a srcPath dstPath x)
  (hwriter : x.parent.drive.writer = true) (hexisting : Existing a dstPath) (hremove : a.remove.err = none)
include hx hwriter hexisting hremove

/-- An existing entry that is removed leaves what the last write puts in its place. -/
theorem tree_of_existing (t : FileTree α) : (runDirectDriverCopy a srcPath dstPath true t).2 =
      leave (t.removeAll (treePath dstPath)) (treePath dstPath) ((lastWrite a x).bind WriteAnswer.left) := by
  obtain ⟨r, hends⟩ := exists_findEnds hx
  obtain ⟨e, hresolve, hmissing⟩ := hexisting
  obtain ⟨hclean, hpath, -⟩ := findEnds_ok ⟨rfl, by simp⟩ rfl rfl hends
  simp only [runDirectDriverCopy, hends, clearAndTransfer, hpath, hresolve, hmissing, hwriter, hremove]
  exact (transfer_eq a x ((hclean.step _ _).step _ _) _ _).2

theorem get_below_of_existing (t : FileTree α) {q : TreePath} (hq : treePath dstPath <+: q) (hne : q ≠ treePath dstPath) :
    (runDirectDriverCopy a srcPath dstPath true t).2.get q = none := by
  have hnil : q ≠ [] := by
    rintro rfl
    exact hne (prefix_nil.mp hq).symm
  rw [tree_of_existing hx hwriter hexisting hremove]
  unfold leave
  split
  · split
    · simp [hne, hq, hnil]
    · simp [hq, hnil]
  · simp [hq, hnil]

theorem get_of_existing (hwrite : (lastWrite a x).bind WriteAnswer.left = none) (t : FileTree α) (hnil : treePath dstPath ≠ []) :
    (runDirectDriverCopy a srcPath dstPath true t).2.get (treePath dstPath) = none := by
  rw [tree_of_existing hx hwriter hexisting hremove, hwrite]
  simp [leave, hnil]

end

/-! ## A lost file -/

theorem plain_m : ∀ e ∈ [ascii "m"], PlainElem e := by decide

/-- One driver with two files, `/m/a` and `/m/b`. -/
def twoFiles : FileTree Bytes :=
  (((FileTree.empty.makeDirs [ascii "m"] plain_m).write [ascii "m", ascii "a"] (ascii "new") (by decide)).write
    [ascii "m", ascii "b"] (ascii "old") (by decide))

/-- The second file is overwritten with the first; the connection breaks while it is read. -/
def brokenRead : Answers Bytes where
  drivers := [(ascii "m", { handle := 0 })]
  source := .ok { mount := ascii "m", remoteID := ascii "1", size := 3 }
  parent := .ok { mount := ascii "m", remoteID := ascii "0", isDir := true }
  dest := .ok { mount := ascii "m", remoteID := ascii "2", size := 3 }
  read := { data := ascii "n", copyErr := some { text := ascii "connection reset" } }

/-- **A broken connection destroys the old file.** -/
theorem brokenRead_loses : ¬ Preserves (treePath (ascii "/m/b")) twoFiles
      (runDirectDriverCopy brokenRead (ascii "/m/a") (ascii "/m/b") true twoFiles) := by
  intro h
  have hkept := h (.inl (by decide)) (treePath (ascii "/m/b")) prefix_rfl (by decide)
  exact absurd hkept (by decide)

end Copy
