import Qrypt.Drive.Types
import Qrypt.Infra.Path

/-!
# Pending uploads

`pkg/vfs/vfstypes`: the record of a file that is staged for upload, and the virtual paths records
are kept under.
-/

namespace Upload

open Infra Drive

/-- `UploadReplacement`: the uploaded object that is to replace the remote file. -/
structure UploadReplacement where
  id : Bytes := []
  parentID : Bytes := []
  name : Bytes := []
  size : I64 := 0
  deriving DecidableEq, Repr

structure UploadStagingStatus where
  existsOnDisk : Bool := false
  size : I64 := 0
  sizeMatches : Bool := false
  error : Bytes := []
  path : Bytes := []
  deriving DecidableEq, Repr

structure PendingUpload where
  path : Bytes := []
  fid : Bytes := []
  parentID : Bytes := []
  name : Bytes := []
  localPath : Bytes := []
  size : I64 := 0
  modTime : I64 := 0
  updatedAt : I64 := 0
  retryCount : I64 := 0
  lastError : Bytes := []
  permanentFail : Bool := false
  lastAttemptAt : I64 := 0
  nextAttemptAt : I64 := 0
  replaceUpload : Option UploadReplacement := none
  sourceHashes : SourceHashes := {}
  staging : Option UploadStagingStatus := none
  frozen : Bool := false
  uploadStarted : Bool := false
  deriving DecidableEq, Repr

/-- What the journal keeps of a record: all but `UploadStarted`, which stays in memory. -/
def PendingUpload.journaled (p : PendingUpload) : PendingUpload := { p with uploadStarted := false }

def sameUploadRecord (a b : PendingUpload) : Bool :=
  a.path == b.path && a.fid == b.fid && a.parentID == b.parentID && a.name == b.name &&
    a.localPath == b.localPath && a.size == b.size && a.modTime == b.modTime &&
    a.updatedAt == b.updatedAt && a.retryCount == b.retryCount && a.lastError == b.lastError &&
    a.permanentFail == b.permanentFail && a.lastAttemptAt == b.lastAttemptAt &&
    a.nextAttemptAt == b.nextAttemptAt && a.replaceUpload == b.replaceUpload

/-! ## Virtual paths -/

def cleanVirtualPath (path : Bytes) : Bytes :=
  cleanPath (47 :: if path.head? = some 47 then path.tail else path)

theorem cleanVirtualPath_idem (path : Bytes) : cleanVirtualPath (cleanVirtualPath path) = cleanVirtualPath path := by
  have hroot : ∀ q, cleanVirtualPath (cleanPath (47 :: q)) = cleanPath (cleanPath (47 :: q)) := by
    intro q
    obtain ⟨r, hr⟩ : ∃ r, cleanPath (47 :: q) = 47 :: r := ⟨_, rfl⟩
    rw [hr]
    rfl
  exact (hroot _).trans (cleanPath_cleanPath _)

def isPathUnder (path dir : Bytes) : Bool :=
  let path := cleanVirtualPath path
  let dir := cleanVirtualPath dir
  dir ≠ [47] ∧ dir.length < path.length ∧ path.take dir.length = dir ∧ path[dir.length]? = some 47

def joinVirtualPath (parent name : Bytes) : Bytes :=
  let parent := cleanVirtualPath parent
  if parent = [47] then 47 :: name else parent ++ 47 :: name

/-- `SplitVirtualPath`: the name. -/
def splitName (path : Bytes) : Bytes :=
  if path = [47] then [47] else (path.reverse.takeWhile (· ≠ 47)).reverse

end Upload
