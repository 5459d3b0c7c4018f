import Qrypt.Infra.Reader

/-!
# Drivers

`pkg/drive`: what a cloud drive adapter offers to the layers above it. A driver is a record of
operations on a backend state `σ`; every failure a backend can show is a function of that state, so
a statement about all `σ` is a statement about all fault patterns.
-/

namespace Drive

open Infra

inductive HashAlgorithm where
  | md5
  | sha1
  | sha256
  deriving DecidableEq, Repr

/-- `SourceHashes`: a map with one possible entry per algorithm. -/
structure SourceHashes where
  md5 : Option Bytes := none
  sha1 : Option Bytes := none
  sha256 : Option Bytes := none
  deriving DecidableEq, Repr

/-- `hashes[algorithm]`. -/
def SourceHashes.get (h : SourceHashes) : HashAlgorithm → Option Bytes
  | .md5 => h.md5
  | .sha1 => h.sha1
  | .sha256 => h.sha256

/-- `hashes[algorithm] = sum`. -/
def SourceHashes.set (h : SourceHashes) (a : HashAlgorithm) (sum : Bytes) : SourceHashes :=
  match a with
  | .md5 => { h with md5 := some sum }
  | .sha1 => { h with sha1 := some sum }
  | .sha256 => { h with sha256 := some sum }

/-- `len(hashes) == 0`. -/
def SourceHashes.isEmpty (h : SourceHashes) : Bool :=
  h.md5.isNone && h.sha1.isNone && h.sha256.isNone

/-- `Entry`. Of `Extra` only the remote name is kept, which `EntryExtraWrapper` carries. -/
structure Entry where
  id : Bytes
  parentID : Bytes
  name : Bytes
  isDir : Bool
  size : Int
  remoteName : Option Bytes := none
  deriving DecidableEq, Repr

/-- `ReadOnlyFileSource`: its `Size()`, the bytes an opened handle reads, and the hashes it
reports. -/
structure Source where
  size : Int
  content : Bytes
  hashes : SourceHashes := {}
  deriving DecidableEq, Repr

structure UploadRequest where
  parentID : Bytes
  name : Bytes
  source : Source
  deriving DecidableEq, Repr

/-- `Driver`, the operations on files and directories. -/
structure Driver (σ : Type) where
  list : σ → Bytes → Except Err (List Entry)
  read : σ → Entry → Int → Int → Except Err Body
  mkdir : σ → Bytes → Bytes → Except Err Entry × σ
  move : σ → Entry → Bytes → Except Err Entry × σ
  rename : σ → Entry → Bytes → Except Err Entry × σ
  remove : σ → Entry → Option Err × σ
  putSource : σ → UploadRequest → Except Err Entry × σ
  requiredUploadHashes : List HashAlgorithm

end Drive
