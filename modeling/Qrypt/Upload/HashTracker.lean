import Qrypt.Upload.Types

/-!
# Hashes of staged writes

`HashTracker` of `pkg/vfs/upload/hash_tracker.go`: while a staging file is written from its beginning
on, its hashes are computed along the way. A write out of sequence makes a tracker dirty, and the hashes
are read from the file later.

A running hash is the bytes it was fed with. The hash functions are those of the standard library; they
are an argument of what asks for a sum.
-/

namespace Upload

open Infra Drive

/-- `hashTracker`. -/
structure Tracker where
  path : Bytes
  localPath : Bytes
  nextOffset : Int := 0
  dirty : Bool := false
  algorithms : List HashAlgorithm := []
  fed : Bytes := []

structure HashTracker where
  byFID : AList (fun _ : Bytes => Tracker) := ∅
  byPath : AList (fun _ : Bytes => Bytes) := ∅

def requiredUploadSnapshotHashes (required : List HashAlgorithm) : List HashAlgorithm :=
  (HashAlgorithm.sha256 :: required).foldl (fun seen a => if a ∈ seen then seen else seen ++ [a]) []

/-- The hashes of the bytes, one for each algorithm. -/
def hashesOf (hash : HashAlgorithm → Bytes → Bytes) (algorithms : List HashAlgorithm) (data : Bytes) : SourceHashes :=
  algorithms.foldl (fun h a => h.set a (hash a data)) {}

def sourceHashesCover (hashes : SourceHashes) (algorithms : List HashAlgorithm) : Bool :=
  algorithms ≠ [] && !hashes.isEmpty && algorithms.all fun a => (hashes.get a).getD [] ≠ []

namespace HashTracker

variable (s : HashTracker)

def track (p : PendingUpload) (tracker : Tracker) : HashTracker :=
  { byFID := s.byFID.insert p.fid tracker, byPath := s.byPath.insert p.path p.fid }

def fresh (p : PendingUpload) (algorithms : List HashAlgorithm) : Tracker :=
  { path := p.path, localPath := p.localPath, algorithms := algorithms }

def start (p : PendingUpload) (algorithms : List HashAlgorithm) : HashTracker :=
  if p.fid = [] ∨ p.localPath = [] ∨ p.size ≠ 0 then s else s.track p (fresh p algorithms)

def Tracker.feed (t : Tracker) (p : PendingUpload) (data : Bytes) (off : Int) : Tracker :=
  if t.dirty ∨ t.localPath ≠ p.localPath ∨ off ≠ t.nextOffset then { t with dirty := true }
  else { t with fed := t.fed ++ data, nextOffset := wrap64 (t.nextOffset + data.length) }

/-- `Write`; the record is the one before the write. -/
def write (p : PendingUpload) (data : Bytes) (off : Int)
    (algorithms : List HashAlgorithm) : HashTracker :=
  if data = [] ∨ p.fid = [] then s
  else
    match s.byFID.lookup p.fid with
    | some t => { s with byFID := s.byFID.insert p.fid (Tracker.feed t p data off) }
    | none =>
      if p.size ≠ 0 ∨ off ≠ 0 then s
      else s.track p (Tracker.feed (fresh p algorithms) p data off)

/-- The tracker that `Snapshot` answers from. -/
def current (p : PendingUpload) : Option Tracker :=
  if p.fid = [] then none
  else (s.byFID.lookup p.fid).filter fun t =>
    !t.dirty && t.path == p.path && t.localPath == p.localPath && t.nextOffset == (p.size : Int)

def snapshot (hash : HashAlgorithm → Bytes → Bytes) (s : HashTracker) (p : PendingUpload)
    (algorithms : List HashAlgorithm) : Option SourceHashes :=
  (s.current p).bind fun t =>
    if algorithms.all (· ∈ t.algorithms) then some (hashesOf hash algorithms t.fed) else none

def dirty (p : PendingUpload) : HashTracker :=
  match s.byFID.lookup p.fid with
  | some t => if p.fid = [] then s else { s with byFID := s.byFID.insert p.fid { t with dirty := true } }
  | none => s

def removeFID (fid : Bytes) : HashTracker :=
  if fid = [] then s
  else
    { byFID := s.byFID.erase fid
      byPath := match s.byFID.lookup fid with
        | some t => if s.byPath.lookup t.path = some fid then s.byPath.erase t.path else s.byPath
        | none => s.byPath }

def removePath (path : Bytes) : HashTracker :=
  if path = [] then s
  else
    { byFID := match s.byPath.lookup path with
        | some fid => if fid = [] then s.byFID else s.byFID.erase fid
        | none => s.byFID
      byPath := s.byPath.erase path }

def renamePath (oldPath newPath : Bytes) (p : PendingUpload) : HashTracker :=
  if oldPath = [] ∨ newPath = [] ∨ p.fid = [] then s
  else
    match s.byFID.lookup p.fid with
    | none => s
    | some t =>
      let byPath := if s.byPath.lookup oldPath = some p.fid then s.byPath.erase oldPath else s.byPath
      { byFID := s.byFID.insert p.fid { t with path := newPath, localPath := p.localPath }
        byPath := byPath.insert newPath p.fid }

def removeUnder (dir : Bytes) : HashTracker :=
  if dir = [] then s
  else
    (s.byPath.entries.filter fun r => r.1 = dir ∨ isPathUnder r.1 dir).foldl
      (fun s r => { byFID := s.byFID.erase r.2, byPath := s.byPath.erase r.1 }) s

end HashTracker

end Upload
