import Qrypt.Infra.Reader
import Qrypt.Infra.FileTree

/-!
# The download of one file

`downloadOne` of `pkg/core/download_task.go`: the file is read window by window into a temporary file beside the
destination, which then takes the destination's place. A file in the way is removed first.

* `downloadOne_sound_iff` — when a success means the whole file and a failure leaves the destination alone
-/

namespace Download

open Infra List

/-! ## The source -/

/-- The errors of a download. -/
inductive Failure where
  | os (err : Err)
  | readLimit (length limit : Nat)
  | sourceIsDir (path : Bytes)
  | destIsDir (path : Bytes)
  | destExists (path : Bytes)
  deriving DecidableEq, Repr

def quoted (s : Bytes) : Bytes := 34 :: (s ++ [34])

/-- The text `err.Error()`. -/
def Failure.message : Failure → Bytes
  | .os err => ascii err.message
  | .readLimit length limit =>
    ascii "core: read length " ++ ascii (toString length) ++ ascii " exceeds limit " ++ ascii (toString limit)
  | .sourceIsDir path =>
    ascii "core: download source " ++ quoted path ++ ascii " is a directory; recursive download is required"
  | .destIsDir path => ascii "core: download destination " ++ quoted path ++ ascii " is a directory"
  | .destExists path => ascii "core: download destination " ++ quoted path ++ ascii " already exists"

/-- A file of the virtual file system. A read fails, or its body holds bytes of the file from its offset on: all, some
or none. -/
structure Source where
  path : Bytes
  content : Bytes
  stat : Except Err Bool
  read : Nat → Except Err Body
  honest : ∀ {off b}, read off = .ok b → b.data <+: content.drop off

def Source.size (src : Source) : Nat := src.content.length

/-- `DefaultReadRequestBytes`, the default of the read limit and the size of the window. -/
def defaultReadRequestBytes : Nat := 3 * 2 ^ 20

/-- `readLimit`, for the limit that the core is configured with. -/
def readLimit (readChunkLimit limit : Int) : Nat :=
  if 0 < limit then limit.toNat
  else if 0 < readChunkLimit then readChunkLimit.toNat
  else defaultReadRequestBytes

/-- `ReadAtInto`, for a buffer of the given length. -/
def Source.readAtInto (src : Source) (readChunkLimit : Int) (off length : Nat) : Except Failure Bytes :=
  if length = 0 then .ok []
  else if readLimit readChunkLimit 0 < length then .error (.readLimit length (readLimit readChunkLimit 0))
  else
    match src.read off with
    | .error err => .error (.os err)
    | .ok body =>
      match (readFull body length).err with
      | none | some .eof | some .unexpectedEOF => .ok (readFull body length).bytes
      | some err => .error (.os err)

/-- `buf` of `downloadOne`. -/
def window (readChunkLimit : Int) : Nat := min defaultReadRequestBytes (readLimit readChunkLimit 0)

variable {off : Nat} {bytes acc destPath : Bytes} {fuel : Nat} {stat : Option Err} {dest : Option (Node Bytes)}

theorem Source.prefix_of_read {src : Source} {readChunkLimit : Int} {length : Nat}
    (h : src.readAtInto readChunkLimit off length = .ok bytes) : bytes <+: src.content.drop off := by
  unfold Source.readAtInto at h
  split at h
  · cases h
    exact nil_prefix
  split at h
  · cases h
  split at h
  · cases h
  next body hbody =>
    have hbytes : (readFull body length).bytes <+: src.content.drop off := by
      rw [(Body.ends body).readFull length |>.1]
      exact (List.take_prefix _ _).trans (src.honest hbody)
    split at h
    all_goals cases h
    all_goals exact hbytes

/-! ## The loop -/

/-- What the local file system answers; `none` is success. `write` is by the offset. -/
structure LocalAnswers where
  stat : Option Err := none
  mkdirAll : Option Err := none
  createTemp : Option Err := none
  write : Nat → Option Err := fun _ => none
  close : Option Err := none
  statAgain : Option Err := none
  remove : Option Err := none
  rename : Option Err := none

/-- One download: the source, the destination and what is there, and the answers of the local file system. -/
structure Job where
  src : Source
  destPath : Bytes
  overwrite : Bool
  dest : Option (Node Bytes)
  readChunkLimit : Int
  disk : LocalAnswers

variable (j : Job)

def Job.readAt (off : Nat) : Except Failure Bytes := j.src.readAtInto j.readChunkLimit off (window j.readChunkLimit)

/-- The loop of reads; `acc` is in the temporary file. Each round but the last advances, so that the size bounds them.
-/
def Job.copyLoop : Nat → Nat → Bytes → Except Failure Bytes
  | 0, _, acc => .ok acc
  | fuel + 1, off, acc =>
    if off < j.src.size then
      match j.readAt off with
      | .error err => .error err
      | .ok bytes =>
        -- neither the end of the file nor an error
        if bytes.length = 0 then .ok acc
        else
          match j.disk.write off with
          | some err => .error (.os err)
          | none => Job.copyLoop fuel (off + bytes.length) (acc ++ bytes)
    else .ok acc

def Job.copied : Except Failure Bytes := j.copyLoop j.src.size 0 []

/-- The offsets at which the loop comes by. -/
inductive Job.Reached : Nat → Prop
  | start : Job.Reached 0
  | next {off : Nat} {bytes : Bytes} (h : Job.Reached off) (hoff : off < j.src.size) (hread : j.readAt off = .ok bytes)
    (hne : bytes.length ≠ 0) (hwrite : j.disk.write off = none) : Job.Reached (off + bytes.length)

/-- A read before the end of the file gives nothing. -/
def Job.EmptyRead : Prop := ∃ off, j.Reached off ∧ off < j.src.size ∧ j.readAt off = .ok []

/-- A read or a write of the loop fails. -/
def Job.LoopFails : Prop := ∃ off, j.Reached off ∧ off < j.src.size ∧
  ((∃ err, j.readAt off = .error err) ∨ ∃ bytes, j.readAt off = .ok bytes ∧ bytes.length ≠ 0 ∧ j.disk.write off ≠ none)

variable {j}

theorem Job.take_append (hread : j.readAt off = .ok bytes) :
    j.src.content.take off ++ bytes = j.src.content.take (off + bytes.length) := by
  have hpre := Source.prefix_of_read hread
  rw [take_add, ← prefix_iff_eq_take.mp hpre]

/-- **Where the loop ends without an error:** at the end of the file or at a read that gives nothing. -/
theorem Job.copyLoop_ok (hreached : j.Reached off) (hfuel : j.src.size ≤ fuel + off)
    (h : j.copyLoop fuel off (j.src.content.take off) = .ok acc) : acc = j.src.content ∨ j.EmptyRead := by
  induction fuel generalizing off with
  | zero =>
    cases h
    exact .inl (take_of_length_le (by simpa [Source.size] using hfuel))
  | succ fuel ih =>
    rw [Job.copyLoop] at h
    split at h
    · next hoff =>
      split at h
      · cases h
      next bytes hread =>
        split at h
        · next hempty =>
          obtain rfl := length_eq_zero_iff.mp hempty
          exact .inr ⟨off, hreached, hoff, hread⟩
        next hne =>
          split at h
          · cases h
          next hwrite =>
            rw [take_append hread] at h
            exact ih (.next hreached hoff hread hne hwrite) (by omega) h
    · next hoff =>
      cases h
      exact .inl (take_of_length_le (by simpa [Source.size] using hoff))

theorem Job.loopFails_of_error {err : Failure} (hreached : j.Reached off)
    (h : j.copyLoop fuel off acc = .error err) : j.LoopFails := by
  induction fuel generalizing off acc with
  | zero => cases h
  | succ fuel ih =>
    rw [Job.copyLoop] at h
    split at h
    · next hoff =>
      split at h
      · next err' hread => exact ⟨off, hreached, hoff, .inl ⟨err', hread⟩⟩
      next bytes hread =>
        split at h
        · cases h
        next hne =>
          split at h
          · next err' hwrite => exact ⟨off, hreached, hoff, .inr ⟨bytes, hread, hne, by simp [hwrite]⟩⟩
          next hwrite => exact ih (.next hreached hoff hread hne hwrite) h
    · cases h

theorem Job.copied_of_reached (h : j.Reached off) :
    ∃ fuel, j.src.size ≤ fuel + off ∧ j.copied = j.copyLoop fuel off (j.src.content.take off) := by
  induction h with
  | start => exact ⟨j.src.size, Nat.le_refl _, rfl⟩
  | @next off bytes _ hoff hread hne hwrite ih =>
    obtain ⟨fuel, hfuel, heq⟩ := ih
    obtain ⟨fuel, rfl⟩ : ∃ n, fuel = n + 1 := ⟨fuel - 1, by omega⟩
    refine ⟨fuel, by omega, heq.trans ?_⟩
    rw [Job.copyLoop, if_pos hoff, hread]
    simp only [hne, if_false, hwrite, take_append hread]

/-- **A read that gives nothing ends the loop**, with the bytes so far. -/
theorem Job.copied_of_empty (h : j.Reached off) (hoff : off < j.src.size) (hread : j.readAt off = .ok []) :
    j.copied = .ok (j.src.content.take off) := by
  obtain ⟨fuel, hfuel, heq⟩ := copied_of_reached h
  obtain ⟨fuel, rfl⟩ : ∃ n, fuel = n + 1 := ⟨fuel - 1, by omega⟩
  rw [heq, Job.copyLoop, if_pos hoff, hread]
  simp

theorem Job.error_of_loopFails (h : j.LoopFails) : ∃ err, j.copied = .error err := by
  obtain ⟨off, hreached, hoff, hfail⟩ := h
  obtain ⟨fuel, hfuel, heq⟩ := copied_of_reached hreached
  obtain ⟨fuel, rfl⟩ : ∃ n, fuel = n + 1 := ⟨fuel - 1, by omega⟩
  rw [heq, Job.copyLoop, if_pos hoff]
  rcases hfail with ⟨err, hread⟩ | ⟨bytes, hread, hne, hwrite⟩
  · exact ⟨err, by rw [hread]⟩
  · obtain ⟨err, hwrite⟩ := Option.ne_none_iff_exists'.mp hwrite
    exact ⟨.os err, by simp only [hread, hne, if_false, hwrite]⟩

/-- The temporary file holds the whole file unless a read gave nothing. -/
theorem Job.copied_eq_iff (h : j.copied = .ok acc) : acc = j.src.content ↔ ¬ j.EmptyRead := by
  constructor
  · rintro rfl ⟨off, hreached, hoff, hread⟩
    rw [copied_of_empty hreached hoff hread] at h
    have hlen := congrArg length (Except.ok.inj h)
    simp only [length_take] at hlen
    simp only [Source.size] at hoff
    omega
  · intro hread
    exact (copyLoop_ok .start (Nat.le_refl _) h).resolve_right hread

/-! ## The download -/

/-- What `os.Stat` tells of the destination: an error, nothing there, or whether a directory is there. -/
def statDest (err : Option Err) (dest : Option (Node Bytes)) : Except Err (Option Bool) :=
  match err with
  | some err => .error err
  | none => .ok (dest.map fun node => node = .dir)

def prepareDownloadDestination (destPath : Bytes) (overwrite : Bool) (answer : Except Err (Option Bool)) :
    Option Failure :=
  match answer with
  | .error err => some (.os err)
  | .ok none => none
  | .ok (some true) => some (.destIsDir destPath)
  | .ok (some false) => if overwrite then none else some (.destExists destPath)

/-- `removeExistingDownloadDestination`: an error, or whether something was removed. -/
def removeExistingDownloadDestination (destPath : Bytes) (answer : Except Err (Option Bool)) (remove : Option Err) :
    Except Failure Bool :=
  match answer with
  | .error err => .error (.os err)
  | .ok none => .ok false
  | .ok (some true) => .error (.destIsDir destPath)
  | .ok (some false) =>
    match remove with
    | some err => .error (.os err)
    | none => .ok true

structure DownloadOneResult where
  bytesDone : Nat := 0
  bytesTotal : Nat := 0
  deriving DecidableEq, Repr

/-- What a download returns, and what is at the destination then. -/
structure Outcome where
  result : DownloadOneResult := {}
  err : Option Failure := none
  dest : Option (Node Bytes)
  deriving DecidableEq

/-- `downloadOne` from the removal of an existing destination on. -/
def Job.replace (acc : Bytes) : Outcome :=
  let out : DownloadOneResult := { bytesDone := acc.length, bytesTotal := j.src.size }
  let removed : Except Failure Bool :=
    if j.overwrite then
      removeExistingDownloadDestination j.destPath (statDest j.disk.statAgain j.dest) j.disk.remove
    else .ok false
  match removed with
  | .error err => { result := out, err := some err, dest := j.dest }
  | .ok removed =>
    match j.disk.rename with
    | some err => { result := out, err := some (.os err), dest := if removed then none else j.dest }
    | none => { result := out, dest := some (.file acc) }

def Job.downloadOne : Outcome :=
  match j.src.stat with
  | .error err => { err := some (.os err), dest := j.dest }
  | .ok true => { err := some (.sourceIsDir j.src.path), dest := j.dest }
  | .ok false =>
    let out : DownloadOneResult := { bytesTotal := j.src.size }
    match prepareDownloadDestination j.destPath j.overwrite (statDest j.disk.stat j.dest) with
    | some err => { result := out, err := some err, dest := j.dest }
    | none =>
      match j.disk.mkdirAll, j.disk.createTemp with
      | some err, _ | none, some err => { result := out, err := some (.os err), dest := j.dest }
      | none, none =>
        match j.copied with
        | .error err => { result := out, err := some err, dest := j.dest }
        | .ok acc =>
          match j.disk.close with
          | some err => { result := { out with bytesDone := acc.length }, err := some (.os err), dest := j.dest }
          | none => j.replace acc

variable (j) in
/-- **A success is the whole file, a failure changes nothing.** -/
def Job.Sound : Prop :=
  (j.downloadOne.err = none → j.downloadOne.dest = some (.file j.src.content)) ∧
    (j.downloadOne.err ≠ none → j.downloadOne.dest = j.dest)

variable (j) in
/-- Nothing fails before the temporary file is renamed. -/
structure Job.Arrives : Prop where
  stat : j.src.stat = .ok false
  prepare : prepareDownloadDestination j.destPath j.overwrite (statDest j.disk.stat j.dest) = none
  mkdirAll : j.disk.mkdirAll = none
  createTemp : j.disk.createTemp = none
  loop : ¬ j.LoopFails
  close : j.disk.close = none
  again : j.overwrite → j.disk.statAgain = none
  remove : j.overwrite → j.dest ≠ none → j.disk.remove = none

theorem removeExistingDownloadDestination_ok {remove : Option Err}
    {removed : Bool} (h : removeExistingDownloadDestination destPath (statDest stat dest) remove = .ok removed) :
    stat = none ∧ (dest ≠ none → remove = none) ∧ (removed = false → dest = none) := by
  unfold removeExistingDownloadDestination statDest at h
  cases stat with
  | some err => cases h
  | none =>
    rcases dest with _ | _ | data
    · simp
    · simp at h
    · cases remove with
      | some err => simp at h
      | none =>
        simp only [Option.map_some, reduceCtorEq, decide_false, Except.ok.injEq] at h
        simp [← h]

theorem prepare_none {overwrite : Bool}
    (h : prepareDownloadDestination destPath overwrite (statDest stat dest) = none) (hdest : dest ≠ none) :
    overwrite = true ∧ dest ≠ some .dir := by
  unfold prepareDownloadDestination statDest at h
  cases stat with
  | some err => cases h
  | none =>
    rcases dest with _ | _ | data
    · exact absurd rfl hdest
    · simp at h
    · simpa using h

/-- A download that fails before the rename leaves the destination alone. -/
theorem Job.of_not_arrives (h : ¬ j.Arrives) : j.downloadOne.err ≠ none ∧ j.downloadOne.dest = j.dest := by
  unfold Job.downloadOne
  split
  · simp
  · simp
  next hstat =>
  split
  · simp
  next hprepare =>
  split
  · simp
  · simp
  next hmkdir htemp =>
  split
  · simp
  next acc hcopied =>
  split
  · simp
  next hclose =>
  unfold Job.replace
  dsimp only
  split
  · simp
  next removed hremoved =>
  -- nothing is left that could have failed
  refine absurd ⟨hstat, hprepare, hmkdir, htemp, fun hloop => ?_, hclose, fun hover => ?_, fun hover => ?_⟩ h
  · obtain ⟨err, herr⟩ := error_of_loopFails hloop
    simp [hcopied] at herr
  all_goals rw [if_pos hover] at hremoved
  · exact (removeExistingDownloadDestination_ok hremoved).1
  · exact (removeExistingDownloadDestination_ok hremoved).2.1

/-- One that comes to the rename has removed what was at the destination. -/
theorem Job.of_arrives (h : j.Arrives) : ∃ acc, j.copied = .ok acc ∧
    j.downloadOne.err = j.disk.rename.map Failure.os ∧
    j.downloadOne.dest = if j.disk.rename = none then some (.file acc) else none := by
  cases hcopied : j.copied with
  | error err => exact absurd (loopFails_of_error .start hcopied) h.loop
  | ok acc =>
    refine ⟨acc, rfl, ?_⟩
    have heq : j.downloadOne = j.replace acc := by
      unfold Job.downloadOne
      rw [h.stat]
      rw [h.prepare, h.mkdirAll, h.createTemp, hcopied, h.close]
    rw [heq]
    unfold Job.replace
    dsimp only
    split
    · next err hremoved =>
      split at hremoved
      · next hover =>
        rw [h.again hover] at hremoved
        cases hdest : j.dest with
        | none => simp [hdest, removeExistingDownloadDestination, statDest] at hremoved
        | some node =>
          have hdir := (prepare_none h.prepare (by simp [hdest])).2
          have hremove := h.remove hover (by simp [hdest])
          simp [hdest, hremove, removeExistingDownloadDestination, statDest] at hremoved hdir
          simp [hdir] at hremoved
      · cases hremoved
    · next removed hremoved =>
      cases hrename : j.disk.rename with
      | none => simp
      | some err =>
        simp only [Option.map_some, reduceCtorEq, if_false, ite_eq_left_iff, Bool.not_eq_true, true_and]
        intro hkept
        split at hremoved
        · exact (removeExistingDownloadDestination_ok hremoved).2.2 hkept
        · next hover =>
          by_contra hdest
          exact hover (prepare_none h.prepare hdest).1

/-- **When a download is sound:** if nothing fails before the rename, it goes through and no read before the end of the
file gave nothing, or it fails and nothing was at the destination. -/
theorem Job.downloadOne_sound_iff (j : Job) :
    j.Sound ↔ (j.Arrives → (j.disk.rename = none → ¬ j.EmptyRead) ∧ (j.disk.rename ≠ none → j.dest = none)) := by
  unfold Job.Sound
  constructor
  · rintro ⟨hok, hfail⟩ harrives
    obtain ⟨acc, hcopied, herr, hdest⟩ := of_arrives harrives
    rw [herr, hdest] at hok hfail
    constructor
    · intro hrename
      rw [← copied_eq_iff hcopied]
      simpa [hrename] using hok
    · intro hrename
      simpa [hrename, eq_comm] using hfail
  · intro h
    by_cases harrives : j.Arrives
    · obtain ⟨acc, hcopied, herr, hdest⟩ := of_arrives harrives
      obtain ⟨hread, hgone⟩ := h harrives
      rw [herr, hdest]
      cases hrename : j.disk.rename with
      | none => simpa using (copied_eq_iff hcopied).mpr (hread hrename)
      | some err => simpa using (hgone (by simp [hrename])).symm
    · obtain ⟨herr, hdest⟩ := of_not_arrives harrives
      exact ⟨fun h => absurd h herr, fun _ => hdest⟩

/-! ## Two downloads that are not sound -/

/-- A file of three bytes; the read from the given offset gives nothing. -/
def emptyAt (hole : Nat) : Source where
  path := ascii "/m/a"
  content := ascii "abc"
  stat := .ok false
  read off := .ok { data := if off = hole then [] else ((ascii "abc").drop off), sched := [], eager := false, last := .eof }
  honest {off b} h := by
    cases h
    dsimp only
    split
    · exact nil_prefix
    · exact prefix_rfl

def shortJob : Job where
  src := emptyAt 0
  destPath := ascii "/home/a"
  overwrite := false
  dest := none
  readChunkLimit := 0
  disk := {}

/-- A file is overwritten, and the rename fails. -/
def lostJob : Job where
  src := emptyAt 3
  destPath := ascii "/home/a"
  overwrite := true
  dest := some (.file (ascii "old"))
  readChunkLimit := 0
  disk := { rename := some (.text "no space left on device") }

/-- **An empty read makes an empty file a success, and a failing rename loses the destination.** -/
theorem shortJob_lostJob_not_sound : ¬ shortJob.Sound ∧ ¬ lostJob.Sound := by
  constructor
  · intro h
    exact absurd (h.1 (by decide +kernel)) (by decide +kernel)
  · intro h
    exact absurd (h.2 (by decide +kernel)) (by decide +kernel)

end Download
