import Qrypt.Infra.Run
import Qrypt.Stream.Types
import Qrypt.Upload.Types

/-!
# Stream downloads

`pkg/core/download_stream_task.go`: the application opens the items of a batch, reads their bytes, acknowledges what it
has written and commits. An item that is closed or failed is opened again at the acknowledged offset. The read itself
is outside the lock of the batch, so that the item may be canceled meanwhile.

* `sound_of_reaches` — in order and once, in every state that is reached
-/

namespace Stream

open Infra Tasks Upload List Option

/-! ## Items and handles -/

/-- The errors of a download stream. -/
inductive DownloadStreamError where
  | notActive
  | taskCanceled
  | notFound
  | alreadyOpen
  | alreadySucceeded
  | terminal (state : ItemStateName)
  | handleClosed
  | ackNegative
  | ackExceeds
  | incomplete (acked size : Int)
  | source (err : Err)
  deriving DecidableEq

/-- A `ReadInto` that has given up the lock of the batch: the offset and the length of its read. -/
structure Reading where
  off : Int
  len : Nat
  deriving DecidableEq

/-- The bytes are some of the source, from the offset on; a negative offset is refused. -/
def Reading.Gives (r : Reading) (content bytes : Bytes) : Prop :=
  bytes.length ≤ r.len ∧ if r.off < 0 then bytes = [] else bytes <+: content.drop r.off.toNat

instance (r : Reading) (content bytes : Bytes) : Decidable (r.Gives content bytes) :=
  inferInstanceAs (Decidable (_ ∧ ite _ _ _))

/-- `DownloadStreamItemHandle`. The last three fields are its history: the acknowledged offset when it was opened, the
bytes returned, and how many of them it acknowledged. -/
structure OutputHandle where
  closed : Bool := false
  reading : Option Reading := none
  start : Int
  returned : Bytes := []
  acked : Int := 0
  deriving DecidableEq

/-- `downloadStreamItem`, with the handles that were opened for it. -/
structure DownloadItem where
  sourcePath : Bytes
  size : Int
  acked : Int := 0
  readOffset : Int := 0
  isOpen : Bool := false
  state : ItemStateName := .queued
  handles : List OutputHandle := []
  deriving DecidableEq

namespace DownloadItem

variable (it : DownloadItem)

/-- The state is not one that `itemLocked` refuses. -/
def Live : Prop := it.state ≠ .canceled ∧ it.state ≠ .failed

instance : Decidable it.Live := inferInstanceAs (Decidable (_ ∧ _))

/-- The part of `OpenDownloadStreamItem` that is about the item. -/
def openOutput : DownloadItem × Option DownloadStreamError :=
  if it.isOpen then (it, some .alreadyOpen)
  else if it.state = .succeeded then (it, some .alreadySucceeded)
  else if ¬ it.Live then (it, some (.terminal it.state))
  else
    ({ it with
        isOpen := true, state := .running, readOffset := it.acked
        handles := it.handles ++ [{ start := it.acked }] }, none)

def itemLocked (h : OutputHandle) : Option DownloadStreamError :=
  if h.closed then some .handleClosed
  else if ¬ it.Live then some (.terminal it.state)
  else none

/-- What is done with a handle in its lock; impossible while it reads. -/
def withHandle (k : Nat) (f : OutputHandle → DownloadItem × Option DownloadStreamError) :
    Option (DownloadItem × Option DownloadStreamError) :=
  match it.handles[k]? with
  | none => none
  | some h => if h.reading = none then some (f h) else none

def withItem (k : Nat) (f : OutputHandle → DownloadItem × Option DownloadStreamError) :
    Option (DownloadItem × Option DownloadStreamError) :=
  it.withHandle k fun h =>
    match it.itemLocked h with
    | some err => (it, some err)
    | none => f h

def setHandle (k : Nat) (h : OutputHandle) : DownloadItem := { it with handles := it.handles.set k h }

/-- `ReadInto`, until it gives up the lock of the batch. -/
def readBegin (k length : Nat) : Option (DownloadItem × Option DownloadStreamError) :=
  if length = 0 then it.withHandle k fun _ => (it, none)
  else
    it.withItem k fun h =>
      if it.size ≤ it.readOffset then (it, none)
      else
        let len := min length (it.size - it.readOffset).toNat
        (it.setHandle k { h with reading := some ⟨it.readOffset, len⟩ }, none)

/-- The rest of `ReadInto`. -/
def readEnd (content : Bytes) (k : Nat) (bytes : Bytes) (err : Option Err) :
    Option (DownloadItem × Option DownloadStreamError) :=
  match it.handles[k]? with
  | none => none
  | some h =>
    match h.reading with
    | none => none
    | some r =>
      if r.Gives content bytes then
        let it := it.setHandle k { h with reading := none, returned := h.returned ++ bytes }
        let readOffset := if ¬ h.closed ∧ 0 < bytes.length then wrap64 (it.readOffset + bytes.length) else it.readOffset
        some ({ it with readOffset }, err.map .source)
      else none

def ack (k : Nat) (bytesWritten : I64) : Option (DownloadItem × Option DownloadStreamError) :=
  if bytesWritten.val < 0 then it.withHandle k fun _ => (it, some .ackNegative)
  else
    it.withItem k fun h =>
      -- the sum is one of `int64`
      if it.readOffset < wrap64 (it.acked + bytesWritten) then (it, some .ackExceeds)
      else
        ({ it.setHandle k { h with acked := h.acked + bytesWritten } with
            acked := wrap64 (it.acked + bytesWritten), state := .running }, none)

def commit (k : Nat) : Option (DownloadItem × Option DownloadStreamError) :=
  it.withItem k fun h =>
    if it.acked ≠ it.size then (it, some (.incomplete it.acked it.size))
    else ({ it.setHandle k { h with closed := true } with isOpen := false, state := .succeeded }, none)

def fail (k : Nat) : Option (DownloadItem × Option DownloadStreamError) :=
  it.withItem k fun h =>
    ({ it.setHandle k { h with closed := true } with
        isOpen := false, state := .waitingOutput, readOffset := it.acked }, none)

def close (k : Nat) : Option (DownloadItem × Option DownloadStreamError) :=
  it.withHandle k fun h =>
    if h.closed then (it, none)
    else
      let it' := { it.setHandle k { h with closed := true } with isOpen := false }
      if it.state = .running then ({ it' with state := .waitingOutput, readOffset := it.acked }, none)
      else (it', none)

/-- The part of `cancelDownloadStreamItem` that is about the item. -/
def cancel : DownloadItem :=
  if it.state = .succeeded ∨ it.state = .canceled then it
  else { it with isOpen := false, readOffset := it.acked, state := .canceled }

/-- `markCanceled`, for one item. -/
def markCanceled : DownloadItem :=
  if it.state = .succeeded ∨ it.state = .failed then it else { it with isOpen := false, state := .failed }

/-- The convergence of `finishTask`, for one item. -/
def abandon : DownloadItem :=
  if isTerminalStreamItem (.named it.state) then it else { it with isOpen := false, state := .failed }

end DownloadItem

/-! ## Batches -/

/-- `downloadStreamBatch`; `ready` and `done` say whether the channels are closed, `active` whether the core knows it. -/
structure DownloadBatch where
  ids : List Bytes := []
  byID : Bytes → Option DownloadItem := fun _ => none
  ready : Bool := false
  done : Bool := false
  canceled : Bool := false
  active : Bool := true

/-- What a request tells about an item. -/
structure DownloadRequestItem where
  itemID : Bytes := []
  path : Bytes := []
  sourcePath : Bytes := []
  size : I64 := 0

/-- What `Stat` tells. -/
structure DownloadEntry where
  isDir : Bool
  size : I64

namespace DownloadRequestItem

def source (req : DownloadRequestItem) : Bytes :=
  cleanVirtualPath (if req.sourcePath = [] then req.path else req.sourcePath)

/-- The id of the `i`-th item. -/
def id (req : DownloadRequestItem) (i : Nat) : Bytes :=
  if req.itemID = [] then ascii "item-" ++ ascii (toString (i + 1)) else req.itemID

def sizeOf (req : DownloadRequestItem) (entry : DownloadEntry) : I64 :=
  if req.size.val ≤ 0 then entry.size else req.size

end DownloadRequestItem

inductive DownloadRequestError where
  | noItems
  | notAFile
  | stat (err : Err)
  | directory (path : Bytes)
  | duplicate (itemID : Bytes)
  deriving DecidableEq

namespace DownloadBatch

variable (b : DownloadBatch)

def set (id : Bytes) (it : DownloadItem) : DownloadBatch := { b with byID := Function.update b.byID id (some it) }

/-- `downloadStreamBatchFromRequest`, from the `i`-th item on. -/
def addItems (stat : Bytes → Except Err DownloadEntry) :
    Nat → List DownloadRequestItem → DownloadBatch → Except DownloadRequestError DownloadBatch
  | _, [], b => .ok b
  | i, req :: rest, b =>
    if req.source = ascii "/" then .error .notAFile
    else
      match stat req.source with
      | .error err => .error (.stat err)
      | .ok entry =>
        if entry.isDir then .error (.directory req.source)
        else if (b.byID (req.id i)).isSome then .error (.duplicate (req.id i))
        else
          let item : DownloadItem := { sourcePath := req.source, size := req.sizeOf entry }
          addItems stat (i + 1) rest ({ b with ids := b.ids ++ [req.id i] }.set (req.id i) item)

/-- `downloadStreamBatchFromRequest`. -/
def fromRequest (stat : Bytes → Except Err DownloadEntry) (items : List DownloadRequestItem) :
    Except DownloadRequestError DownloadBatch :=
  if items = [] then .error .noItems else addItems stat 0 items {}

/-- `closeDoneIfTerminalLocked`. -/
def closeDoneIfTerminal : DownloadBatch :=
  { b with done := b.done || b.ids.all fun id => (b.byID id).all fun it => isTerminalStreamItem (.named it.state) }

def mapItems (f : DownloadItem → DownloadItem) : DownloadBatch := { b with byID := fun id => (b.byID id).map f }

/-- The operations. A handle is told by its item and its number. -/
inductive Act where
  /-- The task starts to run. -/
  | start
  | openItem (id : Bytes)
  | readBegin (id : Bytes) (k length : Nat)
  | readEnd (id : Bytes) (k : Nat) (bytes : Bytes) (err : Option Err)
  | ack (id : Bytes) (k : Nat) (bytesWritten : I64)
  | commit (id : Bytes) (k : Nat)
  | fail (id : Bytes) (k : Nat)
  | close (id : Bytes) (k : Nat)
  | cancelItem (id : Bytes)
  /-- The context of the task is done. -/
  | cancelTask
  /-- The task ends after `done` was closed. -/
  | finish

def onItem (id : Bytes) (f : DownloadItem → Option (DownloadItem × Option DownloadStreamError)) :
    Option (DownloadBatch × Option DownloadStreamError) :=
  (b.byID id).bind fun it => (f it).map fun out => (b.set id out.1, out.2)

/-- An operation, if it is possible, and the error it returns. `content` is what the sources hold. -/
def step (content : Bytes → Bytes) : Act → Option (DownloadBatch × Option DownloadStreamError)
  | .start => some ({ b with ready := true }, none)
  | .openItem id =>
    if ¬ b.active then some (b, some .notActive)
    else if ¬ b.ready then none
    else if b.canceled then some (b, some .taskCanceled)
    else
      match b.byID id with
      | none => some (b, some .notFound)
      | some it => some (b.set id it.openOutput.1, it.openOutput.2)
  | .readBegin id k length => b.onItem id fun it => it.readBegin k length
  | .readEnd id k bytes err => b.onItem id fun it => it.readEnd (content it.sourcePath) k bytes err
  | .ack id k bytesWritten => b.onItem id fun it => it.ack k bytesWritten
  | .commit id k =>
    (b.onItem id fun it => it.commit k).map fun out => (if out.2 = none then out.1.closeDoneIfTerminal else out.1, out.2)
  | .fail id k => b.onItem id fun it => it.fail k
  | .close id k => b.onItem id fun it => it.close k
  | .cancelItem id =>
    if b.canceled then some (b, some .taskCanceled)
    else
      match b.byID id with
      | none => some (b, some .notFound)
      | some it =>
        if it.state = .succeeded ∨ it.state = .canceled then some (b, none)
        else some ((b.set id it.cancel).closeDoneIfTerminal, none)
  | .cancelTask => some ({ b.mapItems DownloadItem.markCanceled with canceled := true, active := false }, none)
  | .finish => if b.done then some ({ b.mapItems DownloadItem.abandon with active := false }, none) else none

def Step (content : Bytes → Bytes) (b : DownloadBatch) (a : Act) (b' : DownloadBatch) : Prop :=
  ∃ err, b.step content a = some (b', err)

end DownloadBatch

/-! ## In order and once -/

namespace DownloadItem

/-- The bytes the handles of an item acknowledged, joined in the order in which the handles were opened. -/
def joined (it : DownloadItem) : Bytes := it.handles.flatMap fun h => h.returned.take h.acked.toNat

/-- What a consumer of an item may rely on. -/
structure Sound (content : Bytes) (it : DownloadItem) : Prop where
  offsets : 0 ≤ it.acked ∧ it.acked ≤ it.readOffset ∧ it.readOffset ≤ it.size
  single : ∀ {k k' : Nat} {h h' : OutputHandle}, it.handles[k]? = some h → it.handles[k']? = some h' →
    h.closed = false → h'.closed = false → k = k'
  inOrder : ∀ h ∈ it.handles, 0 ≤ h.start ∧ h.returned <+: content.drop h.start.toNat
  resumed : ∀ {k : Nat} {h : OutputHandle}, it.handles[k]? = some h → h.start = ((it.handles.take k).map OutputHandle.acked).sum
  committed : it.state = .succeeded → (it.handles.map OutputHandle.acked).sum = it.size ∧
    it.joined = content.take it.size.toNat ∧ it.size ≤ content.length

end DownloadItem

/-- The handles of an item from offset `a` to `e`: each starts where the bytes acknowledged before it end, and
acknowledges some of the bytes it returned. -/
def Chain (content : Bytes) : Int → List OutputHandle → Int → Prop
  | a, [], e => a = e
  | a, h :: rest, e =>
    (h.start = a ∧ h.returned <+: content.drop a.toNat ∧ 0 ≤ h.acked ∧ h.acked ≤ h.returned.length) ∧
      Chain content (a + h.acked) rest e

namespace Chain

variable {content : Bytes} {a e : Int} {hs : List OutputHandle}

theorem append_iff (h : OutputHandle) : Chain content a (hs ++ [h]) e ↔
    ∃ m, Chain content a hs m ∧ (h.start = m ∧ h.returned <+: content.drop m.toNat ∧ 0 ≤ h.acked ∧
      h.acked ≤ h.returned.length) ∧ m + h.acked = e := by
  induction hs generalizing a with
  | nil =>
    simp only [nil_append, Chain]
    grind
  | cons h' hs ih =>
    simp only [cons_append, Chain, ih]
    grind

variable {h h' : OutputHandle}

/-- The last handle may be replaced by one that starts at the same place. -/
theorem replace {e' : Int} (hc : Chain content a (hs ++ [h]) e) (hstart : h'.start = h.start)
    (hpre : h'.returned <+: content.drop h.start.toNat) (hnonneg : 0 ≤ h'.acked)
    (hle : h'.acked ≤ h'.returned.length) (he : e' = e - h.acked + h'.acked) : Chain content a (hs ++ [h']) e' := by
  obtain ⟨m, hm, ⟨hs, -⟩, rfl⟩ := (append_iff h).mp hc
  refine (append_iff h').mpr ⟨m, hm, ⟨hstart.trans hs, hs ▸ hpre, hnonneg, hle⟩, ?_⟩
  omega

theorem same (hc : Chain content a (hs ++ [h]) e) (hstart : h'.start = h.start)
    (hreturned : h'.returned = h.returned) (hacked : h'.acked = h.acked) : Chain content a (hs ++ [h']) e := by
  simpa only [append_iff, hstart, hreturned, hacked] using hc

theorem last (hc : Chain content a (hs ++ [h]) e) :
    h.start + h.acked = e ∧ h.returned <+: content.drop h.start.toNat ∧ 0 ≤ h.acked ∧ h.acked ≤ h.returned.length := by
  obtain ⟨m, -, ⟨rfl, hrest⟩, rfl⟩ := (append_iff h).mp hc
  exact ⟨rfl, hrest⟩

theorem start_eq (hc : Chain content a hs e) {k : Nat} (hk : hs[k]? = some h) :
    h.start = a + ((hs.take k).map OutputHandle.acked).sum := by
  induction hs generalizing a k with
  | nil => simp at hk
  | cons h' hs ih =>
    cases k with
    | zero =>
      obtain rfl := some.inj (by simpa using hk)
      simpa using hc.1.1
    | succ k =>
      simp only [take_succ_cons, map_cons, sum_cons]
      rw [ih hc.2 (by simpa using hk)]
      omega

theorem inOrder (hc : Chain content a hs e) (ha : 0 ≤ a) :
    ∀ h ∈ hs, 0 ≤ h.start ∧ h.returned <+: content.drop h.start.toNat := by
  induction hs generalizing a with
  | nil => simp
  | cons h' hs ih =>
    obtain ⟨⟨rfl, hpre, hnonneg, -⟩, hrest⟩ := hc
    exact forall_mem_cons.mpr ⟨⟨ha, hpre⟩, ih hrest (by omega)⟩

/-- **The acknowledged bytes are those of the source** between the two offsets. -/
theorem joined (hc : Chain content a hs e) (ha : 0 ≤ a) (hle : a ≤ content.length) :
    content.take a.toNat ++ (hs.flatMap fun h => h.returned.take h.acked.toNat) = content.take e.toNat ∧
      e ≤ content.length ∧ (hs.map OutputHandle.acked).sum = e - a := by
  induction hs generalizing a with
  | nil =>
    obtain rfl : a = e := hc
    simpa using hle
  | cons h hs ih =>
    obtain ⟨⟨-, hpre, hnonneg, hacked⟩, hrest⟩ := hc
    have hlen := hpre.length_le
    rw [length_drop] at hlen
    obtain ⟨hjoin, hend, hsum⟩ := ih hrest (by omega) (by omega)
    refine ⟨?_, hend, by simp only [map_cons, sum_cons, hsum]; omega⟩
    have htake : content.take (a + h.acked).toNat = content.take a.toNat ++ h.returned.take h.acked.toNat := by
      rw [prefix_iff_eq_take.mp hpre, take_take, Int.toNat_add ha hnonneg, take_add,
        Nat.min_eq_left (by omega)]
    rw [← hjoin, htake, flatMap_cons, append_assoc]

end Chain

/-! ## The invariant of an item -/

namespace DownloadItem

variable {content : Bytes} {it : DownloadItem} {k : Nat} {h : OutputHandle}

/-- Only the last handle may be open; while the item is not refused it is at the read offset, or one read behind. -/
structure Inv (content : Bytes) (it : DownloadItem) : Prop where
  fits : it.size < 2 ^ 63
  nonneg : 0 ≤ it.acked
  acked_le : it.acked ≤ it.readOffset
  read_le : it.readOffset ≤ it.size
  chain : Chain content 0 it.handles it.acked
  closed : ∀ h ∈ it.handles.dropLast, h.closed = true
  idle : ∀ h ∈ it.handles, h.closed = true → h.reading = none
  notOpen : it.isOpen = false → it.Live → ∀ h ∈ it.handles, h.closed = true
  position : it.Live → ∀ h ∈ it.handles, h.closed = false → it.readOffset = h.start + h.returned.length
  reading : ∀ h ∈ it.handles, ∀ r, h.reading = some r →
    r.off = h.start + h.returned.length ∧ it.readOffset ≤ r.off ∧ r.off + r.len ≤ it.size
  succeeded : it.state = .succeeded → it.acked = it.size ∧ ∀ h ∈ it.handles, h.closed = true

theorem Inv.last (hi : it.Inv content) (hk : it.handles[k]? = some h) (hopen : h.closed = false) :
    ∃ init, it.handles = init ++ [h] ∧ k = init.length ∧ ∀ h' ∈ init, h'.closed = true := by
  obtain ⟨hlt, hget⟩ := List.getElem?_eq_some_iff.mp hk
  have hne : it.handles ≠ [] := ne_nil_of_length_pos (by omega)
  have hlast : k = it.handles.length - 1 := by
    by_contra hne'
    have hmem : h ∈ it.handles.dropLast := by
      rw [mem_iff_getElem?]
      refine ⟨k, ?_⟩
      rw [getElem?_dropLast, if_pos (by omega), hk]
    simp [hi.closed h hmem] at hopen
  refine ⟨it.handles.dropLast, ?_, by simpa using hlast, hi.closed⟩
  have hget' : it.handles.getLast hne = h := by
    rw [getLast_eq_getElem, ← hget]
    simp only [hlast]
  rw [← hget', dropLast_append_getLast]

theorem Inv.sound (hi : it.Inv content) : it.Sound content where
  offsets := ⟨hi.nonneg, hi.acked_le, hi.read_le⟩
  single {k k' h h'} hk hk' hopen hopen' := by
    obtain ⟨init, heq, rfl, -⟩ := hi.last hk hopen
    obtain ⟨init', heq', rfl, -⟩ := hi.last hk' hopen'
    have hlen := congrArg length (heq.symm.trans heq')
    simpa using hlen
  inOrder := hi.chain.inOrder (Int.le_refl 0)
  resumed hk := by simpa using hi.chain.start_eq hk
  committed hstate := by
    obtain ⟨hjoin, hend, hsum⟩ := hi.chain.joined (Int.le_refl 0) (by omega)
    obtain ⟨hacked, -⟩ := hi.succeeded hstate
    rw [hacked] at hjoin hend hsum
    exact ⟨by simpa using hsum, by simpa [DownloadItem.joined] using hjoin, hend⟩

/-- What the operations do to an item: the invariant still holds, and the source is the same. -/
def Keeps (content : Bytes) (it it' : DownloadItem) : Prop := it'.Inv content ∧ it'.sourcePath = it.sourcePath

theorem Inv.keeps (hi : it.Inv content) : it.Keeps content it := ⟨hi, rfl⟩

variable {it' : DownloadItem}

theorem Keeps.inv {content : Bytes → Bytes} (hk : it.Keeps (content it.sourcePath) it') :
    it'.Inv (content it'.sourcePath) := hk.2 ▸ hk.1

variable {init : List OutputHandle}

/-- What a changed item has to meet once all handles but the last one are closed. -/
theorem Inv.of_last {h' : OutputHandle}
    (hhandles : it'.handles = init ++ [h']) (hclosed : ∀ h ∈ init, h.closed = true)
    (hquiet : ∀ h ∈ init, h.reading = none) (hfits : it'.size < 2 ^ 63) (hnonneg : 0 ≤ it'.acked)
    (hacked : it'.acked ≤ it'.readOffset) (hread : it'.readOffset ≤ it'.size)
    (hchain : Chain content 0 (init ++ [h']) it'.acked) (hidle : h'.closed = true → h'.reading = none)
    (hopen : it'.isOpen = false → it'.Live → h'.closed = true)
    (hposition : it'.Live → h'.closed = false → it'.readOffset = h'.start + h'.returned.length)
    (hreading : ∀ r, h'.reading = some r →
      r.off = h'.start + h'.returned.length ∧ it'.readOffset ≤ r.off ∧ r.off + r.len ≤ it'.size)
    (hsucceeded : it'.state = .succeeded → it'.acked = it'.size ∧ h'.closed = true) : it'.Inv content := by
  have hall {P : OutputHandle → Prop} (hinit : ∀ h ∈ init, P h) (hlast : P h') : ∀ h ∈ it'.handles, P h := by
    simpa [hhandles, or_imp, forall_and] using And.intro hinit hlast
  exact {
    fits := hfits
    nonneg := hnonneg
    acked_le := hacked
    read_le := hread
    chain := hhandles ▸ hchain
    closed := by simpa [hhandles] using hclosed
    idle := hall (fun h hmem _ => hquiet h hmem) hidle
    notOpen := fun hnot hlive => hall hclosed (hopen hnot hlive)
    position := fun hlive => hall (fun h hmem => by simp [hclosed h hmem]) (hposition hlive)
    reading := hall (fun h hmem => by simp [hquiet h hmem]) hreading
    succeeded := fun hstate => ⟨(hsucceeded hstate).1, hall hclosed (hsucceeded hstate).2⟩ }

theorem Inv.quiet (hi : it.Inv content) (heq : it.handles = init ++ [h])
    (hclosed : ∀ h ∈ init, h.closed = true) : ∀ h ∈ init, h.reading = none :=
  fun h hmem => hi.idle h (heq ▸ mem_append_left _ hmem) (hclosed h hmem)

/-! ## The operations keep it -/

variable {out : DownloadItem × Option DownloadStreamError}
  {f : OutputHandle → DownloadItem × Option DownloadStreamError}

theorem withHandle_some
    (hout : it.withHandle k f = some out) : ∃ h, it.handles[k]? = some h ∧ h.reading = none ∧ f h = out := by
  unfold withHandle at hout
  split at hout
  · cases hout
  next h hk =>
    split at hout
    · next hreading => exact ⟨h, hk, hreading, some.inj hout⟩
    · cases hout

/-- A handle whose item is not refused is open, and the last one. -/
theorem Inv.withItem (hi : it.Inv content) (hout : it.withItem k f = some out)
    (hf : ∀ init h, it.handles = init ++ [h] → k = init.length → (∀ h' ∈ init, h'.closed = true) →
      h.closed = false → h.reading = none → it.Live → it.Keeps content (f h).1) : it.Keeps content out.1 := by
  obtain ⟨h, hk, hreading, rfl⟩ := withHandle_some hout
  split
  · exact hi.keeps
  next hlocked =>
    unfold itemLocked at hlocked
    split at hlocked
    · cases hlocked
    next hopen =>
      obtain ⟨init, heq, hk, hclosed⟩ := hi.last hk (by simpa using hopen)
      exact hf init h heq hk hclosed (by simpa using hopen) hreading (by simpa using hlocked)

theorem handles_setHandle (heq : it.handles = init ++ [h]) (h' : OutputHandle) :
    (it.setHandle init.length h').handles = init ++ [h'] := by
  simp [setHandle, heq]

section

variable (hi : it.Inv content)
include hi

theorem Inv.openOutput : it.Keeps content it.openOutput.1 := by
  unfold DownloadItem.openOutput
  split
  · exact hi.keeps
  next hopen =>
  split
  · exact hi.keeps
  split
  · exact hi.keeps
  next hsucceeded hlive =>
    have hall := hi.notOpen (by simpa using hopen) (not_not.mp hlive)
    have hquiet := fun h hmem => hi.idle h hmem (hall h hmem)
    refine ⟨Inv.of_last rfl hall hquiet hi.fits hi.nonneg (Int.le_refl _)
      (Int.le_trans hi.acked_le hi.read_le) ?_ ?_ ?_ ?_ ?_ ?_, rfl⟩
    · exact (Chain.append_iff _).mpr ⟨it.acked, hi.chain, by simp, by simp⟩
    · simp
    · simp
    · simp
    · simp
    · simp

theorem Inv.readBegin {length : Nat} (hout : it.readBegin k length = some out) : it.Keeps content out.1 := by
  unfold DownloadItem.readBegin at hout
  split at hout
  · obtain ⟨h, -, -, rfl⟩ := withHandle_some hout
    exact hi.keeps
  · refine hi.withItem hout fun init h heq hk hclosed hopen hreading hlive => ?_
    split
    · exact hi.keeps
    next hmore =>
      subst hk
      have hmem : h ∈ it.handles := by simp [heq]
      have hposition := hi.position hlive h hmem hopen
      refine ⟨Inv.of_last (handles_setHandle heq _) hclosed (hi.quiet heq hclosed) hi.fits hi.nonneg hi.acked_le
        hi.read_le ((heq ▸ hi.chain).same rfl rfl rfl) ?_ ?_ ?_ ?_ ?_, rfl⟩
      · simp [hopen]
      · exact fun hnot hlive => hi.notOpen hnot hlive h hmem
      · exact fun _ _ => hposition
      · intro r hr
        obtain rfl := some.inj hr
        exact ⟨hposition, Int.le_refl _, by simp only [setHandle]; omega⟩
      · intro hstate
        exact ⟨(hi.succeeded hstate).1, (hi.succeeded hstate).2 h hmem⟩

theorem Inv.readEnd {bytes : Bytes} {err : Option Err}
    (hout : it.readEnd content k bytes err = some out) : it.Keeps content out.1 := by
  unfold DownloadItem.readEnd at hout
  split at hout
  · cases hout
  next h hk =>
  split at hout
  · cases hout
  next r hr =>
  split at hout
  · next hbytes =>
    -- the handle is open, because it reads
    have hmem := mem_of_getElem? hk
    have hopen : h.closed = false := by
      by_contra hclosed
      simp [hi.idle h hmem (by simpa using hclosed)] at hr
    obtain ⟨init, heq, rfl, hclosed⟩ := hi.last hk hopen
    obtain ⟨hoff, hbehind, hend⟩ := hi.reading h hmem r hr
    have hchain := heq ▸ hi.chain
    obtain ⟨-, hpre, hnonneg, hle⟩ := hchain.last
    have hzero := hi.nonneg
    have hfits := hi.fits
    have hacked := hi.acked_le
    obtain ⟨hlen, hbytes⟩ := hbytes
    rw [if_neg (by omega)] at hbytes
    have hstart := (hi.chain.inOrder (Int.le_refl 0) h hmem).1
    have hpre' : h.returned ++ bytes <+: content.drop h.start.toNat := by
      obtain ⟨rest, hrest⟩ := hpre
      have hdrop : content.drop r.off.toNat = rest := by
        rw [hoff, Int.toNat_add hstart (by omega), Int.toNat_natCast, ← drop_drop, ← hrest, drop_left]
      rw [← hrest]
      exact (prefix_append_right_inj _).mpr (hdrop ▸ hbytes)
    -- with nothing read the offset is not touched
    have hoffset : (if ¬ h.closed = true ∧ 0 < bytes.length then wrap64 (it.readOffset + bytes.length)
        else it.readOffset) = it.readOffset + bytes.length := by
      split
      · exact wrap64_eq ⟨by omega, by omega⟩
      next hnone =>
        have hempty : bytes.length = 0 := by simpa [hopen] using hnone
        omega
    obtain rfl := some.inj hout
    refine ⟨Inv.of_last (handles_setHandle heq _) hclosed (hi.quiet heq hclosed) hi.fits hi.nonneg ?_ ?_ ?_ ?_ ?_ ?_ ?_ ?_,
      rfl⟩
    · exact (show it.acked ≤ it.readOffset + bytes.length by omega).trans_eq hoffset.symm
    · exact hoffset.trans_le (show it.readOffset + bytes.length ≤ it.size by omega)
    · exact hchain.replace rfl hpre' hnonneg (by simp; omega) (Int.sub_add_cancel _ _).symm
    · simp
    · exact fun hnot hlive => hi.notOpen hnot hlive h hmem
    · intro hlive _
      have hposition := hi.position hlive h hmem hopen
      exact hoffset.trans (by simp; omega)
    · simp
    · intro hstate
      exact ⟨(hi.succeeded hstate).1, (hi.succeeded hstate).2 h hmem⟩
  · cases hout

theorem Inv.ack {bytesWritten : I64} (hfits : it.acked + bytesWritten < 2 ^ 63)
    (hout : it.ack k bytesWritten = some out) : it.Keeps content out.1 := by
  unfold DownloadItem.ack at hout
  split at hout
  · obtain ⟨h, -, -, rfl⟩ := withHandle_some hout
    exact hi.keeps
  next hnegative =>
    refine hi.withItem hout fun init h heq hk hclosed hopen hreading hlive => ?_
    have hzero := hi.nonneg
    have hsum : wrap64 (it.acked + bytesWritten) = it.acked + bytesWritten := wrap64_eq ⟨by omega, hfits⟩
    rw [hsum]
    split
    · exact hi.keeps
    next hread =>
      subst hk
      have hmem : h ∈ it.handles := by simp [heq]
      have hposition := hi.position hlive h hmem hopen
      have hchain := heq ▸ hi.chain
      obtain ⟨hend, hpre, hnonneg, hle⟩ := hchain.last
      refine ⟨Inv.of_last (handles_setHandle heq _) hclosed (hi.quiet heq hclosed) hi.fits ?_ ?_ hi.read_le ?_ ?_ ?_ ?_ ?_ ?_,
        rfl⟩
      · exact Int.add_nonneg hzero (by omega)
      · exact Int.not_lt.mp hread
      · exact hchain.replace rfl hpre (by dsimp only; omega) (by dsimp only; omega) (by dsimp only; omega)
      · simp [hopen]
      · exact fun hnot _ => hi.notOpen hnot hlive h hmem
      · exact fun _ _ => hposition
      · simp [hreading]
      · simp

theorem Inv.commit (hout : it.commit k = some out) : it.Keeps content out.1 := by
  refine hi.withItem hout fun init h heq hk hclosed hopen hreading hlive => ?_
  split
  · exact hi.keeps
  next hsize =>
    subst hk
    refine ⟨Inv.of_last (handles_setHandle heq _) hclosed (hi.quiet heq hclosed) hi.fits hi.nonneg hi.acked_le hi.read_le
      ((heq ▸ hi.chain).same rfl rfl rfl) ?_ ?_ ?_ ?_ ?_, rfl⟩
    · exact fun _ => hreading
    · simp
    · simp
    · simp [hreading]
    · exact fun _ => ⟨not_not.mp hsize, rfl⟩

/-- Closing a handle leaves the item where it is, or puts it back to the acknowledged offset. -/
theorem Inv.closing (heq : it.handles = init ++ [h]) (hclosed : ∀ h ∈ init, h.closed = true) (hreading : h.reading = none)
    (hhandles : it'.handles = init ++ [{ h with closed := true }]) (hsize : it'.size = it.size)
    (hacked : it'.acked = it.acked) (hread : it'.readOffset = it.acked ∨ it'.readOffset = it.readOffset)
    (hstate : it'.state ≠ .succeeded ∨ it'.state = it.state) : it'.Inv content := by
  have hle := hi.acked_le
  have hle' := hi.read_le
  refine Inv.of_last hhandles hclosed (hi.quiet heq hclosed) (hsize ▸ hi.fits) (hacked ▸ hi.nonneg) (by omega) (by omega)
    (hacked ▸ (heq ▸ hi.chain).same rfl rfl rfl) ?_ ?_ ?_ ?_ ?_
  · exact fun _ => hreading
  · simp
  · simp
  · simp [hreading]
  · intro hsucceeded
    refine ⟨?_, rfl⟩
    rcases hstate with hstate | hstate
    · exact absurd hsucceeded hstate
    · rw [hacked, hsize]
      exact (hi.succeeded (hstate ▸ hsucceeded)).1

theorem Inv.fail (hout : it.fail k = some out) : it.Keeps content out.1 := by
  refine hi.withItem hout fun init h heq hk hclosed hopen hreading hlive => ?_
  subst hk
  exact ⟨hi.closing heq hclosed hreading (handles_setHandle heq _) rfl rfl (.inl rfl) (.inl (by simp)), rfl⟩

theorem Inv.close (hout : it.close k = some out) : it.Keeps content out.1 := by
  obtain ⟨h, hk, hreading, rfl⟩ := withHandle_some hout
  split
  · exact hi.keeps
  next hopen =>
    obtain ⟨init, heq, rfl, hclosed⟩ := hi.last hk (by simpa using hopen)
    split
    · exact ⟨hi.closing heq hclosed hreading (handles_setHandle heq _) rfl rfl (.inl rfl) (.inl (by simp)), rfl⟩
    · exact ⟨hi.closing heq hclosed hreading (handles_setHandle heq _) rfl rfl (.inr rfl) (.inr rfl), rfl⟩

theorem Inv.refuse (hhandles : it'.handles = it.handles) (hsize : it'.size = it.size) (hacked : it'.acked = it.acked)
    (hread : it'.readOffset = it.acked ∨ it'.readOffset = it.readOffset)
    (hstate : it'.state = .canceled ∨ it'.state = .failed) : it'.Inv content := by
  have hle := hi.acked_le
  have hle' := hi.read_le
  have hrefused : ¬ it'.Live := fun hlive => hstate.elim hlive.1 hlive.2
  exact {
    fits := hsize ▸ hi.fits
    nonneg := hacked ▸ hi.nonneg
    acked_le := by omega
    read_le := by omega
    chain := hhandles ▸ hacked ▸ hi.chain
    closed := hhandles ▸ hi.closed
    idle := hhandles ▸ hi.idle
    notOpen := fun _ hlive => absurd hlive hrefused
    position := fun hlive => absurd hlive hrefused
    reading := by
      intro h hmem r hr
      obtain ⟨hoff, hbehind, hend⟩ := hi.reading h (hhandles ▸ hmem) r hr
      exact ⟨hoff, by omega, by omega⟩
    succeeded := fun hsucceeded => by rcases hstate with hstate | hstate <;> simp [hstate] at hsucceeded }

theorem Inv.cancel : it.Keeps content it.cancel := by
  unfold DownloadItem.cancel
  split
  · exact hi.keeps
  · exact ⟨hi.refuse rfl rfl rfl (.inl rfl) (.inl rfl), rfl⟩

theorem Inv.markCanceled : it.Keeps content it.markCanceled := by
  unfold DownloadItem.markCanceled
  split
  · exact hi.keeps
  · exact ⟨hi.refuse rfl rfl rfl (.inr rfl) (.inr rfl), rfl⟩

theorem Inv.abandon : it.Keeps content it.abandon := by
  unfold DownloadItem.abandon
  split
  · exact hi.keeps
  · exact ⟨hi.refuse rfl rfl rfl (.inr rfl) (.inr rfl), rfl⟩

end

end DownloadItem

/-! ## Runs of a batch -/

namespace DownloadBatch

variable {content : Bytes → Bytes} {b b' : DownloadBatch} {a : Act} {err : Option DownloadStreamError}

/-- Every item meets its invariant. -/
def Inv (content : Bytes → Bytes) (b : DownloadBatch) : Prop :=
  ∀ id it, b.byID id = some it → it.Inv (content it.sourcePath)

/-- The item and the count of an `Ack`. -/
def Act.acks : Act → Option (Bytes × I64)
  | .ack id _ bytesWritten => some (id, bytesWritten)
  | _ => none

/-- The condition on an operation: an acknowledged count does not overflow. -/
def Fits (b : DownloadBatch) (a : Act) : Prop := ∀ x ∈ a.acks, ∀ it ∈ b.byID x.1, it.acked + x.2 < 2 ^ 63

instance (b : DownloadBatch) (a : Act) : Decidable (b.Fits a) :=
  inferInstanceAs (Decidable (∀ x ∈ a.acks, ∀ it ∈ b.byID x.1, it.acked + x.2 < 2 ^ 63))

theorem Inv.set (hi : b.Inv content) {id : Bytes} {it : DownloadItem} (hit : it.Inv (content it.sourcePath)) :
    (b.set id it).Inv content := by
  intro id' it' hid
  by_cases heq : id' = id
  · subst heq
    simp only [DownloadBatch.set, Function.update_self, some.injEq] at hid
    exact hid ▸ hit
  · simp only [DownloadBatch.set, Function.update_of_ne heq] at hid
    exact hi id' it' hid

theorem Inv.mapItems (hi : b.Inv content) {f : DownloadItem → DownloadItem}
    (hf : ∀ it : DownloadItem, it.Inv (content it.sourcePath) → it.Keeps (content it.sourcePath) (f it)) :
    (b.mapItems f).Inv content := by
  intro id it hid
  obtain ⟨it', hit', rfl⟩ := map_eq_some_iff.mp hid
  exact (hf it' (hi id it' hit')).inv

/-- An operation on an item keeps the invariant of the batch if it keeps the one of the item. -/
theorem Inv.onItem (hi : b.Inv content) {id : Bytes}
    {f : DownloadItem → Option (DownloadItem × Option DownloadStreamError)} (hout : b.onItem id f = some (b', err))
    (hf : ∀ it out, b.byID id = some it → it.Inv (content it.sourcePath) → f it = some out →
      it.Keeps (content it.sourcePath) out.1) : b'.Inv content := by
  obtain ⟨it, hit, hmap⟩ := bind_eq_some_iff.mp hout
  obtain ⟨out, hfit, heq⟩ := map_eq_some_iff.mp hmap
  cases heq
  exact hi.set (hf it out hit (hi id it hit) hfit).inv

/-- **One operation** keeps the invariant. -/
theorem Inv.step (hi : b.Inv content) (hfits : b.Fits a) (hstep : Step content b a b') : b'.Inv content := by
  obtain ⟨err, hstep⟩ := hstep
  cases a with
  | start =>
    cases hstep
    exact hi
  | openItem id =>
    simp only [DownloadBatch.step] at hstep
    split at hstep
    · cases hstep
      exact hi
    split at hstep
    · cases hstep
    split at hstep
    · cases hstep
      exact hi
    split at hstep
    · cases hstep
      exact hi
    next it hit =>
      cases hstep
      exact hi.set (hi id it hit).openOutput.inv
  | readBegin id k length => exact hi.onItem hstep fun it out _ hinv hout => hinv.readBegin hout
  | readEnd id k bytes err => exact hi.onItem hstep fun it out _ hinv hout => hinv.readEnd hout
  | ack id k bytesWritten => exact hi.onItem hstep fun it out hit hinv hout => hinv.ack (hfits _ rfl it hit) hout
  | commit id k =>
    obtain ⟨⟨b₁, err₁⟩, hitem, heq⟩ := map_eq_some_iff.mp hstep
    have hi₁ : b₁.Inv content := hi.onItem hitem fun it out _ hinv hout => hinv.commit hout
    cases heq
    -- closing the channel does not touch the items
    dsimp only
    split <;> exact hi₁
  | fail id k => exact hi.onItem hstep fun it out _ hinv hout => hinv.fail hout
  | close id k => exact hi.onItem hstep fun it out _ hinv hout => hinv.close hout
  | cancelItem id =>
    simp only [DownloadBatch.step] at hstep
    split at hstep
    · cases hstep
      exact hi
    split at hstep
    · cases hstep
      exact hi
    next it hit =>
      split at hstep
      · cases hstep
        exact hi
      · cases hstep
        have hset : (b.set id it.cancel).Inv content :=
          hi.set (hi id it hit).cancel.inv
        exact hset
  | cancelTask =>
    cases hstep
    exact hi.mapItems fun it hinv => hinv.markCanceled
  | finish =>
    simp only [DownloadBatch.step, ite_none_right_eq_some] at hstep
    obtain ⟨-, hstep⟩ := hstep
    cases hstep
    exact hi.mapItems fun it hinv => hinv.abandon

theorem inv_addItems {stat : Bytes → Except Err DownloadEntry} {items : List DownloadRequestItem} {i : Nat}
    (hstat : ∀ path entry, stat path = .ok entry → 0 ≤ entry.size.val) (hi : b.Inv content)
    (hb : addItems stat i items b = .ok b') : b'.Inv content := by
  induction items generalizing i b with
  | nil =>
    cases hb
    exact hi
  | cons req rest ih =>
    simp only [addItems] at hb
    split at hb
    · cases hb
    split at hb
    · cases hb
    next entry hentry =>
    split at hb
    · cases hb
    split at hb
    · cases hb
    have hsize : 0 ≤ (req.sizeOf entry).val := by
      unfold DownloadRequestItem.sizeOf
      split
      · exact hstat _ entry hentry
      · omega
    have hfresh : DownloadItem.Inv (content req.source) { sourcePath := req.source, size := req.sizeOf entry } := {
      fits := (req.sizeOf entry).property.2
      nonneg := Int.le_refl 0
      acked_le := Int.le_refl 0
      read_le := hsize
      chain := rfl
      closed := by simp
      idle := by simp
      notOpen := by simp
      position := by simp
      reading := by simp
      succeeded := by simp }
    have hids : DownloadBatch.Inv content { b with ids := b.ids ++ [req.id i] } := hi
    exact ih (hids.set hfresh) hb

/-- **Every byte once and in order**, whatever is done with the items of a batch, as long as no acknowledged count
overflows. -/
theorem sound_of_reaches (content : Bytes → Bytes) (stat : Bytes → Except Err DownloadEntry)
    (items : List DownloadRequestItem) (b₀ b : DownloadBatch) (hb : fromRequest stat items = .ok b₀)
    (hstat : ∀ path entry, stat path = .ok entry → 0 ≤ entry.size.val)
    (hrun : Reaches (Step content) Fits b₀ b) : ∀ id it, b.byID id = some it → it.Sound (content it.sourcePath) := by
  have hinit : b₀.Inv content := by
    unfold fromRequest at hb
    split at hb
    · cases hb
    · exact inv_addItems hstat (fun id it hid => by cases hid) hb
  have hinv : b.Inv content := hrun.invariant (Inv content) hinit fun _ _ _ hi hfits hstep => hi.step hfits hstep
  exact fun id it hit => (hinv id it hit).sound

end DownloadBatch

/-! ## An overflow -/

namespace DownloadBatch

/-- The batch after some operations, as long as they are possible and meet the check. -/
def run (content : Bytes → Bytes) (check : DownloadBatch → Act → Bool) (b : DownloadBatch) :
    List Act → Option DownloadBatch
  | [] => some b
  | a :: acts => if check b a then (b.step content a).bind fun out => out.1.run content check acts else none

theorem reaches_run {content : Bytes → Bytes} {check : DownloadBatch → Act → Bool} {ok : DownloadBatch → Act → Prop}
    (hok : ∀ b a, check b a = true → ok b a) {b b' : DownloadBatch} {acts : List Act}
    (h : b.run content check acts = some b') : Reaches (Step content) ok b b' := by
  induction acts generalizing b with
  | nil => exact some.inj h ▸ .refl b
  | cons a acts ih =>
    simp only [run, ite_none_right_eq_some] at h
    obtain ⟨hcheck, h⟩ := h
    obtain ⟨out, hout, hrest⟩ := bind_eq_some_iff.mp h
    exact .head (hok b a hcheck) ⟨out.2, hout⟩ (ih hrest)

theorem fits64_one : Fits64 1 := by decide

theorem fits64_largest : Fits64 (2 ^ 63 - 1) := by decide

def oneByte : Bytes → Bytes := fun _ => ascii "x"

def statOne : Bytes → Except Err DownloadEntry := fun _ => .ok { isDir := false, size := ⟨1, fits64_one⟩ }

def acknowledged : List Act :=
  [.start, .openItem (ascii "item-1"), .readBegin (ascii "item-1") 0 1,
    .readEnd (ascii "item-1") 0 (ascii "x") none, .ack (ascii "item-1") 0 ⟨1, fits64_one⟩]

/-- The batch of one file, after some operations. -/
def afterActs (check : DownloadBatch → Act → Bool) (acts : List Act) : Option DownloadBatch :=
  (fromRequest statOne [{ path := ascii "/m/a" }]).toOption.bind fun b => b.run oneByte check acts

theorem exists_afterActs (check : DownloadBatch → Act → Bool) (ok : DownloadBatch → Act → Prop)
    (hok : ∀ b a, check b a = true → ok b a) (acts : List Act) (it : DownloadItem)
    (h : (afterActs check acts).bind (fun b => b.byID (ascii "item-1")) = some it) :
    ∃ b₀ b, fromRequest statOne [{ path := ascii "/m/a" }] = .ok b₀ ∧ Reaches (Step oneByte) ok b₀ b ∧
      b.byID (ascii "item-1") = some it := by
  obtain ⟨b, hb, hit⟩ := bind_eq_some_iff.mp h
  obtain ⟨b₀, hb₀, hrun⟩ := bind_eq_some_iff.mp hb
  refine ⟨b₀, b, ?_, reaches_run hok hrun, hit⟩
  cases hreq : fromRequest statOne [{ path := ascii "/m/a" }] with
  | error err => simp [hreq, Except.toOption] at hb₀
  | ok b₁ => simpa [hreq, Except.toOption] using hb₀

def committedItem : DownloadItem where
  sourcePath := ascii "/m/a"
  size := 1
  acked := 1
  readOffset := 1
  state := .succeeded
  handles := [{ closed := true, start := 0, returned := ascii "x", acked := 1 }]

theorem sound_of_reaches_committed : ∃ b₀ b, fromRequest statOne [{ path := ascii "/m/a" }] = .ok b₀ ∧
    Reaches (Step oneByte) Fits b₀ b ∧ b.byID (ascii "item-1") = some committedItem ∧
    committedItem.Sound (oneByte (ascii "/m/a")) := by
  obtain ⟨b₀, b, hb₀, hrun, hit⟩ := exists_afterActs (fun b a => decide (b.Fits a)) Fits
    (fun b a h => of_decide_eq_true h) (acknowledged ++ [.commit (ascii "item-1") 0]) committedItem (by decide +kernel)
  refine ⟨b₀, b, hb₀, hrun, hit, ?_⟩
  refine sound_of_reaches oneByte statOne _ b₀ b hb₀ (fun path entry h => ?_) hrun (ascii "item-1") committedItem hit
  cases h
  decide

def overflowedItem : DownloadItem where
  sourcePath := ascii "/m/a"
  size := 1
  acked := -2 ^ 63
  readOffset := 1
  isOpen := true
  state := .running
  handles := [{ start := 0, returned := ascii "x", acked := 2 ^ 63 }]

/-- **A count that overflows is accepted:** the acknowledged offset becomes negative. -/
theorem overflow_not_sound : ∃ b₀ b, fromRequest statOne [{ path := ascii "/m/a" }] = .ok b₀ ∧
    Reaches (Step oneByte) (fun _ _ => True) b₀ b ∧ b.byID (ascii "item-1") = some overflowedItem ∧
    ¬ overflowedItem.Sound (oneByte (ascii "/m/a")) := by
  obtain ⟨b₀, b, hb₀, hrun, hit⟩ := exists_afterActs (fun _ _ => true) (fun _ _ => True) (fun _ _ _ => trivial)
    (acknowledged ++ [.ack (ascii "item-1") 0 ⟨2 ^ 63 - 1, fits64_largest⟩]) overflowedItem (by decide +kernel)
  exact ⟨b₀, b, hb₀, hrun, hit, fun hsound => absurd hsound.offsets.1 (by decide)⟩

end DownloadBatch

end Stream
