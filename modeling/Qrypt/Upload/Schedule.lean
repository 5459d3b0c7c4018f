import Qrypt.Infra.Heap
import Qrypt.Upload.Memory

/-!
# The pull scheduler

`Service` of `pkg/vfs/upload/service.go` without an injected scheduler. Every path has at most one
scheduled task. The tasks wait in a heap of deadlines from which idle workers claim the earliest one;
the task of a claimed path stays outside the heap until its worker is done with the path.

Every operation runs under `scheduledMu`, so it is a function of the state; `Receive` takes the lock
once in each of its rounds.

* `pull_scheduler_sound` — every run keeps this, and no path is handed out twice
-/

namespace Upload

open Infra Drive List Function

/-! ## Times -/

/-- A `time.Duration` between two times; `time.Until` and `time.Since` saturate. -/
def saturate64 (d : Int) : Int := max (-2 ^ 63) (min d (2 ^ 63 - 1))

/-- `time.Until`. -/
def timeUntil (t now : Int) : Int := saturate64 (t - now)

/-- `unicode.ToLower`, for the runes whose lower case is ASCII. -/
def lowerRune (v : Nat) : Nat :=
  if 65 ≤ v ∧ v ≤ 90 then v + 32 else if v = 0x212A then 107 else if v = 0x130 then 105 else v

/-- `strings.HasSuffix(strings.ToLower(name), ending)` for an ASCII ending. -/
def hasLowerSuffix (name ending : Bytes) : Bool :=
  ending.map UInt8.toNat <:+ (runes name).map fun r => lowerRune r.1

def largeUploadQuietThreshold : Int := 16 * 2 ^ 20
def largeUploadQuietDelay : Int := 60 * 10 ^ 9
def temporaryUploadQuietDelay : Int := 5 * 60 * 10 ^ 9

/-- `QuietWindow` of a service with the given delay. -/
def quietWindow (delay : Int) (p : PendingUpload) : Int :=
  let qw := if largeUploadQuietThreshold ≤ p.size ∧ delay < largeUploadQuietDelay then
    largeUploadQuietDelay else delay
  if (hasLowerSuffix p.path (ascii ".qkdownloading") || hasLowerSuffix p.path (ascii ".bc!")) = true ∧
      qw < temporaryUploadQuietDelay then temporaryUploadQuietDelay
  else qw

def quietDelay (delay : Int) (p : PendingUpload) (now : Int) : Int :=
  let qw := quietWindow delay p
  if qw ≤ 0 ∨ (p.updatedAt : Int) ≤ 0 then 0
  else
    let qf := saturate64 (now - p.updatedAt)
    if qw ≤ qf then 0 else wrap64 (qw - qf)

def uploadDelayForRecord (p : PendingUpload) (fallback now : Int) : Int :=
  if (p.nextAttemptAt : Int) ≤ 0 then fallback else max 0 (timeUntil p.nextAttemptAt now)

/-! ## State -/

/-- `scheduledUpload`; the heap keeps its field `index`. -/
structure ScheduledUpload where
  pending : PendingUpload := {}
  deadline : Int := 0

/-- The scheduling state of `Service`. Tasks are numbered in the order of their creation. -/
structure Service where
  delay : Int := 0
  tasks : Nat → ScheduledUpload := fun _ => {}
  next : Nat := 0
  scheduled : AList (fun _ : Bytes => Nat) := ∅
  deadlines : IndexedHeap Nat := { items := [], index := fun _ => -1 }
  claimed : Bytes → Bool := fun _ => false
  closed : Bool := false

namespace Service

variable (s : Service)

/-- What `uploadDeadlines.Less` compares. -/
def deadline (t : Nat) : Int := (s.tasks t).deadline

def removeScheduledLocked (path : Bytes) : Service :=
  match s.scheduled.lookup path with
  | none => s
  | some t =>
    { s with
      deadlines := if 0 ≤ s.deadlines.index t then
        s.deadlines.remove s.deadline (s.deadlines.index t).toNat else s.deadlines
      scheduled := s.scheduled.erase path }

def newTask (path : Bytes) (task : ScheduledUpload) : Service :=
  { s with
    tasks := update s.tasks s.next task
    next := s.next + 1
    scheduled := s.scheduled.insert path s.next
    deadlines := { s.deadlines with index := update s.deadlines.index s.next (-1) } }

/-- `heap.Push(&s.deadlines, task)`. -/
def pushTask (t : Nat) : Service :=
  { s with deadlines := s.deadlines.push s.deadline t }

def sameStagingGeneration (a b : PendingUpload) : Bool := a.fid == b.fid && a.localPath == b.localPath

/-- `scheduleUpload`: the state, and the staging file to be removed if it is not referenced. -/
def scheduleUpload (now : Int) (p : PendingUpload) (delay : Int) : Service × Option Bytes :=
  if s.closed then (s, none)
  else
    let old := (s.scheduled.lookup p.path).map fun t => (s.tasks t).pending
    let t := s.next
    let s := (s.removeScheduledLocked p.path).newTask p.path ⟨p, now + delay⟩
    let s := if s.claimed p.path then s else s.pushTask t
    (s, (old.filter fun old => !sameStagingGeneration old p).map (·.localPath))

/-- `EnqueueAfter`; every `time.Now` may give another time. -/
def enqueueAfter (clock : Nat → Int) (p : PendingUpload) (delay : Int) : Service × Option Bytes :=
  let delay := max (max delay (quietDelay s.delay p (clock 0))) (timeUntil p.nextAttemptAt (clock 1))
  s.scheduleUpload (clock 2) p delay

def enqueue (clock : Nat → Int) (p : PendingUpload) : Service × Option Bytes :=
  if p.permanentFail then (s, none)
  else
    s.enqueueAfter (fun i => clock (i + 2)) p
      (max (quietDelay s.delay p (clock 0)) (uploadDelayForRecord p 0 (clock 1)))

def cancelUpload (path : Bytes) : Service :=
  s.removeScheduledLocked (cleanVirtualPath path)

/-- `CancelChildUploads`; the map is walked in some order. -/
def cancelChildUploads (order : Bytes → Nat) (dir : Bytes) : Service :=
  let dir := cleanVirtualPath dir
  (((s.scheduled.keys.insertionSort fun a b => order a ≤ order b).filter fun path =>
    path = dir ∨ isPathUnder path dir).foldl removeScheduledLocked s)

/-- What one round of `Receive` comes to. -/
inductive Round where
  | closed
  | claimed (p : PendingUpload)
  | again
  | wait

/-- One round of `Receive`: the store is asked for the record of the earliest path. -/
def receive (store : PendingStore) (clock : Nat → Int) : Round × Service :=
  if s.closed then (.closed, s)
  else
    match s.deadlines.items.head? with
    | none => (.wait, s)
    | some top =>
      let selected := (s.tasks top).pending.path
      if selected = [] ∨ clock 0 < s.deadline top then (.wait, s)
      else
        let s := s.removeScheduledLocked selected
        match store.pending.lookup selected with
        | none => (.again, s)
        | some pending =>
          if pending.frozen && !pending.permanentFail then
            let delay := max (quietDelay s.delay pending (clock 1)) (timeUntil pending.nextAttemptAt (clock 2))
            if 0 < delay then
              (.again, (s.newTask selected ⟨pending, clock 0 + delay⟩).pushTask s.next)
            else
              (.claimed pending, { s with claimed := update s.claimed selected true })
          else (.again, s)

def completeReceive (path : Bytes) : Service :=
  let s := { s with claimed := update s.claimed path false }
  match s.scheduled.lookup path with
  | none => s
  | some t => if s.deadlines.index t < 0 then s.pushTask t else s

def close : Service :=
  { s with closed := true, scheduled := ∅, deadlines := { s.deadlines with items := [] } }

end Service

/-! ## Runs -/

/-- The calls of the service, and those of the store it reads. -/
inductive ServiceOp where
  | enqueue (p : PendingUpload)
  | enqueueAfter (p : PendingUpload) (delay : Int)
  | cancelUpload (path : Bytes)
  | cancelChildUploads (order : Bytes → Nat) (dir : Bytes)
  | receive
  | completeReceive (path : Bytes)
  | close
  | store (call : StoreCall × StoreEnv)

/-- The service and its store. -/
structure Scheduler where
  service : Service := {}
  store : PendingStore := {}

/-- The upload a round of `Receive` hands out. -/
def Service.Round.upload : Service.Round → Option PendingUpload
  | .claimed p => some p
  | _ => none

/-- A call at the given times: the upload it hands out, and the service afterwards. -/
def Service.apply (s : Service) (store : PendingStore) (l : ServiceOp × (Nat → Int)) :
    Option PendingUpload × Service :=
  match l.1 with
  | .enqueue p => (none, (s.enqueue l.2 p).1)
  | .enqueueAfter p delay => (none, (s.enqueueAfter l.2 p delay).1)
  | .cancelUpload path => (none, s.cancelUpload path)
  | .cancelChildUploads order dir => (none, s.cancelChildUploads order dir)
  | .receive =>
    let r := s.receive store l.2
    (r.1.upload, r.2)
  | .completeReceive path => (none, s.completeReceive path)
  | .close => (none, s.close)
  | .store _ => (none, s)

def ServiceOp.storeAfter (c : PendingStore) : ServiceOp → PendingStore
  | .store call => c.call call
  | _ => c

/-- A step of the service or of its store. -/
def ServiceStep (s : Scheduler) (l : ServiceOp × (Nat → Int)) (s' : Scheduler) : Prop :=
  s' = { service := (s.service.apply s.store l).2, store := l.1.storeAfter s.store }

/-! ## Map, heap and claims -/

/-- The map and the heap belong together, the heap holding the tasks of the paths that wait. -/
structure Linked (s : Service) (waits : Bytes → Prop) : Prop where
  heap : s.deadlines.Valid s.deadline
  task : ∀ {path t}, s.scheduled.lookup path = some t → (s.tasks t).pending.path = path ∧ t < s.next
  waiting : ∀ {path t}, s.scheduled.lookup path = some t → (t ∈ s.deadlines.items ↔ waits path)
  item : ∀ {t}, t ∈ s.deadlines.items → s.scheduled.lookup (s.tasks t).pending.path = some t
  aside : ∀ {t}, t ∉ s.deadlines.items → s.closed = false → s.deadlines.index t = -1
  shut : s.closed = true → s.scheduled = ∅

/-- **The invariant of the service.** The paths that wait are the unclaimed ones. -/
def Sound (s : Service) : Prop := Linked s fun path => s.claimed path = false

theorem sound_new (delay : Int) : Sound { delay := delay } where
  heap := IndexedHeap.valid_nil _
  task h := nomatch h
  waiting h := nomatch h
  item h := absurd h not_mem_nil
  aside _ _ := rfl
  shut h := nomatch h

variable {s : Service} {waits waits' : Bytes → Prop} {path : Bytes} {t : Nat}

section

variable (h : Linked s waits)
include h

theorem Linked.congr (hw : ∀ path t, s.scheduled.lookup path = some t → (waits path ↔ waits' path)) :
    Linked s waits' :=
  { h with waiting := fun ht => (h.waiting ht).trans (hw _ _ ht) }

theorem Linked.isOpen (ht : s.scheduled.lookup path = some t) : s.closed = false := by
  by_contra hclosed
  simp [h.shut (eq_true_of_ne_false hclosed)] at ht

theorem Linked.lt_next (ht : t ∈ s.deadlines.items) : t < s.next :=
  (h.task (h.item ht)).2

theorem Linked.index_nonneg_iff (ht : s.scheduled.lookup path = some t) :
    0 ≤ s.deadlines.index t ↔ t ∈ s.deadlines.items := by
  constructor
  · intro hindex
    by_contra hmem
    rw [h.aside hmem (h.isOpen ht)] at hindex
    omega
  · intro hmem
    exact (h.heap.getElem?_index hmem).1

/-- **A path is taken from the schedule.** -/
theorem Linked.removeScheduledLocked (path : Bytes) : Linked (s.removeScheduledLocked path) waits := by
  unfold Service.removeScheduledLocked
  cases ht : s.scheduled.lookup path with
  | none => exact h
  | some t =>
    have hopen := h.isOpen ht
    have hother : ∀ {q u}, (s.scheduled.erase path).lookup q = some u → s.scheduled.lookup q = some u ∧ u ≠ t := by
      intro q u hu
      obtain ⟨hq, hu⟩ := lookup_erase_some hu
      refine ⟨hu, ?_⟩
      rintro rfl
      exact hq ((h.task hu).1.symm.trans (h.task ht).1)
    have hkept : ∀ {u}, u ∈ s.deadlines.items → u ≠ t →
        (s.scheduled.erase path).lookup (s.tasks u).pending.path = some u := by
      intro u hu hut
      have hlookup := h.item hu
      refine (AList.lookup_erase_ne ?_).trans hlookup
      rintro hpath
      rw [hpath, ht] at hlookup
      exact hut (Option.some.inj hlookup).symm
    have hshut : s.closed = true → s.scheduled.erase path = ∅ := by
      rw [hopen]
      exact nofun
    dsimp only
    split
    · next hindex =>
      have hmem := (h.index_nonneg_iff ht).mp hindex
      obtain ⟨hv, hperm, hout, hsame⟩ := h.heap.remove (h.heap.getElem?_index hmem).2
      have hnd := hperm.nodup_iff.mpr h.heap.nodup
      have hiff : ∀ {u}, u ∈ s.deadlines.items ↔
          u = t ∨ u ∈ (s.deadlines.remove s.deadline (s.deadlines.index t).toNat).items := by
        intro u
        rw [← hperm.mem_iff, mem_cons]
      refine ⟨hv, fun hu => h.task (hother hu).1, fun hu => ?_, fun {u} hu => ?_, fun {u} hu _ => ?_, hshut⟩
      · rw [← h.waiting (hother hu).1, hiff, or_iff_right (hother hu).2]
      · refine hkept (hiff.mpr (.inr hu)) ?_
        rintro rfl
        exact (nodup_cons.mp hnd).1 hu
      · by_cases hut : u = t
        · rwa [hut]
        · have hu' : u ∉ s.deadlines.items := by
            rw [hiff]
            exact not_or.mpr ⟨hut, hu⟩
          exact (hsame u hu').trans (h.aside hu' hopen)
    · next hindex =>
      have hmem : t ∉ s.deadlines.items := fun hmem => hindex ((h.index_nonneg_iff ht).mpr hmem)
      refine ⟨h.heap, fun hu => h.task (hother hu).1, fun hu => h.waiting (hother hu).1,
        fun {u} hu => hkept hu ?_, h.aside, hshut⟩
      rintro rfl
      exact hmem hu

theorem Linked.newTask (hopen : s.closed = false) (task : ScheduledUpload)
    (hpath : s.scheduled.lookup path = none) (htask : task.pending.path = path) :
    Linked (s.newTask path task) fun q => q ≠ path ∧ waits q := by
  have hfresh : s.next ∉ s.deadlines.items := fun hmem => Nat.lt_irrefl _ (h.lt_next hmem)
  have hold : ∀ {u}, u < s.next → update s.tasks s.next task u = s.tasks u :=
    fun hu => update_of_ne (Nat.ne_of_lt hu) ..
  have hlookup : ∀ q, (s.scheduled.insert path s.next).lookup q
      = if q = path then some s.next else s.scheduled.lookup q := by
    intro q
    split
    · next hq =>
      subst hq
      exact AList.lookup_insert _
    · next hq => exact AList.lookup_insert_ne hq
  refine ⟨?_, fun {q u} hu => ?_, fun {q u} hu => ?_, fun {u} hu => ?_, fun {u} hu _ => ?_, ?_⟩
  · refine (h.heap.congr fun u hu => ?_).note hfresh (-1)
    exact congrArg ScheduledUpload.deadline (hold (h.lt_next hu))
  · change (s.scheduled.insert path s.next).lookup q = some u at hu
    rw [hlookup] at hu
    show (update s.tasks s.next task u).pending.path = q ∧ u < s.next + 1
    split at hu
    · next hq =>
      cases hu
      rw [update_self, hq]
      exact ⟨htask, Nat.lt_succ_self _⟩
    · obtain ⟨hp, hlt⟩ := h.task hu
      rw [hold hlt]
      exact ⟨hp, Nat.lt_succ_of_lt hlt⟩
  · change (s.scheduled.insert path s.next).lookup q = some u at hu
    rw [hlookup] at hu
    show u ∈ s.deadlines.items ↔ _
    split at hu
    · next hq =>
      cases hu
      exact iff_of_false hfresh fun hw => hw.1 hq
    · next hq => rw [h.waiting hu, and_iff_right hq]
  · have hlt := h.lt_next hu
    have hitem := h.item hu
    show (s.scheduled.insert path s.next).lookup (update s.tasks s.next task u).pending.path = some u
    rw [hold hlt, hlookup, if_neg, hitem]
    rintro hq
    rw [hq, hpath] at hitem
    cases hitem
  · show update s.deadlines.index s.next (-1) u = -1
    by_cases hu' : u = s.next
    · rw [hu', update_self]
    · rw [update_of_ne hu']
      exact h.aside hu hopen
  · intro hclosed
    exact absurd (hopen.symm.trans hclosed) nofun

theorem Linked.pushTask (ht : s.scheduled.lookup path = some t)
    (hout : t ∉ s.deadlines.items) : Linked (s.pushTask t) fun q => q = path ∨ waits q := by
  obtain ⟨hv, hperm, hsame⟩ := h.heap.push hout
  have hiff : ∀ {u}, u ∈ (s.pushTask t).deadlines.items ↔ u = t ∨ u ∈ s.deadlines.items := by
    intro u
    rw [← mem_cons]
    exact hperm.mem_iff
  refine ⟨hv, h.task, fun {q u} hu => ?_, fun {u} hu => ?_, fun {u} hu hopen => ?_, h.shut⟩
  · rw [hiff, h.waiting hu]
    refine or_congr_left ⟨?_, ?_⟩
    · rintro rfl
      exact (h.task hu).1.symm.trans (h.task ht).1
    · rintro rfl
      exact Option.some.inj (hu.symm.trans ht)
  · rcases hiff.mp hu with rfl | hu
    · exact (congrArg s.scheduled.lookup (h.task ht).1).trans ht
    · exact h.item hu
  · rw [hiff, not_or] at hu
    exact (hsame u hu.2 hu.1).trans (h.aside hu.2 hopen)

end

/-! ## The operations -/

theorem claimed_removeScheduledLocked (s : Service) (path : Bytes) :
    (s.removeScheduledLocked path).claimed = s.claimed := by
  unfold Service.removeScheduledLocked
  split <;> rfl

theorem closed_removeScheduledLocked (s : Service) (path : Bytes) :
    (s.removeScheduledLocked path).closed = s.closed := by
  unfold Service.removeScheduledLocked
  split <;> rfl

theorem lookup_removeScheduledLocked (s : Service) (path : Bytes) :
    (s.removeScheduledLocked path).scheduled.lookup path = none := by
  unfold Service.removeScheduledLocked
  split
  · assumption
  · exact AList.lookup_erase _ _

theorem Sound.removeScheduledLocked (h : Sound s) (path : Bytes) : Sound (s.removeScheduledLocked path) := by
  unfold Sound
  rw [claimed_removeScheduledLocked]
  exact Linked.removeScheduledLocked h path

theorem Sound.newTask_pushTask (h : Sound s) (hopen : s.closed = false) (task : ScheduledUpload)
    (hpath : s.scheduled.lookup path = none) (htask : task.pending.path = path)
    (hfree : s.claimed path = false) : Sound ((s.newTask path task).pushTask s.next) := by
  have hlookup : (s.newTask path task).scheduled.lookup path = some s.next := AList.lookup_insert _
  have hout : s.next ∉ s.deadlines.items := fun hmem => Nat.lt_irrefl _ (Linked.lt_next h hmem)
  refine ((Linked.newTask h hopen task hpath htask).pushTask hlookup hout).congr fun q u _ => ?_
  constructor
  · rintro (rfl | hq)
    · exact hfree
    · exact hq.2
  · intro hq
    exact (Classical.em (q = path)).imp_right fun hne => ⟨hne, hq⟩

theorem Sound.newTask (h : Sound s) (hopen : s.closed = false) (task : ScheduledUpload)
    (hpath : s.scheduled.lookup path = none) (htask : task.pending.path = path)
    (hclaimed : s.claimed path = true) : Sound (s.newTask path task) := by
  refine (Linked.newTask h hopen task hpath htask).congr fun q u _ => and_iff_right_of_imp ?_
  rintro hq rfl
  exact Bool.false_ne_true (hq.symm.trans hclaimed)

theorem Sound.scheduleUpload (h : Sound s) (now : Int) (p : PendingUpload) (delay : Int) :
    Sound (s.scheduleUpload now p delay).1 := by
  unfold Service.scheduleUpload
  split
  · exact h
  · next hopen =>
    have hremoved := h.removeScheduledLocked p.path
    have hopen' := (closed_removeScheduledLocked s p.path).trans (eq_false_of_ne_true hopen)
    have hnone := lookup_removeScheduledLocked s p.path
    dsimp only
    split
    · next hclaimed => exact hremoved.newTask hopen' _ hnone rfl hclaimed
    · next hfree =>
      have hnext : s.next = (s.removeScheduledLocked p.path).next := by
        unfold Service.removeScheduledLocked
        split <;> rfl
      rw [hnext]
      exact hremoved.newTask_pushTask hopen' _ hnone rfl (eq_false_of_ne_true hfree)

theorem Sound.enqueueAfter (h : Sound s) (clock : Nat → Int) (p : PendingUpload) (delay : Int) :
    Sound (s.enqueueAfter clock p delay).1 :=
  h.scheduleUpload ..

theorem Sound.enqueue (h : Sound s) (clock : Nat → Int) (p : PendingUpload) : Sound (s.enqueue clock p).1 := by
  unfold Service.enqueue
  split
  · exact h
  · exact h.enqueueAfter ..

theorem Sound.cancelChildUploads (h : Sound s) (order : Bytes → Nat) (dir : Bytes) :
    Sound (s.cancelChildUploads order dir) := by
  unfold Service.cancelChildUploads
  exact foldlRecOn _ _ h fun s hs path _ => hs.removeScheduledLocked path

theorem Sound.completeReceive (h : Sound s) (path : Bytes) : Sound (s.completeReceive path) := by
  have hother : ∀ q u, s.scheduled.lookup q = some u → q ≠ path →
      (s.claimed q = false ↔ update s.claimed path false q = false) := by
    intro q u _ hq
    rw [update_of_ne hq]
  unfold Service.completeReceive
  cases ht : s.scheduled.lookup path with
  | none =>
    simp only [ht]
    have hl : Linked s fun q => update s.claimed path false q = false := by
      refine Linked.congr h fun q u hu => hother q u hu ?_
      rintro rfl
      simp [ht] at hu
    exact { hl with }
  | some t =>
    simp only [ht]
    split
    · next hindex =>
      have hout : t ∉ s.deadlines.items := by
        rw [← Linked.index_nonneg_iff h ht]
        omega
      have hpushed : Linked (s.pushTask t) fun q => update s.claimed path false q = false := by
        refine (Linked.pushTask h ht hout).congr fun q u hu => ?_
        by_cases hq : q = path
        · simp [hq]
        · rw [or_iff_right hq, hother q u hu hq]
      exact { hpushed with }
    · next hindex =>
      have hmem := (Linked.index_nonneg_iff h ht).mp (by omega)
      have hl : Linked s fun q => update s.claimed path false q = false := by
        refine Linked.congr h fun q u hu => ?_
        by_cases hq : q = path
        · subst hq
          simp [(h.waiting ht).mp hmem]
        · exact hother q u hu hq
      exact { hl with }

theorem sound_close (s : Service) : Sound s.close where
  heap := IndexedHeap.valid_nil _
  task ht := nomatch ht
  waiting ht := nomatch ht
  item ht := absurd ht not_mem_nil
  aside _ hopen := nomatch hopen
  shut _ := rfl

theorem Sound.claim (h : Sound s) (hpath : s.scheduled.lookup path = none) :
    Sound { s with claimed := update s.claimed path true } := by
  have hl : Linked s fun q => update s.claimed path true q = false := by
    refine Linked.congr h fun q u hu => ?_
    have hq : q ≠ path := by
      rintro rfl
      simp [hpath] at hu
    rw [update_of_ne hq]
  exact { hl with }

theorem Sound.claimed_head (h : Sound s) (ht : s.deadlines.items.head? = some t) :
    s.claimed (s.tasks t).pending.path = false := by
  have hmem := mem_of_head? ht
  exact (h.waiting (h.item hmem)).mp hmem

/-- What a round of `Receive` may come to. -/
structure RoundOk (s : Service) (r : Service.Round × Service) : Prop where
  sound : Sound r.2
  kept : ∀ path, s.claimed path = true → r.2.claimed path = true
  handed : ∀ p, r.1.upload = some p → s.claimed p.path = false ∧ r.2.claimed p.path = true

theorem RoundOk.of_no_upload {r : Service.Round × Service} (hsound : Sound r.2)
    (hclaimed : r.2.claimed = s.claimed) (hnone : r.1.upload = none) : RoundOk s r where
  sound := hsound
  kept path h := by rwa [hclaimed]
  handed p h := by
    simp [hnone] at h

variable {store : PendingStore}

/-- **One round of `Receive`**, the store keeping its records under their paths. -/
theorem Sound.receive (h : Sound s) (hkeyed : Keyed store.pending)
    (clock : Nat → Int) : RoundOk s (s.receive store clock) := by
  unfold Service.receive
  split
  · exact .of_no_upload h rfl rfl
  · next hopen =>
    split
    · exact .of_no_upload h rfl rfl
    · next top htop =>
      dsimp only
      split
      · exact .of_no_upload h rfl rfl
      · have hfree := h.claimed_head htop
        generalize (s.tasks top).pending.path = selected at hfree ⊢
        have hs' := h.removeScheduledLocked selected
        have hclaimed := claimed_removeScheduledLocked s selected
        have hnone := lookup_removeScheduledLocked s selected
        have hopen' := (closed_removeScheduledLocked s selected).trans (eq_false_of_ne_true hopen)
        generalize s.removeScheduledLocked selected = s' at hs' hclaimed hnone hopen' ⊢
        split
        · exact .of_no_upload hs' hclaimed rfl
        · next p hp =>
          have hpath := hkeyed selected p hp
          split
          · split
            · have hfree' := (congrFun hclaimed selected).trans hfree
              exact .of_no_upload (hs'.newTask_pushTask hopen' _ hnone hpath hfree') hclaimed rfl
            · refine ⟨hs'.claim hnone, fun q hq => ?_, fun p' hp' => ?_⟩
              · rw [← hclaimed] at hq
                by_cases hqs : q = selected
                · rw [hqs]
                  exact update_self ..
                · exact (update_of_ne hqs ..).trans hq
              · cases hp'
                rw [hpath]
                exact ⟨hfree, update_self ..⟩
          · exact .of_no_upload hs' hclaimed rfl

/-! ## Every run -/

theorem Sound.apply (h : Sound s) (hkeyed : Keyed store.pending)
    (l : ServiceOp × (Nat → Int)) : Sound (s.apply store l).2 := by
  obtain ⟨op, clock⟩ := l
  cases op with
  | enqueue p => exact h.enqueue clock p
  | enqueueAfter p delay => exact h.enqueueAfter clock p delay
  | cancelUpload path => exact h.removeScheduledLocked _
  | cancelChildUploads order dir => exact h.cancelChildUploads order dir
  | receive => exact (h.receive hkeyed clock).sound
  | completeReceive path => exact h.completeReceive path
  | close => exact sound_close s
  | store call => exact h

theorem Keyed.storeAfter {c : PendingStore} (h : Keyed c.pending) (op : ServiceOp) :
    Keyed (op.storeAfter c).pending := by
  cases op with
  | store call => exact h.call call
  | _ => exact h

/-- The service is sound and its store finds every record under its own path. -/
structure SchedulerOk (s : Scheduler) : Prop where
  sound : Sound s.service
  keyed : Keyed s.store.pending

theorem SchedulerOk.step {s s' : Scheduler} {l : ServiceOp × (Nat → Int)} (h : SchedulerOk s)
    (hs : ServiceStep s l s') : SchedulerOk s' := by
  subst hs
  exact ⟨h.sound.apply h.keyed l, h.keyed.storeAfter l.1⟩

theorem claimed_scheduleUpload (s : Service) (now : Int) (p : PendingUpload) (delay : Int) :
    (s.scheduleUpload now p delay).1.claimed = s.claimed := by
  unfold Service.scheduleUpload
  split
  · rfl
  · dsimp only
    split <;> exact claimed_removeScheduledLocked s p.path

theorem claimed_enqueue (s : Service) (clock : Nat → Int) (p : PendingUpload) :
    (s.enqueue clock p).1.claimed = s.claimed := by
  unfold Service.enqueue
  split
  · rfl
  · exact claimed_scheduleUpload ..

theorem claimed_cancelChildUploads (s : Service) (order : Bytes → Nat) (dir : Bytes) :
    (s.cancelChildUploads order dir).claimed = s.claimed := by
  unfold Service.cancelChildUploads
  refine foldlRecOn (motive := fun s' : Service => s'.claimed = s.claimed) _ _ rfl fun s' hs' path _ => ?_
  exact (claimed_removeScheduledLocked s' path).trans hs'

theorem claimed_completeReceive (s : Service) (path : Bytes) :
    (s.completeReceive path).claimed = update s.claimed path false := by
  unfold Service.completeReceive
  dsimp only
  split
  · rfl
  · split <;> rfl

/-- Only `CompleteReceive` gives a path back. -/
theorem Sound.claimed_apply (h : Sound s) (hkeyed : Keyed store.pending)
    {l : ServiceOp × (Nat → Int)} (hpath : s.claimed path = true)
    (hl : l.1 ≠ .completeReceive path) : (s.apply store l).2.claimed path = true := by
  obtain ⟨op, clock⟩ := l
  cases op with
  | enqueue p => exact (congrFun (claimed_enqueue s clock p) path).trans hpath
  | enqueueAfter p delay => exact (congrFun (claimed_scheduleUpload s _ p _) path).trans hpath
  | cancelUpload p => exact (congrFun (claimed_removeScheduledLocked s _) path).trans hpath
  | cancelChildUploads order dir => exact (congrFun (claimed_cancelChildUploads s order dir) path).trans hpath
  | receive => exact (h.receive hkeyed clock).kept path hpath
  | completeReceive p =>
    have hne : path ≠ p := fun heq => hl (heq ▸ rfl)
    rwa [Service.apply, claimed_completeReceive, update_of_ne hne]
  | close => exact hpath
  | store call => exact hpath

/-- What is to hold of map, heap, positions and claims. -/
structure PullInvariant (s : Service) : Prop where
  /-- The heap holds exactly the scheduled tasks of unclaimed paths, each of them once. -/
  heap : ∀ t, t ∈ s.deadlines.items ↔ ∃ path, s.scheduled.lookup path = some t ∧ s.claimed path = false
  nodup : s.deadlines.items.Nodup
  /-- A scheduled task has noted its position in the heap, or -1. -/
  index : ∀ path t, s.scheduled.lookup path = some t →
    s.deadlines.items[(s.deadlines.index t).toNat]? = some t ∧ 0 ≤ s.deadlines.index t ∨
      t ∉ s.deadlines.items ∧ s.deadlines.index t = -1
  /-- No task is due before the one above it. -/
  ordered : ∀ k a b, 0 < k → s.deadlines.items[parent k]? = some a → s.deadlines.items[k]? = some b →
    s.deadline a ≤ s.deadline b
  /-- A task is scheduled for the path of its record only, and a path has one task. -/
  onePath : ∀ path t, s.scheduled.lookup path = some t → (s.tasks t).pending.path = path

theorem Sound.pullInvariant (h : Sound s) : PullInvariant s where
  heap t := by
    constructor
    · intro ht
      exact ⟨_, h.item ht, (h.waiting (h.item ht)).mp ht⟩
    · rintro ⟨path, hpath, hfree⟩
      exact (h.waiting hpath).mpr hfree
  nodup := h.heap.nodup
  index path t ht := by
    by_cases hmem : t ∈ s.deadlines.items
    · exact .inl (h.heap.getElem?_index hmem).symm
    · exact .inr ⟨hmem, h.aside hmem (h.isOpen ht)⟩
  ordered k a b hk ha hb := h.heap.ordered k hk (List.getElem?_eq_some_iff.mp hb).1 a b ha hb
  onePath path t ht := (h.task ht).1

def Scheduler.hands (s : Scheduler) (clock : Nat → Int) : Option PendingUpload :=
  (s.service.receive s.store clock).1.upload

def Scheduler.received (s : Scheduler) (clock : Nat → Int) : Scheduler :=
  { s with service := (s.service.receive s.store clock).2 }

/-- **Every run keeps map, heap, positions and claims together, and no path is handed out again before
`CompleteReceive`.** -/
theorem pull_scheduler_sound {start : StartEnv} {dir : Bytes} {journal : Option Bytes}
    {files : StagingFiles} {delay : Int} {s : Scheduler}
    (hstore : newPendingStore start dir journal files = .ok store)
    (hrun : Reaches ServiceStep (fun _ _ => True) { service := { delay := delay }, store := store } s) :
    PullInvariant s.service ∧
      ∀ clock p, s.hands clock = some p → ∀ s',
        Reaches ServiceStep (fun _ l => l.1 ≠ .completeReceive p.path) (s.received clock) s' →
        ∀ clock' p', s'.hands clock' = some p' → p'.path ≠ p.path := by
  have hok : SchedulerOk s := hrun.invariant SchedulerOk ⟨sound_new delay, keyed_newPendingStore hstore⟩
    fun _ _ _ h _ hs => h.step hs
  refine ⟨hok.sound.pullInvariant, fun clock p hp s' hrun' clock' p' hp' heq => ?_⟩
  have hround := hok.sound.receive hok.keyed clock
  -- from here on the path stays claimed
  obtain ⟨hok', hclaimed⟩ := hrun'.invariant (fun s => SchedulerOk s ∧ s.service.claimed p.path = true)
    ⟨⟨hround.sound, hok.keyed⟩, (hround.handed p hp).2⟩ fun s l s' h hl hs => by
      refine ⟨h.1.step hs, ?_⟩
      subst hs
      exact h.1.sound.claimed_apply h.1.keyed h.2 hl
  have hfree := ((hok'.sound.receive hok'.keyed clock').handed p' hp').1
  simp [heq, hclaimed] at hfree

/-- A file that is flushed and enqueued, in a new store. -/
def enqueuedFile : Scheduler :=
  [(ServiceOp.store (.durable (.saveUpload { stagedFile with frozen := true }), {}), fun _ => (0 : Int)),
    (.enqueueAfter { stagedFile with frozen := true } 0, fun _ => 5)].foldl
    (fun s l => { service := (s.service.apply s.store l).2, store := l.1.storeAfter s.store })
    { store := ((newPendingStore {} (ascii "/d") none ∅).toOption).getD {} }

theorem pull_scheduler_sound_enqueued : ∃ p, enqueuedFile.hands (fun _ => 9) = some p ∧
      ∀ s', Reaches ServiceStep (fun _ l => l.1 ≠ .completeReceive p.path) (enqueuedFile.received fun _ => 9) s' →
      ∀ clock' p', s'.hands clock' = some p' → p'.path ≠ p.path := by
  obtain ⟨p, hp⟩ := Option.isSome_iff_exists.mp (show (enqueuedFile.hands fun _ => 9).isSome = true by decide +kernel)
  have hstore : newPendingStore {} (ascii "/d") none ∅
      = .ok (((newPendingStore {} (ascii "/d") none ∅).toOption).getD {}) := rfl
  exact ⟨p, hp, (pull_scheduler_sound hstore (reaches_foldl _ _ _)).2 (fun _ => 9) p hp⟩

end Upload
