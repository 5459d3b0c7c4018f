import Qrypt.Infra.Map
import Qrypt.Infra.Run

/-!
# The index of upload sessions

`Index` of `pkg/drive/session`, with a store: a map from content keys to provider tokens that is written to one
file as a whole. Any number of calls run side by side; what a call does under the lock is one step, and so is
`SaveJSON`, which may fail. `mutate` copies the map under the lock, saves the copy without it, and then puts the
copy in place of the map.

* `applied_in_order` — the map is the result of the calls in order, as long as no call that has a copy is overtaken
-/

namespace SessionIndex

open Infra List Function

structure Session where
  key : Bytes
  token : Bytes
  createdAt : Int
  updatedAt : Int
  deriving DecidableEq, Repr

abbrev Sessions := AList fun _ : Bytes => Session

/-! ## The operations on the map -/

def evictOldest (m : Sessions) : Sessions :=
  m.erase (m.entries.foldl (fun (oldest : Bytes × Int) r =>
    if oldest.1 = [] ∨ r.2.updatedAt < oldest.2 then (r.1, r.2.updatedAt) else oldest) ([], 0)).1

/-- What `mutate` is called with by `Create`, `Delete` and `Expire`. -/
inductive Mutation where
  | create (key token : Bytes) (now : Int)
  | delete (key : Bytes)
  | expire (reclaimed : List Session)

/-- A binding is removed if it is still the one that was reclaimed. -/
def removeUnchanged (m : Sessions) (s : Session) : Sessions :=
  if (m.lookup s.key).any fun cur => cur.updatedAt = s.updatedAt && cur.token = s.token then m.erase s.key else m

def Mutation.apply (maxEntries : Nat) (m : Sessions) : Mutation → Sessions
  | .create key token now =>
    let next := m.insert key ⟨key, token, now, now⟩
    if maxEntries < next.keys.length then evictOldest next else next
  | .delete key => m.erase key
  | .expire reclaimed => reclaimed.foldl removeUnchanged m

/-- Only `Create` brings a key. -/
theorem Mutation.lookup_apply {maxEntries : Nat} {m : Sessions} {f : Mutation} {k : Bytes} (h : m.lookup k = none)
    (hf : ∀ token now, f ≠ .create k token now) : (f.apply maxEntries m).lookup k = none := by
  have herase : ∀ (m : Sessions) k', m.lookup k = none → (m.erase k').lookup k = none := by
    intro m k' h
    rw [lookup_erase_eq, h, ite_self]
  cases f with
  | create key token now =>
    have hne : k ≠ key := fun heq => hf token now (by rw [heq])
    have hnext : (m.insert key ⟨key, token, now, now⟩).lookup k = none := by rw [lookup_insert_eq, if_neg hne, h]
    unfold Mutation.apply
    dsimp only
    split
    · exact herase _ _ hnext
    · exact hnext
  | delete key => exact herase _ _ h
  | expire reclaimed =>
    induction reclaimed generalizing m with
    | nil => exact h
    | cons s reclaimed ih =>
      refine ih ?_ (fun _ _ => nofun)
      unfold removeUnchanged
      split
      · exact herase _ _ h
      · exact h

/-- A change of the map: a mutation that was saved, or the closure of `TouchWith`. -/
inductive Effect where
  | mutation (f : Mutation)
  | touch (key : Bytes) (update : Session → Session)

def Effect.apply (maxEntries : Nat) (m : Sessions) : Effect → Sessions
  | .mutation f => f.apply maxEntries m
  | .touch key update =>
    match m.lookup key with
    | some s => m.insert key (update s)
    | none => m

/-! ## Calls -/

inductive Request where
  | create (key token : Bytes) (now : Int)
  | delete (key : Bytes)
  | touchWith (key : Bytes) (update : Session → Session) (now : Int)
  | flush
  | expire (maxAge now : Int)

/-- Where a call is: before its next step. -/
inductive Phase where
  | idle
  | mutate (f : Mutation)
  | copied (f : Mutation) (next : Sessions)
  | saved (f : Mutation) (next : Sessions)
  | touch (key : Bytes) (update : Session → Session) (now : Int)
  | write
  | snapshot (m : Sessions)
  | wrote
  | scan (maxAge now : Int)
  | reclaim (expired : List Session)

/-- The call has a copy of the map, and its save or its last step is still to come. -/
def Phase.HasCopy : Phase → Prop
  | .copied .. | .saved .. | .snapshot _ => True
  | _ => False

def Request.start : Request → Phase
  | .create key token now => if key = [] then .idle else .mutate (.create key token now)
  | .delete key => if key = [] then .idle else .mutate (.delete key)
  | .touchWith key update now => if key = [] then .idle else .touch key update now
  | .flush => .write
  | .expire maxAge now => if maxAge ≤ 0 then .idle else .scan maxAge now

/-- The index, its file and the calls. `applied` and `gone` only record: the changes in order, and the keys whose
`Delete` returned and that no `Create` took up since. -/
structure World where
  sessions : Sessions := ∅
  loaded : Bool := false
  lastWrite : Int := 0
  file : Option Sessions := none
  phase : Nat → Phase := fun _ => .idle
  applied : List Effect := []
  gone : List Bytes := []

/-- What happens beside a step: the time, whether the save fails, what can be reclaimed. -/
structure Env where
  now : Int
  fails : Bool
  reclaims : Session → Bool

inductive Action where
  | call (i : Nat) (req : Request)
  | step (i : Nat) (e : Env)

def Action.thread : Action → Nat
  | .call i _ | .step i _ => i

namespace World

def ensureLoaded (x : World) : World :=
  if x.loaded then x else { x with loaded := true, sessions := x.file.getD ∅ }

/-- What the index holds, as `Get` sees it. -/
def memory (x : World) : Sessions := if x.loaded then x.sessions else x.file.getD ∅

/-- `Delete` returns. -/
def returned (gone : List Bytes) : Mutation → List Bytes
  | .delete key => key :: gone
  | _ => gone

/-- `Create` takes a key up. -/
def takenUp (gone : List Bytes) : Mutation → List Bytes
  | .create key _ _ => gone.filter (· ≠ key)
  | _ => gone

variable (maxEntries : Nat) (interval : Int)

/-- The next step of a call in a phase, and the phase after it. -/
def advance (x : World) (e : Env) : Phase → World × Phase
  | .idle => (x, .idle)
  | .mutate f =>
    let x := x.ensureLoaded
    ({ x with gone := takenUp x.gone f }, .copied f (f.apply maxEntries x.sessions))
  | .copied f next =>
    if e.fails then ({ x with gone := returned x.gone f }, .idle) else ({ x with file := some next }, .saved f next)
  | .saved f next =>
    let applied := x.applied ++ [.mutation f]
    ({ x with sessions := next, lastWrite := e.now, applied, gone := returned x.gone f }, .idle)
  | .touch key update now =>
    let x := x.ensureLoaded
    match x.sessions.lookup key with
    | none => (x, .idle)
    | some s =>
      let applied := x.applied ++ [.touch key update]
      ({ x with sessions := x.sessions.insert key (update s), applied },
        if x.lastWrite = 0 ∨ interval ≤ now - x.lastWrite then .write else .idle)
  | .write => (x, .snapshot x.sessions)
  | .snapshot m => if e.fails then (x, .idle) else ({ x with file := some m }, .wrote)
  | .wrote => ({ x with lastWrite := e.now }, .idle)
  | .scan maxAge now =>
    let x := x.ensureLoaded
    let expired := (x.sessions.entries.map (·.2)).filter fun s => s.updatedAt ≠ 0 ∧ maxAge < now - s.updatedAt
    (x, if expired = [] then .idle else .reclaim expired)
  | .reclaim expired =>
    let reclaimed := expired.filter e.reclaims
    (x, if reclaimed = [] then .idle else .mutate (.expire reclaimed))

/-- A call begins, or a call takes its next step. -/
def next (x : World) : Action → World
  | .call i req => { x with phase := update x.phase i req.start }
  | .step i e =>
    let r := x.advance maxEntries interval e (x.phase i)
    { r.1 with phase := update x.phase i r.2 }

/-- No other call has a copy, a flush comes after the file was read, and a `Delete` can save. One thread makes one call
at a time. -/
def StepOk (x : World) : Action → Prop
  | .call i _ => x.phase i = .idle
  | .step i e => (∀ j, j ≠ i → ¬ (x.phase j).HasCopy) ∧ (x.phase i = .write → x.loaded = true) ∧
    ∀ key next, x.phase i = .copied (.delete key) next → e.fails = false

/-! ## The invariant -/

/-- The copy that `mutate` made. -/
def UpToDate (x : World) (f : Mutation) (next : Sessions) : Prop :=
  x.loaded = true ∧ next = f.apply maxEntries x.sessions ∧ ∀ k ∈ x.gone, next.lookup k = none

/-- The copy of a call is still up to date. -/
def Fits (x : World) : Phase → Prop
  | .copied f next => x.UpToDate maxEntries f next
  | .saved f next => x.UpToDate maxEntries f next ∧ x.file = some next
  | .snapshot m => x.loaded = true ∧ m = x.sessions
  | _ => True

/-- The map is the result of the calls, and no deleted key is in it or in the file. -/
structure InOrder (start : Sessions) (x : World) : Prop where
  memory : x.memory = x.applied.foldl (Effect.apply maxEntries) start
  gone : ∀ k ∈ x.gone, x.memory.lookup k = none ∧ (x.file.getD ∅).lookup k = none

variable {maxEntries interval} {x : World} {start : Sessions} {p : Phase} {f : Mutation} {e : Env}

theorem fits_of_not_hasCopy (h : ¬ p.HasCopy) : x.Fits maxEntries p := by
  cases p <;> first | trivial | exact absurd trivial h

theorem ensureLoaded_eq (x : World) : x.ensureLoaded = { x with loaded := true, sessions := x.memory } := by
  unfold ensureLoaded memory
  split
  · next h => simp [← h]
  · rfl

theorem memory_of_loaded (h : x.loaded = true) : x.memory = x.sessions := if_pos h

theorem InOrder.ensureLoaded (h : InOrder maxEntries start x) : InOrder maxEntries start x.ensureLoaded := by
  rw [ensureLoaded_eq]
  exact ⟨h.memory, h.gone⟩

theorem mem_takenUp {gone : List Bytes} {k : Bytes} (h : k ∈ takenUp gone f) :
    k ∈ gone ∧ ∀ token now, f ≠ .create k token now := by
  cases f with
  | create key token now =>
    obtain ⟨hk, hne⟩ := mem_filter.mp h
    refine ⟨hk, fun _ _ heq => ?_⟩
    cases heq
    simp at hne
  | delete key => exact ⟨h, nofun⟩
  | expire reclaimed => exact ⟨h, nofun⟩

theorem InOrder.copied (h : InOrder maxEntries start x) {next : Sessions}
    (hfit : x.UpToDate maxEntries f next) (hdel : ∀ key, f = .delete key → e.fails = false) :
    let r := x.advance maxEntries interval e (.copied f next)
    InOrder maxEntries start r.1 ∧ r.1.Fits maxEntries r.2 := by
  simp only [advance]
  split
  · next hfails =>
    have hret : returned x.gone f = x.gone := by
      cases f with
      | delete key => exact absurd hfails (by rw [hdel key rfl]; decide)
      | create => rfl
      | expire => rfl
    rw [hret]
    exact ⟨h, trivial⟩
  · have hmem := memory_of_loaded hfit.1
    have hmem' : World.memory { x with file := some next } = x.sessions := memory_of_loaded hfit.1
    refine ⟨⟨(hmem'.trans hmem.symm).trans h.memory, fun k hk => ⟨?_, hfit.2.2 k hk⟩⟩, hfit, rfl⟩
    rw [hmem', ← hmem]
    exact (h.gone k hk).1

theorem InOrder.saved (h : InOrder maxEntries start x) {next : Sessions}
    (hfit : x.UpToDate maxEntries f next) (hfile : x.file = some next) (e : Env) :
    InOrder maxEntries start (x.advance maxEntries interval e (.saved f next)).1 := by
  have hmem : (x.advance maxEntries interval e (.saved f next)).1.memory = next := memory_of_loaded hfit.1
  refine ⟨?_, fun k hk => ?_⟩
  · rw [hmem, hfit.2.1]
    simp only [World.advance, foldl_append, ← h.memory, memory_of_loaded hfit.1]
    rfl
  · have hnone : next.lookup k = none := by
      cases f with
      | delete key =>
        rcases mem_cons.mp hk with rfl | hk
        · rw [hfit.2.1]
          exact AList.lookup_erase ..
        · exact hfit.2.2 k hk
      | create => exact hfit.2.2 k hk
      | expire => exact hfit.2.2 k hk
    rw [hmem]
    refine ⟨hnone, ?_⟩
    show (x.file.getD ∅).lookup k = none
    rwa [hfile]

theorem InOrder.touch (h : InOrder maxEntries start x) (key : Bytes) (update : Session → Session) (now : Int)
    (e : Env) :
    let r := x.advance maxEntries interval e (.touch key update now)
    InOrder maxEntries start r.1 ∧ r.1.Fits maxEntries r.2 := by
  have hload := h.ensureLoaded
  rw [ensureLoaded_eq] at hload
  simp only [advance, ensureLoaded_eq]
  split
  · exact ⟨hload, trivial⟩
  · next s hs =>
    refine ⟨⟨?_, fun k hk => ⟨?_, (h.gone k hk).2⟩⟩, ?_⟩
    · simp only [foldl_append, ← h.memory]
      show x.memory.insert key (update s) = _
      simp only [foldl_cons, foldl_nil, Effect.apply, hs]
    · have hne : k ≠ key := by
        rintro rfl
        simp [(h.gone k hk).1] at hs
      show (x.memory.insert key (update s)).lookup k = none
      rw [lookup_insert_eq, if_neg hne, (h.gone k hk).1]
    · split <;> trivial

/-- **A step keeps the order**, and the call's new copy is up to date. -/
theorem InOrder.advance (h : InOrder maxEntries start x) (hfit : x.Fits maxEntries p)
    (hwrite : p = .write → x.loaded = true) (hdel : ∀ key next, p = .copied (.delete key) next → e.fails = false) :
    let r := x.advance maxEntries interval e p
    InOrder maxEntries start r.1 ∧ r.1.Fits maxEntries r.2 := by
  cases p with
  | idle => exact ⟨h, trivial⟩
  | mutate f =>
    simp only [World.advance, ensureLoaded_eq]
    refine ⟨⟨h.memory, fun k hk => h.gone k (mem_takenUp hk).1⟩, rfl, rfl, fun k hk => ?_⟩
    obtain ⟨hk, hf⟩ := mem_takenUp hk
    exact Mutation.lookup_apply (h.gone k hk).1 hf
  | copied f next => exact h.copied hfit fun key hf => hdel key next (by rw [hf])
  | saved f next => exact ⟨h.saved hfit.1 hfit.2 e, trivial⟩
  | touch key update now => exact h.touch key update now e
  | write => exact ⟨h, hwrite rfl, rfl⟩
  | snapshot m =>
    obtain ⟨hl, rfl⟩ := hfit
    simp only [World.advance]
    split
    · exact ⟨h, trivial⟩
    · have hmem := memory_of_loaded hl
      have hmem' : World.memory { x with file := some x.sessions } = x.sessions := memory_of_loaded hl
      refine ⟨⟨(hmem'.trans hmem.symm).trans h.memory, fun k hk => ?_⟩, trivial⟩
      rw [hmem', ← hmem]
      exact ⟨(h.gone k hk).1, (h.gone k hk).1⟩
  | wrote => exact ⟨⟨h.memory, h.gone⟩, trivial⟩
  | scan maxAge now =>
    refine ⟨h.ensureLoaded, ?_⟩
    simp only [World.advance]
    split <;> trivial
  | reclaim expired =>
    refine ⟨h, ?_⟩
    simp only [World.advance]
    split <;> trivial

theorem fits_phase (ph : Nat → Phase) (p : Phase) :
    World.Fits maxEntries { x with phase := ph } p ↔ x.Fits maxEntries p := by
  cases p <;> exact Iff.rfl

theorem fits_update {ph : Nat → Phase} {i : Nat} (h : ∀ j, j ≠ i → x.Fits maxEntries (ph j))
    (hp : x.Fits maxEntries p) (j : Nat) : x.Fits maxEntries (update ph i p j) := by
  by_cases hj : j = i
  · subst hj
    rwa [update_self]
  · rw [update_of_ne hj]
    exact h j hj

/-- **Every action keeps the order**, and the copies that calls hold. -/
theorem InOrder.next (h : InOrder maxEntries start x) (hfit : ∀ i, x.Fits maxEntries (x.phase i)) {a : Action}
    (hok : x.StepOk a) :
    let y := x.next maxEntries interval a
    InOrder maxEntries start y ∧ ∀ i, y.Fits maxEntries (y.phase i) := by
  cases a with
  | call i req =>
    have hstart : x.Fits maxEntries req.start := by
      apply fits_of_not_hasCopy
      cases req <;> simp only [Request.start] <;> (try split) <;> exact not_false
    exact ⟨⟨h.memory, h.gone⟩, fun j => (fits_phase _ _).mpr (fits_update (fun j _ => hfit j) hstart j)⟩
  | step i e =>
    obtain ⟨halone, hwrite, hdel⟩ := hok
    obtain ⟨h1, h2⟩ := h.advance (hfit i) hwrite hdel
    refine ⟨⟨h1.memory, h1.gone⟩, fun j => (fits_phase _ _).mpr (fits_update (fun j hj => ?_) h2 j)⟩
    exact fits_of_not_hasCopy (halone j hj)

/-- **The bindings are the result of the calls in the order of their steps**, updates through `TouchWith`
included, and the file has no key that was deleted. -/
theorem applied_in_order {file : Option Sessions}
    (h : Reaches (fun x a y => y = x.next maxEntries interval a) StepOk { file } x) :
    InOrder maxEntries (file.getD ∅) x := by
  have hinv := h.invariant (fun x => InOrder maxEntries (file.getD ∅) x ∧ ∀ i, x.Fits maxEntries (x.phase i))
    ⟨⟨rfl, nofun⟩, fun _ => trivial⟩ fun x a y hx hok hy => by
      rw [hy]
      exact InOrder.next hx.1 hx.2 hok
  exact hinv.1

/-! ## Two calls at a time -/

theorem phase_foldl (as : List Action) {j : Nat} (h : ∀ a ∈ as, j ≠ a.thread) (x : World) :
    (as.foldl (World.next maxEntries interval) x).phase j = x.phase j := by
  induction as generalizing x with
  | nil => rfl
  | cons a as ih =>
    have hne := h a mem_cons_self
    refine (ih (fun b hb => h b (mem_cons_of_mem a hb)) _).trans ?_
    cases a <;> exact update_of_ne hne ..

def calm : Env := ⟨1, false, fun _ => true⟩

/-- A `Create` with its three steps. -/
def oneCreate : List Action := [.call 0 (.create [97] [1] 1), .step 0 calm, .step 0 calm, .step 0 calm]

theorem applied_in_order_one : InOrder 4096 ∅ (oneCreate.foldl (World.next 4096 60) { file := none }) := by
  let run (as : List Action) : World := as.foldl (World.next 4096 60) { file := none }
  have hidle : ∀ n j, j ≠ 0 → ¬ ((run (oneCreate.take n)).phase j).HasCopy := by
    intro n j hj
    have hthread : ∀ a ∈ oneCreate, j ≠ a.thread := by simp [oneCreate, Action.thread, hj]
    rw [phase_foldl _ fun a ha => hthread a (mem_of_mem_take ha)]
    exact not_false
  have h1 : Reaches (fun x a y => y = World.next 4096 60 x a) StepOk { file := none } (run (oneCreate.take 1)) :=
    (Reaches.refl _).tail (a := Action.call 0 (.create [97] [1] 1)) rfl rfl
  have h2 : Reaches (fun x a y => y = World.next 4096 60 x a) StepOk { file := none } (run (oneCreate.take 2)) :=
    h1.tail (a := Action.step 0 calm) ⟨hidle 1, nofun, nofun⟩ rfl
  have h3 : Reaches (fun x a y => y = World.next 4096 60 x a) StepOk { file := none } (run (oneCreate.take 3)) :=
    h2.tail (a := Action.step 0 calm) ⟨hidle 2, nofun, nofun⟩ rfl
  exact applied_in_order (h3.tail (a := Action.step 0 calm) ⟨hidle 3, nofun, nofun⟩ rfl)

/-- Both calls copy the map before either of them saves its copy. -/
def overlapped : World :=
  [.call 0 (.create [97] [1] 1), .call 1 (.create [98] [2] 1), .step 0 calm, .step 1 calm, .step 0 calm,
    .step 0 calm, .step 1 calm, .step 1 calm].foldl (World.next 4096 60) { file := none }

/-- **Of two bindings that are created at a time, one is lost**: both calls succeed, and in no order would
they leave what is there. -/
theorem overlapping_creates_lose_one :
    Reaches (fun x a y => y = x.next 4096 60 a) (fun _ _ => True) { file := none } overlapped ∧
      (∀ i, overlapped.phase i = .idle) ∧
      ∀ order : List Effect, order.Perm overlapped.applied → overlapped.memory ≠ order.foldl (Effect.apply 4096) ∅ := by
  refine ⟨reaches_foldl _ _ _, fun i => ?_, fun order horder heq => ?_⟩
  · by_cases h0 : i = 0
    · rw [h0]
      rfl
    · by_cases h1 : i = 1
      · rw [h1]
        rfl
      · exact phase_foldl _ (by simp [Action.thread, h0, h1]) _
  · have happlied : overlapped.applied = [.mutation (.create [97] [1] 1), .mutation (.create [98] [2] 1)] := rfl
    have hmem := mem_permutations.mpr (happlied ▸ horder)
    have hlookup := congrArg (AList.lookup [97]) heq
    rcases (by simpa [permutations] using hmem : order = _ ∨ order = _) with rfl | rfl
    all_goals exact absurd hlookup (by decide)

end World

end SessionIndex
