import Qrypt.Infra.Bytes
import Qrypt.Infra.Run

/-!
# Path locks

`pkg/vfs/pathlock/pathlock.go`. A lock of a path is an entry with a mutex and a count of references, and the map holds
the entries that are in use. `Lock` takes its reference under the mutex of the state and then waits for the mutex of
the entry; between unlocking the entry and giving the reference back a call holds nothing.

* `locks_in_use` — in every run a path has one holder at most, and the entries of the map are those in use
-/

namespace PathLock

open Infra Function Multiset

/-! ## The locks -/

/-- Where a call of `Lock` is: before and after the mutex of its entry is locked, and after it is unlocked. -/
inductive Phase where
  | waiting | holding | unlocked
  deriving DecidableEq, Repr

structure Caller where
  path : Bytes
  /-- The address of the entry it has found or made. -/
  entry : Nat
  phase : Phase
  deriving DecidableEq, Repr

structure Entry where
  mu : Bool := false
  refs : Int := 0
  deriving DecidableEq, Repr

/-- `State`, with the entries at their addresses and the calls under way. -/
structure State where
  locks : Bytes → Option Nat := fun _ => none
  entries : Nat → Entry := fun _ => {}
  /-- The address of the next entry. -/
  next : Nat := 0
  callers : Multiset Caller := 0

/-- The sections of a call: two under the mutex of the state, and between them two on the mutex of the entry. -/
inductive Act where
  | lock (path : Bytes)
  | acquire (c : Caller)
  | unlock (c : Caller)
  | giveBack (c : Caller)

/-- A call goes on to the next phase, and its entry changes. -/
def State.advance (s : State) (c : Caller) (phase : Phase) (mu : Bool) : State :=
  { s with
    entries := update s.entries c.entry { s.entries c.entry with mu }
    callers := { c with phase } ::ₘ s.callers.erase c }

def State.step (s : State) : Act → Option State
  | .lock path =>
    match s.locks path with
    | some e =>
      some { s with
        entries := update s.entries e { s.entries e with refs := (s.entries e).refs + 1 }
        callers := ⟨path, e, .waiting⟩ ::ₘ s.callers }
    | none =>
      some {
        locks := update s.locks path (some s.next)
        entries := update s.entries s.next { refs := 1 }
        next := s.next + 1
        callers := ⟨path, s.next, .waiting⟩ ::ₘ s.callers }
  | .acquire c =>
    if c ∈ s.callers ∧ c.phase = .waiting ∧ (s.entries c.entry).mu = false then some (s.advance c .holding true)
    else none
  | .unlock c => if c ∈ s.callers ∧ c.phase = .holding then some (s.advance c .unlocked false) else none
  | .giveBack c =>
    if c ∈ s.callers ∧ c.phase = .unlocked then
      let refs := (s.entries c.entry).refs - 1
      some { s with
        locks := if refs = 0 ∧ s.locks c.path = some c.entry then update s.locks c.path none else s.locks
        entries := update s.entries c.entry { s.entries c.entry with refs }
        callers := s.callers.erase c }
    else none

def Step (s : State) (a : Act) (s' : State) : Prop := s.step a = some s'

/-- The references of the calls: a path and the entry found for it. -/
def State.uses (s : State) : Multiset (Bytes × Nat) := s.callers.map fun c => (c.path, c.entry)

/-- The calls with a reference to the lock of a path. -/
def State.users (s : State) (path : Bytes) : Nat := s.callers.countP fun c => c.path = path

/-- The calls that hold the lock of a path. -/
def State.holders (s : State) (path : Bytes) : Nat := s.callers.countP fun c => c.path = path ∧ c.phase = .holding

/-! ## The invariant -/

/-- The map has the entries that calls refer to, one for each path, with their references counted and one holder if
locked. -/
structure Inv (s : State) : Prop where
  found : ∀ path e, s.locks path = some e ↔ (path, e) ∈ s.uses
  apart : ∀ p q e, s.locks p = some e → s.locks q = some e → p = q
  made : ∀ p e, s.locks p = some e → e < s.next
  refs : ∀ e, (s.entries e).refs = s.uses.countP fun u => u.2 = e
  held : ∀ e, (s.callers.countP fun c => c.entry = e ∧ c.phase = .holding) = (s.entries e).mu.toNat

variable {s s' : State} {path : Bytes} {e : Nat} {c : Caller}

-- A call that holds an entry has a reference to it, so the next address has neither references nor a holder.
theorem Inv.entry_next (h : Inv s) : s.entries s.next = {} := by
  have hno : ∀ c ∈ s.callers, c.entry ≠ s.next := by
    intro c hc
    exact (h.made c.path c.entry ((h.found _ _).2 (mem_map_of_mem _ hc))).ne
  have hrefs : (s.entries s.next).refs = 0 := by
    rw [h.refs, State.uses, countP_map]
    simpa using hno
  have hheld := h.held s.next
  rw [countP_eq_zero.2 fun c hc hcount => hno c hc hcount.1] at hheld
  generalize s.entries s.next = entry at hrefs hheld
  obtain ⟨_ | _, _⟩ := entry
  · simp_all
  · simp at hheld

theorem Inv.lock (h : Inv s) (hstep : s.step (.lock path) = some s') : Inv s' := by
  simp only [State.step] at hstep
  split at hstep
  · next e he =>
    cases hstep
    refine ⟨fun q e' => ?_, h.apart, h.made, fun e' => ?_, fun e' => ?_⟩
    · have := (h.found path e).1 he
      have := h.found q e'
      simp only [State.uses, map_cons, mem_cons] at *
      grind
    · have := h.refs e'
      simp only [State.uses, map_cons, countP_cons, update_apply] at *
      grind
    · have := h.held e'
      simp only [countP_cons, update_apply]
      grind
  · cases hstep
    have hnext := h.entry_next
    refine ⟨fun q e' => ?_, fun p q e' => ?_, fun p e' => ?_, fun e' => ?_, fun e' => ?_⟩
    · have := h.found q e'
      have := h.made q e'
      simp only [State.uses, map_cons, mem_cons, update_apply] at *
      grind
    · have := h.made p e'
      have := h.made q e'
      have := h.apart p q e'
      simp only [update_apply]
      grind
    · have := h.made p e'
      simp only [update_apply]
      grind
    · have := h.refs e'
      simp only [State.uses, map_cons, countP_cons, update_apply] at *
      grind
    · have := h.held e'
      simp only [countP_cons, update_apply]
      grind

theorem Inv.advance (h : Inv s) {phase : Phase} {mu : Bool} (hc : c ∈ s.callers)
    (hmu : ((if c.phase = .holding then 0 else (s.entries c.entry).mu.toNat) + if phase = .holding then 1 else 0) =
      mu.toNat) : Inv (s.advance c phase mu) := by
  obtain ⟨r, hr⟩ := exists_cons_of_mem hc
  have huses : (s.advance c phase mu).uses = s.uses := by
    simp [State.uses, State.advance, hr]
  refine ⟨fun p e => huses ▸ h.found p e, h.apart, h.made, fun e => ?_, fun e => ?_⟩
  · rw [huses, ← h.refs e]
    simp only [State.advance, update_apply]
    grind
  · have := h.held e
    have := (s.entries e).mu.toNat_le
    simp only [State.advance, hr, erase_cons_head, countP_cons, update_apply] at *
    grind

theorem Inv.giveBack (h : Inv s) (hstep : s.step (.giveBack c) = some s') : Inv s' := by
  simp only [State.step] at hstep
  split at hstep
  · next hc =>
    cases hstep
    obtain ⟨r, hr⟩ := exists_cons_of_mem hc.1
    have hfound := h.found
    have hrefs := h.refs
    simp only [State.uses, hr, map_cons, mem_cons, countP_cons] at hfound hrefs
    -- The last reference is the last of its path: another call with the entry has found it under the same path.
    have hlast : (s.entries c.entry).refs - 1 = 0 ↔ (c.path, c.entry) ∉ r.map fun c => (c.path, c.entry) := by
      rw [hrefs, if_pos rfl, Nat.cast_succ, add_sub_cancel_right, Nat.cast_eq_zero, countP_eq_zero]
      constructor
      · intro hno hmem
        exact hno _ hmem rfl
      · rintro hno ⟨p, e⟩ hmem rfl
        have hsame := h.apart p c.path c.entry ((hfound _ _).2 (.inr hmem)) ((hfound _ _).2 (.inl rfl))
        exact hno (hsame ▸ hmem)
    refine ⟨fun p e => ?_, fun p q e => ?_, fun p e => ?_, fun e => ?_, fun e => ?_⟩
    · have := hfound p e
      have := hfound c.path c.entry
      have := hfound c.path e
      simp only [State.uses, hr, erase_cons_head]
      grind
    · have := h.apart p q e
      grind
    · have := h.made p e
      grind
    · have := hrefs e
      simp only [State.uses, hr, erase_cons_head, update_apply]
      grind
    · have := h.held e
      simp only [hr, erase_cons_head, countP_cons, update_apply] at *
      grind
  · cases hstep

theorem Inv.step {a : Act} (h : Inv s) (hstep : Step s a s') : Inv s' := by
  rcases a with path | c | c | c
  · exact h.lock hstep
  · simp only [Step, State.step, Option.ite_none_right_eq_some, Option.some.injEq] at hstep
    obtain ⟨⟨hc, hphase, hmu⟩, rfl⟩ := hstep
    exact h.advance hc (by simp [hphase, hmu])
  · simp only [Step, State.step, Option.ite_none_right_eq_some, Option.some.injEq] at hstep
    obtain ⟨⟨hc, hphase⟩, rfl⟩ := hstep
    exact h.advance hc (by simp [hphase])
  · exact h.giveBack hstep

theorem inv_of_reaches (h : Reaches Step (fun _ _ => True) {} s) : Inv s := by
  refine h.invariant Inv ?_ fun _ _ _ hinv _ hstep => hinv.step hstep
  refine ⟨?_, ?_, ?_, ?_, ?_⟩ <;> simp [State.uses]

/-- The calls of a path are those with its entry. -/
theorem Inv.path_iff (h : Inv s) (he : s.locks path = some e) (hc : c ∈ s.callers) : c.path = path ↔ c.entry = e := by
  have hfound := (h.found c.path c.entry).2 (mem_map_of_mem _ hc)
  constructor
  · rintro rfl
    exact Option.some.inj (hfound.symm.trans he)
  · rintro rfl
    exact h.apart _ _ _ hfound he

theorem Inv.used_iff (h : Inv s) : s.locks path ≠ none ↔ 0 < s.users path := by
  rw [State.users, countP_pos, Option.ne_none_iff_exists']
  simp only [h.found]
  simp [State.uses, and_comm]

theorem Inv.holders_le (h : Inv s) : s.holders path ≤ 1 := by
  cases he : s.locks path with
  | none =>
    have hzero : s.holders path = 0 := by
      refine countP_eq_zero.2 fun c hc hholds => ?_
      exact h.used_iff.2 (countP_pos.2 ⟨c, hc, hholds.1⟩) he
    exact hzero ▸ Nat.zero_le 1
  | some e =>
    have hcount : s.holders path = s.callers.countP fun c => c.entry = e ∧ c.phase = .holding :=
      countP_congr rfl fun c hc => propext (and_congr_left' (h.path_iff he hc))
    rw [hcount, h.held]
    exact Bool.toNat_le _

/-- In every run a path has one holder at most, the map has an entry exactly for the paths of the calls under way, and
the entry counts them. -/
theorem locks_in_use (h : Reaches Step (fun _ _ => True) {} s) :
    (∀ path, s.holders path ≤ 1 ∧ (s.locks path ≠ none ↔ 0 < s.users path) ∧
      ∀ e, s.locks path = some e → (s.entries e).refs = s.users path) ∧
    (s.callers = 0 → ∀ path, s.locks path = none) := by
  have hinv := inv_of_reaches h
  refine ⟨fun path => ⟨hinv.holders_le, hinv.used_iff, fun e he => ?_⟩, fun hnobody path => ?_⟩
  · rw [hinv.refs, State.uses, countP_map, ← countP_eq_card_filter, State.users]
    exact congrArg _ (countP_congr rfl fun c hc => propext (hinv.path_iff he hc).symm)
  · by_contra hne
    have hpos := hinv.used_iff.1 hne
    simp [State.users, hnobody] at hpos

/-- The state after a call has the lock of "/a". -/
def oneHolder : State where
  locks := update (fun _ => none) (ascii "/a") (some 0)
  entries := update (update (fun _ => {}) 0 { refs := 1 }) 0 { mu := true, refs := 1 }
  next := 1
  callers := {⟨ascii "/a", 0, .holding⟩}

theorem reaches_oneHolder : Reaches Step (fun _ _ => True) {} oneHolder := by
  refine ((Reaches.refl _).tail (a := .lock (ascii "/a")) trivial rfl).tail (a := .acquire ⟨ascii "/a", 0, .waiting⟩)
    trivial ?_
  rfl

theorem locks_in_use_oneHolder : oneHolder.holders (ascii "/a") = 1 ∧
    (oneHolder.locks (ascii "/a") ≠ none ↔ 0 < oneHolder.users (ascii "/a")) :=
  ⟨rfl, ((locks_in_use reaches_oneHolder).1 _).2.1⟩

/-- **An entry in the map without a holder**: the call has unlocked its mutex and not given its reference back. -/
theorem entry_without_holder : ∃ s, Reaches Step (fun _ _ => True) {} s ∧ s.locks (ascii "/a") = some 0 ∧
    (s.entries 0).refs = 1 ∧ ∀ c ∈ s.callers, c.phase = .unlocked :=
  ⟨_, reaches_oneHolder.tail (a := .unlock ⟨ascii "/a", 0, .holding⟩) trivial rfl, rfl, rfl, by simp [State.advance, oneHolder]⟩

/-! ## Progress -/

/-- A step of the calls under way. -/
def Goes (_ : State) (a : Act) : Prop := ∀ path, a ≠ .lock path

/-- The sections that the calls still have before them. -/
def State.left (s : State) : Nat :=
  (s.callers.map fun c => match c.phase with | .waiting => 3 | .holding => 2 | .unlocked => 1).sum

/-- A call does not wait for nobody: if the mutex of its entry is locked, another call can unlock it. -/
theorem Inv.progress (h : Inv s) (hne : s.callers ≠ 0) : ∃ a s', Goes s a ∧ Step s a s' ∧ s'.left < s.left := by
  have hunlock : ∀ c ∈ s.callers, c.phase = .holding → ∃ a s', Goes s a ∧ Step s a s' ∧ s'.left < s.left := by
    intro c hc hphase
    obtain ⟨r, hr⟩ := exists_cons_of_mem hc
    exact ⟨.unlock c, _, nofun, if_pos ⟨hc, hphase⟩, by simp [State.left, State.advance, hr, hphase]⟩
  obtain ⟨c, hc⟩ := exists_mem_of_ne_zero hne
  obtain ⟨r, hr⟩ := exists_cons_of_mem hc
  cases hphase : c.phase with
  | holding => exact hunlock c hc hphase
  | unlocked => exact ⟨.giveBack c, _, nofun, if_pos ⟨hc, hphase⟩, by simp [State.left, hr, hphase]⟩
  | waiting =>
    cases hmu : (s.entries c.entry).mu with
    | false => exact ⟨.acquire c, _, nofun, if_pos ⟨hc, hphase, hmu⟩, by simp [State.left, State.advance, hr, hphase]⟩
    | true =>
      have hheld := h.held c.entry
      rw [hmu] at hheld
      obtain ⟨c', hc', -, hphase'⟩ := countP_pos.1 (Nat.lt_of_lt_of_eq Nat.one_pos hheld.symm)
      exact hunlock c' hc' hphase'

theorem Inv.drains (h : Inv s) : ∃ s', Reaches Step Goes s s' ∧ s'.callers = 0 := by
  induction hleft : s.left using Nat.strong_induction_on generalizing s with
  | _ n ih =>
    by_cases hne : s.callers = 0
    · exact ⟨s, .refl s, hne⟩
    · obtain ⟨a, s', hgoes, hstep, hlt⟩ := h.progress hne
      obtain ⟨t, ht, hend⟩ := ih _ (hleft ▸ hlt) (h.step hstep) rfl
      exact ⟨t, .head hgoes hstep ht, hend⟩

/-- **No deadlock**: after every run the calls under way can go on until all are through, and the map is empty then. -/
theorem calls_end (h : Reaches Step (fun _ _ => True) {} s) :
    ∃ s', Reaches Step Goes s s' ∧ s'.callers = 0 ∧ ∀ path, s'.locks path = none := by
  have hinv := inv_of_reaches h
  obtain ⟨s', hrun, hend⟩ := hinv.drains
  refine ⟨s', hrun, hend, fun path => ?_⟩
  by_contra hne
  have hused := (hrun.invariant Inv hinv fun _ _ _ hs _ hstep => hs.step hstep).used_iff.1 hne
  simp [State.users, hend] at hused

theorem calls_end_oneHolder : ∃ s', Reaches Step Goes oneHolder s' ∧ s'.callers = 0 :=
  (calls_end reaches_oneHolder).imp fun _ h => ⟨h.1, h.2.1⟩

end PathLock
