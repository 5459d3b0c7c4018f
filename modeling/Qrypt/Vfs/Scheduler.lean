import Qrypt.Upload.Types

/-!
# The keyed scheduler

`pkg/vfs/scheduler/scheduler.go`. A key has one task at most, and the pointer to the task tells whether a timer that
fires belongs to it: a timer may fire after it is stopped. Every operation is one section under the mutex, so a run is
a list of them; a timer may fire whenever its task has been made and any number of times.

* `runs_latest` — a callback runs once at most, for the latest `Schedule` of its key, when nothing has cancelled it
-/

namespace Scheduler

open Infra Function List Option Upload

/-! ## The operations -/

structure State where
  /-- `tasks`, with the address of the task. -/
  tasks : Bytes → Option Nat := fun _ => none
  /-- The keys of the tasks made, at their addresses. -/
  made : List Bytes := []

/-- `Schedule`, and whether a task was displaced. -/
def State.schedule (s : State) (key : Bytes) : State × Bool :=
  ({ tasks := update s.tasks key (some s.made.length), made := s.made ++ [key] }, (s.tasks key).isSome)

def State.cancel (s : State) (key : Bytes) : State := { s with tasks := update s.tasks key none }

def State.cancelUnder (s : State) (dir : Bytes) : State :=
  { s with tasks := fun key => if key = dir ∨ isPathUnder key dir then none else s.tasks key }

def State.cancelAll (s : State) : State := { s with tasks := fun _ => none }

/-- The function of a timer, and the key whose callback it goes on to run. -/
def State.fire (s : State) (task : Nat) : State × Option Bytes :=
  match s.made[task]? with
  | some key => if s.tasks key ≠ some task then (s, none) else (s.cancel key, some key)
  | none => (s, none)

def State.keys (s : State) (key : Bytes) : Bool := (s.tasks key).isSome

inductive Act where
  | schedule (key : Bytes)
  | cancel (key : Bytes)
  | cancelUnder (dir : Bytes)
  | cancelAll
  | fire (task : Nat)
  deriving DecidableEq, Repr

def State.act (s : State) : Act → State
  | .schedule key => (s.schedule key).1
  | .cancel key => s.cancel key
  | .cancelUnder dir => s.cancelUnder dir
  | .cancelAll => s.cancelAll
  | .fire task => (s.fire task).1

def run (acts : List Act) : State := acts.foldl State.act {}

/-- The operation ends a task: it cancels or replaces the task of the key, or it is the timer of the task. -/
def Act.Ends (key : Bytes) (task : Nat) : Act → Prop
  | .schedule k => k = key
  | .cancel k => k = key
  | .cancelUnder dir => key = dir ∨ isPathUnder key dir
  | .cancelAll => True
  | .fire t => t = task

/-! ## The task of a key -/

variable {s : State} {key : Bytes} {task : Nat} {acts : List Act}

/-- The task of a key was made for it. -/
def State.Named (s : State) : Prop := ∀ key task, s.tasks key = some task → s.made[task]? = some key

theorem State.Named.tasks_fire (h : s.Named) (t : Nat) :
    (s.fire t).1.tasks key = if s.tasks key = some t then none else s.tasks key := by
  have hold := h key t
  rw [State.fire]
  split
  · next k hk =>
    split
    · grind
    · simp only [State.cancel, update_apply]
      grind
  · grind

/-- **What one operation does to the task of a key.** -/
theorem State.Named.tasks_act (h : s.Named) (a : Act) : (s.act a).tasks key = some task ↔
    (a = .schedule key ∧ s.made.length = task) ∨ (s.tasks key = some task ∧ ¬ a.Ends key task) := by
  rcases a with k | k | dir | _ | t
  · simp only [State.act, State.schedule, Act.Ends, update_apply]
    grind
  · simp only [State.act, State.cancel, Act.Ends, update_apply]
    grind
  · simp only [State.act, State.cancelUnder, Act.Ends]
    grind
  · simp [State.act, State.cancelAll, Act.Ends]
  · simp only [State.act, h.tasks_fire, Act.Ends]
    grind

theorem State.made_act (s : State) (a : Act) : ∃ keys, (s.act a).made = s.made ++ keys := by
  rcases a with k | k | dir | _ | t
  · exact ⟨[k], rfl⟩
  · exact ⟨[], (append_nil _).symm⟩
  · exact ⟨[], (append_nil _).symm⟩
  · exact ⟨[], (append_nil _).symm⟩
  · refine ⟨[], ?_⟩
    simp only [State.act, State.fire]
    grind [State.cancel]

theorem State.Named.act (h : s.Named) (a : Act) : (s.act a).Named := by
  intro key task hkey
  rcases (h.tasks_act a).1 hkey with ⟨rfl, rfl⟩ | ⟨hold, -⟩
  · simp [State.act, State.schedule]
  · have hkey := h key task hold
    obtain ⟨keys, hkeys⟩ := s.made_act a
    rw [hkeys, getElem?_append_left (List.getElem?_eq_some_iff.1 hkey).1, hkey]

theorem run_concat (acts : List Act) (a : Act) : run (acts ++ [a]) = (run acts).act a := foldl_append

theorem named_run (acts : List Act) : (run acts).Named := by
  induction acts using reverseRecOn with
  | nil =>
    intro key task hkey
    cases hkey
  | append_singleton acts a ih =>
    rw [run_concat]
    exact ih.act a

/-- The `Schedule` that has made the task of the key, and nothing has ended it since. -/
def Latest (acts : List Act) (key : Bytes) (task : Nat) : Prop :=
  ∃ as bs, acts = as ++ .schedule key :: bs ∧ (run as).made.length = task ∧ ∀ a ∈ bs, ¬ a.Ends key task

theorem tasks_run_iff : (run acts).tasks key = some task ↔ Latest acts key task := by
  induction acts using reverseRecOn with
  | nil => simp [run, Latest]
  | append_singleton acts a ih =>
    rw [run_concat, (named_run acts).tasks_act, ih]
    constructor
    · rintro (⟨rfl, hlen⟩ | ⟨⟨as, bs, rfl, hlen, hbs⟩, ha⟩)
      · exact ⟨acts, [], rfl, hlen, by simp⟩
      · exact ⟨as, bs ++ [a], by simp, hlen, by simpa [or_imp, forall_and] using ⟨hbs, ha⟩⟩
    · rintro ⟨as, bs, heq, hlen, hbs⟩
      rcases bs.eq_nil_or_concat with rfl | ⟨bs, b, rfl⟩
      · obtain ⟨rfl, rfl⟩ := append_singleton_inj.1 heq
        exact .inl ⟨rfl, hlen⟩
      · have hsplit : acts ++ [a] = (as ++ .schedule key :: bs) ++ [b] := by simpa using heq
        obtain ⟨rfl, rfl⟩ := append_singleton_inj.1 hsplit
        exact .inr ⟨⟨as, bs, rfl, hlen, fun x hx => hbs x (by simp [hx])⟩, hbs _ (by simp)⟩

theorem fire_run_iff : ((run acts).fire task).2 = some key ↔ Latest acts key task := by
  rw [← tasks_run_iff]
  have hnamed := named_run acts key task
  rw [State.fire]
  grind

/-- A task that has ended stays so: the addresses that follow are new. -/
theorem ended_run (acts' : List Act) (hmade : task < (run acts).made.length)
    (hended : ∀ key, (run acts).tasks key ≠ some task) :
    task < (run (acts ++ acts')).made.length ∧ ∀ key, (run (acts ++ acts')).tasks key ≠ some task := by
  induction acts' using reverseRecOn with
  | nil => simpa using ⟨hmade, hended⟩
  | append_singleton acts' a ih =>
    obtain ⟨keys, hkeys⟩ := (run (acts ++ acts')).made_act a
    rw [← append_assoc, run_concat, hkeys, length_append]
    refine ⟨by omega, fun key => ?_⟩
    rw [Ne, (named_run _).tasks_act]
    rintro (⟨-, hlen⟩ | ⟨hold, -⟩)
    · omega
    · exact ih.2 key hold

theorem unscheduled_run (acts' : List Act) (hnone : (run acts).tasks key = none) (hno : .schedule key ∉ acts') :
    (run (acts ++ acts')).tasks key = none := by
  induction acts' using reverseRecOn with
  | nil => simpa using hnone
  | append_singleton acts' a ih =>
    rw [mem_append, mem_singleton, not_or] at hno
    rw [← append_assoc, run_concat, eq_none_iff_forall_ne_some]
    intro task
    rw [Ne, (named_run _).tasks_act]
    rintro (⟨rfl, -⟩ | ⟨hold, -⟩)
    · exact hno.2 rfl
    · simp [ih hno.1] at hold

/-- **A callback runs for the latest `Schedule` of its key that nothing has ended**, it does not run again, and its key
is not among the keys until the next `Schedule` of it. -/
theorem runs_latest (h : ((run acts).fire task).2 = some key) :
    Latest acts key task ∧ ∀ acts',
      ((run (acts ++ .fire task :: acts')).fire task).2 = none ∧
      (.schedule key ∉ acts' → (run (acts ++ .fire task :: acts')).keys key = false) := by
  have hkey := tasks_run_iff.2 (fire_run_iff.1 h)
  have hfired : ∀ k, (run (acts ++ [.fire task])).tasks k ≠ some task := by
    intro k
    rw [run_concat, State.act, (named_run acts).tasks_fire]
    grind
  have hmade : task < (run (acts ++ [.fire task])).made.length := by
    obtain ⟨keys, hkeys⟩ := (run acts).made_act (.fire task)
    rw [run_concat, hkeys, length_append]
    exact Nat.lt_add_right _ (List.getElem?_eq_some_iff.1 (named_run acts key task hkey)).1
  have hnone : (run (acts ++ [.fire task])).tasks key = none := by
    rw [run_concat, State.act, (named_run acts).tasks_fire, if_pos hkey]
  refine ⟨fire_run_iff.1 h, fun acts' => ?_⟩
  rw [append_cons]
  refine ⟨?_, fun hno => ?_⟩
  · rw [eq_none_iff_forall_ne_some]
    intro k hk
    exact (ended_run acts' hmade hfired).2 k (tasks_run_iff.2 (fire_run_iff.1 hk))
  · rw [State.keys, unscheduled_run acts' hnone hno]
    rfl

/-- The timer of the first task of "/a" is stopped by the second and fires all the same. -/
theorem runs_latest_second :
    let acts : List Act := [.schedule (ascii "/a"), .schedule (ascii "/a"), .fire 0]
    ((run acts).fire 1).2 = some (ascii "/a") ∧ Latest acts (ascii "/a") 1 :=
  ⟨by decide +kernel, (runs_latest (by decide +kernel)).1⟩

end Scheduler
