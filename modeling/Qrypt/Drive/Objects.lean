import Qrypt.Drive.Types

/-!
# What a backend does to its objects

A backend stores objects under ids. `Objects` is the contract of `drive.Driver` in these terms. It
covers both kinds of backends: those that assign ids, where a renamed entry keeps its id, and those
whose ids are locations, where a renamed or moved entry gets the id of its new place, and everything
below it too.

The contract bounds what an operation may do, whether or not it reports success.
-/

namespace Drive

open Infra

variable {σ : Type}

/-- Objects may go away, and nothing else happens. -/
def Keeps (o o' : Bytes → Option Bytes) : Prop := ∀ id, o' id = o id ∨ o' id = none

/-- What follows the id of a directory in the ids below it; empty for the directory itself. -/
def Below (suffix : Bytes) : Prop := suffix = [] ∨ suffix.head? = some 47

/-- Objects may go away; an object at or below `new` is the one from `old`, or was there. -/
def Relocates (o o' : Bytes → Option Bytes) (old new : Bytes) : Prop :=
  ∀ id, o' id = o id ∨ o' id = none ∨ ∃ suffix, Below suffix ∧ id = new ++ suffix ∧ o' id = o (old ++ suffix)

theorem Keeps.refl (o : Bytes → Option Bytes) : Keeps o o := fun _ => .inl rfl

theorem Keeps.relocates {o o' : Bytes → Option Bytes} (h : Keeps o o') (old new : Bytes) : Relocates o o' old new :=
  fun id => (h id).imp_right .inl

/-- The objects of a backend, the ids `Rename` and `Move` lead to, and what the operations do. -/
structure Objects (raw : Driver σ) where
  objects : σ → Bytes → Option Bytes
  renamedID : Entry → Bytes → Bytes
  movedID : Entry → Bytes → Bytes
  read : ∀ {s entry off n rc obj}, raw.read s entry off n = .ok rc →
    objects s entry.id = some obj → rc.data <+: obj.drop off.toNat
  mkdir : ∀ s parentID name, Keeps (objects s) (objects (raw.mkdir s parentID name).2)
  remove : ∀ s entry, Keeps (objects s) (objects (raw.remove s entry).2)
  rename : ∀ s entry newName, Relocates (objects s) (objects (raw.rename s entry newName).2) entry.id
      (renamedID entry newName)
  rename_id : ∀ {s entry newName renamed s'}, raw.rename s entry newName = (.ok renamed, s') →
    renamed.id = renamedID entry newName
  move : ∀ s entry dstParentID, Relocates (objects s) (objects (raw.move s entry dstParentID).2) entry.id
      (movedID entry dstParentID)
  move_id : ∀ {s entry dstParentID moved s'}, raw.move s entry dstParentID = (.ok moved, s') →
    moved.id = movedID entry dstParentID
  putSource : ∀ {s req entry s'}, raw.putSource s req = (.ok entry, s') →
    objects s' entry.id = some req.source.content ∧
      ∀ id, id ≠ entry.id → objects s' id = objects s id ∨ objects s' id = none

end Drive
