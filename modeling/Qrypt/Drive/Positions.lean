import Qrypt.Drive.Cloud

/-!
# Where the objects of a backend are

`Positions` is the contract of `Rename` and `Move` in terms of positions: an object lies in a directory
under a name, and a call that succeeds reports the entry of its new position. The id may stay, or it may be
the one of the new location. A call that fails leaves every object where it was, and a rename back to the
old name undoes a rename.
-/

namespace Drive

open Infra

variable {σ ω : Type}

/-- The position of an object. -/
structure Position (ω : Type) where
  object : ω
  parentID : Bytes
  name : Bytes
  isDir : Bool
  deriving DecidableEq

/-- The entry is the one of an object at the given position. -/
structure LiesAt (find : Bytes → Option (Position ω)) (entry : Entry) (p : Position ω) : Prop where
  id : find entry.id = some p
  parentID : entry.parentID = p.parentID
  name : entry.name = p.name
  isDir : entry.isDir = p.isDir

/-- The positions by the ids, and what `Rename` and `Move` do to them. -/
structure Positions (raw : Driver σ) (ω : Type) where
  find : σ → Bytes → Option (Position ω)
  rename : ∀ {s entry newName renamed s' p}, raw.rename s entry newName = (.ok renamed, s') →
    find s entry.id = some p → LiesAt (find s') renamed { p with name := newName }
  rename_failed : ∀ {s entry newName err s'}, raw.rename s entry newName = (.error err, s') → find s' = find s
  move : ∀ {s entry dstParentID moved s' p}, raw.move s entry dstParentID = (.ok moved, s') →
    find s entry.id = some p → LiesAt (find s') moved { p with parentID := dstParentID }
  move_failed : ∀ {s entry dstParentID err s'}, raw.move s entry dstParentID = (.error err, s') → find s' = find s
  rename_back : ∀ {s entry newName renamed s₁ p s₂ back restored s₃},
    raw.rename s entry newName = (.ok renamed, s₁) → find s entry.id = some p → find s₂ = find s₁ →
      back.id = renamed.id → raw.rename s₂ back p.name = (.ok restored, s₃) → find s₃ = find s

/-! ## The backend that assigns ids -/

namespace Cloud

/-- The position of a node; its id tells the object. -/
def position (s : Cloud) (id : Bytes) : Option (Position Bytes) :=
  (s.nodes.lookup id).map fun n => ⟨id, n.parentID, n.name, n.isDir⟩

variable {s s' : Cloud} {id : Bytes} {f : Node → Node}

theorem update_ok {e : Entry} (h : s.update id f = (.ok e, s')) :
    ∃ n, s.nodes.lookup id = some n ∧ e = entry id (f n) ∧ s' = { s with nodes := s.nodes.insert id (f n) } := by
  unfold update at h
  split at h
  · cases h
  · next n hn =>
    cases h
    exact ⟨n, hn, rfl, rfl⟩

theorem update_error {err : Err} (h : s.update id f = (.error err, s')) : s' = s := by
  unfold update at h
  split at h
  · cases h
    rfl
  · cases h

theorem position_insert (k : Bytes) (n : Node) :
    Cloud.position { s with nodes := s.nodes.insert k n } =
      Function.update s.position k (some ⟨k, n.parentID, n.name, n.isDir⟩) := by
  funext id
  by_cases hid : id = k
  · subst hid
    simp [position]
  · simp [position, hid]

end Cloud

/-- Names and directories are changed where they are kept, under the id of the entry. -/
def cloudPositions : Positions cloud Bytes where
  find := Cloud.position
  rename := by
    intro s e newName renamed s' p h hp
    obtain ⟨n, hn, rfl, rfl⟩ := Cloud.update_ok h
    simp only [Cloud.position, hn, Option.map_some, Option.some.injEq] at hp
    subst hp
    refine ⟨?_, rfl, rfl, rfl⟩
    rw [Cloud.position_insert]
    exact Function.update_self ..
  rename_failed := by
    intro s e newName err s' h
    rw [Cloud.update_error h]
  move := by
    intro s e dstParentID moved s' p h hp
    obtain ⟨n, hn, rfl, rfl⟩ := Cloud.update_ok h
    simp only [Cloud.position, hn, Option.map_some, Option.some.injEq] at hp
    subst hp
    refine ⟨?_, rfl, rfl, rfl⟩
    rw [Cloud.position_insert]
    exact Function.update_self ..
  move_failed := by
    intro s e dstParentID err s' h
    rw [Cloud.update_error h]
  rename_back := by
    intro s e newName renamed s₁ p s₂ back restored s₃ h hp hsame hid hback
    obtain ⟨n, hn, rfl, rfl⟩ := Cloud.update_ok h
    obtain ⟨n', hn', rfl, rfl⟩ := Cloud.update_ok hback
    simp only [Cloud.position, hn, Option.map_some, Option.some.injEq] at hp
    subst hp
    rw [Cloud.position_insert] at hsame ⊢
    have hid : back.id = e.id := hid
    -- the node found on the way back is the renamed one
    have hn' : some (⟨e.id, n'.parentID, n'.name, n'.isDir⟩ : Position Bytes) =
        some ⟨e.id, n.parentID, newName, n.isDir⟩ := by
      have h' := congrFun hsame e.id
      rwa [Function.update_self, Cloud.position, ← hid, hn', hid] at h'
    simp only [Option.some.injEq, Position.mk.injEq, true_and] at hn'
    obtain ⟨hparent, -, hdir⟩ := hn'
    rw [hsame, hid, Function.update_idem, hparent, hdir]
    refine Function.update_eq_self_iff.mpr ?_
    simp [Cloud.position, hn]

end Drive
