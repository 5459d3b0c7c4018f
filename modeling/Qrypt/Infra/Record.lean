import Qrypt.Infra.Base64
import Qrypt.Infra.Json

/-!
# JSON objects for records

How `encoding/json` maps a struct to an object: a codec lists the fields with their keys, says which
value a field is written with (none when it is left out because it is empty) and how a value changes
the field. Keys are matched in upper and lower case, members are taken one after another, unknown
ones are skipped, and any member of a wrong type makes the whole object fail.

`RecordCodec.decode_members` says that a record survives, from laws about single fields.
-/

namespace Infra

open List

/-! ## Values of fields -/

/-- A string field; `null` leaves it as it is. -/
def intoString (old : Bytes) : Json → Option Bytes
  | .null => some old
  | .str s => some s
  | _ => none

/-- An `int64` field. -/
def intoInt64 (old : I64) : Json → Option I64
  | .null => some old
  | .num lit => (parseInt64 lit).map fun i => ⟨wrap64 i, fits64_wrap64 i⟩
  | _ => none

def intoBool (old : Bool) : Json → Option Bool
  | .null => some old
  | .bool b => some b
  | _ => none

/-- A `[]string` field. -/
def intoStrings : Json → Option (List Bytes)
  | .null => some []
  | .arr items => items.mapM (intoString [])
  | _ => none

def intoByte : Json → Option UInt8
  | .null => some 0
  | .num lit => (parseInt64 lit).bind fun i => if 0 ≤ i ∧ i < 256 then some (UInt8.ofNat i.toNat) else none
  | _ => none

/-- A `[]byte` field. -/
def intoBytes : Json → Option Bytes
  | .null => some []
  | .str s => base64Decode s
  | .arr items => items.mapM intoByte
  | _ => none

@[simp] theorem intoString_str (old s : Bytes) : intoString old (.str s) = some s := rfl

@[simp] theorem intoBool_bool (old b : Bool) : intoBool old (.bool b) = some b := rfl

@[simp] theorem intoInt64_num (old i : I64) : intoInt64 old (.num (intLit i)) = some i := by
  rw [intoInt64, parseInt64_intLit i.2, Option.map_some]
  exact congrArg some (Subtype.ext (wrap64_eq i.2))

@[simp] theorem intoStrings_arr (l : List Bytes) : intoStrings (.arr (l.map .str)) = some l := by
  rw [intoStrings]
  induction l with
  | nil => rfl
  | cons s l ih => simp [ih]

@[simp] theorem intoBytes_str (b : Bytes) : intoBytes (.str (base64Encode b)) = some b :=
  base64Decode_encode b

/-! ## Records -/

/-- The runes of a key with upper and lower case folded. Beyond ASCII only `ſ` and the Kelvin sign fold to a letter. -/
def foldKey (key : Bytes) : List Nat :=
  (runes key).map fun r =>
    if 97 ≤ r.1 ∧ r.1 ≤ 122 then r.1 - 32
    else if r.1 = 0x17F then 83
    else if r.1 = 0x212A then 75
    else r.1

/-- The fields `F` of the records `β`. `copy f a b` is `b` with the field `f` of `a`. -/
structure RecordCodec (F β : Type) where
  key : F → Bytes
  all : List F
  zero : β
  get : β → F → Option Json
  set : F → Json → β → Option β
  copy : F → β → β → β

namespace RecordCodec

variable {F β : Type} (c : RecordCodec F β)

def fieldOf (key : Bytes) : Option F := c.all.find? fun f => foldKey (c.key f) = foldKey key

def decodeMember (b : β) (m : Bytes × Json) : Option β :=
  match c.fieldOf m.1 with
  | some f => c.set f m.2 b
  | none => some b

def decode (init : β) (members : List (Bytes × Json)) : Option β :=
  members.foldlM c.decodeMember init

def members (b : β) : List (Bytes × Json) :=
  c.all.filterMap fun f => (c.get b f).map fun j => (c.key f, j)

/-- A field that points to a record: `null` clears it, an object changes what it points to. -/
def intoPointer (old : Option β) : Json → Option (Option β)
  | .null => some none
  | .obj members => (c.decode (old.getD c.zero) members).map some
  | _ => none

/-- The fields are told apart, read what they write into a zero field, are zero when not written, and do not touch each
other. -/
structure Lawful (Ok : β → Prop) : Prop where
  nodup : c.all.Nodup
  fieldOf_key : ∀ f, c.fieldOf (c.key f) = some f
  set_get : ∀ b f j a, Ok b → c.get b f = some j → c.copy f c.zero a = a → c.set f j a = some (c.copy f b a)
  copy_none : ∀ b f a, c.get b f = none → c.copy f b a = c.copy f c.zero a
  copy_comm : ∀ f g a b x, f ≠ g → c.copy f a (c.copy g b x) = c.copy g b (c.copy f a x)
  copy_zero : ∀ f, c.copy f c.zero c.zero = c.zero

variable {c} {Ok : β → Prop}

/-- **A record survives.** -/
theorem Lawful.decode_members (h : c.Lawful Ok) {b : β} (hb : Ok b) :
    c.decode c.zero (c.members b) = some (c.all.foldl (fun x f => c.copy f b x) c.zero) := by
  -- along the fields: those to come are still zero
  have go : ∀ (l : List F) (x : β), l.Nodup → (∀ f ∈ l, c.copy f c.zero x = x) →
      c.decode x (l.filterMap fun f => (c.get b f).map fun j => (c.key f, j))
        = some (l.foldl (fun x f => c.copy f b x) x) := by
    intro l
    induction l with
    | nil => exact fun x _ _ => rfl
    | cons f l ih =>
      intro x hl hx
      have hnd := nodup_cons.mp hl
      have hnext : ∀ g ∈ l, c.copy g c.zero (c.copy f b x) = c.copy f b x := by
        intro g hg
        have hne : g ≠ f := fun he => hnd.1 (he ▸ hg)
        rw [h.copy_comm g f _ _ _ hne, hx g (mem_cons_of_mem _ hg)]
      rcases hget : c.get b f with _ | j
      · rw [filterMap_cons_none (by rw [hget]; rfl), foldl_cons]
        rw [h.copy_none b f x hget, hx f mem_cons_self] at hnext ⊢
        exact ih x hnd.2 hnext
      · rw [filterMap_cons_some (by rw [hget]; rfl), foldl_cons, decode,
          foldlM_cons, decodeMember, h.fieldOf_key]
        simp only [h.set_get b f j x hb hget (hx f mem_cons_self), Option.bind_eq_bind, Option.bind_some]
        exact ih _ hnd.2 hnext
  exact go c.all c.zero h.nodup fun f _ => h.copy_zero f

/-! ### Sizes -/

theorem length_encodeMembers {ms : List (Bytes × Json)} (h : ms ≠ []) : (encodeMembers ms).length + 1
      = (ms.map fun m => (quote m.1).length + m.2.encode.length + 2).sum := by
  induction ms with
  | nil => exact absurd rfl h
  | cons m ms ih =>
    cases ms with
    | nil =>
      simp only [encodeMembers, length_append, length_cons, map_cons, map_nil,
        sum_cons, sum_nil]
      omega
    | cons next ms =>
      have hrest := ih (cons_ne_nil _ _)
      rw [map_cons, sum_cons, ← hrest]
      simp only [encodeMembers, length_append, length_cons]
      omega

variable (c) in
/-- The bytes a field takes, with its separators. -/
def fieldSize (b : β) (f : F) : Nat :=
  ((c.get b f).map fun j => (quote (c.key f)).length + j.encode.length + 2).getD 0

theorem sum_members (b : β) : ((c.members b).map fun m => (quote m.1).length + m.2.encode.length + 2).sum
      = (c.all.map (c.fieldSize b)).sum := by
  unfold members
  induction c.all with
  | nil => rfl
  | cons f l ih =>
    rw [map_cons, sum_cons, ← ih]
    rcases hget : c.get b f with _ | j
    · rw [filterMap_cons_none (by rw [hget]; rfl), fieldSize, hget]
      exact (Nat.zero_add _).symm
    · rw [filterMap_cons_some (by rw [hget]; rfl), fieldSize, hget]
      rfl

theorem length_encode_le {b b' : β} (h : ∀ f ∈ c.all, c.fieldSize b f ≤ c.fieldSize b' f) :
    (Json.obj (c.members b)).encode.length ≤ (Json.obj (c.members b')).encode.length := by
  have hsum := sum_le_sum h
  rw [← sum_members, ← sum_members] at hsum
  simp only [Json.encode, length_append, length_cons]
  by_cases hb : c.members b = []
  · rw [hb]
    exact Nat.add_le_add_right (Nat.succ_le_succ (Nat.zero_le _)) _
  · have hlen := length_encodeMembers hb
    by_cases hb' : c.members b' = []
    · rw [hb', map_nil, sum_nil] at hsum
      omega
    · have hlen' := length_encodeMembers hb'
      omega

end RecordCodec

end Infra
