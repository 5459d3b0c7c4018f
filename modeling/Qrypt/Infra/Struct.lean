import Qrypt.Infra.JsonCut
import Qrypt.Infra.Record

/-!
# Structs as JSON objects

Codecs for the values of Go types, put together from those of their parts. A codec writes a value, or leaves it
out of its object when it is empty, and reads a value over an old one. It carries its laws: what it writes is
read back over the zero value, for the values that are valid within a depth of nesting.

* `Fields.cons`, `Struct.codec` — a struct survives if its fields do
-/

namespace Infra

open List Option

/-- How the values of a type are written and read. -/
structure ValueCodec (α : Type) where
  zero : α
  write : α → Option Json
  read : α → Json → Option α
  /-- what can be written within this many nested arrays and objects -/
  Valid : Nat → α → Prop
  read_write : ∀ {d a j}, Valid d a → write a = some j → read zero j = some a
  write_none : ∀ {a}, write a = none → a = zero
  fits : ∀ {d a j}, Valid d a → write a = some j → j.Fits d

namespace ValueCodec

variable {α : Type}

/-! ## Scalars -/

/-- A `string`. -/
def str : ValueCodec Bytes where
  zero := []
  write s := some (.str s)
  read := intoString
  Valid _ s := validString s = true
  read_write _ h := by
    cases h
    rfl
  write_none h := by cases h
  fits hv h := by
    cases h
    exact .str _ hv

/-- A `bool`. -/
def bool : ValueCodec Bool where
  zero := false
  write b := some (.bool b)
  read := intoBool
  Valid _ _ := True
  read_write _ h := by
    cases h
    rfl
  write_none h := by cases h
  fits _ h := by
    cases h
    exact .bool _ _

/-- An `int` or `int64`. -/
def int64 : ValueCodec I64 where
  zero := 0
  write i := some (.num (intLit i))
  read := intoInt64
  Valid _ _ := True
  read_write _ h := by
    cases h
    exact intoInt64_num _ _
  write_none h := by cases h
  fits _ h := by
    cases h
    exact .num _ (isNumber_intLit _)

def intoUint {n : Nat} (old : Fin n) : Json → Option (Fin n)
  | .null => some old
  | .num lit =>
    if lit = [] ∨ lit.any (fun c => !isDigit c) then none
    else
      let v := Nat.ofDigitChars 10 (lit.map fun c => Char.ofNat c.toNat) 0
      if h : v < n then some ⟨v, h⟩ else none
  | _ => none

theorem intoUint_decimal {n : Nat} (old i : Fin n) : intoUint old (.num (decimal i)) = some i := by
  have hdigits : ¬ (decimal i = [] ∨ (decimal i).any (fun c => !isDigit c) = true) := by
    rintro (hnil | hany)
    · exact decimal_ne_nil _ hnil
    · obtain ⟨c, hc, hbad⟩ := any_eq_true.mp hany
      simp [isDigit_decimal _ c hc] at hbad
  simp only [intoUint, if_neg hdigits, ofDigitChars_decimal, i.2, dite_true]

/-- A `uint64` or `uint16`. -/
def uint (n : Nat) [NeZero n] : ValueCodec (Fin n) where
  zero := 0
  write i := some (.num (decimal i))
  read := intoUint
  Valid _ _ := True
  read_write _ h := by
    cases h
    exact intoUint_decimal _ _
  write_none h := by cases h
  fits _ h := by
    cases h
    exact .num _ (isNumber_intLit (Int.ofNat _))

/-- With `omitempty`. -/
def omitEmpty [DecidableEq α] (c : ValueCodec α) : ValueCodec α where
  zero := c.zero
  write a := if a = c.zero then none else c.write a
  read := c.read
  Valid := c.Valid
  read_write hv h := c.read_write hv (ite_none_left_eq_some.mp h).2
  write_none {a} h := by
    by_contra hne
    rw [if_neg hne] at h
    exact hne (c.write_none h)
  fits hv h := c.fits hv (ite_none_left_eq_some.mp h).2

/-! ## Named strings -/

end ValueCodec

/-- Names for some strings. -/
structure Vocabulary (κ : Type) where
  text : κ → Bytes
  all : List κ
  mem_all : ∀ k, k ∈ all
  nodup : (all.map text).Nodup

/-- A string that has a name, or another one. -/
inductive Word {κ : Type} (v : Vocabulary κ) where
  | named (k : κ)
  | other (text : Bytes) (h : ∀ k, v.text k ≠ text)

namespace Word

variable {κ : Type} {v : Vocabulary κ}

def text : Word v → Bytes
  | .named k => v.text k
  | .other text _ => text

def ofText (v : Vocabulary κ) (text : Bytes) : Word v :=
  match h : v.all.find? fun k => v.text k = text with
  | some k => .named k
  | none => .other text fun k hk => find?_eq_none.mp h k (v.mem_all k) (decide_eq_true hk)

theorem text_injective : Function.Injective (text (v := v)) := by
  intro a b h
  cases a with
  | named k =>
    cases b with
    | named k' => rw [inj_on_of_nodup_map v.nodup (v.mem_all k) (v.mem_all k') h]
    | other t ht => exact absurd h (ht k)
  | other t ht =>
    cases b with
    | named k => exact absurd h.symm (ht k)
    | other t' _ =>
      cases h
      rfl

instance : DecidableEq (Word v) := fun a b => decidable_of_iff (a.text = b.text) text_injective.eq_iff

instance : Repr (Word v) := ⟨fun w _ => repr w.text⟩

@[simp] theorem text_ofText (t : Bytes) : (ofText v t).text = t := by
  unfold ofText
  split
  · next k hfind => exact of_decide_eq_true (find?_some hfind :)
  · rfl

@[simp] theorem ofText_text (w : Word v) : ofText v w.text = w := text_injective (text_ofText _)

/-- The zero value is the empty string. -/
instance : Inhabited (Word v) := ⟨ofText v []⟩

end Word

namespace ValueCodec

variable {α : Type}

def word {κ : Type} (v : Vocabulary κ) : ValueCodec (Word v) where
  zero := default
  write w := some (.str w.text)
  read old j := (intoString old.text j).map (Word.ofText v)
  Valid _ w := validString w.text = true
  read_write _ h := by
    cases h
    simp
  write_none h := by cases h
  fits hv h := by
    cases h
    exact .str _ hv

/-! ## Parts -/

/-- The codec leaves no value out. -/
def Total (c : ValueCodec α) : Prop := ∀ a, ∃ j, c.write a = some j

def list (c : ValueCodec α) (h : c.Total) : ValueCodec (List α) where
  zero := []
  write l := if l = [] then none else some (.arr (l.filterMap c.write))
  read _
    | .null => some []
    | .arr items => items.mapM (c.read c.zero)
    | _ => none
  Valid d l := ∃ d', d = d' + 1 ∧ ∀ a ∈ l, c.Valid d' a
  read_write {d l j} hv hw := by
    obtain ⟨d, rfl, hv⟩ := hv
    obtain rfl := Option.some.inj (ite_none_left_eq_some.mp hw).2
    have go : ∀ l : List α, (∀ a ∈ l, c.Valid d a) → (l.filterMap c.write).mapM (c.read c.zero) = some l := by
      intro l hl
      induction l with
      | nil => rfl
      | cons a l ih =>
        obtain ⟨ha, hl⟩ := forall_mem_cons.mp hl
        obtain ⟨j, hj⟩ := h a
        simp [filterMap_cons_some hj, mapM_cons, c.read_write ha hj, ih hl]
    exact go l hv
  write_none {l} hw := by
    by_contra hne
    simp [if_neg hne] at hw
  fits {d l j} hv hw := by
    obtain ⟨d, rfl, hv⟩ := hv
    obtain rfl := Option.some.inj (ite_none_left_eq_some.mp hw).2
    refine .arr ?_
    intro j hj
    obtain ⟨a, ha, hw⟩ := mem_filterMap.mp hj
    exact c.fits (hv a ha) hw

end ValueCodec

/-! ## Maps -/

/-- The order in which the keys of a map are written. -/
def KeyLt (a b : Bytes) : Prop := a.map UInt8.toNat < b.map UInt8.toNat

instance (a b : Bytes) : Decidable (KeyLt a b) := inferInstanceAs (Decidable (_ < _))

variable {a b key : Bytes} {keys : List Bytes}

theorem KeyLt.trans {c : Bytes} (h : KeyLt a b) (h' : KeyLt b c) : KeyLt a c := lt_trans h h'

theorem KeyLt.ne (h : KeyLt a b) : a ≠ b := by
  rintro rfl
  exact lt_irrefl _ h

theorem KeyLt.not_gt (h : KeyLt a b) : ¬ KeyLt b a := lt_asymm h

theorem keyLt_of_not (h : ¬ KeyLt a b) (hne : a ≠ b) : KeyLt b a := by
  refine lt_of_le_of_ne (not_lt.mp h) ?_
  intro heq
  exact hne (map_injective_iff.mpr (fun x y h => UInt8.toNat_inj.mp h) heq).symm

/-- A map with strings for keys, sorted by key. -/
@[ext] structure StringMap (V : Type) where
  entries : List (Bytes × V)
  sorted : entries.Pairwise fun a b => KeyLt a.1 b.1

namespace StringMap

variable {V : Type}

def insertEntry (k : Bytes) (v : V) : List (Bytes × V) → List (Bytes × V)
  | [] => [(k, v)]
  | e :: l => if KeyLt k e.1 then (k, v) :: e :: l else if k = e.1 then (k, v) :: l else e :: insertEntry k v l

variable {k : Bytes} {v : V} {l : List (Bytes × V)}

theorem mem_insertEntry {e : Bytes × V} (h : e ∈ insertEntry k v l) : e = (k, v) ∨ e ∈ l := by
  induction l with
  | nil => exact .inl (mem_singleton.mp h)
  | cons e' l ih =>
    simp only [insertEntry] at h
    split at h
    · exact mem_cons.mp h
    · split at h
      · rcases mem_cons.mp h with rfl | h
        · exact .inl rfl
        · exact .inr (mem_cons_of_mem _ h)
      · rcases mem_cons.mp h with rfl | h
        · exact .inr mem_cons_self
        · exact (ih h).imp_right (mem_cons_of_mem _)

theorem sorted_insertEntry
    (h : l.Pairwise fun a b => KeyLt a.1 b.1) : (insertEntry k v l).Pairwise fun a b => KeyLt a.1 b.1 := by
  induction l with
  | nil => exact pairwise_singleton _ _
  | cons e l ih =>
    obtain ⟨hfirst, hrest⟩ := pairwise_cons.mp h
    simp only [insertEntry]
    split
    · next hlt =>
      refine pairwise_cons.mpr ⟨forall_mem_cons.mpr ⟨hlt, ?_⟩, h⟩
      intro e' he'
      exact hlt.trans (hfirst e' he')
    · next hlt =>
      split
      · next heq =>
        subst heq
        exact pairwise_cons.mpr ⟨hfirst, hrest⟩
      · next hne =>
        refine pairwise_cons.mpr ⟨?_, ih hrest⟩
        intro e' he'
        rcases mem_insertEntry he' with rfl | he'
        · exact keyLt_of_not hlt hne
        · exact hfirst e' he'

def insert (k : Bytes) (v : V) (m : StringMap V) : StringMap V :=
  ⟨insertEntry k v m.entries, sorted_insertEntry m.sorted⟩

instance : EmptyCollection (StringMap V) := ⟨⟨[], .nil⟩⟩

instance : Inhabited (StringMap V) := ⟨∅⟩

def lookup (m : StringMap V) (k : Bytes) : Option V := (m.entries.find? fun e => e.1 = k).map Prod.snd

/-- The entries of an object, one after the other. -/
def insertAll (m : StringMap V) (l : List (Bytes × V)) : StringMap V := l.foldl (fun m e => m.insert e.1 e.2) m

theorem insertEntry_last (h : ∀ e ∈ l, KeyLt e.1 k) : insertEntry k v l = l ++ [(k, v)] := by
  induction l with
  | nil => rfl
  | cons e l ih =>
    obtain ⟨he, h⟩ := forall_mem_cons.mp h
    simp [insertEntry, if_neg he.not_gt, if_neg he.ne.symm, ih h]

/-- **A sorted map survives.** -/
theorem insertAll_entries (m : StringMap V) : (∅ : StringMap V).insertAll m.entries = m := by
  have go : ∀ (l : List (Bytes × V)) (m' : StringMap V),
      (m'.entries ++ l).Pairwise (fun a b => KeyLt a.1 b.1) → (m'.insertAll l).entries = m'.entries ++ l := by
    intro l
    induction l with
    | nil =>
      simp [insertAll]
    | cons e l ih =>
      intro m' hsorted
      obtain ⟨-, -, hbefore⟩ := pairwise_append.mp hsorted
      have hlast : (m'.insert e.1 e.2).entries = m'.entries ++ [e] :=
        insertEntry_last fun e' he' => hbefore e' he' e mem_cons_self
      have hrest := ih (m'.insert e.1 e.2) (by rw [hlast]; simpa using hsorted)
      simpa [insertAll, hlast] using hrest
  exact StringMap.ext (go m.entries ∅ m.sorted)

end StringMap

/-- A `map[string]any`, left out when it is empty. -/
def ValueCodec.anyMap : ValueCodec (StringMap Json) where
  zero := ∅
  write m := if m.entries = [] then none else some (.obj m.entries)
  read old
    | .null => some ∅
    | .obj members => some (old.insertAll members)
    | _ => none
  Valid d m := (Json.obj m.entries).Fits d
  read_write {d m j} _ hw := by
    obtain rfl := Option.some.inj (ite_none_left_eq_some.mp hw).2
    exact congrArg some m.insertAll_entries
  write_none {m} hw := by
    obtain ⟨entries, sorted⟩ := m
    by_cases hnil : entries = []
    · subst hnil
      rfl
    · simp [if_neg hnil] at hw
  fits hv hw := by
    obtain rfl := Option.some.inj (ite_none_left_eq_some.mp hw).2
    exact hv

/-! ## Structs -/

def isPlainKey (key : Bytes) : Bool := key.all fun c => (97 ≤ c && c ≤ 122) || c == 95

theorem runes_ascii {s : Bytes} (h : ∀ c ∈ s, c < 0x80) : runes s = s.map fun c => (c.toNat, [c]) := by
  unfold runes
  induction s with
  | nil => rfl
  | cons c s ih =>
    obtain ⟨hc, h⟩ := forall_mem_cons.mp h
    simp [runesFuel, decodeRune, hc, ih h]

theorem isPlainKey_ascii (h : isPlainKey key = true) : ∀ c ∈ key, c < 0x80 := by
  intro c hc
  have hplain := all_eq_true.mp h c hc
  simp only [Bool.or_eq_true, Bool.and_eq_true, decide_eq_true_eq, beq_iff_eq, UInt8.le_iff_toNat_le] at hplain
  rcases hplain with ⟨-, hle⟩ | rfl
  · exact Nat.lt_of_le_of_lt hle (by decide)
  · decide

theorem foldKey_injOn (ha : isPlainKey a = true) (hb : isPlainKey b = true) (h : foldKey a = foldKey b) : a = b := by
  -- back to lower case
  have hback : ∀ k, isPlainKey k = true →
      (foldKey k).map (fun n => if 65 ≤ n ∧ n ≤ 90 then n + 32 else n) = k.map UInt8.toNat := by
    intro k hk
    rw [foldKey, runes_ascii (isPlainKey_ascii hk), List.map_map, List.map_map]
    refine List.map_congr_left ?_
    intro c hc
    have hplain := List.all_eq_true.mp hk c hc
    simp only [Bool.or_eq_true, Bool.and_eq_true, decide_eq_true_eq, beq_iff_eq, UInt8.le_iff_toNat_le] at hplain
    simp only [Function.comp_apply]
    rcases hplain with hletter | rfl
    · have hlower : 97 ≤ c.toNat ∧ c.toNat ≤ 122 := hletter
      simp only [if_pos hlower]
      rw [if_pos (by omega)]
      omega
    · rfl
  have hmap := congrArg (map fun n => if 65 ≤ n ∧ n ≤ 90 then n + 32 else n) h
  rw [hback a ha, hback b hb] at hmap
  exact map_injective_iff.mpr (fun x y h => UInt8.toNat_inj.mp h) hmap

/-- The keys of a struct: different ones, in lower case. -/
def PlainKeys (keys : List Bytes) : Prop := keys.Nodup ∧ keys.all isPlainKey = true

instance (keys : List Bytes) : Decidable (PlainKeys keys) := inferInstanceAs (Decidable (_ ∧ _))

theorem PlainKeys.plain (h : PlainKeys keys) {k : Bytes} (hk : k ∈ keys) : isPlainKey k = true :=
  all_eq_true.mp h.2 k hk

theorem PlainKeys.tail (h : PlainKeys (key :: keys)) : PlainKeys keys := by
  refine ⟨(nodup_cons.mp h.1).2, all_eq_true.mpr ?_⟩
  intro k hk
  exact h.plain (mem_cons_of_mem _ hk)

/-- The fields of a struct, with their values in a tuple. -/
structure Fields (τ : Type) where
  zero : τ
  keys : List Bytes
  members : τ → List (Bytes × Json)
  /-- the member of an object changes its field; unknown members are skipped -/
  decodeMember : τ → Bytes × Json → Option τ
  Valid : Nat → τ → Prop
  mem_keys : ∀ {t m}, m ∈ members t → m.1 ∈ keys
  survive : ∀ {d t}, PlainKeys keys → Valid d t → (members t).foldlM decodeMember zero = some t
  fits : ∀ {d t m}, Valid d t → m ∈ members t → m.2.Fits d

namespace Fields

variable {α τ : Type}

def nil : Fields Unit where
  zero := ()
  keys := []
  members _ := []
  decodeMember t _ := some t
  Valid _ _ := True
  mem_keys h := by cases h
  survive _ _ := rfl
  fits _ h := by cases h

def member (key : Bytes) (c : ValueCodec α) (a : α) : List (Bytes × Json) :=
  ((c.write a).map fun j => (key, j)).toList

variable {key : Bytes} {c : ValueCodec α} {a : α}

theorem mem_member {m : Bytes × Json} (h : m ∈ member key c a) : m.1 = key ∧ c.write a = some m.2 := by
  obtain ⟨j, hj, rfl⟩ := map_eq_some_iff.mp (mem_toList.mp h)
  exact ⟨rfl, hj⟩

/-- The members of a tuple, by the field they belong to. Upper and lower case are the same. -/
def decodeCons (key : Bytes) (c : ValueCodec α) (rest : Fields τ) (t : α × τ) (m : Bytes × Json) : Option (α × τ) :=
  if foldKey m.1 = foldKey key then (c.read t.1 m.2).map fun a => (a, t.2)
  else (rest.decodeMember t.2 m).map fun t' => (t.1, t')

theorem decodeCons_rest {rest : Fields τ} {ms : List (Bytes × Json)}
    (h : ∀ m ∈ ms, foldKey m.1 ≠ foldKey key) (t : τ) :
    ms.foldlM (decodeCons key c rest) (a, t) = (ms.foldlM rest.decodeMember t).map fun t' => (a, t') := by
  induction ms generalizing t with
  | nil => rfl
  | cons m ms ih =>
    obtain ⟨hm, h⟩ := forall_mem_cons.mp h
    simp only [foldlM_cons, decodeCons, if_neg hm, bind_eq_bind]
    cases rest.decodeMember t m with
    | none => rfl
    | some t' => exact ih h t'

def cons (key : Bytes) (c : ValueCodec α) (rest : Fields τ) : Fields (α × τ) where
  zero := (c.zero, rest.zero)
  keys := key :: rest.keys
  members t := member key c t.1 ++ rest.members t.2
  decodeMember := decodeCons key c rest
  Valid d t := c.Valid d t.1 ∧ rest.Valid d t.2
  mem_keys {t m} hm := by
    rcases mem_append.mp hm with hm | hm
    · rw [(mem_member hm).1]
      exact mem_cons_self
    · exact mem_cons_of_mem _ (rest.mem_keys hm)
  survive {d t} h hv := by
    have hothers : ∀ m ∈ rest.members t.2, foldKey m.1 ≠ foldKey key := by
      intro m hm heq
      have hkey := rest.mem_keys hm
      rw [foldKey_injOn (h.tail.plain hkey) (h.plain mem_cons_self) heq] at hkey
      exact (nodup_cons.mp h.1).1 hkey
    have hrest : (rest.members t.2).foldlM (decodeCons key c rest) (t.1, rest.zero) = some t := by
      simp [decodeCons_rest hothers, rest.survive h.tail hv.2]
    cases hw : c.write t.1 with
    | none =>
      have hzero := c.write_none hw
      simp only [member, hw, map_none, toList_none, nil_append]
      rwa [← hzero]
    | some j =>
      simp only [member, hw, map_some, toList_some, singleton_append, foldlM_cons]
      have hfirst : decodeCons key c rest (c.zero, rest.zero) (key, j) = some (t.1, rest.zero) := by
        rw [decodeCons, if_pos rfl, c.read_write hv.1 hw]
        rfl
      rwa [hfirst]
  fits {d t m} hv hm := by
    rcases mem_append.mp hm with hm | hm
    · exact c.fits hv.1 (mem_member hm).2
    · exact rest.fits hv.2 hm

end Fields

/-- A struct is the tuple of its fields. -/
structure Struct (β : Type) where
  {τ : Type}
  fields : Fields τ
  tuple : β ≃ τ
  plain : PlainKeys fields.keys := by decide +kernel

namespace Struct

variable {β : Type} (s : Struct β)

def zero : β := s.tuple.symm s.fields.zero

def members (b : β) : List (Bytes × Json) := s.fields.members (s.tuple b)

/-- The members of an object, one after the other. -/
def decode (init : β) (members : List (Bytes × Json)) : Option β :=
  (members.foldlM s.fields.decodeMember (s.tuple init)).map s.tuple.symm

/-- What can be written within this many nested arrays and objects. -/
def Valid (d : Nat) (b : β) : Prop := ∃ d', d = d' + 1 ∧ s.fields.Valid d' (s.tuple b)

variable {s} {d : Nat} {b : β}

/-- **A struct survives if its fields do.** -/
theorem decode_members (h : s.Valid d b) : s.decode s.zero (s.members b) = some b := by
  obtain ⟨d, rfl, hv⟩ := h
  simp only [decode, zero, Equiv.apply_symm_apply, members, s.fields.survive s.plain hv, map_some,
    Equiv.symm_apply_apply]

theorem fits_members (h : s.Valid d b) : (Json.obj (s.members b)).Fits d := by
  obtain ⟨d, rfl, hv⟩ := h
  refine .obj ?_ ?_
  · intro m hm
    exact validString_of_ascii (isPlainKey_ascii (s.plain.plain (s.fields.mem_keys hm)))
  · intro m hm
    exact s.fields.fits hv hm

variable (s)

def codec : ValueCodec β where
  zero := s.zero
  write b := some (.obj (s.members b))
  read old
    | .null => some old
    | .obj members => s.decode old members
    | _ => none
  Valid := s.Valid
  read_write hv hw := by
    cases hw
    exact decode_members hv
  write_none h := by cases h
  fits hv hw := by
    cases hw
    exact fits_members hv

/-- A pointer to a struct, left out when it is nil. -/
def pointer : ValueCodec (Option β) where
  zero := none
  write a := a.map fun b => .obj (s.members b)
  read old
    | .null => some none
    | .obj members => (s.decode (old.getD s.zero) members).map some
    | _ => none
  Valid d a := ∀ b ∈ a, s.Valid d b
  read_write hv hw := by
    obtain ⟨b, rfl, rfl⟩ := map_eq_some_iff.mp hw
    simp only [getD_none, decode_members (hv b rfl), map_some]
  write_none h := map_eq_none_iff.mp h
  fits hv hw := by
    obtain ⟨b, rfl, rfl⟩ := map_eq_some_iff.mp hw
    exact fits_members (hv b rfl)

/-- A slice of structs, left out when it is empty. -/
def slice : ValueCodec (List β) := s.codec.list fun _ => ⟨_, rfl⟩

end Struct

end Infra
