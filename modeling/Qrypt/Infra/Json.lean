import Qrypt.Infra.Number
import Qrypt.Infra.Utf8

/-!
# JSON

`encoding/json`: `quote` and `Json.encode` write what `Marshal` writes, `parseJson` accepts what `Unmarshal`
accepts. Numbers keep their literal.

* `unquote_quote` — a valid string survives
* `parseJson_encode` — so does every value of the encoder
-/

namespace Infra

open List Option

/-- A JSON value. -/
inductive Json where
  | null
  | bool (b : Bool)
  | num (lit : Bytes)
  | str (s : Bytes)
  | arr (items : List Json)
  | obj (members : List (Bytes × Json))

/-! ## Strings -/

def encodeRune (v : Nat) : Bytes :=
  if v < 0x80 then [UInt8.ofNat v]
  else if v < 0x800 then [UInt8.ofNat (0xC0 + v / 64), UInt8.ofNat (0x80 + v % 64)]
  else if 0x10FFFF < v ∨ (0xD800 ≤ v ∧ v < 0xE000) then [0xEF, 0xBF, 0xBD]
  else if v < 0x10000 then
    [UInt8.ofNat (0xE0 + v / 4096), UInt8.ofNat (0x80 + v / 64 % 64), UInt8.ofNat (0x80 + v % 64)]
  else
    [UInt8.ofNat (0xF0 + v / 262144), UInt8.ofNat (0x80 + v / 4096 % 64),
      UInt8.ofNat (0x80 + v / 64 % 64), UInt8.ofNat (0x80 + v % 64)]

/-- The short escapes: the character behind the backslash, and its byte. `\/` is read and never written. -/
def shortEscapes : List (UInt8 × UInt8) :=
  [(34, 34), (92, 92), (98, 8), (102, 12), (110, 10), (114, 13), (116, 9)]

/-- How an ASCII byte is written. `<`, `>` and `&` are escaped for the sake of HTML. -/
def quoteByte (a : UInt8) : Bytes :=
  match shortEscapes.find? (·.2 = a) with
  | some (e, _) => [92, e]
  | none =>
    if a < 0x20 ∨ a = 38 ∨ a = 60 ∨ a = 62 then
      ascii "\\u00" ++ [hexDigit (a.toNat / 16), hexDigit (a.toNat % 16)]
    else [a]

/-- How the bytes of one rune are written; an invalid byte becomes U+FFFD. -/
def quoteRune (bytes : Bytes) : Bytes :=
  match bytes with
  | [a] => if a < 0x80 then quoteByte a else ascii "\\ufffd"
  | bytes =>
    if bytes = [0xE2, 0x80, 0xA8] then ascii "\\u2028"
    else if bytes = [0xE2, 0x80, 0xA9] then ascii "\\u2029"
    else bytes

def quote (s : Bytes) : Bytes := 34 :: ((runes s).flatMap fun r => quoteRune r.2) ++ [34]

def hexVal (c : UInt8) : Option Nat :=
  if 48 ≤ c ∧ c ≤ 57 then some (c.toNat - 48)
  else if 97 ≤ c ∧ c ≤ 102 then some (c.toNat - 87)
  else if 65 ≤ c ∧ c ≤ 70 then some (c.toNat - 55)
  else none

def hex4 : Bytes → Option (Nat × Bytes)
  | a :: b :: c :: d :: rest =>
    match hexVal a, hexVal b, hexVal c, hexVal d with
    | some a, some b, some c, some d => some (((a * 16 + b) * 16 + c) * 16 + d, rest)
    | _, _, _, _ => none
  | _ => none

/-- The rest of a `\u` escape, after its four digits: a second escape may complete a surrogate. -/
def surrogate (v : Nat) (s : Bytes) : Bytes × Bytes :=
  if 0xD800 ≤ v ∧ v < 0xE000 then
    match s with
    | a :: b :: rest =>
      if a = 92 ∧ b = 117 then
        match hex4 rest with
        | some (w, rest) =>
          if v < 0xDC00 ∧ 0xDC00 ≤ w ∧ w < 0xE000 then
            (encodeRune ((v - 0xD800) * 1024 + (w - 0xDC00) + 0x10000), rest)
          else (encodeRune runeError, s)
        | none => (encodeRune runeError, s)
      else (encodeRune runeError, s)
    | _ => (encodeRune runeError, s)
  else (encodeRune v, s)

/-- One character of a string: its bytes, and what follows it. `none` for a closing quote. -/
def unquoteChar (s : Bytes) : Option (Bytes × Bytes) :=
  match s with
  | [] => none
  | a :: rest =>
    if a = 34 ∨ a < 0x20 then none
    else if a = 92 then
      match rest with
      | [] => none
      | e :: rest =>
        if e = 117 then (hex4 rest).map fun x => surrogate x.1 x.2
        else if e = 47 then some ([47], rest)
        else (shortEscapes.find? (·.1 = e)).map fun x => ([x.2], rest)
    else
      match decodeRune s with
      | some (_, rest') => some (s.take (s.length - rest'.length), rest')
      | none => some (encodeRune runeError, rest)

def unquoteFuel : Nat → Bytes → Option (Bytes × Bytes)
  | 0, _ => none
  | fuel + 1, s =>
    match unquoteChar s with
    | some (b, rest) => (unquoteFuel fuel rest).map fun x => (b ++ x.1, x.2)
    | none => if s.head? = some 34 then some ([], s.tail) else none

/-- The content of a string, read from behind its opening quote. -/
def unquote (s : Bytes) : Option (Bytes × Bytes) := unquoteFuel (s.length + 1) s

/-! ## Values -/

def skipSpace (s : Bytes) : Bytes := s.dropWhile fun c => c = 32 ∨ c = 9 ∨ c = 10 ∨ c = 13

/-- The given character, after white space. -/
def token (c : UInt8) (s : Bytes) : Option Bytes :=
  match skipSpace s with
  | [] => none
  | d :: rest => if d = c then some rest else none

def afterLit (lit s : Bytes) : Option Bytes := if lit <+: s then some (s.drop lit.length) else none

def parseScalar (s : Bytes) : Option (Json × Bytes) :=
  match token 34 s with
  | some s => (unquote s).map fun x => (.str x.1, x.2)
  | none =>
    match afterLit (ascii "null") (skipSpace s), afterLit (ascii "true") (skipSpace s),
      afterLit (ascii "false") (skipSpace s) with
    | some s, _, _ => some (.null, s)
    | none, some s, _ => some (.bool true, s)
    | none, none, some s => some (.bool false, s)
    | none, none, none => (scanNumber (skipSpace s)).map fun x => (.num x.1, x.2)

def parseKey (s : Bytes) : Option (Bytes × Bytes) := do
  let s ← token 34 s
  let (key, s) ← unquote s
  let s ← token 58 s
  some (key, s)

-- `depth` is the number of arrays and objects that may still be opened; every call with less fuel
-- has read at least one byte.
mutual

def parseValue : Nat → Nat → Bytes → Option (Json × Bytes)
  | 0, _, _ => none
  | fuel + 1, depth, s =>
    match token 91 s, token 123 s, depth with
    | some s, _, depth + 1 =>
      match token 93 s with
      | some s => some (.arr [], s)
      | none => (parseItems fuel depth s).map fun x => (.arr x.1, x.2)
    | none, some s, depth + 1 =>
      match token 125 s with
      | some s => some (.obj [], s)
      | none => (parseMembers fuel depth s).map fun x => (.obj x.1, x.2)
    | none, none, _ => parseScalar s
    | _, _, _ => none

def parseItems : Nat → Nat → Bytes → Option (List Json × Bytes)
  | 0, _, _ => none
  | fuel + 1, depth, s => do
    let (item, s) ← parseValue fuel depth s
    match token 44 s with
    | some s => (parseItems fuel depth s).map fun x => (item :: x.1, x.2)
    | none => (token 93 s).map fun s => ([item], s)

def parseMembers : Nat → Nat → Bytes → Option (List (Bytes × Json) × Bytes)
  | 0, _, _ => none
  | fuel + 1, depth, s => do
    let (key, s) ← parseKey s
    let (value, s) ← parseValue fuel depth s
    match token 44 s with
    | some s => (parseMembers fuel depth s).map fun x => ((key, value) :: x.1, x.2)
    | none => (token 125 s).map fun s => ([(key, value)], s)

end

/-- The greatest depth `encoding/json` reads. -/
def maxNestingDepth : Nat := 10000

def parseJson (s : Bytes) : Option Json :=
  match parseValue (s.length + 1) maxNestingDepth s with
  | some (j, rest) => if skipSpace rest = [] then some j else none
  | none => none

mutual

/-- The text of a value, without white space. -/
def Json.encode : Json → Bytes
  | .null => ascii "null"
  | .bool true => ascii "true"
  | .bool false => ascii "false"
  | .num lit => lit
  | .str s => quote s
  | .arr items => 91 :: encodeItems items ++ [93]
  | .obj members => 123 :: encodeMembers members ++ [125]

def encodeItems : List Json → Bytes
  | [] => []
  | [item] => item.encode
  | item :: items => item.encode ++ 44 :: encodeItems items

def encodeMembers : List (Bytes × Json) → Bytes
  | [] => []
  | [(key, value)] => quote key ++ 58 :: value.encode
  | (key, value) :: members => quote key ++ 58 :: value.encode ++ 44 :: encodeMembers members

end

example : (Json.obj [(ascii "a<", .num (intLit (-5))), (ascii "b", .arr [.null, .bool true])]).encode
    = ascii "\x7b\"a\\u003c\":-5,\"b\":[null,true]\x7d" := by decide

/-! ## Strings survive -/

theorem hexVal_hexDigit : ∀ n < 16, hexVal (hexDigit n) = some n := by decide

theorem hex4_byte {n : Nat} (h : n < 256) (t : Bytes) :
    hex4 (48 :: 48 :: hexDigit (n / 16) :: hexDigit (n % 16) :: t) = some (n, t) := by
  have h0 : hexVal 48 = some 0 := by decide
  simp only [hex4, h0, hexVal_hexDigit (n / 16) (by omega), hexVal_hexDigit (n % 16) (by omega)]
  congr 2
  omega

variable {a : UInt8} {v d : Nat} {s t chunk : Bytes} {j : Json} {items : List Json} {members : List (Bytes × Json)}

theorem encodeRune_ascii (h : a < 0x80) : encodeRune a.toNat = [a] := by
  have hlt : a.toNat < 0x80 := UInt8.lt_iff_toNat_lt.mp h
  rw [encodeRune, if_pos hlt, UInt8.ofNat_toNat]

theorem unquoteChar_unicode (h : hex4 s = some (v, t)) (hv : v < 0xD800) :
    unquoteChar (92 :: 117 :: s) = some (encodeRune v, t) := by
  simp only [unquoteChar, show ¬ ((92 : UInt8) = 34 ∨ (92 : UInt8) < 0x20) by decide, if_false,
    if_true, h, map_some, surrogate]
  rw [if_neg (by omega)]

theorem unquoteChar_of_decodeRune (hq : a ≠ 34)
    (hc : ¬ a < 0x20) (hb : a ≠ 92) (h : decodeRune (a :: chunk) = some (v, [])) :
    unquoteChar (a :: chunk ++ t) = some (a :: chunk, t) := by
  have hdec := decodeRune_append h t
  rw [nil_append] at hdec
  rw [cons_append] at hdec ⊢
  simp only [unquoteChar, if_neg (not_or.mpr ⟨hq, hc⟩), if_neg hb, hdec, length_cons, length_append]
  rw [show chunk.length + t.length + 1 - t.length = (a :: chunk).length by
    rw [length_cons]; omega, ← cons_append, take_left]

theorem shortEscapes_find : ∀ x ∈ shortEscapes, x.1 ≠ 117 ∧ x.1 ≠ 47 ∧
    shortEscapes.find? (fun y => decide (y.1 = x.1)) = some x := by
  simp [shortEscapes]

theorem unquoteChar_quoteByte (h : a < 0x80) (t : Bytes) : unquoteChar (quoteByte a ++ t) = some ([a], t) := by
  unfold quoteByte
  split
  · next e b hfind =>
    obtain ⟨hu, hs, hback⟩ := shortEscapes_find _ (mem_of_find?_eq_some hfind)
    obtain rfl : b = a := of_decide_eq_true (find?_some hfind :)
    show unquoteChar (92 :: e :: t) = _
    simp only [unquoteChar, show ¬ ((92 : UInt8) = 34 ∨ (92 : UInt8) < 0x20) by decide, if_false,
      if_true, if_neg hu, if_neg hs, hback, map_some]
  · next hfind =>
    have hne : ∀ x ∈ shortEscapes, x.2 ≠ a := by
      intro x hx he
      exact find?_eq_none.mp hfind x hx (decide_eq_true he)
    split
    · have hlt : a.toNat < 256 := a.toNat_lt
      rw [← encodeRune_ascii h]
      exact unquoteChar_unicode (hex4_byte hlt t) (by omega)
    · next hplain =>
      refine unquoteChar_of_decodeRune (v := a.toNat) (hne (34, 34) (by decide)).symm
        (fun hc => hplain (.inl hc)) (hne (92, 92) (by decide)).symm ?_
      simp only [decodeRune, if_pos h]

theorem hex4_separator (t : Bytes) : hex4 (50 :: 48 :: 50 :: 56 :: t) = some (0x2028, t) ∧
    hex4 (50 :: 48 :: 50 :: 57 :: t) = some (0x2029, t) := by
  have h : hexVal 50 = some 2 ∧ hexVal 48 = some 0 ∧ hexVal 56 = some 8 ∧ hexVal 57 = some 9 := by
    decide
  simp only [hex4, h, and_self]

theorem unquoteChar_quoteRune (h : decodeRune (a :: chunk) = some (v, []))
    (hc : a < 0x80 ∧ chunk = [] ∨ ¬ a < 0x80 ∧ chunk ≠ [] ∧ ∀ c ∈ chunk, 0x80 ≤ c) (t : Bytes) :
    unquoteChar (quoteRune (a :: chunk) ++ t) = some (a :: chunk, t) := by
  rcases hc with ⟨ha, rfl⟩ | ⟨ha, hne, -⟩
  · rw [quoteRune, if_pos ha]
    exact unquoteChar_quoteByte ha t
  · obtain ⟨b, chunk, rfl⟩ := exists_cons_of_ne_nil hne
    simp only [quoteRune]
    split
    · next he =>
      rw [he]
      exact unquoteChar_unicode (hex4_separator t).1 (by decide)
    · split
      · next he =>
        rw [he]
        exact unquoteChar_unicode (hex4_separator t).2 (by decide)
      · have hge : 128 ≤ a.toNat := Nat.not_lt.mp fun hlt => ha (UInt8.lt_iff_toNat_lt.mpr hlt)
        refine unquoteChar_of_decodeRune ?_ ?_ ?_ h
        · rintro rfl
          exact absurd hge (by decide)
        · intro hlt
          have := UInt8.lt_iff_toNat_lt.mp hlt
          have h20 : (0x20 : UInt8).toNat = 32 := rfl
          omega
        · rintro rfl
          exact absurd hge (by decide)

theorem take_chunk (a : UInt8) (chunk rest : Bytes) :
    (a :: (chunk ++ rest)).take ((a :: (chunk ++ rest)).length - rest.length) = a :: chunk := by
  rw [show (a :: (chunk ++ rest)).length - rest.length = (a :: chunk).length by
    simp only [length_cons, length_append]; omega, ← cons_append, take_left]

/-- The induction follows the runes of the string; each takes at least one byte when written. -/
theorem unquoteFuel_runes (n : Nat) (s : Bytes) (h : validStringFuel n s = true) (rest : Bytes)
    (m : Nat) (hm : ((runesFuel n s).flatMap fun r => quoteRune r.2).length < m) :
    unquoteFuel m (((runesFuel n s).flatMap fun r => quoteRune r.2) ++ 34 :: rest) = some (s, rest) := by
  -- a closing quote ends the string
  have close : ∀ m, 0 < m → unquoteFuel m (34 :: rest) = some ([], rest) := by
    intro m hm
    obtain ⟨m, rfl⟩ := Nat.exists_eq_succ_of_ne_zero (Nat.ne_of_gt hm)
    simp [unquoteFuel, unquoteChar]
  induction n generalizing s m with
  | zero =>
    obtain rfl : s = [] := isEmpty_iff.mp h
    exact close m (by omega)
  | succ n ih =>
    cases s with
    | nil => exact close m (by omega)
    | cons a s =>
      simp only [validStringFuel, isEmpty_cons, Bool.false_or] at h
      rcases hdec : decodeRune (a :: s) with _ | ⟨v, rest'⟩
      · rw [hdec] at h
        cases h
      · simp only [hdec] at h
        obtain ⟨chunk, rfl, hchunk, hcases⟩ := decodeRune_chunk hdec
        simp only [runesFuel, hdec, take_chunk, flatMap_cons, length_append] at hm ⊢
        have hpos : 0 < (quoteRune (a :: chunk)).length := by
          refine length_pos_of_ne_nil fun hnil => ?_
          have := unquoteChar_quoteRune hchunk hcases []
          rw [hnil] at this
          cases this
        obtain ⟨m, rfl⟩ := Nat.exists_eq_succ_of_ne_zero (show m ≠ 0 by omega)
        rw [append_assoc, unquoteFuel, unquoteChar_quoteRune hchunk hcases]
        simp only [ih rest' h m (by omega), map_some, cons_append]

/-- **A valid string survives.** -/
theorem unquote_quote (h : validString s = true) (rest : Bytes) :
    ∃ body, quote s = 34 :: body ∧ unquote (body ++ rest) = some (s, rest) := by
  refine ⟨((runes s).flatMap fun r => quoteRune r.2) ++ [34], rfl, ?_⟩
  rw [append_assoc]
  refine unquoteFuel_runes s.length s h rest _ ?_
  simp only [runes, length_append]
  omega

/-! ## Values survive -/

/-- The values that parsing gives back: numbers and valid strings, and at most the given number of nested arrays and
objects. -/
inductive Json.Fits : Nat → Json → Prop
  | null (d : Nat) : Fits d .null
  | bool (d : Nat) (b : Bool) : Fits d (.bool b)
  | num (d : Nat) {lit : Bytes} (h : IsNumber lit) : Fits d (.num lit)
  | str (d : Nat) {s : Bytes} (h : validString s = true) : Fits d (.str s)
  | arr {d : Nat} {items : List Json} (h : ∀ j ∈ items, Fits d j) : Fits (d + 1) (.arr items)
  | obj {d : Nat} {members : List (Bytes × Json)} (hk : ∀ m ∈ members, validString m.1 = true)
      (h : ∀ m ∈ members, Fits d m.2) : Fits (d + 1) (.obj members)

def isBlank (c : UInt8) : Bool := decide (c = 32 ∨ c = 9 ∨ c = 10 ∨ c = 13)

variable {c : UInt8}

theorem skipSpace_cons (h : isBlank c = false) (s : Bytes) : skipSpace (c :: s) = c :: s := by
  rw [skipSpace, dropWhile_cons_of_neg]
  simpa [isBlank] using h

theorem token_self (h : isBlank c = false) (s : Bytes) : token c (c :: s) = some s := by
  simp only [token, skipSpace_cons h, if_true]

theorem token_ne {d : UInt8} (h : isBlank d = false) (hne : d ≠ c) (s : Bytes) : token c (d :: s) = none := by
  simp only [token, skipSpace_cons h, if_neg hne]

theorem token_punctuation (s : Bytes) : token 44 (44 :: s) = some s ∧ token 58 (58 :: s) = some s ∧
    token 93 (93 :: s) = some s ∧ token 44 (93 :: s) = none ∧ token 125 (125 :: s) = some s ∧
    token 44 (125 :: s) = none ∧ token 91 (91 :: s) = some s ∧ token 91 (123 :: s) = none ∧
    token 123 (123 :: s) = some s := by
  simp [token, skipSpace]

theorem ne_of_isDigit {d : UInt8} (h : isDigit c = true) (hd : isDigit d = false) : c ≠ d := by
  rintro rfl
  simp [h] at hd

theorem numberByte (h : c = 45 ∨ isDigit c = true) :
    isBlank c = false ∧ c ≠ 34 ∧ c ≠ 91 ∧ c ≠ 123 ∧ c ≠ 110 ∧ c ≠ 116 ∧ c ≠ 102 := by
  rcases h with rfl | h
  · decide
  · have ne : ∀ d, isDigit d = false → c ≠ d := fun d => ne_of_isDigit h
    refine ⟨decide_eq_false ?_, ne _ (by decide), ne _ (by decide), ne _ (by decide),
      ne _ (by decide), ne _ (by decide), ne _ (by decide)⟩
    rintro (rfl | rfl | rfl | rfl) <;> exact absurd h (by decide)

theorem parseScalar_number {lit rest : Bytes} (hlit : IsNumber lit) (h : EndsNumber rest) :
    parseScalar (lit ++ rest) = some (.num lit, rest) := by
  have hscan := hlit.scan h
  obtain ⟨c, t, hct, hc⟩ := hlit.cons
  obtain ⟨hb, hq, -, -, hn, ht, hf⟩ := numberByte hc
  rw [hct, cons_append] at hscan ⊢
  rw [parseScalar, token_ne hb hq, skipSpace_cons hb]
  simp [ascii, afterLit, hn.symm, ht.symm, hf.symm, hscan]

theorem parseScalar_quote (h : validString s = true) (rest : Bytes) :
    parseScalar (quote s ++ rest) = some (.str s, rest) := by
  obtain ⟨body, hbody, hun⟩ := unquote_quote h rest
  rw [hbody, cons_append, parseScalar, token_self (by decide)]
  simp only [hun, map_some]

theorem parseScalar_null (rest : Bytes) : parseScalar (ascii "null" ++ rest) = some (.null, rest) := by
  simp [parseScalar, token, skipSpace, afterLit, ascii]

theorem parseScalar_bool (b : Bool) (rest : Bytes) :
    parseScalar ((Json.bool b).encode ++ rest) = some (.bool b, rest) := by
  cases b <;> simp [parseScalar, token, skipSpace, afterLit, ascii, Json.encode]

theorem parseValue_scalar (hb : isBlank c = false) (ha : c ≠ 91) (ho : c ≠ 123) (fuel depth : Nat) (s : Bytes) :
    parseValue (fuel + 1) depth (c :: s) = parseScalar (c :: s) := by
  simp only [parseValue, token_ne hb ha, token_ne hb ho]

theorem parseValue_array (fuel d : Nat) (s : Bytes) :
    parseValue (fuel + 1) (d + 1) (91 :: s) = match token 93 s with
      | some s => some (.arr [], s)
      | none => (parseItems fuel d s).map fun x => (.arr x.1, x.2) := by
  simp only [parseValue, token_punctuation]

theorem parseValue_object (fuel d : Nat) (s : Bytes) :
    parseValue (fuel + 1) (d + 1) (123 :: s) = match token 125 s with
      | some s => some (.obj [], s)
      | none => (parseMembers fuel d s).map fun x => (.obj x.1, x.2) := by
  simp only [parseValue, token_punctuation]

/-- The value is read back with enough fuel. -/
def Survives (d : Nat) (j : Json) : Prop :=
  ∀ fuel rest, j.encode.length < fuel → EndsNumber rest → parseValue fuel d (j.encode ++ rest) = some (j, rest)

/-- A scalar survives when `parseScalar` reads it back. -/
theorem survives_scalar (hct : j.encode = c :: t) (hb : isBlank c = false) (ha : c ≠ 91) (ho : c ≠ 123)
    (h : ∀ rest, EndsNumber rest → parseScalar (j.encode ++ rest) = some (j, rest)) : Survives d j := by
  intro fuel rest hf hrest
  obtain ⟨fuel, rfl⟩ := Nat.exists_eq_succ_of_ne_zero (Nat.ne_of_gt (Nat.zero_lt_of_lt hf))
  have hscalar := h rest hrest
  rw [hct, cons_append] at hscalar ⊢
  rw [parseValue_scalar hb ha ho, hscalar]

theorem Json.Fits.encode_cons (h : j.Fits d) : ∃ c t, j.encode = c :: t ∧ isBlank c = false ∧ c ≠ 93 := by
  cases h with
  | null => exact ⟨_, _, rfl, by decide, by decide⟩
  | bool d b => cases b <;> exact ⟨_, _, rfl, by decide, by decide⟩
  | num d hlit =>
    obtain ⟨c, t, hct, hc⟩ := hlit.cons
    refine ⟨c, t, hct, (numberByte hc).1, ?_⟩
    rintro rfl
    exact absurd hc (by decide)
  | str => exact ⟨_, _, rfl, by decide, by decide⟩
  | arr => exact ⟨_, _, rfl, by decide, by decide⟩
  | obj => exact ⟨_, _, rfl, by decide, by decide⟩

theorem encodeItems_cons_cons (item next : Json) (items : List Json) :
    encodeItems (item :: next :: items) = item.encode ++ 44 :: encodeItems (next :: items) := by
  rw [encodeItems]
  exact nofun

theorem encodeMembers_cons_cons (key : Bytes) (value : Json) (next : Bytes × Json) (members : List (Bytes × Json)) :
    encodeMembers ((key, value) :: next :: members) =
      quote key ++ 58 :: (value.encode ++ 44 :: encodeMembers (next :: members)) := by
  rw [encodeMembers, append_assoc, cons_append]
  exact nofun

theorem Json.Fits.encodeItems_cons (h : j.Fits d) (items : List Json) :
    ∃ c t, encodeItems (j :: items) = c :: t ∧ isBlank c = false ∧ c ≠ 93 := by
  obtain ⟨c, t, hct, hc⟩ := h.encode_cons
  cases items with
  | nil => exact ⟨c, t, hct, hc⟩
  | cons next items => exact ⟨c, _, by rw [encodeItems_cons_cons, hct, cons_append], hc⟩

theorem encodeMembers_cons (m : Bytes × Json) (members : List (Bytes × Json)) :
    ∃ t, encodeMembers (m :: members) = 34 :: t := by
  cases members with
  | nil => exact ⟨_, rfl⟩
  | cons next members => exact ⟨_, encodeMembers_cons_cons ..⟩

theorem endsNumber_of (h : c = 44 ∨ c = 93 ∨ c = 125) (s : Bytes) : EndsNumber (c :: s) := by
  intro d hd
  cases hd
  rcases h with rfl | rfl | rfl <;> decide

theorem parseItems_encode (hne : items ≠ []) (h : ∀ j ∈ items, Survives d j) (fuel : Nat) (rest : Bytes)
    (hf : (encodeItems items).length + 1 < fuel) :
    parseItems fuel d (encodeItems items ++ 93 :: rest) = some (items, rest) := by
  induction items generalizing fuel with
  | nil => exact absurd rfl hne
  | cons item items ih =>
    obtain ⟨fuel, rfl⟩ := Nat.exists_eq_succ_of_ne_zero (Nat.ne_of_gt (Nat.zero_lt_of_lt hf))
    have hitem := h item mem_cons_self
    cases items with
    | nil =>
      simp only [encodeItems] at hf ⊢
      rw [parseItems, hitem fuel (93 :: rest) (by omega) (endsNumber_of (by decide) rest)]
      simp only [bind_eq_bind, bind_some, token_punctuation, map_some]
    | cons next items =>
      rw [encodeItems_cons_cons, length_append, length_cons] at hf
      have htail := ih (cons_ne_nil _ _) (fun j hj => h j (mem_cons_of_mem _ hj)) fuel (by omega)
      rw [encodeItems_cons_cons, append_assoc, cons_append, parseItems,
        hitem fuel _ (by omega) (endsNumber_of (by decide) _)]
      simp only [bind_eq_bind, bind_some, token_punctuation, htail, map_some]

theorem parseKey_quote {key : Bytes} (h : validString key = true) (rest : Bytes) :
    parseKey (quote key ++ 58 :: rest) = some (key, rest) := by
  obtain ⟨body, hbody, hun⟩ := unquote_quote h (58 :: rest)
  rw [hbody, cons_append, parseKey, token_self (by decide)]
  simp only [bind_eq_bind, bind_some, hun, token_punctuation]

theorem parseMembers_encode (hne : members ≠ [])
    (hk : ∀ m ∈ members, validString m.1 = true) (h : ∀ m ∈ members, Survives d m.2)
    (fuel : Nat) (rest : Bytes) (hf : (encodeMembers members).length + 1 < fuel) :
    parseMembers fuel d (encodeMembers members ++ 125 :: rest) = some (members, rest) := by
  induction members generalizing fuel with
  | nil => exact absurd rfl hne
  | cons m members ih =>
    obtain ⟨key, value⟩ := m
    obtain ⟨fuel, rfl⟩ := Nat.exists_eq_succ_of_ne_zero (Nat.ne_of_gt (Nat.zero_lt_of_lt hf))
    have hkey := hk (key, value) mem_cons_self
    have hvalue := h (key, value) mem_cons_self
    cases members with
    | nil =>
      simp only [encodeMembers, length_append, length_cons] at hf ⊢
      rw [append_assoc, cons_append, parseMembers, parseKey_quote hkey]
      simp only [bind_eq_bind, bind_some,
        hvalue fuel (125 :: rest) (by simp only; omega) (endsNumber_of (by decide) rest), token_punctuation,
        map_some]
    | cons next members =>
      simp only [encodeMembers_cons_cons, length_append, length_cons] at hf
      have htail := ih (cons_ne_nil _ _) (fun j hj => hk j (mem_cons_of_mem _ hj))
        (fun j hj => h j (mem_cons_of_mem _ hj)) fuel (by omega)
      have hparse := hvalue fuel (44 :: (encodeMembers (next :: members) ++ 125 :: rest))
        (by simp only; omega) (endsNumber_of (by decide) _)
      simp only [encodeMembers_cons_cons, append_assoc, cons_append]
      rw [parseMembers, parseKey_quote hkey]
      simp only [bind_eq_bind, bind_some, hparse, token_punctuation, htail, map_some]

/-- **Every value survives.** The induction is on the depth of the value. -/
theorem Json.Fits.survives (h : j.Fits d) : Survives d j := by
  induction h with
  | null => exact survives_scalar rfl (by decide) (by decide) (by decide) fun rest _ => parseScalar_null rest
  | bool d b =>
    cases b <;> exact survives_scalar rfl (by decide) (by decide) (by decide) fun rest _ => parseScalar_bool _ rest
  | num d hlit =>
    obtain ⟨c, t, hct, hc⟩ := hlit.cons
    obtain ⟨hb, -, ha, ho, -, -, -⟩ := numberByte hc
    exact survives_scalar hct hb ha ho fun rest hrest => parseScalar_number hlit hrest
  | str d hs => exact survives_scalar rfl (by decide) (by decide) (by decide) fun rest _ => parseScalar_quote hs rest
  | @arr d items hfit ih =>
    intro fuel rest hf _
    obtain ⟨fuel, rfl⟩ := Nat.exists_eq_succ_of_ne_zero (Nat.ne_of_gt (Nat.zero_lt_of_lt hf))
    simp only [Json.encode, length_append, length_cons, length_nil] at hf
    simp only [Json.encode, cons_append, append_assoc, nil_append]
    rw [parseValue_array]
    cases items with
    | nil => simp only [encodeItems, nil_append, token_punctuation]
    | cons item items =>
      have hopen : token 93 (encodeItems (item :: items) ++ 93 :: rest) = none := by
        obtain ⟨c, t, hct, hb, hc⟩ := (hfit item mem_cons_self).encodeItems_cons items
        rw [hct, cons_append, token_ne hb hc]
      simp only [hopen, parseItems_encode (cons_ne_nil _ _) ih fuel rest (by omega), map_some]
  | @obj d members hk hfit ih =>
    intro fuel rest hf _
    obtain ⟨fuel, rfl⟩ := Nat.exists_eq_succ_of_ne_zero (Nat.ne_of_gt (Nat.zero_lt_of_lt hf))
    simp only [Json.encode, length_append, length_cons, length_nil] at hf
    simp only [Json.encode, cons_append, append_assoc, nil_append]
    rw [parseValue_object]
    cases members with
    | nil => simp only [encodeMembers, nil_append, token_punctuation]
    | cons m members =>
      have hopen : token 125 (encodeMembers (m :: members) ++ 125 :: rest) = none := by
        obtain ⟨t, ht⟩ := encodeMembers_cons m members
        rw [ht, cons_append, token_ne (by decide) (by decide)]
      simp only [hopen, parseMembers_encode (cons_ne_nil _ _) hk ih fuel rest (by omega), map_some]

/-- **What the encoder writes is read back.** -/
theorem parseJson_encode (h : j.Fits maxNestingDepth) : parseJson j.encode = some j := by
  have hparse := h.survives (j.encode.length + 1) [] (Nat.lt_succ_self _) nofun
  rw [append_nil] at hparse
  simp only [parseJson, hparse, skipSpace, dropWhile_nil, if_true]

/-! ## No control characters -/

theorem le_hexDigit : ∀ n < 16, 0x20 ≤ hexDigit n := by decide

theorem quoteByte_printable (a : UInt8) : ∀ c ∈ quoteByte a, 0x20 ≤ c := by
  have hescapes : ∀ x ∈ shortEscapes, 0x20 ≤ x.1 := by simp [shortEscapes]
  have hhead : ∀ c ∈ ascii "\\u00", 0x20 ≤ c := by decide +kernel
  intro c hc
  unfold quoteByte at hc
  split at hc
  · next e b hfind =>
    rcases mem_cons.mp hc with rfl | hc
    · decide
    · obtain rfl := mem_singleton.mp hc
      exact hescapes _ (mem_of_find?_eq_some hfind)
  · split at hc
    · rcases mem_append.mp hc with hc | hc
      · exact hhead c hc
      · have ha := a.toNat_lt
        rcases mem_pair.mp hc with rfl | rfl
        all_goals exact le_hexDigit _ (by omega)
    · next ha =>
      obtain rfl := mem_singleton.mp hc
      exact UInt8.not_lt.mp fun hlt => ha (.inl hlt)

/-- A rune is written without control characters, be it one byte or several. -/
theorem quoteRune_printable {bytes : Bytes} (h : (∃ a, bytes = [a]) ∨ ∀ c ∈ bytes, 0x20 ≤ c) :
    ∀ c ∈ quoteRune bytes, 0x20 ≤ c := by
  have hinvalid : ∀ c ∈ ascii "\\ufffd", 0x20 ≤ c := by decide +kernel
  have hsep : ∀ c ∈ ascii "\\u2028" ++ ascii "\\u2029", 0x20 ≤ c := by decide +kernel
  intro c hc
  unfold quoteRune at hc
  split at hc
  · next a =>
    split at hc
    · exact quoteByte_printable a c hc
    · exact hinvalid c hc
  · next hne =>
    have hall := h.resolve_left fun ⟨a, ha⟩ => hne a ha
    split at hc
    · exact hsep c (mem_append_left _ hc)
    · split at hc
      · exact hsep c (mem_append_right _ hc)
      · exact hall c hc

theorem runesFuel_printable (n : Nat) (s : Bytes) : ∀ r ∈ runesFuel n s, ∀ c ∈ quoteRune r.2, 0x20 ≤ c := by
  induction n generalizing s with
  | zero => exact fun r hr => absurd hr not_mem_nil
  | succ n ih =>
    cases s with
    | nil => exact fun r hr => absurd hr not_mem_nil
    | cons a s =>
      intro r hr
      simp only [runesFuel] at hr
      split at hr
      · next v rest hdec =>
        obtain ⟨chunk, rfl, -, hcases⟩ := decodeRune_chunk hdec
        rw [take_chunk] at hr
        rcases mem_cons.mp hr with rfl | hr
        · refine quoteRune_printable ?_
          rcases hcases with ⟨-, rfl⟩ | ⟨ha, -, hcont⟩
          · exact .inl ⟨a, rfl⟩
          · refine .inr fun c hc => UInt8.le_trans (show 0x20 ≤ 0x80 by decide) ?_
            exact forall_mem_cons.mpr ⟨UInt8.not_lt.mp ha, hcont⟩ c hc
        · exact ih rest r hr
      · rcases mem_cons.mp hr with rfl | hr
        · exact quoteRune_printable (.inl ⟨a, rfl⟩)
        · exact ih s r hr

theorem quote_printable (s : Bytes) : ∀ c ∈ quote s, 0x20 ≤ c := by
  refine forall_mem_append.mpr ⟨forall_mem_cons.mpr ⟨by decide, fun c hc => ?_⟩, by simp⟩
  obtain ⟨r, hr, hc⟩ := mem_flatMap.mp hc
  exact runesFuel_printable _ s r hr c hc

theorem encodeItems_printable (h : ∀ j ∈ items, ∀ c ∈ j.encode, 0x20 ≤ c) : ∀ c ∈ encodeItems items, 0x20 ≤ c := by
  induction items with
  | nil => exact fun c hc => absurd hc not_mem_nil
  | cons item items ih =>
    have hitem := h item mem_cons_self
    cases items with
    | nil => exact hitem
    | cons next items =>
      refine forall_mem_append.mpr ⟨hitem, forall_mem_cons.mpr ⟨by decide, ?_⟩⟩
      exact ih fun j hj => h j (mem_cons_of_mem _ hj)

theorem encodeMembers_printable
    (h : ∀ m ∈ members, ∀ c ∈ m.2.encode, 0x20 ≤ c) : ∀ c ∈ encodeMembers members, 0x20 ≤ c := by
  have hmember : ∀ (key : Bytes) (value : Json), (∀ c ∈ value.encode, 0x20 ≤ c) →
      ∀ c ∈ quote key ++ 58 :: value.encode, 0x20 ≤ c := by
    intro key value hv
    exact forall_mem_append.mpr ⟨quote_printable key, forall_mem_cons.mpr ⟨by decide, hv⟩⟩
  induction members with
  | nil => exact fun c hc => absurd hc not_mem_nil
  | cons m members ih =>
    obtain ⟨key, value⟩ := m
    have hfirst := hmember key value (h _ mem_cons_self)
    cases members with
    | nil => exact hfirst
    | cons next members =>
      refine forall_mem_append.mpr ⟨hfirst, forall_mem_cons.mpr ⟨by decide, ?_⟩⟩
      exact ih fun m hm => h m (mem_cons_of_mem _ hm)

/-- **No control character is written**: a value never breaks a line. -/
theorem Json.Fits.printable (h : j.Fits d) : ∀ c ∈ j.encode, 0x20 ≤ c := by
  have hnames : ∀ c ∈ ascii "null" ++ ascii "true" ++ ascii "false", 0x20 ≤ c := by decide +kernel
  induction h with
  | null d => exact fun c hc => hnames c (mem_append_left _ (mem_append_left _ hc))
  | bool d b =>
    cases b with
    | true => exact fun c hc => hnames c (mem_append_left _ (mem_append_right _ hc))
    | false => exact fun c hc => hnames c (mem_append_right _ hc)
  | num d hlit => exact fun c hc => printable_numberChars c (hlit.chars c hc)
  | str d h => exact quote_printable _
  | arr h ih =>
    exact forall_mem_append.mpr ⟨forall_mem_cons.mpr ⟨by decide, encodeItems_printable ih⟩, by simp⟩
  | obj hk h ih =>
    exact forall_mem_append.mpr ⟨forall_mem_cons.mpr ⟨by decide, encodeMembers_printable ih⟩, by simp⟩

end Infra
