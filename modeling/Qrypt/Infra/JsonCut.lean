import Qrypt.Infra.Json

/-!
# Torn JSON

A write that breaks off leaves the beginning of a text. The beginning of an object is no value, so a
reader does not take it for one (`parseJson_cut`). Of the other values only a number can be read from
its beginning, and then nothing is left; inside an object or an array the bracket is missing.
-/

namespace Infra

open List Option

/-! ## Strings -/

variable {s : Bytes} {t chunk q : Bytes} {a c : UInt8} {fuel : Nat} {j : Json} {items : List Json}

theorem hex4_suffix {v : Nat} (h : hex4 s = some (v, t)) : t <:+ s := by
  unfold hex4 at h
  split at h
  · next a b c d rest =>
    split at h
    · cases h
      exact ⟨[a, b, c, d], rfl⟩
    · cases h
  · cases h

theorem surrogate_suffix (v : Nat) (s : Bytes) : (surrogate v s).2 <:+ s := by
  unfold surrogate
  split
  · split
    · next a b rest =>
      split
      · split
        · next w rest' hhex =>
          split
          · exact (hex4_suffix hhex).trans ⟨[a, b], rfl⟩
          · exact suffix_refl _
        · exact suffix_refl _
      · exact suffix_refl _
    · exact suffix_refl _
  · exact suffix_refl _

theorem unquoteChar_suffix {b : Bytes} (h : unquoteChar s = some (b, t)) : t <:+ s := by
  unfold unquoteChar at h
  split at h
  · cases h
  · next a rest =>
    split at h
    · cases h
    · split at h
      · split at h
        · cases h
        · next e rest =>
          have htail : rest <:+ a :: e :: rest := ⟨[a, e], rfl⟩
          split at h
          · obtain ⟨x, hx, hsurrogate⟩ := map_eq_some_iff.mp h
            have hs := (surrogate_suffix x.1 x.2).trans (hex4_suffix hx)
            rw [hsurrogate] at hs
            exact hs.trans htail
          · split at h
            · cases h
              exact htail
            · obtain ⟨x, -, hx⟩ := map_eq_some_iff.mp h
              cases hx
              exact htail
      · split at h
        · next v rest' hdec =>
          cases h
          obtain ⟨chunk, rfl, -, -⟩ := decodeRune_chunk hdec
          exact ⟨a :: chunk, rfl⟩
        · cases h
          exact ⟨[a], rfl⟩

theorem quote_mem_of_unquoteFuel {n : Nat} {x : Bytes × Bytes} (h : unquoteFuel n s = some x) : 34 ∈ s := by
  induction n generalizing s x with
  | zero => cases h
  | succ n ih =>
    simp only [unquoteFuel] at h
    split at h
    · next b rest hchar =>
      obtain ⟨y, hy, -⟩ := map_eq_some_iff.mp h
      exact (unquoteChar_suffix hchar).subset (ih hy)
    · split at h
      · next hhead => exact mem_of_mem_head? hhead
      · cases h

theorem quoteByte_shape (a : UInt8) : (∃ e, quoteByte a = [92, e]) ∨ 34 ∉ quoteByte a := by
  have hdigit : ∀ n < 16, hexDigit n ≠ 34 := by decide
  have hhead : 34 ∉ ascii "\\u00" := by decide
  unfold quoteByte
  split
  · next e b hfind => exact .inl ⟨e, rfl⟩
  · next hfind =>
    right
    have ha := a.toNat_lt
    split
    · intro hmem
      rcases mem_append.mp hmem with hmem | hmem
      · exact hhead hmem
      · rcases mem_pair.mp hmem with hmem | hmem <;> exact hdigit _ (by omega) hmem.symm
    · intro hmem
      obtain rfl := mem_singleton.mp hmem
      exact absurd hfind (by decide)

theorem quoteRune_shape (hc : a < 0x80 ∧ chunk = [] ∨ ¬ a < 0x80 ∧ chunk ≠ [] ∧ ∀ c ∈ chunk, 0x80 ≤ c) :
    (∃ e, quoteRune (a :: chunk) = [92, e]) ∨ 34 ∉ quoteRune (a :: chunk) := by
  rcases hc with ⟨ha, rfl⟩ | ⟨ha, hne, hcont⟩
  · rw [quoteRune, if_pos ha]
    exact quoteByte_shape a
  · obtain ⟨b, chunk, rfl⟩ := exists_cons_of_ne_nil hne
    right
    simp only [quoteRune]
    split
    · decide
    · split
      · decide
      · intro hmem
        rcases mem_cons.mp hmem with rfl | hmem
        · exact ha (by decide)
        · exact absurd (hcont 34 hmem) (by decide)

theorem not_mem_of_quoteRune_cut (hc : a < 0x80 ∧ chunk = [] ∨ ¬ a < 0x80 ∧ chunk ≠ [] ∧ ∀ c ∈ chunk, 0x80 ≤ c)
    (hq : q <+: quoteRune (a :: chunk)) (hne : q ≠ quoteRune (a :: chunk)) : 34 ∉ q := by
  rcases quoteRune_shape hc with ⟨e, he⟩ | hnot
  · rw [he] at hq hne
    rcases prefix_cons_iff.mp hq with rfl | ⟨t, rfl, ht⟩
    · decide
    · rcases prefix_cons_iff.mp ht with rfl | ⟨t, rfl, hnil⟩
      · decide
      · rw [prefix_nil.mp hnil] at hne
        exact absurd rfl hne
  · exact fun hmem => hnot (hq.subset hmem)

/-- **The beginning of a string is not read as a string.** The induction follows the runes. -/
theorem unquoteFuel_cut (n : Nat) (s : Bytes) (h : validStringFuel n s = true)
    (hq : q <+: (runesFuel n s).flatMap fun r => quoteRune r.2) (m : Nat) : unquoteFuel m q = none := by
  have hend : ∀ m, unquoteFuel m [] = none := by
    intro m
    cases m with
    | zero => rfl
    | succ m => rfl
  induction n generalizing s q m with
  | zero =>
    obtain rfl := prefix_nil.mp hq
    exact hend m
  | succ n ih =>
    cases s with
    | nil =>
      obtain rfl := prefix_nil.mp hq
      exact hend m
    | cons a s =>
      simp only [validStringFuel, isEmpty_cons, Bool.false_or] at h
      rcases hdec : decodeRune (a :: s) with _ | ⟨v, rest⟩
      · simp [hdec] at h
      · simp only [hdec] at h
        obtain ⟨chunk, rfl, hchunk, hcases⟩ := decodeRune_chunk hdec
        simp only [runesFuel, hdec, take_chunk, flatMap_cons] at hq
        by_cases hwhole : quoteRune (a :: chunk) <+: q
        · obtain ⟨q, rfl⟩ := hwhole
          have hrest := ih rest h ((prefix_append_right_inj _).mp hq)
          cases m with
          | zero => rfl
          | succ m =>
            rw [unquoteFuel, unquoteChar_quoteRune hchunk hcases]
            simp only [hrest m, map_none]
        · have hcut := (List.prefix_or_prefix_of_prefix hq (prefix_append _ _)).resolve_right hwhole
          have hnot : 34 ∉ q := not_mem_of_quoteRune_cut hcases hcut fun heq => hwhole (heq ▸ prefix_refl _)
          exact eq_none_iff_forall_ne_some.mpr fun x hx => hnot (quote_mem_of_unquoteFuel hx)

variable {p : Bytes}

theorem cut_quote (hp : p <+: quote s) (hne : p ≠ quote s) :
    p = [] ∨ ∃ q, p = 34 :: q ∧ q <+: (runes s).flatMap fun r => quoteRune r.2 := by
  cases p with
  | nil => exact .inl rfl
  | cons c q =>
    have hp' := hp
    rcases prefix_concat_iff.mp hp' with heq | hcut
    · exact absurd heq hne
    · obtain ⟨rfl, hq⟩ := cons_prefix_cons.mp hcut
      exact .inr ⟨q, rfl, hq⟩

theorem parseScalar_quote_cut (h : validString s = true) (hp : p <+: quote s)
    (hne : p ≠ quote s) : parseScalar p = none := by
  rcases cut_quote hp hne with rfl | ⟨q, rfl, hq⟩
  · rfl
  · rw [parseScalar, token_self (by decide)]
    simp only [unquote, unquoteFuel_cut _ s h hq, map_none]

theorem parseKey_cut {key : Bytes} (h : validString key = true) (hp : p <+: quote key) : parseKey p = none := by
  by_cases hne : p = quote key
  · obtain ⟨body, hbody, hun⟩ := unquote_quote h []
    rw [append_nil] at hun
    rw [hne, hbody, parseKey, token_self (by decide)]
    simp only [bind_eq_bind, bind_some, hun]
    rfl
  · rcases cut_quote hp hne with rfl | ⟨q, rfl, hq⟩
    · rfl
    · rw [parseKey, token_self (by decide)]
      simp only [bind_eq_bind, bind_some, unquote, unquoteFuel_cut _ key h hq, bind_none]

/-! ## Numbers and names -/

variable {x : Json × Bytes}

theorem parseScalar_number_cut {lit : Bytes} (hlit : IsNumber lit) (hp : p <+: lit)
    (h : parseScalar p = some x) : x.2 = [] := by
  cases p with
  | nil => cases h
  | cons c p =>
    obtain ⟨c', t, hct, hc⟩ := hlit.cons
    have hcc : c = c' := by
      rw [hct] at hp
      exact (cons_prefix_cons.mp hp).1
    rw [← hcc] at hc
    obtain ⟨hb, hq, -, -, hn, ht, hf⟩ := numberByte hc
    rw [parseScalar, token_ne hb hq, skipSpace_cons hb] at h
    simp [ascii, afterLit, hn.symm, ht.symm, hf.symm] at h
    obtain ⟨lit', rest, hy, rfl⟩ := h
    exact hlit.cut hp hy

theorem parseScalar_name_cut : ∀ name ∈ [ascii "null", ascii "true", ascii "false"],
    ∀ p ∈ name.inits, p ≠ name → (parseScalar p).isNone = true := by
  decide

/-! ## Fuel -/

theorem parse_succ (fuel : Nat) : (∀ d s x, parseValue fuel d s = some x → parseValue (fuel + 1) d s = some x) ∧
    (∀ d s x, parseItems fuel d s = some x → parseItems (fuel + 1) d s = some x) ∧
    ∀ d s x, parseMembers fuel d s = some x → parseMembers (fuel + 1) d s = some x := by
  induction fuel with
  | zero => exact ⟨nofun, nofun, nofun⟩
  | succ fuel ih =>
    obtain ⟨hvalue, hitems, hmembers⟩ := ih
    refine ⟨fun d s x h => ?_, fun d s x h => ?_, fun d s x h => ?_⟩
    · simp only [parseValue] at h ⊢
      split at h
      · split at h
        · exact h
        · obtain ⟨y, hy, rfl⟩ := map_eq_some_iff.mp h
          simp only [hitems _ _ y hy, map_some]
      · split at h
        · exact h
        · obtain ⟨y, hy, rfl⟩ := map_eq_some_iff.mp h
          simp only [hmembers _ _ y hy, map_some]
      · exact h
      · cases h
    · rw [parseItems] at h ⊢
      obtain ⟨y, hy, h⟩ := bind_eq_some_iff.mp h
      rw [hvalue d s y hy]
      simp only [bind_eq_bind, bind_some] at h ⊢
      split at h
      · obtain ⟨z, hz, rfl⟩ := map_eq_some_iff.mp h
        simp only [hitems _ _ z hz, map_some]
      · exact h
    · rw [parseMembers] at h ⊢
      obtain ⟨k, hk, h⟩ := bind_eq_some_iff.mp h
      obtain ⟨y, hy, h⟩ := bind_eq_some_iff.mp h
      rw [hk]
      simp only [bind_eq_bind, bind_some, hvalue d _ y hy] at h ⊢
      split at h
      · obtain ⟨z, hz, rfl⟩ := map_eq_some_iff.mp h
        simp only [hmembers _ _ z hz, map_some]
      · exact h

variable {d : Nat}

theorem parseValue_mono (h : parseValue fuel d s = some x) (more : Nat) : parseValue (fuel + more) d s = some x := by
  induction more with
  | zero => exact h
  | succ more ih => exact (parse_succ _).1 d s x ih

theorem Survives.eq_of_some {rest : Bytes} (h : Survives d j) (hrest : EndsNumber rest)
    (hx : parseValue fuel d (j.encode ++ rest) = some x) : x = (j, rest) := by
  have hmore := parseValue_mono hx (j.encode.length + 1)
  rw [h _ rest (by omega) hrest] at hmore
  exact (some.inj hmore).symm

/-! ## Values -/

/-- Of a part of the value nothing but a number is read, and then nothing is left. -/
def CutShort (d : Nat) (j : Json) : Prop :=
  ∀ fuel p, p <+: j.encode → p ≠ j.encode → ∀ x, parseValue fuel d p = some x → x.2 = []

theorem parseValue_nil (fuel d : Nat) : parseValue fuel d [] = none := by
  cases fuel with
  | zero => rfl
  | succ fuel => rfl

theorem cutShort_scalar (hct : j.encode = c :: t) (hb : isBlank c = false) (ha : c ≠ 91) (ho : c ≠ 123)
    (h : ∀ p, p <+: j.encode → p ≠ j.encode → ∀ x, parseScalar p = some x → x.2 = []) : CutShort d j := by
  intro fuel p hp hne x hx
  cases p with
  | nil => simp [parseValue_nil] at hx
  | cons b p =>
    cases fuel with
    | zero => cases hx
    | succ fuel =>
      have hbc : b = c := by
        rw [hct] at hp
        exact (cons_prefix_cons.mp hp).1
      rw [hbc] at hx hp hne
      rw [parseValue_scalar hb ha ho] at hx
      exact h _ hp hne x hx

/-- The beginning of two texts is that of the first, or the first and the beginning of the second. -/
theorem cut_append {v w : Bytes} (h : p <+: v ++ w) : (p <+: v ∧ p ≠ v) ∨ ∃ q, p = v ++ q ∧ q <+: w := by
  by_cases hv : v <+: p
  · obtain ⟨q, rfl⟩ := hv
    exact .inr ⟨q, rfl, (prefix_append_right_inj v).mp h⟩
  · have hp := (List.prefix_or_prefix_of_prefix h (prefix_append v w)).resolve_right hv
    exact .inl ⟨hp, fun heq => hv (heq ▸ prefix_refl _)⟩

theorem CutShort.eq_nil (hc : CutShort d j)
    (hs : Survives d j) (hp : p <+: j.encode) (hx : parseValue fuel d p = some x) : x.2 = [] := by
  by_cases hne : p = j.encode
  · have hends : EndsNumber [] := nofun
    rw [hne, ← append_nil j.encode] at hx
    rw [hs.eq_of_some hends hx]
  · exact hc fuel p hp hne x hx

theorem parseItems_cut (hs : ∀ j ∈ items, Survives d j)
    (hc : ∀ j ∈ items, CutShort d j) (hp : p <+: encodeItems items) (fuel : Nat) : parseItems fuel d p = none := by
  induction items generalizing p fuel with
  | nil =>
    obtain rfl := prefix_nil.mp hp
    cases fuel with
    | zero => rfl
    | succ fuel => simp [parseItems, parseValue_nil]
  | cons item items ih =>
    have hsitem := hs item mem_cons_self
    have hcitem := hc item mem_cons_self
    cases fuel with
    | zero => rfl
    | succ fuel =>
      -- the text ends with the item, or inside it: no bracket follows
      have hlast : ∀ q, q <+: item.encode → parseItems (fuel + 1) d q = none := by
        intro q hq
        rw [parseItems]
        rcases hparse : parseValue fuel d q with _ | ⟨v, r⟩
        · rfl
        · obtain rfl : r = [] := hcitem.eq_nil hsitem hq hparse
          rfl
      cases items with
      | nil => exact hlast p hp
      | cons next items =>
        rcases cut_append hp with ⟨hcut, -⟩ | ⟨q, rfl, hq⟩
        · exact hlast p hcut
        · cases q with
          | nil =>
            rw [append_nil]
            exact hlast _ (prefix_refl _)
          | cons c q =>
            obtain ⟨rfl, hrest⟩ := cons_prefix_cons.mp hq
            have htail := ih (fun j hj => hs j (mem_cons_of_mem _ hj))
              (fun j hj => hc j (mem_cons_of_mem _ hj)) hrest fuel
            rw [parseItems]
            rcases hparse : parseValue fuel d (item.encode ++ 44 :: q) with _ | x
            · rfl
            · rw [hsitem.eq_of_some (endsNumber_of (by decide) _) hparse]
              simp only [bind_eq_bind, bind_some, token_punctuation, htail, map_none]

variable {members : List (Bytes × Json)}

theorem parseMembers_cut (hk : ∀ m ∈ members, validString m.1 = true) (hs : ∀ m ∈ members, Survives d m.2)
    (hc : ∀ m ∈ members, CutShort d m.2) (hp : p <+: encodeMembers members) (fuel : Nat) :
    parseMembers fuel d p = none := by
  induction members generalizing p fuel with
  | nil =>
    obtain rfl := prefix_nil.mp hp
    cases fuel with
    | zero => rfl
    | succ fuel => rfl
  | cons m members ih =>
    obtain ⟨key, value⟩ := m
    have hkey := hk (key, value) mem_cons_self
    have hsvalue : Survives d value := hs (key, value) mem_cons_self
    have hcvalue : CutShort d value := hc (key, value) mem_cons_self
    cases fuel with
    | zero => rfl
    | succ fuel =>
      -- the text ends with the value, or before: no bracket follows
      have hlast : ∀ q, q <+: quote key ++ 58 :: value.encode → parseMembers (fuel + 1) d q = none := by
        intro q hq
        rcases cut_append hq with ⟨hcut, -⟩ | ⟨q', rfl, hq'⟩
        · simp [parseMembers, parseKey_cut hkey hcut]
        · cases q' with
          | nil => simp [parseMembers, parseKey_cut hkey (prefix_refl _)]
          | cons c q' =>
            obtain ⟨rfl, hvalue⟩ := cons_prefix_cons.mp hq'
            rw [parseMembers, parseKey_quote hkey]
            simp only [bind_eq_bind, bind_some]
            rcases hparse : parseValue fuel d q' with _ | ⟨v, r⟩
            · rfl
            · obtain rfl : r = [] := hcvalue.eq_nil hsvalue hvalue hparse
              rfl
      cases members with
      | nil => exact hlast p hp
      | cons next members =>
        rcases cut_append hp with ⟨hcut, -⟩ | ⟨q, rfl, hq⟩
        · exact hlast p hcut
        · cases q with
          | nil =>
            rw [append_nil]
            exact hlast _ (prefix_refl _)
          | cons c q =>
            obtain ⟨rfl, hrest⟩ := cons_prefix_cons.mp hq
            have htail := ih (fun j hj => hk j (mem_cons_of_mem _ hj))
              (fun j hj => hs j (mem_cons_of_mem _ hj)) (fun j hj => hc j (mem_cons_of_mem _ hj)) hrest fuel
            rw [append_assoc, cons_append, parseMembers, parseKey_quote hkey]
            simp only [bind_eq_bind, bind_some]
            rcases hparse : parseValue fuel d (value.encode ++ 44 :: q) with _ | x
            · rfl
            · rw [hsvalue.eq_of_some (endsNumber_of (by decide) _) hparse]
              simp only [bind_some, token_punctuation, htail, map_none]

/-- The text of an object up to its closing bracket, or a part of it. -/
theorem cut_brackets {o e : UInt8} {body : Bytes} (hp : p <+: o :: body ++ [e])
    (hne : p ≠ o :: body ++ [e]) : p = [] ∨ ∃ q, p = o :: q ∧ q <+: body := by
  cases p with
  | nil => exact .inl rfl
  | cons c q =>
    obtain ⟨rfl, hq⟩ := cons_prefix_cons.mp ((prefix_concat_iff.mp hp).resolve_left hne)
    exact .inr ⟨q, rfl, hq⟩

theorem parseValue_array_cut (hfit : ∀ j ∈ items, j.Fits d) (hc : ∀ j ∈ items, CutShort d j) (fuel : Nat)
    (hp : p <+: (Json.arr items).encode) (hne : p ≠ (Json.arr items).encode) : parseValue fuel (d + 1) p = none := by
  rcases cut_brackets hp hne with rfl | ⟨q, rfl, hq⟩
  · exact parseValue_nil _ _
  · cases fuel with
    | zero => rfl
    | succ fuel =>
      have hopen : token 93 q = none := by
        cases q with
        | nil => rfl
        | cons b q =>
          cases items with
          | nil => exact absurd (prefix_nil.mp hq) (cons_ne_nil _ _)
          | cons item items =>
            obtain ⟨c, t, hct, hb, h93⟩ := (hfit item mem_cons_self).encodeItems_cons items
            rw [hct] at hq
            obtain ⟨rfl, -⟩ := cons_prefix_cons.mp hq
            exact token_ne hb h93 q
      rw [parseValue_array, hopen]
      simp only [parseItems_cut (fun j hj => (hfit j hj).survives) hc hq, map_none]

theorem parseValue_object_cut (hk : ∀ m ∈ members, validString m.1 = true) (hfit : ∀ m ∈ members, m.2.Fits d)
    (hc : ∀ m ∈ members, CutShort d m.2) (fuel : Nat)
    (hp : p <+: (Json.obj members).encode) (hne : p ≠ (Json.obj members).encode) :
    parseValue fuel (d + 1) p = none := by
  rcases cut_brackets hp hne with rfl | ⟨q, rfl, hq⟩
  · exact parseValue_nil _ _
  · cases fuel with
    | zero => rfl
    | succ fuel =>
      have hopen : token 125 q = none := by
        cases q with
        | nil => rfl
        | cons b q =>
          cases members with
          | nil => exact absurd (prefix_nil.mp hq) (cons_ne_nil _ _)
          | cons m members =>
            obtain ⟨t, ht⟩ := encodeMembers_cons m members
            rw [ht] at hq
            obtain ⟨rfl, -⟩ := cons_prefix_cons.mp hq
            exact token_ne (by decide) (by decide) q
      rw [parseValue_object, hopen]
      simp only [parseMembers_cut hk (fun m hm => (hfit m hm).survives) hc hq, map_none]

theorem cutShort_name (hct : j.encode = c :: t) (hb : isBlank c = false) (ha : c ≠ 91) (ho : c ≠ 123)
    (hname : j.encode ∈ [ascii "null", ascii "true", ascii "false"]) : CutShort d j := by
  refine cutShort_scalar hct hb ha ho fun p hp hne x hx => ?_
  have hnone := parseScalar_name_cut _ hname p ((mem_inits _ _).mpr hp) hne
  simp [hx] at hnone

/-- Every value is cut short. The induction is on the depth of the value. -/
theorem Json.Fits.cutShort (h : j.Fits d) : CutShort d j := by
  induction h with
  | null => exact cutShort_name rfl (by decide) (by decide) (by decide) (by decide)
  | bool d b =>
    cases b with
    | false => exact cutShort_name rfl (by decide) (by decide) (by decide) (by decide)
    | true => exact cutShort_name rfl (by decide) (by decide) (by decide) (by decide)
  | num d hlit =>
    obtain ⟨c, t, hct, hc⟩ := hlit.cons
    obtain ⟨hb, -, ha, ho, -, -, -⟩ := numberByte hc
    exact cutShort_scalar hct hb ha ho fun p hp _ x hx => parseScalar_number_cut hlit hp hx
  | str d hs =>
    refine cutShort_scalar rfl (by decide) (by decide) (by decide) fun p hp hne x hx => ?_
    simp [parseScalar_quote_cut hs hp hne] at hx
  | @arr d items hfit ih =>
    intro fuel p hp hne x hx
    simp [parseValue_array_cut hfit ih fuel hp hne] at hx
  | @obj d members hk hfit ih =>
    intro fuel p hp hne x hx
    simp [parseValue_object_cut hk hfit ih fuel hp hne] at hx

/-- **The beginning of an object is no value.** -/
theorem parseJson_cut (h : (Json.obj members).Fits maxNestingDepth)
    (hp : p <+: (Json.obj members).encode) (hne : p ≠ (Json.obj members).encode) : parseJson p = none := by
  have hnone : parseValue (p.length + 1) maxNestingDepth p = none := by
    cases h with
    | obj hk hfit => exact parseValue_object_cut hk hfit (fun m hm => (hfit m hm).cutShort) _ hp hne
  simp only [parseJson, hnone]

end Infra
