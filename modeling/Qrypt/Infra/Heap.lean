import Mathlib

/-!
# Binary heaps that know their positions

The package `container/heap` on a slice of pointers to items, each of which has a field for its own
position, as needed for `heap.Remove` and `heap.Fix`. The field is kept by `swap`, `push` and `pop`.

* `Valid` — the items are ordered by their keys, and each one knows where it is
* `Valid.push`, `Valid.remove` — the operations keep this and add or take the given item
-/

namespace Infra

open List Function

universe u v

variable {α : Type u} {κ : Type v}

/-- The slice, and the position each item has noted. -/
structure IndexedHeap (α : Type u) where
  items : List α
  index : α → Int

def parent (k : Nat) : Nat := (k - 1) / 2

namespace IndexedHeap

/-! ## Parents and children -/

section Order

variable [LinearOrder κ] (key : α → κ)

def less (h : IndexedHeap α) (i j : Nat) : Bool :=
  match h.items[i]?, h.items[j]? with
  | some a, some b => key a < key b
  | _, _ => false

def child (h : IndexedHeap α) (i n : Nat) : Nat :=
  if 2 * i + 2 < n ∧ h.less key (2 * i + 2) (2 * i + 1) = true then 2 * i + 2 else 2 * i + 1

variable {key} {h : IndexedHeap α} {i j k n : Nat}

/-- The item at one position is not after the one at another. -/
def Le (key : α → κ) (h : IndexedHeap α) (i j : Nat) : Prop :=
  ∀ a b, h.items[i]? = some a → h.items[j]? = some b → key a ≤ key b

theorem Le.trans (hij : h.Le key i j) (hjk : h.Le key j k) (hj : j < h.items.length) : h.Le key i k :=
  fun a b ha hb => (hij a _ ha (getElem?_eq_getElem hj)).trans (hjk _ b (getElem?_eq_getElem hj) hb)

theorem le_of_less (hless : h.less key i j = true) : h.Le key i j := by
  intro a b ha hb
  simp only [less, ha, hb, decide_eq_true_eq] at hless
  exact hless.le

theorem le_of_not_less (hless : h.less key i j = false) : h.Le key j i := by
  intro b a hb ha
  simp only [less, ha, hb, decide_eq_false_iff_not, not_lt] at hless
  exact hless

/-- The first `n` items are a heap. -/
def Ordered (key : α → κ) (h : IndexedHeap α) (n : Nat) : Prop :=
  ∀ k, 0 < k → k < n → h.Le key (parent k) k

/-- The order where one item may be before its parent. -/
structure UpOrder (key : α → κ) (h : IndexedHeap α) (j n : Nat) : Prop where
  off : ∀ k, 0 < k → k < n → k ≠ j → h.Le key (parent k) k
  grand : 0 < j → ∀ k, 0 < k → k < n → parent k = j → h.Le key (parent j) k

/-- The order where one item may be anything. -/
structure HoleOrder (key : α → κ) (h : IndexedHeap α) (i n : Nat) : Prop where
  off : ∀ k, 0 < k → k < n → k ≠ i → parent k ≠ i → h.Le key (parent k) k
  grand : 0 < i → ∀ k, 0 < k → k < n → parent k = i → h.Le key (parent i) k

theorem parent_lt (hk : 0 < k) : parent k < k := by
  unfold parent
  omega

theorem UpOrder.stop (ho : h.UpOrder key j n) (hstop : 0 < j → h.Le key (parent j) j) : h.Ordered key n := by
  intro k hk hkn
  by_cases hkj : k = j
  · subst hkj
    exact hstop hk
  · exact ho.off k hk hkn hkj

variable (h key) in
theorem child_spec (hi : 2 * i + 1 < n) : 0 < h.child key i n ∧ h.child key i n < n ∧ parent (h.child key i n) = i ∧
      ∀ k, 0 < k → k < n → parent k = i → h.Le key (h.child key i n) k := by
  have hchildren : ∀ k, 0 < k → parent k = i → k = 2 * i + 1 ∨ k = 2 * i + 2 := by
    intro k hk hp
    unfold parent at hp
    omega
  have hself : ∀ m, h.Le key m m := by
    intro m a b ha hb
    cases ha.symm.trans hb
    exact le_rfl
  unfold child
  split
  · next hright =>
    refine ⟨by omega, hright.1, by unfold parent; omega, fun k hk hkn hp => ?_⟩
    rcases hchildren k hk hp with rfl | rfl
    · exact le_of_less hright.2
    · exact hself _
  · next hleft =>
    refine ⟨by omega, hi, by unfold parent; omega, fun k hk hkn hp => ?_⟩
    rcases hchildren k hk hp with rfl | rfl
    · exact hself _
    · refine le_of_not_less ?_
      rw [← Bool.not_eq_true]
      exact fun hless => hleft ⟨hkn, hless⟩

theorem HoleOrder.stop (hstop : n ≤ 2 * i + 1 ∨ h.less key (h.child key i n) i = false) (hn : n ≤ h.items.length) :
    ∀ k, 0 < k → k < n → parent k = i → h.Le key i k := by
  intro k hk hkn hp
  have hk1 : 2 * i + 1 < n := by
    unfold parent at hp
    omega
  rcases hstop with hstop | hless
  · omega
  · obtain ⟨-, hjn, -, hmin⟩ := child_spec key h hk1
    exact (le_of_not_less hless).trans (hmin k hk hkn hp) (by omega)

end Order

/-! ## The package -/

section Operations

variable [DecidableEq α] [LinearOrder κ] (key : α → κ)

def swap (h : IndexedHeap α) (i j : Nat) : IndexedHeap α :=
  match h.items[i]?, h.items[j]? with
  | some a, some b =>
    { items := (h.items.set i b).set j a
      index := update (update h.index b i) a j }
  | _, _ => h

def up : Nat → IndexedHeap α → Nat → IndexedHeap α
  | 0, h, _ => h
  | fuel + 1, h, j =>
    if parent j = j ∨ h.less key j (parent j) = false then h
    else up fuel (h.swap (parent j) j) (parent j)

/-- The loop of `down`: the heap, and the position where it stops. -/
def down : Nat → IndexedHeap α → Nat → Nat → IndexedHeap α × Nat
  | 0, h, i, _ => (h, i)
  | fuel + 1, h, i, n =>
    if n ≤ 2 * i + 1 ∨ h.less key (h.child key i n) i = false then (h, i)
    else down fuel (h.swap i (h.child key i n)) (h.child key i n) n

def push (h : IndexedHeap α) (a : α) : IndexedHeap α :=
  up key (h.items.length + 1)
    { items := h.items ++ [a], index := update h.index a h.items.length } h.items.length

/-- `Pop` of the slice: takes the last item. -/
def pop (h : IndexedHeap α) : IndexedHeap α :=
  match h.items.getLast? with
  | some a => { items := h.items.dropLast, index := update h.index a (-1) }
  | none => h

def remove (h : IndexedHeap α) (i : Nat) : IndexedHeap α :=
  let n := h.items.length - 1
  if n = i then h.pop
  else
    let (h, i') := down key n (h.swap i n) i n
    if i < i' then h.pop else (up key (i + 1) h i).pop

end Operations

/-! ## Positions -/

variable [DecidableEq α] [LinearOrder κ] {key : α → κ} {h : IndexedHeap α} {i j k n : Nat} {a : α}

/-- Every item is there once and knows its position. -/
structure Indexed (h : IndexedHeap α) : Prop where
  nodup : h.items.Nodup
  index : ∀ {i : Nat} {a : α}, h.items[i]? = some a → h.index a = i

theorem swap_eq (hi : i < h.items.length) (hj : j < h.items.length) :
    h.swap i j = { items := (h.items.set i h.items[j]).set j h.items[i]
                   index := update (update h.index h.items[j] i) h.items[i] j } := by
  simp only [swap, getElem?_eq_getElem hi, getElem?_eq_getElem hj]

theorem length_swap : (h.swap i j).items.length = h.items.length := by
  unfold swap
  split
  · rw [length_set, length_set]
  · rfl

theorem getElem?_swap (hi : i < h.items.length) (hj : j < h.items.length) (k : Nat) :
    (h.swap i j).items[k]? = h.items[Equiv.swap i j k]? := by
  rw [swap_eq hi hj]
  by_cases hkj : k = j
  · rw [hkj, Equiv.swap_apply_right, getElem?_set_self (by rw [length_set]; exact hj),
      getElem?_eq_getElem hi]
  · rw [getElem?_set_ne (Ne.symm hkj)]
    by_cases hki : k = i
    · rw [hki, Equiv.swap_apply_left, getElem?_set_self hi, getElem?_eq_getElem hj]
    · rw [getElem?_set_ne (Ne.symm hki), Equiv.swap_apply_of_ne_of_ne hki hkj]

theorem perm_swap (hi : i < h.items.length) (hj : j < h.items.length) : (h.swap i j).items.Perm h.items := by
  rw [swap_eq hi hj]
  exact set_set_perm hi hj

theorem Indexed.swap (hx : h.Indexed) (hi : i < h.items.length) (hj : j < h.items.length) : (h.swap i j).Indexed where
  nodup := (perm_swap hi hj).nodup_iff.mpr hx.nodup
  index {k a} hk := by
    rw [getElem?_swap hi hj] at hk
    have hidx := hx.index hk
    rw [swap_eq hi hj]
    have hne : ∀ {m} (hm : m < h.items.length), Equiv.swap i j k ≠ m → a ≠ h.items[m] := by
      intro m hm hkm heq
      have := hx.index (getElem?_eq_getElem hm)
      rw [← heq, hidx] at this
      exact hkm (by exact_mod_cast this)
    show update (update h.index h.items[j] i) h.items[i] j a = k
    by_cases hkj : k = j
    · rw [hkj, Equiv.swap_apply_right, getElem?_eq_getElem hi] at hk
      cases hk
      rw [update_self, hkj]
    · have hai : a ≠ h.items[i] := by
        refine hne hi fun heq => hkj ?_
        have := congrArg (Equiv.swap i j) heq
        rwa [Equiv.swap_apply_self, Equiv.swap_apply_left] at this
      rw [update_of_ne hai]
      by_cases hki : k = i
      · rw [hki, Equiv.swap_apply_left, getElem?_eq_getElem hj] at hk
        cases hk
        rw [update_self, hki]
      · have haj : a ≠ h.items[j] := by
          refine hne hj fun heq => hki ?_
          have := congrArg (Equiv.swap i j) heq
          rwa [Equiv.swap_apply_self, Equiv.swap_apply_right] at this
        rw [update_of_ne haj, hidx, Equiv.swap_apply_of_ne_of_ne hki hkj]

theorem index_swap_of_not_mem (ha : a ∉ h.items) : (h.swap i j).index a = h.index a := by
  unfold swap
  split
  · next x y hx hy =>
    have hax : a ≠ x := fun heq => ha (heq ▸ mem_of_getElem? hx)
    have hay : a ≠ y := fun heq => ha (heq ▸ mem_of_getElem? hy)
    show update (update h.index y i) x j a = _
    rw [update_of_ne hax, update_of_ne hay]
  · rfl

/-- The same items, each of which knows its position; nothing changed from position `n` on, nor for other items. -/
structure Moves (h h' : IndexedHeap α) (n : Nat) : Prop where
  indexed : h'.Indexed
  perm : h'.items.Perm h.items
  rest : ∀ k, n ≤ k → h'.items[k]? = h.items[k]?
  index : ∀ a ∉ h.items, h'.index a = h.index a

omit [DecidableEq α] in
theorem Moves.refl (hx : h.Indexed) (n : Nat) : h.Moves h n := ⟨hx, .refl _, fun _ _ => rfl, fun _ _ => rfl⟩

omit [DecidableEq α] in
theorem Moves.trans {h' h'' : IndexedHeap α} (hm : h.Moves h' n) (hm' : h'.Moves h'' n) : h.Moves h'' n where
  indexed := hm'.indexed
  perm := hm'.perm.trans hm.perm
  rest k hk := (hm'.rest k hk).trans (hm.rest k hk)
  index a ha := (hm'.index a fun hmem => ha (hm.perm.mem_iff.mp hmem)).trans (hm.index a ha)

theorem moves_swap (hx : h.Indexed) (hi : i < n) (hj : j < n) (hn : n ≤ h.items.length) : h.Moves (h.swap i j) n where
  indexed := hx.swap (by omega) (by omega)
  perm := perm_swap (by omega) (by omega)
  rest k hk := by rw [getElem?_swap (by omega) (by omega), Equiv.swap_apply_of_ne_of_ne (by omega) (by omega)]
  index _ ha := index_swap_of_not_mem ha

/-! ## Moving an item -/

theorem le_swap (hi : i < h.items.length) (hj : j < h.items.length) (p q : Nat) :
    (h.swap i j).Le key p q ↔ h.Le key (Equiv.swap i j p) (Equiv.swap i j q) := by
  simp only [Le, getElem?_swap hi hj]

/-! ### Moving up -/

theorem UpOrder.step (ho : h.UpOrder key j n) (hj : 0 < j) (hjn : j < n) (hn : n ≤ h.items.length)
    (hless : h.less key j (parent j) = true) : (h.swap (parent j) j).UpOrder key (parent j) n := by
  have hp := parent_lt hj
  have hle := le_of_less hless
  have hi : parent j < h.items.length := by omega
  have hj' : j < h.items.length := by omega
  have hleft : Equiv.swap (parent j) j (parent j) = j := Equiv.swap_apply_left _ _
  have hright : Equiv.swap (parent j) j j = parent j := Equiv.swap_apply_right _ _
  have hother : ∀ {k}, k ≠ parent j → k ≠ j → Equiv.swap (parent j) j k = k :=
    fun h1 h2 => Equiv.swap_apply_of_ne_of_ne h1 h2
  constructor
  · intro k hk hkn hki
    rw [le_swap hi hj']
    by_cases hkj : k = j
    · subst hkj
      rwa [hleft, hright]
    · rw [hother hki hkj]
      by_cases hpj : parent k = j
      · rw [hpj, hright]
        exact ho.grand hj k hk hkn hpj
      · by_cases hpi : parent k = parent j
        · rw [hpi, hleft]
          have hold := ho.off k hk hkn hkj
          rw [hpi] at hold
          exact hle.trans hold hi
        · rw [hother hpi hpj]
          exact ho.off k hk hkn hkj
  · intro hpos k hk hkn hki
    have hpp := parent_lt hpos
    have hold := ho.off (parent j) hpos (by omega) (by omega)
    rw [le_swap hi hj', hother (by omega) (by omega)]
    by_cases hkj : k = j
    · rwa [hkj, hright]
    · have hkp := parent_lt hk
      rw [hother (by omega) hkj]
      have hk' := ho.off k hk hkn hkj
      rw [hki] at hk'
      exact hold.trans hk' hi

/-- **Moving up** keeps the items and restores the order. -/
theorem up_spec (fuel : Nat) (hfuel : j < fuel) (hjn : j < n) (hn : n ≤ h.items.length)
    (hx : h.Indexed) (ho : h.UpOrder key j n) : h.Moves (up key fuel h j) n ∧ (up key fuel h j).Ordered key n := by
  induction fuel generalizing h j with
  | zero => omega
  | succ fuel ih =>
    rw [up]
    split
    · next hstop =>
      refine ⟨.refl hx n, ho.stop fun hj => ?_⟩
      rcases hstop with heq | hless
      · exact absurd heq (Nat.ne_of_lt (parent_lt hj))
      · exact le_of_not_less hless
    · next hgo =>
      rw [not_or, Bool.not_eq_false] at hgo
      have hj : 0 < j := by
        rcases Nat.eq_zero_or_pos j with rfl | hj
        · exact absurd rfl hgo.1
        · exact hj
      have hp := parent_lt hj
      have hswap : h.Moves (h.swap (parent j) j) n := moves_swap hx (by omega) hjn hn
      obtain ⟨hm, ho'⟩ := ih (by omega) (by omega) (by rw [length_swap]; exact hn) hswap.indexed
        (ho.step hj hjn hn hgo.2)
      exact ⟨hswap.trans hm, ho'⟩

/-! ### Moving down -/

/-- After a step down the hole is below, and the order above it holds. -/
theorem HoleOrder.step (ho : h.HoleOrder key i n) (hn : n ≤ h.items.length) (hi : 2 * i + 1 < n)
    (hless : h.less key (h.child key i n) i = true) :
    (h.swap i (h.child key i n)).HoleOrder key (h.child key i n) n ∧
      (h.swap i (h.child key i n)).Le key i (h.child key i n) := by
  obtain ⟨hjpos, hjn, hpj, hmin⟩ := child_spec key h hi
  have hle := le_of_less hless
  generalize h.child key i n = j at hjpos hjn hpj hmin hle ⊢
  have hij : i < j := hpj ▸ parent_lt hjpos
  have hi' : i < h.items.length := by omega
  have hj' : j < h.items.length := by omega
  have hleft : Equiv.swap i j i = j := Equiv.swap_apply_left _ _
  have hright : Equiv.swap i j j = i := Equiv.swap_apply_right _ _
  have hother : ∀ {k}, k ≠ i → k ≠ j → Equiv.swap i j k = k :=
    fun h1 h2 => Equiv.swap_apply_of_ne_of_ne h1 h2
  refine ⟨⟨fun k hk hkn hkj hpkj => ?_, fun _ k hk hkn hpk => ?_⟩, ?_⟩
  · rw [le_swap hi' hj']
    have hpk := parent_lt hk
    by_cases hki : k = i
    · -- the child that moved up is after the parent of the hole
      subst hki
      rw [hleft, hother (by omega) (by omega)]
      exact ho.grand hk j hjpos hjn hpj
    · rw [hother hki hkj]
      by_cases hpi : parent k = i
      · rw [hpi, hleft]
        exact hmin k hk hkn hpi
      · rw [hother hpi hpkj]
        exact ho.off k hk hkn hki hpi
  · have hpk' := parent_lt hk
    rw [le_swap hi' hj', hpj, hleft, hother (by omega) (by omega)]
    have hold := ho.off k hk hkn (by omega) (by omega)
    rwa [hpk] at hold
  · rwa [le_swap hi' hj', hleft, hright]

/-- **Moving down** keeps the items: the hole did not move and is not after its children, or the order is restored. -/
theorem down_spec (fuel : Nat) (hfuel : n ≤ i + fuel) (hin : i < n) (hn : n ≤ h.items.length)
    (hx : h.Indexed) (ho : h.HoleOrder key i n) :
    h.Moves (down key fuel h i n).1 n ∧ i ≤ (down key fuel h i n).2 ∧
      ((0 < i → h.Le key (parent i) i) → (down key fuel h i n).1.Ordered key n) ∧
      (i < (down key fuel h i n).2 → (down key fuel h i n).1.Ordered key n) ∧
      ((down key fuel h i n).2 = i → (down key fuel h i n).1.UpOrder key i n) := by
  induction fuel generalizing h i with
  | zero => omega
  | succ fuel ih =>
    rw [down]
    split
    · next hstop =>
      have hchildren := HoleOrder.stop hstop hn
      have hup : h.UpOrder key i n := by
        refine ⟨fun k hk hkn hki => ?_, ho.grand⟩
        by_cases hp : parent k = i
        · rw [hp]
          exact hchildren k hk hkn hp
        · exact ho.off k hk hkn hki hp
      exact ⟨.refl hx n, Nat.le_refl _, fun hle => hup.stop hle, fun hlt => absurd hlt (Nat.lt_irrefl i), fun _ => hup⟩
    · next hgo =>
      rw [not_or, Bool.not_eq_false, Nat.not_le] at hgo
      obtain ⟨hgo, hless⟩ := hgo
      obtain ⟨hjpos, hjn, hpj, -⟩ := child_spec key h hgo
      obtain ⟨ho', hle'⟩ := ho.step hn hgo hless
      generalize h.child key i n = j at hjpos hjn hpj ho' hle' ⊢
      have hij : i < j := hpj ▸ parent_lt hjpos
      have hswap : h.Moves (h.swap i j) n := moves_swap hx hin hjn hn
      obtain ⟨hm, hge, hordered, -, -⟩ := ih (by omega) hjn (by rw [length_swap]; exact hn) hswap.indexed ho'
      have hdone := hordered fun _ => by rw [hpj]; exact hle'
      exact ⟨hswap.trans hm, by omega, fun _ => hdone, fun _ => hdone, fun heq => by omega⟩

/-! ## The operations -/

/-- The items are a heap and know their positions. -/
structure Valid (key : α → κ) (h : IndexedHeap α) : Prop extends h.Indexed where
  ordered : h.Ordered key h.items.length

omit [DecidableEq α] in
theorem valid_nil (index : α → Int) : Valid key { items := [], index := index } :=
  ⟨⟨nodup_nil, fun hk => nomatch hk⟩, fun _ _ hk => absurd hk (Nat.not_lt_zero _)⟩

omit [DecidableEq α] in
theorem Valid.congr {key' : α → κ} (hv : h.Valid key) (hkey : ∀ a ∈ h.items, key' a = key a) : h.Valid key' := by
  refine ⟨hv.toIndexed, fun k hk hkn a b ha hb => ?_⟩
  rw [hkey a (mem_of_getElem? ha), hkey b (mem_of_getElem? hb)]
  exact hv.ordered k hk hkn a b ha hb

theorem Valid.note (hv : h.Valid key) (ha : a ∉ h.items) (i : Int) :
    Valid key { h with index := update h.index a i } := by
  refine ⟨⟨hv.nodup, fun {k b} hk => ?_⟩, hv.ordered⟩
  have hba : b ≠ a := by
    rintro rfl
    exact ha (mem_of_getElem? hk)
  exact (update_of_ne hba ..).trans (hv.index hk)

omit [DecidableEq α] in
theorem Valid.getElem?_index (hv : h.Valid key) (ha : a ∈ h.items) :
    0 ≤ h.index a ∧ h.items[(h.index a).toNat]? = some a := by
  obtain ⟨i, hi⟩ := mem_iff_getElem?.mp ha
  rw [hv.index hi]
  exact ⟨Int.natCast_nonneg i, hi⟩

theorem pop_spec (hx : h.Indexed) (ho : h.Ordered key n) (hlen : h.items.length = n + 1) (ha : h.items[n]? = some a) :
    h.pop.Valid key ∧ (a :: h.pop.items).Perm h.items ∧ h.pop.index a = -1 ∧
      ∀ b, b ≠ a → h.pop.index b = h.index b := by
  have hitems : h.items = h.items.dropLast ++ [a] := by
    have hne : h.items ≠ [] := by
      intro hnil
      simp [hnil] at hlen
    have hlast : h.items.getLast hne = a := by
      rw [getLast_eq_getElem]
      have := List.getElem?_eq_some_iff.mp ha
      simp only [hlen, Nat.add_sub_cancel]
      exact this.2
    rw [← hlast]
    exact (dropLast_concat_getLast hne).symm
  have hpop : h.pop = { items := h.items.dropLast, index := update h.index a (-1) } := by
    have hlast : h.items.getLast? = some a := by
      rw [hitems]
      exact getLast?_concat
    simp only [pop, hlast]
  have hlen' : h.items.dropLast.length = n := by
    rw [length_dropLast, hlen, Nat.add_sub_cancel]
  have hget : ∀ {k b}, h.items.dropLast[k]? = some b → k < n ∧ h.items[k]? = some b := by
    intro k b hk
    have hkn : k < n := by
      have := (List.getElem?_eq_some_iff.mp hk).1
      omega
    refine ⟨hkn, ?_⟩
    rwa [hitems, List.getElem?_append_left (by omega)]
  rw [hpop]
  refine ⟨⟨⟨?_, fun {k b} hk => ?_⟩, fun k hk hkn x y hx' hy => ?_⟩, ?_, ?_, fun b hb => ?_⟩
  · exact (dropLast_sublist _).nodup hx.nodup
  · obtain ⟨hkn, hk'⟩ := hget hk
    have hba : b ≠ a := by
      rintro rfl
      have := (hx.index ha).symm.trans (hx.index hk')
      omega
    show update h.index a (-1) b = k
    rw [update_of_ne hba, hx.index hk']
  · have hkn : k < n := by
      rwa [← hlen']
    exact ho k hk hkn x y (hget hx').2 (hget hy).2
  · conv_rhs => rw [hitems]
    exact (perm_append_singleton a _).symm
  · exact update_self ..
  · exact update_of_ne hb ..

/-- **`Push`** adds the item. -/
theorem Valid.push (hv : h.Valid key) (ha : a ∉ h.items) :
    (h.push key a).Valid key ∧ (h.push key a).items.Perm (a :: h.items) ∧
      ∀ b, b ∉ h.items → b ≠ a → (h.push key a).index b = h.index b := by
  have hget : ∀ {k : Nat} {b}, (h.items ++ [a])[k]? = some b → h.items[k]? = some b ∨ k = h.items.length ∧ b = a := by
    intro k b hk
    by_cases hlt : k < h.items.length
    · rw [getElem?_append_left hlt] at hk
      exact .inl hk
    · rw [getElem?_append_right (by omega), getElem?_singleton] at hk
      split at hk
      · next hzero =>
        cases hk
        exact .inr ⟨by omega, rfl⟩
      · cases hk
  have hx : ({ items := h.items ++ [a],
               index := update h.index a h.items.length } : IndexedHeap α).Indexed := by
    refine ⟨?_, fun {k b} hk => ?_⟩
    · rw [nodup_append]
      refine ⟨hv.nodup, pairwise_singleton _ a, ?_⟩
      rintro x hx y hy rfl
      exact ha (mem_singleton.mp hy ▸ hx)
    · show update h.index a h.items.length b = k
      rcases hget hk with hold | ⟨rfl, rfl⟩
      · have hba : b ≠ a := by
          rintro rfl
          exact ha (mem_of_getElem? hold)
        rw [update_of_ne hba, hv.index hold]
      · exact update_self ..
  have hlen : (h.items ++ [a]).length = h.items.length + 1 := length_append
  have ho : ({ items := h.items ++ [a],
               index := update h.index a h.items.length } : IndexedHeap α).UpOrder key
      h.items.length (h.items.length + 1) := by
    refine ⟨fun k hk hkn hne x y hx hy => ?_, fun _ k hk hkn hp => ?_⟩
    · have hpk := parent_lt hk
      have hkl : k < h.items.length := by omega
      rcases hget hx with hx | ⟨heq, -⟩
      · rcases hget hy with hy | ⟨heq, -⟩
        · exact hv.ordered k hk hkl x y hx hy
        · omega
      · omega
    · have hpk := parent_lt hk
      omega
  obtain ⟨hm, ho'⟩ := up_spec (h.items.length + 1) (Nat.lt_succ_self _) (Nat.lt_succ_self _)
    (Nat.le_of_eq hlen.symm) hx ho
  have hlen' : (h.push key a).items.length = h.items.length + 1 := hm.perm.length_eq.trans hlen
  refine ⟨⟨hm.indexed, ?_⟩, hm.perm.trans (perm_append_singleton a _), fun b hb hba => ?_⟩
  · rwa [hlen']
  · have hmem : b ∉ h.items ++ [a] := by
      rw [mem_append, mem_singleton, not_or]
      exact ⟨hb, hba⟩
    exact (hm.index b hmem).trans (update_of_ne hba ..)

/-- **`Remove`** takes the item at the position. -/
theorem Valid.remove (hv : h.Valid key) (ha : h.items[i]? = some a) :
    (h.remove key i).Valid key ∧ (a :: (h.remove key i).items).Perm h.items ∧ (h.remove key i).index a = -1 ∧
      ∀ b, b ∉ h.items → (h.remove key i).index b = h.index b := by
  have hi : i < h.items.length := (List.getElem?_eq_some_iff.mp ha).1
  obtain ⟨n, hn⟩ : ∃ n, h.items.length = n + 1 := Nat.exists_eq_succ_of_ne_zero (by omega)
  have hstart : ∀ {m}, m ≤ h.items.length → h.Ordered key m :=
    fun hm k hk hkm => hv.ordered k hk (by omega)
  have hnot : ∀ {b}, b ∉ h.items → b ≠ a := by
    rintro b hb rfl
    exact hb (mem_of_getElem? ha)
  unfold IndexedHeap.remove
  simp only [hn, Nat.add_sub_cancel]
  split
  · next heq =>
    subst heq
    obtain ⟨hv', hperm, hindex, hrest⟩ := pop_spec hv.toIndexed (hstart (by omega)) hn ha
    exact ⟨hv', hperm, hindex, fun b hb => hrest b (hnot hb)⟩
  · next hne =>
    have hin : i < n := by omega
    have hnl : n < h.items.length := by omega
    -- the last item takes the place, and may belong above or below it
    have hhole : (h.swap i n).HoleOrder key i n := by
      have hother : ∀ {k}, k ≠ i → k ≠ n → Equiv.swap i n k = k :=
        fun h1 h2 => Equiv.swap_apply_of_ne_of_ne h1 h2
      refine ⟨fun k hk hkn hki hpi => ?_, fun hpos k hk hkn hp => ?_⟩
      · have hpk := parent_lt hk
        rw [le_swap hi hnl, hother hki (by omega), hother hpi (by omega)]
        exact hv.ordered k hk (by omega)
      · have hpk := parent_lt hk
        have hpp := parent_lt hpos
        rw [le_swap hi hnl, hother (by omega) (by omega), hother (by omega) (by omega)]
        have hk' := hv.ordered k hk (by omega)
        rw [hp] at hk'
        exact (hv.ordered i hpos hi).trans hk' hi
    have hlast : (h.swap i n).items[n]? = some a := by
      rwa [getElem?_swap hi hnl, Equiv.swap_apply_right]
    obtain ⟨hdown, hge, -, hmoved, hstayed⟩ := down_spec n (Nat.le_add_left n i) hin
      (by rw [length_swap]; omega) (hv.toIndexed.swap hi hnl) hhole
    have hfinish : ∀ {h'}, (h.swap i n).Moves h' n → h'.Ordered key n →
        h'.pop.Valid key ∧ (a :: h'.pop.items).Perm h.items ∧ h'.pop.index a = -1 ∧
          ∀ b, b ∉ h.items → h'.pop.index b = h.index b := by
      intro h' hm ho
      have hperm := hm.perm.trans (perm_swap hi hnl)
      obtain ⟨hv', hp, hia, hib⟩ := pop_spec hm.indexed ho (hperm.length_eq.trans hn)
        ((hm.rest n (Nat.le_refl n)).trans hlast)
      refine ⟨hv', hp.trans hperm, hia, fun b hb => (hib b (hnot hb)).trans ?_⟩
      rw [hm.index b fun hmem => hb ((perm_swap hi hnl).mem_iff.mp hmem), index_swap_of_not_mem hb]
    split
    · next hlt => exact hfinish hdown (hmoved hlt)
    · next hlt =>
      have hlen : (down key n (h.swap i n) i n).1.items.length = n + 1 := by
        rw [hdown.perm.length_eq, length_swap, hn]
      obtain ⟨hup, ho'⟩ := up_spec (i + 1) (Nat.lt_succ_self i) hin (by omega) hdown.indexed (hstayed (by omega))
      exact hfinish (hdown.trans hup) ho'

end IndexedHeap

end Infra
