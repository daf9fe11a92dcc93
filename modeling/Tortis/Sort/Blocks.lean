import Tortis.Sort.Merging
import Tortis.Sort.UnstableSort

/-!
# Partitioning in blocks

Between the elements that are known to be smaller than the pivot and those that are known not to be,
each side has a block in which the elements that are out of order are recorded (`Block.Out`,
`Zones`). The cyclic permutation exchanges as many of them as both sides have, so one block is used
up in each round; what is left at the end is moved within its block.
-/

namespace Tortis.Sort

open Slice Compare Outcome List

variable {α σ : Type} {isLess : IsLess α σ} {pivot : α} {v : List α}

/-- The comparator has answered `b` for the element at `k` and the pivot. -/
def Told (isLess : IsLess α σ) (pivot : α) (v : List α) (k : Nat) (b : Bool) : Prop :=
  ∀ a, v[k]? = some a → Answers isLess a pivot b

theorem Told.exchange {i j k : Nat} {b : Bool} (hi : i < v.length) (hj : j < v.length) :
    Told isLess pivot (exchange v i j) k b ↔ Told isLess pivot v (Equiv.swap i j k) b := by
  rw [Told, Told, exchange_getElem? hi hj]

/-! ## Offsets -/

/-- The offsets of a side from `start` to `end_` stand for these places. -/
structure Block.Out (side : Block) (place : Nat → Outcome Nat) (places : List Nat) : Prop where
  offsets : ∃ pre offs post, side.offsets = pre ++ offs.map some ++ post ∧
    side.start = pre.length ∧ List.Forall₂ (fun i k => place i = .ok k) offs places
  end_ : side.end_ = side.start + places.length
  length : side.offsets.length = BLOCK

section
variable {side : Block} {place : Nat → Outcome Nat} {places : List Nat}

section
variable (h : side.Out place places)
include h

theorem Block.Out.start_eq_end : side.start = side.end_ ↔ places = [] := by
  rw [h.end_, ← length_eq_zero_iff]
  omega

theorem Block.Out.start_lt_end : side.start < side.end_ ↔ places ≠ [] := by
  rw [h.end_, ← length_pos_iff]
  omega

theorem Block.Out.placeAt {j k : Nat} (hk : places[j]? = some k) :
    placeAt place side.offsets (side.start + j) = .ok k := by
  obtain ⟨⟨pre, offs, post, hoffsets, hstart, hplaces⟩, -, -⟩ := h
  obtain ⟨hj, hkj⟩ := List.getElem?_eq_some_iff.1 hk
  have hlen : j < offs.length := by rwa [hplaces.length_eq]
  have hget : side.offsets.get (side.start + j) = .ok offs[j] := by
    rw [hoffsets, hstart, Buffer.get, get_eq (a := some offs[j]), ok_bind, expect_some]
    rw [append_assoc, getElem?_append_right (Nat.le_add_right _ _), Nat.add_sub_cancel_left,
      getElem?_append_left (by simpa), getElem?_map, getElem?_eq_getElem hlen]
    rfl
  rw [Sort.placeAt, hget, ok_bind, ← hkj]
  exact hplaces.get hlen hj

theorem Block.Out.drop {n : Nat} (hn : n ≤ places.length) :
    Block.Out { side with start := side.start + n } place (places.drop n) := by
  obtain ⟨⟨pre, offs, post, hoffsets, hstart, hplaces⟩, hend, hlength⟩ := h
  have hlen := hplaces.length_eq
  refine ⟨⟨pre ++ (offs.take n).map some, offs.drop n, post, ?_, ?_, ?_⟩, ?_, hlength⟩
  · rw [hoffsets, append_assoc pre ((offs.take n).map some), ← map_append, take_append_drop]
  · simp [hstart]
    omega
  · exact forall₂_drop n hplaces
  · simp [hend]
    omega

end

variable {out : Bool}

theorem returns_traceLoop {at_ : Nat → Nat} : ∀ {k i : Nat} {found : List Nat}
    {rest : Buffer Nat}, found.length ≤ i → found.length + rest.length = BLOCK → i + k ≤ BLOCK →
    (∀ j, j < i + k → place j = .ok (at_ j) ∧ at_ j < v.length) →
    Returns (traceLoop isLess v pivot place out k i found.length (found.map some ++ rest)) fun p =>
      ∃ more rest', p.2 = (found ++ more).map some ++ rest' ∧ p.1 = (found ++ more).length ∧
        p.2.length = BLOCK ∧ more.Pairwise (· < ·) ∧ (∀ j ∈ more, i ≤ j ∧ j < i + k) ∧
        ∀ j, i ≤ j → j < i + k → Told isLess pivot v (at_ j) (if j ∈ more then out else !out) := by
  intro k
  induction k with
  | zero =>
    intro i found rest _ hlen _ _
    refine .pure ⟨[], rest, by simp, by simp, by simpa using hlen, .nil, by simp, fun j h h' => ?_⟩
    omega
  | succ k ih =>
    intro i found rest hi hlen hk hplace
    obtain ⟨slot, rest, rfl⟩ := exists_cons_of_length_pos (l := rest) (by omega)
    obtain ⟨hplacei, hlt⟩ := hplace i (by omega)
    obtain ⟨a, ha⟩ := exists_getElem? hlt
    have hmod : i % 256 = i := Nat.mod_eq_of_lt (by rw [BLOCK] at hk; omega)
    rw [traceLoop, hmod]
    refine .lift_bind (set_append (by simp) _) (.lift_bind hplacei (.lift_bind (get_eq ha) ?_))
    refine .bind (returns_ask isLess a pivot) fun answer hanswer => ?_
    have htold : Told isLess pivot v (at_ i) answer := fun a' ha' => by
      rw [ha] at ha'
      cases ha'
      exact hanswer
    have hplace' : ∀ j, j < i + 1 + k → place j = .ok (at_ j) ∧ at_ j < v.length :=
      fun j hj => hplace j (by omega)
    split
    · next hout =>
      subst hout
      have hrec := @ih (i + 1) (found ++ [i]) rest (by simpa using hi) (by simp at hlen ⊢; omega)
        (by omega) hplace'
      rw [length_append, length_singleton, map_append, append_assoc] at hrec
      refine hrec.imp fun p ⟨more, rest', hp, hend, hlength, hsorted, hrange, hmore⟩ => ?_
      refine ⟨i :: more, rest', by rw [hp, ← append_cons], by rw [hend, ← append_cons],
        hlength, .cons (fun j hj => (hrange j hj).1) hsorted, ?_, fun j hij hj => ?_⟩
      · intro j hj
        rcases mem_cons.1 hj with rfl | hj
        · omega
        · have := hrange j hj
          omega
      · rcases Nat.eq_or_lt_of_le hij with rfl | hlt
        · rwa [if_pos mem_cons_self]
        · simp only [mem_cons, ne_of_gt hlt, false_or]
          exact hmore j hlt (by omega)
    · next hout =>
      have hrec := @ih (i + 1) found (some i :: rest) (by omega) hlen (by omega) hplace'
      refine hrec.imp fun p ⟨more, rest', hp, hend, hlength, hsorted, hrange, hmore⟩ => ?_
      refine ⟨more, rest', hp, hend, hlength, hsorted, fun j hj => ?_, fun j hij hj => ?_⟩
      · have := hrange j hj
        omega
      · rcases Nat.eq_or_lt_of_le hij with rfl | hlt
        · rw [if_neg fun hmem => absurd (hrange i hmem).1 (by omega)]
          rwa [Bool.eq_not.2 hout] at htold
        · exact hmore j hlt (by omega)

theorem returns_trace (at_ : Nat → Nat) (h : side.Out place []) (hblock : side.block ≤ BLOCK)
    (hplace : ∀ j, j < side.block → place j = .ok (at_ j) ∧ at_ j < v.length) :
    Returns (side.trace isLess v pivot place out) fun side' => side'.block = side.block ∧
      ∃ found : List Nat, side'.Out place (found.map at_) ∧ found.Pairwise (· < ·) ∧
        (∀ j ∈ found, j < side.block) ∧
        ∀ j, j < side.block → Told isLess pivot v (at_ j) (if j ∈ found then out else !out) := by
  rw [Block.trace, if_pos (h.start_eq_end.2 rfl)]
  have hloop := @returns_traceLoop _ _ isLess pivot v place out at_ side.block 0 [] side.offsets
    le_rfl ((zero_add _).trans h.length) (by omega)
    (fun j hj => hplace j (by omega))
  refine .bind hloop fun p ⟨found, rest, hp, hend, hlength, hsorted, hrange, htold⟩ => ?_
  refine .pure ⟨rfl, found, ⟨⟨[], found, rest, hp, rfl, ?_⟩, ?_, hlength⟩, hsorted, ?_, ?_⟩
  · rw [forall₂_map_right_iff]
    refine forall₂_same.2 fun j hj => (hplace j ?_).1
    have := hrange j hj
    omega
  · simp [hend]
  · intro j hj
    have := hrange j hj
    omega
  · exact fun j hj => htold j (Nat.zero_le _) (by omega)

theorem returns_trace_of_ne (h : side.Out place places) (hne : places ≠ []) :
    Returns (side.trace isLess v pivot place out) (· = side) := by
  rw [Block.trace, if_neg (mt h.start_eq_end.1 hne)]
  exact .pure rfl

end

/-! ## Zones -/

/-- What is known about the slice: the elements before `hl` are smaller than the pivot but for those
at the places `as`, which are from `l` on; those from `hr` on are not, but for the ones at the
places `bs`, which are before `r`. -/
structure Zones (isLess : IsLess α σ) (pivot : α) (v : List α) (l hl : Nat) (as : List Nat)
    (hr r : Nat) (bs : List Nat) : Prop where
  l_le : l ≤ hl
  mid : hl ≤ hr
  le_r : hr ≤ r
  r_le : r ≤ v.length
  left : ∀ k ∈ as, l ≤ k ∧ k < hl
  right : ∀ k ∈ bs, hr ≤ k ∧ k < r
  sortedLeft : as.Pairwise (· < ·)
  sortedRight : bs.Pairwise (· > ·)
  less : ∀ k, k < hl → Told isLess pivot v k (decide (k ∉ as))
  notLess : ∀ k, hr ≤ k → Told isLess pivot v k (decide (k ∈ bs))

section
variable {l hl hr r a b : Nat} {as bs : List Nat}

theorem Zones.exchange (h : Zones isLess pivot v l hl (a :: as) hr r (b :: bs)) :
    Zones isLess pivot (exchange v a b) l hl as hr r bs := by
  have ha := h.left a mem_cons_self
  have hb := h.right b mem_cons_self
  have hsa := pairwise_cons.1 h.sortedLeft
  have hsb := pairwise_cons.1 h.sortedRight
  have hmid := h.mid
  have hr := h.r_le
  refine ⟨h.l_le, h.mid, h.le_r, by rwa [exchange_length], fun k hk =>
    h.left k (mem_cons_of_mem _ hk), fun k hk => h.right k (mem_cons_of_mem _ hk), hsa.2,
    hsb.2, fun k hk => ?_, fun k hk => ?_⟩
  · rw [Told.exchange (by omega) (by omega)]
    by_cases hka : k = a
    · subst hka
      have hnot : k ∉ as := fun hmem => lt_irrefl k (hsa.1 k hmem)
      have htold := h.notLess b hb.1
      rw [Equiv.swap_apply_left, decide_eq_true hnot]
      rwa [decide_eq_true mem_cons_self] at htold
    · rw [Equiv.swap_apply_of_ne_of_ne hka (by omega)]
      simpa [hka] using h.less k hk
  · rw [Told.exchange (by omega) (by omega)]
    by_cases hkb : k = b
    · subst hkb
      have hnot : k ∉ bs := fun hmem => lt_irrefl k (hsb.1 k hmem)
      have htold := h.less a ha.2
      rw [Equiv.swap_apply_right, decide_eq_false hnot]
      rwa [decide_eq_false (not_not.2 mem_cons_self)] at htold
    · rw [Equiv.swap_apply_of_ne_of_ne (by omega) hkb]
      simpa [hkb] using h.notLess k hk

theorem Zones.exchange_notLess {p q : Nat} (h : Zones isLess pivot v l hl as hr r bs)
    (hp : hr ≤ p ∧ p < r ∧ p ∉ bs) (hq : hr ≤ q ∧ q < r ∧ q ∉ bs) :
    Zones isLess pivot (Slice.exchange v p q) l hl as hr r bs := by
  have hmid := h.mid
  have hr := h.r_le
  refine ⟨h.l_le, h.mid, h.le_r, by rwa [exchange_length], h.left, h.right, h.sortedLeft,
    h.sortedRight, fun k hk => ?_, fun k hk => ?_⟩
  · rw [Told.exchange (by omega) (by omega), Equiv.swap_apply_of_ne_of_ne (by omega) (by omega)]
    exact h.less k hk
  · rw [Told.exchange (by omega) (by omega)]
    by_cases hkp : k = p
    · subst hkp
      simpa [hp.2.2, hq.2.2] using h.notLess q hq.1
    by_cases hkq : k = q
    · subst hkq
      simpa [hp.2.2, hq.2.2] using h.notLess p hp.1
    · rw [Equiv.swap_apply_of_ne_of_ne hkp hkq]
      exact h.notLess k hk

theorem Zones.drainLeft (h : Zones isLess pivot v l r (as ++ [a]) r r []) :
    0 < r ∧ Zones isLess pivot (Slice.exchange v a (r - 1)) l (r - 1) as (r - 1) (r - 1) [] := by
  have ha := h.left a (by simp)
  have hsa := pairwise_append.1 h.sortedLeft
  have hr := h.r_le
  have hlt : ∀ k ∈ as, k < a := fun k hk => hsa.2.2 k hk a (by simp)
  refine ⟨by omega, by omega, le_rfl, le_rfl, by rw [exchange_length]; omega,
    fun k hk => ?_, by simp, hsa.1, .nil, fun k hk => ?_, fun k hk => ?_⟩
  · have := h.left k (mem_append_left _ hk)
    have := hlt k hk
    omega
  · rw [Told.exchange (by omega) (by omega)]
    by_cases hka : k = a
    · subst hka
      have hnot : ∀ j ∈ as, j ≠ k ∧ j ≠ r - 1 := fun j hj => by
        have := hlt j hj
        omega
      have hmem : k ∉ as := fun hmem => (hnot k hmem).1 rfl
      rw [Equiv.swap_apply_left, decide_eq_true hmem]
      have htold := h.less (r - 1) (by omega)
      rwa [decide_eq_true] at htold
      intro hmem
      rcases mem_append.1 hmem with hmem | hmem
      · exact (hnot _ hmem).2 rfl
      · have := mem_singleton.1 hmem
        omega
    · rw [Equiv.swap_apply_of_ne_of_ne hka (by omega)]
      simpa [hka] using h.less k (by omega)
  · rw [Told.exchange (by omega) (by omega)]
    by_cases hkr : k = r - 1
    · subst hkr
      rw [Equiv.swap_apply_right]
      have htold := h.less a ha.2
      rwa [decide_eq_false (not_not.2 (by simp))] at htold
    · rw [Equiv.swap_apply_of_ne_of_ne (by omega) hkr]
      exact h.notLess k (by omega)

theorem Zones.drainRight (h : Zones isLess pivot v l l [] l r (bs ++ [b])) :
    Zones isLess pivot (Slice.exchange v l b) (l + 1) (l + 1) [] (l + 1) r bs := by
  have hb := h.right b (by simp)
  have hsb := pairwise_append.1 h.sortedRight
  have hr := h.r_le
  have hlt : ∀ k ∈ bs, b < k := fun k hk => hsb.2.2 k hk b (by simp)
  refine ⟨le_rfl, le_rfl, by omega, by rwa [exchange_length],
    by simp, fun k hk => ?_, .nil, hsb.1, fun k hk => ?_, fun k hk => ?_⟩
  · have := h.right k (mem_append_left _ hk)
    have := hlt k hk
    omega
  · rw [Told.exchange (by omega) (by omega)]
    by_cases hkl : k = l
    · subst hkl
      simpa using h.notLess b hb.1
    · rw [Equiv.swap_apply_of_ne_of_ne hkl (by omega)]
      exact h.less k (by omega)
  · rw [Told.exchange (by omega) (by omega)]
    by_cases hkb : k = b
    · subst hkb
      have hnot : ∀ j ∈ bs, j ≠ k ∧ j ≠ l := fun j hj => by
        have := hlt j hj
        omega
      have hmem : k ∉ bs := fun hmem => (hnot k hmem).1 rfl
      rw [Equiv.swap_apply_right, decide_eq_false hmem]
      have htold := h.notLess l le_rfl
      rwa [decide_eq_false] at htold
      intro hmem
      rcases mem_append.1 hmem with hmem | hmem
      · exact (hnot _ hmem).2 rfl
      · have := mem_singleton.1 hmem
        omega
    · rw [Equiv.swap_apply_of_ne_of_ne (by omega) hkb]
      simpa [hkb] using h.notLess k (by omega)

variable {found : List Nat} {block : Nat}

theorem Zones.traceLeft (h : Zones isLess pivot v l l [] hr r bs) (hblock : l + block ≤ hr)
    (hsorted : found.Pairwise (· < ·)) (hrange : ∀ j ∈ found, j < block)
    (htold : ∀ j, j < block → Told isLess pivot v (l + j) (if j ∈ found then false else !false)) :
    Zones isLess pivot v l (l + block) (found.map (l + ·)) hr r bs := by
  refine ⟨Nat.le_add_right _ _, hblock, h.le_r, h.r_le, fun k hk => ?_, h.right, ?_, h.sortedRight,
    fun k hk => ?_, h.notLess⟩
  · obtain ⟨j, hj, rfl⟩ := mem_map.1 hk
    have := hrange j hj
    omega
  · exact hsorted.map _ fun i j hij => Nat.add_lt_add_left hij l
  · rcases lt_or_ge k l with hkl | hkl
    · have hnot : k ∉ found.map (l + ·) := fun hmem => by
        obtain ⟨j, -, rfl⟩ := mem_map.1 hmem
        omega
      rw [decide_eq_true hnot]
      exact h.less k hkl
    · obtain ⟨j, rfl⟩ := Nat.exists_eq_add_of_le hkl
      have hj := htold j (by omega)
      have hmem : l + j ∈ found.map (l + ·) ↔ j ∈ found := by simp
      have hdec : decide (l + j ∉ found.map (l + ·)) = (if j ∈ found then false else !false) := by
        split
        · next hjf => exact decide_eq_false (not_not.2 (hmem.2 hjf))
        · next hjf => exact decide_eq_true (mt hmem.1 hjf)
      rwa [hdec]

theorem Zones.traceRight (h : Zones isLess pivot v l hl as r r []) (hblock : hl + block ≤ r)
    (hsorted : found.Pairwise (· < ·)) (hrange : ∀ j ∈ found, j < block)
    (htold : ∀ j, j < block → Told isLess pivot v (r - 1 - j) (if j ∈ found then true else !true)) :
    Zones isLess pivot v l hl as (r - block) r (found.map (r - 1 - ·)) := by
  refine ⟨h.l_le, by omega, by omega, h.r_le, h.left, fun k hk => ?_, h.sortedLeft, ?_, h.less,
    fun k hk => ?_⟩
  · obtain ⟨j, hj, rfl⟩ := mem_map.1 hk
    have := hrange j hj
    omega
  · rw [pairwise_map]
    refine hsorted.imp_of_mem fun {i j} hi hj hij => ?_
    have := hrange j hj
    omega
  · rcases lt_or_ge k r with hkr | hkr
    · obtain ⟨j, hj, rfl⟩ : ∃ j, j < block ∧ k = r - 1 - j := ⟨r - 1 - k, by omega, by omega⟩
      have hmem : r - 1 - j ∈ found.map (r - 1 - ·) ↔ j ∈ found := by
        rw [mem_map]
        refine ⟨fun ⟨i, hi, heq⟩ => ?_, fun hmem => ⟨j, hmem, rfl⟩⟩
        have := hrange i hi
        obtain rfl : i = j := by omega
        exact hi
      have hdec : decide (r - 1 - j ∈ found.map (r - 1 - ·)) =
          (if j ∈ found then true else !true) := by
        split
        · next hjf => exact decide_eq_true (hmem.2 hjf)
        · next hjf => exact decide_eq_false (mt hmem.1 hjf)
      rw [hdec]
      exact htold j hj
    · have hnot : k ∉ found.map (r - 1 - ·) := fun hmem => by
        obtain ⟨j, hj, rfl⟩ := mem_map.1 hmem
        have := hrange j hj
        omega
      rw [decide_eq_false hnot]
      exact h.notLess k hkr

end

/-! ## The cyclic permutation -/

theorem copyWithin_of_ne {x : α} {i j : Nat} (hi : v[i]? = some x) (hne : i ≠ j)
    (hj : j < v.length) : copyWithin v i j = .ok (v.set j x) := by
  rw [copyWithin, assert, if_pos (by simpa using hne), ok_bind, get_eq hi, ok_bind, set_eq hj]

/-- A step of the cyclic permutation moves one more pair. -/
theorem cycle_step {p a b : Nat} {x y : α} (tmp : α) (hpa : p ≠ a) (hpb : p ≠ b)
    (ha : v[a]? = some x) (hb : v[b]? = some y) (hp : p < v.length) :
    ((v.set p x).set a y).set b tmp = exchange (exchange (v.set p tmp) a b) p b := by
  have hp0 : (v.set p tmp)[p]? = some tmp := getElem?_set_self hp
  have ha0 : (v.set p tmp)[a]? = some x := by rw [getElem?_set_ne hpa, ha]
  have hb0 : (v.set p tmp)[b]? = some y := by rw [getElem?_set_ne hpb, hb]
  have hp1 : (((v.set p tmp).set a y).set b x)[p]? = some tmp := by
    rw [getElem?_set_ne hpb.symm, getElem?_set_ne hpa.symm, hp0]
  have hb1 : (((v.set p tmp).set a y).set b x)[b]? = some x :=
    getElem?_set_self (by simpa using lt_length hb)
  rw [exchange_eq ha0 hb0, exchange_eq hp1 hb1, set_comm _ _ hpb.symm, set_set,
    set_comm _ _ hpa.symm, set_set]

section
variable {l hl hr r : Nat} {left right : Block} {as bs : List Nat}

theorem not_mem_drop {j p : Nat} (h : bs.Pairwise (· > ·)) (hp : bs[j]? = some p) :
    p ∉ bs.drop (j + 1) := by
  obtain ⟨hj, rfl⟩ := List.getElem?_eq_some_iff.1 hp
  have hpw := h.drop (i := j)
  rw [List.drop_eq_getElem_cons hj, pairwise_cons] at hpw
  exact fun hmem => lt_irrefl _ (hpw.1 _ hmem)

theorem drop_eq_cons {j p : Nat} (hp : bs[j]? = some p) : bs.drop j = p :: bs.drop (j + 1) := by
  obtain ⟨hj, rfl⟩ := List.getElem?_eq_some_iff.1 hp
  exact List.drop_eq_getElem_cons hj

theorem cycleLoop_spec (hleft : left.Out (leftPlace l) as) (hright : right.Out (back r) bs)
    (hsorted : bs.Pairwise (· > ·)) (hrange : ∀ k ∈ bs, hr ≤ k ∧ k < r) {tmp : α} : ∀ {k j p : Nat} {v : List α}, j + k < as.length → j + k < bs.length →
      bs[j]? = some p → Zones isLess pivot (v.set p tmp) l hl (as.drop (j + 1)) hr r
        (bs.drop (j + 1)) →
      ∃ p' v', cycleLoop l r left.offsets right.offsets k (left.start + j) (right.start + j) v =
          .ok (left.start + (j + k), right.start + (j + k), v') ∧ bs[j + k]? = some p' ∧
        (v'.set p' tmp).Perm (v.set p tmp) ∧
        Zones isLess pivot (v'.set p' tmp) l hl (as.drop (j + k + 1)) hr r
          (bs.drop (j + k + 1)) := by
  intro k
  induction k with
  | zero => exact fun {j p v} _ _ hp hz => ⟨p, v, rfl, hp, .refl _, hz⟩
  | succ k ih =>
    intro j p v hja hjb hp hz
    obtain ⟨a, ha⟩ := @exists_getElem? _ as (j + 1) (by omega)
    obtain ⟨b, hb⟩ := @exists_getElem? _ bs (j + 1) (by omega)
    rw [drop_eq_cons ha, drop_eq_cons hb] at hz
    have hpr := hrange p (mem_of_getElem? hp)
    have har := hz.left a mem_cons_self
    have hbr := hz.right b mem_cons_self
    have hmid := hz.mid
    have hlen : r ≤ v.length := by simpa using hz.r_le
    have hnot := not_mem_drop hsorted hp
    rw [drop_eq_cons hb, mem_cons, not_or] at hnot
    obtain ⟨x, hx⟩ := @exists_getElem? _ v a (by omega)
    obtain ⟨y, hy⟩ := @exists_getElem? _ v b (by omega)
    have hy' : (v.set p x)[b]? = some y := by rw [getElem?_set_ne hnot.1, hy]
    have hstep := cycle_step tmp (by omega : p ≠ a) hnot.1 hx hy (by omega)
    have hz' := hz.exchange.exchange_notLess ⟨hpr.1, hpr.2, hnot.2⟩
      ⟨hbr.1, hbr.2, not_mem_drop hsorted hb⟩
    rw [← hstep] at hz'
    obtain ⟨p', v', hrun, hp', hperm, hzones⟩ :=
      @ih (j + 1) b ((v.set p x).set a y) (by omega) (by omega) hb hz'
    refine ⟨p', v', ?_, ?_, ?_, ?_⟩
    · have hla : leftAt l left.offsets (left.start + j + 1) = .ok a := hleft.placeAt ha
      have hrp : rightAt r right.offsets (right.start + j) = .ok p := hright.placeAt hp
      have hrb : rightAt r right.offsets (right.start + j + 1) = .ok b := hright.placeAt hb
      rw [cycleLoop]
      dsimp only
      rw [hla, ok_bind, hrp, ok_bind, copyWithin_of_ne hx (by omega) (by omega), ok_bind, hrb,
        ok_bind, ok_bind, copyWithin_of_ne hy' (by omega) (by simp; omega), ok_bind]
      rw [← Nat.add_assoc, ← Nat.add_assoc, Nat.add_right_comm j 1 k] at hrun
      exact hrun
    · rw [← hp', Nat.add_right_comm j 1 k]
      rfl
    · rw [hstep] at hperm
      exact hperm.trans ((exchange_perm _ _ _).trans (exchange_perm _ _ _))
    · rw [Nat.add_right_comm j 1 k] at hzones
      exact hzones

theorem cycle_spec (hleft : left.Out (leftPlace l) as) (hright : right.Out (back r) bs)
    (hz : Zones isLess pivot v l hl as hr r bs) {n : Nat} (hna : n ≤ as.length)
    (hnb : n ≤ bs.length) :
    ∃ v', cycle l r n left right v = .ok ({ left with start := left.start + n },
        { right with start := right.start + n }, v') ∧ v'.Perm v ∧
      Zones isLess pivot v' l hl (as.drop n) hr r (bs.drop n) := by
  rw [cycle]
  split
  · next hpos =>
    obtain ⟨a, ha⟩ := @exists_getElem? _ as 0 (by omega)
    obtain ⟨b, hb⟩ := @exists_getElem? _ bs 0 (by omega)
    have hz0 := hz
    rw [← drop_zero (l := as), ← drop_zero (l := bs), drop_eq_cons ha, drop_eq_cons hb] at hz0
    have har := hz0.left a mem_cons_self
    have hbr := hz0.right b mem_cons_self
    have hmid := hz.mid
    have hlen := hz.r_le
    obtain ⟨x, hx⟩ := @exists_getElem? _ v a (by omega)
    obtain ⟨y, hy⟩ := @exists_getElem? _ v b (by omega)
    have hz1 := hz0.exchange
    rw [exchange_eq hx hy] at hz1
    obtain ⟨p, v', hrun, hp, hperm, hz'⟩ := @cycleLoop_spec _ _ isLess pivot l hl hr r left right
      as bs hleft hright hz.sortedRight hz.right x (n - 1) 0 b (v.set a y) (by omega) (by omega) hb hz1
    have hla : leftAt l left.offsets left.start = .ok a := hleft.placeAt ha
    have hrb : rightAt r right.offsets right.start = .ok b := hright.placeAt hb
    have hrp : rightAt r right.offsets (right.start + (0 + (n - 1))) = .ok p := hright.placeAt hp
    rw [← exchange_eq hx hy] at hperm
    have hlen' := (hperm.trans (exchange_perm _ _ _)).length_eq
    have hpr := hz.right p (mem_of_getElem? hp)
    rw [length_set] at hlen'
    refine ⟨v'.set p x, ?_, hperm.trans (exchange_perm _ _ _), ?_⟩
    · rw [hla, ok_bind, get_eq hx, ok_bind, hrb, ok_bind, ok_bind,
        copyWithin_of_ne hy (by omega) (by omega), ok_bind]
      rw [add_zero, add_zero] at hrun
      rw [hrun, ok_bind]
      dsimp only
      rw [hrp, ok_bind, set_eq (by omega), ok_bind]
      have hn : 0 + (n - 1) + 1 = n := by omega
      rw [add_assoc left.start, add_assoc right.start, hn]
    · have hn : 0 + (n - 1) + 1 = n := by omega
      rwa [hn] at hz'
  · next hpos =>
    obtain rfl : n = 0 := by omega
    exact ⟨v, rfl, .refl _, hz⟩

end

end Tortis.Sort
