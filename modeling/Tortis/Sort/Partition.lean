import Tortis.Sort.Blocks

/-!
# The partitions

`partition_in_blocks` keeps `Sides` from round to round, and the gap between the sides gets smaller
by a block. `partition` puts the elements that were said to be smaller than the pivot before it and
the other ones behind it; `partition_equal` asks the other way around.
-/

namespace Tortis.Sort

open Slice Compare Outcome List

variable {α σ : Type} {isLess : IsLess α σ} {pivot : α} {v : List α}

/-! ## `partition_in_blocks` -/

/-- The two sides between the rounds: one of them has nothing left that is out of order, and a side
whose block is used up has moved behind it. -/
structure Sides (isLess : IsLess α σ) (pivot : α) (v : List α) (l hl : Nat) (left : Block)
    (as : List Nat) (hr r : Nat) (right : Block) (bs : List Nat) : Prop where
  zones : Zones isLess pivot v l hl as hr r bs
  outLeft : left.Out (leftPlace l) as
  outRight : right.Out (back r) bs
  used : as = [] ∨ bs = []
  emptyLeft : as = [] → hl = l
  fullLeft : as ≠ [] → hl = l + left.block
  emptyRight : bs = [] → hr = r
  fullRight : bs ≠ [] → r = hr + right.block

variable {side : Block}

theorem Block.Out.nil {place place' : Nat → Outcome Nat} (h : side.Out place []) :
    side.Out place' [] := by
  obtain ⟨⟨pre, offs, post, hoffsets, hstart, hplaces⟩, hend, hlength⟩ := h
  cases hplaces
  exact ⟨⟨pre, [], post, hoffsets, hstart, .nil⟩, hend, hlength⟩

theorem Block.Out.withBlock {place : Nat → Outcome Nat} {places : List Nat}
    (h : side.Out place places) (block : Nat) :
    Block.Out { side with block := block } place places :=
  ⟨h.offsets, h.end_, h.length⟩

theorem Block.out_new (place : Nat → Outcome Nat) : Block.new.Out place [] where
  offsets := ⟨[], [], _, rfl, rfl, .nil⟩
  end_ := rfl
  length := length_replicate

variable {l r : Nat}

theorem width_eq (h : l ≤ r) : width l r = .ok (r - l) := by
  rw [width, assert, if_pos (decide_eq_true h), ok_bind]

theorem back_eq {r i : Nat} (h : i < r) : back r i = .ok (r - 1 - i) := by
  rw [back, assert, if_pos (decide_eq_true h), ok_bind]

section
variable {l hl hr r : Nat} {left right : Block} {as bs : List Nat}

/-- The block sizes of a round fit between the sides, and fill the space between them in the last
one. -/
structure Sizes (l r lb rb : Nat) (as bs : List Nat) : Prop where
  left_le : lb ≤ BLOCK
  right_le : rb ≤ BLOCK
  left_eq : as ≠ [] → lb = BLOCK
  right_eq : bs ≠ [] → rb = BLOCK
  le : l + lb + rb ≤ r
  last : r - l ≤ 2 * BLOCK → l + lb + rb = r
  full : ¬ r - l ≤ 2 * BLOCK → lb = BLOCK ∧ rb = BLOCK

theorem lastBlocks_spec (h : Sides isLess pivot v l hl left as hr r right bs)
    (hbl : left.block = BLOCK) (hbr : right.block = BLOCK) (hdone : r - l ≤ 2 * BLOCK) :
    ∃ lb rb, lastBlocks l r left right =
      .ok ({ left with block := lb }, { right with block := rb }) ∧ Sizes l r lb rb as bs := by
  have hz := h.zones
  have hle := hz.l_le
  have hmid := hz.mid
  have her := hz.le_r
  have hlt := h.outLeft.start_lt_end
  have hrt := h.outRight.start_lt_end
  rw [lastBlocks, width_eq (by omega), ok_bind]
  by_cases has : as = []
  · have hlf : ¬ left.start < left.end_ := fun hlt' => hlt.1 hlt' has
    by_cases hbs : bs = []
    · have hrf : ¬ right.start < right.end_ := fun hrt' => hrt.1 hrt' hbs
      refine ⟨(r - l) / 2, r - l - (r - l) / 2, ?_, by omega, by omega, fun hne => absurd has hne,
        fun hne => absurd hbs hne, by omega, fun _ => by omega, fun hn => absurd hdone hn⟩
      simp only [hlf, hrf, or_self, if_false, decide_false, Bool.not_false, Bool.true_or]
      rw [assert_ok rfl, ok_bind, assert_ok (by simp; omega), ok_bind,
        assert_ok (by simp; omega), ok_bind]
    · have hr0 := h.fullRight hbs
      have hrf : right.start < right.end_ := hrt.2 hbs
      refine ⟨r - l - BLOCK, right.block, ?_, by omega, by omega, fun hne => absurd has hne,
        fun _ => hbr, by omega, fun _ => by omega, fun hn => absurd hdone hn⟩
      simp only [hlf, hrf, or_true, if_true, if_false]
      rw [assert_ok (by simp; omega), ok_bind, assert_ok (by simp; omega), ok_bind,
        assert_ok (by simp; omega), ok_bind]
  · have hbs : bs = [] := h.used.resolve_left has
    have hl0 := h.fullLeft has
    have hlf : left.start < left.end_ := hlt.2 has
    refine ⟨left.block, r - l - BLOCK, ?_, by omega, by omega, fun _ => hbl,
      fun hne => absurd hbs hne, by omega, fun _ => by omega, fun hn => absurd hdone hn⟩
    simp only [hlf, true_or, if_true]
    rw [assert_ok (by simp; omega), ok_bind, assert_ok (by simp; omega), ok_bind,
      assert_ok (by simp; omega), ok_bind]

theorem roundBlocks_spec (h : Sides isLess pivot v l hl left as hr r right bs)
    (hbl : left.block = BLOCK) (hbr : right.block = BLOCK) :
    ∃ lb rb, roundBlocks (decide (r - l ≤ 2 * BLOCK)) l r left right =
      .ok ({ left with block := lb }, { right with block := rb }) ∧ Sizes l r lb rb as bs := by
  rw [roundBlocks]
  split
  · next hdone => exact lastBlocks_spec h hbl hbr (of_decide_eq_true hdone)
  · next hdone =>
    have hn : ¬ r - l ≤ 2 * BLOCK := fun hle => hdone (decide_eq_true hle)
    exact ⟨left.block, right.block, rfl, by omega, by omega, fun _ => hbl, fun _ => hbr, by omega,
      fun hle => absurd hle hn, fun _ => ⟨hbl, hbr⟩⟩

theorem returns_traceLeft (hz : Zones isLess pivot v l hl as hr r bs)
    (hout : left.Out (leftPlace l) as) (hempty : as = [] → hl = l)
    (hfull : as ≠ [] → hl = l + left.block) (hb : left.block ≤ BLOCK) (hfit : l + left.block ≤ hr) :
    Returns (left.trace isLess v pivot (leftPlace l) false) fun left' => left'.block = left.block ∧
    ∃ as', left'.Out (leftPlace l) as' ∧ Zones isLess pivot v l (l + left.block) as' hr r bs := by
  by_cases has : as = []
  · obtain rfl := hempty has
    subst has
    have her := hz.le_r
    have hrv := hz.r_le
    refine (returns_trace (hl + ·) hout hb fun j hj => ⟨rfl, by omega⟩).imp ?_
    rintro left' ⟨hblock, found, hout', hsorted, hrange, htold⟩
    exact ⟨hblock, _, hout', hz.traceLeft hfit hsorted hrange htold⟩
  · rw [hfull has] at hz
    exact (returns_trace_of_ne hout has).imp fun left' heq => by
      rw [heq]
      exact ⟨rfl, as, hout, hz⟩

theorem returns_traceRight (hz : Zones isLess pivot v l hl as hr r bs)
    (hout : right.Out (back r) bs) (hempty : bs = [] → hr = r)
    (hfull : bs ≠ [] → r = hr + right.block) (hb : right.block ≤ BLOCK)
    (hfit : hl + right.block ≤ r) : Returns (right.trace isLess v pivot (back r) true) fun right' =>
      right'.block = right.block ∧ ∃ bs', right'.Out (back r) bs' ∧
        Zones isLess pivot v l hl as (r - right.block) r bs' := by
  by_cases hbs : bs = []
  · obtain rfl := hempty hbs
    subst hbs
    have hrv := hz.r_le
    refine (returns_trace (hr - 1 - ·) hout hb fun j hj =>
      ⟨back_eq (by omega), by omega⟩).imp ?_
    rintro right' ⟨hblock, found, hout', hsorted, hrange, htold⟩
    exact ⟨hblock, _, hout', hz.traceRight hfit hsorted hrange htold⟩
  · have hr' : hr = r - right.block := by
      have := hfull hbs
      omega
    rw [hr'] at hz
    exact (returns_trace_of_ne hout hbs).imp fun right' heq => by
      rw [heq]
      exact ⟨rfl, bs, hout, hz⟩

theorem previousBlock_eq (hout : right.Out (back r) bs) (hb : right.block ≤ r) :
    previousBlock r right = .ok (if bs = [] then r - right.block else r) := by
  rw [previousBlock]
  by_cases hbs : bs = []
  · rw [if_pos (hout.start_eq_end.2 hbs), if_pos hbs, assert_ok (decide_eq_true hb), ok_bind]
  · rw [if_neg (mt hout.start_eq_end.1 hbs), if_neg hbs]

theorem Sides.advance {lb : Nat} (hz : Zones isLess pivot v l (l + lb) as hr r bs)
    (hleft : left.Out (leftPlace l) as) (hright : right.Out (back r) bs)
    (hused : as = [] ∨ bs = []) (hlb : left.block = lb) (hrb : r = hr + right.block) :
    Sides isLess pivot v (if as = [] then l + lb else l) (l + lb) left as hr
      (if bs = [] then r - right.block else r) right bs := by
  have hmid := hz.mid
  have her : r - right.block = hr := by omega
  refine ⟨?_, ?_, ?_, hused, fun has => (if_pos has).symm, fun has => ?_, fun hbs => ?_,
    fun hbs => ?_⟩
  · refine ⟨?_, hmid, ?_, ?_, fun k hk => ?_, fun k hk => ?_, hz.sortedLeft, hz.sortedRight,
      hz.less, hz.notLess⟩
    · split <;> omega
    · split <;> omega
    · have := hz.r_le
      split <;> omega
    · rw [if_neg (ne_nil_of_mem hk)]
      exact hz.left k hk
    · rw [if_neg (ne_nil_of_mem hk)]
      exact hz.right k hk
  · split
    · next has =>
      subst has
      exact hleft.nil
    · exact hleft
  · split
    · next hbs =>
      subst hbs
      exact hright.nil
    · exact hright
  · rw [if_neg has, hlb]
  · rw [if_pos hbs, her]
  · rw [if_neg hbs, hrb]

theorem cycle_round (hleft : left.Out (leftPlace l) as) (hright : right.Out (back r) bs)
    (hz : Zones isLess pivot v l hl as hr r bs) : ∃ left' right' v' as' bs',
      cycle l r (min (left.end_ - left.start) (right.end_ - right.start)) left right v =
        .ok (left', right', v') ∧ v'.Perm v ∧ left'.block = left.block ∧
      right'.block = right.block ∧ left'.Out (leftPlace l) as' ∧ right'.Out (back r) bs' ∧
      (as' = [] ∨ bs' = []) ∧ Zones isLess pivot v' l hl as' hr r bs' := by
  rw [hleft.end_, hright.end_, Nat.add_sub_cancel_left, Nat.add_sub_cancel_left]
  have hna := min_le_left as.length bs.length
  have hnb := min_le_right as.length bs.length
  obtain ⟨v', hcycle, hperm, hz'⟩ := cycle_spec hleft hright hz hna hnb
  refine ⟨_, _, v', _, _, hcycle, hperm, rfl, rfl, hleft.drop hna, hright.drop hnb, ?_, hz'⟩
  rw [drop_eq_nil_iff, drop_eq_nil_iff]
  omega

theorem returns_blocksLoop : ∀ {n l r hl hr : Nat} {left right : Block} {as bs : List Nat}
    {v : List α}, r - l < n → Sides isLess pivot v l hl left as hr r right bs →
    left.block = BLOCK → right.block = BLOCK →
    Returns (blocksLoop isLess pivot n l r left right v) fun p => p.2.2.2.2.Perm v ∧
      ∃ h as' bs', Sides isLess pivot p.2.2.2.2 p.1 h p.2.2.1 as' h p.2.1 p.2.2.2.1 bs' := by
  intro n
  induction n with
  | zero => simp
  | succ n ih =>
    intro l r hl hr left right as bs v hn h hbl hbr
    have hz := h.zones
    have hlr : l ≤ r := hz.l_le.trans (hz.mid.trans hz.le_r)
    obtain ⟨lb, rb, hround, hsizes⟩ := roundBlocks_spec h hbl hbr
    have hle := hsizes.le
    refine .lift_bind (width_eq hlr) (.lift_bind hround ?_)
    have hfit : l + lb ≤ hr := by
      by_cases hbs : bs = []
      · have := h.emptyRight hbs
        omega
      · have := h.fullRight hbs
        have := hsizes.right_eq hbs
        omega
    refine .bind (returns_traceLeft hz (h.outLeft.withBlock lb) h.emptyLeft
      (fun has => by rw [h.fullLeft has, hbl, ← hsizes.left_eq has]) hsizes.left_le hfit) ?_
    rintro left1 ⟨hlb, as1, hout1, hz1⟩
    refine .bind (returns_traceRight hz1 (h.outRight.withBlock rb) h.emptyRight
      (fun hbs => by rw [h.fullRight hbs, hbr, ← hsizes.right_eq hbs]) hsizes.right_le hle) ?_
    rintro right1 ⟨hrb, bs1, hout2, hz2⟩
    dsimp only at hlb hrb hz2 ⊢
    obtain ⟨left2, right2, v2, as2, bs2, hcycle, hperm, hlb2, hrb2, hout3, hout4, hused, hz3⟩ :=
      cycle_round hout1 hout2 hz2
    rw [hlb] at hlb2
    have hsides := Sides.advance hz3 hout3 hout4 hused hlb2 (by omega)
    refine .lift_bind hcycle ?_
    dsimp only
    refine .lift_bind (previousBlock_eq hout4 (by omega)) ?_
    have hl : (if left2.start = left2.end_ then l + left2.block else l) =
        if as2 = [] then l + lb else l := by
      simp only [hout3.start_eq_end, hlb2]
    rw [hl]
    split
    · next hdone =>
      have hlast := hsizes.last (of_decide_eq_true hdone)
      have hmeet : l + lb = r - rb := by omega
      exact .pure ⟨hperm, l + lb, as2, bs2, by rwa [← hmeet] at hsides⟩
    · next hdone =>
      obtain ⟨hlb', hrb'⟩ := hsizes.full fun hle' => hdone (decide_eq_true hle')
      have hB : BLOCK = 128 := rfl
      have hless : (if bs2 = [] then r - right2.block else r) -
          (if as2 = [] then l + lb else l) < n := by
        rcases hused with rfl | rfl
        · rw [if_pos rfl]
          split <;> omega
        · rw [if_pos rfl]
          split <;> omega
      refine (ih hless hsides (by omega) (by omega)).imp ?_
      rintro p ⟨hperm', hp⟩
      exact ⟨hperm'.trans hperm, hp⟩

theorem drainLeft_spec : ∀ {k r : Nat} {v : List α}, k ≤ as.length → left.Out (leftPlace l) as →
    Zones isLess pivot v l r (as.take k) r r [] → ∃ r' v', drainLeft l left k r v = .ok (r', v') ∧
    v'.Perm v ∧ Zones isLess pivot v' l r' [] r' r' [] := by
  intro k
  induction k with
  | zero => exact fun {r v} _ _ hz => ⟨r, v, rfl, .refl _, hz⟩
  | succ k ih =>
    intro r v hk hout hz
    obtain ⟨a, ha⟩ := @exists_getElem? _ as k (by omega)
    rw [take_add_one, ha, Option.toList_some] at hz
    obtain ⟨hpos, hz'⟩ := hz.drainLeft
    have har := hz.left a (by simp)
    have hrv := hz.r_le
    obtain ⟨r', v', hrun, hperm, hzones⟩ := ih (by omega) hout hz'
    refine ⟨r', v', ?_, hperm.trans (exchange_perm _ _ _), hzones⟩
    have hla : leftAt l left.offsets (left.start + k) = .ok a := hout.placeAt ha
    rw [drainLeft, hla, ok_bind, back_eq hpos, ok_bind, Nat.sub_zero,
      swap_eq (by omega) (by omega), ok_bind, hrun]

theorem drainRight_spec : ∀ {k l : Nat} {v : List α}, k ≤ bs.length →
    right.Out (back r) bs → Zones isLess pivot v l l [] l r (bs.take k) →
    ∃ l' v', drainRight r right k l v = .ok (l', v') ∧ v'.Perm v ∧
      Zones isLess pivot v' l' l' [] l' r [] := by
  intro k
  induction k with
  | zero => exact fun {l v} _ _ hz => ⟨l, v, rfl, .refl _, hz⟩
  | succ k ih =>
    intro l v hk hout hz
    obtain ⟨b, hb⟩ := @exists_getElem? _ bs k (by omega)
    rw [take_add_one, hb, Option.toList_some] at hz
    have hz' := hz.drainRight
    have hbr := hz.right b (by simp)
    have hrv := hz.r_le
    obtain ⟨l', v', hrun, hperm, hzones⟩ := ih (by omega) hout hz'
    refine ⟨l', v', ?_, hperm.trans (exchange_perm _ _ _), hzones⟩
    have hrb : rightAt r right.offsets (right.start + k) = .ok b := hout.placeAt hb
    rw [drainRight, hrb, ok_bind, swap_eq (by omega) (by omega), ok_bind, hrun]

end

/-- The first `mid` elements were said to be smaller than the pivot, the other ones not to be. -/
def Divided (isLess : IsLess α σ) (pivot : α) (v : List α) (mid : Nat) : Prop :=
  mid ≤ v.length ∧ (∀ a ∈ v.take mid, Answers isLess a pivot true) ∧
    ∀ a ∈ v.drop mid, Answers isLess a pivot false

theorem Zones.divided {l r mid : Nat} (h : Zones isLess pivot v l mid [] mid r []) :
    Divided isLess pivot v mid := by
  refine ⟨h.le_r.trans h.r_le, fun a ha => ?_, fun a ha => ?_⟩
  · obtain ⟨k, hk⟩ := mem_iff_getElem?.1 ha
    have hlt := lt_length hk
    rw [length_take] at hlt
    rw [getElem?_take_of_lt (by omega)] at hk
    exact h.less k (by omega) a hk
  · obtain ⟨k, hk⟩ := mem_iff_getElem?.1 ha
    rw [getElem?_drop] at hk
    exact h.notLess (mid + k) (Nat.le_add_right _ _) a hk

theorem returns_partitionInBlocks (v : List α) :
    Returns (partitionInBlocks isLess v pivot) fun p => p.2.Perm v ∧
      Divided isLess pivot p.2 p.1 := by
  have hz : Zones isLess pivot v 0 0 [] v.length v.length [] :=
    ⟨Nat.le_refl _, Nat.zero_le _, Nat.le_refl _, Nat.le_refl _, by simp, by simp, .nil, .nil,
      by simp, fun k hk a ha => absurd (lt_length ha) (by omega)⟩
  have hsides : Sides isLess pivot v 0 0 .new [] v.length v.length .new [] :=
    ⟨hz, Block.out_new _, Block.out_new _, .inl rfl, fun _ => rfl, by simp, fun _ => rfl, by simp⟩
  refine .bind (returns_blocksLoop (Nat.lt_succ_self _) hsides rfl rfl) ?_
  rintro ⟨l, r, left, right, v'⟩ ⟨hperm, h, as, bs, hsides'⟩
  dsimp only at hperm hsides' ⊢
  have hz' := hsides'.zones
  have hlt := hsides'.outLeft.start_lt_end
  have hrt := hsides'.outRight.start_lt_end
  by_cases has : as = []
  · obtain rfl := hsides'.emptyLeft has
    subst has
    rw [if_neg fun h => hlt.1 h rfl]
    by_cases hbs : bs = []
    · subst hbs
      rw [if_neg fun h => hrt.1 h rfl]
      exact .pure ⟨hperm, hz'.divided⟩
    · have hfull := hsides'.fullRight hbs
      rw [if_pos (hrt.2 hbs)]
      refine .lift_bind (assert_ok (decide_eq_true (by omega))) ?_
      rw [hsides'.outRight.end_, Nat.add_sub_cancel_left]
      obtain ⟨l', v'', hrun, hperm', hz''⟩ := drainRight_spec le_rfl hsides'.outRight
        (by rwa [take_length])
      exact .lift hrun ⟨hperm'.trans hperm, hz''.divided⟩
  · obtain rfl := hsides'.used.resolve_left has
    obtain rfl := hsides'.emptyRight rfl
    have hfull := hsides'.fullLeft has
    rw [if_pos (hlt.2 has)]
    refine .lift_bind (assert_ok (decide_eq_true (by omega))) ?_
    rw [hsides'.outLeft.end_, Nat.add_sub_cancel_left]
    obtain ⟨r', v'', hrun, hperm', hz''⟩ := drainLeft_spec le_rfl hsides'.outLeft
      (by rwa [take_length])
    exact .lift hrun ⟨hperm'.trans hperm, hz''.divided⟩

/-- The block sizes of a last round that goes through. -/
theorem lastBlocks_sizes {left right : Block} {out : Block × Block}
    (h : lastBlocks l r left right = .ok out) :
    out.1.block ≤ BLOCK ∧ out.2.block ≤ BLOCK ∧ out.1.block + out.2.block = r - l ∧
      (left.start < left.end_ ∨ right.start < right.end_ → BLOCK ≤ r - l) := by
  obtain ⟨rem, hrem, h⟩ := bind_eq_ok.1 h
  obtain ⟨_, -, hrem⟩ := bind_eq_ok.1 hrem
  cases hrem
  obtain ⟨_, hunder, h⟩ := bind_eq_ok.1 h
  obtain ⟨_, hsizes, h⟩ := bind_eq_ok.1 h
  obtain ⟨_, hsum, h⟩ := bind_eq_ok.1 h
  cases h
  rw [assert_eq_ok] at hunder hsizes hsum
  simp only [Bool.and_eq_true, decide_eq_true_eq] at hsizes hsum
  refine ⟨hsizes.1, hsizes.2, hsum.symm, fun hunfinished => ?_⟩
  simpa [hunfinished] using hunder

/-- `partition_in_blocks` returns whatever the comparator answers, so that the block sizes of its
last round fit and no offset is read that was not written. It rearranges the slice, and those of its
elements that are smaller than the pivot come first; their number is returned. -/
theorem partitionInBlocks_divides (isLess : IsLess α σ) (pivot : α) (v : List α) (s : σ) :
    (∃ k v', (∃ s', partitionInBlocks isLess v pivot s = .ok ((k, v'), s')) ∧ v'.Perm v ∧
      k ≤ v'.length ∧ ∀ p : α → Bool, (∀ a s, (isLess a pivot s).1 = p a) →
        ∀ i a, v'[i]? = some a → (p a = true ↔ i < k)) ∧
    (∀ l r left right out, lastBlocks l r left right = .ok out →
      out.1.block ≤ 128 ∧ out.2.block ≤ 128 ∧ out.1.block + out.2.block = r - l ∧
        (left.start < left.end_ ∨ right.start < right.end_ → 128 ≤ r - l)) ∧
    ∀ (offsets : Buffer Nat) (i offset : Nat), offsets.get i = .ok offset →
      offsets[i]? = some (some offset) := by
  refine ⟨?_, fun l r left right out h => lastBlocks_sizes h, fun offsets i offset h => ?_⟩
  · obtain ⟨⟨k, v'⟩, s', hrun, hperm, hk, htrue, hfalse⟩ :=
      @returns_partitionInBlocks _ _ isLess pivot v s
    refine ⟨k, v', ⟨s', hrun⟩, hperm, hk, fun p hp i a ha => ?_⟩
    have hsaid : ∀ b, Answers isLess a pivot b → p a = b := fun b ⟨s, hs⟩ => (hp a s).symm.trans hs
    rcases lt_or_ge i k with hik | hki
    · have hpa := hsaid true (htrue a (mem_of_getElem? (by rwa [getElem?_take_of_lt hik])))
      simp [hpa, hik]
    · obtain ⟨j, rfl⟩ := Nat.exists_eq_add_of_le hki
      have hpa := hsaid false (hfalse a (mem_of_getElem? (by rwa [getElem?_drop])))
      simp [hpa]
  · obtain ⟨slot, hslot, h⟩ := bind_eq_ok.1 h
    rw [Slice.get, expect_eq_ok] at hslot
    rw [expect_eq_ok] at h
    rw [hslot, h]

/-- Numbers. -/
theorem partitionInBlocks_divides_nat : ∃ k v', (∃ s', partitionInBlocks
    (fun a b s => (decide (a < b), s)) [3, 1, 2] 2 () = .ok ((k, v'), s')) ∧
    ∀ i a, v'[i]? = some a → (decide (a < 2) = true ↔ i < k) :=
  have ⟨k, v', hrun, _, _, h⟩ :=
    (partitionInBlocks_divides (fun a b s => (decide (a < b), s)) 2 [3, 1, 2] ()).1
  ⟨k, v', hrun, h _ fun _ _ => rfl⟩

/-! ## `partition` -/

section
variable {test : α → Asking σ Bool} {said : α → Bool → Prop} {go : Bool}

theorem returns_scanUp (htest : ∀ a, Returns (test a) (said a)) : ∀ {k l : Nat},
    l + k ≤ v.length → Returns (scanUp test go v k l) fun l' => l ≤ l' ∧ l' ≤ l + k ∧
      (∀ j a, l ≤ j → j < l' → v[j]? = some a → said a go) ∧
      (l' = l + k ∨ ∀ a, v[l']? = some a → said a !go) := by
  intro k
  induction k with
  | zero =>
    exact fun _ => .pure ⟨le_rfl, le_rfl, fun j a h h' => by omega, .inl rfl⟩
  | succ k ih =>
    intro l hlen
    obtain ⟨x, hx⟩ := @exists_getElem? _ v l (by omega)
    refine .lift_bind (get_eq hx) (.bind (htest x) fun answer hanswer => ?_)
    split
    · next hgo =>
      subst hgo
      refine (@ih (l + 1) (by omega)).imp ?_
      rintro l' ⟨hl, hl', hsaid, hstop⟩
      refine ⟨by omega, by omega, fun j a hj hj' ha => ?_, hstop.imp (by omega) id⟩
      rcases Nat.eq_or_lt_of_le hj with rfl | hlt
      · rw [hx] at ha
        cases ha
        exact hanswer
      · exact hsaid j a hlt hj' ha
    · next hgo =>
      refine .pure ⟨le_rfl, by omega, fun j a h h' => by omega, .inr fun a ha => ?_⟩
      rw [hx] at ha
      cases ha
      rwa [Bool.eq_not.2 hgo] at hanswer

theorem returns_scanDown (htest : ∀ a, Returns (test a) (said a)) : ∀ {k r : Nat},
    k ≤ r → r ≤ v.length → Returns (scanDown test go v k r) fun r' => r' ≤ r ∧ r ≤ r' + k ∧
      (∀ j a, r' ≤ j → j < r → v[j]? = some a → said a go) ∧
      (r = r' + k ∨ ∀ a, v[r' - 1]? = some a → said a !go) := by
  intro k
  induction k with
  | zero =>
    exact fun _ _ => .pure ⟨le_rfl, le_rfl, fun j a h h' => by omega, .inl rfl⟩
  | succ k ih =>
    intro r hk hlen
    obtain ⟨x, hx⟩ := @exists_getElem? _ v (r - 1) (by omega)
    refine .lift_bind (get_eq hx) (.bind (htest x) fun answer hanswer => ?_)
    split
    · next hgo =>
      subst hgo
      refine (@ih (r - 1) (by omega) (by omega)).imp ?_
      rintro r' ⟨hr, hr', hsaid, hstop⟩
      refine ⟨by omega, by omega, fun j a hj hj' ha => ?_, hstop.imp (by omega) id⟩
      by_cases hlast : j = r - 1
      · subst hlast
        rw [hx] at ha
        cases ha
        exact hanswer
      · exact hsaid j a hj (by omega) ha
    · next hgo =>
      refine .pure ⟨le_rfl, by omega, fun j a h h' => by omega, .inr fun a ha => ?_⟩
      rw [hx] at ha
      cases ha
      rwa [Bool.eq_not.2 hgo] at hanswer

end

theorem swap_front (p : α) (l r : List α) :
    ∃ l', Slice.swap (p :: (l ++ r)) 0 l.length = .ok (l' ++ p :: r) ∧ l'.Perm l := by
  rcases eq_nil_or_concat' l with rfl | ⟨l, x, rfl⟩
  · exact ⟨[], rfl, .refl _⟩
  · refine ⟨x :: l, ?_, (perm_append_singleton x l).symm⟩
    have hx : (p :: (l ++ [x] ++ r))[(l ++ [x]).length]? = some x := by
      rw [length_append, length_singleton, getElem?_cons_succ, append_assoc,
        singleton_append, getElem?_append_cons rfl]
    rw [Slice.swap, get_eq (a := p) rfl, ok_bind, get_eq hx, ok_bind]
    simp

variable {p : Nat}

theorem swap_split (hp : p < v.length) :
    ∃ pivot rest, v[p]? = some pivot ∧ Slice.swap v 0 p = .ok (pivot :: rest) ∧
      (pivot :: rest).Perm v := by
  obtain ⟨pivot, hpivot⟩ := exists_getElem? hp
  have hget := @exchange_getElem? _ v 0 p (by omega) hp 0
  rw [Equiv.swap_apply_left, hpivot] at hget
  obtain ⟨rest, hrest⟩ : ∃ rest, exchange v 0 p = pivot :: rest := by
    cases hv : exchange v 0 p with
    | nil => simp [hv] at hget
    | cons x rest =>
      rw [hv] at hget
      cases hget
      exact ⟨rest, rfl⟩
  refine ⟨pivot, rest, hpivot, ?_, hrest ▸ exchange_perm v 0 p⟩
  rw [swap_eq (by omega) hp, hrest]

theorem exists_parts (hl : l ≤ r) (hr : r ≤ v.length) :
    ∃ a b c, v = a ++ b ++ c ∧ l = a.length ∧ r = a.length + b.length := by
  refine ⟨v.take l, (v.take r).drop l, v.drop r, ?_, by simp; omega, by simp; omega⟩
  have htake : (v.take r).take l = v.take l := by rw [take_take, min_eq_left hl]
  rw [← htake, take_append_drop, take_append_drop]

theorem returns_partition (hp : p < v.length) :
    Returns (partition isLess v p) fun q => q.2.2.Perm v ∧ ∃ left pivot right,
      q.2.2 = left ++ pivot :: right ∧ q.1 = left.length ∧
        (∀ a ∈ left, Answers isLess a pivot true) ∧ ∀ a ∈ right, Answers isLess a pivot false := by
  obtain ⟨pivot, rest, hpivot, hswap, hperm⟩ := swap_split hp
  refine .lift_bind hswap (.lift_bind (b := (pivot, rest)) rfl ?_)
  refine .bind (returns_scanUp (fun a => returns_ask isLess a pivot) (by omega)) ?_
  rintro l ⟨-, hl, hless, -⟩
  refine .bind (returns_scanDown (fun a => returns_ask isLess a pivot) (by omega)
    le_rfl) ?_
  rintro r ⟨hr, hlr, hnot, -⟩
  obtain ⟨a, b, c, rfl, rfl, rfl⟩ := exists_parts (v := rest) (l := l) (r := r) (by omega) (by omega)
  refine .bind (returns_onRange rfl rfl (returns_partitionInBlocks b)) ?_
  rintro ⟨count, v'⟩ ⟨b', ⟨hperm', hle, htrue, hfalse⟩, rfl⟩
  have hv : a ++ b' ++ c = (a ++ b'.take count) ++ (b'.drop count ++ c) := by
    rw [append_assoc a (b'.take count), ← append_assoc (b'.take count),
      take_append_drop, append_assoc]
  have hmid : a.length + count = (a ++ b'.take count).length := by
    rw [length_append, length_take, min_eq_left hle]
  obtain ⟨left, hswap', hleft⟩ := swap_front pivot (a ++ b'.take count) (b'.drop count ++ c)
  rw [← hv, ← hmid] at hswap'
  refine .lift_bind hswap' (.pure ⟨?_, left, pivot, b'.drop count ++ c, rfl, ?_, ?_, ?_⟩)
  · refine (perm_middle.trans (.cons pivot ?_)).trans hperm
    refine (hleft.append_right _).trans ?_
    rw [← hv]
    exact (hperm'.append_left a).append_right c
  · rw [hmid, hleft.length_eq]
  · intro x hx
    rcases mem_append.1 (hleft.mem_iff.1 hx) with hx | hx
    · obtain ⟨j, hj⟩ := mem_iff_getElem?.1 hx
      refine hless j x (Nat.zero_le _) (lt_length hj) ?_
      rw [append_assoc, getElem?_append_left (lt_length hj), hj]
    · exact htrue x hx
  · intro x hx
    rcases mem_append.1 hx with hx | hx
    · exact hfalse x hx
    · obtain ⟨j, hj⟩ := mem_iff_getElem?.1 hx
      have hlt := lt_length hj
      refine hnot (a.length + b.length + j) x (by omega) (by simp; omega) ?_
      rw [getElem?_append_right (by simp), length_append, Nat.add_sub_cancel_left, hj]

/-! ## `partition_equal` -/

/-- The elements before `l` were said not to be greater than the pivot, those from `r` on to be. -/
structure Equals (isLess : IsLess α σ) (pivot : α) (v : List α) (l r : Nat) : Prop where
  l_le : l ≤ v.length
  r_le : r ≤ v.length
  equal : ∀ j a, j < l → v[j]? = some a → Answers isLess pivot a false
  greater : ∀ j a, r ≤ j → v[j]? = some a → Answers isLess pivot a true

theorem returns_partitionEqualLoop : ∀ {n l r : Nat} {v : List α}, r - l < n →
    Equals isLess pivot v l r → Returns (partitionEqualLoop isLess pivot n l r v) fun p =>
      p.2.Perm v ∧ Equals isLess pivot p.2 p.1 p.1 := by
  intro n
  induction n with
  | zero => simp
  | succ n ih =>
    intro l r v hn h
    have hl_le := h.l_le
    have hlen := h.r_le
    refine .bind (returns_scanUp (fun a => returns_ask isLess pivot a) (by omega)) ?_
    rintro l' ⟨hl, hl', hequal, hstopl⟩
    refine .bind (returns_scanDown (fun a => returns_ask isLess pivot a) (by omega) hlen) ?_
    rintro r' ⟨hr, hr', hgreater, hstopr⟩
    have h' : Equals isLess pivot v l' r' := by
      refine ⟨by omega, by omega, fun j a hj ha => ?_, fun j a hj ha => ?_⟩
      · rcases lt_or_ge j l with hjl | hjl
        · exact h.equal j a hjl ha
        · exact hequal j a hjl hj ha
      · rcases lt_or_ge j r with hjr | hjr
        · exact hgreater j a hj hjr ha
        · exact h.greater j a hjr ha
    split
    · next hdone =>
      exact .pure ⟨.refl _, h'.l_le, h'.l_le, h'.equal, fun j a hj => h'.greater j a (by omega)⟩
    · next hdone =>
      have hgl := hstopl.resolve_left (by omega)
      have her := hstopr.resolve_left (by omega)
      refine .lift_bind (swap_eq (by omega) (by omega)) ?_
      have h'' : Equals isLess pivot (exchange v l' (r' - 1)) (l' + 1) (r' - 1) := by
        have hget := @exchange_getElem? _ v l' (r' - 1) (by omega) (by omega)
        refine ⟨by rw [exchange_length]; omega, by rw [exchange_length]; omega,
          fun j a hj ha => ?_, fun j a hj ha => ?_⟩
        · rw [hget] at ha
          by_cases hjl : j = l'
          · rw [hjl, Equiv.swap_apply_left] at ha
            exact her a ha
          · rw [Equiv.swap_apply_of_ne_of_ne hjl (by omega)] at ha
            exact h'.equal j a (by omega) ha
        · rw [hget] at ha
          by_cases hjr : j = r' - 1
          · rw [hjr, Equiv.swap_apply_right] at ha
            exact hgl a ha
          · rw [Equiv.swap_apply_of_ne_of_ne (by omega) hjr] at ha
            exact h'.greater j a (by omega) ha
      refine (ih (by omega) h'').imp fun p ⟨hperm, hp⟩ => ⟨hperm.trans (exchange_perm _ _ _), hp⟩

theorem returns_partitionEqual (hp : p < v.length) :
    Returns (partitionEqual isLess v p) fun q => q.2.Perm v ∧ ∃ pivot equal greater,
      v[p]? = some pivot ∧ q.2 = pivot :: (equal ++ greater) ∧ q.1 = equal.length + 1 ∧
        (∀ a ∈ equal, Answers isLess pivot a false) ∧
        ∀ a ∈ greater, Answers isLess pivot a true := by
  obtain ⟨pivot, rest, hpivot, hswap, hperm⟩ := swap_split hp
  refine .lift_bind hswap (.lift_bind (b := (pivot, rest)) rfl ?_)
  have hstart : Equals isLess pivot rest 0 rest.length :=
    ⟨Nat.zero_le _, Nat.le_refl _, by simp, fun j a hj ha => absurd (lt_length ha) (by omega)⟩
  refine .bind (returns_partitionEqualLoop (Nat.lt_succ_self _) hstart) ?_
  rintro ⟨l, v'⟩ ⟨hperm', h⟩
  refine .pure ⟨(hperm'.cons pivot).trans hperm, pivot, v'.take l, v'.drop l, hpivot, ?_, ?_, ?_, ?_⟩
  · rw [take_append_drop]
  · rw [length_take, min_eq_left h.r_le]
  · intro a ha
    obtain ⟨j, hj⟩ := mem_iff_getElem?.1 ha
    have hlt := lt_length hj
    rw [length_take] at hlt
    rw [getElem?_take_of_lt (by omega)] at hj
    exact h.equal j a (by omega) hj
  · intro a ha
    obtain ⟨j, hj⟩ := mem_iff_getElem?.1 ha
    rw [getElem?_drop] at hj
    exact h.greater _ a (Nat.le_add_right _ _) hj

end Tortis.Sort
