import Tortis.Collections.Deque.Layout

/-!
# Changing the capacity

`wrap_copy` moves a block between any two places of the ring, whichever of the two blocks wraps
(`wrapCopy_ok`).

A larger buffer is put to use by moving the shorter section (`handleCapacityIncrease_ok`), a smaller
one by moving the elements into its bounds (`moveInside_ok`).
-/

namespace Tortis.Collections.VecDeque

open Slots SlotRing Outcome List

variable {α : Type} {d : VecDeque α} {l : List α}

/-! ## Wrapping blocks -/

/-- Where a slot has its element from when a block is moved around the ring. -/
@[grind] def ringOrigin (cap dst src len p : Nat) : Nat :=
  if back cap p dst < len then pos cap src (back cap p dst) else p

section
variable {cap dst src len : Nat}

/-- The slots of a block of the ring. -/
@[grind] def InBlock (cap src len p : Nat) : Prop := p < cap ∧ back cap p src < len

/-- Some copies move a block around the ring. -/
structure MovesBlock (cap dst src len : Nat) (blocks : List Block) : Prop where
  copyable : Copyable cap (InBlock cap src len) id blocks
  origins_eq : ∀ p, p < cap → origins blocks p = ringOrigin cap dst src len p

theorem movesBlock_straight (hsrc : src + len ≤ cap) (hdst : dst + len ≤ cap) :
    MovesBlock cap dst src len [⟨dst, src, len⟩] where
  copyable := by grind
  origins_eq p hp := by grind

theorem movesBlock_dst_after (hdst : cap < dst + len) (hlt : dst < cap)
    (hbefore : src + len ≤ dst) :
    MovesBlock cap dst src len
      [⟨dst, src, cap - dst⟩, ⟨0, src + (cap - dst), len - (cap - dst)⟩] where
  copyable := by grind
  origins_eq p hp := by grind

theorem movesBlock_dst_within (hsrc : src + len ≤ cap) (hdst : cap < dst + len) (hlt : dst < cap)
    (hlen : dst + len ≤ src + cap) :
    MovesBlock cap dst src len
      [⟨0, src + (cap - dst), len - (cap - dst)⟩, ⟨dst, src, cap - dst⟩] where
  copyable := by grind
  origins_eq p hp := by grind

theorem movesBlock_src_before (hsrc : cap < src + len) (hdst : dst + len ≤ cap) (hlt : src < cap)
    (hbefore : src + len ≤ dst + cap) :
    MovesBlock cap dst src len
      [⟨dst, src, cap - src⟩, ⟨dst + (cap - src), 0, len - (cap - src)⟩] where
  copyable := by grind
  origins_eq p hp := by grind

theorem movesBlock_src_within (hsrc : cap < src + len) (hlt : src < cap) (hlen : dst + len ≤ src) :
    MovesBlock cap dst src len
      [⟨dst + (cap - src), 0, len - (cap - src)⟩, ⟨dst, src, cap - src⟩] where
  copyable := by grind
  origins_eq p hp := by grind

theorem movesBlock_back (hsrc : src < cap) (hdst : cap < dst + len) (hlt : dst < src)
    (hlen : src + len ≤ dst + cap) :
    MovesBlock cap dst src len
      [⟨dst, src, cap - src⟩, ⟨dst + (cap - src), 0, cap - dst - (cap - src)⟩,
        ⟨0, cap - dst - (cap - src), len - (cap - dst)⟩] where
  copyable := by
    refine ⟨?_, ?_, fun p hp hp' => ?_, ?_, ?_, fun p hp hp' => ?_, ?_, ?_, fun p hp hp' => ?_,
      trivial⟩ <;> grind
  origins_eq p hp := by grind

theorem movesBlock_forward (hsrc : cap < src + len) (hdst : dst < cap) (hlt : src < dst)
    (hlen : dst + len ≤ src + cap) :
    MovesBlock cap dst src len
      [⟨cap - src - (cap - dst), 0, len - (cap - src)⟩,
        ⟨0, cap - (cap - src - (cap - dst)), cap - src - (cap - dst)⟩, ⟨dst, src, cap - dst⟩] where
  copyable := by
    refine ⟨?_, ?_, fun p hp hp' => ?_, ?_, ?_, fun p hp hp' => ?_, ?_, ?_, fun p hp hp' => ?_,
      trivial⟩ <;> grind
  origins_eq p hp := by grind

def wrapBlocks (cap dst src len : Nat) : List Block :=
  match decide (back cap dst src < len), decide (cap - src < len), decide (cap - dst < len) with
  | _, false, false => [⟨dst, src, len⟩]
  | false, false, true => [⟨dst, src, cap - dst⟩, ⟨0, src + (cap - dst), len - (cap - dst)⟩]
  | true, false, true => [⟨0, src + (cap - dst), len - (cap - dst)⟩, ⟨dst, src, cap - dst⟩]
  | false, true, false => [⟨dst, src, cap - src⟩, ⟨dst + (cap - src), 0, len - (cap - src)⟩]
  | true, true, false => [⟨dst + (cap - src), 0, len - (cap - src)⟩, ⟨dst, src, cap - src⟩]
  | false, true, true =>
    [⟨dst, src, cap - src⟩, ⟨dst + (cap - src), 0, cap - dst - (cap - src)⟩,
      ⟨0, cap - dst - (cap - src), len - (cap - dst)⟩]
  | true, true, true =>
    [⟨cap - src - (cap - dst), 0, len - (cap - src)⟩,
      ⟨0, cap - (cap - src - (cap - dst)), cap - src - (cap - dst)⟩, ⟨dst, src, cap - dst⟩]

theorem overlap_once (hlen : min (diff dst src) (cap - diff dst src) + len ≤ cap) :
    (dst ≤ src ∧ (src + len ≤ dst + cap ∨ dst + len ≤ src)) ∨
      (src < dst ∧ (src + len ≤ dst ∨ dst + len ≤ src + cap)) := by
  rw [diff] at hlen
  split at hlen <;> omega

theorem back_lt_iff (hsrc : src < cap) : back cap dst src < len ↔
    (src ≤ dst ∧ dst < src + len) ∨ (dst < src ∧ dst + cap < src + len) := by
  rw [back]
  split <;> omega

theorem movesBlock_wrapBlocks (hdst : dst < cap) (hsrc : src < cap) (hne : src ≠ dst)
    (hlen : min (diff dst src) (cap - diff dst src) + len ≤ cap) :
    MovesBlock cap dst src len (wrapBlocks cap dst src len) := by
  have hone := overlap_once hlen
  have hafter := @back_lt_iff cap dst src len hsrc
  rw [wrapBlocks]
  split
  · next hsw hdw => exact movesBlock_straight (by simp at hsw; omega) (by simp at hdw; omega)
  all_goals
    rename_i ha hsw hdw
    simp only [decide_eq_true_eq, decide_eq_false_iff_not, hafter] at ha hsw hdw
  · exact movesBlock_dst_after (by omega) hdst (by omega)
  · exact movesBlock_dst_within (by omega) (by omega) hdst (by omega)
  · exact movesBlock_src_before (by omega) (by omega) hsrc (by omega)
  · exact movesBlock_src_within (by omega) hsrc (by omega)
  · exact movesBlock_back hsrc (by omega) (by omega) (by omega)
  · exact movesBlock_forward (by omega) hdst (by omega) (by omega)

end

theorem wrapCopyCases_eq {dst src len : Nat} (hcap : IsCap d.cap) (hdst : dst < d.cap)
    (hsrc : src < d.cap) (hne : src ≠ dst)
    (hlen : min (diff dst src) (d.cap - diff dst src) + len ≤ d.cap) :
    d.wrapCopyCases dst src len = d.copies (wrapBlocks d.cap dst src len) := by
  have hsub : d.wrapSub dst src = back d.cap dst src := wrapIndex_sub hcap hdst (by omega)
  have hone := overlap_once hlen
  have hafter := @back_lt_iff d.cap dst src len hsrc
  rw [wrapCopyCases, wrapBlocks, hsub]
  cases ha : decide (back d.cap dst src < len) <;> cases hsw : decide (d.cap - src < len) <;>
    cases hdw : decide (d.cap - dst < len) <;> simp only [copies_cons, copies_nil, bind_pure]
  · simp only [decide_eq_true_eq, decide_eq_false_iff_not, hafter] at ha hsw hdw
    rw [assert, if_pos (decide_eq_true (by omega)), ok_bind]
  · simp only [decide_eq_true_eq, hafter] at ha hsw hdw
    rw [assert, if_pos (decide_eq_true (by omega)), ok_bind]
    cases hcopy : d.copy (d.cap - src - (d.cap - dst)) 0 (len - (d.cap - src)) with
    | error e => rfl
    | ok d' => rw [ok_bind, ok_bind, cap_of_copy hcopy]

section
variable {tail head dst src len : Nat} {buf : Slots α}

theorem wrapCopy_ok (hcap : IsCap buf.length) (hdst : dst < buf.length) (hsrc : src < buf.length)
    (hlen : min (diff dst src) (buf.length - diff dst src) + len ≤ buf.length)
    (hinit : ∀ p, InBlock buf.length src len p → (slot buf p).isSome) :
    ∃ buf', wrapCopy ⟨tail, head, buf⟩ dst src len = .ok ⟨tail, head, buf'⟩ ∧
      buf'.length = buf.length ∧
      ∀ p, p < buf.length → slot buf' p = slot buf (ringOrigin buf.length dst src len p) := by
  rw [wrapCopy, cap, bind_of_assert hlen]
  split
  · next hnone =>
    refine ⟨buf, rfl, rfl, fun p hp => ?_⟩
    rw [show ringOrigin buf.length dst src len p = p by grind]
  · next hne =>
    have hmoves := movesBlock_wrapBlocks hdst hsrc (fun h => hne (.inl h)) hlen
    obtain ⟨buf', hcopied, hlength, hslot⟩ := @copied_ok _ tail head _ _ _ hinit hmoves.copyable
    refine ⟨buf', ?_, hlength, fun p hp => ?_⟩
    · exact (@wrapCopyCases_eq _ ⟨tail, head, buf⟩ _ _ _ hcap hdst hsrc (fun h => hne (.inl h))
        hlen).trans hcopied.copies_eq
    · rw [hslot, hmoves.origins_eq p hp]

theorem wrapCopy_holds (hcap : IsCap buf.length) (hdst : dst < buf.length) (hsrc : src < buf.length)
    (hlen : min (diff dst src) (buf.length - diff dst src) + l.length ≤ buf.length)
    (hl : Holds buf src l) :
    ∃ buf', wrapCopy ⟨tail, head, buf⟩ dst src l.length = .ok ⟨tail, head, buf'⟩ ∧
      buf'.length = buf.length ∧ Holds buf' dst l ∧
      ∀ start l', start < buf.length → Holds buf start l' → l'.length ≤ buf.length →
        (∀ k, k < l'.length → l.length ≤ back buf.length (pos buf.length start k) dst) →
        Holds buf' start l' := by
  obtain ⟨buf', hcopy, hlength, hslot⟩ := @wrapCopy_ok _ tail head dst src l.length buf hcap hdst
    hsrc hlen fun p ⟨hp, hk⟩ => by
      have := hl.isSome hk
      rwa [show pos buf.length src (back buf.length p src) = p by grind] at this
  refine ⟨buf', hcopy, hlength, fun k hk => ?_, fun start l' hstart hl' hn hapart => ?_⟩
  · rw [hlength, hslot _ (by grind), ← hl k hk]
    congr 1
    grind
  · refine hl'.congr hlength fun k hk => ?_
    rw [hslot _ (by grind), ringOrigin, if_neg (by have := hapart k hk; omega)]

end

end Tortis.Collections.VecDeque

/-! ## Changing the capacity -/

namespace Tortis.Collections.VecDeque

open Slots SlotRing Outcome List

variable {α β γ : Type} {d : VecDeque α} {l : List α}

/-! ## Allocation -/

/-- A run that returns such a value, unless the capacity overflows. -/
def Grows (x : Outcome β) (P : β → Prop) : Prop :=
  match x with
  | .ok b => P b
  | .error h => h = .panic "capacity overflow"

variable {x : Outcome β} {P : β → Prop}

theorem Grows.of_ok (h : ∃ b, x = .ok b ∧ P b) : Grows x P := by
  obtain ⟨b, rfl, hb⟩ := h
  exact hb

theorem Grows.bind {f : β → Outcome γ} {Q : γ → Prop}
    (hx : Grows x P) (hf : ∀ b, P b → Grows (f b) Q) : Grows (x >>= f) Q := by
  cases x with
  | ok b => exact hf b hx
  | error h => exact hx

variable {capacity elemSize : Nat}

theorem grows_allocGuard (hsize : 0 < elemSize) :
    Grows (RawVec.allocGuard elemSize capacity) fun _ => capacity < 2 ^ 63 := by
  rw [RawVec.allocGuard, assert]
  split
  · next h =>
    have hle := of_decide_eq_true h
    have := Nat.le_mul_of_pos_right capacity hsize
    rw [ISIZE_MAX] at hle
    show capacity < 2 ^ 63
    omega
  · rfl

theorem grows_assert (cond : Bool) :
    Grows (assert cond "capacity overflow") fun _ => cond = true := by
  cases cond with
  | false => rfl
  | true => exact rfl

theorem slot_append {buf more : Slots α} {p : Nat} (hp : p < buf.length) :
    slot (buf ++ more) p = slot buf p := by
  rw [slot, slot, getElem?_append_left hp]

/-- A buffer of size `newLen` that begins with the slots of another one. -/
structure Enlarges (buf : Slots α) (newLen : Nat) (buf' : Slots α) : Prop where
  length : buf'.length = newLen
  fits : newLen < 2 ^ 63
  slot : ∀ p, p < buf.length → slot buf' p = slot buf p

theorem double_grows (hsize : 0 < elemSize) (buf : Slots α) :
    Grows (RawVec.double elemSize buf) (Enlarges buf (2 * buf.length)) := by
  refine .bind (grows_allocGuard hsize) fun _ hfits => ?_
  refine ⟨?_, hfits, fun p hp => slot_append hp⟩
  rw [length_append, length_replicate, Nat.two_mul]

variable {buf : Slots α}

theorem reserveExact_grows {used needed : Nat} (hsize : 0 < elemSize)
    (hcap : buf.length < 2 ^ 63) (hused : used ≤ buf.length) (hneeded : buf.length < used + needed) :
    Grows (RawVec.reserveExact elemSize buf used needed) (Enlarges buf (used + needed)) := by
  have hsub : wrappingSub buf.length used = buf.length - used := by
    rw [wrappingSub]
    omega
  rw [RawVec.reserveExact, hsub, if_neg (by omega)]
  refine .bind (grows_allocGuard hsize) fun _ hfits => ⟨?_, hfits, fun p hp => ?_⟩
  · rw [length_append, length_take, length_replicate]
    omega
  · rw [take_of_length_le (by omega), slot_append hp]

theorem withCapacity_rawVec_grows (hsize : 0 < elemSize) :
    Grows (RawVec.withCapacity (α := α) elemSize capacity) fun buf =>
      buf.length = capacity ∧ capacity < 2 ^ 63 :=
  .bind (grows_allocGuard hsize) fun _ hfits => ⟨length_replicate, hfits⟩

/-! ## A larger buffer -/

theorem assertWithin_ok (hcap : IsCap d.cap) (htail : d.tail < d.cap) (hhead : d.head < d.cap) :
    d.assertWithin = .ok () := by
  rw [assertWithin, bind_of_assert hhead, bind_of_assert htail, assert_ok hcap.isPowerOfTwo]

theorem moveShortest_ok {tail head : Nat} {old buf : Slots α} (hrep : Rep ⟨tail, head, old⟩ l)
    (hcap : IsCap buf.length) (hlt : old.length < buf.length)
    (hbuf : ∀ p, p < old.length → slot buf p = slot old p) :
    ∃ d, moveShortest ⟨tail, head, buf⟩ old.length = .ok d ∧ Rep d l ∧ d.cap = buf.length := by
  obtain ⟨hold, hshape, hholds⟩ := hrep
  have hlive := @Rep.isSome _ _ _ ⟨hold, hshape, hholds⟩
  simp only [cap] at hold hshape hlive
  have htwice := hold.two_mul_le hcap hlt
  obtain ⟨htail, hhead, -⟩ := id hshape
  rw [moveShortest]
  simp only [cap]
  split
  · next hle =>
    have hn := hshape.contiguous hle
    refine ⟨_, rfl, .of_slots rfl hcap ?_ fun k hk => ?_, rfl⟩
    · exact .of_pos (by omega) (by omega) (by rw [pos_of_lt (by omega)]; exact hn.symm)
    · rw [← hholds k hk, ← hbuf _ (by grind)]
      congr 1
      grind
  · next hgt =>
    have hn := hshape.wrapped (Nat.lt_of_not_le hgt)
    split
    · next hshort =>
      obtain ⟨buf', hcopy, hlength, hslot⟩ := @copyNonoverlapping_ok _ tail head old.length 0 head
        buf (by omega) (by omega) (by omega) fun p hp hp' => by
          rw [hbuf p (by omega)]
          exact hlive (by rw [InUse, if_neg hgt]; omega)
      refine ⟨⟨tail, head + old.length, buf'⟩, ?_, .of_slots hlength hcap ?_ fun k hk => ?_, hlength⟩
      · rw [hcopy, ok_bind]
        exact bind_of_assert (by dsimp only; omega)
      · exact .of_pos (by omega) (by omega) (by rw [pos_of_lt (by omega)]; exact hn.symm)
      · rw [hslot, ← hholds k hk, ← hbuf _ (by grind)]
        congr 1
        grind
    · next hlong =>
      obtain ⟨buf', hcopy, hlength, hslot⟩ := @copyNonoverlapping_ok _ tail head
        (buf.length - (old.length - tail)) tail (old.length - tail) buf (by omega) (by omega)
        (by omega) fun p hp hp' => by
          rw [hbuf p (by omega)]
          exact hlive (by rw [InUse, if_neg hgt]; omega)
      refine ⟨⟨buf.length - (old.length - tail), head, buf'⟩, ?_, .of_slots hlength hcap ?_
        fun k hk => ?_, hlength⟩
      · rw [hcopy, ok_bind]
        exact bind_of_assert (by dsimp only; omega)
      · exact .of_pos (by omega) (by omega) (by rw [pos_of_le (by omega)]; omega)
      · rw [hslot, ← hholds k hk, ← hbuf _ (by grind)]
        congr 1
        grind

theorem handleCapacityIncrease_ok (hrep : Rep d l) (hcap : IsCap buf.length)
    (hlt : d.cap < buf.length) (hbuf : ∀ p, p < d.cap → slot buf p = slot d.buf p) :
    ∃ d', handleCapacityIncrease { d with buf } d.cap = .ok d' ∧ Rep d' l ∧
      d'.cap = buf.length := by
  obtain ⟨d', hmove, hrep', hcap'⟩ := moveShortest_ok hrep hcap hlt hbuf
  refine ⟨d', ?_, hrep', hcap'⟩
  rw [handleCapacityIncrease, cap, hmove, ok_bind,
    assertWithin_ok hrep'.isCap hrep'.shape.tail_lt hrep'.shape.head_lt, ok_bind]

theorem IsCap.double {cap : Nat} (h : IsCap cap) (hlt : 2 * cap < 2 ^ 63) : IsCap (2 * cap) := by
  obtain ⟨k, hk, -, rfl⟩ := h
  rw [mul_comm, ← pow_succ] at hlt ⊢
  exact ⟨k + 1, by omega, (Nat.pow_lt_pow_iff_right (by decide)).1 hlt, rfl⟩

theorem growIfNecessary_grows (hsize : 0 < elemSize) (hrep : Rep d l) :
    Grows (growIfNecessary elemSize d) fun d' => Rep d' l ∧ l.length + 1 < d'.cap := by
  have hn := hrep.shape.n_lt
  rw [growIfNecessary, hrep.isFull_eq]
  split
  · next hfull =>
    refine .bind (double_grows hsize d.buf) fun buf ⟨hlength, hfits, hslot⟩ => ?_
    rw [← cap] at hlength hfits
    obtain ⟨d', hhandle, hrep', hcap'⟩ := handleCapacityIncrease_ok hrep
      (hlength ▸ hrep.isCap.double hfits) (by omega) hslot
    have hroom : l.length + 1 < d'.cap := by omega
    refine .of_ok ⟨d', ?_, hrep', hroom⟩
    rw [hhandle, ok_bind, hrep'.isFull_eq, assert_ok (by simp; omega), ok_bind]
  · next hfull =>
    rw [decide_eq_true_iff] at hfull
    exact ⟨hrep, by omega⟩

theorem reserve_grows {additional : Nat} (hsize : 0 < elemSize) (hrep : Rep d l) :
    Grows (reserve elemSize d additional) fun d' => Rep d' l := by
  have hn := hrep.shape.n_lt
  rw [reserve, hrep.len_eq]
  refine .bind (grows_assert _) fun _ _ => ?_
  split
  · next hlt =>
    refine .bind (reserveExact_grows hsize hrep.isCap.lt (by rw [cap] at hn; exact hn)
      (by rw [cap] at *; omega)) fun buf ⟨hlength, hfits, hslot⟩ => ?_
    rw [show l.length + 1 + (nextPowerOfTwo (l.length + 1 + additional) - (l.length + 1)) =
      nextPowerOfTwo (l.length + 1 + additional) by omega] at hlength hfits
    have hiscap : IsCap buf.length := by
      rw [hlength]
      refine isCap_nextPowerOfTwo ?_ hfits
      by_contra hlt'
      have := nextPowerOfTwo_le hrep.isCap (show l.length + 1 + additional ≤ d.cap by omega)
      omega
    obtain ⟨d', hhandle, hrep', -⟩ := handleCapacityIncrease_ok hrep hiscap (by omega) hslot
    exact .of_ok ⟨d', hhandle, hrep'⟩
  · exact hrep

theorem withCapacity_grows (hsize : 0 < elemSize) :
    Grows (withCapacity (α := α) elemSize capacity) fun d =>
      Rep d [] ∧ capacity < d.cap ∧ d.tail = 0 ∧ d.head = 0 := by
  refine .bind (grows_assert _) fun _ hassert => ?_
  refine .bind (withCapacity_rawVec_grows hsize) fun buf ⟨hlength, hfits⟩ => ?_
  have hcap : IsCap (nextPowerOfTwo (max (capacity + 1) 2)) :=
    isCap_nextPowerOfTwo (le_max_right _ _) hfits
  rw [Bool.and_eq_true, decide_eq_true_iff] at hassert
  refine ⟨.of_slots hlength hcap (.of_pos ?_ ?_ ?_) nofun, ?_, rfl, rfl⟩
  · omega
  · rw [length_nil]
    omega
  · exact (if_pos (by rw [length_nil]; omega)).symm
  · rw [cap, hlength]
    exact hassert.1

/-! ## A smaller buffer -/

theorem moveInside_ok {tail head targetCap : Nat} (hrep : Rep ⟨tail, head, buf⟩ l)
    (htarget : IsCap targetCap) (hlt : targetCap < buf.length) (hn : l.length < targetCap) :
    ∃ tail' head' buf', moveInside ⟨tail, head, buf⟩ targetCap = .ok ⟨tail', head', buf'⟩ ∧
      buf'.length = buf.length ∧ Shape targetCap tail' head' l.length ∧
      ∀ k, k < l.length → slot buf' (pos targetCap tail' k) = l[k]? := by
  have hlen := hrep.len_eq
  have hlive := @Rep.isSome _ _ _ hrep
  have hwrap := @Rep.wrapSub_eq _ _ _ targetCap hrep
  have hwrap1 := @Rep.wrapSub_eq _ _ _ 1 hrep
  obtain ⟨hold, hshape, hholds⟩ := hrep
  simp only [cap] at hold hshape hlive hwrap hwrap1
  have htwice := htarget.two_mul_le hold hlt
  obtain ⟨htail, hhead, -⟩ := id hshape
  have hcont : tail ≤ head → tail + l.length = head := hshape.contiguous
  have hwrapped : head < tail → tail + l.length = head + buf.length := hshape.wrapped
  have hlen' : ∀ {buf' : Slots α}, buf'.length = buf.length → len ⟨tail, head, buf'⟩ = l.length := by
    intro buf' hlength
    rw [← hlen, len, len, cap, cap, hlength]
  simp only [moveInside, cap, hwrap hhead (by omega), hwrap1 hhead (by omega)]
  rw [hlen]
  split
  · next hout =>
    obtain ⟨buf', hcopy, hlength, hslot⟩ := @copyNonoverlapping_ok _ tail head 0 tail l.length buf
      (by omega) (by omega) (by omega) fun p hp hp' => hlive (by rw [InUse]; split <;> omega)
    refine ⟨0, l.length, buf', ?_, hlength, .of_pos (by omega) hn ?_, fun k hk => ?_⟩
    · rw [hcopy, ok_bind, hlen' hlength]
    · rw [pos_of_lt (by omega), zero_add]
    · rw [hslot, ← hholds k hk]
      congr 1
      grind
  · next hin =>
    split
    · next hout =>
      have hback : back buf.length head targetCap = head - targetCap := by
        rw [back, if_pos (by omega)]
      rw [hback]
      obtain ⟨buf', hcopy, hlength, hslot⟩ := @copyNonoverlapping_ok _ tail head 0 targetCap
        (head - targetCap) buf (by omega) (by omega) (by omega)
        fun p hp hp' => hlive (by rw [InUse]; split <;> omega)
      refine ⟨tail, head - targetCap, buf', ?_, hlength, .of_pos (by omega) hn ?_, fun k hk => ?_⟩
      · rw [hcopy, ok_bind]
        exact bind_of_assert (by dsimp only; omega)
      · rw [pos_of_le (by omega)]
        omega
      · rw [hslot, ← hholds k hk]
        congr 1
        grind
    · next hout' =>
      split
      · next htail' =>
        have hback : back buf.length head 1 = head - 1 := by
          rw [back, if_pos (by omega)]
        obtain ⟨buf', hcopy, hlength, hslot⟩ := @copyNonoverlapping_ok _ tail head
          (targetCap - (buf.length - tail)) tail (buf.length - tail) buf (by omega) (by omega)
          (by omega) fun p hp hp' => hlive (by rw [InUse]; split <;> omega)
        refine ⟨targetCap - (buf.length - tail), head, buf', ?_, hlength,
          .of_pos (by omega) hn ?_, fun k hk => ?_⟩
        · rw [bind_of_assert (by omega), hcopy, ok_bind]
          exact bind_of_assert (by dsimp only; omega)
        · rw [pos_of_le (by omega)]
          omega
        · rw [hslot, ← hholds k hk]
          congr 1
          grind
      · next htail' =>
        refine ⟨tail, head, buf, rfl, rfl, .of_pos (by omega) hn ?_, fun k hk => ?_⟩
        · rw [pos_of_lt (by omega)]
          omega
        · rw [← hholds k hk]
          congr 1
          grind

theorem shrinkTo_ok {minCapacity : Nat} (hrep : Rep d l) (hmin : minCapacity ≤ d.capacity) :
    ∃ d', shrinkTo d minCapacity = .ok d' ∧ Rep d' l := by
  have hle := le_nextPowerOfTwo (max (max minCapacity l.length + 1) 2)
  have hiscap := @isCap_nextPowerOfTwo (max (max minCapacity l.length + 1) 2) (le_max_right _ _)
  rw [shrinkTo, bind_of_assert hmin, hrep.len_eq]
  generalize nextPowerOfTwo (max (max minCapacity l.length + 1) 2) = targetCap at hle hiscap ⊢
  dsimp only
  split
  · next hlt =>
    have htarget := hiscap (lt_trans hlt hrep.isCap.lt)
    obtain ⟨tail', head', buf', hmove, hlength, hshape, hslot⟩ := moveInside_ok hrep htarget hlt
      (by omega)
    have hle' : targetCap ≤ buf'.length := hlength ▸ le_of_lt hlt
    have hrep' : Rep ⟨tail', head', buf'.take targetCap⟩ l := by
      refine .of_slots (length_take_of_le hle') htarget hshape fun k hk => ?_
      have htail := hshape.tail_lt
      rw [← hslot k hk, slot, slot, getElem?_take_of_lt (by grind)]
    refine ⟨_, ?_, hrep'⟩
    rw [hmove, ok_bind, RawVec.shrinkToFit, bind_of_assert hle', ok_bind,
      assertWithin_ok hrep'.isCap hrep'.shape.tail_lt hrep'.shape.head_lt, ok_bind]
  · exact ⟨_, rfl, hrep⟩

end Tortis.Collections.VecDeque
