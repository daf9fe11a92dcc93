import Tortis.Collections.Deque.Elements

/-!
# Rearranging, shortening and lengthening

`swap` exchanges two elements, and what is built on it and on the ends does to the list what its
name says. `rotate_left` and `rotate_right` move the shorter part around the ring.
-/

namespace Tortis.Collections.VecDeque

open Slots SlotRing Outcome List Slice

variable {α σ : Type} {d : VecDeque α} {l : List α} {tail head : Nat} {buf : Slots α}

/-! ## Swaps -/

theorem swap_ok {i j : Nat} (hrep : Rep d l) (hi : i < l.length) (hj : j < l.length) :
    ∃ d', swap d i j = .ok d' ∧ Rep d' (exchange l i j) ∧ d'.cap = d.cap := by
  obtain ⟨tail, head, buf⟩ := d
  have htail : tail < buf.length := hrep.shape.tail_lt
  have hn : l.length < buf.length := hrep.shape.n_lt
  have hri := hrep.slot_tail hi
  have hrj := hrep.slot_tail hj
  have hpos : ∀ {k}, k < l.length → pos buf.length tail k < buf.length := by grind
  have hinj : ∀ {k k'}, k < l.length → k' < l.length →
      (pos buf.length tail k = pos buf.length tail k' ↔ k = k') := by grind
  have hadd : ∀ {k}, k < l.length →
      wrapAdd ⟨tail, head, buf⟩ tail k = pos buf.length tail k := fun {k} hk =>
    hrep.wrapAdd_eq htail (show k ≤ buf.length by omega)
  dsimp only at hri hrj
  rw [getElem?_eq_getElem hi] at hri
  rw [getElem?_eq_getElem hj] at hrj
  rw [swap, hrep.len_eq, bind_of_assert hi, bind_of_assert hj]
  dsimp only
  rw [read_eq hri, ok_bind, read_eq hrj, ok_bind, hadd hi, hadd hj]
  have hlength : ((buf.set (pos buf.length tail i) (some l[j])).set (pos buf.length tail j)
      (some l[i])).length = buf.length := by simp
  refine ⟨_, rfl, @Rep.of_slots α tail head buf.length _ _ hlength hrep.isCap ?_ fun k hk => ?_,
    hlength⟩
  · rw [exchange_length]
    exact hrep.shape
  · rw [exchange_length] at hk
    rw [slot_set _ (by rw [length_set]; exact hpos hj), slot_set _ (hpos hi),
      exchange_getElem? hi hj, Equiv.swap_apply_def]
    by_cases hkj : k = j
    · rw [if_pos ((hinj hk hj).2 hkj)]
      by_cases hki : k = i
      · obtain rfl : i = j := hki.symm.trans hkj
        rw [if_pos hki, getElem?_eq_getElem hi]
      · rw [if_neg hki, if_pos hkj, getElem?_eq_getElem hi]
    · rw [if_neg (mt (hinj hk hj).1 hkj)]
      by_cases hki : k = i
      · rw [if_pos ((hinj hk hi).2 hki), if_pos hki, getElem?_eq_getElem hj]
      · rw [if_neg (mt (hinj hk hi).1 hki), if_neg hki, if_neg hkj]
        exact hrep.holds k hk

theorem swapRemoveFront_ok (hrep : Rep d l) (index : Nat) :
    ∃ d', swapRemoveFront d index = .ok (l[index]?, d') ∧
      Rep d' (if index < l.length then (exchange l index 0).tail else l) := by
  rw [swapRemoveFront, hrep.len_eq]
  split
  · next h =>
    obtain ⟨d1, hswap, hrep1, -⟩ := swap_ok hrep h.2.1 h.1
    obtain ⟨d2, hpop, hrep2, -⟩ := popFront_ok hrep1
    refine ⟨d2, ?_, by rwa [if_pos h.2.1]⟩
    rw [hswap, ok_bind, hpop, head?_eq_getElem?, exchange_getElem? h.2.1 h.1,
      Equiv.swap_apply_right]
  · next h =>
    split
    · next hle => exact ⟨d, by rw [getElem?_eq_none hle], by rwa [if_neg (by omega)]⟩
    · next hlt =>
      obtain rfl : index = 0 := by omega
      obtain ⟨d2, hpop, hrep2, -⟩ := popFront_ok hrep
      have hpos : 0 < l.length := by omega
      have hself : exchange l 0 0 = l := by
        refine ext_getElem? fun k => ?_
        rw [exchange_getElem? hpos hpos, Equiv.swap_self, Equiv.refl_apply]
      exact ⟨d2, by rw [hpop, head?_eq_getElem?], by rwa [if_pos hpos, hself]⟩

theorem swapRemoveBack_ok (hrep : Rep d l) (index : Nat) :
    ∃ d', swapRemoveBack d index = .ok (l[index]?, d') ∧
      Rep d' (if index < l.length then (exchange l index (l.length - 1)).dropLast else l) := by
  rw [swapRemoveBack, hrep.len_eq]
  split
  · next h =>
    have hlast : l.length - 1 < l.length := by omega
    have hi : index < l.length := by omega
    obtain ⟨d1, hswap, hrep1, -⟩ := swap_ok hrep hi hlast
    obtain ⟨d2, hpop, hrep2, -⟩ := popBack_ok hrep1
    refine ⟨d2, ?_, by rwa [if_pos hi]⟩
    rw [hswap, ok_bind, hpop, getLast?_eq_getElem?, exchange_length,
      exchange_getElem? hi hlast, Equiv.swap_apply_right]
  · next h =>
    split
    · next hle => exact ⟨d, by rw [getElem?_eq_none hle], by rwa [if_neg (by omega)]⟩
    · next hlt =>
      obtain rfl : index = l.length - 1 := by omega
      obtain ⟨d2, hpop, hrep2, -⟩ := popBack_ok hrep
      have hpos : l.length - 1 < l.length := by omega
      have hself : exchange l (l.length - 1) (l.length - 1) = l := by
        refine ext_getElem? fun k => ?_
        rw [exchange_getElem? hpos hpos, Equiv.swap_self, Equiv.refl_apply]
      exact ⟨d2, by rw [hpop, getLast?_eq_getElem?], by rwa [if_pos hpos, hself]⟩

/-! ## Shortening -/

variable {n : Nat}

theorem popBackTimes_ok (hrep : Rep d l) :
    ∃ d', popBackTimes n d = .ok d' ∧ Rep d' (l.take (l.length - n)) ∧ d'.cap = d.cap := by
  induction n generalizing d l with
  | zero => exact ⟨d, rfl, by rwa [Nat.sub_zero, take_length], rfl⟩
  | succ n ih =>
    obtain ⟨d1, hpop, hrep1, hcap1⟩ := popBack_ok hrep
    obtain ⟨d', htimes, hrep', hcap'⟩ := ih hrep1
    refine ⟨d', by rw [popBackTimes, hpop, ok_bind]; exact htimes, ?_, hcap'.trans hcap1⟩
    rw [length_dropLast, dropLast_eq_take, take_take] at hrep'
    rwa [show min (l.length - 1 - n) (l.length - 1) = l.length - (n + 1) by omega] at hrep'

theorem truncate_ok (hrep : Rep d l) :
    ∃ d', truncate d n = .ok d' ∧ Rep d' (l.take n) ∧ d'.cap = d.cap := by
  obtain ⟨d', htimes, hrep', hcap'⟩ := @popBackTimes_ok _ d l (l.length - n) hrep
  refine ⟨d', by rw [truncate, hrep.len_eq, htimes], ?_, hcap'⟩
  rcases lt_or_ge n l.length with hlt | hle
  · rwa [show l.length - (l.length - n) = n by omega] at hrep'
  · rw [take_of_length_le (by omega)] at hrep'
    rwa [take_of_length_le hle]

theorem take_exchange {i j p : Nat} (hi : i < l.length) (hj : j < l.length) (hpi : p ≤ i)
    (hpj : p ≤ j) : (exchange l i j).take p = l.take p := by
  refine ext_getElem? fun k => ?_
  rcases lt_or_ge k p with hlt | hge
  · rw [getElem?_take_of_lt hlt, getElem?_take_of_lt hlt, exchange_getElem? hi hj,
      Equiv.swap_apply_of_ne_of_ne (by omega) (by omega)]
  · rw [getElem?_take_eq_none hge, getElem?_take_eq_none hge]

/-- The elements a closure with a state keeps, and its state afterwards. -/
def retained (f : σ → α → Bool × σ) : List α → σ → List α × σ
  | [], s => ([], s)
  | a :: l, s =>
    (if (f s a).1 then a :: (retained f l (f s a).2).1 else (retained f l (f s a).2).1,
      (retained f l (f s a).2).2)

variable {f : σ → α → Bool × σ}

/-- The loop of `retain`: the elements that are kept come first, and those that are left are in their
places. -/
theorem retainLoop_ok {rest : List α} {i del : Nat} {kept : List α} {s : σ}
    (hrep : Rep d l) (hdel : del ≤ i) (hkept : l.take (i - del) = kept) (hrest : l.drop i = rest)
    (hi : i ≤ l.length) :
    ∃ del' d' l', retainLoop f rest.length i del d s = .ok (del', d', (retained f rest s).2) ∧
      Rep d' l' ∧ l'.length = l.length ∧ del' ≤ l.length ∧
      l'.take (l.length - del') = kept ++ (retained f rest s).1 := by
  induction rest generalizing d l i del kept s with
  | nil =>
    have hlen := drop_eq_nil_iff.1 hrest
    obtain rfl : i = l.length := by omega
    exact ⟨del, d, l, rfl, hrep, rfl, hdel, by rw [hkept, retained, append_nil]⟩
  | cons a rest ih =>
    have hlt : i < l.length := by
      by_contra hge
      rw [drop_of_length_le (by omega)] at hrest
      cases hrest
    have ha : l[i]? = some a := by
      rw [← head?_drop, hrest, head?_cons]
    have hdrop : l.drop (i + 1) = rest := by
      rw [← tail_drop, hrest, tail_cons]
    rw [length_cons, retainLoop, index_ok hrep ha, ok_bind, keep]
    cases hf : (f s a).1 with
    | false =>
      obtain ⟨del', d', l', hloop, hrep', hlength', hdel', htake'⟩ := @ih d l (i + 1) (del + 1) kept
        (f s a).2 hrep (by omega) (by rwa [show i + 1 - (del + 1) = i - del by omega]) hdrop hlt
      refine ⟨del', d', l', ?_, hrep', hlength', hdel', ?_⟩
      · rw [if_pos (show (!false) = true from rfl), ok_bind]
        exact hloop
      · rw [retained, hf]
        exact htake'
    | true =>
      -- The element is exchanged with the first one that is dropped, if there is one.
      obtain ⟨d1, l1, hkeep, hrep1, hlength1, htake1, hdrop1⟩ : ∃ d1 l1,
          (if 0 < del then do
            let self ← d.swap (i - del) i
            .ok (del, self)
          else .ok (del, d) : Outcome (Nat × VecDeque α)) = .ok (del, d1) ∧ Rep d1 l1 ∧
            l1.length = l.length ∧ l1.take (i + 1 - del) = kept ++ [a] ∧ l1.drop (i + 1) = rest := by
        split
        · next hpos =>
          obtain ⟨d1, hswap, hrep1, -⟩ := swap_ok hrep (show i - del < l.length by omega) hlt
          refine ⟨d1, _, by rw [hswap, ok_bind], hrep1, exchange_length _ _ _, ?_, ?_⟩
          · rw [show i + 1 - del = i - del + 1 by omega, take_add_one,
              take_exchange (by omega) hlt le_rfl (by omega), hkept,
              exchange_getElem? (by omega) hlt, Equiv.swap_apply_left, ha]
            rfl
          · rw [exchange_drop (by omega) (Nat.lt_succ_self i), hdrop]
        · next hzero =>
          obtain rfl : del = 0 := by omega
          refine ⟨d, l, rfl, hrep, rfl, ?_, hdrop⟩
          rw [Nat.sub_zero] at hkept ⊢
          rw [take_add_one, hkept, ha]
          rfl
      obtain ⟨del', d', l', hloop, hrep', hlength', hdel', htake'⟩ := @ih d1 l1 (i + 1) del
        (kept ++ [a]) (f s a).2 hrep1 (by omega) htake1 hdrop1 (by omega)
      refine ⟨del', d', l', ?_, hrep', hlength'.trans hlength1, by omega, ?_⟩
      · rw [if_neg (show ¬(!true) = true by decide), hkeep, ok_bind]
        exact hloop
      · rw [retained, hf]
        rw [hlength1, append_assoc] at htake'
        exact htake'

theorem retain_ok (hrep : Rep d l) (s : σ) :
    ∃ d', retain f d s = .ok (d', (retained f l s).2) ∧ Rep d' (retained f l s).1 := by
  obtain ⟨del, d1, l1, hloop, hrep1, hlength, hdel, htake⟩ := @retainLoop_ok _ _ _ _ f l 0 0 [] s
    hrep (Nat.le_refl 0) rfl rfl (Nat.zero_le _)
  rw [nil_append] at htake
  rw [retain, hrep.len_eq, hloop, ok_bind]
  dsimp only
  split
  · obtain ⟨d', htruncate, hrep', -⟩ := @truncate_ok _ _ _ (l.length - del) hrep1
    exact ⟨d', by rw [htruncate, ok_bind], htake ▸ hrep'⟩
  · next hzero =>
    rw [show l.length - del = l.length by omega, take_of_length_le (by omega)] at htake
    exact ⟨d1, rfl, htake ▸ hrep1⟩

/-! ## Lengthening -/

variable {elemSize : Nat}

theorem extend_grows {elts : List α} (hsize : 0 < elemSize) (hrep : Rep d l) :
    Grows (extend elemSize d elts) fun d' => Rep d' (l ++ elts) := by
  induction elts generalizing d l with
  | nil => exact (append_nil l).symm ▸ hrep
  | cons a elts ih =>
    rw [extend, foldlM_cons, append_cons]
    exact .bind (pushBack_grows hsize hrep a) fun d1 hrep1 => ih hrep1

/-- The values of a closure with a state, and its state afterwards. -/
def generated (generator : σ → α × σ) : Nat → σ → List α × σ
  | 0, s => ([], s)
  | n + 1, s =>
    ((generator s).1 :: (generated generator n (generator s).2).1,
      (generated generator n (generator s).2).2)

variable {generator : σ → α × σ}

theorem extendWith_grows {s : σ}
    (hsize : 0 < elemSize) (hrep : Rep d l) : Grows (extendWith elemSize generator n d s) fun r =>
      Rep r.1 (l ++ (generated generator n s).1) ∧ r.2 = (generated generator n s).2 := by
  induction n generalizing d l s with
  | zero => exact ⟨(append_nil l).symm ▸ hrep, rfl⟩
  | succ n ih =>
    rw [extendWith, generated, append_cons]
    exact .bind (pushBack_grows hsize hrep _) fun d1 hrep1 => ih hrep1

theorem resizeWith_grows {elemSize newLen : Nat} (hsize : 0 < elemSize)
    (hrep : Rep d l) (s : σ) : Grows (resizeWith elemSize d newLen generator s) fun r =>
      Rep r.1 (l.take newLen ++ (generated generator (newLen - l.length) s).1) ∧
        r.2 = (generated generator (newLen - l.length) s).2 := by
  rw [resizeWith, hrep.len_eq]
  split
  · next hlt =>
    rw [take_of_length_le (by omega)]
    exact extendWith_grows hsize hrep
  · next hle =>
    obtain ⟨d', htruncate, hrep', -⟩ := @truncate_ok _ _ _ newLen hrep
    rw [htruncate, ok_bind, show newLen - l.length = 0 by omega]
    exact ⟨(append_nil _).symm ▸ hrep', rfl⟩

/-! ## Rotation -/

theorem wrapCopy_bound {cap dst src n : Nat} (hdst : dst < cap)
    (hn : 2 * n ≤ cap) : min (diff dst src) (cap - diff dst src) + n ≤ cap := by
  rw [diff]
  split <;> omega

variable {l1 l2 : List α}

theorem rotateLeftInner_ok (hrep : Rep d (l1 ++ l2)) (hhalf : l1.length ≤ l2.length) :
    ∃ d', rotateLeftInner d l1.length = .ok d' ∧ Rep d' (l2 ++ l1) := by
  obtain ⟨tail, head, buf⟩ := d
  have hlen := hrep.len_eq
  obtain ⟨hcap, hshape, hholds⟩ := hrep
  have hn := hshape.n_lt
  obtain ⟨htail, hhead, hlength⟩ := id hshape
  dsimp only [cap] at *
  rw [length_append] at *
  rw [holds_append htail (by omega)] at hholds
  obtain ⟨buf', hcopy, hlen', hmoved, hkeep⟩ := @wrapCopy_holds _ l1 tail head head tail buf hcap
    hhead htail (wrapCopy_bound hhead (by omega)) hholds.1
  have hpos : pos buf.length tail l1.length < buf.length := by grind
  have hkept := hkeep _ l2 hpos hholds.2 (by omega) fun k hk => by grind
  have hadd : ∀ {idx}, idx < buf.length → wrapAdd ⟨tail, head, buf'⟩ idx l1.length =
      pos buf.length idx l1.length := by
    intro idx hidx
    rw [wrapAdd, cap, hlen']
    exact wrapIndex_add hcap hidx (by omega)
  refine ⟨⟨pos buf.length tail l1.length, pos buf.length head l1.length, buf'⟩, ?_,
    .of_slots hlen' hcap ?_ ?_⟩
  · rw [rotateLeftInner, hlen, bind_of_assert (by omega), hcopy, ok_bind, hadd htail, hadd hhead]
  · rw [length_append]
    exact ⟨hpos, by grind, by grind⟩
  · have happend := (@holds_append _ buf' (pos buf.length tail l1.length) l2 l1 (by omega)
      (by omega)).2 ⟨hkept, by
        rwa [hlen', show pos buf.length (pos buf.length tail l1.length) l2.length = head by
          grind]⟩
    rwa [Holds, hlen'] at happend

theorem rotateRightInner_ok (hrep : Rep d (l1 ++ l2)) (hhalf : l2.length ≤ l1.length) :
    ∃ d', rotateRightInner d l2.length = .ok d' ∧ Rep d' (l2 ++ l1) := by
  obtain ⟨tail, head, buf⟩ := d
  have hlen := hrep.len_eq
  obtain ⟨hcap, hshape, hholds⟩ := hrep
  have hn := hshape.n_lt
  obtain ⟨htail, hhead, hlength⟩ := id hshape
  dsimp only [cap] at *
  rw [length_append] at *
  rw [holds_append htail (by omega)] at hholds
  have hsub : ∀ {idx}, idx < buf.length → wrapSub ⟨tail, head, buf⟩ idx l2.length =
      back buf.length idx l2.length := fun {idx} hidx =>
    wrapIndex_sub hcap hidx (show l2.length ≤ buf.length by omega)
  have htail' : back buf.length tail l2.length < buf.length := by grind
  have hhead' : back buf.length head l2.length < buf.length := by grind
  have hsrc : pos buf.length tail l1.length = back buf.length head l2.length := by grind
  rw [hsrc] at hholds
  obtain ⟨buf', hcopy, hlen', hmoved, hkeep⟩ := @wrapCopy_holds _ l2 (back buf.length tail l2.length)
    (back buf.length head l2.length) (back buf.length tail l2.length)
    (back buf.length head l2.length) buf hcap htail' hhead'
    (wrapCopy_bound htail' (by omega)) hholds.2
  have hkept := hkeep _ l1 htail hholds.1 (by omega) fun k hk => by grind
  refine ⟨⟨back buf.length tail l2.length, back buf.length head l2.length, buf'⟩, ?_,
    .of_slots hlen' hcap ?_ ?_⟩
  · rw [rotateRightInner, hlen, bind_of_assert (by omega)]
    dsimp only
    rw [hsub htail, hsub hhead, hcopy]
  · rw [length_append]
    exact ⟨htail', hhead', by grind⟩
  · have happend := (@holds_append _ buf' (back buf.length tail l2.length) l2 l1 (by omega)
      (by omega)).2 ⟨hmoved, by
        rwa [hlen', show pos buf.length (back buf.length tail l2.length) l2.length = tail by
          grind]⟩
    rwa [Holds, hlen'] at happend

theorem rotateLeft_ok {mid : Nat} (hrep : Rep d l) (hmid : mid ≤ l.length) :
    ∃ d', rotateLeft d mid = .ok d' ∧ Rep d' (l.drop mid ++ l.take mid) := by
  have htake : (l.take mid).length = mid := length_take_of_le hmid
  have hdrop : (l.drop mid).length = l.length - mid := length_drop
  have hrep' : Rep d (l.take mid ++ l.drop mid) := by rwa [take_append_drop]
  rw [rotateLeft, hrep.len_eq, bind_of_assert hmid]
  dsimp only
  split
  · have := rotateLeftInner_ok hrep' (by omega)
    rwa [htake] at this
  · have := rotateRightInner_ok hrep' (by omega)
    rwa [hdrop] at this

theorem rotateRight_ok {k : Nat} (hrep : Rep d l) (hk : k ≤ l.length) :
    ∃ d', rotateRight d k = .ok d' ∧ Rep d' (l.drop (l.length - k) ++ l.take (l.length - k)) := by
  have htake : (l.take (l.length - k)).length = l.length - k := length_take_of_le (by omega)
  have hdrop : (l.drop (l.length - k)).length = k := by
    rw [length_drop]
    omega
  have hrep' : Rep d (l.take (l.length - k) ++ l.drop (l.length - k)) := by
    rwa [take_append_drop]
  rw [rotateRight, hrep.len_eq, bind_of_assert hk]
  dsimp only
  split
  · have := rotateRightInner_ok hrep' (by omega)
    rwa [hdrop] at this
  · have := rotateLeftInner_ok hrep' (by omega)
    rwa [htake] at this

end Tortis.Collections.VecDeque
