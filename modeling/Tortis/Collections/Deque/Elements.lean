import Mathlib.Data.List.Induction
import Tortis.Collections.Deque.Grow

/-!
# The ends and the elements of a ring buffer

An element at an end is given up by moving the tail or the head past it, and a slot next to an end
takes a new one (`Rep.uncons`, `Rep.unconcat`, `Rep.cons`, `Rep.concat`).
-/

namespace Tortis.Collections.VecDeque

open Slots SlotRing Outcome List

variable {α : Type} {d : VecDeque α} {l : List α} {tail head : Nat} {buf : Slots α} {a : α}

/-! ## Moving the ends -/

theorem Rep.uncons (h : Rep ⟨tail, head, buf⟩ (a :: l)) :
    slot buf tail = some a ∧ Rep ⟨pos buf.length tail 1, head, buf⟩ l := by
  obtain ⟨hcap, ⟨htail, hhead, hn⟩, hholds⟩ := h
  dsimp only [cap] at hcap htail hhead hn hholds
  refine ⟨?_, .of_slots rfl hcap ⟨by grind, hhead, by grind⟩ fun k hk => ?_⟩
  · have := hholds 0 (Nat.zero_lt_succ _)
    rwa [pos, if_pos (by omega), add_zero] at this
  · have := hholds (k + 1) (Nat.succ_lt_succ hk)
    grind

theorem Rep.unconcat (h : Rep ⟨tail, head, buf⟩ (l ++ [a])) :
    slot buf (back buf.length head 1) = some a ∧ Rep ⟨tail, back buf.length head 1, buf⟩ l := by
  obtain ⟨hcap, ⟨htail, hhead, hn⟩, hholds⟩ := h
  dsimp only [cap] at hcap htail hhead hn hholds
  refine ⟨?_, .of_slots rfl hcap ⟨htail, by grind, by grind⟩ fun k hk => ?_⟩
  · have := hholds l.length (by simp)
    grind
  · have := hholds k (by simp; omega)
    rwa [getElem?_append_left hk] at this

section
variable (h : Rep ⟨tail, head, buf⟩ l)
include h

theorem Rep.set {p : Nat} (x : Option α) (hp : p < buf.length)
    (hfree : ∀ k, k < l.length → pos buf.length tail k ≠ p) : Rep ⟨tail, head, buf.set p x⟩ l := by
  refine .of_slots length_set h.isCap h.shape fun k hk => ?_
  rw [slot_set _ hp, if_neg (hfree k hk)]
  exact h.holds k hk

theorem Rep.concat (hroom : l.length + 1 < buf.length) :
    Rep ⟨tail, pos buf.length head 1, buf.set head (some a)⟩ (l ++ [a]) := by
  obtain ⟨hcap, ⟨htail, hhead, hn⟩, hholds⟩ := h
  dsimp only [cap] at hcap htail hhead hn hholds
  have hlength : (l ++ [a]).length = l.length + 1 := by simp
  refine .of_slots length_set hcap ⟨htail, by grind, by grind⟩ fun k hk => ?_
  rw [slot_set _ hhead]
  rcases lt_or_ge k l.length with hlt | hge
  · rw [if_neg (by grind), getElem?_append_left hlt]
    exact hholds k hlt
  · obtain rfl : k = l.length := by omega
    rw [if_pos (by grind), getElem?_concat_length]

theorem Rep.cons (hroom : l.length + 1 < buf.length) :
    Rep ⟨back buf.length tail 1, head, buf.set (back buf.length tail 1) (some a)⟩ (a :: l) := by
  obtain ⟨hcap, ⟨htail, hhead, hn⟩, hholds⟩ := h
  dsimp only [cap] at hcap htail hhead hn hholds
  have hlength : (a :: l).length = l.length + 1 := rfl
  refine .of_slots length_set hcap ⟨by grind, hhead, by grind⟩ fun k hk => ?_
  rw [slot_set _ (by grind)]
  rcases k with _ | k
  · rw [if_pos (by grind)]
    rfl
  · rw [if_neg (by grind), getElem?_cons_succ, ← hholds k (by omega)]
    congr 1
    grind

end

/-! ## Pushing and popping -/

theorem pushBack_grows {elemSize : Nat} (hsize : 0 < elemSize) (hrep : Rep d l) (value : α) :
    Grows (pushBack elemSize d value) fun d' => Rep d' (l ++ [value]) := by
  refine .bind (growIfNecessary_grows hsize hrep) fun ⟨tail, head, buf⟩ ⟨hrep1, hroom⟩ => ?_
  have hhead : head < buf.length := hrep1.shape.head_lt
  have hadd : wrapAdd ⟨tail, head, buf⟩ head 1 = pos buf.length head 1 :=
    hrep1.wrapAdd_eq hhead (by omega)
  dsimp only
  rw [write_eq hhead, ok_bind, hadd]
  exact hrep1.concat hroom

theorem pushFront_grows {elemSize : Nat} (hsize : 0 < elemSize) (hrep : Rep d l) (value : α) :
    Grows (pushFront elemSize d value) fun d' => Rep d' (value :: l) := by
  refine .bind (growIfNecessary_grows hsize hrep) fun ⟨tail, head, buf⟩ ⟨hrep1, hroom⟩ => ?_
  have htail : tail < buf.length := hrep1.shape.tail_lt
  have hsub : wrapSub ⟨tail, head, buf⟩ tail 1 = back buf.length tail 1 :=
    hrep1.wrapSub_eq htail (by omega)
  have hback : back buf.length tail 1 < buf.length := by grind
  dsimp only
  rw [hsub, write_eq hback, ok_bind]
  exact hrep1.cons hroom

theorem popFront_ok (hrep : Rep d l) :
    ∃ d', popFront d = .ok (l.head?, d') ∧ Rep d' l.tail ∧ d'.cap = d.cap := by
  rw [popFront, hrep.isEmpty_eq]
  cases l with
  | nil => exact ⟨d, rfl, hrep, rfl⟩
  | cons a l =>
    obtain ⟨tail, head, buf⟩ := d
    obtain ⟨hread, hrep'⟩ := hrep.uncons
    have htail : tail < buf.length := hrep.shape.tail_lt
    have hn : l.length + 1 < buf.length := hrep.shape.n_lt
    have hadd : wrapAdd ⟨tail, head, buf⟩ tail 1 = pos buf.length tail 1 :=
      hrep.wrapAdd_eq htail (show 1 ≤ buf.length by omega)
    refine ⟨⟨pos buf.length tail 1, head, buf.set tail none⟩, ?_, hrep'.set none htail ?_,
      length_set⟩
    · rw [isEmpty_cons, if_neg (by decide)]
      rw [moveOut_eq hread, ok_bind, hadd, head?_cons]
    · grind

theorem popBack_ok (hrep : Rep d l) :
    ∃ d', popBack d = .ok (l.getLast?, d') ∧ Rep d' l.dropLast ∧ d'.cap = d.cap := by
  rw [popBack, hrep.isEmpty_eq]
  cases l using List.reverseRecOn with
  | nil => exact ⟨d, rfl, hrep, rfl⟩
  | append_singleton l a =>
    obtain ⟨tail, head, buf⟩ := d
    obtain ⟨hread, hrep'⟩ := hrep.unconcat
    have hhead : head < buf.length := hrep.shape.head_lt
    have hlen := hrep'.shape.length
    have hsub : wrapSub ⟨tail, head, buf⟩ head 1 = back buf.length head 1 :=
      hrep.wrapSub_eq hhead (show 1 ≤ buf.length by omega)
    refine ⟨⟨tail, back buf.length head 1, buf.set (back buf.length head 1) none⟩, ?_, ?_,
      length_set⟩
    · rw [if_neg (by simp)]
      dsimp only
      rw [hsub, moveOut_eq hread, ok_bind, getLast?_concat]
    · rw [dropLast_concat]
      refine hrep'.set none (by grind) fun k hk => ?_
      dsimp only [cap] at hlen
      grind

end Tortis.Collections.VecDeque

/-! ## Reading and rearranging -/

namespace Tortis.Collections.VecDeque

open Slots SlotRing Outcome List

variable {α σ : Type} {d : VecDeque α} {l : List α} {tail head : Nat} {buf : Slots α}

/-! ## Reading -/

theorem get_ok (hrep : Rep d l) (i : Nat) : get d i = .ok l[i]? := by
  rw [get, hrep.len_eq]
  split
  · next hi =>
    have hread := hrep.slot_tail hi
    rw [getElem?_eq_getElem hi] at hread ⊢
    rw [read_eq hread, ok_bind]
  · next hi => rw [getElem?_eq_none (by omega)]

theorem index_ok {i : Nat} {a : α} (hrep : Rep d l) (hi : l[i]? = some a) : index d i = .ok a := by
  rw [index, get_ok hrep, ok_bind, hi, expect_some]

theorem readBlock_eq {start : Nat} (h : ∀ i, i < l.length → slot buf (start + i) = l[i]?) :
    readBlock buf start l.length = .ok l := by
  obtain ⟨block, hread, hlength, hblock⟩ := @readBlock_spec _ _ _ l.length fun i hi => by
    rw [h i hi, getElem?_eq_getElem hi]
    rfl
  rw [hread]
  congr 1
  refine ext_getElem? fun i => ?_
  rcases lt_or_ge i l.length with hi | hi
  · rw [hblock i hi, h i hi]
  · rw [getElem?_eq_none (by omega), getElem?_eq_none hi]

def sections (cap tail head : Nat) : Span × Span :=
  if tail ≤ head then (⟨tail, head - tail⟩, ⟨0, 0⟩) else (⟨tail, cap - tail⟩, ⟨0, head⟩)

theorem Span.ringSlices_eq {cap tail head : Nat} (htail : tail < cap) (hhead : head < cap) :
    Span.ringSlices ⟨0, cap⟩ head tail = .ok (sections cap tail head) := by
  rw [Span.ringSlices, sections]
  split
  · next hle =>
    rw [Span.splitAt, assert_ok (by simp), ok_bind]
    simp only [zero_add, Nat.sub_zero, ok_bind]
    rw [Span.slice, assert_ok (by simp; omega), ok_bind, ok_bind, zero_add]
  · next hlt =>
    rw [Span.splitAt, assert_ok (by simp; omega), ok_bind]
    simp only [zero_add, ok_bind]
    rw [Span.splitAt, assert_ok (by simp; omega), ok_bind, ok_bind]

theorem asMutSlices_eq (hrep : Rep d l) : asMutSlices d = .ok (sections d.cap d.tail d.head) :=
  Span.ringSlices_eq hrep.shape.tail_lt hrep.shape.head_lt

theorem asSlices_ok (hrep : Rep d l) : ∃ front back, asSlices d = .ok (front, back) ∧
    l = front ++ back ∧ front.length = (sections d.cap d.tail d.head).1.len ∧
      back.length = (sections d.cap d.tail d.head).2.len := by
  have htail := hrep.shape.tail_lt
  have hhead := hrep.shape.head_lt
  have hcont : d.tail ≤ d.head → d.tail + l.length = d.head := hrep.shape.contiguous
  have hwrapped : d.head < d.tail → d.tail + l.length = d.head + d.cap := hrep.shape.wrapped
  rw [asSlices, asMutSlices_eq hrep, ok_bind, sections]
  by_cases hle : d.tail ≤ d.head
  · rw [if_pos hle]
    refine ⟨l, [], ?_, (append_nil l).symm, Nat.eq_sub_of_add_eq' (hcont hle), rfl⟩
    dsimp only
    rw [show d.head - d.tail = l.length by have := hcont hle; omega,
      readBlock_eq fun i hi => ?_, ok_bind]
    · rfl
    · rw [← hrep.slot_pos hi, pos, if_pos (by have := hcont hle; omega)]
  · rw [if_neg hle]
    have hfront : (l.take (d.cap - d.tail)).length = d.cap - d.tail := by
      rw [length_take]
      omega
    have hback : (l.drop (d.cap - d.tail)).length = d.head := by
      rw [length_drop]
      omega
    refine ⟨l.take (d.cap - d.tail), l.drop (d.cap - d.tail), ?_,
      (take_append_drop _ l).symm, hfront, hback⟩
    have hfront' := @readBlock_eq α (l.take (d.cap - d.tail)) d.buf d.tail fun i hi => by
      rw [getElem?_take_of_lt (by omega), ← hrep.slot_pos (by omega), pos, if_pos (by omega)]
    have hback' := @readBlock_eq α (l.drop (d.cap - d.tail)) d.buf 0 fun i hi => by
      rw [getElem?_drop, ← hrep.slot_pos (by omega), pos, if_neg (by omega)]
      congr 1
      omega
    rw [hfront] at hfront'
    rw [hback] at hback'
    dsimp only
    rw [hfront', ok_bind, hback', ok_bind]

/-! ## Iterators -/

def takeEnd (l : List α) (back : Bool) : Option α × List α :=
  if back then (l.getLast?, l.dropLast) else (l.head?, l.tail)

def takeEnds : List α → List Bool → List (Option α) × List α
  | l, [] => ([], l)
  | l, back :: ends =>
    ((takeEnd l back).1 :: (takeEnds (takeEnd l back).2 ends).1,
      (takeEnds (takeEnd l back).2 ends).2)

theorem takeEnd_nil (fromBack : Bool) : takeEnd ([] : List α) fromBack = (none, []) := by
  cases fromBack <;> rfl

theorem nextFrom_ok (hrep : Rep ⟨tail, head, buf⟩ l) (hne : l ≠ []) (fromBack : Bool) :
    ∃ j tail' head', j < l.length ∧ Iter.nextFrom ⟨buf.length, tail, head⟩ fromBack =
        (some (pos buf.length tail j), ⟨buf.length, tail', head'⟩) ∧
      slot buf (pos buf.length tail j) = (takeEnd l fromBack).1 ∧
      Rep ⟨tail', head', buf⟩ (takeEnd l fromBack).2 ∧
      tail' = pos buf.length tail (if fromBack then 0 else 1) ∧
      j = if fromBack then l.length - 1 else 0 := by
  have hcap : IsCap buf.length := hrep.isCap
  have htail : tail < buf.length := hrep.shape.tail_lt
  have hhead : head < buf.length := hrep.shape.head_lt
  have hn : l.length = back buf.length head tail := hrep.shape.length
  have hpos : 0 < l.length := length_pos_iff.2 hne
  have hends : tail ≠ head := by
    rintro rfl
    grind
  cases fromBack with
  | false =>
    obtain ⟨a, l, rfl⟩ := exists_cons_of_ne_nil hne
    obtain ⟨hread, hrep'⟩ := hrep.uncons
    have hzero : pos buf.length tail 0 = tail := pos_of_lt (by omega)
    refine ⟨0, _, head, hpos, ?_, by rw [hzero]; exact hread, hrep', rfl, rfl⟩
    rw [hzero, Iter.nextFrom, if_neg (by decide), Iter.next, if_neg hends]
    rw [wrapIndex_add hcap htail (by omega)]
  | true =>
    obtain ⟨l, a, rfl⟩ : ∃ l' a, l = l' ++ [a] :=
      ⟨l.dropLast, l.getLast hne, (dropLast_append_getLast hne).symm⟩
    obtain ⟨hread, hrep'⟩ := hrep.unconcat
    have hlast : pos buf.length tail l.length = back buf.length head 1 := by grind
    have hzero : pos buf.length tail 0 = tail := pos_of_lt (by omega)
    refine ⟨l.length, tail, back buf.length head 1, by simp, ?_, ?_, ?_, hzero.symm, by simp⟩
    · rw [hlast, Iter.nextFrom, if_pos rfl, Iter.nextBack, if_neg hends]
      rw [wrapIndex_sub hcap hhead (by omega)]
    · rw [hlast, hread, takeEnd, if_pos rfl, getLast?_concat]
    · rwa [takeEnd, if_pos rfl, dropLast_concat]

theorem nextFrom_nil (hrep : Rep ⟨tail, head, buf⟩ ([] : List α)) (fromBack : Bool) :
    Iter.nextFrom ⟨buf.length, tail, head⟩ fromBack = (none, ⟨buf.length, tail, head⟩) := by
  have hends : tail = head := by
    have := hrep.isEmpty_eq
    rwa [isEmpty, isEmpty_nil, decide_eq_true_iff] at this
  cases fromBack with
  | false => exact if_pos hends
  | true => exact if_pos hends

theorem collect_ok {ends : List Bool} (hrep : Rep ⟨tail, head, buf⟩ l) :
    Iter.collect buf ⟨buf.length, tail, head⟩ ends = .ok (takeEnds l ends).1 := by
  induction ends generalizing tail head l with
  | nil => rfl
  | cons fromBack ends ih =>
    rw [Iter.collect]
    by_cases hne : l = []
    · subst hne
      rw [nextFrom_nil hrep fromBack, deref, ok_bind, ih hrep, ok_bind, takeEnds, takeEnd_nil]
    · obtain ⟨j, tail', head', hj, hnext, hread, hrep', -, -⟩ := nextFrom_ok hrep hne fromBack
      rw [hrep.holds j hj, getElem?_eq_getElem hj] at hread
      have hslot := hrep.holds j hj
      rw [getElem?_eq_getElem hj] at hslot
      rw [hnext, deref, read_eq hslot, ok_bind, ok_bind, ih hrep', ok_bind, takeEnds, ← hread]

end Tortis.Collections.VecDeque
