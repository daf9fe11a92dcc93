import Tortis.Collections.Deque.Rearrange

/-!
# Draining

While a range is drained, the elements before it, those of it that are left and those after it stand
in three parts of the ring (`Draining`). Taking an element shortens the part in the middle
(`nextFrom_draining`), and when it is empty the shorter of the two others is moved over the hole
(`closeHole_ok`).
-/

namespace Tortis.Collections.VecDeque

open Slots SlotRing Outcome List

variable {α : Type} {d : VecDeque α} {l l₁ rest l₃ : List α}

/-- The parts of the ring while a range is drained: `i` is where the elements that are left start, and
`n` was the number of all elements. -/
structure Draining (drain : Drain α) (l₁ rest l₃ : List α) (i n : Nat) : Prop where
  isCap : IsCap drain.deque.buf.length
  ringLen : drain.iter.ringLen = drain.deque.buf.length
  tail_lt : drain.deque.tail < drain.deque.buf.length
  n_lt : n < drain.deque.buf.length
  before : l₁.length ≤ i
  after : i + rest.length + l₃.length ≤ n
  head : drain.deque.head = pos drain.deque.buf.length drain.deque.tail l₁.length
  iterTail : drain.iter.tail = pos drain.deque.buf.length drain.deque.tail i
  iterHead : drain.iter.head = pos drain.deque.buf.length drain.deque.tail (i + rest.length)
  afterTail : drain.afterTail = pos drain.deque.buf.length drain.deque.tail (n - l₃.length)
  afterHead : drain.afterHead = pos drain.deque.buf.length drain.deque.tail n
  holds₁ : Holds drain.deque.buf drain.deque.tail l₁
  holds : Holds drain.deque.buf drain.iter.tail rest
  holds₃ : Holds drain.deque.buf drain.afterTail l₃

theorem drain_ok {start end_ : Bound} {l2 : List α} (hrep : Rep d (l₁ ++ (l2 ++ l₃)))
    (hstart : start.start = .ok l₁.length)
    (hend : end_.end_ (l₁ ++ (l2 ++ l₃)).length = .ok (l₁.length + l2.length)) :
    ∃ drain, d.drain start end_ = .ok drain ∧ drain.deque.cap = d.cap ∧
      Draining drain l₁ l2 l₃ l₁.length (l₁ ++ (l2 ++ l₃)).length := by
  obtain ⟨tail, head, buf⟩ := d
  have hlen := hrep.len_eq
  obtain ⟨hcap, hshape, hholds⟩ := hrep
  have hn := hshape.n_lt
  have hhead := hshape.pos_tail
  have htail := hshape.tail_lt
  dsimp only [cap] at *
  have hadd : ∀ {k}, k ≤ buf.length → wrapAdd ⟨tail, head, buf⟩ tail k = pos buf.length tail k :=
    fun {k} hk => wrapIndex_add hcap htail hk
  have htotal : (l₁ ++ (l2 ++ l₃)).length = l₁.length + l2.length + l₃.length := by
    rw [length_append, length_append, add_assoc]
  have hpos : pos buf.length tail l₁.length < buf.length := by grind
  rw [holds_append htail (by rw [length_append] at *; omega),
    holds_append hpos (by omega)] at hholds
  rw [VecDeque.drain, hlen, hstart, ok_bind, hend, ok_bind,
    bind_of_assert (by omega), bind_of_assert (by omega), hadd (by omega), hadd (by omega)]
  refine ⟨_, rfl, rfl, hcap, rfl, htail, hn, le_rfl, by omega, rfl, rfl, rfl, ?_, hhead.symm,
    hholds.1, hholds.2.1, ?_⟩
  · rw [htotal, Nat.add_sub_cancel]
  · have := hholds.2.2
    rwa [show pos buf.length (pos buf.length tail l₁.length) l2.length =
      pos buf.length tail (l₁.length + l2.length) by grind] at this

variable {drain : Drain α}

theorem nextFrom_draining {i n : Nat} (h : Draining drain l₁ rest l₃ i n) (fromBack : Bool) :
    ∃ drain' i', drain.nextFrom fromBack = .ok ((takeEnd rest fromBack).1, drain') ∧
      drain'.deque.cap = drain.deque.cap ∧
      Draining drain' l₁ (takeEnd rest fromBack).2 l₃ i' n := by
  obtain ⟨afterTail, afterHead, ⟨ringLen, t, hd⟩, ⟨tail, head, buf⟩⟩ := drain
  obtain ⟨hcap, hring, htail, hn, hbefore, hafter, hhead, ht, hh, hat, hah, hl1, hrest, hl3⟩ := h
  dsimp only at *
  subst hring
  have hrep : Rep ⟨t, hd, buf⟩ rest := by
    refine .of_slots rfl hcap (.of_pos ?_ (by omega) ?_) hrest
    · grind
    · grind
  rw [Drain.nextFrom]
  by_cases hne : rest = []
  · subst hne
    rw [nextFrom_nil hrep fromBack, takeEnd_nil]
    exact ⟨_, i, rfl, rfl, hcap, rfl, htail, hn, hbefore, hafter, hhead, ht, hh, hat, hah, hl1,
      hrest, hl3⟩
  · obtain ⟨j, t', hd', hj, hnext, hread, hrep', ht', hj'⟩ := nextFrom_ok hrep hne fromBack
    obtain ⟨first, hfirst, ht'⟩ : ∃ first, (first = 0 ∧ j = rest.length - 1 ∨ first = 1 ∧ j = 0) ∧
        t' = pos buf.length t first := by
      refine ⟨_, ?_, ht'⟩
      cases fromBack
      · exact .inr ⟨rfl, hj'⟩
      · exact .inl ⟨rfl, hj'⟩
    rw [hrep.holds j hj, getElem?_eq_getElem hj] at hread
    have hslot : slot buf (pos buf.length t j) = some rest[j] := by
      rw [← getElem?_eq_getElem hj]
      exact hrest j hj
    have hlen' : (takeEnd rest fromBack).2.length = rest.length - 1 := by
      cases fromBack <;> simp [takeEnd]
    have hat' : pos buf.length t j = pos buf.length tail (i + j) := by
      rw [ht, pos_pos htail (by omega)]
    have hp : pos buf.length tail (i + j) < buf.length := pos_lt htail (by omega)
    -- A list that stands elsewhere stays.
    have hkeep : ∀ {k : Nat} {m : List α}, Holds buf (pos buf.length tail k) m →
        k + m.length ≤ n → i + j < k ∨ k + m.length ≤ i + j →
        Holds (buf.set (pos buf.length tail (i + j)) none) (pos buf.length tail k) m := by
      intro k m hm hle hapart
      refine hm.congr length_set fun x hx => ?_
      rw [slot_set _ hp, pos_pos htail (by omega), if_neg (pos_ne (by omega) (by omega) (by omega))]
    have hzero : pos buf.length tail 0 = tail := by
      rw [pos, add_zero, if_pos htail]
    have hl1' := @hkeep 0 l₁ (by rwa [hzero]) (by omega) (by omega)
    rw [hzero] at hl1'
    have hl3' := @hkeep (n - l₃.length) l₃ (by rwa [← hat]) (by omega) (by omega)
    rw [ht, pos_pos htail (by omega)] at ht'
    have hhead' : pos buf.length t' (takeEnd rest fromBack).2.length = hd' := hrep'.shape.pos_tail
    rw [ht', hlen', pos_pos htail (by omega)] at hhead'
    have hrest' := @hkeep (i + first) _ (ht' ▸ hrep'.holds) (by omega) (by omega)
    rw [hnext]
    dsimp only
    rw [hat'] at hslot ⊢
    rw [moveOut_eq hslot, ok_bind, ← hread]
    have hset : (buf.set (pos buf.length tail (i + j)) none).length = buf.length := length_set
    generalize buf.set (pos buf.length tail (i + j)) none = buf1 at hl1' hl3' hrest' hset ⊢
    refine ⟨_, i + first, rfl, hset, ?_⟩
    rw [← hset] at hcap hn htail hhead ht' hhead' hat hah hl3' hrest'
    exact ⟨hcap, hset.symm, htail, hn, by omega, by omega, hhead, ht', by rw [← hhead', hlen'], hat,
      hah, hl1', ht' ▸ hrest', hat ▸ hl3'⟩

theorem take_draining {ends : List Bool} {drain : Drain α} {i n : Nat}
    (h : Draining drain l₁ rest l₃ i n) :
    ∃ drain' i', drain.take ends = .ok ((takeEnds rest ends).1, drain') ∧
      drain'.deque.cap = drain.deque.cap ∧ Draining drain' l₁ (takeEnds rest ends).2 l₃ i' n := by
  induction ends generalizing drain rest i with
  | nil => exact ⟨drain, i, rfl, rfl, h⟩
  | cons fromBack ends ih =>
    obtain ⟨drain1, i1, hnext, hcap1, h1⟩ := nextFrom_draining h fromBack
    obtain ⟨drain', i', htake, hcap', h'⟩ := ih h1
    refine ⟨drain', i', ?_, hcap'.trans hcap1, h'⟩
    rw [Drain.take, hnext, ok_bind]
    dsimp only
    rw [htake, ok_bind, takeEnds]

theorem dropAll_draining {fuel : Nat} {drain : Drain α} {i n : Nat}
    (h : Draining drain l₁ rest l₃ i n) (hfuel : rest.length < fuel) :
    ∃ drain' i', drain.dropAll fuel = .ok drain' ∧ drain'.deque.cap = drain.deque.cap ∧
      Draining drain' l₁ [] l₃ i' n := by
  induction fuel generalizing drain rest i with
  | zero => simp at hfuel
  | succ fuel ih =>
    obtain ⟨drain1, i1, hnext, hcap1, h1⟩ := nextFrom_draining h false
    rw [Drain.dropAll, hnext, ok_bind]
    cases rest with
    | nil => exact ⟨drain1, i1, rfl, hcap1, h1⟩
    | cons a rest =>
      obtain ⟨drain', i', hdrop, hcap', h'⟩ := ih h1 (Nat.lt_of_succ_lt_succ hfuel)
      exact ⟨drain', i', hdrop, hcap'.trans hcap1, h'⟩

theorem rep_append {cap tail head : Nat} {buf : Slots α} (hlength : buf.length = cap)
    (hcap : IsCap cap) (htail : tail < cap) (hlen : l₁.length + l₃.length < cap)
    (h1 : Holds buf tail l₁) (h3 : Holds buf (pos cap tail l₁.length) l₃)
    (hhead : head = pos cap tail (l₁.length + l₃.length)) : Rep ⟨tail, head, buf⟩ (l₁ ++ l₃) := by
  subst hlength
  refine .of_slots rfl hcap (.of_pos htail ?_ ?_) ((holds_append htail (by omega)).2 ⟨h1, h3⟩)
  · rwa [length_append]
  · rwa [length_append]

theorem closeHole_ok {i n : Nat} (h : Draining drain l₁ [] l₃ i n) :
    ∃ d, drain.closeHole = .ok d ∧ d.cap = drain.deque.cap ∧ Rep d (l₁ ++ l₃) := by
  obtain ⟨afterTail, afterHead, iter, ⟨tail, head, buf⟩⟩ := drain
  obtain ⟨hcap, -, htail, hn, hbefore, hafter, hhead, -, -, hat, hah, hl1, -, hl3⟩ := h
  dsimp only [length_nil] at *
  have hhead_lt : head < buf.length := hhead ▸ pos_lt htail (by omega)
  have hat_lt : afterTail < buf.length := hat ▸ pos_lt htail (by omega)
  have hah_lt : afterHead < buf.length := hah ▸ pos_lt htail (by omega)
  obtain ⟨hole, rfl⟩ : ∃ hole, n = l₁.length + hole + l₃.length :=
    ⟨n - l₃.length - l₁.length, by omega⟩
  rw [Nat.add_sub_cancel] at hat
  have htailLen : count tail head buf.length = l₁.length := by
    rw [count_eq hcap htail hhead_lt, (Shape.of_pos htail (by omega) hhead).length]
  have hshape3 : Shape buf.length afterTail afterHead l₃.length :=
    .of_pos hat_lt (by omega) (by rw [hat, pos_pos htail (by omega), hah])
  have hheadLen : count afterTail afterHead buf.length = l₃.length := by
    rw [count_eq hcap hat_lt hah_lt, hshape3.length]
  rw [Drain.closeHole]
  simp only [cap, htailLen, hheadLen]
  split
  · next hnone =>
    rw [length_eq_zero_iff.1 hnone.1, length_eq_zero_iff.1 hnone.2]
    have hpos : 0 < buf.length := by omega
    exact ⟨_, rfl, rfl, .of_slots rfl hcap ⟨hpos, hpos, rfl⟩ fun k hk => absurd hk (Nat.not_lt_zero k)⟩
  split
  · next hnone =>
    rw [length_eq_zero_iff.1 hnone]
    exact ⟨_, rfl, rfl, .of_slots rfl hcap hshape3 hl3⟩
  split
  · next hnone =>
    rw [length_eq_zero_iff.1 hnone, append_nil]
    exact ⟨_, rfl, rfl, .of_slots rfl hcap (.of_pos htail (by omega) hhead) hl1⟩
  split
  · next hle =>
    -- The elements before the range are moved up to those after it.
    have hnew : wrapSub ⟨tail, afterHead, buf⟩ afterTail l₁.length = pos buf.length tail hole := by
      rw [wrapSub, cap, wrapIndex_sub hcap hat_lt (by omega)]
      grind
    have hnew_lt : pos buf.length tail hole < buf.length := pos_lt htail (by omega)
    have hnext : pos buf.length (pos buf.length tail hole) l₁.length = afterTail := by
      rw [pos_pos htail (by omega), hat, add_comm]
    rw [hnew]
    obtain ⟨buf', hcopy, hlength, hmoved, hkept⟩ := @wrapCopy_holds _ l₁ (pos buf.length tail hole)
      afterHead (pos buf.length tail hole) tail buf hcap hnew_lt htail
      (wrapCopy_bound hnew_lt (by omega)) hl1
    have hkept3 := hkept afterTail l₃ hat_lt hl3 (by omega) fun k hk => by grind
    refine ⟨_, hcopy, hlength, rep_append hlength hcap hnew_lt (by omega) hmoved ?_ ?_⟩
    · rwa [hnext]
    · rw [hah, pos_pos htail (by omega)]
      congr 1
      omega
  · next hlt =>
    -- The elements after the range are moved down to those before it.
    have hnew : wrapAdd ⟨tail, afterHead, buf⟩ head l₃.length = pos buf.length head l₃.length :=
      wrapIndex_add hcap hhead_lt (show l₃.length ≤ buf.length by omega)
    rw [hnew]
    obtain ⟨buf', hcopy, hlength, hmoved, hkept⟩ := @wrapCopy_holds _ l₃ tail
      (pos buf.length head l₃.length) head afterTail buf hcap hhead_lt hat_lt
      (wrapCopy_bound hhead_lt (by omega)) hl3
    have hkept1 := hkept tail l₁ htail hl1 (by omega) fun k hk => by grind
    refine ⟨_, hcopy, hlength, rep_append hlength hcap htail (by omega) hkept1 ?_ ?_⟩
    · rwa [← hhead]
    · rw [hhead, pos_pos htail (by omega)]

/-! ## Dropping -/

theorem drop_ok {i n : Nat} (h : Draining drain l₁ rest l₃ i n) :
    ∃ d, drain.drop = .ok d ∧ d.cap = drain.deque.cap ∧ Rep d (l₁ ++ l₃) := by
  have hlen := h.after
  have hn := h.n_lt
  obtain ⟨drain1, i1, hall, hcap1, h1⟩ :=
    @dropAll_draining _ _ _ _ (drain.deque.cap + 1) _ _ _ h (by rw [cap]; omega)
  obtain ⟨d, hclose, hcap, hrep⟩ := closeHole_ok h1
  exact ⟨d, by rw [Drain.drop, hall, ok_bind, hclose], hcap.trans hcap1, hrep⟩

theorem drainTake_ok {start end_ : Bound} {l2 : List α} {ends : List Bool}
    (hrep : Rep d (l₁ ++ (l2 ++ l₃))) (hstart : start.start = .ok l₁.length)
    (hend : end_.end_ (l₁ ++ (l2 ++ l₃)).length = .ok (l₁.length + l2.length)) :
    ∃ d', d.drainTake start end_ ends = .ok ((takeEnds l2 ends).1, d') ∧ d'.cap = d.cap ∧
      Rep d' (l₁ ++ l₃) := by
  obtain ⟨drain, hdrain, hcap, h⟩ := drain_ok hrep hstart hend
  obtain ⟨drain1, i1, htake, hcap1, h1⟩ := @take_draining _ _ _ _ ends _ _ _ h
  obtain ⟨d', hdrop, hcap', hrep'⟩ := drop_ok h1
  refine ⟨d', ?_, (hcap'.trans hcap1).trans hcap, hrep'⟩
  rw [drainTake, hdrain, ok_bind, htake, ok_bind]
  dsimp only
  rw [hdrop, ok_bind]

end Tortis.Collections.VecDeque
