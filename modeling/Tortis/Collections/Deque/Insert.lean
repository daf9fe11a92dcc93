import Tortis.Collections.Deque.Grow

/-!
# Insertion and removal

Each layout copies its own blocks, but they do the same to the ring: `insert` opens a hole before the
element at the index (`Opened`), `remove` closes the one the element leaves (`Closed`). That the
blocks do so is arithmetic on the slots they take their elements from (`opened_of_blocks`,
`closed_of_blocks`).
-/

namespace Tortis.Collections.VecDeque

open Slots SlotRing Outcome List

variable {α : Type} {d : VecDeque α} {l : List α} {tail head index : Nat} {buf : Slots α}

/-! ## Insertion -/

/-- There is room for one more element at the index. -/
structure Opened (cap : Nat) (l : List α) (index : Nat) (d : VecDeque α) : Prop where
  length : d.buf.length = cap
  shape : Shape cap d.tail d.head (l.length + 1)
  slot : ∀ k, k < l.length + 1 → k ≠ index →
    slot d.buf (pos cap d.tail k) = l[if k < index then k else k - 1]?

variable {blocks : List Block} {tail' head' : Nat}

theorem opened_of_blocks (hrep : Rep ⟨tail, head, buf⟩ l)
    (hcopyable : Copyable buf.length (InUse buf.length tail head) id blocks)
    (hshape : Shape buf.length tail' head' (l.length + 1))
    (horigins : ∀ k, k < l.length + 1 → k ≠ index → origins blocks (pos buf.length tail' k) =
      pos buf.length tail (if k < index then k else k - 1)) (hindex : index ≤ l.length) :
    ∃ buf', Copied tail head buf blocks buf' ∧ Opened buf.length l index ⟨tail', head', buf'⟩ := by
  obtain ⟨buf', hcopied, hlength, hslot⟩ := copied_ok (fun p hp => hrep.isSome hp) hcopyable
  refine ⟨buf', hcopied, hlength, hshape, fun k hk hne => ?_⟩
  rw [hslot, horigins k hk hne]
  exact hrep.holds _ (by split <;> omega)

section
variable (hrep : Rep ⟨tail, head, buf⟩ l) (hroom : l.length + 1 < buf.length)
  (hindex : index ≤ l.length)
include hrep hroom hindex

theorem insertCases_contiguous (hle : tail ≤ head) :
    ∃ d', insertCases ⟨tail, head, buf⟩ index (pos buf.length tail index) = .ok d' ∧
      Opened buf.length l index d' := by
  have hn : tail + l.length = head := hrep.shape.contiguous hle
  have hcap : IsCap buf.length := hrep.isCap
  have htail : tail < buf.length := hrep.shape.tail_lt
  have hhead : head < buf.length := hrep.shape.head_lt
  have hback : wrapSub ⟨tail, head, buf⟩ tail 1 = back buf.length tail 1 :=
    wrapIndex_sub hcap htail (show 1 ≤ buf.length by omega)
  rw [insertCases, hrep.len_eq, pos_of_lt (by omega)]
  simp only [isContiguous, hle, decide_true, hback]
  by_cases ht : index ≤ l.length - index
  · simp only [ht, decide_true]
    split
    · next hzero =>
      obtain ⟨buf', rfl, hopened⟩ := @opened_of_blocks _ _ _ _ index _ [] (back buf.length tail 1)
        head hrep trivial ⟨by grind, hhead, by grind⟩ (by grind)
        hindex
      exact ⟨_, rfl, hopened⟩
    · next hpos =>
      obtain ⟨buf', hcopied, hopened⟩ := @opened_of_blocks _ _ _ _ index _
        [⟨back buf.length tail 1, tail, 1⟩, ⟨tail, tail + 1, index - 1⟩] (back buf.length tail 1)
        head hrep (by grind)
        ⟨by grind, hhead, by grind⟩
        (by grind) hindex
      obtain ⟨buf1, hcopy1, hlen1, buf2, hcopy2, -, rfl⟩ := hcopied
      exact ⟨_, bind_eq_ok.2 ⟨_, hcopy1, bind_eq_ok.2 ⟨_, hcopy2, rfl⟩⟩, hopened⟩
  · simp only [ht, decide_false]
    obtain ⟨buf', hcopied, hopened⟩ := @opened_of_blocks _ _ _ _ index _
      [⟨tail + index + 1, tail + index, head - (tail + index)⟩] tail (pos buf.length head 1) hrep
      (by grind) ⟨htail, by grind, by grind⟩
      (by grind) hindex
    obtain ⟨buf1, hcopy1, -, rfl⟩ := hcopied
    refine ⟨_, bind_eq_ok.2 ⟨_, hcopy1, ?_⟩, hopened⟩
    rw [wrapAdd, cap, hopened.length, wrapIndex_add hcap hhead (by omega)]

theorem insertCases_wrapped (hlt : head < tail) :
    ∃ d', insertCases ⟨tail, head, buf⟩ index (pos buf.length tail index) = .ok d' ∧
      Opened buf.length l index d' := by
  have hn : tail + l.length = head + buf.length := hrep.shape.wrapped hlt
  have hcap : IsCap buf.length := hrep.isCap
  have htail : tail < buf.length := hrep.shape.tail_lt
  have hhead : head < buf.length := hrep.shape.head_lt
  rw [insertCases, hrep.len_eq]
  simp only [isContiguous, Nat.not_le.2 hlt, decide_false, cap]
  by_cases ht : index ≤ l.length - index <;>
    rcases lt_or_ge (tail + index) buf.length with hsec | hsec
  · simp only [ht, pos_of_lt hsec, Nat.le_add_right, decide_true]
    obtain ⟨buf', hcopied, hopened⟩ := @opened_of_blocks _ _ _ _ index _
      [⟨tail - 1, tail, index⟩] (tail - 1) head hrep
      (by grind) ⟨by omega, hhead, by grind⟩
      (by grind) hindex
    obtain ⟨buf1, hcopy1, -, rfl⟩ := hcopied
    exact ⟨_, bind_eq_ok.2 ⟨_, hcopy1, rfl⟩, hopened⟩
  · simp only [ht, pos_of_le hsec, show ¬tail ≤ tail + index - buf.length by omega, decide_true, decide_false]
    split
    · next hzero =>
      obtain ⟨buf', hcopied, hopened⟩ := @opened_of_blocks _ _ _ _ index _
        [⟨tail - 1, tail, buf.length - tail⟩, ⟨buf.length - 1, 0, 1⟩] (tail - 1) head hrep
        (by grind) ⟨by omega, hhead, by grind⟩
        (by grind) hindex
      obtain ⟨buf1, hcopy1, hlen1, buf2, hcopy2, -, rfl⟩ := hcopied
      refine ⟨_, bind_eq_ok.2 ⟨_, hcopy1, ?_⟩, hopened⟩
      exact hlen1 ▸ bind_eq_ok.2 ⟨_, hcopy2, rfl⟩
    · next hpos =>
      obtain ⟨buf', hcopied, hopened⟩ := @opened_of_blocks _ _ _ _ index _
        [⟨tail - 1, tail, buf.length - tail⟩, ⟨buf.length - 1, 0, 1⟩,
          ⟨0, 1, tail + index - buf.length - 1⟩] (tail - 1) head hrep
        (by grind) ⟨by omega, hhead, by grind⟩
        (by grind) hindex
      obtain ⟨buf1, hcopy1, hlen1, buf2, hcopy2, -, buf3, hcopy3, -, rfl⟩ := hcopied
      refine ⟨_, bind_eq_ok.2 ⟨_, hcopy1, ?_⟩, hopened⟩
      rw [hlen1]
      exact bind_eq_ok.2 ⟨_, hcopy2, bind_eq_ok.2 ⟨_, hcopy3, rfl⟩⟩
  · simp only [ht, pos_of_lt hsec, Nat.le_add_right, decide_true, decide_false]
    obtain ⟨buf', hcopied, hopened⟩ := @opened_of_blocks _ _ _ _ index _
      [⟨1, 0, head⟩, ⟨0, buf.length - 1, 1⟩, ⟨tail + index + 1, tail + index,
        buf.length - 1 - (tail + index)⟩] tail (head + 1) hrep
      (by grind) ⟨htail, by omega, by grind⟩
      (by grind) hindex
    obtain ⟨buf1, hcopy1, hlen1, buf2, hcopy2, hlen2, buf3, hcopy3, -, rfl⟩ := hcopied
    refine ⟨_, bind_eq_ok.2 ⟨_, hcopy1, ?_⟩, hopened⟩
    rw [hlen1]
    refine bind_eq_ok.2 ⟨_, hcopy2, ?_⟩
    rw [hlen2, hlen1]
    exact bind_eq_ok.2 ⟨_, hcopy3, rfl⟩
  · simp only [ht, pos_of_le hsec, show ¬tail ≤ tail + index - buf.length by omega, decide_false]
    obtain ⟨buf', hcopied, hopened⟩ := @opened_of_blocks _ _ _ _ index _
      [⟨tail + index - buf.length + 1, tail + index - buf.length,
        head - (tail + index - buf.length)⟩] tail (head + 1) hrep
      (by grind) ⟨htail, by omega, by grind⟩
      (by grind) hindex
    obtain ⟨buf1, hcopy1, -, rfl⟩ := hcopied
    exact ⟨_, bind_eq_ok.2 ⟨_, hcopy1, rfl⟩, hopened⟩

end

theorem insert_grows {elemSize : Nat} (hsize : 0 < elemSize) (hrep : Rep d l)
    (hindex : index ≤ l.length) (value : α) :
    Grows (insert elemSize d index value) fun d' => Rep d' (l.insertIdx index value) := by
  rw [insert, bind_of_assert (hrep.len_eq ▸ hindex)]
  refine .bind (growIfNecessary_grows hsize hrep) fun d1 ⟨hrep1, hroom⟩ => ?_
  obtain ⟨tail, head, buf⟩ := d1
  have hadd : wrapAdd ⟨tail, head, buf⟩ tail index = pos buf.length tail index :=
    hrep1.wrapAdd_eq hrep1.shape.tail_lt (by omega)
  obtain ⟨⟨tail', head', buf'⟩, hcases, hopened⟩ : ∃ d', insertCases ⟨tail, head, buf⟩ index
      (pos buf.length tail index) = .ok d' ∧ Opened buf.length l index d' := by
    rcases lt_or_ge head tail with hlt | hle
    · exact insertCases_wrapped hrep1 hroom hindex hlt
    · exact insertCases_contiguous hrep1 hroom hindex hle
  obtain ⟨hlength, hshape, hslot⟩ := hopened
  have hcap : IsCap buf.length := hrep1.isCap
  have htail' := hshape.tail_lt
  have hadd' : wrapAdd ⟨tail', head', buf'⟩ tail' index = pos buf.length tail' index := by
    rw [wrapAdd, cap, hlength]
    exact wrapIndex_add hcap htail' (by rw [cap] at hroom; dsimp only at hroom; omega)
  have hpos : ∀ {k}, k ≤ l.length → pos buf.length tail' k < buf'.length := by
    rw [cap] at hroom
    dsimp only at hroom
    grind
  rw [hadd, hcases, ok_bind, hadd', write_eq (hpos hindex), ok_bind]
  have hn : (l.insertIdx index value).length = l.length + 1 := length_insertIdx_of_le_length hindex value
  refine .of_slots (by rw [length_set, hlength]) hcap (hn ▸ hshape) fun k hk => ?_
  rw [slot_set _ (hpos hindex), getElem?_insertIdx]
  have hinj : pos buf.length tail' k = pos buf.length tail' index ↔ k = index := by
    rw [cap] at hroom
    grind
  by_cases hki : k = index
  · rw [if_pos (hinj.2 hki), if_neg (by omega), if_pos hki, if_pos (by omega)]
  · rw [if_neg (mt hinj.1 hki), hslot k (by omega) hki]
    split <;> rfl

/-! ## Removal -/

/-- The hole at the index is closed. -/
structure Closed (cap : Nat) (l : List α) (index : Nat) (d : VecDeque α) : Prop where
  length : d.buf.length = cap
  shape : Shape cap d.tail d.head (l.length - 1)
  slot : ∀ k, k < l.length - 1 →
    slot d.buf (pos cap d.tail k) = l[if k < index then k else k + 1]?

/-- The element at the index has been moved out. -/
structure Holed (tail head : Nat) (buf : Slots α) (l : List α) (index : Nat) : Prop where
  isCap : IsCap buf.length
  shape : Shape buf.length tail head l.length
  index_lt : index < l.length
  slot : ∀ k, k < l.length → k ≠ index → slot buf (pos buf.length tail k) = l[k]?

theorem closed_of_blocks (hholed : Holed tail head buf l index) (hcopyable : Copyable buf.length
      (fun p => InUse buf.length tail head p ∧ p ≠ pos buf.length tail index) id blocks)
    (hshape : Shape buf.length tail' head' (l.length - 1))
    (horigins : ∀ k, k < l.length - 1 → origins blocks (pos buf.length tail' k) =
      pos buf.length tail (if k < index then k else k + 1)) :
    ∃ buf', Copied tail head buf blocks buf' ∧ Closed buf.length l index ⟨tail', head', buf'⟩ := by
  have hlive : ∀ p, InUse buf.length tail head p ∧ p ≠ pos buf.length tail index →
      (Slots.slot buf p).isSome := by
    rintro p ⟨hp, hne⟩
    obtain ⟨k, hk, rfl⟩ := hholed.shape.exists_pos hp
    rw [hholed.slot k hk fun h => hne (by rw [h]), getElem?_eq_getElem hk]
    rfl
  obtain ⟨buf', hcopied, hlength, hslot⟩ := copied_ok hlive hcopyable
  refine ⟨buf', hcopied, hlength, hshape, fun k hk => ?_⟩
  rw [hslot, horigins k hk]
  exact hholed.slot _ (by split <;> omega) (by split <;> omega)

section
variable (hholed : Holed tail head buf l index)
include hholed

theorem removeCases_contiguous (hle : tail ≤ head) :
    ∃ d', removeCases ⟨tail, head, buf⟩ index (pos buf.length tail index) = .ok d' ∧
      Closed buf.length l index d' := by
  obtain ⟨hcap, hshape, hindex, -⟩ := id hholed
  have hn := hshape.contiguous hle
  have htail := hshape.tail_lt
  have hhead := hshape.head_lt
  have hlen : len ⟨tail, head, buf⟩ = l.length :=
    (count_eq hcap htail hhead).trans hshape.length.symm
  rw [removeCases, hlen, pos_of_lt (by omega)]
  simp only [isContiguous, hle, decide_true]
  by_cases ht : index ≤ l.length - index
  · simp only [ht, decide_true]
    obtain ⟨buf', hcopied, hclosed⟩ := @closed_of_blocks _ _ _ _ index _
      [⟨tail + 1, tail, index⟩] (tail + 1) head hholed (by grind)
      ⟨by omega, hhead, by grind⟩ (by grind)
    obtain ⟨buf1, hcopy1, -, rfl⟩ := hcopied
    exact ⟨_, bind_eq_ok.2 ⟨_, hcopy1, rfl⟩, hclosed⟩
  · simp only [ht, decide_false]
    obtain ⟨buf', hcopied, hclosed⟩ := @closed_of_blocks _ _ _ _ index _
      [⟨tail + index, tail + index + 1, head - (tail + index) - 1⟩] tail (head - 1) hholed
      (by grind) ⟨htail, by omega, by grind⟩
      (by grind)
    obtain ⟨buf1, hcopy1, -, rfl⟩ := hcopied
    exact ⟨_, bind_eq_ok.2 ⟨_, hcopy1, rfl⟩, hclosed⟩

theorem removeCases_wrapped (hlt : head < tail) :
    ∃ d', removeCases ⟨tail, head, buf⟩ index (pos buf.length tail index) = .ok d' ∧
      Closed buf.length l index d' := by
  obtain ⟨hcap, hshape, hindex, -⟩ := id hholed
  have hn := hshape.wrapped hlt
  have htail := hshape.tail_lt
  have hhead := hshape.head_lt
  have hlen : len ⟨tail, head, buf⟩ = l.length :=
    (count_eq hcap htail hhead).trans hshape.length.symm
  have hnext : ∀ {buf' : Slots α}, buf'.length = buf.length →
      wrapAdd ⟨tail, head, buf'⟩ tail 1 = pos buf.length tail 1 := by
    intro buf' hlength
    rw [wrapAdd, cap, hlength]
    exact wrapIndex_add hcap htail (show 1 ≤ buf.length by omega)
  have hback : ∀ {buf' : Slots α}, buf'.length = buf.length →
      wrapSub ⟨tail, head, buf'⟩ head 1 = back buf.length head 1 := by
    intro buf' hlength
    rw [wrapSub, cap, hlength]
    exact wrapIndex_sub hcap hhead (show 1 ≤ buf.length by omega)
  rw [removeCases, hlen]
  simp only [isContiguous, Nat.not_le.2 hlt, decide_false, cap]
  by_cases ht : index ≤ l.length - index <;>
    rcases lt_or_ge (tail + index) buf.length with hsec | hsec
  · simp only [ht, pos_of_lt hsec, Nat.le_add_right, decide_true]
    obtain ⟨buf', hcopied, hclosed⟩ := @closed_of_blocks _ _ _ _ index _
      [⟨tail + 1, tail, index⟩] (pos buf.length tail 1) head hholed
      (by grind) ⟨by grind, hhead, by grind⟩
      (by grind)
    obtain ⟨buf1, hcopy1, hlen1, rfl⟩ := hcopied
    refine ⟨_, bind_eq_ok.2 ⟨_, hcopy1, ?_⟩, hclosed⟩
    rw [hnext hlen1]
  · simp only [ht, pos_of_le hsec, show ¬tail ≤ tail + index - buf.length by omega, decide_true, decide_false]
    obtain ⟨buf', hcopied, hclosed⟩ := @closed_of_blocks _ _ _ _ index _
      [⟨1, 0, tail + index - buf.length⟩, ⟨0, buf.length - 1, 1⟩,
        ⟨tail + 1, tail, buf.length - tail - 1⟩] (pos buf.length tail 1) head hholed
      (by
        refine ⟨?_, ?_, fun p hp hp' => ?_, ?_, ?_, fun p hp hp' => ?_, ?_, ?_, fun p hp hp' => ?_,
          trivial⟩ <;> grind)
      ⟨by grind, hhead, by grind⟩ (by grind)
    obtain ⟨buf1, hcopy1, hlen1, buf2, hcopy2, hlen2, buf3, hcopy3, -, rfl⟩ := hcopied
    refine ⟨_, bind_eq_ok.2 ⟨_, hcopy1, ?_⟩, hclosed⟩
    dsimp only
    rw [hlen1]
    refine bind_eq_ok.2 ⟨_, hcopy2, ?_⟩
    dsimp only
    rw [hlen2, hlen1]
    refine bind_eq_ok.2 ⟨_, hcopy3, ?_⟩
    rw [hnext hclosed.length]
  · simp only [ht, pos_of_lt hsec, Nat.le_add_right, decide_true, decide_false]
    by_cases hzero : head = 0
    · obtain ⟨buf', hcopied, hclosed⟩ := @closed_of_blocks _ _ _ _ index _
        [⟨tail + index, tail + index + 1, buf.length - (tail + index) - 1⟩] tail
        (back buf.length head 1) hholed (by grind)
        ⟨htail, by grind, by grind⟩ (by grind)
      obtain ⟨buf1, hcopy1, hlen1, rfl⟩ := hcopied
      have hacross : removeAcross ⟨tail, head, buf⟩ (tail + index) = .ok ⟨tail, head, buf'⟩ :=
        bind_eq_ok.2 ⟨_, hcopy1, if_neg (not_not.2 hzero)⟩
      refine ⟨_, bind_eq_ok.2 ⟨_, hacross, ?_⟩, hclosed⟩
      rw [hback hlen1]
    · obtain ⟨buf', hcopied, hclosed⟩ := @closed_of_blocks _ _ _ _ index _
        [⟨tail + index, tail + index + 1, buf.length - (tail + index) - 1⟩,
          ⟨buf.length - 1, 0, 1⟩, ⟨0, 1, head - 1⟩] tail (back buf.length head 1) hholed
        (by
          refine ⟨?_, ?_, fun p hp hp' => ?_, ?_, ?_, fun p hp hp' => ?_, ?_, ?_,
            fun p hp hp' => ?_, trivial⟩ <;> grind)
        ⟨htail, by grind, by grind⟩ (by grind)
      obtain ⟨buf1, hcopy1, hlen1, buf2, hcopy2, -, buf3, hcopy3, -, rfl⟩ := hcopied
      have hacross : removeAcross ⟨tail, head, buf⟩ (tail + index) = .ok ⟨tail, head, buf'⟩ := by
        refine bind_eq_ok.2 ⟨_, hcopy1, (if_pos hzero).trans ?_⟩
        rw [cap]
        rw [hlen1]
        exact bind_eq_ok.2 ⟨_, hcopy2, hcopy3⟩
      refine ⟨_, bind_eq_ok.2 ⟨_, hacross, ?_⟩, hclosed⟩
      rw [hback hclosed.length]
  · simp only [ht, pos_of_le hsec, show ¬tail ≤ tail + index - buf.length by omega, decide_false]
    obtain ⟨buf', hcopied, hclosed⟩ := @closed_of_blocks _ _ _ _ index _
      [⟨tail + index - buf.length, tail + index - buf.length + 1,
        head - (tail + index - buf.length) - 1⟩] tail (head - 1) hholed
      (by grind) ⟨htail, by omega, by grind⟩
      (by grind)
    obtain ⟨buf1, hcopy1, -, rfl⟩ := hcopied
    exact ⟨_, bind_eq_ok.2 ⟨_, hcopy1, rfl⟩, hclosed⟩

end

theorem remove_ok (hrep : Rep d l) : ∃ d', remove d index = .ok (l[index]?, d') ∧
    Rep d' (l.eraseIdx index) := by
  rw [remove, hrep.isEmpty_eq, hrep.len_eq]
  split
  · next hout =>
    have hle : l.length ≤ index := by
      rcases hout with hnil | hle
      · rw [isEmpty_iff.1 hnil]
        exact Nat.zero_le _
      · exact hle
    exact ⟨d, by rw [getElem?_eq_none hle], by rwa [eraseIdx_of_length_le hle]⟩
  · next hin =>
    have hindex : index < l.length := by
      by_contra hle
      exact hin (.inr (by omega))
    obtain ⟨tail, head, buf⟩ := d
    have hcap : IsCap buf.length := hrep.isCap
    have hn : l.length < buf.length := hrep.shape.n_lt
    have htail : tail < buf.length := hrep.shape.tail_lt
    have hpos : pos buf.length tail index < buf.length := by grind
    have hadd : wrapAdd ⟨tail, head, buf⟩ tail index = pos buf.length tail index :=
      hrep.wrapAdd_eq htail (show index ≤ buf.length by omega)
    have hread : slot buf (pos buf.length tail index) = some l[index] := by
      rw [← getElem?_eq_getElem hindex]
      exact hrep.holds index hindex
    have hlength : (buf.set (pos buf.length tail index) none).length = buf.length := length_set
    have hholed : Holed tail head (buf.set (pos buf.length tail index) none) l index := by
      refine ⟨hlength.symm ▸ hcap, hlength.symm ▸ hrep.shape, hindex, fun k hk hne => ?_⟩
      rw [hlength, slot_set _ hpos, if_neg (by grind)]
      exact hrep.holds k hk
    dsimp only
    rw [hadd, moveOut_eq hread, ok_bind]
    generalize buf.set (pos buf.length tail index) none = buf1 at hlength hholed ⊢
    obtain ⟨⟨tail', head', buf'⟩, hcases, hlen', hshape', hslot'⟩ : ∃ d', removeCases
        ⟨tail, head, buf1⟩ index (pos buf1.length tail index) = .ok d' ∧
          Closed buf1.length l index d' := by
      rcases lt_or_ge head tail with hlt | hle
      · exact removeCases_wrapped hholed hlt
      · exact removeCases_contiguous hholed hle
    rw [hlength] at hcases hlen' hshape' hslot'
    refine ⟨⟨tail', head', buf'⟩, ?_, .of_slots hlen' hcap ?_ fun k hk => ?_⟩
    · rw [hcases, ok_bind, getElem?_eq_getElem hindex]
    · rw [length_eraseIdx_of_lt hindex]
      exact hshape'
    · rw [length_eraseIdx_of_lt hindex] at hk
      rw [hslot' k hk, getElem?_eraseIdx]
      split <;> rfl

end Tortis.Collections.VecDeque
