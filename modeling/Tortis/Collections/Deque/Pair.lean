import Tortis.Collections.Deque.Draining

/-!
# Operations on two deques

`split_off` copies a part of one buffer into a new one (`splitOff_grows`), `append` drains one deque
into the other (`append_grows`), and `clone_from` overwrites the elements of one by those of the
other, slice by slice (`cloneFrom_grows`).
-/

namespace Tortis.Collections.VecDeque

open Slots SlotRing Outcome List

variable {α : Type} {d other : VecDeque α} {l m : List α}

/-! ## Sections -/

/-- The sections have the places of the elements, in their order. -/
structure Covers (cap tail k n : Nat) (a₀ a₁ : Span) : Prop where
  len : k + a₀.len + a₁.len = n
  first : ∀ i, i < a₀.len → pos cap tail (k + i) = a₀.start + i
  second : ∀ i, i < a₁.len → pos cap tail (k + a₀.len + i) = a₁.start + i
  empty : a₀.len = 0 → a₁.len = 0

theorem covers_sections {cap tail head n : Nat} (h : Shape cap tail head n) :
    Covers cap tail 0 n (sections cap tail head).1 (sections cap tail head).2 := by
  have htail := h.tail_lt
  have hhead := h.head_lt
  rw [sections]
  split
  · next hle =>
    have := h.contiguous hle
    constructor <;> grind
  · next hlt =>
    have := h.wrapped (by omega)
    constructor <;> grind

/-! ## Splitting off -/

theorem copyFrom_ok {buf other : Slots α} {dst src : Nat} (hdst : dst + l.length ≤ buf.length)
    (hsrc : ∀ i, i < l.length → slot other (src + i) = l[i]?) :
    ∃ buf', copyFrom buf dst other src l.length = .ok buf' ∧ buf'.length = buf.length ∧
      ∀ p, slot buf' p =
        if dst ≤ p ∧ p < dst + l.length then l[p - dst]? else slot buf p := by
  obtain ⟨buf', hwrite, hlength, hslot⟩ := writeBlock_spec hdst
  exact ⟨buf', by rw [copyFrom, readBlock_eq hsrc, ok_bind, hwrite], hlength, hslot⟩

theorem copyOff_ok {atIndex : Nat} (hrep : Rep d l) (hat : atIndex ≤ l.length)
    (hroom : l.length - atIndex ≤ other.cap) :
    ∃ buf, copyOff d other atIndex = .ok { other with buf } ∧ buf.length = other.cap ∧
      ∀ k, k < l.length - atIndex → slot buf k = l[atIndex + k]? := by
  obtain ⟨hlen, hfirst, hsecond, -⟩ := covers_sections hrep.shape
  rw [copyOff, asMutSlices_eq hrep, ok_bind]
  generalize sections d.cap d.tail d.head = spans at hlen hfirst hsecond
  obtain ⟨a0, a1⟩ := spans
  dsimp only at *
  simp only [zero_add] at hfirst hsecond
  have hslot0 : ∀ i, i < a0.len → slot d.buf (a0.start + i) = l[i]? := fun i hi => by
    rw [← hfirst i hi, hrep.slot_pos (by omega)]
  have hslot1 : ∀ i, i < a1.len → slot d.buf (a1.start + i) = l[a0.len + i]? := fun i hi => by
    rw [← hsecond i hi, hrep.slot_pos (by omega)]
  split
  · next hlt =>
    have hfront : ((l.take a0.len).drop atIndex).length = a0.len - atIndex := by
      rw [length_drop, length_take_of_le (by omega)]
    have hback : (l.drop a0.len).length = a1.len := by
      rw [length_drop]
      omega
    obtain ⟨buf1, hcopy1, hlength1, hbuf1⟩ :=
      @copyFrom_ok _ ((l.take a0.len).drop atIndex) other.buf d.buf 0 (a0.start + atIndex)
        (by rw [cap] at hroom; omega) fun i hi => by
          rw [add_assoc, hslot0 _ (by omega), getElem?_drop, getElem?_take_of_lt (by omega)]
    obtain ⟨buf2, hcopy2, hlength2, hbuf2⟩ :=
      @copyFrom_ok _ (l.drop a0.len) buf1 d.buf (a0.len - atIndex) a1.start
        (by rw [cap] at hroom; omega) fun i hi => by
          rw [hslot1 _ (by omega), getElem?_drop]
    rw [hfront] at hcopy1 hbuf1
    rw [hback] at hcopy2 hbuf2
    refine ⟨buf2, ?_, hlength2.trans hlength1, fun k hk => ?_⟩
    · rw [hcopy1, ok_bind, hcopy2, ok_bind]
    · rw [hbuf2, hbuf1]
      split
      · rw [getElem?_drop]
        congr 1
        omega
      · rw [if_pos (by omega), getElem?_drop, getElem?_take_of_lt (by omega), Nat.sub_zero]
  · next hge =>
    have hback : (l.drop atIndex).length = a1.len - (atIndex - a0.len) := by
      rw [length_drop]
      omega
    obtain ⟨buf1, hcopy1, hlength1, hbuf1⟩ :=
      @copyFrom_ok _ (l.drop atIndex) other.buf d.buf 0 (a1.start + (atIndex - a0.len))
        (by rw [cap] at hroom; omega) fun i hi => by
          rw [add_assoc, hslot1 _ (by omega), getElem?_drop]
          congr 1
          omega
    rw [hback] at hcopy1 hbuf1
    refine ⟨buf1, ?_, hlength1, fun k hk => ?_⟩
    · rw [hcopy1, ok_bind]
    · rw [hbuf1, if_pos (by omega), getElem?_drop, Nat.sub_zero]

theorem splitOff_grows {elemSize atIndex : Nat} (hsize : 0 < elemSize) (hrep : Rep d l)
    (hat : atIndex ≤ l.length) : Grows (splitOff elemSize d atIndex) fun r =>
      Rep r.1 (l.take atIndex) ∧ Rep r.2 (l.drop atIndex) := by
  have hn := hrep.shape.n_lt
  rw [splitOff, hrep.len_eq, bind_of_assert hat]
  refine .bind (withCapacity_grows hsize) fun other ⟨hother, hroom, htail, _⟩ => ?_
  obtain ⟨buf, hcopy, hlength, hslot⟩ := copyOff_ok hrep hat (le_of_lt hroom)
  refine .of_ok ⟨_, by rw [hcopy, ok_bind], ?_, ?_⟩
  · have hhead : wrapSub d d.head (l.length - atIndex) = pos d.cap d.tail atIndex := by
      have hpos := hrep.shape.pos_tail
      rw [hrep.wrapSub_eq hrep.shape.head_lt (by omega), ← hpos]
      grind
    rw [hhead]
    refine .of_slots rfl hrep.isCap (.of_pos hrep.shape.tail_lt ?_ ?_) fun k hk => ?_
    · rw [length_take_of_le hat]
      exact lt_of_le_of_lt hat hn
    · rw [length_take_of_le hat]
      rfl
    · rw [length_take_of_le hat] at hk
      rw [getElem?_take_of_lt hk]
      exact hrep.slot_pos (by omega)
  · have hdrop : (l.drop atIndex).length = l.length - atIndex := length_drop
    have htail' : other.tail < other.cap := hother.shape.tail_lt
    rw [htail] at htail' ⊢
    refine .of_slots hlength hother.isCap (.of_pos htail' (by omega) ?_) fun k hk => ?_
    · rw [hdrop, pos, if_pos (by omega), zero_add]
      dsimp only [cap]
      rw [hlength]
      exact wrapIndex_of_lt hother.isCap hroom
    · rw [pos_of_lt (by omega), zero_add, hslot k (by omega), getElem?_drop]

/-! ## Appending -/

theorem extendDrain_grows {elemSize fuel i n : Nat} {drain : Drain α} {l1 rest l3 : List α}
    (hsize : 0 < elemSize) (hrep : Rep d l) (h : Draining drain l1 rest l3 i n)
    (hfuel : rest.length < fuel) : Grows (extendDrain elemSize fuel d drain) fun r =>
      Rep r.1 (l ++ rest) ∧ ∃ i', Draining r.2 l1 [] l3 i' n := by
  induction fuel generalizing d l drain rest i with
  | zero => simp at hfuel
  | succ fuel ih =>
    obtain ⟨drain1, i1, hnext, -, h1⟩ := nextFrom_draining h false
    rw [extendDrain, hnext, ok_bind]
    cases rest with
    | nil => exact ⟨(append_nil l).symm ▸ hrep, i1, h1⟩
    | cons a rest =>
      rw [append_cons]
      exact .bind (pushBack_grows hsize hrep a) fun d1 hrep1 =>
        ih hrep1 h1 (Nat.lt_of_succ_lt_succ hfuel)

theorem append_grows {elemSize : Nat} (hsize : 0 < elemSize) (hrep : Rep d l)
    (hother : Rep other m) :
    Grows (append elemSize d other) fun r => Rep r.1 (l ++ m) ∧ Rep r.2 [] := by
  have hn := hother.shape.n_lt
  have hother' : Rep other ([] ++ (m ++ [])) := by rwa [nil_append, append_nil]
  obtain ⟨drain, hdrain, hcap, h⟩ := @drain_ok _ _ _ _ .unbounded .unbounded _ hother' rfl
    (by rw [Bound.end_, nil_append, append_nil, length_nil, zero_add])
  rw [append, hdrain, ok_bind]
  refine .bind (extendDrain_grows hsize hrep h (by omega)) fun ⟨d1, drain1⟩ ⟨hrep', i, h'⟩ => ?_
  obtain ⟨d', hdrop, -, hempty⟩ := drop_ok h'
  dsimp only
  rw [hdrop, ok_bind]
  exact ⟨hrep', hempty⟩

/-! ## Cloning -/

section
variable {clone : α → α}

theorem cloneFromSlice_ok {k : Nat} {dst : Span} {src rest : List α} (hrep : Rep d (l ++ rest))
    (hl : l.length = k) (hlen : dst.len = src.length) (hne : 0 < src.length)
    (hfits : src.length ≤ rest.length)
    (hplace : ∀ i, i < dst.len → pos d.cap d.tail (k + i) = dst.start + i) :
    ∃ buf, cloneFromSlice clone d dst src = .ok { d with buf } ∧ buf.length = d.cap ∧
      Rep { d with buf } (l ++ src.map clone ++ rest.drop src.length) := by
  have hn := hrep.shape.n_lt
  rw [length_append] at hn
  have hmap : (src.map clone).length = src.length := length_map _
  -- The last place of the slice is in the buffer.
  have hroom : dst.start + (src.map clone).length ≤ d.buf.length := by
    have hlast := hplace (src.length - 1) (by omega)
    have hlt : pos d.cap d.tail (k + (src.length - 1)) < d.cap :=
      pos_lt hrep.shape.tail_lt (by omega)
    rw [cap] at hlast hlt
    omega
  obtain ⟨buf, hwrite, hlength, hslot⟩ := writeBlock_spec hroom
  have hlist : (l ++ src.map clone ++ rest.drop src.length).length = (l ++ rest).length := by
    rw [length_append, length_append, length_append, length_drop]
    omega
  refine ⟨buf, ?_, hlength, .of_slots hlength hrep.isCap (hlist ▸ hrep.shape) fun p hp => ?_⟩
  · rw [cloneFromSlice, bind_of_assert hlen, hwrite, ok_bind]
  · rw [hlist, length_append] at hp
    change slot buf (pos d.cap d.tail p) = _
    rw [hslot, hmap]
    by_cases hin : k ≤ p ∧ p < k + src.length
    · have hp' := hplace (p - k) (by omega)
      rw [show k + (p - k) = p by omega] at hp'
      rw [if_pos (by omega), hp', append_assoc, getElem?_append_right (by omega),
        getElem?_append_left (by omega)]
      congr 1
      omega
    · have hout : ¬(dst.start ≤ pos d.cap d.tail p ∧
          pos d.cap d.tail p < dst.start + src.length) := by
        rintro ⟨hle, hlt⟩
        have hp' := hplace (pos d.cap d.tail p - dst.start) (by omega)
        rw [show dst.start + (pos d.cap d.tail p - dst.start) = pos d.cap d.tail p by omega] at hp'
        exact pos_ne (by omega) (by omega) (by omega) hp'
      rw [if_neg hout, hrep.slot_pos (by rw [length_append]; omega)]
      rcases lt_or_ge p k with hlt | hge
      · rw [getElem?_append_left (by omega), append_assoc, getElem?_append_left (by omega)]
      · rw [getElem?_append_right (by omega),
          getElem?_append_right (by rw [length_append]; omega), getElem?_drop, length_append, hmap]
        congr 1
        omega

theorem cloneLoop_ok {fuel k : Nat} {iter : PairSlices α}
    (hrep : Rep d ((m.take k).map clone ++ l.drop k)) (hk : k ≤ l.length)
    (hl : l.length ≤ m.length) (hcover : Covers d.cap d.tail k l.length iter.a0 iter.a1)
    (hrest : iter.b0 ++ iter.b1 = m.drop k) (hempty : iter.b0 = [] → iter.b1 = [])
    (hfuel : l.length - k < fuel) : ∃ d' iter', cloneLoop clone fuel d iter = .ok (d', iter') ∧
      Rep d' ((m.take l.length).map clone) ∧ iter'.b0 ++ iter'.b1 = m.drop l.length ∧
      (iter'.b0 = [] → iter'.b1 = []) := by
  induction fuel generalizing d k iter with
  | zero => simp at hfuel
  | succ fuel ih =>
    have hlen := congrArg List.length hrest
    rw [length_append, length_drop] at hlen
    have hcov := hcover.len
    rw [cloneLoop, PairSlices.next]
    dsimp only
    by_cases hpart : min iter.a0.len iter.b0.length = 0
    · rw [if_pos hpart]
      have hend : k = l.length := by
        rcases Nat.eq_zero_or_pos iter.a0.len with h0 | h0
        · have := hcover.empty h0
          omega
        · have hb0 : iter.b0 = [] := length_eq_zero_iff.1 (by omega)
          rw [hb0, hempty hb0, length_nil] at hlen
          omega
      subst hend
      rw [drop_length, append_nil] at hrep
      exact ⟨d, iter, rfl, hrep, hrest, hempty⟩
    · rw [if_neg hpart]
      generalize hpart' : min iter.a0.len iter.b0.length = part at hpart ⊢
      have hsrc : (iter.b0.take part).length = part := length_take_of_le (by omega)
      have hdst : ((m.take k).map clone).length = k := by
        rw [length_map, length_take_of_le (by omega)]
      obtain ⟨buf, hclone, hcap, hrep'⟩ := @cloneFromSlice_ok _ d _ clone k
        ⟨iter.a0.start, part⟩ (iter.b0.take part) (l.drop k) hrep hdst hsrc.symm (by omega)
        (by rw [hsrc, length_drop]; omega) fun i hi => hcover.first i (by dsimp only at hi; omega)
      dsimp only
      rw [hclone, ok_bind]
      refine ih (k := k + part) ?_ (by omega) ?_ ?_ ?_ (by omega)
      · have htake : m.take (k + part) = m.take k ++ iter.b0.take part := by
          rw [take_add, ← hrest, take_append_of_le_length (by omega)]
        rwa [hsrc, drop_drop, ← map_append, ← htake] at hrep'
      · have hfirst := hcover.first
        have hsecond := hcover.second
        change Covers buf.length d.tail _ _ _ _
        rw [hcap]
        split
        · next hzero =>
          refine ⟨?_, fun i hi => ?_, nofun, fun _ => rfl⟩
          · dsimp only
            omega
          · rw [show k + part + i = k + iter.a0.len + i by omega, hsecond i hi]
        · next hnext =>
          refine ⟨?_, fun i hi => ?_, fun i hi => ?_, fun h => absurd h hnext⟩
          · dsimp only
            omega
          · dsimp only at hi ⊢
            rw [add_assoc, hfirst _ (by omega), add_assoc]
          · rw [show k + part + (iter.a0.len - part) + i = k + iter.a0.len + i by omega, hsecond i hi]
      · rw [← drop_drop, ← hrest, drop_append_of_le_length (by omega)]
        cases hq : iter.b0.drop part with
        | nil => exact append_nil _
        | cons b b₀ => rfl
      · cases iter.b0.drop part with
        | nil => exact fun _ => rfl
        | cons b b₀ => nofun

theorem cloneFrom_grows {elemSize : Nat} (hsize : 0 < elemSize) (hrep : Rep d l)
    (hother : Rep other m) :
    Grows (cloneFrom elemSize clone d other) fun d' => Rep d' (m.map clone) := by
  obtain ⟨d1, htruncate, hrep1, -⟩ := @truncate_ok _ d l m.length hrep
  obtain ⟨front, back, hslices, hm, hfront, hback⟩ := asSlices_ok hother
  have hn := hrep1.shape.n_lt
  have hle : (l.take m.length).length ≤ m.length := length_take_le _ _
  rw [cloneFrom, hother.len_eq, htruncate, ok_bind, PairSlices.new, asMutSlices_eq hrep1, ok_bind]
  dsimp only
  rw [hslices, ok_bind, ok_bind]
  have hsections : front = [] → back = [] := by
    intro h
    have := (covers_sections hother.shape).empty (by rw [← hfront, h, length_nil])
    exact length_eq_zero_iff.1 (hback.trans this)
  obtain ⟨d2, iter, hloop, hrep2, hrest, hempty⟩ := @cloneLoop_ok _ d1 (l.take m.length) m clone
    (d1.cap + 1) 0 ⟨_, _, front, back⟩ (by rwa [take_zero, drop_zero]) (Nat.zero_le _) hle
    (covers_sections hrep1.shape) (by rw [drop_zero, hm]) hsections (by omega)
  rw [hloop, ok_bind]
  have hwhole : (m.take (l.take m.length).length).map clone ++ iter.b0.map clone ++
      iter.b1.map clone = m.map clone := by
    rw [append_assoc, ← map_append, hrest, ← map_append, take_append_drop]
  split
  · refine .bind (extend_grows hsize hrep2) fun d3 hrep3 => ?_
    rw [← hwhole]
    exact extend_grows hsize hrep3
  · next hdone =>
    have hb0 : iter.b0 = [] := by
      simpa using hdone
    rw [hb0, hempty hb0, map_nil, append_nil, append_nil] at hwhole
    rwa [hwhole] at hrep2

end

end Tortis.Collections.VecDeque
