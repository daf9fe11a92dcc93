import Tortis.Collections.VecDeque

/-!
# The layout of a ring buffer

`Shape` says how the tail, the head and the size of the buffer give the number of elements; `Rep`
says in addition that the slots from the tail on hold the elements of a list. Under it the masked
arithmetic is that of a ring (`wrapAdd_eq`, `wrapSub_eq`, `len_eq`), and a block of slots that are in
use can be copied (`copy_ok`).
-/

namespace Tortis.Collections.VecDeque

open Slots SlotRing Outcome

variable {α : Type}

/-- A capacity: a power of two, from 2 on, that a `usize` holds with room to spare. -/
def IsCap (cap : Nat) : Prop := ∃ k, 1 ≤ k ∧ k < 63 ∧ cap = 2 ^ k

/-- The slot `k` places before `idx`. -/
@[grind] def back (cap idx k : Nat) : Nat := if k ≤ idx then idx - k else idx + cap - k

/-! ## Arithmetic -/

section
variable {cap idx k tail head : Nat}

theorem IsCap.two_le (h : IsCap cap) : 2 ≤ cap := by
  obtain ⟨k, hk, -, rfl⟩ := h
  exact Nat.pow_le_pow_right (show 0 < 2 by decide) hk

theorem IsCap.lt (h : IsCap cap) : cap < 2 ^ 63 := by
  obtain ⟨k, -, hk, rfl⟩ := h
  exact Nat.pow_lt_pow_right (show 1 < 2 by decide) hk

theorem IsCap.isPowerOfTwo (h : IsCap cap) : isPowerOfTwo cap := by
  obtain ⟨k, -, -, rfl⟩ := h
  rw [Collections.isPowerOfTwo, Nat.and_two_pow_sub_one_eq_mod, Nat.mod_self]
  simp

theorem IsCap.two_mul_le {cap' : Nat} (h : IsCap cap) (h' : IsCap cap') (hlt : cap < cap') :
    2 * cap ≤ cap' := by
  obtain ⟨k, -, -, rfl⟩ := h
  obtain ⟨k', -, -, rfl⟩ := h'
  have hk := (Nat.pow_lt_pow_iff_right (show 1 < 2 by decide)).1 hlt
  have := Nat.pow_le_pow_right (show 0 < 2 by decide) hk
  rwa [pow_succ, mul_comm] at this

section
variable (hcap : IsCap cap)
include hcap

theorem wrapIndex_add (hidx : idx < cap) (hk : k ≤ cap) :
    wrapIndex (wrappingAdd idx k) cap = pos cap idx k := by
  have hlt := hcap.lt
  obtain ⟨j, -, -, rfl⟩ := hcap
  rw [wrapIndex, wrappingAdd, Nat.mod_eq_of_lt (by omega), and_mask (by omega), pos]

theorem wrapIndex_of_lt (hidx : idx < cap) : wrapIndex idx cap = idx := by
  obtain ⟨j, -, -, rfl⟩ := hcap
  rw [wrapIndex, and_mask (by omega), if_pos hidx]

theorem wrapIndex_sub (hidx : idx < cap) (hk : k ≤ cap) :
    wrapIndex (wrappingSub idx k) cap = back cap idx k := by
  obtain ⟨j, -, hj, rfl⟩ := hcap
  exact sub_and_mask (by omega) hidx hk

theorem count_eq (htail : tail < cap) (hhead : head < cap) :
    count tail head cap = back cap head tail := by
  obtain ⟨j, -, hj, rfl⟩ := hcap
  exact sub_and_mask (by omega) hhead (by omega)

end

theorem isCap_nextPowerOfTwo {n : Nat} (hn : 2 ≤ n) (hlt : nextPowerOfTwo n < 2 ^ 63) :
    IsCap (nextPowerOfTwo n) := by
  refine ⟨Nat.clog 2 n, ?_, (Nat.pow_lt_pow_iff_right (by decide)).1 hlt, rfl⟩
  exact Nat.clog_pos (by decide) hn

theorem le_nextPowerOfTwo (n : Nat) : n ≤ nextPowerOfTwo n := Nat.le_pow_clog (by decide) n

theorem nextPowerOfTwo_le {n : Nat} (hcap : IsCap cap) (h : n ≤ cap) : nextPowerOfTwo n ≤ cap := by
  obtain ⟨j, -, -, rfl⟩ := hcap
  exact Nat.pow_le_pow_right (by decide) ((Nat.clog_le_iff_le_pow (by decide)).2 h)

end

/-! ## Shapes -/

/-- The tail and the head are slots, and `n` elements are between them. -/
structure Shape (cap tail head n : Nat) : Prop where
  tail_lt : tail < cap
  head_lt : head < cap
  length : n = back cap head tail

/-- The slots between the tail and the head. -/
@[grind] def InUse (cap tail head p : Nat) : Prop :=
  if tail ≤ head then tail ≤ p ∧ p < head else p < head ∨ (tail ≤ p ∧ p < cap)

section
variable {cap tail head n : Nat}

section
variable (h : Shape cap tail head n)
include h

theorem Shape.n_lt : n < cap := by
  obtain ⟨ht, hh, hn⟩ := h
  rw [back] at hn
  split at hn <;> omega

theorem Shape.contiguous (hle : tail ≤ head) : tail + n = head := by
  rw [h.length, back, if_pos hle]
  omega

theorem Shape.wrapped (hlt : head < tail) : tail + n = head + cap := by
  have := h.tail_lt
  rw [h.length, back, if_neg (by omega)]
  omega

theorem Shape.pos_tail : pos cap tail n = head := by
  have := h.head_lt
  rcases lt_or_ge head tail with hlt | hle
  · have := h.wrapped hlt
    rw [pos_of_le (by omega)]
    omega
  · have := h.contiguous hle
    rw [pos_of_lt (by omega)]
    omega

theorem Shape.exists_pos {p : Nat} (hp : InUse cap tail head p) :
    ∃ k, k < n ∧ pos cap tail k = p := by
  have ht := h.tail_lt
  have hh := h.head_lt
  rw [InUse] at hp
  split at hp
  · next hle =>
    have := h.contiguous hle
    exact ⟨p - tail, by omega, by rw [pos_of_lt (by omega)]; omega⟩
  · next hlt =>
    have := h.wrapped (by omega)
    rcases lt_or_ge p head with hp' | hp'
    · exact ⟨p + cap - tail, by omega, by rw [pos_of_le (by omega)]; omega⟩
    · exact ⟨p - tail, by omega, by rw [pos_of_lt (by omega)]; omega⟩

end

theorem Shape.of_pos (htail : tail < cap) (hn : n < cap) (hhead : head = pos cap tail n) :
    Shape cap tail head n := by
  rw [pos] at hhead
  refine ⟨htail, ?_, ?_⟩
  · split at hhead <;> omega
  · rw [back]
    split at hhead <;> split <;> omega

end

/-- The ring buffer holds the elements of a list. -/
structure Rep (d : VecDeque α) (l : List α) : Prop where
  isCap : IsCap d.cap
  shape : Shape d.cap d.tail d.head l.length
  holds : Holds d.buf d.tail l

theorem Rep.of_slots {tail head cap : Nat} {buf : Slots α} {l : List α} (hlength : buf.length = cap)
    (hcap : IsCap cap) (hshape : Shape cap tail head l.length)
    (hslot : ∀ k, k < l.length → slot buf (pos cap tail k) = l[k]?) : Rep ⟨tail, head, buf⟩ l := by
  subst hlength
  exact ⟨hcap, hshape, hslot⟩

section
variable {d : VecDeque α} {l : List α} {k : Nat}

section
variable (h : Rep d l)
include h

theorem Rep.len_eq : d.len = l.length := by
  rw [len, count_eq h.isCap h.shape.tail_lt h.shape.head_lt, h.shape.length]

theorem Rep.wrapAdd_eq {idx : Nat} (hidx : idx < d.cap) (hk : k ≤ d.cap) :
    d.wrapAdd idx k = pos d.cap idx k := wrapIndex_add h.isCap hidx hk

theorem Rep.wrapSub_eq {idx : Nat} (hidx : idx < d.cap) (hk : k ≤ d.cap) :
    d.wrapSub idx k = back d.cap idx k := wrapIndex_sub h.isCap hidx hk

theorem Rep.isEmpty_eq : d.isEmpty = l.isEmpty := by
  have hn := h.shape.length
  have ht := h.shape.tail_lt
  rw [Bool.eq_iff_iff, List.isEmpty_iff, ← List.length_eq_zero_iff, hn, isEmpty, decide_eq_true_iff,
    back]
  split <;> omega

theorem Rep.isFull_eq : d.isFull = decide (l.length + 1 = d.cap) := by
  rw [isFull, h.len_eq, Bool.eq_iff_iff, decide_eq_true_iff, decide_eq_true_iff]
  omega

theorem Rep.slot_pos (hk : k < l.length) : slot d.buf (pos d.cap d.tail k) = l[k]? := h.holds k hk

theorem Rep.slot_tail (hk : k < l.length) : slot d.buf (d.wrapAdd d.tail k) = l[k]? := by
  rw [h.wrapAdd_eq h.shape.tail_lt (by have := h.shape.n_lt; omega), h.slot_pos hk]

theorem Rep.isSome {p : Nat} (hp : InUse d.cap d.tail d.head p) : (slot d.buf p).isSome := by
  obtain ⟨k, hk, rfl⟩ := h.shape.exists_pos hp
  exact h.holds.isSome hk

end

end

/-! ## Blocks -/

section
variable {tail head dst src len : Nat} {buf : Slots α}

theorem assertCopy_ok {d : VecDeque α} (msg : String) (hdst : dst + len ≤ d.cap)
    (hsrc : src + len ≤ d.cap) : d.assertCopy msg dst src len = .ok () := by
  rw [assertCopy, bind_of_assert hdst, assert_ok (decide_eq_true hsrc)]

theorem copy_ok (hdst : dst + len ≤ buf.length) (hsrc : src + len ≤ buf.length)
    (hinit : ∀ p, src ≤ p → p < src + len → (slot buf p).isSome) :
    ∃ buf', copy ⟨tail, head, buf⟩ dst src len = .ok ⟨tail, head, buf'⟩ ∧
      buf'.length = buf.length ∧ ∀ p, slot buf' p = slot buf (origin dst src len p) := by
  obtain ⟨buf', hcopy, hlen, hslot⟩ := copy_spec hdst hinit
  refine ⟨buf', ?_, hlen, hslot⟩
  rw [VecDeque.copy, assertCopy_ok _ hdst hsrc, ok_bind, hcopy, ok_bind]

theorem copyNonoverlapping_ok (hdst : dst + len ≤ buf.length) (hsrc : src + len ≤ buf.length)
    (hapart : src + len ≤ dst ∨ dst + len ≤ src)
    (hinit : ∀ p, src ≤ p → p < src + len → (slot buf p).isSome) :
    ∃ buf', copyNonoverlapping ⟨tail, head, buf⟩ dst src len = .ok ⟨tail, head, buf'⟩ ∧
      buf'.length = buf.length ∧ ∀ p, slot buf' p = slot buf (origin dst src len p) := by
  obtain ⟨buf', hcopy, hlen, hslot⟩ := copy_spec hdst hinit
  refine ⟨buf', ?_, hlen, hslot⟩
  rw [VecDeque.copyNonoverlapping, assertCopy_ok _ hdst hsrc, ok_bind, Slots.copyNonoverlapping,
    assert_ok (by simpa using hapart), ok_bind, hcopy, ok_bind]

end

/-! ## Sequences of copies -/

structure Block where
  dst : Nat
  src : Nat
  len : Nat

/-- Where a slot has its element from after a copy. -/
@[grind] def Block.origin (b : Block) (p : Nat) : Nat := Slots.origin b.dst b.src b.len p

def copies (d : VecDeque α) (blocks : List Block) : Outcome (VecDeque α) :=
  blocks.foldlM (fun d b => d.copy b.dst b.src b.len) d

theorem copies_nil (d : VecDeque α) : d.copies [] = pure d := rfl

theorem copies_cons (d : VecDeque α) (b : Block) (blocks : List Block) :
    d.copies (b :: blocks) =
      (do let d ← d.copy b.dst b.src b.len; d.copies blocks) := List.foldlM_cons

theorem cap_of_copy {d d' : VecDeque α} {dst src len : Nat} (h : d.copy dst src len = .ok d') :
    d'.cap = d.cap := by
  obtain ⟨_, _, h⟩ := bind_eq_ok.1 h
  obtain ⟨buf, hbuf, h⟩ := bind_eq_ok.1 h
  cases h
  obtain ⟨block, _, hbuf⟩ := bind_eq_ok.1 hbuf
  rw [writeBlock] at hbuf
  split at hbuf
  · next hle =>
    cases hbuf
    simp [cap]
    omega
  · cases hbuf

/-- Where a slot has its element from after some copies. -/
@[grind] def origins : List Block → Nat → Nat
  | [], p => p
  | b :: blocks, p => b.origin (origins blocks p)

/-- The blocks are within the buffer, and the slots that are read are live. -/
@[grind] def Copyable (cap : Nat) (live : Nat → Prop) : (Nat → Nat) → List Block → Prop
  | _, [] => True
  | o, b :: blocks => b.dst + b.len ≤ cap ∧ b.src + b.len ≤ cap ∧
    (∀ p, b.src ≤ p → p < b.src + b.len → live (o p)) ∧
      Copyable cap live (fun p => o (b.origin p)) blocks

/-- These blocks are copied, one after the other. -/
def Copied (tail head : Nat) : Slots α → List Block → Slots α → Prop
  | buf, [], buf' => buf' = buf
  | buf, b :: blocks, buf' => ∃ buf₁,
    copy ⟨tail, head, buf⟩ b.dst b.src b.len = .ok ⟨tail, head, buf₁⟩ ∧
      buf₁.length = buf.length ∧ Copied tail head buf₁ blocks buf'

theorem Copied.copies_eq {tail head : Nat} {buf' : Slots α} : ∀ {blocks : List Block} {buf : Slots α},
    Copied tail head buf blocks buf' → copies ⟨tail, head, buf⟩ blocks = .ok ⟨tail, head, buf'⟩
  | [], _, rfl => rfl
  | _ :: _, _, ⟨_, hcopy, _, hrest⟩ => by rw [copies_cons, hcopy, ok_bind, hrest.copies_eq]

theorem copied_spec {tail head : Nat} {buf0 : Slots α} {live : Nat → Prop}
    (hlive : ∀ p, live p → (slot buf0 p).isSome) :
    ∀ {blocks : List Block} {buf : Slots α} {o : Nat → Nat},
      (∀ p, slot buf p = slot buf0 (o p)) → Copyable buf.length live o blocks →
      ∃ buf', Copied tail head buf blocks buf' ∧ buf'.length = buf.length ∧
        ∀ p, slot buf' p = slot buf0 (o (origins blocks p))
  | [], buf, o, hbuf, _ => ⟨buf, rfl, rfl, hbuf⟩
  | b :: blocks, buf, o, hbuf, ⟨hdst, hsrc, hread, hrest⟩ => by
    obtain ⟨buf1, hcopy, hlength, hslot⟩ := @copy_ok _ tail head b.dst b.src b.len buf hdst hsrc
      fun p hp hp' => by
        rw [hbuf]
        exact hlive _ (hread p hp hp')
    obtain ⟨buf', hcopied, hlength', hslot'⟩ :=
      @copied_spec _ _ _ _ hlive blocks buf1 (fun p => o (b.origin p))
        (fun p => by rw [hslot, hbuf]; rfl) (hlength ▸ hrest)
    exact ⟨buf', ⟨buf1, hcopy, hlength, hcopied⟩, hlength'.trans hlength, hslot'⟩

theorem copied_ok {tail head : Nat} {buf : Slots α} {live : Nat → Prop} {blocks : List Block}
    (hlive : ∀ p, live p → (slot buf p).isSome) (h : Copyable buf.length live id blocks) :
    ∃ buf', Copied tail head buf blocks buf' ∧
      buf'.length = buf.length ∧ ∀ p, slot buf' p = slot buf (origins blocks p) :=
  copied_spec hlive (fun _ => rfl) h

end Tortis.Collections.VecDeque
