import Mathlib.Data.List.Sort
import Mathlib.Algebra.Ring.Nat

/-!
# Bits in a list of words

A list of 64-bit words as one row of bits, numbered from the lowest bit of the first word. Two lists
of one length with the same bits are equal (`ext`), and the positions of the bits that are set, word
after word, are strictly increasing (`positions_sorted`).
-/

namespace Tortis.Words

open List Bool

def bit (words : List (BitVec 64)) (i : Nat) : Bool := (words[i / 64]?.getD 0#64).getLsbD (i % 64)

theorem mod_lt (i : Nat) : i % 64 < 64 := Nat.mod_lt _ (by decide)

variable {words : List (BitVec 64)} {i : Nat}

theorem bit_of_le (h : words.length ≤ i / 64) : bit words i = false := by
  rw [bit, getElem?_eq_none h, Option.getD_none, BitVec.getLsbD_zero]

theorem div_lt_of_bit (h : bit words i = true) : i / 64 < words.length := by
  by_contra hge
  rw [bit_of_le (Nat.le_of_not_lt hge)] at h
  cases h

variable {w : BitVec 64}

theorem bit_of_lt (h : words[i / 64]? = some w) : bit words i = w.getLsbD (i % 64) := by
  rw [bit, h]
  rfl

theorem bit_mul_add {k j : Nat} (h : words[k]? = some w)
    (hj : j < 64) : bit words (64 * k + j) = w.getLsbD j := by
  have hk : (64 * k + j) / 64 = k := by omega
  have hm : (64 * k + j) % 64 = j := by omega
  rw [bit, hk, hm, h]
  rfl

theorem bit_set {k : Nat} (hk : k < words.length) (w : BitVec 64)
    (i : Nat) : bit (words.set k w) i = if i / 64 = k then w.getLsbD (i % 64) else bit words i := by
  rw [bit, getElem?_set]
  by_cases h : i / 64 = k
  · rw [if_pos h, if_pos h.symm, if_pos hk]
    rfl
  · rw [if_neg h, if_neg (Ne.symm h)]
    rfl

theorem bit_replicate_zero (n i : Nat) : bit (replicate n 0#64) i = false := by
  rw [bit, getElem?_replicate]
  split <;> simp

theorem bit_replicate_allOnes (n i : Nat) :
    bit (replicate n (BitVec.allOnes 64)) i = decide (i / 64 < n) := by
  rw [bit, getElem?_replicate]
  split
  · next h => rw [Option.getD_some, BitVec.getLsbD_allOnes, decide_eq_true h, decide_eq_true (mod_lt i)]
  · next h => rw [Option.getD_none, BitVec.getLsbD_zero, decide_eq_false h]

theorem eq_zero_iff (w : BitVec 64) : w = 0#64 ↔ ∀ j < 64, w.getLsbD j = false := by
  refine ⟨fun h j _ => by rw [h, BitVec.getLsbD_zero], fun h => ?_⟩
  refine BitVec.eq_of_getLsbD_eq fun j hj => ?_
  rw [h j hj, BitVec.getLsbD_zero]

variable {words' : List (BitVec 64)}

theorem ext (hlen : words.length = words'.length)
    (hbit : ∀ i, bit words i = bit words' i) : words = words' := by
  refine ext_getElem hlen fun k hk hk' => ?_
  refine BitVec.eq_of_getLsbD_eq fun j hj => ?_
  have := hbit (64 * k + j)
  rwa [bit_mul_add (getElem?_eq_getElem hk) hj, bit_mul_add (getElem?_eq_getElem hk') hj] at this

variable {op : BitVec 64 → BitVec 64 → BitVec 64}

theorem bit_zipWith (hlen : words.length = words'.length)
    {f : Bool → Bool → Bool} (hfalse : f false false = false)
    (hop : ∀ a b j, j < 64 → (op a b).getLsbD j = f (a.getLsbD j) (b.getLsbD j)) (i : Nat) :
    bit (List.zipWith op words words') i = f (bit words i) (bit words' i) := by
  by_cases hi : i / 64 < words.length
  · have hi' : i / 64 < words'.length := hlen ▸ hi
    rw [bit_of_lt (getElem?_eq_getElem hi), bit_of_lt (getElem?_eq_getElem hi'),
      ← hop _ _ _ (mod_lt i)]
    exact bit_of_lt (by simp [hi, hi'])
  · have hge := Nat.le_of_not_lt hi
    have hge' : words'.length ≤ i / 64 := hlen ▸ hge
    rw [bit_of_le hge, bit_of_le hge', hfalse]
    exact bit_of_le (by rw [length_zipWith, ← hlen, Nat.min_self]; exact hge)

theorem any_ne_iff : ∀ {words words' : List (BitVec 64)}, words.length = words'.length →
      (((words.zip words').any fun (old, w) => old != op old w) = true ↔
        List.zipWith op words words' ≠ words)
  | [], [], _ => by simp
  | old :: words, w :: words', h => by
    rw [zip_cons_cons, any_cons, or_eq_true, any_ne_iff (Nat.succ.inj h),
      zipWith_cons_cons, ne_eq, ne_eq, List.cons.injEq, not_and_or]
    exact or_congr_left (bne_iff_ne.trans ne_comm)

theorem any_range_iff {start stop : Nat} : (((words.take stop).drop start).any fun w => w != 0#64) =
    true ↔ ∃ i, start ≤ i / 64 ∧ i / 64 < stop ∧ bit words i = true := by
  rw [any_eq_true]
  constructor
  · rintro ⟨w, hw, hne⟩
    obtain ⟨k, hk⟩ := getElem?_of_mem hw
    rw [getElem?_drop, getElem?_take] at hk
    split at hk
    · next hlt =>
      rw [bne_iff_ne, Ne, eq_zero_iff] at hne
      push Not at hne
      obtain ⟨j, hj, hset⟩ := hne
      refine ⟨64 * (start + k) + j, by omega, by omega, ?_⟩
      rw [bit_mul_add hk hj]
      exact eq_true_of_not_eq_false hset
    · cases hk
  · rintro ⟨i, hstart, hstop, hi⟩
    have hlt := div_lt_of_bit hi
    refine ⟨words[i / 64], ?_, ?_⟩
    · refine mem_of_getElem? (i := i / 64 - start) ?_
      rw [getElem?_drop, Nat.add_sub_cancel' hstart, getElem?_take, if_pos hstop]
      exact getElem?_eq_getElem hlt
    · rw [bne_iff_ne]
      intro hzero
      rw [bit_of_lt (getElem?_eq_getElem hlt), hzero, BitVec.getLsbD_zero] at hi
      cases hi

/-! ## The bits that are set -/

/-- The positions of the bits of a word. -/
def ones (w : BitVec 64) : List Nat := (range 64).filter w.getLsbD

@[simp] theorem mem_ones {j : Nat} : j ∈ ones w ↔ w.getLsbD j = true := by
  rw [ones, mem_filter, mem_range]
  exact and_iff_right_of_imp BitVec.lt_of_getLsbD

theorem ones_sorted (w : BitVec 64) : (ones w).Pairwise (· < ·) :=
  pairwise_lt_range.filter _

theorem ones_eq_nil : ones w = [] ↔ w = 0#64 := by
  rw [eq_zero_iff, ones, filter_eq_nil_iff]
  simp

/-- The positions of the bits of the words from the `k`-th on. -/
def positionsFrom : Nat → List (BitVec 64) → List Nat
  | _, [] => []
  | k, w :: words => (ones w).map (64 * k + ·) ++ positionsFrom (k + 1) words

def positions (words : List (BitVec 64)) : List Nat := positionsFrom 0 words

theorem mem_positionsFrom : ∀ {k : Nat} {words : List (BitVec 64)},
    i ∈ positionsFrom k words ↔ 64 * k ≤ i ∧ bit words (i - 64 * k) = true
  | k, [] => by simp [positionsFrom, bit]
  | k, w :: words => by
    rw [positionsFrom, mem_append, mem_map, mem_positionsFrom]
    constructor
    · rintro (⟨j, hj, rfl⟩ | ⟨hle, hbit⟩)
      · have hlt := BitVec.lt_of_getLsbD (mem_ones.1 hj)
        refine ⟨Nat.le_add_right _ _, ?_⟩
        rw [Nat.add_sub_cancel_left, bit, Nat.div_eq_of_lt hlt, Nat.mod_eq_of_lt hlt]
        exact mem_ones.1 hj
      · refine ⟨by omega, ?_⟩
        have hdiv : (i - 64 * k) / 64 = (i - 64 * (k + 1)) / 64 + 1 := by omega
        have hmod : (i - 64 * k) % 64 = (i - 64 * (k + 1)) % 64 := by omega
        rw [bit, hdiv, hmod, getElem?_cons_succ]
        exact hbit
    · rintro ⟨hle, hbit⟩
      by_cases hi : i < 64 * (k + 1)
      · refine .inl ⟨i - 64 * k, ?_, by omega⟩
        have hlt : i - 64 * k < 64 := by omega
        rw [bit, Nat.div_eq_of_lt hlt, Nat.mod_eq_of_lt hlt] at hbit
        exact mem_ones.2 hbit
      · refine .inr ⟨Nat.le_of_not_lt hi, ?_⟩
        have hdiv : (i - 64 * k) / 64 = (i - 64 * (k + 1)) / 64 + 1 := by omega
        have hmod : (i - 64 * k) % 64 = (i - 64 * (k + 1)) % 64 := by omega
        rwa [bit, hdiv, hmod, getElem?_cons_succ] at hbit

theorem positionsFrom_sorted : ∀ (k : Nat) (words : List (BitVec 64)),
    (positionsFrom k words).Pairwise (· < ·)
  | _, [] => .nil
  | k, w :: words => by
    rw [positionsFrom, pairwise_append]
    refine ⟨?_, positionsFrom_sorted _ _, ?_⟩
    · rw [pairwise_map]
      exact (ones_sorted w).imp fun h => Nat.add_lt_add_left h _
    · intro i hi i' hi'
      obtain ⟨j, hj, rfl⟩ := mem_map.1 hi
      have hlt := BitVec.lt_of_getLsbD (mem_ones.1 hj)
      have hle := (mem_positionsFrom.1 hi').1
      omega

@[simp] theorem mem_positions : i ∈ positions words ↔ bit words i = true := by
  rw [positions, mem_positionsFrom]
  simp

theorem positions_sorted (words : List (BitVec 64)) : (positions words).Pairwise (· < ·) :=
  positionsFrom_sorted 0 words

theorem length_positionsFrom : ∀ (k : Nat) (words : List (BitVec 64)),
    (positionsFrom k words).length = (words.map fun w => (ones w).length).sum
  | _, [] => rfl
  | k, w :: words => by
    rw [positionsFrom, length_append, length_map, length_positionsFrom, map_cons, sum_cons]

theorem ones_cons {p : Nat} (hp : p < 64) (hset : w.getLsbD p = true)
    (hfirst : ∀ j < p, w.getLsbD j = false) : ones w = p :: ones (w ^^^ BitVec.twoPow 64 p) := by
  have hbit : ∀ j, (w ^^^ BitVec.twoPow 64 p).getLsbD j = true ↔ j ≠ p ∧ w.getLsbD j = true := by
    intro j
    by_cases hj : p = j
    · subst hj
      simp [hp, hset]
    · simp [hj, Ne.symm hj]
  refine (ones_sorted w).eq_of_mem_iff (pairwise_cons.2 ⟨fun j hj => ?_, ones_sorted _⟩)
    fun j => ?_
  · obtain ⟨hne, hj⟩ := (hbit j).1 (mem_ones.1 hj)
    refine Nat.lt_of_le_of_ne (Nat.le_of_not_lt fun hlt => ?_) (Ne.symm hne)
    rw [hfirst j hlt] at hj
    cases hj
  · rw [mem_cons, mem_ones, mem_ones, hbit]
    refine ⟨fun hj => (eq_or_ne j p).imp_right fun hne => ⟨hne, hj⟩, ?_⟩
    rintro (rfl | ⟨-, hj⟩)
    exacts [hset, hj]

end Tortis.Words
