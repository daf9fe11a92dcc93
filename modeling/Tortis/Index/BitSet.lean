import Mathlib.Data.Finset.Card
import Tortis.Lib.Outcome
import Tortis.Lib.Words

/-!
# Dense bit sets

`BitSet` of `librustc_index/bit_set.rs`: a set of indices below a domain size, one bit for each. The
sizes and indices are natural numbers; the offset of an iterator wraps around as a `usize` does.
`BitSet.Holds` says which set the words stand for, and each operation has one lemma about it.
-/

namespace Tortis.Index

open Outcome List Bool

abbrev Word := BitVec 64

def WORD_BITS : Nat := 64

def numWords (domainSize : Nat) : Nat := (domainSize + WORD_BITS - 1) / WORD_BITS

def wordIndexAndMask (elem : Nat) : Nat × Word := (elem / WORD_BITS, 1#64 <<< (elem % WORD_BITS))

def countOnes (w : Word) : Nat := (range 64).countP w.getLsbD

/-- `trailing_zeros`: 64 for the word without a bit. -/
def trailingZeros (w : Word) : Nat := (range 64).findIdx w.getLsbD

/-- `wrapping_add` of `usize`. -/
def wrappingAdd (a b : Nat) : Nat := (a + b) % 2 ^ 64

structure BitSet where
  domainSize : Nat
  words : List Word

/-- `UnionIntoBitSet`: sets that can be merged into a dense one. -/
class UnionIntoBitSet (α : Type) where
  unionInto : α → BitSet → Outcome (Bool × BitSet)

class SubtractFromBitSet (α : Type) where
  subtractFrom : α → BitSet → Outcome (Bool × BitSet)

/-- `bitwise`: the words after the operation, and whether one of them has changed. -/
def bitwise (outVec inVec : List Word) (op : Word → Word → Word) : Outcome (Bool × List Word) := do
  assert (outVec.length = inVec.length) "assertion failed: out_vec.len() == in_vec.len()"
  .ok ((outVec.zip inVec).any fun (old, w) => old != op old w, List.zipWith op outVec inVec)

namespace BitSet

def newEmpty (domainSize : Nat) : BitSet :=
  ⟨domainSize, replicate (numWords domainSize) 0#64⟩

section
variable (b : BitSet)

def clearExcessBits : Outcome BitSet :=
  let numBitsInFinalWord := b.domainSize % WORD_BITS
  if 0 < numBitsInFinalWord then do
    let mask := (1#64 <<< numBitsInFinalWord) - 1#64
    let finalWordIdx := b.words.length - 1
    let w ← expect "index out of bounds" b.words[finalWordIdx]?
    .ok { b with words := b.words.set finalWordIdx (w &&& mask) }
  else .ok b

def newFilled (domainSize : Nat) : Outcome BitSet :=
  clearExcessBits ⟨domainSize, replicate (numWords domainSize) (BitVec.allOnes 64)⟩

def clear : BitSet := { b with words := b.words.map fun _ => 0#64 }

def overwrite (b other : BitSet) : Outcome BitSet := do
  assert (b.domainSize = other.domainSize)
    "assertion failed: self.domain_size == other.domain_size"
  assert (b.words.length = other.words.length)
    "destination and source slices have different lengths"
  .ok { b with words := other.words }

def count : Nat := (b.words.map countOnes).sum

/-- The assertion of the operations on an element. -/
def assertInDomain (domainSize elem : Nat) : Outcome Unit :=
  assert (elem < domainSize) "assertion failed: elem.index() < self.domain_size"

def assertSameDomain (domainSize other : Nat) : Outcome Unit :=
  assert (domainSize = other) "assertion failed: self.domain_size == other.domain_size"

section
variable (elem : Nat)

def contains : Outcome Bool := do
  assertInDomain b.domainSize elem
  let (wordIndex, mask) := wordIndexAndMask elem
  let word ← expect "index out of bounds" b.words[wordIndex]?
  .ok (word &&& mask != 0#64)

def superset (b other : BitSet) : Outcome Bool := do
  assertSameDomain b.domainSize other.domainSize
  .ok ((b.words.zip other.words).all fun (w, v) => w &&& v == v)

def isEmpty : Bool := b.words.all fun w => w == 0#64

/-- The change of the word of an element, which `insert` and `remove` share. -/
def changeWord (f : Word → Word → Word) : Outcome (Bool × BitSet) := do
  assertInDomain b.domainSize elem
  let (wordIndex, mask) := wordIndexAndMask elem
  let word ← expect "index out of bounds" b.words[wordIndex]?
  let newWord := f word mask
  .ok (newWord != word, { b with words := b.words.set wordIndex newWord })

def insert : Outcome (Bool × BitSet) :=
  b.changeWord elem fun word mask => word ||| mask

def insertAll : Outcome BitSet :=
  clearExcessBits { b with words := b.words.map fun _ => BitVec.allOnes 64 }

def remove : Outcome (Bool × BitSet) :=
  b.changeWord elem fun word mask => word &&& ~~~mask

end

end

def union {α : Type} [UnionIntoBitSet α] (b : BitSet) (other : α) : Outcome (Bool × BitSet) :=
  UnionIntoBitSet.unionInto other b

def subtract {α : Type} [SubtractFromBitSet α] (b : BitSet) (other : α) :
    Outcome (Bool × BitSet) :=
  SubtractFromBitSet.subtractFrom other b

/-- `bitwise` on the words of two sets of one domain. -/
def bitwiseSets (b other : BitSet) (op : Word → Word → Word) : Outcome (Bool × BitSet) := do
  assertSameDomain b.domainSize other.domainSize
  let (changed, words) ← bitwise b.words other.words op
  .ok (changed, { b with words })

def intersect (b other : BitSet) : Outcome (Bool × BitSet) :=
  b.bitwiseSets other fun x y => x &&& y

/-- `union_into`. -/
instance : UnionIntoBitSet BitSet where
  unionInto self other := other.bitwiseSets self fun x y => x ||| y

/-- `subtract_from`. -/
instance : SubtractFromBitSet BitSet where
  subtractFrom self other := other.bitwiseSets self fun x y => x &&& ~~~y

end BitSet

/-! ## Iteration -/

structure BitIter where
  word : Word
  offset : Nat
  iter : List Word

namespace BitIter

def new (words : List Word) : BitIter := ⟨0#64, 2 ^ 64 - 1 - (WORD_BITS - 1), words⟩

/-- The first bit of the current word, which is cleared. -/
def visit (word : Word) (offset : Nat) (iter : List Word) : Nat × BitIter :=
  let bitPos := trailingZeros word
  (bitPos + offset, ⟨word ^^^ 1#64 <<< bitPos, offset, iter⟩)

/-- The loop of `next`, over the words that are left. -/
def nextFrom (word : Word) (offset : Nat) : List Word → Option (Nat × BitIter)
  | [] => if word ≠ 0#64 then some (visit word offset []) else none
  | w :: iter =>
    if word ≠ 0#64 then some (visit word offset (w :: iter))
    else nextFrom w (wrappingAdd offset WORD_BITS) iter

def next (it : BitIter) : Option (Nat × BitIter) := nextFrom it.word it.offset it.iter

/-- The elements that repeated calls of `next` return. -/
def collect : Nat → BitIter → Outcome (List Nat)
  | 0, _ => .error .outOfFuel
  | n + 1, it =>
    match it.next with
    | none => .ok []
    | some (i, it) => do
      let rest ← collect n it
      .ok (i :: rest)

end BitIter

/-- `iter`, run to its end: a word has at most `WORD_BITS` elements. -/
def BitSet.iter (b : BitSet) : Outcome (List Nat) :=
  (BitIter.new b.words).collect (WORD_BITS * b.words.length + 1)

/-! ## The set that the words stand for -/

open Words

theorem getLsbD_mask (k j : Nat) : (1#64 <<< k).getLsbD j = (decide (k < 64) && decide (k = j)) :=
  BitVec.getLsbD_twoPow k j

theorem getLsbD_mask_sub_one {k : Nat} (hk : k < 64) (j : Nat) :
    ((1#64 <<< k) - 1#64).getLsbD j = decide (j < k) := by
  have hpow : (1#64 <<< k).toNat = 2 ^ k := by
    rw [BitVec.toNat_shiftLeft, Nat.shiftLeft_eq, BitVec.toNat_ofNat, Nat.one_mul]
    exact Nat.mod_eq_of_lt (Nat.pow_lt_pow_right (by decide) hk)
  have hle : 1#64 ≤ 1#64 <<< k := by
    rw [BitVec.le_def, hpow]
    exact Nat.one_le_two_pow
  rw [BitVec.getLsbD, BitVec.toNat_sub_of_le hle, hpow]
  exact Nat.testBit_two_pow_sub_one k j

theorem countOnes_eq (w : Word) : countOnes w = (ones w).length := countP_eq_length_filter

theorem wordIndexAndMask_eq (elem : Nat) :
    wordIndexAndMask elem = (elem / 64, 1#64 <<< (elem % 64)) := rfl

theorem lt_numWords {n i : Nat} (h : i < n) : i / 64 < numWords n := by
  rw [numWords, WORD_BITS]
  omega

theorem and_mask_ne_zero (w : Word) {j : Nat} (hj : j < 64) :
    (w &&& 1#64 <<< j != 0#64) = w.getLsbD j := by
  rw [Bool.eq_iff_iff, bne_iff_ne, Ne, eq_zero_iff]
  constructor
  · intro h
    by_contra hnot
    refine h fun i _ => ?_
    rw [BitVec.getLsbD_and, getLsbD_mask]
    by_cases hij : j = i
    · rw [← hij, Bool.eq_false_iff.2 hnot, Bool.false_and]
    · rw [decide_eq_false hij, Bool.and_false, Bool.and_false]
  · intro h hzero
    have := hzero j hj
    rw [BitVec.getLsbD_and, getLsbD_mask, h] at this
    simp [hj] at this

/-- The set of a domain that the words of a bit set stand for. -/
structure BitSet.Holds (b : BitSet) (n : Nat) (S : Finset Nat) : Prop where
  domain : b.domainSize = n
  length : b.words.length = numWords n
  bit : ∀ i, bit b.words i = true ↔ i ∈ S
  lt : ∀ i ∈ S, i < n

/-- What an operation returns, for a representation of sets: whether the set has changed, and the set
after it. -/
def Changes {σ : Type} (P : σ → Finset Nat → Prop) (r : Outcome (Bool × σ)) (S T : Finset Nat) :
    Prop :=
  ∃ changed x, r = .ok (changed, x) ∧ P x T ∧ (changed = true ↔ T ≠ S)

namespace BitSet

variable {b c : BitSet} {n i : Nat} {S T : Finset Nat}

section
variable (h : b.Holds n S)
include h

theorem Holds.bit_eq (i : Nat) : Words.bit b.words i = decide (i ∈ S) := by
  rw [Bool.eq_iff_iff, h.bit, decide_eq_true_iff]

theorem Holds.assertInDomain (hi : i < n) : assertInDomain b.domainSize i = .ok () := by
  simp [BitSet.assertInDomain, assert, h.domain, hi]

theorem Holds.assertSameDomain (hc : c.Holds n T) :
    assertSameDomain b.domainSize c.domainSize = .ok () := by
  simp [BitSet.assertSameDomain, assert, h.domain, hc.domain]

theorem Holds.word (hi : i < n) : ∃ w, b.words[i / 64]? = some w :=
  ⟨_, getElem?_eq_getElem (h.length ▸ lt_numWords hi)⟩

theorem Holds.unique (hc : c.Holds n S) : b = c := by
  cases b
  cases c
  obtain rfl := h.domain
  obtain rfl := hc.domain
  refine congrArg _ (ext (h.length.trans hc.length.symm) fun i => ?_)
  rw [h.bit_eq, hc.bit_eq]

end

theorem newEmpty_holds (n : Nat) : (newEmpty n).Holds n ∅ where
  domain := rfl
  length := length_replicate
  bit i := by simp [newEmpty, bit_replicate_zero]
  lt i hi := absurd hi (Finset.notMem_empty i)

theorem clearExcessBits_spec {b : BitSet} (hlen : b.words.length = numWords b.domainSize) :
    ∃ b', b.clearExcessBits = .ok b' ∧ b'.domainSize = b.domainSize ∧
      b'.words.length = b.words.length ∧
      ∀ i, Words.bit b'.words i = (decide (i < b.domainSize) && Words.bit b.words i) := by
  rw [clearExcessBits]
  dsimp only
  split
  · next hpos =>
    have hlast : b.words.length - 1 < b.words.length := by
      rw [hlen, numWords]
      simp only [WORD_BITS] at hpos ⊢
      omega
    have hmod : b.domainSize % 64 < 64 := mod_lt _
    refine ⟨⟨b.domainSize, b.words.set (b.words.length - 1)
      (b.words[b.words.length - 1] &&& (1#64 <<< (b.domainSize % WORD_BITS)) - 1#64)⟩, ?_, rfl,
      length_set, fun i => ?_⟩
    · rw [getElem?_eq_getElem hlast]
      rfl
    · dsimp only
      rw [bit_set hlast, BitVec.getLsbD_and, WORD_BITS, getLsbD_mask_sub_one hmod]
      have hdomain : b.domainSize / 64 = b.words.length - 1 := by
        rw [hlen, numWords]
        simp only [WORD_BITS] at hpos ⊢
        omega
      by_cases hi : i / 64 = b.words.length - 1
      · have hlt : decide (i % 64 < b.domainSize % 64) = decide (i < b.domainSize) :=
          decide_eq_decide.2 (by omega)
        rw [if_pos hi, hlt, Bool.and_comm, bit_of_lt (getElem?_eq_getElem (hi ▸ hlast))]
        simp only [hi]
      · rw [if_neg hi]
        cases hbit : Words.bit b.words i with
        | false => rw [Bool.and_false]
        | true =>
          have := div_lt_of_bit hbit
          rw [Bool.and_true, eq_comm, decide_eq_true_iff]
          omega
  · next hzero =>
    refine ⟨b, rfl, rfl, rfl, fun i => ?_⟩
    cases hbit : Words.bit b.words i with
    | false => rw [Bool.and_false]
    | true =>
      have := div_lt_of_bit hbit
      rw [hlen, numWords] at this
      simp only [WORD_BITS] at hzero this
      rw [Bool.and_true, eq_comm, decide_eq_true_iff]
      omega

theorem clearExcessBits_holds {b : BitSet} (hlen : b.words.length = numWords b.domainSize)
    (hbit : ∀ i < b.domainSize, Words.bit b.words i = true) :
    ∃ b', b.clearExcessBits = .ok b' ∧ b'.Holds b.domainSize (Finset.range b.domainSize) := by
  obtain ⟨b', hb', hdomain, hlen', hbit'⟩ := clearExcessBits_spec hlen
  refine ⟨b', hb', hdomain, hlen'.trans hlen, fun i => ?_, fun i => Finset.mem_range.1⟩
  rw [hbit', and_eq_true, decide_eq_true_iff, Finset.mem_range]
  exact and_iff_left_of_imp (hbit i)

theorem newFilled_holds (n : Nat) : ∃ b, newFilled n = .ok b ∧ b.Holds n (Finset.range n) := by
  refine clearExcessBits_holds (b := ⟨n, replicate (numWords n) (BitVec.allOnes 64)⟩)
    length_replicate fun i hi => ?_
  rw [bit_replicate_allOnes, decide_eq_true (lt_numWords hi)]

section
variable (h : b.Holds n S)
include h

theorem Holds.insertAll : ∃ b', b.insertAll = .ok b' ∧ b'.Holds n (Finset.range n) := by
  obtain rfl := h.domain
  refine clearExcessBits_holds (b := { b with words := b.words.map fun _ => BitVec.allOnes 64 })
    ((length_map _).trans h.length) fun i hi => ?_
  rw [map_const', bit_replicate_allOnes, h.length, decide_eq_true (lt_numWords hi)]

theorem Holds.clear : b.clear.Holds n ∅ where
  domain := h.domain
  length := (length_map _).trans h.length
  bit i := by
    rw [BitSet.clear, map_const', bit_replicate_zero]
    simp
  lt i hi := absurd hi (Finset.notMem_empty i)

theorem Holds.overwrite (hc : c.Holds n T) : ∃ b', b.overwrite c = .ok b' ∧ b'.Holds n T := by
  refine ⟨⟨b.domainSize, c.words⟩, ?_, h.domain, hc.length, hc.bit, hc.lt⟩
  simp [BitSet.overwrite, assert, h.domain, hc.domain, h.length, hc.length]

/-! ### Queries -/

theorem Holds.contains (hi : i < n) : b.contains i = .ok (decide (i ∈ S)) := by
  obtain ⟨w, hw⟩ := h.word hi
  rw [BitSet.contains, h.assertInDomain hi]
  simp only [ok_bind, wordIndexAndMask, WORD_BITS, hw, expect_some, and_mask_ne_zero _ (mod_lt i)]
  rw [← h.bit_eq, bit_of_lt hw]

theorem Holds.isEmpty : b.isEmpty = true ↔ S = ∅ := by
  rw [BitSet.isEmpty, all_eq_true, Finset.eq_empty_iff_forall_notMem]
  constructor
  · intro hall i hi
    rw [← h.bit] at hi
    have hk := div_lt_of_bit hi
    have hzero := beq_iff_eq.1 (hall _ (getElem_mem hk))
    rw [bit_of_lt (getElem?_eq_getElem hk), hzero, BitVec.getLsbD_zero] at hi
    cases hi
  · intro hnone w hw
    obtain ⟨k, hk⟩ := getElem?_of_mem hw
    rw [beq_iff_eq, eq_zero_iff]
    intro j hj
    rw [← bit_mul_add hk hj, h.bit_eq, decide_eq_false (hnone _)]

end

theorem and_eq_iff (w v : Word) :
    (w &&& v == v) = true ↔ ∀ j < 64, v.getLsbD j = true → w.getLsbD j = true := by
  rw [beq_iff_eq]
  constructor
  · intro h j _ hv
    have := congrArg (·.getLsbD j) h
    simp only [BitVec.getLsbD_and] at this
    rw [hv, Bool.and_true] at this
    exact this
  · intro h
    refine BitVec.eq_of_getLsbD_eq fun j hj => ?_
    rw [BitVec.getLsbD_and]
    cases hv : v.getLsbD j with
    | false => rw [Bool.and_false]
    | true => rw [h j hj hv, Bool.and_true]

section
variable (h : b.Holds n S)
include h

theorem Holds.superset (hc : c.Holds n T) : b.superset c = .ok (decide (T ⊆ S)) := by
  have hall : ((b.words.zip c.words).all fun (w, v) => w &&& v == v) = true ↔ T ⊆ S := by
    rw [all_eq_true]
    constructor
    · intro hall i hi
      have hic := (hc.bit i).2 hi
      have hk := div_lt_of_bit hic
      have hk' : i / 64 < b.words.length := by rwa [h.length, ← hc.length]
      have hmem : (b.words[i / 64], c.words[i / 64]) ∈ b.words.zip c.words := by
        rw [← getElem_zip (h := by rw [length_zip]; exact Nat.lt_min.2 ⟨hk', hk⟩)]
        exact getElem_mem _
      have := (and_eq_iff _ _).1 (hall _ hmem) _ (mod_lt i)
      rw [← bit_of_lt (getElem?_eq_getElem hk), ← bit_of_lt (getElem?_eq_getElem hk')]
        at this
      exact (h.bit i).1 (this hic)
    · rintro hsub ⟨w, v⟩ hmem
      obtain ⟨k, hk⟩ := getElem?_of_mem hmem
      obtain ⟨hw, hv⟩ := getElem?_zip_eq_some.1 hk
      refine (and_eq_iff _ _).2 fun j hj hset => ?_
      rw [← bit_mul_add hv hj, hc.bit] at hset
      rw [← bit_mul_add hw hj, h.bit]
      exact hsub hset
  rw [BitSet.superset, h.assertSameDomain hc, ok_bind]
  refine congrArg Except.ok ?_
  rw [Bool.eq_iff_iff, hall, decide_eq_true_iff]

theorem Holds.positions : ∀ i, i ∈ positions b.words ↔ i ∈ S := fun i =>
  mem_positions.trans (h.bit i)

theorem Holds.length_positions : (Words.positions b.words).length = S.card := by
  have hS : (Words.positions b.words).toFinset = S := by
    ext i
    rw [mem_toFinset, h.positions]
  rw [← hS, toFinset_card_of_nodup ((positions_sorted _).imp ne_of_lt)]

theorem Holds.count : b.count = S.card := by
  rw [← h.length_positions, Words.positions, length_positionsFrom]
  exact congrArg (fun f => (b.words.map f).sum) (funext countOnes_eq)

/-! ### Changes -/

theorem Holds.ne_iff (hc : c.Holds n T) : c.words ≠ b.words ↔ T ≠ S := by
  refine not_congr ⟨fun heq => ?_, ?_⟩
  · ext i
    rw [← hc.bit, ← h.bit, heq]
  · rintro rfl
    rw [hc.unique h]

theorem Holds.changeWord (hi : i < n) {f : Word → Word → Word} (hT : ∀ j ∈ T, j < n)
    (hf : ∀ w : Word, ∀ j < 64, (f w (1#64 <<< (i % 64))).getLsbD j =
      if j = i % 64 then decide (i ∈ T) else w.getLsbD j)
    (hother : ∀ j, j ≠ i → (j ∈ T ↔ j ∈ S)) : Changes (Holds · n) (b.changeWord i f) S T := by
  obtain ⟨w, hw⟩ := h.word hi
  have hlt : i / 64 < b.words.length := (List.getElem?_eq_some_iff.1 hw).1
  have hT' : BitSet.Holds ⟨b.domainSize, b.words.set (i / 64) (f w (1#64 <<< (i % 64)))⟩ n T := by
    refine ⟨h.domain, (length_set).trans h.length, fun j => ?_, hT⟩
    rw [bit_set hlt]
    split
    · next hj =>
      rw [hf w _ (mod_lt j)]
      split
      · next hmod =>
        obtain rfl : j = i := by omega
        rw [decide_eq_true_iff]
      · next hmod =>
        have hne : j ≠ i := fun heq => hmod (congrArg (· % 64) heq)
        rw [hother j hne, ← h.bit, bit_of_lt (by rw [hj]; exact hw)]
    · next hj =>
      have hne : j ≠ i := fun heq => hj (congrArg (· / 64) heq)
      rw [h.bit, hother j hne]
  refine ⟨f w (1#64 <<< (i % 64)) != w, _, ?_, hT', ?_⟩
  · rw [BitSet.changeWord, h.assertInDomain hi]
    simp [wordIndexAndMask, WORD_BITS, hw]
  · rw [← h.ne_iff hT', bne_iff_ne]
    refine not_congr ⟨fun heq => ?_, fun heq => ?_⟩
    · rw [heq]
      obtain ⟨hi', rfl⟩ := List.getElem?_eq_some_iff.1 hw
      exact List.set_getElem_self hi'
    · have := congrArg (·[i / 64]?) heq
      simp only [getElem?_set_self hlt, hw, Option.some.injEq] at this
      exact this

theorem Holds.insert (hi : i < n) : Changes (Holds · n) (b.insert i) S (Insert.insert i S) := by
  refine h.changeWord hi ?_ (fun w j hj => ?_) fun j hj => ?_
  · intro j hj
    rcases Finset.mem_insert.1 hj with rfl | hj
    exacts [hi, h.lt j hj]
  · rw [BitVec.getLsbD_or, getLsbD_mask]
    by_cases hij : j = i % 64
    · subst hij
      simp [hj]
    · simp [hij, Ne.symm hij]
  · rw [Finset.mem_insert, or_iff_right hj]

theorem Holds.remove (hi : i < n) : Changes (Holds · n) (b.remove i) S (S.erase i) := by
  refine h.changeWord hi (fun j hj => h.lt j (Finset.mem_of_mem_erase hj)) (fun w j hj => ?_)
    fun j hj => ?_
  · rw [BitVec.getLsbD_and, BitVec.getLsbD_not, getLsbD_mask]
    by_cases hij : j = i % 64
    · subst hij
      simp
    · simp [hij, Ne.symm hij, hj]
  · rw [Finset.mem_erase, and_iff_right hj]

theorem Holds.bitwiseSets (hc : c.Holds n T) {op : Word → Word → Word}
    {f : Bool → Bool → Bool} (hfalse : f false false = false)
    (hop : ∀ w v j, j < 64 → (op w v).getLsbD j = f (w.getLsbD j) (v.getLsbD j))
    {U : Finset Nat} (hU : ∀ i, i ∈ U ↔ f (decide (i ∈ S)) (decide (i ∈ T)) = true) :
    Changes (Holds · n) (b.bitwiseSets c op) S U := by
  have hlen : b.words.length = c.words.length := h.length.trans hc.length.symm
  have hholds : BitSet.Holds ⟨b.domainSize, List.zipWith op b.words c.words⟩ n U := by
    refine ⟨h.domain, ?_, fun i => ?_, fun i hi => ?_⟩
    · rw [length_zipWith, ← hlen, Nat.min_self, h.length]
    · rw [bit_zipWith hlen hfalse hop, h.bit_eq, hc.bit_eq, hU]
    · rw [hU] at hi
      by_cases hS : i ∈ S
      · exact h.lt i hS
      · by_cases hT : i ∈ T
        · exact hc.lt i hT
        · rw [decide_eq_false hS, decide_eq_false hT, hfalse] at hi
          cases hi
  refine ⟨(b.words.zip c.words).any fun (old, w) => old != op old w, _, ?_, hholds, ?_⟩
  · rw [BitSet.bitwiseSets, h.assertSameDomain hc, ok_bind]
    simp [bitwise, assert, hlen]
  · rw [← h.ne_iff hholds]
    exact any_ne_iff hlen

theorem Holds.union (hc : c.Holds n T) : Changes (Holds · n) (b.union c) S (S ∪ T) := by
  refine h.bitwiseSets hc (f := (· || ·)) rfl (fun w v j _ => BitVec.getLsbD_or) fun i => ?_
  simp

theorem Holds.intersect (hc : c.Holds n T) : Changes (Holds · n) (b.intersect c) S (S ∩ T) := by
  refine h.bitwiseSets hc (f := (· && ·)) rfl (fun w v j _ => BitVec.getLsbD_and) fun i => ?_
  simp

theorem Holds.subtract (hc : c.Holds n T) : Changes (Holds · n) (b.subtract c) S (S \ T) := by
  refine h.bitwiseSets hc (f := fun x y => x && !y) rfl (fun w v j hj => ?_) fun i => ?_
  · rw [BitVec.getLsbD_and, BitVec.getLsbD_not, decide_eq_true hj, Bool.true_and]
  · simp

end

end BitSet

/-! ### Iteration -/

namespace BitIter

theorem trailingZeros_spec {w : Word} (h : w ≠ 0#64) :
    trailingZeros w < 64 ∧ w.getLsbD (trailingZeros w) = true ∧
      ∀ j < trailingZeros w, w.getLsbD j = false := by
  have hex : ∃ j ∈ range 64, w.getLsbD j = true := by
    by_contra hnone
    refine h ((eq_zero_iff w).2 fun j hj => ?_)
    by_contra hset
    exact hnone ⟨j, mem_range.2 hj, eq_true_of_not_eq_false hset⟩
  have hlt : (range 64).findIdx w.getLsbD < (range 64).length := findIdx_lt_length_of_exists hex
  have hset := findIdx_getElem (w := hlt)
  rw [getElem_range] at hset
  refine ⟨hlt, hset, fun j hj => ?_⟩
  have hj := not_of_lt_findIdx hj
  rwa [getElem_range] at hj

/-- The elements that an iterator in its `k`-th word has still to return. -/
def Remaining (it : BitIter) (l : List Nat) : Prop :=
  ∃ k, it.offset = 64 * k ∧ 64 * (k + 1 + it.iter.length) ≤ 2 ^ 64 ∧
    l = (ones it.word).map (64 * k + ·) ++ positionsFrom (k + 1) it.iter

theorem visit_remaining {word : Word} {k : Nat} {iter : List Word} {l : List Nat} (hw : word ≠ 0#64)
    (hk : 64 * (k + 1 + iter.length) ≤ 2 ^ 64)
    (hl : l = (ones word).map (64 * k + ·) ++ positionsFrom (k + 1) iter) :
    ∃ i it rest, visit word (64 * k) iter = (i, it) ∧ l = i :: rest ∧ Remaining it rest := by
  obtain ⟨hlt, hset, hfirst⟩ := trailingZeros_spec hw
  refine ⟨_, _, _, rfl, ?_, k, rfl, hk, rfl⟩
  rw [hl, ones_cons hlt hset hfirst, add_comm (trailingZeros word)]
  rfl

theorem nextFrom_spec : ∀ {iter : List Word} {word : Word} {k : Nat} {l : List Nat},
    64 * (k + 1 + iter.length) ≤ 2 ^ 64 →
    l = (ones word).map (64 * k + ·) ++ positionsFrom (k + 1) iter →
      (l = [] ∧ nextFrom word (64 * k) iter = none) ∨
        ∃ i it rest, nextFrom word (64 * k) iter = some (i, it) ∧ l = i :: rest ∧ Remaining it rest
  | [], word, k, l, hk, hl => by
    by_cases hw : word = 0#64
    · left
      rw [hl, hw]
      exact ⟨rfl, rfl⟩
    · right
      obtain ⟨i, it, rest, hvisit, hrest⟩ := visit_remaining hw hk hl
      refine ⟨i, it, rest, ?_, hrest⟩
      rw [nextFrom, if_pos hw, hvisit]
  | w :: iter, word, k, l, hk, hl => by
    by_cases hw : word = 0#64
    · have hadd : wrappingAdd (64 * k) WORD_BITS = 64 * (k + 1) := by
        rw [wrappingAdd, WORD_BITS, Nat.mul_succ]
        rw [length_cons] at hk
        exact Nat.mod_eq_of_lt (by omega)
      rw [hw, ones_eq_nil.2 rfl, map_nil, nil_append, positionsFrom] at hl
      rw [nextFrom, if_neg (not_not.2 hw), hadd]
      exact nextFrom_spec (by rw [length_cons] at hk; omega) hl
    · right
      obtain ⟨i, it, rest, hvisit, hrest⟩ := visit_remaining hw hk hl
      refine ⟨i, it, rest, ?_, hrest⟩
      rw [nextFrom, if_pos hw, hvisit]

theorem collect_remaining : ∀ {l : List Nat} {it : BitIter} {m : Nat}, Remaining it l →
    l.length < m → it.collect m = .ok l
  | _, _, 0, _, hm => absurd hm (Nat.not_lt_zero _)
  | l, ⟨word, offset, iter⟩, m + 1, ⟨k, hoffset, hk, hl⟩, hm => by
    obtain rfl : offset = 64 * k := hoffset
    rw [collect, next]
    rcases nextFrom_spec hk hl with ⟨rfl, hnone⟩ | ⟨i, it, rest, hsome, rfl, hrest⟩
    · rw [hnone]
    · rw [hsome]
      dsimp only
      rw [collect_remaining hrest (Nat.lt_of_succ_lt_succ hm)]
      rfl

theorem collect_new {words : List Word} (hlen : 64 * words.length ≤ 2 ^ 64) {m : Nat}
    (hm : (positions words).length < m) : (new words).collect m = .ok (positions words) := by
  obtain ⟨m, rfl⟩ := Nat.exists_eq_succ_of_ne_zero (ne_of_gt (Nat.zero_lt_of_lt hm))
  cases words with
  | nil => rfl
  | cons w words =>
    -- The first call moves to the first word, where the offset wraps around to zero.
    have hwrap : wrappingAdd (2 ^ 64 - 1 - (WORD_BITS - 1)) WORD_BITS = 0 := by decide
    have hnext : (new (w :: words)).next = (BitIter.mk w 0 words).next := by
      rw [new, next, next, nextFrom, if_neg (not_not.2 rfl), hwrap]
    have hfirst : (new (w :: words)).collect (m + 1) = (BitIter.mk w 0 words).collect (m + 1) := by
      rw [collect, collect, hnext]
    rw [hfirst]
    refine collect_remaining ⟨0, rfl, ?_, rfl⟩ hm
    rw [zero_add, add_comm]
    exact hlen

end BitIter

theorem BitSet.Holds.iter {b : BitSet} {n : Nat} {S : Finset Nat} (h : b.Holds n S)
    (hn : n < 2 ^ 64) : ∃ l, b.iter = .ok l ∧ l.Pairwise (· < ·) ∧ ∀ i, i ∈ l ↔ i ∈ S := by
  refine ⟨Words.positions b.words, BitIter.collect_new ?_ ?_, positions_sorted _, h.positions⟩
  · rw [h.length, numWords, WORD_BITS]
    omega
  · have hcard : S.card ≤ n := by
      have := Finset.card_le_card (fun i hi => Finset.mem_range.2 (h.lt i hi) : S ⊆ Finset.range n)
      rwa [Finset.card_range] at this
    rw [h.length_positions, h.length, numWords]
    simp only [WORD_BITS]
    omega

end Tortis.Index
