import Mathlib.Data.Finset.Prod
import Tortis.Index.BitSet

/-!
# Dense bit matrices

`BitMatrix` of `librustc_index/bit_set.rs`: the rows of a matrix of bits one after the other in one
list of words. `BitMatrix.Holds` says which cells are set, and each operation has one lemma about
it.
-/

namespace Tortis.Index

open Outcome List

structure BitMatrix where
  numRows : Nat
  numColumns : Nat
  words : List Word

namespace BitMatrix

def new (numRows numColumns : Nat) : BitMatrix :=
  ⟨numRows, numColumns, replicate (numRows * numWords numColumns) 0#64⟩

section
variable (m : BitMatrix)

/-- `range`: where the words of a row start and end. -/
def range (row : Nat) : Nat × Nat :=
  let wordsPerRow := numWords m.numColumns
  let start := row * wordsPerRow
  (start, start + wordsPerRow)

def word (i : Nat) : Outcome Word :=
  expect "index out of bounds" m.words[i]?

def assertCell (row column : Nat) : Outcome Unit :=
  assert (row < m.numRows && column < m.numColumns)
    "assertion failed: row.index() < self.num_rows && column.index() < self.num_columns"

def insert (row column : Nat) : Outcome (Bool × BitMatrix) := do
  m.assertCell row column
  let (start, _) := m.range row
  let (wordIndex, mask) := wordIndexAndMask column
  let word ← m.word (start + wordIndex)
  let newWord := word ||| mask
  .ok (word != newWord, { m with words := m.words.set (start + wordIndex) newWord })

def contains (row column : Nat) : Outcome Bool := do
  m.assertCell row column
  let (start, _) := m.range row
  let (wordIndex, mask) := wordIndexAndMask column
  let word ← m.word (start + wordIndex)
  .ok (word &&& mask != 0#64)

/-- The loop of `intersect_rows` over the bits of a word. -/
def pushBits (base : Nat) : List Nat → Word → List Nat → List Nat
  | [], _, result => result
  | bit :: bits, v, result =>
    if v = 0#64 then result
    else
      pushBits base bits (v >>> 1)
        (if v &&& 1#64 ≠ 0#64 then result ++ [base * WORD_BITS + bit] else result)

/-- One iteration of the loop of `intersect_rows`. -/
def intersectWord (row1Start row2Start : Nat) (result : List Nat) (base : Nat) :
    Outcome (List Nat) := do
  let i ← m.word (row1Start + base)
  let j ← m.word (row2Start + base)
  .ok (pushBits base (List.range WORD_BITS) (i &&& j) result)

def intersectRows (row1 row2 : Nat) : Outcome (List Nat) := do
  assert (row1 < m.numRows && row2 < m.numRows)
    "assertion failed: row1.index() < self.num_rows && row2.index() < self.num_rows"
  let (row1Start, row1End) := m.range row1
  let (row2Start, _) := m.range row2
  (List.range (row1End - row1Start)).foldlM (m.intersectWord row1Start row2Start) []

end

/-- One iteration of the loop of `union_rows`. -/
def unionWord (readStart writeStart : Nat) (st : Bool × BitMatrix) (i : Nat) :
    Outcome (Bool × BitMatrix) := do
  let (changed, m) := st
  let word ← m.word (writeStart + i)
  let read ← m.word (readStart + i)
  let newWord := word ||| read
  .ok (changed || word != newWord, { m with words := m.words.set (writeStart + i) newWord })

/-- `union_rows`: the bits of the row `read` are added to the row `write`. -/
def unionRows (m : BitMatrix) (read write : Nat) : Outcome (Bool × BitMatrix) := do
  assert (read < m.numRows && write < m.numRows)
    "assertion failed: read.index() < self.num_rows && write.index() < self.num_rows"
  let (readStart, readEnd) := m.range read
  let (writeStart, _) := m.range write
  (List.range (readEnd - readStart)).foldlM (unionWord readStart writeStart) (false, m)

/-- `iter`, run to its end. -/
def iter (m : BitMatrix) (row : Nat) : Outcome (List Nat) := do
  assert (row < m.numRows) "assertion failed: row.index() < self.num_rows"
  let (start, stop) := m.range row
  let words := (m.words.drop start).take (stop - start)
  (BitIter.new words).collect (WORD_BITS * words.length + 1)

end BitMatrix

/-! ## The cells that the words stand for -/

open Words

/-- The cells of a matrix of `n` rows and `k` columns that are set. -/
structure BitMatrix.Holds (m : BitMatrix) (n k : Nat) (S : Finset (Nat × Nat)) : Prop where
  rows : m.numRows = n
  columns : m.numColumns = k
  length : m.words.length = n * numWords k
  cell : ∀ r < n, ∀ c < 64 * numWords k, bit m.words (64 * (r * numWords k) + c) = true ↔ (r, c) ∈ S
  lt : ∀ p ∈ S, p.1 < n ∧ p.2 < k

/-- What an operation on a matrix returns: whether a cell has changed, and the matrix after it. -/
def BitMatrix.Turns (n k : Nat) (x : Outcome (Bool × BitMatrix)) (S T : Finset (Nat × Nat)) : Prop :=
  ∃ changed m, x = .ok (changed, m) ∧ m.Holds n k T ∧ (changed = true ↔ T ≠ S)

namespace BitMatrix

variable {m : BitMatrix} {n k r c : Nat} {S : Finset (Nat × Nat)}

theorem lt_mul_numWords (h : c < k) : c < 64 * numWords k := by
  have := lt_numWords h
  omega

theorem Holds.cell_eq (h : m.Holds n k S) (hr : r < n) (hc : c < 64 * numWords k) :
    bit m.words (64 * (r * numWords k) + c) = decide ((r, c) ∈ S) := by
  rw [Bool.eq_iff_iff, h.cell r hr c hc, decide_eq_true_iff]

theorem range_eq (h : m.numColumns = k) (r : Nat) :
    m.range r = (r * numWords k, r * numWords k + numWords k) := by
  rw [range, h]

variable {i read write : Nat}

theorem index_lt {w : Nat} (hr : r < n) (hi : i < w) : r * w + i < n * w := by
  have := Nat.mul_le_mul_right w (Nat.succ_le_of_lt hr)
  rw [Nat.succ_mul] at this
  omega

theorem Holds.word (h : m.Holds n k S) (hr : r < n) (hi : i < numWords k) :
    ∃ w, m.words[r * numWords k + i]? = some w ∧ m.word (r * numWords k + i) = .ok w ∧
      ∀ j < 64, w.getLsbD j = decide ((r, 64 * i + j) ∈ S) := by
  have hlt : r * numWords k + i < m.words.length := h.length ▸ index_lt hr hi
  have hget := getElem?_eq_getElem hlt
  refine ⟨_, hget, by rw [BitMatrix.word, hget]; rfl, fun j hj => ?_⟩
  rw [← h.cell_eq hr (by omega), ← bit_mul_add hget hj]
  congr 1
  rw [mul_add, add_assoc]

theorem new_holds (n k : Nat) : (new n k).Holds n k ∅ where
  rows := rfl
  columns := rfl
  length := length_replicate
  cell r _ c _ := by simp [new, bit_replicate_zero]
  lt p hp := absurd hp (Finset.notMem_empty p)

section
variable (h : m.Holds n k S)
include h

theorem Holds.assertCell (hr : r < n) (hc : c < k) : m.assertCell r c = .ok () := by
  simp [BitMatrix.assertCell, assert, h.rows, h.columns, hr, hc]

theorem Holds.contains (hr : r < n) (hc : c < k) : m.contains r c = .ok (decide ((r, c) ∈ S)) := by
  obtain ⟨w, -, hw, hbit⟩ := h.word hr (lt_numWords hc)
  rw [BitMatrix.contains, h.assertCell hr hc, range_eq h.columns, wordIndexAndMask_eq]
  dsimp only
  rw [ok_bind, hw, ok_bind, and_mask_ne_zero w (mod_lt c), hbit _ (mod_lt c), Nat.div_add_mod]

theorem Holds.set (hr : r < n) (hi : i < numWords k) {w : Word}
    {T : Finset (Nat × Nat)} (hT : ∀ p ∈ T, p.1 < n ∧ p.2 < k)
    (hword : ∀ j < 64, w.getLsbD j = decide ((r, 64 * i + j) ∈ T))
    (hother : ∀ p : Nat × Nat, ¬ (p.1 = r ∧ p.2 / 64 = i) → (p ∈ T ↔ p ∈ S)) :
    Holds ⟨m.numRows, m.numColumns, m.words.set (r * numWords k + i) w⟩ n k T where
  rows := h.rows
  columns := h.columns
  length := length_set.trans h.length
  lt := hT
  cell r' hr' c hc := by
    have hlt : r * numWords k + i < m.words.length := h.length ▸ index_lt hr hi
    have hdiv : (64 * (r' * numWords k) + c) / 64 = r' * numWords k + c / 64 := by omega
    have hmod : (64 * (r' * numWords k) + c) % 64 = c % 64 := by omega
    rw [bit_set hlt, hdiv, hmod]
    by_cases heq : r' = r ∧ c / 64 = i
    · obtain ⟨rfl, rfl⟩ := heq
      rw [if_pos rfl, hword _ (mod_lt c), decide_eq_true_iff, Nat.div_add_mod]
    · have hne : r' * numWords k + c / 64 ≠ r * numWords k + i := by
        intro hsum
        refine heq ?_
        have hc' : c / 64 < numWords k := by omega
        have hmodr := congrArg (· % numWords k) hsum
        have hpos : 0 < numWords k := Nat.zero_lt_of_lt hi
        simp only [Nat.mul_add_mod', Nat.mod_eq_of_lt hc', Nat.mod_eq_of_lt hi] at hmodr
        rw [hmodr, Nat.add_right_cancel_iff] at hsum
        exact ⟨Nat.eq_of_mul_eq_mul_right hpos hsum, hmodr⟩
      rw [if_neg hne, hother (r', c) heq, h.cell r' hr' c hc]

theorem Holds.insert (hr : r < n) (hc : c < k) :
    Turns n k (m.insert r c) S (Insert.insert (r, c) S) := by
  obtain ⟨w, -, hw, hbit⟩ := h.word hr (lt_numWords hc)
  have hset : Holds ⟨m.numRows, m.numColumns, m.words.set (r * numWords k + c / 64)
      (w ||| 1#64 <<< (c % 64))⟩ n k (Insert.insert (r, c) S) := by
    refine h.set hr (lt_numWords hc) (fun p hp => ?_) (fun j hj => ?_) fun p hp => ?_
    · rcases Finset.mem_insert.1 hp with rfl | hp
      exacts [⟨hr, hc⟩, h.lt p hp]
    · rw [BitVec.getLsbD_or, getLsbD_mask, hbit j hj, Bool.eq_iff_iff]
      have := mod_lt c
      have hiff : c % 64 = j ↔ 64 * (c / 64) + j = c := by omega
      simp [hiff, this, or_comm]
    · refine ⟨fun hT => (Finset.mem_insert.1 hT).resolve_left ?_, Finset.mem_insert_of_mem⟩
      rintro rfl
      exact hp ⟨rfl, rfl⟩
  refine ⟨w != w ||| 1#64 <<< (c % 64), _, ?_, hset, ?_⟩
  · rw [BitMatrix.insert, h.assertCell hr hc, range_eq h.columns, wordIndexAndMask_eq]
    dsimp only
    rw [ok_bind, hw, ok_bind]
  · have hmem : w.getLsbD (c % 64) = decide ((r, c) ∈ S) := by
      rw [hbit _ (mod_lt c), Nat.div_add_mod]
    rw [bne_iff_ne, Ne, Ne, Finset.insert_eq_self]
    refine not_congr ⟨fun heq => ?_, fun hin => ?_⟩
    · have := congrArg (·.getLsbD (c % 64)) heq
      simp only [BitVec.getLsbD_or, getLsbD_mask, mod_lt c, decide_true, Bool.and_true,
        Bool.or_true, hmem, decide_eq_true_iff] at this
      exact this
    · refine BitVec.eq_of_getLsbD_eq fun j hj => ?_
      rw [BitVec.getLsbD_or, getLsbD_mask]
      by_cases hjc : c % 64 = j
      · rw [← hjc, hmem, decide_eq_true hin, Bool.true_or]
      · rw [decide_eq_false hjc, Bool.and_false, Bool.or_false]

end

/-- What the first `i` iterations of `union_rows` have added. -/
def added (S : Finset (Nat × Nat)) (read write i : Nat) : Finset (Nat × Nat) :=
  S ∪ (S.filter fun p => p.1 = read ∧ p.2 < 64 * i).image fun p => (write, p.2)

theorem mem_added {p : Nat × Nat} :
    p ∈ added S read write i ↔ p ∈ S ∨ (p.1 = write ∧ (read, p.2) ∈ S ∧ p.2 < 64 * i) := by
  rw [added, Finset.mem_union, Finset.mem_image]
  refine or_congr_right ⟨?_, ?_⟩
  · rintro ⟨⟨_, c⟩, hq, rfl⟩
    obtain ⟨hin, rfl, hlt⟩ := Finset.mem_filter.1 hq
    exact ⟨rfl, hin, hlt⟩
  · rintro ⟨hp, hq, hlt⟩
    exact ⟨(read, p.2), Finset.mem_filter.2 ⟨hq, rfl, hlt⟩, Prod.ext hp.symm rfl⟩

theorem unionWord_spec (hread : read < n) (hwrite : write < n)
    (hi : i < numWords k) {changed : Bool} (hm : m.Holds n k (added S read write i))
    (hchanged : changed = true ↔ added S read write i ≠ S) (hS : ∀ p ∈ S, p.1 < n ∧ p.2 < k) :
    ∃ st, unionWord (read * numWords k) (write * numWords k) (changed, m) i = .ok st ∧
      st.2.Holds n k (added S read write (i + 1)) ∧
        (st.1 = true ↔ added S read write (i + 1) ≠ S) := by
  obtain ⟨w, -, hw, hwbit⟩ := hm.word hwrite hi
  obtain ⟨v, -, hv, hvbit⟩ := hm.word hread hi
  -- The words that are read have not been written to, or hold the bits that they had before.
  have hold : ∀ r j, (r, 64 * i + j) ∈ added S read write i ↔ (r, 64 * i + j) ∈ S := by
    intro r j
    rw [mem_added]
    refine or_iff_left fun h => ?_
    omega
  simp only [hold] at hwbit hvbit
  have hnew : ∀ j < 64, (w ||| v).getLsbD j =
      decide ((write, 64 * i + j) ∈ added S read write (i + 1)) := by
    intro j hj
    rw [BitVec.getLsbD_or, hwbit j hj, hvbit j hj, Bool.eq_iff_iff, decide_eq_true_iff, mem_added]
    have hlt : 64 * i + j < 64 * (i + 1) := by omega
    simp [hlt]
  refine ⟨_, by rw [unionWord]; dsimp only; rw [hw, ok_bind, hv, ok_bind], ?_, ?_⟩
  · refine hm.set hwrite hi (fun p hp => ?_) hnew fun p hp => ?_
    · rcases mem_added.1 hp with hp | ⟨rfl, hp, -⟩
      exacts [hS p hp, ⟨hwrite, (hS _ hp).2⟩]
    · rw [mem_added, mem_added]
      refine or_congr_right (and_congr_right fun hrow => and_congr_right fun _ => ?_)
      omega
  · have hsub : ∀ i, S ⊆ added S read write i := fun i p hp => mem_added.2 (.inl hp)
    have hword : (w != w ||| v) = true ↔ ∃ j < 64, (read, 64 * i + j) ∈ S ∧
        (write, 64 * i + j) ∉ S := by
      rw [bne_iff_ne, Ne, BitVec.eq_of_getLsbD_eq_iff]
      push Not
      refine exists_congr fun j => ⟨?_, ?_⟩
      · rintro ⟨hj, hne⟩
        rw [BitVec.getLsbD_or, hwbit j hj, hvbit j hj] at hne
        by_cases hmem : (write, 64 * i + j) ∈ S
        · simp [hmem] at hne
        · exact ⟨hj, by simpa [hmem] using hne, hmem⟩
      · rintro ⟨hj, hmem, hnot⟩
        refine ⟨hj, ?_⟩
        rw [BitVec.getLsbD_or, hwbit j hj, hvbit j hj]
        simp [hmem, hnot]
    have hne : ∀ i, added S read write i ≠ S ↔ ∃ c < 64 * i, (read, c) ∈ S ∧ (write, c) ∉ S := by
      intro i
      rw [Ne, ← (hsub i).ge_iff_eq', Finset.not_subset]
      constructor
      · rintro ⟨p, hp, hnot⟩
        obtain ⟨rfl, hin, hlt⟩ := (mem_added.1 hp).resolve_left hnot
        exact ⟨p.2, hlt, hin, hnot⟩
      · rintro ⟨c, hlt, hin, hnot⟩
        exact ⟨(write, c), mem_added.2 (.inr ⟨rfl, hin, hlt⟩), hnot⟩
    rw [Bool.or_eq_true, hchanged, hword, hne, hne]
    constructor
    · rintro (⟨c, hc, h⟩ | ⟨j, hj, h⟩)
      · exact ⟨c, by omega, h⟩
      · exact ⟨64 * i + j, by omega, h⟩
    · rintro ⟨c, hc, h⟩
      by_cases hlt : c < 64 * i
      · exact .inl ⟨c, hlt, h⟩
      · refine .inr ⟨c - 64 * i, by omega, ?_⟩
        rwa [Nat.add_sub_cancel' (Nat.le_of_not_lt hlt)]

theorem Holds.mem_added (h : m.Holds n k S) {p : Nat × Nat} :
    p ∈ added S read write (numWords k) ↔ p ∈ S ∨ (p.1 = write ∧ (read, p.2) ∈ S) := by
  rw [BitMatrix.mem_added]
  refine or_congr_right (and_congr_right fun _ => and_iff_left_of_imp fun hp => ?_)
  exact lt_mul_numWords (h.lt _ hp).2

theorem index_of_range {w : Nat} {pre post : List Nat} (hl : List.range w = pre ++ i :: post) :
    i = pre.length := by
  have hget := congrArg (·[pre.length]?) hl
  simp only [getElem?_append_right le_rfl, Nat.sub_self, getElem?_cons_zero] at hget
  obtain ⟨hlt, heq⟩ := List.getElem?_eq_some_iff.1 hget
  rw [← heq, List.getElem_range]

theorem Holds.unionRows (h : m.Holds n k S) (hread : read < n) (hwrite : write < n) :
    Turns n k (m.unionRows read write) S (added S read write (numWords k)) := by
  have hzero : added S read write 0 = S := by
    ext p
    rw [BitMatrix.mem_added]
    simp
  obtain ⟨⟨changed, m'⟩, hrun, hm', hchanged⟩ := @foldlM_start _ _
    (unionWord (read * numWords k) (write * numWords k))
    (fun pre st => st.2.Holds n k (added S read write pre.length) ∧
      (st.1 = true ↔ added S read write pre.length ≠ S))
    (List.range (numWords k)) (false, m) ⟨by rwa [length_nil, hzero], by simp [hzero]⟩
    fun pre i post st hl hst => by
      have hi : i < numWords k := mem_range.1 (hl ▸ by simp)
      obtain rfl := index_of_range hl
      rw [length_append, length_singleton]
      exact unionWord_spec hread hwrite hi hst.1 hst.2 h.lt
  rw [length_range] at hm' hchanged
  refine ⟨changed, m', ?_, hm', hchanged⟩
  rw [BitMatrix.unionRows, range_eq h.columns, range_eq h.columns]
  dsimp only
  rw [Nat.add_sub_cancel_left, ← hrun]
  simp [assert, h.rows, hread, hwrite]

theorem pushBits_eq (base : Nat) (v : Word) : ∀ (j l : Nat) (result : List Nat),
    pushBits base (range' j l) (v >>> j) result =
      result ++ ((range' j l).filter v.getLsbD).map (64 * base + ·)
  | j, 0, result => by simp [pushBits]
  | j, l + 1, result => by
    have hshift : v >>> j >>> 1 = v >>> (j + 1) := by rw [BitVec.shiftRight_add]
    have hbit : (v >>> j &&& 1#64 ≠ 0#64) ↔ v.getLsbD j = true := by
      have := and_mask_ne_zero (v >>> j) (j := 0) (by decide)
      rw [BitVec.getLsbD_ushiftRight, add_zero, Bool.eq_iff_iff, bne_iff_ne] at this
      exact this
    rw [range'_succ, pushBits, hshift, pushBits_eq base v (j + 1) l]
    by_cases hzero : v >>> j = 0#64
    · have hnone : (j :: range' (j + 1) l).filter v.getLsbD = [] := by
        refine filter_eq_nil_iff.2 fun i hi hset => ?_
        have hge : j ≤ i := by
          rcases mem_cons.1 hi with rfl | hi
          exacts [le_rfl, (Nat.le_succ j).trans (mem_range'_1.1 hi).1]
        have := congrArg (·.getLsbD (i - j)) hzero
        simp only [BitVec.getLsbD_ushiftRight, Nat.add_sub_cancel' hge, hset,
          BitVec.getLsbD_zero] at this
        cases this
      rw [if_pos hzero, hnone, map_nil, append_nil]
    · rw [if_neg hzero, filter_cons]
      by_cases hset : v.getLsbD j = true
      · rw [if_pos (hbit.2 hset), if_pos hset, map_cons, append_assoc, mul_comm base]
        rfl
      · rw [if_neg (mt hbit.1 hset), if_neg hset]

theorem Holds.intersectRows (h : m.Holds n k S) {row1 row2 : Nat} (h1 : row1 < n)
    (h2 : row2 < n) : ∃ l, m.intersectRows row1 row2 = .ok l ∧ l.Pairwise (· < ·) ∧
      ∀ c, c ∈ l ↔ (row1, c) ∈ S ∧ (row2, c) ∈ S := by
  let shared (i : Nat) : List Nat :=
    (List.range (64 * i)).filter fun c => decide ((row1, c) ∈ S ∧ (row2, c) ∈ S)
  have hword : ∀ i < numWords k,
      m.intersectWord (row1 * numWords k) (row2 * numWords k) (shared i) i =
        .ok (shared (i + 1)) := by
    intro i hi
    obtain ⟨w, -, hw, hwbit⟩ := h.word h1 hi
    obtain ⟨v, -, hv, hvbit⟩ := h.word h2 hi
    have hpush := pushBits_eq i (w &&& v) 0 64 (shared i)
    rw [BitVec.ushiftRight_zero, ← range_eq_range'] at hpush
    rw [intersectWord, hw, ok_bind, hv, ok_bind, WORD_BITS, hpush]
    refine congrArg Except.ok ?_
    dsimp only [shared]
    rw [Nat.mul_succ, range_add, filter_append, filter_map]
    refine congrArg (_ ++ List.map _ ·) (filter_congr fun j hj => ?_)
    have hj := mem_range.1 hj
    rw [BitVec.getLsbD_and, hwbit j hj, hvbit j hj, ← Bool.decide_and]
    rfl
  obtain ⟨l, hrun, hl⟩ := @foldlM_start _ _
    (m.intersectWord (row1 * numWords k) (row2 * numWords k))
    (fun pre result => result = shared pre.length) (List.range (numWords k)) [] rfl
    fun pre i post result hl hresult => by
      have hi : i < numWords k := mem_range.1 (hl ▸ by simp)
      obtain rfl := index_of_range hl
      exact ⟨_, hresult ▸ hword _ hi, by rw [length_append, length_singleton]⟩
  rw [length_range] at hl
  refine ⟨l, ?_, ?_, fun c => ?_⟩
  · rw [BitMatrix.intersectRows, range_eq h.columns, range_eq h.columns]
    dsimp only
    rw [Nat.add_sub_cancel_left, hrun]
    simp [assert, h.rows, h1, h2]
  · rw [hl]
    exact pairwise_lt_range.filter _
  · rw [hl, mem_filter, decide_eq_true_iff, mem_range]
    exact and_iff_right_of_imp fun hc => lt_mul_numWords (h.lt _ hc.1).2

theorem Holds.bit_row (h : m.Holds n k S) (hr : r < n) (c : Nat) :
    bit ((m.words.drop (r * numWords k)).take (numWords k)) c = true ↔ (r, c) ∈ S := by
  by_cases hc : c / 64 < numWords k
  · obtain ⟨w, hget, -, hbit⟩ := h.word hr hc
    have hrow : ((m.words.drop (r * numWords k)).take (numWords k))[c / 64]? = some w := by
      rw [getElem?_take, if_pos hc, getElem?_drop, hget]
    rw [bit_of_lt hrow, hbit _ (mod_lt c), Nat.div_add_mod, decide_eq_true_iff]
  · rw [bit_of_le ((length_take_le _ _).trans (Nat.le_of_not_lt hc))]
    exact iff_of_false Bool.false_ne_true fun hin => hc (lt_numWords (h.lt _ hin).2)

theorem Holds.iter (h : m.Holds n k S) (hr : r < n) (hk : k < 2 ^ 64) :
    ∃ l, m.iter r = .ok l ∧ l.Pairwise (· < ·) ∧ ∀ c, c ∈ l ↔ (r, c) ∈ S := by
  let row : BitSet := ⟨k, (m.words.drop (r * numWords k)).take (numWords k)⟩
  have hlen : row.words.length = numWords k := by
    rw [length_take, length_drop, h.length]
    have := Nat.mul_le_mul_right (numWords k) (Nat.succ_le_of_lt hr)
    rw [Nat.succ_mul] at this
    omega
  have hrow : row.Holds k ((S.filter fun p => p.1 = r).image Prod.snd) := by
    refine ⟨rfl, hlen, fun c => ?_, fun c hc => ?_⟩
    · rw [h.bit_row hr, Finset.mem_image]
      constructor
      · exact fun hc => ⟨(r, c), Finset.mem_filter.2 ⟨hc, rfl⟩, rfl⟩
      · rintro ⟨p, hp, rfl⟩
        obtain ⟨hin, rfl⟩ := Finset.mem_filter.1 hp
        exact hin
    · obtain ⟨p, hp, rfl⟩ := Finset.mem_image.1 hc
      exact (h.lt p (Finset.mem_filter.1 hp).1).2
  obtain ⟨l, hrun, hsorted, hmem⟩ := hrow.iter hk
  refine ⟨l, ?_, hsorted, fun c => ?_⟩
  · rw [BitMatrix.iter, range_eq h.columns]
    dsimp only
    rw [Nat.add_sub_cancel_left]
    simp only [assert, h.rows, hr, decide_true, if_true, ok_bind]
    exact hrun
  · rw [hmem, ← hrow.bit, h.bit_row hr]

end BitMatrix

end Tortis.Index
