import Tortis.Lib.Outcome

/-!
# The mask of defined bytes

`UndefMask` of `librustc/mir/interpret/allocation.rs`: one bit for each byte of an allocation, in
blocks of 64 bits. Ranges are set with masks on the blocks at their ends and whole blocks between
them; the result is described bit by bit (`setRangeInbounds_spec`, `setRange_spec`).
-/

namespace Tortis.Interpret

open List Outcome

structure UndefMask where
  blocks : List (BitVec 64)
  len : Nat
deriving DecidableEq

namespace UndefMask

def BLOCK_SIZE : Nat := 64

def bitIndex (bits : Nat) : Nat × Nat := (bits / BLOCK_SIZE, bits % BLOCK_SIZE)

section
variable (m : UndefMask)

/-- An assignment to `self.blocks[block]`. -/
def modifyBlock (block : Nat) (f : BitVec 64 → BitVec 64) : Outcome UndefMask := do
  let b ← expect "index out of bounds" m.blocks[block]?
  .ok { m with blocks := m.blocks.set block (f b) }

/-- Sets the bits of a block that are in a range to `1`, or to `0`. -/
def fill (newState : Bool) (range b : BitVec 64) : BitVec 64 :=
  if newState then b ||| range else b &&& ~~~range

def get (i : Nat) : Outcome Bool := do
  let (block, bit) := bitIndex i
  let b ← expect "index out of bounds" m.blocks[block]?
  .ok (b &&& 1#64 <<< bit != 0#64)

/-- The last block of a range that crosses blocks. -/
def fillLast (blockb bitb : Nat) (newState : Bool) : Outcome UndefMask :=
  if bitb ≠ 0 then m.modifyBlock blockb (fill newState (BitVec.allOnes 64 >>> (64 - bitb)))
  else .ok m

def setRangeInbounds (start stop : Nat) (newState : Bool) : Outcome UndefMask := do
  let (blocka, bita) := bitIndex start
  let (blockb, bitb) := bitIndex stop
  if blocka = blockb then
    -- all bits except the first `bita`, without the last `64 - bitb`
    let range :=
      if bitb = 0 then BitVec.allOnes 64 <<< bita
      else (BitVec.allOnes 64 <<< bita) &&& (BitVec.allOnes 64 >>> (64 - bitb))
    m.modifyBlock blocka (fill newState range)
  else
    let m ← m.modifyBlock blocka (fill newState (BitVec.allOnes 64 <<< bita))
    let m ← m.fillLast blockb bitb newState
    (range' (blocka + 1) (blockb - (blocka + 1))).foldlM (fun m block =>
      m.modifyBlock block fun _ => if newState then BitVec.allOnes 64 else 0#64) m

def grow (amount : Nat) (newState : Bool) : Outcome UndefMask :=
  if amount = 0 then .ok m
  else
    let unusedTrailingBits := m.blocks.length * BLOCK_SIZE - m.len
    let additionalBlocks := if amount > unusedTrailingBits then amount / BLOCK_SIZE + 1 else 0
    let start := m.len
    setRangeInbounds ⟨m.blocks ++ replicate additionalBlocks 0#64, m.len + amount⟩ start
      (start + amount) newState

def new (size : Nat) (state : Bool) : Outcome UndefMask :=
  grow ⟨[], 0⟩ size state

def setRange (start stop : Nat) (newState : Bool) : Outcome UndefMask := do
  let m ← if stop > m.len then m.grow (stop - m.len) newState else .ok m
  m.setRangeInbounds start stop newState

def setBit (block bit : Nat) (newState : Bool) : Outcome UndefMask :=
  m.modifyBlock block (fill newState (1#64 <<< bit))

def set (i : Nat) (newState : Bool) : Outcome UndefMask :=
  let (block, bit) := bitIndex i
  m.setBit block bit newState

/-- The first byte among the given ones that is not defined. -/
def findUndef (m : UndefMask) : List Nat → Outcome (Option Nat)
  | [] => .ok none
  | i :: rest => do
    let defined ← m.get i
    if defined then m.findUndef rest else .ok (some i)

def isRangeDefined (start stop : Nat) : Outcome (Except Nat Unit) :=
  if stop > m.len then .ok (.error m.len)
  else do
    let idx ← m.findUndef (range' start (stop - start))
    match idx with
    | some idx => .ok (.error idx)
    | none => .ok (.ok ())

/-! ## Bits -/

def bit (i : Nat) : Bool := (m.blocks[i / 64]?.getD 0#64).getLsbD (i % 64)

/-- The blocks have room for all bits. -/
def WF : Prop := m.len ≤ 64 * m.blocks.length

end

variable {m : UndefMask} {start stop : Nat}

theorem get_eq {i : Nat} (h : i < 64 * m.blocks.length) : m.get i = .ok (m.bit i) := by
  have hlt : i / 64 < m.blocks.length := by omega
  have hmod : i % 64 < 64 := Nat.mod_lt _ (by decide)
  have hand : ∀ b : BitVec 64, (b &&& 1#64 <<< (i % 64) != 0#64) = b.getLsbD (i % 64) := by
    intro b
    have htwo : b &&& 1#64 <<< (i % 64) =
        if b.getLsbD (i % 64) then BitVec.twoPow 64 (i % 64) else 0#64 := BitVec.and_twoPow b _
    have hne : BitVec.twoPow 64 (i % 64) ≠ 0#64 := by
      intro hzero
      have := congrArg (·.getLsbD (i % 64)) hzero
      simp [hmod] at this
    rw [htwo]
    cases b.getLsbD (i % 64) <;> simp [hne]
  simp [get, bitIndex, BLOCK_SIZE, bit, hlt, hand]

theorem getLsbD_fill (newState : Bool) (range b : BitVec 64) (i : Nat) (hi : i < 64) :
    (fill newState range b).getLsbD i = if range.getLsbD i then newState else b.getLsbD i := by
  cases newState with
  | true =>
    simp only [fill, if_true, BitVec.getLsbD_or]
    cases range.getLsbD i <;> simp
  | false =>
    simp only [fill, Bool.false_eq_true, if_false, BitVec.getLsbD_and, BitVec.getLsbD_not, hi,
      decide_true, Bool.true_and]
    cases range.getLsbD i <;> simp

theorem modifyBlock_spec {block : Nat} (f : BitVec 64 → BitVec 64) (h : block < m.blocks.length) :
    ∃ m', m.modifyBlock block f = .ok m' ∧ m'.len = m.len ∧ m'.blocks.length = m.blocks.length ∧
      ∀ i, m'.bit i = if i / 64 = block then (f (m.blocks[block]?.getD 0#64)).getLsbD (i % 64)
        else m.bit i := by
  refine ⟨{ m with blocks := m.blocks.set block (f m.blocks[block]) }, ?_, rfl, by simp, ?_⟩
  · simp [modifyBlock, h]
  · intro i
    simp only [bit, getElem?_set]
    by_cases hi : i / 64 = block
    · simp [hi, h]
    · simp [hi, Ne.symm hi]

theorem getLsbD_shiftLeft_allOnes {i n : Nat} (hi : i < 64) :
    (BitVec.allOnes 64 <<< n).getLsbD i = decide (n ≤ i) := by
  rw [BitVec.getLsbD_shiftLeft, BitVec.getLsbD_allOnes]
  have : i - n < 64 := by omega
  simp only [hi, this, decide_true, Bool.true_and, Bool.and_true, ← decide_not, not_lt]

theorem getLsbD_ushiftRight_allOnes {i n : Nat} (hn : n ≤ 64) :
    (BitVec.allOnes 64 >>> (64 - n)).getLsbD i = decide (i < n) := by
  rw [BitVec.getLsbD_ushiftRight, BitVec.getLsbD_allOnes, decide_eq_decide]
  omega

theorem fillBlocks_spec (newState : Bool) : ∀ {n a : Nat} {m : UndefMask},
    a + n ≤ m.blocks.length →
    ∃ m', (range' a n).foldlM (fun m block =>
        modifyBlock m block fun _ => if newState then BitVec.allOnes 64 else 0#64) m = .ok m' ∧
      m'.len = m.len ∧ m'.blocks.length = m.blocks.length ∧
      ∀ i, m'.bit i = if a ≤ i / 64 ∧ i / 64 < a + n then newState else m.bit i
  | 0, a, m, _ => ⟨m, rfl, rfl, rfl, fun i => by rw [if_neg (by omega)]⟩
  | n + 1, a, m, h => by
    obtain ⟨m1, hrun1, hlen1, hblocks1, hbit1⟩ := modifyBlock_spec (m := m)
      (fun _ => if newState then BitVec.allOnes 64 else 0#64) (show a < m.blocks.length by omega)
    obtain ⟨m2, hrun2, hlen2, hblocks2, hbit2⟩ := fillBlocks_spec newState (n := n) (a := a + 1)
      (m := m1) (by omega)
    refine ⟨m2, ?_, hlen2.trans hlen1, hblocks2.trans hblocks1, fun i => ?_⟩
    · rw [range'_succ, foldlM_cons, hrun1]
      exact hrun2
    · have hmod : i % 64 < 64 := Nat.mod_lt _ (by decide)
      rw [hbit2, hbit1]
      by_cases hi : i / 64 = a
      · have hbefore : ¬ (a + 1 ≤ i / 64 ∧ i / 64 < a + 1 + n) := by omega
        have hin : a ≤ i / 64 ∧ i / 64 < a + (n + 1) := by omega
        rw [if_neg hbefore, if_pos hi, if_pos hin]
        cases newState with
        | true => rw [if_pos rfl, BitVec.getLsbD_allOnes, decide_eq_true hmod]
        | false => rw [if_neg Bool.false_ne_true, BitVec.getLsbD_zero]
      · rw [if_neg hi]
        congr 1
        simp only [eq_iff_iff]
        omega

theorem setRangeInbounds_spec (newState : Bool) (hlt : start < stop)
    (hstop : stop ≤ 64 * m.blocks.length) :
    ∃ m', m.setRangeInbounds start stop newState = .ok m' ∧ m'.len = m.len ∧
      m'.blocks.length = m.blocks.length ∧
      ∀ i, m'.bit i = if start ≤ i ∧ i < stop then newState else m.bit i := by
  have hbitb : stop % 64 < 64 := Nat.mod_lt _ (by decide)
  by_cases hblock : start / 64 = stop / 64
  · have hne : stop % 64 ≠ 0 := by omega
    obtain ⟨m', hrun, hlen, hblocks, hbit⟩ := modifyBlock_spec (m := m)
      (fill newState (BitVec.allOnes 64 <<< (start % 64) &&&
        BitVec.allOnes 64 >>> (64 - stop % 64)))
      (show start / 64 < m.blocks.length by omega)
    refine ⟨m', ?_, hlen, hblocks, fun i => ?_⟩
    · rw [setRangeInbounds]
      refine (if_pos hblock).trans (Eq.trans ?_ hrun)
      exact congrArg (fun range => m.modifyBlock (start / 64) (fill newState range)) (if_neg hne)
    · have hmod : i % 64 < 64 := Nat.mod_lt _ (by decide)
      rw [hbit, getLsbD_fill _ _ _ _ hmod, BitVec.getLsbD_and, getLsbD_shiftLeft_allOnes hmod,
        getLsbD_ushiftRight_allOnes (le_of_lt hbitb), ← Bool.decide_and]
      by_cases hi : i / 64 = start / 64
      · rw [if_pos hi, ← hi]
        simp only [decide_eq_true_eq, bit]
        congr 1
        simp only [eq_iff_iff]
        omega
      · rw [if_neg hi, if_neg (by omega)]
  · obtain ⟨m1, hrun1, hlen1, hblocks1, hbit1⟩ := modifyBlock_spec (m := m)
      (fill newState (BitVec.allOnes 64 <<< (start % 64)))
      (show start / 64 < m.blocks.length by omega)
    -- the block of the end is touched only when the range has bits in it
    obtain ⟨m2, hrun2, hlen2, hblocks2, hbit2⟩ : ∃ m2,
        m1.fillLast (stop / 64) (stop % 64) newState = .ok m2 ∧ m2.len = m1.len ∧
        m2.blocks.length = m1.blocks.length ∧
        ∀ i, m2.bit i = if i / 64 = stop / 64 ∧ i % 64 < stop % 64 then newState else m1.bit i := by
      by_cases hzero : stop % 64 = 0
      · refine ⟨m1, by rw [fillLast, if_neg (not_not.2 hzero)], rfl, rfl, fun i => ?_⟩
        rw [if_neg (by omega)]
      · obtain ⟨m2, hrun2, hlen2, hblocks2, hbit2⟩ := modifyBlock_spec (m := m1)
          (fill newState (BitVec.allOnes 64 >>> (64 - stop % 64)))
          (show stop / 64 < m1.blocks.length by omega)
        refine ⟨m2, by rw [fillLast, if_pos hzero, hrun2], hlen2, hblocks2, fun i => ?_⟩
        have hmod : i % 64 < 64 := Nat.mod_lt _ (by decide)
        rw [hbit2, getLsbD_fill _ _ _ _ hmod, getLsbD_ushiftRight_allOnes (le_of_lt hbitb)]
        by_cases hi : i / 64 = stop / 64
        · simp [hi, bit]
        · simp [hi]
    obtain ⟨m3, hrun3, hlen3, hblocks3, hbit3⟩ := fillBlocks_spec newState (m := m2)
      (a := start / 64 + 1) (n := stop / 64 - (start / 64 + 1)) (by omega)
    refine ⟨m3, ?_, by omega, by omega, fun i => ?_⟩
    · refine (if_neg hblock).trans (bind_eq_ok.2 ⟨m1, hrun1, ?_⟩)
      exact bind_eq_ok.2 ⟨m2, hrun2, hrun3⟩
    · have hmod : i % 64 < 64 := Nat.mod_lt _ (by decide)
      rw [hbit3, hbit2, hbit1, getLsbD_fill _ _ _ _ hmod, getLsbD_shiftLeft_allOnes hmod]
      by_cases hi : start ≤ i ∧ i < stop
      · rw [if_pos hi]
        by_cases hmid : start / 64 + 1 ≤ i / 64 ∧ i / 64 < stop / 64
        · rw [if_pos (by omega)]
        · rw [if_neg (by omega)]
          by_cases hend : i / 64 = stop / 64
          · rw [if_pos (by omega)]
          · rw [if_neg (by omega), if_pos (by omega), if_pos (by simp; omega)]
      · rw [if_neg hi, if_neg (by omega), if_neg (by omega)]
        by_cases hfirst : i / 64 = start / 64
        · rw [if_pos hfirst, if_neg (by simp; omega), ← hfirst, bit]
        · rw [if_neg hfirst]

theorem set_spec (newState : Bool) {j : Nat} (hj : j < 64 * m.blocks.length) :
    ∃ m', m.set j newState = .ok m' ∧ m'.len = m.len ∧ m'.blocks.length = m.blocks.length ∧
      ∀ i, m'.bit i = if i = j then newState else m.bit i := by
  obtain ⟨m', hrun, hlen, hblocks, hbit⟩ := modifyBlock_spec (m := m)
    (fill newState (1#64 <<< (j % 64))) (show j / 64 < m.blocks.length by omega)
  refine ⟨m', hrun, hlen, hblocks, fun i => ?_⟩
  have hmod : i % 64 < 64 := Nat.mod_lt _ (by decide)
  have hmask : (1#64 <<< (j % 64)).getLsbD (i % 64) = decide (i % 64 = j % 64) := by
    rw [← BitVec.twoPow_eq, BitVec.getLsbD_twoPow, decide_eq_true (Nat.mod_lt j (by decide)),
      Bool.true_and, decide_eq_decide]
    exact eq_comm
  rw [hbit, getLsbD_fill _ _ _ _ hmod, hmask]
  by_cases hi : i / 64 = j / 64
  · rw [if_pos hi, ← hi]
    simp only [decide_eq_true_eq, bit]
    congr 1
    simp only [eq_iff_iff]
    omega
  · rw [if_neg hi, if_neg (by omega)]

theorem bit_append_zeros (blocks : List (BitVec 64)) (n len len' i : Nat) :
    bit ⟨blocks ++ replicate n 0#64, len'⟩ i = bit ⟨blocks, len⟩ i := by
  simp only [bit, getElem?_append, getElem?_replicate]
  by_cases hi : i / 64 < blocks.length
  · rw [if_pos hi]
  · rw [if_neg hi, getElem?_eq_none (Nat.le_of_not_lt hi)]
    split <;> rfl

theorem grow_spec (hm : m.WF) (amount : Nat) (newState : Bool) :
    ∃ m', m.grow amount newState = .ok m' ∧ m'.len = m.len + amount ∧ m'.WF ∧
      ∀ i, m'.bit i = if m.len ≤ i ∧ i < m.len + amount then newState else m.bit i := by
  have hle : m.len ≤ 64 * m.blocks.length := hm
  rw [grow]
  by_cases hzero : amount = 0
  · exact ⟨m, if_pos hzero, by omega, hm, fun i => (if_neg (by omega)).symm⟩
  · rw [if_neg hzero]
    dsimp only
    generalize hadd : (if amount > m.blocks.length * BLOCK_SIZE - m.len then amount / BLOCK_SIZE + 1
      else 0) = additional
    have hroom : m.len + amount ≤ 64 * (m.blocks.length + additional) := by
      rw [← hadd, BLOCK_SIZE]
      split <;> omega
    obtain ⟨m', hrun, hlen, hblocks, hbit⟩ := setRangeInbounds_spec
      (m := ⟨m.blocks ++ replicate additional 0#64, m.len + amount⟩) newState
      (show m.len < m.len + amount by omega)
      (by rw [length_append, length_replicate]; exact hroom)
    rw [length_append, length_replicate] at hblocks
    refine ⟨m', hrun, hlen, ?_, fun i => ?_⟩
    · rw [WF, hlen, hblocks]
      exact hroom
    · rw [hbit, bit_append_zeros m.blocks additional m.len]

theorem setRange_grow_spec (hm : m.WF) (newState : Bool) (hlt : start < stop) :
    ∃ m', m.setRange start stop newState = .ok m' ∧ m'.len = max m.len stop ∧ m'.WF ∧
      ∀ i, m'.bit i = if (start ≤ i ∨ m.len ≤ i) ∧ i < stop then newState else m.bit i := by
  obtain ⟨m1, hrun1, hlen1, hm1, hbit1⟩ : ∃ m1 : UndefMask,
      m.setRange start stop newState = m1.setRangeInbounds start stop newState ∧
        m1.len = max m.len stop ∧ m1.WF ∧
        ∀ i, m1.bit i = if m.len ≤ i ∧ i < stop then newState else m.bit i := by
    rw [setRange]
    by_cases hstop : stop > m.len
    · obtain ⟨m1, hrun1, hlen1, hm1, hbit1⟩ := grow_spec hm (stop - m.len) newState
      rw [Nat.add_sub_cancel' (le_of_lt hstop)] at hlen1 hbit1
      exact ⟨m1, by rw [if_pos hstop, hrun1]; rfl, by omega, hm1, hbit1⟩
    · exact ⟨m, if_neg hstop, by omega, hm, fun i => (if_neg (by omega)).symm⟩
  have hin : stop ≤ m1.len := by omega
  obtain ⟨m2, hrun2, hlen2, hblocks2, hbit2⟩ :=
    setRangeInbounds_spec (m := m1) newState hlt (le_trans hin hm1)
  refine ⟨m2, hrun1.trans hrun2, hlen2.trans hlen1, ?_, fun i => ?_⟩
  · rw [WF, hlen2, hblocks2]
    exact hm1
  · rw [hbit2, hbit1]
    by_cases hi : start ≤ i ∧ i < stop
    · rw [if_pos hi, if_pos ⟨.inl hi.1, hi.2⟩]
    · rw [if_neg hi]
      congr 1
      simp only [eq_iff_iff]
      omega

theorem setRange_spec (hm : m.WF) (newState : Bool) (hlt : start < stop) (hstop : stop ≤ m.len) :
    ∃ m', m.setRange start stop newState = .ok m' ∧ m'.len = m.len ∧ m'.WF ∧
      ∀ i, m'.bit i = if start ≤ i ∧ i < stop then newState else m.bit i := by
  obtain ⟨m', hrun, hlen, hm', hbit⟩ := setRange_grow_spec hm newState hlt
  refine ⟨m', hrun, by omega, hm', fun i => ?_⟩
  rw [hbit]
  congr 1
  simp only [eq_iff_iff]
  omega

theorem new_spec (size : Nat) (state : Bool) :
    ∃ m, new size state = .ok m ∧ m.len = size ∧ m.WF ∧ ∀ i < size, m.bit i = state := by
  obtain ⟨m, hrun, hlen, hm, hbit⟩ := grow_spec (m := ⟨[], 0⟩) (Nat.zero_le _) size state
  simp only [zero_add] at hlen hbit
  exact ⟨m, hrun, hlen, hm, fun i hi => by rw [hbit, if_pos ⟨Nat.zero_le i, hi⟩]⟩

theorem findUndef_eq : ∀ {l : List Nat}, (∀ i ∈ l, i < 64 * m.blocks.length) →
    m.findUndef l = .ok (l.find? fun i => !m.bit i)
  | [], _ => rfl
  | i :: l, h => by
    rw [findUndef, get_eq (h i (.head _)), ok_bind]
    cases hi : m.bit i with
    | true =>
      rw [if_pos rfl, findUndef_eq fun j hj => h j (.tail _ hj), find?_cons_of_neg (by simp [hi])]
    | false => rw [if_neg Bool.false_ne_true, find?_cons_of_pos (by simp [hi])]

theorem isRangeDefined_eq (hm : m.WF) (hstop : stop ≤ m.len) :
    m.isRangeDefined start stop =
      match (range' start (stop - start)).find? fun i => !m.bit i with
      | some i => .ok (.error i)
      | none => .ok (.ok ()) := by
  rw [isRangeDefined, if_neg (Nat.not_lt.2 hstop), findUndef_eq, ok_bind]
  intro i hi
  rw [mem_range'_1] at hi
  have : m.len ≤ 64 * m.blocks.length := hm
  omega

theorem isRangeDefined_iff (hm : m.WF) (hstop : stop ≤ m.len) :
    (m.isRangeDefined start stop = .ok (.ok ()) ↔ ∀ i, start ≤ i → i < stop → m.bit i = true) ∧
      ∀ i, m.isRangeDefined start stop = .ok (.error i) ↔ start ≤ i ∧ i < stop ∧ m.bit i = false ∧
        ∀ j, start ≤ j → j < i → m.bit j = true := by
  rw [isRangeDefined_eq hm hstop]
  split
  · rename_i k hk
    simp only [find?_range'_eq_some, mem_range'_1, Bool.not_eq_true', Bool.not_not] at hk
    obtain ⟨hbit, hmem, hfirst⟩ := hk
    refine ⟨⟨nofun, fun h => ?_⟩, fun i => ⟨fun h => ?_, fun ⟨hi, hlt, hi', hmin⟩ => ?_⟩⟩
    · simp [h k hmem.1 (by omega)] at hbit
    · obtain rfl : k = i := by simpa using h
      exact ⟨hmem.1, by omega, hbit, hfirst⟩
    · rcases lt_trichotomy k i with hki | rfl | hki
      · simp [hmin k hmem.1 hki] at hbit
      · rfl
      · simp [hfirst i hi hki] at hi'
  · rename_i hnone
    simp only [find?_range'_eq_none, Bool.not_not] at hnone
    refine ⟨⟨fun _ i hi hlt => hnone i hi (by omega), fun _ => rfl⟩, fun i => ⟨nofun, ?_⟩⟩
    rintro ⟨hi, hlt, hi', -⟩
    simp [hnone i hi (by omega)] at hi'

theorem isRangeDefined_eq_ok (hm : m.WF) (hstop : stop ≤ m.len)
    (h : ∀ i, start ≤ i → i < stop → m.bit i = true) : m.isRangeDefined start stop = .ok (.ok ()) :=
  (isRangeDefined_iff hm hstop).1.2 h

theorem isRangeDefined_congr {m' : UndefMask} (hm : m.WF) (hm' : m'.WF) (hlen : m'.len = m.len)
    (hstop : stop ≤ m.len) (h : ∀ i, start ≤ i → i < stop → m'.bit i = m.bit i) :
    m'.isRangeDefined start stop = m.isRangeDefined start stop := by
  have hfind : ((range' start (stop - start)).find? fun i => !m'.bit i) =
      (range' start (stop - start)).find? fun i => !m.bit i := by
    rw [← head?_filter, ← head?_filter]
    refine congrArg List.head? (filter_congr fun i hi => ?_)
    rw [mem_range'_1] at hi
    rw [h i hi.1 (by omega)]
  rw [isRangeDefined_eq hm hstop, isRangeDefined_eq hm' (by omega), hfind]

end UndefMask

end Tortis.Interpret
