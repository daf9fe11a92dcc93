import Tortis.Interpret.Access

/-!
# Copies in the interpreter's memory

`Memory::copy_repeatedly` (`librustc_mir/interpret/memory.rs`) and the functions of allocations it
uses: the definedness of the source is run-length encoded and written to every copy, and the
relocations are shifted to every copy and inserted as one run. `copyRepeatedly_transfers` says that
this transfers everything and nothing else.
-/

namespace Tortis.Interpret

open Outcome List Option UndefMask

variable {Tag : Type}

/-! ## Definedness and relocations -/

/-- `AllocationDefinedness`: a run-length encoding of the mask. -/
structure AllocationDefinedness where
  initial : Bool
  ranges : List Nat

namespace UndefMask

/-- The loop of `compress_undef_range` over the bits after the first one. -/
def runs (m : UndefMask) (ranges : List Nat) (curLen : Nat) (cur : Bool) :
    List Nat → Outcome (List Nat)
  | [] => .ok (ranges ++ [curLen])
  | i :: rest => do
    let bit ← m.get i
    if bit = cur then m.runs ranges (curLen + 1) cur rest
    else m.runs (ranges ++ [curLen]) 1 (!cur) rest

/-- One application of a run-length encoding from `j` on. -/
def markRanges (m : UndefMask) (j : Nat) (cur : Bool) : List Nat → Outcome UndefMask
  | [] => .ok m
  | range :: rest => do
    let m ← m.setRangeInbounds j (j + range) cur
    m.markRanges (j + range) (!cur) rest

end UndefMask

namespace Allocation

section
variable (a : Allocation Tag)

def compressUndefRange (src size : Nat) : Outcome AllocationDefinedness := do
  let initial ← a.undefMask.get src
  let ranges ← a.undefMask.runs [] 1 initial (range' (src + 1) (size - 1))
  .ok ⟨initial, ranges⟩

/-- The mask that `mark_compressed_undef_range` leaves. -/
def markMask (m : UndefMask) (defined : AllocationDefinedness) (dest size repetitions : Nat) :
    Outcome UndefMask :=
  if defined.ranges.length ≤ 1 then
    m.setRangeInbounds dest (dest + size * repetitions) defined.initial
  else
    (range repetitions).foldlM (fun m j =>
      m.markRanges (j * size + dest) defined.initial defined.ranges) m

def markCompressedUndefRange (defined : AllocationDefinedness)
    (dest size repetitions : Nat) : Outcome (Allocation Tag) := do
  let undefMask ← markMask a.undefMask defined dest size repetitions
  .ok { a with undefMask }

/-- The relocations of one repetition, shifted from the source to the destination. -/
def shiftRelocations (src destOffset : Nat) (relocations : List (Nat × Tag × AllocId)) :
    Outcome (List (Nat × Tag × AllocId)) :=
  relocations.mapM fun (offset, reloc) => do
    assert (src ≤ offset + destOffset) "Size::sub: would result in negative size"
    .ok (offset + destOffset - src, reloc)

def prepareRelocationCopy (cx : InterpCx) (a : Allocation Tag) (src size dest length : Nat) :
    Outcome (List (Nat × Tag × AllocId)) := do
  let relocations ← a.getRelocations cx src size
  if relocations.isEmpty then .ok []
  else
    (range length).foldlM (fun newRelocations i => do
      let shifted ← shiftRelocations src (dest + i * size) relocations
      .ok (newRelocations ++ shifted)) []

def markRelocationRange (relocations : List (Nat × Tag × AllocId)) : Allocation Tag :=
  { a with relocations := a.relocations.insertPresorted relocations }

/-- The copies with `ptr::copy` inside of one allocation. -/
def copySame (src dest size length : Nat) : Allocation Tag :=
  (range length).foldl
    (fun a i => a.setBytes (dest + size * i) ((a.bytes.drop src).take size)) a

/-- The copies with `ptr::copy_nonoverlapping` from another allocation. -/
def copyOther (srcBytes : List UInt8) (dest size length : Nat) : Allocation Tag :=
  (range length).foldl (fun a i => a.setBytes (dest + size * i) srcBytes) a

end

end Allocation

/-! ## Memory -/

/-- `Memory`, as far as allocations are looked up in it. -/
structure Memory (Tag : Type) where
  allocMap : AllocId → Option (Allocation Tag)
  /-- `get_static_alloc`. -/
  getStaticAlloc : AllocId → InterpResult (Allocation Tag)
  /-- Whether the machine has a kind of memory for copies of statics. -/
  staticKind : Bool

namespace Memory

section
variable (mem : Memory Tag)

def get (id : AllocId) : InterpResult (Allocation Tag) :=
  match mem.allocMap id with
  | some a => .ok a
  | none => mem.getStaticAlloc id

def getMut (id : AllocId) : InterpResult (Allocation Tag) :=
  match mem.allocMap id with
  | some a => if a.isMutable then .ok a else .error (.error .modifiedConstantMemory)
  | none => do
    let a ← mem.getStaticAlloc id
    if !a.isMutable then .error (.error .modifiedConstantMemory)
    else if mem.staticKind then .ok a
    else .error (.error .modifiedStatic)

/-- The memory after a change to an allocation that `get_mut` has returned. -/
def set (id : AllocId) (a : Allocation Tag) : Memory Tag :=
  { mem with allocMap := Function.update mem.allocMap id (some a) }

def copyUndefMask (src dest : Pointer Tag) (size repetitions : Nat) :
    InterpResult (Memory Tag) := do
  let srcAlloc ← mem.get src.allocId
  let compressed ← srcAlloc.compressUndefRange src.offset size
  let destAllocation ← mem.getMut dest.allocId
  let destAllocation ←
    destAllocation.markCompressedUndefRange compressed dest.offset size repetitions
  .ok (mem.set dest.allocId destAllocation)

end

/-- The copies of the bytes, to an allocation that has been cleared for them. -/
def copyBytes (src dest : Pointer Tag) (size length : Nat) (nonoverlapping : Bool)
    (srcBytes : List UInt8) (destAlloc : Allocation Tag) : InterpResult (Allocation Tag) :=
  if src.allocId = dest.allocId then
    if nonoverlapping ∧ ((src.offset ≤ dest.offset ∧ src.offset + size > dest.offset) ∨
        (dest.offset ≤ src.offset ∧ dest.offset + size > src.offset)) then
      .error (.error (.ub "copy_nonoverlapping called on overlapping ranges"))
    else .ok (destAlloc.copySame src.offset dest.offset size length)
  else .ok (destAlloc.copyOther srcBytes dest.offset size length)

def copyRepeatedly (cx : InterpCx) (mem : Memory Tag) (src dest : Pointer Tag) (size length : Nat)
    (nonoverlapping : Bool) : InterpResult (Memory Tag) := do
  let srcAlloc ← mem.get src.allocId
  let relocations ← srcAlloc.prepareRelocationCopy cx src.offset size dest.offset length
  let srcBytes ← srcAlloc.getBytesWithUndefAndPtr cx src.offset size
  let destAlloc ← mem.getMut dest.allocId
  let destAlloc ← destAlloc.getBytesMut cx dest.offset (size * length)
  let destAlloc ← copyBytes src dest size length nonoverlapping srcBytes destAlloc
  let mem ← (mem.set dest.allocId destAlloc).copyUndefMask src dest size length
  let destAlloc ← mem.getMut dest.allocId
  .ok (mem.set dest.allocId (destAlloc.markRelocationRange relocations))

end Memory

/-! ## Run-length encodings -/

/-- The bits that a run-length encoding stands for. -/
def expand (cur : Bool) : List Nat → List Bool
  | [] => []
  | n :: rest => replicate n cur ++ expand (!cur) rest

theorem length_expand : ∀ (cur : Bool) (ranges : List Nat), (expand cur ranges).length = ranges.sum
  | _, [] => rfl
  | cur, n :: rest => by
    rw [expand, length_append, length_replicate, length_expand, sum_cons]

theorem mul_add_lt {c k j size : Nat} (hc : c < k) (hj : j < size) : c * size + j < k * size :=
  calc c * size + j < c * size + size := Nat.add_lt_add_left hj _
    _ = (c + 1) * size := (Nat.succ_mul c size).symm
    _ ≤ k * size := Nat.mul_le_mul_right size hc

namespace UndefMask

variable {m : UndefMask}

theorem runs_spec : ∀ {l : List Nat} (ranges : List Nat) (curLen : Nat) (cur : Bool),
    (∀ i ∈ l, i < 64 * m.blocks.length) → 1 ≤ curLen →
    ∃ r, m.runs ranges curLen cur l = .ok (ranges ++ r) ∧ r ≠ [] ∧ (∀ n ∈ r, 1 ≤ n) ∧
      expand cur r = replicate curLen cur ++ l.map m.bit
  | [], ranges, curLen, cur, _, hpos =>
    ⟨[curLen], rfl, cons_ne_nil _ _, by simpa using hpos, by simp [expand]⟩
  | i :: l, ranges, curLen, cur, hl, hpos => by
    have hl' : ∀ i ∈ l, i < 64 * m.blocks.length := fun j hj => hl j (.tail _ hj)
    rw [runs, get_eq (hl i (.head _)), ok_bind]
    by_cases hbit : m.bit i = cur
    · obtain ⟨r, hr, hne, hge, hexp⟩ := runs_spec ranges (curLen + 1) cur hl' (by omega)
      refine ⟨r, by rw [if_pos hbit, hr], hne, hge, ?_⟩
      rw [hexp, replicate_succ', map_cons, hbit, append_assoc, singleton_append]
    · obtain ⟨r, hr, hne, hge, hexp⟩ := runs_spec (ranges ++ [curLen]) 1 (!cur) hl' le_rfl
      have hbit' : m.bit i = !cur := by
        cases hb : m.bit i <;> cases cur <;> simp_all
      refine ⟨curLen :: r, ?_, cons_ne_nil _ _, ?_, ?_⟩
      · rw [if_neg hbit, hr, append_assoc, singleton_append]
      · intro n hn
        rcases mem_cons.1 hn with rfl | hn
        · exact hpos
        · exact hge n hn
      · rw [expand, hexp, map_cons, hbit']
        rfl

theorem markRanges_spec : ∀ (ranges : List Nat) {m : UndefMask} (j : Nat) (cur : Bool),
    (∀ n ∈ ranges, 1 ≤ n) → j + ranges.sum ≤ 64 * m.blocks.length →
    ∃ m', m.markRanges j cur ranges = .ok m' ∧ m'.len = m.len ∧
      m'.blocks.length = m.blocks.length ∧
      ∀ i, m'.bit i = if j ≤ i then (expand cur ranges)[i - j]?.getD (m.bit i) else m.bit i
  | [], m, j, cur, _, _ => ⟨m, rfl, rfl, rfl, fun i => by simp [expand]⟩
  | n :: rest, m, j, cur, hge, hroom => by
    have hn := hge n (.head _)
    rw [sum_cons] at hroom
    obtain ⟨m1, hrun1, hlen1, hblocks1, hbit1⟩ := setRangeInbounds_spec (m := m) cur
      (show j < j + n by omega) (by omega)
    obtain ⟨m2, hrun2, hlen2, hblocks2, hbit2⟩ := markRanges_spec rest (m := m1)
      (j + n) (!cur) (fun k hk => hge k (.tail _ hk)) (by omega)
    refine ⟨m2, ?_, hlen2.trans hlen1, hblocks2.trans hblocks1, fun i => ?_⟩
    · rw [markRanges, hrun1]
      exact hrun2
    · rw [hbit2, hbit1, expand]
      by_cases h1 : j ≤ i
      · by_cases h2 : i < j + n
        · have hrep : i - j < (replicate n cur).length := by
            rw [length_replicate]
            omega
          rw [if_neg (by omega), if_pos ⟨h1, h2⟩, if_pos h1, getElem?_append_left hrep,
            getElem?_eq_getElem hrep, getElem_replicate, getD_some]
        · have hrep : (replicate n cur).length ≤ i - j := by
            rw [length_replicate]
            omega
          rw [if_pos (by omega), if_neg (by omega), if_pos h1, getElem?_append_right hrep,
            length_replicate, Nat.sub_sub]
      · rw [if_neg (by omega), if_neg (by omega), if_neg h1]

end UndefMask

/-! ## The parts of a copy -/

namespace Allocation

variable {cx : InterpCx} {a a' : Allocation Tag} {src dest size length : Nat}

/-- An encoding stands for the bits of a range. -/
structure Encodes (m : UndefMask) (src size : Nat) (defined : AllocationDefinedness) : Prop where
  nonempty : defined.ranges ≠ []
  pos : ∀ n ∈ defined.ranges, 1 ≤ n
  bits : expand defined.initial defined.ranges = (range' src size).map m.bit

variable {defined : AllocationDefinedness}

theorem Encodes.sum {m : UndefMask}
    (h : Encodes m src size defined) : defined.ranges.sum = size := by
  rw [← length_expand defined.initial, h.bits, length_map, length_range']

theorem Encodes.getElem? {m : UndefMask}
    (h : Encodes m src size defined) {j : Nat} (hj : j < size) :
    (expand defined.initial defined.ranges)[j]? = some (m.bit (src + j)) := by
  rw [h.bits, getElem?_map, getElem?_range' (by omega)]
  simp

theorem compressUndefRange_spec (h : a.WF cx) (hsize : 0 < size) (hin : src + size ≤ a.size) :
    ∃ defined, a.compressUndefRange src size = .ok defined ∧
      Encodes a.undefMask src size defined := by
  have hroom : a.size ≤ 64 * a.undefMask.blocks.length := h.maskLen ▸ h.mask
  obtain ⟨r, hr, hne, hge, hexp⟩ := runs_spec (m := a.undefMask)
    (l := range' (src + 1) (size - 1)) [] 1 (a.undefMask.bit src) (fun i hi => by
      rw [mem_range'_1] at hi
      omega) le_rfl
  refine ⟨⟨a.undefMask.bit src, r⟩, ?_, hne, hge, ?_⟩
  · rw [compressUndefRange, get_eq (by omega), ok_bind, hr]
    rfl
  · obtain ⟨k, rfl⟩ : ∃ k, size = k + 1 := ⟨size - 1, by omega⟩
    rw [hexp, range'_succ]
    rfl

theorem markMask_spec {m m0 : UndefMask}
    (h : Encodes m0 src size defined) (hsize : 0 < size) (hlength : 0 < length)
    (hroom : dest + size * length ≤ 64 * m.blocks.length) :
    ∃ m', markMask m defined dest size length = .ok m' ∧ m'.len = m.len ∧
      m'.blocks.length = m.blocks.length ∧
      (∀ c < length, ∀ j < size, m'.bit (dest + c * size + j) = m0.bit (src + j)) ∧
      ∀ i, ¬ (dest ≤ i ∧ i < dest + size * length) → m'.bit i = m.bit i := by
  have hmul := mul_comm size length
  by_cases hone : defined.ranges.length ≤ 1
  · -- a single run
    obtain ⟨n, hn⟩ : ∃ n, defined.ranges = [n] := by
      cases hr : defined.ranges with
      | nil => exact absurd hr h.nonempty
      | cons n rest =>
        rw [hr, length_cons] at hone
        exact ⟨n, by rw [length_eq_zero_iff.1 (Nat.le_zero.1 (Nat.le_of_succ_le_succ hone))]⟩
    have hconst : ∀ j < size, m0.bit (src + j) = defined.initial := by
      intro j hj
      have hget := h.getElem? hj
      have hsum := h.sum
      rw [hn, sum_singleton] at hsum
      rw [hn, expand, expand, append_nil, getElem?_replicate, if_pos (by omega),
        Option.some.injEq] at hget
      exact hget.symm
    have hpos : 0 < size * length := Nat.mul_pos hsize hlength
    obtain ⟨m', hrun, hlen, hblocks, hbit⟩ := setRangeInbounds_spec (m := m)
      defined.initial (show dest < dest + size * length by omega) hroom
    refine ⟨m', by rw [markMask, if_pos hone, hrun], hlen, hblocks, fun c hc j hj => ?_,
      fun i hi => by rw [hbit, if_neg hi]⟩
    have hlt := mul_add_lt hc hj
    rw [hbit, if_pos (by omega), hconst j hj]
  · -- the copies one after the other
    have hrounds : ∀ k ≤ length, ∃ m', (range k).foldlM (fun m j =>
        markRanges m (j * size + dest) defined.initial defined.ranges) m = .ok m' ∧
        m'.len = m.len ∧ m'.blocks.length = m.blocks.length ∧
        (∀ c < k, ∀ j < size, m'.bit (dest + c * size + j) = m0.bit (src + j)) ∧
        ∀ i, ¬ (dest ≤ i ∧ i < dest + k * size) → m'.bit i = m.bit i := by
      intro k
      induction k with
      | zero => exact fun _ => ⟨m, rfl, rfl, rfl, fun c hc => by omega, fun _ _ => rfl⟩
      | succ k ih =>
        intro hk
        obtain ⟨m1, hrun1, hlen1, hblocks1, hcopy1, hout1⟩ := ih (Nat.le_of_succ_le hk)
        have hlast : (k + 1) * size ≤ length * size := Nat.mul_le_mul_right size hk
        have hsucc : (k + 1) * size = k * size + size := Nat.succ_mul k size
        have hsum := h.sum
        obtain ⟨m2, hrun2, hlen2, hblocks2, hbit2⟩ := markRanges_spec _ (m := m1)
          (k * size + dest) defined.initial h.pos (by omega)
        have hlenexp := length_expand defined.initial defined.ranges
        refine ⟨m2, ?_, hlen2.trans hlen1, hblocks2.trans hblocks1, fun c hc j hj => ?_,
          fun i hi => ?_⟩
        · rw [range_succ, foldlM_append, hrun1, ok_bind, foldlM_cons, hrun2]
          rfl
        · rcases Nat.lt_succ_iff_lt_or_eq.1 hc with hc | rfl
          · have hlt := mul_add_lt hc hj
            rw [hbit2, if_neg (by omega), hcopy1 c hc j hj]
          · have hidx : dest + c * size + j - (c * size + dest) = j := by omega
            rw [hbit2, if_pos (by omega), hidx, h.getElem? hj, getD_some]
        · rw [hbit2]
          by_cases hle : k * size + dest ≤ i
          · rw [if_pos hle, getElem?_eq_none (by omega), getD_none, hout1 i (by omega)]
          · rw [if_neg hle, hout1 i (by omega)]
    obtain ⟨m', hrun, hlen, hblocks, hcopy, hout⟩ := hrounds length le_rfl
    exact ⟨m', by rw [markMask, if_neg hone, hrun], hlen, hblocks, hcopy,
      fun i hi => hout i (by omega)⟩

theorem copyOther_spec {srcBytes : List UInt8} (hsrc : srcBytes.length = size)
    (hroom : dest + size * length ≤ a.bytes.length) :
    a.copyOther srcBytes dest size length =
        { a with bytes := (a.copyOther srcBytes dest size length).bytes } ∧
      (a.copyOther srcBytes dest size length).bytes.length = a.bytes.length ∧
      (∀ c < length, ∀ j < size,
        (a.copyOther srcBytes dest size length).bytes[dest + c * size + j]? = srcBytes[j]?) ∧
      ∀ i, ¬ (dest ≤ i ∧ i < dest + size * length) →
        (a.copyOther srcBytes dest size length).bytes[i]? = a.bytes[i]? := by
  induction length with
  | zero => exact ⟨rfl, rfl, fun c hc => by omega, fun _ _ => rfl⟩
  | succ k ih =>
    have hsucc : size * (k + 1) = size * k + size := Nat.mul_succ size k
    have hcomm := mul_comm size k
    obtain ⟨hfields, hlen, hcopy, hout⟩ := ih (by omega)
    have hstep : a.copyOther srcBytes dest size (k + 1) =
        (a.copyOther srcBytes dest size k).setBytes (dest + size * k) srcBytes := by
      rw [copyOther, range_succ, foldl_append]
      rfl
    have hroom' : dest + size * k + srcBytes.length ≤
        (a.copyOther srcBytes dest size k).bytes.length := by omega
    rw [hstep]
    refine ⟨?_, by rw [length_setBytes hroom', hlen], fun c hc j hj => ?_, fun i hi => ?_⟩
    · conv_lhs => rw [setBytes, hfields]
      rfl
    · rw [getElem?_setBytes hroom', hsrc]
      rcases Nat.lt_succ_iff_lt_or_eq.1 hc with hc | rfl
      · have hlt := mul_add_lt hc hj
        rw [if_neg (by omega), hcopy c hc j hj]
      · rw [if_pos (by omega)]
        congr 1
        omega
    · rw [getElem?_setBytes hroom', hsrc, if_neg (by omega), hout i (by omega)]

/-- Copies inside of one allocation read what the source had, when the destination does not overlap
with it. -/
theorem copySame_eq (hsrc : ((a.bytes.drop src).take size).length = size)
    (hroom : dest + size * length ≤ a.bytes.length)
    (hno : ∀ i, src ≤ i → i < src + size → ¬ (dest ≤ i ∧ i < dest + size * length)) :
    a.copySame src dest size length =
      a.copyOther ((a.bytes.drop src).take size) dest size length := by
  induction length with
  | zero => rfl
  | succ k ih =>
    have hsucc : size * (k + 1) = size * k + size := Nat.mul_succ size k
    have hno' : ∀ i, src ≤ i → i < src + size → ¬ (dest ≤ i ∧ i < dest + size * k) :=
      fun i h1 h2 h3 => hno i h1 h2 (by omega)
    have hsame : a.copySame src dest size (k + 1) =
        (a.copySame src dest size k).setBytes (dest + size * k)
          (((a.copySame src dest size k).bytes.drop src).take size) := by
      rw [copySame, range_succ, foldl_append]
      rfl
    have hother : a.copyOther ((a.bytes.drop src).take size) dest size (k + 1) =
        (a.copyOther ((a.bytes.drop src).take size) dest size k).setBytes (dest + size * k)
          ((a.bytes.drop src).take size) := by
      rw [copyOther, range_succ, foldl_append]
      rfl
    have hread : (((a.copyOther ((a.bytes.drop src).take size) dest size k).bytes.drop src).take
        size) = (a.bytes.drop src).take size := by
      refine take_drop_congr fun i h1 h2 => ?_
      exact (copyOther_spec hsrc (by omega)).2.2.2 i (hno' i h1 h2)
    rw [hsame, ih (by omega) hno', hread, hother]

theorem copySame_spec (hin : src + size ≤ a.bytes.length)
    (hroom : dest + size * length ≤ a.bytes.length) :
    a.copySame src dest size length =
        { a with bytes := (a.copySame src dest size length).bytes } ∧
      (a.copySame src dest size length).bytes.length = a.bytes.length ∧
      ∀ i, ¬ (dest ≤ i ∧ i < dest + size * length) →
        (a.copySame src dest size length).bytes[i]? = a.bytes[i]? := by
  induction length with
  | zero => exact ⟨rfl, rfl, fun _ _ => rfl⟩
  | succ k ih =>
    have hsucc : size * (k + 1) = size * k + size := Nat.mul_succ size k
    obtain ⟨hfields, hlen, hout⟩ := ih (by omega)
    have hstep : a.copySame src dest size (k + 1) =
        (a.copySame src dest size k).setBytes (dest + size * k)
          (((a.copySame src dest size k).bytes.drop src).take size) := by
      rw [copySame, range_succ, foldl_append]
      rfl
    have hslice : (((a.copySame src dest size k).bytes.drop src).take size).length = size := by
      rw [length_take, length_drop]
      omega
    have hroom' : dest + size * k +
        (((a.copySame src dest size k).bytes.drop src).take size).length ≤
          (a.copySame src dest size k).bytes.length := by omega
    rw [hstep]
    refine ⟨?_, by rw [length_setBytes hroom', hlen], fun i hi => ?_⟩
    · conv_lhs => rw [setBytes, hfields]
      rfl
    · rw [getElem?_setBytes hroom', hslice, if_neg (by omega), hout i (by omega)]

theorem shiftRelocations_eq {destOffset : Nat} : ∀ {relocations : List (Nat × Tag × AllocId)},
    (∀ e ∈ relocations, src ≤ e.1) →
    shiftRelocations src destOffset relocations =
      .ok (relocations.map fun e => (e.1 + destOffset - src, e.2))
  | [], _ => rfl
  | (offset, reloc) :: relocations, h => by
    have hrest : shiftRelocations src destOffset relocations = _ :=
      shiftRelocations_eq fun x hx => h x (.tail _ hx)
    have hle : src ≤ offset + destOffset :=
      le_trans (h (offset, reloc) (.head _)) (Nat.le_add_right _ _)
    rw [shiftRelocations] at hrest ⊢
    rw [mapM_cons, hrest]
    dsimp only
    rw [assert, if_pos (decide_eq_true hle)]
    rfl

theorem shiftRounds_spec {relocations : List (Nat × Tag × AllocId)}
    (hinside : ∀ e ∈ relocations, src ≤ e.1 ∧ e.1 + cx.pointerSize ≤ src + size)
    (hapart : relocations.Pairwise fun x y => x.1 + cx.pointerSize ≤ y.1) (dest : Nat) :
    ∀ k, ∃ elements, (range k).foldlM (fun newRelocations i => do
        let shifted ← shiftRelocations src (dest + i * size) relocations
        .ok (newRelocations ++ shifted)) [] = .ok elements ∧
      (∀ e', e' ∈ elements ↔ ∃ c < k, ∃ e ∈ relocations,
        e' = (e.1 - src + (dest + c * size), e.2)) ∧
      elements.Pairwise fun x y => x.1 + cx.pointerSize ≤ y.1
  | 0 => ⟨[], rfl, fun e' => by simp, List.Pairwise.nil⟩
  | k + 1 => by
    obtain ⟨elements, hrun, hels, hels_apart⟩ := shiftRounds_spec hinside hapart dest k
    have hshift : ∀ e ∈ relocations,
        e.1 + (dest + k * size) - src = e.1 - src + (dest + k * size) := by
      intro e he
      have := (hinside e he).1
      omega
    refine ⟨elements ++ relocations.map fun e => (e.1 + (dest + k * size) - src, e.2), ?_,
      fun e' => ?_, pairwise_append.2 ⟨hels_apart, ?_, ?_⟩⟩
    · rw [range_succ, foldlM_append, hrun, ok_bind, foldlM_cons,
        shiftRelocations_eq fun e he => (hinside e he).1]
      rfl
    · rw [mem_append, hels, List.mem_map]
      constructor
      · rintro (⟨c, hc, e, he, rfl⟩ | ⟨e, he, rfl⟩)
        · exact ⟨c, Nat.lt_succ_of_lt hc, e, he, rfl⟩
        · exact ⟨k, Nat.lt_succ_self k, e, he, by rw [hshift e he]⟩
      · rintro ⟨c, hc, e, he, rfl⟩
        rcases Nat.lt_succ_iff_lt_or_eq.1 hc with hc | rfl
        · exact .inl ⟨c, hc, e, he, rfl⟩
        · exact .inr ⟨e, he, by rw [hshift e he]⟩
    · refine pairwise_map.2 (hapart.imp_of_mem fun {x y} hx hy hxy => ?_)
      have hx' := (hinside x hx).1
      omega
    · -- an earlier copy ends before this one starts
      intro x hx y hy
      obtain ⟨c, hc, e, he, rfl⟩ := (hels x).1 hx
      obtain ⟨e', he', rfl⟩ := mem_map.1 hy
      have h1 := hinside e he
      have h2 := (hinside e' he').1
      have hmul : (c + 1) * size ≤ k * size := Nat.mul_le_mul_right size hc
      have hsucc : (c + 1) * size = c * size + size := Nat.succ_mul c size
      omega

theorem prepareRelocationCopy_spec (h : a.WF cx) (hcut : a.NoCut cx src size) (dest length : Nat) :
    ∃ elements, a.prepareRelocationCopy cx src size dest length = .ok elements ∧
      (∀ e', e' ∈ elements ↔ ∃ c < length, ∃ e ∈ a.relocations.data,
        Overlaps e.1 cx.pointerSize src size ∧ e' = (e.1 - src + (dest + c * size), e.2)) ∧
      elements.Pairwise fun x y => x.1 + cx.pointerSize ≤ y.1 := by
  have hmem : ∀ e, e ∈ (a.relocations.data.filter fun e =>
      Overlaps e.1 cx.pointerSize src size) ↔
      e ∈ a.relocations.data ∧ Overlaps e.1 cx.pointerSize src size := by
    intro e
    rw [mem_filter, decide_eq_true_eq]
  have hinside : ∀ e ∈ a.relocations.data.filter fun e => Overlaps e.1 cx.pointerSize src size,
      src ≤ e.1 ∧ e.1 + cx.pointerSize ≤ src + size :=
    fun e he => hcut e ((hmem e).1 he).1 ((hmem e).1 he).2
  obtain ⟨elements, hrun, hels, hapart⟩ := shiftRounds_spec hinside (h.apart.filter _) dest length
  have hels' : ∀ e', e' ∈ elements ↔ ∃ c < length, ∃ e ∈ a.relocations.data,
      Overlaps e.1 cx.pointerSize src size ∧ e' = (e.1 - src + (dest + c * size), e.2) := by
    intro e'
    rw [hels]
    simp only [hmem, and_assoc]
  rw [prepareRelocationCopy, getRelocations_eq h, ok_bind]
  by_cases hempty : (a.relocations.data.filter fun e =>
      Overlaps e.1 cx.pointerSize src size).isEmpty = true
  · refine ⟨[], if_pos hempty, fun e' => ?_, List.Pairwise.nil⟩
    rw [← hels', hels]
    rw [List.isEmpty_iff] at hempty
    simp [hempty]
  · exact ⟨elements, (if_neg hempty).trans hrun, hels', hapart⟩

end Allocation

/-! ## Copies -/

namespace Memory

variable {mem : Memory Tag} {id : AllocId} {a b : Allocation Tag}

theorem get_set (mem : Memory Tag) (id id' : AllocId) (a : Allocation Tag) :
    (mem.set id a).get id' = if id' = id then .ok a else mem.get id' := by
  by_cases h : id' = id
  · simp [get, set, h]
  · simp [get, set, h]

theorem getMut_set (h : a.isMutable = true) : (mem.set id a).getMut id = .ok a := by
  simp [getMut, set, h]

theorem set_set : (mem.set id a).set id b = mem.set id b := by
  simp [set]

theorem getMut_eq_ok (h : mem.getMut id = .ok a) : a.isMutable = true ∧ mem.get id = .ok a := by
  rw [getMut] at h
  rw [get]
  split at h
  · split at h
    · rename_i hmut
      cases h
      exact ⟨hmut, rfl⟩
    · cases h
  · obtain ⟨b, hb, h⟩ := InterpResult.bind_eq_ok.1 h
    split at h
    · cases h
    · rename_i hmut
      split at h
      · cases h
        exact ⟨by simpa using hmut, hb⟩
      · cases h

end Memory

/-- What a copy does to the destination: every copy has the bytes, the definedness and the
relocations of the source, relocations that were cut by the border are gone with their bytes
undefined, and everything else is unchanged. -/
structure Allocation.Transferred (cx : InterpCx) (srcAlloc destAlloc destAlloc' : Allocation Tag)
    (src dest size length : Nat) : Prop where
  size_eq : destAlloc'.size = destAlloc.size
  isMutable : destAlloc'.isMutable = destAlloc.isMutable
  bytes : ∀ c < length, ∀ j < size,
    destAlloc'.bytes[dest + c * size + j]? = srcAlloc.bytes[src + j]?
  defined : ∀ c < length, ∀ j < size,
    destAlloc'.undefMask.bit (dest + c * size + j) = srcAlloc.undefMask.bit (src + j)
  relocations : ∀ e, e ∈ destAlloc'.relocations.data ↔
    (∃ c < length, ∃ j < size, e.1 = dest + c * size + j ∧
      (src + j, e.2) ∈ srcAlloc.relocations.data) ∨
    (e ∈ destAlloc.relocations.data ∧ ¬ Overlaps e.1 cx.pointerSize dest (size * length))
  bytes_outside : ∀ i, ¬ (dest ≤ i ∧ i < dest + size * length) →
    destAlloc'.bytes[i]? = destAlloc.bytes[i]?
  clobbered : ∀ i, ¬ (dest ≤ i ∧ i < dest + size * length) → ∀ e ∈ destAlloc.relocations.data,
    Overlaps e.1 cx.pointerSize dest (size * length) → e.1 ≤ i → i < e.1 + cx.pointerSize →
    destAlloc'.undefMask.bit i = false
  defined_outside : ∀ i, ¬ (dest ≤ i ∧ i < dest + size * length) →
    (∀ e ∈ destAlloc.relocations.data, Overlaps e.1 cx.pointerSize dest (size * length) →
      ¬ (e.1 ≤ i ∧ i < e.1 + cx.pointerSize)) →
    destAlloc'.undefMask.bit i = destAlloc.undefMask.bit i
  sorted : destAlloc'.relocations.Sorted

namespace Memory

open Allocation

variable {cx : InterpCx} {mem : Memory Tag} {src dest : Pointer Tag} {size length : Nat}
  {nonoverlapping : Bool} {srcAlloc destAlloc : Allocation Tag}

/-- The check for overlapping ranges that `copy_repeatedly` makes. -/
def OverlapError (src dest : Pointer Tag) (size : Nat) (nonoverlapping : Bool) : Prop :=
  nonoverlapping ∧ ((src.offset ≤ dest.offset ∧ src.offset + size > dest.offset) ∨
    (dest.offset ≤ src.offset ∧ dest.offset + size > src.offset))

theorem copyBytes_spec {a : Allocation Tag} {srcBytes : List UInt8}
    (hsrc : srcBytes.length = size) (hroom : dest.offset + size * length ≤ a.bytes.length)
    (hsame : src.allocId = dest.allocId → ¬ OverlapError src dest size nonoverlapping ∧
      src.offset + size ≤ a.bytes.length ∧ srcBytes = (a.bytes.drop src.offset).take size) :
    ∃ bytes, copyBytes src dest size length nonoverlapping srcBytes a = .ok { a with bytes } ∧
      bytes.length = a.bytes.length ∧
      (∀ i, ¬ (dest.offset ≤ i ∧ i < dest.offset + size * length) → bytes[i]? = a.bytes[i]?) ∧
      ((src.allocId = dest.allocId →
          ¬ Overlaps src.offset size dest.offset (size * length)) →
        ∀ c < length, ∀ j < size, bytes[dest.offset + c * size + j]? = srcBytes[j]?) := by
  obtain ⟨hfields, hlen, hcopy, hout⟩ := copyOther_spec hsrc hroom
  by_cases hid : src.allocId = dest.allocId
  · obtain ⟨hub, hin, hbytes⟩ := hsame hid
    obtain ⟨hfields', hlen', hout'⟩ := copySame_spec hin hroom
    refine ⟨(a.copySame src.offset dest.offset size length).bytes, ?_, hlen', hout',
      fun hno c hc j hj => ?_⟩
    · rw [← hfields', copyBytes, if_pos hid]
      exact if_neg hub
    · rw [copySame_eq (hbytes ▸ hsrc) hroom, ← hbytes, hcopy c hc j hj]
      rintro i h1 h2 ⟨h3, h4⟩
      exact hno hid ⟨by omega, by omega⟩
  · refine ⟨(a.copyOther srcBytes dest.offset size length).bytes, ?_, hlen, hout, fun _ => hcopy⟩
    rw [← hfields, copyBytes, if_neg hid]

/-- What a copy makes of the destination, whatever overlaps: the destination is cleared, and bytes,
definedness and relocations are written to it only. -/
structure Copied (cx : InterpCx) (src dest : Pointer Tag) (size length : Nat)
    (srcAlloc destAlloc destAlloc' : Allocation Tag) : Prop where
  written : Written cx destAlloc destAlloc' dest.offset (size * length)
  transferred : (src.allocId = dest.allocId →
    ¬ Overlaps src.offset size dest.offset (size * length)) →
    Transferred cx srcAlloc destAlloc destAlloc' src.offset dest.offset size length

/-- The parts that a copy puts together: the destination `a₁` that has been cleared for it, and the
bytes, the mask and the relocations that are written to it. -/
structure CopyParts (cx : InterpCx) (src dest : Pointer Tag) (size length : Nat)
    (nonoverlapping : Bool) (srcAlloc destAlloc a₁ : Allocation Tag) (bytes : List UInt8)
    (m : UndefMask) (elements : List (Nat × Tag × AllocId)) : Prop where
  cleared : Cleared cx destAlloc a₁ dest.offset (size * length)
  bytes_eq : copyBytes src dest size length nonoverlapping
    ((srcAlloc.bytes.drop src.offset).take size) a₁ = .ok { a₁ with bytes }
  bytes_length : bytes.length = destAlloc.size
  bytes_outside : ∀ i, ¬ (dest.offset ≤ i ∧ i < dest.offset + size * length) →
    bytes[i]? = destAlloc.bytes[i]?
  bytes_copied : (src.allocId = dest.allocId →
      ¬ Overlaps src.offset size dest.offset (size * length)) →
    ∀ c < length, ∀ j < size, bytes[dest.offset + c * size + j]? = srcAlloc.bytes[src.offset + j]?
  mask_len : m.len = destAlloc.size
  mask_wf : m.WF
  mask_copied : ∀ c < length, ∀ j < size, m.bit (dest.offset + c * size + j) =
    (if src.allocId = dest.allocId then a₁ else srcAlloc).undefMask.bit (src.offset + j)
  mask_outside : ∀ i, ¬ (dest.offset ≤ i ∧ i < dest.offset + size * length) →
    m.bit i = a₁.undefMask.bit i
  mem_elements : ∀ e', e' ∈ elements ↔ ∃ c < length, ∃ e ∈ srcAlloc.relocations.data,
    Overlaps e.1 cx.pointerSize src.offset size ∧
      e' = (e.1 - src.offset + (dest.offset + c * size), e.2)
  inside : ∀ e ∈ elements, dest.offset ≤ e.1 ∧
    e.1 + cx.pointerSize ≤ dest.offset + size * length
  apart : elements.Pairwise fun x y => x.1 + cx.pointerSize ≤ y.1

section
variable (hsrc : mem.get src.allocId = .ok srcAlloc) (hdest : mem.getMut dest.allocId = .ok destAlloc)
  (hwf : srcAlloc.WF cx) (hwf' : destAlloc.WF cx) (hsize : 0 < size) (hlength : 0 < length)
  (hin : src.offset + size ≤ srcAlloc.size) (hin' : dest.offset + size * length ≤ destAlloc.size)
  (hcut : srcAlloc.NoCut cx src.offset size)
  (hub : src.allocId = dest.allocId → ¬ OverlapError src dest size nonoverlapping)
include hsrc hdest hwf hwf' hsize hlength hin hin' hcut hub

theorem copyRepeatedly_parts : ∃ a1 bytes m elements,
      CopyParts cx src dest size length nonoverlapping srcAlloc destAlloc a1 bytes m elements ∧
      mem.copyRepeatedly cx src dest size length nonoverlapping =
        .ok (mem.set dest.allocId { a1 with
          bytes, undefMask := m, relocations := a1.relocations.insertPresorted elements }) := by
  obtain ⟨hmut, hget⟩ := getMut_eq_ok hdest
  have hsame : src.allocId = dest.allocId → srcAlloc = destAlloc := by
    intro hid
    rw [hid, hget] at hsrc
    exact (Except.ok.inj hsrc).symm
  obtain ⟨elements, hprep, hels, hapart⟩ := prepareRelocationCopy_spec hwf hcut dest.offset length
  obtain ⟨a1, hclear, hc⟩ := getBytesMut_spec hwf' hin'
  obtain ⟨bytes, hbytes, hblen, hbout, hbcopy⟩ : ∃ bytes, copyBytes src dest size length
      nonoverlapping ((srcAlloc.bytes.drop src.offset).take size) a1 = .ok { a1 with bytes } ∧ _ := by
    refine copyBytes_spec ?_ ?_ fun hid => ⟨hub hid, ?_, ?_⟩
    · rw [length_take, length_drop, hwf.bytes]
      omega
    · rw [hc.bytes, hwf'.bytes]
      exact hin'
    · rw [hc.bytes, ← hsame hid, hwf.bytes]
      exact hin
    · rw [hc.bytes, hsame hid]
  have hblen' : bytes.length = destAlloc.size := by rw [hblen, hc.bytes, hwf'.bytes]
  have hwf2 : WF cx { a1 with bytes } := by
    refine ⟨?_, hc.wf.maskLen, hc.wf.mask, hc.wf.apart, hc.wf.inside, hc.wf.small⟩
    exact hblen'.trans hc.size_eq.symm
  -- the definedness is read from the memory with the cleared destination
  obtain ⟨s1, hs1, hs1wf, hs1in, hs1bit⟩ : ∃ s1,
      (mem.set dest.allocId { a1 with bytes }).get src.allocId = .ok s1 ∧ s1.WF cx ∧
      src.offset + size ≤ s1.size ∧
      s1.undefMask = (if src.allocId = dest.allocId then a1 else srcAlloc).undefMask := by
    rw [get_set]
    by_cases hid : src.allocId = dest.allocId
    · rw [if_pos hid, if_pos hid]
      refine ⟨_, rfl, hwf2, ?_, rfl⟩
      rw [hsame hid] at hin
      exact hin.trans_eq hc.size_eq.symm
    · rw [if_neg hid, if_neg hid]
      exact ⟨srcAlloc, hsrc, hwf, hin, rfl⟩
  obtain ⟨defined, hcompress, henc⟩ := compressUndefRange_spec hs1wf hsize hs1in
  have hroom : dest.offset + size * length ≤ 64 * a1.undefMask.blocks.length := by
    have := hc.wf.mask
    rw [UndefMask.WF, hc.wf.maskLen, hc.size_eq] at this
    omega
  obtain ⟨m, hmark, hmlen, hmblocks, hmcopy, hmout⟩ := markMask_spec henc hsize hlength hroom
  refine ⟨a1, bytes, m, elements, ⟨hc, hbytes, hblen', fun i hi => ?_, fun hno c hc' j hj => ?_,
    hmlen.trans (hc.wf.maskLen.trans hc.size_eq), ?_, fun c hc' j hj => ?_, hmout, hels,
    fun e' he' => ?_, hapart⟩, ?_⟩
  · rw [hbout i hi, hc.bytes]
  · rw [hbcopy hno c hc' j hj, getElem?_take_of_lt hj, getElem?_drop]
  · rw [UndefMask.WF, hmlen, hmblocks]
    exact hc.wf.mask
  · rw [hmcopy c hc' j hj, hs1bit]
  · obtain ⟨c, hc', e, he, ho, rfl⟩ := (hels e').1 he'
    have hcut' := hcut e he ho
    have hmul : (c + 1) * size ≤ length * size := Nat.mul_le_mul_right size hc'
    have hsucc : (c + 1) * size = c * size + size := Nat.succ_mul c size
    have hcomm := mul_comm size length
    omega
  · have hmut1 : ({ a1 with bytes } : Allocation Tag).isMutable = true := hc.isMutable.trans hmut
    have hmut2 : ({ a1 with bytes, undefMask := m } : Allocation Tag).isMutable = true :=
      hc.isMutable.trans hmut
    have hmask : (mem.set dest.allocId { a1 with bytes }).copyUndefMask src dest size length =
        .ok (mem.set dest.allocId { a1 with bytes, undefMask := m }) := by
      rw [copyUndefMask, hs1, InterpResult.ok_bind, hcompress, InterpResult.lift_ok,
        InterpResult.ok_bind, getMut_set hmut1, InterpResult.ok_bind, markCompressedUndefRange,
        hmark, ok_bind, InterpResult.lift_ok, InterpResult.ok_bind, set_set]
    rw [copyRepeatedly, hsrc, InterpResult.ok_bind, hprep, InterpResult.lift_ok,
      InterpResult.ok_bind, getBytesWithUndefAndPtr_ok hwf hsize hin hcut, InterpResult.ok_bind,
      hdest, InterpResult.ok_bind, hclear, InterpResult.lift_ok, InterpResult.ok_bind, hbytes,
      InterpResult.ok_bind, hmask, InterpResult.ok_bind, getMut_set hmut2, InterpResult.ok_bind,
      set_set]
    rfl

/-- A copy writes to its destination only. -/
theorem copyRepeatedly_spec : ∃ destAlloc',
    mem.copyRepeatedly cx src dest size length nonoverlapping =
        .ok (mem.set dest.allocId destAlloc') ∧
      Copied cx src dest size length srcAlloc destAlloc destAlloc' := by
  have hps := cx.pointerSize_pos
  obtain ⟨a1, bytes, m, elements, h, hrun⟩ :=
    copyRepeatedly_parts hsrc hdest hwf hwf' hsize hlength hin hin' hcut hub
  have hc := h.cleared
  have hwritten := hc.written hwf' hin' h.bytes_length h.bytes_outside h.mask_len h.mask_wf
    h.mask_outside h.inside h.apart
  refine ⟨_, hrun, hwritten, fun hno => ⟨hc.size_eq, hc.isMutable, h.bytes_copied hno,
    fun c hc' j hj => (h.mask_copied c hc' j hj).trans ?_, fun e => ?_, hwritten.bytes,
    fun i hi e he ho h1 h2 => ?_, fun i hi hcov => ?_, hwritten.wf.sorted⟩⟩
  · -- the bytes of the source are not in the range that has been cleared
    by_cases hid : src.allocId = dest.allocId
    · have hsame : srcAlloc = destAlloc := by
        rw [hid, (getMut_eq_ok hdest).2] at hsrc
        exact (Except.ok.inj hsrc).symm
      have hno' := hno hid
      rw [Overlaps] at hno'
      rw [if_pos hid]
      subst hsame
      refine hc.outside _ (by omega) fun e he ho hcov => ?_
      have hinside := hcut e he ⟨by omega, by omega⟩
      rw [Overlaps] at ho
      omega
    · rw [if_neg hid]
  · rw [hc.mem_insertPresorted h.inside e, h.mem_elements]
    refine or_congr ⟨?_, ?_⟩ Iff.rfl
    · rintro ⟨c, hc', e0, he0, ho, rfl⟩
      have hcut' := hcut e0 he0 ho
      refine ⟨c, hc', e0.1 - src.offset, by omega, by dsimp only; omega, ?_⟩
      rw [Nat.add_sub_cancel' hcut'.1]
      exact he0
    · rintro ⟨c, hc', j, hj, he, hmem⟩
      refine ⟨c, hc', _, hmem, ⟨by dsimp only; omega, by dsimp only; omega⟩, Prod.ext ?_ rfl⟩
      omega
  · exact (h.mask_outside i hi).trans (hc.clobbered i hi e he ho h1 h2)
  · exact (h.mask_outside i hi).trans (hc.outside i hi hcov)

end

end Memory

/-- Copies transfer everything and nothing else: between two allocations, or between ranges of one
allocation that do not overlap. -/
theorem copyRepeatedly_transfers (cx : InterpCx) (mem : Memory Tag) (src dest : Pointer Tag)
    (size length : Nat) (nonoverlapping : Bool) (srcAlloc destAlloc : Allocation Tag)
    (hsrc : mem.get src.allocId = .ok srcAlloc) (hdest : mem.getMut dest.allocId = .ok destAlloc)
    (hwf : srcAlloc.WF cx) (hwf' : destAlloc.WF cx) (hsize : 1 ≤ size) (hlength : 1 ≤ length)
    (hin : src.offset + size ≤ srcAlloc.size) (hin' : dest.offset + size * length ≤ destAlloc.size)
    (hcut : srcAlloc.NoCut cx src.offset size) (hno : src.allocId = dest.allocId →
      ¬ Allocation.Overlaps src.offset size dest.offset (size * length)) :
    ∃ destAlloc', mem.copyRepeatedly cx src dest size length nonoverlapping =
        .ok (mem.set dest.allocId destAlloc') ∧
      Allocation.Transferred cx srcAlloc destAlloc destAlloc' src.offset dest.offset size length := by
  have hle : size * 1 ≤ size * length := Nat.mul_le_mul_left size hlength
  have hub : src.allocId = dest.allocId →
      ¬ Memory.OverlapError src dest size nonoverlapping := by
    rintro hid ⟨-, h⟩
    have hno' := hno hid
    rw [Allocation.Overlaps] at hno'
    omega
  obtain ⟨destAlloc', hrun, hcopied⟩ := Memory.copyRepeatedly_spec hsrc hdest hwf hwf' hsize
    hlength hin hin' hcut hub
  exact ⟨destAlloc', hrun, hcopied.transferred hno⟩

namespace Sample

/-- A target with pointers of two bytes. -/
def cx : InterpCx :=
  { endian := .little, pointerSize := 2, byteOrder := .reference,
    pointerSize_pos := by decide, pointerSize_le := by decide }

/-- Four bytes, of which the first two are a pointer to allocation 7 and the last is undefined. -/
def source : Allocation Unit :=
  { bytes := [1, 0, 5, 6], relocations := ⟨[(0, (), 7)]⟩, undefMask := ⟨[7#64], 4⟩, size := 4,
    isMutable := true }

/-- Twelve bytes with pointers at 1 and at 9. -/
def target : Allocation Unit :=
  { bytes := replicate 12 9, relocations := ⟨[(1, (), 8), (9, (), 8)]⟩,
    undefMask := ⟨[4095#64], 12⟩, size := 12, isMutable := true }

def memory : Memory Unit :=
  { allocMap := fun id => if id = 0 then some source else if id = 1 then some target else none
    getStaticAlloc := fun _ => .error (.error (.other "dangling pointer was dereferenced"))
    staticKind := false }

theorem source_wf : source.WF cx :=
  ⟨rfl, rfl, by unfold UndefMask.WF; decide, by decide, by decide, by decide⟩

theorem target_wf : target.WF cx :=
  ⟨rfl, rfl, by unfold UndefMask.WF; decide, by decide, by decide, by decide⟩

end Sample

open Sample

/-- Two copies of four bytes go between the halves of two pointers. -/
theorem copyRepeatedly_transfers_twice :
    ∃ destAlloc', memory.copyRepeatedly cx ⟨0, 0, ()⟩ ⟨1, 2, ()⟩ 4 2 true =
        .ok (memory.set 1 destAlloc') ∧
      Allocation.Transferred cx source target destAlloc' 0 2 4 2 :=
  copyRepeatedly_transfers cx memory ⟨0, 0, ()⟩ ⟨1, 2, ()⟩ 4 2 true source
    target rfl rfl source_wf target_wf (by decide) (by decide) (by decide)
    (by decide) (by unfold Allocation.NoCut; decide) (by decide)

end Tortis.Interpret
