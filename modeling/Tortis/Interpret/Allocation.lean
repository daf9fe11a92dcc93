import Mathlib.Data.List.Pairwise
import Mathlib.Order.Nat
import Tortis.DataStructures.SortedMap
import Tortis.Interpret.UndefMask

/-!
# Allocations

The memory of the MIR interpreter (`librustc/mir/interpret/allocation.rs`): the bytes of an
allocation, the mask of its defined bytes, and the relocations, which say at which offsets pointers
are stored. Sizes are natural numbers: every sum in the functions below is at most the size of an
allocation, or checked. The hooks of `AllocationExtra` do nothing in the compiler and are left out,
as are the alignment and the extra state, which no function here reads.

The functions of `byteorder` that encode integers are a parameter of the model.
-/

namespace Tortis.Interpret

open Outcome List

/-! ## Values -/

inductive Endian where
  | little
  | big

abbrev AllocId := Nat

/-- `write_uint128` and `read_uint128` of `byteorder`, on vectors of bytes. -/
structure ByteOrder where
  writeUint128 : Endian → (data nbytes : Nat) → Outcome (List UInt8)
  readUint128 : Endian → List UInt8 → Outcome Nat

/-- What the interpreter's memory reads of the target. -/
structure InterpCx where
  endian : Endian
  pointerSize : Nat
  byteOrder : ByteOrder
  pointerSize_pos : 0 < pointerSize
  pointerSize_le : pointerSize ≤ 8

structure Pointer (Tag : Type) where
  allocId : AllocId
  offset : Nat
  tag : Tag
deriving DecidableEq

inductive Scalar (Tag : Type) where
  | raw (data size : Nat)
  | ptr (ptr : Pointer Tag)
deriving DecidableEq

inductive ScalarMaybeUndef (Tag : Type) where
  | scalar (scalar : Scalar Tag)
  | undef
deriving DecidableEq

/-- The errors of the interpreter that the modelled functions throw. -/
inductive InterpError where
  | readPointerAsBytes
  | readUndefBytes (idx : Nat)
  | overflow
  | modifiedConstantMemory
  | modifiedStatic
  | ub (msg : String)
  | other (msg : String)
deriving DecidableEq

/-- Why an operation of the interpreter has no value. -/
inductive Stop where
  | halt (halt : Halt)
  | error (error : InterpError)
deriving DecidableEq

/-- `InterpResult`, of an operation that may also panic. -/
abbrev InterpResult (α : Type) := Except Stop α

/-- Code that cannot throw errors, in the interpreter. -/
def InterpResult.lift {α : Type} : Outcome α → InterpResult α
  | .ok a => .ok a
  | .error halt => .error (.halt halt)

instance : MonadLift Outcome InterpResult := ⟨InterpResult.lift⟩

variable {Tag : Type}

def Scalar.toBitsOrPtr (cx : InterpCx) (targetSize : Nat) :
    Scalar Tag → Outcome (Except (Pointer Tag) Nat)
  | .raw data size => do
    assert (targetSize = size) "assertion failed: target_size.bytes() == size"
    assert (size ≠ 0) "you should never look at the bits of a ZST"
    .ok (.ok data)
  | .ptr p => do
    assert (targetSize = cx.pointerSize) "assertion failed: target_size == pointer_size"
    .ok (.error p)

def Scalar.fromUint (i size : Nat) : Outcome (Scalar Tag) := do
  assert (i < 2 ^ (8 * size)) "Unsigned value does not fit"
  .ok (.raw i size)

/-! ## Allocations -/

abbrev Relocations (Tag : Type) := SortedMap Nat (Tag × AllocId)

structure Allocation (Tag : Type) where
  bytes : List UInt8
  relocations : Relocations Tag
  undefMask : UndefMask
  size : Nat
  isMutable : Bool

namespace Allocation

def undef (size : Nat) : Outcome (Allocation Tag) := do
  let undefMask ← UndefMask.new size false
  .ok ⟨replicate size 0, .new, undefMask, size, true⟩

def checkBounds (a : Allocation Tag) (offset size : Nat) : Outcome Unit :=
  assert (offset + size ≤ a.size) "Out-of-bounds access"

section
variable (cx : InterpCx)

section
variable (a : Allocation Tag)

/-- `get_relocations`: the relocations that overlap with a range. -/
def getRelocations (offset size : Nat) : Outcome (List (Nat × Tag × AllocId)) :=
  a.relocations.range (offset - (cx.pointerSize - 1)) (offset + size)

def checkRelocations (offset size : Nat) :
    InterpResult Unit := do
  let relocations ← a.getRelocations cx offset size
  if relocations.isEmpty then .ok () else .error (.error .readPointerAsBytes)

def offset (val i : Nat) : InterpResult Nat :=
  if val + i ≥ 2 ^ (8 * cx.pointerSize) then .error (.error .overflow) else .ok (val + i)

def checkRelocationEdges (offset size : Nat) :
    InterpResult Unit := do
  a.checkRelocations cx offset 0
  let stop ← Allocation.offset cx offset size
  a.checkRelocations cx stop 0

def checkDefined (offset size : Nat) : InterpResult Unit := do
  let defined ← a.undefMask.isRangeDefined offset (offset + size)
  match defined with
  | .ok () => .ok ()
  | .error idx => .error (.error (.readUndefBytes idx))

def markDefinedness (offset size : Nat) (newState : Bool) : Outcome (Allocation Tag) :=
  if size = 0 then .ok a
  else do
    let undefMask ← a.undefMask.setRange offset (offset + size) newState
    .ok { a with undefMask }

/-- A range of bytes that are marked as undefined when it is not empty. -/
def undefineRange (m : UndefMask) (start stop : Nat) : Outcome UndefMask :=
  if start < stop then m.setRange start stop false else .ok m

def clearRelocations (offset size : Nat) :
    Outcome (Allocation Tag) := do
  let relocations ← a.getRelocations cx offset size
  match relocations with
  | [] => .ok a
  | relocation :: rest =>
    let first := relocation.1
    let last := (rest.getLastD relocation).1 + cx.pointerSize
    let start := offset
    let stop := start + size
    -- parts of the outermost relocations that are outside of the range become undefined
    let undefMask ← undefineRange a.undefMask first start
    let undefMask ← undefineRange undefMask stop last
    let relocations ← a.relocations.removeRange first last
    .ok { a with undefMask, relocations }

def getBytesInternal (offset size : Nat)
    (checkDefinedAndPtr : Bool) : InterpResult (List UInt8) := do
  a.checkBounds offset size
  if checkDefinedAndPtr then do
    a.checkDefined offset size
    a.checkRelocations cx offset size
    .ok ((a.bytes.drop offset).take size)
  else do
    a.checkRelocationEdges cx offset size
    .ok ((a.bytes.drop offset).take size)

def getBytes (offset size : Nat) : InterpResult (List UInt8) :=
  a.getBytesInternal cx offset size true

def getBytesWithUndefAndPtr (offset size : Nat) : InterpResult (List UInt8) :=
  a.getBytesInternal cx offset size false

/-- `get_bytes_mut`: the allocation in which the bytes of the range may be changed. -/
def getBytesMut (offset size : Nat) :
    Outcome (Allocation Tag) := do
  a.checkBounds offset size
  let a ← a.markDefinedness offset size true
  a.clearRelocations cx offset size

/-- An assignment to a range of the bytes. -/
def setBytes (offset : Nat) (src : List UInt8) : Allocation Tag :=
  { a with bytes := a.bytes.take offset ++ src ++ a.bytes.drop (offset + src.length) }

def writeBytes (offset : Nat) (src : List UInt8) :
    InterpResult (Allocation Tag) := do
  let a ← a.getBytesMut cx offset src.length
  .ok (a.setBytes offset src)

def readScalar (offset size : Nat) :
    InterpResult (ScalarMaybeUndef Tag) := do
  let bytes ← a.getBytesWithUndefAndPtr cx offset size
  match a.checkDefined offset size with
  | .error (.halt halt) => .error (.halt halt)
  | .error (.error _) => .ok .undef
  | .ok () => do
    let bits ← cx.byteOrder.readUint128 cx.endian bytes
    if size ≠ cx.pointerSize then do
      a.checkRelocations cx offset size
      let scalar ← Scalar.fromUint bits size
      .ok (.scalar scalar)
    else
      match a.relocations.get offset with
      | some (tag, allocId) => .ok (.scalar (.ptr ⟨allocId, bits % 2 ^ 64, tag⟩))
      | none => do
        let scalar ← Scalar.fromUint bits size
        .ok (.scalar scalar)

def writeScalar (offset : Nat) (val : ScalarMaybeUndef Tag)
    (typeSize : Nat) : InterpResult (Allocation Tag) :=
  match val with
  | .undef => (a.markDefinedness offset typeSize false : Outcome _)
  | .scalar val => do
    let bitsOrPtr ← val.toBitsOrPtr cx typeSize
    let bytes :=
      match bitsOrPtr with
      | .error ptr => ptr.offset
      | .ok data => data
    let a ← a.getBytesMut cx offset typeSize
    let dst ← cx.byteOrder.writeUint128 cx.endian bytes typeSize
    let a := a.setBytes offset dst
    match val with
    | .ptr val => .ok { a with relocations := a.relocations.insert offset (val.tag, val.allocId) }
    | .raw _ _ => .ok a

end

end

/-! ## Well-formed allocations -/

/-- Two ranges, given by their starts and sizes, overlap. -/
def Overlaps (o n o' n' : Nat) : Prop := o < o' + n' ∧ o' < o + n

instance (o n o' n' : Nat) : Decidable (Overlaps o n o' n') :=
  inferInstanceAs (Decidable (_ ∧ _))

/-- A well-formed allocation: its bytes and its mask have its size, and its relocations are inside of
it and at least the size of a pointer apart. -/
structure WF (cx : InterpCx) (a : Allocation Tag) : Prop where
  bytes : a.bytes.length = a.size
  maskLen : a.undefMask.len = a.size
  mask : a.undefMask.WF
  apart : a.relocations.data.Pairwise fun x y => x.1 + cx.pointerSize ≤ y.1
  inside : ∀ e ∈ a.relocations.data, e.1 + cx.pointerSize ≤ a.size
  small : a.size < 2 ^ (8 * cx.pointerSize)

variable {cx : InterpCx} {a a' : Allocation Tag} {off size : Nat}

theorem WF.sorted (h : a.WF cx) : a.relocations.Sorted :=
  h.apart.imp fun hxy => by
    have := cx.pointerSize_pos
    omega

theorem WF.apart_of_mem (h : a.WF cx) {e e' : Nat × Tag × AllocId} (he : e ∈ a.relocations.data)
    (he' : e' ∈ a.relocations.data) :
    e = e' ∨ e.1 + cx.pointerSize ≤ e'.1 ∨ e'.1 + cx.pointerSize ≤ e.1 := by
  have hall : ∀ x ∈ a.relocations.data, ∀ y ∈ a.relocations.data,
      x = y ∨ x.1 + cx.pointerSize ≤ y.1 ∨ y.1 + cx.pointerSize ≤ x.1 := by
    refine List.Pairwise.forall_of_forall_of_flip (fun x _ => .inl rfl) ?_ ?_
    · exact h.apart.imp fun hxy => .inr (.inl hxy)
    · exact h.apart.imp fun hxy => .inr (.inr hxy)
  exact hall e he e' he'

theorem getRelocations_eq (h : a.WF cx) : a.getRelocations cx off size =
    .ok (a.relocations.data.filter fun e => Overlaps e.1 cx.pointerSize off size) := by
  have hps := cx.pointerSize_pos
  rw [getRelocations, h.sorted.range_eq (by omega)]
  refine congrArg Except.ok (filter_congr fun e _ => ?_)
  rw [decide_eq_decide, Overlaps]
  omega

/-- What `get_bytes_mut` does to an allocation: the range is defined, the relocations that overlap
with it are gone, and their bytes outside of the range are undefined. -/
structure Cleared (cx : InterpCx) (a a' : Allocation Tag) (off size : Nat) : Prop where
  wf : a'.WF cx
  bytes : a'.bytes = a.bytes
  size_eq : a'.size = a.size
  isMutable : a'.isMutable = a.isMutable
  relocations : a'.relocations.data =
    a.relocations.data.filter fun e => ¬ Overlaps e.1 cx.pointerSize off size
  defined : ∀ i, off ≤ i → i < off + size → a'.undefMask.bit i = true
  clobbered : ∀ i, ¬ (off ≤ i ∧ i < off + size) → ∀ e ∈ a.relocations.data,
    Overlaps e.1 cx.pointerSize off size → e.1 ≤ i → i < e.1 + cx.pointerSize →
    a'.undefMask.bit i = false
  outside : ∀ i, ¬ (off ≤ i ∧ i < off + size) → (∀ e ∈ a.relocations.data,
    Overlaps e.1 cx.pointerSize off size → ¬ (e.1 ≤ i ∧ i < e.1 + cx.pointerSize)) →
    a'.undefMask.bit i = a.undefMask.bit i

theorem undefineRange_spec {m : UndefMask} (hm : m.WF) (start : Nat) {stop : Nat}
    (hstop : stop ≤ m.len) : ∃ m', undefineRange m start stop = .ok m' ∧ m'.len = m.len ∧ m'.WF ∧
      ∀ i, m'.bit i = if start ≤ i ∧ i < stop then false else m.bit i := by
  by_cases hlt : start < stop
  · rw [undefineRange, if_pos hlt]
    exact UndefMask.setRange_spec hm false hlt hstop
  · refine ⟨m, by rw [undefineRange, if_neg hlt], rfl, hm, fun i => ?_⟩
    rw [if_neg (by omega)]

theorem markDefinedness_spec (h : a.WF cx) (hin : off + size ≤ a.size) (newState : Bool) :
    ∃ m, a.markDefinedness off size newState = .ok { a with undefMask := m } ∧
      m.len = a.size ∧ m.WF ∧
      ∀ i, m.bit i = if off ≤ i ∧ i < off + size then newState else a.undefMask.bit i := by
  by_cases hsize : size = 0
  · refine ⟨a.undefMask, by rw [markDefinedness, if_pos hsize], h.maskLen, h.mask, fun i => ?_⟩
    rw [if_neg (by omega)]
  · obtain ⟨m, hrun, hlen, hm, hbit⟩ := UndefMask.setRange_spec h.mask newState
      (show off < off + size by omega) (by rw [h.maskLen]; exact hin)
    refine ⟨m, ?_, hlen.trans h.maskLen, hm, hbit⟩
    rw [markDefinedness, if_neg hsize, hrun, ok_bind]

theorem clearRelocations_spec (h : a.WF cx)
    (hdef : ∀ i, off ≤ i → i < off + size → a.undefMask.bit i = true) :
    ∃ a', a.clearRelocations cx off size = .ok a' ∧ Cleared cx a a' off size := by
  have hps := cx.pointerSize_pos
  rw [clearRelocations, getRelocations_eq h, ok_bind]
  cases hfilter : a.relocations.data.filter fun e => Overlaps e.1 cx.pointerSize off size with
  | nil =>
    have hnone : ∀ e ∈ a.relocations.data, ¬ Overlaps e.1 cx.pointerSize off size := by
      simpa [filter_eq_nil_iff] using hfilter
    refine ⟨a, rfl, h, rfl, rfl, rfl, ?_, hdef, fun i _ e he ho => absurd ho (hnone e he),
      fun _ _ _ => rfl⟩
    rw [eq_comm, filter_eq_self]
    exact fun e he => decide_eq_true (hnone e he)
  | cons r rest =>
    have hmem : ∀ e, e ∈ r :: rest ↔ e ∈ a.relocations.data ∧
        Overlaps e.1 cx.pointerSize off size := by
      intro e
      rw [← hfilter, mem_filter, decide_eq_true_eq]
    have hsorted : (r :: rest).Pairwise fun x y => x.1 < y.1 := hfilter ▸ h.sorted.filter _
    have hlast_mem : rest.getLastD r ∈ r :: rest := getLastD_mem_cons
    have hle_last := SortedMap.le_getLastD hsorted
    have hfirst_le : ∀ e ∈ r :: rest, r.1 ≤ e.1 := by
      intro e he
      rcases mem_cons.1 he with rfl | he
      · exact le_rfl
      · exact le_of_lt ((pairwise_cons.1 hsorted).1 e he)
    obtain ⟨hr, hr_over⟩ := (hmem r).1 (.head _)
    obtain ⟨hlast, hlast_over⟩ := (hmem _).1 hlast_mem
    generalize hl : rest.getLastD r = l at *
    rw [Overlaps] at hr_over hlast_over
    have hlast_inside := h.inside l hlast
    have hfirst_last := hfirst_le l hlast_mem
    -- a relocation is between the outermost ones exactly when it overlaps with the range
    have hbetween : ∀ e ∈ a.relocations.data,
        (r.1 ≤ e.1 ∧ e.1 < l.1 + cx.pointerSize) ↔ Overlaps e.1 cx.pointerSize off size := by
      intro e he
      constructor
      · rintro ⟨h1, h2⟩
        have hle : e.1 ≤ l.1 := by
          rcases h.apart_of_mem hlast he with rfl | hlt | hlt <;> omega
        exact ⟨by omega, by omega⟩
      · intro ho
        have hin := (hmem e).2 ⟨he, ho⟩
        have := hfirst_le e hin
        have := hle_last e hin
        omega
    obtain ⟨m1, hrun1, hlen1, hm1, hbit1⟩ := undefineRange_spec h.mask r.1
      (show off ≤ a.undefMask.len by rw [h.maskLen]; omega)
    obtain ⟨m2, hrun2, hlen2, hm2, hbit2⟩ := undefineRange_spec hm1
      (off + size) (show l.1 + cx.pointerSize ≤ m1.len by rw [hlen1, h.maskLen]; omega)
    have hremove := h.sorted.removeRange_eq (a := r.1) (b := l.1 + cx.pointerSize) (by omega)
    refine ⟨{ a with undefMask := m2, relocations := ⟨a.relocations.data.filter fun e =>
      ¬ (r.1 ≤ e.1 ∧ e.1 < l.1 + cx.pointerSize)⟩ }, ?_, ?_⟩
    · dsimp only
      rw [hl, hrun1, ok_bind, hrun2, ok_bind, hremove, ok_bind]
    · have hfilter' : (a.relocations.data.filter fun e =>
          ¬ (r.1 ≤ e.1 ∧ e.1 < l.1 + cx.pointerSize)) =
          a.relocations.data.filter fun e => ¬ Overlaps e.1 cx.pointerSize off size := by
        refine filter_congr fun e he => ?_
        rw [decide_eq_decide, hbetween e he]
      have hbit : ∀ i, ¬ (off ≤ i ∧ i < off + size) → m2.bit i =
          if r.1 ≤ i ∧ i < l.1 + cx.pointerSize then false else a.undefMask.bit i := by
        intro i hi
        rw [hbit2, hbit1]
        by_cases hlt : i < off
        · have hpast : ¬ (off + size ≤ i ∧ i < l.1 + cx.pointerSize) := by omega
          rw [if_neg hpast]
          congr 1
          simp only [eq_iff_iff]
          omega
        · have hbefore : ¬ (r.1 ≤ i ∧ i < off) := by omega
          rw [if_neg hbefore]
          congr 1
          simp only [eq_iff_iff]
          omega
      rw [hfilter']
      refine ⟨⟨h.bytes, hlen2.trans (hlen1.trans h.maskLen), hm2, h.apart.filter _, ?_, h.small⟩,
        rfl, rfl, rfl, rfl, ?_, ?_, ?_⟩
      · exact fun e he => h.inside e (mem_of_mem_filter he)
      · intro i h1 h2
        have hpast : ¬ (off + size ≤ i ∧ i < l.1 + cx.pointerSize) := by omega
        have hbefore : ¬ (r.1 ≤ i ∧ i < off) := by omega
        rw [hbit2, if_neg hpast, hbit1, if_neg hbefore]
        exact hdef i h1 h2
      · intro i hi e he ho h1 h2
        have hge := ((hbetween e he).2 ho).1
        have hle := hle_last e ((hmem e).2 ⟨he, ho⟩)
        rw [hbit i hi, if_pos (by omega)]
      · intro i hi hno
        have hr_cover := hno r hr hr_over
        have hlast_cover := hno l hlast hlast_over
        rw [hbit i hi, if_neg (by omega)]

theorem getBytesMut_spec (h : a.WF cx) (hin : off + size ≤ a.size) :
    ∃ a', a.getBytesMut cx off size = .ok a' ∧ Cleared cx a a' off size := by
  obtain ⟨m, hmark, hlen, hm, hbit⟩ := markDefinedness_spec h hin true
  have hwf : WF cx { a with undefMask := m } := ⟨h.bytes, hlen, hm, h.apart, h.inside, h.small⟩
  obtain ⟨a', hclear, hspec⟩ := clearRelocations_spec hwf fun i h1 h2 => by
    rw [hbit, if_pos ⟨h1, h2⟩]
  refine ⟨a', ?_, hspec.wf, hspec.bytes, hspec.size_eq, hspec.isMutable, hspec.relocations,
    hspec.defined, hspec.clobbered, fun i hi hno => ?_⟩
  · simp only [getBytesMut, checkBounds, assert, hin, decide_true, if_true, ok_bind, hmark, hclear]
  · rw [hspec.outside i hi hno, hbit, if_neg hi]

end Allocation

end Tortis.Interpret
