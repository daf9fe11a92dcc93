import Tortis.Lib.Slots
import Tortis.Lib.Slice
import Mathlib.Data.Nat.Log

/-!
# The ring buffer

`liballoc/collections/vec_deque.rs`, for elements that take space. A reference to an element is the
slot it points to, and `ptr::read` moves an element out. An index is a `usize` of 64 bits: it wraps
where the source says so, an end of a range is checked, and nowhere else does one come near the
limit. The debug assertions are made, but for the one of `wrap_index`, that the size is a power of
two.
-/

namespace Tortis.Collections

open Slots Outcome

variable {α σ : Type}

/-! ## Arithmetic -/

def wrappingAdd (a b : Nat) : Nat := (a + b) % 2 ^ 64

def wrappingSub (a b : Nat) : Nat := (a + 2 ^ 64 - b) % 2 ^ 64

def ISIZE_MAX : Nat := 2 ^ 63 - 1

/-- `next_power_of_two`, without its overflow. -/
def nextPowerOfTwo (n : Nat) : Nat := 2 ^ Nat.clog 2 n

/-- `count_ones() == 1`. -/
def isPowerOfTwo (n : Nat) : Bool := n ≠ 0 && n &&& (n - 1) = 0

def wrapIndex (index size : Nat) : Nat := index &&& (size - 1)

def count (tail head size : Nat) : Nat := wrappingSub head tail &&& (size - 1)

/-! ## The memory of a vector -/

namespace RawVec

/-- `alloc_guard` and `Layout::array`: a block takes at most `isize::MAX` bytes. -/
def allocGuard (elemSize capacity : Nat) : Outcome Unit :=
  assert (capacity * elemSize ≤ ISIZE_MAX) "capacity overflow"

def withCapacity (elemSize capacity : Nat) : Outcome (Slots α) := do
  allocGuard elemSize capacity
  .ok (List.replicate capacity none)

/-- `RawVec::double`, for a vector that has some capacity. -/
def double (elemSize : Nat) (buf : Slots α) : Outcome (Slots α) := do
  allocGuard elemSize (2 * buf.length)
  .ok (buf ++ List.replicate buf.length none)

def reserveExact (elemSize : Nat) (buf : Slots α) (usedCapacity neededExtraCapacity : Nat) :
    Outcome (Slots α) :=
  if neededExtraCapacity ≤ wrappingSub buf.length usedCapacity then .ok buf
  else do
    let newCap := usedCapacity + neededExtraCapacity
    allocGuard elemSize newCap
    .ok (buf.take newCap ++ List.replicate (newCap - buf.length) none)

def shrinkToFit (buf : Slots α) (amount : Nat) : Outcome (Slots α) := do
  assert (amount ≤ buf.length) "Tried to shrink to a larger capacity"
  .ok (buf.take amount)

end RawVec

structure VecDeque (α : Type) where
  tail : Nat
  head : Nat
  buf : Slots α
deriving DecidableEq

/-- A slice of the buffer: its first slot and its length. -/
structure Span where
  start : Nat
  len : Nat

namespace Span

/-- `&buf[from..to]`. -/
def slice (buf : Span) (first last : Nat) : Outcome Span := do
  assert (first ≤ last && last ≤ buf.len) "slice index out of range"
  .ok ⟨buf.start + first, last - first⟩

def splitAt (buf : Span) (i : Nat) : Outcome (Span × Span) := do
  assert (i ≤ buf.len) "assertion failed: mid <= len"
  .ok (⟨buf.start, i⟩, ⟨buf.start + i, buf.len - i⟩)

def ringSlices (buf : Span) (head tail : Nat) : Outcome (Span × Span) :=
  if tail ≤ head then do
    let (empty, buf) ← buf.splitAt 0
    let buf ← buf.slice tail head
    .ok (buf, empty)
  else do
    let (mid, right) ← buf.splitAt tail
    let (left, _) ← mid.splitAt head
    .ok (right, left)

end Span

namespace VecDeque

section
variable (self : VecDeque α)

def cap : Nat := self.buf.length

def wrapAdd (idx addend : Nat) : Nat :=
  wrapIndex (wrappingAdd idx addend) self.cap

def wrapSub (idx subtrahend : Nat) : Nat :=
  wrapIndex (wrappingSub idx subtrahend) self.cap

def len : Nat := count self.tail self.head self.cap

def isEmpty : Bool := self.tail = self.head

def isFull : Bool := self.cap - self.len = 1

def isContiguous : Bool := self.tail ≤ self.head

def capacity : Nat := self.cap - 1

/-! ## Copying blocks -/

def assertCopy (msg : String) (dst src len : Nat) : Outcome Unit := do
  assert (dst + len ≤ self.cap) msg
  assert (src + len ≤ self.cap) msg

def copy (self : VecDeque α) (dst src len : Nat) : Outcome (VecDeque α) := do
  self.assertCopy "cpy" dst src len
  let buf ← self.buf.copy dst src len
  .ok { self with buf }

def copyNonoverlapping (self : VecDeque α) (dst src len : Nat) : Outcome (VecDeque α) := do
  self.assertCopy "cno" dst src len
  let buf ← self.buf.copyNonoverlapping dst src len
  .ok { self with buf }

def diff (a b : Nat) : Nat := if a ≤ b then b - a else a - b

/-- `VecDeque::wrap_copy`, by where the blocks wrap. -/
def wrapCopyCases (dst src len : Nat) : Outcome (VecDeque α) :=
  let srcPreWrapLen := self.cap - src
  let dstPreWrapLen := self.cap - dst
  match decide (self.wrapSub dst src < len), decide (srcPreWrapLen < len),
    decide (dstPreWrapLen < len) with
  | _, false, false => self.copy dst src len
  | false, false, true => do
    let self ← self.copy dst src dstPreWrapLen
    self.copy 0 (src + dstPreWrapLen) (len - dstPreWrapLen)
  | true, false, true => do
    let self ← self.copy 0 (src + dstPreWrapLen) (len - dstPreWrapLen)
    self.copy dst src dstPreWrapLen
  | false, true, false => do
    let self ← self.copy dst src srcPreWrapLen
    self.copy (dst + srcPreWrapLen) 0 (len - srcPreWrapLen)
  | true, true, false => do
    let self ← self.copy (dst + srcPreWrapLen) 0 (len - srcPreWrapLen)
    self.copy dst src srcPreWrapLen
  | false, true, true => do
    assert (srcPreWrapLen < dstPreWrapLen)
      "assertion failed: dst_pre_wrap_len > src_pre_wrap_len"
    let delta := dstPreWrapLen - srcPreWrapLen
    let self ← self.copy dst src srcPreWrapLen
    let self ← self.copy (dst + srcPreWrapLen) 0 delta
    self.copy 0 delta (len - dstPreWrapLen)
  | true, true, true => do
    assert (dstPreWrapLen < srcPreWrapLen)
      "assertion failed: src_pre_wrap_len > dst_pre_wrap_len"
    let delta := srcPreWrapLen - dstPreWrapLen
    let self ← self.copy delta 0 (len - srcPreWrapLen)
    let self ← self.copy 0 (self.cap - delta) delta
    self.copy dst src dstPreWrapLen

def wrapCopy (dst src len : Nat) : Outcome (VecDeque α) := do
  assert (min (diff dst src) (self.cap - diff dst src) + len ≤ self.cap) "wrc"
  if src = dst ∨ len = 0 then .ok self else self.wrapCopyCases dst src len

/-- The debug assertions after a new capacity. -/
def assertWithin : Outcome Unit := do
  assert (self.head < self.cap) "assertion failed: self.head < self.cap()"
  assert (self.tail < self.cap) "assertion failed: self.tail < self.cap()"
  assert (isPowerOfTwo self.cap)
    "assertion failed: self.cap().count_ones() == 1"

/-- `VecDeque::handle_capacity_increase`, up to its last assertions. -/
def moveShortest (oldCapacity : Nat) : Outcome (VecDeque α) :=
  if self.tail ≤ self.head then .ok self
  else if self.head < oldCapacity - self.tail then do
    let self ← self.copyNonoverlapping oldCapacity 0 self.head
    let self := { self with head := self.head + oldCapacity }
    assert (self.tail < self.head) "assertion failed: self.head > self.tail"
    .ok self
  else do
    let newTail := self.cap - (oldCapacity - self.tail)
    let self ← self.copyNonoverlapping newTail self.tail (oldCapacity - self.tail)
    let self := { self with tail := newTail }
    assert (self.head < self.tail) "assertion failed: self.head < self.tail"
    .ok self

def handleCapacityIncrease (oldCapacity : Nat) : Outcome (VecDeque α) := do
  let self ← self.moveShortest oldCapacity
  self.assertWithin
  .ok self

/-! ## Capacity -/

def withCapacity (elemSize capacity : Nat) : Outcome (VecDeque α) := do
  let cap := nextPowerOfTwo (max (capacity + 1) 2)
  assert (capacity < cap && cap < 2 ^ 64) "capacity overflow"
  let buf ← RawVec.withCapacity elemSize cap
  .ok ⟨0, 0, buf⟩

def reserve (elemSize : Nat) (self : VecDeque α) (additional : Nat) : Outcome (VecDeque α) := do
  let oldCap := self.cap
  let usedCap := self.len + 1
  let newCap := nextPowerOfTwo (usedCap + additional)
  assert (usedCap + additional < 2 ^ 64 && newCap < 2 ^ 64) "capacity overflow"
  if oldCap < newCap then do
    let buf ← RawVec.reserveExact elemSize self.buf usedCap (newCap - usedCap)
    handleCapacityIncrease { self with buf } oldCap
  else .ok self

/-- `VecDeque::shrink_to`, where elements are moved into the bounds of the new capacity. -/
def moveInside (targetCap : Nat) : Outcome (VecDeque α) :=
  let headOutside := self.head = 0 ∨ targetCap ≤ self.head
  if targetCap ≤ self.tail ∧ headOutside then do
    let self ← self.copyNonoverlapping 0 self.tail self.len
    .ok { self with head := self.len, tail := 0 }
  else if self.tail ≠ 0 ∧ self.tail < targetCap ∧ headOutside then do
    let len := self.wrapSub self.head targetCap
    let self ← self.copyNonoverlapping 0 targetCap len
    let self := { self with head := len }
    assert (self.head < self.tail) "assertion failed: self.head < self.tail"
    .ok self
  else if targetCap ≤ self.tail then do
    assert (self.wrapSub self.head 1 < targetCap)
      "assertion failed: self.wrap_sub(self.head, 1) < target_cap"
    let len := self.cap - self.tail
    let newTail := targetCap - len
    let self ← self.copyNonoverlapping newTail self.tail len
    let self := { self with tail := newTail }
    assert (self.head < self.tail) "assertion failed: self.head < self.tail"
    .ok self
  else .ok self

def shrinkTo (minCapacity : Nat) : Outcome (VecDeque α) := do
  assert (minCapacity ≤ self.capacity) "Tried to shrink to a larger capacity"
  let targetCap := nextPowerOfTwo (max (max minCapacity self.len + 1) 2)
  if targetCap < self.cap then do
    let self ← self.moveInside targetCap
    let buf ← RawVec.shrinkToFit self.buf targetCap
    let self := { self with buf }
    self.assertWithin
    .ok self
  else .ok self

def growIfNecessary (elemSize : Nat) (self : VecDeque α) : Outcome (VecDeque α) :=
  if self.isFull then do
    let oldCap := self.cap
    let buf ← RawVec.double elemSize self.buf
    let self ← handleCapacityIncrease { self with buf } oldCap
    assert (!self.isFull) "assertion failed: !self.is_full()"
    .ok self
  else .ok self

/-! ## Reading -/

def get (index : Nat) : Outcome (Option α) :=
  if index < self.len then do
    let elt ← self.buf.read (self.wrapAdd self.tail index)
    .ok (some elt)
  else .ok none

def index (self : VecDeque α) (index : Nat) : Outcome α := do
  let elt ← self.get index
  expect "Out of bounds access" elt

def asMutSlices : Outcome (Span × Span) :=
  Span.ringSlices ⟨0, self.cap⟩ self.head self.tail

def asSlices : Outcome (List α × List α) := do
  let (front, back) ← self.asMutSlices
  let front ← self.buf.readBlock front.start front.len
  let back ← self.buf.readBlock back.start back.len
  .ok (front, back)

end

/-- `Iter`, with the size of its ring. -/
structure Iter where
  ringLen : Nat
  tail : Nat
  head : Nat

def Iter.next (self : Iter) : Option Nat × Iter :=
  if self.tail = self.head then (none, self)
  else (some self.tail, { self with tail := wrapIndex (wrappingAdd self.tail 1) self.ringLen })

def Iter.nextBack (self : Iter) : Option Nat × Iter :=
  if self.tail = self.head then (none, self)
  else
    let head := wrapIndex (wrappingSub self.head 1) self.ringLen
    (some head, { self with head })

/-- `Iter::next_back` or `Iter::next`. -/
def Iter.nextFrom (self : Iter) (back : Bool) : Option Nat × Iter :=
  if back then self.nextBack else self.next

section
variable (self : VecDeque α)

def iter : Iter := ⟨self.cap, self.tail, self.head⟩

/-- A reference that an iterator gives is read. -/
def deref (buf : Slots α) : Option Nat → Outcome (Option α)
  | some p => do
    let a ← buf.read p
    .ok (some a)
  | none => .ok none

/-- What an iterator gives, asked from these ends. -/
def Iter.collect (buf : Slots α) : Iter → List Bool → Outcome (List (Option α))
  | _, [] => .ok []
  | it, back :: ends => do
    let elt ← deref buf (it.nextFrom back).1
    let elts ← Iter.collect buf (it.nextFrom back).2 ends
    .ok (elt :: elts)

/-! ## Single elements -/

def swap (i j : Nat) : Outcome (VecDeque α) := do
  assert (i < self.len) "assertion failed: i < self.len()"
  assert (j < self.len) "assertion failed: j < self.len()"
  let ri := self.wrapAdd self.tail i
  let rj := self.wrapAdd self.tail j
  let a ← self.buf.read ri
  let b ← self.buf.read rj
  .ok { self with buf := (self.buf.set ri (some b)).set rj (some a) }

def popFront : Outcome (Option α × VecDeque α) :=
  if self.isEmpty then .ok (none, self)
  else do
    let (elt, buf) ← self.buf.moveOut self.tail
    .ok (some elt, { self with tail := self.wrapAdd self.tail 1, buf })

def popBack : Outcome (Option α × VecDeque α) :=
  if self.isEmpty then .ok (none, self)
  else do
    let head := self.wrapSub self.head 1
    let (elt, buf) ← self.buf.moveOut head
    .ok (some elt, { self with head, buf })

def pushFront (elemSize : Nat) (self : VecDeque α) (value : α) : Outcome (VecDeque α) := do
  let self ← self.growIfNecessary elemSize
  let tail := self.wrapSub self.tail 1
  let buf ← self.buf.write tail value
  .ok { self with tail, buf }

def pushBack (elemSize : Nat) (self : VecDeque α) (value : α) : Outcome (VecDeque α) := do
  let self ← self.growIfNecessary elemSize
  let head := self.head
  let buf ← self.buf.write head value
  .ok { self with head := self.wrapAdd head 1, buf }

def swapRemoveFront (index : Nat) : Outcome (Option α × VecDeque α) := do
  let length := self.len
  if 0 < length ∧ index < length ∧ index ≠ 0 then do
    let self ← self.swap index 0
    self.popFront
  else if length ≤ index then .ok (none, self)
  else self.popFront

def swapRemoveBack (index : Nat) : Outcome (Option α × VecDeque α) := do
  let length := self.len
  if 0 < length ∧ index < length - 1 then do
    let self ← self.swap index (length - 1)
    self.popBack
  else if length ≤ index then .ok (none, self)
  else self.popBack

/-! ## Insertion and removal -/

/-- `VecDeque::insert`, by the cases it tells apart. -/
def insertCases (index idx : Nat) : Outcome (VecDeque α) :=
  let distanceToTail := index
  let distanceToHead := self.len - index
  match self.isContiguous, decide (distanceToTail ≤ distanceToHead), decide (self.tail ≤ idx) with
  | true, true, _ =>
    if index = 0 then .ok { self with tail := self.wrapSub self.tail 1 }
    else do
      let newTail := self.wrapSub self.tail 1
      let self ← self.copy newTail self.tail 1
      let self ← self.copy self.tail (self.tail + 1) (index - 1)
      .ok { self with tail := newTail }
  | true, false, _ => do
    let self ← self.copy (idx + 1) idx (self.head - idx)
    .ok { self with head := self.wrapAdd self.head 1 }
  | false, true, true => do
    let self ← self.copy (self.tail - 1) self.tail index
    .ok { self with tail := self.tail - 1 }
  | false, false, true => do
    let self ← self.copy 1 0 self.head
    let self ← self.copy 0 (self.cap - 1) 1
    let self ← self.copy (idx + 1) idx (self.cap - 1 - idx)
    .ok { self with head := self.head + 1 }
  | false, true, false =>
    if idx = 0 then do
      let self ← self.copy (self.tail - 1) self.tail (self.cap - self.tail)
      let self ← self.copy (self.cap - 1) 0 1
      .ok { self with tail := self.tail - 1 }
    else do
      let self ← self.copy (self.tail - 1) self.tail (self.cap - self.tail)
      let self ← self.copy (self.cap - 1) 0 1
      let self ← self.copy 0 1 (idx - 1)
      .ok { self with tail := self.tail - 1 }
  | false, false, false => do
    let self ← self.copy (idx + 1) idx (self.head - idx)
    .ok { self with head := self.head + 1 }

def insert (elemSize : Nat) (self : VecDeque α) (index : Nat) (value : α) :
    Outcome (VecDeque α) := do
  assert (index ≤ self.len) "index out of bounds"
  let self ← self.growIfNecessary elemSize
  let self ← self.insertCases index (self.wrapAdd self.tail index)
  let buf ← self.buf.write (self.wrapAdd self.tail index) value
  .ok { self with buf }

/-- `VecDeque::remove`, the case where elements of both sections are moved up to the head. -/
def removeAcross (idx : Nat) : Outcome (VecDeque α) := do
  let self ← self.copy idx (idx + 1) (self.cap - idx - 1)
  if self.head ≠ 0 then do
    let self ← self.copy (self.cap - 1) 0 1
    self.copy 0 1 (self.head - 1)
  else .ok self

/-- `VecDeque::remove`, by the cases it tells apart. -/
def removeCases (index idx : Nat) : Outcome (VecDeque α) :=
  let distanceToTail := index
  let distanceToHead := self.len - index
  match self.isContiguous, decide (distanceToTail ≤ distanceToHead), decide (self.tail ≤ idx) with
  | true, true, _ => do
    let self ← self.copy (self.tail + 1) self.tail index
    .ok { self with tail := self.tail + 1 }
  | true, false, _ => do
    let self ← self.copy idx (idx + 1) (self.head - idx - 1)
    .ok { self with head := self.head - 1 }
  | false, true, true => do
    let self ← self.copy (self.tail + 1) self.tail index
    .ok { self with tail := self.wrapAdd self.tail 1 }
  | false, false, false => do
    let self ← self.copy idx (idx + 1) (self.head - idx - 1)
    .ok { self with head := self.head - 1 }
  | false, false, true => do
    let self ← self.removeAcross idx
    .ok { self with head := self.wrapSub self.head 1 }
  | false, true, false => do
    let self ← self.copy 1 0 idx
    let self ← self.copy 0 (self.cap - 1) 1
    let self ← self.copy (self.tail + 1) self.tail (self.cap - self.tail - 1)
    .ok { self with tail := self.wrapAdd self.tail 1 }

def remove (index : Nat) : Outcome (Option α × VecDeque α) :=
  if self.isEmpty ∨ self.len ≤ index then .ok (none, self)
  else do
    let idx := self.wrapAdd self.tail index
    let (elem, buf) ← self.buf.moveOut idx
    let self ← removeCases { self with buf } index idx
    .ok (some elem, self)

end

/-! ## Many elements -/

/-- The loop of `truncate`. -/
def popBackTimes : Nat → VecDeque α → Outcome (VecDeque α)
  | 0, self => .ok self
  | n + 1, self => do
    let (_, self) ← self.popBack
    popBackTimes n self

def truncate (self : VecDeque α) (len : Nat) : Outcome (VecDeque α) :=
  popBackTimes (self.len - len) self

/-- The body of the loop of `retain`, when `f` has answered. -/
def keep (self : VecDeque α) (i del : Nat) (kept : Bool) : Outcome (Nat × VecDeque α) :=
  if !kept then .ok (del + 1, self)
  else if 0 < del then do
    let self ← self.swap (i - del) i
    .ok (del, self)
  else .ok (del, self)

/-- The loop of `retain`: `n` elements are left, from the one at `i` on. -/
def retainLoop (f : σ → α → Bool × σ) :
    Nat → Nat → Nat → VecDeque α → σ → Outcome (Nat × VecDeque α × σ)
  | 0, _, del, self, s => .ok (del, self, s)
  | n + 1, i, del, self, s => do
    let elt ← self.index i
    let (del, self) ← self.keep i del (f s elt).1
    retainLoop f n (i + 1) del self (f s elt).2

/-- `VecDeque::retain`. The closure has a state. -/
def retain (f : σ → α → Bool × σ) (self : VecDeque α) (s : σ) : Outcome (VecDeque α × σ) := do
  let len := self.len
  let (del, self, s) ← retainLoop f len 0 0 self s
  if 0 < del then do
    let self ← self.truncate (len - del)
    .ok (self, s)
  else .ok (self, s)

def extend (elemSize : Nat) (self : VecDeque α) (elts : List α) : Outcome (VecDeque α) :=
  elts.foldlM (pushBack elemSize) self

/-- `extend` with the values of a closure. -/
def extendWith (elemSize : Nat) (generator : σ → α × σ) :
    Nat → VecDeque α → σ → Outcome (VecDeque α × σ)
  | 0, self, s => .ok (self, s)
  | n + 1, self, s => do
    let self ← self.pushBack elemSize (generator s).1
    extendWith elemSize generator n self (generator s).2

def resizeWith (elemSize : Nat) (self : VecDeque α) (newLen : Nat) (generator : σ → α × σ)
    (s : σ) : Outcome (VecDeque α × σ) :=
  if self.len < newLen then extendWith elemSize generator (newLen - self.len) self s
  else do
    let self ← self.truncate newLen
    .ok (self, s)

section
variable (self : VecDeque α)

def rotateLeftInner (mid : Nat) : Outcome (VecDeque α) := do
  assert (mid * 2 ≤ self.len) "assertion failed: mid * 2 <= self.len()"
  let self ← self.wrapCopy self.head self.tail mid
  .ok { self with head := self.wrapAdd self.head mid, tail := self.wrapAdd self.tail mid }

def rotateRightInner (k : Nat) : Outcome (VecDeque α) := do
  assert (k * 2 ≤ self.len) "assertion failed: k * 2 <= self.len()"
  let self := { self with head := self.wrapSub self.head k, tail := self.wrapSub self.tail k }
  self.wrapCopy self.tail self.head k

def rotateLeft (mid : Nat) : Outcome (VecDeque α) := do
  assert (mid ≤ self.len) "assertion failed: mid <= self.len()"
  let k := self.len - mid
  if mid ≤ k then self.rotateLeftInner mid else self.rotateRightInner k

def rotateRight (k : Nat) : Outcome (VecDeque α) := do
  assert (k ≤ self.len) "assertion failed: k <= self.len()"
  let mid := self.len - k
  if k ≤ mid then self.rotateRightInner k else self.rotateLeftInner mid

end

/-! ## Draining -/

inductive Bound where
  | included (n : Nat)
  | excluded (n : Nat)
  | unbounded

/-- The index after one that a range names. -/
def checkedSucc (n : Nat) : Outcome Nat := do
  assert (n + 1 < 2 ^ 64) "attempt to add with overflow"
  .ok (n + 1)

def Bound.start : Bound → Outcome Nat
  | .included n => .ok n
  | .excluded n => checkedSucc n
  | .unbounded => .ok 0

/-- Where a range of a sequence of length `len` ends. -/
def Bound.end_ (len : Nat) : Bound → Outcome Nat
  | .included n => checkedSucc n
  | .excluded n => .ok n
  | .unbounded => .ok len

/-- `Drain`. Its references point into the buffer of the deque. -/
structure Drain (α : Type) where
  afterTail : Nat
  afterHead : Nat
  iter : Iter
  deque : VecDeque α

def drain (self : VecDeque α) (start end_ : Bound) : Outcome (Drain α) := do
  let len := self.len
  let start ← start.start
  let end_ ← end_.end_ len
  assert (start ≤ end_) "drain lower bound was too large"
  assert (end_ ≤ len) "drain upper bound was too large"
  let drainTail := self.wrapAdd self.tail start
  let drainHead := self.wrapAdd self.tail end_
  let head := self.head
  .ok ⟨drainHead, head, ⟨self.cap, drainTail, drainHead⟩, { self with head := drainTail }⟩

namespace Drain

/-- `Drain::next_back` or `Drain::next`: the element is read out of the buffer. -/
def nextFrom (self : Drain α) (back : Bool) : Outcome (Option α × Drain α) :=
  match self.iter.nextFrom back with
  | (some p, iter) => do
    let (elt, buf) ← self.deque.buf.moveOut p
    .ok (some elt, { self with iter, deque := { self.deque with buf } })
  | (none, iter) => .ok (none, { self with iter })

/-- What a drain gives, asked from these ends. -/
def take : Drain α → List Bool → Outcome (List (Option α) × Drain α)
  | self, [] => .ok ([], self)
  | self, back :: ends => do
    let (elt, self) ← self.nextFrom back
    let (elts, self) ← take self ends
    .ok (elt :: elts, self)

/-- `for_each(drop)`. -/
def dropAll : Nat → Drain α → Outcome (Drain α)
  | 0, _ => .error .outOfFuel
  | fuel + 1, self => do
    match ← self.nextFrom false with
    | (some _, self) => dropAll fuel self
    | (none, self) => .ok self

/-- `Drain::drop`, after the elements that were left. -/
def closeHole (self : Drain α) : Outcome (VecDeque α) :=
  let deque := self.deque
  let origTail := deque.tail
  let drainTail := deque.head
  let drainHead := self.afterTail
  let origHead := self.afterHead
  let tailLen := count origTail drainTail deque.cap
  let headLen := count drainHead origHead deque.cap
  let deque := { deque with head := origHead }
  if tailLen = 0 ∧ headLen = 0 then .ok { deque with head := 0, tail := 0 }
  else if tailLen = 0 then .ok { deque with tail := drainHead }
  else if headLen = 0 then .ok { deque with head := drainTail }
  else if tailLen ≤ headLen then
    let deque := { deque with tail := deque.wrapSub drainHead tailLen }
    deque.wrapCopy deque.tail origTail tailLen
  else
    let deque := { deque with head := deque.wrapAdd drainTail headLen }
    deque.wrapCopy drainTail drainHead headLen

def drop (self : Drain α) : Outcome (VecDeque α) := do
  let self ← dropAll (self.deque.cap + 1) self
  self.closeHole

end Drain

/-- A drain is taken from these ends, then dropped. -/
def drainTake (self : VecDeque α) (start end_ : Bound) (ends : List Bool) :
    Outcome (List (Option α) × VecDeque α) := do
  let drain ← self.drain start end_
  let (elts, drain) ← drain.take ends
  let self ← drain.drop
  .ok (elts, self)

/-! ## Two buffers -/

/-- `VecDeque::split_off`, where the elements are copied. -/
def copyOff (self other : VecDeque α) (atIndex : Nat) : Outcome (VecDeque α) := do
  let (firstHalf, secondHalf) ← self.asMutSlices
  let firstLen := firstHalf.len
  let secondLen := secondHalf.len
  if atIndex < firstLen then do
    let amountInFirst := firstLen - atIndex
    let buf ← other.buf.copyFrom 0 self.buf (firstHalf.start + atIndex) amountInFirst
    let buf ← buf.copyFrom amountInFirst self.buf secondHalf.start secondLen
    .ok { other with buf }
  else do
    let offset := atIndex - firstLen
    let amountInSecond := secondLen - offset
    let buf ← other.buf.copyFrom 0 self.buf (secondHalf.start + offset) amountInSecond
    .ok { other with buf }

def splitOff (elemSize : Nat) (self : VecDeque α) (atIndex : Nat) :
    Outcome (VecDeque α × VecDeque α) := do
  let len := self.len
  assert (atIndex ≤ len) "`at` out of bounds"
  let otherLen := len - atIndex
  let other ← withCapacity elemSize otherLen
  let other ← self.copyOff other atIndex
  .ok ({ self with head := self.wrapSub self.head otherLen },
    { other with head := wrapIndex otherLen other.cap })

def extendDrain (elemSize : Nat) :
    Nat → VecDeque α → Drain α → Outcome (VecDeque α × Drain α)
  | 0, _, _ => .error .outOfFuel
  | fuel + 1, self, drain => do
    match ← drain.nextFrom false with
    | (some elt, drain) => do
      let self ← self.pushBack elemSize elt
      extendDrain elemSize fuel self drain
    | (none, drain) => .ok (self, drain)

def append (elemSize : Nat) (self other : VecDeque α) : Outcome (VecDeque α × VecDeque α) := do
  let drain ← other.drain .unbounded .unbounded
  let (self, drain) ← extendDrain elemSize (other.cap + 1) self drain
  let other ← drain.drop
  .ok (self, other)

/-- `PairSlices`: the slices of the deque that is written, and the elements of the other. -/
structure PairSlices (α : Type) where
  a0 : Span
  a1 : Span
  b0 : List α
  b1 : List α

/-- `PairSlices::from`. -/
def PairSlices.new (target source : VecDeque α) : Outcome (PairSlices α) := do
  let (a0, a1) ← target.asMutSlices
  let (b0, b1) ← source.asSlices
  .ok ⟨a0, a1, b0, b1⟩

def PairSlices.next (self : PairSlices α) : Option (Span × List α) × PairSlices α :=
  let part := min self.a0.len self.b0.length
  if part = 0 then (none, self)
  else
    let p1 : Span := ⟨self.a0.start + part, self.a0.len - part⟩
    let q1 := self.b0.drop part
    (some (⟨self.a0.start, part⟩, self.b0.take part),
      { a0 := if p1.len = 0 then self.a1 else p1
        a1 := if p1.len = 0 then ⟨0, 0⟩ else self.a1
        b0 := if q1.isEmpty then self.b1 else q1
        b1 := if q1.isEmpty then [] else self.b1 })

def cloneFromSlice (clone : α → α) (self : VecDeque α) (dst : Span) (src : List α) :
    Outcome (VecDeque α) := do
  assert (dst.len = src.length) "destination and source slices have different lengths"
  let buf ← self.buf.writeBlock dst.start (src.map clone)
  .ok { self with buf }

/-- The loop of `clone_from`. The fuel bounds its iterations. -/
def cloneLoop (clone : α → α) :
    Nat → VecDeque α → PairSlices α → Outcome (VecDeque α × PairSlices α)
  | 0, _, _ => .error .outOfFuel
  | fuel + 1, self, iter =>
    match iter.next with
    | (some (dst, src), iter) => do
      let self ← self.cloneFromSlice clone dst src
      cloneLoop clone fuel self iter
    | (none, iter) => .ok (self, iter)

def cloneFrom (elemSize : Nat) (clone : α → α) (self other : VecDeque α) :
    Outcome (VecDeque α) := do
  let self ← self.truncate other.len
  let iter ← PairSlices.new self other
  let (self, iter) ← cloneLoop clone (self.cap + 1) self iter
  if !iter.b0.isEmpty then do
    let self ← self.extend elemSize (iter.b0.map clone)
    self.extend elemSize (iter.b1.map clone)
  else .ok self

end VecDeque

end Tortis.Collections
