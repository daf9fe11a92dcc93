import Tortis.Sort.MergeSort
import Mathlib.Data.Nat.Log
import Mathlib.Data.Nat.Size

/-!
# The unstable sort

`libcore/slice/sort.rs`, for elements of a size other than zero and a `usize` of 64 bits. A pointer
into the slice is an index; where one is moved back, it halts in front of the slice. `v` of a
function that swaps parts of it is passed and returned.
-/

namespace Tortis.Sort

open Slice Compare

variable {α σ : Type}

/-! ## Insertion sorts -/

section
variable (isLess : IsLess α σ)

def shiftHead (v : List α) : Asking σ (List α) := insertHead isLess v

/-- The loop of `shift_tail`, which goes down from `i`: the place of the hole. -/
def shiftTailLoop (isLess : IsLess α σ) (tmp : α) :
    Nat → Nat → List α → Asking σ (Nat × List α)
  | 0, dest, v => pure (dest, v)
  | i + 1, dest, v => do
    let a ← Slice.get v i
    if !(← ask isLess tmp a) then pure (dest, v)
    else do
      let v ← Slice.set v (i + 1) a
      shiftTailLoop isLess tmp i i v

def shiftTail (v : List α) : Asking σ (List α) := do
  let len := v.length
  if 2 ≤ len then do
    let last ← Slice.get v (len - 1)
    let before ← Slice.get v (len - 2)
    if ← ask isLess last before then do
      let tmp := last
      let v ← Slice.set v (len - 1) before
      let (dest, v) ← shiftTailLoop isLess tmp (len - 2) (len - 2) v
      Slice.set v dest tmp
    else pure v
  else pure v

/-- The inner loop of `partial_insertion_sort`, with `k` iterations left: the place of a pair that
is out of order, or the end. -/
def findUnordered (isLess : IsLess α σ) (v : List α) : Nat → Nat → Asking σ Nat
  | 0, i => pure i
  | k + 1, i => do
    let a ← Slice.get v i
    let b ← Slice.get v (i - 1)
    if !(← ask isLess a b) then findUnordered isLess v k (i + 1) else pure i

/-- The loop of `partial_insertion_sort`, with `steps` iterations left. -/
def partialInsertionLoop (isLess : IsLess α σ) :
    Nat → Nat → List α → Asking σ (Bool × List α)
  | 0, _, v => pure (false, v)
  | steps + 1, i, v => do
    let len := v.length
    let i ← findUnordered isLess v (len - i) i
    if i = len then pure (true, v)
    else if len < 50 then pure (false, v)
    else do
      let v ← swap v (i - 1) i
      let v ← inRange v 0 i (shiftTail isLess)
      let v ← inRange v i v.length (shiftHead isLess)
      partialInsertionLoop isLess steps i v

def partialInsertionSort (v : List α) : Asking σ (Bool × List α) :=
  partialInsertionLoop isLess 5 1 v

/-- The loop of `insertion_sort`, with `k` iterations left. -/
def tailInsertionLoop (isLess : IsLess α σ) : Nat → Nat → List α → Asking σ (List α)
  | 0, _, v => pure v
  | k + 1, i, v => do
    let v ← inRange v 0 (i + 1) (shiftTail isLess)
    tailInsertionLoop isLess k (i + 1) v

def tailInsertionSort (v : List α) : Asking σ (List α) :=
  tailInsertionLoop isLess (v.length - 1) 1 v

/-! ## `heapsort` -/

def greaterChild (v : List α) (node : Nat) : Asking σ Nat := do
  let left := 2 * node + 1
  let right := 2 * node + 2
  if right < v.length then do
    let l ← Slice.get v left
    let r ← Slice.get v right
    if ← ask isLess l r then pure right else pure left
  else pure left

/-- `sift_down`. The fuel bounds the number of steps. -/
def siftDown (isLess : IsLess α σ) : Nat → List α → Nat → Asking σ (List α)
  | 0, _, _ => throw .outOfFuel
  | n + 1, v, node => do
    let greater ← greaterChild isLess v node
    if v.length ≤ greater then pure v
    else do
      let a ← Slice.get v node
      let b ← Slice.get v greater
      if !(← ask isLess a b) then pure v
      else do
        let v ← swap v node greater
        siftDown isLess n v greater

/-- The loop that builds the heap, with `i` iterations left. -/
def buildHeap (isLess : IsLess α σ) : Nat → List α → Asking σ (List α)
  | 0, v => pure v
  | i + 1, v => do
    let v ← siftDown isLess (v.length + 1) v i
    buildHeap isLess i v

/-- The loop that pops maximal elements, with `i` iterations left. -/
def popMaximal (isLess : IsLess α σ) : Nat → List α → Asking σ (List α)
  | 0, v => pure v
  | i + 1, v => do
    let v ← swap v 0 (i + 1)
    let v ← inRange v 0 (i + 1) fun s => siftDown isLess (s.length + 1) s 0
    popMaximal isLess i v

def heapsort (v : List α) : Asking σ (List α) := do
  let v ← buildHeap isLess (v.length / 2) v
  popMaximal isLess (v.length - 1) v

/-! ## `partition_in_blocks` -/

def BLOCK : Nat := 128

def width (l r : Nat) : Outcome Nat := do
  Outcome.assert (l ≤ r) "attempt to subtract with overflow"
  .ok (r - l)

/-- `r.offset(-(i as isize) - 1)`. -/
def back (r i : Nat) : Outcome Nat := do
  Outcome.assert (i < r) "pointer out of bounds"
  .ok (r - 1 - i)

/-- The variables of one side: `block_l`, `start_l`, `end_l` and `offsets_l`, or those of the right
one. `start` and `end_` are places of `offsets`; they are equal when both pointers are null. -/
structure Block where
  block : Nat
  start : Nat
  end_ : Nat
  offsets : Buffer Nat

/-- A side before the first block. -/
def Block.new : Block := ⟨BLOCK, 0, 0, List.replicate BLOCK none⟩

/-- The loop that traces a block whose elements are at `place`, with `k` iterations left: those for
which the comparator answers `out` are out of order. -/
def traceLoop (isLess : IsLess α σ) (v : List α) (pivot : α) (place : Nat → Outcome Nat)
    (out : Bool) : Nat → Nat → Nat → Buffer Nat → Asking σ (Nat × Buffer Nat)
  | 0, _, end_, offsets => pure (end_, offsets)
  | k + 1, i, end_, offsets => do
    let offsets ← Slice.set offsets end_ (some (i % 256))
    let elem ← Slice.get v (← place i)
    let less ← ask isLess elem pivot
    traceLoop isLess v pivot place out k (i + 1) (if less = out then end_ + 1 else end_) offsets

/-- The block of a side is traced when the one before it is used up. -/
def Block.trace (v : List α) (pivot : α) (place : Nat → Outcome Nat)
    (out : Bool) (side : Block) : Asking σ Block :=
  if side.start = side.end_ then do
    let (end_, offsets) ← traceLoop isLess v pivot place out side.block 0 0 side.offsets
    pure { side with start := 0, end_ := end_, offsets := offsets }
  else pure side

/-- The place of the `i`-th element of the left block. -/
def leftPlace (l i : Nat) : Outcome Nat := .ok (l + i)

/-- The place that the offset at `start` stands for. -/
def placeAt (place : Nat → Outcome Nat) (offsets : Buffer Nat) (start : Nat) : Outcome Nat := do
  let i ← offsets.get start
  place i

/-- `left!()`, when `start_l` is `start`. -/
def leftAt (l : Nat) (offsets : Buffer Nat) (start : Nat) : Outcome Nat :=
  placeAt (leftPlace l) offsets start

/-- `right!()`, when `start_r` is `start`. -/
def rightAt (r : Nat) (offsets : Buffer Nat) (start : Nat) : Outcome Nat :=
  placeAt (back r) offsets start

/-- The loop of the cyclic permutation, with `k` iterations left. -/
def cycleLoop (l r : Nat) (offsetsL offsetsR : Buffer Nat) :
    Nat → Nat → Nat → List α → Outcome (Nat × Nat × List α)
  | 0, startL, startR, v => .ok (startL, startR, v)
  | k + 1, startL, startR, v => do
    let startL := startL + 1
    let v ← copyWithin v (← leftAt l offsetsL startL) (← rightAt r offsetsR startR)
    let startR := startR + 1
    let v ← copyWithin v (← rightAt r offsetsR startR) (← leftAt l offsetsL startL)
    cycleLoop l r offsetsL offsetsR k startL startR v

/-- The exchange of `count` elements that are out of order on both sides. -/
def cycle (l r count : Nat) (left right : Block) (v : List α) :
    Outcome (Block × Block × List α) :=
  if 0 < count then do
    let tmp ← Slice.get v (← leftAt l left.offsets left.start)
    let v ← copyWithin v (← rightAt r right.offsets right.start)
      (← leftAt l left.offsets left.start)
    let (startL, startR, v) ←
      cycleLoop l r left.offsets right.offsets (count - 1) left.start right.start v
    let v ← Slice.set v (← rightAt r right.offsets startR) tmp
    .ok ({ left with start := startL + 1 }, { right with start := startR + 1 }, v)
  else .ok (left, right, v)

def lastBlocks (l r : Nat) (left right : Block) : Outcome (Block × Block) := do
  let rem ← width l r
  let unfinished := left.start < left.end_ ∨ right.start < right.end_
  Outcome.assert (!(decide unfinished) || BLOCK ≤ rem) "attempt to subtract with overflow"
  let rem := if unfinished then rem - BLOCK else rem
  let (blockL, blockR) :=
    if left.start < left.end_ then (left.block, rem)
    else if right.start < right.end_ then (rem, right.block)
    else (rem / 2, rem - rem / 2)
  Outcome.assert (blockL ≤ BLOCK && blockR ≤ BLOCK) "block_l <= BLOCK && block_r <= BLOCK"
  Outcome.assert (r - l = blockL + blockR) "width(l, r) == block_l + block_r"
  .ok ({ left with block := blockL }, { right with block := blockR })

def roundBlocks (isDone : Bool) (l r : Nat) (left right : Block) : Outcome (Block × Block) :=
  if isDone then lastBlocks l r left right else .ok (left, right)

/-- `r` after a round. -/
def previousBlock (r : Nat) (right : Block) : Outcome Nat :=
  if right.start = right.end_ then do
    Outcome.assert (right.block ≤ r) "pointer out of bounds"
    .ok (r - right.block)
  else .ok r

def blocksLoop (isLess : IsLess α σ) (pivot : α) :
    Nat → Nat → Nat → Block → Block → List α → Asking σ (Nat × Nat × Block × Block × List α)
  | 0, _, _, _, _, _ => throw .outOfFuel
  | n + 1, l, r, left, right, v => do
    let isDone := decide ((← width l r) ≤ 2 * BLOCK)
    let (left, right) ← roundBlocks isDone l r left right
    let left ← left.trace isLess v pivot (leftPlace l) false
    let right ← right.trace isLess v pivot (back r) true
    let count := min (left.end_ - left.start) (right.end_ - right.start)
    let (left, right, v) ← cycle l r count left right v
    let l := if left.start = left.end_ then l + left.block else l
    let r ← previousBlock r right
    if isDone then pure (l, r, left, right, v)
    else blocksLoop isLess pivot n l r left right v

/-- The loop that moves the rest of the left block to the far right, with `k` iterations left:
`r`. -/
def drainLeft (l : Nat) (left : Block) : Nat → Nat → List α → Outcome (Nat × List α)
  | 0, r, v => .ok (r, v)
  | k + 1, r, v => do
    let place ← leftAt l left.offsets (left.start + k)
    let v ← swap v place (← back r 0)
    drainLeft l left k (r - 1) v

/-- The loop that moves the rest of the right block to the far left, with `k` iterations left:
`l`. -/
def drainRight (r : Nat) (right : Block) : Nat → Nat → List α → Outcome (Nat × List α)
  | 0, l, v => .ok (l, v)
  | k + 1, l, v => do
    let place ← rightAt r right.offsets (right.start + k)
    let v ← swap v l place
    drainRight r right k (l + 1) v

section
variable (v : List α)

section
variable (pivot : α)

/-- `partition_in_blocks`: the number of elements smaller than the pivot. -/
def partitionInBlocks :
    Asking σ (Nat × List α) := do
  let (l, r, left, right, v) ← blocksLoop isLess pivot (v.length + 1) 0 v.length .new .new v
  if left.start < left.end_ then do
    Outcome.assert (decide (r - l = left.block)) "width(l, r) == block_l"
    drainLeft l left (left.end_ - left.start) r v
  else if right.start < right.end_ then do
    Outcome.assert (decide (r - l = right.block)) "width(l, r) == block_r"
    drainRight r right (right.end_ - right.start) l v
  else pure (l, v)

/-! ## `partition` -/

/-- A loop that goes up from `l` while the answers are `go`, with `k` iterations left. -/
def scanUp (test : α → Asking σ Bool) (go : Bool) (v : List α) : Nat → Nat → Asking σ Nat
  | 0, l => pure l
  | k + 1, l => do
    let a ← Slice.get v l
    if (← test a) = go then scanUp test go v k (l + 1) else pure l

/-- A loop that goes down from `r` while the answers are `go`, with `k` iterations left. -/
def scanDown (test : α → Asking σ Bool) (go : Bool) (v : List α) : Nat → Nat → Asking σ Nat
  | 0, r => pure r
  | k + 1, r => do
    let a ← Slice.get v (r - 1)
    if (← test a) = go then scanDown test go v k (r - 1) else pure r

/-- The loop of `partition` that finds the first element not smaller than the pivot. -/
def firstNotLess (l r : Nat) : Asking σ Nat :=
  scanUp (fun a => ask isLess a pivot) true v (r - l) l

/-- The loop of `partition` that finds the last element smaller than the pivot. -/
def lastLess (l r : Nat) : Asking σ Nat :=
  scanDown (fun a => ask isLess a pivot) false v (r - l) r

/-- The loop of `partition_equal` that finds the first element greater than the pivot. -/
def firstGreater (l r : Nat) : Asking σ Nat :=
  scanUp (fun a => ask isLess pivot a) false v (r - l) l

/-- The loop of `partition_equal` that finds the last element equal to the pivot. -/
def lastEqual (l r : Nat) : Asking σ Nat :=
  scanDown (fun a => ask isLess pivot a) true v (r - l) r

end

/-- `v.split_at_mut(1)`. -/
def splitFirst : Outcome (α × List α) := do
  let a ← Slice.get v 0
  .ok (a, v.drop 1)

/-- `partition`: the place of the pivot, and whether the slice was partitioned already. -/
def partition (pivot : Nat) :
    Asking σ (Nat × Bool × List α) := do
  let v ← swap v 0 pivot
  let (pivot, v) ← splitFirst v
  let l ← firstNotLess isLess v pivot 0 v.length
  let r ← lastLess isLess v pivot l v.length
  let (count, v) ← onRange v l r fun s => partitionInBlocks isLess s pivot
  let mid := l + count
  let v ← swap (pivot :: v) 0 mid
  pure (mid, decide (r ≤ l), v)

end

def partitionEqualLoop (isLess : IsLess α σ) (pivot : α) :
    Nat → Nat → Nat → List α → Asking σ (Nat × List α)
  | 0, _, _, _ => throw .outOfFuel
  | n + 1, l, r, v => do
    let l ← firstGreater isLess v pivot l r
    let r ← lastEqual isLess v pivot l r
    if r ≤ l then pure (l, v)
    else do
      let r := r - 1
      let v ← swap v l r
      partitionEqualLoop isLess pivot n (l + 1) r v

/-- `partition_equal`: the number of elements equal to the pivot. -/
def partitionEqual (v : List α) (pivot : Nat) :
    Asking σ (Nat × List α) := do
  let v ← swap v 0 pivot
  let (pivot, v) ← splitFirst v
  let (l, v) ← partitionEqualLoop isLess pivot (v.length + 1) 0 v.length v
  pure (l + 1, pivot :: v)

/-! ## Choosing a pivot -/

def genU32 (random : BitVec 32) : BitVec 32 :=
  let random := random ^^^ (random <<< 13)
  let random := random ^^^ (random >>> 17)
  random ^^^ (random <<< 5)

/-- `gen_usize`: the number, and the state of the generator. -/
def genUsize (random : BitVec 32) : BitVec 64 × BitVec 32 :=
  let high := genU32 random
  let low := genU32 high
  ((high.setWidth 64 <<< 32) ||| low.setWidth 64, low)

def nextPowerOfTwo (len : Nat) : Nat := 2 ^ Nat.clog 2 len

/-- The loop of `break_patterns`, with `k` iterations left. -/
def breakLoop : Nat → Nat → BitVec 32 → List α → Outcome (List α)
  | 0, _, _, v => .ok v
  | k + 1, i, random, v => do
    let len := v.length
    let pos := len / 4 * 2
    let (number, random) := genUsize random
    let other := number.toNat &&& (nextPowerOfTwo len - 1)
    let other := if len ≤ other then other - len else other
    let v ← swap v (pos - 1 + i) other
    breakLoop k (i + 1) random v

section
variable (v : List α)

def breakPatterns : Outcome (List α) :=
  let len := v.length
  if 8 ≤ len then breakLoop 3 0 (BitVec.ofNat 32 len) v else .ok v

/-- `sort2`: the two places, and the number of swaps. -/
def sort2 (a b swaps : Nat) : Asking σ (Nat × Nat × Nat) := do
  let y ← Slice.get v b
  let x ← Slice.get v a
  if ← ask isLess y x then pure (b, a, swaps + 1) else pure (a, b, swaps)

def sort3 (a b c swaps : Nat) :
    Asking σ (Nat × Nat × Nat × Nat) := do
  let (a, b, swaps) ← sort2 isLess v a b swaps
  let (b, c, swaps) ← sort2 isLess v b c swaps
  let (a, b, swaps) ← sort2 isLess v a b swaps
  pure (a, b, c, swaps)

def sortAdjacent (a swaps : Nat) : Asking σ (Nat × Nat) := do
  let tmp := a
  let (_, a, _, swaps) ← sort3 isLess v (tmp - 1) a (tmp + 1) swaps
  pure (a, swaps)

/-- The median that `choose_pivot` finds, and the number of swaps. -/
def choosePlaces : Asking σ (Nat × Nat) := do
  let len := v.length
  let a := len / 4 * 1
  let b := len / 4 * 2
  let c := len / 4 * 3
  if 8 ≤ len then
    if 50 ≤ len then do
      let (a, swaps) ← sortAdjacent isLess v a 0
      let (b, swaps) ← sortAdjacent isLess v b swaps
      let (c, swaps) ← sortAdjacent isLess v c swaps
      let (_, b, _, swaps) ← sort3 isLess v a b c swaps
      pure (b, swaps)
    else do
      let (_, b, _, swaps) ← sort3 isLess v a b c 0
      pure (b, swaps)
  else pure (b, 0)

/-- `choose_pivot`: the place of the pivot, and whether the slice is likely sorted. -/
def choosePivot : Asking σ (Nat × Bool × List α) := do
  let (b, swaps) ← choosePlaces isLess v
  if swaps < 4 * 3 then pure (b, decide (swaps = 0), v)
  else pure (v.length - 1 - b, true, v.reverse)

end

/-! ## `quicksort` -/

/-- Whether the predecessor is there and equal to the pivot. -/
def equalsPred (pred : Option α) (v : List α) (pivot : Nat) :
    Asking σ Bool := do
  match pred with
  | some p => do
    let a ← Slice.get v pivot
    let less ← ask isLess p a
    pure (!less)
  | none => pure false

/-- Patterns are broken after a partition that was not balanced. -/
def breakUnbalanced (wasBalanced : Bool) (v : List α) : Outcome (List α) :=
  if !wasBalanced then breakPatterns v else .ok v

/-- `partial_insertion_sort` is tried where the slice is likely sorted. -/
def tryPartialInsertion (likely : Bool) (v : List α) : Asking σ (Bool × List α) :=
  if likely then partialInsertionSort isLess v else pure (false, v)

/-- `recurse`, in the state of its loop. -/
def recurse (isLess : IsLess α σ) :
    Nat → Option α → Nat → Bool → Bool → List α → Asking σ (List α)
  | 0, _, _, _, _, _ => throw .outOfFuel
  | n + 1, pred, limit, wasBalanced, wasPartitioned, v => do
    let len := v.length
    if len ≤ 20 then tailInsertionSort isLess v
    else if limit = 0 then heapsort isLess v
    else do
      let v ← breakUnbalanced wasBalanced v
      let limit := if !wasBalanced then limit - 1 else limit
      let (pivot, likelySorted, v) ← choosePivot isLess v
      let likely := wasBalanced && wasPartitioned && likelySorted
      let (sorted, v) ← tryPartialInsertion isLess likely v
      if sorted then pure v
      else if ← equalsPred isLess pred v pivot then do
        let (mid, v) ← partitionEqual isLess v pivot
        Outcome.assert (decide (mid ≤ v.length)) "slice index starts past the end"
        let rest ← recurse isLess n pred limit wasBalanced wasPartitioned (v.drop mid)
        pure (v.take mid ++ rest)
      else do
        let (mid, wasPartitioned, v) ← partition isLess v pivot
        let wasBalanced := decide (len / 8 ≤ min mid (len - mid))
        Outcome.assert (decide (mid ≤ v.length)) "mid <= len"
        let left := v.take mid
        let (pivot, right) ← splitFirst (v.drop mid)
        if left.length < right.length then do
          let left ← recurse isLess n pred limit true true left
          let right ← recurse isLess n (some pivot) limit wasBalanced wasPartitioned right
          pure (left ++ pivot :: right)
        else do
          let right ← recurse isLess n (some pivot) limit true true right
          let left ← recurse isLess n pred limit wasBalanced wasPartitioned left
          pure (left ++ pivot :: right)

def quicksort (v : List α) : Asking σ (List α) :=
  let limit := Nat.size v.length
  recurse isLess (v.length + 1) none limit true true v

end

end Tortis.Sort
