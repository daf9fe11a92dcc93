import Tortis.Lib.Compare

/-!
# The stable sort

`merge_sort` in `liballoc/slice.rs`, for elements of a size other than zero. A block that is copied
is a list; a pointer into the slice or the buffer is an index, and a copy from or to a place out of
bounds, or from a slot of the buffer that has not been written, halts.
-/

namespace Tortis.Sort

open Slice Compare

variable {α σ : Type}

/-- The buffer `buf`: its slots, which hold nothing before they are written. -/
abbrev Buffer (α : Type) := List (Option α)

/-- A read of a slot of the buffer. -/
def Buffer.get (buf : Buffer α) (i : Nat) : Outcome α := do
  let slot ← Slice.get buf i
  Outcome.expect "uninitialized" slot

/-- `f(&mut v[l..r])`, with what it returns. -/
def onRange {β : Type} (v : List α) (l r : Nat) (f : List α → Asking σ (β × List α)) :
    Asking σ (β × List α) := do
  Outcome.assert (l ≤ r && r ≤ v.length) "slice index out of range"
  let (b, s) ← f ((v.take r).drop l)
  pure (b, v.take l ++ s ++ v.drop r)

/-- `f(&mut v[l..r])`. -/
def inRange (v : List α) (l r : Nat) (f : List α → Asking σ (List α)) : Asking σ (List α) := do
  let (_, v) ← onRange v l r fun s => do
    let s ← f s
    pure ((), s)
  pure v

/-! ## `insert_head` -/

/-- The loop of `insert_head`, with `k` iterations left: the place of the hole. -/
def insertHeadLoop (isLess : IsLess α σ) (tmp : α) :
    Nat → Nat → Nat → List α → Asking σ (Nat × List α)
  | 0, _, dest, v => pure (dest, v)
  | k + 1, i, dest, v => do
    let a ← Slice.get v i
    if !(← ask isLess a tmp) then pure (dest, v)
    else do
      let v ← Slice.set v (i - 1) a
      insertHeadLoop isLess tmp k (i + 1) i v

section
variable (isLess : IsLess α σ)

def insertHead (v : List α) : Asking σ (List α) :=
  if 2 ≤ v.length then do
    let second ← Slice.get v 1
    let first ← Slice.get v 0
    if ← ask isLess second first then do
      let tmp := first
      let v ← Slice.set v 0 second
      let (dest, v) ← insertHeadLoop isLess tmp (v.length - 2) 2 1 v
      Slice.set v dest tmp
    else pure v
  else pure v

/-! ## `merge` -/

/-- `MergeHole`: `start` and `end_` are places of the buffer, `dest` is one of the slice. -/
structure MergeHole where
  start : Nat
  end_ : Nat
  dest : Nat

/-- `ptr::copy_nonoverlapping(v + src, v + dest, 1)`. -/
def copyWithin (v : List α) (src dest : Nat) : Outcome (List α) := do
  Outcome.assert (src ≠ dest) "overlapping copy"
  let a ← Slice.get v src
  Slice.set v dest a

/-- `ptr::copy_nonoverlapping(buf + src, v + dest, 1)`. -/
def copyFromBuf (buf : Buffer α) (v : List α) (src dest : Nat) : Outcome (List α) := do
  let a ← buf.get src
  Slice.set v dest a

/-- `ptr::copy_nonoverlapping(v + src, buf, len)`. -/
def copyToBuf (v : List α) (src len : Nat) (buf : Buffer α) : Outcome (Buffer α) := do
  Outcome.assert (src + len ≤ v.length && len ≤ buf.length) "copy out of bounds"
  .ok (((v.drop src).take len).map some ++ buf.drop len)

def MergeHole.drop (hole : MergeHole) (buf : Buffer α) (v : List α) : Outcome (List α) := do
  let len := hole.end_ - hole.start
  Outcome.assert (hole.start ≤ hole.end_ && hole.end_ ≤ buf.length && hole.dest + len ≤ v.length)
    "copy out of bounds"
  let block ← ((buf.drop hole.start).take len).mapM (Outcome.expect "uninitialized")
  .ok (v.take hole.dest ++ block ++ v.drop (hole.dest + len))

/-- The loop of `merge` when the left run is shorter. -/
def mergeForward (isLess : IsLess α σ) (buf : Buffer α) :
    Nat → MergeHole → Nat → List α → Asking σ (MergeHole × List α)
  | 0, _, _, _ => throw .outOfFuel
  | n + 1, hole, right, v =>
    if hole.start < hole.end_ ∧ right < v.length then do
      let r ← Slice.get v right
      let l ← buf.get hole.start
      if ← ask isLess r l then do
        let v ← copyWithin v right hole.dest
        mergeForward isLess buf n { hole with dest := hole.dest + 1 } (right + 1) v
      else do
        let v ← copyFromBuf buf v hole.start hole.dest
        mergeForward isLess buf n { hole with start := hole.start + 1, dest := hole.dest + 1 } right v
    else pure (hole, v)

/-- The loop of `merge` when the right run is shorter. -/
def mergeBackward (isLess : IsLess α σ) (buf : Buffer α) :
    Nat → MergeHole → Nat → List α → Asking σ (MergeHole × List α)
  | 0, _, _, _ => throw .outOfFuel
  | n + 1, hole, out, v =>
    if 0 < hole.dest ∧ 0 < hole.end_ then do
      let r ← buf.get (hole.end_ - 1)
      let l ← Slice.get v (hole.dest - 1)
      if ← ask isLess r l then do
        let v ← copyWithin v (hole.dest - 1) (out - 1)
        mergeBackward isLess buf n { hole with dest := hole.dest - 1 } (out - 1) v
      else do
        let v ← copyFromBuf buf v (hole.end_ - 1) (out - 1)
        mergeBackward isLess buf n { hole with end_ := hole.end_ - 1 } (out - 1) v
    else pure (hole, v)

/-- `merge`: the buffer and the slice. -/
def merge (mid : Nat) (buf : Buffer α) (v : List α) :
    Asking σ (Buffer α × List α) := do
  let len := v.length
  if mid ≤ len - mid then do
    let buf ← copyToBuf v 0 mid buf
    let (hole, v) ← mergeForward isLess buf (len + 1) ⟨0, mid, 0⟩ mid v
    let v ← hole.drop buf v
    pure (buf, v)
  else do
    let buf ← copyToBuf v mid (len - mid) buf
    let (hole, v) ← mergeBackward isLess buf (len + 1) ⟨0, len - mid, mid⟩ len v
    let v ← hole.drop buf v
    pure (buf, v)

/-! ## `merge_sort` -/

structure Run where
  start : Nat
  len : Nat

/-- The condition of `collapse`: the invariants fail on the top four runs, or the top run starts
the slice. -/
def demandsMerge (runs : List Run) (run1 run2 : Run) : Outcome Bool :=
  let n := runs.length
  if run1.start = 0 ∨ run2.len ≤ run1.len then .ok true
  else if 3 ≤ n then do
    let run3 ← Slice.get runs (n - 3)
    if run3.len ≤ run2.len + run1.len then .ok true
    else if 4 ≤ n then do
      let run4 ← Slice.get runs (n - 4)
      .ok (decide (run4.len ≤ run3.len + run2.len))
    else .ok false
  else .ok false

def collapse (runs : List Run) : Outcome (Option Nat) := do
  let n := runs.length
  if 2 ≤ n then do
    let run1 ← Slice.get runs (n - 1)
    let run2 ← Slice.get runs (n - 2)
    if ← demandsMerge runs run1 run2 then
      if 3 ≤ n then do
        let run3 ← Slice.get runs (n - 3)
        .ok (some (if run3.len < run1.len then n - 3 else n - 2))
      else .ok (some (n - 2))
    else .ok none
  else .ok none

/-- The loops that find the start of a run: `descending` is the answer for each of its pairs. -/
def findRun (isLess : IsLess α σ) (v : List α) (descending : Bool) : Nat → Asking σ Nat
  | 0 => pure 0
  | start + 1 => do
    let a ← Slice.get v (start + 1)
    let b ← Slice.get v start
    if (← ask isLess a b) = descending then findRun isLess v descending start
    else pure (start + 1)

def naturalRun (v : List α) (end_ : Nat) : Asking σ (Nat × List α) :=
  let start := end_ - 1
  if 0 < start then do
    let start := start - 1
    let a ← Slice.get v (start + 1)
    let b ← Slice.get v start
    if ← ask isLess a b then do
      let start ← findRun isLess v true start
      pure (start, v.take start ++ ((v.take end_).drop start).reverse ++ v.drop end_)
    else do
      let start ← findRun isLess v false start
      pure (start, v)
  else pure (start, v)

/-- The loop that makes a run longer: its start. -/
def extendRun (isLess : IsLess α σ) (end_ : Nat) : Nat → List α → Asking σ (Nat × List α)
  | 0, v => pure (0, v)
  | start + 1, v =>
    if end_ - (start + 1) < 10 then do
      let v ← inRange v start end_ (insertHead isLess)
      extendRun isLess end_ start v
    else pure (start + 1, v)

def collapseRuns (isLess : IsLess α σ) :
    Nat → List Run → Buffer α → List α → Asking σ (List Run × Buffer α × List α)
  | 0, _, _, _ => throw .outOfFuel
  | n + 1, runs, buf, v => do
    match ← collapse runs with
    | none => pure (runs, buf, v)
    | some r => do
      let left ← Slice.get runs (r + 1)
      let right ← Slice.get runs r
      let (buf, v) ← onRange v left.start (right.start + right.len) (merge isLess left.len buf)
      let runs ← Slice.set runs r ⟨left.start, left.len + right.len⟩
      Outcome.assert (r + 1 < runs.length) "removal index should be < len"
      collapseRuns isLess n (runs.eraseIdx (r + 1)) buf v

def sortRuns (isLess : IsLess α σ) :
    Nat → Nat → List Run → Buffer α → List α → Asking σ (List Run × List α)
  | 0, _, _, _, _ => throw .outOfFuel
  | n + 1, end_, runs, buf, v =>
    if 0 < end_ then do
      let (start, v) ← naturalRun isLess v end_
      let (start, v) ← extendRun isLess end_ start v
      let runs := runs ++ [⟨start, end_ - start⟩]
      let (runs, buf, v) ← collapseRuns isLess (runs.length + 1) runs buf v
      sortRuns isLess n start runs buf v
    else pure (runs, v)

/-- The loop of `merge_sort` for a short slice, with `i` iterations left. -/
def insertionSort (isLess : IsLess α σ) : Nat → List α → Asking σ (List α)
  | 0, v => pure v
  | i + 1, v => do
    let v ← inRange v i v.length (insertHead isLess)
    insertionSort isLess i v

def mergeSort (v : List α) : Asking σ (List α) := do
  let len := v.length
  if len ≤ 20 then
    if 2 ≤ len then insertionSort isLess (len - 1) v else pure v
  else do
    let (runs, v) ← sortRuns isLess (len + 1) len [] (List.replicate (len / 2) none) v
    match runs with
    | [run] => do
      Outcome.assert (run.start = 0 && run.len = len) "assertion failed: runs.len() == 1"
      pure v
    | _ => throw (.panic "assertion failed: runs.len() == 1")

end

end Tortis.Sort
