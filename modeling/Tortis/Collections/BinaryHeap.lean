import Tortis.Lib.HeapOrder

/-!
# The binary heap

`liballoc/collections/binary_heap.rs`. The elements are sifted through a `Hole`, whose place holds a
copy that is overwritten in the end. Filled, the data of a hole is a list of which each move
exchanges two elements (`Hole.filled_moveTo`), so the sifts are those of `Tortis.Lib.HeapOrder`
(`siftUp_spec`, `siftDownRange_spec`, `siftDownToBottom_spec`).

An order is a preorder that is total: elements that compare equal need not be the same. The lengths
are small enough for the indices not to overflow, and the capacity of the vector is left out.
-/

namespace Tortis.Collections

open Slice HeapOrder Outcome List

variable {α : Type}

/-! ## Holes -/

structure Hole (α : Type) where
  data : List α
  elt : α
  pos : Nat

namespace Hole

def new (data : List α) (pos : Nat) : Outcome (Hole α) := do
  let elt ← Slice.get data pos
  .ok ⟨data, elt, pos⟩

def get (hole : Hole α) (index : Nat) : Outcome α := do
  assert (index ≠ hole.pos) "assertion failed: index != self.pos"
  Slice.get hole.data index

def moveTo (hole : Hole α) (index : Nat) : Outcome (Hole α) := do
  assert (index ≠ hole.pos) "assertion failed: index != self.pos"
  let elt ← Slice.get hole.data index
  let data ← Slice.set hole.data hole.pos elt
  .ok { hole with data := data, pos := index }

/-- What `Hole::drop` leaves. -/
def fill (hole : Hole α) : Outcome (List α) := Slice.set hole.data hole.pos hole.elt

end Hole

/-! ## Sifting -/

section
variable [Preorder α] [DecidableLE α] [DecidableLT α]

def siftUpLoop (start : Nat) : Nat → Hole α → Outcome (Hole α)
  | 0, _ => .error .outOfFuel
  | n + 1, hole =>
    if start < hole.pos then do
      let parent := (hole.pos - 1) / 2
      let p ← hole.get parent
      if hole.elt ≤ p then .ok hole
      else do
        let hole ← hole.moveTo parent
        siftUpLoop start n hole
    else .ok hole

section
variable (data : List α)

def siftUp (start pos : Nat) : Outcome (Nat × List α) := do
  let hole ← Hole.new data pos
  let hole ← siftUpLoop start (pos + 1) hole
  let data ← hole.fill
  .ok (hole.pos, data)

/-- The choice between the two children. -/
def greaterChild (hole : Hole α) (child end_ : Nat) : Outcome Nat :=
  let right := child + 1
  if right < end_ then do
    let l ← hole.get child
    let r ← hole.get right
    .ok (if l > r then child else right)
  else .ok child

def siftDownRangeLoop (end_ : Nat) : Nat → Hole α → Nat → Outcome (Hole α)
  | 0, _, _ => .error .outOfFuel
  | n + 1, hole, child =>
    if child < end_ then do
      let child ← greaterChild hole child end_
      let c ← hole.get child
      if hole.elt ≥ c then .ok hole
      else do
        let hole ← hole.moveTo child
        siftDownRangeLoop end_ n hole (2 * hole.pos + 1)
    else .ok hole

def siftDownRange (pos end_ : Nat) : Outcome (List α) := do
  let hole ← Hole.new data pos
  let hole ← siftDownRangeLoop end_ (end_ + 1) hole (2 * pos + 1)
  hole.fill

def siftDown (pos : Nat) : Outcome (List α) := siftDownRange data pos data.length

def siftDownToBottomLoop (end_ : Nat) : Nat → Hole α → Nat → Outcome (Hole α)
  | 0, _, _ => .error .outOfFuel
  | n + 1, hole, child =>
    if child < end_ then do
      let child ← greaterChild hole child end_
      let hole ← hole.moveTo child
      siftDownToBottomLoop end_ n hole (2 * hole.pos + 1)
    else .ok hole

def siftDownToBottom (pos : Nat) : Outcome (List α) := do
  let end_ := data.length
  let start := pos
  let hole ← Hole.new data pos
  let hole ← siftDownToBottomLoop end_ (end_ + 1) hole (2 * pos + 1)
  let data ← hole.fill
  let (_, data) ← siftUp data start hole.pos
  .ok data

end

/-! ## The heap -/

structure BinaryHeap (α : Type) where
  data : List α

namespace BinaryHeap

def new : BinaryHeap α := ⟨[]⟩

def len (heap : BinaryHeap α) : Nat := heap.data.length

def isEmpty (heap : BinaryHeap α) : Bool := heap.len = 0

def peek (heap : BinaryHeap α) : Option α := heap.data[0]?

def push (heap : BinaryHeap α) (item : α) : Outcome (BinaryHeap α) := do
  let oldLen := heap.len
  let (_, data) ← siftUp (heap.data ++ [item]) 0 oldLen
  .ok ⟨data⟩

def pop (heap : BinaryHeap α) : Outcome (Option α × BinaryHeap α) :=
  match heap.data.getLast? with
  | none => .ok (none, heap)
  | some item => do
    let heap : BinaryHeap α := ⟨heap.data.dropLast⟩
    if !heap.isEmpty then do
      let root ← Slice.get heap.data 0
      let data ← Slice.set heap.data 0 item
      let data ← siftDownToBottom data 0
      .ok (some root, ⟨data⟩)
    else .ok (some item, heap)

/-- The loop of `rebuild`, with `n` iterations left. -/
def rebuildLoop : Nat → List α → Outcome (List α)
  | 0, data => .ok data
  | n + 1, data => do
    let data ← siftDown data n
    rebuildLoop n data

def rebuild (heap : BinaryHeap α) : Outcome (BinaryHeap α) := do
  let data ← rebuildLoop (heap.len / 2) heap.data
  .ok ⟨data⟩

def fromVec (vec : List α) : Outcome (BinaryHeap α) := rebuild ⟨vec⟩

/-- The loop of `into_sorted_vec`, from the value of `end` on. -/
def intoSortedVecLoop : Nat → List α → Outcome (List α)
  | 0, data | 1, data => .ok data
  | n + 2, data => do
    let data ← swap data 0 (n + 1)
    let data ← siftDownRange data 0 (n + 1)
    intoSortedVecLoop (n + 1) data

def intoSortedVec (heap : BinaryHeap α) : Outcome (List α) := intoSortedVecLoop heap.len heap.data

/-- `extend` by the elements of an iterator. -/
def extend (heap : BinaryHeap α) (iter : List α) : Outcome (BinaryHeap α) := iter.foldlM push heap

/-- `log2_fast`, in `append`. -/
def log2Fast (x : Nat) : Nat := Nat.log2 x

def betterToRebuild (len1 len2 : Nat) : Bool := 2 * (len1 + len2) < len2 * log2Fast len1

/-- `append`: the two heaps after it. -/
def append (heap other : BinaryHeap α) : Outcome (BinaryHeap α × BinaryHeap α) := do
  let (heap, other) := if heap.len < other.len then (other, heap) else (heap, other)
  if other.isEmpty then .ok (heap, other)
  else if betterToRebuild heap.len other.len then do
    let heap ← rebuild ⟨heap.data ++ other.data⟩
    .ok (heap, new)
  else do
    let heap ← heap.extend other.data
    .ok (heap, new)

/-- What dropping the iterator of `drain_sorted` leaves. -/
def dropDrainSorted : Nat → BinaryHeap α → Outcome (BinaryHeap α)
  | 0, _ => .error .outOfFuel
  | n + 1, heap => do
    let (item, heap) ← heap.pop
    match item with
    | none => .ok heap
    | some _ => dropDrainSorted n heap

/-- `drain_sorted`, of which `k` elements are taken before it is dropped. -/
def drainSorted (heap : BinaryHeap α) : Nat → Outcome (List α × BinaryHeap α)
  | 0 => do
    let heap ← dropDrainSorted (heap.len + 1) heap
    .ok ([], heap)
  | k + 1 => do
    let (item, heap) ← heap.pop
    let (items, heap) ← heap.drainSorted k
    .ok (item.toList ++ items, heap)

/-- `peek_mut` and a change of the root through the guard, which is dropped. The result is whether
there was a root. -/
def peekMut (heap : BinaryHeap α) (change : α → α) : Outcome (Bool × BinaryHeap α) :=
  if heap.isEmpty then .ok (false, heap)
  else do
    let root ← Slice.get heap.data 0
    let data ← Slice.set heap.data 0 (change root)
    let data ← siftDown data 0
    .ok (true, ⟨data⟩)

/-- `peek_mut` and a change of the root through the guard, and `PeekMut::pop`. -/
def peekMutPop (heap : BinaryHeap α) (change : α → α) : Outcome (Option α × BinaryHeap α) :=
  if heap.isEmpty then .ok (none, heap)
  else do
    let root ← Slice.get heap.data 0
    let data ← Slice.set heap.data 0 (change root)
    let (item, heap) ← pop ⟨data⟩
    let value ← unwrap item
    .ok (some value, heap)

end BinaryHeap

/-! ## Holes are exchanges -/

variable {hole : Hole α} {data : List α} {n lo pos index end_ : Nat}

namespace Hole

/-- The data with the element put back. -/
def filled (hole : Hole α) : List α := hole.data.set hole.pos hole.elt

/-- The place of the hole is in the slice. -/
def InBounds (hole : Hole α) : Prop := hole.pos < hole.filled.length

omit [Preorder α] [DecidableLE α] [DecidableLT α]

theorem new_spec (h : pos < data.length) :
    ∃ hole, Hole.new data pos = .ok hole ∧ hole.filled = data ∧ hole.pos = pos := by
  obtain ⟨elt, helt⟩ := exists_getElem? h
  refine ⟨⟨data, elt, pos⟩, ?_, ?_, rfl⟩
  · rw [Hole.new, get_eq helt]
    rfl
  · obtain ⟨hlt, rfl⟩ := List.getElem?_eq_some_iff.1 helt
    exact List.set_getElem_self hlt

theorem filled_length (hole : Hole α) : hole.filled.length = hole.data.length := length_set

theorem filled_pos (h : hole.InBounds) : hole.filled[hole.pos]? = some hole.elt :=
  getElem?_set_self (hole.filled_length ▸ h)

theorem filled_of_ne (h : index ≠ hole.pos) : hole.filled[index]? = hole.data[index]? :=
  getElem?_set_ne (Ne.symm h)

theorem get_spec (h : index ≠ hole.pos) (hlt : index < hole.filled.length) :
    ∃ a, hole.get index = .ok a ∧ hole.filled[index]? = some a := by
  obtain ⟨a, ha⟩ := exists_getElem? hlt
  refine ⟨a, ?_, ha⟩
  rw [filled_of_ne h] at ha
  rw [Hole.get, assert, if_pos (decide_eq_true h), ok_bind, get_eq ha]

theorem filled_moveTo (hb : hole.InBounds) (h : index ≠ hole.pos)
    (hlt : index < hole.filled.length) :
    ∃ hole', hole.moveTo index = .ok hole' ∧ hole'.pos = index ∧ hole'.elt = hole.elt ∧
      hole'.filled = exchange hole.filled hole.pos index := by
  obtain ⟨a, ha⟩ := exists_getElem? hlt
  have hdata := ha
  rw [filled_of_ne h] at hdata
  refine ⟨{ hole with data := hole.data.set hole.pos a, pos := index }, ?_, rfl, rfl, ?_⟩
  · rw [Hole.moveTo, assert, if_pos (decide_eq_true h), ok_bind, get_eq hdata,
      ok_bind, set_eq (hole.filled_length ▸ hb), ok_bind]
  · rw [exchange_eq (filled_pos hb) ha, filled, filled, set_set]

theorem fill_eq (h : hole.InBounds) : hole.fill = .ok hole.filled :=
  set_eq (hole.filled_length ▸ h) hole.elt

end Hole

/-! ## The sifts -/

/-- The heap order: no element is greater than its parent. -/
abbrev IsHeap (data : List α) : Prop := Heap (· ≤ ·) data 0 data.length

section
variable [Std.Total fun a b : α => a ≤ b]

omit [DecidableLT α] in
theorem siftUpLoop_spec : ∀ {k : Nat} {hole : Hole α}, hole.InBounds →
    Gap (· ≤ ·) hole.filled 0 hole.filled.length hole.pos →
    FitsDown (· ≤ ·) hole.filled hole.filled.length hole.pos → hole.pos < k →
    ∃ hole', siftUpLoop 0 k hole = .ok hole' ∧ hole'.InBounds ∧
      hole'.filled.Perm hole.filled ∧ IsHeap hole'.filled
  | 0, _, _, _, _, hk => absurd hk (Nat.not_lt_zero _)
  | k + 1, hole, hb, hgap, hdown, hk => by
    rw [siftUpLoop]
    split
    · next h0 =>
      have hlt := parent_lt h0
      obtain ⟨p, hget, hp⟩ := Hole.get_spec (ne_of_lt hlt) (lt_trans hlt hb)
      dsimp only [parent] at hget
      dsimp only
      rw [hget, ok_bind]
      split
      · next hle =>
        exact ⟨hole, rfl, hb, .refl _, hgap.close hdown fun _ _ =>
          .of_eq (Hole.filled_pos hb) hp hle⟩
      · next hle =>
        have hge : p ≤ hole.elt := (total_of (· ≤ ·) hole.elt p).resolve_left hle
        have hat : At (· ≤ ·) hole.filled (parent hole.pos) hole.pos :=
          .of_eq hp (Hole.filled_pos hb) hge
        obtain ⟨hole1, hmove, hpos, -, hfilled⟩ :=
          Hole.filled_moveTo hb (ne_of_lt hlt) (lt_trans hlt hb)
        have hlen : hole1.filled.length = hole.filled.length := by rw [hfilled, exchange_length]
        dsimp only [parent] at hmove
        obtain ⟨hole', hrun, hb'', hperm, hheap⟩ := @siftUpLoop_spec k hole1
          (by rw [Hole.InBounds, hpos, hlen]; exact lt_trans hlt hb)
          (by rw [hlen, hpos, hfilled]; exact hgap.up le_rfl h0 hb)
          (by rw [hlen, hpos, hfilled]; exact FitsDown.up hgap le_rfl h0 hb hat)
          (by omega)
        rw [hmove, ok_bind, hrun]
        exact ⟨hole', rfl, hb'', hperm.trans (hfilled ▸ exchange_perm _ _ _), hheap⟩
    · next h0 =>
      refine ⟨hole, rfl, hb, .refl _, hgap.close hdown fun h => absurd h ?_⟩
      omega

omit [DecidableLE α] in
theorem greaterChild_spec (hend : end_ ≤ hole.filled.length) (hc : 2 * hole.pos + 1 < end_) :
    ∃ c, greaterChild hole (2 * hole.pos + 1) end_ = .ok c ∧ 0 < c ∧ c < end_ ∧
      parent c = hole.pos ∧ ∀ d, 0 < d → d < end_ → parent d = hole.pos → d ≠ c →
        At (· ≤ ·) hole.filled d c := by
  have hchildren : ∀ d, 0 < d → parent d = hole.pos →
      d = 2 * hole.pos + 1 ∨ d = 2 * hole.pos + 1 + 1 := fun d h0 hd => (parent_eq_iff h0).1 hd
  rw [greaterChild]
  split
  · next hright =>
    obtain ⟨a, hgeta, ha⟩ := @Hole.get_spec _ hole (2 * hole.pos + 1) (by omega) (by omega)
    obtain ⟨b, hgetb, hb⟩ := @Hole.get_spec _ hole (2 * hole.pos + 1 + 1) (by omega) (by omega)
    rw [hgeta, ok_bind, hgetb, ok_bind]
    refine ⟨_, rfl, ?_⟩
    split
    · next hgt =>
      refine ⟨by omega, hc, (parent_eq_iff (by omega)).2 (.inl rfl), fun d h0 hd hp hne => ?_⟩
      obtain rfl := (hchildren d h0 hp).resolve_left hne
      exact .of_eq hb ha (le_of_lt hgt)
    · next hgt =>
      refine ⟨by omega, hright, (parent_eq_iff (by omega)).2 (.inr rfl), fun d h0 hd hp hne => ?_⟩
      obtain rfl := (hchildren d h0 hp).resolve_right hne
      refine .of_eq ha hb ?_
      by_contra hle
      exact hgt (lt_of_le_not_ge ((total_of (· ≤ ·) a b).resolve_left hle) hle)
  · next hright =>
    refine ⟨_, rfl, by omega, hc, (parent_eq_iff (by omega)).2 (.inl rfl), fun d h0 hd hp hne => ?_⟩
    exact absurd ((hchildren d h0 hp).resolve_left hne) (by omega)

/-- What a sift from a place leaves: the elements from `end_` on are where they were. -/
structure Sifted (data data' : List α) (end_ : Nat) : Prop where
  perm : data'.Perm data
  drop : data'.drop end_ = data.drop end_

omit [Preorder α] [DecidableLE α] [DecidableLT α] [Std.Total fun a b : α => a ≤ b] in
theorem Sifted.length {data' : List α} (h : Sifted data data' end_) : data'.length = data.length :=
  h.perm.length_eq

omit [Preorder α] [DecidableLE α] [DecidableLT α] [Std.Total fun a b : α => a ≤ b] in
theorem Sifted.of_exchange {data' : List α} {c : Nat} (h : Sifted (exchange data pos c) data' end_)
    (hpos : pos < end_) (hc : c < end_) : Sifted data data' end_ :=
  ⟨h.perm.trans (exchange_perm _ _ _), h.drop.trans (exchange_drop hpos hc)⟩

theorem siftDownRangeLoop_spec : ∀ {k : Nat} {hole : Hole α}, hole.InBounds → lo ≤ hole.pos →
    end_ ≤ hole.filled.length → Gap (· ≤ ·) hole.filled lo end_ hole.pos →
    FitsUp (· ≤ ·) hole.filled lo hole.pos → end_ - hole.pos < k →
    ∃ hole', siftDownRangeLoop end_ k hole (2 * hole.pos + 1) = .ok hole' ∧ hole'.InBounds ∧
      Sifted hole.filled hole'.filled end_ ∧ Heap (· ≤ ·) hole'.filled lo end_
  | 0, _, _, _, _, _, _, hk => absurd hk (Nat.not_lt_zero _)
  | k + 1, hole, hb, hlo, hend, hgap, hup, hk => by
    rw [siftDownRangeLoop]
    split
    · next hchild =>
      obtain ⟨c, hgreater, h0, hc, hp, hgreatest⟩ := greaterChild_spec hend hchild
      have hlt : hole.pos < c := hp ▸ parent_lt h0
      have hclen : c < hole.filled.length := lt_of_lt_of_le hc hend
      obtain ⟨a, hget, ha⟩ := Hole.get_spec (ne_of_gt hlt) hclen
      rw [hgreater, ok_bind, hget, ok_bind]
      split
      · next hge =>
        have hfits : At (· ≤ ·) hole.filled c hole.pos := .of_eq ha (Hole.filled_pos hb) hge
        refine ⟨hole, rfl, hb, ⟨.refl _, rfl⟩, hgap.close (fun d h0d hd hpd => ?_) hup⟩
        by_cases hdc : d = c
        · exact hdc ▸ hfits
        · exact (hgreatest d h0d hd hpd hdc).trans hfits hclen
      · next hge =>
        have hle : hole.elt ≤ a := (total_of (· ≤ ·) a hole.elt).resolve_left hge
        have hat : At (· ≤ ·) hole.filled hole.pos c := .of_eq (Hole.filled_pos hb) ha hle
        obtain ⟨hole1, hmove, hpos, -, hfilled⟩ := Hole.filled_moveTo hb (ne_of_gt hlt) hclen
        have hlen : hole1.filled.length = hole.filled.length := by rw [hfilled, exchange_length]
        obtain ⟨hole', hrun, hb', hsifted, hheap⟩ := @siftDownRangeLoop_spec k hole1
          (by rw [Hole.InBounds, hpos, hlen]; exact hclen) (by omega) (by omega)
          (by rw [hpos, hfilled]; exact hgap.down hlo hend h0 hc hp hgreatest)
          (by rw [hpos, hfilled]; exact FitsUp.down hend h0 hc hp hat) (by omega)
        rw [hmove, ok_bind, hrun]
        rw [hfilled] at hsifted
        exact ⟨hole', rfl, hb', hsifted.of_exchange (lt_trans hlt hc) hc, hheap⟩
    · next hchild =>
      refine ⟨hole, rfl, hb, ⟨.refl _, rfl⟩, hgap.close (fun d h0d hd hpd => ?_) hup⟩
      have := (parent_eq_iff h0d).1 hpd
      omega

theorem siftDownRange_spec (hpos : pos < data.length) (hend : end_ ≤ data.length)
    (hheap : Heap (· ≤ ·) data (pos + 1) end_) : ∃ data', siftDownRange data pos end_ = .ok data' ∧
    Sifted data data' end_ ∧ Heap (· ≤ ·) data' pos end_ := by
  obtain ⟨hole, hnew, rfl, rfl⟩ := Hole.new_spec hpos
  obtain ⟨hole', hrun, hb, hsifted, hheap'⟩ := siftDownRangeLoop_spec (k := end_ + 1) hpos
    le_rfl hend hheap.gap_first .first (by omega)
  refine ⟨hole'.filled, ?_, hsifted, hheap'⟩
  rw [siftDownRange, hnew, ok_bind, hrun, ok_bind, Hole.fill_eq hb]

omit [DecidableLE α] in
theorem siftDownToBottomLoop_spec : ∀ {k : Nat} {hole : Hole α}, hole.InBounds →
    Gap (· ≤ ·) hole.filled 0 hole.filled.length hole.pos → hole.filled.length - hole.pos < k →
    ∃ hole', siftDownToBottomLoop hole.filled.length k hole (2 * hole.pos + 1) = .ok hole' ∧
      hole'.InBounds ∧ hole'.filled.Perm hole.filled ∧
      Gap (· ≤ ·) hole'.filled 0 hole'.filled.length hole'.pos ∧
      FitsDown (· ≤ ·) hole'.filled hole'.filled.length hole'.pos
  | 0, _, _, _, hk => absurd hk (Nat.not_lt_zero _)
  | k + 1, hole, hb, hgap, hk => by
    rw [siftDownToBottomLoop]
    split
    · next hchild =>
      obtain ⟨c, hgreater, h0, hc, hp, hgreatest⟩ := greaterChild_spec le_rfl hchild
      have hlt : hole.pos < c := hp ▸ parent_lt h0
      obtain ⟨hole1, hmove, hpos, -, hfilled⟩ := Hole.filled_moveTo hb (ne_of_gt hlt) hc
      have hlen : hole1.filled.length = hole.filled.length := by rw [hfilled, exchange_length]
      obtain ⟨hole', hrun, hb', hperm, hgap', hdown⟩ := @siftDownToBottomLoop_spec k hole1
        (by rw [Hole.InBounds, hpos, hlen]; exact hc)
        (by
          rw [hlen, hpos, hfilled]
          exact hgap.down (Nat.zero_le _) (Nat.le_refl _) h0 hc hp hgreatest)
        (by omega)
      rw [hlen] at hrun
      rw [hgreater, ok_bind, hmove, ok_bind, hrun]
      exact ⟨hole', rfl, hb', hperm.trans (hfilled ▸ exchange_perm _ _ _), hgap', hdown⟩
    · next hchild =>
      refine ⟨hole, rfl, hb, .refl _, hgap, fun d h0d hd hpd => ?_⟩
      have := (parent_eq_iff h0d).1 hpd
      omega

omit [DecidableLT α] in
theorem siftUp_spec (hpos : pos < data.length) (hgap : Gap (· ≤ ·) data 0 data.length pos)
    (hdown : FitsDown (· ≤ ·) data data.length pos) :
    ∃ pos' data', siftUp data 0 pos = .ok (pos', data') ∧ data'.Perm data ∧ IsHeap data' := by
  obtain ⟨hole, hnew, rfl, rfl⟩ := Hole.new_spec hpos
  obtain ⟨hole', hrun, hb, hperm, hheap⟩ := siftUpLoop_spec (k := hole.pos + 1) hpos hgap hdown
    (Nat.lt_succ_self _)
  refine ⟨hole'.pos, hole'.filled, ?_, hperm, hheap⟩
  rw [siftUp, hnew, ok_bind, hrun, ok_bind, Hole.fill_eq hb, ok_bind]

theorem siftDownToBottom_spec (hpos : 0 < data.length) (hheap : Heap (· ≤ ·) data 1 data.length) :
    ∃ data', siftDownToBottom data 0 = .ok data' ∧ data'.Perm data ∧ IsHeap data' := by
  obtain ⟨hole, hnew, rfl, hzero⟩ := Hole.new_spec hpos
  have hbounds : hole.InBounds := by rwa [Hole.InBounds, hzero]
  obtain ⟨hole', hrun, hb, hperm, hgap, hdown⟩ := siftDownToBottomLoop_spec
    (k := hole.filled.length + 1) hbounds (by rw [hzero]; exact hheap.gap_first) (by omega)
  obtain ⟨pos', data', hup, hperm', hheap'⟩ := siftUp_spec hb hgap hdown
  refine ⟨data', ?_, hperm'.trans hperm, hheap'⟩
  rw [hzero] at hrun
  rw [siftDownToBottom, hnew, ok_bind, hrun, ok_bind, Hole.fill_eq hb, ok_bind, hup, ok_bind]

/-! ## The operations -/

namespace BinaryHeap

variable {heap other : BinaryHeap α} {item : α}

omit [DecidableLT α] in
theorem push_spec (h : IsHeap heap.data) (item : α) : ∃ heap', heap.push item = .ok heap' ∧
    heap'.data.Perm (item :: heap.data) ∧ IsHeap heap'.data := by
  have hlen : (heap.data ++ [item]).length = heap.data.length + 1 := length_append
  have hold : Heap (· ≤ ·) (heap.data ++ [item]) 0 heap.data.length :=
    h.congr fun i hi _ => getElem?_append_left hi
  have hlt : heap.data.length < (heap.data ++ [item]).length := by omega
  obtain ⟨pos, data, hrun, hperm, hheap⟩ :=
    siftUp_spec hlt (hold.gap_last hlen) (.last (le_of_eq hlen))
  refine ⟨⟨data⟩, ?_, hperm.trans (perm_append_singleton _ _), hheap⟩
  rw [push, len, hrun]
  rfl

theorem pop_spec (h : Heap (· ≤ ·) heap.data 1 heap.data.length) {root : α}
    (hroot : heap.peek = some root) :
    ∃ heap', heap.pop = .ok (some root, heap') ∧ heap.data.Perm (root :: heap'.data) ∧
      IsHeap heap'.data := by
  obtain ⟨data⟩ := heap
  rcases eq_nil_or_concat data with rfl | ⟨init, item, rfl⟩
  · cases hroot
  rw [concat_eq_append] at h hroot ⊢
  rw [pop, getLast?_append_of_ne_nil _ (cons_ne_nil _ _)]
  dsimp only [getLast?_singleton]
  rw [dropLast_concat]
  cases init with
  | nil =>
    cases hroot
    exact ⟨⟨[]⟩, rfl, .refl _, fun i h0 hi _ => absurd hi (Nat.not_lt_zero _)⟩
  | cons first rest =>
    obtain rfl : first = root := Option.some.inj hroot
    have hold : Heap (· ≤ ·) (item :: rest) 1 (item :: rest).length := by
      refine (h.mono ?_).congr fun i hi hne => ?_
      · rw [length_append]
        exact Nat.le_add_right _ _
      · cases i with
        | zero => exact absurd (hne rfl) Nat.one_ne_zero
        | succ i => exact (getElem?_append_left (Nat.lt_of_succ_lt_succ hi)).symm
    have hpos : 0 < (item :: rest).length := Nat.zero_lt_succ _
    obtain ⟨data', hrun, hperm, hheap⟩ := siftDownToBottom_spec hpos hold
    refine ⟨⟨data'⟩, ?_, ?_, hheap⟩
    · rw [if_pos (by rfl), get_eq rfl, ok_bind, set_eq (Nat.zero_lt_succ _), ok_bind]
      dsimp only [set_cons_zero]
      rw [hrun, ok_bind]
    · exact .cons _ ((perm_append_singleton item rest).trans hperm.symm)

omit [Std.Total fun a b : α => a ≤ b] in
theorem pop_nil (h : heap.data = []) : heap.pop = .ok (none, heap) := by
  rw [pop, h]
  rfl

theorem rebuildLoop_spec : ∀ {n : Nat} {data : List α}, n ≤ data.length →
    Heap (· ≤ ·) data n data.length →
    ∃ data', rebuildLoop n data = .ok data' ∧ data'.Perm data ∧ IsHeap data'
  | 0, data, _, h => ⟨data, rfl, .refl _, h⟩
  | n + 1, data, hn, h => by
    obtain ⟨data1, hrun, hsifted, hheap⟩ := siftDownRange_spec hn le_rfl h
    rw [← hsifted.length] at hheap
    obtain ⟨data', hrun', hperm, hheap'⟩ := rebuildLoop_spec
      (hsifted.length ▸ Nat.le_of_succ_le hn) hheap
    refine ⟨data', ?_, hperm.trans hsifted.perm, hheap'⟩
    rw [rebuildLoop, siftDown, hrun, ok_bind, hrun']

theorem rebuild_spec (heap : BinaryHeap α) :
    ∃ heap', heap.rebuild = .ok heap' ∧ heap'.data.Perm heap.data ∧ IsHeap heap'.data := by
  have hhalf : Heap (· ≤ ·) heap.data (heap.data.length / 2) heap.data.length := .of_half (by omega)
  obtain ⟨data, hrun, hperm, hheap⟩ := rebuildLoop_spec (Nat.div_le_self _ _) hhalf
  refine ⟨⟨data⟩, ?_, hperm, hheap⟩
  rw [rebuild, len, hrun]
  rfl

omit [DecidableLT α] in
theorem extend_spec : ∀ (iter : List α) {heap : BinaryHeap α}, IsHeap heap.data →
    ∃ heap', heap.extend iter = .ok heap' ∧ heap'.data.Perm (heap.data ++ iter) ∧
      IsHeap heap'.data
  | [], heap, h => ⟨heap, rfl, by rw [append_nil], h⟩
  | item :: iter, heap, h => by
    obtain ⟨heap1, hpush, hperm1, h1⟩ := push_spec h item
    obtain ⟨heap', hrun, hperm, h'⟩ := extend_spec iter h1
    refine ⟨heap', ?_, hperm.trans ((hperm1.append_right _).trans ?_), h'⟩
    · rw [extend, foldlM_cons, hpush, ok_bind, ← extend, hrun]
    · exact perm_middle.symm

theorem append_spec (h : IsHeap heap.data) (ho : IsHeap other.data) : ∃ heap', heap.append other =
    .ok (heap', new) ∧ heap'.data.Perm (heap.data ++ other.data) ∧ IsHeap heap'.data := by
  have key : ∀ {a b : BinaryHeap α}, IsHeap a.data → ∃ heap', (if b.isEmpty then .ok (a, b)
      else if betterToRebuild a.len b.len then do
        let heap ← rebuild ⟨a.data ++ b.data⟩
        .ok (heap, new)
      else do
        let heap ← a.extend b.data
        .ok (heap, new) : Outcome (BinaryHeap α × BinaryHeap α)) = .ok (heap', new) ∧
      heap'.data.Perm (a.data ++ b.data) ∧ IsHeap heap'.data := by
    intro a b ha
    split
    · next hempty =>
      obtain ⟨data⟩ := b
      obtain rfl : data = [] := length_eq_zero_iff.1 (of_decide_eq_true hempty)
      exact ⟨a, rfl, by rw [append_nil], ha⟩
    split
    · obtain ⟨heap', hrun, hrest⟩ := rebuild_spec ⟨a.data ++ b.data⟩
      exact ⟨heap', by rw [hrun]; rfl, hrest⟩
    · obtain ⟨heap', hrun, hrest⟩ := extend_spec b.data ha
      exact ⟨heap', by rw [hrun]; rfl, hrest⟩
  by_cases hlt : heap.len < other.len
  · obtain ⟨heap', hrun, hperm, hheap⟩ := @key other heap ho
    refine ⟨heap', ?_, hperm.trans perm_append_comm, hheap⟩
    rw [append, if_pos hlt]
    exact hrun
  · rw [append, if_neg hlt]
    exact key h

theorem dropDrainSorted_spec : ∀ {n : Nat} {heap : BinaryHeap α}, IsHeap heap.data →
    heap.data.length < n → dropDrainSorted n heap = .ok new
  | 0, _, _, hn => absurd hn (Nat.not_lt_zero _)
  | n + 1, heap, h, hn => by
    rw [dropDrainSorted]
    cases hdata : heap.data with
    | nil =>
      obtain ⟨data⟩ := heap
      cases hdata
      rfl
    | cons root rest =>
      have hpeek : heap.peek = some root := by rw [peek, hdata]; rfl
      obtain ⟨heap', hpop, hperm, h'⟩ := pop_spec (h.from_later (Nat.zero_le 1)) hpeek
      have hlen := hperm.length_eq
      rw [hpop, ok_bind]
      exact dropDrainSorted_spec h' (by simp only [length_cons] at hlen; omega)

variable {root : α}

omit [DecidableLE α] [DecidableLT α] [Std.Total fun a b : α => a ≤ b] in
theorem peek_max (h : IsHeap heap.data) (hroot : heap.peek = some root) :
    ∀ a ∈ heap.data, a ≤ root := by
  intro a ha
  obtain ⟨i, hi⟩ := mem_iff_getElem?.1 ha
  exact h.root (Nat.le_refl _) i (lt_length hi) a hi root hroot

theorem drainSorted_spec : ∀ (k : Nat) {heap : BinaryHeap α}, IsHeap heap.data →
    ∃ items rest, heap.drainSorted k = .ok (items, new) ∧ (items ++ rest).Perm heap.data ∧
      items.length = min k heap.data.length ∧ items.Pairwise (· ≥ ·) ∧
        ∀ a ∈ items, ∀ b ∈ rest, b ≤ a
  | 0, heap, h => by
    refine ⟨[], heap.data, ?_, .refl _, by simp, .nil, nofun⟩
    rw [drainSorted, len, dropDrainSorted_spec h (Nat.lt_succ_self _)]
    rfl
  | k + 1, heap, h => by
    rw [drainSorted]
    cases hdata : heap.data with
    | nil =>
      obtain ⟨items, rest, hrun, hperm, hlen, hsorted, hrest⟩ := drainSorted_spec k h
      rw [hdata] at hperm hlen
      rw [pop_nil hdata, ok_bind]
      dsimp only
      rw [hrun, ok_bind]
      exact ⟨items, rest, rfl, hperm, by simpa using hlen, hsorted, hrest⟩
    | cons root tail =>
      have hpeek : heap.peek = some root := by rw [peek, hdata]; rfl
      obtain ⟨heap', hpop, hperm', h'⟩ := pop_spec (h.from_later (Nat.zero_le 1)) hpeek
      obtain ⟨items, rest, hrun, hperm, hlen, hsorted, hrest⟩ := drainSorted_spec k h'
      have hmax : ∀ a ∈ heap'.data, a ≤ root := fun a ha =>
        peek_max h hpeek a (hperm'.mem_iff.2 (mem_cons_of_mem _ ha))
      have hlength := hperm'.length_eq
      rw [hdata, length_cons, length_cons] at hlength
      rw [hpop, ok_bind]
      dsimp only
      rw [hrun, ok_bind]
      refine ⟨root :: items, rest, rfl, ?_, ?_, ?_, ?_⟩
      · rw [← hdata]
        exact (hperm.cons root).trans hperm'.symm
      · rw [length_cons, length_cons, hlen]
        omega
      · exact .cons (fun a ha => hmax a (hperm.mem_iff.1 (mem_append_left _ ha))) hsorted
      · intro a ha b hb
        rcases mem_cons.1 ha with rfl | ha
        · exact hmax b (hperm.mem_iff.1 (mem_append_right _ hb))
        · exact hrest a ha b hb

theorem intoSortedVecLoop_spec : ∀ {n : Nat} {data : List α}, n ≤ data.length →
    Heap (· ≤ ·) data 0 n → (data.drop n).Pairwise (· ≤ ·) →
    (∀ a ∈ data.take n, ∀ b ∈ data.drop n, a ≤ b) →
    ∃ data', intoSortedVecLoop n data = .ok data' ∧ data'.Perm data ∧ data'.Pairwise (· ≤ ·)
  | 0, data, _, _, hsorted, _ => ⟨data, rfl, .refl _, hsorted⟩
  | 1, data, hn, _, hsorted, hle => by
    refine ⟨data, rfl, .refl _, ?_⟩
    rw [← take_append_drop 1 data, pairwise_append]
    obtain ⟨first, hfirst⟩ := exists_getElem? hn
    rw [take_one, head?_eq_getElem?, hfirst] at hle ⊢
    exact ⟨pairwise_singleton _ _, hsorted, hle⟩
  | n + 2, data, hn, hheap, hsorted, hle => by
    obtain ⟨root, hroot⟩ := exists_getElem? (lt_of_lt_of_le (Nat.zero_lt_succ _) hn)
    have hlen := exchange_length data 0 (n + 1)
    have hswap := @swap_eq _ data 0 (n + 1) (by omega) (by omega)
    have hget := @exchange_getElem? _ data 0 (n + 1) (by omega) (by omega)
    have hlast : (exchange data 0 (n + 1))[n + 1]? = some root := by
      rw [hget, Equiv.swap_apply_right, hroot]
    have hdropAll : (exchange data 0 (n + 1)).drop (n + 2) = data.drop (n + 2) :=
      exchange_drop (by omega) (by omega)
    have hdrop : (exchange data 0 (n + 1)).drop (n + 1) = root :: data.drop (n + 2) := by
      obtain ⟨hlt, heq⟩ := List.getElem?_eq_some_iff.1 hlast
      rw [List.drop_eq_getElem_cons hlt, heq, hdropAll]
    have hheap1 : Heap (· ≤ ·) (exchange data 0 (n + 1)) 1 (n + 1) := by
      refine ((hheap.mono (Nat.le_succ _)).from_later (Nat.zero_le 1)).congr fun i hi h0 => ?_
      rw [hget, swap_of_ne (fun h => absurd (h0 h) Nat.one_ne_zero) (by omega)]
    have hpos : 0 < (exchange data 0 (n + 1)).length := by omega
    have hend : n + 1 ≤ (exchange data 0 (n + 1)).length := by omega
    obtain ⟨data1, hrun1, hsifted, hheap'⟩ := siftDownRange_spec hpos hend hheap1
    have hmax : ∀ a ∈ data.take (n + 2), a ≤ root := by
      intro a ha
      obtain ⟨i, hi⟩ := mem_iff_getElem?.1 ha
      have hlt : i < n + 2 := by
        have := lt_length hi
        rw [length_take] at this
        omega
      rw [getElem?_take_of_lt hlt] at hi
      exact hheap.root hn i hlt a hi root hroot
    have htake : ∀ a ∈ data1.take (n + 1), a ∈ data.take (n + 2) := by
      intro a ha
      have hsuff : data1.drop (n + 2) = data.drop (n + 2) := by
        have := congrArg (List.drop 1) (hsifted.drop.trans hdrop)
        rwa [drop_drop] at this
      have hperm := perm_take_of_drop (hsifted.perm.trans (exchange_perm _ _ _)) hsuff
      exact hperm.mem_iff.1 ((take_prefix_take_left (Nat.le_succ _)).subset ha)
    obtain ⟨data', hrun, hperm, hsorted'⟩ := @intoSortedVecLoop_spec (n + 1) data1
      (by rw [hsifted.length]; omega) hheap'
      (by
        rw [hsifted.drop, hdrop]
        refine .cons (fun b hb => ?_) hsorted
        refine hle root (mem_of_getElem? (i := 0) ?_) b hb
        rw [getElem?_take_of_lt (Nat.zero_lt_succ _), hroot])
      (by
        rw [hsifted.drop, hdrop]
        intro a ha b hb
        rcases mem_cons.1 hb with rfl | hb
        · exact hmax a (htake a ha)
        · exact hle a (htake a ha) b hb)
    refine ⟨data', ?_, hperm.trans (hsifted.perm.trans (exchange_perm _ _ _)), hsorted'⟩
    rw [intoSortedVecLoop, hswap, ok_bind, hrun1, ok_bind, hrun]

theorem intoSortedVec_spec (h : IsHeap heap.data) :
    ∃ vec, heap.intoSortedVec = .ok vec ∧ vec.Perm heap.data ∧ vec.Pairwise (· ≤ ·) :=
  intoSortedVecLoop_spec le_rfl h (by rw [len, drop_length]; exact .nil)
    (by rw [len, drop_length]; exact fun _ _ => nofun)

omit [DecidableLE α] [DecidableLT α] [Std.Total fun a b : α => a ≤ b] in
theorem set_root (h : IsHeap heap.data) (hroot : heap.peek = some root) (a : α) :
    Heap (· ≤ ·) (heap.data.set 0 a) 1 (heap.data.set 0 a).length ∧
      ∃ rest, heap.data = root :: rest ∧ heap.data.set 0 a = a :: rest := by
  obtain ⟨data⟩ := heap
  cases data with
  | nil => cases hroot
  | cons first rest =>
    obtain rfl : first = root := Option.some.inj hroot
    refine ⟨(h.from_later (Nat.zero_le 1)).congr fun i _ h0 => ?_, rest, rfl, rfl⟩
    cases i with
    | zero => exact absurd (h0 rfl) Nat.one_ne_zero
    | succ i => rfl

theorem peekMut_spec (h : IsHeap heap.data) (hroot : heap.peek = some root) (change : α → α) :
    ∃ heap' rest, heap.peekMut change = .ok (true, heap') ∧ heap.data = root :: rest ∧
      heap'.data.Perm (change root :: rest) ∧ IsHeap heap'.data := by
  obtain ⟨hheap, rest, hdata, hset⟩ := set_root h hroot (change root)
  have hpos : 0 < (heap.data.set 0 (change root)).length := by
    rw [hset]
    exact Nat.zero_lt_succ _
  obtain ⟨data', hrun, hsifted, hheap'⟩ := siftDownRange_spec hpos le_rfl hheap
  rw [← hsifted.length] at hheap'
  refine ⟨⟨data'⟩, rest, ?_, hdata, hset ▸ hsifted.perm, hheap'⟩
  rw [peekMut, if_neg (by rw [isEmpty, len, hdata]; nofun), get_eq hroot, ok_bind,
    set_eq (lt_length hroot), ok_bind, siftDown, hrun, ok_bind]

theorem peekMutPop_spec (h : IsHeap heap.data) (hroot : heap.peek = some root) (change : α → α) :
    ∃ heap' rest, heap.peekMutPop change = .ok (some (change root), heap') ∧
      heap.data = root :: rest ∧ heap'.data.Perm rest ∧ IsHeap heap'.data := by
  obtain ⟨hheap, rest, hdata, hset⟩ := set_root h hroot (change root)
  obtain ⟨heap', hpop, hperm, hheap'⟩ := @pop_spec _ _ _ _ _ ⟨heap.data.set 0 (change root)⟩ hheap
    (change root) (by rw [peek, hset]; rfl)
  refine ⟨heap', rest, ?_, hdata, ?_, hheap'⟩
  · rw [peekMutPop, if_neg (by rw [isEmpty, len, hdata]; nofun), get_eq hroot, ok_bind,
      set_eq (lt_length hroot), ok_bind, hpop, ok_bind]
    rfl
  · rw [hset] at hperm
    exact (perm_cons _).1 hperm.symm

omit [DecidableLE α] [DecidableLT α] [Std.Total fun a b : α => a ≤ b] [Preorder α] in
theorem peek_eq_none : heap.peek = none ↔ heap.data = [] := by
  rw [peek, getElem?_eq_none_iff, Nat.le_zero, length_eq_zero_iff]

end BinaryHeap

end

end

end Tortis.Collections
