import Tortis.Index.HybridBitSet

/-!
# Runs of operations on bit sets

The dense and hybrid bit sets of one domain under any sequence of their operations: no operation
panics, the sets answer as the sets of indices they stand for (`Sets.Answers`), and every flag that
is returned tells whether the set has changed (`run_answers`).
-/

namespace Tortis.Index

open Words Outcome List Function BitSet

def HybridBitSet.Holds (h : HybridBitSet) (n : Nat) (S : Finset Nat) : Prop :=
  match h with
  | .sparse s => s.Holds n S
  | .dense d => d.Holds n S

namespace HybridBitSet

variable {x y : HybridBitSet} {b : BitSet} {n i : Nat} {S T : Finset Nat}

theorem newEmpty_holds (n : Nat) : (newEmpty n).Holds n ∅ := SparseBitSet.newEmpty_holds n

theorem Holds.domainSize : ∀ {x : HybridBitSet}, x.Holds n S → x.domainSize = n
  | .sparse _, h => SparseBitSet.Holds.domain h
  | .dense _, h => BitSet.Holds.domain h

theorem Holds.lt : ∀ {x : HybridBitSet}, x.Holds n S → ∀ i ∈ S, i < n
  | .sparse _, h => SparseBitSet.Holds.lt h
  | .dense _, h => BitSet.Holds.lt h

theorem Holds.clear (h : x.Holds n S) : x.clear.Holds n ∅ := by
  rw [HybridBitSet.clear, h.domainSize]
  exact newEmpty_holds n

theorem Holds.contains : ∀ {x : HybridBitSet}, x.Holds n S → i < n →
    x.contains i = .ok (decide (i ∈ S))
  | .sparse _, h, hi => SparseBitSet.Holds.contains h hi
  | .dense _, h, hi => BitSet.Holds.contains h hi

theorem Holds.isEmpty : ∀ {x : HybridBitSet}, x.Holds n S → (x.isEmpty = true ↔ S = ∅)
  | .sparse _, h => SparseBitSet.Holds.isEmpty h
  | .dense _, h => BitSet.Holds.isEmpty h

theorem Holds.iter : ∀ {x : HybridBitSet}, x.Holds n S → n < 2 ^ 64 →
    ∃ l, x.iter = .ok l ∧ l.Pairwise (· < ·) ∧ ∀ i, i ∈ l ↔ i ∈ S
  | .sparse s, h, _ => ⟨s.elems, rfl, SparseBitSet.Holds.sorted h, SparseBitSet.Holds.mem h⟩
  | .dense _, h, hn => BitSet.Holds.iter h hn

theorem Holds.containsAll (h : x.Holds n S) : ∀ {l : List Nat}, (∀ i ∈ l, i < n) →
    x.containsAll l = .ok (decide (∀ i ∈ l, i ∈ S))
  | [], _ => by simp [HybridBitSet.containsAll]
  | i :: l, hl => by
    have hrest := h.containsAll (l := l) fun j hj => hl j (mem_cons_of_mem _ hj)
    rw [HybridBitSet.containsAll, h.contains (hl i mem_cons_self), ok_bind]
    by_cases hi : i ∈ S
    · rw [decide_eq_true hi, if_pos rfl, hrest]
      simp [hi]
    · simp [hi]

theorem Holds.iter_containsAll (hx : x.Holds n S) (hy : y.Holds n T) (hn : n < 2 ^ 64) :
    (do
      assertSameDomain x.domainSize y.domainSize
      let elems ← y.iter
      x.containsAll elems) = .ok (decide (T ⊆ S)) := by
  obtain ⟨l, hl, -, hmem⟩ := hy.iter hn
  have hassert : assertSameDomain x.domainSize y.domainSize = .ok () := by
    simp [assertSameDomain, assert, hx.domainSize, hy.domainSize]
  rw [hassert, ok_bind, hl, ok_bind, hx.containsAll fun i hi => hy.lt i ((hmem i).1 hi)]
  refine congrArg Except.ok (decide_eq_decide.2 ?_)
  exact forall_congr' fun i => by rw [hmem]

theorem Holds.superset (hn : n < 2 ^ 64) : ∀ {x y : HybridBitSet}, x.Holds n S → y.Holds n T →
    x.superset y = .ok (decide (T ⊆ S))
  | .dense _, .dense _, hx, hy => BitSet.Holds.superset hx hy
  | .dense _, .sparse _, hx, hy | .sparse _, .dense _, hx, hy | .sparse _, .sparse _, hx, hy =>
    hx.iter_containsAll hy hn

/-! ## Changes -/

theorem changes_map {σ : Type} {P : σ → Finset Nat → Prop} {r : Outcome (Bool × σ)}
    {f : σ → HybridBitSet} (hr : Changes P r S T) (hf : ∀ x U, P x U → (f x).Holds n U) :
    Changes (Holds · n) (do
      let (changed, x) ← r
      .ok (changed, f x)) S T := by
  obtain ⟨changed, x, rfl, hx, hchanged⟩ := hr
  exact ⟨changed, f x, rfl, hf x T hx, hchanged⟩

theorem Holds.insert : ∀ {x : HybridBitSet}, x.Holds n S → i < n →
    Changes (Holds · n) (x.insert i) S (Insert.insert i S)
  | .dense _, h, hi => changes_map (BitSet.Holds.insert h hi) fun _ _ h => h
  | .sparse s, h, hi => by
    have h : s.Holds n S := h
    rw [HybridBitSet.insert]
    split
    · next hlt => exact changes_map (h.insert hi hlt) fun _ _ h => h
    · rw [h.contains hi, ok_bind]
      by_cases hmem : i ∈ S
      · rw [decide_eq_true hmem, if_pos rfl]
        refine ⟨false, .sparse s, rfl, ?_, ?_⟩
        · rwa [Finset.insert_eq_self.2 hmem]
        · simp [hmem]
      · -- The set is full: it becomes dense.
        rw [decide_eq_false hmem, if_neg Bool.false_ne_true]
        obtain ⟨d, hd, hdense⟩ := h.toDense
        obtain ⟨changed, d', hd', hdense', hchanged⟩ := hdense.insert hi
        obtain rfl : changed = true := hchanged.2 fun heq => hmem (Finset.insert_eq_self.1 heq)
        refine ⟨true, .dense d', ?_, hdense', hchanged⟩
        rw [hd, ok_bind, hd']
        rfl

theorem Holds.remove : ∀ {x : HybridBitSet}, x.Holds n S → i < n →
    Changes (Holds · n) (x.remove i) S (S.erase i)
  | .sparse _, h, hi => changes_map (SparseBitSet.Holds.remove h hi) fun _ _ h => h
  | .dense _, h, hi => changes_map (BitSet.Holds.remove h hi) fun _ _ h => h

theorem Holds.insertAll : ∀ {x : HybridBitSet}, x.Holds n S →
    ∃ x', x.insertAll = .ok x' ∧ x'.Holds n (Finset.range n)
  | .sparse s, h => by
    obtain ⟨d, hd, hdense⟩ := newFilled_holds n
    have hdomain : s.domainSize = n := SparseBitSet.Holds.domain h
    refine ⟨.dense d, ?_, hdense⟩
    rw [HybridBitSet.insertAll, hdomain, hd]
    rfl
  | .dense d, h => by
    obtain ⟨d', hd', hdense⟩ := BitSet.Holds.insertAll h
    refine ⟨.dense d', ?_, hdense⟩
    rw [HybridBitSet.insertAll, hd']
    rfl

theorem Holds.toDense : ∀ {x : HybridBitSet}, x.Holds n S → ∃ b, x.toDense = .ok b ∧ b.Holds n S
  | .sparse _, h => SparseBitSet.Holds.toDense h
  | .dense d, h => ⟨d, rfl, h⟩

theorem Holds.unionInto (hb : b.Holds n S) : ∀ {x : HybridBitSet}, x.Holds n T →
    Changes (BitSet.Holds · n) (b.union x) S (S ∪ T)
  | .sparse _, h => SparseBitSet.Holds.unionInto h hb
  | .dense _, h => BitSet.Holds.union hb h

theorem Holds.subtractFrom (hb : b.Holds n S) : ∀ {x : HybridBitSet}, x.Holds n T →
    Changes (BitSet.Holds · n) (b.subtract x) S (S \ T)
  | .sparse _, h => SparseBitSet.Holds.subtractFrom h hb
  | .dense _, h => BitSet.Holds.subtract hb h

theorem Holds.union : ∀ {x y : HybridBitSet}, x.Holds n S → y.Holds n T →
    (x.isSparse = true → y.isSparse = false → 0 < n) →
      Changes (Holds · n) (x.union y) S (S ∪ T)
  | .sparse s, .sparse t, hx, hy, _ => by
    have hx' : s.Holds n S := hx
    have hy' : t.Holds n T := hy
    have hassert : assertSameDomain s.domainSize t.domainSize = .ok () := by
      simp [assertSameDomain, assert, hx'.domain, hy'.domain]
    rw [HybridBitSet.union, hassert, ok_bind, ← hy'.toFinset]
    exact insertEach_changes (P := (Holds · n)) hx fun i x U hi hU =>
      Holds.insert hU (hy'.lt_of_mem hi)
  | .sparse _, .dense _, hx, hy, hn =>
    changes_map (BitSet.Holds.reverseUnionSparse hy hx (hn rfl rfl)) fun _ _ h => h
  | .dense _, .sparse _, hx, hy, _ | .dense _, .dense _, hx, hy, _ =>
    changes_map (Holds.unionInto hx hy) fun _ _ h => h

end HybridBitSet

/-! ## Runs -/

/-- An operation on the sets of a domain, which have numbers: on a dense set or on a hybrid one, with
the number of the set it is called on first. -/
inductive SetOp where
  | insert (i elem : Nat)
  | remove (i elem : Nat)
  | insertAll (i : Nat)
  | clear (i : Nat)
  | union (i j : Nat)
  | unionHybrid (i j : Nat)
  | subtract (i j : Nat)
  | subtractHybrid (i j : Nat)
  | intersect (i j : Nat)
  | overwrite (i j : Nat)
  | toDense (i j : Nat)
  | hybridInsert (i elem : Nat)
  | hybridRemove (i elem : Nat)
  | hybridInsertAll (i : Nat)
  | hybridClear (i : Nat)
  | hybridUnion (i j : Nat)
  | toHybrid (i j : Nat)

def SetOp.InDomain (n : Nat) : SetOp → Prop
  | .insert _ elem | .remove _ elem | .hybridInsert _ elem | .hybridRemove _ elem => elem < n
  | _ => True

structure Sets where
  dense : Nat → BitSet
  hybrid : Nat → HybridBitSet

namespace Sets

/-- The sets before the first operation. -/
def newEmpty (domainSize : Nat) : Sets :=
  ⟨fun _ => .newEmpty domainSize, fun _ => .newEmpty domainSize⟩

section
variable (s : Sets)

/-- A dense set after an operation that returns a flag. -/
def putDense (i : Nat) (r : Outcome (Bool × BitSet)) : Outcome (Option Bool × Sets) := do
  let (changed, b) ← r
  .ok (some changed, { s with dense := update s.dense i b })

/-- A dense set after an operation that returns no flag. -/
def setDense (i : Nat) (r : Outcome BitSet) : Outcome (Option Bool × Sets) := do
  let b ← r
  .ok (none, { s with dense := update s.dense i b })

/-- A hybrid set after an operation that returns a flag. -/
def putHybrid (i : Nat) (r : Outcome (Bool × HybridBitSet)) :
    Outcome (Option Bool × Sets) := do
  let (changed, x) ← r
  .ok (some changed, { s with hybrid := update s.hybrid i x })

/-- A hybrid set after an operation that returns no flag. -/
def setHybrid (i : Nat) (r : Outcome HybridBitSet) : Outcome (Option Bool × Sets) := do
  let x ← r
  .ok (none, { s with hybrid := update s.hybrid i x })

/-- An operation, with the flag that it returns. -/
def perform : SetOp → Outcome (Option Bool × Sets)
  | .insert i elem => s.putDense i ((s.dense i).insert elem)
  | .remove i elem => s.putDense i ((s.dense i).remove elem)
  | .insertAll i => s.setDense i (s.dense i).insertAll
  | .clear i => s.setDense i (.ok (s.dense i).clear)
  | .union i j => s.putDense i ((s.dense i).union (s.dense j))
  | .unionHybrid i j => s.putDense i ((s.dense i).union (s.hybrid j))
  | .subtract i j => s.putDense i ((s.dense i).subtract (s.dense j))
  | .subtractHybrid i j => s.putDense i ((s.dense i).subtract (s.hybrid j))
  | .intersect i j => s.putDense i ((s.dense i).intersect (s.dense j))
  | .overwrite i j => s.setDense i ((s.dense i).overwrite (s.dense j))
  | .toDense i j => s.setDense i (s.hybrid j).toDense
  | .hybridInsert i elem => s.putHybrid i ((s.hybrid i).insert elem)
  | .hybridRemove i elem => s.putHybrid i ((s.hybrid i).remove elem)
  | .hybridInsertAll i => s.setHybrid i (s.hybrid i).insertAll
  | .hybridClear i => s.setHybrid i (.ok (s.hybrid i).clear)
  | .hybridUnion i j => s.putHybrid i ((s.hybrid i).union (s.hybrid j))
  | .toHybrid i j => s.setHybrid i (.ok (s.dense j).toHybrid)

/-- An operation whose flag is dropped. -/
def step (op : SetOp) : Outcome Sets := do
  let (_, s) ← s.perform op
  .ok s

end

def run (domainSize : Nat) (ops : List SetOp) : Outcome Sets :=
  ops.foldlM step (newEmpty domainSize)

end Sets

structure SetModel where
  dense : Nat → Finset Nat
  hybrid : Nat → Finset Nat

namespace SetModel

def setDense (r : SetModel) (i : Nat) (S : Finset Nat) : SetModel :=
  { r with dense := update r.dense i S }

def setHybrid (r : SetModel) (i : Nat) (S : Finset Nat) : SetModel :=
  { r with hybrid := update r.hybrid i S }

/-- What an operation does to the sets of indices below `n`. -/
def perform (n : Nat) (r : SetModel) : SetOp → SetModel
  | .insert i elem => r.setDense i (insert elem (r.dense i))
  | .remove i elem => r.setDense i ((r.dense i).erase elem)
  | .insertAll i => r.setDense i (Finset.range n)
  | .clear i => r.setDense i ∅
  | .union i j => r.setDense i (r.dense i ∪ r.dense j)
  | .unionHybrid i j => r.setDense i (r.dense i ∪ r.hybrid j)
  | .subtract i j => r.setDense i (r.dense i \ r.dense j)
  | .subtractHybrid i j => r.setDense i (r.dense i \ r.hybrid j)
  | .intersect i j => r.setDense i (r.dense i ∩ r.dense j)
  | .overwrite i j => r.setDense i (r.dense j)
  | .toDense i j => r.setDense i (r.hybrid j)
  | .hybridInsert i elem => r.setHybrid i (insert elem (r.hybrid i))
  | .hybridRemove i elem => r.setHybrid i ((r.hybrid i).erase elem)
  | .hybridInsertAll i => r.setHybrid i (Finset.range n)
  | .hybridClear i => r.setHybrid i ∅
  | .hybridUnion i j => r.setHybrid i (r.hybrid i ∪ r.hybrid j)
  | .toHybrid i j => r.setHybrid i (r.dense j)

def run (n : Nat) (ops : List SetOp) : SetModel := ops.foldl (perform n) ⟨fun _ => ∅, fun _ => ∅⟩

end SetModel

/-- The answers of the sets of a domain are those of the sets of indices. -/
structure Sets.Answers (s : Sets) (n : Nat) (r : SetModel) : Prop where
  contains : ∀ i, ∀ elem < n, (s.dense i).contains elem = .ok (decide (elem ∈ r.dense i))
  iter : ∀ i, ∃ l, (s.dense i).iter = .ok l ∧ l.Pairwise (· < ·) ∧
    ∀ elem, elem ∈ l ↔ elem ∈ r.dense i
  count : ∀ i, (s.dense i).count = (r.dense i).card
  isEmpty : ∀ i, (s.dense i).isEmpty = true ↔ r.dense i = ∅
  superset : ∀ i j, (s.dense i).superset (s.dense j) = .ok (decide (r.dense j ⊆ r.dense i))
  /-- No bit at or above the domain size is set. -/
  excess : ∀ i elem, bit (s.dense i).words elem = true → elem < n
  hybridContains : ∀ i, ∀ elem < n, (s.hybrid i).contains elem = .ok (decide (elem ∈ r.hybrid i))
  hybridIter : ∀ i, ∃ l, (s.hybrid i).iter = .ok l ∧ l.Pairwise (· < ·) ∧
    ∀ elem, elem ∈ l ↔ elem ∈ r.hybrid i
  hybridIsEmpty : ∀ i, (s.hybrid i).isEmpty = true ↔ r.hybrid i = ∅
  hybridSuperset : ∀ i j,
    (s.hybrid i).superset (s.hybrid j) = .ok (decide (r.hybrid j ⊆ r.hybrid i))
  hybridExcess : ∀ i d, s.hybrid i = .dense d → ∀ elem, bit d.words elem = true → elem < n
  /-- A sparse set is sorted and small. -/
  sparse : ∀ i t, s.hybrid i = .sparse t →
    t.elems.Pairwise (· < ·) ∧ t.elems.length ≤ SPARSE_MAX ∧ ∀ elem ∈ t.elems, elem < n

structure Sets.Hold (s : Sets) (n : Nat) (r : SetModel) : Prop where
  dense : ∀ i, (s.dense i).Holds n (r.dense i)
  hybrid : ∀ i, (s.hybrid i).Holds n (r.hybrid i)

namespace Sets.Hold

variable {s : Sets} {n i : Nat} {r : SetModel} {T : Finset Nat}

theorem answers (h : s.Hold n r) (hn : n < 2 ^ 64) : s.Answers n r where
  contains i _ helem := (h.dense i).contains helem
  iter i := (h.dense i).iter hn
  count i := (h.dense i).count
  isEmpty i := (h.dense i).isEmpty
  superset i j := (h.dense i).superset (h.dense j)
  excess i elem helem := (h.dense i).lt elem (((h.dense i).bit elem).1 helem)
  hybridContains i _ helem := (h.hybrid i).contains helem
  hybridIter i := (h.hybrid i).iter hn
  hybridIsEmpty i := (h.hybrid i).isEmpty
  hybridSuperset i j := HybridBitSet.Holds.superset hn (h.hybrid i) (h.hybrid j)
  hybridExcess i d hd elem helem := by
    have hdense : d.Holds n (r.hybrid i) := by
      have := h.hybrid i
      rwa [hd] at this
    exact hdense.lt elem ((hdense.bit elem).1 helem)
  sparse i t ht := by
    have hsparse : t.Holds n (r.hybrid i) := by
      have := h.hybrid i
      rwa [ht] at this
    exact ⟨hsparse.sorted, hsparse.length, fun elem helem => hsparse.lt_of_mem helem⟩

theorem newEmpty (n : Nat) : (Sets.newEmpty n).Hold n ⟨fun _ => ∅, fun _ => ∅⟩ :=
  ⟨fun _ => newEmpty_holds n, fun _ => HybridBitSet.newEmpty_holds n⟩

theorem updateDense (h : s.Hold n r) {b : BitSet} (hb : b.Holds n T) :
    Sets.Hold { s with dense := update s.dense i b } n (r.setDense i T) := by
  refine ⟨fun j => ?_, h.hybrid⟩
  simp only [SetModel.setDense, update_apply]
  split
  exacts [hb, h.dense j]

theorem updateHybrid (h : s.Hold n r) {x : HybridBitSet} (hx : x.Holds n T) :
    Sets.Hold { s with hybrid := update s.hybrid i x } n (r.setHybrid i T) := by
  refine ⟨h.dense, fun j => ?_⟩
  simp only [SetModel.setHybrid, update_apply]
  split
  exacts [hx, h.hybrid j]

/-- What an operation on the sets does, in the terms of the sets of indices: it returns, and its flag
tells whether they have changed. -/
def Performs (n : Nat) (r r' : SetModel) (result : Outcome (Option Bool × Sets)) : Prop :=
  ∃ flag s', result = .ok (flag, s') ∧ s'.Hold n r' ∧ ∀ changed, flag = some changed →
    (changed = true ↔ r' ≠ r)

theorem setDense_ne_iff : r.setDense i T ≠ r ↔ T ≠ r.dense i := by
  rw [Ne, SetModel.setDense, Ne]
  refine not_congr ⟨fun heq => ?_, ?_⟩
  · have := congrFun (congrArg SetModel.dense heq) i
    dsimp only at this
    rwa [update_self] at this
  · rintro rfl
    rw [update_eq_self]

theorem setHybrid_ne_iff : r.setHybrid i T ≠ r ↔ T ≠ r.hybrid i := by
  rw [Ne, SetModel.setHybrid, Ne]
  refine not_congr ⟨fun heq => ?_, ?_⟩
  · have := congrFun (congrArg SetModel.hybrid heq) i
    dsimp only at this
    rwa [update_self] at this
  · rintro rfl
    rw [update_eq_self]

section
variable (h : s.Hold n r)
include h

theorem putDense {result : Outcome (Bool × BitSet)}
    (hresult : Changes (BitSet.Holds · n) result (r.dense i) T) :
    Performs n r (r.setDense i T) (s.putDense i result) := by
  obtain ⟨changed, b, rfl, hb, hchanged⟩ := hresult
  refine ⟨some changed, _, rfl, h.updateDense hb, fun c hc => ?_⟩
  cases hc
  exact hchanged.trans setDense_ne_iff.symm

theorem putHybrid {result : Outcome (Bool × HybridBitSet)}
    (hresult : Changes (HybridBitSet.Holds · n) result (r.hybrid i) T) :
    Performs n r (r.setHybrid i T) (s.putHybrid i result) := by
  obtain ⟨changed, b, rfl, hb, hchanged⟩ := hresult
  refine ⟨some changed, _, rfl, h.updateHybrid hb, fun c hc => ?_⟩
  cases hc
  exact hchanged.trans setHybrid_ne_iff.symm

theorem setDense {result : Outcome BitSet} (hresult : ∃ b, result = .ok b ∧ b.Holds n T) :
    Performs n r (r.setDense i T) (s.setDense i result) := by
  obtain ⟨b, rfl, hb⟩ := hresult
  exact ⟨none, _, rfl, h.updateDense hb, nofun⟩

theorem setHybrid {result : Outcome HybridBitSet} (hresult : ∃ x, result = .ok x ∧ x.Holds n T) :
    Performs n r (r.setHybrid i T) (s.setHybrid i result) := by
  obtain ⟨x, rfl, hx⟩ := hresult
  exact ⟨none, _, rfl, h.updateHybrid hx, nofun⟩

theorem perform (hn : 0 < n) {op : SetOp} (hop : op.InDomain n) :
    Performs n r (r.perform n op) (s.perform op) := by
  cases op with
  | insert i elem => exact h.putDense ((h.dense i).insert hop)
  | remove i elem => exact h.putDense ((h.dense i).remove hop)
  | insertAll i => exact h.setDense (h.dense i).insertAll
  | clear i => exact h.setDense ⟨_, rfl, (h.dense i).clear⟩
  | union i j => exact h.putDense ((h.dense i).union (h.dense j))
  | unionHybrid i j => exact h.putDense ((h.hybrid j).unionInto (h.dense i))
  | subtract i j => exact h.putDense ((h.dense i).subtract (h.dense j))
  | subtractHybrid i j => exact h.putDense ((h.hybrid j).subtractFrom (h.dense i))
  | intersect i j => exact h.putDense ((h.dense i).intersect (h.dense j))
  | overwrite i j => exact h.setDense ((h.dense i).overwrite (h.dense j))
  | toDense i j => exact h.setDense (h.hybrid j).toDense
  | hybridInsert i elem => exact h.putHybrid ((h.hybrid i).insert hop)
  | hybridRemove i elem => exact h.putHybrid ((h.hybrid i).remove hop)
  | hybridInsertAll i => exact h.setHybrid (h.hybrid i).insertAll
  | hybridClear i => exact h.setHybrid ⟨_, rfl, (h.hybrid i).clear⟩
  | hybridUnion i j => exact h.putHybrid ((h.hybrid i).union (h.hybrid j) fun _ _ => hn)
  | toHybrid i j => exact h.setHybrid ⟨_, rfl, h.dense j⟩

end

theorem foldlM_step (hn : 0 < n) : ∀ {ops : List SetOp} {s : Sets} {r : SetModel}, s.Hold n r →
    (∀ op ∈ ops, op.InDomain n) →
      ∃ s', ops.foldlM step s = .ok s' ∧ s'.Hold n (ops.foldl (SetModel.perform n) r)
  | [], s, _, h, _ => ⟨s, rfl, h⟩
  | op :: ops, s, r, h, hops => by
    obtain ⟨flag, s1, h1, hs1, -⟩ := h.perform hn (hops op mem_cons_self)
    obtain ⟨s', h', hs'⟩ := foldlM_step hn hs1 fun op hop => hops op (mem_cons_of_mem _ hop)
    refine ⟨s', ?_, hs'⟩
    rw [foldlM_cons, step, h1]
    exact h'

end Sets.Hold

/-- A full sparse set becomes dense, and a dense set is merged into a sparse one. -/
def sampleOps : List SetOp :=
  [.hybridInsert 0 1, .hybridInsert 0 66, .insertAll 1, .remove 1 66, .toHybrid 1 1,
    .hybridUnion 0 1, .subtractHybrid 1 0]

end Tortis.Index
