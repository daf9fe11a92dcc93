import Tortis.Index.BitSet
import Tortis.Lib.List

/-!
# Hybrid bit sets

`SparseBitSet` and `HybridBitSet` of `librustc_index/bit_set.rs`: a set with at most eight elements is
kept as the sorted list of its elements, and becomes dense when a ninth is inserted. A dense set is
merged into a sparse one by `reverse_union_sparse`, which works on a copy of the dense set and tells
word by word whether it had an element that the sparse set did not have.
-/

namespace Tortis.Index

open Outcome List BitSet Finset.Subset

def SPARSE_MAX : Nat := 8

/-- The body of a loop that changes a set for each element of another one and collects whether it has
changed. -/
def changeStep {σ : Type} (f : σ → Nat → Outcome (Bool × σ)) (st : Bool × σ) (elem : Nat) :
    Outcome (Bool × σ) := do
  let (c, x) ← f st.2 elem
  .ok (st.1 || c, x)

structure SparseBitSet where
  domainSize : Nat
  elems : List Nat

namespace SparseBitSet

def newEmpty (domainSize : Nat) : SparseBitSet := ⟨domainSize, []⟩

section
variable (s : SparseBitSet)

def len : Nat := s.elems.length

def isEmpty : Bool := s.elems.length == 0

def contains (s : SparseBitSet) (elem : Nat) : Outcome Bool := do
  assertInDomain s.domainSize elem
  .ok (s.elems.contains elem)

/-- The elements with one put in its place, and whether it is new. -/
def insertElem (elems : List Nat) (elem : Nat) : Outcome (Bool × List Nat) :=
  match elems.findIdx? fun e => elem ≤ e with
  | some i => do
    let e ← expect "index out of bounds" elems[i]?
    if e = elem then .ok (false, elems) else .ok (true, elems.insertIdx i elem)
  | none => .ok (true, elems ++ [elem])

def insert (elem : Nat) : Outcome (Bool × SparseBitSet) := do
  assertInDomain s.domainSize elem
  let (changed, elems) ← insertElem s.elems elem
  assert (elems.length ≤ SPARSE_MAX) "assertion failed: self.len() <= SPARSE_MAX"
  .ok (changed, { s with elems })

def remove (elem : Nat) : Outcome (Bool × SparseBitSet) := do
  assertInDomain s.domainSize elem
  match s.elems.findIdx? fun e => e = elem with
  | some i => .ok (true, { s with elems := s.elems.eraseIdx i })
  | none => .ok (false, s)

/-- The body of the loop in `to_dense`. -/
def densify (dense : BitSet) (elem : Nat) : Outcome BitSet := do
  let (_, dense) ← dense.insert elem
  .ok dense

def toDense : Outcome BitSet :=
  s.elems.foldlM densify (BitSet.newEmpty s.domainSize)

/-- A loop over the elements that changes a dense set and collects whether it changes. -/
def changeEach (f : BitSet → Nat → Outcome (Bool × BitSet)) (other : BitSet) :
    Outcome (Bool × BitSet) := do
  assertSameDomain s.domainSize other.domainSize
  s.elems.foldlM (changeStep f) (false, other)

end

/-- `union_into`. -/
instance : UnionIntoBitSet SparseBitSet where
  unionInto self other := self.changeEach BitSet.insert other

/-- `subtract_from`. -/
instance : SubtractFromBitSet SparseBitSet where
  subtractFrom self other := self.changeEach BitSet.remove other

end SparseBitSet

/-! ## The union of a copy of a dense set with a sparse one -/

/-- The variables of the loop in `reverse_union_sparse`. -/
structure ReverseUnion where
  words : List Word
  notAlready : Bool
  currentIndex : Nat
  newBitMask : Word

def sliceWords (words : List Word) (start stop : Nat) : Outcome (List Word) := do
  assert (start ≤ stop && stop ≤ words.length) "slice index out of range"
  .ok ((words.take stop).drop start)

namespace ReverseUnion

/-- The merge of the current word, and of the words behind it up to `stop`, which are only
inspected. -/
def flush (st : ReverseUnion) (stop : Nat) : Outcome ReverseUnion := do
  let word ← expect "index out of bounds" st.words[st.currentIndex]?
  let merged := word ||| st.newBitMask
  let words := st.words.set st.currentIndex merged
  let skipped ← sliceWords words (st.currentIndex + 1) stop
  .ok { st with
    words
    notAlready := st.notAlready || merged ^^^ st.newBitMask != 0#64 ||
      skipped.any fun x => x != 0#64 }

def step (st : ReverseUnion) (elem : Nat) : Outcome ReverseUnion := do
  let (wordIndex, mask) := wordIndexAndMask elem
  if st.currentIndex < wordIndex then do
    let st ← st.flush wordIndex
    .ok { st with currentIndex := wordIndex, newBitMask := 0#64 ||| mask }
  else .ok { st with newBitMask := st.newBitMask ||| mask }

end ReverseUnion

def BitSet.reverseUnionSparse (b : BitSet) (sparse : SparseBitSet) : Outcome (Bool × BitSet) := do
  assert (sparse.domainSize = b.domainSize)
    "assertion failed: sparse.domain_size == self.domain_size"
  let b ← b.clearExcessBits
  let st ← sparse.elems.foldlM ReverseUnion.step ⟨b.words, false, 0, 0#64⟩
  let st ← st.flush st.words.length
  .ok (st.notAlready, { b with words := st.words })

inductive HybridBitSet where
  | sparse (sparse : SparseBitSet)
  | dense (dense : BitSet)

namespace HybridBitSet

def newEmpty (domainSize : Nat) : HybridBitSet := .sparse (.newEmpty domainSize)

def domainSize : HybridBitSet → Nat
  | .sparse s => s.domainSize
  | .dense d => d.domainSize

def isSparse : HybridBitSet → Bool
  | .sparse _ => true
  | .dense _ => false

def clear (h : HybridBitSet) : HybridBitSet := newEmpty h.domainSize

def contains : HybridBitSet → Nat → Outcome Bool
  | .sparse s, elem => s.contains elem
  | .dense d, elem => d.contains elem

/-- `iter`, run to its end. -/
def iter : HybridBitSet → Outcome (List Nat)
  | .sparse s => .ok s.elems
  | .dense d => d.iter

/-- `iter().all(..)`, which stops at the first element that is missing. -/
def containsAll (h : HybridBitSet) : List Nat → Outcome Bool
  | [] => .ok true
  | elem :: rest => do
    let c ← h.contains elem
    if c then h.containsAll rest else .ok false

def superset : HybridBitSet → HybridBitSet → Outcome Bool
  | .dense selfDense, .dense otherDense => selfDense.superset otherDense
  | self, other => do
    assertSameDomain self.domainSize other.domainSize
    let elems ← other.iter
    self.containsAll elems

def isEmpty : HybridBitSet → Bool
  | .sparse s => s.isEmpty
  | .dense d => d.isEmpty

def insert : HybridBitSet → Nat → Outcome (Bool × HybridBitSet)
  | .sparse s, elem =>
    if s.len < SPARSE_MAX then do
      let (changed, s) ← s.insert elem
      .ok (changed, .sparse s)
    else do
      let present ← s.contains elem
      if present then .ok (false, .sparse s)
      else do
        let d ← s.toDense
        let (changed, d) ← d.insert elem
        assert changed "assertion failed: changed"
        .ok (changed, .dense d)
  | .dense d, elem => do
    let (changed, d) ← d.insert elem
    .ok (changed, .dense d)

def insertAll : HybridBitSet → Outcome HybridBitSet
  | .sparse s => do
    let d ← newFilled s.domainSize
    .ok (.dense d)
  | .dense d => do
    let d ← d.insertAll
    .ok (.dense d)

def remove : HybridBitSet → Nat → Outcome (Bool × HybridBitSet)
  | .sparse s, elem => do
    let (changed, s) ← s.remove elem
    .ok (changed, .sparse s)
  | .dense d, elem => do
    let (changed, d) ← d.remove elem
    .ok (changed, .dense d)

/-- `union_into`. -/
instance : UnionIntoBitSet HybridBitSet where
  unionInto
    | .sparse s, other => UnionIntoBitSet.unionInto s other
    | .dense d, other => UnionIntoBitSet.unionInto d other

/-- `subtract_from`. -/
instance : SubtractFromBitSet HybridBitSet where
  subtractFrom
    | .sparse s, other => SubtractFromBitSet.subtractFrom s other
    | .dense d, other => SubtractFromBitSet.subtractFrom d other

def union : HybridBitSet → HybridBitSet → Outcome (Bool × HybridBitSet)
  | .sparse selfSparse, .sparse otherSparse => do
    assertSameDomain selfSparse.domainSize otherSparse.domainSize
    otherSparse.elems.foldlM (changeStep insert) (false, .sparse selfSparse)
  | .sparse selfSparse, .dense otherDense => do
    let (changed, newDense) ← otherDense.reverseUnionSparse selfSparse
    .ok (changed, .dense newDense)
  | .dense selfDense, other => do
    let (changed, selfDense) ← selfDense.union other
    .ok (changed, .dense selfDense)

def toDense : HybridBitSet → Outcome BitSet
  | .sparse s => s.toDense
  | .dense d => .ok d

end HybridBitSet

def BitSet.toHybrid (b : BitSet) : HybridBitSet := .dense b

open Words

/-! ## Sparse sets -/

structure SparseBitSet.Holds (s : SparseBitSet) (n : Nat) (S : Finset Nat) : Prop where
  domain : s.domainSize = n
  sorted : s.elems.Pairwise (· < ·)
  length : s.elems.length ≤ SPARSE_MAX
  mem : ∀ i, i ∈ s.elems ↔ i ∈ S
  lt : ∀ i ∈ S, i < n

namespace SparseBitSet

variable {s : SparseBitSet} {b : BitSet} {n i : Nat} {S T : Finset Nat}

theorem newEmpty_holds (n : Nat) : (newEmpty n).Holds n ∅ where
  domain := rfl
  sorted := .nil
  length := Nat.zero_le _
  mem _ := ⟨fun h => absurd h not_mem_nil, fun h => absurd h (Finset.notMem_empty _)⟩
  lt i h := absurd h (Finset.notMem_empty i)

section
variable (h : s.Holds n S)
include h

theorem Holds.assertInDomain (hi : i < n) : BitSet.assertInDomain s.domainSize i = .ok () := by
  simp [BitSet.assertInDomain, assert, h.domain, hi]

theorem Holds.contains (hi : i < n) : s.contains i = .ok (decide (i ∈ S)) := by
  rw [SparseBitSet.contains, h.assertInDomain hi, ok_bind, contains_eq_mem]
  exact congrArg Except.ok (decide_eq_decide.2 (h.mem i))

theorem Holds.card : s.elems.length = S.card := by
  have hS : s.elems.toFinset = S := by
    ext i
    rw [mem_toFinset, h.mem]
  rw [← hS, toFinset_card_of_nodup (h.sorted.imp ne_of_lt)]

theorem Holds.isEmpty : s.isEmpty = true ↔ S = ∅ := by
  rw [SparseBitSet.isEmpty, beq_iff_eq, h.card, Finset.card_eq_zero]

end

theorem insertIdx_length (l l' : List Nat) (i : Nat) :
    (l ++ l').insertIdx l.length i = l ++ i :: l' := by
  induction l with
  | nil => rfl
  | cons e l ih => exact congrArg (e :: ·) ih

theorem insertElem_spec {elems : List Nat} (hsorted : elems.Pairwise (· < ·)) (elem : Nat) :
    ∃ changed elems', insertElem elems elem = .ok (changed, elems') ∧
      elems'.Pairwise (· < ·) ∧ (∀ j, j ∈ elems' ↔ j = elem ∨ j ∈ elems) ∧
      (changed = true ↔ elem ∉ elems) ∧ elems'.length ≤ elems.length + 1 := by
  rw [insertElem]
  cases hfind : elems.findIdx? fun e => decide (elem ≤ e) with
  | none =>
    rw [findIdx?_eq_none_iff] at hfind
    have hlt : ∀ e ∈ elems, e < elem := fun e he => by simpa using hfind e he
    refine ⟨true, _, rfl, ?_, fun j => ?_, ?_, by simp⟩
    · rw [pairwise_append]
      refine ⟨hsorted, pairwise_singleton _ _, fun e he e' he' => ?_⟩
      rw [mem_singleton.1 he']
      exact hlt e he
    · rw [mem_append, mem_singleton, or_comm]
    · exact iff_of_true rfl fun hmem => lt_irrefl _ (hlt _ hmem)
  | some i =>
    obtain ⟨before, e, after, rfl, rfl, hle, hlt⟩ := findIdx?_split hfind
    have hle : elem ≤ e := of_decide_eq_true hle
    have hlt : ∀ a ∈ before, a < elem := fun a ha =>
      Nat.lt_of_not_le (of_decide_eq_false (hlt a ha))
    dsimp only
    rw [getElem?_append_right le_rfl, Nat.sub_self, getElem?_cons_zero, expect_some, ok_bind]
    rw [pairwise_append, pairwise_cons] at hsorted
    obtain ⟨hbefore, ⟨hafter, hsorted⟩, -⟩ := hsorted
    split
    · next heq =>
      refine ⟨false, _, rfl, ?_, fun j => ?_, ?_, by simp⟩
      · rw [pairwise_append, pairwise_cons]
        refine ⟨hbefore, ⟨hafter, hsorted⟩, fun a ha c hc => ?_⟩
        rcases mem_cons.1 hc with rfl | hc
        · exact heq ▸ hlt a ha
        · exact lt_trans (heq ▸ hlt a ha) (hafter c hc)
      · rw [or_iff_right_of_imp]
        rintro rfl
        simp [heq]
      · simp [heq]
    · next hne =>
      have hlt' : elem < e := Nat.lt_of_le_of_ne hle (Ne.symm hne)
      have hgt : ∀ c ∈ e :: after, elem < c := by
        intro c hc
        rcases mem_cons.1 hc with rfl | hc
        exacts [hlt', lt_trans hlt' (hafter c hc)]
      rw [insertIdx_length]
      have hlength : (before ++ elem :: e :: after).length ≤ (before ++ e :: after).length + 1 := by
        simp only [length_append, length_cons]
        omega
      refine ⟨true, _, rfl, ?_, fun j => ?_, ?_, hlength⟩
      · rw [pairwise_append, pairwise_cons, pairwise_cons]
        refine ⟨hbefore, ⟨hgt, hafter, hsorted⟩, fun a ha c hc => ?_⟩
        rcases mem_cons.1 hc with rfl | hc
        exacts [hlt a ha, lt_trans (hlt a ha) (hgt c hc)]
      · simp only [mem_append, mem_cons]
        tauto
      · refine iff_of_true rfl fun hmem => ?_
        rcases mem_append.1 hmem with hmem | hmem
        exacts [lt_irrefl _ (hlt _ hmem), lt_irrefl _ (hgt _ hmem)]

section
variable (h : s.Holds n S)
include h

theorem Holds.insert (hi : i < n) (hlen : s.len < SPARSE_MAX) :
    Changes (Holds · n) (s.insert i) S (Insert.insert i S) := by
  obtain ⟨changed, elems, helems, hsorted, hmem, hchanged, hle⟩ := insertElem_spec h.sorted i
  have hmax : elems.length ≤ SPARSE_MAX := le_trans hle hlen
  refine ⟨changed, { s with elems }, ?_, ⟨h.domain, hsorted, hmax, fun j => ?_, ?_⟩, ?_⟩
  · rw [SparseBitSet.insert, h.assertInDomain hi, ok_bind, helems, ok_bind]
    simp [assert, hmax]
  · rw [hmem, Finset.mem_insert, h.mem]
  · intro j hj
    rcases Finset.mem_insert.1 hj with rfl | hj
    exacts [hi, h.lt j hj]
  · rw [hchanged, h.mem, Ne, Finset.insert_eq_self]

theorem Holds.remove (hi : i < n) : Changes (Holds · n) (s.remove i) S (S.erase i) := by
  have hlt : ∀ j ∈ S.erase i, j < n := fun j hj => h.lt j (Finset.mem_of_mem_erase hj)
  rw [SparseBitSet.remove, h.assertInDomain hi, ok_bind]
  cases hfind : s.elems.findIdx? fun e => decide (e = i) with
  | none =>
    rw [findIdx?_eq_none_iff] at hfind
    have hnot : i ∉ S := fun hmem => by simpa using hfind i ((h.mem i).2 hmem)
    refine ⟨false, s, rfl, ?_, ?_⟩
    · rwa [Finset.erase_eq_of_notMem hnot]
    · simp [Finset.erase_eq_of_notMem hnot]
  | some k =>
    obtain ⟨hk, heq, -⟩ := findIdx?_eq_some_iff_getElem.1 hfind
    have heq : s.elems[k] = i := by simpa using heq
    have hmemS : i ∈ S := (h.mem i).1 (heq ▸ getElem_mem hk)
    refine ⟨true, _, rfl, ⟨h.domain, h.sorted.sublist (eraseIdx_sublist _ _), ?_, fun j => ?_,
      hlt⟩, ?_⟩
    · exact le_trans (length_eraseIdx_le _ _) h.length
    · rw [Finset.mem_erase, ← h.mem, ← heq]
      have hnodup : s.elems.Nodup := h.sorted.imp ne_of_lt
      rw [← hnodup.erase_getElem k hk, hnodup.mem_erase_iff]
    · exact iff_of_true rfl fun heq => absurd (Finset.erase_eq_self.1 heq) (not_not.2 hmemS)

theorem Holds.toFinset : s.elems.toFinset = S := by
  ext i
  rw [mem_toFinset, h.mem]

theorem Holds.toDense : ∃ b, s.toDense = .ok b ∧ b.Holds n S := by
  rw [← h.toFinset]
  refine @foldlM_start _ _ densify (fun pre b => b.Holds n pre.toFinset) _ _
    (h.domain ▸ BitSet.newEmpty_holds n) fun pre i post b hl hb => ?_
  have hi : i < n := h.lt i ((h.mem i).1 (by rw [hl]; simp))
  obtain ⟨changed, b', hrun, hb', -⟩ := hb.insert hi
  refine ⟨b', ?_, ?_⟩
  · rw [densify, hrun]
    rfl
  · rwa [toFinset_append, toFinset_cons, toFinset_nil, Finset.union_comm]

end

end SparseBitSet

variable {l : List Nat} {σ : Type} {P : σ → Finset Nat → Prop} {x : σ}
  {f : σ → Nat → Outcome (Bool × σ)}

/-- A loop that collects whether its iterations change a set, where a set that is left is not come
back to. -/
theorem changeStep_changes (U : List Nat → Finset Nat)
    (hx : P x (U [])) (hleft : ∀ pre i, U (pre ++ [i]) = U [] → U pre = U [])
    (hstep : ∀ pre i x, i ∈ l → P x (U pre) → Changes P (f x i) (U pre) (U (pre ++ [i]))) :
    Changes P (l.foldlM (changeStep f) (false, x)) (U []) (U l) := by
  obtain ⟨⟨changed, y⟩, hrun, hy, hchanged⟩ := @foldlM_start _ _ (changeStep f)
    (fun pre st => P st.2 (U pre) ∧ (st.1 = true ↔ U pre ≠ U [])) l (false, x) ⟨hx, by simp⟩
    fun pre i post ⟨changed, y⟩ hl ⟨hy, hchanged⟩ => by
      obtain ⟨c, z, hz, hPz, hc⟩ := hstep pre i y (by rw [hl]; simp) hy
      refine ⟨(changed || c, z), ?_, hPz, ?_⟩
      · rw [changeStep, hz]
        rfl
      · rw [Bool.or_eq_true, hchanged, hc]
        constructor
        · rintro (hne | hne) heq
          · exact hne (hleft pre i heq)
          · exact hne (heq.trans (hleft pre i heq).symm)
        · intro hne
          by_cases heq : U pre = U []
          · exact .inr fun h => hne (h.trans heq)
          · exact .inl heq
  exact ⟨changed, y, hrun, hy, hchanged⟩

variable {S : Finset Nat}

theorem insertEach_changes (hx : P x S)
    (hstep : ∀ i x T, i ∈ l → P x T → Changes P (f x i) T (insert i T)) :
    Changes P (l.foldlM (changeStep f) (false, x)) S (S ∪ l.toFinset) := by
  have hloop := changeStep_changes (P := P) (f := f) (x := x) (l := l)
    (fun pre => S ∪ pre.toFinset) (by simpa using hx) (fun pre i heq => ?_) fun pre i x hi hx => ?_
  · simpa using hloop
  · refine antisymm ?_ ?_
    · simp only [toFinset_nil, Finset.union_empty] at heq ⊢
      calc S ∪ pre.toFinset ⊆ S ∪ (pre ++ [i]).toFinset :=
          Finset.union_subset_union_right (by simp)
        _ = S := heq
    · simp
  · have hset : S ∪ (pre ++ [i]).toFinset = insert i (S ∪ pre.toFinset) := by
      ext j
      simp only [toFinset_append, Finset.mem_union, Finset.mem_insert, mem_toFinset, mem_singleton]
      tauto
    rw [hset]
    exact hstep i x _ hi hx

theorem eraseEach_changes (hx : P x S)
    (hstep : ∀ i x T, i ∈ l → P x T → Changes P (f x i) T (T.erase i)) :
    Changes P (l.foldlM (changeStep f) (false, x)) S (S \ l.toFinset) := by
  have hloop := changeStep_changes (P := P) (f := f) (x := x) (l := l)
    (fun pre => S \ pre.toFinset) (by simpa using hx) (fun pre i heq => ?_) fun pre i x hi hx => ?_
  · simpa using hloop
  · refine antisymm ?_ ?_
    · simp
    · simp only [toFinset_nil, Finset.sdiff_empty] at heq ⊢
      calc S = S \ (pre ++ [i]).toFinset := heq.symm
        _ ⊆ S \ pre.toFinset := Finset.sdiff_subset_sdiff (Finset.Subset.refl S) (by simp)
  · have hset : S \ (pre ++ [i]).toFinset = (S \ pre.toFinset).erase i := by
      ext j
      simp only [toFinset_append, Finset.mem_sdiff, Finset.mem_erase, Finset.mem_union,
        mem_toFinset, mem_singleton]
      tauto
    rw [hset]
    exact hstep i x _ hi hx

namespace SparseBitSet

variable {s : SparseBitSet} {b : BitSet} {n i : Nat} {S T : Finset Nat}

section
variable (h : s.Holds n S)
include h

theorem Holds.lt_of_mem (hi : i ∈ s.elems) : i < n := h.lt i ((h.mem i).1 hi)

theorem Holds.changeEach (hb : b.Holds n T) (f : BitSet → Nat → Outcome (Bool × BitSet)) :
    s.changeEach f b = s.elems.foldlM (changeStep f) (false, b) := by
  simp [SparseBitSet.changeEach, assertSameDomain, assert, h.domain, hb.domain]

theorem Holds.unionInto (hb : b.Holds n T) : Changes (BitSet.Holds · n) (b.union s) T (T ∪ S) := by
  have hrun : b.union s = s.elems.foldlM (changeStep BitSet.insert) (false, b) := h.changeEach hb _
  rw [hrun, ← h.toFinset]
  exact insertEach_changes hb fun i x U hi hx => hx.insert (h.lt_of_mem hi)

theorem Holds.subtractFrom (hb : b.Holds n T) :
    Changes (BitSet.Holds · n) (b.subtract s) T (T \ S) := by
  have hrun : b.subtract s = s.elems.foldlM (changeStep BitSet.remove) (false, b) :=
    h.changeEach hb _
  rw [hrun, ← h.toFinset]
  exact eraseEach_changes hb fun i x U hi hx => hx.remove (h.lt_of_mem hi)

end

end SparseBitSet

/-! ## The union of a copy of a dense set with a sparse one -/

namespace ReverseUnion

/-- The loop after the elements `pre`: the words before the current one are merged, and the flag
tells of the elements in them that are not among `pre`. -/
structure Merged (old : List Word) (pre : List Nat) (st : ReverseUnion) : Prop where
  length : st.words.length = old.length
  current : st.currentIndex < old.length
  started : st.currentIndex = 0 ∨ ∃ e ∈ pre, e / 64 = st.currentIndex
  le : ∀ e ∈ pre, e / 64 ≤ st.currentIndex
  words : ∀ i, bit st.words i = true ↔
    bit old i = true ∨ (i / 64 < st.currentIndex ∧ i ∈ pre)
  mask : ∀ j < 64, st.newBitMask.getLsbD j = true ↔ 64 * st.currentIndex + j ∈ pre
  flag : st.notAlready = true ↔ ∃ i, i / 64 < st.currentIndex ∧ bit old i = true ∧ i ∉ pre

variable {old : List Word} {pre : List Nat} {st : ReverseUnion}

theorem merged_start (h : 0 < old.length) : Merged old [] ⟨old, false, 0, 0#64⟩ where
  length := rfl
  current := h
  started := .inl rfl
  le _ h := absurd h not_mem_nil
  words i := by simp
  mask j _ := by simp
  flag := by simp

theorem merged_xor_ne_zero (w m : Word) :
    ((w ||| m) ^^^ m != 0#64) = true ↔ ∃ j < 64, w.getLsbD j = true ∧ m.getLsbD j = false := by
  rw [bne_iff_ne, Ne, eq_zero_iff]
  push Not
  refine exists_congr fun j => and_congr_right fun _ => ?_
  rw [BitVec.getLsbD_xor, BitVec.getLsbD_or]
  cases w.getLsbD j <;> cases m.getLsbD j <;> simp

theorem Merged.flush (h : Merged old pre st) {stop : Nat} (hlt : st.currentIndex < stop)
    (hstop : stop ≤ old.length) : ∃ st', st.flush stop = .ok st' ∧ st'.words.length = old.length ∧
      (∀ i, bit st'.words i = true ↔ bit old i = true ∨ i ∈ pre) ∧
      (st'.notAlready = true ↔ ∃ i, i / 64 < stop ∧ bit old i = true ∧ i ∉ pre) := by
  have hcur : st.currentIndex < st.words.length := h.length ▸ h.current
  obtain ⟨w, hw⟩ : ∃ w, st.words[st.currentIndex]? = some w := ⟨_, getElem?_eq_getElem hcur⟩
  have hinPre : ∀ i, i / 64 = st.currentIndex →
      (st.newBitMask.getLsbD (i % 64) = true ↔ i ∈ pre) := by
    intro i hi
    rw [h.mask _ (mod_lt i), ← hi, Nat.div_add_mod]
  have hold : ∀ i, i / 64 = st.currentIndex → (w.getLsbD (i % 64) = true ↔ bit old i = true) := by
    intro i hi
    rw [← bit_of_lt (by rw [hi]; exact hw), h.words, hi]
    exact or_iff_left fun hand => lt_irrefl _ hand.1
  have hbits : ∀ i, bit (st.words.set st.currentIndex (w ||| st.newBitMask)) i = true ↔
      bit old i = true ∨ i ∈ pre := by
    intro i
    rw [bit_set hcur]
    split
    · next hi => rw [BitVec.getLsbD_or, Bool.or_eq_true, hold i hi, hinPre i hi]
    · next hi =>
      rw [h.words]
      refine or_congr_right (and_iff_right_of_imp fun hmem => ?_)
      exact Nat.lt_of_le_of_ne (h.le i hmem) hi
  have hmerged : ((w ||| st.newBitMask) ^^^ st.newBitMask != 0#64) = true ↔
      ∃ i, i / 64 = st.currentIndex ∧ bit old i = true ∧ i ∉ pre := by
    rw [merged_xor_ne_zero]
    constructor
    · rintro ⟨j, hj, hset, hclear⟩
      have hi : (64 * st.currentIndex + j) / 64 = st.currentIndex := by omega
      have hm : (64 * st.currentIndex + j) % 64 = j := by omega
      refine ⟨64 * st.currentIndex + j, hi, (hold _ hi).1 (by rwa [hm]), fun hmem => ?_⟩
      rw [← h.mask j hj, hclear] at hmem
      cases hmem
    · rintro ⟨i, hi, hset, hmem⟩
      refine ⟨i % 64, mod_lt i, (hold i hi).2 hset, ?_⟩
      rw [← hinPre i hi] at hmem
      exact Bool.eq_false_iff.2 hmem
  have hrun : st.flush stop = .ok { st with
      words := st.words.set st.currentIndex (w ||| st.newBitMask)
      notAlready := st.notAlready || (w ||| st.newBitMask) ^^^ st.newBitMask != 0#64 ||
        (((st.words.set st.currentIndex (w ||| st.newBitMask)).take stop).drop
          (st.currentIndex + 1)).any fun x => x != 0#64 } := by
    have hslice : st.currentIndex + 1 ≤ stop ∧ stop ≤ st.words.length := ⟨hlt, h.length ▸ hstop⟩
    rw [ReverseUnion.flush, hw]
    simp [sliceWords, assert, hslice]
  refine ⟨_, hrun, length_set.trans h.length, hbits, ?_⟩
  · rw [Bool.or_eq_true, Bool.or_eq_true, h.flag, hmerged, any_range_iff]
    -- The words before the current one, the current one, and the words behind it.
    constructor
    · rintro ((⟨i, hi, hmem⟩ | ⟨i, hi, hmem⟩) | ⟨i, hi, histop, hset⟩)
      · exact ⟨i, lt_trans hi hlt, hmem⟩
      · exact ⟨i, hi ▸ hlt, hmem⟩
      · have hnot : i ∉ pre := fun hmem => Nat.not_le_of_lt hi (h.le i hmem)
        exact ⟨i, histop, ((hbits i).1 hset).resolve_right hnot, hnot⟩
    · rintro ⟨i, hi, hset, hnot⟩
      rcases lt_trichotomy (i / 64) st.currentIndex with hlt' | heq | hgt
      · exact .inl (.inl ⟨i, hlt', hset, hnot⟩)
      · exact .inl (.inr ⟨i, heq, hset, hnot⟩)
      · exact .inr ⟨i, hgt, hi, (hbits i).2 (.inl hset)⟩

theorem Merged.step (h : Merged old pre st) {elem : Nat} (hpre : ∀ e ∈ pre, e < elem)
    (helem : elem / 64 < old.length) :
    ∃ st', st.step elem = .ok st' ∧ Merged old (pre ++ [elem]) st' := by
  have hle : st.currentIndex ≤ elem / 64 := by
    rcases h.started with hzero | ⟨e, he, heq⟩
    · exact hzero ▸ Nat.zero_le _
    · exact heq ▸ Nat.div_le_div_right (le_of_lt (hpre e he))
  have hmem : elem ∈ pre ++ [elem] := by simp
  have hle' : ∀ e ∈ pre ++ [elem], e / 64 ≤ elem / 64 := by
    intro e he
    rcases mem_append.1 he with he | he
    · exact Nat.div_le_div_right (le_of_lt (hpre e he))
    · rw [mem_singleton.1 he]
  have helem' : ∀ i, i / 64 < elem / 64 → (i ∈ pre ++ [elem] ↔ i ∈ pre) := by
    intro i hi
    rw [mem_append, mem_singleton]
    refine or_iff_left fun heq => ?_
    rw [heq] at hi
    exact lt_irrefl _ hi
  rw [ReverseUnion.step, wordIndexAndMask_eq]
  dsimp only
  rcases lt_or_ge st.currentIndex (elem / 64) with hlt | hge
  · rw [if_pos hlt]
    obtain ⟨st', hrun, hlen, hbits, hflag⟩ := h.flush hlt (le_of_lt helem)
    refine ⟨⟨st'.words, st'.notAlready, elem / 64, 0#64 ||| 1#64 <<< (elem % 64)⟩, ?_, hlen, helem,
      .inr ⟨elem, hmem, rfl⟩, hle', fun i => ?_, fun j hj => ?_, ?_⟩
    · rw [hrun]
      rfl
    · rw [hbits]
      refine or_congr_right ⟨fun hi => ?_, fun hi => (helem' i hi.1).1 hi.2⟩
      have hi' := lt_of_le_of_lt (h.le i hi) hlt
      exact ⟨hi', (helem' i hi').2 hi⟩
    · rw [BitVec.getLsbD_or, BitVec.getLsbD_zero, Bool.false_or, getLsbD_mask]
      have hnot : 64 * (elem / 64) + j ∉ pre := by
        intro hi
        have := h.le _ hi
        omega
      rw [mem_append, or_iff_right hnot, mem_singleton]
      simp only [Bool.and_eq_true, decide_eq_true_iff]
      omega
    · rw [hflag]
      refine exists_congr fun i => and_congr_right fun hi => and_congr_right fun _ => ?_
      rw [helem' i hi]
  · rw [if_neg (Nat.not_lt_of_le hge)]
    have hcur : st.currentIndex = elem / 64 := le_antisymm hle hge
    refine ⟨_, rfl, h.length, h.current, .inr ⟨elem, hmem, hcur.symm⟩, hcur ▸ hle', fun i => ?_,
      fun j hj => ?_, ?_⟩
    · rw [h.words]
      refine or_congr_right (and_congr_right fun hi => ?_)
      rw [helem' i (hcur ▸ hi)]
    · rw [BitVec.getLsbD_or, Bool.or_eq_true, h.mask j hj, getLsbD_mask, mem_append,
        mem_singleton, hcur]
      refine or_congr_right ?_
      simp only [Bool.and_eq_true, decide_eq_true_iff]
      omega
    · rw [h.flag]
      refine exists_congr fun i => and_congr_right fun hi => and_congr_right fun _ => ?_
      rw [helem' i (hcur ▸ hi)]

end ReverseUnion

/-- The union of a copy of a dense set with a sparse one, and whether the dense set had an element
that the sparse one did not have. -/
theorem BitSet.Holds.reverseUnionSparse {b : BitSet} {s : SparseBitSet} {n : Nat}
    {S T : Finset Nat} (hb : b.Holds n T) (hs : s.Holds n S) (hn : 0 < n) :
    Changes (BitSet.Holds · n) (b.reverseUnionSparse s) S (S ∪ T) := by
  have hpos : 0 < b.words.length := hb.length ▸ lt_numWords hn
  -- There are no excess bits to clear.
  obtain ⟨b', hclear, hdomain, hlen, hbit⟩ := clearExcessBits_spec (hb.domain ▸ hb.length)
  obtain rfl : b' = b := by
    refine Holds.unique (S := T) ⟨hdomain.trans hb.domain, hlen.trans hb.length, fun i => ?_,
      hb.lt⟩ hb
    rw [hbit, Bool.and_eq_true, hb.bit, decide_eq_true_iff, hb.domain]
    exact and_iff_right_of_imp (hb.lt i)
  obtain ⟨st, hloop, hst⟩ := @foldlM_start _ _ ReverseUnion.step
    (fun pre st => ReverseUnion.Merged b'.words pre st) s.elems ⟨b'.words, false, 0, 0#64⟩
    (ReverseUnion.merged_start hpos) fun pre i post st hl hst => by
      have hsorted := hs.sorted
      rw [hl, pairwise_append] at hsorted
      refine hst.step (fun e he => hsorted.2.2 e he i mem_cons_self) ?_
      rw [hb.length]
      exact lt_numWords (hs.lt_of_mem (by rw [hl]; simp))
  obtain ⟨st', hflush, hlen', hbits, hflag⟩ := hst.flush (hst.length ▸ hst.current)
    (le_of_eq hst.length)
  refine ⟨st'.notAlready, ⟨b'.domainSize, st'.words⟩, ?_, ⟨hb.domain, hlen'.trans hb.length,
    fun i => ?_, fun i hi => ?_⟩, ?_⟩
  · rw [BitSet.reverseUnionSparse, hclear]
    simp only [hs.domain, hb.domain, assert, decide_true, if_true, ok_bind, hloop, hflush]
  · rw [hbits, hb.bit, hs.mem, Finset.mem_union, or_comm]
  · rcases Finset.mem_union.1 hi with hi | hi
    exacts [hs.lt i hi, hb.lt i hi]
  · rw [hflag, Ne, Finset.union_eq_left, Finset.not_subset]
    refine exists_congr fun i => ?_
    rw [hb.bit, hs.mem]
    refine and_iff_right_of_imp fun hi => ?_
    rw [hst.length]
    exact div_lt_of_bit ((hb.bit i).2 hi.1)

end Tortis.Index
