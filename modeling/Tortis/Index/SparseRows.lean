import Tortis.Index.SetRuns

/-!
# Sparse bit matrices and empty domains

`SparseBitMatrix` of `librustc_index/bit_set.rs`, whose rows are hybrid sets, and runs of operations
on hybrid sets and such matrices over one domain, which may be empty. An element outside of the
domain is rejected by an assertion. Apart from that the operations return, but for one case: where a
dense set of an empty domain is merged into a sparse one, `reverse_union_sparse` looks at the first
word of a set that has no words (`run_inBounds_iff`).
-/

namespace Tortis.Index

open Outcome Option Function HybridBitSet BitSet
open List hiding set

structure SparseBitMatrix where
  numColumns : Nat
  rows : List (Option HybridBitSet)

namespace SparseBitMatrix

def new (numColumns : Nat) : SparseBitMatrix := ⟨numColumns, []⟩

section
variable (m : SparseBitMatrix)

def row (r : Nat) : Option HybridBitSet := m.rows[r]?.join

/-- `ensure_row`: the row, and the matrix that has it. -/
def ensureRow (r : Nat) : Outcome (HybridBitSet × SparseBitMatrix) := do
  let rows := m.rows ++ replicate (r + 1 - m.rows.length) none
  let slot ← expect "index out of bounds" rows[r]?
  let set := slot.getD (.newEmpty m.numColumns)
  .ok (set, { m with rows := rows.set r (some set) })

/-- The matrix after an operation on a row. -/
def setRow (r : Nat) (set : HybridBitSet) : SparseBitMatrix :=
  { m with rows := m.rows.set r (some set) }

def insert (m : SparseBitMatrix) (r column : Nat) : Outcome (Bool × SparseBitMatrix) := do
  let (set, m) ← m.ensureRow r
  let (changed, set) ← set.insert column
  .ok (changed, m.setRow r set)

def contains (m : SparseBitMatrix) (r column : Nat) : Outcome Bool :=
  match m.row r with
  | some set => set.contains column
  | none => .ok false

def unionRows (read write : Nat) : Outcome (Bool × SparseBitMatrix) :=
  if read == write || (m.row read).isNone then .ok (false, m)
  else do
    let (_, m) ← m.ensureRow write
    match m.row read, m.row write with
    | some readRow, some writeRow => do
      let (changed, writeRow) ← writeRow.union readRow
      .ok (changed, m.setRow write writeRow)
    | _, _ => .error (.panic "internal error: entered unreachable code")

def unionIntoRow (into : Nat) (source : HybridBitSet) :
    Outcome (Bool × SparseBitMatrix) := do
  let (set, m) ← m.ensureRow into
  let (changed, set) ← set.union source
  .ok (changed, m.setRow into set)

def insertAllIntoRow (r : Nat) : Outcome SparseBitMatrix := do
  let (set, m) ← m.ensureRow r
  let set ← set.insertAll
  .ok (m.setRow r set)

end

end SparseBitMatrix

/-! ## Runs -/

/-- An operation on the hybrid sets and matrices of a domain, which have numbers. -/
inductive RowOp where
  | insert (i elem : Nat)
  | remove (i elem : Nat)
  | insertAll (i : Nat)
  | clear (i : Nat)
  | union (i j : Nat)
  | contains (i elem : Nat)
  | superset (i j : Nat)
  /-- `to_dense` and `to_hybrid`. -/
  | densify (i : Nat)
  /-- A clone of a row. -/
  | cloneRow (k r i : Nat)
  | matrixInsert (k r column : Nat)
  | matrixContains (k r column : Nat)
  | unionRows (k read write : Nat)
  | unionIntoRow (k into i : Nat)
  | insertAllIntoRow (k r : Nat)

/-- Hybrid sets and matrices. -/
structure Rows where
  set : Nat → HybridBitSet
  matrix : Nat → SparseBitMatrix

namespace Rows

/-- Before the first operation. -/
def new (domainSize : Nat) : Rows := ⟨fun _ => .newEmpty domainSize, fun _ => .new domainSize⟩

def putSet (s : Rows) (i : Nat) (r : Outcome HybridBitSet) : Outcome Rows := do
  let x ← r
  .ok { s with set := update s.set i x }

def putMatrix (s : Rows) (k : Nat) (r : Outcome SparseBitMatrix) : Outcome Rows := do
  let m ← r
  .ok { s with matrix := update s.matrix k m }

/-- An operation, whose answer is dropped. -/
def step (s : Rows) : RowOp → Outcome Rows
  | .insert i elem => s.putSet i (Prod.snd <$> (s.set i).insert elem)
  | .remove i elem => s.putSet i (Prod.snd <$> (s.set i).remove elem)
  | .insertAll i => s.putSet i (s.set i).insertAll
  | .clear i => s.putSet i (.ok (s.set i).clear)
  | .union i j => s.putSet i (Prod.snd <$> (s.set i).union (s.set j))
  | .contains i elem => (fun _ => s) <$> (s.set i).contains elem
  | .superset i j => (fun _ => s) <$> (s.set i).superset (s.set j)
  | .densify i => s.putSet i (toHybrid <$> (s.set i).toDense)
  | .cloneRow k r i => s.putSet i (.ok (((s.matrix k).row r).getD (s.set i)))
  | .matrixInsert k r column => s.putMatrix k (Prod.snd <$> (s.matrix k).insert r column)
  | .matrixContains k r column => (fun _ => s) <$> (s.matrix k).contains r column
  | .unionRows k read write => s.putMatrix k (Prod.snd <$> (s.matrix k).unionRows read write)
  | .unionIntoRow k into i => s.putMatrix k (Prod.snd <$> (s.matrix k).unionIntoRow into (s.set i))
  | .insertAllIntoRow k r => s.putMatrix k ((s.matrix k).insertAllIntoRow r)

def run (domainSize : Nat) (ops : List RowOp) : Outcome Rows := ops.foldlM step (new domainSize)

def mergesDense (s : Rows) : RowOp → Bool
  | .union i j => (s.set i).isSparse && !(s.set j).isSparse
  | .unionRows k read write => read != write &&
    ((s.matrix k).row read).any (fun x => !x.isSparse) &&
      ((s.matrix k).row write).all isSparse
  | .unionIntoRow k into i =>
    ((s.matrix k).row into).all isSparse && !(s.set i).isSparse
  | _ => false

end Rows

/-- The run does not look at a word that a set does not have. -/
def InBounds {α : Type} (r : Outcome α) : Prop :=
  r ≠ .error (.panic "index out of bounds") ∧ r ≠ .error (.panic "slice index out of range")

/-- The run returns, or rejects an element that is not in the domain. -/
inductive Ends {α : Type} (P : α → Prop) : Outcome α → Prop where
  | ok {a : α} : P a → Ends P (.ok a)
  | rejected : Ends P (.error (.panic "assertion failed: elem.index() < self.domain_size"))

section
variable {α β : Type} {P : α → Prop} {Q : β → Prop} {r : Outcome α}

theorem Ends.bind {f : α → Outcome β} (h : Ends P r) (hf : ∀ a, P a → Ends Q (f a)) :
    Ends Q (r >>= f) := by
  cases h with
  | ok ha => exact hf _ ha
  | rejected => exact .rejected

theorem Ends.map {f : α → β} (h : Ends P r) (hf : ∀ a, P a → Q (f a)) : Ends Q (f <$> r) := by
  cases h with
  | ok ha => exact .ok (hf _ ha)
  | rejected => exact .rejected

end

/-- The run looks at a word that is not there where the condition holds, and ends otherwise. -/
structure EndsUnless {α : Type} (c : Prop) (P : α → Prop) (r : Outcome α) : Prop where
  fails : c → r = .error (.panic "index out of bounds")
  ends : ¬ c → Ends P r

section
variable {α β : Type} {P : α → Prop} {Q : β → Prop} {r : Outcome α} {c c' : Prop}

theorem EndsUnless.bind {f : α → Outcome β} (h : EndsUnless c P r) (hf : ∀ a, P a → Ends Q (f a)) :
    EndsUnless c Q (r >>= f) where
  fails hc := by rw [h.fails hc, error_bind]
  ends hc := (h.ends hc).bind hf

theorem EndsUnless.map {f : α → β} (h : EndsUnless c P r) (hf : ∀ a, P a → Q (f a)) :
    EndsUnless c Q (f <$> r) where
  fails hc := by
    rw [h.fails hc]
    rfl
  ends hc := (h.ends hc).map hf

theorem EndsUnless.congr (h : EndsUnless c P r) (hc : c' ↔ c) : EndsUnless c' P r :=
  ⟨fun h' => h.fails (hc.1 h'), fun h' => h.ends fun h'' => h' (hc.2 h'')⟩

theorem Ends.unless (h : Ends P r) (hc : ¬ c) : EndsUnless c P r :=
  ⟨fun h' => absurd h' hc, fun _ => h⟩

end

theorem assertInDomain_of_ge {n i : Nat} (h : n ≤ i) : assertInDomain n i =
    .error (.panic "assertion failed: elem.index() < self.domain_size") := by
  rw [assertInDomain, assert, if_neg (by simpa using h)]

/-! ## Hybrid sets -/

/-- The set stands for a set of indices of the domain. -/
def HybridBitSet.Fits (x : HybridBitSet) (n : Nat) : Prop := ∃ S, x.Holds n S

namespace HybridBitSet

variable {x y : HybridBitSet} {n i : Nat}

theorem ends_of_changes {r : Outcome (Bool × HybridBitSet)} {S T : Finset Nat}
    (h : Changes (Holds · n) r S T) : Ends (fun p => p.2.Fits n) r := by
  obtain ⟨changed, x, rfl, hx, -⟩ := h
  exact .ok ⟨T, hx⟩

section
variable (h : x.Fits n)
include h

theorem rejects (hi : n ≤ i) :
    x.insert i = .error (.panic "assertion failed: elem.index() < self.domain_size") ∧
    x.remove i = .error (.panic "assertion failed: elem.index() < self.domain_size") ∧
    x.contains i = .error (.panic "assertion failed: elem.index() < self.domain_size") := by
  obtain ⟨S, h⟩ := h
  have hassert := assertInDomain_of_ge hi
  rw [← h.domainSize] at hassert
  cases x with
  | sparse s =>
    have hs : assertInDomain s.domainSize i = _ := hassert
    refine ⟨?_, ?_, ?_⟩
    · rw [HybridBitSet.insert, SparseBitSet.insert, SparseBitSet.contains, hs]
      split <;> rfl
    · rw [remove, SparseBitSet.remove, hs]
      rfl
    · rw [HybridBitSet.contains, SparseBitSet.contains, hs]
      rfl
  | dense d =>
    have hd : assertInDomain d.domainSize i = _ := hassert
    refine ⟨?_, ?_, ?_⟩
    · rw [HybridBitSet.insert, BitSet.insert, changeWord, hd]
      rfl
    · rw [remove, BitSet.remove, BitSet.changeWord, hd]
      rfl
    · rw [HybridBitSet.contains, BitSet.contains, hd]
      rfl

theorem Fits.insert (i : Nat) : Ends (fun p => p.2.Fits n) (x.insert i) := by
  rcases lt_or_ge i n with hi | hi
  · obtain ⟨S, h⟩ := h
    exact ends_of_changes (h.insert hi)
  · rw [(rejects h hi).1]
    exact .rejected

theorem Fits.remove (i : Nat) : Ends (fun p => p.2.Fits n) (x.remove i) := by
  rcases lt_or_ge i n with hi | hi
  · obtain ⟨S, h⟩ := h
    exact ends_of_changes (h.remove hi)
  · rw [(rejects h hi).2.1]
    exact .rejected

theorem Fits.contains (i : Nat) : Ends (fun _ => True) (x.contains i) := by
  rcases lt_or_ge i n with hi | hi
  · obtain ⟨S, h⟩ := h
    rw [h.contains hi]
    exact .ok trivial
  · rw [(rejects h hi).2.2]
    exact .rejected

theorem Fits.insertAll : Ends (Fits · n) x.insertAll := by
  obtain ⟨S, h⟩ := h
  obtain ⟨x', hx', h'⟩ := h.insertAll
  rw [hx']
  exact .ok ⟨_, h'⟩

end

theorem Fits.union (hx : x.Fits n) (hy : y.Fits n) :
    EndsUnless (n = 0 ∧ (x.isSparse && !y.isSparse) = true) (fun p => p.2.Fits n) (x.union y) := by
  obtain ⟨S, hx⟩ := hx
  obtain ⟨T, hy⟩ := hy
  rw [Bool.and_eq_true, Bool.not_eq_true']
  constructor
  · rintro ⟨rfl, hsparse, hdense⟩
    cases x with
    | dense d => cases hsparse
    | sparse s =>
      cases y with
      | sparse t => cases hdense
      | dense d =>
        have hs : s.Holds 0 S := hx
        have hd : d.Holds 0 T := hy
        have hwords : d.words = [] := length_eq_zero_iff.1 hd.length
        have helems : s.elems = [] :=
          eq_nil_iff_forall_not_mem.2 fun i hi => Nat.not_lt_zero i (hs.lt_of_mem hi)
        rw [HybridBitSet.union, reverseUnionSparse, clearExcessBits, hs.domain, hd.domain, helems]
        simp [assert, ReverseUnion.flush, hwords, expect]
  · intro hne
    refine ends_of_changes (hx.union hy fun hsparse hdense => Nat.pos_of_ne_zero fun hzero => ?_)
    exact hne ⟨hzero, hsparse, hdense⟩

end HybridBitSet

/-! ## Matrices -/

structure SparseBitMatrix.Fits (m : SparseBitMatrix) (n : Nat) : Prop where
  columns : m.numColumns = n
  row : ∀ {r x}, m.row r = some x → x.Fits n

namespace SparseBitMatrix

variable {m : SparseBitMatrix} {n r : Nat} {x : HybridBitSet}

theorem newEmpty_fits (n : Nat) : (HybridBitSet.newEmpty n).Fits n :=
  ⟨∅, newEmpty_holds n⟩

section
variable (h : m.Fits n)
include h

theorem Fits.getD (r : Nat) : ((m.row r).getD (.newEmpty n)).Fits n := by
  cases hr : m.row r with
  | none => exact newEmpty_fits n
  | some x => exact h.row hr

theorem ensureRow_spec (r : Nat) : ∃ m', m.ensureRow r = .ok ((m.row r).getD (.newEmpty n), m') ∧
      m'.row r = some ((m.row r).getD (.newEmpty n)) ∧ (∀ r', r' ≠ r → m'.row r' = m.row r') ∧
      ∀ x, x.Fits n → (m'.setRow r x).Fits n := by
  obtain ⟨rows, hrows⟩ : ∃ rows, m.rows ++ replicate (r + 1 - m.rows.length) none = rows := ⟨_, rfl⟩
  have hlen : r < rows.length := by
    rw [← hrows, length_append, length_replicate]
    omega
  have hrow : ∀ r', rows[r']?.join = m.row r' := by
    intro r'
    rw [row, ← hrows]
    rcases lt_or_ge r' m.rows.length with hlt | hge
    · rw [getElem?_append_left hlt]
    · rw [getElem?_append_right hge, getElem?_eq_none hge, getElem?_replicate]
      split <;> rfl
  have hr := hrow r
  rw [getElem?_eq_getElem hlen] at hr
  refine ⟨⟨m.numColumns, rows.set r (some ((m.row r).getD (.newEmpty n)))⟩, ?_, ?_,
    fun r' hne => ?_, fun x hx => ⟨h.columns, ?_⟩⟩
  · rw [ensureRow, hrows, getElem?_eq_getElem hlen, expect_some, ok_bind, h.columns, ← hr]
    rfl
  · rw [row, getElem?_set_self hlen]
    rfl
  · rw [row, getElem?_set_ne hne.symm, hrow]
  · intro r' y hy
    rw [setRow, row] at hy
    dsimp only at hy
    rw [set_set] at hy
    by_cases hrr : r' = r
    · rw [hrr, getElem?_set_self hlen] at hy
      cases hy
      exact hx
    · rw [getElem?_set_ne (Ne.symm hrr), hrow] at hy
      exact h.row hy

theorem Fits.insert (r column : Nat) : Ends (fun p => p.2.Fits n) (m.insert r column) := by
  obtain ⟨m', hm', -, -, hset⟩ := ensureRow_spec h r
  rw [SparseBitMatrix.insert, hm', ok_bind]
  exact ((h.getD r).insert column).bind fun p hp => .ok (hset _ hp)

theorem Fits.contains (r column : Nat) : Ends (fun _ => True) (m.contains r column) := by
  rw [SparseBitMatrix.contains]
  split
  · next x hx => exact (h.row hx).contains column
  · exact .ok trivial

theorem Fits.insertAllIntoRow (r : Nat) : Ends (Fits · n) (m.insertAllIntoRow r) := by
  obtain ⟨m', hm', -, -, hset⟩ := ensureRow_spec h r
  rw [SparseBitMatrix.insertAllIntoRow, hm', ok_bind]
  exact (h.getD r).insertAll.bind fun x hx => .ok (hset x hx)

end

theorem isSparse_getD (r n : Nat) :
    ((m.row r).getD (.newEmpty n)).isSparse = (m.row r).all isSparse := by
  cases m.row r <;> rfl

theorem Fits.unionIntoRow (h : m.Fits n) (hx : x.Fits n) (r : Nat) :
    EndsUnless (n = 0 ∧ ((m.row r).all isSparse && !x.isSparse) = true)
      (fun p => p.2.Fits n) (m.unionIntoRow r x) := by
  obtain ⟨m', hm', -, -, hset⟩ := ensureRow_spec h r
  have hunion := (h.getD r).union hx
  rw [SparseBitMatrix.unionIntoRow, hm', ok_bind]
  rw [isSparse_getD] at hunion
  exact hunion.bind fun p hp => .ok (hset _ hp)

theorem Fits.unionRows (h : m.Fits n) (read write : Nat) :
    EndsUnless (n = 0 ∧ (read != write && (m.row read).any (fun x => !x.isSparse) &&
      (m.row write).all isSparse) = true) (fun p => p.2.Fits n) (m.unionRows read write) := by
  rw [SparseBitMatrix.unionRows]
  by_cases heq : read = write
  · rw [heq, beq_self_eq_true, Bool.true_or, if_pos rfl]
    exact Ends.unless (.ok h) (by simp)
  cases hread : m.row read with
  | none =>
    rw [isNone_none, Bool.or_true, if_pos rfl]
    exact Ends.unless (.ok h) (by simp)
  | some x =>
    obtain ⟨m', hm', hwrite, hother, hset⟩ := ensureRow_spec h write
    have hunion := (h.getD write).union (h.row hread)
    rw [isSparse_getD] at hunion
    rw [beq_false_of_ne heq, isNone_some, Bool.or_false, if_neg Bool.false_ne_true, hm', ok_bind]
    dsimp only
    rw [hother read heq, hread, hwrite]
    refine (hunion.bind fun p (hp : p.2.Fits n) => .ok (hset p.2 hp)).congr ?_
    simp [bne, beq_false_of_ne heq, and_comm]

end SparseBitMatrix

/-! ## Steps -/

/-- All sets and matrices are of the domain. -/
structure Rows.Fits (s : Rows) (n : Nat) : Prop where
  set : ∀ i, (s.set i).Fits n
  matrix : ∀ k, (s.matrix k).Fits n

namespace Rows

variable {s : Rows} {n i k : Nat}

theorem new_fits (n : Nat) : (new n).Fits n where
  set _ := SparseBitMatrix.newEmpty_fits n
  matrix _ := ⟨rfl, fun h => by simp [new, SparseBitMatrix.new, SparseBitMatrix.row] at h⟩

section
variable (h : s.Fits n)
include h

theorem Fits.put_set (x : HybridBitSet) (hx : x.Fits n) :
    Ends (Fits · n) (.ok { s with set := update s.set i x }) := by
  refine .ok ⟨fun j => ?_, h.matrix⟩
  simp only [update_apply]
  split
  exacts [hx, h.set j]

theorem Fits.put_matrix (m : SparseBitMatrix) (hm : m.Fits n) :
    Ends (Fits · n) (.ok { s with matrix := update s.matrix k m }) := by
  refine .ok ⟨h.set, fun j => ?_⟩
  simp only [update_apply]
  split
  exacts [hm, h.matrix j]

theorem Fits.putSet {r : Outcome HybridBitSet}
    (hr : Ends (HybridBitSet.Fits · n) r) : Ends (Fits · n) (s.putSet i r) := hr.bind h.put_set

theorem Fits.putMatrix {r : Outcome SparseBitMatrix}
    (hr : Ends (SparseBitMatrix.Fits · n) r) : Ends (Fits · n) (s.putMatrix k r) :=
  hr.bind h.put_matrix

/-- An operation looks at a word that is not there exactly when it merges a dense set of an empty
domain into a sparse one. -/
theorem Fits.step (hn : n < 2 ^ 64) (op : RowOp) :
    EndsUnless (n = 0 ∧ s.mergesDense op = true) (Fits · n) (s.step op) := by
  have hplain : ∀ {r : Outcome Rows}, Ends (Fits · n) r →
      EndsUnless (n = 0 ∧ false = true) (Fits · n) r := fun hr =>
    hr.unless fun hfalse => Bool.false_ne_true hfalse.2
  cases op with
  | insert i elem => exact hplain (h.putSet (((h.set i).insert elem).map fun _ hp => hp))
  | remove i elem => exact hplain (h.putSet (((h.set i).remove elem).map fun _ hp => hp))
  | insertAll i => exact hplain (h.putSet (h.set i).insertAll)
  | clear i =>
    obtain ⟨S, hS⟩ := h.set i
    exact hplain (h.putSet (.ok ⟨∅, hS.clear⟩))
  | union i j =>
    exact (((h.set i).union (h.set j)).map (Q := (HybridBitSet.Fits · n)) fun _ hp => hp).bind h.put_set
  | contains i elem => exact hplain (((h.set i).contains elem).map fun _ _ => h)
  | superset i j =>
    obtain ⟨S, hS⟩ := h.set i
    obtain ⟨T, hT⟩ := h.set j
    refine hplain (.map (P := fun _ => True) ?_ fun _ _ => h)
    rw [HybridBitSet.Holds.superset hn hS hT]
    exact .ok trivial
  | densify i =>
    obtain ⟨S, hS⟩ := h.set i
    obtain ⟨b, hb, hholds⟩ := hS.toDense
    refine hplain (h.putSet ?_)
    rw [hb]
    exact .ok ⟨S, hholds⟩
  | cloneRow k r i =>
    refine hplain (h.putSet (.ok ?_))
    cases hr : (s.matrix k).row r with
    | none => exact h.set i
    | some x => exact (h.matrix k).row hr
  | matrixInsert k r column =>
    exact hplain (h.putMatrix (((h.matrix k).insert r column).map fun _ hp => hp))
  | matrixContains k r column => exact hplain (((h.matrix k).contains r column).map fun _ _ => h)
  | unionRows k read write =>
    exact (((h.matrix k).unionRows read write).map (Q := (SparseBitMatrix.Fits · n))
      fun _ hp => hp).bind h.put_matrix
  | unionIntoRow k into i =>
    exact (((h.matrix k).unionIntoRow (h.set i) into).map (Q := (SparseBitMatrix.Fits · n))
      fun _ hp => hp).bind h.put_matrix
  | insertAllIntoRow k r => exact hplain (h.putMatrix ((h.matrix k).insertAllIntoRow r))

end

/-! ## Runs of them -/

/-- No step of a run merges a dense set of an empty domain into a sparse one. -/
def NeverMergesDense (n : Nat) (s : Rows) (ops : List RowOp) : Prop :=
  ∀ before op after s', ops = before ++ op :: after → before.foldlM Rows.step s = .ok s' →
    ¬ (n = 0 ∧ s'.mergesDense op = true)

theorem Fits.run_iff (hn : n < 2 ^ 64) : ∀ {ops : List RowOp} {s : Rows}, s.Fits n →
    (InBounds (ops.foldlM Rows.step s) ↔ NeverMergesDense n s ops)
  | [], s, h => iff_of_true ⟨nofun, nofun⟩ fun before op after s' hops => by simp at hops
  | op :: ops, s, h => by
    have hstep := h.step hn op
    rw [foldlM_cons]
    by_cases hne : n = 0 ∧ s.mergesDense op = true
    · rw [hstep.fails hne]
      exact iff_of_false (fun hin => hin.1 rfl) fun hnever => hnever [] op ops s rfl rfl hne
    · have hstep := hstep.ends hne
      generalize hs' : s.step op = r at hstep
      have hcons : ∀ {before op' after s''}, op :: ops = before ++ op' :: after →
          before.foldlM Rows.step s = .ok s'' → s'' = s ∧ op' = op ∨
            ∃ before', ops = before' ++ op' :: after ∧
              (r >>= fun s' => before'.foldlM Rows.step s') = .ok s'' := by
        intro before op' after s'' hops hrun
        cases before with
        | nil =>
          cases hrun
          cases hops
          exact .inl ⟨rfl, rfl⟩
        | cons op'' before =>
          cases hops
          rw [foldlM_cons, hs'] at hrun
          exact .inr ⟨before, rfl, hrun⟩
      cases hstep with
      | rejected =>
        refine iff_of_true ⟨by simp, by simp⟩ fun before op' after s'' hops hrun => ?_
        rcases hcons hops hrun with ⟨rfl, rfl⟩ | ⟨before', -, hrun'⟩
        · exact hne
        · cases hrun'
      | @ok s' hfits =>
        rw [ok_bind, run_iff hn hfits]
        constructor
        · intro hnever before op' after s'' hops hrun
          rcases hcons hops hrun with ⟨rfl, rfl⟩ | ⟨before', hops', hrun'⟩
          · exact hne
          · exact hnever before' op' after s'' hops' hrun'
        · intro hnever before op' after s'' hops hrun
          refine hnever (op :: before) op' after s'' (by rw [hops]; rfl) ?_
          rw [foldlM_cons, hs', ok_bind, hrun]

end Rows

end Tortis.Index
