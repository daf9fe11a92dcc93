import Tortis.Lib.Outcome
import Mathlib.Data.Fintype.Basic

/-!
# Sparse bit matrices

`SparseBitMatrix` of `librustc_index/bit_set.rs`: a row of bits for each row index, which is made
when it is first written to. A row is the set of its columns; its columns are below the number of
columns of the matrix, so the domain of a row is part of its type. `bits` reads a row that has not
been made as an empty one, and each write has one lemma that says what it does to `bits`.
-/

namespace Tortis

open List hiding set

abbrev HybridBitSet (domainSize : Nat) := Finset (Fin domainSize)

/-- An index is within the domain of a set: the assertion of `insert` and `contains`. -/
def inDomain (domainSize elem : Nat) : Outcome (Fin domainSize) :=
  if h : elem < domainSize then .ok ⟨elem, h⟩
  else .error (.panic "assertion failed: elem.index() < self.domain_size")

@[simp] theorem inDomain_val {domainSize : Nat} (elem : Fin domainSize) :
    inDomain domainSize elem.val = .ok elem := dif_pos elem.2

structure SparseBitMatrix (numColumns : Nat) where
  rows : List (Option (HybridBitSet numColumns))

namespace SparseBitMatrix
variable {numColumns : Nat}

def new (numColumns : Nat) : SparseBitMatrix numColumns := ⟨[]⟩

section
variable (m : SparseBitMatrix numColumns)

section
variable (r : Nat)

def row : Option (HybridBitSet numColumns) :=
  m.rows[r]?.join

/-- The rows with the missing ones up to a given one instantiated: `ensure_contains_elem`. -/
def ensureContainsElem (rows : List (Option (HybridBitSet numColumns))) (r : Nat) :
    List (Option (HybridBitSet numColumns)) :=
  rows ++ replicate (r + 1 - rows.length) none

def modifyRow
    (f : HybridBitSet numColumns → HybridBitSet numColumns) : SparseBitMatrix numColumns :=
  ⟨(ensureContainsElem m.rows r).set r (some (f ((m.row r).getD ∅)))⟩

def insert (m : SparseBitMatrix numColumns) (r column : Nat) :
    Outcome (SparseBitMatrix numColumns) := do
  let column ← inDomain numColumns column
  .ok (m.modifyRow r (Insert.insert column))

def contains (r column : Nat) : Outcome Bool :=
  match m.row r with
  | none => .ok false
  | some set => do
    let column ← inDomain numColumns column
    .ok (decide (column ∈ set))

/-- `union_rows`: the bits of the row `read` are added to the row `write`. -/
def unionRows (read write : Nat) : SparseBitMatrix numColumns :=
  if read = write then m
  else match m.row read with
    | none => m
    | some set => m.modifyRow write (· ∪ set)

def unionIntoRow (into : Nat) (set : HybridBitSet numColumns) :
    SparseBitMatrix numColumns := m.modifyRow into (· ∪ set)

def insertAllIntoRow : SparseBitMatrix numColumns :=
  m.modifyRow r fun _ => Finset.univ

def rowIndices : List Nat := range m.rows.length

def bits : HybridBitSet numColumns :=
  (m.row r).getD ∅

/-! ## What the operations do to the bits -/

@[simp] theorem bits_new : (new numColumns).bits r = ∅ := rfl

end

theorem row_modifyRow (r r' : Nat) (f : HybridBitSet numColumns → HybridBitSet numColumns) :
    (m.modifyRow r f).row r' = if r' = r then some (f (m.bits r)) else m.row r' := by
  have hlen : r < (ensureContainsElem m.rows r).length := by
    rw [ensureContainsElem, length_append, length_replicate]
    omega
  rw [row, modifyRow]
  split
  · rename_i heq
    rw [heq, getElem?_set_self hlen]
    rfl
  · rename_i hne
    rw [getElem?_set_ne (Ne.symm hne), ensureContainsElem, row]
    rcases lt_or_ge r' m.rows.length with hlt | hge
    · rw [getElem?_append_left hlt]
    · rw [getElem?_append_right hge, getElem?_eq_none hge, getElem?_replicate]
      split <;> rfl

@[simp] theorem bits_modifyRow (r r' : Nat)
    (f : HybridBitSet numColumns → HybridBitSet numColumns) :
    (m.modifyRow r f).bits r' = if r' = r then f (m.bits r) else m.bits r' := by
  rw [bits, row_modifyRow]
  split <;> rfl

end

variable {m : SparseBitMatrix numColumns} {e : Fin numColumns}

theorem mem_bits_unionRows {read write r : Nat} : e ∈ (m.unionRows read write).bits r ↔
      e ∈ m.bits r ∨ (r = write ∧ e ∈ m.bits read) := by
  unfold unionRows
  split
  · rename_i heq
    exact ⟨.inl, fun h => h.elim id fun ⟨hr, he⟩ => hr ▸ heq ▸ he⟩
  · split
    · rename_i hnone
      have hempty : m.bits read = ∅ := by rw [bits, hnone]; rfl
      simp [hempty]
    · rename_i set hset
      have hbits : m.bits read = set := by rw [bits, hset]; rfl
      rw [bits_modifyRow, hbits]
      split
      · rename_i heq
        simp [heq]
      · rename_i hne
        simp [hne]

theorem mem_bits_unionIntoRow {into r : Nat} {set : HybridBitSet numColumns} :
    e ∈ (m.unionIntoRow into set).bits r ↔ e ∈ m.bits r ∨ (r = into ∧ e ∈ set) := by
  rw [unionIntoRow, bits_modifyRow]
  split
  · rename_i heq
    simp [heq]
  · rename_i hne
    simp [hne]

theorem mem_bits_insertAllIntoRow {r r' : Nat} : e ∈ (m.insertAllIntoRow r).bits r' ↔ e ∈ m.bits r' ∨ r' = r := by
  rw [insertAllIntoRow, bits_modifyRow]
  split
  · rename_i heq
    simp [heq]
  · rename_i hne
    simp [hne]

theorem insert_spec (m : SparseBitMatrix numColumns) (r : Nat) (column : Fin numColumns) :
    ∃ m', m.insert r column.val = .ok m' ∧
      ∀ r' e, e ∈ m'.bits r' ↔ e ∈ m.bits r' ∨ (r' = r ∧ e = column) := by
  refine ⟨m.modifyRow r (Insert.insert column), ?_, fun r' e => ?_⟩
  · rw [insert, inDomain_val]
    rfl
  · rw [bits_modifyRow]
    split
    · rename_i heq
      simp [heq, or_comm]
    · rename_i hne
      simp [hne]

theorem contains_eq (m : SparseBitMatrix numColumns) (r : Nat) (column : Fin numColumns) :
    m.contains r column.val = .ok (decide (column ∈ m.bits r)) := by
  rw [contains, bits]
  cases m.row r with
  | none => simp
  | some set => simp

end SparseBitMatrix

end Tortis
