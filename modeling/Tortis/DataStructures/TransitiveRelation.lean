import Tortis.Index.BitMatrix
import Tortis.Lib.FxHash
import Tortis.Lib.Pare
import Tortis.Serialize.Vec

/-!
# Transitive relations

`librustc_data_structures/transitive_relation.rs`: a relation is built from edges, and its transitive
closure is computed when it is first needed and kept until the relation grows. This module has the code, and says what
`compute_closure` and `pare_down` compute; `Tortis.DataStructures.TransitiveAnswers` says what the
queries answer after any sequence of operations.
-/

namespace Tortis

open Outcome List Bool

open Index (BitMatrix)
open Serialize (Codec Encoder Decoder encodeVec decodeVec encodeUsize decodeUsize)

variable {T : Type} [DecidableEq T]

structure TransitiveRelation.Edge where
  source : Nat
  target : Nat
deriving DecidableEq

structure TransitiveRelation (T : Type) where
  elements : List T
  map : FxHashMap T Nat
  edges : List TransitiveRelation.Edge
  closure : Option BitMatrix

namespace TransitiveRelation

/-- `TransitiveRelation::default`. -/
def empty : TransitiveRelation T := ⟨[], ∅, [], none⟩

section
variable (r : TransitiveRelation T)

def index (a : T) : Option Nat := r.map.get a

def addIndex (a : T) : Nat × TransitiveRelation T :=
  match r.map.get a with
  | some i => (i, r)
  | none =>
    let elements := r.elements ++ [a]
    let i := elements.length - 1
    -- The dimensions have changed, so the cache is cleared.
    (i, { r with elements, map := AList.insert a i r.map, closure := none })

def add (a b : T) : TransitiveRelation T :=
  let (a, r) := r.addIndex a
  let (b, r) := r.addIndex b
  let edge : Edge := ⟨a, b⟩
  if edge ∈ r.edges then r else { r with edges := r.edges ++ [edge], closure := none }

/-- One iteration of the loop of `compute_closure` over the edges. -/
def closeEdge (st : Bool × BitMatrix) (edge : Edge) : Outcome (Bool × BitMatrix) := do
  let (changed, matrix) := st
  let (inserted, matrix) ← matrix.insert edge.source edge.target
  let (united, matrix) ← matrix.unionRows edge.target edge.source
  .ok (changed || inserted || united, matrix)

def closureLoop (edges : List Edge) : Nat → BitMatrix → Outcome BitMatrix
  | 0, _ => .error .outOfFuel
  | n + 1, matrix => do
    let (changed, matrix) ← edges.foldlM closeEdge (false, matrix)
    if changed then closureLoop edges n matrix else .ok matrix

/-- `compute_closure`: each iteration but the last one sets a cell of the matrix. -/
def computeClosure : Outcome BitMatrix :=
  let n := r.elements.length
  closureLoop r.edges (n * n + 1) (BitMatrix.new n n)

def withClosure {β : Type} (r : TransitiveRelation T) (op : BitMatrix → Outcome β) :
    Outcome (β × TransitiveRelation T) := do
  let closure ← match r.closure with
    | some closure => .ok closure
    | none => r.computeClosure
  let result ← op closure
  .ok (result, { r with closure := some closure })

/-- `self.elements[i]`. -/
def element (i : Nat) : Outcome T :=
  expect "index out of bounds" r.elements[i]?

def contains (r : TransitiveRelation T) (a b : T) : Outcome (Bool × TransitiveRelation T) :=
  match r.index a, r.index b with
  | some a, some b => r.withClosure fun closure => closure.contains a b
  | _, _ => .ok (false, r)

def reachableFrom (a : T) : Outcome (List T × TransitiveRelation T) :=
  match r.index a with
  | some a => r.withClosure fun closure => do
    let indices ← closure.iter a
    indices.mapM r.element
  | none => .ok ([], r)

/-- One iteration of the inner loop of `pare_down`. -/
def pareStep (closure : BitMatrix) (candidateI : Nat) (st : List Nat × Nat) (j : Nat) :
    Outcome (List Nat × Nat) := do
  let (candidates, dead) := st
  let candidateJ ← expect "index out of bounds" candidates[j]?
  let reached ← closure.contains candidateI candidateJ
  if reached then .ok (candidates, dead + 1)
  else .ok (candidates.set (j - dead) candidateJ, dead)

/-- The outer loop of `pare_down`. -/
def pareFrom (closure : BitMatrix) : Nat → Nat → List Nat → Outcome (List Nat)
  | 0, _, _ => .error .outOfFuel
  | n + 1, i, candidates =>
    if i < candidates.length then do
      let candidateI ← expect "index out of bounds" candidates[i]?
      let (candidates, dead) ← (range' (i + 1) (candidates.length - (i + 1))).foldlM
        (pareStep closure candidateI) (candidates, 0)
      pareFrom closure n (i + 1) (candidates.take (candidates.length - dead))
    else .ok candidates

def pareDown (closure : BitMatrix) (candidates : List Nat) : Outcome (List Nat) :=
  pareFrom closure (candidates.length + 1) 0 candidates

/-- The indices that `minimal_upper_bounds` finds, from the last one. -/
def lubIndices (a b : Nat) (closure : BitMatrix) : Outcome (List Nat) := do
  let ab ← closure.contains a b
  if ab then .ok [b]
  else do
    let ba ← closure.contains b a
    if ba then .ok [a]
    else do
      let candidates ← closure.intersectRows a b
      let candidates ← pareDown closure candidates
      pareDown closure candidates.reverse

def minimalUpperBounds (a b : T) : Outcome (List T × TransitiveRelation T) :=
  match r.index a, r.index b with
  | some a, some b => do
    let (a, b) := if a > b then (b, a) else (a, b)
    let (indices, r) ← r.withClosure (lubIndices a b)
    let elements ← indices.reverse.mapM r.element
    .ok (elements, r)
  | _, _ => .ok ([], r)

end

/-! ## The encoding -/

def Edge.encode (e : Encoder) (edge : Edge) : Encoder :=
  encodeUsize .w64 (encodeUsize .w64 e edge.source) edge.target

def Edge.decode (d : Decoder) : Outcome (Edge × Decoder) := do
  let (source, d) ← decodeUsize .w64 d
  let (target, d) ← decodeUsize .w64 d
  .ok (⟨source, target⟩, d)

def encode (codec : Codec T) (e : Encoder) (r : TransitiveRelation T) : Encoder :=
  encodeVec .w64 Edge.encode (encodeVec .w64 codec.encode e r.elements) r.edges

/-- The indices of the elements of a vector. -/
def indexMap (elements : List T) : FxHashMap T Nat :=
  elements.zipIdx.foldl (fun map e => AList.insert e.1 e.2 map) ∅

def decode (codec : Codec T) (d : Decoder) : Outcome (TransitiveRelation T × Decoder) := do
  let (elements, d) ← decodeVec .w64 codec.decode d
  let (edges, d) ← decodeVec .w64 Edge.decode d
  .ok (⟨elements, indexMap elements, edges, none⟩, d)

/-! ## Sessions -/

inductive Op (T : Type) where
  | add (a b : T)
  | contains (a b : T)
  | reachableFrom (a : T)
  | minimalUpperBounds (a b : T)

inductive Answer (T : Type) where
  | unit
  | bool (v : Bool)
  | elements (l : List T)
deriving DecidableEq

/-- An operation on a relation, and the relation after it. -/
def Op.apply (r : TransitiveRelation T) : Op T → Outcome (Answer T × TransitiveRelation T)
  | .add a b => .ok (.unit, r.add a b)
  | .contains a b => do
    let (v, r) ← r.contains a b
    .ok (.bool v, r)
  | .reachableFrom a => do
    let (l, r) ← r.reachableFrom a
    .ok (.elements l, r)
  | .minimalUpperBounds a b => do
    let (l, r) ← r.minimalUpperBounds a b
    .ok (.elements l, r)

/-- The answers of a sequence of operations, and the relation after it. -/
def session : List (Op T) → TransitiveRelation T → Outcome (List (Answer T) × TransitiveRelation T)
  | [], r => .ok ([], r)
  | op :: ops, r => do
    let (answer, r) ← op.apply r
    let (answers, r) ← session ops r
    .ok (answer :: answers, r)

/-- The edges that a sequence of operations adds, in their order. -/
def addedEdges : List (Op T) → List (T × T)
  | [] => []
  | .add a b :: ops => (a, b) :: addedEdges ops
  | _ :: ops => addedEdges ops

/-! ## The closure -/

section
variable {edges : List Edge} {matrix : BitMatrix} {n : Nat} {S : Finset (Nat × Nat)}

/-- The edge from one index to another. -/
abbrev Step (edges : List Edge) (i j : Nat) : Prop := ⟨i, j⟩ ∈ edges

/-- The cells of an edge are set, and those of its target are cells of its source. -/
def Closed (S : Finset (Nat × Nat)) (edge : Edge) : Prop :=
  (edge.source, edge.target) ∈ S ∧ ∀ c, (edge.target, c) ∈ S → (edge.source, c) ∈ S

/-- The state of the loop over the edges when those in `pre` are done: the cells are paths, they
contain the first ones, and while nothing has changed the edges are closed. -/
structure Closing (n : Nat) (edges : List Edge) (S : Finset (Nat × Nat)) (pre : List Edge)
    (st : Bool × BitMatrix) (U : Finset (Nat × Nat)) : Prop where
  holds : st.2.Holds n n U
  subset : S ⊆ U
  paths : ∀ p ∈ U, Relation.TransGen (Step edges) p.1 p.2
  changed : st.1 = true ↔ U ≠ S
  closed : U = S → ∀ edge ∈ pre, Closed S edge

theorem closeEdge_spec {pre : List Edge} {edge : Edge} {st : Bool × BitMatrix}
    {U : Finset (Nat × Nat)} (h : Closing n edges S pre st U) (hmem : edge ∈ edges)
    (hsource : edge.source < n) (htarget : edge.target < n) :
    ∃ st', closeEdge st edge = .ok st' ∧ ∃ U', Closing n edges S (pre ++ [edge]) st' U' := by
  obtain ⟨changed, matrix⟩ := st
  obtain ⟨inserted, matrix1, hinsert, h1, hinserted⟩ := h.holds.insert hsource htarget
  obtain ⟨united, matrix2, hunion, h2, hunited⟩ := h1.unionRows htarget hsource
  have hstep : Step edges edge.source edge.target := hmem
  have hpaths1 : ∀ p ∈ insert (edge.source, edge.target) U,
      Relation.TransGen (Step edges) p.1 p.2 := by
    intro p hp
    rcases Finset.mem_insert.1 hp with rfl | hp
    exacts [.single hstep, h.paths p hp]
  set U₁ := insert (edge.source, edge.target) U with hU1
  set U₂ := Index.BitMatrix.added U₁ edge.target edge.source (Index.numWords n) with hU2
  have hsub1 : U ⊆ U₁ := Finset.subset_insert _ _
  have hsub2 : U₁ ⊆ U₂ := fun p hp => h1.mem_added.2 (.inl hp)
  refine ⟨(changed || inserted || united, matrix2), ?_, U₂, h2, h.subset.trans (hsub1.trans hsub2),
    fun p hp => ?_, ?_, fun hU e he => ?_⟩
  · rw [closeEdge]
    dsimp only
    rw [hinsert, ok_bind]
    rw [hunion, ok_bind]
  · rcases h1.mem_added.1 hp with hp | ⟨hrow, hp⟩
    · exact hpaths1 p hp
    · exact hrow ▸ .head hstep (hpaths1 _ hp)
  · have hchanged := h.changed
    rw [or_eq_true, or_eq_true, hchanged, hinserted, hunited]
    constructor
    · rintro hne hU
      have hback : U₂ ⊆ U := hU ▸ h.subset
      rcases hne with (hne | hne) | hne
      · exact hne ((hU ▸ hsub1.trans hsub2).antisymm h.subset)
      · exact hne ((hsub2.trans hback).antisymm hsub1)
      · exact hne ((hback.trans hsub1).antisymm hsub2)
    · intro hne
      by_contra hnone
      push Not at hnone
      exact hne (hnone.2.trans (hnone.1.2.trans hnone.1.1))
  · have hUS : U = S := (hU ▸ hsub1.trans hsub2).antisymm h.subset
    rcases mem_append.1 he with he | he
    · exact h.closed hUS e he
    · obtain rfl := mem_singleton.1 he
      rw [← hU]
      refine ⟨hsub2 (Finset.mem_insert_self _ _), fun c hc => h1.mem_added.2 (.inr ⟨rfl, ?_⟩)⟩
      exact hsub1 (hUS ▸ hU ▸ hc)

theorem mem_of_path (h : ∀ edge ∈ edges, Closed S edge) {i j : Nat}
    (hpath : Relation.TransGen (Step edges) i j) : (i, j) ∈ S := by
  induction hpath using Relation.TransGen.head_induction_on with
  | single hstep => exact (h _ hstep).1
  | head hstep _ ih => exact (h _ hstep).2 _ ih

theorem card_le (h : matrix.Holds n n S) : S.card ≤ n * n := by
  have hsub : S ⊆ Finset.range n ×ˢ Finset.range n := fun p hp =>
    Finset.mem_product.2 ⟨Finset.mem_range.2 (h.lt p hp).1, Finset.mem_range.2 (h.lt p hp).2⟩
  have := Finset.card_le_card hsub
  rwa [Finset.card_product, Finset.card_range] at this

theorem closureLoop_spec (hedges : ∀ edge ∈ edges, edge.source < n ∧ edge.target < n) :
    ∀ {fuel : Nat} {matrix : BitMatrix} {S : Finset (Nat × Nat)}, matrix.Holds n n S →
      (∀ p ∈ S, Relation.TransGen (Step edges) p.1 p.2) → n * n < fuel + S.card →
        ∃ matrix' S', closureLoop edges fuel matrix = .ok matrix' ∧ matrix'.Holds n n S' ∧
          ∀ i j, (i, j) ∈ S' ↔ Relation.TransGen (Step edges) i j
  | 0, _, _, h, _, hfuel => absurd (card_le h) (by omega)
  | fuel + 1, matrix, S, h, hpaths, hfuel => by
    obtain ⟨⟨changed, matrix'⟩, hrun, U, hU⟩ := @foldlM_start _ _ closeEdge
      (fun pre st => ∃ U, Closing n edges S pre st U) edges (false, matrix)
      ⟨S, h, subset_rfl, hpaths, by simp, by simp⟩ fun pre edge post st hl ⟨U, hU⟩ => by
        have hmem : edge ∈ edges := hl ▸ by simp
        exact closeEdge_spec hU hmem (hedges edge hmem).1 (hedges edge hmem).2
    rw [closureLoop, hrun, ok_bind]
    dsimp only
    have hchanged := hU.changed
    split
    · next heq =>
      have hlt : S.card < U.card :=
        Finset.card_lt_card (hU.subset.ssubset_of_ne (hchanged.1 heq).symm)
      exact closureLoop_spec hedges hU.holds hU.paths (by omega)
    · next heq =>
      obtain rfl : U = S := by
        by_contra hne
        exact heq (hchanged.2 hne)
      exact ⟨matrix', U, rfl, hU.holds, fun i j =>
        ⟨fun hin => hU.paths _ hin, mem_of_path (hU.closed rfl)⟩⟩

end

omit [DecidableEq T] in
theorem computeClosure_spec {r : TransitiveRelation T}
    (h : ∀ edge ∈ r.edges, edge.source < r.elements.length ∧ edge.target < r.elements.length) :
    ∃ matrix S, r.computeClosure = .ok matrix ∧ matrix.Holds r.elements.length r.elements.length S ∧
        ∀ i j, (i, j) ∈ S ↔ Relation.TransGen (Step r.edges) i j :=
  closureLoop_spec h (Index.BitMatrix.new_holds _ _)
    (fun p hp => absurd hp (Finset.notMem_empty p)) (by rw [Finset.card_empty]; omega)

/-! ## Paring down -/

section
variable {matrix : BitMatrix} {n : Nat} {S : Finset (Nat × Nat)}

def cellTest (S : Finset (Nat × Nat)) (i j : Nat) : Bool := decide ((i, j) ∈ S)

theorem pareStep_fold (h : matrix.Holds n n S) {x : Nat} (hx : x < n) :
    ∀ {todo : List Nat} (done garbage : List Nat), (∀ y ∈ todo, y < n) →
      ∃ garbage', (range' (done.length + garbage.length) todo.length).foldlM
        (pareStep matrix x) (done ++ garbage ++ todo, garbage.length) =
          .ok (done ++ unreached (cellTest S) x todo ++ garbage', garbage'.length)
  | [], done, garbage, _ => ⟨garbage, by simp [unreached]⟩
  | y :: todo, done, garbage, htodo => by
    have hget : (done ++ garbage ++ y :: todo)[done.length + garbage.length]? = some y := by
      rw [getElem?_append_right (by rw [length_append]), length_append, Nat.sub_self]
      rfl
    have htodo' : ∀ y ∈ todo, y < n := fun z hz => htodo z (mem_cons_of_mem _ hz)
    rw [length_cons, range'_succ, foldlM_cons, pareStep, hget, expect_some, ok_bind, h.contains hx (htodo y mem_cons_self),
      ok_bind]
    by_cases hxy : (x, y) ∈ S
    · obtain ⟨garbage', hrun⟩ := pareStep_fold h hx done (garbage ++ [y]) htodo'
      refine ⟨garbage', ?_⟩
      rw [length_append, length_singleton, ← add_assoc] at hrun
      simpa [unreached, cellTest, hxy] using hrun
    · -- The element moves to the first dead place.
      obtain ⟨garbage1, hlen, hset⟩ : ∃ garbage1 : List Nat, garbage1.length = garbage.length ∧
          (done ++ garbage ++ y :: todo).set done.length y = done ++ [y] ++ garbage1 ++ todo := by
        cases garbage with
        | nil => exact ⟨[], rfl, by simp⟩
        | cons z garbage => exact ⟨garbage ++ [y], by simp, by simp⟩
      obtain ⟨garbage', hrun⟩ := pareStep_fold h hx (done ++ [y]) garbage1 htodo'
      refine ⟨garbage', ?_⟩
      rw [length_append, length_singleton, add_right_comm, hlen] at hrun
      rw [decide_eq_false hxy, if_neg Bool.false_ne_true, ok_bind, Nat.add_sub_cancel, hset, hrun]
      simp [unreached, cellTest, hxy]

theorem pareFrom_spec (h : matrix.Holds n n S) : ∀ {fuel : Nat} (done : List Nat) {todo : List Nat},
    (∀ y ∈ todo, y < n) → todo.length < fuel →
      pareFrom matrix fuel done.length (done ++ todo) = .ok (done ++ pare (cellTest S) todo)
  | 0, _, _, _, hfuel => absurd hfuel (Nat.not_lt_zero _)
  | fuel + 1, done, [], _, _ => by
    rw [pareFrom, if_neg (by simp), pare_nil]
  | fuel + 1, done, x :: todo, htodo, hfuel => by
    have hx : x < n := htodo x mem_cons_self
    have htodo' : ∀ y ∈ todo, y < n := fun z hz => htodo z (mem_cons_of_mem _ hz)
    have hlt : done.length < (done ++ x :: todo).length := by simp
    have hget : (done ++ x :: todo)[done.length]? = some x := by simp
    obtain ⟨garbage, hrun⟩ := pareStep_fold h hx (done ++ [x]) [] htodo'
    have hlen : (done ++ x :: todo).length - (done.length + 1) = todo.length := by
      rw [length_append, length_cons]
      omega
    rw [length_append, length_singleton, length_nil, add_zero, append_nil,
      append_assoc, singleton_append] at hrun
    rw [pareFrom, if_pos hlt, hget, expect_some, ok_bind, hlen, hrun, ok_bind]
    dsimp only
    have hsub : ∀ y ∈ unreached (cellTest S) x todo, y < n := fun y hy =>
      htodo' y ((unreached_sublist _ x todo).mem hy)
    have hshort : (unreached (cellTest S) x todo).length < fuel :=
      lt_of_le_of_lt (unreached_sublist _ x todo).length_le (Nat.lt_of_succ_lt_succ hfuel)
    have hrest := pareFrom_spec h (done ++ [x]) hsub hshort
    rw [length_append, length_singleton] at hrest
    rw [@length_append _ _ garbage, Nat.add_sub_cancel, take_left' rfl, hrest,
      pare_cons, append_assoc]
    rfl

theorem pareDown_eq (h : matrix.Holds n n S) {l : List Nat} (hl : ∀ y ∈ l, y < n) :
    pareDown matrix l = .ok (pare (cellTest S) l) :=
  pareFrom_spec h [] hl (lt_add_one _)

end

end TransitiveRelation

end Tortis
