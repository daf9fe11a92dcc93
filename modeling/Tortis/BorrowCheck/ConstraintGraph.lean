import Tortis.DataStructures.SccWalk

/-!
# The graph of outlives constraints

`borrow_check/nll/constraints/mod.rs` and `graph.rs`: the constraints that start at a region are
chained through their indices, and `Edges` walks such a chain. The region `'static` has an edge to
every region in the normal direction, in the place of its own constraints. The chains hold exactly
the constraints of the set (`regionGraph_hasSuccessors`).
-/

namespace Tortis.BorrowCheck

open Outcome List

abbrev RegionVid := Nat

/-- `OutlivesConstraint`: the region `sup` must outlive `sub`. -/
structure OutlivesConstraint where
  sup : RegionVid
  sub : RegionVid

structure OutlivesConstraintSet where
  outlives : List OutlivesConstraint

/-- `ConstraintGraphDirecton`: `Normal` or `Reverse`. -/
inductive Direction where
  | normal
  | reverse

namespace Direction

def startRegion : Direction → OutlivesConstraint → RegionVid
  | .normal, c => c.sup
  | .reverse, c => c.sub

def endRegion : Direction → OutlivesConstraint → RegionVid
  | .normal, c => c.sub
  | .reverse, c => c.sup

def isNormal : Direction → Bool
  | .normal => true
  | .reverse => false

end Direction

structure ConstraintGraph where
  firstConstraints : List (Option Nat)
  nextConstraints : List (Option Nat)

namespace ConstraintGraph

/-- One iteration of the loop in `ConstraintGraph::new`. -/
def addConstraint (direction : Direction) (set : OutlivesConstraintSet) (g : ConstraintGraph)
    (idx : Nat) : Outcome ConstraintGraph := do
  let constraint ← expect "index out of bounds" set.outlives[idx]?
  let start := direction.startRegion constraint
  let head ← expect "index out of bounds" g.firstConstraints[start]?
  let next ← expect "index out of bounds" g.nextConstraints[idx]?
  assert next.isNone "assertion failed: next.is_none()"
  .ok ⟨g.firstConstraints.set start (some idx), g.nextConstraints.set idx head⟩

def new (direction : Direction) (set : OutlivesConstraintSet) (numRegionVars : Nat) :
    Outcome ConstraintGraph :=
  (range set.outlives.length).reverse.foldlM (addConstraint direction set)
    ⟨replicate numRegionVars none, replicate set.outlives.length none⟩

/-- `Edges`, an iterator over the constraints of a region. -/
structure Edges where
  pointer : Option Nat
  nextStaticIdx : Option Nat

section
variable (g : ConstraintGraph)

section
variable (direction : Direction)

def outgoingEdges (regionSup staticRegion : RegionVid) : Outcome Edges :=
  if regionSup = staticRegion ∧ direction.isNormal then .ok ⟨none, some 0⟩
  else do
    let first ← expect "index out of bounds" g.firstConstraints[regionSup]?
    .ok ⟨first, none⟩

def next (set : OutlivesConstraintSet) (staticRegion : RegionVid)
    (e : Edges) : Outcome (Option OutlivesConstraint × Edges) :=
  match e.pointer with
  | some p => do
    let pointer ← expect "index out of bounds" g.nextConstraints[p]?
    let constraint ← expect "index out of bounds" set.outlives[p]?
    .ok (some constraint, { e with pointer := pointer })
  | none =>
    match e.nextStaticIdx with
    | some nextStaticIdx =>
      .ok (some ⟨staticRegion, nextStaticIdx⟩,
        { e with nextStaticIdx :=
            if nextStaticIdx = g.firstConstraints.length - 1 then none
            else some (nextStaticIdx + 1) })
    | none => .ok (none, e)

/-- All the constraints that an iterator returns. -/
def collect (g : ConstraintGraph) (set : OutlivesConstraintSet) (staticRegion : RegionVid) :
    Nat → Edges → Outcome (List OutlivesConstraint)
  | 0, _ => .error .outOfFuel
  | n + 1, e => do
    match ← g.next set staticRegion e with
    | (some constraint, e) => do
      let constraints ← collect g set staticRegion n e
      .ok (constraint :: constraints)
    | (none, _) => .ok []

def outgoingRegions (set : OutlivesConstraintSet)
    (staticRegion regionSup : RegionVid) : Outcome (List RegionVid) := do
  let edges ← g.outgoingEdges direction regionSup staticRegion
  let constraints ← g.collect set staticRegion
    (set.outlives.length + g.firstConstraints.length + 1) edges
  .ok (constraints.map direction.endRegion)

def regionGraph (set : OutlivesConstraintSet) (staticRegion : RegionVid) : DirectedGraph where
  numNodes := g.firstConstraints.length
  successors := g.outgoingRegions direction set staticRegion

end

end

end ConstraintGraph

def OutlivesConstraintSet.computeSccs (set : OutlivesConstraintSet) (g : ConstraintGraph)
    (staticRegion : RegionVid) : Outcome Sccs :=
  Sccs.new (g.regionGraph .normal set staticRegion)

/-! ## The chains of constraints -/

namespace ConstraintGraph
variable {direction : Direction} {set : OutlivesConstraintSet} {n : Nat}

/-- The chain from a pointer goes through the given indices. -/
inductive Linked (next : List (Option Nat)) : Option Nat → List Nat → Prop
  | nil : Linked next none []
  | cons {i : Nat} {p : Option Nat} {l : List Nat} (hnext : next[i]? = some p)
      (hl : Linked next p l) : Linked next (some i) (i :: l)

variable {p : Option Nat} {l : List Nat}

theorem Linked.set_next {next : List (Option Nat)}
    (h : Linked next p l) {i : Nat} (hi : i ∉ l) (x : Option Nat) : Linked (next.set i x) p l := by
  induction h with
  | nil => exact .nil
  | cons hnext _ ih =>
    rw [mem_cons, not_or] at hi
    exact .cons (by rwa [getElem?_set_ne hi.1]) (ih hi.2)

/-- The constraints from the index `k` on that start at a region. -/
def idsFrom (direction : Direction) (set : OutlivesConstraintSet) (k : Nat) (r : RegionVid) :
    List Nat :=
  (range' k (set.outlives.length - k)).filter fun i =>
    (set.outlives[i]?.map direction.startRegion) = some r

variable {r : RegionVid}

theorem le_of_mem_idsFrom {k i : Nat} (h : i ∈ idsFrom direction set k r) : k ≤ i := by
  have := (mem_filter.1 h).1
  exact (mem_range'_1.1 this).1

variable {c : OutlivesConstraint}

theorem idsFrom_pred {k : Nat} (hc : set.outlives[k]? = some c) : idsFrom direction set k r =
      if direction.startRegion c = r then k :: idsFrom direction set (k + 1) r
      else idsFrom direction set (k + 1) r := by
  have hk := (List.getElem?_eq_some_iff.1 hc).1
  have hlen : set.outlives.length - k = set.outlives.length - (k + 1) + 1 := by omega
  unfold idsFrom
  rw [hlen, range'_succ, filter_cons, hc]
  simp only [Option.map_some, Option.some_inj, decide_eq_true_eq]

/-- What holds when the constraints from the index `k` on have been added. -/
structure Added (direction : Direction) (set : OutlivesConstraintSet) (n k : Nat)
    (g : ConstraintGraph) : Prop where
  first_length : g.firstConstraints.length = n
  next_length : g.nextConstraints.length = set.outlives.length
  unset : ∀ i < k, i < set.outlives.length → g.nextConstraints[i]? = some none
  linked : ∀ r < n, ∃ p, g.firstConstraints[r]? = some p ∧
    Linked g.nextConstraints p (idsFrom direction set k r)

theorem addConstraint_spec {g : ConstraintGraph} {k : Nat}
    (h : Added direction set n (k + 1) g) (hc : set.outlives[k]? = some c)
    (hstart : direction.startRegion c < n) :
    ∃ g', addConstraint direction set g k = .ok g' ∧ Added direction set n k g' := by
  have hk := (List.getElem?_eq_some_iff.1 hc).1
  obtain ⟨head, hhead, hlinked⟩ := h.linked _ hstart
  have hnext := h.unset k (Nat.lt_succ_self k) hk
  refine ⟨⟨g.firstConstraints.set (direction.startRegion c) (some k),
    g.nextConstraints.set k head⟩, ?_, ?_⟩
  · rw [addConstraint, hc]
    simp only [expect_some, ok_bind, hhead, hnext]
    rfl
  · have hfresh : ∀ r, k ∉ idsFrom direction set (k + 1) r := fun r hmem =>
      absurd (le_of_mem_idsFrom hmem) (by omega)
    exact {
      first_length := by rw [length_set, h.first_length]
      next_length := by rw [length_set, h.next_length]
      unset := fun i hi hlen => by
        rw [getElem?_set_ne (ne_of_gt hi)]
        exact h.unset i (Nat.lt_succ_of_lt hi) hlen
      linked := fun r hr => by
        rw [idsFrom_pred hc]
        split
        · rename_i heq
          subst heq
          refine ⟨some k, getElem?_set_self (h.first_length.symm ▸ hr), ?_⟩
          exact .cons (getElem?_set_self (h.next_length.symm ▸ hk))
            (hlinked.set_next (hfresh _) _)
        · rename_i hne
          obtain ⟨p, hp, hl⟩ := h.linked r hr
          exact ⟨p, by rwa [getElem?_set_ne hne], hl.set_next (hfresh r) _⟩ }

theorem new_spec (direction : Direction) (set : OutlivesConstraintSet)
    (hstart : ∀ c ∈ set.outlives, direction.startRegion c < n) :
    ∃ g, ConstraintGraph.new direction set n = .ok g ∧ Added direction set n 0 g := by
  suffices h : ∀ k ≤ set.outlives.length, ∀ g, Added direction set n k g →
      ∃ g', (range k).reverse.foldlM (addConstraint direction set) g = .ok g' ∧
        Added direction set n 0 g' by
    refine h _ le_rfl _ ⟨length_replicate, length_replicate, fun i _ hi => ?_,
      fun r hr => ⟨none, ?_, ?_⟩⟩
    · rw [getElem?_replicate_of_lt hi]
    · rw [getElem?_replicate_of_lt hr]
    · rw [idsFrom, Nat.sub_self]
      exact .nil
  intro k
  induction k with
  | zero => exact fun _ g hg => ⟨g, rfl, hg⟩
  | succ k ih =>
    intro hk g hg
    have hc : set.outlives[k]? = some set.outlives[k] := getElem?_eq_getElem hk
    obtain ⟨g', hadd, hg'⟩ := addConstraint_spec hg hc (hstart _ (getElem_mem hk))
    rw [range_succ, reverse_append, reverse_singleton, singleton_append, foldlM_cons, hadd]
    exact ih (Nat.le_of_succ_le hk) g' hg'

/-! ## What the iterator returns -/

variable {g : ConstraintGraph} {staticRegion : RegionVid}

theorem collect_linked (h : Linked g.nextConstraints p l)
    (hl : ∀ i ∈ l, i < set.outlives.length) {m : Nat} (hm : l.length < m) :
    g.collect set staticRegion m ⟨p, none⟩ = .ok (l.filterMap fun i => set.outlives[i]?) := by
  induction h generalizing m with
  | nil =>
    obtain ⟨m, rfl⟩ := Nat.exists_eq_succ_of_ne_zero (ne_of_gt hm)
    rfl
  | @cons i p l hnext _ ih =>
    obtain ⟨m, rfl⟩ := Nat.exists_eq_succ_of_ne_zero (ne_of_gt (Nat.zero_lt_of_lt hm))
    have hi : i < set.outlives.length := hl i mem_cons_self
    have hc : set.outlives[i]? = some set.outlives[i] := getElem?_eq_getElem hi
    have hrest := ih (fun j hj => hl j (mem_cons_of_mem _ hj)) (Nat.lt_of_succ_lt_succ hm)
    rw [collect, next]
    simp only [hnext, hc, expect_some, ok_bind, hrest, filterMap_cons]

theorem collect_static : ∀ {k i m : Nat}, k < m → i + k + 1 = g.firstConstraints.length →
    g.collect set staticRegion (m + 1) ⟨none, some i⟩ =
      .ok ((range' i (k + 1)).map fun r => ⟨staticRegion, r⟩)
  | 0, i, m + 1, _, hi => by
    rw [collect, next]
    simp only [ok_bind]
    rw [if_pos (by omega)]
    rfl
  | k + 1, i, m + 1, hm, hi => by
    rw [collect, next]
    simp only [ok_bind]
    rw [if_neg (by omega), collect_static (k := k) (by omega) (by omega), range'_succ, map_cons]
    rfl

def regionSucc (direction : Direction) (set : OutlivesConstraintSet) (staticRegion : RegionVid)
    (n : Nat) (r : RegionVid) : List RegionVid :=
  if r = staticRegion ∧ direction.isNormal then range n
  else ((idsFrom direction set 0 r).filterMap fun i => set.outlives[i]?).map direction.endRegion

theorem mem_regionSucc {r r' : RegionVid} : r' ∈ regionSucc direction set staticRegion n r ↔
    if r = staticRegion ∧ direction.isNormal then r' < n
    else ∃ c ∈ set.outlives, direction.startRegion c = r ∧ direction.endRegion c = r' := by
  unfold regionSucc
  split
  · rw [mem_range]
  · simp only [mem_map, mem_filterMap, idsFrom, mem_filter, mem_range'_1,
      decide_eq_true_eq, Option.map_eq_some_iff]
    constructor
    · rintro ⟨c, ⟨i, ⟨-, c', hc', hstart⟩, hc⟩, hend⟩
      rw [hc] at hc'
      cases hc'
      exact ⟨c, mem_of_getElem? hc, hstart, hend⟩
    · rintro ⟨c, hmem, hstart, hend⟩
      obtain ⟨i, hc⟩ := getElem?_of_mem hmem
      have hi := (List.getElem?_eq_some_iff.1 hc).1
      exact ⟨c, ⟨i, ⟨⟨Nat.zero_le _, by omega⟩, c, hc, hstart⟩, hc⟩, hend⟩

theorem regionGraph_hasSuccessors (staticRegion : RegionVid) (h : Added direction set n 0 g)
    (hend : ∀ c ∈ set.outlives, direction.endRegion c < n) :
    (g.regionGraph direction set staticRegion).HasSuccessors
      (regionSucc direction set staticRegion n) where
  successors_eq r hr := by
    replace hr : r < n := h.first_length ▸ hr
    dsimp only [regionGraph]
    rw [outgoingRegions, outgoingEdges, regionSucc]
    split
    · rw [ok_bind, collect_static (k := n - 1) (by rw [h.first_length]; omega)
        (by rw [h.first_length]; omega), ok_bind, map_map]
      rename_i heq
      have hdir : direction = .normal := by
        cases direction
        exacts [rfl, absurd heq.2 Bool.false_ne_true]
      subst hdir
      rw [Nat.sub_add_cancel (Nat.lt_of_le_of_lt (Nat.zero_le r) hr), ← range_eq_range']
      exact congrArg Except.ok (map_id _)
    · obtain ⟨p, hp, hl⟩ := h.linked r hr
      have hlt : ∀ i ∈ idsFrom direction set 0 r, i < set.outlives.length := fun i hi => by
        have := (mem_range'_1.1 (mem_filter.1 hi).1).2
        omega
      have hlen : (idsFrom direction set 0 r).length ≤ set.outlives.length := by
        refine (length_filter_le _ _).trans ?_
        rw [length_range']
        exact Nat.sub_le _ _
      rw [hp, expect_some, ok_bind, ok_bind, collect_linked hl hlt (by omega)]
      rfl
  closed r hr r' hr' := by
    refine lt_of_lt_of_eq ?_ h.first_length.symm
    rw [mem_regionSucc] at hr'
    split at hr'
    · exact hr'
    · obtain ⟨c, hc, -, rfl⟩ := hr'
      exact hend c hc

end ConstraintGraph

end Tortis.BorrowCheck
