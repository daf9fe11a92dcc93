import Tortis.DataStructures.TransitiveAnswers
import Mathlib.Data.Multiset.DershowitzManna

/-!
# Mutual immediate postdominators

`parents` and `mutual_immediate_postdominator` of `transitive_relation.rs`. The latter takes two
elements off the end of a vector and puts their minimal upper bounds there, until at most one
element is left. It ends, whatever cycles the relation has: it either drops one of the two elements
or replaces both by elements from which fewer elements can be reached (`mutualLoop_spec`).
-/

namespace Tortis

open Outcome List
open Index (BitMatrix)

namespace TransitiveRelation

variable {T : Type} [DecidableEq T]

/-- `ancestors.retain(|&e| !closure.contains(e, a.0))`. -/
def retainAbove (closure : BitMatrix) (a : Nat) : List Nat → Outcome (List Nat)
  | [] => .ok []
  | e :: ancestors => do
    let below ← closure.contains e a
    let rest ← retainAbove closure a ancestors
    .ok (if below then rest else e :: rest)

/-- The indices that `parents` finds, from the last one. -/
def ancestorIndices (a : Nat) (closure : BitMatrix) : Outcome (List Nat) := do
  let ancestors ← closure.intersectRows a a
  let ancestors ← retainAbove closure a ancestors
  let ancestors ← pareDown closure ancestors
  pareDown closure ancestors.reverse

def parents (r : TransitiveRelation T) (a : T) : Outcome (List T × TransitiveRelation T) :=
  match r.index a with
  | none => .ok ([], r)
  | some a => do
    let (indices, r) ← r.withClosure (ancestorIndices a)
    let elements ← indices.reverse.mapM r.element
    .ok (elements, r)

/-- The loop of `mutual_immediate_postdominator`, over the vector from its end. -/
def mutualLoop : Nat → TransitiveRelation T → List T → Outcome (Option T × TransitiveRelation T)
  | 0, _, _ => .error .outOfFuel
  | _ + 1, r, [] => .ok (none, r)
  | _ + 1, r, [x] => .ok (some x, r)
  | fuel + 1, r, m :: n :: mubs => do
    let (bounds, r) ← r.minimalUpperBounds n m
    mutualLoop fuel r (bounds.reverse ++ mubs)

def mutualImmediatePostdominator (fuel : Nat) (r : TransitiveRelation T) (mubs : List T) :
    Outcome (Option T × TransitiveRelation T) := mutualLoop fuel r mubs.reverse

def postdomUpperBound (fuel : Nat) (r : TransitiveRelation T) (a b : T) :
    Outcome (Option T × TransitiveRelation T) := do
  let (mubs, r) ← r.minimalUpperBounds a b
  r.mutualImmediatePostdominator fuel mubs

def postdomParent (fuel : Nat) (r : TransitiveRelation T) (a : T) :
    Outcome (Option T × TransitiveRelation T) := do
  let (parents, r) ← r.parents a
  r.mutualImmediatePostdominator fuel parents

/-- The loop comes to two elements without a common upper bound while there are others. -/
inductive Loses : TransitiveRelation T → List T → Prop where
  | here {r r' : TransitiveRelation T} {m n x : T} {mubs : List T} :
    r.minimalUpperBounds n m = .ok ([], r') → Loses r (m :: n :: x :: mubs)
  | later {r r' : TransitiveRelation T} {m n : T} {bounds mubs : List T} :
    r.minimalUpperBounds n m = .ok (bounds, r') → Loses r' (bounds.reverse ++ mubs) →
      Loses r (m :: n :: mubs)

section
variable {r r' : TransitiveRelation T} {added : List (T × T)} {a b : T} {i j : Nat}

/-! ## Two elements -/

/-- The bounds of two elements: one of the two when the other one reaches it, and otherwise elements
that both reach. -/
def Bounds (added : List (T × T)) (a b : T) (bounds : List T) : Prop :=
  bounds = [b] ∧ Path added a b ∨ bounds = [a] ∧ Path added b a ∨
    ¬ Path added a b ∧ ¬ Path added b a ∧ ∀ x ∈ bounds, UpperBound added a b x

omit [DecidableEq T] in
theorem Bounds.symm {bounds : List T} (h : Bounds added a b bounds) : Bounds added b a bounds := by
  rcases h with h | h | ⟨hab, hba, h⟩
  · exact .inr (.inl h)
  · exact .inl h
  · exact .inr (.inr ⟨hba, hab, fun x hx => (h x hx).symm⟩)

theorem Represents.lub_of_le (h : r.Represents added) (hi : r.index a = some i)
    (hj : r.index b = some j) (hle : i ≤ j) :
    ∃ bounds r', r.minimalUpperBounds a b = .ok (bounds, r') ∧ r'.Represents added ∧
      Bounds added a b bounds := by
  have hia := h.indexed.index_eq_some.1 hi
  have hjb := h.indexed.index_eq_some.1 hj
  obtain ⟨bounds, r', hrun, hr, hbounds⟩ := h.minimalUpperBounds a b
  refine ⟨bounds, r', hrun, hr, ?_⟩
  obtain ⟨matrix, S, hm, hS, -, hclosure⟩ := h.withClosure
  have hcell : ∀ {i j : Nat} {a b : T}, r.elements[i]? = some a → r.elements[j]? = some b →
      ((i, j) ∈ S ↔ Path added a b) := fun hi hj => (hS _ _).trans (h.path_iff hi hj)
  have hlt := h.indexed.index_lt hi
  have hlt' := h.indexed.index_lt hj
  rw [TransitiveRelation.minimalUpperBounds, hi, hj] at hrun
  dsimp only at hrun
  rw [if_neg (Nat.not_lt.2 hle), hclosure, lubIndices, hm.contains hlt hlt', ok_bind] at hrun
  by_cases hab : Path added a b
  · rw [decide_eq_true ((hcell hia hjb).2 hab), if_pos rfl] at hrun
    simp [element, hjb] at hrun
    exact .inl ⟨hrun.1.symm, hab⟩
  rw [decide_eq_false fun hS' => hab ((hcell hia hjb).1 hS'), if_neg Bool.false_ne_true,
    hm.contains hlt' hlt, ok_bind] at hrun
  by_cases hba : Path added b a
  · rw [decide_eq_true ((hcell hjb hia).2 hba), if_pos rfl] at hrun
    simp [element, hia] at hrun
    exact .inr (.inl ⟨hrun.1.symm, hba⟩)
  · exact .inr (.inr ⟨hab, hba, fun x hx => (((hbounds hab hba).2 x).1 hx).upper⟩)

theorem Represents.lub (h : r.Represents added) (a b : T) : ∃ bounds r', r.minimalUpperBounds a b =
    .ok (bounds, r') ∧ r'.Represents added ∧ Bounds added a b bounds := by
  have hnone : ∀ {x y : T}, r.index x = none → ¬ Path added x y ∧ ¬ Path added y x := by
    intro x y hx
    refine ⟨fun hpath => ?_, fun hpath => ?_⟩
    · obtain ⟨i, -, hi, -⟩ := h.index_of_path hpath
      rw [h.indexed.index_eq_some.2 hi] at hx
      cases hx
    · obtain ⟨-, j, -, hj⟩ := h.index_of_path hpath
      rw [h.indexed.index_eq_some.2 hj] at hx
      cases hx
  cases hi : r.index a with
  | none =>
    refine ⟨[], r, by rw [TransitiveRelation.minimalUpperBounds, hi], h, .inr (.inr ?_)⟩
    exact ⟨(hnone hi).1, (hnone hi).2, (by simp)⟩
  | some i =>
    cases hj : r.index b with
    | none =>
      refine ⟨[], r, by rw [TransitiveRelation.minimalUpperBounds, hi, hj], h, .inr (.inr ?_)⟩
      exact ⟨(hnone hj).2, (hnone hj).1, (by simp)⟩
    | some j =>
      rcases le_total i j with hle | hle
      · exact h.lub_of_le hi hj hle
      · obtain ⟨bounds, r', hrun, hr, hbounds⟩ := h.lub_of_le hj hi hle
        exact ⟨bounds, r', minimalUpperBounds_comm r a b ▸ hrun, hr, hbounds.symm⟩

/-! ## The loop -/

/-- The element is another one or reaches it. -/
def Below (added : List (T × T)) (e x : T) : Prop := e = x ∨ Path added e x

omit [DecidableEq T] in
theorem Below.trans {x y z : T} (h : Below added x y) (h' : Below added y z) : Below added x z := by
  rcases h with rfl | h
  · exact h'
  · rcases h' with rfl | h'
    · exact .inr h
    · exact .inr (h.trans h')

omit [DecidableEq T] in
theorem Bounds.below {bounds : List T} (h : Bounds added a b bounds) {x : T} (hx : x ∈ bounds) :
    Below added a x ∧ Below added b x := by
  rcases h with ⟨rfl, hab⟩ | ⟨rfl, hba⟩ | ⟨-, -, hupper⟩
  · obtain rfl := mem_singleton.1 hx
    exact ⟨.inr hab, .inl rfl⟩
  · obtain rfl := mem_singleton.1 hx
    exact ⟨.inl rfl, .inr hba⟩
  · exact ⟨.inr (hupper x hx).1, .inr (hupper x hx).2⟩

open Classical in
/-- How many elements an element reaches, itself included. -/
noncomputable def rank (added : List (T × T)) (a : T) : Nat :=
  ((mentions added).toFinset.filter (Below added a)).card

theorem rank_lt {x : T} (hpath : Path added a x) (hback : ¬ Path added x a) :
    rank added x < rank added a := by
  classical
  have ha : a ∈ mentions added := by
    obtain ⟨c, hedge, -⟩ := Relation.TransGen.head'_iff.1 hpath
    exact mem_flatMap.2 ⟨(a, c), hedge, mem_cons_self⟩
  refine Finset.card_lt_card (Finset.ssubset_iff_of_subset ?_ |>.2 ⟨a, ?_, ?_⟩)
  · intro y hy
    rw [Finset.mem_filter] at hy ⊢
    exact ⟨hy.1, Below.trans (.inr hpath) hy.2⟩
  · exact Finset.mem_filter.2 ⟨mem_toFinset.2 ha, .inl rfl⟩
  · intro hmem
    rcases (Finset.mem_filter.1 hmem).2 with rfl | hxa
    · exact hback hpath
    · exact hback hxa

theorem Bounds.decreases {m n : T} {bounds mubs : List T} (h : Bounds added n m bounds) :
    Multiset.IsDershowitzMannaLT ((bounds.reverse ++ mubs).map (rank added) : Multiset Nat)
      ((m :: n :: mubs).map (rank added) : Multiset Nat) := by
  have hsplit : ((m :: n :: mubs).map (rank added) : Multiset Nat) =
      ↑(mubs.map (rank added)) + {rank added m, rank added n} := by
    rw [map_cons, map_cons, ← Multiset.cons_coe, ← Multiset.cons_coe, add_comm]
    rfl
  have hbounds : ((bounds.reverse ++ mubs).map (rank added) : Multiset Nat) =
      ↑(mubs.map (rank added)) + ↑(bounds.map (rank added)) := by
    rw [map_append, ← Multiset.coe_add, map_reverse, Multiset.coe_reverse, add_comm]
  rcases h with ⟨rfl, -⟩ | ⟨rfl, -⟩ | ⟨hnm, hmn, hupper⟩
  · refine ⟨↑(mubs.map (rank added)) + {rank added m}, 0, {rank added n}, by simp, ?_, ?_, by simp⟩
    · rw [hbounds, add_zero]
      rfl
    · rw [hsplit, add_assoc]
      rfl
  · refine ⟨↑(mubs.map (rank added)) + {rank added n}, 0, {rank added m}, by simp, ?_, ?_, by simp⟩
    · rw [hbounds, add_zero]
      rfl
    · rw [hsplit, add_assoc, Multiset.pair_comm]
      rfl
  · refine ⟨_, _, _, by simp, hbounds, hsplit, fun y hy => ⟨rank added n, by simp, ?_⟩⟩
    obtain ⟨x, hx, rfl⟩ := mem_map.1 hy
    obtain ⟨hnx, hmx⟩ := hupper x hx
    exact rank_lt hnx fun hxn => hmn (hmx.trans hxn)

theorem mutualLoop_spec (M : Multiset Nat) : ∀ (r : TransitiveRelation T) (mubs : List T),
    (mubs.map (rank added) : Multiset Nat) = M → r.Represents added → ∃ N o r',
      r'.Represents added ∧ (∀ fuel ≥ N, mutualLoop fuel r mubs = .ok (o, r')) ∧
        (¬ Loses r mubs → ∀ x, o = some x → ∀ e ∈ mubs, Below added e x) := by
  have hwf : WellFounded fun M N : Multiset Nat => M.IsDershowitzMannaLT N :=
    Multiset.wellFounded_isDershowitzMannaLT
  induction M using hwf.induction with
  | _ M ih =>
    intro r mubs hM h
    have hpos : ∀ {fuel : Nat}, 1 ≤ fuel → ∃ n, fuel = n + 1 := fun hfuel =>
      ⟨_, (Nat.sub_add_cancel hfuel).symm⟩
    match mubs with
    | [] =>
      refine ⟨1, none, r, h, fun fuel hfuel => ?_, nofun⟩
      obtain ⟨n, rfl⟩ := hpos hfuel
      rfl
    | [x] =>
      refine ⟨1, some x, r, h, fun fuel hfuel => ?_, fun _ y hy e he => ?_⟩
      · obtain ⟨n, rfl⟩ := hpos hfuel
        rfl
      · cases hy
        exact .inl (mem_singleton.1 he)
    | m :: n :: mubs =>
      obtain ⟨bounds, r1, hrun, hr1, hbounds⟩ := h.lub n m
      obtain ⟨N, o, r', hr', hloop, habove⟩ :=
        ih _ (hM ▸ hbounds.decreases) r1 (bounds.reverse ++ mubs) rfl hr1
      refine ⟨N + 1, o, r', hr', fun fuel hfuel => ?_, fun hkeeps x hx => ?_⟩
      · obtain ⟨k, rfl⟩ := hpos (Nat.le_of_add_left_le hfuel)
        rw [mutualLoop, hrun, ok_bind]
        exact hloop k (Nat.le_of_succ_le_succ hfuel)
      · have hall := habove (fun hlater => hkeeps (.later hrun hlater)) x hx
        have hnonempty : ∃ u, u ∈ bounds := by
          refine exists_mem_of_ne_nil _ fun hnil => ?_
          subst hnil
          cases mubs with
          | nil =>
            have hend := hloop (N + 1) (Nat.le_succ N)
            rw [hx] at hend
            cases hend
          | cons y mubs => exact hkeeps (.here hrun)
        obtain ⟨u, hu⟩ := hnonempty
        have hux := hall u (mem_append_left _ (mem_reverse.2 hu))
        obtain ⟨hnu, hmu⟩ := hbounds.below hu
        intro e he
        rcases mem_cons.1 he with rfl | he
        · exact hmu.trans hux
        rcases mem_cons.1 he with rfl | he
        · exact hnu.trans hux
        · exact hall e (mem_append_right _ he)

/-! ## Parents -/

theorem retainAbove_eq {matrix : BitMatrix} {n : Nat} {S : Finset (Nat × Nat)}
    (hm : matrix.Holds n n S) (hi : i < n) : ∀ {l : List Nat}, (∀ e ∈ l, e < n) →
      retainAbove matrix i l = .ok (l.filter fun e => decide ((e, i) ∉ S))
  | [], _ => rfl
  | e :: l, hl => by
    rw [retainAbove, hm.contains (hl e mem_cons_self) hi, ok_bind,
      retainAbove_eq hm hi fun e' he' => hl e' (mem_cons_of_mem _ he'), ok_bind]
    by_cases he : (e, i) ∈ S
    · simp [he]
    · simp [he]

theorem Represents.parents (h : r.Represents added) (a : T) :
    ∃ l r', r.parents a = .ok (l, r') ∧ r'.Represents added := by
  cases hi : r.index a with
  | none => exact ⟨[], r, by rw [TransitiveRelation.parents, hi], h⟩
  | some i =>
    obtain ⟨matrix, S, hm, -, hr, hclosure⟩ := h.withClosure
    have hlt := h.indexed.index_lt hi
    obtain ⟨l, hl, -, hmem⟩ := hm.intersectRows hlt hlt
    have hl1 : ∀ k ∈ l.filter fun e => decide ((e, i) ∉ S), k < r.elements.length := fun k hk =>
      (hm.lt _ ((hmem k).1 (mem_filter.1 hk).1).1).2
    have hl2 : ∀ k ∈ (pare (cellTest S) (l.filter fun e => decide ((e, i) ∉ S))).reverse,
        k < r.elements.length := fun k hk =>
      hl1 k ((pare_sublist _ _).mem (mem_reverse.1 hk))
    generalize hl' : pare (cellTest S) (l.filter fun e => decide ((e, i) ∉ S)) = l' at hl2
    refine ⟨(pare (cellTest S) l'.reverse).reverse.filterMap (r.elements[·]?), _, ?_, hr⟩
    rw [TransitiveRelation.parents, hi]
    dsimp only
    rw [hclosure, ancestorIndices, hl, ok_bind,
      retainAbove_eq hm hlt fun k hk => (hm.lt _ ((hmem k).1 hk).1).2, ok_bind, pareDown_eq hm hl1,
      hl', ok_bind, pareDown_eq hm hl2, ok_bind, ok_bind]
    dsimp only
    rw [mapM_element (r := { r with closure := some matrix }) fun k hk =>
      hl2 k ((pare_sublist _ _).mem (mem_reverse.1 hk)), ok_bind]

end

/-- In a relation that any sequence of operations has built, `postdom_upper_bound` and
`postdom_parent` end, the former with the same answer for both orders of its arguments; and unless
the loop has lost elements without a common upper bound, what they return is above all minimal upper
bounds and all parents, respectively. -/
theorem postdominator_above {ops : List (Op T)} (hfits : Fits (addedEdges ops)) :
    ∃ answers r, session ops empty = .ok (answers, r) ∧
      (∀ a b, ∃ mubs r', r.minimalUpperBounds a b = .ok (mubs, r') ∧ ∃ N o r'',
        (∀ fuel ≥ N, r.postdomUpperBound fuel a b = .ok (o, r'') ∧
          r.postdomUpperBound fuel b a = .ok (o, r'')) ∧
        (¬ Loses r' mubs.reverse → ∀ x, o = some x → ∀ e ∈ mubs, Below (addedEdges ops) e x)) ∧
      ∀ a, ∃ parents r', r.parents a = .ok (parents, r') ∧ ∃ N o r'',
        (∀ fuel ≥ N, r.postdomParent fuel a = .ok (o, r'')) ∧
        (¬ Loses r' parents.reverse → ∀ x, o = some x →
          ∀ e ∈ parents, Below (addedEdges ops) e x) := by
  obtain ⟨answers, r, hrun, h⟩ := represents_empty.session ops (by rwa [nil_append])
  refine ⟨answers, r, hrun, fun a b => ?_, fun a => ?_⟩
  · obtain ⟨mubs, r', hmubs, hr', -⟩ := h.lub a b
    obtain ⟨N, o, r'', -, hloop, habove⟩ := mutualLoop_spec _ r' mubs.reverse rfl hr'
    refine ⟨mubs, r', hmubs, N, o, r'', fun fuel hfuel => ⟨?_, ?_⟩, fun hkeeps x hx e he =>
      habove hkeeps x hx e (mem_reverse.2 he)⟩
    · rw [postdomUpperBound, hmubs]
      exact hloop fuel hfuel
    · rw [postdomUpperBound, minimalUpperBounds_comm, hmubs]
      exact hloop fuel hfuel
  · obtain ⟨parents, r', hparents, hr'⟩ := h.parents a
    obtain ⟨N, o, r'', -, hloop, habove⟩ := mutualLoop_spec _ r' parents.reverse rfl hr'
    refine ⟨parents, r', hparents, N, o, r'', fun fuel hfuel => ?_, fun hkeeps x hx e he =>
      habove hkeeps x hx e (mem_reverse.2 he)⟩
    rw [postdomParent, hparents]
    exact hloop fuel hfuel

/-- Two elements with one bound: nothing is lost. -/
theorem postdominator_above_pair :
    let ops : List (Op Nat) := [.add 1 3, .add 2 3]
    ∃ answers r mubs r', session ops empty = .ok (answers, r) ∧
      r.minimalUpperBounds 1 2 = .ok (mubs, r') ∧ ∃ N o r'',
        (∀ fuel ≥ N, r.postdomUpperBound fuel 1 2 = .ok (o, r'')) ∧
          ∀ x, o = some x → ∀ e ∈ mubs, Below (addedEdges ops) e x := by
  intro ops
  obtain ⟨answers, r, hrun, hpair, -⟩ := @postdominator_above Nat _ ops
    ⟨by decide, by decide⟩
  obtain ⟨mubs, r', hmubs, N, o, r'', hloop, habove⟩ := hpair 1 2
  have heval : (do
      let (_, r) ← session ops empty
      let (mubs, _) ← r.minimalUpperBounds 1 2
      .ok mubs : Outcome (List Nat)) = .ok [3] := by decide
  rw [hrun, ok_bind] at heval
  dsimp only at heval
  rw [hmubs] at heval
  cases heval
  exact ⟨answers, r, [3], r', hrun, hmubs, N, o, r'', fun fuel hfuel => (hloop fuel hfuel).1,
    habove nofun⟩

/-- The bounds of 1 and 2 are 3, 4 and 5; 4 and 5 are lost, as nothing is above both. -/
theorem postdominator_loses_two :
    let ops : List (Op Nat) := [.add 1 3, .add 1 4, .add 1 5, .add 2 3, .add 2 4, .add 2 5]
    (do
      let (_, r) ← session ops empty
      let (mubs, r) ← r.minimalUpperBounds 1 2
      let (x, _) ← r.postdomUpperBound 9 1 2
      .ok (mubs, x) : Outcome (List Nat × Option Nat)) = .ok ([3, 4, 5], some 3) ∧
      ¬ Below (addedEdges ops) 4 3 := by
  refine ⟨by decide, ?_⟩
  rintro (heq | hpath)
  · cases heq
  · obtain ⟨c, hedge, -⟩ := Relation.TransGen.head'_iff.1 hpath
    simp [addedEdges] at hedge

end TransitiveRelation

end Tortis
