import Tortis.DataStructures.TransitiveRelation

/-!
# The answers of a transitive relation

`Represents` is the invariant of the states that the added edges of a `TransitiveRelation` lead to;
that a cached closure is the closure of the edges is part of it. In these states every query answers
from the paths along the added edges, and a relation that is encoded and decoded has lost its cache
alone, so it gives the same answers from there on (`session_answers`).
-/

namespace Tortis

open Outcome List Serialize Relation.TransGen FxHashMap Relation

open Index (BitMatrix)
open Serialize (Codec Encoder Decoder encodeVec decodeVec encodeUsize decodeUsize Reads)

namespace TransitiveRelation

variable {T : Type} [DecidableEq T]

/-! ## The states that the added edges lead to -/

/-- The elements of the edges, as they are added. -/
def mentions (added : List (T × T)) : List T := added.flatMap fun e => [e.1, e.2]

/-- There is a path of one or more edges from one element to another. -/
abbrev Path (added : List (T × T)) (a b : T) : Prop :=
  TransGen (fun x y => (x, y) ∈ added) a b

/-- The elements have the indices in which they were first mentioned. -/
structure Indexed (r : TransitiveRelation T) (ms : List T) : Prop where
  mem_iff : ∀ x, x ∈ r.elements ↔ x ∈ ms
  sorted : r.elements.Pairwise fun x y => ms.idxOf x < ms.idxOf y
  map : r.map = indexMap r.elements

/-- The state of a relation to which the edges of a list have been added. -/
structure Represents (r : TransitiveRelation T) (added : List (T × T)) : Prop where
  indexed : r.Indexed (mentions added)
  edge_iff : ∀ a b, (a, b) ∈ added ↔
    ∃ edge ∈ r.edges, r.elements[edge.source]? = some a ∧ r.elements[edge.target]? = some b
  bounds : ∀ edge ∈ r.edges, edge.source < r.elements.length ∧ edge.target < r.elements.length
  nodup : r.edges.Nodup
  cached : ∀ matrix, r.closure = some matrix → r.computeClosure = .ok matrix

section
variable {r : TransitiveRelation T} {ms : List T} {added : List (T × T)} {a b : T} {i j : Nat}

omit [DecidableEq T] in
theorem mentions_concat (added : List (T × T)) (a b : T) :
    mentions (added ++ [(a, b)]) = mentions added ++ [a] ++ [b] := by
  rw [mentions, flatMap_append, append_assoc]
  rfl

theorem get_indexMap : ∀ {elements : List T} {map : FxHashMap T Nat} {k : Nat}, elements.Nodup →
    ∀ a, FxHashMap.get ((elements.zipIdx k).foldl (fun map e => AList.insert e.1 e.2 map) map) a =
      if a ∈ elements then some (k + elements.idxOf a) else map.get a
  | [], _, _, _, a => by simp
  | x :: elements, map, k, hnodup, a => by
    obtain ⟨hx, hnodup⟩ := nodup_cons.1 hnodup
    rw [zipIdx_cons, foldl_cons, get_indexMap hnodup, get_insert]
    by_cases hax : a = x
    · subst hax
      rw [if_neg hx, if_pos rfl, if_pos mem_cons_self, idxOf_cons_self, add_zero]
    · rw [if_neg hax, idxOf_cons_ne _ (Ne.symm hax)]
      refine if_congr (mem_cons.trans (or_iff_right hax)).symm (congrArg some ?_) rfl
      omega

section
variable (h : r.Indexed ms)
include h

theorem Indexed.nodup : r.elements.Nodup :=
  h.sorted.imp fun {x y} hlt (heq : x = y) => lt_irrefl _ (heq ▸ hlt)

theorem Indexed.index_eq (a : T) :
    r.index a = if a ∈ ms then some (r.elements.idxOf a) else none := by
  rw [index, h.map, indexMap, get_indexMap h.nodup, get_empty, zero_add]
  exact if_congr (h.mem_iff a) rfl rfl

theorem Indexed.index_eq_some : r.index a = some i ↔ r.elements[i]? = some a := by
  rw [h.index_eq]
  constructor
  · intro heq
    split at heq
    · next hmem =>
      cases heq
      exact getElem?_idxOf ((h.mem_iff a).2 hmem)
    · cases heq
  · intro hget
    obtain ⟨hlt, rfl⟩ := List.getElem?_eq_some_iff.1 hget
    rw [if_pos ((h.mem_iff _).1 (getElem_mem hlt)), h.nodup.idxOf_getElem]

theorem Indexed.index_lt (ha : r.index a = some i) : i < r.elements.length :=
  (List.getElem?_eq_some_iff.1 (h.index_eq_some.1 ha)).1

theorem Indexed.index_inj (hi : r.elements[i]? = some a)
    (hj : r.elements[j]? = some a) : i = j := by
  have hi := h.index_eq_some.2 hi
  rw [h.index_eq_some.2 hj] at hi
  exact (Option.some.inj hi).symm

end

theorem Indexed.addIndex (h : r.Indexed ms) (a : T) :
    ∃ i r', r.addIndex a = (i, r') ∧ r'.Indexed (ms ++ [a]) ∧ r'.elements[i]? = some a ∧
      r.elements <+: r'.elements ∧ r'.edges = r.edges ∧ (r' = r ∨ r'.closure = none) := by
  rw [TransitiveRelation.addIndex]
  cases hindex : r.map.get a with
  | some i =>
    have hget := h.index_eq_some.1 hindex
    have hmem : a ∈ ms := (h.mem_iff a).1 (mem_of_getElem? hget)
    refine ⟨i, r, rfl, ⟨fun x => ?_, ?_, h.map⟩, hget, prefix_rfl, rfl, .inl rfl⟩
    · rw [h.mem_iff, mem_append, mem_singleton]
      exact ⟨.inl, fun hx => hx.elim id fun heq => heq ▸ hmem⟩
    · refine h.sorted.imp_of_mem fun {x y} hx hy hlt => ?_
      rwa [idxOf_append_of_mem ((h.mem_iff x).1 hx), idxOf_append_of_mem ((h.mem_iff y).1 hy)]
  | none =>
    have hmem : a ∉ ms := by
      intro hmem
      have := h.index_eq a
      rw [if_pos hmem, TransitiveRelation.index, hindex] at this
      cases this
    have hlen : (r.elements ++ [a]).length - 1 = r.elements.length := by
      rw [length_append, length_singleton, Nat.add_sub_cancel]
    dsimp only
    rw [hlen]
    refine ⟨r.elements.length, _, rfl, ⟨fun x => ?_, ?_, ?_⟩, by simp, prefix_append _ _, rfl,
      .inr rfl⟩
    · rw [mem_append, mem_append, h.mem_iff]
    · refine pairwise_append.2 ⟨?_, pairwise_singleton _ _, fun x hx y hy => ?_⟩
      · refine h.sorted.imp_of_mem fun {x y} hx hy hlt => ?_
        rwa [idxOf_append_of_mem ((h.mem_iff x).1 hx), idxOf_append_of_mem ((h.mem_iff y).1 hy)]
      · obtain rfl := mem_singleton.1 hy
        have hx := (h.mem_iff x).1 hx
        rw [idxOf_append_of_mem hx, idxOf_append_of_notMem hmem]
        exact Nat.lt_add_right _ (idxOf_lt_length_iff.2 hx)
    · rw [indexMap, zipIdx_append, foldl_append, zero_add, ← indexMap, ← h.map]
      rfl

theorem represents_empty : (empty : TransitiveRelation T).Represents [] where
  indexed := ⟨fun _ => Iff.rfl, .nil, rfl⟩
  edge_iff _ _ := by simp [empty]
  bounds _ h := nomatch h
  nodup := .nil
  cached _ h := nomatch h

omit [DecidableEq T] in
theorem getElem?_of_prefix {l l' : List T} (h : l <+: l') (hi : l[i]? = some a) :
    l'[i]? = some a := by
  obtain ⟨rest, rfl⟩ := h
  rwa [List.getElem?_append_left (List.getElem?_eq_some_iff.1 hi).1]

section
variable (h : r.Represents added)
include h

theorem Represents.add (a b : T) : (r.add a b).Represents (added ++ [(a, b)]) := by
  obtain ⟨i, r1, hrun1, h1, hi, hpre1, hedges1, hcache1⟩ := h.indexed.addIndex a
  obtain ⟨j, r2, hrun2, h2, hj, hpre2, hedges2, hcache2⟩ := h1.addIndex b
  have hpre := hpre1.trans hpre2
  have hi := getElem?_of_prefix hpre2 hi
  have hedges : r2.edges = r.edges := hedges2.trans hedges1
  rw [← mentions_concat] at h2
  have hbounds : ∀ edge ∈ r.edges,
      edge.source < r2.elements.length ∧ edge.target < r2.elements.length := fun edge hedge =>
    ⟨(h.bounds edge hedge).1.trans_le hpre.length_le, (h.bounds edge hedge).2.trans_le hpre.length_le⟩
  -- The edges between the indices of the old elements are the old edges.
  have hold : ∀ x y, (∃ edge ∈ r.edges, r2.elements[edge.source]? = some x ∧
      r2.elements[edge.target]? = some y) ↔ (x, y) ∈ added := by
    intro x y
    rw [h.edge_iff]
    refine exists_congr fun edge => and_congr_right fun hedge => ?_
    obtain ⟨hs, ht⟩ := h.bounds edge hedge
    obtain ⟨rest, hrest⟩ := hpre
    rw [← hrest, getElem?_append_left hs, getElem?_append_left ht]
  rw [TransitiveRelation.add, hrun1]
  dsimp only
  rw [hrun2]
  have hnew : (⟨i, j⟩ : Edge) ∈ r.edges → (a, b) ∈ added := fun hin =>
    (hold a b).1 ⟨_, hin, hi, hj⟩
  rw [hedges]
  split
  · next hin =>
    refine ⟨h2, fun x y => ?_, hedges ▸ hbounds, hedges ▸ h.nodup, fun matrix hmatrix => ?_⟩
    · rw [hedges, hold, mem_append, mem_singleton]
      exact ⟨fun hxy => hxy.elim id fun heq => heq ▸ hnew hin, .inl⟩
    · rcases hcache2 with rfl | hnone
      · rcases hcache1 with rfl | hnone
        · exact h.cached matrix hmatrix
        · rw [hnone] at hmatrix
          cases hmatrix
      · rw [hnone] at hmatrix
        cases hmatrix
  · next hout =>
    refine ⟨⟨h2.mem_iff, h2.sorted, h2.map⟩, fun x y => ?_, fun edge hedge => ?_, ?_, nofun⟩
    · rw [mem_append, mem_singleton, ← hold]
      constructor
      · rintro (⟨edge, hedge, hxy⟩ | heq)
        · exact ⟨edge, mem_append_left _ hedge, hxy⟩
        · cases heq
          exact ⟨_, mem_append_right _ (mem_singleton_self _), hi, hj⟩
      · rintro ⟨edge, hedge, hx, hy⟩
        rcases mem_append.1 hedge with hedge | hedge
        · exact .inl ⟨edge, hedge, hx, hy⟩
        · obtain rfl := mem_singleton.1 hedge
          rw [hi] at hx
          rw [hj] at hy
          cases hx
          cases hy
          exact .inr rfl
    · rcases mem_append.1 hedge with hedge | hedge
      · exact hbounds edge hedge
      · obtain rfl := mem_singleton.1 hedge
        exact ⟨(List.getElem?_eq_some_iff.1 hi).1, (List.getElem?_eq_some_iff.1 hj).1⟩
    · exact nodup_append.2 ⟨h.nodup, nodup_singleton _, fun x hx y hy heq =>
        hout (mem_singleton.1 hy ▸ heq ▸ hx)⟩

/-! ## What the queries answer -/

theorem Represents.path_iff (hi : r.elements[i]? = some a)
    (hj : r.elements[j]? = some b) : TransGen (Step r.edges) i j ↔ Path added a b := by
  constructor
  · intro hpath
    induction hpath generalizing b with
    | single hstep => exact .single ((h.edge_iff _ _).2 ⟨_, hstep, hi, hj⟩)
    | tail _ hstep ih =>
      have hget := getElem?_eq_getElem (h.bounds _ hstep).1
      exact .tail (ih hget) ((h.edge_iff _ _).2 ⟨_, hstep, hget, hj⟩)
  · intro hpath
    induction hpath generalizing j with
    | single hedge =>
      obtain ⟨edge, hmem, hs, ht⟩ := (h.edge_iff _ _).1 hedge
      obtain rfl := h.indexed.index_inj hi hs
      obtain rfl := h.indexed.index_inj hj ht
      exact .single hmem
    | tail _ hedge ih =>
      obtain ⟨edge, hmem, hs, ht⟩ := (h.edge_iff _ _).1 hedge
      obtain rfl := h.indexed.index_inj hj ht
      exact .tail (ih hs) hmem

theorem Represents.index_of_path (hpath : Path added a b) :
    ∃ i j : Nat, r.elements[i]? = some a ∧ r.elements[j]? = some b := by
  obtain ⟨c, hedge, -⟩ := head'_iff.1 hpath
  obtain ⟨d, -, hedge'⟩ := tail'_iff.1 hpath
  obtain ⟨edge, -, hs, -⟩ := (h.edge_iff _ _).1 hedge
  obtain ⟨edge', -, -, ht⟩ := (h.edge_iff _ _).1 hedge'
  exact ⟨_, _, hs, ht⟩

theorem Represents.withClosure : ∃ matrix S, matrix.Holds r.elements.length r.elements.length S ∧
      (∀ i j, (i, j) ∈ S ↔ TransGen (Step r.edges) i j) ∧
      Represents { r with closure := some matrix } added ∧
      ∀ (β : Type) (op : BitMatrix → Outcome β), r.withClosure op =
        op matrix >>= fun result => .ok (result, { r with closure := some matrix }) := by
  obtain ⟨matrix, S, hrun, hm, hS⟩ := computeClosure_spec h.bounds
  refine ⟨matrix, S, hm, hS, ⟨⟨h.indexed.mem_iff, h.indexed.sorted, h.indexed.map⟩, h.edge_iff,
    h.bounds, h.nodup, fun m heq => ?_⟩, fun β op => ?_⟩
  · cases heq
    exact hrun
  · rw [TransitiveRelation.withClosure]
    cases hclosure : r.closure with
    | none =>
      rw [hrun]
      rfl
    | some closure =>
      obtain rfl := Except.ok.inj ((h.cached closure hclosure).symm.trans hrun)
      rfl

theorem Represents.contains (a b : T) :
    ∃ v r', r.contains a b = .ok (v, r') ∧ (v = true ↔ Path added a b) ∧ r'.Represents added := by
  have hmissing : ¬ (∃ i j, r.index a = some i ∧ r.index b = some j) → ¬ Path added a b := by
    intro hnone hpath
    obtain ⟨i, j, hi, hj⟩ := h.index_of_path hpath
    exact hnone ⟨i, j, h.indexed.index_eq_some.2 hi, h.indexed.index_eq_some.2 hj⟩
  rw [TransitiveRelation.contains]
  split
  · next i j hi hj =>
    obtain ⟨matrix, S, hm, hS, hr, hrun⟩ := h.withClosure
    have hiff := h.path_iff (h.indexed.index_eq_some.1 hi) (h.indexed.index_eq_some.1 hj)
    refine ⟨decide ((i, j) ∈ S), _, ?_, ?_, hr⟩
    · rw [hrun, hm.contains (h.indexed.index_lt hi) (h.indexed.index_lt hj)]
      rfl
    · rw [decide_eq_true_iff, hS, hiff]
  · next hnone =>
    refine ⟨false, r, rfl, iff_of_false Bool.false_ne_true (hmissing ?_), h⟩
    rintro ⟨i, j, hi, hj⟩
    exact hnone i j hi hj

end

variable {l : List Nat}

omit [DecidableEq T] in
theorem mapM_element (hl : ∀ i ∈ l, i < r.elements.length) :
    l.mapM r.element = .ok (l.filterMap (r.elements[·]?)) := by
  induction l with
  | nil => rfl
  | cons i l ih =>
    have hget := getElem?_eq_getElem (hl i mem_cons_self)
    rw [mapM_cons, element, hget, expect_some, ok_bind,
      ih fun j hj => hl j (mem_cons_of_mem _ hj), filterMap_cons_some hget]
    rfl

theorem Represents.nodup_elements (h : r.Represents added) (hl : l.Nodup) :
    (l.filterMap (r.elements[·]?)).Nodup :=
  hl.filterMap fun _ _ _ hi hj => h.indexed.index_inj hi hj

theorem Represents.mem_elements (h : r.Represents added)
    (hi : r.elements[i]? = some a) : a ∈ l.filterMap (r.elements[·]?) ↔ i ∈ l := by
  rw [mem_filterMap]
  exact ⟨fun ⟨j, hj, hget⟩ => h.indexed.index_inj hget hi ▸ hj, fun hmem => ⟨i, hmem, hi⟩⟩

theorem Represents.reachableFrom (h : r.Represents added) (hlen : r.elements.length < 2 ^ 64)
    (a : T) : ∃ l r', r.reachableFrom a = .ok (l, r') ∧ l.Nodup ∧ (∀ b, b ∈ l ↔ Path added a b) ∧
      r'.Represents added := by
  rw [TransitiveRelation.reachableFrom]
  split
  · next i hi =>
    obtain ⟨matrix, S, hm, hS, hr, hrun⟩ := h.withClosure
    obtain ⟨l, hl, hsorted, hmem⟩ := hm.iter (h.indexed.index_lt hi) hlen
    have hlt : ∀ j ∈ l, j < r.elements.length := fun j hj => (hm.lt _ ((hmem j).1 hj)).2
    refine ⟨_, _, ?_, h.nodup_elements (hsorted.imp ne_of_lt), fun b => ?_, hr⟩
    · rw [hrun, hl, ok_bind, mapM_element hlt]
      rfl
    · have hi := h.indexed.index_eq_some.1 hi
      constructor
      · intro hb
        obtain ⟨j, hj, hget⟩ := mem_filterMap.1 hb
        exact (h.path_iff hi hget).1 ((hS _ _).1 ((hmem j).1 hj))
      · intro hpath
        obtain ⟨-, j, -, hget⟩ := h.index_of_path hpath
        exact (h.mem_elements hget).2 ((hmem j).2 ((hS _ _).2 ((h.path_iff hi hget).2 hpath)))
  · next hnone =>
    refine ⟨[], r, rfl, .nil, fun b => iff_of_false (not_mem_nil) fun hpath => ?_, h⟩
    obtain ⟨i, -, hi, -⟩ := h.index_of_path hpath
    rw [h.indexed.index_eq_some.2 hi] at hnone
    cases hnone

theorem minimalUpperBounds_comm (r : TransitiveRelation T) (a b : T) :
    r.minimalUpperBounds a b = r.minimalUpperBounds b a := by
  rw [minimalUpperBounds, minimalUpperBounds]
  cases hi : r.index a with
  | none => cases r.index b <;> rfl
  | some i =>
    cases r.index b with
    | none => rfl
    | some j =>
      dsimp only
      rcases lt_trichotomy i j with hlt | rfl | hgt
      · rw [if_neg (Nat.not_lt_of_gt hlt), if_pos hlt]
      · rfl
      · rw [if_pos hgt, if_neg (Nat.not_lt_of_gt hgt)]

/-- An element with paths from two others. -/
def UpperBound (added : List (T × T)) (a b x : T) : Prop := Path added a x ∧ Path added b x

/-- Two elements are the same or have paths to each other. -/
def Connected (added : List (T × T)) (x y : T) : Prop := x = y ∨ Path added x y ∧ Path added y x

/-- The element of a class of upper bounds that was added first, when no upper bound outside the
class has a path to it. -/
structure Minimal (added : List (T × T)) (a b x : T) : Prop where
  upper : UpperBound added a b x
  minimal : ∀ y, UpperBound added a b y → Path added y x → Connected added y x
  first : ∀ y, UpperBound added a b y → Connected added y x →
    (mentions added).idxOf x ≤ (mentions added).idxOf y

theorem Represents.le_iff (h : r.Represents added) (hi : r.elements[i]? = some a)
    (hj : r.elements[j]? = some b) :
    (mentions added).idxOf a ≤ (mentions added).idxOf b ↔ i ≤ j := by
  obtain ⟨hilt, rfl⟩ := List.getElem?_eq_some_iff.1 hi
  obtain ⟨hjlt, rfl⟩ := List.getElem?_eq_some_iff.1 hj
  have hsorted := pairwise_iff_getElem.1 h.indexed.sorted
  rcases lt_trichotomy i j with hlt | rfl | hgt
  · exact iff_of_true (hsorted i j hilt hjlt hlt).le hlt.le
  · exact iff_of_true le_rfl le_rfl
  · exact iff_of_false (hsorted j i hjlt hilt hgt).not_ge hgt.not_ge

/-- The same of indices and the cells of the closure. -/
structure MinimalIndex (S : Finset (Nat × Nat)) (i j k : Nat) : Prop where
  upper : (i, k) ∈ S ∧ (j, k) ∈ S
  minimal : ∀ x, (i, x) ∈ S ∧ (j, x) ∈ S → (x, k) ∈ S → SameClass (cellTest S) x k
  first : ∀ x, (i, x) ∈ S ∧ (j, x) ∈ S → SameClass (cellTest S) x k → k ≤ x

variable {S : Finset (Nat × Nat)}

theorem lubIndices_spec {matrix : BitMatrix} {n : Nat}
    (hm : matrix.Holds n n S) (htrans : ∀ i j k, (i, j) ∈ S → (j, k) ∈ S → (i, k) ∈ S)
    (hi : i < n) (hj : j < n) : ∃ l, lubIndices i j matrix = .ok l ∧ (∀ k ∈ l, k < n) ∧
      ((i, j) ∉ S → (j, i) ∉ S → l.Nodup ∧ ∀ k, k ∈ l ↔ MinimalIndex S i j k) := by
  rw [lubIndices, hm.contains hi hj, ok_bind]
  by_cases hij : (i, j) ∈ S
  · rw [decide_eq_true hij, if_pos rfl]
    exact ⟨[j], rfl, by simpa using hj, fun hnot => absurd hij hnot⟩
  rw [decide_eq_false hij, if_neg Bool.false_ne_true, hm.contains hj hi, ok_bind]
  by_cases hji : (j, i) ∈ S
  · rw [decide_eq_true hji, if_pos rfl]
    exact ⟨[i], rfl, by simpa using hi, fun _ hnot => absurd hji hnot⟩
  obtain ⟨l, hl, hsorted, hmem⟩ := hm.intersectRows hi hj
  have hlt : ∀ k ∈ l, k < n := fun k hk => (hm.lt _ ((hmem k).1 hk).1).2
  have hsub := pare_sublist (cellTest S) l
  have hlt' : ∀ k ∈ (pare (cellTest S) l).reverse, k < n := fun k hk =>
    hlt k (hsub.mem (mem_reverse.1 hk))
  have hsub' := pare_sublist (cellTest S) (pare (cellTest S) l).reverse
  have hR : ∀ x y z, cellTest S x y = true → cellTest S y z = true → cellTest S x z = true := by
    simpa only [cellTest, decide_eq_true_eq] using htrans
  refine ⟨pare (cellTest S) (pare (cellTest S) l).reverse, ?_, fun k hk => hlt' k (hsub'.mem hk),
    fun _ _ => ⟨?_, fun k => ?_⟩⟩
  · rw [decide_eq_false hji, if_neg Bool.false_ne_true, hl, ok_bind, pareDown_eq hm hlt,
      ok_bind, pareDown_eq hm hlt']
  · have hnodup : l.Nodup := hsorted.imp ne_of_lt
    exact (nodup_reverse.2 (hnodup.sublist hsub)).sublist hsub'
  · rw [mem_pare_reverse hR hsorted]
    simp only [hmem, cellTest, decide_eq_true_eq]
    exact ⟨fun h => ⟨h.1, h.2.1, h.2.2⟩, fun h => ⟨h.upper, h.minimal, h.first⟩⟩

theorem Represents.minimal_iff (h : r.Represents added)
    (hS : ∀ i j, (i, j) ∈ S ↔ TransGen (Step r.edges) i j)
    (hlt : ∀ p ∈ S, p.1 < r.elements.length ∧ p.2 < r.elements.length)
    (hi : r.elements[i]? = some a) (hj : r.elements[j]? = some b) {k : Nat} {x : T}
    (hk : r.elements[k]? = some x) : MinimalIndex S i j k ↔ Minimal added a b x := by
  have hcell : ∀ {i j : Nat} {a b : T}, r.elements[i]? = some a → r.elements[j]? = some b →
      ((i, j) ∈ S ↔ Path added a b) := fun hi hj => (hS _ _).trans (h.path_iff hi hj)
  have hup : ∀ {m : Nat} {y : T}, r.elements[m]? = some y →
      ((i, m) ∈ S ∧ (j, m) ∈ S ↔ UpperBound added a b y) := fun hm =>
    and_congr (hcell hi hm) (hcell hj hm)
  have hclass : ∀ {m : Nat} {y : T}, r.elements[m]? = some y →
      (SameClass (cellTest S) m k ↔ Connected added y x) := by
    intro m y hm
    rw [SameClass, Connected, cellTest, cellTest, decide_eq_true_iff, decide_eq_true_iff,
      hcell hm hk, hcell hk hm]
    refine or_congr_left ⟨?_, ?_⟩
    · rintro rfl
      exact Option.mem_unique hm hk
    · rintro rfl
      exact h.indexed.index_inj hm hk
  -- The elements and the indices of the upper bounds.
  have hindex : ∀ y, UpperBound added a b y → ∃ m : Nat, r.elements[m]? = some y := fun y hy => by
    obtain ⟨-, m, -, hm⟩ := h.index_of_path hy.1
    exact ⟨m, hm⟩
  have helement : ∀ m, (i, m) ∈ S ∧ (j, m) ∈ S → ∃ y, r.elements[m]? = some y := fun m hm =>
    ⟨_, getElem?_eq_getElem (hlt _ hm.1).2⟩
  constructor
  · rintro ⟨hupper, hminimal, hfirst⟩
    refine ⟨(hup hk).1 hupper, fun y hy hyx => ?_, fun y hy hyx => ?_⟩
    all_goals obtain ⟨m, hm⟩ := hindex y hy
    · exact (hclass hm).1 (hminimal m ((hup hm).2 hy) ((hcell hm hk).2 hyx))
    · exact (h.le_iff hk hm).2 (hfirst m ((hup hm).2 hy) ((hclass hm).2 hyx))
  · rintro ⟨hupper, hminimal, hfirst⟩
    refine ⟨(hup hk).2 hupper, fun m hm hmk => ?_, fun m hm hmk => ?_⟩
    all_goals obtain ⟨y, hy⟩ := helement m hm
    · exact (hclass hy).2 (hminimal y ((hup hy).1 hm) ((hcell hy hk).1 hmk))
    · exact (h.le_iff hk hy).1 (hfirst y ((hup hy).1 hm) ((hclass hy).1 hmk))

theorem Minimal.symm {x : T} (h : Minimal added a b x) : Minimal added b a x where
  upper := h.upper.symm
  minimal y hy := h.minimal y hy.symm
  first y hy := h.first y hy.symm

def AnswersMinimal (r : TransitiveRelation T) (added : List (T × T)) (a b : T) : Prop :=
  ∃ l r', r.minimalUpperBounds a b = .ok (l, r') ∧ r'.Represents added ∧
    (¬ Path added a b → ¬ Path added b a → l.Nodup ∧ ∀ x, x ∈ l ↔ Minimal added a b x)

theorem AnswersMinimal.symm (h : AnswersMinimal r added a b) : AnswersMinimal r added b a := by
  obtain ⟨l, r', hrun, hr, hl⟩ := h
  refine ⟨l, r', minimalUpperBounds_comm r b a ▸ hrun, hr, fun hba hab => ?_⟩
  obtain ⟨hnodup, hmem⟩ := hl hab hba
  exact ⟨hnodup, fun x => (hmem x).trans ⟨Minimal.symm, Minimal.symm⟩⟩

theorem Represents.answersMinimal_of_le (h : r.Represents added) (hi : r.index a = some i)
    (hj : r.index b = some j) (hle : i ≤ j) : AnswersMinimal r added a b := by
  obtain ⟨matrix, S, hm, hS, hr, hrun⟩ := h.withClosure
  have hia := h.indexed.index_eq_some.1 hi
  have hjb := h.indexed.index_eq_some.1 hj
  obtain ⟨l, hl, hlt, hspec⟩ := lubIndices_spec hm
    (fun i j k hij hjk => (hS _ _).2 (((hS _ _).1 hij).trans ((hS _ _).1 hjk)))
    (h.indexed.index_lt hi) (h.indexed.index_lt hj)
  refine ⟨l.reverse.filterMap (r.elements[·]?), _, ?_, hr, fun hab hba => ?_⟩
  · have hmap := mapM_element (r := { r with closure := some matrix }) (l := l.reverse)
      fun k hk => hlt k (mem_reverse.1 hk)
    rw [minimalUpperBounds, hi, hj]
    dsimp only
    rw [if_neg (Nat.not_lt.2 hle), hrun, hl, ok_bind, ok_bind]
    rw [hmap, ok_bind]
  · rw [← h.path_iff hia hjb, ← hS] at hab
    rw [← h.path_iff hjb hia, ← hS] at hba
    obtain ⟨hnodup, hmem⟩ := hspec hab hba
    refine ⟨h.nodup_elements (nodup_reverse.2 hnodup), fun x => ⟨fun hx => ?_, fun hx => ?_⟩⟩
    · obtain ⟨k, hk, hget⟩ := mem_filterMap.1 hx
      exact (h.minimal_iff hS hm.lt hia hjb hget).1 ((hmem k).1 (mem_reverse.1 hk))
    · obtain ⟨-, k, -, hget⟩ := h.index_of_path hx.upper.1
      refine (h.mem_elements hget).2 (mem_reverse.2 ((hmem k).2 ?_))
      exact (h.minimal_iff hS hm.lt hia hjb hget).2 hx

/-- `minimal_upper_bounds` lists the minimal upper bounds of two elements of which none has a path
to the other. -/
theorem Represents.minimalUpperBounds (h : r.Represents added) (a b : T) :
    AnswersMinimal r added a b := by
  have hmissing : r.index a = none ∨ r.index b = none → ∀ x, ¬ Minimal added a b x := by
    intro hnone x hx
    obtain ⟨i, -, hi, -⟩ := h.index_of_path hx.upper.1
    obtain ⟨j, -, hj, -⟩ := h.index_of_path hx.upper.2
    rw [h.indexed.index_eq_some.2 hi, h.indexed.index_eq_some.2 hj] at hnone
    rcases hnone with hnone | hnone <;> cases hnone
  have hempty : r.minimalUpperBounds a b = .ok ([], r) → r.index a = none ∨ r.index b = none →
      AnswersMinimal r added a b := fun hrun hnone =>
    ⟨[], r, hrun, h, fun _ _ => ⟨.nil, fun x =>
      iff_of_false (not_mem_nil) (hmissing hnone x)⟩⟩
  cases hi : r.index a with
  | none => exact hempty (by rw [TransitiveRelation.minimalUpperBounds, hi]) (.inl hi)
  | some i =>
    cases hj : r.index b with
    | none => exact hempty (by rw [TransitiveRelation.minimalUpperBounds, hi, hj]) (.inr hj)
    | some j =>
      rcases le_total i j with hle | hle
      · exact h.answersMinimal_of_le hi hj hle
      · exact (h.answersMinimal_of_le hj hi hle).symm

/-! ## Sessions and their encoding -/

/-- The numbers of elements and of edges are `usize`s. -/
def Fits (added : List (T × T)) : Prop :=
  (mentions added).toFinset.card < 2 ^ 64 ∧ added.toFinset.card < 2 ^ 64

theorem Fits.of_isPrefix {added more : List (T × T)} (h : Fits (added ++ more)) : Fits added := by
  refine ⟨(Finset.card_le_card fun x hx => ?_).trans_lt h.1,
    (Finset.card_le_card fun e he => ?_).trans_lt h.2⟩
  · rw [mem_toFinset] at hx ⊢
    rw [mentions, flatMap_append]
    exact mem_append_left _ hx
  · rw [mem_toFinset] at he ⊢
    exact mem_append_left _ he

theorem Represents.length_elements (h : r.Represents added) :
    r.elements.length = (mentions added).toFinset.card := by
  rw [← toFinset_card_of_nodup h.indexed.nodup]
  refine congrArg Finset.card (Finset.ext fun x => ?_)
  rw [mem_toFinset, mem_toFinset, h.indexed.mem_iff]

/-- The elements of an edge. -/
def ends (r : TransitiveRelation T) (edge : Edge) : Option T × Option T :=
  (r.elements[edge.source]?, r.elements[edge.target]?)

theorem Represents.length_edges (h : r.Represents added) :
    r.edges.length ≤ added.toFinset.card := by
  have hnodup : (r.edges.map r.ends).Nodup := by
    refine h.nodup.map_on fun edge he edge' he' heq => ?_
    obtain ⟨hs, ht⟩ := Prod.mk.inj heq
    have hget := getElem?_eq_getElem (h.bounds edge he).1
    have hget' := getElem?_eq_getElem (h.bounds edge he).2
    have hsource := h.indexed.index_inj hget (hs ▸ hget)
    have htarget := h.indexed.index_inj hget' (ht ▸ hget')
    cases edge
    cases edge'
    rw [Edge.mk.injEq]
    exact ⟨hsource, htarget⟩
  have hsub : (r.edges.map r.ends).toFinset ⊆
      added.toFinset.image fun e => (some e.1, some e.2) := by
    intro p hp
    obtain ⟨edge, he, rfl⟩ := mem_map.1 (mem_toFinset.1 hp)
    have hs := getElem?_eq_getElem (h.bounds edge he).1
    have ht := getElem?_eq_getElem (h.bounds edge he).2
    refine Finset.mem_image.2 ⟨_, mem_toFinset.2 ((h.edge_iff _ _).2 ⟨edge, he, hs, ht⟩), ?_⟩
    rw [ends, hs, ht]
  have hcard := (Finset.card_le_card hsub).trans Finset.card_image_le
  rwa [toFinset_card_of_nodup hnodup, length_map] at hcard

omit [DecidableEq T] in
theorem addedEdges_query {op : Op T} (hop : ∀ a b, op ≠ .add a b) :
    added ++ addedEdges [op] = added := by
  cases op with
  | add a b => exact absurd rfl (hop a b)
  | contains a b | reachableFrom a | minimalUpperBounds a b => exact append_nil _

theorem Represents.apply (h : r.Represents added) (op : Op T) (hfits : Fits added) :
    ∃ answer r', op.apply r = .ok (answer, r') ∧ r'.Represents (added ++ addedEdges [op]) := by
  cases op with
  | add a b => exact ⟨_, _, rfl, h.add a b⟩
  | contains a b =>
    obtain ⟨v, r', hrun, -, hr⟩ := h.contains a b
    refine ⟨.bool v, r', ?_, by rwa [addedEdges_query nofun]⟩
    rw [Op.apply, hrun]
    rfl
  | reachableFrom a =>
    obtain ⟨l, r', hrun, -, -, hr⟩ := h.reachableFrom (h.length_elements ▸ hfits.1) a
    refine ⟨.elements l, r', ?_, by rwa [addedEdges_query nofun]⟩
    rw [Op.apply, hrun]
    rfl
  | minimalUpperBounds a b =>
    obtain ⟨l, r', hrun, hr, -⟩ := h.minimalUpperBounds a b
    refine ⟨.elements l, r', ?_, by rwa [addedEdges_query nofun]⟩
    rw [Op.apply, hrun]
    rfl

omit [DecidableEq T] in
theorem addedEdges_cons (op : Op T) (ops : List (Op T)) :
    addedEdges (op :: ops) = addedEdges [op] ++ addedEdges ops := by
  cases op <;> rfl

theorem Represents.session : ∀ (ops : List (Op T)) {r : TransitiveRelation T} {added : List (T × T)},
    r.Represents added → Fits (added ++ addedEdges ops) →
      ∃ answers r', session ops r = .ok (answers, r') ∧ r'.Represents (added ++ addedEdges ops)
  | [], r, added, h, _ => ⟨[], r, rfl, by rwa [addedEdges, append_nil]⟩
  | op :: ops, r, added, h, hfits => by
    obtain ⟨answer, r1, hrun1, h1⟩ := h.apply op hfits.of_isPrefix
    rw [addedEdges_cons, ← append_assoc] at hfits ⊢
    obtain ⟨answers, r2, hrun2, h2⟩ := Represents.session ops h1 hfits
    refine ⟨answer :: answers, r2, ?_, h2⟩
    rw [TransitiveRelation.session, hrun1, ok_bind]
    dsimp only
    rw [hrun2]
    rfl

/-- A relation without its cache. -/
def uncached (r : TransitiveRelation T) : TransitiveRelation T := { r with closure := none }

theorem Represents.uncached (h : r.Represents added) : r.uncached.Represents added :=
  ⟨⟨h.indexed.mem_iff, h.indexed.sorted, h.indexed.map⟩, h.edge_iff, h.bounds, h.nodup, nofun⟩

variable {β : Type}

theorem Represents.withClosure_uncached (h : r.Represents added)
    (op : BitMatrix → Outcome β) : r.uncached.withClosure op = r.withClosure op := by
  rw [TransitiveRelation.withClosure, TransitiveRelation.withClosure]
  cases hclosure : r.closure with
  | none => rw [TransitiveRelation.uncached, ← hclosure]
  | some closure =>
    have hrun : r.uncached.computeClosure = .ok closure := h.cached closure hclosure
    dsimp only [TransitiveRelation.uncached] at hrun ⊢
    rw [hrun, ok_bind]

variable {r r' : TransitiveRelation T}

theorem addIndex_uncached (h : r.uncached = r'.uncached) (a : T) :
    (r.addIndex a).1 = (r'.addIndex a).1 ∧
      (r.addIndex a).2.uncached = (r'.addIndex a).2.uncached := by
  obtain ⟨elements, map, edges, closure⟩ := r
  obtain ⟨elements', map', edges', closure'⟩ := r'
  cases h
  rw [TransitiveRelation.addIndex, TransitiveRelation.addIndex]
  cases FxHashMap.get map a <;> exact ⟨rfl, rfl⟩

theorem add_uncached (h : r.uncached = r'.uncached) (a b : T) :
    (r.add a b).uncached = (r'.add a b).uncached := by
  have hpush : ∀ {s s' : TransitiveRelation T}, s.uncached = s'.uncached → ∀ edge : Edge,
      uncached (if edge ∈ s.edges then s else ⟨s.elements, s.map, s.edges ++ [edge], none⟩) =
        uncached (if edge ∈ s'.edges then s' else ⟨s'.elements, s'.map, s'.edges ++ [edge], none⟩) := by
    rintro ⟨elements, map, edges, closure⟩ ⟨_, _, _, closure'⟩ heq edge
    cases heq
    split <;> rfl
  obtain ⟨hi, h1⟩ := addIndex_uncached h a
  obtain ⟨hj, h2⟩ := addIndex_uncached h1 b
  rw [TransitiveRelation.add, TransitiveRelation.add]
  dsimp only
  rw [hi, hj]
  exact hpush h2 _

/-- Two results that differ in the caches alone. -/
inductive SameResult {β : Type} (added : List (T × T)) :
    Outcome (β × TransitiveRelation T) → Outcome (β × TransitiveRelation T) → Prop where
  | error (e : Halt) : SameResult added (.error e) (.error e)
  | ok (result : β) {r r' : TransitiveRelation T} (h : r.Represents added)
      (h' : r'.Represents added) (same : r.uncached = r'.uncached) :
      SameResult added (.ok (result, r)) (.ok (result, r'))

theorem SameResult.of_represents {x : Outcome (β × TransitiveRelation T)}
    (hx : ∀ result r', x = .ok (result, r') → r'.Represents added) : SameResult added x x := by
  cases x with
  | error e => exact .error e
  | ok p => exact .ok p.1 (hx p.1 p.2 rfl) (hx p.1 p.2 rfl) rfl

theorem SameResult.map {β γ : Type} {x y : Outcome (β × TransitiveRelation T)}
    (h : SameResult added x y) (f : β → γ) :
    SameResult added (x >>= fun p => .ok (f p.1, p.2)) (y >>= fun p => .ok (f p.1, p.2)) := by
  cases h with
  | error e => exact .error e
  | ok result h h' same => exact .ok (f result) h h' same

variable {r' : TransitiveRelation T}

theorem Represents.of_withClosure (h : r.Represents added) {op : BitMatrix → Outcome β}
    {result : β} (hrun : r.withClosure op = .ok (result, r')) : r'.Represents added := by
  obtain ⟨matrix, S, -, -, hr, heq⟩ := h.withClosure
  rw [heq] at hrun
  obtain ⟨result', -, hok⟩ := bind_eq_ok.1 hrun
  cases hok
  exact hr

theorem Represents.apply_uncached (h : r.Represents added)
    (h' : r'.Represents added) (same : r.uncached = r'.uncached) (op : Op T) :
    SameResult (added ++ addedEdges [op]) (op.apply r) (op.apply r') := by
  have hclosure : ∀ {β : Type} (op : BitMatrix → Outcome β), r'.withClosure op = r.withClosure op :=
    fun op => by rw [← h.withClosure_uncached, ← h'.withClosure_uncached, same]
  have hindex : ∀ a, r'.index a = r.index a := fun a => by
    have := congrArg (index · a) same.symm
    exact this
  have helement : r'.element = r.element := by
    have := congrArg element same.symm
    exact this
  cases op with
  | add a b => exact .ok Answer.unit (h.add a b) (h'.add a b) (add_uncached same a b)
  | contains a b =>
    rw [addedEdges_query nofun]
    refine SameResult.map ?_ Answer.bool
    rw [TransitiveRelation.contains, TransitiveRelation.contains, hindex, hindex]
    split
    · rw [hclosure]
      exact .of_represents fun _ _ => h.of_withClosure
    · exact .ok _ h h' same
  | reachableFrom a =>
    rw [addedEdges_query nofun]
    refine SameResult.map ?_ Answer.elements
    rw [TransitiveRelation.reachableFrom, TransitiveRelation.reachableFrom, hindex, helement]
    split
    · rw [hclosure]
      exact .of_represents fun _ _ => h.of_withClosure
    · exact .ok _ h h' same
  | minimalUpperBounds a b =>
    rw [addedEdges_query nofun]
    refine SameResult.map ?_ Answer.elements
    rw [TransitiveRelation.minimalUpperBounds, TransitiveRelation.minimalUpperBounds, hindex, hindex]
    split
    · dsimp only
      rw [hclosure]
      refine .of_represents fun l r'' hrun => ?_
      obtain ⟨⟨indices, r1⟩, hrun1, hrest⟩ := bind_eq_ok.1 hrun
      obtain ⟨elements, -, hok⟩ := bind_eq_ok.1 hrest
      cases hok
      exact h.of_withClosure hrun1
    · exact .ok _ h h' same

theorem Represents.session_uncached : ∀ (ops : List (Op T)) {r r' : TransitiveRelation T}
    {added : List (T × T)}, r.Represents added → r'.Represents added → r.uncached = r'.uncached →
      (TransitiveRelation.session ops r).map Prod.fst =
        (TransitiveRelation.session ops r').map Prod.fst
  | [], _, _, _, _, _, _ => rfl
  | op :: ops, r, r', added, h, h', same => by
    rw [TransitiveRelation.session, TransitiveRelation.session]
    have hop := h.apply_uncached h' same op
    generalize op.apply r = x, op.apply r' = y at hop ⊢
    cases hop with
    | error e => rfl
    | ok answer h1 h1' same1 =>
      have hrest := session_uncached ops h1 h1' same1
      rw [ok_bind, ok_bind]
      dsimp only
      revert hrest
      cases TransitiveRelation.session ops _ <;> cases TransitiveRelation.session ops _ <;>
        simp [Except.map]

theorem Represents.reads_encode (h : r.Represents added) (hfits : Fits added) (codec : Codec T)
    (e : Encoder) : Reads (decode codec) e (encode codec e r) r.uncached := by
  have hlen : r.elements.length < 2 ^ 64 := h.length_elements ▸ hfits.1
  have hedge : ∀ edge ∈ r.edges, ∀ e, Reads Edge.decode e (edge.encode e) edge := fun edge he e =>
    (reads_usize .w64 e ((h.bounds edge he).1.trans hlen)).seq <|
      (reads_usize .w64 _ ((h.bounds edge he).2.trans hlen)).seq (.nothing _ edge)
  refine (reads_vec .w64 (fun v _ e => codec.reads e v) hlen e).seq <|
    (reads_vec .w64 hedge (h.length_edges.trans_lt hfits.2) _).seq ?_
  have hr : r.uncached = ⟨r.elements, indexMap r.elements, r.edges, none⟩ := by
    rw [TransitiveRelation.uncached, h.indexed.map]
  rw [hr]
  exact .nothing _ _

end

/-- After any sequence of operations whose elements and edges a `usize` counts, whatever has been
queried in between: `contains` tells whether there is a path, `reachable_from` lists the ends of the
paths, `minimal_upper_bounds` does not depend on the order of its arguments and lists the minimal
upper bounds of two elements of which none has a path to the other, and the relation that is encoded
and decoded gives the same answers from there on. -/
theorem session_answers {ops : List (Op T)} (hfits : Fits (addedEdges ops)) :
    ∃ answers r, session ops empty = .ok (answers, r) ∧
      (∀ a b, ∃ v r', r.contains a b = .ok (v, r') ∧ (v = true ↔ Path (addedEdges ops) a b)) ∧
      (∀ a, ∃ l r', r.reachableFrom a = .ok (l, r') ∧ l.Nodup ∧
        ∀ b, b ∈ l ↔ Path (addedEdges ops) a b) ∧
      (∀ a b, r.minimalUpperBounds a b = r.minimalUpperBounds b a ∧
        ∃ l r', r.minimalUpperBounds a b = .ok (l, r') ∧
          (¬ Path (addedEdges ops) a b → ¬ Path (addedEdges ops) b a →
            l.Nodup ∧ ∀ x, x ∈ l ↔ Minimal (addedEdges ops) a b x)) ∧
      ∀ codec : Codec T, ∃ r' d, decode codec ⟨(encode codec ⟨[]⟩ r).data, 0⟩ = .ok (r', d) ∧
        ∀ more, (session more r').map Prod.fst = (session more r).map Prod.fst := by
  obtain ⟨answers, r, hrun, h⟩ := represents_empty.session ops (by rwa [nil_append])
  refine ⟨answers, r, hrun, fun a b => ?_, fun a => ?_, fun a b => ⟨minimalUpperBounds_comm r a b, ?_⟩,
    fun codec => ?_⟩
  · obtain ⟨v, r', hv, hiff, -⟩ := h.contains a b
    exact ⟨v, r', hv, hiff⟩
  · obtain ⟨l, r', hl, hnodup, hmem, -⟩ := h.reachableFrom (h.length_elements ▸ hfits.1) a
    exact ⟨l, r', hl, hnodup, hmem⟩
  · obtain ⟨l, r', hl, -, hmem⟩ := h.minimalUpperBounds a b
    exact ⟨l, r', hl, hmem⟩
  · obtain ⟨bytes, hdata, hread⟩ := h.reads_encode hfits codec ⟨[]⟩
    have hread := hread []
    rw [append_nil] at hread
    refine ⟨r.uncached, after (encode codec ⟨[]⟩ r) [], ?_,
      fun more => h.uncached.session_uncached more h rfl⟩
    rw [hdata]
    exact hread

/-- Two upper bounds that reach each other, and one that they reach: the answer is the first of the
two. -/
theorem session_answers_sample :
    let ops : List (Op Nat) := [.add 1 3, .contains 3 1, .add 2 4, .add 3 4, .add 4 3, .add 4 5]
    (∃ answers r, session ops empty = .ok (answers, r) ∧
      ∃ l r', r.minimalUpperBounds 1 2 = .ok (l, r') ∧
        ∀ x, x ∈ l ↔ Minimal (addedEdges ops) 1 2 x) ∧
      (session (ops ++ [.minimalUpperBounds 1 2]) empty).map (·.1.getLast?) =
        .ok (some (.elements [3])) := by
  refine ⟨?_, by decide⟩
  have hno : ∀ a b, (∀ c, (c, b) ∉ addedEdges (T := Nat)
      [.add 1 3, .contains 3 1, .add 2 4, .add 3 4, .add 4 3, .add 4 5]) →
      ¬ Path (addedEdges [.add 1 3, .contains 3 1, .add 2 4, .add 3 4, .add 4 3, .add 4 5]) a b := by
    intro a b hb hpath
    obtain ⟨c, -, hedge⟩ := tail'_iff.1 hpath
    exact hb c hedge
  obtain ⟨answers, r, hrun, -, -, hmin, -⟩ := @session_answers Nat _
    [.add 1 3, .contains 3 1, .add 2 4, .add 3 4, .add 4 3, .add 4 5]
    ⟨by decide, by decide⟩
  obtain ⟨-, l, r', hl, hmem⟩ := hmin 1 2
  refine ⟨answers, r, hrun, l, r', hl, (hmem (hno 1 2 ?_) (hno 2 1 ?_)).2⟩
  all_goals simp [addedEdges]

end TransitiveRelation

end Tortis
