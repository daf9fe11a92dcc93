import Tortis.Lib.List
import Tortis.Lib.Search
import Tortis.Mir.Syntax

/-!
# Conflict analysis

`ConflictAnalysis` (`librustc_mir/transform/transaction/conflict_analysis.rs`) builds a graph whose
vertices are the shared objects and whose edges join the objects of one transaction, and returns,
for each connected component, the transactions that use an object of it. `conflict_partition` says
that this is the partition of the transactions into classes linked by common objects, for every
iteration order of the collections, and that the order of the reports does not matter.
-/

namespace Tortis

open List Outcome FxHashMap AllocationSet IterOrder

/-- The transaction an allocation set reports: it writes when one of its uses writes. -/
def AllocationSet.transaction (s : AllocationSet) : Transaction where
  lock := s.lock
  unlock := s.unlock
  isWrite := s.allocations.any (·.isWrite)

structure ConflictAnalysis where
  /-- Map from every shared object to the transactions that use it. -/
  vertices : FxHashMap UniqueId (FxHashSet Transaction)
  /-- Map where vertex u -> every vertex v it connects to -/
  edges : FxHashMap UniqueId (FxHashSet UniqueId)

namespace ConflictAnalysis

/-- The maps the first loop of `new` fills: objects to transactions and transactions to objects. -/
abbrev Uses₂ := FxHashMap UniqueId (FxHashSet Transaction) × FxHashMap Transaction (FxHashSet UniqueId)

/-- One iteration of the first loop of `new`, over the allocations of one set. -/
def recordSet (m : Uses₂) (s : AllocationSet) : Uses₂ :=
  s.allocations.foldl
    (fun m use => (m.1.addTo use.sharedObject s.transaction, m.2.addTo s.transaction use.sharedObject))
    m

section
variable (ord : IterOrder)

/-- The inner loops of `new` over the objects of one transaction: an edge between every two. -/
def connectAll (edges : FxHashMap UniqueId (FxHashSet UniqueId))
    (objects : FxHashSet UniqueId) : FxHashMap UniqueId (FxHashSet UniqueId) :=
  (ord.order objects.toList).foldl
    (fun edges u => (ord.order objects.toList).foldl
      (fun edges v => if u ≠ v then edges.addTo u v else edges) edges)
    edges

def new (allocationSets : List AllocationSet) : ConflictAnalysis :=
  let (vertices, txToObjects) := allocationSets.foldl recordSet (∅, ∅)
  { vertices, edges := (ord.order txToObjects.values).foldl (connectAll ord) ∅ }

/-- The vertices `dfs_util` goes to next, in the order it takes them. -/
def next (ord : IterOrder) (ca : ConflictAnalysis) (u : UniqueId) : List UniqueId :=
  match ca.edges.get u with
  | some next => ord.order next.toList
  | none => []

section
variable (ca : ConflictAnalysis)

/-- `dfs_util`: mark a vertex, take its transactions, go on to the unmarked neighbours. -/
def dfsUtil :
    Nat → UniqueId → FxHashSet UniqueId × FxHashSet Transaction →
      Outcome (FxHashSet UniqueId × FxHashSet Transaction) :=
  dfs (ca.next ord) fun u conflictSet => do
    let txIds ← unwrap (ca.vertices.get u)
    return conflictSet.extend (ord.order txIds.toList)

/-- One iteration of the loop of `perform`. A search marks a new vertex at every level, so the
number of vertices is fuel enough. -/
def performStep (st : FxHashSet UniqueId × List (FxHashSet Transaction)) (v : UniqueId) :
    Outcome (FxHashSet UniqueId × List (FxHashSet Transaction)) :=
  if v ∈ st.1 then .ok st
  else do
    let (visited, conflictSet) ← ca.dfsUtil ord ca.vertices.keys.length v (st.1, ∅)
    return (visited, st.2 ++ [conflictSet])

/-- `ConflictAnalysis::perform`: the transactions of each connected component. -/
def perform : Outcome (List (FxHashSet Transaction)) := do
  let (_, conflictSets) ← (ord.order ca.vertices.keys).foldlM (ca.performStep ord) (∅, [])
  return conflictSets

end

end

end ConflictAnalysis

/-! ## The relation between transactions and objects -/

section
variable (sets : List AllocationSet)

/-- Some report of the transaction `t` names the object `o`. -/
def UsesObject (t : Transaction) (o : UniqueId) : Prop :=
  ∃ s ∈ sets, s.transaction = t ∧ ∃ a ∈ s.allocations, a.sharedObject = o

/-- Two transactions use a common object. -/
def ShareObject (t u : Transaction) : Prop :=
  ∃ o, UsesObject sets t o ∧ UsesObject sets u o

/-- Two transactions are linked by a chain in which consecutive ones use a common object. -/
def Linked : Transaction → Transaction → Prop :=
  Relation.ReflTransGen (ShareObject sets)

end

namespace ConflictAnalysis

theorem recordSet_rel (s : AllocationSet) (m : Uses₂) (t : Transaction) (o : UniqueId) :
    ((recordSet m s).1.Rel o t ↔
      m.1.Rel o t ∨ s.transaction = t ∧ ∃ a ∈ s.allocations, a.sharedObject = o) ∧
    ((recordSet m s).2.Rel t o ↔
      m.2.Rel t o ∨ s.transaction = t ∧ ∃ a ∈ s.allocations, a.sharedObject = o) ∧
    (m.1.Filled → (recordSet m s).1.Filled) := by
  unfold recordSet
  generalize s.transaction = tx
  induction s.allocations generalizing m with
  | nil => simp
  | cons a as ih =>
    obtain ⟨h1, h2, h3⟩ := ih (m.1.addTo a.sharedObject tx, m.2.addTo tx a.sharedObject)
    have key : ∀ P Q : Prop, ((o = a.sharedObject ∧ t = tx) ∨ P) ∨ tx = t ∧ Q ↔
        P ∨ tx = t ∧ (a.sharedObject = o ∨ Q) := by
      intro P Q
      rw [eq_comm (a := o), eq_comm (a := t), and_or_left, ← or_assoc, @or_comm _ P,
        and_comm (b := tx = t)]
    refine ⟨?_, ?_, fun h => h3 (h.addTo _ _)⟩
    · rw [foldl_cons, h1, rel_addTo, exists_mem_cons_iff]
      exact key _ _
    · rw [foldl_cons, h2, rel_addTo, exists_mem_cons_iff, and_comm (a := t = tx)]
      exact key _ _

theorem recordSets_rel (sets : List AllocationSet) (t : Transaction) (o : UniqueId) :
    ((sets.foldl recordSet (∅, ∅)).1.Rel o t ↔ UsesObject sets t o) ∧
    ((sets.foldl recordSet (∅, ∅)).2.Rel t o ↔ UsesObject sets t o) ∧
    (sets.foldl recordSet (∅, ∅)).1.Filled := by
  suffices h : ∀ m : Uses₂, m.1.Filled →
      ((sets.foldl recordSet m).1.Rel o t ↔ m.1.Rel o t ∨ UsesObject sets t o) ∧
      ((sets.foldl recordSet m).2.Rel t o ↔ m.2.Rel t o ∨ UsesObject sets t o) ∧
      (sets.foldl recordSet m).1.Filled by
    simpa using h (∅, ∅) filled_empty
  induction sets with
  | nil => intro m hm; simpa [UsesObject] using hm
  | cons s sets ih =>
    intro m hm
    obtain ⟨h1, h2, h3⟩ := recordSet_rel s m t o
    obtain ⟨i1, i2, i3⟩ := ih (recordSet m s) (h3 hm)
    have hu : UsesObject (s :: sets) t o ↔
        (s.transaction = t ∧ ∃ a ∈ s.allocations, a.sharedObject = o) ∨ UsesObject sets t o := by
      simp [UsesObject]
    exact ⟨by rw [foldl_cons, i1, h1, hu, or_assoc], by rw [foldl_cons, i2, h2, hu, or_assoc], i3⟩

theorem connectAll_rel (ord : IterOrder) (edges : FxHashMap UniqueId (FxHashSet UniqueId))
    (objects : FxHashSet UniqueId) (u v : UniqueId) : (connectAll ord edges objects).Rel u v ↔
      edges.Rel u v ∨ u ≠ v ∧ u ∈ objects ∧ v ∈ objects := by
  have inner : ∀ (l : List UniqueId) (x : UniqueId) (edges : FxHashMap UniqueId (FxHashSet UniqueId)),
      (l.foldl (fun edges v => if x ≠ v then edges.addTo x v else edges) edges).Rel u v ↔
        edges.Rel u v ∨ u = x ∧ u ≠ v ∧ v ∈ l := by
    intro l x
    induction l with
    | nil => simp
    | cons y l ih =>
      intro edges
      rw [foldl_cons, ih]
      by_cases hxy : x = y
      · subst hxy
        simp only [ne_eq, not_true_eq_false, if_false, mem_cons]
        constructor
        · rintro (h | ⟨h1, h2, h3⟩)
          exacts [.inl h, .inr ⟨h1, h2, .inr h3⟩]
        · rintro (h | ⟨h1, h2, h3 | h3⟩)
          exacts [.inl h, absurd (h1.trans h3.symm) h2, .inr ⟨h1, h2, h3⟩]
      · rw [if_pos hxy, rel_addTo, mem_cons]
        constructor
        · rintro ((⟨rfl, rfl⟩ | h) | ⟨h1, h2, h3⟩)
          exacts [.inr ⟨rfl, hxy, .inl rfl⟩, .inl h, .inr ⟨h1, h2, .inr h3⟩]
        · rintro (h | ⟨rfl, h2, rfl | h3⟩)
          exacts [.inl (.inr h), .inl (.inl ⟨rfl, rfl⟩), .inr ⟨rfl, h2, h3⟩]
  have outer : ∀ (l : List UniqueId) (edges : FxHashMap UniqueId (FxHashSet UniqueId)),
      (l.foldl (fun edges x => (ord.order objects.toList).foldl
        (fun edges v => if x ≠ v then edges.addTo x v else edges) edges) edges).Rel u v ↔
        edges.Rel u v ∨ u ≠ v ∧ u ∈ l ∧ v ∈ objects := by
    intro l
    induction l with
    | nil => simp
    | cons x l ih =>
      intro edges
      rw [foldl_cons, ih, inner]
      simp only [mem_order, FxHashSet.mem_toList, mem_cons]
      tauto
  rw [connectAll, outer]
  simp

variable (ord : IterOrder) (sets : List AllocationSet)

theorem new_vertices_rel (t : Transaction) (o : UniqueId) :
    (new ord sets).vertices.Rel o t ↔ UsesObject sets t o :=
  (recordSets_rel sets t o).1

theorem mem_new_keys (o : UniqueId) :
    o ∈ (new ord sets).vertices.keys ↔ ∃ t, UsesObject sets t o := by
  have hf : (new ord sets).vertices.Filled := (recordSets_rel sets ⟨o, o, false⟩ o).2.2
  simp only [hf.mem_keys_iff, new_vertices_rel]

theorem new_edges_rel (u v : UniqueId) :
    (new ord sets).edges.Rel u v ↔ u ≠ v ∧ ∃ t, UsesObject sets t u ∧ UsesObject sets t v := by
  have fold : ∀ (l : List (FxHashSet UniqueId)) (edges : FxHashMap UniqueId (FxHashSet UniqueId)),
      (l.foldl (connectAll ord) edges).Rel u v ↔
        edges.Rel u v ∨ ∃ s ∈ l, u ≠ v ∧ u ∈ s ∧ v ∈ s := by
    intro l
    induction l with
    | nil => simp
    | cons s l ih =>
      intro edges
      rw [foldl_cons, ih, connectAll_rel]
      simp only [exists_mem_cons_iff, or_assoc]
  show ((ord.order _).foldl (connectAll ord) ∅).Rel u v ↔ _
  rw [fold]
  simp only [not_rel_empty, false_or, mem_order, mem_values_iff]
  constructor
  · rintro ⟨s, ⟨t, ht⟩, huv, hu, hv⟩
    exact ⟨huv, t, (recordSets_rel sets t u).2.1.1 ⟨s, ht, hu⟩,
      (recordSets_rel sets t v).2.1.1 ⟨s, ht, hv⟩⟩
  · rintro ⟨huv, t, hu, hv⟩
    obtain ⟨s, ht, hu⟩ := (recordSets_rel sets t u).2.1.2 hu
    have hv := (recordSets_rel sets t v).2.1.2 hv
    rw [rel_iff_of_get ht] at hv
    exact ⟨s, ⟨t, ht⟩, huv, hu, hv⟩

theorem mem_next_iff (u v : UniqueId) :
    v ∈ (new ord sets).next ord u ↔ u ≠ v ∧ ∃ t, UsesObject sets t u ∧ UsesObject sets t v := by
  rw [← new_edges_rel ord, next]
  cases h : (new ord sets).edges.get u <;> simp [FxHashMap.Rel, h]

/-! ## Components of objects and classes of transactions -/

theorem reach_symm {u v : UniqueId} (h : Reach ((new ord sets).next ord) u v) :
    Reach ((new ord sets).next ord) v u := by
  induction h with
  | refl => exact .refl
  | @tail x y _ hxy ih =>
    obtain ⟨hne, t, hx, hy⟩ := (mem_next_iff ord sets x y).1 hxy
    exact ih.head ((mem_next_iff ord sets y x).2 ⟨hne.symm, t, hy, hx⟩)

variable {o p : UniqueId}

theorem reach_of_common {t : Transaction} (ho : UsesObject sets t o)
    (hp : UsesObject sets t p) : Reach ((new ord sets).next ord) o p := by
  by_cases h : o = p
  · exact h ▸ .refl
  · exact .single ((mem_next_iff ord sets o p).2 ⟨h, t, ho, hp⟩)

theorem reach_iff_linked {t u : Transaction} (ht : UsesObject sets t o)
    (hu : UsesObject sets u p) : Reach ((new ord sets).next ord) o p ↔ Linked sets t u := by
  constructor
  · intro h
    induction h generalizing u with
    | refl => exact .single ⟨o, ht, hu⟩
    | @tail q p _ hqp ih =>
      obtain ⟨-, w, hw, hw'⟩ := (mem_next_iff ord sets q p).1 hqp
      exact (ih hw).tail ⟨p, hw', hu⟩
  · intro h
    induction h generalizing p with
    | refl => exact reach_of_common ord sets ht hu
    | tail _ hwu ih =>
      obtain ⟨q, hw, hq⟩ := hwu
      exact (ih hw).trans (reach_of_common ord sets hq hu)

/-! ## The search and the loop over the vertices -/

theorem collect_mem {ca : ConflictAnalysis} :
    ∀ {new : List UniqueId} {s s' : FxHashSet Transaction},
      new.foldlM (fun s u => do
        let txIds ← unwrap (ca.vertices.get u)
        return s.extend (ord.order txIds.toList)) s = Except.ok (ε := Halt) s' →
      ∀ t, t ∈ s' ↔ t ∈ s ∨ ∃ o ∈ new, ca.vertices.Rel o t
  | [], s, s', h, t => by
    cases h
    simp
  | o :: new, s, s', h, t => by
    obtain ⟨s1, h1, h2⟩ := bind_eq_ok.1 h
    obtain ⟨txs, htxs, h1⟩ := bind_eq_ok.1 h1
    cases h1
    rw [collect_mem h2, FxHashSet.mem_extend, exists_mem_cons_iff, or_assoc,
      rel_iff_of_get (unwrap_eq_ok.1 htxs)]
    simp

/-- The class of transactions that belongs to an object: those that use an object connected with
it. -/
def classOf (o : UniqueId) (t : Transaction) : Prop :=
  ∃ p, Reach ((new ord sets).next ord) o p ∧ UsesObject sets t p

/-- `dfs_util` from an unmarked object, when the marks are a union of components: the lookup of a
vertex never fails, it marks the component of the object and collects its class. -/
theorem dfsUtil_spec {u : UniqueId} {vis : FxHashSet UniqueId}
    (hu : u ∈ (new ord sets).vertices.keys) (hn : u ∉ vis)
    (hvis : ∀ w ∈ vis, ∀ x, w ∈ (new ord sets).next ord x → x ∈ vis) :
    ∃ vis' c, (new ord sets).dfsUtil ord (new ord sets).vertices.keys.length u (vis, ∅) =
        .ok (vis', c) ∧ (∀ w, w ∈ vis' ↔ w ∈ vis ∨ Reach ((new ord sets).next ord) u w) ∧
      ∀ t, t ∈ c ↔ classOf ord sets u t := by
  have hclosed : ∀ u ∈ (new ord sets).vertices.keys.toFinset,
      ∀ v ∈ (new ord sets).next ord u, v ∈ (new ord sets).vertices.keys.toFinset := by
    intro u _ v hv
    obtain ⟨-, t, -, ht⟩ := (mem_next_iff ord sets u v).1 hv
    exact mem_toFinset.2 ((mem_new_keys ord sets v).2 ⟨t, ht⟩)
  have hact : ∀ u ∈ (new ord sets).vertices.keys.toFinset, ∀ s : FxHashSet Transaction,
      ∃ s', (do
        let txIds ← unwrap ((new ord sets).vertices.get u)
        return s.extend (ord.order txIds.toList)) = Except.ok (ε := Halt) s' := by
    intro u hu s
    obtain ⟨txs, htxs⟩ := mem_keys_iff.1 (mem_toFinset.1 hu)
    exact ⟨_, by rw [htxs]; rfl⟩
  obtain ⟨new', vis', c, hrun, hS, hcl⟩ := dfs_spec hclosed hact
    (new ord sets).vertices.keys.length u vis ∅ (mem_toFinset.2 hu) hn
    ((Finset.card_filter_le ..).trans (toFinset_card_le _))
  have hnew := hS.mem_new_iff hcl hvis
  refine ⟨vis', c, hrun, fun w => by rw [hS.mem_iff, hnew], fun t => ?_⟩
  rw [collect_mem ord hS.acted]
  simp only [FxHashSet.not_mem_empty, false_or, hnew, new_vertices_rel, classOf]

/-- What the loop of `perform` keeps: the sets so far are the classes of objects that are pairwise
not connected, and the marks are the components of these objects. -/
structure Components (done : List UniqueId)
    (st : FxHashSet UniqueId × List (FxHashSet Transaction)) (reps : List UniqueId) : Prop where
  classes : List.Forall₂ (fun u c => ∀ t, t ∈ c ↔ classOf ord sets u t) reps st.2
  vertex : ∀ u ∈ reps, u ∈ (new ord sets).vertices.keys
  apart : reps.Pairwise fun u v => ¬ Reach ((new ord sets).next ord) u v
  marked : ∀ w, w ∈ st.1 ↔ ∃ u ∈ reps, Reach ((new ord sets).next ord) u w
  handled : ∀ w ∈ done, w ∈ st.1

theorem performStep_spec {done : List UniqueId} {v : UniqueId} {reps : List UniqueId}
    {st : FxHashSet UniqueId × List (FxHashSet Transaction)}
    (hv : v ∈ (new ord sets).vertices.keys) (h : Components ord sets done st reps) :
    ∃ st' reps', (new ord sets).performStep ord st v = .ok st' ∧
      Components ord sets (done ++ [v]) st' reps' := by
  by_cases hvis : v ∈ st.1
  · refine ⟨st, reps, by simp [performStep, hvis], h.classes, h.vertex, h.apart, h.marked, ?_⟩
    simpa [or_imp, forall_and, hvis] using h.handled
  · obtain ⟨vis', c, hrun, hvis', hc⟩ := dfsUtil_spec ord sets hv hvis fun w hw x hxw => by
      obtain ⟨u, hu, huw⟩ := (h.marked w).1 hw
      have hwx : x ∈ (new ord sets).next ord w := by
        obtain ⟨hne, t, hx, hw⟩ := (mem_next_iff ord sets x w).1 hxw
        exact (mem_next_iff ord sets w x).2 ⟨hne.symm, t, hw, hx⟩
      exact (h.marked x).2 ⟨u, hu, huw.tail hwx⟩
    refine ⟨(vis', st.2 ++ [c]), reps ++ [v], by simp [performStep, hvis, hrun], ?_⟩
    constructor
    · exact rel_append h.classes (.cons hc .nil)
    · simpa [or_imp, forall_and, hv] using h.vertex
    · refine pairwise_append.2 ⟨h.apart, by simp, fun u hu w hw => ?_⟩
      rw [mem_singleton.1 hw]
      exact fun hr => hvis ((h.marked v).2 ⟨u, hu, hr⟩)
    · intro w
      rw [hvis', h.marked]
      simp [or_and_right, exists_or]
    · intro w hw
      rw [hvis']
      rcases mem_append.1 hw with hw | hw
      · exact .inl (h.handled w hw)
      · exact .inr (mem_singleton.1 hw ▸ .refl)

theorem perform_spec : ∃ cs reps vis, (new ord sets).perform ord = .ok cs ∧
    Components ord sets (ord.order (new ord sets).vertices.keys) (vis, cs) reps := by
  have init : ∃ reps, Components ord sets [] (∅, []) reps :=
    ⟨[], .nil, by simp, .nil, by simp, by simp⟩
  obtain ⟨⟨vis, cs⟩, hrun, reps, h⟩ := foldlM_spec
    (f := (new ord sets).performStep ord) (l := ord.order (new ord sets).vertices.keys)
    (P := fun done st => ∃ reps, Components ord sets done st reps) init
    (fun pre v post st hl ⟨reps, h⟩ => by
      have hv : v ∈ (new ord sets).vertices.keys := by
        rw [← mem_order ord, hl]
        simp
      obtain ⟨st', reps', hst', h'⟩ := performStep_spec ord sets hv h
      exact ⟨st', hst', reps', h'⟩)
  exact ⟨cs, reps, vis, by simp [perform, hrun], h⟩

end ConflictAnalysis

/-! ## The conflict partition -/

/-- The list of sets is the conflict partition of the reports: non-empty sets of reported
transactions, every one in exactly one of them, with linked transactions in the same set. -/
structure IsConflictPartition (sets : List AllocationSet) (cs : List (FxHashSet Transaction)) :
    Prop where
  nonempty : ∀ c ∈ cs, ∃ t, t ∈ c
  reported : ∀ c ∈ cs, ∀ t ∈ c, t ∈ sets.map transaction
  unique : ∀ t ∈ sets.map transaction, ∃! i : Nat, ∃ c, cs[i]? = some c ∧ t ∈ c
  linked : ∀ t ∈ sets.map transaction, ∀ u ∈ sets.map transaction,
    (∃ c ∈ cs, t ∈ c ∧ u ∈ c) ↔ Linked sets t u

def SameSets (cs cs' : List (FxHashSet Transaction)) : Prop :=
  (∀ c ∈ cs, ∃ c' ∈ cs', ∀ t, t ∈ c ↔ t ∈ c') ∧ ∀ c' ∈ cs', ∃ c ∈ cs, ∀ t, t ∈ c ↔ t ∈ c'

section

variable {sets sets' : List AllocationSet} {cs cs' : List (FxHashSet Transaction)}
  {t : Transaction}

theorem UsesObject.reported {o : UniqueId} (h : UsesObject sets t o) : t ∈ sets.map transaction :=
  let ⟨s, hs, hst, _⟩ := h
  mem_map.2 ⟨s, hs, hst⟩

theorem exists_usesObject (hne : ∀ s ∈ sets, s.allocations ≠ [])
    (ht : t ∈ sets.map transaction) : ∃ o, UsesObject sets t o := by
  obtain ⟨s, hs, rfl⟩ := mem_map.1 ht
  obtain ⟨a, ha⟩ := exists_mem_of_ne_nil _ (hne s hs)
  exact ⟨a.sharedObject, s, hs, rfl, a, ha, rfl⟩

theorem usesObject_perm (h : sets.Perm sets') (t : Transaction) (o : UniqueId) :
    UsesObject sets t o ↔ UsesObject sets' t o := by
  simp only [UsesObject, h.mem_iff]

theorem linked_perm (h : sets.Perm sets') : Linked sets = Linked sets' := by
  have : ShareObject sets = ShareObject sets' := by
    funext t u
    simp only [ShareObject, usesObject_perm h]
  rw [Linked, this, Linked]

namespace IsConflictPartition

theorem perm (h : sets.Perm sets') (hcs : IsConflictPartition sets cs) :
    IsConflictPartition sets' cs where
  nonempty := hcs.nonempty
  reported c hc t ht := ((h.map _).mem_iff).1 (hcs.reported c hc t ht)
  unique t ht := hcs.unique t (((h.map _).mem_iff).2 ht)
  linked t ht u hu := by
    rw [← linked_perm h]
    exact hcs.linked t (((h.map _).mem_iff).2 ht) u (((h.map _).mem_iff).2 hu)

section
variable (h : IsConflictPartition sets cs)
include h

variable {c : FxHashSet Transaction}

theorem mem_iff (hc : c ∈ cs) {t : Transaction} (ht : t ∈ c)
    (u : Transaction) : u ∈ c ↔ u ∈ sets.map transaction ∧ Linked sets t u := by
  have htr := h.reported c hc t ht
  constructor
  · intro hu
    have hur := h.reported c hc u hu
    exact ⟨hur, (h.linked t htr u hur).1 ⟨c, hc, ht, hu⟩⟩
  · rintro ⟨hur, hl⟩
    obtain ⟨c', hc', ht', hu'⟩ := (h.linked t htr u hur).2 hl
    obtain ⟨i, hi⟩ := getElem?_of_mem hc
    obtain ⟨j, hj⟩ := getElem?_of_mem hc'
    have hij : i = j := (h.unique t htr).unique ⟨c, hi, ht⟩ ⟨c', hj, ht'⟩
    rw [hij, hj] at hi
    rwa [← Option.some.inj hi]

theorem exists_same (h' : IsConflictPartition sets cs')
    (hc : c ∈ cs) : ∃ c' ∈ cs', ∀ t, t ∈ c ↔ t ∈ c' := by
  obtain ⟨t, ht⟩ := h.nonempty c hc
  obtain ⟨i, ⟨c', hi, ht'⟩, -⟩ := h'.unique t (h.reported c hc t ht)
  have hc' := mem_of_getElem? hi
  exact ⟨c', hc', fun u => by rw [h.mem_iff hc ht, h'.mem_iff hc' ht']⟩

theorem sameSets (h' : IsConflictPartition sets cs') : SameSets cs cs' := by
  refine ⟨fun c hc => h.exists_same h' hc, fun c' hc' => ?_⟩
  obtain ⟨c, hc, hcc⟩ := h'.exists_same h hc'
  exact ⟨c, hc, fun t => (hcc t).symm⟩

end

end IsConflictPartition

end

namespace ConflictAnalysis

variable {sets : List AllocationSet} {cs : List (FxHashSet Transaction)} {ord : IterOrder}

theorem Components.index_unique {done reps : List UniqueId}
    {st : FxHashSet UniqueId × List (FxHashSet Transaction)} (h : Components ord sets done st reps)
    {i j : Nat} {c d : FxHashSet Transaction} (hi : st.2[i]? = some c) (hj : st.2[j]? = some d)
    {t : Transaction} (hc : t ∈ c) (hd : t ∈ d) : i = j := by
  have hlen := h.classes.length_eq
  obtain ⟨hi', hic⟩ := List.getElem?_eq_some_iff.1 hi
  obtain ⟨hj', hjd⟩ := List.getElem?_eq_some_iff.1 hj
  have hreach : ∀ {k l : Nat} (hk : k < reps.length) (hl : l < reps.length) {c d},
      st.2[k]? = some c → st.2[l]? = some d → t ∈ c → t ∈ d →
      Reach ((new ord sets).next ord) reps[k] reps[l] := by
    intro k l hk hl c d hkc hld hc hd
    obtain ⟨p, hp, htp⟩ := ((forall₂_iff_get.1 h.classes).2 k hk (hlen ▸ hk) t).1 (by
      simpa [(List.getElem?_eq_some_iff.1 hkc).2] using hc)
    obtain ⟨q, hq, htq⟩ := ((forall₂_iff_get.1 h.classes).2 l hl (hlen ▸ hl) t).1 (by
      simpa [(List.getElem?_eq_some_iff.1 hld).2] using hd)
    exact (hp.trans (reach_of_common ord sets htp htq)).trans (reach_symm ord sets hq)
  have hapart := pairwise_iff_getElem.1 h.apart
  rcases lt_trichotomy i j with hij | hij | hij
  · exact absurd (hreach (hlen ▸ hi') (hlen ▸ hj') hi hj hc hd) (hapart i j _ _ hij)
  · exact hij
  · exact absurd (hreach (hlen ▸ hj') (hlen ▸ hi') hj hi hd hc) (hapart j i _ _ hij)

theorem Components.isConflictPartition {reps : List UniqueId}
    {vis : FxHashSet UniqueId} (hne : ∀ s ∈ sets, s.allocations ≠ [])
    (h : Components ord sets (ord.order (new ord sets).vertices.keys) (vis, cs) reps) :
    IsConflictPartition sets cs := by
  have exists_set : ∀ {t o}, UsesObject sets t o → ∃ c ∈ cs, ∀ {u p}, UsesObject sets u p →
      Reach ((new ord sets).next ord) o p → u ∈ c := by
    intro t o ho
    have hkey := (mem_order ord).2 ((mem_new_keys ord sets o).2 ⟨t, ho⟩)
    obtain ⟨v, hv, hvo⟩ := (h.marked o).1 (h.handled o hkey)
    obtain ⟨c, hc, hcv⟩ := forall₂_exists_right h.classes hv
    exact ⟨c, hc, fun hu hop => (hcv _).2 ⟨_, hvo.trans hop, hu⟩⟩
  constructor
  · intro c hc
    obtain ⟨v, hv, hcv⟩ := forall₂_exists_left h.classes hc
    obtain ⟨t, ht⟩ := (mem_new_keys ord sets v).1 (h.vertex v hv)
    exact ⟨t, (hcv t).2 ⟨v, .refl, ht⟩⟩
  · intro c hc t ht
    obtain ⟨v, hv, hcv⟩ := forall₂_exists_left h.classes hc
    obtain ⟨p, -, hp⟩ := (hcv t).1 ht
    exact hp.reported
  · intro t ht
    obtain ⟨o, ho⟩ := exists_usesObject hne ht
    obtain ⟨c, hc, hmem⟩ := exists_set ho
    obtain ⟨i, hi⟩ := getElem?_of_mem hc
    exact ⟨i, ⟨c, hi, hmem ho .refl⟩, fun j ⟨d, hj, hd⟩ =>
      h.index_unique hj hi hd (hmem ho .refl)⟩
  · intro t ht u hu
    constructor
    · rintro ⟨c, hc, htc, huc⟩
      obtain ⟨v, hv, hcv⟩ := forall₂_exists_left h.classes hc
      obtain ⟨p, hvp, hp⟩ := (hcv t).1 htc
      obtain ⟨q, hvq, hq⟩ := (hcv u).1 huc
      exact (reach_iff_linked ord sets hp hq).1 ((reach_symm ord sets hvp).trans hvq)
    · intro hl
      obtain ⟨o, ho⟩ := exists_usesObject hne ht
      obtain ⟨p, hp⟩ := exists_usesObject hne hu
      obtain ⟨c, hc, hmem⟩ := exists_set ho
      exact ⟨c, hc, hmem ho .refl, hmem hp ((reach_iff_linked ord sets ho hp).2 hl)⟩

theorem perform_isConflictPartition (ord : IterOrder) (hne : ∀ s ∈ sets, s.allocations ≠ []) :
    ∃ cs, (new ord sets).perform ord = .ok cs ∧ IsConflictPartition sets cs := by
  obtain ⟨cs, reps, vis, hrun, h⟩ := perform_spec ord sets
  exact ⟨cs, hrun, h.isConflictPartition hne⟩

/-- Conflict analysis computes the conflict partition, whatever the iteration orders of the
collections and the order of the reports. -/
theorem conflict_partition (ord : IterOrder) (sets : List AllocationSet)
    (hne : ∀ s ∈ sets, s.allocations ≠ []) :
    ∃ cs, (new ord sets).perform ord = .ok cs ∧ IsConflictPartition sets cs ∧
      ∀ (ord' : IterOrder) (sets' : List AllocationSet), sets.Perm sets' →
        ∃ cs', (new ord' sets').perform ord' = .ok cs' ∧ SameSets cs cs' := by
  obtain ⟨cs, hrun, h⟩ := perform_isConflictPartition ord hne
  refine ⟨cs, hrun, h, fun ord' sets' hperm => ?_⟩
  have hne' : ∀ s ∈ sets', s.allocations ≠ [] := fun s hs => hne s (hperm.mem_iff.2 hs)
  obtain ⟨cs', hrun', h'⟩ := perform_isConflictPartition ord' hne'
  exact ⟨cs', hrun', h.sameSets (h'.perm hperm.symm)⟩

/-- Two transactions on a common object and one on another object: two conflict sets. -/
theorem conflict_partition_three :
    let id := fun n => UniqueId.mk ⟨0, 0⟩ n ⟨0, 0⟩ none
    let sets := [AllocationSet.mk (id 1) (id 2) [⟨id 10, true⟩],
      AllocationSet.mk (id 3) (id 4) [⟨id 11, false⟩],
      AllocationSet.mk (id 5) (id 6) [⟨id 10, false⟩]]
    ∃ cs, (new .entries sets).perform .entries = .ok cs ∧ cs.length = 2 ∧
      IsConflictPartition sets cs := by
  intro id sets
  obtain ⟨cs, hrun, h, -⟩ := conflict_partition .entries sets (by decide)
  refine ⟨cs, hrun, ?_, h⟩
  have : ((new .entries sets).perform .entries).map List.length = .ok 2 := by decide
  simpa [hrun, Except.map] using this

end ConflictAnalysis

end Tortis
