import Mathlib.Order.Lattice
import Mathlib.Order.BoundedOrder.Basic
import Mathlib.Algebra.BigOperators.Group.List.Basic
import Mathlib.Algebra.Ring.Nat

/-!
# Worklists that join values along edges

A system of inequalities over a join-semilattice: every node has a value, which is at least an
initial value, and along every edge a monotone function of the source's value is below the target's
value. A worklist holds nodes whose outgoing edges are still to be looked at; taking a node off
joins its values into its targets and puts back every target that has changed.

`Worklist.run_isLeast` says that a worklist that started with all nodes and has become empty has the
least solution, in whatever order the nodes were taken off.
-/

namespace Tortis

open List

/-- A system of inequalities between the values of `size` nodes. -/
structure FlowSystem (α : Type) [SemilatticeSup α] where
  /-- The number of nodes. -/
  size : Nat
  /-- What the value of a node is at least. -/
  init : Nat → α
  /-- The outgoing edges of a node, with the functions along them. -/
  edges : Nat → List (Nat × (α → α))
  inRange : ∀ b, ∀ e ∈ edges b, e.1 < size
  mono : ∀ b, ∀ e ∈ edges b, Monotone e.2

/-- Values of the nodes, and the nodes whose edges are still to be looked at. -/
structure Worklist (α : Type) where
  entries : List α
  queue : List Nat

section
variable {α : Type} [SemilatticeSup α] [OrderBot α]

/-! ## Solutions -/

def valueAt (entries : List α) (b : Nat) : α :=
  entries.getD b ⊥

variable {entries : List α}

theorem valueAt_set {t : Nat} (ht : t < entries.length) (x : α) (b : Nat) :
    valueAt (entries.set t x) b = if b = t then x else valueAt entries b := by
  simp only [valueAt, getD_eq_getElem?_getD, getElem?_set]
  split
  · rename_i h
    subst h
    simp
  · rename_i h
    rw [if_neg (Ne.symm h)]

theorem valueAt_of_le {b : Nat} (h : entries.length ≤ b) : valueAt entries b = ⊥ := by
  simp [valueAt, getD_eq_getElem?_getD, h]

theorem eq_of_valueAt {l1 l2 : List α} (hlen : l1.length = l2.length)
    (h : ∀ b < l1.length, valueAt l1 b = valueAt l2 b) : l1 = l2 := by
  refine ext_getElem hlen fun b h1 h2 => ?_
  have := h b h1
  simpa [valueAt, getD_eq_getElem?_getD, h1, h2] using this

namespace FlowSystem

/-- Values that satisfy the inequalities. -/
structure IsSolution (F : FlowSystem α) (Y : Nat → α) : Prop where
  init_le : ∀ t < F.size, F.init t ≤ Y t
  edge_le : ∀ b < F.size, ∀ e ∈ F.edges b, e.2 (Y b) ≤ Y e.1

/-- The values of the least solution. -/
structure IsLeast (F : FlowSystem α) (entries : List α) : Prop where
  length_eq : entries.length = F.size
  solution : F.IsSolution (valueAt entries)
  least : ∀ Y, F.IsSolution Y → ∀ b < F.size, valueAt entries b ≤ Y b

variable {F : FlowSystem α}

theorem IsLeast.unique {l1 l2 : List α} (h1 : F.IsLeast l1) (h2 : F.IsLeast l2) : l1 = l2 := by
  refine eq_of_valueAt (h1.length_eq.trans h2.length_eq.symm) fun b hb => ?_
  rw [h1.length_eq] at hb
  exact le_antisymm (h1.least _ h2.solution b hb) (h2.least _ h1.solution b hb)

/-- What the edges bring to a node. -/
def incoming (F : FlowSystem α) (Y : Nat → α) (t : Nat) : List α :=
  (range F.size).flatMap fun b =>
    ((F.edges b).filter (·.1 = t)).map fun e => e.2 (Y b)

omit [OrderBot α] in
theorem mem_incoming {Y : Nat → α} {t : Nat} {x : α} :
    x ∈ F.incoming Y t ↔ ∃ b < F.size, ∃ e ∈ F.edges b, e.1 = t ∧ e.2 (Y b) = x := by
  simp only [incoming, mem_flatMap, mem_range, mem_map, mem_filter, decide_eq_true_eq]
  constructor
  · rintro ⟨b, hb, e, ⟨he, ht⟩, hx⟩
    exact ⟨b, hb, e, he, ht, hx⟩
  · rintro ⟨b, hb, e, he, ht, hx⟩
    exact ⟨b, hb, e, ⟨he, ht⟩, hx⟩

/-- The join of a value with those of a list. -/
def joinAll (x : α) (l : List α) : α :=
  l.foldl (· ⊔ ·) x

omit [OrderBot α] in
theorem joinAll_le {x y : α} {l : List α} : joinAll x l ≤ y ↔ x ≤ y ∧ ∀ z ∈ l, z ≤ y := by
  induction l generalizing x with
  | nil => simp [joinAll]
  | cons z l ih =>
    have := @ih (x ⊔ z)
    simp only [joinAll, foldl_cons, forall_mem_cons] at this ⊢
    rw [this, sup_le_iff, and_assoc]

/-- The least solution satisfies the equations: the value of a node is the join of its initial
value and of all that its incoming edges bring. -/
theorem IsLeast.eq_join {entries : List α} (h : F.IsLeast entries) {t : Nat} (ht : t < F.size) :
    valueAt entries t = joinAll (F.init t) (F.incoming (valueAt entries) t) := by
  let Y : Nat → α := fun t => joinAll (F.init t) (F.incoming (valueAt entries) t)
  have hle : ∀ t < F.size, Y t ≤ valueAt entries t := by
    intro t ht
    refine joinAll_le.2 ⟨h.solution.init_le t ht, fun z hz => ?_⟩
    obtain ⟨b, hb, e, he, rfl, rfl⟩ := mem_incoming.1 hz
    exact h.solution.edge_le b hb e he
  have hY : F.IsSolution Y := by
    refine ⟨fun t _ => (joinAll_le.1 le_rfl).1, fun b hb e he => ?_⟩
    -- the joins are below the values, and the edge's value is one of the joined
    have hmono : e.2 (Y b) ≤ e.2 (valueAt entries b) := F.mono b e he (hle b hb)
    exact hmono.trans ((joinAll_le.1 le_rfl).2 _ (mem_incoming.2 ⟨b, hb, e, he, rfl, rfl⟩))
  exact le_antisymm (h.least Y hY t ht) (hle t ht)

end FlowSystem

/-! ## Joining values in -/

/-- Puts a node at the end of the queue, unless it is in it. -/
def enqueue (queue : List Nat) (t : Nat) : List Nat :=
  if t ∈ queue then queue else queue ++ [t]

theorem mem_enqueue {queue : List Nat} {t b : Nat} : b ∈ enqueue queue t ↔ b ∈ queue ∨ b = t := by
  rw [enqueue]
  split
  · rename_i h
    exact ⟨.inl, fun hb => hb.elim id fun hb => hb ▸ h⟩
  · simp

theorem length_enqueue_le (queue : List Nat) (t : Nat) :
    (enqueue queue t).length ≤ queue.length + 1 := by
  rw [enqueue]
  split <;> simp

namespace Worklist

/-- What joins make of the values and of the queue. -/
structure Joined (s : Worklist α) (l : List (Nat × α)) (s' : Worklist α) : Prop where
  length_eq : s'.entries.length = s.entries.length
  le : ∀ b, valueAt s.entries b ≤ valueAt s'.entries b
  joined : ∀ p ∈ l, p.2 ≤ valueAt s'.entries p.1
  below : ∀ Y : Nat → α, (∀ b, valueAt s.entries b ≤ Y b) → (∀ p ∈ l, p.2 ≤ Y p.1) →
    ∀ b, valueAt s'.entries b ≤ Y b
  queue : ∀ b ∈ s.queue, b ∈ s'.queue
  changed : ∀ b, valueAt s'.entries b ≠ valueAt s.entries b → b ∈ s'.queue
  inRange : ∀ N, (∀ b ∈ s.queue, b < N) → (∀ p ∈ l, p.1 < N) → ∀ b ∈ s'.queue, b < N

theorem Joined.refl (s : Worklist α) : Joined s [] s where
  length_eq := rfl
  le _ := le_rfl
  joined := nofun
  below _ h _ := h
  queue _ := id
  changed _ h := absurd rfl h
  inRange _ h _ := h

theorem Joined.trans {s1 s2 s3 : Worklist α} {l1 l2 : List (Nat × α)} (h1 : Joined s1 l1 s2)
    (h2 : Joined s2 l2 s3) : Joined s1 (l1 ++ l2) s3 where
  length_eq := h2.length_eq.trans h1.length_eq
  le b := (h1.le b).trans (h2.le b)
  joined p hp := by
    rcases mem_append.1 hp with hp | hp
    · exact (h1.joined p hp).trans (h2.le p.1)
    · exact h2.joined p hp
  below Y hY hl := by
    refine h2.below Y (h1.below Y hY fun p hp => ?_) fun p hp => ?_
    · exact hl p (mem_append_left _ hp)
    · exact hl p (mem_append_right _ hp)
  queue b hb := h2.queue b (h1.queue b hb)
  changed b hb := by
    by_cases h : valueAt s2.entries b = valueAt s1.entries b
    · exact h2.changed b (h ▸ hb)
    · exact h2.queue b (h1.changed b h)
  inRange N hs hl := by
    refine h2.inRange N (h1.inRange N hs fun p hp => ?_) fun p hp => ?_
    · exact hl p (mem_append_left _ hp)
    · exact hl p (mem_append_right _ hp)

variable [DecidableEq α]

section
variable (s : Worklist α)

/-- Joins a value into that of a node, which is queued when it has changed. -/
def join (t : Nat) (x : α) : Worklist α :=
  if valueAt s.entries t ⊔ x = valueAt s.entries t then s
  else ⟨s.entries.set t (valueAt s.entries t ⊔ x), enqueue s.queue t⟩

/-- Joins values into those of nodes, one after the other. -/
def joins (l : List (Nat × α)) : Worklist α :=
  l.foldl (fun s p => s.join p.1 p.2) s

theorem join_joined {t : Nat} (ht : t < s.entries.length) (x : α) :
    Joined s [(t, x)] (s.join t x) := by
  rw [join]
  split
  · rename_i h
    have hx : x ≤ valueAt s.entries t := by
      rw [← h]
      exact le_sup_right
    exact ⟨rfl, fun _ => le_rfl, by simpa using hx, fun _ h _ => h, fun _ => id,
      fun _ h => absurd rfl h, fun _ h _ => h⟩
  · have hval := valueAt_set ht (valueAt s.entries t ⊔ x)
    refine ⟨by simp, fun b => ?_, ?_, fun Y hY hl b => ?_, fun b hb => ?_, fun b hb => ?_,
      fun N hs hl b hb => ?_⟩
    · rw [hval]
      split
      · rename_i h
        subst h
        exact le_sup_left
      · exact le_rfl
    · simp [hval]
    · rw [hval]
      split
      · rename_i h
        subst h
        exact sup_le (hY b) (hl (b, x) (.head _))
      · exact hY b
    · exact mem_enqueue.2 (.inl hb)
    · rw [hval] at hb
      split at hb
      · rename_i h
        exact mem_enqueue.2 (.inr h)
      · exact absurd rfl hb
    · rcases mem_enqueue.1 hb with hb | rfl
      · exact hs b hb
      · exact hl (b, x) (.head _)

theorem joins_joined {l : List (Nat × α)}
    (hl : ∀ p ∈ l, p.1 < s.entries.length) : Joined s l (s.joins l) := by
  induction l generalizing s with
  | nil => exact .refl s
  | cons p l ih =>
    have h1 := join_joined s (hl p (.head _)) p.2
    have h2 := ih (s.join p.1 p.2) fun q hq => by
      rw [h1.length_eq]
      exact hl q (.tail _ hq)
    exact h1.trans h2

end

/-! ## Taking nodes off the queue -/

/-- A node is taken off the queue, wherever it is in it, and its values are joined into its targets.
-/
inductive Step (F : FlowSystem α) : Worklist α → Worklist α → Prop
  | take {entries : List α} {pre post : List Nat} {b : Nat} {l : List (Nat × α)}
      (hl : ∀ p, p ∈ l ↔ ∃ e ∈ F.edges b, p = (e.1, e.2 (valueAt entries b))) :
      Step F ⟨entries, pre ++ b :: post⟩ (joins ⟨entries, pre ++ post⟩ l)

/-- What holds while the worklist is worked off. -/
structure Inv (F : FlowSystem α) (s : Worklist α) : Prop where
  length_eq : s.entries.length = F.size
  inRange : ∀ b ∈ s.queue, b < F.size
  init_le : ∀ t < F.size, F.init t ≤ valueAt s.entries t
  below : ∀ Y, F.IsSolution Y → ∀ b, valueAt s.entries b ≤ Y b
  settled : ∀ b < F.size, b ∉ s.queue → ∀ e ∈ F.edges b,
    e.2 (valueAt s.entries b) ≤ valueAt s.entries e.1

variable {F : FlowSystem α} {s s' : Worklist α}

omit [DecidableEq α] in
theorem Inv.start {entries : List α} {queue : List Nat} (hlen : entries.length = F.size)
    (hinit : ∀ t < F.size, valueAt entries t = F.init t) (hq : ∀ b, b ∈ queue ↔ b < F.size) :
    Inv F ⟨entries, queue⟩ where
  length_eq := hlen
  inRange b hb := (hq b).1 hb
  init_le t ht := (hinit t ht).ge
  below _ hY b := by
    by_cases hb : b < F.size
    · exact (hinit b hb).le.trans (hY.init_le b hb)
    · rw [valueAt_of_le (show entries.length ≤ b by omega)]
      exact bot_le
  settled b hb hnb := absurd ((hq b).2 hb) hnb

theorem Step.inv (h : Step F s s') (hs : Inv F s) : Inv F s' := by
  cases h with
  | @take entries pre post b l hl =>
    have hb : b < F.size := hs.inRange b (by simp)
    have hlr : ∀ p ∈ l, p.1 < F.size := by
      intro p hp
      obtain ⟨e, he, rfl⟩ := (hl p).1 hp
      exact F.inRange b e he
    have hj := joins_joined ⟨entries, pre ++ post⟩ (l := l) fun p hp => by
      rw [hs.length_eq]
      exact hlr p hp
    refine ⟨hj.length_eq.trans hs.length_eq, ?_, fun t ht => (hs.init_le t ht).trans (hj.le t),
      fun Y hY => ?_, fun c hc hq e he => ?_⟩
    · refine hj.inRange F.size (fun c hc => hs.inRange c ?_) hlr
      simp only [mem_append, mem_cons] at hc ⊢
      tauto
    · -- a solution is above the values before, so above what the edges of `b` bring
      refine hj.below Y (hs.below Y hY) fun p hp => ?_
      obtain ⟨e, he, rfl⟩ := (hl p).1 hp
      exact (F.mono b e he (hs.below Y hY b)).trans (hY.edge_le b hb e he)
    · -- a node that is not queued has the value it had
      have hval : valueAt (joins ⟨entries, pre ++ post⟩ l).entries c = valueAt entries c := by
        by_contra hne
        exact hq (hj.changed c hne)
      rw [hval]
      by_cases hcb : c = b
      · subst hcb
        exact hj.joined (e.1, e.2 (valueAt entries c)) ((hl _).2 ⟨e, he, rfl⟩)
      · have hq' : c ∉ pre ++ b :: post := by
          intro hm
          refine hq (hj.queue c ?_)
          simp only [mem_append, mem_cons] at hm ⊢
          tauto
        exact (hs.settled c hc hq' e he).trans (hj.le e.1)

omit [DecidableEq α] in
theorem Inv.isLeast (h : Inv F s) (hq : s.queue = []) : F.IsLeast s.entries where
  length_eq := h.length_eq
  solution := ⟨h.init_le, fun b hb e he => h.settled b hb (by simp [hq]) e he⟩
  least Y hY b _ := h.below Y hY b

theorem run_isLeast (h : Relation.ReflTransGen (Step F) s s') (hs : Inv F s)
    (hq : s'.queue = []) : F.IsLeast s'.entries := by
  refine Inv.isLeast ?_ hq
  clear hq
  induction h with
  | refl => exact hs
  | tail _ hstep ih => exact hstep.inv ih

/-! ## The worklist becomes empty -/

section
variable {rank : α → Nat} {R : Nat}

/-- How often nodes may still be taken off: the queue, and the room that the values have to grow. -/
def potential (rank : α → Nat) (R : Nat) (s : Worklist α) : Nat :=
  s.queue.length + (s.entries.map fun x => R - rank x).sum

omit [SemilatticeSup α] [OrderBot α] [DecidableEq α] in
theorem sum_set (f : α → Nat) : ∀ (l : List α) {t : Nat} (ht : t < l.length) (x : α),
    ((l.set t x).map f).sum + f l[t] = (l.map f).sum + f x
  | y :: l, 0, _, x => by
    simp only [set_cons_zero, map_cons, sum_cons, getElem_cons_zero]
    omega
  | y :: l, t + 1, ht, x => by
    have := sum_set f l (Nat.lt_of_succ_lt_succ ht) x
    simp only [set_cons_succ, map_cons, sum_cons, getElem_cons_succ]
    omega

section
variable (hrank : ∀ x y : α, x < y → rank x < rank y)
include hrank

section
variable (hR : ∀ x, rank x ≤ R)
include hR

theorem join_potential_le (s : Worklist α) {t : Nat}
    (ht : t < s.entries.length) (x : α) : (s.join t x).potential rank R ≤ s.potential rank R := by
  rw [join]
  split
  · exact le_rfl
  · rename_i hne
    have hval : valueAt s.entries t = s.entries[t] := by
      simp [valueAt, getD_eq_getElem?_getD, ht]
    have hlt : valueAt s.entries t < valueAt s.entries t ⊔ x :=
      lt_of_le_of_ne le_sup_left (Ne.symm hne)
    have h1 := hrank _ _ hlt
    have h2 := hR (valueAt s.entries t ⊔ x)
    have hsum := sum_set (fun x => R - rank x) s.entries ht (valueAt s.entries t ⊔ x)
    have hlen := length_enqueue_le s.queue t
    rw [← hval] at hsum
    simp only [potential]
    omega

theorem joins_potential_le (s : Worklist α) {l : List (Nat × α)}
    (hl : ∀ p ∈ l, p.1 < s.entries.length) : (s.joins l).potential rank R ≤ s.potential rank R := by
  induction l generalizing s with
  | nil => exact le_rfl
  | cons p l ih =>
    have h1 := join_potential_le hrank hR s (hl p (.head _)) p.2
    have hlen := (join_joined s (hl p (.head _)) p.2).length_eq
    exact (ih (s.join p.1 p.2) fun q hq => hlen ▸ hl q (.tail _ hq)).trans h1

theorem Step.potential_lt
    (h : Step F s s') (hs : Inv F s) : s'.potential rank R < s.potential rank R := by
  cases h with
  | @take entries pre post b l hl =>
    have := joins_potential_le hrank hR ⟨entries, pre ++ post⟩ (l := l) fun p hp => by
      obtain ⟨e, he, rfl⟩ := (hl p).1 hp
      rw [hs.length_eq]
      exact F.inRange b e he
    refine lt_of_le_of_lt this ?_
    simp only [potential, length_append, length_cons]
    omega

end

end

end

end Worklist

end

end Tortis
