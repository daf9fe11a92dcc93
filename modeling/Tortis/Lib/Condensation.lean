import Mathlib.Data.Set.Lattice

/-!
# Condensed graphs

A numbering of the nodes of a graph condenses it when the nodes of one number can all be reached
from each other and the edges between different numbers lead to smaller ones. `Condensed` relates
such a numbering to the relation `next` that the edges leave between the numbers.
-/

namespace Tortis

open Relation

section
variable {α β : Type} {edge : α → α → Prop} {V : Set α} {idx : α → Nat} {next : Nat → Nat → Prop}

/-- The numbering `idx` of the nodes in `V` condenses the graph, and `next` is what its edges leave
between the numbers. -/
structure Condensed (edge : α → α → Prop) (V : Set α) (idx : α → Nat) (next : Nat → Nat → Prop) :
    Prop where
  closed : ∀ v ∈ V, ∀ w, edge v w → w ∈ V
  same : ∀ v ∈ V, ∀ w ∈ V, idx v = idx w → ReflTransGen edge v w
  edge_next : ∀ v ∈ V, ∀ w, edge v w → idx v = idx w ∨ next (idx v) (idx w)
  next_lt : ∀ s t, next s t → t < s
  next_edge : ∀ s t, next s t → ∃ v ∈ V, ∃ w, idx v = s ∧ edge v w ∧ idx w = t

namespace Condensed

variable {v w : α}

section
variable (h : Condensed edge V idx next)
include h

section
variable (hv : v ∈ V)
include hv

theorem reach_mem (hvw : ReflTransGen edge v w) : w ∈ V := by
  induction hvw with
  | refl => exact hv
  | tail _ hxw ih => exact h.closed _ ih _ hxw

theorem next_of_reach (hvw : ReflTransGen edge v w) : ReflTransGen next (idx v) (idx w) := by
  induction hvw with
  | refl => exact .refl
  | tail hvx hxw ih =>
    rcases h.edge_next _ (h.reach_mem hv hvx) _ hxw with heq | hnext
    · rwa [← heq]
    · exact ih.tail hnext

theorem idx_le_of_reach (hvw : ReflTransGen edge v w) : idx w ≤ idx v := by
  induction hvw with
  | refl => exact le_rfl
  | tail hvx hxw ih =>
    rcases h.edge_next _ (h.reach_mem hv hvx) _ hxw with heq | hnext
    · exact heq.symm.le.trans ih
    · exact (h.next_lt _ _ hnext).le.trans ih

theorem idx_eq_iff (hw : w ∈ V) : idx v = idx w ↔ ReflTransGen edge v w ∧ ReflTransGen edge w v :=
  ⟨fun heq => ⟨h.same v hv w hw heq, h.same w hw v hv heq.symm⟩, fun ⟨hvw, hwv⟩ =>
    le_antisymm (h.idx_le_of_reach hw hwv) (h.idx_le_of_reach hv hvw)⟩

theorem reach_next_iff {t : Nat} :
    ReflTransGen next (idx v) t ↔ ∃ w, ReflTransGen edge v w ∧ idx w = t := by
  constructor
  · intro hreach
    induction hreach with
    | refl => exact ⟨v, .refl, rfl⟩
    | tail _ hst ih =>
      obtain ⟨w, hvw, rfl⟩ := ih
      obtain ⟨x, hx, y, hxs, hxy, hyt⟩ := h.next_edge _ _ hst
      have hwx := h.same w (h.reach_mem hv hvw) x hx hxs.symm
      exact ⟨y, (hvw.trans hwx).tail hxy, hyt⟩
  · rintro ⟨w, hvw, rfl⟩
    exact h.next_of_reach hv hvw

end

/-- Values that every number takes from its own start and from the numbers next to it are the least
ones. -/
theorem mem_iff_reach (init : Nat → Set β) {value : Nat → Set β}
    (hvalue : ∀ s e, e ∈ value s ↔ e ∈ init s ∨ ∃ t, next s t ∧ e ∈ value t) (s : Nat) (e : β) :
    e ∈ value s ↔ ∃ t, ReflTransGen next s t ∧ e ∈ init t := by
  constructor
  · induction s using Nat.strong_induction_on with
    | _ s ih =>
      intro he
      rcases (hvalue s e).1 he with he | ⟨t, hst, he⟩
      · exact ⟨s, .refl, he⟩
      · obtain ⟨u, htu, heu⟩ := ih t (h.next_lt s t hst) he
        exact ⟨u, .head hst htu, heu⟩
  · rintro ⟨t, hst, he⟩
    induction hst using ReflTransGen.head_induction_on with
    | refl => exact (hvalue t e).2 (.inl he)
    | head hst _ ih => exact (hvalue _ e).2 (.inr ⟨_, hst, ih⟩)

/-- The values of the nodes, when each number starts with what its nodes start with. -/
theorem mem_value_iff {base : α → Set β} {value : Nat → Set β} (hvalue : ∀ s e, e ∈ value s ↔
      (∃ w ∈ V, idx w = s ∧ e ∈ base w) ∨ ∃ t, next s t ∧ e ∈ value t) (hv : v ∈ V)
    (e : β) : e ∈ value (idx v) ↔ ∃ w, ReflTransGen edge v w ∧ e ∈ base w := by
  rw [h.mem_iff_reach (fun s => {e | ∃ w ∈ V, idx w = s ∧ e ∈ base w}) hvalue]
  constructor
  · rintro ⟨t, hreach, w, hw, rfl, he⟩
    obtain ⟨x, hvx, hx⟩ := (h.reach_next_iff hv).1 hreach
    have hxw := h.same x (h.reach_mem hv hvx) w hw hx
    exact ⟨w, hvx.trans hxw, he⟩
  · rintro ⟨w, hvw, he⟩
    exact ⟨idx w, h.next_of_reach hv hvw, w, h.reach_mem hv hvw, rfl, he⟩

end

end Condensed

end

end Tortis
