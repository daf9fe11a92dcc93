import Mathlib.Data.Set.Finite.Basic
import Mathlib.Order.WellFounded

/-!
# Relations without cycles

On a finite set a relation without cycles is a recursion principle (`acc_of_acyclic`). In the other
direction, a vertex that no infinite path leaves lies on no cycle, and an edge into such a vertex
closes none.
-/

namespace Tortis

section
variable {α : Type} {r : α → α → Prop}

theorem acc_of_acyclic (V : Finset α) (hV : ∀ a ∈ V, ∀ b, r a b → b ∈ V)
    (hac : ∀ a ∈ V, ¬ Relation.TransGen r a a) : ∀ a ∈ V, Acc (fun b a => r a b) a := by
  let s (b a : {x // x ∈ V}) : Prop := Relation.TransGen r a.1 b.1
  have : Std.Irrefl s := ⟨fun a ha => hac a.1 a.2 ha⟩
  have hwf : WellFounded s := Finite.wellFounded_of_trans_of_irrefl s
  suffices h : ∀ a : {x // x ∈ V}, Acc (fun b a => r a b) a.1 from fun a ha => h ⟨a, ha⟩
  intro a
  induction a using hwf.induction with
  | _ a ih => exact ⟨a.1, fun b hb => ih ⟨b, hV a.1 a.2 b hb⟩ (.single hb)⟩

theorem not_transGen_of_acc {a : α} (h : Acc (fun b a => r a b) a) : ¬ Relation.TransGen r a a := by
  induction h with
  | intro a _ ih =>
    intro hcycle
    obtain ⟨b, hab, hba⟩ := Relation.TransGen.head'_iff.1 hcycle
    exact ih b hab (Relation.TransGen.tail' hba hab)

theorem transGen_insert {r' : α → α → Prop} {a b : α} (hr : ∀ x y, r' x y → r x y ∨ (x = a ∧ y = b))
    {x y : α} (h : Relation.TransGen r' x y) : Relation.TransGen r x y ∨
    (Relation.ReflTransGen r' x a ∧ r' a b ∧ Relation.ReflTransGen r' b y) := by
  induction h with
  | single hxy =>
    rcases hr _ _ hxy with h | ⟨rfl, rfl⟩
    exacts [.inl (.single h), .inr ⟨.refl, hxy, .refl⟩]
  | tail hxy hyz ih =>
    rcases ih with ih | ⟨hxa, hab, hby⟩
    · rcases hr _ _ hyz with h | ⟨rfl, rfl⟩
      exacts [.inl (ih.tail h), .inr ⟨hxy.to_reflTransGen, hyz, .refl⟩]
    · exact .inr ⟨hxa, hab, hby.tail hyz⟩

theorem acyclic_insert {r' : α → α → Prop} {a b : α}
    (hr : ∀ x y, r' x y → r x y ∨ (x = a ∧ y = b)) (hac : ∀ x, ¬ Relation.TransGen r x x)
    (hb : ¬ Relation.TransGen r' b b) (x : α) : ¬ Relation.TransGen r' x x := by
  intro h
  rcases transGen_insert hr h with h | ⟨hxa, hab, hbx⟩
  · exact hac x h
  · exact hb (Relation.TransGen.tail' (hbx.trans hxa) hab)

end

end Tortis
