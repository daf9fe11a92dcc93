import Mathlib.Data.List.Forall2
import Mathlib.Order.Nat

/-!
# Facts about lists
-/

namespace Tortis

open List

section
variable {α β : Type} {R : α → β → Prop}

theorem forall₂_exists_left : ∀ {l1 : List α} {l2 : List β}, List.Forall₂ R l1 l2 →
    ∀ {b : β}, b ∈ l2 → ∃ a ∈ l1, R a b
  | _, _, .cons h _, _, .head _ => ⟨_, .head _, h⟩
  | _, _, .cons _ hs, _, .tail _ hb =>
    let ⟨a, ha, hab⟩ := forall₂_exists_left hs hb
    ⟨a, .tail _ ha, hab⟩

theorem forall₂_exists_right {l1 : List α} {l2 : List β} (h : List.Forall₂ R l1 l2) {a : α}
    (ha : a ∈ l1) : ∃ b ∈ l2, R a b :=
  forall₂_exists_left h.flip ha

theorem forall₂_getElem : ∀ {l1 : List α} {l2 : List β}, List.Forall₂ R l1 l2 →
    ∀ {i : Nat} {a : α} {b : β}, l1[i]? = some a → l2[i]? = some b → R a b
  | _, _, .nil, _, _, _, h, _ => nomatch h
  | _, _, .cons h _, 0, _, _, rfl, rfl => h
  | _, _, .cons _ hs, i + 1, _, _, ha, hb => forall₂_getElem hs (i := i) ha hb

theorem forall₂_imp_getElem {S : α → β → Prop} : ∀ {l1 : List α} {l2 : List β},
    List.Forall₂ R l1 l2 → (∀ (i : Nat) a b, l1[i]? = some a → l2[i]? = some b → R a b → S a b) →
    List.Forall₂ S l1 l2
  | _, _, .nil, _ => .nil
  | _, _, .cons h hs, himp =>
    .cons (himp 0 _ _ rfl rfl h) (forall₂_imp_getElem hs fun i a b ha hb => himp (i + 1) a b ha hb)

theorem forall₂_trans_zip {γ : Type} {S : β → γ → Prop} {T : α → γ → Prop} :
    ∀ {l1 : List α} {l2 : List β} {l3 : List γ}, List.Forall₂ R l1 l2 → List.Forall₂ S l2 l3 →
    (∀ a b c, (a, b) ∈ l1.zip l2 → R a b → S b c → T a c) → List.Forall₂ T l1 l3
  | _, _, _, .nil, .nil, _ => .nil
  | _, _, _, .cons h hs, .cons h' hs', htrans =>
    .cons (htrans _ _ _ (.head _) h h')
      (forall₂_trans_zip hs hs' fun a b c hab => htrans a b c (.tail _ hab))

end

theorem getElem?_concat_eq_some {α : Type} {l : List α} {a b : α} {i : Nat} :
    (l ++ [a])[i]? = some b ↔ l[i]? = some b ∨ (i = l.length ∧ a = b) := by
  rcases lt_trichotomy i l.length with hlt | rfl | hgt
  · rw [getElem?_append_left hlt]
    exact ⟨.inl, fun h => h.resolve_right fun ⟨heq, _⟩ => hlt.ne heq⟩
  · simp
  · rw [getElem?_eq_none (by rw [length_append]; exact hgt), getElem?_eq_none hgt.le]
    simp [hgt.ne']

theorem exists_split_concat {α : Type} {l : List α} {a : α} {Q : List α → α → Prop} :
    (∃ pre b post, l ++ [a] = pre ++ b :: post ∧ Q pre b) ↔
      (∃ pre b post, l = pre ++ b :: post ∧ Q pre b) ∨ Q l a := by
  constructor
  · rintro ⟨pre, b, post, hsplit, hQ⟩
    rcases eq_nil_or_concat post with rfl | ⟨post, c, rfl⟩
    · obtain ⟨rfl, h⟩ := append_inj' hsplit rfl
      obtain rfl := singleton_inj.1 h
      exact .inr hQ
    · rw [concat_eq_append, ← cons_append, ← append_assoc] at hsplit
      exact .inl ⟨pre, b, post, (append_inj' hsplit rfl).1, hQ⟩
  · rintro (⟨pre, b, post, rfl, hQ⟩ | hQ)
    · exact ⟨pre, b, post ++ [a], by simp, hQ⟩
    · exact ⟨l, a, [], rfl, hQ⟩

theorem split_unique {α : Type} {x y : α} {p q p' q' : List α} (h : p ++ x :: q = p' ++ y :: q')
    (hx : x ∉ p') (hy : y ∉ p) : p = p' ∧ x = y ∧ q = q' := by
  induction p generalizing p' with
  | nil =>
    cases p' with
    | nil => exact ⟨rfl, List.cons.inj h⟩
    | cons a p' => exact absurd ((List.cons.inj h).1 ▸ mem_cons_self) hx
  | cons a p ih =>
    cases p' with
    | nil => exact absurd ((List.cons.inj h).1 ▸ mem_cons_self) hy
    | cons b p' =>
      obtain ⟨rfl, htail⟩ := List.cons.inj h
      obtain ⟨rfl, hxy, hq⟩ := ih htail (fun h => hx (.tail _ h)) fun h => hy (.tail _ h)
      exact ⟨rfl, hxy, hq⟩

theorem findIdx?_split {α : Type} {p : α → Bool} {l : List α} {i : Nat}
    (h : l.findIdx? p = some i) : ∃ before a after, l = before ++ a :: after ∧ before.length = i ∧
      p a = true ∧ ∀ b ∈ before, p b = false := by
  obtain ⟨hi, hp, hbefore⟩ := findIdx?_eq_some_iff_getElem.1 h
  refine ⟨l.take i, l[i], l.drop (i + 1), ?_, length_take_of_le (le_of_lt hi), hp, ?_⟩
  · rw [← drop_eq_getElem_cons, take_append_drop]
  · intro b hb
    obtain ⟨k, hk, rfl⟩ := mem_take_iff_getElem.1 hb
    exact Bool.eq_false_iff.2 (hbefore k (lt_of_lt_of_le hk (min_le_left _ _)))

end Tortis
