import Mathlib.Data.List.Pairwise
import Mathlib.Tactic.Common
import Mathlib.Order.Lattice

/-!
# Paring down a list

`pare R l` goes through a list and removes from the rest of it whatever the element at hand reaches.
Along a transitive relation this leaves what no earlier element reaches (`mem_pare`), and paring a
sorted list down, then its reverse, leaves the first element of each class of mutually reachable
elements that nothing outside the class reaches (`mem_pare_reverse`).
-/

namespace Tortis

open List Bool

variable {α : Type} (R : α → α → Bool)

/-- The elements that one does not reach. -/
def unreached (x : α) (l : List α) : List α := l.filter fun y => !R x y

/-- The elements that are left when each one in turn removes what it reaches behind it. -/
def pare : List α → List α
  | [] => []
  | x :: xs => x :: pare (unreached R x xs)
termination_by l => l.length
decreasing_by exact Nat.lt_succ_of_le (length_filter_le ..)

theorem pare_nil : pare R [] = [] := by rw [pare]

theorem pare_cons (x : α) (xs : List α) : pare R (x :: xs) = x :: pare R (unreached R x xs) := by
  rw [pare]

theorem unreached_sublist (x : α) (l : List α) : (unreached R x l).Sublist l := filter_sublist

theorem pare_sublist (l : List α) : (pare R l).Sublist l := by
  fun_induction pare R l with
  | case1 => exact .slnil
  | case2 x xs ih => exact (ih.trans (unreached_sublist R x xs)).cons_cons x

variable {R}

theorem mem_unreached {x y : α} {l : List α} : y ∈ unreached R x l ↔ y ∈ l ∧ R x y = false := by
  rw [unreached, mem_filter, not_eq_true']

theorem mem_pare (hR : ∀ x y z, R x y = true → R y z = true → R x z = true) {r : α → α → Prop}
    (hr : ∀ x y, r x y → ¬ r y x) {l : List α} (hl : l.Pairwise r) (x : α) :
    x ∈ pare R l ↔ x ∈ l ∧ ∀ y ∈ l, r y x → R y x = false := by
  induction l using pare.induct R with
  | case1 => simp [pare_nil]
  | case2 a xs ih =>
    have hhead : ∀ y ∈ xs, r a y := (pairwise_cons.1 hl).1
    rw [pare_cons, mem_cons, ih (hl.of_cons.sublist (unreached_sublist R a xs)), mem_unreached]
    constructor
    · rintro (rfl | ⟨⟨hx, hax⟩, hrest⟩)
      · refine ⟨.head _, fun y hy hyx => ?_⟩
        rcases mem_cons.1 hy with rfl | hy
        · exact absurd hyx (hr _ _ hyx)
        · exact absurd hyx (hr _ _ (hhead y hy))
      · refine ⟨.tail _ hx, fun y hy hyx => ?_⟩
        rcases mem_cons.1 hy with rfl | hy
        · exact hax
        · by_contra hRyx
          rw [not_eq_false] at hRyx
          -- An element that the head removes reaches nothing that the head does not reach.
          have hay : R a y = false := by
            by_contra hay
            rw [hR a y x (not_eq_false _ ▸ hay) hRyx] at hax
            cases hax
          rw [hrest y (mem_unreached.2 ⟨hy, hay⟩) hyx] at hRyx
          cases hRyx
    · rintro ⟨hx, hrest⟩
      rcases mem_cons.1 hx with rfl | hx
      · exact .inl rfl
      · refine .inr ⟨⟨hx, hrest a (.head _) (hhead x hx)⟩, fun y hy hyx => ?_⟩
        exact hrest y (.tail _ (mem_unreached.1 hy).1) hyx

def SameClass (R : α → α → Bool) (x y : α) : Prop := x = y ∨ R x y = true ∧ R y x = true

section
variable [LinearOrder α] {l : List α} {x : α}
  (hR : ∀ x y z, R x y = true → R y z = true → R x z = true)
include hR

/-- An element that the two passes leave is in one class with every element that reaches it. -/
theorem sameClass_of_passes (hl : l.Pairwise (· < ·)) (hfirst : ∀ y ∈ l, y < x → R y x = false)
    (hsecond : ∀ y ∈ pare R l, x < y → R y x = false) {y : α} (hy : y ∈ l) (hyx : R y x = true) :
    SameClass R y x := by
  obtain ⟨pre, post, hsplit⟩ := append_of_mem hy
  induction hlen : pre.length using Nat.strongRecOn generalizing y pre post with
  | ind k ih =>
    rcases lt_trichotomy y x with hlt | heq | hgt
    · rw [hfirst y hy hlt] at hyx
      cases hyx
    · exact .inl heq
    · have hremoved : y ∉ pare R l := fun hmem => by
        rw [hsecond y hmem hgt] at hyx
        cases hyx
      rw [mem_pare hR (fun _ _ => not_lt_of_gt) hl] at hremoved
      push Not at hremoved
      obtain ⟨z, hz, hzy, hzR⟩ := hremoved hy
      rw [ne_eq, not_eq_false] at hzR
      have hpre : z ∈ pre := by
        rw [hsplit, mem_append, mem_cons] at hz
        rcases hz with hz | rfl | hz
        · exact hz
        · exact absurd hzy (lt_irrefl _)
        · rw [hsplit] at hl
          have := (pairwise_cons.1 (pairwise_append.1 hl).2.1).1 z hz
          exact absurd hzy (not_lt_of_gt this)
      obtain ⟨pre', post', rfl⟩ := append_of_mem hpre
      have hz' : SameClass R z x := by
        refine ih pre'.length ?_ hz (hR z y x hzR hyx) pre' (post' ++ y :: post) ?_ rfl
        · rw [← hlen, length_append, length_cons]
          omega
        · rw [hsplit, append_assoc, cons_append]
      rcases hz' with rfl | ⟨-, hxz⟩
      · exact .inr ⟨hyx, hzR⟩
      · exact .inr ⟨hyx, hR x z y hxz hzR⟩

theorem mem_pare_reverse (hl : l.Pairwise (· < ·)) : x ∈ pare R (pare R l).reverse ↔
      x ∈ l ∧ (∀ y ∈ l, R y x = true → SameClass R y x) ∧ ∀ y ∈ l, SameClass R y x → x ≤ y := by
  have hfirst : ∀ x, x ∈ pare R l ↔ x ∈ l ∧ ∀ y ∈ l, y < x → R y x = false :=
    mem_pare hR (fun _ _ => not_lt_of_gt) hl
  have hrev : (pare R l).reverse.Pairwise (fun x y => y < x) :=
    pairwise_reverse.2 (hl.sublist (pare_sublist R l))
  rw [mem_pare hR (fun _ _ => not_lt_of_gt) hrev, mem_reverse]
  simp only [mem_reverse]
  constructor
  · rintro ⟨hx, hsecond⟩
    obtain ⟨hxl, hbefore⟩ := (hfirst x).1 hx
    refine ⟨hxl, fun y => sameClass_of_passes hR hl hbefore hsecond, fun y hy hyx => ?_⟩
    rcases hyx with rfl | ⟨hyx, -⟩
    · exact le_rfl
    · by_contra hlt
      rw [hbefore y hy (not_le.1 hlt)] at hyx
      cases hyx
  · rintro ⟨hxl, hclass, hleast⟩
    have hbefore : ∀ y ∈ l, y < x → R y x = false := by
      intro y hy hlt
      by_contra hyx
      rw [not_eq_false] at hyx
      exact absurd (hleast y hy (hclass y hy hyx)) (not_le.2 hlt)
    refine ⟨(hfirst x).2 ⟨hxl, hbefore⟩, fun y hy hlt => ?_⟩
    obtain ⟨hyl, hybefore⟩ := (hfirst y).1 hy
    by_contra hyx
    rw [not_eq_false] at hyx
    rcases hclass y hyl hyx with rfl | ⟨-, hxy⟩
    · exact absurd hlt (lt_irrefl _)
    · rw [hybefore x hxl hlt] at hxy
      cases hxy

end

end Tortis
