import Tortis.Lib.Slice

/-!
# Heap order

The binary tree in a list has the place `(i - 1) / 2` as the parent of the place `i`. `Heap r l lo n`
says that among the first `n` places each element is related to its parent, for parents from `lo`
on. `Gap` is what is left of it while the element at one place is on its way: exchanging it with its
greatest child (`Gap.down`) or with its parent (`Gap.up`) moves the gap there, and it closes where
the element fits (`Gap.close`).
-/

namespace Tortis.HeapOrder

open Slice

variable {α : Type} {r : α → α → Prop} {l : List α} {lo n p c i : Nat}

def parent (i : Nat) : Nat := (i - 1) / 2

theorem parent_lt (h : 0 < i) : parent i < i := by
  rw [parent]
  omega

theorem parent_eq_iff (h : 0 < c) : parent c = p ↔ c = 2 * p + 1 ∨ c = 2 * p + 2 := by
  rw [parent]
  omega

/-- Elements are related to their parents. -/
def Heap (r : α → α → Prop) (l : List α) (lo n : Nat) : Prop :=
  ∀ i, 0 < i → i < n → lo ≤ parent i → At r l i (parent i)

theorem Heap.congr {l' : List α} (h : Heap r l lo n)
    (heq : ∀ i, i < n → (i = 0 → lo = 0) → l'[i]? = l[i]?) : Heap r l' lo n := by
  intro i h0 hi hlo
  have hlt := parent_lt h0
  rw [At, heq i hi (by omega), heq (parent i) (by omega) (by omega)]
  exact h i h0 hi hlo

theorem Heap.mono {m : Nat} (h : Heap r l lo n) (hm : m ≤ n) : Heap r l lo m :=
  fun i h0 hi hlo => h i h0 (by omega) hlo

theorem Heap.from_later {lo' : Nat} (h : Heap r l lo n) (hlo : lo ≤ lo') : Heap r l lo' n :=
  fun i h0 hi hp => h i h0 hi (by omega)

theorem Heap.of_half (h : n ≤ 2 * lo + 1) : Heap r l lo n := by
  intro i h0 hi hlo
  rw [parent] at hlo
  omega

/-- The element at `p` need not fit to its parent and its children, but these fit to each other. -/
structure Gap (r : α → α → Prop) (l : List α) (lo n p : Nat) : Prop where
  off : ∀ i, 0 < i → i < n → lo ≤ parent i → i ≠ p → parent i ≠ p → At r l i (parent i)
  across : ∀ c, 0 < c → c < n → parent c = p → 0 < p → lo ≤ parent p → At r l c (parent p)

/-- The children of the element at `p` fit. -/
def FitsDown (r : α → α → Prop) (l : List α) (n p : Nat) : Prop :=
  ∀ c, 0 < c → c < n → parent c = p → At r l c p

/-- The parent of the element at `p` fits. -/
def FitsUp (r : α → α → Prop) (l : List α) (lo p : Nat) : Prop :=
  0 < p → lo ≤ parent p → At r l p (parent p)

theorem Heap.gap_last (h : Heap r l 0 p) (hn : n = p + 1) : Gap r l 0 n p where
  off i h0 hi hlo hne _ := h i h0 (by omega) hlo
  across c h0 hc hp _ := by
    have := parent_lt h0
    omega

theorem FitsDown.last (hn : n ≤ p + 1) : FitsDown r l n p := by
  intro c h0 hc hp
  have := parent_lt h0
  omega

theorem Heap.gap_first (h : Heap r l (p + 1) n) : Gap r l p n p where
  off i h0 hi hlo _ hp := h i h0 hi (by omega)
  across c h0 hc hp h0p hlo := by
    have := parent_lt h0p
    omega

theorem FitsUp.first : FitsUp r l p p := fun h0 hlo => by
  have := parent_lt h0
  omega

theorem Gap.close (h : Gap r l lo n p) (hdown : FitsDown r l n p) (hup : FitsUp r l lo p) :
    Heap r l lo n := by
  intro i h0 hi hlo
  by_cases hip : i = p
  · subst hip
    exact hup h0 hlo
  by_cases hpp : parent i = p
  · rw [hpp]
    exact hdown i h0 hi hpp
  · exact h.off i h0 hi hlo hip hpp

theorem swap_of_ne {a b x : Nat} (ha : x ≠ a) (hb : x ≠ b) : Equiv.swap a b x = x :=
  Equiv.swap_apply_of_ne_of_ne ha hb

theorem Gap.down (h : Gap r l lo n p) (hlo : lo ≤ p) (hn : n ≤ l.length) (h0 : 0 < c) (hc : c < n)
    (hp : parent c = p) (hgreatest : ∀ d, 0 < d → d < n → parent d = p → d ≠ c → At r l d c) :
    Gap r (exchange l p c) lo n c := by
  have hpc : p < c := hp ▸ parent_lt h0
  have hat := fun i j => @At.exchange _ l i j r p c (by omega) (by omega)
  constructor
  · intro i h0i hi hloi hic hpi
    have hlt := parent_lt h0i
    rw [hat]
    by_cases hip : i = p
    · subst hip
      rw [Equiv.swap_apply_left, swap_of_ne (ne_of_lt hlt) hpi]
      exact h.across c h0 hc hp h0i hloi
    rw [swap_of_ne hip hic]
    by_cases hpp : parent i = p
    · rw [hpp, Equiv.swap_apply_left]
      exact hgreatest i h0i hi hpp hic
    · rw [swap_of_ne hpp hpi]
      exact h.off i h0i hi hloi hip hpp
  · intro d h0d hd hpd _ _
    have hlt := hpd ▸ parent_lt h0d
    rw [hat, hp, Equiv.swap_apply_left, swap_of_ne (by omega) (by omega), ← hpd]
    exact h.off d h0d hd (by omega) (by omega) (by omega)

theorem FitsUp.down (hn : n ≤ l.length) (h0 : 0 < c) (hc : c < n) (hp : parent c = p)
    (hle : At r l p c) : FitsUp r (exchange l p c) lo c := by
  intro _ _
  have := parent_lt h0
  rw [At.exchange (by omega) (by omega), hp, Equiv.swap_apply_right, Equiv.swap_apply_left]
  exact hle

theorem Gap.up [IsTrans α r] (h : Gap r l 0 n p) (hn : n ≤ l.length) (h0 : 0 < p) (hp : p < n) :
    Gap r (exchange l p (parent p)) 0 n (parent p) := by
  have hlt := parent_lt h0
  have hat := fun i j => @At.exchange _ l i j r p (parent p) (by omega) (by omega)
  constructor
  · intro i h0i hi _ hiq hpi
    have hip : i ≠ p := fun hip => hpi (congrArg parent hip)
    rw [hat, swap_of_ne hip hiq]
    by_cases hpp : parent i = p
    · rw [hpp, Equiv.swap_apply_left]
      exact h.across i h0i hi hpp h0 (Nat.zero_le _)
    · rw [swap_of_ne hpp hpi]
      exact h.off i h0i hi (Nat.zero_le _) hip hpp
  · intro c h0c hc hpc h0q _
    have hltq := parent_lt h0q
    have hltc := hpc ▸ parent_lt h0c
    have hq := h.off (parent p) h0q (by omega) (Nat.zero_le _) (by omega) (by omega)
    rw [hat, swap_of_ne (x := parent (parent p)) (by omega) (by omega)]
    by_cases hcp : c = p
    · rw [hcp, Equiv.swap_apply_left]
      exact hq
    · rw [swap_of_ne hcp (by omega)]
      have hcq := h.off c h0c hc (Nat.zero_le _) hcp (by omega)
      rw [hpc] at hcq
      exact hcq.trans hq (by omega)

theorem FitsDown.up [IsTrans α r] (h : Gap r l 0 n p) (hn : n ≤ l.length) (h0 : 0 < p) (hp : p < n)
    (hle : At r l (parent p) p) : FitsDown r (exchange l p (parent p)) n (parent p) := by
  intro c h0c hc hpc
  have hlt := parent_lt h0
  have hltc := hpc ▸ parent_lt h0c
  rw [At.exchange (by omega) (by omega), Equiv.swap_apply_right]
  by_cases hcp : c = p
  · rw [hcp, Equiv.swap_apply_left]
    exact hle
  · rw [swap_of_ne hcp (by omega)]
    have hcq := h.off c h0c hc (Nat.zero_le _) hcp (by omega)
    rw [hpc] at hcq
    exact hcq.trans hle (by omega)

theorem Heap.root [Std.Refl r] [IsTrans α r] (h : Heap r l 0 n) (hn : n ≤ l.length) :
    ∀ i, i < n → At r l i 0 := by
  intro i
  induction i using Nat.strongRecOn with
  | ind i ih =>
    intro hi
    rcases Nat.eq_zero_or_pos i with rfl | h0
    · intro a ha b hb
      rw [ha] at hb
      cases hb
      exact Std.Refl.refl a
    · have hlt := parent_lt h0
      exact (h i h0 hi (Nat.zero_le _)).trans (ih (parent i) hlt (by omega)) (by omega)

end Tortis.HeapOrder
