import Tortis.Lib.Postorder

/-!
# Preorder

A search with a worklist: a node is taken off the worklist and, unless it is marked, marked and put
out, and its successors go on the worklist, which may hold a node several times. `Step` is one turn,
`Inv` what every turn keeps, and `IsPreorder` what is known of the nodes put out once the worklist
is empty.
-/

namespace Tortis

open List

section
variable {α : Type} {succ : α → List α} {root : α}

/-- What is known of the nodes of a preorder search from the root, in the order they are put out. -/
structure IsPreorder (succ : α → List α) (root : α) (out : List α) : Prop where
  nodup : out.Nodup
  mem_iff : ∀ b, b ∈ out ↔ Reach succ root b
  after : ∀ pre x post, out = pre ++ x :: post → x ≠ root → ∃ p ∈ pre, x ∈ succ p

/-- The state of a search: the marks, the worklist (next node first) and the nodes put out. -/
structure Sweep (α : Type) where
  visited : FxHashSet α
  worklist : List α
  out : List α

namespace Sweep

variable [DecidableEq α]

/-- One turn of the search: pass over a marked node, or put an unmarked one out. -/
inductive Step (succ : α → List α) : Sweep α → Sweep α → Prop
  | skip {vis x wl out} : x ∈ vis → Step succ ⟨vis, x :: wl, out⟩ ⟨vis, wl, out⟩
  | visit {vis x wl out} : x ∉ vis → Step succ ⟨vis, x :: wl, out⟩
      ⟨vis.insert x, (succ x).reverse ++ wl, out ++ [x]⟩

/-- What the search keeps. -/
structure Inv (succ : α → List α) (root : α) (w : Sweep α) : Prop where
  nodup : w.out.Nodup
  mem_visited : ∀ b, b ∈ w.visited ↔ b ∈ w.out
  start : root ∈ w.out ∨ root ∈ w.worklist
  closed : ∀ b ∈ w.out, ∀ s ∈ succ b, s ∈ w.out ∨ s ∈ w.worklist
  pending : ∀ b ∈ w.worklist, b ≠ root → ∃ p ∈ w.out, b ∈ succ p
  after : ∀ pre x post, w.out = pre ++ x :: post → x ≠ root → ∃ p ∈ pre, x ∈ succ p

omit [DecidableEq α] in
theorem start_inv : Inv succ root ⟨∅, [root], []⟩ := by
  constructor <;> simp

theorem Step.inv {w w' : Sweep α} (hs : Step succ w w') (h : Inv succ root w) :
    Inv succ root w' := by
  cases hs with
  | @skip vis x wl out hx =>
    have hout : x ∈ out := (h.mem_visited x).1 hx
    have drop : ∀ b, b ∈ out ∨ b ∈ x :: wl → b ∈ out ∨ b ∈ wl := by
      intro b hb
      rcases hb with hb | hb
      · exact .inl hb
      · rcases mem_cons.1 hb with rfl | hb
        exacts [.inl hout, .inr hb]
    exact ⟨h.nodup, h.mem_visited, drop root h.start, fun b hb s hs => drop s (h.closed b hb s hs),
      fun b hb => h.pending b (.tail _ hb), h.after⟩
  | @visit vis x wl out hx =>
    have hout : x ∉ out := mt (h.mem_visited x).2 hx
    have keep : ∀ b, b ∈ out ∨ b ∈ x :: wl → b ∈ out ++ [x] ∨ b ∈ (succ x).reverse ++ wl := by
      intro b hb
      simp only [mem_append, mem_cons, mem_nil_iff, or_false] at hb ⊢
      tauto
    refine ⟨?_, ?_, keep root h.start, ?_, ?_, ?_⟩
    · exact h.nodup.append (nodup_singleton x) (by simpa using hout)
    · intro b
      simp [h.mem_visited b, or_comm]
    · intro b hb s hs
      rcases mem_append.1 hb with hb | hb
      · exact keep s (h.closed b hb s hs)
      · rw [mem_singleton.1 hb] at hs
        exact .inr (mem_append_left _ (mem_reverse.2 hs))
    · intro b hb hne
      rcases mem_append.1 hb with hb | hb
      · exact ⟨x, by simp, mem_reverse.1 hb⟩
      · obtain ⟨p, hp, hbp⟩ := h.pending b (.tail _ hb) hne
        exact ⟨p, mem_append_left _ hp, hbp⟩
    · intro pre y post hsplit hne
      rcases Walk.append_singleton_split hsplit with ⟨rfl, rfl⟩ | ⟨post', hout⟩
      · exact h.pending y (.head _) hne
      · exact h.after pre y post' hout hne

omit [DecidableEq α] in
theorem Inv.reach {w : Sweep α} (h : Inv succ root w) : ∀ b ∈ w.out, Reach succ root b := by
  have key : ∀ (k : Nat) (pre : List α) x post, pre.length = k → w.out = pre ++ x :: post →
      Reach succ root x := by
    intro k
    induction k using Nat.strong_induction_on with
    | _ k ih =>
      intro pre x post hk hsplit
      by_cases hx : x = root
      · exact hx ▸ .refl
      obtain ⟨p, hp, hxp⟩ := h.after pre x post hsplit hx
      obtain ⟨a, c, rfl⟩ := append_of_mem hp
      have hlt : a.length < k := by
        rw [← hk]
        simp
      exact (ih a.length hlt a p (c ++ x :: post) rfl (by simp [hsplit])).tail hxp
  intro b hb
  obtain ⟨pre, post, hsplit⟩ := append_of_mem hb
  exact key _ pre b post rfl hsplit

omit [DecidableEq α] in
theorem Inv.isPreorder {vis : FxHashSet α} {out : List α} (h : Inv succ root ⟨vis, [], out⟩) :
    IsPreorder succ root out where
  nodup := h.nodup
  mem_iff b := by
    constructor
    · exact h.reach b
    · intro hb
      induction hb with
      | refl => simpa using h.start
      | tail _ hbc ih => simpa using h.closed _ ih _ hbc
  after := h.after

end Sweep

end

end Tortis
