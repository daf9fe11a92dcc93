import Tortis.DataStructures.Scc
import Tortis.Lib.List
import Mathlib.Data.Fintype.Card

/-!
# What the node states stand for

Following the parents from a node leads to its mark: not visited, in the cycle of the node at a
depth of the stack, or done in a component (`Resolves`). `Represents` says that the states of a
construction stand for given marks.
-/

namespace Tortis.Scc

open List Outcome SccsConstruction Function

/-- What the search knows about a node. -/
inductive Mark where
  | notVisited
  /-- In the cycle of the node that is being visited at this depth. -/
  | onStack (depth : Nat)
  | done (sccIndex : Nat)
deriving DecidableEq

def Mark.state : Mark → NodeState
  | .notVisited => .notVisited
  | .onStack depth => .beingVisited depth
  | .done sccIndex => .inCycle sccIndex

theorem Mark.state_injective : Function.Injective Mark.state := by
  intro a b h
  cases a <;> cases b <;> simp_all [Mark.state]

@[simp] theorem Mark.state_ne_inCycleWith (m : Mark) (p : Nat) : m.state ≠ .inCycleWith p := by
  cases m <;> simp [Mark.state]

/-! ## Following the parents -/

/-- Following `k` parents from a node leads to a node with the mark. -/
inductive Resolves (states : List NodeState) : Nat → Nat → Mark → Prop
  | root {v : Nat} {m : Mark} (h : states[v]? = some m.state) : Resolves states 0 v m
  | step {k v p : Nat} {m : Mark} (h : states[v]? = some (.inCycleWith p))
      (hp : Resolves states k p m) : Resolves states (k + 1) v m

namespace Resolves
variable {states : List NodeState} {k k' v r : Nat} {m m' : Mark} {x : NodeState}

section
variable (h : Resolves states k v m)
include h

theorem unique (h' : Resolves states k' v m') : k = k' ∧ m = m' := by
  induction h generalizing k' with
  | root hv =>
    cases h' with
    | root hv' =>
      rw [hv] at hv'
      exact ⟨rfl, Mark.state_injective (Option.some.inj hv')⟩
    | step hv' _ =>
      rw [hv] at hv'
      exact absurd (Option.some.inj hv') (Mark.state_ne_inCycleWith _ _)
  | step hv _ ih =>
    cases h' with
    | root hv' =>
      rw [hv] at hv'
      exact absurd (Option.some.inj hv').symm (Mark.state_ne_inCycleWith _ _)
    | step hv' hp' =>
      rw [hv] at hv'
      cases hv'
      obtain ⟨rfl, rfl⟩ := ih hp'
      exact ⟨rfl, rfl⟩

theorem lt_length : v < states.length := by
  cases h with
  | root hv => exact (List.getElem?_eq_some_iff.1 hv).1
  | step hv _ => exact (List.getElem?_eq_some_iff.1 hv).1

theorem exists_of_le : ∀ j ≤ k, ∃ u, Resolves states j u m := by
  induction h with
  | root hv =>
    intro j hj
    obtain rfl := Nat.le_zero.1 hj
    exact ⟨_, .root hv⟩
  | @step k v p m hv hp ih =>
    intro j hj
    rcases Nat.le_succ_iff.1 hj with hj | rfl
    · exact ih j hj
    · exact ⟨v, .step hv hp⟩

theorem lt_states : k < states.length := by
  choose f hf using fun j : Fin (k + 1) => h.exists_of_le j.1 (Nat.lt_succ_iff.1 j.2)
  have hinj : Function.Injective fun j : Fin (k + 1) =>
      (⟨f j, (hf j).lt_length⟩ : Fin states.length) := by
    intro i j hij
    have heq : f i = f j := congrArg Fin.val hij
    exact Fin.ext ((hf i).unique (heq ▸ hf j)).1
  have hcard := Fintype.card_le_of_injective _ hinj
  rw [Fintype.card_fin, Fintype.card_fin] at hcard
  exact hcard

theorem exists_root : ∃ u : Nat, states[u]? = some m.state := by
  induction h with
  | root hv => exact ⟨_, hv⟩
  | step _ _ ih => exact ih

end

section
variable (h : Resolves states k v m)
include h

/-- When one state is overwritten a chain is as before, or it passes the node that was overwritten
and leads on to where that node now leads. -/
theorem set (r : Nat) (x : NodeState) :
    Resolves (states.set r x) k v m ∨ (∃ j, Resolves states j r m) ∧
      ∀ j m', Resolves (states.set r x) j r m' → ∃ k', Resolves (states.set r x) k' v m' := by
  induction h with
  | @root v m hv =>
    by_cases hvr : v = r
    · subst hvr
      exact .inr ⟨⟨0, .root hv⟩, fun j m' h => ⟨j, h⟩⟩
    · exact .inl (.root (by rwa [getElem?_set_ne (Ne.symm hvr)]))
  | @step k v p m hv hp ih =>
    by_cases hvr : v = r
    · subst hvr
      exact .inr ⟨⟨k + 1, .step hv hp⟩, fun j m' h => ⟨j, h⟩⟩
    · have hv' : (states.set r x)[v]? = some (.inCycleWith p) := by
        rwa [getElem?_set_ne (Ne.symm hvr)]
      rcases ih with ih | ⟨hr, ih⟩
      · exact .inl (.step hv' ih)
      · refine .inr ⟨hr, fun j m' h => ?_⟩
        obtain ⟨k', hk'⟩ := ih j m' h
        exact ⟨k' + 1, .step hv' hk'⟩

theorem set_same {j : Nat} (hr : Resolves states k' r m')
    (hr' : Resolves (states.set r x) j r m') : ∃ k', Resolves (states.set r x) k' v m := by
  rcases h.set r x with h | ⟨⟨i, hi⟩, hfollow⟩
  · exact ⟨k, h⟩
  · obtain ⟨-, rfl⟩ := hi.unique hr
    exact hfollow _ _ hr'

theorem set_other (hr : Resolves states k' r m') (hne : m ≠ m')
    (x : NodeState) : Resolves (states.set r x) k v m := by
  rcases h.set r x with h | ⟨⟨i, hi⟩, -⟩
  · exact h
  · exact absurd (hi.unique hr).2 hne

theorem set_root {j : Nat} (honly : ∀ u : Nat, states[u]? = some m.state → u = r) (hx : x ≠ m.state)
    (hr' : Resolves (states.set r x) j r m') : ∃ k', Resolves (states.set r x) k' v m' := by
  rcases h.set r x with h | ⟨-, hfollow⟩
  · obtain ⟨u, hu⟩ := h.exists_root
    rw [getElem?_set] at hu
    split at hu
    · split at hu
      · exact absurd (Option.some.inj hu) hx
      · cases hu
    · rename_i hru
      exact absurd (honly u hu).symm hru
  · exact hfollow _ _ hr'

end

end Resolves

/-! ## States that stand for marks -/

/-- All nodes with one mark get another one. -/
def moveMark (f : Nat → Mark) (m m' : Mark) (v : Nat) : Mark := if f v = m then m' else f v

/-- The states of a construction over `n` nodes stand for the marks `f`, and the stack holds the
nodes that are being visited. -/
structure Represents (n : Nat) (c : SccsConstruction) (f : Nat → Mark) : Prop where
  length_eq : c.nodeStates.length = n
  resolves : ∀ v < n, ∃ k, Resolves c.nodeStates k v (f v)
  fresh : ∀ v < n, f v = .notVisited → c.nodeStates[v]? = some .notVisited
  stack : ∀ d u : Nat, c.nodeStack[d]? = some u ↔ c.nodeStates[u]? = some (.beingVisited d)

namespace Represents
variable {n : Nat} {c : SccsConstruction} {f : Nat → Mark}

theorem init (n : Nat) (d : SccData) :
    Represents n ⟨replicate n .notVisited, [], [], d⟩ fun _ => .notVisited where
  length_eq := length_replicate
  resolves v hv := ⟨0, .root (by simp [hv, Mark.state])⟩
  fresh v hv _ := by simp [hv]
  stack d u := by simp [getElem?_replicate]

section
variable (h : Represents n c f)
include h

theorem mark_of_stack {d u : Nat} (hu : c.nodeStack[d]? = some u) : u < n ∧ f u = .onStack d := by
  have hroot := (h.stack d u).1 hu
  have hlt : u < n := h.length_eq ▸ (List.getElem?_eq_some_iff.1 hroot).1
  obtain ⟨k, hk⟩ := h.resolves u hlt
  have hd : Resolves c.nodeStates 0 u (.onStack d) := .root hroot
  exact ⟨hlt, (hk.unique hd).2⟩

theorem stack_of_mark {v d : Nat} (hv : v < n) (hd : f v = .onStack d) :
    ∃ u, c.nodeStack[d]? = some u := by
  obtain ⟨k, hk⟩ := h.resolves v hv
  obtain ⟨u, hu⟩ := hk.exists_root
  rw [hd] at hu
  exact ⟨u, (h.stack d u).2 hu⟩

theorem depth_lt {v d : Nat} (hv : v < n) (hd : f v = .onStack d) : d < c.nodeStack.length := by
  obtain ⟨u, hu⟩ := h.stack_of_mark hv hd
  exact (List.getElem?_eq_some_iff.1 hu).1

theorem compress {r k : Nat} {x : NodeState} (hr : r < n)
    (hfr : f r ≠ .notVisited) (hstack : ∀ d : Nat, c.nodeStack[d]? ≠ some r)
    (hx : ∀ d, x ≠ .beingVisited d) (hrx : Resolves (c.nodeStates.set r x) k r (f r)) :
    Represents n (c.setState r x) f where
  length_eq := by
    rw [setState, length_set]
    exact h.length_eq
  resolves v hv := by
    obtain ⟨i, hi⟩ := h.resolves v hv
    obtain ⟨j, hj⟩ := h.resolves r hr
    exact hi.set_same hj hrx
  fresh v hv hf := by
    have hvr : r ≠ v := fun heq => hfr (heq ▸ hf)
    rw [setState, getElem?_set_ne hvr]
    exact h.fresh v hv hf
  stack d u := by
    by_cases hru : r = u
    · subst hru
      refine ⟨fun hd => absurd hd (hstack d), fun hd => ?_⟩
      rw [setState, getElem?_set_self (h.length_eq ▸ hr)] at hd
      exact absurd (Option.some.inj hd) (hx d)
    · rw [setState, getElem?_set_ne hru]
      exact h.stack d u

end

theorem findState_chain : ∀ {k i r : Nat} {c : SccsConstruction}, Represents n c f →
    Resolves c.nodeStates k r (f r) → k < i → ∃ states,
      c.findState i r = .ok ((f r).state, { c with nodeStates := states }) ∧
        Represents n { c with nodeStates := states } f
  | k, 0, _, _, _, _, hi => absurd hi (Nat.not_lt_zero k)
  | 0, i + 1, r, c, h, .root hr, _ => by
    refine ⟨c.nodeStates, ?_, h⟩
    rw [findState, hr]
    cases f r <;> rfl
  | k + 1, i + 1, r, c, h, .step (p := p) hr hp, hi => by
    have hlt : r < n := h.length_eq ▸ (List.getElem?_eq_some_iff.1 hr).1
    have hfp : f p = f r := by
      obtain ⟨j, hj⟩ := h.resolves p (h.length_eq ▸ hp.lt_length)
      exact (hj.unique hp).2
    have hfr : f r ≠ .notVisited := fun hf => by
      rw [h.fresh r hlt hf] at hr
      cases hr
    have hstack : ∀ d : Nat, c.nodeStack[d]? ≠ some r := fun d hd => by
      rw [(h.stack d r).1 hd] at hr
      cases hr
    obtain ⟨states, hfind, hrep⟩ := findState_chain h (hfp ▸ hp) (Nat.lt_of_succ_lt_succ hi)
    rw [findState, hr, expect_some, ok_bind]
    dsimp only
    rw [hfind, ok_bind, hfp]
    have hrlen : r < states.length := hrep.length_eq.symm ▸ hlt
    cases hm : f r with
    | notVisited => exact absurd hm hfr
    | done s =>
      refine ⟨states.set r (.inCycle s), rfl, ?_⟩
      exact hrep.compress (k := 0) hlt hfr hstack nofun
        (.root (by rw [hm]; exact getElem?_set_self hrlen))
    | onStack d =>
      obtain ⟨u, hu⟩ := hrep.stack_of_mark hlt hm
      have hru : r ≠ u := fun heq => hstack d (heq ▸ hu)
      refine ⟨states.set r (.inCycleWith u), ?_, ?_⟩
      · dsimp only [Mark.state] at hu ⊢
        rw [hu]
        rfl
      · refine hrep.compress (k := 1) hlt hfr hstack nofun
          (.step (getElem?_set_self hrlen) (.root ?_))
        rw [hm, getElem?_set_ne hru]
        exact (hrep.stack d u).1 hu

theorem findState_spec (h : Represents n c f) {r : Nat} (hr : r < n) : ∃ states,
    c.findState n r = .ok ((f r).state, { c with nodeStates := states }) ∧
      Represents n { c with nodeStates := states } f := by
  obtain ⟨k, hk⟩ := h.resolves r hr
  exact h.findState_chain hk (h.length_eq ▸ hk.lt_states)

theorem push (h : Represents n c f) {node : Nat} (hnode : node < n)
    (hf : f node = .notVisited) : Represents n (c.push c.nodeStack.length node)
      (update f node (.onStack c.nodeStack.length)) where
  length_eq := by
    simp only [SccsConstruction.push, setState, length_set]
    exact h.length_eq
  resolves v hv := by
    have hlen : node < c.nodeStates.length := h.length_eq ▸ hnode
    by_cases hvn : v = node
    · subst hvn
      rw [update_self]
      exact ⟨0, .root (getElem?_set_self hlen)⟩
    · rw [update_of_ne hvn]
      by_cases hfv : f v = .notVisited
      · refine ⟨0, .root ?_⟩
        rw [hfv]
        exact (getElem?_set_ne (Ne.symm hvn)).trans (h.fresh v hv hfv)
      · obtain ⟨k, hk⟩ := h.resolves v hv
        have hroot : Resolves c.nodeStates 0 node .notVisited := .root (h.fresh node hnode hf)
        exact ⟨k, hk.set_other hroot hfv _⟩
  fresh v hv hfv := by
    by_cases hvn : v = node
    · subst hvn
      rw [update_self] at hfv
      cases hfv
    · rw [update_of_ne hvn] at hfv
      exact (getElem?_set_ne (Ne.symm hvn)).trans (h.fresh v hv hfv)
  stack d u := by
    dsimp only [SccsConstruction.push, setState]
    have hlen : node < c.nodeStates.length := h.length_eq ▸ hnode
    have hnot : ∀ d : Nat, c.nodeStack[d]? ≠ some node := fun d hd => by
      rw [(h.mark_of_stack hd).2] at hf
      cases hf
    rw [getElem?_concat_eq_some]
    by_cases hun : node = u
    · subst hun
      rw [getElem?_set_self hlen, Option.some_inj, NodeState.beingVisited.injEq]
      exact ⟨fun hd => ((hd.resolve_left (hnot d)).1).symm, fun hd => .inr ⟨hd.symm, rfl⟩⟩
    · rw [getElem?_set_ne hun, ← h.stack]
      exact ⟨fun hd => hd.resolve_right fun hd => hun hd.2, .inl⟩

theorem pop (h : Represents n c f) {base : List Nat} {node k : Nat} {m : Mark} {x : NodeState}
    (hstack : c.nodeStack = base ++ [node]) (hx : ∀ d, x ≠ .beingVisited d)
    (hm : m ≠ .notVisited) (hnode : Resolves (c.nodeStates.set node x) k node m) :
    Represents n ({ c with nodeStack := base }.setState node x)
      (moveMark f (.onStack base.length) m) where
  length_eq := by
    simp only [setState, length_set]
    exact h.length_eq
  resolves v hv := by
    obtain ⟨i, hi⟩ := h.resolves v hv
    have hd : c.nodeStack[base.length]? = some node := by
      rw [hstack, getElem?_concat_length]
    unfold moveMark
    split
    · rename_i hfv
      rw [hfv] at hi
      refine hi.set_root (fun u hu => ?_) (hx _) hnode
      rw [(h.stack base.length u).2 hu] at hd
      exact Option.some.inj hd
    · rename_i hfv
      have hroot : Resolves c.nodeStates 0 node (.onStack base.length) := .root ((h.stack _ _).1 hd)
      exact ⟨i, hi.set_other hroot hfv x⟩
  fresh v hv hfv := by
    have hf : f v = .notVisited := by
      unfold moveMark at hfv
      split at hfv
      · exact absurd hfv hm
      · exact hfv
    have hne : node ≠ v := by
      rintro rfl
      have hd : c.nodeStack[base.length]? = some node := by
        rw [hstack, getElem?_concat_length]
      rw [(h.mark_of_stack hd).2] at hf
      cases hf
    exact (getElem?_set_ne hne).trans (h.fresh v hv hf)
  stack d u := by
    dsimp only [setState]
    by_cases hnu : node = u
    · subst hnu
      have hlen : node < c.nodeStates.length := by
        rw [← length_set]
        exact hnode.lt_length
      rw [getElem?_set_self hlen]
      refine ⟨fun hd => ?_, fun hd => absurd (Option.some.inj hd) (hx d)⟩
      -- the node would be on the stack twice
      have hlow : c.nodeStack[d]? = some node := by
        rw [hstack, getElem?_concat_eq_some]
        exact .inl hd
      have htop : c.nodeStack[base.length]? = some node := by
        rw [hstack, getElem?_concat_length]
      have heq := (h.mark_of_stack hlow).2.symm.trans (h.mark_of_stack htop).2
      have hlt := (List.getElem?_eq_some_iff.1 hd).1
      exact absurd (Mark.onStack.inj heq) hlt.ne
    · rw [getElem?_set_ne hnu, ← h.stack, hstack, getElem?_concat_eq_some]
      exact ⟨.inl, fun hd => hd.resolve_right fun hd => hnu hd.2⟩

end Represents

end Tortis.Scc
