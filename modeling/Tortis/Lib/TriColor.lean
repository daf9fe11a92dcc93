import Tortis.Lib.Postorder

/-!
# The edges of a postorder walk

A postorder walk looks at every edge that leaves a node it reaches: a tree edge leads to a new node,
a back edge to a node that is entered and not left, and any other edge to a node that is left.
`Finishes` is the rest of a walk, move by move. There is a move along a back edge exactly when a
cycle is reached from the root (`Finishes.exists_back_iff`).
-/

namespace Tortis

open List

section
variable {α : Type} {succ : α → List α} {root : α}

/-- When a node is put out, each successor of a node put out so far is put out or leads to it. -/
def Awaited (succ : α → List α) (out : List α) : Prop :=
  ∀ pre x post, out = pre ++ x :: post → ∀ u ∈ pre ++ [x], ∀ s ∈ succ u,
    s ∈ pre ++ [x] ∨ Reach succ s x

theorem Awaited.mem_pre {pre post : List α} {x m : α} (h : Awaited succ (pre ++ x :: post))
    (hm : Relation.TransGen (fun u v => v ∈ succ u ∧ ¬ Reach succ v x) x m) : m ∈ pre := by
  have step : ∀ {u v}, u ∈ pre ++ [x] → v ∈ succ u → ¬ Reach succ v x → v ∈ pre := by
    intro u v hu huv hv
    have hmem := (h pre x post rfl u hu v huv).resolve_right hv
    rcases mem_append.1 hmem with hmem | hmem
    · exact hmem
    · exact absurd (mem_singleton.1 hmem ▸ .refl) hv
  induction hm with
  | single hxv => exact step (by simp) hxv.1 hxv.2
  | tail _ huv ih => exact step (mem_append_left _ ih) huv.1 huv.2

/-- Every successor of a node is put out before it. -/
def SuccessorsFirst (succ : α → List α) (out : List α) : Prop :=
  ∀ pre x post, out = pre ++ x :: post → ∀ s ∈ succ x, s ∈ pre

theorem SuccessorsFirst.mem_pre {out pre post : List α} {x y : α} (h : SuccessorsFirst succ out)
    (hout : out = pre ++ x :: post) (hy : Relation.TransGen (fun u v => v ∈ succ u) x y) :
    y ∈ pre := by
  induction hy with
  | single hxy => exact h pre x post hout _ hxy
  | @tail b c _ hbc ih =>
    obtain ⟨pre1, pre2, rfl⟩ := append_of_mem ih
    have hc := h pre1 b (pre2 ++ x :: post) (by rw [hout]; simp) c hbc
    exact mem_append_left _ hc

theorem SuccessorsFirst.acyclic {out : List α} (h : SuccessorsFirst succ out) (hnd : out.Nodup)
    {x : α} (hx : x ∈ out) : ¬ Relation.TransGen (fun u v => v ∈ succ u) x x := by
  intro hcycle
  obtain ⟨pre, post, hout⟩ := append_of_mem hx
  have hpre := h.mem_pre hout hcycle
  rw [hout] at hnd
  exact (nodup_append.1 hnd).2.2 x hpre x (.head _) rfl

namespace Walk

/-- What a walk does in one turn: it looks at an edge to a new node, to a node it has entered and not
left, or to a node it has left, or it leaves a node. -/
inductive Move (α : Type) where
  | enter (v : α)
  | back (v : α)
  | pass (v : α)
  | leave (v : α)

def Move.left : Move α → Option α
  | .leave v => some v
  | _ => none

variable [DecidableEq α]

/-- The moves of a walk up to the empty stack, and the nodes that are put out then. -/
inductive Finishes (succ : α → List α) : Walk α → List (Move α) → List α → Prop
  | done {vis out} : Finishes succ ⟨vis, [], out⟩ [] out
  | enter {vis b s iter st out moves fin} : s ∉ vis →
      Finishes succ ⟨vis.insert s, (s, succ s) :: (b, iter) :: st, out⟩ moves fin →
      Finishes succ ⟨vis, (b, s :: iter) :: st, out⟩ (.enter s :: moves) fin
  | back {vis b s iter st out moves fin} : s ∈ vis → s ∉ out →
      Finishes succ ⟨vis, (b, iter) :: st, out⟩ moves fin →
      Finishes succ ⟨vis, (b, s :: iter) :: st, out⟩ (.back s :: moves) fin
  | pass {vis b s iter st out moves fin} : s ∈ vis → s ∈ out →
      Finishes succ ⟨vis, (b, iter) :: st, out⟩ moves fin →
      Finishes succ ⟨vis, (b, s :: iter) :: st, out⟩ (.pass s :: moves) fin
  | leave {vis b st out moves fin} : Finishes succ ⟨vis, st, out ++ [b]⟩ moves fin →
      Finishes succ ⟨vis, (b, []) :: st, out⟩ (.leave b :: moves) fin

variable {w w' : Walk α}

theorem Step.finishes (hs : Step succ w w') : ∃ move : Move α,
    ∀ {moves fin}, Finishes succ w' moves fin → Finishes succ w (move :: moves) fin := by
  cases hs with
  | @skip vis b s iter st out hvis =>
    by_cases hout : s ∈ out
    · exact ⟨.pass s, .pass hvis hout⟩
    · exact ⟨.back s, .back hvis hout⟩
  | @push vis b s iter st out hvis => exact ⟨.enter s, .enter hvis⟩
  | @pop vis b st out => exact ⟨.leave b, .leave⟩

theorem exists_step (vis : FxHashSet α) (e : α × List α) (st : List (α × List α)) (out : List α) :
    ∃ w', Step succ ⟨vis, e :: st, out⟩ w' := by
  obtain ⟨b, _ | ⟨s, iter⟩⟩ := e
  · exact ⟨_, .pop⟩
  · by_cases hvis : s ∈ vis
    · exact ⟨_, .skip hvis⟩
    · exact ⟨_, .push hvis⟩

variable {w : Walk α}

omit [DecidableEq α] in
theorem Inv.reach_remaining (h : Inv succ root w) :
    ∀ e ∈ w.stack, ∀ s ∈ e.2, Reach succ root s := by
  intro e he s hs
  have hvis : e.1 ∈ w.visited := (h.mem_visited e.1).2 (.inl (mem_map_of_mem he))
  have hreach : Reach succ root e.1 := Relation.ReflTransGen.mono (fun _ _ => And.left) _ _
    (h.reach e.1 hvis)
  exact hreach.tail (h.remaining e he s hs)

theorem exists_finishes {V : Finset α} (hV : ∀ v, Reach succ root v → v ∈ V) :
    ∀ (n : Nat) (w : Walk α), Inv succ root w → w.turns succ V ≤ n →
      ∃ moves fin, Finishes succ w moves fin ∧ moves.length ≤ n
  | n, ⟨vis, [], out⟩, _, _ => ⟨[], out, .done, Nat.zero_le n⟩
  | n, ⟨vis, e :: st, out⟩, h, hn => by
    obtain ⟨w', hs⟩ : ∃ w', Step succ ⟨vis, e :: st, out⟩ w' := exists_step vis e st out
    have hlt := hs.turns_lt_of_mem fun e he s hs => hV s (h.reach_remaining e he s hs)
    obtain ⟨k, rfl⟩ : ∃ k, n = k + 1 := ⟨n - 1, by omega⟩
    obtain ⟨moves, fin, hfin, hlen⟩ := exists_finishes hV k w' (hs.inv h) (by omega)
    obtain ⟨move, hmove⟩ := hs.finishes
    exact ⟨move :: moves, fin, hmove hfin, by simpa using hlen⟩

variable {fin : List α} {moves : List (Move α)}

theorem Finishes.inv {P : Walk α → Prop}
    (hP : ∀ {w w'}, Step succ w w' → Inv succ root w → P w → P w') (hf : Finishes succ w moves fin)
    (h : Inv succ root w) (hw : P w) : ∃ vis, Inv succ root ⟨vis, [], fin⟩ ∧ P ⟨vis, [], fin⟩ := by
  induction hf with
  | done => exact ⟨_, h, hw⟩
  | enter hvis _ ih => exact ih ((Step.push hvis).inv h) (hP (.push hvis) h hw)
  | back hvis _ _ ih | pass hvis _ _ ih => exact ih ((Step.skip hvis).inv h) (hP (.skip hvis) h hw)
  | leave _ ih => exact ih (Step.pop.inv h) (hP .pop h hw)

theorem Finishes.out_eq
    (hf : Finishes succ w moves fin) : fin = w.out ++ moves.filterMap Move.left := by
  induction hf with
  | done => simp
  | enter _ _ ih | back _ _ _ ih | pass _ _ _ ih => exact ih
  | leave _ ih => rw [ih, append_assoc]; rfl

/-! ## The order in which nodes are left -/

theorem Step.awaited (hs : Step succ w w') (h : Inv succ root w)
    (ha : Awaited succ w.out) : Awaited succ w'.out := by
  cases hs with
  | skip _ => exact ha
  | push _ => exact ha
  | @pop vis b st out =>
    intro pre x post hsplit u hu s hs
    rcases append_singleton_split hsplit with ⟨rfl, rfl⟩ | ⟨post', hout⟩
    · have hvis : s ∈ vis := by
        rcases mem_append.1 hu with hu | hu
        · exact h.closed u hu s hs
        · rw [mem_singleton.1 hu] at hs
          simpa using h.pending (x, []) (.head _) s hs
      rcases (h.mem_visited s).1 hvis with hst | hout
      · exact .inr (reach_of_chain h.chain hst)
      · exact .inl (mem_append_left _ hout)
    · exact ha pre x post' hout u hu s hs

theorem Finishes.isPostorder (hf : Finishes succ (start succ root) moves fin) :
    IsPostorder succ root fin ∧ Awaited succ fin := by
  have hstart : Awaited succ (start succ root).out := by
    intro pre x post h
    cases pre <;> cases h
  obtain ⟨vis, h, ha⟩ := hf.inv (P := fun w => Awaited succ w.out) Step.awaited start_inv hstart
  exact ⟨h.isPostorder, ha⟩

/-! ## Back edges -/

theorem Finishes.cycle_of_back
    (hf : Finishes succ w moves fin) (h : Inv succ root w) {v : α} (hv : .back v ∈ moves) :
    Reach succ root v ∧ Relation.TransGen (fun u v => v ∈ succ u) v v := by
  induction hf with
  | done => cases hv
  | enter hvis _ ih =>
    rcases mem_cons.1 hv with hv | hv
    · cases hv
    · exact ih ((Step.push hvis).inv h) hv
  | @back vis b s iter st out moves fin hvis hout _ ih =>
    rcases mem_cons.1 hv with hv | hv
    · obtain rfl := Move.back.inj hv
      have hst := ((h.mem_visited v).1 hvis).resolve_right hout
      have hvb : Reach succ v b := reach_of_chain h.chain hst
      have hbv := h.remaining (b, v :: iter) (.head _) v (.head _)
      exact ⟨h.reach_remaining (b, v :: iter) (.head _) v (.head _),
        Relation.TransGen.tail' hvb hbv⟩
    · exact ih ((Step.skip hvis).inv h) hv
  | pass hvis _ _ ih =>
    rcases mem_cons.1 hv with hv | hv
    · cases hv
    · exact ih ((Step.skip hvis).inv h) hv
  | leave _ ih =>
    rcases mem_cons.1 hv with hv | hv
    · cases hv
    · exact ih (Step.pop.inv h) hv

/-- Every edge that has been looked at leads to a node that is left or to one above its source. -/
def Forward (succ : α → List α) (out : List α) : List α → List (α × List α) → Prop
  | _, [] => True
  | above, e :: below => (∀ s ∈ succ e.1, s ∈ e.2 ∨ s ∈ out ∨ s ∈ above) ∧
      Forward succ out (e.1 :: above) below

omit [DecidableEq α] in
theorem Forward.mono {out out' : List α} : ∀ {above above' : List α} {st : List (α × List α)},
    Forward succ out above st → (∀ s, s ∈ out ∨ s ∈ above → s ∈ out' ∨ s ∈ above') →
      Forward succ out' above' st
  | _, _, [], _, _ => trivial
  | above, above', e :: below, h, hsub => by
    refine ⟨fun s hs => (h.1 s hs).imp_right (hsub s), h.2.mono fun s hs => ?_⟩
    simp only [mem_cons] at hs ⊢
    have := hsub s
    tauto

theorem Finishes.successorsFirst (hf : Finishes succ w moves fin) (hno : ∀ v, .back v ∉ moves)
    (hout : SuccessorsFirst succ w.out) (hst : Forward succ w.out [] w.stack) :
    SuccessorsFirst succ fin := by
  induction hf with
  | done => exact hout
  | @enter vis b s iter st out moves fin _ _ ih =>
    refine ih (fun v hv => hno v (.tail _ hv)) hout ⟨fun t ht => .inl ht, fun t ht => ?_, ?_⟩
    · have := hst.1 t ht
      simp only [mem_cons] at this ⊢
      tauto
    · exact hst.2.mono fun t ht => ht.imp_right (mem_append_left [s])
  | back => exact absurd (.head _) (hno _)
  | @pass vis b s iter st out moves fin _ hs _ ih =>
    refine ih (fun v hv => hno v (.tail _ hv)) hout ⟨fun t ht => ?_, hst.2⟩
    rcases hst.1 t ht with ht | ht
    · exact (mem_cons.1 ht).elim (fun heq => .inr (.inl (heq ▸ hs))) .inl
    · exact .inr ht
  | @leave vis b st out moves fin _ ih =>
    refine ih (fun v hv => hno v (.tail _ hv)) (fun pre x post hsplit s hs => ?_) ?_
    · rcases append_singleton_split hsplit with ⟨rfl, rfl⟩ | ⟨post', hsplit⟩
      · simpa using hst.1 s hs
      · exact hout pre x post' hsplit s hs
    · refine hst.2.mono fun s hs => ?_
      simpa only [mem_append, not_mem_nil, or_false] using hs

theorem Finishes.exists_back_iff
    (hf : Finishes succ (start succ root) moves fin) : (∃ v, .back v ∈ moves) ↔
      ∃ v, Reach succ root v ∧ Relation.TransGen (fun u v => v ∈ succ u) v v := by
  constructor
  · rintro ⟨v, hv⟩
    exact ⟨v, hf.cycle_of_back start_inv hv⟩
  · rintro ⟨v, hv, hcycle⟩
    by_contra hno
    have hfirst := hf.successorsFirst (not_exists.1 hno) (fun pre x post h => by cases pre <;> cases h)
      ⟨fun s hs => .inl hs, trivial⟩
    obtain ⟨hpost, -⟩ := hf.isPostorder
    exact hfirst.acyclic hpost.nodup ((hpost.mem_iff v).2 hv) hcycle

end Walk

end

end Tortis
