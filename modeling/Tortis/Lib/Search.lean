import Mathlib.Data.Finset.Card
import Tortis.Lib.FxHash
import Tortis.Lib.Outcome

/-!
# Searches of a graph

`dfs` marks a node, acts on it and descends into its unmarked successors in turn, threading one
set of marks and one state through the whole search. `dfs_spec` says what a search that starts at
an unmarked node of a finite successor-closed set does: it returns within as much fuel as there are
unmarked nodes; the nodes it marks are reachable from the start; and every successor of a node it
marks is marked when it returns.

A pass over a graph marks nodes, and with a node everything behind it, but does not go on from a
node that is marked already. `Spread` is what such a pass has done, whatever the order of its steps:
its roots are marked, what it has marked lies behind a root, and the successors of what it has
marked are marked, too.
-/

namespace Tortis

open List

section
variable {α σ : Type}

/-- One node can be reached from another along successors. -/
abbrev Reach (succ : α → List α) : α → α → Prop := Relation.ReflTransGen fun u v => v ∈ succ u

/-- What a search has done when it goes from the marks `vis` and the state `s` to `vis'` and `s'`:
it marked the nodes `new`, all of them reachable from `u` and in `V`, and acted on them in that
order. -/
structure Searched (succ : α → List α) (act : α → σ → Outcome σ) (V : Finset α) (u : α)
    (vis : FxHashSet α) (s : σ) (new : List α) (vis' : FxHashSet α) (s' : σ) : Prop where
  mem_iff : ∀ w, w ∈ vis' ↔ w ∈ vis ∨ w ∈ new
  fresh : ∀ w ∈ new, w ∉ vis
  start : u ∈ new
  reach : ∀ w ∈ new, Reach succ u w
  acted : new.foldlM (fun s w => act w s) s = .ok s'
  inside : ∀ w ∈ new, w ∈ V

variable {succ : α → List α} {act : α → σ → Outcome σ} {V : Finset α}

theorem Searched.trans {u v : α} {vis vis1 vis2 : FxHashSet α} {s s1 s2 : σ} {new new2 : List α}
    (h : Searched succ act V u vis s new vis1 s1) (hv : v ∈ succ u)
    (h2 : Searched succ act V v vis1 s1 new2 vis2 s2) :
    Searched succ act V u vis s (new ++ new2) vis2 s2 where
  mem_iff w := by rw [h2.mem_iff, h.mem_iff, mem_append, or_assoc]
  fresh w hw := by
    rcases mem_append.1 hw with hw | hw
    · exact h.fresh w hw
    · exact fun hv => h2.fresh w hw ((h.mem_iff w).2 (.inl hv))
  start := mem_append_left _ h.start
  reach w hw := by
    rcases mem_append.1 hw with hw | hw
    · exact h.reach w hw
    · exact (Relation.ReflTransGen.single hv).trans (h2.reach w hw)
  acted := by
    rw [foldlM_append, h.acted]
    exact h2.acted
  inside w hw := (mem_append.1 hw).elim (h.inside w) (h2.inside w)

/-- What a search marks is everything reachable from its start, when no marked node has an unmarked
successor. -/
theorem Searched.mem_new_iff {u : α} {vis vis' : FxHashSet α} {s s' : σ} {new : List α}
    (hS : Searched succ act V u vis s new vis' s') (hcl : ∀ w ∈ new, ∀ x ∈ succ w, x ∈ vis')
    (hvis : ∀ w ∈ vis, ∀ x, w ∈ succ x → x ∈ vis) (w : α) : w ∈ new ↔ Reach succ u w := by
  refine ⟨hS.reach w, fun h => ?_⟩
  induction h with
  | refl => exact hS.start
  | tail _ hxw ih =>
    rcases (hS.mem_iff _).1 (hcl _ ih _ hxw) with h | h
    · exact absurd (hvis _ h _ hxw) (hS.fresh _ ih)
    · exact h

variable [DecidableEq α]

/-- Depth-first search from a node, with an action on each node when it is marked. -/
def dfs (succ : α → List α) (act : α → σ → Outcome σ) :
    Nat → α → FxHashSet α × σ → Outcome (FxHashSet α × σ)
  | 0, _, _ => .error .outOfFuel
  | n + 1, u, (visited, s) => do
    let s ← act u s
    (succ u).foldlM (fun st v => if v ∈ st.1 then .ok st else dfs succ act n v st)
      (visited.insert u, s)

theorem card_unvisited_lt {vis vis' : FxHashSet α} {u : α} (hu : u ∈ V) (hn : u ∉ vis)
    (hu' : u ∈ vis') (hsub : ∀ w ∈ vis, w ∈ vis') :
    (V.filter (· ∉ vis')).card < (V.filter (· ∉ vis)).card := by
  apply Finset.card_lt_card
  rw [Finset.ssubset_iff_of_subset]
  · exact ⟨u, by simp [hu, hn], by simp [hu']⟩
  · intro w hw
    simp only [Finset.mem_filter] at hw ⊢
    exact ⟨hw.1, fun h => hw.2 (hsub w h)⟩

/-- The search from an unmarked node of a finite closed set: it returns, and what it marks is
reachable and closed under successors. -/
theorem dfs_spec (hV : ∀ u ∈ V, ∀ v ∈ succ u, v ∈ V)
    (hact : ∀ u ∈ V, ∀ s, ∃ s', act u s = .ok s') :
    ∀ (n : Nat) (u : α) (vis : FxHashSet α) (s : σ), u ∈ V → u ∉ vis →
      (V.filter (· ∉ vis)).card ≤ n →
      ∃ new vis' s', dfs succ act n u (vis, s) = .ok (vis', s') ∧
        Searched succ act V u vis s new vis' s' ∧ ∀ w ∈ new, ∀ x ∈ succ w, x ∈ vis'
  | 0, u, vis, s, hu, hn, hc => by
    have : u ∈ V.filter (· ∉ vis) := by simp [hu, hn]
    rw [Finset.card_eq_zero.1 (Nat.le_zero.1 hc)] at this
    cases this
  | n + 1, u, vis, s, hu, hn, hc => by
    obtain ⟨s1, hs1⟩ := hact u hu s
    -- The loop's invariant: the marks so far are a search from `u`, closed except at `u` itself,
    -- whose successors handled so far are marked.
    let P (done : List α) (st : FxHashSet α × σ) : Prop :=
      ∃ new, Searched succ act V u vis s new st.1 st.2 ∧
        (∀ w ∈ new, w ≠ u → ∀ x ∈ succ w, x ∈ st.1) ∧ ∀ x ∈ done, x ∈ st.1
    have init : P [] (vis.insert u, s1) :=
      ⟨[u], ⟨by simp [or_comm], by simpa using hn, by simp, by simp [Relation.ReflTransGen.refl],
        by simp [hs1], by simpa using hu⟩, by simp, by simp⟩
    have step : ∀ pre v post st, succ u = pre ++ v :: post → P ([] ++ pre) st →
        ∃ st', (if v ∈ st.1 then .ok st else dfs succ act n v st) = .ok st' ∧
          P ([] ++ pre ++ [v]) st' := by
      rintro pre v post ⟨vis1, s2⟩ hl ⟨new, hS, hcl, hdone⟩
      simp only [nil_append] at hdone hS hcl ⊢
      have hv : v ∈ succ u := by simp [hl]
      by_cases hvis : v ∈ vis1
      · refine ⟨(vis1, s2), by simp [hvis], new, hS, hcl, fun x hx => ?_⟩
        rcases mem_append.1 hx with hx | hx
        · exact hdone x hx
        · exact mem_singleton.1 hx ▸ hvis
      · have hsub : ∀ w, w ∈ vis → w ∈ vis1 := fun w hw => (hS.mem_iff w).2 (.inl hw)
        have hlt := card_unvisited_lt hu hn ((hS.mem_iff u).2 (.inr hS.start)) hsub
        obtain ⟨new2, vis2, s3, hrun2, hS2, hcl2⟩ :=
          dfs_spec hV hact n v vis1 s2 (hV u hu v hv) hvis (by omega)
        refine ⟨(vis2, s3), by simp [hvis, hrun2], new ++ new2, hS.trans hv hS2, ?_, ?_⟩
        · intro w hw hwu x hx
          rcases mem_append.1 hw with hw | hw
          · exact (hS2.mem_iff x).2 (.inl (hcl w hw hwu x hx))
          · exact hcl2 w hw x hx
        · intro x hx
          rcases mem_append.1 hx with hx | hx
          · exact (hS2.mem_iff x).2 (.inl (hdone x hx))
          · exact (hS2.mem_iff x).2 (.inr (mem_singleton.1 hx ▸ hS2.start))
    obtain ⟨⟨vis', s'⟩, hrun, new, hS, hcl, hdone⟩ := Outcome.foldlM_spec init step
    refine ⟨new, vis', s', ?_, hS, fun w hw x hx => ?_⟩
    · rw [dfs, hs1]
      exact hrun
    · by_cases hwu : w = u
      · subst hwu
        exact hdone x hx
      · exact hcl w hw hwu x hx

end

/-! ## Spreading a mark along edges -/

variable {α : Type} {succ : α → List α} {m m₁ m' : α → Prop} {roots roots' : List α} {x y : α}

/-- A pass from some roots has turned the marks `m` into `m'`. -/
structure Spread (succ : α → List α) (m : α → Prop) (roots : List α) (m' : α → Prop) : Prop where
  mono : ∀ x, m x → m' x
  behind : ∀ x, m' x → m x ∨ ∃ r ∈ roots, Reach succ r x
  roots : ∀ r ∈ roots, m' r
  closed : ∀ x, m' x → ¬ m x → ∀ y ∈ succ x, m' y

namespace Spread

theorem nil (succ : α → List α) (m : α → Prop) : Spread succ m [] m where
  mono _ := id
  behind _ := .inl
  roots _ h := absurd h not_mem_nil
  closed _ h hn := absurd h hn

theorem of_marked (h : m x) : Spread succ m [x] m where
  mono _ := id
  behind _ := .inl
  roots _ hr := mem_singleton.1 hr ▸ h
  closed _ h hn := absurd h hn

theorem append (h : Spread succ m roots m₁) (h' : Spread succ m₁ roots' m') :
    Spread succ m (roots ++ roots') m' where
  mono x hx := h'.mono x (h.mono x hx)
  behind x hx := by
    rcases h'.behind x hx with hx | ⟨r, hr, hx⟩
    · exact (h.behind x hx).imp_right fun ⟨r, hr, hx⟩ => ⟨r, mem_append_left _ hr, hx⟩
    · exact .inr ⟨r, mem_append_right _ hr, hx⟩
  roots r hr := (mem_append.1 hr).elim (fun hr => h'.mono r (h.roots r hr)) (h'.roots r)
  closed x hx hn y hy := by
    by_cases hx1 : m₁ x
    · exact h'.mono y (h.closed x hx1 hn y hy)
    · exact h'.closed x hx hx1 y hy

theorem congr (h : Spread succ m roots m') (hroots : ∀ x, x ∈ roots ↔ x ∈ roots') :
    Spread succ m roots' m' where
  mono := h.mono
  behind x hx := (h.behind x hx).imp_right fun ⟨r, hr, hx⟩ => ⟨r, (hroots r).1 hr, hx⟩
  roots r hr := h.roots r ((hroots r).2 hr)
  closed := h.closed

theorem visit (h : Spread succ (fun y => y = x ∨ m y) (succ x ++ roots) m') :
    Spread succ m (x :: roots) m' where
  mono y hy := h.mono y (.inr hy)
  behind y hy := by
    rcases h.behind y hy with (rfl | hy) | ⟨r, hr, hy⟩
    · exact .inr ⟨y, mem_cons_self, .refl⟩
    · exact .inl hy
    · rcases mem_append.1 hr with hr | hr
      · exact .inr ⟨x, mem_cons_self, .head hr hy⟩
      · exact .inr ⟨r, mem_cons_of_mem _ hr, hy⟩
  roots r hr := by
    rcases mem_cons.1 hr with rfl | hr
    · exact h.mono r (.inl rfl)
    · exact h.roots r (mem_append_right _ hr)
  closed y hy hn z hz := by
    by_cases hyx : y = x
    · subst hyx
      exact h.roots z (mem_append_left _ hz)
    · exact h.closed y hy (fun h => h.elim hyx hn) z hz

theorem closed_all (h : Spread succ m roots m') (hm : ∀ x, m x → ∀ y ∈ succ x, m y ∨ y ∈ roots)
    (hx : m' x) (hy : y ∈ succ x) : m' y := by
  by_cases hmx : m x
  · exact (hm x hmx y hy).elim (h.mono y) (h.roots y)
  · exact h.closed x hx hmx y hy

end Spread

end Tortis
