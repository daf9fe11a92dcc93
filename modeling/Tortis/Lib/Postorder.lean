import Tortis.Lib.Search
import Mathlib.Algebra.BigOperators.Group.Finset.Basic
import Mathlib.Tactic.Abel

/-!
# Postorder

A postorder walk with an explicit stack: the stack holds the nodes that are entered and not yet
left, each with its successors still to be looked at, and a node is put out when none is left. `Step`
is one turn of the walk, `Inv` what every turn keeps, and `IsPostorder` what is known of the nodes
put out once the stack is empty.
-/

namespace Tortis

open List FxHashSet

section
variable {α : Type} (succ : α → List α) (root : α)

/-- A path along successors on which `d` does not occur. -/
def Off (d : α) (a b : α) : Prop :=
  a ≠ d ∧ Relation.ReflTransGen (fun a b => b ∈ succ a ∧ b ≠ d) a b

/-- Every path from the root to `y` passes `d`. -/
def Dominates (d y : α) : Prop := ¬ Off succ d root y

/-- A path along successors that does not go on from `u`. -/
abbrev ReachBefore (u : α) : α → α → Prop :=
  Relation.ReflTransGen fun a b => a ≠ u ∧ b ∈ succ a

variable {succ root}

theorem Off.tail {d a b c : α} (h : Off succ d a b) (hc : c ∈ succ b) (hne : c ≠ d) :
    Off succ d a c :=
  ⟨h.1, h.2.tail ⟨hc, hne⟩⟩

theorem Reach.off_or {d a b : α} (h : Reach succ a b) :
    Off succ d a b ∨ Relation.ReflTransGen (fun a b => b ∈ succ a ∧ b ≠ d) d b := by
  induction h with
  | refl =>
    by_cases had : a = d
    · exact .inr (had ▸ .refl)
    · exact .inl ⟨had, .refl⟩
  | @tail b c _ hbc ih =>
    by_cases hcd : c = d
    · exact .inr (hcd ▸ .refl)
    · exact ih.imp (·.tail hbc hcd) (·.tail ⟨hbc, hcd⟩)

/-- What is known of the nodes of a postorder walk from the root, in the order they are put out. -/
structure IsPostorder (succ : α → List α) (root : α) (out : List α) : Prop where
  nodup : out.Nodup
  mem_iff : ∀ b, b ∈ out ↔ Reach succ root b
  dominated : ∀ pre d post, out = pre ++ d :: post → ∀ y, y ≠ d → Reach succ root y →
    Dominates succ root d y → y ∈ pre
  between : ∀ pre x post, out = pre ++ x :: post → ∀ u ∈ pre, ∀ d, d ∉ pre → d ≠ x →
    Dominates succ root d u → ReachBefore succ u d x
  backEdge : ∀ pre x post, out = pre ++ x :: post → ∀ s ∈ succ x, s ∉ pre → Reach succ s x

/-! ## Stacks -/

theorem off_of_chain {d : α} : ∀ {l : List α}, l.IsChain (fun x y => x ∈ succ y) →
    l.getLast? = some root → d ∉ l → ∀ y ∈ l, Off succ d root y
  | [a], _, hl, hd, y, hy => by
    cases hl
    rw [mem_singleton.1 hy]
    exact ⟨fun h => hd (h ▸ .head _), .refl⟩
  | a :: b :: l, hc, hl, hd, y, hy => by
    have ih := off_of_chain (isChain_cons_cons.1 hc).2 (by simpa using hl)
      (fun h => hd (.tail _ h))
    rcases mem_cons.1 hy with rfl | hy
    · exact (ih b (.head _)).tail (isChain_cons_cons.1 hc).1 fun h => hd (h ▸ .head _)
    · exact ih y hy

theorem reachBefore_of_chain {u d : α} : ∀ {x : α} {l : List α},
    (x :: l).IsChain (fun x y => x ∈ succ y) → u ∉ x :: l → d ∈ x :: l → ReachBefore succ u d x
  | x, [], _, _, hd => mem_singleton.1 hd ▸ .refl
  | x, b :: l, hc, hu, hd => by
    rcases mem_cons.1 hd with rfl | hd
    · exact .refl
    · have ih := reachBefore_of_chain (isChain_cons_cons.1 hc).2 (fun h => hu (.tail _ h)) hd
      exact ih.tail ⟨fun h => hu (h ▸ .tail _ (.head _)), (isChain_cons_cons.1 hc).1⟩

theorem reach_of_chain {t : α} : ∀ {x : α} {l : List α},
    (x :: l).IsChain (fun x y => x ∈ succ y) → t ∈ x :: l → Reach succ t x
  | x, [], _, ht => mem_singleton.1 ht ▸ .refl
  | x, b :: l, hc, ht => by
    rcases mem_cons.1 ht with rfl | ht
    · exact .refl
    · exact (reach_of_chain (isChain_cons_cons.1 hc).2 ht).tail (isChain_cons_cons.1 hc).1

/-! ## The walk -/

/-- The state of a walk: the marks, the stack (top first) and the nodes put out. -/
structure Walk (α : Type) where
  visited : FxHashSet α
  stack : List (α × List α)
  out : List α

namespace Walk

variable [DecidableEq α]

/-- One turn of the walk: pass over a marked successor, enter an unmarked one, or leave a node. -/
inductive Step (succ : α → List α) : Walk α → Walk α → Prop
  | skip {vis b s iter st out} : s ∈ vis → Step succ ⟨vis, (b, s :: iter) :: st, out⟩
      ⟨vis, (b, iter) :: st, out⟩
  | push {vis b s iter st out} : s ∉ vis → Step succ ⟨vis, (b, s :: iter) :: st, out⟩
      ⟨vis.insert s, (s, succ s) :: (b, iter) :: st, out⟩
  | pop {vis b st out} : Step succ ⟨vis, (b, []) :: st, out⟩ ⟨vis, st, out ++ [b]⟩

/-- What the walk keeps. -/
structure Inv (succ : α → List α) (root : α) (w : Walk α) : Prop where
  nodup : (w.stack.map Prod.fst ++ w.out).Nodup
  mem_visited : ∀ b, b ∈ w.visited ↔ b ∈ w.stack.map Prod.fst ∨ b ∈ w.out
  chain : (w.stack.map Prod.fst).IsChain fun x y => x ∈ succ y
  bottom : w.stack ≠ [] → (w.stack.map Prod.fst).getLast? = some root
  root_visited : root ∈ w.visited
  pending : ∀ e ∈ w.stack, ∀ s ∈ succ e.1, s ∈ w.visited ∨ s ∈ e.2
  remaining : ∀ e ∈ w.stack, ∀ s ∈ e.2, s ∈ succ e.1
  closed : ∀ b ∈ w.out, ∀ s ∈ succ b, s ∈ w.visited
  reach : ∀ v ∈ w.visited, Relation.ReflTransGen (fun a b => b ∈ succ a ∧ b ∈ w.visited) root v
  dominated : ∀ pre d post, w.out = pre ++ d :: post → ∀ y, y ≠ d → Reach succ root y →
    Dominates succ root d y → y ∈ pre
  between : ∀ pre x post, w.out = pre ++ x :: post → ∀ u ∈ pre, ∀ d, d ∉ pre → d ≠ x →
    Dominates succ root d u → ReachBefore succ u d x
  backEdge : ∀ pre x post, w.out = pre ++ x :: post → ∀ s ∈ succ x, s ∉ pre → Reach succ s x

/-- The walk that has entered the root. -/
def start (succ : α → List α) (root : α) : Walk α :=
  ⟨FxHashSet.insert ∅ root, [(root, succ root)], []⟩

theorem start_inv : Inv succ root (start succ root) where
  nodup := by simp [start]
  mem_visited b := by simp [start]
  chain := by simp [start]
  bottom := by simp [start]
  root_visited := by simp [start]
  pending e he s hs := .inr (by simpa [mem_singleton.1 he] using hs)
  remaining := by simp [start]
  closed := by simp [start]
  reach v hv := by
    have : v = root := by simpa [start] using hv
    exact this ▸ .refl
  dominated := by simp [start]
  between := by simp [start]
  backEdge := by simp [start]

variable {st : List (α × List α)} {out : List α} {vis : FxHashSet α}

omit [DecidableEq α] in
theorem Inv.dominated_of_pop {x : α}
    (h : Inv succ root ⟨vis, (x, []) :: st, out⟩) {y : α} (hyx : y ≠ x)
    (hy : Reach succ root y) (hdom : Dominates succ root x y) : y ∈ out := by
  have hx : x ∉ st.map Prod.fst := (nodup_append.1 h.nodup).1.notMem
  have hbelow : ∀ z ∈ st.map Prod.fst, Off succ x root z := by
    intro z hz
    have hne : st.map Prod.fst ≠ [] := ne_nil_of_mem hz
    refine off_of_chain (List.IsChain.tail h.chain) ?_ hx z hz
    have := h.bottom (by simp)
    rwa [map_cons, getLast?_cons_of_ne_nil hne] at this
  have hpath := (hy.off_or (d := x)).resolve_left hdom
  -- Along the path from `x` to `y` every node is out: one on the stack would lie below `x`, and
  -- the path to it along the stack would reach `y` without `x`.
  have key : ∀ z, Relation.ReflTransGen (fun a b => b ∈ succ a ∧ b ≠ x) z y →
      z = x ∨ z ∈ out → y = x ∨ y ∈ out := by
    intro z hz
    induction hz using Relation.ReflTransGen.head_induction_on with
    | refl => exact id
    | @head z z' hzz' hz'y ih =>
      intro hz
      have hvis : z' ∈ vis := by
        rcases hz with rfl | hz
        · simpa using h.pending (z, []) (.head _) z' hzz'.1
        · exact h.closed z hz z' hzz'.1
      rcases (h.mem_visited z').1 hvis with hst | hout
      · rcases mem_cons.1 hst with hst | hst
        · exact absurd hst hzz'.2
        · have hoff := hbelow z' hst
          exact absurd ⟨hoff.1, hoff.2.trans hz'y⟩ hdom
      · exact ih (.inr hout)
  exact (key x hpath (.inl rfl)).resolve_left hyx

omit [DecidableEq α] in
theorem Inv.between_of_pop {x : α}
    (h : Inv succ root ⟨vis, (x, []) :: st, out⟩) {u d : α} (hu : u ∈ out) (hd : d ∉ out)
    (hdom : Dominates succ root d u) : ReachBefore succ u d x := by
  have hdvis : d ∈ vis := by
    by_contra hdvis
    have hne : ∀ v ∈ vis, v ≠ d := fun v hv hvd => hdvis (hvd ▸ hv)
    have hu' := h.reach u ((h.mem_visited u).2 (.inr hu))
    exact hdom ⟨hne root h.root_visited, Relation.ReflTransGen.mono (fun a b hab => ⟨hab.1, hne b hab.2⟩) _ _ hu'⟩
  have hdst := ((h.mem_visited d).1 hdvis).resolve_right hd
  exact reachBefore_of_chain h.chain
    (fun hust => (nodup_append.1 h.nodup).2.2 u hust u hu rfl) hdst

omit [DecidableEq α] in
theorem append_singleton_split {out pre post : List α} {x d : α}
    (h : out ++ [x] = pre ++ d :: post) :
    (pre = out ∧ d = x) ∨ ∃ post', out = pre ++ d :: post' := by
  rcases eq_nil_or_concat post with rfl | ⟨post', y, rfl⟩
  · obtain ⟨h1, h2⟩ := append_inj' h rfl
    exact .inl ⟨h1.symm, (List.cons.inj h2).1.symm⟩
  · rw [concat_eq_append, ← cons_append, ← append_assoc] at h
    exact .inr ⟨post', (append_inj' h rfl).1⟩

variable {w w' : Walk α}

theorem Step.inv (hs : Step succ w w') (h : Inv succ root w) : Inv succ root w' := by
  cases hs with
  | @skip vis b s iter st out hvis =>
    refine ⟨h.nodup, h.mem_visited, h.chain, fun _ => h.bottom (by simp), h.root_visited, ?_, ?_,
      h.closed, h.reach, h.dominated, h.between, h.backEdge⟩
    · intro e he t ht
      rcases mem_cons.1 he with rfl | he
      · rcases h.pending (b, s :: iter) (.head _) t ht with h' | h'
        · exact .inl h'
        · rcases mem_cons.1 h' with rfl | h'
          exacts [.inl hvis, .inr h']
      · exact h.pending e (.tail _ he) t ht
    · intro e he t ht
      rcases mem_cons.1 he with rfl | he
      · exact h.remaining (b, s :: iter) (.head _) t (.tail _ ht)
      · exact h.remaining e (.tail _ he) t ht
  | @push vis b s iter st out hvis =>
    have hsb : s ∈ succ b := h.remaining (b, s :: iter) (.head _) s (.head _)
    have hb : b ∈ vis := (h.mem_visited b).2 (.inl (by simp))
    have hreach : ∀ v, Relation.ReflTransGen (fun a c => c ∈ succ a ∧ c ∈ vis) root v →
        Relation.ReflTransGen (fun a c => c ∈ succ a ∧ c ∈ vis.insert s) root v := fun v hv =>
      Relation.ReflTransGen.mono
        (fun a c hac => ⟨hac.1, (mem_insert ..).2 (.inr hac.2)⟩) _ _ hv
    refine ⟨?_, ?_, ?_, fun _ => ?_, by simp [h.root_visited], ?_, ?_, ?_, ?_, h.dominated,
      h.between, h.backEdge⟩
    · have hfresh := mt (h.mem_visited s).2 hvis
      have := h.nodup
      simp_all
    · intro c
      rw [mem_insert, h.mem_visited c]
      simp only [map_cons, mem_cons, or_assoc]
    · exact isChain_cons_cons.2 ⟨hsb, h.chain⟩
    · have := h.bottom (by simp)
      simpa using this
    · intro e he t ht
      rcases mem_cons.1 he with rfl | he
      · exact .inr ht
      · rw [mem_insert]
        rcases mem_cons.1 he with rfl | he
        · rcases h.pending (b, s :: iter) (.head _) t ht with h' | h'
          · exact .inl (.inr h')
          · exact (mem_cons.1 h').imp_left .inl
        · exact (h.pending e (.tail _ he) t ht).imp_left .inr
    · intro e he t ht
      rcases mem_cons.1 he with rfl | he
      · exact ht
      · rcases mem_cons.1 he with rfl | he
        · exact h.remaining (b, s :: iter) (.head _) t (.tail _ ht)
        · exact h.remaining e (.tail _ he) t ht
    · exact fun c hc t ht => (mem_insert ..).2 (.inr (h.closed c hc t ht))
    · intro v hv
      rcases (mem_insert ..).1 hv with rfl | hv
      · exact (hreach b (h.reach b hb)).tail ⟨hsb, by simp⟩
      · exact hreach v (h.reach v hv)
  | @pop vis b st out =>
    refine ⟨?_, ?_, List.IsChain.tail h.chain, fun hne => ?_, h.root_visited, ?_, ?_, ?_, h.reach,
      ?_, ?_, ?_⟩
    · refine h.nodup.perm ?_
      exact (perm_append_singleton b _).symm.trans (by simp)
    · intro c
      have := h.mem_visited c
      simp_all [or_assoc, or_left_comm, or_comm]
    · have := h.bottom (by simp)
      rwa [map_cons, getLast?_cons_of_ne_nil (by simpa using hne)] at this
    · exact fun e he => h.pending e (.tail _ he)
    · exact fun e he => h.remaining e (.tail _ he)
    · intro c hc t ht
      rcases mem_append.1 hc with hc | hc
      · exact h.closed c hc t ht
      · rw [mem_singleton.1 hc] at ht
        simpa using h.pending (b, []) (.head _) t ht
    · intro pre d post hsplit y hyd hy hdom
      rcases append_singleton_split hsplit with ⟨rfl, rfl⟩ | ⟨post', hout⟩
      · exact h.dominated_of_pop hyd hy hdom
      · exact h.dominated pre d post' hout y hyd hy hdom
    · intro pre x post hsplit u hu d hd hdx hdom
      rcases append_singleton_split hsplit with ⟨rfl, rfl⟩ | ⟨post', hout⟩
      · exact h.between_of_pop hu hd hdom
      · exact h.between pre x post' hout u hu d hd hdx hdom
    · intro pre x post hsplit t ht htpre
      rcases append_singleton_split hsplit with ⟨rfl, rfl⟩ | ⟨post', hout⟩
      · have hvis : t ∈ vis := by simpa using h.pending (x, []) (.head _) t ht
        exact reach_of_chain h.chain (((h.mem_visited t).1 hvis).resolve_right htpre)
      · exact h.backEdge pre x post' hout t ht htpre

omit [DecidableEq α] in
theorem Inv.isPostorder (h : Inv succ root ⟨vis, [], out⟩) : IsPostorder succ root out where
  nodup := by simpa using h.nodup
  mem_iff b := by
    have hmem : ∀ c, c ∈ vis ↔ c ∈ out := fun c => by simpa using h.mem_visited c
    constructor
    · intro hb
      exact Relation.ReflTransGen.mono (fun _ _ => And.left) _ _ (h.reach b ((hmem b).2 hb))
    · intro hb
      induction hb with
      | refl => exact (hmem root).1 h.root_visited
      | tail _ hbc ih => exact (hmem _).1 (h.closed _ ih _ hbc)
  dominated := h.dominated
  between := h.between
  backEdge := h.backEdge

/-! ## The length of a walk -/

/-- The number of turns a walk over the nodes `V` can still take. -/
def turns (succ : α → List α) (V : Finset α) (w : Walk α) : Nat :=
  (w.stack.map fun e => 1 + e.2.length).sum +
    ∑ v ∈ V.filter (· ∉ w.visited), (2 + (succ v).length)

variable {V : Finset α}

theorem Step.turns_lt_of_mem (hs : Step succ w w')
    (hV : ∀ e ∈ w.stack, ∀ s ∈ e.2, s ∈ V) : w'.turns succ V < w.turns succ V := by
  cases hs with
  | skip _ => simp only [turns, map_cons, sum_cons, length_cons]; omega
  | @push vis b s iter st out hvis =>
    have hs : s ∈ V.filter (· ∉ vis) := by simp [hV (b, s :: iter) (.head _) s (.head _), hvis]
    have hsub : V.filter (· ∉ vis.insert s) = (V.filter (· ∉ vis)).erase s := by
      ext v
      simp only [Finset.mem_filter, mem_insert, Finset.mem_erase, not_or]
      tauto
    have := Finset.add_sum_erase _ (fun v => 2 + (succ v).length) hs
    simp only [turns, map_cons, sum_cons, length_cons, hsub]
    omega
  | pop => simp only [turns, map_cons, sum_cons, length_nil]; omega

theorem Step.turns_lt (hV : ∀ u, ∀ v ∈ succ u, v ∈ V)
    (hs : Step succ w w') (h : Inv succ root w) : w'.turns succ V < w.turns succ V :=
  hs.turns_lt_of_mem fun e he s hs => hV e.1 s (h.remaining e he s hs)

end Walk

/-! ## The reverse order -/

section
variable [DecidableEq α]

/-- What is known of the reverse of a postorder, by positions. -/
structure IsReversePostorder (succ : α → List α) (root : α) (rpo : List α) : Prop where
  nodup : rpo.Nodup
  mem_iff : ∀ b, b ∈ rpo ↔ Reach succ root b
  dominator_lt : ∀ d y, d ∈ rpo → y ≠ d → Reach succ root y → Dominates succ root d y →
    rpo.idxOf d < rpo.idxOf y
  between : ∀ d x u, u ∈ rpo → rpo.idxOf d < rpo.idxOf x → rpo.idxOf x < rpo.idxOf u →
    Dominates succ root d u → ReachBefore succ u d x
  backEdge : ∀ x, x ∈ rpo → ∀ s ∈ succ x, rpo.idxOf s ≤ rpo.idxOf x → Reach succ s x

theorem idxOf_lt_iff_mem {l pre post : List α} {x y : α} (hnd : l.Nodup) (h : l = pre ++ x :: post)
    (hy : y ∈ l) : l.idxOf x < l.idxOf y ↔ y ∈ post := by
  subst h
  obtain ⟨-, hxpost, hdisj⟩ := nodup_append.1 hnd
  have hx : x ∉ pre := fun hx => hdisj x hx x (.head _) rfl
  rw [idxOf_append_of_notMem hx, idxOf_cons_self]
  rcases mem_append.1 hy with hy | hy
  · have hlt := idxOf_lt_length_iff.2 hy
    rw [idxOf_append_of_mem hy]
    exact ⟨fun h => by omega, fun h => absurd rfl (hdisj y hy y (.tail _ h))⟩
  · have hypre : y ∉ pre := fun h => hdisj y h y hy rfl
    rw [idxOf_append_of_notMem hypre]
    rcases mem_cons.1 hy with rfl | hy
    · rw [idxOf_cons_self]
      exact ⟨fun h => by omega, fun h => absurd h (nodup_cons.1 hxpost).1⟩
    · have hyx : x ≠ y := fun h => (nodup_cons.1 hxpost).1 (h ▸ hy)
      rw [idxOf_cons_ne _ hyx]
      exact ⟨fun _ => hy, fun _ => by omega⟩

theorem IsPostorder.reverse {out : List α} (h : IsPostorder succ root out) :
    IsReversePostorder succ root out.reverse := by
  have hnd : out.reverse.Nodup := nodup_reverse.2 h.nodup
  have split : ∀ {x}, x ∈ out.reverse → ∃ pre post, out.reverse = pre ++ x :: post ∧
      out = post.reverse ++ x :: pre.reverse := by
    intro x hx
    obtain ⟨pre, post, hsplit⟩ := append_of_mem hx
    exact ⟨pre, post, hsplit, by simpa using congrArg List.reverse hsplit⟩
  have mem_of_lt : ∀ {x y : α}, out.reverse.idxOf x < out.reverse.idxOf y → x ∈ out.reverse :=
    fun {x y} hlt => idxOf_lt_length_iff.1 (hlt.trans_le idxOf_le_length)
  refine ⟨hnd, fun b => by rw [mem_reverse, h.mem_iff], ?_, ?_, ?_⟩
  · intro d y hd hyd hy hdom
    obtain ⟨pre, post, hsplit, hout⟩ := split hd
    have hmem := h.dominated _ _ _ hout y hyd hy hdom
    exact (idxOf_lt_iff_mem hnd hsplit (mem_reverse.2 ((h.mem_iff y).2 hy))).2
      (mem_reverse.1 hmem)
  · intro d x u hu hdx hxu hdom
    obtain ⟨pre, post, hsplit, hout⟩ := split (mem_of_lt hxu)
    have hupost := (idxOf_lt_iff_mem hnd hsplit hu).1 hxu
    have hd : d ∈ out.reverse := mem_of_lt hdx
    refine h.between _ _ _ hout u (mem_reverse.2 hupost) d ?_ ?_ hdom
    · intro hdpost
      have := (idxOf_lt_iff_mem hnd hsplit hd).2 (mem_reverse.1 hdpost)
      omega
    · rintro rfl
      exact lt_irrefl _ hdx
  · intro x hx s hs hle
    obtain ⟨pre, post, hsplit, hout⟩ := split hx
    refine h.backEdge _ _ _ hout s hs fun hspost => ?_
    have hspost := mem_reverse.1 hspost
    have := (idxOf_lt_iff_mem hnd hsplit (by rw [hsplit]; simp [hspost])).2 hspost
    omega

end

end

end Tortis
