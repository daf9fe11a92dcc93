import Tortis.Sort.Merging

/-!
# The stable sort is a stable sort

The slice is the part that has not been looked at, followed by the pending runs, each of which is
sorted (`Pending`). The stack has their places, the leftmost one on top. A collapse merges two
neighbours, so all of that is kept whatever the comparator answers; the run that starts the slice is
merged with all others.
-/

namespace Tortis.Sort

open Slice Compare Outcome List

variable {α σ : Type} {isLess : IsLess α σ}

/-! ## Natural runs -/

/-- The neighbours were all said to be in order, or all not to be. -/
abbrev Natural (isLess : IsLess α σ) (descending : Bool) (l : List α) : Prop :=
  l.IsChain fun a b => Answers isLess b a descending

theorem returns_findRun {descending : Bool} {rest : List α} : ∀ {start : Nat} {front run : List α}
    {x : α}, start = front.length → Natural isLess descending (x :: run) →
    Returns (findRun isLess (front ++ x :: run ++ rest) descending start) fun s =>
      ∃ front' more, front = front' ++ more ∧ s = front'.length ∧
        Natural isLess descending (more ++ x :: run) := by
  intro start
  induction start with
  | zero =>
    intro front run x hlen hrun
    exact .pure ⟨[], front, rfl, rfl, by rwa [length_eq_zero_iff.1 hlen.symm]⟩
  | succ start ih =>
    intro front run x hlen hrun
    rcases eq_nil_or_concat' front with rfl | ⟨front, y, rfl⟩
    · cases hlen
    rw [length_append, length_singleton] at hlen
    have hv : front ++ [y] ++ x :: run ++ rest = front ++ y :: x :: run ++ rest := by simp
    refine .lift_bind (b := x) (get_eq ?_) (.lift_bind (b := y) (get_eq ?_) ?_)
    · rw [append_assoc, cons_append, getElem?_append_cons (by simp [hlen])]
    · rw [hv, append_assoc, cons_append, getElem?_append_cons (Nat.succ.inj hlen)]
    refine .bind (returns_ask isLess x y) fun answer hxy => ?_
    split
    · next heq =>
      subst heq
      rw [hv]
      refine (ih (Nat.succ.inj hlen) (.cons_cons hxy hrun)).imp ?_
      rintro s ⟨front', more, rfl, hs, hmore⟩
      exact ⟨front', more ++ [y], (append_assoc _ _ _), hs, by rwa [← append_cons]⟩
    · exact .pure ⟨front ++ [y], [], (append_nil _).symm, by simp [hlen], hrun⟩

/-- The slice has a sorted run between two parts that were left alone. -/
def HasRun (isLess : IsLess α σ) (front rest : List α) (p : Nat × List α) : Prop :=
  ∃ front' old run, front = front' ++ old ∧ p.1 = front'.length ∧ old ≠ [] ∧
    p.2 = front' ++ run ++ rest ∧ Sorts isLess old run

theorem returns_naturalRun {front rest : List α} (hfront : front ≠ []) :
    Returns (naturalRun isLess (front ++ rest) front.length) (HasRun isLess front rest) := by
  rcases eq_nil_or_concat' front with rfl | ⟨front, x, rfl⟩
  · exact absurd rfl hfront
  rw [length_append, length_singleton, naturalRun]
  rw [Nat.add_sub_cancel]
  rcases eq_nil_or_concat' front with rfl | ⟨front, y, rfl⟩
  · exact .pure ⟨[], [x], [x], rfl, rfl, by simp, rfl, .singleton x⟩
  rw [length_append, length_singleton, Nat.add_sub_cancel, if_pos (Nat.succ_pos _)]
  have hv : front ++ [y] ++ [x] ++ rest = front ++ y :: [x] ++ rest := by simp
  rw [hv]
  refine .lift_bind (b := x) (get_eq ?_) (.lift_bind (b := y) (get_eq ?_) ?_)
  · rw [← hv, append_assoc, singleton_append, getElem?_append_cons (by simp)]
  · rw [append_assoc, cons_append, getElem?_append_cons rfl]
  refine .bind (returns_ask isLess x y) fun answer hxy => ?_
  have hrun : Natural isLess answer (y :: [x]) := .cons_cons hxy (.singleton x)
  cases answer with
  | true =>
    refine .bind (returns_findRun rfl hrun) ?_
    rintro s ⟨front', more, rfl, rfl, hmore⟩
    refine .pure ⟨front', more ++ [y, x], (more ++ [y, x]).reverse, by simp, rfl, by simp, ?_,
      .descending hmore⟩
    have hlen : (front' ++ more).length + 1 + 1 = front'.length + (more ++ [y, x]).length := by
      simp [add_assoc]
    have hv' : front' ++ more ++ y :: [x] ++ rest = front' ++ (more ++ [y, x]) ++ rest := by simp
    rw [hlen, hv', take_parts, drop_parts, drop_left, append_assoc front', take_left]
  | false =>
    refine .bind (returns_findRun rfl hrun) ?_
    rintro s ⟨front', more, rfl, rfl, hmore⟩
    exact .pure ⟨front', more ++ [y, x], more ++ [y, x], by simp, rfl, by simp, by simp,
      .ascending hmore⟩

theorem returns_extendRun {rest : List α} {end_ : Nat} : ∀ {start : Nat} {front old run : List α},
    start = front.length → end_ = front.length + old.length → old ≠ [] → Sorts isLess old run →
    Returns (extendRun isLess end_ start (front ++ run ++ rest))
      (HasRun isLess (front ++ old) rest) := by
  intro start
  induction start with
  | zero =>
    intro front old run hstart hend hold hrun
    exact .pure ⟨front, old, run, rfl, hstart, hold, rfl, hrun⟩
  | succ start ih =>
    intro front old run hstart hend hold hrun
    rcases eq_nil_or_concat' front with rfl | ⟨front, x, rfl⟩
    · cases hstart
    rw [length_append, length_singleton] at hstart hend
    rw [extendRun]
    split
    · have hv : front ++ [x] ++ run ++ rest = front ++ x :: run ++ rest := by simp
      rw [hv]
      refine .bind (returns_insertHead_inRange (Nat.succ.inj hstart) ?_ hrun) ?_
      · rw [length_cons, hrun.perm.length_eq]
        omega
      · rintro v ⟨out, hout, rfl⟩
        have h := ih (Nat.succ.inj hstart) (by simp; omega) (by simp) hout
        rwa [append_cons] at h
    · exact .pure ⟨front ++ [x], old, run, rfl, by simp [hstart], hold, rfl, hrun⟩

/-! ## The stack of runs -/

theorem demandsMerge_spec (runs : List Run) (run1 run2 : Run) :
    ∃ d, demandsMerge runs run1 run2 = .ok d ∧ (run1.start = 0 → d = true) := by
  rw [demandsMerge]
  split
  · exact ⟨true, rfl, fun _ => rfl⟩
  · next h =>
    have hstart : ∀ d, run1.start = 0 → d = true := fun d h0 => absurd (Or.inl h0) h
    split
    · obtain ⟨run3, h3⟩ := @exists_getElem? _ runs (runs.length - 3) (by omega)
      rw [get_eq h3, ok_bind]
      split
      · exact ⟨true, rfl, hstart true⟩
      · split
        · obtain ⟨run4, h4⟩ := @exists_getElem? _ runs (runs.length - 4) (by omega)
          rw [get_eq h4, ok_bind]
          exact ⟨_, rfl, hstart _⟩
        · exact ⟨false, rfl, hstart false⟩
    · exact ⟨false, rfl, hstart false⟩

theorem collapse_spec (runs : List Run) :
    (∃ r, collapse runs = .ok (some r) ∧ r + 2 ≤ runs.length ∧ runs.length ≤ r + 3) ∨
    collapse runs = .ok none ∧ (∀ below top, runs = below ++ [top] → top.start = 0 → below = []) ∧
      ∀ run1 run2, 2 ≤ runs.length → runs[runs.length - 1]? = some run1 →
        runs[runs.length - 2]? = some run2 → demandsMerge runs run1 run2 = .ok false := by
  rw [collapse]
  split
  · next hn =>
    obtain ⟨run1, h1⟩ := @exists_getElem? _ runs (runs.length - 1) (by omega)
    obtain ⟨run2, h2⟩ := @exists_getElem? _ runs (runs.length - 2) (by omega)
    obtain ⟨d, hd, hstart⟩ := demandsMerge_spec runs run1 run2
    rw [get_eq h1, ok_bind, get_eq h2, ok_bind, hd, ok_bind]
    cases d with
    | true =>
      refine .inl ?_
      rw [if_pos rfl]
      split
      · obtain ⟨run3, h3⟩ := @exists_getElem? _ runs (runs.length - 3) (by omega)
        rw [get_eq h3, ok_bind]
        exact ⟨_, rfl, by split <;> omega, by split <;> omega⟩
      · exact ⟨_, rfl, by omega, by omega⟩
    | false =>
      refine .inr ⟨rfl, ?_, fun a b _ ha hb => ?_⟩
      · rintro below top rfl h0
        rw [length_append, length_singleton, Nat.add_sub_cancel, getElem?_append_cons rfl] at h1
        cases h1
        cases hstart h0
      · cases h1.symm.trans ha
        cases h2.symm.trans hb
        exact hd
  · next hn =>
    refine .inr ⟨rfl, ?_, fun _ _ htwo => absurd htwo hn⟩
    rintro below top rfl _
    simpa using hn

/-- The places of runs that start at `start`, the leftmost one first. -/
def describe : Nat → List (List α) → List Run
  | _, [] => []
  | start, seg :: segs => ⟨start, seg.length⟩ :: describe (start + seg.length) segs

@[simp] theorem describe_length (start : Nat) (segs : List (List α)) :
    (describe start segs).length = segs.length := by
  induction segs generalizing start with
  | nil => rfl
  | cons seg segs ih => rw [describe, length_cons, ih, length_cons]

theorem describe_append (start : Nat) (segs segs' : List (List α)) :
    describe start (segs ++ segs') =
      describe start segs ++ describe (start + segs.flatten.length) segs' := by
  induction segs generalizing start with
  | nil => rfl
  | cons seg segs ih =>
    rw [cons_append, describe, ih, describe, flatten_cons, length_append, add_assoc, cons_append]

/-- The slice is a part of the input that has not been looked at, and runs, each of which is a
sorted part of the input. -/
def Pending (isLess : IsLess α σ) (input front : List α) (runs : List Run) (v : List α) : Prop :=
  ∃ parts : List (List α × List α), (∀ p ∈ parts, Sorts isLess p.1 p.2) ∧
    input = front ++ (parts.map Prod.fst).flatten ∧ v = front ++ (parts.map Prod.snd).flatten ∧
    runs = (describe front.length (parts.map Prod.snd)).reverse

section
variable {input front v : List α} {runs : List Run}

section
variable (h : Pending isLess input front runs v)
include h

theorem Pending.perm : v.Perm input := by
  obtain ⟨parts, hsorts, rfl, rfl, -⟩ := h
  refine List.Perm.append_left _ ?_
  induction parts with
  | nil => exact .refl _
  | cons p parts ih =>
    exact (hsorts p mem_cons_self).perm.append
      (ih fun q hq => hsorts q (mem_cons_of_mem _ hq))

theorem Pending.push {p : Nat × List α} (hrun : HasRun isLess front (v.drop front.length) p) :
    ∃ front', front'.length = p.1 ∧ front'.length < front.length ∧
      Pending isLess input front' (runs ++ [⟨p.1, front.length - p.1⟩]) p.2 := by
  obtain ⟨parts, hsorts, rfl, rfl, rfl⟩ := h
  obtain ⟨front', old, run, rfl, hp, hold, hv, hrun⟩ := hrun
  have hpos := length_pos_of_ne_nil hold
  refine ⟨front', hp.symm, by simp; omega, (old, run) :: parts, ?_, ?_, ?_, ?_⟩
  · exact fun q hq => (mem_cons.1 hq).elim (fun heq => heq ▸ hrun) (hsorts q)
  · simp
  · simp [hv]
  · simp [describe, hp, hrun.perm.length_eq]

theorem Pending.neighbours {r : Nat} (hr : r + 2 ≤ runs.length) :
    ∃ (below above : List Run) (start : Nat) (a b old old' l l' : List α),
      runs = below ++ ⟨start + l.length, l'.length⟩ :: ⟨start, l.length⟩ :: above ∧
      below.length = r ∧ start = a.length ∧ v = a ++ (l ++ l') ++ b ∧
      Sorts isLess old l ∧ Sorts isLess old' l' ∧ ∀ out, Sorts isLess (old ++ old') out →
        Pending isLess input front (below ++ ⟨start, out.length⟩ :: above) (a ++ out ++ b) := by
  obtain ⟨parts, hsorts, rfl, rfl, rfl⟩ := h
  rw [length_reverse, describe_length, length_map] at hr
  obtain ⟨pre, post, rfl, hpost⟩ : ∃ pre post, parts = pre ++ post ∧ post.length = r + 2 :=
    ⟨parts.take (parts.length - (r + 2)), parts.drop (parts.length - (r + 2)),
      (take_append_drop _ _).symm, by simp; omega⟩
  match post, hpost with
  | (old, l) :: (old', l') :: post, hpost =>
    have hl := hsorts (old, l) (by simp)
    have hl' := hsorts (old', l') (by simp)
    let start := front.length + (pre.map Prod.snd).flatten.length
    refine ⟨(describe (start + l.length + l'.length) (post.map Prod.snd)).reverse,
      (describe front.length (pre.map Prod.snd)).reverse, start,
      front ++ (pre.map Prod.snd).flatten, (post.map Prod.snd).flatten, old, old', l, l',
      ?_, ?_, length_append.symm, by simp, hl, hl', ?_⟩
    · simp [describe_append, describe, start]
    · simpa using hpost
    · intro out hout
      refine ⟨pre ++ (old ++ old', out) :: post, fun p hp => ?_, by simp, by simp, ?_⟩
      · simp only [mem_append, mem_cons] at hp hsorts
        rcases hp with hp | rfl | hp
        · exact hsorts p (.inl hp)
        · exact hout
        · exact hsorts p (.inr (.inr (.inr hp)))
      · have hlen : out.length = l.length + l'.length := by
          rw [hout.perm.length_eq, length_append, hl.perm.length_eq, hl'.perm.length_eq]
        simp [describe_append, describe, start, hlen, add_assoc]

end

/-- The stack after the loop that merges runs: no merge is demanded any more. -/
structure Collapsed (isLess : IsLess α σ) (input front : List α) (runs : List Run) (v : List α) :
    Prop where
  pending : Pending isLess input front runs v
  done : ∀ below top, runs = below ++ [top] → top.start = 0 → below = []
  nonempty : runs ≠ []

theorem returns_collapseRuns {bufLen : Nat} (hbuf : input.length ≤ 2 * bufLen + 1) :
    ∀ {n : Nat} {runs : List Run} {buf : Buffer α} {v : List α}, runs.length < n → runs ≠ [] →
      buf.length = bufLen → Pending isLess input front runs v →
      Returns (collapseRuns isLess n runs buf v) fun p =>
        p.2.1.length = bufLen ∧ Collapsed isLess input front p.1 p.2.2 := by
  intro n
  induction n with
  | zero => simp
  | succ n ih =>
    intro runs buf v hn hne hlen h
    rcases collapse_spec runs with ⟨r, hr, hlt, -⟩ | ⟨hnone, hdone, -⟩
    · refine .lift_bind hr ?_
      obtain ⟨below, above, start, a, b, old, old', l, l', rfl, rfl, rfl, rfl, hl, hl', hout⟩ :=
        h.neighbours hlt
      have hget : Slice.get (below ++ ⟨a.length + l.length, l'.length⟩ :: ⟨a.length, l.length⟩ :: above)
          (below.length + 1) = .ok ⟨a.length, l.length⟩ := by
        rw [append_cons, get_append (by simp)]
      refine .lift_bind hget (.lift_bind (get_append rfl) ?_)
      have hmin : min l.length l'.length ≤ buf.length := by
        have hv := h.perm.length_eq
        simp only [length_append] at hv
        omega
      have hend : a.length + l.length + l'.length = a.length + (l ++ l').length := by
        rw [length_append, add_assoc]
      have hmerge := returns_onRange (a := a) (c := b) rfl hend (@returns_merge _ _ isLess _ _ _ hmin)
      refine .bind hmerge fun p ⟨out, ⟨hbuf', hout'⟩, hp⟩ => ?_
      have hsorts : Sorts isLess (old ++ old') out := hout'.elim (hl.merge hl') (hl.mergeBack hl')
      have hpending := hout out hsorts
      have hlen' : out.length = l.length + l'.length := by
        rw [hsorts.perm.length_eq, length_append, hl.perm.length_eq, hl'.perm.length_eq]
      refine .lift_bind (set_append rfl _) (.lift_bind (b := ()) ?_ ?_)
      · rw [assert, if_pos (by simp)]
      · rw [eraseIdx_append_of_length_le (Nat.le_succ below.length), Nat.succ_sub le_rfl,
          Nat.sub_self, hp]
        refine ih ?_ (by simp) (hbuf'.trans hlen) ?_
        · simp at hn ⊢
          omega
        · rw [hlen'] at hpending
          exact hpending
    · exact .lift_bind hnone (.pure ⟨hlen, h, hdone, hne⟩)

theorem returns_sortRuns {bufLen : Nat} (hbuf : input.length ≤ 2 * bufLen + 1) :
    ∀ {n : Nat} {front : List α} {runs : List Run} {buf : Buffer α} {v : List α},
      front.length < n → buf.length = bufLen → Pending isLess input front runs v →
      (front = [] → runs.length = 1) → Returns (sortRuns isLess n front.length runs buf v) fun p =>
        p.1 = [⟨0, input.length⟩] ∧ Sorts isLess input p.2 := by
  intro n
  induction n with
  | zero => simp
  | succ n ih =>
    intro front runs buf v hn hlen h hone
    rw [sortRuns]
    split
    · next hpos =>
      have hfront : front ≠ [] := length_pos_iff.1 hpos
      obtain ⟨rest, rfl⟩ : ∃ rest, v = front ++ rest := by
        obtain ⟨parts, -, -, hv, -⟩ := h
        exact ⟨_, hv⟩
      refine .bind (returns_naturalRun hfront) ?_
      rintro ⟨start, v⟩ ⟨front', old, run, rfl, rfl, hold, rfl, hrun⟩
      refine .bind (returns_extendRun rfl length_append hold hrun) ?_
      rintro ⟨start, v⟩ hrun'
      rw [← @drop_left _ (front' ++ old) rest] at hrun'
      obtain ⟨front'', rfl, hlt, hpush⟩ := h.push hrun'
      refine .bind (returns_collapseRuns hbuf (Nat.lt_succ_self _) (by simp) hlen hpush) ?_
      rintro ⟨runs', buf', v'⟩ ⟨hlen', h', hdone, hne⟩
      refine ih (by omega) hlen' h' ?_
      rintro rfl
      obtain ⟨parts, -, -, -, rfl⟩ := h'
      cases parts with
      | nil => exact absurd rfl hne
      | cons p parts =>
        rw [map_cons, describe, reverse_cons] at hdone ⊢
        rw [hdone _ _ rfl rfl]
        rfl
    · next hpos =>
      obtain rfl : front = [] := by simpa using hpos
      obtain ⟨parts, hsorts, rfl, rfl, rfl⟩ := h
      have hlen1 := hone rfl
      rw [length_reverse, describe_length, length_map] at hlen1
      obtain ⟨p, rfl⟩ := length_eq_one_iff.1 hlen1
      have hp := hsorts p mem_cons_self
      exact .pure (by simpa [describe, hp.perm.length_eq] using hp)

end

theorem returns_insertionSort : ∀ {i : Nat} {front old run : List α}, i = front.length →
    Sorts isLess old run →
    Returns (insertionSort isLess i (front ++ run)) (Sorts isLess (front ++ old)) := by
  intro i
  induction i with
  | zero =>
    intro front old run hi hrun
    obtain rfl := length_eq_zero_iff.1 hi.symm
    exact .pure hrun
  | succ i ih =>
    intro front old run hi hrun
    rcases eq_nil_or_concat' front with rfl | ⟨front, x, rfl⟩
    · cases hi
    rw [length_append, length_singleton] at hi
    rw [insertionSort, ← append_cons, ← append_nil (front ++ x :: run)]
    refine .bind (returns_insertHead_inRange (Nat.succ.inj hi) (by simp) hrun) ?_
    rintro v ⟨out, hout, rfl⟩
    have h := ih (Nat.succ.inj hi) hout
    rwa [append_nil, ← append_cons]

/-- `merge_sort` returns, without an access out of bounds and with one run that covers the slice,
whatever the comparator answers; it rearranges the slice, and sorts it stably when the comparator
follows a strict weak order. -/
theorem mergeSort_sorts (isLess : IsLess α σ) (v : List α) (s : σ) : ∃ v' s', mergeSort isLess v s =
    .ok (v', s') ∧ v'.Perm v ∧ ∀ lt, Follows isLess lt → SortedBy lt v' ∧ StableBy lt v v' := by
  suffices h : Returns (mergeSort isLess v) (Sorts isLess v) by
    obtain ⟨v', s', hrun, hv⟩ := h s
    exact ⟨v', s', hrun, hv.perm, hv.ordered⟩
  rw [mergeSort]
  split
  · split
    · rcases eq_nil_or_concat' v with rfl | ⟨v, x, rfl⟩
      · contradiction
      · exact returns_insertionSort (by simp) (.singleton x)
    · next hlt =>
      match v, hlt with
      | [], _ => exact .pure ⟨.refl _, fun lt _ => ⟨.nil, .refl _ _⟩⟩
      | [x], _ => exact .pure (.singleton x)
      | _ :: _ :: _, hlt => exact absurd (by simp) hlt
  · next hlt =>
    have hpending : Pending isLess v v [] v := ⟨[], by simp, by simp, by simp, rfl⟩
    have hbuf : v.length ≤ 2 * (v.length / 2) + 1 := by omega
    refine .bind (returns_sortRuns hbuf (Nat.lt_succ_self _) length_replicate hpending
      fun hnil => ?_) ?_
    · subst hnil
      simp at hlt
    · rintro ⟨runs, v'⟩ ⟨rfl, hv'⟩
      exact .lift_bind (b := ()) (by rw [assert, if_pos (by simp)]) (.pure hv')

/-- Numbers. -/
theorem mergeSort_sorts_nat : ∃ v', (∃ s', mergeSort (fun a b s => (decide (a < b), s)) [3, 1, 2] () =
    .ok (v', s')) ∧ v'.Perm [3, 1, 2] ∧ SortedBy (fun a b : Nat => decide (a < b)) v' :=
  have ⟨v', s', hrun, hperm, hsorts⟩ := mergeSort_sorts (fun a b s => (decide (a < b), s)) [3, 1, 2] ()
  ⟨v', ⟨s', hrun⟩, hperm, (hsorts _ (follows_lt Nat Unit)).1⟩

end Tortis.Sort
