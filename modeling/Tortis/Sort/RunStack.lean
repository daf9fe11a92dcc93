import Tortis.Sort.StableSort

/-!
# The stack of runs

What the merges that `collapse` demands make of the stack of runs, whatever the runs hold.
`collapse` looks at the top four runs only. Everything below the top two is left alone by a push and
by a merge (`Settled`), so where no merge is demanded the whole stack is in order.
-/

namespace Tortis.Sort

open Slice Compare List Outcome

variable {α σ : Type} {runs : List Run}

/-- The loop of `merge_sort` that merges runs, of the stack alone. -/
def mergeRuns : Nat → List Run → Outcome (List Run)
  | 0, _ => .error .outOfFuel
  | n + 1, runs => do
    match ← collapse runs with
    | none => .ok runs
    | some r => do
      let left ← Slice.get runs (r + 1)
      let right ← Slice.get runs r
      let runs ← Slice.set runs r ⟨left.start, left.len + right.len⟩
      assert (r + 1 < runs.length) "removal index should be < len"
      mergeRuns n (runs.eraseIdx (r + 1))

/-- The stack after the runs `pushed`, with the merges that each of them asks for. -/
def pushRuns (pushed : List Run) : Outcome (List Run) :=
  pushed.foldlM (fun runs run => mergeRuns ((runs ++ [run]).length + 1) (runs ++ [run])) []

theorem lift_bind_eq_ok {β γ : Type} {o : Outcome β} {f : β → Asking σ γ} {s : σ} {out : γ × σ}
    (h : ((liftM o : Asking σ β) >>= f) s = .ok out) : ∃ b, o = .ok b ∧ f b s = .ok out := by
  cases o with
  | error e => cases h
  | ok b => exact ⟨b, rfl, h⟩

/-- `merge_sort` merges its stack as `mergeRuns` says. -/
theorem mergeRuns_of_collapseRuns {isLess : IsLess α σ} : ∀ {n : Nat} {runs : List Run}
    {buf : Buffer α} {v : List α} {s : σ} {out : (List Run × Buffer α × List α) × σ},
    collapseRuns isLess n runs buf v s = .ok out → mergeRuns n runs = .ok out.1.1 := by
  intro n
  induction n with
  | zero => intro _ _ _ _ _ h; cases h
  | succ n ih =>
    intro runs buf v s out h
    obtain ⟨o, ho, h⟩ := lift_bind_eq_ok h
    rw [mergeRuns, ho, ok_bind]
    cases o with
    | none =>
      cases h
      rfl
    | some r =>
      obtain ⟨left, hleft, h⟩ := lift_bind_eq_ok h
      obtain ⟨right, hright, h⟩ := lift_bind_eq_ok h
      obtain ⟨⟨⟨buf', v'⟩, s'⟩, -, h⟩ := bind_eq_ok.1 h
      obtain ⟨runs', hset, h⟩ := lift_bind_eq_ok h
      obtain ⟨_, hassert, h⟩ := lift_bind_eq_ok h
      simp only [hleft, hright, hset, hassert, ok_bind]
      exact ih h

/-! ## What `collapse` checks -/

/-- Each run is longer than the one above it, and than the two above it together. -/
def InOrder (runs : List Run) : Prop :=
  (∀ i a b, runs[i]? = some a → runs[i + 1]? = some b → b.len < a.len) ∧
  ∀ i a b c, runs[i]? = some a → runs[i + 1]? = some b → runs[i + 2]? = some c →
    b.len + c.len < a.len

/-- All but the top two runs are in order. -/
def Settled (runs : List Run) : Prop := InOrder (runs.take (runs.length - 2))

theorem getElem?_of_take {n i : Nat} {a : Run} (h : (runs.take n)[i]? = some a) :
    runs[i]? = some a := by
  rw [getElem?_take] at h
  split at h
  · exact h
  · cases h

theorem InOrder.take (h : InOrder runs) (n : Nat) : InOrder (runs.take n) := by
  constructor
  · intro i a b ha hb
    exact h.1 i a b (getElem?_of_take ha) (getElem?_of_take hb)
  · intro i a b c ha hb hc
    exact h.2 i a b c (getElem?_of_take ha) (getElem?_of_take hb) (getElem?_of_take hc)

theorem demandsMerge_false {run1 run2 : Run} (h : demandsMerge runs run1 run2 = .ok false) :
    run1.len < run2.len ∧ (3 ≤ runs.length → ∀ run3, runs[runs.length - 3]? = some run3 →
      run2.len + run1.len < run3.len ∧
      (4 ≤ runs.length → ∀ run4, runs[runs.length - 4]? = some run4 →
        run3.len + run2.len < run4.len)) := by
  rw [demandsMerge] at h
  split at h
  · cases h
  · next hne =>
    refine ⟨by omega, fun hn run3 h3 => ?_⟩
    rw [if_pos hn, get_eq h3, ok_bind] at h
    split at h
    · cases h
    · refine ⟨by omega, fun hn' run4 h4 => ?_⟩
      rw [if_pos hn', get_eq h4, ok_bind, Except.ok.injEq, decide_eq_false_iff_not] at h
      omega

/-- Where no merge is demanded, what `collapse` checks of the top four runs completes the order. -/
theorem inOrder_of_demands (hs : Settled runs)
    (h : ∀ run1 run2, 2 ≤ runs.length → runs[runs.length - 1]? = some run1 →
      runs[runs.length - 2]? = some run2 → demandsMerge runs run1 run2 = .ok false) :
    InOrder runs := by
  have hget : ∀ {i a}, runs[i]? = some a → i < runs.length - 2 →
      (runs.take (runs.length - 2))[i]? = some a := fun h hi => by
    rwa [getElem?_take_of_lt hi]
  have htriple : ∀ i a b c, runs[i]? = some a → runs[i + 1]? = some b → runs[i + 2]? = some c →
      b.len + c.len < a.len := by
    intro i a b c ha hb hc
    have hlen := lt_length hc
    by_cases htop : i + 4 < runs.length
    · exact hs.2 i a b c (hget ha (by omega)) (hget hb (by omega)) (hget hc (by omega))
    by_cases hthree : i + 3 = runs.length
    · have hd := h c b (by omega) (by rwa [← hthree]) (by rwa [← hthree])
      exact ((demandsMerge_false hd).2 (by omega) a (by rwa [← hthree])).1
    · have hfour : i + 4 = runs.length := by omega
      obtain ⟨d, hd⟩ := exists_getElem? (show i + 3 < runs.length by omega)
      have hd := h d c (by omega) (by rwa [← hfour]) (by rwa [← hfour])
      exact ((demandsMerge_false hd).2 (by omega) b (by rwa [← hfour])).2 (by omega) a
        (by rwa [← hfour])
  refine ⟨fun i a b ha hb => ?_, htriple⟩
  have hlen := lt_length hb
  by_cases htop : i + 2 = runs.length
  · have hd := h b a (by omega) (by rwa [← htop]) (by rwa [← htop])
    exact (demandsMerge_false hd).1
  · obtain ⟨c, hc⟩ := exists_getElem? (show i + 2 < runs.length by omega)
    exact lt_of_le_of_lt (Nat.le_add_right _ _) (htriple i a b c ha hb hc)

/-- A merge leaves everything below the top three runs alone. -/
theorem settled_merge {r : Nat} (hr : r + 2 ≤ runs.length) (hr' : runs.length ≤ r + 3)
    (hs : Settled runs) (run : Run) : Settled ((runs.set r run).eraseIdx (r + 1)) := by
  have hlen : ((runs.set r run).eraseIdx (r + 1)).length - 2 = runs.length - 3 := by
    rw [length_eraseIdx_of_lt (by rw [length_set]; omega), length_set]
    omega
  have htake := hs.take (runs.length - 3)
  rw [take_take, min_eq_left (by omega)] at htake
  rwa [Settled, hlen, take_eraseIdx_eq_take_of_le _ _ _ (by omega), take_set_of_le (by omega)]

/-! ## All runs of the stack -/

theorem mergeRuns_inOrder : ∀ {n : Nat} {runs : List Run}, runs.length < n → Settled runs →
    ∃ runs', mergeRuns n runs = .ok runs' ∧ collapse runs' = .ok none ∧ InOrder runs' := by
  intro n
  induction n with
  | zero => simp
  | succ n ih =>
    intro runs hn hs
    rw [mergeRuns]
    rcases collapse_spec runs with ⟨r, hr, hlt, hlt'⟩ | ⟨hnone, -, hdemands⟩
    · obtain ⟨left, hleft⟩ := exists_getElem? (show r + 1 < runs.length by omega)
      obtain ⟨right, hright⟩ := exists_getElem? (show r < runs.length by omega)
      simp only [hr, get_eq hleft, get_eq hright, set_eq (show r < runs.length by omega), ok_bind,
        assert, length_set, show r + 1 < runs.length by omega, decide_true, if_true]
      refine ih ?_ (settled_merge hlt hlt' hs _)
      rw [length_eraseIdx_of_lt (by rw [length_set]; omega), length_set]
      omega
    · rw [hnone]
      exact ⟨runs, rfl, hnone, inOrder_of_demands hs hdemands⟩

theorem InOrder.push (h : InOrder runs) (run : Run) : Settled (runs ++ [run]) := by
  rw [Settled, length_append, length_singleton, take_append_of_le_length (by omega)]
  exact h.take _

/-- Whatever runs are pushed, the merges end, and where they do the whole stack is in order. -/
theorem pushRuns_inOrder (pushed : List Run) :
    ∃ runs, pushRuns pushed = .ok runs ∧ collapse runs = .ok none ∧ InOrder runs := by
  refine foldlM_start (P := fun _ runs => collapse runs = .ok none ∧ InOrder runs)
    ⟨rfl, by simp [InOrder]⟩ fun pre run post runs _ h => ?_
  exact mergeRuns_inOrder (Nat.lt_succ_self _) (h.2.push run)

end Tortis.Sort
