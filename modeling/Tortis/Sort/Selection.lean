import Tortis.Sort.Quicksort

/-!
# Selection

`partition_at_index` of `libcore/slice/sort.rs`, for elements of a size other than zero. The loop
partitions as `recurse` does, and goes on with the part that has the index. What it leaves is
`Selected`: the element at the index is not smaller than one before it, nor greater than one behind.
-/

namespace Tortis.Sort

open Slice Compare Outcome List

variable {α σ : Type}

section
variable (isLess : IsLess α σ)

/-- The fold of `max_by` or `min_by` over the numbered elements, from the one with the number `i`
on. -/
def foldBy (new : Bool) : List α → Nat → Nat × α → Asking σ (Nat × α)
  | [], _, held => pure held
  | y :: rest, i, held => do
    let less ← ask isLess held.2 y
    foldBy new rest (i + 1) (if less = new then (i, y) else held)

def fold1 (new : Bool) : List α → Asking σ (Option (Nat × α))
  | [] => pure none
  | x :: rest => do
    let held ← foldBy isLess new rest 1 (0, x)
    pure (some held)

/-- `max_by`, with a closure that answers `Less` or `Greater`. -/
def maxBy (v : List α) : Asking σ (Option (Nat × α)) := fold1 isLess true v

/-- `min_by`, with a closure that answers `Less` or `Greater`. -/
def minBy (v : List α) : Asking σ (Option (Nat × α)) := fold1 isLess false v

def partitionAtIndexLoop : Nat → Option α → Nat → List α → Asking σ (List α)
  | 0, _, _, _ => throw .outOfFuel
  | n + 1, pred, index, v => do
    if v.length ≤ 10 then tailInsertionSort isLess v
    else do
      let (pivot, _, v) ← choosePivot isLess v
      if ← equalsPred isLess pred v pivot then do
        let (mid, v) ← partitionEqual isLess v pivot
        if index < mid then pure v
        else do
          assert (decide (mid ≤ v.length)) "slice index starts past the end"
          let rest ← partitionAtIndexLoop n none (index - mid) (v.drop mid)
          pure (v.take mid ++ rest)
      else do
        let (mid, _, v) ← partition isLess v pivot
        assert (decide (mid ≤ v.length)) "mid <= len"
        let left := v.take mid
        let (pivot, right) ← splitFirst (v.drop mid)
        if mid < index then do
          let right ← partitionAtIndexLoop n (some pivot) (index - mid - 1) right
          pure (left ++ pivot :: right)
        else if index < mid then do
          let left ← partitionAtIndexLoop n pred index left
          pure (left ++ pivot :: right)
        else pure (left ++ pivot :: right)

/-- The greatest or the least element is swapped with the one at `index`. -/
def swapFound (found : Asking σ (Option (Nat × α))) (v : List α) (index : Nat) :
    Asking σ (List α) := do
  let (place, _) ← unwrap (← found)
  Slice.swap v place index

/-- `partition_at_index`: the elements before the index, the one there and those behind it. -/
def partitionAtIndex (v : List α) (index : Nat) : Asking σ (List α × α × List α) := do
  if v.length ≤ index then
    throw (.panic s!"partition_at_index index {index} greater than length of slice {v.length}")
  else do
    let v ← (if index = v.length - 1 then swapFound (maxBy isLess v) v index
      else if index = 0 then swapFound (minBy isLess v) v index
      else partitionAtIndexLoop isLess (v.length + 1) none index v)
    let (pivot, right) ← splitFirst (v.drop index)
    pure (v.take index, pivot, right)

end

variable {isLess : IsLess α σ} {lt : α → α → Bool} {v l r : List α} {index : Nat} {x : α}

/-! ## What is selected -/

/-- The element at `index` is not smaller than those before it, and those behind it are not smaller
than it. -/
def Selected (lt : α → α → Bool) (index : Nat) (v : List α) : Prop :=
  ∃ left x right, v = left ++ x :: right ∧ left.length = index ∧ (∀ a ∈ left, lt x a = false) ∧
    ∀ a ∈ right, lt a x = false

theorem take_cons_drop (hx : v[index]? = some x) : v.take index ++ x :: v.drop (index + 1) = v := by
  obtain ⟨hi, rfl⟩ := List.getElem?_eq_some_iff.1 hx
  rw [← List.drop_eq_getElem_cons hi, take_append_drop]

theorem Selected.of_get (hx : v[index]? = some x) (hl : ∀ a ∈ v.take index, lt x a = false)
    (hr : ∀ a ∈ v.drop (index + 1), lt a x = false) : Selected lt index v :=
  ⟨_, _, _, (take_cons_drop hx).symm, length_take_of_le (lt_length hx).le, hl, hr⟩

theorem Selected.of_sorted (h : SortedBy lt v) (hi : index < v.length) : Selected lt index v := by
  obtain ⟨x, hx⟩ := exists_getElem? hi
  rw [← take_cons_drop hx, SortedBy.append_iff] at h
  exact .of_get hx (fun a ha => h.2.2 a ha x mem_cons_self) h.2.1.head

theorem Selected.append (h : Selected lt index l) (hr : ∀ a ∈ r, ∀ b ∈ l, lt a b = false) :
    Selected lt index (l ++ r) := by
  obtain ⟨left, x, right, rfl, hi, hl, hx⟩ := h
  exact ⟨left, x, right ++ r, by simp, hi, hl, by grind⟩

theorem Selected.prepend (h : Selected lt index r) (hl : ∀ a ∈ l, ∀ b ∈ r, lt b a = false) :
    Selected lt (l.length + index) (l ++ r) := by
  obtain ⟨left, x, right, rfl, rfl, hx, hr⟩ := h
  exact ⟨l ++ left, x, right, by simp, length_append, by grind, hr⟩

/-! ## `max_by` and `min_by` -/

/-- No element is on the wrong side of `x`: greater, or else smaller. -/
def Extreme (lt : α → α → Bool) (new : Bool) (x : α) (v : List α) : Prop :=
  ∀ a ∈ v, (if new then lt x a else lt a x) = false

theorem returns_foldBy {new : Bool} : ∀ {rest done : List α} {held : Nat × α},
    done[held.1]? = some held.2 → Returns (foldBy isLess new rest done.length held) fun p =>
      (done ++ rest)[p.1]? = some p.2 ∧ WhenOrdered isLess fun lt =>
        Extreme lt new held.2 done → Extreme lt new p.2 (done ++ rest) := by
  intro rest
  induction rest with
  | nil =>
    intro done held hheld
    rw [append_nil]
    exact .pure ⟨hheld, fun _ _ h => h⟩
  | cons y rest ih =>
    intro done held hheld
    refine .bind (returns_ask isLess held.2 y) fun less hless => ?_
    have hlen : done.length + 1 = (done ++ [y]).length := by simp
    rw [hlen, append_cons done y rest]
    refine (ih (by split <;> grind)).imp fun p ⟨hp, hext⟩ =>
      ⟨hp, fun lt hfol h => hext lt hfol fun a ha => ?_⟩
    have hy := hfol.answer hless
    rcases mem_append.1 ha with ha | ha
    · have hxa := h a ha
      cases less <;> cases new <;> grind [hfol.neg_trans, hfol.asymm]
    · obtain rfl := mem_singleton.1 ha
      cases less <;> cases new <;> grind [hfol.irrefl, hfol.asymm]

theorem returns_fold1 {new : Bool} (y : α) (rest : List α) :
    Returns (fold1 isLess new (y :: rest)) fun q => ∃ p, q = some p ∧ (y :: rest)[p.1]? = some p.2 ∧
        WhenOrdered isLess fun lt => Extreme lt new p.2 (y :: rest) := by
  refine .bind (@returns_foldBy _ _ isLess new rest [y] (0, y) rfl) fun p ⟨hp, hext⟩ =>
    .pure ⟨p, rfl, hp, fun lt hfol => hext lt hfol fun a ha => ?_⟩
  obtain rfl := mem_singleton.1 ha
  simp [hfol.irrefl]

theorem returns_swapFound {new : Bool} (hi : index < v.length)
    (hend : if new then index + 1 = v.length else index = 0) :
    Returns (swapFound (fold1 isLess new v) v index) fun v' => v'.Perm v ∧
      WhenOrdered isLess fun lt => Selected lt index v' := by
  cases v with
  | nil => simp at hi
  | cons y rest =>
    refine .bind (returns_fold1 y rest) ?_
    rintro _ ⟨p, rfl, hp, hext⟩
    have hlt := lt_length hp
    refine .lift_bind (b := p) rfl (.lift (swap_eq hlt hi) ⟨exchange_perm _ _ _, fun lt hfol => ?_⟩)
    have hx := exchange_getElem? hlt hi index
    rw [Equiv.swap_apply_right] at hx
    have hall := hext lt hfol
    have hmem : ∀ a ∈ exchange (y :: rest) p.1 index, a ∈ y :: rest := fun a ha =>
      (exchange_perm _ _ _).mem_iff.1 ha
    refine .of_get (hx.trans hp) (fun a ha => ?_) fun a ha => ?_
    · have ha' := hall a (hmem a (mem_of_mem_take ha))
      cases new <;> grind
    · have ha' := hall a (hmem a (mem_of_mem_drop ha))
      cases new <;> grind [exchange_length]

/-! ## `partition_at_index` -/

theorem returns_partitionAtIndexLoop : ∀ {n : Nat} {pred : Option α} {index : Nat} {v : List α},
    v.length < n → index < v.length →
    Returns (partitionAtIndexLoop isLess n pred index v) fun v' => v'.Perm v ∧
      WhenOrdered isLess fun lt => AfterPred lt pred v → Selected lt index v' := by
  intro n
  induction n with
  | zero => simp
  | succ n ih =>
    intro pred index v hn hi
    rw [partitionAtIndexLoop]
    split
    · refine (returns_tailInsertionSort v).imp fun v' h => ⟨h.perm, fun lt hfol _ => ?_⟩
      exact .of_sorted (h.sorted lt hfol) (by rwa [h.perm.length_eq])
    refine .bind (returns_choosePivot (by omega)) ?_
    rintro ⟨p, likely, v1⟩ ⟨hperm1, hp⟩
    dsimp only at hperm1 hp ⊢
    have hlen1 := hperm1.length_eq
    refine .bind (returns_equalsPred (by omega)) fun equal hequal => ?_
    split
    · next he =>
      obtain ⟨pred, a, rfl, ha, hpreda⟩ := hequal he
      refine .bind (returns_partitionEqual (by omega)) ?_
      rintro ⟨mid, v2⟩ ⟨hperm2, pivot, equal, greater, hpivot, rfl, rfl, hequal', hgreater⟩
      rw [ha] at hpivot
      cases hpivot
      have hperm := hperm2.trans hperm1
      have hlen := hperm.length_eq
      simp only [length_cons, length_append] at hlen
      -- The pivot is a least element, so the elements that were said to be equal to it are.
      have hleast : ∀ lt, Follows isLess lt → AfterPred lt (some pred) v →
          (∀ x ∈ v, lt x a = false) ∧ ∀ x ∈ a :: equal, lt a x = false := by
        refine fun lt hfol hafter => ⟨fun x hx => ?_, fun x hx => ?_⟩
        · exact hfol.neg_trans (hafter pred rfl x hx) (hfol.answer hpreda)
        · rcases mem_cons.1 hx with rfl | hx
          · exact hfol.irrefl x
          · exact hfol.answer (hequal' x hx)
      dsimp only
      rw [← cons_append] at hperm ⊢
      split
      · refine .pure ⟨hperm, fun lt hfol hafter => ?_⟩
        obtain ⟨hv, ha⟩ := hleast lt hfol hafter
        have hsorted := sorted_equal hfol (l := a :: equal) (r := []) (p := a)
          (fun x hx => ⟨ha x hx, hv x (hperm.mem_iff.1 (mem_append_left _ hx))⟩) .nil (by simp)
        rw [append_nil] at hsorted
        refine (Selected.of_sorted hsorted ‹index < equal.length + 1›).append fun b hb x hx => ?_
        exact hfol.neg_trans (hv b (hperm.mem_iff.1 (mem_append_right _ hb))) (ha x hx)
      · refine .lift_bind (assert_ok (decide_eq_true (by simp))) ?_
        have hmid : equal.length + 1 = (a :: equal).length := rfl
        rw [hmid, take_left, drop_left]
        refine .bind (ih (by omega) (by rw [length_cons]; omega)) fun rest ⟨hperm3, hrest⟩ => ?_
        refine .pure ⟨(hperm3.append_left _).trans hperm, fun lt hfol hafter => ?_⟩
        obtain ⟨hv, ha⟩ := hleast lt hfol hafter
        have hsel := (hrest lt hfol (by simp [AfterPred])).prepend (l := a :: equal)
          fun x hx b hb => hfol.neg_trans
            (hv b (hperm.mem_iff.1 (mem_append_right _ (hperm3.mem_iff.1 hb)))) (ha x hx)
        rwa [Nat.add_sub_cancel' (by rw [length_cons]; omega)] at hsel
    · refine .bind (returns_partition (by omega)) ?_
      rintro ⟨mid, _, v2⟩ ⟨hperm2, left, pivot, right, rfl, rfl, hleft, hright⟩
      have hperm := hperm2.trans hperm1
      have hlen := hperm.length_eq
      simp only [length_cons, length_append] at hlen
      refine .lift_bind (assert_ok (decide_eq_true (by simp))) ?_
      rw [take_left, drop_left]
      refine .lift_bind (b := (pivot, right)) rfl ?_
      dsimp only
      split
      · refine .bind (ih (by omega) (by omega)) fun right' ⟨hr, hsel⟩ => ?_
        refine .pure ⟨((hr.cons pivot).append_left left).trans hperm, fun lt hfol _ => ?_⟩
        have hrp : ∀ b ∈ right, lt b pivot = false := fun b hb => hfol.answer (hright b hb)
        have hlp : ∀ a ∈ left, lt a pivot = true := fun a ha => hfol.answer (hleft a ha)
        have hsel' := (hsel lt hfol (by simpa [AfterPred])).prepend (l := left ++ [pivot])
          (by grind [hr.mem_iff, hfol.neg_trans, hfol.asymm])
        rw [← append_cons, length_append, length_singleton] at hsel'
        have hindex : left.length + 1 + (index - left.length - 1) = index := by omega
        rwa [hindex] at hsel'
      split
      · refine .bind (ih (by omega) (by omega)) fun left' ⟨hl, hsel⟩ => ?_
        refine .pure ⟨(hl.append_right _).trans hperm, fun lt hfol hafter => ?_⟩
        have hlp : ∀ a ∈ left, lt a pivot = true := fun a ha => hfol.answer (hleft a ha)
        have hrp : ∀ b ∈ right, lt b pivot = false := fun b hb => hfol.answer (hright b hb)
        exact (hsel lt hfol (hafter.subset fun a ha => hperm.mem_iff.1 (mem_append_left _ ha))).append
          (by grind [hl.mem_iff, hfol.neg_trans, hfol.asymm])
      · refine .pure ⟨hperm, fun lt hfol _ => ⟨left, pivot, right, rfl, by omega, fun a ha => ?_,
          fun a ha => hfol.answer (hright a ha)⟩⟩
        exact hfol.asymm (hfol.answer (hleft a ha))

theorem exists_sorted (hfol : Follows isLess lt) (s : σ) {left right : List α}
    (hl : ∀ a ∈ left, lt x a = false) (hr : ∀ a ∈ right, lt a x = false) :
    ∃ w, w.Perm (left ++ x :: right) ∧ SortedBy lt w ∧ w[left.length]? = some x := by
  obtain ⟨left', -, -, hl'⟩ := @returns_tailInsertionSort _ _ isLess left s
  obtain ⟨right', -, -, hr'⟩ := @returns_tailInsertionSort _ _ isLess right s
  refine ⟨left' ++ x :: right', hl'.perm.append (hr'.perm.cons x), ?_, ?_⟩
  · refine SortedBy.append_iff.2 ⟨hl'.sorted lt hfol, .cons ?_ (hr'.sorted lt hfol), ?_⟩
    · grind [hr'.perm.mem_iff]
    · grind [hl'.perm.mem_iff, hr'.perm.mem_iff, hfol.neg_trans]
  · rw [← hl'.perm.length_eq, getElem?_append_cons rfl]

/-- `partition_at_index` returns whatever the comparator answers. When the comparator follows a
strict weak order, no element before the index is greater than the one there and none behind it is
smaller, and a sort may put that element at the index. -/
theorem partitionAtIndex_selects (isLess : IsLess α σ) (v : List α) (index : Nat)
    (hi : index < v.length) (s : σ) :
    ∃ left x right, (∃ s', partitionAtIndex isLess v index s = .ok ((left, x, right), s')) ∧
      (left ++ x :: right).Perm v ∧ left.length = index ∧ ∀ lt, Follows isLess lt →
        (∀ a ∈ left, lt x a = false) ∧ (∀ a ∈ right, lt a x = false) ∧
          ∃ w, w.Perm v ∧ SortedBy lt w ∧ w[index]? = some x := by
  have hreturns : Returns (partitionAtIndex isLess v index) fun q => ∃ v', v'.Perm v ∧
      v' = q.1 ++ q.2.1 :: q.2.2 ∧ q.1.length = index ∧
        WhenOrdered isLess fun lt => Selected lt index v' := by
    rw [partitionAtIndex, if_neg hi.not_ge]
    have hmain : Returns (if index = v.length - 1 then swapFound (maxBy isLess v) v index
        else if index = 0 then swapFound (minBy isLess v) v index
        else partitionAtIndexLoop isLess (v.length + 1) none index v) fun v' => v'.Perm v ∧
          WhenOrdered isLess fun lt => Selected lt index v' := by
      split
      · exact @returns_swapFound _ _ isLess v index true hi (by simp; omega)
      split
      · exact @returns_swapFound _ _ isLess v index false hi (by simpa)
      · exact (returns_partitionAtIndexLoop v.length.lt_succ_self hi).imp fun v' h =>
          ⟨h.1, fun lt hfol => h.2 lt hfol (by simp [AfterPred])⟩
    refine .bind hmain fun v' ⟨hperm, hsel⟩ => ?_
    obtain ⟨x, hx⟩ := exists_getElem? (hperm.length_eq.symm ▸ hi)
    refine .lift_bind (b := (x, v'.drop (index + 1))) ?_ (.pure ⟨v', hperm,
      (take_cons_drop hx).symm, length_take_of_le (lt_length hx).le, hsel⟩)
    rw [splitFirst, get_eq (a := x) (by simpa), ok_bind, drop_drop]
  obtain ⟨⟨left, x, right⟩, s', hrun, v', hperm, rfl, hlen, hsel⟩ := hreturns s
  refine ⟨left, x, right, ⟨s', hrun⟩, hperm, hlen, fun lt hfol => ?_⟩
  obtain ⟨left', x', right', heq, hlen', hl, hr⟩ := hsel lt hfol
  obtain ⟨rfl, hcons⟩ := append_inj heq (hlen.trans hlen'.symm)
  cases hcons
  obtain ⟨w, hw, hsorted, hget⟩ := exists_sorted hfol s hl hr
  exact ⟨hl, hr, w, hw.trans hperm, hsorted, by rwa [hlen] at hget⟩

/-- Numbers. -/
theorem partitionAtIndex_selects_nat : ∃ left x right, (∃ s', partitionAtIndex
    (fun a b s => (decide (a < b), s)) [3, 1, 2] 1 () = .ok ((left, x, right), s')) ∧
    ∃ w, w.Perm [3, 1, 2] ∧ SortedBy (fun a b : Nat => decide (a < b)) w ∧ w[1]? = some x :=
  have ⟨left, x, right, hrun, _, _, h⟩ :=
    partitionAtIndex_selects (fun a b s => (decide (a < b), s)) [3, 1, 2] 1 (by decide) ()
  ⟨left, x, right, hrun, (h _ (follows_lt Nat Unit)).2.2⟩

end Tortis.Sort
