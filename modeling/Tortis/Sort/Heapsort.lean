import Tortis.Sort.Merging
import Tortis.Sort.UnstableSort
import Tortis.Lib.HeapOrder

/-!
# The heapsort fallback

`sift_down` closes the gap in the heap order at a place, when the comparator follows an order; in
any case it exchanges elements within the slice and ends. Each round of `heapsort` moves the root of
the heap in front of the sorted part.
-/

namespace Tortis.Sort

open Slice Compare HeapOrder List Outcome

variable {α σ : Type} {isLess : IsLess α σ} {lt : α → α → Bool}

/-- The order of the heap: the first element is not greater. -/
def atMost (lt : α → α → Bool) (a b : α) : Prop := lt b a = false

theorem atMost_trans (h : Follows isLess lt) : IsTrans α (atMost lt) :=
  ⟨fun _ _ _ hab hbc => h.neg_trans hbc hab⟩

theorem atMost_refl (h : Follows isLess lt) : Std.Refl (atMost lt) := ⟨h.irrefl⟩

theorem returns_greaterChild (v : List α) (node : Nat) :
    Returns (greaterChild isLess v node) fun c => 0 < c ∧ parent c = node ∧
      (v.length ≤ c → c = 2 * node + 1) ∧ WhenOrdered isLess fun lt =>
        ∀ d, 0 < d → d < v.length → parent d = node → d ≠ c → At (atMost lt) v d c := by
  have hchildren : ∀ d, 0 < d → parent d = node → d = 2 * node + 1 ∨ d = 2 * node + 2 :=
    fun d h0 hd => (parent_eq_iff h0).1 hd
  have hleft : parent (2 * node + 1) = node := (parent_eq_iff (Nat.succ_pos _)).2 (.inl rfl)
  have hright : parent (2 * node + 2) = node := (parent_eq_iff (Nat.succ_pos _)).2 (.inr rfl)
  rw [greaterChild]
  split
  · next hlt =>
    obtain ⟨a, ha⟩ := @exists_getElem? _ v (2 * node + 1) (by omega)
    obtain ⟨b, hb⟩ := exists_getElem? hlt
    refine .lift_bind (get_eq ha) (.lift_bind (get_eq hb) ?_)
    refine .bind (returns_ask isLess a b) fun answer hab => ?_
    cases answer with
    | true =>
      refine .pure ⟨Nat.succ_pos _, hright, fun hle => absurd hlt (Nat.not_lt.2 hle),
        fun lt hfol d h0 hd hp hne => ?_⟩
      obtain rfl := (hchildren d h0 hp).resolve_right hne
      exact .of_eq ha hb (hfol.asymm (hfol.answer hab))
    | false =>
      refine .pure ⟨Nat.succ_pos _, hleft, fun _ => rfl, fun lt hfol d h0 hd hp hne => ?_⟩
      obtain rfl := (hchildren d h0 hp).resolve_left hne
      exact .of_eq hb ha (hfol.answer hab)
  · next hlt =>
    refine .pure ⟨Nat.succ_pos _, hleft, fun _ => rfl, fun lt _ d h0 hd hp hne => ?_⟩
    exact absurd ((hchildren d h0 hp).resolve_left hne) (by omega)

theorem returns_siftDown : ∀ {n : Nat} {v : List α} {node : Nat}, v.length - node < n →
    Returns (siftDown isLess n v node) fun v' => v'.Perm v ∧ WhenOrdered isLess fun lt =>
      ∀ lo ≤ node, Gap (atMost lt) v lo v.length node → FitsUp (atMost lt) v lo node →
        Heap (atMost lt) v' lo v.length := by
  intro n
  induction n with
  | zero => simp
  | succ n ih =>
    intro v node hn
    refine .bind (returns_greaterChild v node) fun c ⟨h0, hparent, hlast, hgreatest⟩ => ?_
    have hchild := hparent ▸ parent_lt h0
    split
    · next hc =>
      refine .pure ⟨.refl _, fun lt _ lo hlo hgap hup => hgap.close (fun d h0d hd hpd => ?_) hup⟩
      have := (parent_eq_iff h0d).1 hpd
      omega
    · next hc =>
      rw [not_le] at hc
      obtain ⟨a, ha⟩ := @exists_getElem? _ v node (by omega)
      obtain ⟨b, hb⟩ := exists_getElem? hc
      refine .lift_bind (get_eq ha) (.lift_bind (get_eq hb) ?_)
      refine .bind (returns_ask isLess a b) fun answer hab => ?_
      cases answer with
      | false =>
        refine .pure ⟨.refl _, fun lt hfol lo hlo hgap hup =>
          hgap.close (fun d h0d hd hpd => ?_) hup⟩
        have := atMost_trans hfol
        have hfits : At (atMost lt) v c node := .of_eq hb ha (hfol.answer hab)
        by_cases hdc : d = c
        · exact hdc ▸ hfits
        · exact (hgreatest lt hfol d h0d hd hpd hdc).trans hfits hc
      | true =>
        refine .lift_bind (swap_eq (by omega) hc) ?_
        refine (ih (by rw [exchange_length]; omega)).imp fun v' ⟨hperm, hheap⟩ =>
          ⟨hperm.trans (exchange_perm _ _ _), fun lt hfol lo hlo hgap hup => ?_⟩
        have hat : At (atMost lt) v node c := .of_eq ha hb (hfol.asymm (hfol.answer hab))
        rw [exchange_length] at hheap
        exact hheap lt hfol lo (by omega)
          (hgap.down hlo le_rfl h0 hc hparent (hgreatest lt hfol))
          (FitsUp.down le_rfl h0 hc hparent hat)

theorem returns_siftDown_heap (v : List α) (node : Nat) :
    Returns (siftDown isLess (v.length + 1) v node) fun v' => v'.Perm v ∧
      WhenOrdered isLess fun lt => Heap (atMost lt) v (node + 1) v.length →
        Heap (atMost lt) v' node v.length :=
  (returns_siftDown (by omega)).imp fun _ ⟨hperm, hheap⟩ => ⟨hperm, fun lt hfol h =>
    hheap lt hfol node le_rfl h.gap_first .first⟩

theorem returns_buildHeap : ∀ {i : Nat} {v : List α},
    Returns (buildHeap isLess i v) fun v' => v'.Perm v ∧
      WhenOrdered isLess fun lt => Heap (atMost lt) v i v.length →
        Heap (atMost lt) v' 0 v.length := by
  intro i
  induction i with
  | zero => exact .pure ⟨.refl _, fun _ _ h => h⟩
  | succ i ih =>
    intro v
    refine .bind (returns_siftDown_heap v i) fun v1 ⟨hperm1, hheap1⟩ => ?_
    refine ih.imp fun v' ⟨hperm, hheap⟩ => ⟨hperm.trans hperm1, fun lt hfol h => ?_⟩
    rw [hperm1.length_eq] at hheap
    exact hheap lt hfol (hheap1 lt hfol h)

theorem returns_popMaximal : ∀ {i : Nat} {h s : List α}, h.length = i + 1 →
    Returns (popMaximal isLess i (h ++ s)) fun v' => v'.Perm (h ++ s) ∧
      WhenOrdered isLess fun lt => Heap (atMost lt) h 0 h.length → SortedBy lt s →
        (∀ a ∈ h, ∀ b ∈ s, atMost lt a b) → SortedBy lt v' := by
  intro i
  induction i with
  | zero =>
    intro h s hlen
    obtain ⟨a, rfl⟩ := length_eq_one_iff.1 hlen
    exact .pure ⟨.refl _, fun lt _ _ hs hle => .cons (hle a mem_cons_self) hs⟩
  | succ i ih =>
    intro h s hlen
    obtain ⟨root, mid, last, rfl⟩ : ∃ root mid last, h = root :: (mid ++ [last]) := by
      match h, hlen with
      | root :: h, hlen =>
        rcases eq_nil_or_concat' h with rfl | ⟨mid, last, rfl⟩
        · cases hlen
        · exact ⟨root, mid, last, rfl⟩
    have hmid : mid.length = i := by simpa using hlen
    have hlast : (root :: (mid ++ [last]) ++ s)[i + 1]? = some last := by
      rw [cons_append, append_assoc, singleton_append, getElem?_cons_succ,
        getElem?_append_cons hmid.symm]
    have hswap : Slice.swap (root :: (mid ++ [last]) ++ s) 0 (i + 1) =
        .ok ([] ++ last :: mid ++ root :: s) := by
      rw [Slice.swap, get_eq (a := root) rfl, ok_bind, get_eq hlast, ok_bind]
      simp [← hmid]
    refine .lift_bind hswap ?_
    refine .bind (returns_inRange rfl (by simp [hmid]) (returns_siftDown_heap (last :: mid) 0)) ?_
    rintro v ⟨h', ⟨hperm', hheap'⟩, rfl⟩
    refine (@ih h' (root :: s) (by rw [hperm'.length_eq, length_cons, hmid])).imp ?_
    rintro v' ⟨hperm, hsorted⟩
    refine ⟨hperm.trans ?_, fun lt hfol hheap hs hle => ?_⟩
    · refine (hperm'.append_right _).trans ?_
      refine perm_middle.trans (.cons root (.append_right s ?_))
      exact (perm_append_singleton last mid).symm
    · have htrans := atMost_trans hfol
      have hrefl := atMost_refl hfol
      have hmem : ∀ a ∈ h', a ∈ root :: (mid ++ [last]) := fun a ha => by
        have := hperm'.mem_iff.1 ha
        simp only [mem_cons, mem_append] at this ⊢
        tauto
      have hmax : ∀ a ∈ root :: (mid ++ [last]), atMost lt a root := by
        intro a ha
        obtain ⟨j, hj⟩ := mem_iff_getElem?.1 ha
        exact hheap.root le_rfl j (lt_length hj) a hj root rfl
      refine hsorted lt hfol ?_ (.cons (hle root mem_cons_self) hs) fun a ha b hb => ?_
      · rw [hperm'.length_eq]
        refine hheap' lt hfol ?_
        refine ((hheap.mono (m := (last :: mid).length) (by simp)).from_later
          (Nat.zero_le _)).congr fun j hj h0 => ?_
        cases j with
        | zero => cases h0 rfl
        | succ j =>
          rw [getElem?_cons_succ, getElem?_cons_succ, getElem?_append_left]
          exact Nat.lt_of_succ_lt_succ hj
      · rcases mem_cons.1 hb with rfl | hb
        · exact hmax a (hmem a ha)
        · exact hle a (hmem a ha) b hb

theorem returns_heapsort (v : List α) : Returns (heapsort isLess v) fun v' => v'.Perm v ∧
      WhenOrdered isLess fun lt => SortedBy lt v' := by
  refine .bind returns_buildHeap fun v1 ⟨hperm1, hheap1⟩ => ?_
  cases v with
  | nil =>
    rw [perm_nil.1 hperm1]
    exact .pure ⟨.refl _, fun _ _ => .nil⟩
  | cons a v =>
    have hpop := @returns_popMaximal _ _ isLess v.length v1 [] hperm1.length_eq
    rw [append_nil] at hpop
    rw [hperm1.length_eq]
    refine hpop.imp fun v' ⟨hperm, hsorted⟩ => ⟨hperm.trans hperm1, fun lt hfol => ?_⟩
    have hheap := hheap1 lt hfol (.of_half (by omega))
    rw [← hperm1.length_eq] at hheap
    exact hsorted lt hfol hheap .nil fun _ _ _ hb => nomatch hb

end Tortis.Sort
