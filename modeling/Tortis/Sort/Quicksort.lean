import Tortis.Sort.Heapsort
import Tortis.Sort.Partition

/-!
# The unstable sort sorts

Each level of `recurse` picks one of five ways to go on, and each of them leaves a permutation of the
slice that is sorted when the comparator follows an order (`Orders`). No element is smaller than the
predecessor, so a pivot that is not greater than it is a smallest element, and `partition_equal`
leaves elements in front that are all equal to it.
-/

namespace Tortis.Sort

open Slice Compare Outcome List SortedBy

variable {α σ : Type} {isLess : IsLess α σ} {v : List α}

/-- The second list is a rearrangement of the first one, and sorted when the comparator follows an
order. -/
structure Orders (isLess : IsLess α σ) (v v' : List α) : Prop where
  perm : v'.Perm v
  sorted : WhenOrdered isLess fun lt => SortedBy lt v'

/-! ## Insertion sorts -/

theorem returns_shiftTailLoop {tmp : α} : ∀ {i : Nat} {b c : List α} {x : α}, i = b.length →
    Returns (shiftTailLoop isLess tmp i b.length (b ++ x :: c)) fun p => ∃ out,
      MergesBack isLess b [tmp] out ∧ Slice.set p.2 p.1 tmp = .ok (out ++ c) := by
  intro i
  induction i with
  | zero =>
    intro b c x hi
    obtain rfl := length_eq_zero_iff.1 hi.symm
    exact .pure ⟨[tmp], .nilLeft _, rfl⟩
  | succ i ih =>
    intro b c x hi
    rcases eq_nil_or_concat' b with rfl | ⟨b, y, rfl⟩
    · cases hi
    rw [length_append, length_singleton] at hi ⊢
    have hi' := Nat.succ.inj hi
    have hget : Slice.get (b ++ [y] ++ x :: c) i = .ok y := by
      rw [append_assoc, singleton_append, get_append hi']
    refine .lift_bind hget (.bind (returns_ask isLess tmp y) fun answer hanswer => ?_)
    cases answer with
    | false =>
      refine .pure ⟨b ++ [y] ++ [tmp], .right (r := []) hanswer (.nilRight _), ?_⟩
      rw [set_append (by simp), append_assoc (b ++ [y])]
      rfl
    | true =>
      refine .lift_bind (set_append (by simp [hi']) y) ?_
      have hloop := @ih b (y :: c) y hi'
      rw [hi'] at hloop ⊢
      rw [append_assoc, singleton_append]
      refine hloop.imp fun p ⟨out, hout, hset⟩ =>
        ⟨out ++ [y], .left (r := []) hanswer hout, ?_⟩
      rw [hset, append_assoc]
      rfl

theorem returns_shiftTail (l : List α) (a : α) :
    Returns (shiftTail isLess (l ++ [a])) (MergesBack isLess l [a]) := by
  rcases eq_nil_or_concat' l with rfl | ⟨l, b, rfl⟩
  · exact .pure (.nilLeft _)
  have hlen : (l ++ [b] ++ [a]).length = l.length + 2 := by simp
  have hlast : Slice.get (l ++ [b] ++ [a]) (l.length + 1) = .ok a := get_append (by simp)
  have hbefore : Slice.get (l ++ [b] ++ [a]) l.length = .ok b := by
    rw [append_assoc, singleton_append, get_append rfl]
  rw [shiftTail]
  rw [hlen, if_pos (Nat.le_add_left 2 _)]
  refine .lift_bind hlast (.lift_bind hbefore ?_)
  refine .bind (returns_ask isLess a b) fun answer hanswer => ?_
  cases answer with
  | false => exact .pure (.right (r := []) hanswer (.nilRight _))
  | true =>
    refine .lift_bind (set_append (by simp) b) ?_
    have hloop := @returns_shiftTailLoop _ _ isLess a l.length l [b] b rfl
    rw [append_assoc, singleton_append, Nat.add_sub_cancel]
    exact .bind hloop fun p ⟨out, hout, hset⟩ =>
      .lift hset (.left (r := []) hanswer hout)

theorem sorts_last {l out : List α} {a : α} (h : MergesBack isLess l [a] out) :
    out.Perm (l ++ [a]) ∧ WhenOrdered isLess fun lt => SortedBy lt l → SortedBy lt out :=
  ⟨h.perm, fun _ hfol hl => h.sorted hfol hl (pairwise_singleton _ _)⟩

theorem returns_tailInsertionLoop : ∀ {k i : Nat} {done rest : List α}, k = rest.length →
    i = done.length → Returns (tailInsertionLoop isLess k i (done ++ rest)) fun v' =>
      v'.Perm (done ++ rest) ∧ WhenOrdered isLess fun lt => SortedBy lt done → SortedBy lt v' := by
  intro k
  induction k with
  | zero =>
    intro i done rest hk hi
    obtain rfl := length_eq_zero_iff.1 hk.symm
    rw [append_nil]
    exact .pure ⟨.refl _, fun _ _ h => h⟩
  | succ k ih =>
    intro i done rest hk hi
    obtain ⟨x, rest, rfl⟩ := exists_cons_of_length_pos (l := rest) (by omega)
    have hrange := @returns_inRange _ _ _ (MergesBack isLess done [x]) [] (done ++ [x]) rest
      0 (i + 1) rfl (by simp [hi]) (returns_shiftTail done x)
    rw [nil_append, ← append_cons] at hrange
    refine .bind hrange ?_
    rintro v ⟨out, hout, rfl⟩
    obtain ⟨hperm, hsorted⟩ := sorts_last hout
    refine (@ih (i + 1) out rest (Nat.succ.inj hk) (by simp [hperm.length_eq, hi])).imp ?_
    rintro v' ⟨hperm', hsorted'⟩
    refine ⟨hperm'.trans ?_, fun lt hfol h => hsorted' lt hfol (hsorted lt hfol h)⟩
    rw [append_cons]
    exact hperm.append_right rest

theorem returns_tailInsertionSort (v : List α) :
    Returns (tailInsertionSort isLess v) (Orders isLess v) := by
  cases v with
  | nil => exact .pure ⟨.refl _, fun _ _ => .nil⟩
  | cons a v =>
    refine (@returns_tailInsertionLoop _ _ isLess v.length 1 [a] v rfl rfl).imp ?_
    exact fun v' ⟨hperm, hsorted⟩ =>
      ⟨hperm, fun lt hfol => hsorted lt hfol (pairwise_singleton _ a)⟩

/-! ## `partial_insertion_sort` -/

variable {lt : α → α → Bool}

theorem SortedBy.take_succ (hfol : Follows isLess lt) {i : Nat} {a b : α}
    (h : SortedBy lt (v.take i)) (hpos : 0 < i) (ha : v[i]? = some a) (hb : v[i - 1]? = some b)
    (hab : lt a b = false) : SortedBy lt (v.take (i + 1)) := by
  have hi : v.take i = v.take (i - 1) ++ [b] := by
    rw [← Nat.sub_add_cancel hpos, take_add_one, Nat.sub_add_cancel hpos, hb]
    rfl
  rw [take_add_one, ha, Option.toList_some]
  refine append_iff.2 ⟨h, pairwise_singleton _ _, fun x hx y hy => ?_⟩
  obtain rfl := mem_singleton.1 hy
  rw [hi] at h hx
  rcases mem_append.1 hx with hx | hx
  · exact hfol.neg_trans hab ((append_iff.1 h).2.2 x hx b (mem_singleton_self b))
  · exact mem_singleton.1 hx ▸ hab

theorem returns_findUnordered : ∀ {k i : Nat}, 0 < i → i + k = v.length →
    Returns (findUnordered isLess v k i) fun i' => i ≤ i' ∧ i' ≤ v.length ∧
      WhenOrdered isLess fun lt => SortedBy lt (v.take i) → SortedBy lt (v.take i') := by
  intro k
  induction k with
  | zero => exact fun _ hi => .pure ⟨le_rfl, by omega, fun _ _ h => h⟩
  | succ k ih =>
    intro i hpos hi
    obtain ⟨a, ha⟩ := @exists_getElem? _ v i (by omega)
    obtain ⟨b, hb⟩ := @exists_getElem? _ v (i - 1) (by omega)
    refine .lift_bind (get_eq ha) (.lift_bind (get_eq hb) ?_)
    refine .bind (returns_ask isLess a b) fun answer hab => ?_
    cases answer with
    | true => exact .pure ⟨le_rfl, by omega, fun _ _ h => h⟩
    | false =>
      refine (@ih (i + 1) (Nat.succ_pos _) (by omega)).imp ?_
      rintro i' ⟨hle, hlen, hsorted⟩
      exact ⟨by omega, hlen, fun lt hfol h =>
        hsorted lt hfol (SortedBy.take_succ hfol h hpos ha hb (hfol.answer hab))⟩

theorem returns_partialInsertionLoop : ∀ {steps i : Nat} {v : List α}, 0 < i → i ≤ v.length →
    Returns (partialInsertionLoop isLess steps i v) fun p => p.2.Perm v ∧
      (p.1 = true → WhenOrdered isLess fun lt => SortedBy lt (v.take i) → SortedBy lt p.2) := by
  intro steps
  induction steps with
  | zero => exact fun _ _ => .pure ⟨.refl _, fun h => nomatch h⟩
  | succ steps ih =>
    intro i v hpos hi
    refine .bind (returns_findUnordered hpos (by omega)) ?_
    rintro i' ⟨hle, hlen, hsorted⟩
    split
    · next hend =>
      subst hend
      rw [take_length] at hsorted
      exact .pure ⟨.refl _, fun _ => hsorted⟩
    split
    · exact .pure ⟨.refl _, fun h => nomatch h⟩
    obtain ⟨p, b, a, q, rfl, rfl⟩ : ∃ p b a q, v = p ++ b :: a :: q ∧ i' = p.length + 1 := by
      obtain ⟨p, pair, q, rfl, hp, hpair⟩ := exists_parts (v := v) (l := i' - 1) (r := i' + 1)
        (by omega) (by omega)
      obtain ⟨b, a, rfl⟩ := length_eq_two.1 (by omega : pair.length = 2)
      exact ⟨p, b, a, q, by simp, by omega⟩
    have hget : (p ++ b :: a :: q)[p.length + 1]? = some a := by
      rw [append_cons, getElem?_append_cons (by simp)]
    have hswap : Slice.swap (p ++ b :: a :: q) (p.length + 1 - 1) (p.length + 1) =
        .ok ([] ++ (p ++ [a]) ++ b :: q) := by
      rw [Nat.add_sub_cancel, Slice.swap, get_append rfl, ok_bind, get_eq hget, ok_bind]
      simp
    refine .lift_bind hswap ?_
    refine .bind (returns_inRange rfl (by simp) (returns_shiftTail p a)) ?_
    rintro _ ⟨out, hout, rfl⟩
    obtain ⟨hperm1, hsorted1⟩ := sorts_last hout
    have hlen1 : p.length + 1 = out.length := by simp [hperm1.length_eq]
    have hhead := @returns_inRange _ _ _ (Inserts isLess b q) out (b :: q) [] (p.length + 1)
      (out ++ b :: q).length hlen1 length_append (returns_insertHead b q)
    rw [append_nil] at hhead
    refine .bind hhead ?_
    rintro _ ⟨q', hq', rfl⟩
    rw [append_nil, hlen1]
    refine (@ih out.length (out ++ q') (by omega) (by simp)).imp ?_
    rintro r ⟨hperm2, hsorted2⟩
    refine ⟨hperm2.trans ?_, fun hr lt hfol h => hsorted2 hr lt hfol ?_⟩
    · refine (hperm1.append hq'.merges.perm).trans ?_
      rw [append_assoc]
      exact List.Perm.append_left p (List.Perm.swap b a q)
    · have hp := hsorted lt hfol h
      rw [append_cons, take_left' (by simp)] at hp
      rw [take_left]
      exact hsorted1 lt hfol (append_iff.1 hp).1

theorem returns_partialInsertionSort (hv : 0 < v.length) : Returns (partialInsertionSort isLess v)
    fun p => p.2.Perm v ∧ (p.1 = true → WhenOrdered isLess fun lt => SortedBy lt p.2) := by
  refine (returns_partialInsertionLoop Nat.one_pos hv).imp fun p ⟨hperm, hsorted⟩ =>
    ⟨hperm, fun hp lt hfol => hsorted hp lt hfol ?_⟩
  obtain ⟨a, v, rfl⟩ := exists_cons_of_length_pos hv
  exact pairwise_singleton _ a

/-! ## Choosing a pivot -/

theorem nextPowerOfTwo_lt {len : Nat} (h : 1 < len) : nextPowerOfTwo len < 2 * len := by
  have hpow := Nat.pow_pred_clog_lt_self (Nat.one_lt_two) h
  have hpos := Nat.clog_pos (Nat.one_lt_two) h
  have htwo : 2 ^ Nat.clog 2 len = 2 ^ (Nat.clog 2 len).pred * 2 := by
    rw [← Nat.pow_succ, Nat.succ_pred_eq_of_pos hpos]
  rw [nextPowerOfTwo]
  omega

theorem breakLoop_spec : ∀ {k i : Nat} {random : BitVec 32} {v : List α}, 8 ≤ v.length →
    i + k ≤ 3 → ∃ v', breakLoop k i random v = .ok v' ∧ v'.Perm v := by
  intro k
  induction k with
  | zero => exact fun {i random v} _ _ => ⟨v, rfl, .refl _⟩
  | succ k ih =>
    intro i random v hlen hi
    have hmod : (genUsize random).1.toNat &&& (nextPowerOfTwo v.length - 1) < 2 * v.length := by
      refine lt_of_le_of_lt Nat.and_le_right ?_
      have := @nextPowerOfTwo_lt v.length (by omega)
      omega
    rw [breakLoop]
    dsimp only
    generalize (genUsize random).1.toNat &&& (nextPowerOfTwo v.length - 1) = other at hmod ⊢
    have hpos : v.length / 4 * 2 - 1 + i < v.length := by omega
    have hother : (if v.length ≤ other then other - v.length else other) < v.length := by
      split <;> omega
    rw [swap_eq hpos hother, ok_bind]
    have hlen' : 8 ≤ (exchange v (v.length / 4 * 2 - 1 + i)
        (if v.length ≤ other then other - v.length else other)).length := by
      rwa [exchange_length]
    obtain ⟨v', hrun, hperm⟩ := @ih (i + 1) (genUsize random).2 _ hlen' (by omega)
    exact ⟨v', hrun, hperm.trans (exchange_perm _ _ _)⟩

theorem breakPatterns_spec (v : List α) : ∃ v', breakPatterns v = .ok v' ∧ v'.Perm v := by
  rw [breakPatterns]
  split
  · next hlen => exact breakLoop_spec hlen le_rfl
  · exact ⟨v, rfl, .refl _⟩

theorem returns_sort2 {a b swaps : Nat} (ha : a < v.length) (hb : b < v.length) :
    Returns (sort2 isLess v a b swaps) fun p => p.1 < v.length ∧ p.2.1 < v.length := by
  obtain ⟨x, hx⟩ := exists_getElem? ha
  obtain ⟨y, hy⟩ := exists_getElem? hb
  refine .lift_bind (get_eq hy) (.lift_bind (get_eq hx) ?_)
  refine .bind (returns_ask isLess y x) fun answer _ => ?_
  split
  · exact .pure ⟨hb, ha⟩
  · exact .pure ⟨ha, hb⟩

theorem returns_sort3 {a b c swaps : Nat} (ha : a < v.length) (hb : b < v.length)
    (hc : c < v.length) : Returns (sort3 isLess v a b c swaps) fun p => p.2.1 < v.length := by
  refine .bind (returns_sort2 ha hb) fun _ ⟨ha1, hb1⟩ => ?_
  refine .bind (returns_sort2 hb1 hc) fun _ ⟨hb2, _⟩ => ?_
  exact .bind (returns_sort2 ha1 hb2) fun _ ⟨_, hb3⟩ => .pure hb3

theorem returns_sortAdjacent {a swaps : Nat} (ha : a + 1 < v.length) :
    Returns (sortAdjacent isLess v a swaps) fun p => p.1 < v.length :=
  .bind (returns_sort3 (by omega) (by omega) ha) fun _ hb => .pure hb

theorem returns_choosePlaces (hv : 0 < v.length) :
    Returns (choosePlaces isLess v) fun p => p.1 < v.length := by
  rw [choosePlaces]
  split
  · split
    · refine .bind (returns_sortAdjacent (by omega)) fun _ ha => ?_
      refine .bind (returns_sortAdjacent (by omega)) fun _ hb => ?_
      refine .bind (returns_sortAdjacent (by omega)) fun _ hc => ?_
      exact .bind (returns_sort3 ha hb hc) fun _ hb' => .pure hb'
    · exact .bind (returns_sort3 (by omega) (by omega) (by omega)) fun _ hb' => .pure hb'
  · exact .pure (by dsimp only; omega)

theorem returns_choosePivot (hv : 0 < v.length) :
    Returns (choosePivot isLess v) fun p => p.2.2.Perm v ∧ p.1 < v.length := by
  refine .bind (returns_choosePlaces hv) fun p hp => ?_
  dsimp only
  split
  · exact .pure ⟨.refl _, hp⟩
  · exact .pure ⟨reverse_perm v, by dsimp only; omega⟩

/-! ## `recurse` -/

/-- No element is smaller than the predecessor. -/
def AfterPred (lt : α → α → Bool) (pred : Option α) (v : List α) : Prop :=
  ∀ p ∈ pred, ∀ a ∈ v, lt a p = false

variable {pred : Option α}

theorem AfterPred.subset {v' : List α}
    (h : AfterPred lt pred v) (hsub : v' ⊆ v) : AfterPred lt pred v' :=
  fun p hp a ha => h p hp a (hsub ha)

theorem returns_equalsPred {pivot : Nat} (hp : pivot < v.length) :
    Returns (equalsPred isLess pred v pivot) fun b => b = true →
      ∃ p a, pred = some p ∧ v[pivot]? = some a ∧ Answers isLess p a false := by
  obtain ⟨a, ha⟩ := exists_getElem? hp
  cases pred with
  | none => exact .pure fun h => nomatch h
  | some p =>
    refine .lift_bind (get_eq ha) (.bind (returns_ask isLess p a) fun answer hpa => .pure ?_)
    rintro h
    rw [Bool.not_eq_true'] at h
    exact ⟨p, a, rfl, ha, h ▸ hpa⟩

theorem sorted_parts (hfol : Follows isLess lt) {l r : List α} {p : α}
    (hl : SortedBy lt l) (hr : SortedBy lt r) (hlp : ∀ a ∈ l, lt a p = true)
    (hrp : ∀ a ∈ r, lt a p = false) : SortedBy lt (l ++ p :: r) := by
  refine append_iff.2 ⟨hl, .cons hrp hr, fun a ha b hb => ?_⟩
  rcases mem_cons.1 hb with rfl | hb
  · exact hfol.asymm (hlp a ha)
  · exact hfol.neg_trans (hrp b hb) (hfol.asymm (hlp a ha))

theorem sorted_equal (hfol : Follows isLess lt) {l r : List α} {p : α}
    (hl : ∀ a ∈ l, lt p a = false ∧ lt a p = false) (hr : SortedBy lt r)
    (hrp : ∀ a ∈ r, lt p a = true) : SortedBy lt (l ++ r) := by
  refine append_iff.2 ⟨?_, hr, fun a ha b hb => ?_⟩
  · exact pairwise_of_forall_mem_list fun a ha b hb =>
      hfol.neg_trans (hl b hb).2 (hl a ha).1
  · exact hfol.neg_trans (hfol.asymm (hrp b hb)) (hl a ha).1

theorem breakUnbalanced_spec (wasBalanced : Bool) (v : List α) :
    ∃ v', breakUnbalanced wasBalanced v = .ok v' ∧ v'.Perm v := by
  rw [breakUnbalanced]
  split
  · exact breakPatterns_spec v
  · exact ⟨v, rfl, .refl _⟩

theorem returns_tryPartialInsertion (likely : Bool) (hv : 0 < v.length) :
    Returns (tryPartialInsertion isLess likely v) fun p => p.2.Perm v ∧
      (p.1 = true → WhenOrdered isLess fun lt => SortedBy lt p.2) := by
  rw [tryPartialInsertion]
  split
  · exact returns_partialInsertionSort hv
  · exact .pure ⟨.refl _, fun h => nomatch h⟩

theorem orders_partition {pivot : α} {left right left' right' : List α}
    (hall : (left ++ pivot :: right).Perm v) (hleft : ∀ a ∈ left, Answers isLess a pivot true)
    (hright : ∀ a ∈ right, Answers isLess a pivot false) (hl : left'.Perm left)
    (hr : right'.Perm right)
    (hsl : WhenOrdered isLess fun lt => AfterPred lt pred left → SortedBy lt left')
    (hsr : WhenOrdered isLess fun lt => AfterPred lt (some pivot) right → SortedBy lt right') :
    (left' ++ pivot :: right').Perm v ∧ WhenOrdered isLess fun lt => AfterPred lt pred v →
      SortedBy lt (left' ++ pivot :: right') := by
  refine ⟨(hl.append (hr.cons pivot)).trans hall, fun lt hfol hafter => ?_⟩
  have hrp : ∀ x ∈ right, lt x pivot = false := fun x hx => hfol.answer (hright x hx)
  refine sorted_parts hfol (hsl lt hfol ?_) (hsr lt hfol ?_) (fun x hx => ?_) fun x hx => ?_
  · exact hafter.subset fun x hx => hall.mem_iff.1 (mem_append_left _ hx)
  · rintro p' hp' x hx
    cases hp'
    exact hrp x hx
  · exact hfol.answer (hleft x (hl.mem_iff.1 hx))
  · exact hrp x (hr.mem_iff.1 hx)

theorem returns_recurse : ∀ {n : Nat} {pred : Option α} {limit : Nat}
    {wasBalanced wasPartitioned : Bool} {v : List α}, v.length < n →
    Returns (recurse isLess n pred limit wasBalanced wasPartitioned v) fun v' => v'.Perm v ∧
      WhenOrdered isLess fun lt => AfterPred lt pred v → SortedBy lt v' := by
  intro n
  induction n with
  | zero => simp
  | succ n ih =>
    intro pred limit wasBalanced wasPartitioned v hn
    rw [recurse]
    split
    · exact (returns_tailInsertionSort v).imp fun v' h => ⟨h.perm, fun lt hfol _ => h.sorted lt hfol⟩
    split
    · exact (returns_heapsort v).imp fun v' h => ⟨h.1, fun lt hfol _ => h.2 lt hfol⟩
    next hlen _ =>
    obtain ⟨v1, hbreak, hperm1⟩ := breakUnbalanced_spec wasBalanced v
    have hlen1 := hperm1.length_eq
    refine .lift_bind hbreak ?_
    refine .bind (returns_choosePivot (by omega)) ?_
    rintro ⟨p, likely, v2⟩ ⟨hperm2, hp⟩
    dsimp only at hperm2 hp ⊢
    have hlen2 := hperm2.length_eq
    refine .bind (returns_tryPartialInsertion _ (by omega)) ?_
    rintro ⟨sorted, v3⟩ ⟨hperm3, hsorted⟩
    dsimp only at hperm3 hsorted ⊢
    have hlen3 := hperm3.length_eq
    have hperm : v3.Perm v := hperm3.trans (hperm2.trans hperm1)
    split
    · next hs => exact .pure ⟨hperm, fun lt hfol _ => hsorted hs lt hfol⟩
    refine .bind (returns_equalsPred (by omega)) fun equal hequal => ?_
    split
    · next he =>
      obtain ⟨pred, a, rfl, ha, hpreda⟩ := hequal he
      refine .bind (returns_partitionEqual (by omega)) ?_
      rintro ⟨mid, v4⟩ ⟨hperm4, pivot, equal, greater, hpivot, rfl, rfl, hequal', hgreater⟩
      rw [ha] at hpivot
      cases hpivot
      have hlen4 := hperm4.length_eq
      simp only [length_cons, length_append] at hlen4
      refine .lift_bind (assert_ok (decide_eq_true (by simp))) ?_
      have hdrop : (a :: (equal ++ greater)).drop (equal.length + 1) = greater := by simp
      have htake : (a :: (equal ++ greater)).take (equal.length + 1) = a :: equal := by simp
      rw [hdrop, htake]
      refine .bind (ih (by omega)) fun rest ⟨hperm5, hrest⟩ => ?_
      have hall : (a :: equal ++ greater).Perm v := hperm4.trans hperm
      refine .pure ⟨(hperm5.append_left _).trans hall, fun lt hfol hafter => ?_⟩
      have hleast : ∀ x ∈ v, lt x a = false := fun x hx =>
        hfol.neg_trans (hafter pred rfl x hx) (hfol.answer hpreda)
      refine sorted_equal hfol (p := a) (fun x hx => ⟨?_, ?_⟩) ?_ fun x hx => ?_
      · rcases mem_cons.1 hx with rfl | hx
        · exact hfol.irrefl x
        · exact hfol.answer (hequal' x hx)
      · exact hleast x (hall.mem_iff.1 (mem_append_left _ hx))
      · exact hrest lt hfol (hafter.subset fun x hx =>
          hall.mem_iff.1 (mem_append_right _ hx))
      · exact hfol.answer (hgreater x (hperm5.mem_iff.1 hx))
    · refine .bind (returns_partition (by omega)) ?_
      rintro ⟨mid, wasPartitioned', v4⟩ ⟨hperm4, left, pivot, right, rfl, rfl, hleft, hright⟩
      have hlen4 := hperm4.length_eq
      simp only [length_cons, length_append] at hlen4
      refine .lift_bind (assert_ok (decide_eq_true (by simp))) ?_
      rw [take_left, drop_left]
      refine .lift_bind (b := (pivot, right)) rfl ?_
      dsimp only
      have hall : (left ++ pivot :: right).Perm v := hperm4.trans hperm
      split
      · refine .bind (ih (by omega)) fun left' ⟨hl, hsl⟩ => ?_
        exact .bind (ih (by omega)) fun right' ⟨hr, hsr⟩ =>
          .pure (orders_partition hall hleft hright hl hr hsl hsr)
      · refine .bind (ih (by omega)) fun right' ⟨hr, hsr⟩ => ?_
        exact .bind (ih (by omega)) fun left' ⟨hl, hsl⟩ =>
          .pure (orders_partition hall hleft hright hl hr hsl hsr)

/-- `quicksort` returns, without an access out of bounds, whatever the comparator answers; it
rearranges the slice, and sorts it when the comparator follows a strict weak order. -/
theorem quicksort_sorts (isLess : IsLess α σ) (v : List α) (s : σ) : ∃ v' s', quicksort isLess v s =
    .ok (v', s') ∧ v'.Perm v ∧ ∀ lt, Follows isLess lt → SortedBy lt v' := by
  obtain ⟨v', s', hrun, hperm, hsorted⟩ := @returns_recurse _ _ isLess (v.length + 1) none
    (Nat.size v.length) true true v (Nat.lt_succ_self v.length) s
  exact ⟨v', s', hrun, hperm, fun lt hfol => hsorted lt hfol fun p hp => nomatch hp⟩

/-- Numbers. -/
theorem quicksort_sorts_nat : ∃ v', (∃ s', quicksort (fun a b s => (decide (a < b), s)) [3, 1, 2] () =
    .ok (v', s')) ∧ v'.Perm [3, 1, 2] ∧ SortedBy (fun a b : Nat => decide (a < b)) v' :=
  have ⟨v', s', hrun, hperm, hsorts⟩ := quicksort_sorts (fun a b s => (decide (a < b), s)) [3, 1, 2] ()
  ⟨v', ⟨s', hrun⟩, hperm, hsorts _ (follows_lt Nat Unit)⟩

end Tortis.Sort
