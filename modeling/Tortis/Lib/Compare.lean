import Tortis.Lib.Slice
import Mathlib.Order.Lattice

/-!
# Runs with a comparator

A sort asks a comparator that may keep a state of its own and need not be consistent (`Asking`).
`Returns x P` says that a run returns whatever the comparator answers, with a result that satisfies
`P`. What holds of any answers is said with `Answers`, and what holds of a comparator that follows a
strict weak order with `Follows`.

`Merges isLess l r out` says that `out` is a merge of two lists from their fronts, under whatever
the comparator answered: an element of `r` is taken when it was said to be smaller. A merge from the
backs is one of the reversed lists with the comparator turned around (`MergesBack`).
-/

namespace Tortis.Compare

open List Bool

variable {α β γ σ : Type}

/-- A run that may ask a comparator whose state is of type `σ`. -/
abbrev Asking (σ : Type) := StateT σ Outcome

abbrev IsLess (α σ : Type) := α → α → σ → Bool × σ

/-- `is_less(a, b)`. -/
def ask (isLess : IsLess α σ) (a b : α) : Asking σ Bool := fun s => .ok (isLess a b s)

/-- The run returns from any state of the comparator, and what it returns satisfies `P`. -/
def Returns (x : Asking σ β) (P : β → Prop) : Prop := ∀ s, ∃ b s', x s = .ok (b, s') ∧ P b

namespace Returns

variable {P : β → Prop} {Q : γ → Prop} {x : Asking σ β} {b : β}

theorem pure (h : P b) : Returns (Pure.pure b : Asking σ β) P := fun s => ⟨b, s, rfl, h⟩

variable {f : β → Asking σ γ}

theorem bind (h : Returns x P) (hf : ∀ b, P b → Returns (f b) Q) : Returns (x >>= f) Q := by
  intro s
  obtain ⟨b, s1, hrun, hb⟩ := h s
  obtain ⟨c, s', hrun', hc⟩ := hf b hb s1
  refine ⟨c, s', ?_, hc⟩
  change (x s >>= fun p => f p.1 p.2) = _
  rw [hrun, Outcome.ok_bind, hrun']

theorem imp {P' : β → Prop} (h : Returns x P) (himp : ∀ b, P b → P' b) : Returns x P' := fun s =>
  let ⟨b, s', hrun, hb⟩ := h s
  ⟨b, s', hrun, himp b hb⟩

variable {o : Outcome β}

theorem lift_bind (h : o = .ok b)
    (hf : Returns (f b) Q) : Returns ((liftM o : Asking σ β) >>= f) Q := by
  subst h
  exact hf

theorem lift (h : o = .ok b) (hb : P b) : Returns (liftM o : Asking σ β) P := by
  subst h
  exact .pure hb

end Returns

/-! ## Answers -/

/-- The comparator may answer `r`. -/
def Answers (isLess : IsLess α σ) (a b : α) (r : Bool) : Prop := ∃ s, (isLess a b s).1 = r

theorem returns_ask (isLess : IsLess α σ) (a b : α) :
    Returns (ask isLess a b) (Answers isLess a b) := fun s =>
  ⟨(isLess a b s).1, (isLess a b s).2, rfl, s, rfl⟩

/-- The comparator follows a strict weak order. -/
structure Follows (isLess : IsLess α σ) (lt : α → α → Bool) : Prop where
  eq : ∀ a b s, (isLess a b s).1 = lt a b
  weak : IsStrictWeakOrder α fun a b => lt a b = true

/-- What holds when the comparator follows a strict weak order. -/
def WhenOrdered (isLess : IsLess α σ) (P : (α → α → Bool) → Prop) : Prop :=
  ∀ lt, Follows isLess lt → P lt

section
variable {isLess : IsLess α σ} {lt : α → α → Bool} {a b c : α} {r : Bool}

theorem Follows.answer (h : Follows isLess lt) (ha : Answers isLess a b r) : lt a b = r := by
  obtain ⟨s, hs⟩ := ha
  exact (h.eq a b s).symm.trans hs

theorem Follows.irrefl (h : Follows isLess lt) (a : α) : lt a a = false :=
  eq_false_iff.2 (h.weak.irrefl a)

theorem Follows.trans (h : Follows isLess lt) (hab : lt a b = true) (hbc : lt b c = true) :
    lt a c = true :=
  h.weak.trans a b c hab hbc

section
variable (h : Follows isLess lt)
include h

theorem Follows.asymm (hab : lt a b = true) : lt b a = false := by
  cases hba : lt b a with
  | false => rfl
  | true => exact absurd (h.trans hab hba) (h.weak.irrefl a)

theorem Follows.neg_trans (hab : lt a b = false) (hbc : lt b c = false) : lt a c = false := by
  rw [← not_eq_true] at hab hbc ⊢
  intro hac
  have hba : ¬ lt b a = true := fun hba => hbc (h.trans hba hac)
  have hcb : ¬ lt c b = true := fun hcb => hab (h.trans hac hcb)
  exact (h.weak.incomp_trans a b c ⟨hab, hba⟩ ⟨hbc, hcb⟩).1 hac

theorem Follows.lt_of_lt_of_le (hab : lt a b = true) (hcb : lt c b = false) : lt a c = true := by
  cases hac : lt a c with
  | true => rfl
  | false => exact absurd hab (eq_false_iff.1 (h.neg_trans hac hcb))

theorem Follows.flip :
    Follows (fun a b => isLess b a) fun a b => lt b a where
  eq a b s := h.eq b a s
  weak := {
    irrefl := fun a => h.weak.irrefl a
    trans := fun a b c hab hbc => h.weak.trans c b a hbc hab
    incomp_trans := fun a b c hab hbc =>
      (h.weak.incomp_trans a b c ⟨hab.2, hab.1⟩ ⟨hbc.2, hbc.1⟩).symm }

end

theorem follows_lt (α σ : Type) [LinearOrder α] :
    Follows (fun (a b : α) (s : σ) => (decide (a < b), s)) fun a b => decide (a < b) where
  eq _ _ _ := rfl
  weak := {
    irrefl := fun a => by simp
    trans := fun a b c hab hbc => by
      rw [decide_eq_true_eq] at hab hbc ⊢
      exact lt_trans hab hbc
    incomp_trans := fun a b c hab hbc => by
      simp only [decide_eq_true_eq, not_lt] at hab hbc ⊢
      exact ⟨le_trans hbc.1 hab.1, le_trans hab.2 hbc.2⟩ }

end

/-! ## Sorted lists and stable rearrangements -/

section
variable (lt : α → α → Bool)

/-- No element is smaller than one before it. -/
def SortedBy (l : List α) : Prop := l.Pairwise fun a b => lt b a = false

/-- Neither of two elements is smaller. -/
def eqv (a b : α) : Bool := !lt a b && !lt b a

/-- Elements that are equal in the order keep their order. -/
def StableBy (l l' : List α) : Prop :=
  ∀ a, l'.filter (eqv lt a) = l.filter (eqv lt a)

end

section
variable {isLess : IsLess α σ} {lt : α → α → Bool} {l l' l₁ l₂ : List α} {a b c : α}

theorem eqv_iff : eqv lt a b = true ↔ lt a b = false ∧ lt b a = false := by
  rw [eqv, and_eq_true, not_eq_true', not_eq_true']

theorem StableBy.refl (lt : α → α → Bool) (l : List α) : StableBy lt l l := fun _ => rfl

theorem StableBy.trans (h : StableBy lt l l₁) (h' : StableBy lt l₁ l') : StableBy lt l l' :=
  fun a => (h' a).trans (h a)

theorem StableBy.append {m m' : List α} (h : StableBy lt l l') (h' : StableBy lt m m') :
    StableBy lt (l ++ m) (l' ++ m') := fun a => by
  rw [filter_append, filter_append, h a, h' a]

theorem Follows.filter_eq_nil (h : Follows isLess lt) (hl : ∀ b ∈ l, lt a b = true)
    (hc : lt a c = false) : l.filter (eqv lt c) = [] := by
  refine filter_eq_nil_iff.2 fun b hb heq => ?_
  have hab := hl b hb
  rw [h.neg_trans hc (eqv_iff.1 heq).1] at hab
  cases hab

end

end Tortis.Compare

/-! ## Merging and inserting -/

namespace Tortis.Compare

open List Bool

variable {α σ : Type}

inductive Merges (isLess : IsLess α σ) : List α → List α → List α → Prop where
  | nilLeft {r : List α} : Merges isLess [] r r
  | nilRight {l : List α} : Merges isLess l [] l
  | right {a b : α} {l r out : List α} : Answers isLess b a true → Merges isLess (a :: l) r out →
    Merges isLess (a :: l) (b :: r) (b :: out)
  | left {a b : α} {l r out : List α} : Answers isLess b a false → Merges isLess l (b :: r) out →
    Merges isLess (a :: l) (b :: r) (a :: out)

variable {isLess : IsLess α σ} {lt : α → α → Bool} {l r out : List α} {a b : α}

theorem Merges.perm (h : Merges isLess l r out) : out.Perm (l ++ r) := by
  induction h with
  | nilLeft => exact .refl _
  | nilRight => rw [append_nil]
  | right _ _ ih => exact (ih.cons _).trans perm_middle.symm
  | left _ _ ih => exact ih.cons _

theorem SortedBy.head (h : SortedBy lt (a :: l)) : ∀ b ∈ l, lt b a = false :=
  (pairwise_cons.1 h).1

theorem SortedBy.tail (h : SortedBy lt (a :: l)) : SortedBy lt l := (pairwise_cons.1 h).2

theorem SortedBy.append_iff : SortedBy lt (l ++ r) ↔
    SortedBy lt l ∧ SortedBy lt r ∧ ∀ a ∈ l, ∀ b ∈ r, lt b a = false :=
  pairwise_append

theorem Merges.sorted (h : Merges isLess l r out) (hlt : Follows isLess lt) (hl : SortedBy lt l)
    (hr : SortedBy lt r) : SortedBy lt out := by
  induction h with
  | nilLeft => exact hr
  | nilRight => exact hl
  | @right a b l r out hba hmerge ih =>
    refine .cons (fun c hc => ?_) (ih hl hr.tail)
    rcases mem_append.1 (hmerge.perm.mem_iff.1 hc) with hc | hc
    · rcases mem_cons.1 hc with rfl | hc
      · exact hlt.asymm (hlt.answer hba)
      · exact hlt.neg_trans (hl.head c hc) (hlt.asymm (hlt.answer hba))
    · exact hr.head c hc
  | @left a b l r out hba hmerge ih =>
    refine .cons (fun c hc => ?_) (ih hl.tail hr)
    rcases mem_append.1 (hmerge.perm.mem_iff.1 hc) with hc | hc
    · exact hl.head c hc
    · rcases mem_cons.1 hc with rfl | hc
      · exact hlt.answer hba
      · exact hlt.neg_trans (hr.head c hc) (hlt.answer hba)

theorem Merges.stable (h : Merges isLess l r out) (hlt : Follows isLess lt) (hl : SortedBy lt l) :
    StableBy lt (l ++ r) out := by
  induction h with
  | nilLeft => exact .refl _ _
  | nilRight =>
    rw [append_nil]
    exact .refl _ _
  | @right a b l r out hba _ ih =>
    intro c
    have hlt' : ∀ d ∈ a :: l, lt b d = true := fun d hd => by
      rcases mem_cons.1 hd with rfl | hd
      · exact hlt.answer hba
      · exact hlt.lt_of_lt_of_le (hlt.answer hba) (hl.head d hd)
    have hstable := ih hl c
    rw [filter_append] at hstable ⊢
    cases hcb : eqv lt c b with
    | true =>
      rw [hlt.filter_eq_nil hlt' (eqv_iff.1 hcb).2] at hstable ⊢
      rw [filter_cons_of_pos hcb, filter_cons_of_pos hcb, hstable, nil_append, nil_append]
    | false =>
      rw [filter_cons_of_neg (eq_false_iff.1 hcb), filter_cons_of_neg (eq_false_iff.1 hcb), hstable]
  | @left a b l r out hba _ ih =>
    intro c
    have hstable := ih hl.tail c
    rw [cons_append, filter_cons, filter_cons, hstable]

def MergesBack (isLess : IsLess α σ) (l r out : List α) : Prop :=
  Merges (fun a b => isLess b a) r.reverse l.reverse out.reverse

theorem MergesBack.perm (h : MergesBack isLess l r out) : out.Perm (l ++ r) := by
  have hperm := Merges.perm h
  rw [← reverse_append] at hperm
  exact (reverse_perm out).symm.trans (hperm.trans (reverse_perm _))

theorem SortedBy.reverse (h : SortedBy lt l) : SortedBy (fun a b => lt b a) l.reverse :=
  pairwise_reverse.2 h

theorem MergesBack.sorted (h : MergesBack isLess l r out) (hlt : Follows isLess lt)
    (hl : SortedBy lt l) (hr : SortedBy lt r) : SortedBy lt out :=
  pairwise_reverse.1 (Merges.sorted h hlt.flip hr.reverse hl.reverse)

theorem eqv_flip (lt : α → α → Bool) (a : α) : eqv (fun a b => lt b a) a = eqv lt a := by
  funext b
  exact and_comm _ _

theorem MergesBack.stable (h : MergesBack isLess l r out) (hlt : Follows isLess lt)
    (hr : SortedBy lt r) : StableBy lt (l ++ r) out := by
  intro a
  have hstable := Merges.stable h hlt.flip hr.reverse a
  rw [eqv_flip, ← reverse_append, filter_reverse, filter_reverse] at hstable
  exact reverse_injective hstable

theorem MergesBack.nilLeft (r : List α) : MergesBack isLess [] r r := Merges.nilRight

theorem MergesBack.nilRight (l : List α) : MergesBack isLess l [] l := Merges.nilLeft

theorem MergesBack.left (hba : Answers isLess b a true) (h : MergesBack isLess l (r ++ [b]) out) :
    MergesBack isLess (l ++ [a]) (r ++ [b]) (out ++ [a]) := by
  rw [MergesBack, reverse_concat] at h ⊢
  rw [reverse_concat, reverse_concat]
  exact .right hba h

theorem MergesBack.right (hba : Answers isLess b a false) (h : MergesBack isLess (l ++ [a]) r out) :
    MergesBack isLess (l ++ [a]) (r ++ [b]) (out ++ [b]) := by
  rw [MergesBack, reverse_concat] at h ⊢
  rw [reverse_concat, reverse_concat]
  exact .left hba h

/-- The element `a` has been inserted in front of `l`, or behind elements that were said to be
smaller. -/
inductive Inserts (isLess : IsLess α σ) (a : α) : List α → List α → Prop where
  | nil : Inserts isLess a [] [a]
  | here {b : α} {l : List α} : Answers isLess b a false → Inserts isLess a (b :: l) (a :: b :: l)
  | behind {b : α} {l out : List α} : Answers isLess b a true → Inserts isLess a l out →
    Inserts isLess a (b :: l) (b :: out)

theorem Inserts.merges (h : Inserts isLess a l out) : Merges isLess [a] l out := by
  induction h with
  | nil => exact .nilRight
  | here hba => exact .left hba .nilLeft
  | behind hba _ ih => exact .right hba ih

/-! ## Lists that have been sorted -/

/-- The second list is a rearrangement of the first one; when the comparator follows an order, it is
sorted and equal elements are in the same order. -/
structure Sorts (isLess : IsLess α σ) (l l' : List α) : Prop where
  perm : l'.Perm l
  ordered : WhenOrdered isLess fun lt => SortedBy lt l' ∧ StableBy lt l l'

theorem Sorts.singleton (a : α) : Sorts isLess [a] [a] where
  perm := .refl _
  ordered _ _ := ⟨pairwise_singleton _ a, .refl _ _⟩

variable {l' r' : List α}

theorem Sorts.merge (h : Sorts isLess l l') (h' : Sorts isLess r r')
    (hm : Merges isLess l' r' out) : Sorts isLess (l ++ r) out where
  perm := hm.perm.trans (h.perm.append h'.perm)
  ordered lt hlt :=
    have ⟨hl, hsl⟩ := h.ordered lt hlt
    have ⟨hr, hsr⟩ := h'.ordered lt hlt
    ⟨hm.sorted hlt hl hr, (hsl.append hsr).trans (hm.stable hlt hl)⟩

theorem Sorts.mergeBack (h : Sorts isLess l l') (h' : Sorts isLess r r')
    (hm : MergesBack isLess l' r' out) : Sorts isLess (l ++ r) out where
  perm := hm.perm.trans (h.perm.append h'.perm)
  ordered lt hlt :=
    have ⟨hl, hsl⟩ := h.ordered lt hlt
    have ⟨hr, hsr⟩ := h'.ordered lt hlt
    ⟨hm.sorted hlt hl hr, (hsl.append hsr).trans (hm.stable hlt hr)⟩

theorem Sorts.insert {l' : List α} (h : Sorts isLess l l') (hi : Inserts isLess a l' out) :
    Sorts isLess (a :: l) out :=
  Sorts.merge (.singleton a) h hi.merges

theorem Sorts.ascending (h : l.IsChain fun a b => Answers isLess b a false) :
    Sorts isLess l l where
  perm := .refl _
  ordered lt hlt := by
    have : IsTrans α fun a b => lt b a = false := ⟨fun _ _ _ hab hbc => hlt.neg_trans hbc hab⟩
    exact ⟨(h.imp fun _ _ hba => hlt.answer hba).pairwise, .refl _ _⟩

theorem Follows.reverse_eq (h : Follows isLess lt) {c : α} :
    ∀ {l : List α}, l.Pairwise (fun a b => lt b a = true) → (∀ a ∈ l, eqv lt c a = true) →
      l.reverse = l
  | [], _, _ => rfl
  | [_], _, _ => rfl
  | a :: b :: l, hl, heq => by
    have hba := (pairwise_cons.1 hl).1 b mem_cons_self
    have ha := eqv_iff.1 (heq a mem_cons_self)
    have hb := eqv_iff.1 (heq b (mem_cons_of_mem _ mem_cons_self))
    rw [h.neg_trans hb.2 ha.1] at hba
    cases hba

theorem Sorts.descending (h : l.IsChain fun a b => Answers isLess b a true) :
    Sorts isLess l l.reverse where
  perm := reverse_perm l
  ordered lt hlt := by
    have : IsTrans α fun a b => lt b a = true := ⟨fun _ _ _ hab hbc => hlt.trans hbc hab⟩
    have hpw : l.Pairwise fun a b => lt b a = true := (h.imp fun _ _ hba => hlt.answer hba).pairwise
    refine ⟨pairwise_reverse.2 (hpw.imp fun hba => hlt.asymm hba), fun c => ?_⟩
    rw [filter_reverse]
    exact hlt.reverse_eq (hpw.filter _) fun a ha => (mem_filter.1 ha).2

end Tortis.Compare
