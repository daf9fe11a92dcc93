import Mathlib.Order.Nat
import Tortis.DataStructures.SortedMap

/-!
# Operations of sorted maps

Sequences of operations of a `SortedMap`, with ranges whose ends are included, excluded or absent,
against the finite map they describe (`runAll_answers`). Both ends of a range may be the same key,
but where both exclude it and the map has it, the slice would start after its end
(`range_excluded_panics`).
-/

namespace Tortis

open Outcome List Function SortedMap

namespace SortedMap

variable {K V : Type} [LinearOrder K]

def remove (m : SortedMap K V) (key : K) : Option V × SortedMap K V :=
  match m.lookupIndexFor key with
  | .ok index => (m.data[index]?.map Prod.snd, ⟨m.data.eraseIdx index⟩)
  | .error _ => (none, m)

inductive Op (K V : Type) where
  | insert (key : K) (value : V)
  | remove (key : K)
  | insertPresorted (elements : List (K × V))
  | removeRange (start stop : Bound K)
  | range (start stop : Bound K)
  | get (key : K)

inductive Answer (K V : Type) where
  | unit
  | value (value : Option V)
  | slice (entries : List (K × V))

/-- A call. `insert` returns the value that it swaps out. -/
def Op.run (m : SortedMap K V) : Op K V → Outcome (Answer K V × SortedMap K V)
  | .insert key value => .ok (.value (m.get key), m.insert key value)
  | .remove key => .ok (.value (m.remove key).1, (m.remove key).2)
  | .insertPresorted elements => .ok (.unit, m.insertPresorted elements)
  | .removeRange start stop => do
    let m ← m.removeRangeIn start stop
    .ok (.unit, m)
  | .range start stop => do
    let entries ← m.rangeIn start stop
    .ok (.slice entries, m)
  | .get key => .ok (.value (m.get key), m)

/-- The calls of a list, one after the other. -/
def runAll (m : SortedMap K V) : List (Op K V) → Outcome (List (Answer K V) × SortedMap K V)
  | [] => .ok ([], m)
  | op :: ops => do
    let (answer, m) ← op.run m
    let (answers, m) ← m.runAll ops
    .ok (answer :: answers, m)

/-! ## Finite maps -/

section
variable (f : K → Option V)

/-- The start is not after the end, nor do both exclude one key of the map. -/
def InOrder : Bound K → Bound K → Prop
  | .excluded a, .excluded b => a ≤ b ∧ (a = b → f a = none)
  | .included a, .included b | .included a, .excluded b | .excluded a, .included b => a ≤ b
  | .unbounded, _ | _, .unbounded => True

/-- What a call asks of its arguments. -/
def Op.Valid : Op K V → Prop
  | .insertPresorted elements => elements.Pairwise fun a b => a.1 < b.1
  | .removeRange start stop | .range start stop => InOrder f start stop
  | _ => True

/-- The elements of a run, inserted one by one. -/
def updateAll (elements : List (K × V)) : K → Option V :=
  elements.foldl (fun f e => update f e.1 (some e.2)) f

/-- What a call makes of a finite map. -/
def Op.apply : Op K V → K → Option V
  | .insert key value => update f key (some value)
  | .remove key => update f key none
  | .insertPresorted elements => updateAll f elements
  | .removeRange start stop => fun k => if ¬ start.Before k ∧ stop.UpTo k then none else f k
  | .range _ _ | .get _ => f

/-- What a call of a finite map returns. -/
def Op.Answers : Op K V → Answer K V → Prop
  | .insert key _, a | .remove key, a | .get key, a => a = .value (f key)
  | .insertPresorted _, a | .removeRange _ _, a => a = .unit
  | .range start stop, a => ∃ entries, a = .slice entries ∧
      (entries.Pairwise fun a b => a.1 < b.1) ∧
      ∀ k v, (k, v) ∈ entries ↔ (¬ start.Before k ∧ stop.UpTo k) ∧ f k = some v

end

/-- Each call of the list is valid when it is made. -/
def ValidAll (f : K → Option V) : List (Op K V) → Prop
  | [] => True
  | op :: ops => op.Valid f ∧ ValidAll (op.apply f) ops

/-- The answers to the calls of a list. -/
def AnswersAll (f : K → Option V) : List (Op K V) → List (Answer K V) → Prop
  | [], answers => answers = []
  | op :: ops, answers => ∃ a rest, answers = a :: rest ∧ op.Answers f a ∧
      AnswersAll (op.apply f) ops rest

structure Represents (m : SortedMap K V) (f : K → Option V) : Prop where
  sorted : m.Sorted
  mem_iff : ∀ k v, (k, v) ∈ m.data ↔ f k = some v

/-! ## Indices -/

section
variable {m : SortedMap K V} {f : K → Option V} {key : K} {value : V} {start stop : Bound K}

theorem Represents.get_eq (h : Represents m f) (k : K) : m.get k = f k :=
  Option.ext fun v => h.sorted.get_eq_some.trans (h.mem_iff k v)

theorem Represents.upTo_of_before (h : Represents m f) (hin : InOrder f start stop) :
    ∀ e ∈ m.data, start.Before e.1 → stop.UpTo e.1 := by
  rintro ⟨k, v⟩ he hk
  have hf := (h.mem_iff k v).1 he
  cases start with
  | unbounded => exact hk.elim
  | included a =>
    cases stop with
    | included b => exact (lt_of_lt_of_le hk hin).le
    | excluded b => exact lt_of_lt_of_le hk hin
    | unbounded => trivial
  | excluded a =>
    cases stop with
    | included b => exact le_trans hk hin
    | excluded b =>
      refine lt_of_le_of_ne (le_trans hk hin.1) ?_
      rintro rfl
      obtain rfl := le_antisymm hk hin.1
      cases (hin.2 rfl).symm.trans hf
    | unbounded => trivial

/-! ## Steps -/

theorem Sorted.around (h : m.Sorted) (key : K) :
    m.data.take (m.index key) = m.data.filter (·.1 < key) ∧
      m.data.drop (m.after key) = m.data.filter (¬ ·.1 ≤ key) :=
  ⟨h.take_index, h.after_eq ▸ (take_filter h fun _ _ => le_trans).2⟩

theorem Represents.update (h : Represents m f) (key : K) {new : List (K × V)} {o : Option V}
    (hkey : new.Pairwise fun a b => a.1 < b.1) (hnew : ∀ k v, (k, v) ∈ new ↔ k = key ∧ o = some v) :
    Represents ⟨m.data.filter (·.1 < key) ++ new ++ m.data.filter (¬ ·.1 ≤ key)⟩
      (update f key o) := by
  have hin : ∀ e ∈ new, e.1 = key := fun e he => ((hnew e.1 e.2).1 he).1
  refine ⟨?_, fun k v => ?_⟩
  · simp only [Sorted, pairwise_append, mem_append, mem_filter, decide_eq_true_eq]
    refine ⟨⟨h.sorted.filter _, hkey, fun a ha b hb => hin b hb ▸ ha.2⟩, h.sorted.filter _, ?_⟩
    rintro a (ha | ha) b hb
    · exact ha.2.trans (not_le.1 hb.2)
    · exact hin a ha ▸ not_le.1 hb.2
  · simp only [mem_append, mem_filter, decide_eq_true_eq, h.mem_iff, hnew, not_le]
    rcases lt_trichotomy k key with hk | rfl | hk
    · simp [hk, hk.not_gt, hk.ne]
    · simp
    · simp [hk, hk.not_gt, hk.ne']

theorem lookup_cases (m : SortedMap K V) (key : K) :
    (m.lookupIndexFor key = .ok (m.index key) ∧ m.index key < m.data.length) ∨
      m.lookupIndexFor key = .error (m.index key) := by
  rw [lookupIndexFor]
  cases he : m.data[m.index key]? with
  | none => exact .inr rfl
  | some entry =>
    by_cases hkey : entry.1 = key
    · exact .inl ⟨if_pos hkey, (List.getElem?_eq_some_iff.1 he).1⟩
    · exact .inr (if_neg hkey)

theorem Represents.insert (h : Represents m f) (key : K) (value : V) :
    Represents (m.insert key value) (Function.update f key (some value)) := by
  obtain ⟨htake, hdrop⟩ := h.sorted.around key
  have hm : m.insert key value =
      ⟨m.data.filter (·.1 < key) ++ [(key, value)] ++ m.data.filter (¬ ·.1 ≤ key)⟩ := by
    rw [SortedMap.insert, ← htake, ← hdrop, after]
    rcases lookup_cases m key with ⟨hl, hlt⟩ | hl
    · simp [hl, set_eq_take_append_cons_drop, hlt]
    · simp [hl]
  rw [hm]
  exact h.update key (pairwise_singleton _ _) fun k v => by simp [eq_comm]

theorem Represents.remove (h : Represents m f) (key : K) :
    Represents (m.remove key).2 (Function.update f key none) ∧ (m.remove key).1 = f key := by
  obtain ⟨htake, hdrop⟩ := h.sorted.around key
  have hm : (m.remove key).2 =
      ⟨m.data.filter (·.1 < key) ++ [] ++ m.data.filter (¬ ·.1 ≤ key)⟩ := by
    rw [SortedMap.remove, ← htake, ← hdrop, after]
    rcases lookup_cases m key with ⟨hl, hlt⟩ | hl
    · simp [hl, eraseIdx_eq_take_drop_succ]
    · simp [hl]
  refine ⟨hm ▸ h.update key .nil fun k v => by simp, ?_⟩
  rw [← h.get_eq, SortedMap.remove, get]
  rcases lookup_cases m key with ⟨hl, -⟩ | hl <;> rw [hl]

theorem Represents.foldl_insert : ∀ {elements : List (K × V)} {m : SortedMap K V}
    {f : K → Option V}, Represents m f →
    Represents (elements.foldl (fun m e => m.insert e.1 e.2) m)
      (updateAll f elements)
  | [], _, _, h => h
  | e :: _, _, _, h => (h.insert e.1 e.2).foldl_insert

theorem updateAll_eq_some {elements : List (K × V)} {k : K} {v : V}
    (hs : elements.Pairwise fun a b => a.1 < b.1) : updateAll f elements k = some v ↔
      (k, v) ∈ elements ∨ (∀ e ∈ elements, e.1 ≠ k) ∧ f k = some v := by
  induction elements generalizing f with
  | nil => simp [updateAll]
  | cons e elements ih =>
    rw [pairwise_cons] at hs
    rw [updateAll, foldl_cons, ← updateAll, ih hs.2, update_apply, mem_cons, forall_mem_cons]
    by_cases hk : k = e.1
    · subst hk
      have hne : ∀ e' ∈ elements, e'.1 ≠ e.1 := fun e' he' => (hs.1 e' he').ne'
      have hnot : (e.1, v) ∉ elements := fun hmem => hne _ hmem rfl
      simp only [hnot, false_or, if_true, Option.some.injEq, Prod.ext_iff, true_and, ne_eq,
        not_true_eq_false, false_and, or_false]
      exact ⟨fun h => h.2.symm, fun h => ⟨hne, h.symm⟩⟩
    · simp [hk, Ne.symm hk, Prod.ext_iff]

theorem Represents.splice (h : Represents m f) {first : K × V} {rest : List (K × V)}
    (hs : (first :: rest).Pairwise fun a b => a.1 < b.1)
    (hl : m.lookupIndexFor first.1 = .error (m.index first.1))
    (hgap : m.data[m.index first.1]?.all fun e => (rest.getLastD first).1 < e.1) :
    Represents ⟨m.data.take (m.index first.1) ++ first :: rest ++ m.data.drop (m.index first.1)⟩
      (updateAll f (first :: rest)) := by
  have hafter : m.after first.1 = m.index first.1 := by rw [after, hl]
  obtain ⟨htake, hdrop⟩ := h.sorted.around first.1
  have hsplit := take_append_drop (m.index first.1) m.data
  have hmem := h.mem_iff
  rw [hafter] at hdrop
  rw [← hsplit, htake, hdrop] at hmem
  -- Every key of the run is below those behind its place.
  have hbehind : ∀ e ∈ first :: rest, ∀ e' ∈ m.data.filter (¬ ·.1 ≤ first.1), e.1 < e'.1 := by
    intro e he e' he'
    refine (le_getLastD hs e he).trans_lt ?_
    rw [← head?_drop, hdrop] at hgap
    have hsorted : (m.data.filter (¬ ·.1 ≤ first.1)).Pairwise fun a b => a.1 < b.1 :=
      h.sorted.filter _
    rcases hf : m.data.filter (¬ ·.1 ≤ first.1) with _ | ⟨a, l⟩
    · rw [hf] at he'
      cases he'
    · rw [hf] at he' hgap hsorted
      have ha : (rest.getLastD first).1 < a.1 := of_decide_eq_true hgap
      rcases mem_cons.1 he' with rfl | he'
      · exact ha
      · exact ha.trans ((pairwise_cons.1 hsorted).1 e' he')
  have hfront : ∀ e ∈ first :: rest, ∀ e' ∈ m.data.filter (·.1 < first.1), e'.1 < e.1 := by
    intro e he e' he'
    refine lt_of_lt_of_le (of_decide_eq_true (mem_filter.1 he').2) ?_
    rcases mem_cons.1 he with rfl | he
    · exact le_rfl
    · exact ((pairwise_cons.1 hs).1 e he).le
  rw [htake, hdrop]
  refine ⟨?_, fun k v => ?_⟩
  · refine pairwise_append.2 ⟨pairwise_append.2 ⟨h.sorted.filter _, hs,
      fun a ha b hb => hfront b hb a ha⟩, h.sorted.filter _, fun a ha b hb => ?_⟩
    rcases mem_append.1 ha with ha | ha
    · exact (of_decide_eq_true (mem_filter.1 ha).2).trans
        (by simpa using (mem_filter.1 hb).2)
    · exact hbehind a ha b hb
  · rw [updateAll_eq_some hs, ← hmem, mem_append, mem_append, mem_append]
    constructor
    · rintro ((hk | hk) | hk)
      · exact .inr ⟨fun e he => (hfront e he _ hk).ne', .inl hk⟩
      · exact .inl hk
      · exact .inr ⟨fun e he => (hbehind e he _ hk).ne, .inr hk⟩
    · rintro (hk | ⟨-, hk | hk⟩)
      exacts [.inl (.inr hk), .inl (.inl hk), .inr hk]

theorem Represents.insertPresorted (h : Represents m f) {elements : List (K × V)}
    (hs : elements.Pairwise fun a b => a.1 < b.1) :
    Represents (m.insertPresorted elements) (updateAll f elements) := by
  rcases elements with _ | ⟨first, rest⟩
  · exact h
  have hfirst := h.insert first.1 first.2
  rw [SortedMap.insert] at hfirst
  rw [SortedMap.insertPresorted]
  rcases lookup_cases m first.1 with ⟨hl, -⟩ | hl
  · rw [hl] at hfirst ⊢
    exact hfirst.foldl_insert
  · rw [hl] at hfirst ⊢
    dsimp only at hfirst ⊢
    split
    · next hgap => exact h.splice hs hl hgap
    · exact hfirst.foldl_insert

theorem Represents.run (h : Represents m f) {op : Op K V} (hv : op.Valid f) :
    ∃ a m', op.run m = .ok (a, m') ∧ op.Answers f a ∧ Represents m' (op.apply f) := by
  have hfilter : ∀ p : K → Prop, ∀ [DecidablePred p], ∀ {g : K → Option V},
      (∀ k v, p k ∧ f k = some v ↔ g k = some v) → Represents ⟨m.data.filter (p ·.1)⟩ g :=
    fun p _ g hg => ⟨h.sorted.filter _, fun k v => by
      rw [← hg, ← h.mem_iff, mem_filter, decide_eq_true_iff, and_comm]⟩
  cases op with
  | insert key value => exact ⟨_, _, rfl, congrArg _ (h.get_eq key), h.insert key value⟩
  | remove key => exact ⟨_, _, rfl, congrArg _ (h.remove key).2, (h.remove key).1⟩
  | insertPresorted elements => exact ⟨_, _, rfl, rfl, h.insertPresorted hv⟩
  | get key => exact ⟨_, _, rfl, congrArg _ (h.get_eq key), h⟩
  | range start stop =>
    obtain ⟨hle, hslice, -⟩ := h.sorted.slice (h.upTo_of_before hv)
    refine ⟨_, m, ?_, ⟨m.data.filter (fun e => ¬ start.Before e.1 ∧ stop.UpTo e.1), rfl,
      h.sorted.filter _, fun k v => ?_⟩, h⟩
    · simp only [Op.run, rangeIn, hle, decide_true, assert_ok, ok_bind, hslice]
    · rw [mem_filter, decide_eq_true_iff, h.mem_iff, and_comm]
  | removeRange start stop =>
    obtain ⟨hle, -, hslice⟩ := h.sorted.slice (h.upTo_of_before hv)
    refine ⟨.unit, _, ?_, rfl, hfilter (fun k => ¬ (¬ start.Before k ∧ stop.UpTo k)) fun k v => ?_⟩
    · simp only [Op.run, removeRangeIn, hle, decide_true, assert_ok, ok_bind, hslice]
    · simp only [Op.apply]
      split
      · next hk => simp [hk]
      · next hk => simp [hk]

end

theorem Represents.runAll : ∀ {ops : List (Op K V)} {m : SortedMap K V} {f : K → Option V},
    Represents m f → ValidAll f ops → ∃ answers m', m.runAll ops = .ok (answers, m') ∧
      AnswersAll f ops answers ∧ Represents m' (ops.foldl Op.apply f)
  | [], m, f, h, _ => ⟨[], m, rfl, rfl, h⟩
  | op :: ops, m, f, h, hv => by
    obtain ⟨a, m1, hrun, ha, h1⟩ := h.run hv.1
    obtain ⟨answers, m', hruns, has, h'⟩ := h1.runAll hv.2
    refine ⟨a :: answers, m', ?_, ⟨a, answers, rfl, ha, has⟩, h'⟩
    rw [SortedMap.runAll, hrun, ok_bind]
    dsimp only
    rw [hruns, ok_bind]

/-- **A sorted map is a finite map.** The calls of a list, from the empty map on: none panics, each
answers as the finite map does, and the map stays sorted and finds what the finite map has. -/
theorem runAll_answers {ops : List (Op K V)} (hv : ValidAll (fun _ => none) ops) :
    ∃ answers m, new.runAll ops = .ok (answers, m) ∧ AnswersAll (fun _ => none) ops answers ∧
      m.Sorted ∧ ∀ k, m.get k = ops.foldl Op.apply (fun _ => none) k := by
  have hnew : Represents (new : SortedMap K V) fun _ => none :=
    ⟨.nil, fun _ _ => iff_of_false (nomatch ·) nofun⟩
  obtain ⟨answers, m, hrun, ha, h⟩ := hnew.runAll hv
  exact ⟨answers, m, hrun, ha, h.sorted, h.get_eq⟩

/-- A run that overlaps the map, and a range that excludes its start. -/
theorem runAll_answers_overlap :
    ∃ answers m, (new : SortedMap Nat Nat).runAll [.insert 2 0, .insertPresorted [(1, 1), (2, 2)],
      .range (.excluded 1) .unbounded] = .ok (answers, m) ∧
      AnswersAll (fun _ => none) [.insert 2 0, .insertPresorted [(1, 1), (2, 2)],
        .range (.excluded 1) .unbounded] answers ∧
      m.Sorted ∧ ∀ k, m.get k = [Op.insert 2 0, .insertPresorted [(1, 1), (2, 2)],
        .range (.excluded 1) .unbounded].foldl Op.apply (fun _ => none) k :=
  runAll_answers ⟨trivial, by simp [Op.Valid], trivial, trivial⟩

/-- A range that excludes both its start and its end, which are the same key of the map. -/
theorem range_excluded_panics :
    (new : SortedMap Nat Nat).runAll [.insert 1 0, .range (.excluded 1) (.excluded 1)] =
      .error (.panic "slice index starts after its end") :=
  rfl

end SortedMap

end Tortis
