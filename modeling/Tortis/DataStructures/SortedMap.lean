import Tortis.Lib.Outcome
import Mathlib.Order.Lattice

/-!
# Sorted maps

`librustc_data_structures/sorted_map.rs`: a map that is kept as a vector of entries, sorted by key.
The binary search of the source is specified only for sorted vectors; there it finds the key, or the
place where the key belongs, and so does the search from the front that is used here.
-/

namespace Tortis

open Outcome List

variable {K V : Type} [LinearOrder K]

structure SortedMap (K V : Type) where
  data : List (K × V)

namespace SortedMap

section
variable (m : SortedMap K V)

/-- The keys are sorted, and none is there twice. -/
def Sorted : Prop :=
  m.data.Pairwise fun a b => a.1 < b.1

def new : SortedMap K V := ⟨[]⟩

/-- The number of entries with a smaller key: where a key is, or belongs. -/
def index (key : K) : Nat :=
  (m.data.takeWhile (·.1 < key)).length

/-- `lookup_index_for`: `Ok` with the index of a key, or `Err` with the index where it belongs. -/
def lookupIndexFor (key : K) : Except Nat Nat :=
  match m.data[m.index key]? with
  | some entry => if entry.1 = key then .ok (m.index key) else .error (m.index key)
  | none => .error (m.index key)

def get (key : K) : Option V :=
  match m.lookupIndexFor key with
  | .ok index => m.data[index]?.map Prod.snd
  | .error _ => none

def insert (key : K) (value : V) : SortedMap K V :=
  match m.lookupIndexFor key with
  | .ok index => ⟨m.data.set index (key, value)⟩
  | .error index => ⟨m.data.take index ++ (key, value) :: m.data.drop index⟩

/-- `range_slice_indices` of a range that includes its start and excludes its end. -/
def rangeSliceIndices (start stop : K) : Nat × Nat :=
  (match m.lookupIndexFor start with
    | .ok index | .error index => index,
   match m.lookupIndexFor stop with
    | .ok index | .error index => index)

def range (start stop : K) : Outcome (List (K × V)) := do
  let (i, j) := m.rangeSliceIndices start stop
  assert (i ≤ j) "slice index starts after its end"
  .ok ((m.data.take j).drop i)

def removeRange (start stop : K) : Outcome (SortedMap K V) := do
  let (i, j) := m.rangeSliceIndices start stop
  assert (i ≤ j) "slice index starts after its end"
  .ok ⟨m.data.take i ++ m.data.drop j⟩

end

inductive Bound (K : Type) where
  | included (key : K)
  | excluded (key : K)
  | unbounded

section
variable (m : SortedMap K V)

def sliceIndices (start stop : Bound K) : Nat × Nat :=
  (match start with
    | .included key =>
      match m.lookupIndexFor key with
      | .ok index | .error index => index
    | .excluded key =>
      match m.lookupIndexFor key with
      | .ok index => index + 1
      | .error index => index
    | .unbounded => 0,
   match stop with
    | .included key =>
      match m.lookupIndexFor key with
      | .ok index => index + 1
      | .error index => index
    | .excluded key =>
      match m.lookupIndexFor key with
      | .ok index | .error index => index
    | .unbounded => m.data.length)

def rangeIn (start stop : Bound K) : Outcome (List (K × V)) := do
  let (i, j) := m.sliceIndices start stop
  assert (i ≤ j) "slice index starts after its end"
  .ok ((m.data.take j).drop i)

def removeRangeIn (start stop : Bound K) : Outcome (SortedMap K V) := do
  let (i, j) := m.sliceIndices start stop
  assert (i ≤ j) "slice index starts after its end"
  .ok ⟨m.data.take i ++ m.data.drop j⟩

def insertPresorted : List (K × V) → SortedMap K V
  | [] => m
  | first :: rest =>
    match m.lookupIndexFor first.1 with
    | .ok index => rest.foldl (fun m e => m.insert e.1 e.2) ⟨m.data.set index first⟩
    | .error index =>
      let last := rest.getLastD first
      if m.data[index]?.all fun entry => last.1 < entry.1 then
        ⟨m.data.take index ++ first :: rest ++ m.data.drop index⟩
      else
        rest.foldl (fun m e => m.insert e.1 e.2)
          ⟨m.data.take index ++ first :: m.data.drop index⟩

/-- The keys that a start leaves out. -/
def Bound.Before : Bound K → K → Prop
  | .included key, k => k < key
  | .excluded key, k => k ≤ key
  | .unbounded, _ => False

def Bound.UpTo : Bound K → K → Prop
  | .included key, k => k ≤ key
  | .excluded key, k => k < key
  | .unbounded, _ => True

instance (b : Bound K) : DecidablePred b.Before := fun _ => by
  cases b <;> unfold Bound.Before <;> infer_instance

instance (b : Bound K) : DecidablePred b.UpTo := fun _ => by
  cases b <;> unfold Bound.UpTo <;> infer_instance

/-- The index behind a key. -/
def after (key : K) : Nat :=
  match m.lookupIndexFor key with
  | .ok index => index + 1
  | .error index => index

end

/-! ## Entries -/

section
variable {m : SortedMap K V} {a b key : K} {v : V}

theorem take_index (m : SortedMap K V) (key : K) :
    m.data.take (m.index key) = m.data.takeWhile (·.1 < key) := by
  conv_lhs => rw [← takeWhile_append_dropWhile (p := (·.1 < key)) (l := m.data)]
  exact take_left

theorem drop_index (m : SortedMap K V) (key : K) :
    m.data.drop (m.index key) = m.data.dropWhile (·.1 < key) := by
  conv_lhs => rw [← takeWhile_append_dropWhile (p := (·.1 < key)) (l := m.data)]
  exact drop_left

section
variable {l : List (K × V)} (h : l.Pairwise fun a b => a.1 < b.1) {p : K → Prop} [DecidablePred p]
  (hp : ∀ a b, a ≤ b → p b → p a)
include h hp

theorem takeWhile_eq_filter : l.takeWhile (p ·.1) = l.filter (p ·.1) := by
  induction l with
  | nil => rfl
  | cons e l ih =>
    rw [pairwise_cons] at h
    rw [takeWhile_cons, filter_cons, ih h.2]
    split
    · rfl
    · next he =>
      rw [eq_comm, filter_eq_nil_iff]
      exact fun e' he' hp' =>
        he (decide_eq_true (hp _ _ (h.1 e' he').le (of_decide_eq_true hp')))

theorem dropWhile_eq_filter : l.dropWhile (p ·.1) = l.filter (¬ p ·.1) := by
  induction l with
  | nil => rfl
  | cons e l ih =>
    rw [pairwise_cons] at h
    by_cases he : p e.1
    · rw [dropWhile_cons, filter_cons, if_pos (by simpa using he),
        if_neg (by simpa using he), ih h.2]
    · rw [dropWhile_cons, if_neg (by simpa using he), eq_comm, filter_eq_self]
      rw [forall_mem_cons]
      exact ⟨by simpa using he, fun e' he' =>
        decide_eq_true fun hp' => he (hp _ _ (h.1 e' he').le hp')⟩

theorem filter_split : l = l.filter (p ·.1) ++ l.filter (¬ p ·.1) := by
  rw [← takeWhile_eq_filter h hp, ← dropWhile_eq_filter h hp, takeWhile_append_dropWhile]

theorem take_filter : l.take (l.filter (p ·.1)).length = l.filter (p ·.1) ∧
    l.drop (l.filter (p ·.1)).length = l.filter (¬ p ·.1) :=
  ⟨(congrArg (List.take _) (filter_split h hp)).trans take_left,
    (congrArg (List.drop _) (filter_split h hp)).trans drop_left⟩

end

theorem lt_lower (key a b : K) (hab : a ≤ b) (h : b < key) : a < key := hab.trans_lt h

theorem Sorted.take_index (h : m.Sorted) :
    m.data.take (m.index key) = m.data.filter (·.1 < key) := by
  rw [SortedMap.take_index, takeWhile_eq_filter h (lt_lower key)]

theorem Sorted.drop_index (h : m.Sorted) :
    m.data.drop (m.index key) = m.data.filter (key ≤ ·.1) := by
  rw [SortedMap.drop_index, dropWhile_eq_filter h (lt_lower key)]
  simp only [not_lt]

theorem lookupIndexFor_eq (m : SortedMap K V) (key : K) :
    m.lookupIndexFor key = .ok (m.index key) ∨ m.lookupIndexFor key = .error (m.index key) := by
  rw [lookupIndexFor]
  split
  · split
    · exact .inl rfl
    · exact .inr rfl
  · exact .inr rfl

theorem Sorted.split (h : m.Sorted) (key : K) :
    m.data = m.data.filter (·.1 < key) ++ m.data.filter (key ≤ ·.1) := by
  rw [← h.take_index, ← h.drop_index, take_append_drop]

theorem le_getLastD : ∀ {rest : List (K × V)} {first : K × V},
    (first :: rest).Pairwise (fun x y => x.1 < y.1) →
    ∀ e ∈ first :: rest, e.1 ≤ (rest.getLastD first).1
  | [], _, _, _, .head _ => le_refl _
  | x :: rest, first, h, e, he => by
    rw [pairwise_cons] at h
    rw [getLastD_cons]
    have hx := le_getLastD h.2 x (.head _)
    rcases mem_cons.1 he with rfl | he
    · exact (h.1 x (.head _)).le.trans hx
    · exact le_getLastD h.2 e he

theorem Sorted.get_eq_some (h : m.Sorted) : m.get key = some v ↔ (key, v) ∈ m.data := by
  have hhead : m.data[m.index key]? = (m.data.filter (key ≤ ·.1)).head? := by
    rw [← h.drop_index, head?_drop]
  have hsorted : (m.data.filter (key ≤ ·.1)).Pairwise fun a b => a.1 < b.1 := h.filter _
  have hmem : (key, v) ∈ m.data ↔ (key, v) ∈ m.data.filter (key ≤ ·.1) := by
    simp
  rw [get, lookupIndexFor, hmem]
  rw [hhead]
  cases hfilter : m.data.filter (key ≤ ·.1) with
  | nil => simp
  | cons e rest =>
    rw [hfilter, pairwise_cons] at hsorted
    have hle : key ≤ e.1 := by
      have : e ∈ m.data.filter (key ≤ ·.1) := by simp [hfilter]
      simpa using (mem_filter.1 this).2
    rw [head?_cons]
    dsimp only
    split
    · rename_i index hindex
      split at hindex
      · rename_i hkey
        cases hindex
        rw [hhead, hfilter, head?_cons, Option.map_some, Option.some.injEq, mem_cons]
        constructor
        · intro hv
          exact .inl (Prod.ext hkey.symm hv.symm)
        · rintro (rfl | hrest)
          · rfl
          · exact absurd (hsorted.1 _ hrest) (by rw [hkey]; exact lt_irrefl _)
      · cases hindex
    · rename_i index hindex
      split at hindex
      · cases hindex
      · rename_i hkey
        refine iff_of_false nofun fun hin => ?_
        rcases mem_cons.1 hin with rfl | hrest
        · exact hkey rfl
        · exact absurd (hsorted.1 _ hrest) (not_lt.2 hle)

theorem Sorted.index_eq (h : m.Sorted) : m.index key = (m.data.filter (·.1 < key)).length := by
  rw [← h.take_index, SortedMap.take_index, index]

theorem Sorted.after_eq (h : m.Sorted) : m.after key = (m.data.filter (·.1 ≤ key)).length := by
  obtain ⟨data⟩ := m
  induction data with
  | nil => rfl
  | cons e data ih =>
    rw [Sorted, pairwise_cons] at h
    rcases lt_trichotomy e.1 key with he | he | he
    · have hafter : after ⟨e :: data⟩ key = after ⟨data⟩ key + 1 := by
        have hwhile := takeWhile_cons_of_pos (p := (·.1 < key)) (l := data) (decide_eq_true he)
        simp only [after, lookupIndexFor, index, hwhile, length_cons, getElem?_cons_succ]
        generalize (data.takeWhile (·.1 < key)).length = n
        rcases data[n]? with _ | e'
        · rfl
        · by_cases he' : e'.1 = key <;> simp [he']
      rw [hafter, ih h.2]
      simp [he.le]
    · have hnil : data.filter (·.1 ≤ key) = [] := by
        rw [filter_eq_nil_iff]
        exact fun e' he' hle => absurd (of_decide_eq_true hle) (he ▸ (h.1 e' he').not_ge)
      simp [after, lookupIndexFor, index, he, hnil]
    · have hnil : (e :: data).filter (·.1 ≤ key) = [] := by
        rw [filter_eq_nil_iff, forall_mem_cons]
        exact ⟨by simpa using he, fun e' he' => by simpa using he.trans (h.1 e' he')⟩
      simp [after, lookupIndexFor, index, he.not_gt, he.ne', hnil]

theorem Bound.before_mono (b : Bound K) (x y : K) (h : x ≤ y) : b.Before y → b.Before x := by
  cases b with
  | included key => exact h.trans_lt
  | excluded key => exact h.trans
  | unbounded => exact id

theorem Bound.upTo_mono (b : Bound K) (x y : K) (h : x ≤ y) : b.UpTo y → b.UpTo x := by
  cases b with
  | included key => exact h.trans
  | excluded key => exact h.trans_lt
  | unbounded => exact id

section
variable (h : m.Sorted)
include h

theorem Sorted.sliceIndices_eq (start stop : Bound K) : m.sliceIndices start stop =
      ((m.data.filter (start.Before ·.1)).length, (m.data.filter (stop.UpTo ·.1)).length) := by
  have hplace : ∀ key, (match m.lookupIndexFor key with | .ok i | .error i => i) =
      (m.data.filter (·.1 < key)).length := fun key => by
    rw [← h.index_eq]
    rcases lookupIndexFor_eq m key with hk | hk <;> rw [hk]
  refine Prod.ext ?_ ?_
  · cases start with
    | included key => exact hplace key
    | excluded key => exact h.after_eq
    | unbounded =>
      have hnil : m.data.filter (Bound.unbounded.Before ·.1) = [] :=
        filter_eq_nil_iff.2 fun _ _ h => of_decide_eq_true h
      exact (congrArg List.length hnil).symm
  · cases stop with
    | included key => exact h.after_eq
    | excluded key => exact hplace key
    | unbounded =>
      have hall : m.data.filter (Bound.unbounded.UpTo ·.1) = m.data :=
        filter_eq_self.2 fun _ _ => decide_eq_true trivial
      exact (congrArg List.length hall).symm

theorem Sorted.slice {start stop : Bound K}
    (hsub : ∀ e ∈ m.data, start.Before e.1 → stop.UpTo e.1) :
    (m.sliceIndices start stop).1 ≤ (m.sliceIndices start stop).2 ∧
      (m.data.take (m.sliceIndices start stop).2).drop (m.sliceIndices start stop).1 =
        m.data.filter (fun e => ¬ start.Before e.1 ∧ stop.UpTo e.1) ∧
      m.data.take (m.sliceIndices start stop).1 ++ m.data.drop (m.sliceIndices start stop).2 =
        m.data.filter (fun e => ¬ (¬ start.Before e.1 ∧ stop.UpTo e.1)) := by
  obtain ⟨htake, hdrop⟩ := take_filter h start.before_mono
  obtain ⟨htake', hdrop'⟩ := take_filter h stop.upTo_mono
  -- The entries before the start are also those before it among the entries up to the end.
  have hbefore : m.data.filter (start.Before ·.1) =
      (m.data.filter (stop.UpTo ·.1)).filter (start.Before ·.1) := by
    rw [filter_filter]
    refine filter_congr fun e he => ?_
    by_cases hb : start.Before e.1 <;> simp [hb, hsub e he]
  rw [h.sliceIndices_eq]
  refine ⟨?_, ?_, ?_⟩
  · dsimp only
    rw [hbefore]
    exact length_filter_le _ _
  · dsimp only
    rw [htake', hbefore, (take_filter (h.filter _) start.before_mono).2, filter_filter]
    simp only [Bool.decide_and]
  · dsimp only
    rw [htake, hdrop']
    conv_rhs => rw [filter_split h start.before_mono, filter_append, filter_filter, filter_filter]
    congr 1
    · refine filter_congr fun e _ => ?_
      by_cases hb : start.Before e.1 <;> simp [hb]
    · refine filter_congr fun e he => ?_
      by_cases hb : start.Before e.1
      · simp [hb, hsub e he]
      · simp [hb]

theorem Sorted.range_eq (hab : a ≤ b) :
    m.range a b = .ok (m.data.filter fun e => a ≤ e.1 ∧ e.1 < b) := by
  obtain ⟨hle, hslice, -⟩ := @Sorted.slice _ _ _ m h (.included a) (.excluded b)
    fun e _ he => lt_of_lt_of_le he hab
  have hrange : m.range a b = m.rangeIn (.included a) (.excluded b) := rfl
  simp only [hrange, rangeIn, hle, decide_true, assert_ok, ok_bind, hslice,
    Bound.Before, Bound.UpTo, not_lt]

theorem Sorted.removeRange_eq (hab : a ≤ b) :
    m.removeRange a b = .ok ⟨m.data.filter fun e => ¬ (a ≤ e.1 ∧ e.1 < b)⟩ := by
  obtain ⟨hle, -, hslice⟩ := @Sorted.slice _ _ _ m h (.included a) (.excluded b)
    fun e _ he => lt_of_lt_of_le he hab
  have hrange : m.removeRange a b = m.removeRangeIn (.included a) (.excluded b) := rfl
  simp only [hrange, removeRangeIn, hle, decide_true, assert_ok, ok_bind, hslice,
    Bound.Before, Bound.UpTo, not_lt]

theorem Sorted.insertPresorted_eq {elements : List (K × V)}
    (hin : ∀ e ∈ elements, a ≤ e.1 ∧ e.1 < b) (hgap : ∀ e ∈ m.data, e.1 < a ∨ b ≤ e.1)
    (hab : a ≤ b) : m.insertPresorted elements =
      ⟨m.data.filter (·.1 < a) ++ elements ++ m.data.filter (b ≤ ·.1)⟩ := by
  have hbefore : ∀ {k}, a ≤ k → k ≤ b → m.data.filter (·.1 < k) = m.data.filter (·.1 < a) := by
    intro k hak hkb
    refine filter_congr fun e he => ?_
    rw [decide_eq_decide]
    refine ⟨fun hek => ?_, fun hea => hea.trans_le hak⟩
    exact (hgap e he).resolve_right fun hbe => absurd (hek.trans_le hkb) (not_lt.2 hbe)
  have hafter : ∀ {k}, a ≤ k → k ≤ b → m.data.filter (k ≤ ·.1) = m.data.filter (b ≤ ·.1) := by
    intro k hak hkb
    refine filter_congr fun e he => ?_
    rw [decide_eq_decide]
    refine ⟨fun hke => ?_, fun hbe => hkb.trans hbe⟩
    exact (hgap e he).resolve_left fun hea => absurd (hea.trans_le hak) (not_lt.2 hke)
  cases elements with
  | nil =>
    rw [insertPresorted, append_nil, ← hafter le_rfl hab, ← h.split]
  | cons first rest =>
    obtain ⟨haf, hfb⟩ := hin first (.head _)
    have hhead : m.data[m.index first.1]? = (m.data.filter (b ≤ ·.1)).head? := by
      rw [← hafter haf hfb.le, ← h.drop_index, head?_drop]
    have hge : ∀ e, (m.data.filter (b ≤ ·.1)).head? = some e → b ≤ e.1 := by
      intro e he
      simpa using (mem_filter.1 (mem_of_head? he)).2
    have hlookup : m.lookupIndexFor first.1 = .error (m.index first.1) := by
      rw [lookupIndexFor, hhead]
      split
      · rename_i e he
        rw [if_neg (hfb.trans_le (hge e he)).ne']
      · rfl
    have hlast : (rest.getLastD first).1 < b := (hin _ getLastD_mem_cons).2
    have hall : (m.data[m.index first.1]?.all fun e => (rest.getLastD first).1 < e.1) = true := by
      rw [hhead, Option.all_eq_true]
      exact fun e he => decide_eq_true (hlast.trans_le (hge e he))
    rw [insertPresorted, hlookup]
    dsimp only
    rw [if_pos hall, h.take_index, h.drop_index, hbefore haf hfb.le, hafter haf hfb.le]

end

theorem insert_eq_insertPresorted (m : SortedMap K V) (key : K) (v : V) :
    m.insert key v = m.insertPresorted [(key, v)] := by
  rw [insert, insertPresorted]
  rcases lookupIndexFor_eq m key with h | h
  · simp only [h, foldl_nil]
  · simp only [h, foldl_nil, append_assoc, cons_append, nil_append, ite_self]

end

end SortedMap

end Tortis
