import Mathlib.Data.List.AList

/-!
# Hash sets and hash maps

An `FxHashSet` is the list of its elements and an `FxHashMap` the association list of its entries,
both without repetition. The list remembers the history of the collection; the order in which the
compiler walks a collection is any permutation of that list (`IterOrder`), so that a statement for
every `IterOrder` is a statement for every hash function and every table layout.
-/

namespace Tortis

open List AList

variable {α κ ν : Type}

/-- The order in which collections are iterated: an arbitrary permutation for each list of
entries. -/
structure IterOrder where
  order : {α : Type} → List α → List α
  perm : ∀ {α : Type} (l : List α), (order l).Perm l

def IterOrder.entries : IterOrder where
  order := id
  perm := List.Perm.refl

@[simp] theorem IterOrder.mem_order (ord : IterOrder) {l : List α} {a : α} :
    a ∈ ord.order l ↔ a ∈ l :=
  (ord.perm l).mem_iff

/-! ## Sets -/

structure FxHashSet (α : Type) where
  toList : List α
  nodup : toList.Nodup

namespace FxHashSet

instance : Membership α (FxHashSet α) := ⟨fun s a => a ∈ s.toList⟩

instance : EmptyCollection (FxHashSet α) := ⟨⟨[], .nil⟩⟩

instance : Inhabited (FxHashSet α) := ⟨∅⟩

variable {s : FxHashSet α}

@[simp] theorem mem_toList {a : α} : a ∈ s.toList ↔ a ∈ s := Iff.rfl

@[simp] theorem not_mem_empty (a : α) : ¬ a ∈ (∅ : FxHashSet α) := not_mem_nil

variable [DecidableEq α]

instance (a : α) (s : FxHashSet α) : Decidable (a ∈ s) := inferInstanceAs (Decidable (a ∈ s.toList))

instance : DecidableEq (FxHashSet α) := fun s t =>
  decidable_of_iff (s.toList = t.toList) ⟨fun h => by cases s; cases t; cases h; rfl, congrArg _⟩

def insert (s : FxHashSet α) (a : α) : FxHashSet α := ⟨s.toList.insert a, s.nodup.insert⟩

def extend (s : FxHashSet α) (l : List α) : FxHashSet α := l.foldl insert s

@[simp] theorem mem_insert {a b : α} : b ∈ s.insert a ↔ b = a ∨ b ∈ s :=
  mem_insert_iff

@[simp] theorem mem_extend {l : List α} {b : α} : b ∈ s.extend l ↔ b ∈ s ∨ b ∈ l := by
  induction l generalizing s with
  | nil => simp [extend]
  | cons a l ih =>
    rw [extend, foldl_cons, ← extend, ih, mem_insert, mem_cons]
    tauto

end FxHashSet

/-! ## Maps -/

abbrev FxHashMap (κ ν : Type) := AList fun _ : κ => ν

namespace FxHashMap

variable [DecidableEq κ]

section
variable (m : FxHashMap κ ν)

def get (k : κ) : Option ν := m.lookup k

/-- `map.entry(k).or_insert(d)` followed by an update `f` of the entry in place. -/
def entryOr (k : κ) (d : ν) (f : ν → ν) : FxHashMap κ ν :=
  m.insert k (f ((m.get k).getD d))

def values : List ν := m.entries.map Sigma.snd

def iter (ord : IterOrder) (m : FxHashMap κ ν) : List (κ × ν) :=
  ord.order (m.entries.map fun e => (e.1, e.2))

@[simp] theorem get_empty (k : κ) : (∅ : FxHashMap κ ν).get k = none := rfl

theorem get_insert (k k' : κ) (v : ν) :
    get (m.insert k v) k' = if k' = k then some v else m.get k' := by
  unfold get
  split
  · next h => rw [h, lookup_insert]
  · next h => rw [lookup_insert_ne h]

@[simp] theorem get_insert_self (k : κ) (v : ν) : get (m.insert k v) k = some v := by
  rw [get_insert, if_pos rfl]

theorem get_erase (k k' : κ) : get (m.erase k) k' = if k' = k then none else m.get k' := by
  unfold get
  split
  · next h => rw [h, lookup_erase]
  · next h => rw [lookup_erase_ne h]

theorem get_insert_mono {m m' : FxHashMap κ ν} (h : ∀ k v, m.get k = some v → m'.get k = some v)
    (a : κ) (c : ν) : ∀ k v, get (m.insert a c) k = some v → get (m'.insert a c) k = some v := by
  intro k v hk
  rw [get_insert] at hk ⊢
  split at hk
  · next heq => rw [if_pos heq, hk]
  · next hne => rw [if_neg hne, h k v hk]

theorem get_entryOr (k k' : κ) (d : ν) (f : ν → ν) :
    (m.entryOr k d f).get k' = if k' = k then some (f ((m.get k).getD d)) else m.get k' :=
  get_insert ..

end

variable {k : κ} {m : FxHashMap κ ν}

theorem mem_keys_iff : k ∈ m.keys ↔ ∃ v, m.get k = some v := by
  rw [← AList.mem_keys, ← AList.lookup_isSome, Option.isSome_iff_exists]
  rfl

theorem mem_values_iff {v : ν} : v ∈ m.values ↔ ∃ k, m.get k = some v := by
  simp only [values, mem_map]
  constructor
  · rintro ⟨⟨k, w⟩, hkw, rfl⟩
    exact ⟨k, mem_lookup_iff.2 hkw⟩
  · rintro ⟨k, hk⟩
    exact ⟨⟨k, v⟩, mem_lookup_iff.1 hk, rfl⟩

variable {ord : IterOrder}

theorem mem_iter {v : ν} : (k, v) ∈ m.iter ord ↔ m.get k = some v := by
  simp only [iter, IterOrder.mem_order, mem_map, Prod.mk.injEq]
  constructor
  · rintro ⟨⟨k, v⟩, h, rfl, rfl⟩
    exact mem_lookup_iff.2 h
  · exact fun h => ⟨⟨k, v⟩, mem_lookup_iff.1 h, rfl, rfl⟩

/-- Inserting the entries of another map. -/
def insertAll (ord : IterOrder) (m m' : FxHashMap κ ν) : FxHashMap κ ν :=
  (m'.iter ord).foldl (fun m e => m.insert e.1 e.2) m

theorem get_insertAll {m m' : FxHashMap κ ν} :
    (m.insertAll ord m').get k = (m'.get k).or (m.get k) := by
  have fold : ∀ (l : List (κ × ν)) (m : FxHashMap κ ν),
      (∀ e ∈ l, m'.get e.1 = some e.2) → (∀ v, m'.get k = some v → (k, v) ∈ l ∨ m.get k = some v) →
        FxHashMap.get (l.foldl (fun m e => m.insert e.1 e.2) m) k = (m'.get k).or (m.get k) := by
    intro l
    induction l with
    | nil =>
      intro m _ h
      cases hk : m'.get k with
      | none => rfl
      | some v => simpa using h v hk
    | cons e l ih =>
      intro m hl h
      have hget : (get (m.insert e.1 e.2) k) = if k = e.1 then some e.2 else m.get k := get_insert ..
      rw [foldl_cons, ih _ (fun e' he' => hl e' (.tail _ he')), hget]
      · split
        · next hke =>
          subst hke
          rw [hl e (.head _)]
          rfl
        · rfl
      · intro v hv
        rw [hget]
        rcases h v hv with h | h
        · rcases mem_cons.1 h with rfl | h
          · exact .inr (by simp)
          · exact .inl h
        · split
          · next hke =>
            subst hke
            rw [hl e (.head _)] at hv
            exact .inr hv
          · exact .inr h
  exact fold _ m (fun e he => mem_iter.1 he) fun v hv => .inl (mem_iter.2 hv)

/-! A map into sets is a relation between keys and elements. -/

/-- `x` is in the set at `k`. -/
def Rel (m : FxHashMap κ (FxHashSet α)) (k : κ) (x : α) : Prop := ∃ s, m.get k = some s ∧ x ∈ s

instance [DecidableEq α] (m : FxHashMap κ (FxHashSet α)) (k : κ) (x : α) : Decidable (m.Rel k x) :=
  decidable_of_iff (∃ s ∈ m.get k, x ∈ s) Iff.rfl

/-- `map.entry(k).or_insert(Default::default()).insert(x)`. -/
def addTo [DecidableEq α] (m : FxHashMap κ (FxHashSet α)) (k : κ) (x : α) :
    FxHashMap κ (FxHashSet α) :=
  m.entryOr k ∅ (·.insert x)

@[simp] theorem not_rel_empty (k : κ) (x : α) : ¬ Rel (∅ : FxHashMap κ (FxHashSet α)) k x := by
  simp [Rel]

variable {m : FxHashMap κ (FxHashSet α)}

theorem rel_iff_of_get {s : FxHashSet α} (h : m.get k = some s) (x : α) : m.Rel k x ↔ x ∈ s := by
  simp [Rel, h]

@[simp] theorem rel_addTo [DecidableEq α] {k' : κ} {x x' : α} :
    (m.addTo k x).Rel k' x' ↔ (k' = k ∧ x' = x) ∨ m.Rel k' x' := by
  unfold Rel addTo
  rw [get_entryOr]
  split
  · next h =>
    subst h
    cases hg : m.get k' <;> simp
  · next h => simp [h]

/-- Adding the sets of another map entry by entry. -/
def extendAll [DecidableEq α] (ord : IterOrder) (m m' : FxHashMap κ (FxHashSet α)) :
    FxHashMap κ (FxHashSet α) :=
  (m'.iter ord).foldl (fun m e => m.entryOr e.1 ∅ (·.extend (ord.order e.2.toList))) m

variable {m' : FxHashMap κ (FxHashSet α)}

@[simp] theorem rel_extendAll [DecidableEq α] {x : α} : (m.extendAll ord m').Rel k x ↔ m.Rel k x ∨ m'.Rel k x := by
  have fold : ∀ (l : List (κ × FxHashSet α)) (m : FxHashMap κ (FxHashSet α)),
      (l.foldl (fun m e => m.entryOr e.1 ∅ (·.extend (ord.order e.2.toList))) m).Rel k x ↔
        m.Rel k x ∨ ∃ s, (k, s) ∈ l ∧ x ∈ s := by
    intro l
    induction l with
    | nil => simp
    | cons e l ih =>
      intro m
      have hstep : (m.entryOr e.1 ∅ (·.extend (ord.order e.2.toList))).Rel k x ↔
          m.Rel k x ∨ k = e.1 ∧ x ∈ e.2 := by
        unfold Rel
        rw [get_entryOr]
        split
        · next h =>
          subst h
          cases hg : m.get e.1 <;> simp
        · next h => simp [h]
      rw [foldl_cons, ih, hstep, or_assoc]
      refine or_congr_right ⟨?_, ?_⟩
      · rintro (⟨rfl, hx⟩ | ⟨s, hs, hx⟩)
        exacts [⟨e.2, .head _, hx⟩, ⟨s, .tail _ hs, hx⟩]
      · rintro ⟨s, hs, hx⟩
        rcases mem_cons.1 hs with rfl | hs
        exacts [.inl ⟨rfl, hx⟩, .inr ⟨s, hs, hx⟩]
  rw [extendAll, fold]
  simp only [mem_iter, Rel]

/-- No set of the map is empty. -/
def Filled (m : FxHashMap κ (FxHashSet α)) : Prop := ∀ k s, m.get k = some s → ∃ x, x ∈ s

theorem filled_empty : Filled (∅ : FxHashMap κ (FxHashSet α)) := nofun

theorem Filled.addTo [DecidableEq α] (h : m.Filled) (k : κ) (x : α) : (m.addTo k x).Filled := by
  intro k' s hs
  rw [FxHashMap.addTo, get_entryOr] at hs
  split at hs
  · cases hs
    exact ⟨x, by simp⟩
  · exact h k' s hs

theorem Filled.extendAll [DecidableEq α]
    (h : m.Filled) (h' : m'.Filled) : (m.extendAll ord m').Filled := by
  have fold : ∀ (l : List (κ × FxHashSet α)) (m : FxHashMap κ (FxHashSet α)), m.Filled →
      (∀ e ∈ l, ∃ x, x ∈ e.2) →
        Filled (l.foldl (fun m e => m.entryOr e.1 ∅ (·.extend (ord.order e.2.toList))) m) := by
    intro l
    induction l with
    | nil => exact fun m hm _ => hm
    | cons e l ih =>
      intro m hm hl
      refine ih _ (fun k s hs => ?_) fun e' he' => hl e' (.tail _ he')
      rw [get_entryOr] at hs
      split at hs
      · cases hs
        obtain ⟨x, hx⟩ := hl e (.head _)
        exact ⟨x, by simpa using .inr hx⟩
      · exact hm k s hs
  exact fold _ m h fun e he => h' e.1 e.2 (mem_iter.1 he)

theorem Filled.get_eq_none (h : m.Filled) (hk : ∀ x, ¬ m.Rel k x) : m.get k = none := by
  cases hget : m.get k with
  | none => rfl
  | some s =>
    obtain ⟨x, hx⟩ := h k s hget
    exact absurd ⟨s, hget, hx⟩ (hk x)

theorem Filled.mem_keys_iff (h : m.Filled) : k ∈ m.keys ↔ ∃ x, m.Rel k x := by
  rw [FxHashMap.mem_keys_iff]
  constructor
  · rintro ⟨s, hs⟩
    obtain ⟨x, hx⟩ := h k s hs
    exact ⟨x, s, hs, hx⟩
  · rintro ⟨x, s, hs, -⟩
    exact ⟨s, hs⟩

end FxHashMap

end Tortis
