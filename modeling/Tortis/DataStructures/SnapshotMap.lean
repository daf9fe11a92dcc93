import Tortis.Lib.FxHash
import Tortis.Lib.Outcome

/-!
# Maps with snapshots

`librustc_data_structures/snapshot_map/mod.rs`: while a snapshot is open every change of the map is
logged, and undoing the log from its end brings back the map as it was. The reference keeps a copy
of the contents for each open snapshot instead; a session of the map that closes its snapshots from
the inside agrees with it (`run_refines`).
-/

namespace Tortis

open Outcome List Option Bool Function AList

variable {K V : Type} [DecidableEq K]

inductive UndoLog (K V : Type) where
  | inserted (key : K)
  | overwrite (key : K) (oldValue : V)
  | purged

structure Snapshot where
  len : Nat

structure SnapshotMap (K V : Type) where
  map : FxHashMap K V
  undoLog : List (UndoLog K V)
  numOpenSnapshots : Nat

namespace SnapshotMap

/-- `SnapshotMap::default`. -/
def empty : SnapshotMap K V := ⟨∅, [], 0⟩

section
variable (m : SnapshotMap K V)

def inSnapshot : Bool := m.numOpenSnapshots > 0

/-- A push onto the log, in a snapshot. -/
def log (entry : UndoLog K V) : SnapshotMap K V :=
  if m.inSnapshot then { m with undoLog := m.undoLog ++ [entry] } else m

def insert (m : SnapshotMap K V) (key : K) (value : V) : Bool × SnapshotMap K V :=
  let m' := { m with map := AList.insert key value m.map }
  match m.map.get key with
  | none => (true, m'.log (.inserted key))
  | some oldValue => (false, m'.log (.overwrite key oldValue))

def remove (key : K) : Bool × SnapshotMap K V :=
  match m.map.get key with
  | some oldValue =>
    (true, { m with map := erase key m.map }.log (.overwrite key oldValue))
  | none => (false, m)

def get (m : SnapshotMap K V) (key : K) : Option V := m.map.get key

def snapshot : Snapshot × SnapshotMap K V :=
  (⟨m.undoLog.length⟩, { m with numOpenSnapshots := m.numOpenSnapshots + 1 })

section
variable (snapshot : Snapshot)

def assertOpenSnapshot : Outcome Unit := do
  assert (snapshot.len ≤ m.undoLog.length)
    "assertion failed: self.undo_log.len() >= snapshot.len"
  assert (0 < m.numOpenSnapshots) "assertion failed: self.num_open_snapshots > 0"

def commit : Outcome (SnapshotMap K V) := do
  m.assertOpenSnapshot snapshot
  if m.numOpenSnapshots = 1 then do
    assert (snapshot.len = 0) "assertion failed: snapshot.len == 0"
    .ok { m with undoLog := [], numOpenSnapshots := m.numOpenSnapshots - 1 }
  else .ok { m with numOpenSnapshots := m.numOpenSnapshots - 1 }

def reverse : UndoLog K V → SnapshotMap K V
  | .inserted key => { m with map := erase key m.map }
  | .overwrite key oldValue => { m with map := AList.insert key oldValue m.map }
  | .purged => m

/-- Whether `partial_rollback` reverses an entry. -/
def reverses (shouldRevertKey : K → Bool) : UndoLog K V → Bool
  | .purged => false
  | .inserted k => shouldRevertKey k
  | .overwrite k _ => shouldRevertKey k

/-- One iteration of the loop in `partial_rollback`. -/
def revertEntry (shouldRevertKey : K → Bool) (m : SnapshotMap K V) (i : Nat) :
    Outcome (SnapshotMap K V) := do
  let entry ← expect "index out of bounds" m.undoLog[i]?
  if reverses shouldRevertKey entry then
    .ok ({ m with undoLog := m.undoLog.set i .purged }.reverse entry)
  else .ok m

def partialRollback (shouldRevertKey : K → Bool) :
    Outcome (SnapshotMap K V) := do
  m.assertOpenSnapshot snapshot
  (range' snapshot.len (m.undoLog.length - snapshot.len)).reverse.foldlM
    (revertEntry shouldRevertKey) m

end

end

/-- The loop of `rollback_to`. -/
def popTo (len : Nat) : Nat → SnapshotMap K V → Outcome (SnapshotMap K V)
  | 0, _ => .error .outOfFuel
  | n + 1, m =>
    if len < m.undoLog.length then do
      let entry ← unwrap m.undoLog.getLast?
      popTo len n ({ m with undoLog := m.undoLog.dropLast }.reverse entry)
    else .ok m

def rollbackTo (m : SnapshotMap K V) (snapshot : Snapshot) : Outcome (SnapshotMap K V) := do
  m.assertOpenSnapshot snapshot
  let m ← popTo snapshot.len (m.undoLog.length + 1) m
  .ok { m with numOpenSnapshots := m.numOpenSnapshots - 1 }

/-! ## Undoing a log -/

def undo (entry : UndoLog K V) (contents : K → Option V) : K → Option V :=
  match entry with
  | .inserted key => update contents key none
  | .overwrite key oldValue => update contents key (some oldValue)
  | .purged => contents

def undoAll (l : List (UndoLog K V)) (contents : K → Option V) : K → Option V :=
  l.foldr undo contents

@[simp] theorem undoAll_nil (c : K → Option V) : undoAll [] c = c := rfl

@[simp] theorem undoAll_cons (e : UndoLog K V) (l : List (UndoLog K V)) (c : K → Option V) :
    undoAll (e :: l) c = undo e (undoAll l c) := rfl

@[simp] theorem undoAll_append (l l' : List (UndoLog K V)) (c : K → Option V) :
    undoAll (l ++ l') c = undoAll l (undoAll l' c) := foldr_append ..

/-- The entries that `partial_rollback` leaves. -/
def purge (f : K → Bool) (entry : UndoLog K V) : UndoLog K V :=
  if reverses f entry then .purged else entry

/-- The contents where the keys that satisfy `f` are taken from the first ones. -/
def restore (f : K → Bool) (saved contents : K → Option V) : K → Option V :=
  fun k => if f k then saved k else contents k

section
variable (m : FxHashMap K V)

theorem get_erase (k k' : K) :
    FxHashMap.get (erase k m) k' = if k' = k then none else m.get k' := by
  unfold FxHashMap.get
  by_cases h : k' = k
  · rw [if_pos h, h, lookup_erase]
  · rw [if_neg h, lookup_erase_ne h]

theorem get_insert_map (k : K) (v : V) :
    (FxHashMap.get (AList.insert k v m)) = update m.get k (some v) := by
  funext k'
  rw [FxHashMap.get_insert, update_apply]

theorem get_erase_map (k : K) : (FxHashMap.get (erase k m)) = update m.get k none := by
  funext k'
  rw [get_erase, update_apply]

end

theorem get_reverse (m : SnapshotMap K V) (entry : UndoLog K V) :
    (m.reverse entry).map.get = undo entry m.map.get := by
  cases entry with
  | inserted key => exact get_erase_map _ _
  | overwrite key oldValue => exact get_insert_map _ _ _
  | purged => rfl

variable {k : K} {c c' : K → Option V}

theorem undo_congr (entry : UndoLog K V) (h : c k = c' k) : undo entry c k = undo entry c' k := by
  cases entry <;> simp [undo, update_apply, h]

theorem undoAll_congr (l : List (UndoLog K V)) (h : c k = c' k) :
    undoAll l c k = undoAll l c' k := by
  induction l with
  | nil => exact h
  | cons e l ih => exact undo_congr e ih

variable {f : K → Bool} {entry : UndoLog K V}

/-- An entry that is not about a key is left by the purge, and one that is not about `k` does not
change it. -/
theorem undo_of_not_reverses (h : reverses f entry = false)
    (c : K → Option V) (hk : f k = true) : undo entry c k = c k := by
  cases entry with
  | purged => rfl
  | inserted key | overwrite key oldValue =>
    refine update_of_ne (fun heq => ?_) _ _
    rw [reverses, ← heq, hk] at h
    cases h

theorem undo_of_reverses (h : reverses f entry = true)
    (c : K → Option V) (hk : f k = false) : undo entry c k = c k := by
  cases entry with
  | purged => rfl
  | inserted key | overwrite key oldValue =>
    refine update_of_ne (fun heq => ?_) _ _
    rw [reverses, ← heq, hk] at h
    cases h

theorem undoAll_purge_of_true (hk : f k = true) (l : List (UndoLog K V))
    (c : K → Option V) : undoAll (l.map (purge f)) c k = c k := by
  induction l with
  | nil => rfl
  | cons e l ih =>
    refine Eq.trans ?_ ih
    rw [map_cons, purge]
    split
    · rfl
    · rename_i hrev
      exact undo_of_not_reverses (eq_false_iff.2 hrev) _ hk

theorem undoAll_purge_of_false (hk : f k = false) (l : List (UndoLog K V))
    (c : K → Option V) : undoAll (l.map (purge f)) c k = undoAll l c k := by
  induction l with
  | nil => rfl
  | cons e l ih =>
    change undo (purge f e) (undoAll (l.map (purge f)) c) k = undo e (undoAll l c) k
    rw [purge]
    split
    · rename_i hrev
      rw [undo_of_reverses hrev _ hk]
      exact ih
    · exact undo_congr e ih

section
variable (f : K → Bool)

section
variable (l : List (UndoLog K V))

/-- What `partial_rollback` does to the contents: it undoes only the entries that it reverses. -/
def undoOnly (c : K → Option V) : K → Option V :=
  undoAll (l.filter (reverses f)) c

theorem undoOnly_eq (c : K → Option V) : undoOnly f l c = restore f (undoAll l c) c := by
  funext k
  rw [restore]
  induction l with
  | nil => simp [undoOnly]
  | cons e l ih =>
    rw [undoOnly, filter_cons]
    cases hk : f k with
    | true =>
      rw [hk, if_pos rfl] at ih
      split
      · exact undo_congr e ih
      · rename_i hrev
        exact ih.trans (undo_of_not_reverses (eq_false_iff.2 hrev) _ hk).symm
    | false =>
      rw [hk, if_neg Bool.false_ne_true] at ih
      split
      · rename_i hrev
        exact (undo_of_reverses hrev _ hk).trans ih
      · exact ih

theorem undoAll_purge_restore (saved c : K → Option V) :
    undoAll (l.map (purge f)) (restore f saved c) = restore f saved (undoAll l c) := by
  funext k
  cases hk : f k with
  | true => rw [undoAll_purge_of_true hk, restore, restore, hk, if_pos rfl, if_pos rfl]
  | false =>
    have hc : restore f saved c k = c k := by rw [restore, hk, if_neg Bool.false_ne_true]
    rw [undoAll_purge_of_false hk, undoAll_congr l hc, restore, hk, if_neg Bool.false_ne_true]

end

theorem undoAll_append_purge (l l' : List (UndoLog K V)) (c : K → Option V) :
    undoAll (l ++ l'.map (purge f)) (restore f (undoAll l' c) c) = undoAll (l ++ l') c := by
  have hsame : restore f (undoAll l' c) (undoAll l' c) = undoAll l' c := by
    funext k
    rw [restore, ite_self]
  calc undoAll (l ++ l'.map (purge f)) (restore f (undoAll l' c) c)
    _ = undoAll l (undoAll (l'.map (purge f)) (restore f (undoAll l' c) c)) := undoAll_append ..
    _ = undoAll l (undoAll l' c) := by rw [undoAll_purge_restore, hsame]
    _ = undoAll (l ++ l') c := (undoAll_append ..).symm

/-! ## The loops -/

theorem popTo_spec {len : Nat} :
    ∀ {n : Nat} {m : SnapshotMap K V}, m.undoLog.length < n →
      ∃ m', popTo len n m = .ok m' ∧ m'.undoLog = m.undoLog.take len ∧
        m'.map.get = undoAll (m.undoLog.drop len) m.map.get ∧
        m'.numOpenSnapshots = m.numOpenSnapshots
  | 0, _, h => absurd h (Nat.not_lt_zero _)
  | n + 1, ⟨map, undoLog, numOpen⟩, h => by
    rw [popTo]
    split
    · next hlt =>
      obtain ⟨l, e, rfl⟩ : ∃ l e, undoLog = l ++ [e] := by
        rcases eq_nil_or_concat undoLog with rfl | ⟨l, e, rfl⟩
        · simp at hlt
        · exact ⟨l, e, concat_eq_append⟩
      have hlen : len ≤ l.length := by simpa [Nat.lt_succ_iff] using hlt
      obtain ⟨m', hm', hlog, hmap, hnum⟩ :=
        popTo_spec (n := n) (m := (⟨map, l, numOpen⟩ : SnapshotMap K V).reverse e)
          (by cases e <;> simpa [reverse] using h)
      have hl : ((⟨map, l, numOpen⟩ : SnapshotMap K V).reverse e).undoLog = l := by cases e <;> rfl
      have hn : ((⟨map, l, numOpen⟩ : SnapshotMap K V).reverse e).numOpenSnapshots = numOpen := by
        cases e <;> rfl
      refine ⟨m', by simpa using hm', ?_, ?_, hnum.trans hn⟩
      · rw [hlog, hl]
        exact (take_append_of_le_length hlen).symm
      · rw [hmap, hl, get_reverse, drop_append_of_le_length hlen]
        simp
    · next hle =>
      have hle : undoLog.length ≤ len := Nat.le_of_not_lt hle
      refine ⟨_, rfl, (take_of_length_le hle).symm, ?_, rfl⟩
      rw [drop_of_length_le hle]
      rfl

theorem revertEntry_spec {m : SnapshotMap K V} {i : Nat} {e : UndoLog K V}
    (he : m.undoLog[i]? = some e) :
    ∃ m', revertEntry f m i = .ok m' ∧ m'.undoLog = m.undoLog.set i (purge f e) ∧
      m'.map.get = undoOnly f [e] m.map.get ∧ m'.numOpenSnapshots = m.numOpenSnapshots := by
  rw [revertEntry, he]
  simp only [expect_some, ok_bind, purge, undoOnly, filter_cons]
  split
  · refine ⟨_, rfl, by cases e <;> rfl, ?_, by cases e <;> rfl⟩
    rw [get_reverse]
    rfl
  · obtain ⟨hi, rfl⟩ := List.getElem?_eq_some_iff.1 he
    exact ⟨_, rfl, (List.set_getElem_self hi).symm, rfl, rfl⟩

end

/-- The loop of `partial_rollback` undoes the entries about the given keys, from the end, and purges
them. -/
theorem revert_loop (f : K → Bool) (len : Nat) :
    ∀ (n : Nat) (m : SnapshotMap K V), len + n ≤ m.undoLog.length →
      ∃ m', (range' len n).reverse.foldlM (revertEntry f) m = .ok m' ∧
        m'.undoLog = m.undoLog.take len ++ (((m.undoLog.drop len).take n).map (purge f) ++
          m.undoLog.drop (len + n)) ∧
        m'.map.get = undoOnly f ((m.undoLog.drop len).take n) m.map.get ∧
        m'.numOpenSnapshots = m.numOpenSnapshots
  | 0, m, _ => ⟨m, rfl, by simp, by simp [undoOnly], rfl⟩
  | n + 1, m, h => by
    have hlt : len + n < m.undoLog.length := h
    obtain ⟨m1, h1, hlog1, hmap1, hnum1⟩ := revertEntry_spec f (getElem?_eq_getElem hlt)
    obtain ⟨m', h', hlog', hmap', hnum'⟩ := revert_loop f len n m1 (by
      rw [hlog1, length_set]
      exact Nat.le_of_succ_le h)
    -- The prefix that the rest of the loop looks at is the one before the iteration.
    have htake : (m1.undoLog.drop len).take n = (m.undoLog.drop len).take n := by
      rw [hlog1, take_drop, take_drop, take_set_of_le le_rfl]
    have hlast : (m.undoLog.drop len).take (n + 1) =
        (m.undoLog.drop len).take n ++ [m.undoLog[len + n]] := by
      rw [take_add_one, getElem?_drop, getElem?_eq_getElem hlt]
      rfl
    refine ⟨m', ?_, ?_, ?_, hnum'.trans hnum1⟩
    · rw [range'_concat, reverse_append, one_mul]
      simpa [h1] using h'
    · rw [hlog', htake, hlast, hlog1, take_set_of_le (Nat.le_add_right _ _),
        drop_set, if_neg (lt_irrefl _), Nat.sub_self, drop_eq_getElem_cons hlt]
      simp [add_assoc]
    · rw [hmap', htake, hmap1, hlast, undoOnly, undoOnly, undoOnly, filter_append]
      simp only [undoAll_append]

/-! ## Sessions -/

/-- A call on the map. A snapshot is closed when it is the innermost one that is open, and a partial
rollback is told which open snapshot it goes back to, counted from the innermost. -/
inductive MapOp (K V : Type) where
  | insert (key : K) (value : V)
  | remove (key : K)
  | snapshot
  | commit
  | rollbackTo
  | partialRollback (i : Nat) (shouldRevertKey : K → Bool)

/-- A map with the open snapshots that its user holds, the innermost first. -/
structure MapSession (K V : Type) where
  map : SnapshotMap K V
  held : List Snapshot

def MapSession.perform (s : MapSession K V) : MapOp K V → Outcome (MapSession K V)
  | .insert key value => .ok { s with map := (s.map.insert key value).2 }
  | .remove key => .ok { s with map := (s.map.remove key).2 }
  | .snapshot => .ok ⟨s.map.snapshot.2, s.map.snapshot.1 :: s.held⟩
  | .commit => do
    let snapshot ← expect "no snapshot is open" s.held.head?
    let map ← s.map.commit snapshot
    .ok ⟨map, s.held.tail⟩
  | .rollbackTo => do
    let snapshot ← expect "no snapshot is open" s.held.head?
    let map ← s.map.rollbackTo snapshot
    .ok ⟨map, s.held.tail⟩
  | .partialRollback i f => do
    let snapshot ← expect "no such snapshot is open" s.held[i]?
    let map ← s.map.partialRollback snapshot f
    .ok { s with map }

def MapSession.run (ops : List (MapOp K V)) : Outcome (MapSession K V) :=
  ops.foldlM MapSession.perform ⟨.empty, []⟩

/-- Each snapshot that is closed or gone back to is open; `n` snapshots are open at the start. -/
def WellNested : Nat → List (MapOp K V) → Prop
  | _, [] => True
  | n, .insert _ _ :: ops => WellNested n ops
  | n, .remove _ :: ops => WellNested n ops
  | n, .snapshot :: ops => WellNested (n + 1) ops
  | n, .commit :: ops => 0 < n ∧ WellNested (n - 1) ops
  | n, .rollbackTo :: ops => 0 < n ∧ WellNested (n - 1) ops
  | n, .partialRollback i _ :: ops => i < n ∧ WellNested n ops

/-- What a session is to do: the contents of the map, and what each open snapshot goes back to,
the innermost first. -/
structure Copies (K V : Type) where
  contents : K → Option V
  saved : List (K → Option V)

/-- The call on the copies. A snapshot takes a copy, `rollback_to` puts it back, and a partial
rollback takes the given keys from the copy of its snapshot. -/
def Copies.perform (r : Copies K V) : MapOp K V → Copies K V
  | .insert key value => { r with contents := update r.contents key (some value) }
  | .remove key => { r with contents := update r.contents key none }
  | .snapshot => { r with saved := r.contents :: r.saved }
  | .commit => { r with saved := r.saved.tail }
  | .rollbackTo => ⟨r.saved.head?.getD r.contents, r.saved.tail⟩
  | .partialRollback i f =>
    let old := r.saved[i]?.getD r.contents
    ⟨restore f old r.contents, r.saved.mapIdx fun j c => if j < i then restore f old c else c⟩

def Copies.run (ops : List (MapOp K V)) : Copies K V :=
  ops.foldl Copies.perform ⟨fun _ => none, []⟩

/-- A session and the copies it stands for: undoing the log from where a snapshot was taken gives
its copy. -/
structure Represents (s : MapSession K V) (r : Copies K V) : Prop where
  contents : s.map.map.get = r.contents
  count : s.map.numOpenSnapshots = s.held.length
  closed : s.held = [] → s.map.undoLog = []
  root : ∀ snapshot, s.held.getLast? = some snapshot → snapshot.len = 0
  nested : s.held.Pairwise fun a b => b.len ≤ a.len
  length : r.saved.length = s.held.length
  within : ∀ snapshot ∈ s.held, snapshot.len ≤ s.map.undoLog.length
  saved : ∀ (j : Nat) (snapshot : Snapshot), s.held[j]? = some snapshot →
    r.saved[j]? = some (undoAll (s.map.undoLog.drop snapshot.len) s.map.map.get)

namespace Represents

variable {s : MapSession K V} {r : Copies K V}

theorem of_empty : Represents (⟨.empty, []⟩ : MapSession K V) ⟨fun _ => none, []⟩ where
  contents := rfl
  count := rfl
  closed _ := rfl
  root _ h := by cases h
  nested := List.Pairwise.nil
  length := rfl
  within _ h := by cases h
  saved _ _ h := by cases h

section
variable (h : Represents s r)
include h

theorem change {map : FxHashMap K V} (entry : UndoLog K V)
    (hundo : undo entry map.get = s.map.map.get) :
    Represents { s with map := { s.map with map }.log entry } { r with contents := map.get } := by
  have hopen : s.map.inSnapshot = true ↔ s.held ≠ [] := by
    rw [inSnapshot, decide_eq_true_iff, h.count, gt_iff_lt, length_pos_iff]
  by_cases hin : s.map.inSnapshot
  · have hlog : ({ s.map with map }.log entry) =
        { s.map with map, undoLog := s.map.undoLog ++ [entry] } := if_pos hin
    rw [hlog]
    refine ⟨rfl, h.count, fun hnil => absurd hnil (hopen.1 hin), h.root, h.nested, h.length,
      fun t ht => ?_, fun j t ht => ?_⟩
    · exact le_trans (h.within t ht) (by simp)
    · rw [h.saved j t ht]
      rw [drop_append_of_le_length (h.within t (mem_of_getElem? ht)), ← hundo]
      simp
  · have hlog : ({ s.map with map }.log entry) = { s.map with map } := if_neg hin
    have hnil : s.held = [] := by
      by_contra hne
      exact hin (hopen.2 hne)
    rw [hlog]
    exact ⟨rfl, h.count, h.closed, h.root, h.nested, h.length, h.within,
      fun j t ht => by rw [hnil] at ht; cases ht⟩

theorem insert (key : K) (value : V) :
    Represents { s with map := (s.map.insert key value).2 }
      { r with contents := update r.contents key (some value) } := by
  have hnew : update r.contents key (some value) =
      FxHashMap.get (AList.insert key value s.map.map) := by
    rw [get_insert_map, h.contents]
  rw [hnew, SnapshotMap.insert]
  split
  · next hnone =>
    refine h.change (.inserted key) ?_
    rw [undo, get_insert_map, update_idem, ← hnone, update_eq_self]
  · next old hsome =>
    refine h.change (.overwrite key old) ?_
    rw [undo, get_insert_map, update_idem, ← hsome, update_eq_self]

theorem remove (key : K) :
    Represents { s with map := (s.map.remove key).2 }
      { r with contents := update r.contents key none } := by
  rw [SnapshotMap.remove]
  split
  · next old hsome =>
    have hnew : update r.contents key none =
        FxHashMap.get (erase key s.map.map) := by
      rw [get_erase_map, h.contents]
    rw [hnew]
    refine h.change (.overwrite key old) ?_
    rw [undo, get_erase_map, update_idem, ← hsome, update_eq_self]
  · next hnone =>
    rwa [← h.contents, ← hnone, update_eq_self, h.contents]

theorem snapshot :
    Represents ⟨s.map.snapshot.2, s.map.snapshot.1 :: s.held⟩
      { r with saved := r.contents :: r.saved } where
  contents := h.contents
  count := congrArg Nat.succ h.count
  closed hnil := by cases hnil
  root t ht := by
    cases hheld : s.held with
    | nil =>
      rw [hheld] at ht
      cases ht
      exact congrArg List.length (h.closed hheld)
    | cons u l =>
      refine h.root t ?_
      rw [hheld] at ht ⊢
      rwa [getLast?_cons_cons] at ht
  nested := pairwise_cons.2 ⟨h.within, h.nested⟩
  length := congrArg Nat.succ h.length
  within t ht := by
    rcases mem_cons.1 ht with rfl | ht
    · exact le_rfl
    · exact h.within t ht
  saved j t ht := by
    cases j with
    | zero =>
      cases ht
      simp [SnapshotMap.snapshot, h.contents]
    | succ j => exact h.saved j t ht

variable {t u : Snapshot}

theorem assertOpenSnapshot (ht : t ∈ s.held) : s.map.assertOpenSnapshot t = .ok () := by
  have hpos : 0 < s.map.numOpenSnapshots := by
    rw [h.count]
    exact length_pos_of_mem ht
  simp [SnapshotMap.assertOpenSnapshot, assert, h.within t ht, hpos]

variable {held : List Snapshot}

section
variable (hheld : s.held = t :: held)
include hheld

theorem saved_tail {j : Nat}
    (hu : held[j]? = some u) : u.len ≤ t.len ∧ r.saved.tail[j]? =
      some (undoAll (s.map.undoLog.drop u.len) s.map.map.get) := by
  have hnested := h.nested
  rw [hheld, pairwise_cons] at hnested
  refine ⟨hnested.1 u (mem_of_getElem? hu), ?_⟩
  rw [getElem?_tail]
  exact h.saved (j + 1) u (by rw [hheld]; exact hu)

theorem root_tail (hu : held.getLast? = some u) : u.len = 0 := by
  refine h.root u ?_
  cases held with
  | nil => cases hu
  | cons v l => rw [hheld, getLast?_cons_cons, hu]

theorem saved_length_tail : r.saved.tail.length = held.length := by
  rw [length_tail, h.length, hheld]
  rfl

theorem commit :
    ∃ map, s.map.commit t = .ok map ∧ Represents ⟨map, held⟩ { r with saved := r.saved.tail } := by
  have hassert := h.assertOpenSnapshot (t := t) (by simp [hheld])
  have hcount : s.map.numOpenSnapshots = held.length + 1 := by rw [h.count, hheld]; rfl
  have hnested := h.nested
  rw [hheld, pairwise_cons] at hnested
  rw [SnapshotMap.commit, hassert, ok_bind, hcount]
  cases held with
  | nil =>
    -- The root snapshot: no copy is left that the log would be needed for.
    have hroot : t.len = 0 := h.root t (by rw [hheld]; rfl)
    refine ⟨⟨s.map.map, [], 0⟩, ?_, h.contents, rfl, fun _ => rfl, (by simp), .nil,
      h.saved_length_tail hheld, (by simp), (by simp)⟩
    simp [assert, hroot]
  | cons u l =>
    refine ⟨{ s.map with numOpenSnapshots := l.length + 1 }, ?_, h.contents, rfl, (by simp),
      fun v hv => h.root_tail hheld hv, hnested.2, h.saved_length_tail hheld,
      fun v hv => h.within v (by rw [hheld]; exact mem_cons_of_mem _ hv),
      fun j v hv => (h.saved_tail hheld hv).2⟩
    simp

theorem rollbackTo : ∃ map, s.map.rollbackTo t =
    .ok map ∧ Represents ⟨map, held⟩ ⟨r.saved.head?.getD r.contents, r.saved.tail⟩ := by
  have hassert := h.assertOpenSnapshot (t := t) (by simp [hheld])
  have hnested := h.nested
  rw [hheld, pairwise_cons] at hnested
  have hsaved : r.saved.head? = some (undoAll (s.map.undoLog.drop t.len) s.map.map.get) := by
    rw [head?_eq_getElem?]
    exact h.saved 0 t (by rw [hheld]; rfl)
  obtain ⟨m, hm, hlog, hmap, hnum⟩ :=
    @popTo_spec K V _ t.len _ s.map (Nat.lt_succ_self s.map.undoLog.length)
  refine ⟨{ m with numOpenSnapshots := m.numOpenSnapshots - 1 }, ?_, ?_, ?_, ?_,
    fun u hu => h.root_tail hheld hu, hnested.2, h.saved_length_tail hheld, ?_, ?_⟩
  · simp [SnapshotMap.rollbackTo, hassert, hm]
  · rw [hsaved]
    exact hmap
  · rw [hnum, h.count, hheld]
    rfl
  · rintro rfl
    have hroot : t.len = 0 := h.root t (by rw [hheld]; rfl)
    rw [hlog, hroot, take_zero]
  · intro u hu
    rw [hlog, length_take]
    exact Nat.le_min.2 ⟨hnested.1 u hu, h.within u (by rw [hheld]; exact mem_cons_of_mem _ hu)⟩
  · intro j u hu
    obtain ⟨hle, hold⟩ := h.saved_tail hheld hu
    rw [hold]
    have hsplit : s.map.undoLog.drop u.len =
        (s.map.undoLog.take t.len).drop u.len ++ s.map.undoLog.drop t.len := by
      conv_lhs => rw [← take_append_drop t.len s.map.undoLog]
      refine drop_append_of_le_length ?_
      rw [length_take]
      exact Nat.le_min.2 ⟨hle, le_trans hle (h.within t (by simp [hheld]))⟩
    rw [hlog, hmap, hsplit]
    exact congrArg some (foldr_append ..)

end

theorem nested_of_lt {i j : Nat} (hlt : j < i)
    (hu : s.held[j]? = some u) (ht : s.held[i]? = some t) : t.len ≤ u.len := by
  obtain ⟨hi, rfl⟩ := List.getElem?_eq_some_iff.1 ht
  obtain ⟨hj, rfl⟩ := List.getElem?_eq_some_iff.1 hu
  exact pairwise_iff_getElem.1 h.nested j i hj hi hlt

theorem partialRollback {i : Nat} (ht : s.held[i]? = some t) (f : K → Bool) :
    ∃ map, s.map.partialRollback t f = .ok map ∧
      Represents { s with map } (r.perform (.partialRollback i f)) := by
  have hmem := mem_of_getElem? ht
  have hwithin := h.within t hmem
  obtain ⟨m, hm, hlog, hmap, hnum⟩ :=
    revert_loop f t.len (s.map.undoLog.length - t.len) s.map (by omega)
  have hall : (s.map.undoLog.drop t.len).take (s.map.undoLog.length - t.len) =
      s.map.undoLog.drop t.len := take_of_length_le (by rw [length_drop])
  rw [hall, Nat.add_sub_cancel' hwithin, drop_length, append_nil] at hlog
  rw [hall, undoOnly_eq] at hmap
  have hold := h.saved i t ht
  have hlen : m.undoLog.length = s.map.undoLog.length := by
    rw [hlog, length_append, length_take, length_map, length_drop]
    omega
  refine ⟨m, ?_, ?_, hnum.trans h.count, ?_, h.root, h.nested, ?_, ?_, ?_⟩
  · rw [SnapshotMap.partialRollback, h.assertOpenSnapshot hmem, ok_bind, hm]
  · rw [Copies.perform, hold, ← h.contents]
    exact hmap
  · intro hnil
    rw [show s.held = [] from hnil] at hmem
    cases hmem
  · rw [Copies.perform, length_mapIdx, h.length]
  · intro u hu
    exact hlen.symm ▸ h.within u hu
  · intro j u hu
    have hju := h.saved j u hu
    have htake : (s.map.undoLog.take t.len).length = t.len := length_take_of_le hwithin
    simp only [Copies.perform, getElem?_mapIdx, hju, hold, map_some, getD_some, some_inj]
    rw [hlog, hmap]
    split
    · next hlt =>
      -- A snapshot inside the one that is gone back to: its part of the log is all purged.
      have hle : t.len ≤ u.len := h.nested_of_lt hlt hu ht
      have hnone : (s.map.undoLog.take t.len).drop u.len = [] :=
        drop_of_length_le (by rw [htake]; exact hle)
      rw [drop_append, htake, hnone, nil_append, ← map_drop, undoAll_purge_restore, drop_drop,
        Nat.add_sub_cancel' hle]
    · next hge =>
      have hle : u.len ≤ t.len := by
        rcases lt_or_eq_of_le (Nat.le_of_not_lt hge) with hlt | rfl
        · exact h.nested_of_lt hlt ht hu
        · rw [ht] at hu
          cases hu
          exact le_rfl
      rw [drop_append_of_le_length (by rw [htake]; exact hle), undoAll_append_purge,
        ← drop_append_of_le_length (by rw [htake]; exact hle), take_append_drop]

theorem perform {op : MapOp K V} {ops : List (MapOp K V)}
    (hop : WellNested s.held.length (op :: ops)) :
    ∃ s', s.perform op = .ok s' ∧ Represents s' (r.perform op) ∧ WellNested s'.held.length ops := by
  cases op with
  | insert key value => exact ⟨_, rfl, h.insert key value, hop⟩
  | remove key => exact ⟨_, rfl, h.remove key, hop⟩
  | snapshot => exact ⟨_, rfl, h.snapshot, hop⟩
  | commit =>
    obtain ⟨t, held, hheld⟩ := exists_cons_of_length_pos hop.1
    obtain ⟨m, hm, hr⟩ := h.commit hheld
    refine ⟨⟨m, held⟩, ?_, hr, ?_⟩
    · simp [MapSession.perform, hheld, hm]
    · simpa [hheld] using hop.2
  | rollbackTo =>
    obtain ⟨t, held, hheld⟩ := exists_cons_of_length_pos hop.1
    obtain ⟨m, hm, hr⟩ := h.rollbackTo hheld
    refine ⟨⟨m, held⟩, ?_, hr, ?_⟩
    · simp [MapSession.perform, hheld, hm]
    · simpa [hheld] using hop.2
  | partialRollback i f =>
    have hi := getElem?_eq_getElem hop.1
    obtain ⟨m, hm, hr⟩ := h.partialRollback hi f
    refine ⟨{ s with map := m }, ?_, hr, hop.2⟩
    simp [MapSession.perform, hi, hm]

end

theorem foldlM_perform : ∀ {ops : List (MapOp K V)} {s : MapSession K V} {r : Copies K V},
    Represents s r → WellNested s.held.length ops →
      ∃ s', ops.foldlM MapSession.perform s = .ok s' ∧ Represents s' (ops.foldl Copies.perform r)
  | [], s, _, h, _ => ⟨s, rfl, h⟩
  | op :: ops, s, r, h, hops => by
    obtain ⟨s1, h1, hr1, hops1⟩ := h.perform hops
    obtain ⟨s', h', hr'⟩ := foldlM_perform hr1 hops1
    refine ⟨s', ?_, hr'⟩
    rw [foldlM_cons, h1]
    exact h'

end Represents

/-- A well-nested session passes every assertion, and the map holds what the copies say. -/
theorem run_refines (ops : List (MapOp K V)) (h : WellNested 0 ops) :
    ∃ s, MapSession.run ops = .ok s ∧ ∀ k, s.map.get k = (Copies.run ops).contents k := by
  obtain ⟨s, hs, hr⟩ := Represents.of_empty.foldlM_perform h
  exact ⟨s, hs, congrFun hr.contents⟩

/-- An insertion between two nested snapshots that a partial rollback takes back. -/
def sampleOps : List (MapOp Nat Nat) :=
  [.insert 1 5, .snapshot, .insert 1 7, .snapshot, .remove 1, .partialRollback 0 (· == 1),
    .rollbackTo, .rollbackTo]

theorem run_refines_sample :
    ∃ s, MapSession.run sampleOps = .ok s ∧ ∀ k, s.map.get k = (Copies.run sampleOps).contents k :=
  run_refines sampleOps (by simp [WellNested, sampleOps])

/-- A partial rollback to an outer snapshot reaches through an inner one that is open: going back to
the inner one then does not give what the map was when it was taken. -/
theorem rollbackTo_after_outer :
    WellNested 0 [MapOp.snapshot, .insert 1 7, .snapshot, .partialRollback 1 fun _ => true,
      .rollbackTo] ∧
    (MapSession.run [MapOp.snapshot, .insert 1 7]).map (fun s => s.map.get 1) = .ok (some 7) ∧
    (MapSession.run [MapOp.snapshot, .insert 1 7, .snapshot, .partialRollback 1 fun _ => true,
      .rollbackTo]).map (fun s => s.map.get 1) = .ok none := by
  refine ⟨by simp [WellNested], rfl, rfl⟩

end SnapshotMap

end Tortis
