import Tortis.Collections.Deque.Elements

/-!
# Equality and hashing of ring buffers

`eq` compares the sections of two ring buffers piece by piece, and so the elements in their order,
wherever they are stored (`eq_ok`). `hash` gives each section to `hash_slice`, so an element type
that hashes a slice with one write shows the hasher where a ring buffer wraps
(`hash_agrees_iff`).
-/

namespace Tortis.Collections.VecDeque

open Outcome List

variable {α : Type} {a b : VecDeque α} {l m : List α}

/-! ## The code -/

/-- `l.split_at(mid)`. -/
def splitSlice (l : List α) (mid : Nat) : Outcome (List α × List α) := do
  assert (mid ≤ l.length) "assertion failed: mid <= len"
  .ok (l.take mid, l.drop mid)

/-- The three comparisons of `eq`: `sa` is the shorter of the two front slices. -/
def eqSections (elemEq : α → α → Bool) (sa sb oa ob : List α) : Outcome Bool := do
  let front := sa.length
  let mid := oa.length - front
  let (oaFront, oaMid) ← splitSlice oa front
  let (sbMid, sbBack) ← splitSlice sb mid
  assert (sa.length = oaFront.length) "assertion failed: `(left == right)`"
  assert (sbMid.length = oaMid.length) "assertion failed: `(left == right)`"
  assert (sbBack.length = ob.length) "assertion failed: `(left == right)`"
  .ok (sa.isEqv oaFront elemEq && sbMid.isEqv oaMid elemEq && sbBack.isEqv ob elemEq)

/-- `a == b`, where `elemEq` is the equality of the elements. -/
def eq (elemEq : α → α → Bool) (self other : VecDeque α) : Outcome Bool :=
  if self.len ≠ other.len then .ok false
  else do
    let (sa, sb) ← self.asSlices
    let (oa, ob) ← other.asSlices
    if sa.length = oa.length then .ok (sa.isEqv oa elemEq && sb.isEqv ob elemEq)
    else if sa.length < oa.length then eqSections elemEq sa sb oa ob
    else eqSections (fun x y => elemEq y x) oa ob sa sb

inductive HasherCall where
  | write (bytes : List UInt8)
  | writeUsize (i : Nat)
  | writeInteger (size : Nat) (signed : Bool) (i : Int)
deriving DecidableEq

inductive HashImpl (α : Type) where
  /-- `hash_slice` is the provided method, that hashes one element after the other. -/
  | each (hash : α → List HasherCall)
  /-- `hash_slice` of an integer type: one write of all bytes. -/
  | single (bytes : α → List UInt8)

def HashImpl.hashSlice : HashImpl α → List α → List HasherCall
  | each hash, data => data.flatMap hash
  | single bytes, data => [.write (data.flatMap bytes)]

def hash (impl : HashImpl α) (self : VecDeque α) : Outcome (List HasherCall) := do
  let (a, b) ← self.asSlices
  .ok (.writeUsize self.len :: (impl.hashSlice a ++ impl.hashSlice b))

/-! ## Equality -/

theorem isEqv_append {elemEq : α → α → Bool} {l1 l2 m1 m2 : List α} (h : l1.length = m1.length) :
    (l1 ++ l2).isEqv (m1 ++ m2) elemEq = (l1.isEqv m1 elemEq && l2.isEqv m2 elemEq) := by
  induction l1 generalizing m1 with
  | nil =>
    obtain rfl := length_eq_zero_iff.1 h.symm
    rfl
  | cons x l1 ih =>
    cases m1 with
    | nil => cases h
    | cons y m1 => simp [List.isEqv, ih (Nat.succ.inj h), Bool.and_assoc]

theorem length_of_isEqv {elemEq : α → α → Bool} (h : l.isEqv m elemEq = true) :
    l.length = m.length := by
  rw [isEqv_eq_decide] at h
  split at h
  · assumption
  · cases h

section
variable (elemEq : α → α → Bool)

theorem isEqv_flip (l m : List α) : l.isEqv m (fun x y => elemEq y x) = m.isEqv l elemEq := by
  induction l generalizing m with
  | nil => cases m <;> rfl
  | cons x l ih => cases m with
    | nil => rfl
    | cons y m => simp [List.isEqv, ih]

theorem eqSections_ok {sa sb oa ob : List α}
    (h : sa.length + sb.length = oa.length + ob.length) (hlt : sa.length < oa.length) :
    eqSections elemEq sa sb oa ob = .ok ((sa ++ sb).isEqv (oa ++ ob) elemEq) := by
  have hoa : (oa.take sa.length).length = sa.length := by simp; omega
  have hsb : (sb.take (oa.length - sa.length)).length = oa.length - sa.length := by simp; omega
  have hparts : (sa ++ sb).isEqv (oa ++ ob) elemEq = (sa.isEqv (oa.take sa.length) elemEq &&
      (sb.take (oa.length - sa.length)).isEqv (oa.drop sa.length) elemEq &&
      (sb.drop (oa.length - sa.length)).isEqv ob elemEq) := by
    conv_lhs => rw [← take_append_drop sa.length oa,
      ← take_append_drop (oa.length - sa.length) sb, append_assoc]
    rw [isEqv_append hoa.symm, isEqv_append (by simp [hsb]), Bool.and_assoc]
  have hoa' : splitSlice oa sa.length = .ok (oa.take sa.length, oa.drop sa.length) := by
    rw [splitSlice, assert_ok (by simp; omega), ok_bind]
  have hsb' : splitSlice sb (oa.length - sa.length) =
      .ok (sb.take (oa.length - sa.length), sb.drop (oa.length - sa.length)) := by
    rw [splitSlice, assert_ok (by simp; omega), ok_bind]
  simp only [eqSections, hoa', hsb', ok_bind]
  rw [assert_ok (by simp [hoa]), ok_bind, assert_ok (by simp; omega), ok_bind,
    assert_ok (by simp; omega), ok_bind, hparts]

/-- Equality compares the elements in their order, wherever they are stored. -/
theorem eq_ok (ha : Rep a l) (hb : Rep b m) : eq elemEq a b = .ok (l.isEqv m elemEq) := by
  rw [eq, ha.len_eq, hb.len_eq]
  split
  · next hne =>
    cases heqv : l.isEqv m elemEq with
    | false => rfl
    | true => exact absurd (length_of_isEqv heqv) hne
  · next hlen =>
    obtain ⟨sa, sb, hsa, rfl, -, -⟩ := asSlices_ok ha
    obtain ⟨oa, ob, hoa, rfl, -, -⟩ := asSlices_ok hb
    rw [ne_eq, not_not, length_append, length_append] at hlen
    simp only [hsa, hoa, ok_bind]
    split
    · next hfront => rw [isEqv_append hfront]
    · split
      · next hlt => exact eqSections_ok elemEq hlen hlt
      · rw [eqSections_ok _ hlen.symm (by omega), isEqv_flip]

/-! ## Hashing -/

/-- Equal elements hash equally. An integer has a number of bytes, which is not zero. -/
def HashImpl.Lawful : HashImpl α → Prop
  | each hash => ∀ x y, elemEq x y = true → hash x = hash y
  | single bytes => (∃ size, 0 < size ∧ ∀ x, (bytes x).length = size) ∧
      ∀ x y, elemEq x y = true → bytes x = bytes y

end

theorem flatMap_congr_of_isEqv {β : Type} {elemEq : α → α → Bool} {f : α → List β}
    (hf : ∀ x y, elemEq x y = true → f x = f y) (h : l.isEqv m elemEq = true) :
    l.flatMap f = m.flatMap f := by
  induction l generalizing m with
  | nil => cases m with
    | nil => rfl
    | cons y m => cases h
  | cons x l ih => cases m with
    | nil => cases h
    | cons y m =>
      rw [List.isEqv, Bool.and_eq_true] at h
      rw [flatMap_cons, flatMap_cons, hf x y h.1, ih h.2]

theorem length_flatMap_const {β : Type} {f : α → List β} {size : Nat}
    (hf : ∀ x, (f x).length = size) (l : List α) : (l.flatMap f).length = l.length * size := by
  induction l with
  | nil => simp
  | cons x l ih => simp [ih, hf, Nat.succ_mul, add_comm]

/-- How many elements are stored before the ring buffer wraps. -/
def frontLen (self : VecDeque α) : Nat := (sections self.cap self.tail self.head).1.len

/-- Equal ring buffers hash equally if and only if slices are hashed element by element or both
wrap after the same number of elements. -/
theorem hash_agrees_iff {elemEq : α → α → Bool} {impl : HashImpl α} (himpl : impl.Lawful elemEq)
    (ha : Rep a l) (hb : Rep b m) (heq : eq elemEq a b = .ok true) :
    ∃ callsA callsB, hash impl a = .ok callsA ∧ hash impl b = .ok callsB ∧
      (callsA = callsB ↔ (∃ hash, impl = .each hash) ∨ a.frontLen = b.frontLen) := by
  rw [eq_ok elemEq ha hb, Except.ok.injEq] at heq
  have hlen := length_of_isEqv heq
  obtain ⟨sa, sb, hsa, rfl, hfa, -⟩ := asSlices_ok ha
  obtain ⟨oa, ob, hoa, rfl, hfb, -⟩ := asSlices_ok hb
  refine ⟨_, _, by rw [hash, hsa, ok_bind], by rw [hash, hoa, ok_bind], ?_⟩
  rw [ha.len_eq, hb.len_eq, hlen, frontLen, frontLen, ← hfa, ← hfb, List.cons.injEq]
  cases impl with
  | each hash =>
    have hcalls := flatMap_congr_of_isEqv himpl heq
    simp [HashImpl.hashSlice, ← flatMap_append, hcalls]
  | single bytes =>
    obtain ⟨⟨size, hsize, hbytes⟩, hcongr⟩ := himpl
    simp only [HashImpl.hashSlice, reduceCtorEq, exists_const, false_or, true_and,
      cons_append, nil_append, List.cons.injEq, HasherCall.write.injEq, and_true]
    constructor
    · rintro ⟨hfront, -⟩
      have := congrArg List.length hfront
      rw [length_flatMap_const hbytes, length_flatMap_const hbytes] at this
      exact Nat.eq_of_mul_eq_mul_right hsize this
    · intro hfront
      rw [isEqv_append hfront, Bool.and_eq_true] at heq
      exact ⟨flatMap_congr_of_isEqv hcongr heq.1, flatMap_congr_of_isEqv hcongr heq.2⟩

namespace Sample

def straight : VecDeque UInt8 := ⟨0, 2, [some 1, some 2, none, none]⟩

def wrapped : VecDeque UInt8 := ⟨3, 1, [some 2, none, none, some 1]⟩

def byte : HashImpl UInt8 := .single fun b => [b]

theorem rep_straight : Rep straight [1, 2] :=
  .of_slots rfl ⟨2, by decide, by decide, rfl⟩ ⟨by decide, by decide, rfl⟩ (by decide)

theorem rep_wrapped : Rep wrapped [1, 2] :=
  .of_slots rfl ⟨2, by decide, by decide, rfl⟩ ⟨by decide, by decide, rfl⟩ (by decide)

end Sample

open Sample

theorem hash_agrees_iff_wrapped : ∃ callsA callsB,
    hash byte straight = .ok callsA ∧ hash byte wrapped = .ok callsB ∧
      (callsA = callsB ↔ (∃ hash, byte = .each hash) ∨
        straight.frontLen = wrapped.frontLen) :=
  @hash_agrees_iff UInt8 _ _ _ _ (fun x y => x == y) _
    ⟨⟨1, Nat.one_pos, fun _ => rfl⟩, fun _ _ h => by rw [eq_of_beq h]⟩
    rep_straight rep_wrapped (by decide)

theorem hash_tells_wrapped : eq (fun x y => x == y) straight wrapped = .ok true ∧
      hash byte straight ≠ hash byte wrapped := by
  decide

end Tortis.Collections.VecDeque
