import Tortis.Collections.Deque.Pair
import Tortis.Collections.Deque.Insert

/-!
# The ring buffer is a list

Any number of deques are used by a sequence of operations (`Op`), which are the methods of one deque
(`Method`) and those that make a deque or read another. `spec` says what an operation does to lists.
A run on ring buffers does what the run on lists does (`run_refines`): what it returns, and what the
deques then show, is the same, and it halts for a documented reason only, so no block copy of it is
out of bounds or reads an uninitialised slot.
-/

namespace Tortis.Collections.VecDeque

open Outcome List VecDeque

variable {α β γ σ : Type}

/-! ## Operations -/

/-- A method of one deque. Closures share a state, and a drain is consumed from the given ends before
it is dropped. -/
inductive Method (α σ : Type) where
  | pushFront (value : α)
  | pushBack (value : α)
  | popFront
  | popBack
  | insert (index : Nat) (value : α)
  | remove (index : Nat)
  | swap (i j : Nat)
  | swapRemoveFront (index : Nat)
  | swapRemoveBack (index : Nat)
  | truncate (len : Nat)
  | retain (f : σ → α → Bool × σ)
  | resizeWith (newLen : Nat) (generator : σ → α × σ)
  | rotateLeft (mid : Nat)
  | rotateRight (k : Nat)
  | reserve (additional : Nat)
  | shrinkTo (minCapacity : Nat)
  | drain (start end_ : Bound) (ends : List Bool)

/-- An operation on some deques, which are named by their places. -/
inductive Op (α σ : Type) where
  | withCapacity (capacity : Nat)
  | call (i : Nat) (method : Method α σ)
  | splitOff (i : Nat) (atIndex : Nat)
  | append (i j : Nat)
  | cloneFrom (i j : Nat) (clone : α → α)

/-- What a method returns, and what it leaves. -/
abbrev Result (α σ S : Type) := List (Option α) × S × σ

def Method.run (elemSize : Nat) (d : VecDeque α) (s : σ) :
    Method α σ → Outcome (Result α σ (VecDeque α))
  | pushFront value => do let d ← d.pushFront elemSize value; .ok ([], d, s)
  | pushBack value => do let d ← d.pushBack elemSize value; .ok ([], d, s)
  | popFront => do let (elt, d) ← d.popFront; .ok ([elt], d, s)
  | popBack => do let (elt, d) ← d.popBack; .ok ([elt], d, s)
  | insert index value => do let d ← d.insert elemSize index value; .ok ([], d, s)
  | remove index => do let (elt, d) ← d.remove index; .ok ([elt], d, s)
  | swap i j => do let d ← d.swap i j; .ok ([], d, s)
  | swapRemoveFront index => do let (elt, d) ← d.swapRemoveFront index; .ok ([elt], d, s)
  | swapRemoveBack index => do let (elt, d) ← d.swapRemoveBack index; .ok ([elt], d, s)
  | truncate len => do let d ← d.truncate len; .ok ([], d, s)
  | retain f => do let (d, s) ← d.retain f s; .ok ([], d, s)
  | resizeWith newLen generator => do
    let (d, s) ← d.resizeWith elemSize newLen generator s
    .ok ([], d, s)
  | rotateLeft mid => do let d ← d.rotateLeft mid; .ok ([], d, s)
  | rotateRight k => do let d ← d.rotateRight k; .ok ([], d, s)
  | reserve additional => do let d ← d.reserve elemSize additional; .ok ([], d, s)
  | shrinkTo minCapacity => do let d ← d.shrinkTo minCapacity; .ok ([], d, s)
  | drain start end_ ends => do let (elts, d) ← d.drainTake start end_ ends; .ok (elts, d, s)

def Method.spec (l : List α) (s : σ) : Method α σ → Outcome (Result α σ (List α))
  | pushFront value => .ok ([], value :: l, s)
  | pushBack value => .ok ([], l ++ [value], s)
  | popFront => .ok ([l.head?], l.tail, s)
  | popBack => .ok ([l.getLast?], l.dropLast, s)
  | insert index value => do
    assert (index ≤ l.length) "index out of bounds"
    .ok ([], l.insertIdx index value, s)
  | remove index => .ok ([l[index]?], l.eraseIdx index, s)
  | swap i j => do
    assert (i < l.length) "assertion failed: i < self.len()"
    assert (j < l.length) "assertion failed: j < self.len()"
    .ok ([], Slice.exchange l i j, s)
  | swapRemoveFront index =>
    .ok ([l[index]?], if index < l.length then (Slice.exchange l index 0).tail else l, s)
  | swapRemoveBack index =>
    .ok ([l[index]?],
      if index < l.length then (Slice.exchange l index (l.length - 1)).dropLast else l, s)
  | truncate len => .ok ([], l.take len, s)
  | retain f => .ok ([], (retained f l s).1, (retained f l s).2)
  | resizeWith newLen generator =>
    .ok ([], l.take newLen ++ (generated generator (newLen - l.length) s).1,
      (generated generator (newLen - l.length) s).2)
  | rotateLeft mid => do
    assert (mid ≤ l.length) "assertion failed: mid <= self.len()"
    .ok ([], l.drop mid ++ l.take mid, s)
  | rotateRight k => do
    assert (k ≤ l.length) "assertion failed: k <= self.len()"
    .ok ([], l.drop (l.length - k) ++ l.take (l.length - k), s)
  | reserve _ => .ok ([], l, s)
  | shrinkTo _ => .ok ([], l, s)
  | drain start end_ ends => do
    let start ← start.start
    let end_ ← end_.end_ l.length
    assert (start ≤ end_) "drain lower bound was too large"
    assert (end_ ≤ l.length) "drain upper bound was too large"
    .ok ((takeEnds ((l.drop start).take (end_ - start)) ends).1, l.take start ++ l.drop end_, s)

section
variable {S : Type}

/-- A deque by its place. -/
def pick (pool : List S) (i : Nat) : Outcome S := expect "no such deque" pool[i]?

/-- Two deques, of which one is written: they are not the same. -/
def pickTwo (pool : List S) (i j : Nat) : Outcome (S × S) := do
  assert (i ≠ j) "a deque is borrowed twice"
  let a ← pick pool i
  let b ← pick pool j
  .ok (a, b)

end

def Op.run (elemSize : Nat) (pool : List (VecDeque α)) (s : σ) :
    Op α σ → Outcome (Result α σ (List (VecDeque α)))
  | withCapacity capacity => do
    let d ← VecDeque.withCapacity elemSize capacity
    .ok ([], pool ++ [d], s)
  | call i method => do
    let d ← pick pool i
    let (elts, d, s) ← method.run elemSize d s
    .ok (elts, pool.set i d, s)
  | splitOff i atIndex => do
    let d ← pick pool i
    let (d, other) ← d.splitOff elemSize atIndex
    .ok ([], pool.set i d ++ [other], s)
  | append i j => do
    let (d, other) ← pickTwo pool i j
    let (d, other) ← d.append elemSize other
    .ok ([], (pool.set i d).set j other, s)
  | cloneFrom i j clone => do
    let (d, other) ← pickTwo pool i j
    let d ← d.cloneFrom elemSize clone other
    .ok ([], pool.set i d, s)

def Op.spec (pool : List (List α)) (s : σ) : Op α σ → Outcome (Result α σ (List (List α)))
  | withCapacity _ => .ok ([], pool ++ [[]], s)
  | call i method => do
    let l ← pick pool i
    let (elts, l, s) ← method.spec l s
    .ok (elts, pool.set i l, s)
  | splitOff i atIndex => do
    let l ← pick pool i
    assert (atIndex ≤ l.length) "`at` out of bounds"
    .ok ([], pool.set i (l.take atIndex) ++ [l.drop atIndex], s)
  | append i j => do
    let (l, m) ← pickTwo pool i j
    .ok ([], (pool.set i (l ++ m)).set j [], s)
  | cloneFrom i j clone => do
    let (_, m) ← pickTwo pool i j
    .ok ([], pool.set i (m.map clone), s)

/-- Operations in their order, and what they return. -/
def runAll {S : Type} (step : S → σ → Op α σ → Outcome (Result α σ S)) :
    S → σ → List (Op α σ) → Outcome (List (List (Option α)) × S × σ)
  | pool, s, [] => .ok ([], pool, s)
  | pool, s, op :: ops => do
    let (elts, pool, s) ← step pool s op
    let (outputs, pool, s) ← runAll step pool s ops
    .ok (elts :: outputs, pool, s)

/-! ## Simulation -/

/-- The panics that are documented, and the use of a deque that a program cannot express. -/
def documented : List Halt := List.map .panic [
  "index out of bounds", "assertion failed: i < self.len()", "assertion failed: j < self.len()",
  "assertion failed: mid <= self.len()", "assertion failed: k <= self.len()",
  "drain lower bound was too large", "drain upper bound was too large",
  "attempt to add with overflow", "`at` out of bounds", "no such deque",
  "a deque is borrowed twice"]

/-- The panics that depend on the memory of a deque: a list has none of them. -/
def ofMemory : List Halt :=
  List.map .panic ["capacity overflow", "Tried to shrink to a larger capacity"]

/-- A run on ring buffers does what the one on lists does, or halts because of its memory. -/
def Simulates (x : Outcome β) (y : Outcome γ) (R : β → γ → Prop) : Prop :=
  match x with
  | .ok b => ∃ c, y = .ok c ∧ R b c
  | .error h => h ∈ ofMemory ∨ (y = .error h ∧ h ∈ documented)

section
variable {x : Outcome β} {R : β → γ → Prop} {c : γ}

theorem Simulates.of_grows (h : Grows x fun b => R b c) : Simulates x (.ok c) R := by
  cases x with
  | ok b => exact ⟨c, rfl, h⟩
  | error e => exact .inl (h ▸ mem_cons_self)

theorem Simulates.of_ok (h : ∃ b, x = .ok b ∧ R b c) : Simulates x (.ok c) R := by
  obtain ⟨b, rfl, hb⟩ := h
  exact ⟨c, rfl, hb⟩

theorem Simulates.bind {γ' β' : Type} {y : Outcome γ} {f : β → Outcome β'} {g : γ → Outcome γ'}
    {Q : β' → γ' → Prop} (hx : Simulates x y R)
    (hf : ∀ b c, R b c → Simulates (f b) (g c) Q) : Simulates (x >>= f) (y >>= g) Q := by
  cases x with
  | ok b =>
    obtain ⟨c, rfl, hc⟩ := hx
    exact hf b c hc
  | error h =>
    rcases hx with hx | ⟨rfl, hx⟩
    · exact .inl hx
    · exact .inr ⟨rfl, hx⟩

theorem Simulates.assert {cond : Prop} [Decidable cond] {msg : String} {y : Outcome γ}
    (hmsg : Halt.panic msg ∈ documented) (hok : cond → Simulates x y R)
    (herror : ¬cond → x = .error (.panic msg)) :
    Simulates x (do assert (decide cond) msg; y) R := by
  by_cases h : cond
  · rw [bind_of_assert h]
    exact hok h
  · rw [assert_error h, herror h]
    exact .inr ⟨rfl, hmsg⟩

end

/-- The results are the same, and the deques hold the lists. -/
def Agrees {S S' : Type} (R : S → S' → Prop) (r : Result α σ S) (r' : Result α σ S') : Prop :=
  r.1 = r'.1 ∧ R r.2.1 r'.2.1 ∧ r.2.2 = r'.2.2

section
variable {d : VecDeque α} {l : List α} {elemSize : Nat}

theorem checkedSucc_error {n : Nat} {h : Halt} (herror : checkedSucc n = .error h) :
    h ∈ documented := by
  rw [checkedSucc] at herror
  by_cases hn : n + 1 < 2 ^ 64
  · rw [bind_of_assert hn] at herror
    cases herror
  · rw [assert_error hn] at herror
    cases herror
    decide

theorem Bound.start_error {start : Bound} {h : Halt} (herror : start.start = .error h) :
    h ∈ documented := by
  cases start with
  | included n => cases herror
  | excluded n => exact checkedSucc_error herror
  | unbounded => cases herror

theorem Bound.end_error {end_ : Bound} {len : Nat} {h : Halt} (herror : end_.end_ len = .error h) :
    h ∈ documented := by
  cases end_ with
  | included n => exact checkedSucc_error herror
  | excluded n => cases herror
  | unbounded => cases herror

theorem drain_simulates {start end_ : Bound} {ends : List Bool} (hrep : Rep d l) (s : σ) :
    Simulates (Method.run elemSize d s (.drain start end_ ends))
      (Method.spec l s (.drain start end_ ends)) (Agrees Rep) := by
  rw [Method.run, Method.spec]
  cases hstart : start.start with
  | error h =>
    have hdrain : d.drainTake start end_ ends = .error h := by
      rw [drainTake, drain, hstart]
      rfl
    rw [hdrain]
    exact .inr ⟨rfl, Bound.start_error hstart⟩
  | ok a =>
  cases hend : end_.end_ l.length with
  | error h =>
    have hdrain : d.drainTake start end_ ends = .error h := by
      rw [drainTake, drain, hstart, ok_bind, hrep.len_eq, hend]
      rfl
    rw [hdrain]
    exact .inr ⟨rfl, Bound.end_error hend⟩
  | ok b =>
  refine .assert (by decide) (fun hle => .assert (by decide) (fun hlen => ?_) fun hlen => ?_)
    fun hle => ?_
  · have hl : l = l.take a ++ ((l.drop a).take (b - a) ++ l.drop b) := by
      rw [← Nat.sub_add_cancel hle, add_comm, ← drop_drop, Nat.add_sub_cancel_left,
        take_append_drop, take_append_drop]
    have htake : (l.take a).length = a := length_take_of_le (by omega)
    have hmid : ((l.drop a).take (b - a)).length = b - a :=
      length_take_of_le (by rw [length_drop]; omega)
    obtain ⟨d', hdrain, -, hrep'⟩ := @drainTake_ok _ d (l.take a) (l.drop b) start end_
      ((l.drop a).take (b - a)) ends (hl ▸ hrep) (by rw [hstart, htake])
      (by rw [← hl, hend, htake, hmid]; congr 1; omega)
    refine .of_ok ⟨_, by rw [hdrain, ok_bind], rfl, hrep', rfl⟩
  · rw [drainTake, drain, hrep.len_eq, hstart, ok_bind, hend, ok_bind,
      bind_of_assert hle, assert_error hlen]
    rfl
  · rw [drainTake, drain, hrep.len_eq, hstart, ok_bind, hend, ok_bind, assert_error hle]
    rfl

theorem method_simulates (hsize : 0 < elemSize) (hrep : Rep d l) (s : σ) (method : Method α σ) :
    Simulates (method.run elemSize d s) (method.spec l s) (Agrees Rep) := by
  cases method with
  | pushFront value =>
    exact .of_grows ((pushFront_grows hsize hrep value).bind fun _ hrep' => ⟨rfl, hrep', rfl⟩)
  | pushBack value =>
    exact .of_grows ((pushBack_grows hsize hrep value).bind fun _ hrep' => ⟨rfl, hrep', rfl⟩)
  | popFront =>
    obtain ⟨d', hpop, hrep', -⟩ := popFront_ok hrep
    exact .of_ok ⟨_, by rw [Method.run, hpop, ok_bind], rfl, hrep', rfl⟩
  | popBack =>
    obtain ⟨d', hpop, hrep', -⟩ := popBack_ok hrep
    exact .of_ok ⟨_, by rw [Method.run, hpop, ok_bind], rfl, hrep', rfl⟩
  | insert index value =>
    refine .assert (by decide) (fun hindex => ?_) fun hindex => ?_
    · exact .of_grows ((insert_grows hsize hrep hindex value).bind fun _ hrep' => ⟨rfl, hrep', rfl⟩)
    · rw [Method.run, VecDeque.insert, hrep.len_eq, assert_error hindex]
      rfl
  | remove index =>
    obtain ⟨d', hremove, hrep'⟩ := @remove_ok _ d l index hrep
    exact .of_ok ⟨_, by rw [Method.run, hremove, ok_bind], rfl, hrep', rfl⟩
  | swap i j =>
    refine .assert (by decide) (fun hi => .assert (by decide) (fun hj => ?_) fun hj => ?_) fun hi => ?_
    · obtain ⟨d', hswap, hrep', -⟩ := swap_ok hrep hi hj
      exact .of_ok ⟨_, by rw [Method.run, hswap, ok_bind], rfl, hrep', rfl⟩
    · rw [Method.run, swap, hrep.len_eq, bind_of_assert hi, assert_error hj]
      rfl
    · rw [Method.run, swap, hrep.len_eq, assert_error hi]
      rfl
  | swapRemoveFront index =>
    obtain ⟨d', hswap, hrep'⟩ := swapRemoveFront_ok hrep index
    exact .of_ok ⟨_, by rw [Method.run, hswap, ok_bind], rfl, hrep', rfl⟩
  | swapRemoveBack index =>
    obtain ⟨d', hswap, hrep'⟩ := swapRemoveBack_ok hrep index
    exact .of_ok ⟨_, by rw [Method.run, hswap, ok_bind], rfl, hrep', rfl⟩
  | truncate len =>
    obtain ⟨d', htruncate, hrep', -⟩ := @truncate_ok _ d l len hrep
    exact .of_ok ⟨_, by rw [Method.run, htruncate, ok_bind], rfl, hrep', rfl⟩
  | retain f =>
    obtain ⟨d', hretain, hrep'⟩ := @retain_ok _ _ d l f hrep s
    exact .of_ok ⟨_, by rw [Method.run, hretain, ok_bind], rfl, hrep', rfl⟩
  | resizeWith newLen generator =>
    exact .of_grows ((resizeWith_grows hsize hrep s).bind fun _ h => ⟨rfl, h⟩)
  | rotateLeft mid =>
    refine .assert (by decide) (fun hmid => ?_) fun hmid => ?_
    · obtain ⟨d', hrotate, hrep'⟩ := rotateLeft_ok hrep hmid
      exact .of_ok ⟨_, by rw [Method.run, hrotate, ok_bind], rfl, hrep', rfl⟩
    · rw [Method.run, rotateLeft, hrep.len_eq, assert_error hmid]
      rfl
  | rotateRight k =>
    refine .assert (by decide) (fun hk => ?_) fun hk => ?_
    · obtain ⟨d', hrotate, hrep'⟩ := rotateRight_ok hrep hk
      exact .of_ok ⟨_, by rw [Method.run, hrotate, ok_bind], rfl, hrep', rfl⟩
    · rw [Method.run, rotateRight, hrep.len_eq, assert_error hk]
      rfl
  | reserve additional =>
    exact .of_grows ((reserve_grows hsize hrep).bind fun _ hrep' => ⟨rfl, hrep', rfl⟩)
  | shrinkTo minCapacity =>
    by_cases hmin : minCapacity ≤ d.capacity
    · obtain ⟨d', hshrink, hrep'⟩ := shrinkTo_ok hrep hmin
      exact .of_ok ⟨_, by rw [Method.run, hshrink, ok_bind], rfl, hrep', rfl⟩
    · rw [Method.run, shrinkTo, assert_error hmin]
      exact .inl (by decide)
  | drain start end_ ends => exact drain_simulates hrep s

end

/-! ## Pools -/

section
variable {S S' : Type} {Q : S → S' → Prop} {pool : List S} {pool' : List S'}

section
variable (hpool : List.Forall₂ Q pool pool')
include hpool

theorem pick_simulates (i : Nat) : Simulates (pick pool i) (pick pool' i) Q := by
  induction hpool generalizing i with
  | nil => exact .inr ⟨rfl, by decide⟩
  | cons hd _ ih =>
    cases i with
    | zero => exact ⟨_, rfl, hd⟩
    | succ i => exact ih i

theorem pickTwo_simulates (i j : Nat) :
    Simulates (pickTwo pool i j) (pickTwo pool' i j) fun p q => Q p.1 q.1 ∧ Q p.2 q.2 := by
  refine .assert (by decide) (fun hne => ?_) fun heq => assert_error heq
  rw [pickTwo, bind_of_assert hne]
  refine .bind (pick_simulates hpool i) fun d l hd => ?_
  exact .bind (pick_simulates hpool j) fun e m he => ⟨_, rfl, hd, he⟩

theorem forall₂_set (i : Nat) {d : S} {l : S'} (hd : Q d l) :
    List.Forall₂ Q (pool.set i d) (pool'.set i l) := by
  induction hpool generalizing i with
  | nil => exact .nil
  | cons he htail ih =>
    cases i with
    | zero => exact .cons hd htail
    | succ i => exact .cons he (ih i)

end

end

section
variable {elemSize : Nat} {pool : List (VecDeque α)} {lists : List (List α)}

theorem op_simulates (hsize : 0 < elemSize) (hpool : List.Forall₂ Rep pool lists) (s : σ)
    (op : Op α σ) :
    Simulates (op.run elemSize pool s) (op.spec lists s) (Agrees (List.Forall₂ Rep)) := by
  cases op with
  | withCapacity capacity =>
    exact .of_grows ((withCapacity_grows hsize).bind fun d h =>
      ⟨rfl, rel_append hpool (.cons h.1 .nil), rfl⟩)
  | call i method =>
    refine .bind (pick_simulates hpool i) fun d l hrep => ?_
    exact .bind (method_simulates hsize hrep s method) fun r r' h =>
      ⟨_, rfl, h.1, forall₂_set hpool i h.2.1, h.2.2⟩
  | splitOff i atIndex =>
    refine .bind (pick_simulates hpool i) fun d l hrep => ?_
    refine .assert (by decide) (fun hat => ?_) fun hat => ?_
    · exact .of_grows ((splitOff_grows hsize hrep hat).bind fun r h =>
        ⟨rfl, rel_append (forall₂_set hpool i h.1) (.cons h.2 .nil), rfl⟩)
    · rw [splitOff, hrep.len_eq, assert_error hat]
      rfl
  | append i j =>
    refine .bind (pickTwo_simulates hpool i j) fun r r' hrep => ?_
    exact .of_grows ((append_grows hsize hrep.1 hrep.2).bind fun r h =>
      ⟨rfl, forall₂_set (forall₂_set hpool i h.1) j h.2, rfl⟩)
  | cloneFrom i j clone =>
    refine .bind (pickTwo_simulates hpool i j) fun r r' hrep => ?_
    exact .of_grows ((cloneFrom_grows hsize hrep.1 hrep.2).bind fun d hrep' =>
      ⟨rfl, forall₂_set hpool i hrep', rfl⟩)

theorem runAll_simulates (hsize : 0 < elemSize) (ops : List (Op α σ))
    (hpool : List.Forall₂ Rep pool lists) (s : σ) :
    Simulates (runAll (Op.run elemSize) pool s ops) (runAll Op.spec lists s ops)
      fun r r' => r.1 = r'.1 ∧ List.Forall₂ Rep r.2.1 r'.2.1 ∧ r.2.2 = r'.2.2 := by
  induction ops generalizing pool lists s with
  | nil => exact ⟨_, rfl, rfl, hpool, rfl⟩
  | cons op ops ih =>
    refine .bind (op_simulates hsize hpool s op) fun r r' ⟨houtput, hpool', hs⟩ => ?_
    obtain ⟨elts, pool', s'⟩ := r
    obtain ⟨elts', lists', s''⟩ := r'
    obtain rfl : elts = elts' := houtput
    obtain rfl : s' = s'' := hs
    exact .bind (ih hpool' s') fun r r' ⟨houtputs, hpool'', hs'⟩ =>
      ⟨_, rfl, congrArg _ houtputs, hpool'', hs'⟩

end

/-! ## What a deque shows -/

/-- A deque shows a list through `get`, `iter` and `as_slices`, and its layout is sound. -/
structure Shows (d : VecDeque α) (l : List α) : Prop where
  len : d.len = l.length
  get : ∀ i, d.get i = .ok l[i]?
  iter : ∀ ends, d.iter.collect d.buf ends = .ok (takeEnds l ends).1
  asSlices : ∃ front back, d.asSlices = .ok (front, back) ∧ front ++ back = l
  cap : ∃ k, 1 ≤ k ∧ d.cap = 2 ^ k
  tail_lt : d.tail < d.cap
  head_lt : d.head < d.cap

theorem Rep.shows {d : VecDeque α} {l : List α} (hrep : Rep d l) : Shows d l where
  len := hrep.len_eq
  get := get_ok hrep
  iter _ := collect_ok hrep
  asSlices := by
    obtain ⟨front, back, hslices, hl, -⟩ := asSlices_ok hrep
    exact ⟨front, back, hslices, hl.symm⟩
  cap := by
    obtain ⟨k, hk, -, hcap⟩ := hrep.isCap
    exact ⟨k, hk, hcap⟩
  tail_lt := hrep.shape.tail_lt
  head_lt := hrep.shape.head_lt

end Tortis.Collections.VecDeque
