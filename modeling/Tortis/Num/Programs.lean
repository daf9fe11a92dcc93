import Tortis.Num.Division

/-!
# Bignums are natural numbers

A program makes bignums and calls the operations on them (`Op`); they are named by their places in a
pool. `spec` says what an operation does to natural numbers below a bound: it has no result when the
exact one is negative, too large, or a quotient by zero. A run on bignums that returns does what the
run on numbers does, and a run of which the numbers have no result halts (`run_exact`).
-/

namespace Tortis.Num

open Big Outcome List

variable {t n : Nat}

/-- An operation on some bignums. -/
inductive Op (t : Nat) where
  | fromSmall (v : Digit t)
  | fromU64 (v : BitVec 64)
  | clone (i : Nat)
  | add (i j : Nat)
  | addSmall (i : Nat) (other : Digit t)
  | sub (i j : Nat)
  | mulSmall (i : Nat) (other : Digit t)
  | mulPow2 (i bits : Nat)
  | mulPow5 (i e : Nat)
  | mulDigits (i : Nat) (other : List (Digit t))
  | divRemSmall (i : Nat) (other : Digit t)
  | divRem (i d q r : Nat)

section
variable {S : Type}

/-- A bignum by its place. -/
def pick (pool : List S) (i : Nat) : Outcome S := expect "no such bignum" pool[i]?

/-- Two bignums, of which one is written: they are not the same. -/
def pickTwo (pool : List S) (i j : Nat) : Outcome (S × S) := do
  assert (i ≠ j) "a bignum is borrowed twice"
  let x ← pick pool i
  let y ← pick pool j
  .ok (x, y)

end

/-- An operation on bignums, with the remainder that it returns. -/
def Op.run (debug : Bool) (pool : List (Big t n)) :
    Op t → Outcome (Option Nat × List (Big t n))
  | fromSmall v => do let x ← Big.fromSmall v; .ok (none, pool ++ [x])
  | fromU64 v => do let x ← Big.fromU64 v; .ok (none, pool ++ [x])
  | clone i => do let x ← pick pool i; .ok (none, pool ++ [x])
  | add i j => do let (x, y) ← pickTwo pool i j; let x ← x.add y; .ok (none, pool.set i x)
  | addSmall i other => do let x ← pick pool i; let x ← x.addSmall other; .ok (none, pool.set i x)
  | sub i j => do let (x, y) ← pickTwo pool i j; let x ← x.sub y; .ok (none, pool.set i x)
  | mulSmall i other => do let x ← pick pool i; let x ← x.mulSmall other; .ok (none, pool.set i x)
  | mulPow2 i bits => do let x ← pick pool i; let x ← x.mulPow2 debug bits; .ok (none, pool.set i x)
  | mulPow5 i e => do let x ← pick pool i; let x ← x.mulPow5 e; .ok (none, pool.set i x)
  | mulDigits i other => do
    let x ← pick pool i
    let x ← x.mulDigits other
    .ok (none, pool.set i x)
  | divRemSmall i other => do
    let x ← pick pool i
    let (x, rem) ← x.divRemSmall debug other
    .ok (some rem.toNat, pool.set i x)
  | divRem i d q r => do
    let x ← pick pool i
    let d ← pick pool d
    let (q₀, r₀) ← pickTwo pool q r
    let (q', r') ← x.divRem debug d q₀ r₀
    .ok (none, (pool.set q q').set r r')

/-- A number below the bound. -/
def fit (bound k : Nat) : Option Nat := if k < bound then some k else none

/-- An operation on natural numbers below a bound, with the remainder that it returns. -/
def Op.spec (bound : Nat) (pool : List Nat) : Op t → Option (Option Nat × List Nat)
  | fromSmall v => do let x ← fit bound v.toNat; some (none, pool ++ [x])
  | fromU64 v => do let x ← fit bound v.toNat; some (none, pool ++ [x])
  | clone i => do let x ← pool[i]?; some (none, pool ++ [x])
  | add i j => do
    let x ← pool[i]?
    let y ← pool[j]?
    let z ← fit bound (x + y)
    some (none, pool.set i z)
  | addSmall i other => do
    let x ← pool[i]?
    let z ← fit bound (x + other.toNat)
    some (none, pool.set i z)
  | sub i j => do
    let x ← pool[i]?
    let y ← pool[j]?
    if y ≤ x then some (none, pool.set i (x - y)) else none
  | mulSmall i other => do
    let x ← pool[i]?
    let z ← fit bound (other.toNat * x)
    some (none, pool.set i z)
  | mulPow2 i bits => do
    let x ← pool[i]?
    let z ← fit bound (2 ^ bits * x)
    some (none, pool.set i z)
  | mulPow5 i e => do
    let x ← pool[i]?
    let z ← fit bound (5 ^ e * x)
    some (none, pool.set i z)
  | mulDigits i other => do
    let x ← pool[i]?
    let z ← fit bound (x * valueOfList other)
    some (none, pool.set i z)
  | divRemSmall i other => do
    let x ← pool[i]?
    if 0 < other.toNat then some (some (x % other.toNat), pool.set i (x / other.toNat)) else none
  | divRem i d q r => do
    let x ← pool[i]?
    let d ← pool[d]?
    if 0 < d then some (none, (pool.set q (x / d)).set r (x % d)) else none

/-- A program on bignums, with the remainders that its operations return. -/
def run (debug : Bool) : List (Op t) → List (Big t n) → Outcome (List (Option Nat) × List (Big t n))
  | [], pool => .ok ([], pool)
  | op :: ops, pool => do
    let (rem, pool) ← op.run debug pool
    let (rems, pool) ← run debug ops pool
    .ok (rem :: rems, pool)

/-- A program on natural numbers below a bound. -/
def spec (bound : Nat) : List (Op t) → List Nat → Option (List (Option Nat) × List Nat)
  | [], pool => some ([], pool)
  | op :: ops, pool => do
    let (rem, pool) ← op.spec bound pool
    let (rems, pool) ← spec bound ops pool
    some (rem :: rems, pool)

/-! ## A run on bignums is a run on numbers -/

/-- All bignums of the pool are ones that `define_bignum!` describes. -/
def AllOk (pool : List (Big t n)) : Prop := ∀ x ∈ pool, x.Ok

variable {pool : List (Big t n)} {x y : Big t n} {i j : Nat}

theorem AllOk.append (h : AllOk pool) (hx : x.Ok) : AllOk (pool ++ [x]) := by
  intro y hy
  obtain hy | hy := mem_append.1 hy
  · exact h y hy
  · rwa [mem_singleton.1 hy]

theorem AllOk.set (h : AllOk pool) (hx : x.Ok) (i : Nat) : AllOk (pool.set i x) := by
  intro y hy
  obtain hy | rfl := mem_or_eq_of_mem_set hy
  · exact h y hy
  · exact hx

theorem pick_ok (h : AllOk pool) (hpick : pick pool i = .ok x) :
    x.Ok ∧ (pool.map denote)[i]? = some x.denote := by
  have hx := expect_eq_ok.1 hpick
  exact ⟨h x (mem_of_getElem? hx), by rw [getElem?_map, hx]; rfl⟩

theorem pickTwo_ok {p : Big t n × Big t n} (h : AllOk pool) (hpick : pickTwo pool i j = .ok p) :
    (p.1.Ok ∧ (pool.map denote)[i]? = some p.1.denote) ∧
      p.2.Ok ∧ (pool.map denote)[j]? = some p.2.denote := by
  obtain ⟨_, -, hpick⟩ := bind_eq_ok.1 hpick
  obtain ⟨x, hx, hpick⟩ := bind_eq_ok.1 hpick
  obtain ⟨y, hy, hpick⟩ := bind_eq_ok.1 hpick
  cases hpick
  exact ⟨pick_ok h hx, pick_ok h hy⟩

/-- The bound of the numbers that a bignum denotes. -/
def limit (t n : Nat) : Nat := 2 ^ (digitBits t * n)

theorem fit_denote (x : Big t n) : fit (limit t n) x.denote = some x.denote := by
  refine if_pos ?_
  rw [limit, pow_mul]
  exact x.denote_lt

variable {p : Option Nat × List (Big t n)}

theorem made {run : Outcome (Big t n)} {k : Nat} (h : AllOk pool) (hk : Denotes run k)
    (hrun : (do let x ← run; .ok (none, pool ++ [x])) = .ok p) :
    AllOk p.2 ∧ (do let z ← fit (limit t n) k; some (none, pool.map denote ++ [z])) =
      some (p.1, p.2.map denote) := by
  obtain ⟨z, hz, hrun⟩ := bind_eq_ok.1 hrun
  obtain ⟨hok, rfl⟩ := hk z hz
  cases hrun
  refine ⟨h.append hok, ?_⟩
  rw [fit_denote, map_append]
  rfl

theorem changed {run : Outcome (Big t n)} {k : Nat} (h : AllOk pool) (hk : Denotes run k)
    (hrun : (do let x ← run; .ok (none, pool.set i x)) = .ok p) :
    AllOk p.2 ∧ (do let z ← fit (limit t n) k; some (none, (pool.map denote).set i z)) =
      some (p.1, p.2.map denote) := by
  obtain ⟨z, hz, hrun⟩ := bind_eq_ok.1 hrun
  obtain ⟨hok, rfl⟩ := hk z hz
  cases hrun
  refine ⟨h.set hok i, ?_⟩
  rw [fit_denote, map_set]
  rfl

/-- An operation that changes one bignum. -/
theorem updated {f : Big t n → Outcome (Big t n)} {g : Nat → Nat} (h : AllOk pool)
    (hf : ∀ x : Big t n, x.Ok → Denotes (f x) (g x.denote))
    (hrun : (do let x ← pick pool i; let x ← f x; .ok (none, pool.set i x)) = .ok p) :
    AllOk p.2 ∧ (do
      let x ← (pool.map denote)[i]?
      let z ← fit (limit t n) (g x)
      some (none, (pool.map denote).set i z)) = some (p.1, p.2.map denote) := by
  obtain ⟨x, hx, hrun⟩ := bind_eq_ok.1 hrun
  obtain ⟨hok, hval⟩ := pick_ok h hx
  rw [hval]
  exact changed h (hf x hok) hrun

theorem Op.run_spec (debug : Bool) (op : Op t) (h : AllOk pool) (hrun : op.run debug pool = .ok p) :
    AllOk p.2 ∧ op.spec (limit t n) (pool.map denote) = some (p.1, p.2.map denote) := by
  cases op with
  | fromSmall v => exact made h (fromSmall_denotes v) hrun
  | fromU64 v => exact made h (fromU64_denotes v) hrun
  | clone i =>
    obtain ⟨x, hx, hrun⟩ := bind_eq_ok.1 hrun
    obtain ⟨hok, hval⟩ := pick_ok h hx
    cases hrun
    refine ⟨h.append hok, ?_⟩
    rw [Op.spec, hval, map_append]
    rfl
  | add i j =>
    obtain ⟨⟨x, y⟩, hxy, hrun⟩ := bind_eq_ok.1 hrun
    obtain ⟨⟨hx, hvx⟩, hy, hvy⟩ := pickTwo_ok h hxy
    rw [Op.spec, hvx, hvy]
    exact changed h (add_exact hx hy).denotes hrun
  | addSmall i other => exact updated h (fun _ hok => addSmall_denotes hok other) hrun
  | sub i j =>
    obtain ⟨⟨x, y⟩, hxy, hrun⟩ := bind_eq_ok.1 hrun
    obtain ⟨⟨hx, hvx⟩, hy, hvy⟩ := pickTwo_ok h hxy
    obtain ⟨z, hz, hrun⟩ := bind_eq_ok.1 hrun
    cases hrun
    obtain ⟨hle, hmakes⟩ | ⟨-, e, he⟩ := sub_cases hx hy
    · obtain ⟨hok, hval⟩ := hmakes.denotes z hz
      refine ⟨h.set hok i, ?_⟩
      rw [Op.spec, hvx, hvy, map_set, hval]
      exact if_pos hle
    · rw [he] at hz
      cases hz
  | mulSmall i other => exact updated h (fun _ hok => (mulSmall_exact hok other).denotes) hrun
  | mulPow2 i bits => exact updated h (fun _ hok => mulPow2_denotes debug hok bits) hrun
  | mulPow5 i e => exact updated h (fun _ hok => mulPow5_denotes hok e) hrun
  | mulDigits i other => exact updated h (fun _ hok => mulDigits_denotes hok other) hrun
  | divRemSmall i other =>
    obtain ⟨x, hx, hrun⟩ := bind_eq_ok.1 hrun
    obtain ⟨hok, hval⟩ := pick_ok h hx
    obtain ⟨⟨z, r⟩, hz, hrun⟩ := bind_eq_ok.1 hrun
    cases hrun
    obtain ⟨_, hassert, -⟩ := bind_eq_ok.1 hz
    have hpos : 0 < other.toNat := of_decide_eq_true (assert_eq_ok.1 hassert)
    obtain ⟨z', r', hrun', hok', -, hquo, hrem⟩ := divRemSmall_spec debug hok hpos
    rw [hrun'] at hz
    cases hz
    refine ⟨h.set hok' i, ?_⟩
    rw [Op.spec, hval, map_set, hquo, hrem]
    exact if_pos hpos
  | divRem i d q r =>
    obtain ⟨x, hx, hrun⟩ := bind_eq_ok.1 hrun
    obtain ⟨hok, hval⟩ := pick_ok h hx
    obtain ⟨y, hy, hrun⟩ := bind_eq_ok.1 hrun
    obtain ⟨hok', hval'⟩ := pick_ok h hy
    obtain ⟨⟨q0, r0⟩, -, hrun⟩ := bind_eq_ok.1 hrun
    obtain ⟨⟨q', r'⟩, hdiv, hrun⟩ := bind_eq_ok.1 hrun
    cases hrun
    obtain ⟨hpos, hq, hr, hquo, hrem⟩ := divRem_denotes hok hok' hdiv
    refine ⟨(h.set hq q).set hr r, ?_⟩
    rw [Op.spec, hval, map_set, map_set, hquo, hrem]
    rw [hval']
    exact if_pos hpos

theorem run_spec (debug : Bool) :
    ∀ (ops : List (Op t)) {pool : List (Big t n)} {p : List (Option Nat) × List (Big t n)},
      AllOk pool → run debug ops pool = .ok p →
      AllOk p.2 ∧ spec (limit t n) ops (pool.map denote) = some (p.1, p.2.map denote)
  | [], pool, p, h, hrun => by
    cases hrun
    exact ⟨h, rfl⟩
  | op :: ops, pool, p, h, hrun => by
    obtain ⟨⟨rem, pool1⟩, hop, hrun⟩ := bind_eq_ok.1 hrun
    obtain ⟨⟨rems, pool2⟩, hops, hrun⟩ := bind_eq_ok.1 hrun
    cases hrun
    obtain ⟨h1, hspec⟩ := op.run_spec debug h hop
    obtain ⟨h2, hspecs⟩ := run_spec debug ops h1 hops
    refine ⟨h2, ?_⟩
    rw [spec, hspec]
    change (do let (rems, pool) ← spec _ ops (pool1.map denote); some (rem :: rems, pool)) = _
    rw [hspecs]
    rfl

/-- What is asked of a bignum is answered as for its number. -/
theorem answers_ok (hx : x.Ok) :
    x.isZero = .ok (decide (x.denote = 0)) ∧ x.bitLength = .ok x.denote.size ∧
      ∀ i, if i < digitBits t * n then x.getBit i = .ok (BitVec.ofNat 8 (x.denote.testBit i).toNat)
        else x.getBit i = .error (.panic "index out of bounds") ∧ x.denote.testBit i = false := by
  refine ⟨isZero_ok hx, bitLength_ok hx, fun i => ?_⟩
  split
  · next hi => exact getBit_ok hi
  · next hi => exact getBit_of_le (Nat.not_lt.1 hi)

/-- The bignums of a program are natural numbers. Those that it makes are as `define_bignum!`
describes, the operations that return have computed the exact results, and the comparisons and bits
are those of the numbers. A program of which an exact result is negative or needs more than `n`
digits halts. -/
theorem run_exact (debug : Bool) (ops : List (Op t)) :
    (∀ rems (pool : List (Big t n)), run debug ops [] = .ok (rems, pool) →
      AllOk pool ∧ spec (limit t n) ops [] = some (rems, pool.map denote) ∧
      ∀ x ∈ pool, (x.isZero = .ok (decide (x.denote = 0)) ∧ x.bitLength = .ok x.denote.size ∧
          ∀ i, if i < digitBits t * n then
              x.getBit i = .ok (BitVec.ofNat 8 (x.denote.testBit i).toNat)
            else x.getBit i = .error (.panic "index out of bounds") ∧ x.denote.testBit i = false) ∧
        ∀ y ∈ pool, x.cmp y = .ok (compare x.denote y.denote) ∧
          x.eq y = decide (x.denote = y.denote)) ∧ (spec (limit t n) ops [] = none →
      ∃ e, (run debug ops [] : Outcome (_ × List (Big t n))) = .error e) := by
  have hrun : ∀ rems (pool : List (Big t n)), run debug ops [] = .ok (rems, pool) →
      AllOk pool ∧ spec (limit t n) ops [] = some (rems, pool.map denote) :=
    fun rems pool h => run_spec debug ops (fun _ hx => absurd hx not_mem_nil) h
  refine ⟨fun rems pool h => ?_, fun hnone => ?_⟩
  · obtain ⟨hok, hspec⟩ := hrun rems pool h
    exact ⟨hok, hspec, fun x hx => ⟨answers_ok (hok x hx),
      fun y hy => ⟨cmp_ok (hok x hx) (hok y hy), eq_eq x y⟩⟩⟩
  · cases h : (run debug ops [] : Outcome (_ × List (Big t n))) with
    | error e => exact ⟨e, rfl⟩
    | ok p =>
      have hspec := (hrun p.1 p.2 h).2
      rw [hnone] at hspec
      cases hspec

/-- A product by a power of two that has room for its digits is computed unless the number is a zero
without digits, which is shifted by some bits of one digit. -/
theorem mulPow2_runs_iff {debug : Bool} {ops : List (Op t)} {rems : List (Option Nat)}
    {pool : List (Big t n)} (hrun : run debug ops [] = .ok (rems, pool)) (hx : x ∈ pool) {k : Nat}
    (hfit : x.size + k / digitBits t + 1 ≤ n) :
    (∃ z, x.mulPow2 debug k = .ok z) ↔ (x.size = 0 → k < digitBits t → k = 0) :=
  mulPow2_makes_iff debug ((run_spec debug ops (fun _ hx => absurd hx not_mem_nil) hrun).1 x hx) hfit

/-- The zero that `from_u64` makes has no digits, and is not shifted by one bit. -/
theorem mulPow2_underflows :
    (run true [.fromU64 0] [] : Outcome (_ × List (Big 2 40))) =
      .ok ([none], [⟨0, Vector.replicate 40 0⟩]) ∧
    (⟨0, Vector.replicate 40 0⟩ : Big 2 40).mulPow2 true 1 =
      .error (.panic "attempt to subtract with overflow") := by
  constructor
  · rw [run, Op.run, fromU64, fromU64Loop]
    rfl
  · decide

/-- The zero that `from_small` makes has a digit. -/
theorem mulPow2_runs_zero : ∃ z, (⟨1, Vector.replicate 40 0⟩ : Big 2 40).mulPow2 true 1 = .ok z :=
  have hrun : run true [.fromSmall 0] [] =
      .ok ([none], [(⟨1, Vector.replicate 40 0⟩ : Big 2 40)]) := rfl
  (mulPow2_runs_iff hrun (mem_singleton.2 rfl) (by decide)).2 nofun

end Tortis.Num
