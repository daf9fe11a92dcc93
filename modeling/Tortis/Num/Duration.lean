import Mathlib.Algebra.Order.BigOperators.Group.List
import Mathlib.Tactic.Linarith
import Mathlib.Tactic.Ring
import Tortis.Lib.Outcome

/-!
# Durations

`libcore/time.rs`: whole seconds in a `u64` and the nanoseconds behind them in a `u32`, with the
overflow checks of a debug build. A duration stands for the number of its nanoseconds (`asNanos`).
The checked operations and `Sum` compute these numbers (`Exact`, `Sums`); a quotient is that of the
seconds and that of the nanoseconds, each rounded down.
-/

namespace Tortis

open Outcome List

def NANOS_PER_SEC : Nat := 1000000000

structure Duration where
  secs : Nat
  nanos : Nat
deriving DecidableEq

namespace Duration

/-- `checked_add` and `checked_mul` of the integers of `w` bits, for the exact result. -/
def checked (w k : Nat) : Option Nat := if k < 2 ^ w then some k else none

/-- `+` of the integers of `w` bits. -/
def plus (w a b : Nat) : Outcome Nat := expect "attempt to add with overflow" (checked w (a + b))

/-- `*` of the integers of `w` bits. -/
def times (w a b : Nat) : Outcome Nat :=
  expect "attempt to multiply with overflow" (checked w (a * b))

/-- `checked_sub` of the integers. -/
def minus? (a b : Nat) : Option Nat := if b ≤ a then some (a - b) else none

/-- `-` of the integers. -/
def minus (a b : Nat) : Outcome Nat := expect "attempt to subtract with overflow" (minus? a b)

def asNanos (self : Duration) : Nat := self.secs * NANOS_PER_SEC + self.nanos

/-- What a checked operation returns, behind its assertion. -/
def checkedOk (secs nanos : Nat) : Outcome (Option Duration) := do
  assert (nanos < NANOS_PER_SEC) "assertion failed: nanos < NANOS_PER_SEC"
  pure (some { secs, nanos })

def checkedAdd (self rhs : Duration) : Outcome (Option Duration) :=
  match checked 64 (self.secs + rhs.secs) with
  | none => .ok none
  | some secs => do
    let nanos ← plus 32 self.nanos rhs.nanos
    if NANOS_PER_SEC ≤ nanos then do
      let nanos ← minus nanos NANOS_PER_SEC
      match checked 64 (secs + 1) with
      | none => .ok none
      | some secs => checkedOk secs nanos
    else checkedOk secs nanos

def checkedSub (self rhs : Duration) : Outcome (Option Duration) :=
  match minus? self.secs rhs.secs with
  | none => .ok none
  | some secs =>
    if rhs.nanos ≤ self.nanos then do
      let nanos ← minus self.nanos rhs.nanos
      checkedOk secs nanos
    else
      match minus? secs 1 with
      | none => .ok none
      | some secs => do
        let nanos ← plus 32 self.nanos NANOS_PER_SEC
        let nanos ← minus nanos rhs.nanos
        checkedOk secs nanos

def checkedMul (self : Duration) (rhs : Nat) : Outcome (Option Duration) := do
  -- multiply nanoseconds as u64, because it cannot overflow that way
  let totalNanos ← times 64 self.nanos rhs
  let extraSecs := totalNanos / NANOS_PER_SEC
  let nanos := totalNanos % NANOS_PER_SEC % 2 ^ 32
  match (checked 64 (self.secs * rhs)).bind fun s => checked 64 (s + extraSecs) with
  | none => .ok none
  | some secs => checkedOk secs nanos

def checkedDiv (self : Duration) (rhs : Nat) : Outcome (Option Duration) :=
  if rhs ≠ 0 then do
    let secs := self.secs / rhs
    let whole ← times 64 secs rhs
    let carry ← minus self.secs whole
    let carry ← times 64 carry NANOS_PER_SEC
    let extraNanos := carry / rhs
    let nanos ← plus 32 (self.nanos / rhs) (extraNanos % 2 ^ 32)
    checkedOk secs nanos
  else .ok none

def add (self rhs : Duration) : Outcome Duration := do
  let sum ← self.checkedAdd rhs
  expect "overflow when adding durations" sum

def overflow : String := "overflow in iter::sum over durations"

/-- `checked_add` to the seconds in `sum_durations!`. -/
def addSecs (secs k : Nat) : Outcome Nat := expect overflow (checked 64 (secs + k))

/-- An iteration of `sum_durations!`, on the totals of the seconds and of the nanoseconds. -/
def sumStep (total : Nat × Nat) (entry : Duration) : Outcome (Nat × Nat) := do
  let secs ← addSecs total.1 entry.secs
  match checked 64 (total.2 + entry.nanos) with
  | some nanos => .ok (secs, nanos)
  | none => do
    let secs ← addSecs secs (total.2 / NANOS_PER_SEC)
    let nanos ← plus 64 (total.2 % NANOS_PER_SEC) entry.nanos
    .ok (secs, nanos)

/-- `sum_durations!` from given totals on. -/
def sumFrom (total : Nat × Nat) (iter : List Duration) : Outcome Duration := do
  let total ← iter.foldlM sumStep total
  let secs ← addSecs total.1 (total.2 / NANOS_PER_SEC)
  pure { secs, nanos := total.2 % NANOS_PER_SEC % 2 ^ 32 }

def sum (iter : List Duration) : Outcome Duration := sumFrom (0, 0) iter

/-! ## The numbers of nanoseconds -/

/-- The numbers that durations stand for are below it. -/
def limit : Nat := 2 ^ 64 * NANOS_PER_SEC

/-- The fields of a duration are in their ranges. -/
structure Ok (d : Duration) : Prop where
  secs : d.secs < 2 ^ 64
  nanos : d.nanos < NANOS_PER_SEC

/-- The run returns the duration of `k` nanoseconds, or `None` when there is none. -/
structure Exact (run : Outcome (Option Duration)) (k : Int) : Prop where
  some : 0 ≤ k ∧ k < limit → ∃ r, run = .ok (some r) ∧ r.Ok ∧ r.asNanos = k
  none : ¬(0 ≤ k ∧ k < limit) → run = .ok none

/-- The run returns the duration of `k` nanoseconds, or panics with `msg` when there is none. -/
structure Sums (msg : String) (run : Outcome Duration) (k : Nat) : Prop where
  ok : k < limit → ∃ r, run = .ok r ∧ r.Ok ∧ r.asNanos = k
  panic : limit ≤ k → run = .error (.panic msg)

theorem units : NANOS_PER_SEC = 1000000000 ∧ limit = 2 ^ 64 * 1000000000 := ⟨rfl, rfl⟩

variable {w a b k secs nanos : Nat} {d e : Duration} {l : List Duration}

theorem checked_of (h : k < 2 ^ w) : checked w k = some k := if_pos h

theorem checked_none (h : ¬k < 2 ^ w) : checked w k = none := if_neg h

theorem plus_ok (h : a + b < 2 ^ w) : plus w a b = .ok (a + b) := by
  rw [plus, checked_of h, expect_some]

theorem times_ok (h : a * b < 2 ^ w) : times w a b = .ok (a * b) := by
  rw [times, checked_of h, expect_some]

theorem minus_ok (h : b ≤ a) : minus a b = .ok (a - b) := by
  rw [minus, minus?, if_pos h, expect_some]

theorem asNanos_mk (s n : Nat) : asNanos ⟨s, n⟩ = s * NANOS_PER_SEC + n := rfl

theorem Ok.ranges (h : d.Ok) : d.secs < 2 ^ 64 ∧ d.nanos < 1000000000 := ⟨h.secs, h.nanos⟩

theorem Ok.lt_limit (h : d.Ok) : d.asNanos < limit := by
  have := h.ranges
  rw [units.2, asNanos, units.1]
  omega

theorem exact_some {k : Int} (hs : secs < 2 ^ 64) (hn : nanos < 1000000000)
    (hk : k = secs * 1000000000 + nanos) : Exact (checkedOk secs nanos) k := by
  obtain ⟨r, hr⟩ : ∃ r : Duration, r = ⟨secs, nanos⟩ := ⟨_, rfl⟩
  have hok : r.Ok := hr ▸ ⟨hs, hn⟩
  have hval : (r.asNanos : Int) = k := by
    rw [hr, hk, asNanos_mk, units.1]
    norm_cast
  have hlt := hok.lt_limit
  refine ⟨fun _ => ⟨r, ?_, hok, hval⟩, fun h => absurd (by omega) h⟩
  rw [checkedOk, assert_ok (decide_eq_true (show nanos < NANOS_PER_SEC from hn)), ok_bind, hr,
    pure_eq]

theorem exact_none {k : Int} (h : k < 0 ∨ 2 ^ 64 * 1000000000 ≤ k) : Exact (.ok none) k :=
  have h : ¬(0 ≤ k ∧ k < limit) := by rw [units.2]; omega
  ⟨fun h' => absurd h' h, fun _ => rfl⟩

/-! ## The checked operations -/

theorem checkedAdd_exact (hd : d.Ok) (he : e.Ok) :
    Exact (d.checkedAdd e) (d.asNanos + e.asNanos) := by
  have hd := hd.ranges
  have he := he.ranges
  rw [checkedAdd, asNanos, asNanos, units.1]
  by_cases hs : d.secs + e.secs < 2 ^ 64
  · simp only [checked_of hs, plus_ok (show d.nanos + e.nanos < 2 ^ 32 by omega), ok_bind]
    by_cases hcarry : 1000000000 ≤ d.nanos + e.nanos
    · rw [if_pos hcarry, minus_ok hcarry, ok_bind]
      by_cases hs' : d.secs + e.secs + 1 < 2 ^ 64
      · rw [checked_of hs']
        exact exact_some hs' (by omega) (by omega)
      · rw [checked_none hs']
        exact exact_none (by omega)
    · rw [if_neg hcarry]
      exact exact_some hs (by omega) (by omega)
  · rw [checked_none hs]
    exact exact_none (by omega)

theorem checkedSub_exact (hd : d.Ok) (he : e.Ok) :
    Exact (d.checkedSub e) (d.asNanos - e.asNanos) := by
  have hd := hd.ranges
  have he := he.ranges
  rw [checkedSub, asNanos, asNanos, units.1]
  by_cases hs : e.secs ≤ d.secs
  · simp only [minus?, if_pos hs]
    by_cases hn : e.nanos ≤ d.nanos
    · rw [if_pos hn, minus_ok hn, ok_bind]
      exact exact_some (by omega) (by omega) (by omega)
    · rw [if_neg hn]
      by_cases hone : 1 ≤ d.secs - e.secs
      · simp only [if_pos hone]
        rw [plus_ok (by omega), ok_bind, minus_ok (by omega), ok_bind]
        exact exact_some (by omega) (by omega) (by omega)
      · rw [if_neg hone]
        exact exact_none (by omega)
  · simp only [minus?, if_neg hs]
    exact exact_none (by omega)

theorem checkedMul_exact (hd : d.Ok) {n : Nat} (hn : n < 2 ^ 32) :
    Exact (d.checkedMul n) (d.asNanos * n) := by
  have hlt : d.nanos * n < 1000000000 * 2 ^ 32 := Nat.mul_lt_mul'' hd.nanos hn
  have hprod : ((d.asNanos : Nat) : Int) * n =
      ((d.secs * n : Nat) * 1000000000 + (d.nanos * n : Nat) : Int) := by
    rw [asNanos, units.1]
    push_cast
    ring
  rw [hprod, checkedMul, times_ok (by omega), ok_bind, units.1]
  generalize d.nanos * n = q at *
  generalize d.secs * n = p at *
  by_cases hp : p < 2 ^ 64
  · simp only [checked_of hp, Option.bind_some]
    by_cases hsum : p + q / 1000000000 < 2 ^ 64
    · rw [checked_of hsum]
      exact exact_some hsum (by omega) (by omega)
    · rw [checked_none hsum]
      exact exact_none (by omega)
  · simp only [checked_none hp, Option.bind_none]
    exact exact_none (by omega)

/-- A quotient is that of the nanoseconds exactly when the remainders of the two parts that are
divided make no further nanosecond together. -/
theorem checkedDiv_floors_iff (hd : d.Ok) {n : Nat} (hn : n < 2 ^ 32) (hpos : 0 < n) :
    (∃ r, d.checkedDiv n = .ok (some r) ∧ r.Ok ∧ r.asNanos = d.asNanos / n) ↔
      d.secs % n * NANOS_PER_SEC % n + d.nanos % n < n := by
  have hds := hd.secs
  have hdn := hd.nanos
  have hcarry : d.secs % n * NANOS_PER_SEC + NANOS_PER_SEC ≤ n * NANOS_PER_SEC := by
    rw [← Nat.succ_mul]
    exact Nat.mul_le_mul_right _ (Nat.mod_lt _ hpos)
  have hextra : d.secs % n * NANOS_PER_SEC / n < NANOS_PER_SEC :=
    Nat.div_lt_of_lt_mul (by rw [units.1] at *; omega)
  have hadd := Nat.add_div hpos (a := d.secs % n * NANOS_PER_SEC) (b := d.nanos)
  have hsum : d.nanos / n + d.secs % n * NANOS_PER_SEC / n < NANOS_PER_SEC := by
    have : (d.secs % n * NANOS_PER_SEC + d.nanos) / n < NANOS_PER_SEC :=
      Nat.div_lt_of_lt_mul (by omega)
    omega
  have hrun : d.checkedDiv n = .ok (some ⟨d.secs / n,
      d.nanos / n + d.secs % n * NANOS_PER_SEC / n⟩) := by
    have hwhole : d.secs / n * n ≤ d.secs := Nat.div_mul_le_self _ _
    rw [checkedDiv, if_pos (Nat.ne_of_gt hpos)]
    dsimp only
    rw [times_ok (lt_of_le_of_lt hwhole hds), ok_bind, minus_ok hwhole, ok_bind,
      ← Nat.mod_eq_sub_div_mul, times_ok (by rw [units.1] at *; omega), ok_bind,
      Nat.mod_eq_of_lt (lt_trans hextra (by decide)), plus_ok (lt_trans hsum (by decide)), ok_bind,
      checkedOk, assert_ok (decide_eq_true hsum), ok_bind, pure_eq]
  have hquo : d.asNanos / n = d.secs / n * NANOS_PER_SEC +
      (d.secs % n * NANOS_PER_SEC + d.nanos) / n := by
    rw [← Nat.mul_add_div hpos, asNanos]
    nth_rewrite 1 [← Nat.div_add_mod d.secs n]
    congr 1
    ring
  constructor
  · rintro ⟨r, hr, -, hval⟩
    rw [hrun] at hr
    cases hr
    rw [hquo, asNanos_mk] at hval
    by_contra hlt
    rw [if_pos (Nat.not_lt.1 hlt)] at hadd
    omega
  · intro hlt
    rw [if_neg (Nat.not_le.2 hlt)] at hadd
    refine ⟨_, hrun, ⟨lt_of_le_of_lt (Nat.div_le_self _ _) hds, hsum⟩, ?_⟩
    rw [hquo, hadd, asNanos_mk]
    omega

/-- A second and two nanoseconds have 333333334 nanoseconds in a third. -/
theorem checkedDiv_misses : Ok ⟨1, 2⟩ ∧
    checkedDiv ⟨1, 2⟩ 3 = .ok (some ⟨0, 333333333⟩) ∧ asNanos ⟨1, 2⟩ / 3 = 333333334 :=
  ⟨⟨by decide, by decide⟩, rfl, rfl⟩

theorem checkedDiv_floors_half :
    ∃ r, checkedDiv ⟨1, 0⟩ 2 = .ok (some r) ∧ r.Ok ∧ r.asNanos = asNanos ⟨1, 0⟩ / 2 :=
  (checkedDiv_floors_iff ⟨by decide, by decide⟩ (by decide) two_pos).2 (by decide)

/-! ## `Sum` -/

/-- The number of the nanoseconds of some durations. -/
def total (l : List Duration) : Nat := (l.map asNanos).sum

theorem total_cons (d : Duration) (l : List Duration) : total (d :: l) = d.asNanos + total l := by
  rw [total, map_cons, sum_cons, total]

theorem sums_error {msg : String} (h : limit ≤ k) : Sums msg (.error (.panic msg)) k :=
  ⟨fun h' => absurd h' (Nat.not_lt.2 h), fun _ => rfl⟩

/-- The seconds overflow only when the total does. -/
theorem addSecs_sums {f : Nat → Outcome Duration}
    (hf : a + b < 2 ^ 64 → Sums overflow (f (a + b)) k) (hk : (a + b) * 1000000000 ≤ k) :
    Sums overflow (addSecs a b >>= f) k := by
  by_cases h : a + b < 2 ^ 64
  · rw [addSecs, checked_of h, expect_some, ok_bind]
    exact hf h
  · rw [addSecs, checked_none h]
    exact sums_error (le_trans (Nat.mul_le_mul_right NANOS_PER_SEC (Nat.not_lt.1 h)) hk)

theorem sumFrom_sums (hl : ∀ d ∈ l, Ok d) {s n : Nat} (hs : s < 2 ^ 64) (hn : n < 2 ^ 64) :
    Sums overflow (sumFrom (s, n) l) (s * 1000000000 + n + total l) := by
  induction l generalizing s n with
  | nil =>
    rw [sumFrom, foldlM_nil, pure_eq, ok_bind, show total [] = 0 from rfl, units.1]
    dsimp only
    refine addSecs_sums (fun hlt => ⟨fun _ => ⟨_, rfl, ⟨hlt, ?_⟩, ?_⟩, fun h => ?_⟩) (by omega)
    · exact lt_of_le_of_lt (Nat.mod_le _ _) (Nat.mod_lt _ (by decide))
    · rw [asNanos_mk, units.1]
      omega
    · rw [units.2] at h
      omega
  | cons d l ih =>
    obtain ⟨hd, hl⟩ := forall_mem_cons.1 hl
    have hrange := hd.ranges
    have hstep : sumFrom (s, n) (d :: l) = sumStep (s, n) d >>= fun t => sumFrom t l := by
      rw [sumFrom, foldlM_cons, bind_assoc]
      rfl
    rw [hstep, total_cons, asNanos, sumStep, bind_assoc, units.1]
    refine addSecs_sums (fun hlt => ?_) (by omega)
    by_cases hn' : n + d.nanos < 2 ^ 64
    · simp only [checked_of hn', ok_bind]
      rw [show s * 1000000000 + n + (d.secs * 1000000000 + d.nanos + total l) =
        (s + d.secs) * 1000000000 + (n + d.nanos) + total l by ring]
      exact ih hl hlt hn'
    · simp only [checked_none hn', bind_assoc]
      refine addSecs_sums (fun hlt' => ?_) (by omega)
      have hfit : n % 1000000000 + d.nanos < 2 ^ 64 := by omega
      rw [plus_ok hfit, ok_bind, ok_bind,
        show s * 1000000000 + n + (d.secs * 1000000000 + d.nanos + total l) =
          (s + d.secs + n / 1000000000) * 1000000000 + (n % 1000000000 + d.nanos) + total l by omega]
      exact ih hl hlt' hfit

theorem add_sums (hd : d.Ok) (he : e.Ok) :
    Sums "overflow when adding durations" (d.add e) (d.asNanos + e.asNanos) := by
  have h := checkedAdd_exact hd he
  refine ⟨fun hk => ?_, fun hk => ?_⟩
  · obtain ⟨r, hrun, hr, hval⟩ := h.some (by omega)
    refine ⟨r, ?_, hr, by omega⟩
    rw [add, hrun, ok_bind, expect_some]
  · rw [add, h.none (by omega)]
    rfl

theorem foldlM_add_sums (hl : ∀ e ∈ l, Ok e) (hd : d.Ok) :
    Sums "overflow when adding durations" (l.foldlM add d) (d.asNanos + total l) := by
  induction l generalizing d with
  | nil =>
    rw [show total [] = 0 from rfl, Nat.add_zero]
    exact ⟨fun _ => ⟨d, rfl, hd, rfl⟩, fun h => absurd hd.lt_limit (Nat.not_lt.2 h)⟩
  | cons e l ih =>
    obtain ⟨he, hl⟩ := forall_mem_cons.1 hl
    have hadd := add_sums hd he
    rw [foldlM_cons, total_cons, ← Nat.add_assoc]
    obtain hlt | hge := Nat.lt_or_ge (d.asNanos + e.asNanos) limit
    · obtain ⟨r, hrun, hr, hval⟩ := hadd.ok hlt
      rw [hrun, ok_bind, ← hval]
      exact ih hl hr
    · rw [hadd.panic hge]
      exact sums_error (Nat.le_add_right_of_le hge)

theorem Ok.ext (hd : d.Ok) (he : e.Ok) (h : d.asNanos = e.asNanos) : d = e := by
  have hd := hd.ranges
  have he := he.ranges
  rw [asNanos, asNanos, units.1] at h
  obtain ⟨hsecs, hnanos⟩ : d.secs = e.secs ∧ d.nanos = e.nanos := by omega
  cases d
  cases e
  congr 1

theorem Sums.agree {m m' : String} {x y : Outcome Duration} (hx : Sums m x k) (hy : Sums m' y k)
    {r : Duration} (h : x = .ok r) : y = .ok r := by
  obtain hlt | hge := Nat.lt_or_ge k limit
  · obtain ⟨r, rfl, hr, hval⟩ := hx.ok hlt
    obtain ⟨r', rfl, hr', hval'⟩ := hy.ok hlt
    rw [← h, hr.ext hr' (hval.trans hval'.symm)]
  · rw [hx.panic hge] at h
    cases h

/-- The checked operations compute the exact numbers of nanoseconds, where durations have them. So
does `Sum`, in any order of the durations and as the fold of `+`. -/
theorem checked_exact (hd : d.Ok) (he : e.Ok) {n : Nat} (hn : n < 2 ^ 32) (hl : ∀ d ∈ l, Ok d) :
    Exact (d.checkedAdd e) (d.asNanos + e.asNanos) ∧
      Exact (d.checkedSub e) (d.asNanos - e.asNanos) ∧ Exact (d.checkedMul n) (d.asNanos * n) ∧
      Sums overflow (sum l) (total l) ∧ (∀ l', l'.Perm l → ∀ r, sum l' = .ok r ↔ sum l = .ok r) ∧
      ∀ r, l.foldlM add ⟨0, 0⟩ = .ok r ↔ sum l = .ok r := by
  have hsum : ∀ {l : List Duration}, (∀ d ∈ l, Ok d) → Sums overflow (sum l) (total l) := fun hl => by
    have := @sumFrom_sums _ hl 0 0 (by decide) (by decide)
    rwa [Nat.zero_mul, Nat.add_zero, Nat.zero_add] at this
  have hfold := @foldlM_add_sums ⟨0, 0⟩ l hl ⟨by decide, by decide⟩
  rw [asNanos_mk, Nat.zero_mul, Nat.add_zero, Nat.zero_add] at hfold
  refine ⟨checkedAdd_exact hd he, checkedSub_exact hd he, checkedMul_exact hd hn, hsum hl,
    fun l' hperm r => ?_, fun r => ⟨hfold.agree (hsum hl), (hsum hl).agree hfold⟩⟩
  have hl' := hsum fun d hd => hl d (hperm.mem_iff.1 hd)
  rw [total, (hperm.map asNanos).sum_eq, ← total] at hl'
  exact ⟨hl'.agree (hsum hl), (hsum hl).agree hl'⟩

/-- Nothing is added to the longest duration. -/
theorem checked_exact_longest : checkedAdd ⟨2 ^ 64 - 1, 999999999⟩ ⟨0, 1⟩ = .ok none :=
  (checked_exact (n := 0) (l := []) ⟨by decide, by decide⟩ ⟨by decide, by decide⟩ (by decide)
    (forall_mem_nil _)).1.none (by decide)

end Duration

end Tortis
