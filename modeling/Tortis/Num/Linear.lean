import Mathlib.Tactic.LinearCombination
import Tortis.Lib.Positional
import Tortis.Num.Bignum

/-!
# The number a bignum denotes, and its linear operations

`denote x` is the number whose digits are those of the array, all of them. A bignum is `Ok` when its
size is within the array and no digit behind those in use counts.

The loops that carry from one digit to the next. After `i` digits the carry counts for `radix^i`,
and what the array denotes with it is the result so far, while the digits above are those of the
operand.
-/

namespace Tortis.Num

open Positional Bool Function FixedArray

variable {t n i : Nat} {v v' : Vector (Digit t) n} {a : Digit t}

def radix (t : Nat) : Nat := 2 ^ digitBits t

theorem one_lt_radix (t : Nat) : 1 < radix t := two_le_pow (digitBits_pos t)

theorem radix_pos (t : Nat) : 0 < radix t := Nat.two_pow_pos _

theorem toNat_lt_radix (a : Digit t) : a.toNat < radix t := a.isLt

section
variable (v : Vector (Digit t) n)

/-- A digit of an array, and zero outside of it. -/
def digit (i : Nat) : Nat := (FixedArray.getD v i 0).toNat

/-- The number whose digits an array holds. -/
def valueOf : Nat := upTo (radix t) (digit v) n

theorem digit_lt (i : Nat) : digit v i < radix t := BitVec.isLt _

theorem valueOf_lt : valueOf v < radix t ^ n := upTo_lt (digit_lt v) n

end

theorem digit_of_le (h : n ≤ i) : digit v i = 0 := by
  rw [digit, getD_of_le h]
  rfl

@[simp] theorem digit_zeros (i : Nat) : digit (Vector.replicate n (0 : Digit t)) i = 0 := by
  rw [digit, getD_replicate]
  rfl

theorem get_eq (h : i < n) : ∃ a, FixedArray.get v i = .ok a ∧ a.toNat = digit v i :=
  ⟨_, get_of_lt h 0, rfl⟩

theorem get_ok (h : FixedArray.get v i = .ok a) : i < n ∧ a.toNat = digit v i := by
  obtain ⟨hi, rfl⟩ := get_eq_ok h 0
  exact ⟨hi, rfl⟩

/-- The array after a write of `a` at `i`. -/
structure Written (v : Vector (Digit t) n) (i : Nat) (a : Nat) (v' : Vector (Digit t) n) :
    Prop where
  lt : i < n
  eq : digit v' = update (digit v) i a

theorem written_of (h : i < n) (hv : ∀ (d : Digit t) j,
    getD v' j d = if j = i then a else getD v j d) : Written v i a.toNat v' := by
  refine ⟨h, funext fun j => ?_⟩
  rw [digit, hv, update_apply]
  split <;> rfl

theorem set_eq (h : i < n) (v : Vector (Digit t) n) (a : Digit t) :
    ∃ v', FixedArray.set v i a = .ok v' ∧ Written v i a.toNat v' := by
  obtain ⟨v', hset, hv⟩ := set_of_lt h v a
  exact ⟨v', hset, written_of h hv⟩

theorem set_ok (h : FixedArray.set v i a = .ok v') : Written v i a.toNat v' := by
  obtain ⟨hi, hv⟩ := set_eq_ok h
  exact written_of hi hv

namespace Written

variable {a : Nat} (h : Written v i a v')

include h

theorem same : digit v' i = a := by rw [h.eq, update_self]

theorem other {j : Nat} (hj : j ≠ i) : digit v' j = digit v j := by
  rw [h.eq, update_of_ne hj]

theorem valueOf : Num.valueOf v' + digit v i * radix t ^ i = Num.valueOf v + a * radix t ^ i := by
  rw [Num.valueOf, h.eq]
  exact upTo_update a h.lt

theorem valueOf_zero (h0 : digit v i = 0) : Num.valueOf v' = Num.valueOf v + a * radix t ^ i := by
  have := h.valueOf
  rwa [h0, zero_mul, add_zero] at this

end Written

namespace Big

variable {x y : Big t n}

def denote (x : Big t n) : Nat := valueOf x.base

/-- The bignum is one that `define_bignum!` describes. -/
structure Ok (x : Big t n) : Prop where
  size_le : x.size ≤ n
  rest_zero : ∀ i, x.size ≤ i → digit x.base i = 0

theorem denote_lt (x : Big t n) : x.denote < radix t ^ n := valueOf_lt x.base

variable {k : Nat}

theorem upTo_eq_valueOf (hk : k ≤ n) (h : ∀ i, k ≤ i → digit v i = 0) :
    upTo (radix t) (digit v) k = valueOf v := (upTo_of_zero hk h).symm

theorem Ok.upTo (hx : x.Ok) (hk : k ≤ n) (h : x.size ≤ k) :
    upTo (radix t) (digit x.base) k = x.denote :=
  upTo_eq_valueOf hk fun i hi => hx.rest_zero i (le_trans h hi)

theorem Ok.denote_lt_pow (hx : x.Ok) : x.denote < radix t ^ x.size := by
  rw [← hx.upTo hx.size_le le_rfl]
  exact upTo_lt (digit_lt x.base) _

theorem Ok.size_pos (hx : x.Ok) (hpos : 0 < x.denote) : 0 < x.size := by
  by_contra hsize
  have := hx.denote_lt_pow
  rw [Nat.eq_zero_of_not_pos hsize, pow_zero] at this
  omega

theorem checkSlice_of_le (h : k ≤ n) : checkSlice n k = .ok () := by
  rw [checkSlice, Outcome.assert, if_pos (decide_eq_true h)]

theorem max_size_le (hx : x.Ok) (hy : y.Ok) : max x.size y.size ≤ n :=
  Nat.max_le.2 ⟨hx.size_le, hy.size_le⟩

/-- A run that returns makes a bignum that denotes `k`. -/
def Denotes (run : Outcome (Big t n)) (k : Nat) : Prop := ∀ z, run = .ok z → z.Ok ∧ z.denote = k

/-- A run returns a bignum that denotes `k`. -/
def Makes (run : Outcome (Big t n)) (k : Nat) : Prop := ∃ z, run = .ok z ∧ z.Ok ∧ z.denote = k

variable {run : Outcome (Big t n)}

theorem Makes.denotes (h : Makes run k) : Denotes run k := by
  obtain ⟨z, hz, hok, hk⟩ := h
  intro z' hz'
  rw [hz] at hz'
  cases hz'
  exact ⟨hok, hk⟩

theorem Denotes.error {e : Halt} : Denotes (.error e : Outcome (Big t n)) k := nofun

/-- A run returns a bignum that denotes `k` when `k` fits the array, and halts when it does not. -/
def Exact (run : Outcome (Big t n)) (k : Nat) : Prop :=
  Makes run k ∨ (∃ e, run = .error e) ∧ radix t ^ n ≤ k

theorem Exact.makes (h : Exact run k) (hk : k < radix t ^ n) :
    Makes run k := h.resolve_right fun h => Nat.not_lt.2 h.2 hk

theorem Exact.denotes (h : Exact run k) : Denotes run k := by
  obtain h | ⟨⟨e, rfl⟩, -⟩ := h
  · exact h.denotes
  · exact .error

end Big

end Tortis.Num

/-! ## Sums and products by a digit -/

namespace Tortis.Num.Big

open Positional Outcome Bool

variable {t n : Nat} {x y : Big t n}

/-- The digits of `v` from `i` on are those of `v₀`. -/
def SameFrom (i : Nat) (v v₀ : Vector (Digit t) n) : Prop := ∀ j, i ≤ j → digit v j = digit v₀ j

theorem SameFrom.refl (i : Nat) (v : Vector (Digit t) n) : SameFrom i v v := fun _ _ => rfl

theorem SameFrom.written {i a : Nat} {v v0 v' : Vector (Digit t) n} (h : SameFrom i v v0)
    (hw : Written v i a v') : SameFrom (i + 1) v' v0 := by
  intro j hj
  rw [hw.other (ne_of_gt hj)]
  exact h j (Nat.le_of_succ_le hj)

variable {v v0 : Vector (Digit t) n}

theorem ok_of_same {sz : Nat} (hsz : sz ≤ n) (h : SameFrom sz v v0)
    (h0 : ∀ i, sz ≤ i → digit v0 i = 0) : (⟨sz, v⟩ : Big t n).Ok :=
  ⟨hsz, fun i hi => by rw [h i hi, h0 i hi]⟩

theorem carry_digit {sz : Nat} (hsz : sz < n) (h : SameFrom sz v v0)
    (h0 : ∀ i, sz ≤ i → digit v0 i = 0) (c : Digit t) : ∃ v', FixedArray.set v sz c = .ok v' ∧
    (⟨sz + 1, v'⟩ : Big t n).Ok ∧ valueOf v' = valueOf v + c.toNat * radix t ^ sz := by
  obtain ⟨v', hset, hw⟩ := set_eq hsz v c
  refine ⟨v', hset, ok_of_same hsz (h.written hw) fun i hi => h0 i (Nat.le_of_succ_le hi), ?_⟩
  exact hw.valueOf_zero (by rw [h sz le_rfl, h0 sz le_rfl])

theorem max_zero_from (hx : x.Ok) (i : Nat) (hi : max x.size y.size ≤ i) : digit x.base i = 0 :=
  hx.rest_zero i (le_trans (le_max_left _ _) hi)

theorem zero_toNat : (0 : Digit t).toNat = 0 := BitVec.toNat_zero

theorem one_toNat : (1 : Digit t).toNat = 1 := BitVec.toNat_one (digitBits_pos t)

theorem fullAdd_radix (a b : Digit t) (c : Bool) :
    (fullAdd a b c).2.toNat + (fullAdd a b c).1.toNat * radix t = a.toNat + b.toNat + c.toNat :=
  fullAdd_spec (digitBits_pos t) a b c

/-! ## Sums -/

/-- The sum after `i` digits. -/
structure SumTo (x y : Big t n) (i : Nat) (s : Vector (Digit t) n × Bool) : Prop where
  same : SameFrom i s.1 x.base
  sum : valueOf s.1 + s.2.toNat * radix t ^ i = x.denote + upTo (radix t) (digit y.base) i

variable {i : Nat} {s : Vector (Digit t) n × Bool}

theorem addDigit_step (hi : i < n)
    (h : SumTo x y i s) : ∃ s', addDigit y.base s i = .ok s' ∧ SumTo x y (i + 1) s' := by
  obtain ⟨v, c⟩ := s
  obtain ⟨hsame, hsum⟩ := h
  obtain ⟨a, hget, ha⟩ := @get_eq t n i v hi
  obtain ⟨b, hget', hb⟩ := @get_eq t n i y.base hi
  obtain ⟨v', hset, hw⟩ := set_eq hi v (fullAdd a b c).2
  refine ⟨(v', (fullAdd a b c).1), ?_, hsame.written hw, ?_⟩
  · rw [addDigit, hget, ok_bind, hget', ok_bind]
    simp only [hset, ok_bind, pure_eq]
  · have hadd := fullAdd_radix a b c
    have hval := hw.valueOf
    rw [ha, hb] at hadd
    rw [upTo_succ, pow_succ]
    linear_combination hval + radix t ^ i * hadd + hsum

theorem add_loop (hx : x.Ok) (hy : y.Ok) :
    ∃ s, (List.range (max x.size y.size)).foldlM (addDigit y.base) (x.base, false) = .ok s ∧
      SumTo x y (max x.size y.size) s := by
  refine foldlM_range ⟨.refl 0 _, ?_⟩ fun i hi s hs =>
    addDigit_step (lt_of_lt_of_le hi (max_size_le hx hy)) hs
  simp [denote]

/-- The end of `add`, of `mul_small` and of the product of a row: a carry that is left over becomes
one more digit, or does not fit the array. -/
theorem carry_exact {sz k : Nat} (hsz : sz ≤ n)
    (hsame : SameFrom sz v v0) (h0 : ∀ i, sz ≤ i → digit v0 i = 0) {c : Digit t} (hc : 0 < c.toNat)
    (hk : valueOf v + c.toNat * radix t ^ sz = k) :
    Exact (FixedArray.set v sz c >>= fun v' => .ok (⟨sz + 1, v'⟩ : Big t n)) k := by
  obtain hlt | rfl := lt_or_eq_of_le hsz
  · obtain ⟨v', hset, hok, hval⟩ := carry_digit hlt hsame h0 c
    exact .inl ⟨_, by rw [hset, ok_bind], hok, hval.trans hk⟩
  · rw [FixedArray.set_of_le le_rfl]
    refine .inr ⟨⟨_, rfl⟩, ?_⟩
    rw [← hk]
    exact Nat.le_add_left_of_le (Nat.le_mul_of_pos_left _ hc)

theorem add_exact (hx : x.Ok) (hy : y.Ok) : Exact (x.add y) (x.denote + y.denote) := by
  obtain ⟨⟨v, c⟩, hloop, hsame, hsum⟩ := add_loop hx hy
  have hzero := @max_zero_from t n x y hx
  have hle := max_size_le hx hy
  rw [hy.upTo hle (le_max_right _ _)] at hsum
  rw [add, checkSlice_of_le hle, ok_bind, hloop, ok_bind]
  cases c with
  | false =>
    refine .inl ⟨⟨_, v⟩, rfl, ok_of_same hle hsame hzero, ?_⟩
    simpa [denote] using hsum
  | true =>
    refine carry_exact hle hsame hzero (by rw [one_toNat]; exact one_pos) ?_
    rw [one_toNat]
    exact hsum

theorem addSmallLoop_exact {v0 v : Vector (Digit t) n} {c : Bool} {i k : Nat} (hi : i ≤ n)
    (hsame : SameFrom i v v0) (hk : valueOf v + c.toNat * radix t ^ i = k) :
    (∃ v' i', addSmallLoop v c i = .ok (v', i') ∧ i ≤ i' ∧ i' ≤ n ∧ SameFrom i' v' v0 ∧
      valueOf v' = k) ∨ (∃ e, addSmallLoop v c i = .error e) ∧ radix t ^ n ≤ k := by
  fun_induction addSmallLoop v c i with
  | case1 v i hlt c' d heq ih =>
    have hw : Written v i d.toNat (v.set i d hlt) := written_of hlt (FixedArray.getD_set hlt v d)
    have hadd := fullAdd_radix v[i] 0 true
    have hval := hw.valueOf
    have hread : v[i].toNat = digit v i := by
      rw [digit, FixedArray.getD, Vector.getElem?_eq_getElem hlt, Option.getD_some]
    rw [heq, hread, zero_toNat] at hadd
    obtain ⟨v', i', hrun, hle, hrest⟩ | h := ih hlt (hsame.written hw) (by
      linear_combination hval + radix t ^ i * hadd + hk)
    · exact .inl ⟨v', i', hrun, Nat.le_of_succ_le hle, hrest⟩
    · exact .inr h
  | case2 v i hge =>
    have : i = n := le_antisymm hi (Nat.not_lt.1 hge)
    rw [toNat_true, one_mul, this] at hk
    exact .inr ⟨⟨_, rfl⟩, hk ▸ Nat.le_add_left _ _⟩
  | case3 v c i hc =>
    rw [eq_false_of_not_eq_true hc, toNat_false, zero_mul, add_zero] at hk
    exact .inl ⟨v, i, rfl, le_refl i, hi, hsame, hk⟩

theorem addSmall_exact (hn : 0 < n) (hx : x.Ok) (m : Digit t) :
    Exact (x.addSmall m) (x.denote + m.toNat) := by
  obtain ⟨a, hget, ha⟩ := @get_eq t n 0 x.base hn
  obtain ⟨v, hset, hw⟩ := set_eq hn x.base (fullAdd a m false).2
  have hadd := fullAdd_radix a m false
  have hval := hw.valueOf
  have hsum : valueOf v + (fullAdd a m false).1.toNat * radix t ^ 1 = x.denote + m.toNat := by
    rw [ha, toNat_false] at hadd
    rw [denote, pow_one]
    linear_combination hval + hadd
  rw [addSmall, hget, ok_bind]
  simp only [hset, ok_bind]
  obtain ⟨v', i, hrun, -, hi, hsame, hk⟩ | ⟨⟨e, hrun⟩, hle⟩ :=
    addSmallLoop_exact hn ((SameFrom.refl 0 x.base).written hw) hsum
  · rw [hrun]
    refine .inl ⟨_, rfl, ⟨?_, fun j hj => ?_⟩, hk⟩
    · have := hx.size_le
      split <;> omega
    · dsimp only at hj ⊢
      rw [hsame j (by split at hj <;> omega)]
      exact hx.rest_zero j (by split at hj <;> omega)
  · rw [hrun]
    exact .inr ⟨⟨e, rfl⟩, hle⟩

theorem addSmall_denotes (hx : x.Ok) (m : Digit t) : Denotes (x.addSmall m) (x.denote + m.toNat) := by
  obtain rfl | hn := Nat.eq_zero_or_pos n
  · exact .error
  · exact (addSmall_exact hn hx m).denotes

/-! ## Differences -/

/-- The difference after `i` digits, with what has been borrowed. -/
structure DiffTo (x y : Big t n) (i : Nat) (s : Vector (Digit t) n × Bool) : Prop where
  same : SameFrom i s.1 x.base
  diff : valueOf s.1 + s.2.toNat * radix t ^ i + upTo (radix t) (digit y.base) i =
    x.denote + radix t ^ i

theorem not_toNat (a : Digit t) : (~~~a).toNat + a.toNat + 1 = radix t := by
  rw [BitVec.toNat_not]
  rw [radix] at *
  omega

theorem subDigit_step (hi : i < n)
    (h : DiffTo x y i s) : ∃ s', subDigit y.base s i = .ok s' ∧ DiffTo x y (i + 1) s' := by
  obtain ⟨v, c⟩ := s
  obtain ⟨hsame, hdiff⟩ := h
  obtain ⟨a, hget, ha⟩ := @get_eq t n i v hi
  obtain ⟨b, hget', hb⟩ := @get_eq t n i y.base hi
  obtain ⟨v', hset, hw⟩ := set_eq hi v (fullAdd a (~~~b) c).2
  refine ⟨(v', (fullAdd a (~~~b) c).1), ?_, hsame.written hw, ?_⟩
  · rw [subDigit, hget, ok_bind, hget', ok_bind]
    simp only [hset, ok_bind, pure_eq]
  · have hadd := fullAdd_radix a (~~~b) c
    have hnot := not_toNat b
    have hval := hw.valueOf
    rw [ha] at hadd
    rw [hb] at hnot
    rw [upTo_succ, pow_succ]
    linear_combination hval + radix t ^ i * hadd + radix t ^ i * hnot + hdiff

theorem sub_loop (hx : x.Ok) (hy : y.Ok) :
    ∃ s, (List.range (max x.size y.size)).foldlM (subDigit y.base) (x.base, true) = .ok s ∧
      DiffTo x y (max x.size y.size) s := by
  refine foldlM_range ⟨.refl 0 _, ?_⟩ fun i hi s hs =>
    subDigit_step (lt_of_lt_of_le hi (max_size_le hx hy)) hs
  simp [denote]

theorem sub_cases (hx : x.Ok) (hy : y.Ok) :
    (y.denote ≤ x.denote ∧ Makes (x.sub y) (x.denote - y.denote)) ∨
      (x.denote < y.denote ∧ ∃ e, x.sub y = .error e) := by
  obtain ⟨⟨v, c⟩, hloop, hsame, hdiff⟩ := sub_loop hx hy
  have hzero := @max_zero_from t n x y hx
  have hle := max_size_le hx hy
  have hok := ok_of_same hle hsame hzero
  rw [hy.upTo hle (le_max_right _ _)] at hdiff
  rw [sub, checkSlice_of_le hle, ok_bind, hloop, ok_bind]
  have hlt := hok.denote_lt_pow
  cases c with
  | false =>
    rw [toNat_false, zero_mul, add_zero] at hdiff
    refine .inr ⟨?_, ⟨_, rfl⟩⟩
    change valueOf v < _ at hlt
    dsimp only at hdiff hlt
    omega
  | true =>
    rw [toNat_true, one_mul] at hdiff
    dsimp only at hdiff
    refine .inl ⟨by omega, _, rfl, hok, ?_⟩
    change valueOf v = _
    omega

theorem sub_size {z : Big t n} (h : x.sub y = .ok z) : z.size = max x.size y.size := by
  obtain ⟨_, -, h⟩ := bind_eq_ok.1 h
  obtain ⟨s, -, h⟩ := bind_eq_ok.1 h
  obtain ⟨_, -, h⟩ := bind_eq_ok.1 h
  cases h
  rfl

/-! ## Products by a digit -/

/-- The product by `m` after `i` digits. -/
structure ProductTo (x : Big t n) (m i : Nat) (s : Vector (Digit t) n × Digit t) : Prop where
  same : SameFrom i s.1 x.base
  product : valueOf s.1 + s.2.toNat * radix t ^ i + upTo (radix t) (digit x.base) i =
    x.denote + m * upTo (radix t) (digit x.base) i

variable {m : Digit t} {s : Vector (Digit t) n × Digit t}

theorem mulSmallDigit_step (hi : i < n) (h : ProductTo x m.toNat i s) :
    ∃ s', mulSmallDigit m s i = .ok s' ∧ ProductTo x m.toNat (i + 1) s' := by
  obtain ⟨v, c⟩ := s
  obtain ⟨hsame, hproduct⟩ := h
  obtain ⟨a, hget, ha⟩ := @get_eq t n i v hi
  obtain ⟨v', hset, hw⟩ := set_eq hi v (fullMul a m c).2
  refine ⟨(v', (fullMul a m c).1), ?_, hsame.written hw, ?_⟩
  · rw [mulSmallDigit, hget, ok_bind]
    simp only [hset, ok_bind, pure_eq]
  · have hmul : (fullMul a m c).2.toNat + (fullMul a m c).1.toNat * radix t = _ := fullMul_spec a m c
    have hval := hw.valueOf
    have hdigit := hsame i (le_refl i)
    rw [ha] at hmul
    rw [hdigit] at hmul hval
    rw [upTo_succ, pow_succ]
    linear_combination hval + radix t ^ i * hmul + hproduct

theorem mulSmall_loop (hx : x.Ok) (m : Digit t) : ∃ s, (List.range x.size).foldlM (mulSmallDigit m)
    (x.base, 0) = .ok s ∧ ProductTo x m.toNat x.size s := by
  refine foldlM_range ⟨.refl 0 _, ?_⟩ fun i hi s hs =>
    mulSmallDigit_step (lt_of_lt_of_le hi hx.size_le) hs
  simp [denote]

theorem mulSmall_exact (hx : x.Ok) (m : Digit t) : Exact (x.mulSmall m) (m.toNat * x.denote) := by
  obtain ⟨⟨v, c⟩, hloop, hsame, hproduct⟩ := mulSmall_loop hx m
  rw [hx.upTo hx.size_le le_rfl, add_comm, Nat.add_left_cancel_iff] at hproduct
  rw [mulSmall, checkSlice_of_le hx.size_le, ok_bind, hloop, ok_bind]
  dsimp only at hproduct hsame ⊢
  split
  · next hc => exact carry_exact hx.size_le hsame hx.rest_zero hc hproduct
  · next hc =>
    have hzero : c.toNat = 0 := Nat.eq_zero_of_not_pos hc
    rw [hzero, zero_mul, add_zero] at hproduct
    exact .inl ⟨⟨_, v⟩, rfl, ok_of_same hx.size_le hsame hx.rest_zero, hproduct⟩

/-! ## Quotients by a digit -/

/-- The quotient by `m` of the digits from `i` on, with what has been borrowed. -/
structure QuotientFrom (x : Big t n) (m i : Nat) (s : Vector (Digit t) n × Digit t) : Prop where
  same : ∀ j, j < i ∨ x.size ≤ j → digit s.1 j = digit x.base j
  lt : s.2.toNat < m
  quotient : m * valueOf s.1 + s.2.toNat * radix t ^ i + upTo (radix t) (digit x.base) i =
    x.denote + m * upTo (radix t) (digit x.base) i

theorem divDigit_step (debug : Bool) (hi : i < n) (hsz : i < x.size)
    (h : QuotientFrom x m.toNat (i + 1) s) :
    ∃ s', divDigit debug m s i = .ok s' ∧ QuotientFrom x m.toNat i s' := by
  obtain ⟨v, c⟩ := s
  obtain ⟨hsame, hlt, hquotient⟩ := h
  obtain ⟨a, hget, ha⟩ := @get_eq t n i v hi
  obtain ⟨q, r, hdiv, hr, hqr⟩ := @fullDivRem_spec _ debug a m c hlt
  obtain ⟨v', hset, hw⟩ := set_eq hi v q
  refine ⟨(v', r), ?_, fun j hj => ?_, hr, ?_⟩
  · rw [divDigit, hget, ok_bind, hdiv, ok_bind]
    simp only [hset, ok_bind, pure_eq]
  · rw [hw.other (by omega)]
    exact hsame j (by omega)
  · have hval := hw.valueOf
    have hdigit := hsame i (.inl (lt_add_one i))
    rw [ha] at hqr
    rw [hdigit] at hqr hval
    change _ = c.toNat * radix t + _ at hqr
    rw [upTo_succ, pow_succ] at hquotient
    linear_combination m.toNat * hval + radix t ^ i * hqr + hquotient

theorem divRemSmall_spec (debug : Bool) (hx : x.Ok) (hm : 0 < m.toNat) :
    ∃ z r, x.divRemSmall debug m = .ok (z, r) ∧ z.Ok ∧ z.size = x.size ∧
      z.denote = x.denote / m.toNat ∧ r.toNat = x.denote % m.toNat := by
  have hstart : QuotientFrom x m.toNat x.size (x.base, 0) := by
    refine ⟨fun _ _ => rfl, hm, ?_⟩
    rw [hx.upTo hx.size_le le_rfl]
    simp [denote, add_comm]
  obtain ⟨⟨v, r⟩, hloop, hsame, hlt, hquotient⟩ :=
    @foldlM_down _ (divDigit debug m) (QuotientFrom x m.toNat) _ _ hstart
      fun i hi s hs => divDigit_step debug (lt_of_lt_of_le hi hx.size_le) hi hs
  simp only [pow_zero, mul_one, upTo_zero, mul_zero, add_zero] at hquotient
  refine ⟨{ x with base := v }, r, ?_, ⟨hx.size_le, fun j hj => ?_⟩, rfl, ?_, ?_⟩
  · have hpos : 0 < m := hm
    rw [divRemSmall, bind_of_assert hpos]
    simp only [ok_bind, checkSlice_of_le hx.size_le, hloop]
    rfl
  · rw [← hx.rest_zero j hj]
    exact hsame j (.inr hj)
  · rw [← hquotient, Nat.mul_add_div hm, Nat.div_eq_of_lt hlt]
    rfl
  · rw [← hquotient, Nat.mul_add_mod, Nat.mod_eq_of_lt hlt]

end Tortis.Num.Big
