import Tortis.Num.Shift

/-!
# Products, and the digits they use

`from_u64` and the loops of `mul_pow5` each keep one number: what is still to come counts for what
has been made of it so far.

`mul_digits` adds the rows of the product to an array of zeros. The carry of a row is stored, not
added: the cell is still zero, since the rows so far end before it (`RowsTo.size_le`). So the product
is exact when `mul_digits` returns, and it returns when there is room for the digits of both factors.
-/

namespace Tortis.Num.Big

open Positional Outcome

variable {t n : Nat} {x : Big t n}

theorem valueOf_zeros : valueOf (Vector.replicate n (0 : Digit t)) = 0 :=
  (upTo_eq_zero (radix_pos t)).2 fun i _ => digit_zeros i

theorem fromSmall_makes (hn : 0 < n) (v : Digit t) :
    Makes (fromSmall v : Outcome (Big t n)) v.toNat := by
  obtain ⟨base, hset, hw⟩ := set_eq hn (Vector.replicate n 0) v
  refine ⟨⟨1, base⟩, by rw [fromSmall, hset]; rfl, ⟨hn, fun i hi => ?_⟩, ?_⟩
  · rw [hw.other (ne_of_gt hi), digit_zeros]
  · have hval := hw.valueOf_zero (digit_zeros 0)
    rwa [valueOf_zeros, zero_add, pow_zero, mul_one] at hval

theorem fromSmall_denotes (v : Digit t) : Denotes (fromSmall v : Outcome (Big t n)) v.toNat := by
  obtain rfl | hn := Nat.eq_zero_or_pos n
  · exact .error
  · exact (fromSmall_makes hn v).denotes

theorem div_radix (v : BitVec 64) :
    (v >>> digitBits t).toNat * radix t + (v.setWidth (digitBits t)).toNat = v.toNat := by
  rw [BitVec.toNat_ushiftRight, Nat.shiftRight_eq_div_pow, BitVec.toNat_setWidth, radix,
    Nat.div_add_mod']

theorem fromU64Loop_exact (ht : digitBits t < 64) {v : BitVec 64} {base : Vector (Digit t) n}
    {sz : Nat} (hsz : sz ≤ n) (hzero : ∀ i, sz ≤ i → digit base i = 0) :
    Exact (fromU64Loop v base sz) (valueOf base + v.toNat * radix t ^ sz) := by
  fun_induction fromU64Loop v base sz with
  | case1 v base sz hv ih =>
    have hsplit := @div_radix t v
    obtain hlt | rfl := lt_or_eq_of_le hsz
    · obtain ⟨base', hset, hok, hval⟩ :=
        carry_digit hlt (.refl sz base) hzero (v.setWidth (digitBits t))
      have := ih base' hlt hok.rest_zero
      rw [hset, ok_bind, if_pos ht]
      rwa [hval, pow_succ, add_assoc,
        show _ + (v >>> digitBits t).toNat * (radix t ^ sz * radix t) = v.toNat * radix t ^ sz by
          rw [← hsplit]
          ring] at this
    · rw [FixedArray.set_of_le le_rfl]
      have hpos : 0 < v.toNat := hv
      exact .inr ⟨⟨_, rfl⟩, Nat.le_add_left_of_le (Nat.le_mul_of_pos_left _ hpos)⟩
  | case2 v base sz hv =>
    have hv : v.toNat = 0 := Nat.eq_zero_of_not_pos hv
    rw [hv, zero_mul, add_zero]
    exact .inl ⟨_, rfl, ⟨hsz, hzero⟩, rfl⟩

theorem fromU64_exact (ht : digitBits t < 64) (v : BitVec 64) :
    Exact (fromU64 v : Outcome (Big t n)) v.toNat := by
  have := fromU64Loop_exact ht (Nat.zero_le n) (fun i _ => digit_zeros i) (v := v)
  rwa [valueOf_zeros, zero_add, pow_zero, mul_one] at this

theorem fromU64_denotes (v : BitVec 64) : Denotes (fromU64 v : Outcome (Big t n)) v.toNat := by
  obtain ht | ht := lt_or_ge (digitBits t) 64
  · exact (fromU64_exact ht v).denotes
  · rw [fromU64, fromU64Loop]
    split
    · intro z hz
      obtain ⟨base, -, hz⟩ := bind_eq_ok.1 hz
      rw [if_neg (Nat.not_lt.2 ht)] at hz
      cases hz
    · next hv =>
      have hv : v.toNat = 0 := Nat.eq_zero_of_not_pos hv
      rw [hv]
      exact Makes.denotes ⟨_, rfl, ⟨Nat.zero_le n, fun i _ => digit_zeros i⟩, valueOf_zeros⟩

/-! ## Powers of five -/

variable {entry : SmallPow5}

theorem smallPow5_get (h : Slice.get smallPow5 t = .ok entry) :
    entry.power = 5 ^ entry.exp ∧ entry.power < radix t := by
  have h := expect_eq_ok.1 h
  match t, h with
  | 0, h | 1, h | 2, h =>
    cases h
    decide
  | t + 3, h => simp [smallPow5] at h

theorem mulPow5Loop_exact (hpow : entry.power = 5 ^ entry.exp)
    (hlt : entry.power < radix t) (hx : x.Ok) (e : Nat) :
    (∃ z e', mulPow5Loop entry x e = .ok (z, e') ∧ z.Ok ∧ e' < entry.exp ∧
      5 ^ e' * z.denote = 5 ^ e * x.denote) ∨
      (∃ err, mulPow5Loop entry x e = .error err) ∧ radix t ^ n ≤ 5 ^ e * x.denote := by
  fun_induction mulPow5Loop entry x e with
  | case1 x e he ih =>
    have hdigit : (BitVec.ofNat (digitBits t) entry.power).toNat = entry.power := by
      exact Nat.mod_eq_of_lt hlt
    have hsplit : 5 ^ e * x.denote = 5 ^ (e - entry.exp) * (entry.power * x.denote) := by
      rw [← mul_assoc, hpow, ← pow_add, Nat.sub_add_cancel he]
    obtain ⟨z, hz, hok, hval⟩ | ⟨⟨err, herr⟩, hle⟩ := mulSmall_exact hx (BitVec.ofNat _ entry.power)
    · rw [hz, ok_bind]
      have := ih z hok
      rwa [hval, hdigit, ← hsplit] at this
    · rw [hdigit] at hle
      rw [herr, hsplit]
      exact .inr ⟨⟨err, rfl⟩, Nat.le_trans hle (Nat.le_mul_of_pos_left _ (Nat.pow_pos (by decide)))⟩
  | case2 x e he => exact .inl ⟨x, e, rfl, hx, Nat.lt_of_not_le he, rfl⟩

theorem timesFive_loop {e : Nat} (h : 5 ^ e < radix t) :
    ∃ p : Digit t, (List.range e).foldlM timesFive 1 = .ok p ∧ p.toNat = 5 ^ e := by
  refine @foldlM_range _ timesFive (fun i (p : Digit t) => p.toNat = 5 ^ i) 1 one_toNat e
    fun i hi p hp => ?_
  have hle : 5 ^ (i + 1) ≤ 5 ^ e := Nat.pow_le_pow_right (by decide) hi
  have hfit : p.toNat * 5 < radix t := by
    rw [hp, ← pow_succ]
    exact lt_of_le_of_lt hle h
  have hpos : 1 ≤ p.toNat := hp ▸ Nat.pow_pos (by decide)
  refine ⟨p * 5, if_pos hfit, ?_⟩
  have hfive : (5 : Digit t).toNat = 5 := by
    exact Nat.mod_eq_of_lt (show 5 < radix t by omega)
  rw [BitVec.toNat_mul, hfive]
  change _ % radix t = _
  rw [Nat.mod_eq_of_lt hfit, hp, pow_succ]

theorem mulPow5_exact (ht : t < 3) (hx : x.Ok) (e : Nat) :
    Exact (x.mulPow5 e) (5 ^ e * x.denote) := by
  obtain ⟨entry, hget⟩ : ∃ entry, Slice.get smallPow5 t = .ok entry :=
    (Slice.exists_getElem? (show t < smallPow5.length from ht)).imp fun _ h => Slice.get_eq h
  obtain ⟨hpow, hlt⟩ := smallPow5_get hget
  rw [mulPow5, hget, ok_bind]
  obtain ⟨z, e', hloop, hok, he, hval⟩ | ⟨⟨err, herr⟩, hle⟩ := mulPow5Loop_exact hpow hlt hx e
  · obtain ⟨p, hp, hpval⟩ := @timesFive_loop t e'
      (lt_trans (Nat.pow_lt_pow_right (by decide) he) (hpow ▸ hlt))
    simp only [hloop, ok_bind, hp]
    rw [← hval, ← hpval]
    exact mulSmall_exact hok p
  · rw [herr]
    exact .inr ⟨⟨err, rfl⟩, hle⟩

theorem mulPow5_denotes (hx : x.Ok) (e : Nat) : Denotes (x.mulPow5 e) (5 ^ e * x.denote) := by
  obtain ht | ht := lt_or_ge t 3
  · exact (mulPow5_exact ht hx e).denotes
  · have hget : smallPow5[t]? = none := List.getElem?_eq_none ht
    rw [mulPow5, Slice.get, hget]
    exact .error

end Tortis.Num.Big

/-! ## Products -/

namespace Tortis.Num

open Positional Outcome

variable {t n : Nat}

/-- A digit of a slice, and zero outside of it. -/
def listDigit (l : List (Digit t)) (i : Nat) : Nat := (l[i]?.getD 0).toNat

/-- The number that `other[0] + other[1] * 2^W + …` describes. -/
def valueOfList (l : List (Digit t)) : Nat := upTo (radix t) (listDigit l) l.length

theorem list_get_eq {l : List (Digit t)} {i : Nat} (h : i < l.length) :
    ∃ a, Slice.get l i = .ok a ∧ a.toNat = listDigit l i := by
  obtain ⟨a, ha⟩ := Slice.exists_getElem? h
  refine ⟨a, Slice.get_eq ha, ?_⟩
  rw [listDigit, ha, Option.getD_some]

namespace Big

variable {x : Big t n} {aa bb : List (Digit t)} {a : Digit t} {ret₀ : Vector (Digit t) n} {i : Nat}

theorem digits_ok (hx : x.Ok) : ∃ l, x.digits = .ok l ∧ l.length = x.size ∧
    (∀ j < x.size, listDigit l j = digit x.base j) ∧ valueOfList l = x.denote := by
  have hle : x.size ≤ x.base.toList.length := by
    rw [Vector.length_toList]
    exact hx.size_le
  have hlen : (x.base.toList.take x.size).length = x.size := by
    rw [List.length_take, min_eq_left hle]
  have hdigit : ∀ j < x.size, listDigit (x.base.toList.take x.size) j = digit x.base j := by
    intro j hj
    rw [listDigit, List.getElem?_take, if_pos hj, Vector.getElem?_toList, digit, FixedArray.getD]
  refine ⟨_, if_pos hle, hlen, hdigit, ?_⟩
  rw [valueOfList, hlen, upTo_congr hdigit, hx.upTo hx.size_le le_rfl]

/-- A row of the product after `j` digits. -/
structure RowTo (ret₀ : Vector (Digit t) n) (a : Digit t) (i : Nat) (bb : List (Digit t)) (j : Nat)
    (s : Vector (Digit t) n × Digit t) : Prop where
  same : SameFrom (i + j) s.1 ret₀
  row : valueOf s.1 + s.2.toNat * radix t ^ (i + j) =
    valueOf ret₀ + a.toNat * radix t ^ i * upTo (radix t) (listDigit bb) j

variable {s : Vector (Digit t) n × Digit t}

theorem mulDigit_step {j : Nat} (hj : j < bb.length) (hij : i + j < n) (h : RowTo ret₀ a i bb j s) :
    ∃ s', mulDigit a i bb s j = .ok s' ∧ RowTo ret₀ a i bb (j + 1) s' := by
  obtain ⟨v, c⟩ := s
  obtain ⟨hsame, hrow⟩ := h
  obtain ⟨b, hget, hb⟩ := list_get_eq hj
  obtain ⟨r, hget', hr⟩ := @get_eq t n (i + j) v hij
  obtain ⟨v', hset, hw⟩ := set_eq hij v (fullMulAdd a b r c).2
  refine ⟨(v', (fullMulAdd a b r c).1), ?_, hsame.written hw, ?_⟩
  · rw [mulDigit, hget, ok_bind, hget', ok_bind]
    simp only [hset, ok_bind, pure_eq]
  · have hmul : (fullMulAdd a b r c).2.toNat + (fullMulAdd a b r c).1.toNat * radix t = _ :=
      fullMulAdd_spec a b r c
    have hval := hw.valueOf
    rw [hb, hr] at hmul
    rw [upTo_succ, ← add_assoc, pow_succ]
    linear_combination hval + radix t ^ i * radix t ^ j * hmul + hrow

theorem mulDigit_loop (hfit : i + bb.length ≤ n) :
    ∃ s, (List.range bb.length).foldlM (mulDigit a i bb) (ret₀, 0) = .ok s ∧
      RowTo ret₀ a i bb bb.length s := by
  refine foldlM_range ⟨.refl _ _, ?_⟩ fun j hj s hs => mulDigit_step hj (by omega) hs
  simp

theorem mulDigit_fits (hb : 0 < bb.length)
    (h : (List.range bb.length).foldlM (mulDigit a i bb) (ret₀, 0) = .ok s) :
    i + bb.length ≤ n := by
  refine @foldlM_range_inv _ (mulDigit a i bb) (fun j _ => 0 < j → i + j ≤ n) _ nofun
    bb.length s (fun j hj s s' _ hs _ => ?_) h hb
  obtain ⟨b, -, hs⟩ := bind_eq_ok.1 hs
  obtain ⟨r, hget, -⟩ := bind_eq_ok.1 hs
  exact (get_ok hget).1

/-- The product after `i` rows. -/
structure RowsTo (aa bb : List (Digit t)) (i : Nat) (s : Vector (Digit t) n × Nat) : Prop where
  ok : (⟨s.2, s.1⟩ : Big t n).Ok
  size_le : s.2 ≤ i + bb.length
  product : valueOf s.1 = upTo (radix t) (listDigit aa) i * valueOfList bb

variable {s : Vector (Digit t) n × Nat}

theorem RowsTo.zero_from (h : RowsTo aa bb i s) (j : Nat)
    (hj : i + bb.length ≤ j) : digit s.1 j = 0 := h.ok.rest_zero j (le_trans h.size_le hj)

theorem mulRow_cases (hb : 0 < bb.length) (hi : i < aa.length)
    (h : RowsTo aa bb i s) : (∃ s', mulRow aa bb s i = .ok s' ∧ RowsTo aa bb (i + 1) s') ∨
      (∃ e, mulRow aa bb s i = .error e) ∧ n ≤ i + bb.length := by
  obtain ⟨ret, retsz⟩ := s
  obtain ⟨a, hget, ha⟩ := list_get_eq hi
  have hle := h.size_le
  have hproduct := h.product
  rw [mulRow, hget, ok_bind]
  split
  · next hzero =>
    refine .inl ⟨_, rfl, h.ok, by dsimp only at hle ⊢; omega, ?_⟩
    rw [upTo_succ, ← ha, hzero, zero_toNat, zero_mul, add_zero]
    exact hproduct
  · obtain hfit | hfit := lt_or_ge n (i + bb.length)
    · refine .inr ⟨?_, le_of_lt hfit⟩
      cases hrun : (List.range bb.length).foldlM (mulDigit a i bb) (ret, 0) with
      | error e => exact ⟨e, by simp only [hrun, error_bind]⟩
      | ok s => exact absurd (mulDigit_fits hb hrun) (Nat.not_le.2 hfit)
    · obtain ⟨⟨v, c⟩, hrun, hsame, hrow⟩ := @mulDigit_loop t n bb a ret i hfit
      have hsum : valueOf v + c.toNat * radix t ^ (i + bb.length) =
          upTo (radix t) (listDigit aa) (i + 1) * valueOfList bb := by
        rw [hproduct, ha] at hrow
        rw [hrow, upTo_succ, valueOfList]
        ring
      have hzero := h.zero_from
      simp only [hrun, ok_bind]
      split
      · next hc =>
        obtain hlt | heq := lt_or_eq_of_le hfit
        · obtain ⟨v', hset, hok, hval⟩ := carry_digit hlt hsame hzero c
          simp only [hset, ok_bind, pure_eq]
          rw [if_pos (by dsimp only at hle; omega)]
          exact .inl ⟨_, rfl, hok, by dsimp only; omega, by rw [hval, hsum]⟩
        · rw [heq, FixedArray.set_of_le le_rfl]
          exact .inr ⟨⟨_, rfl⟩, le_rfl⟩
      · next hc =>
        have hc : c.toNat = 0 := Nat.eq_zero_of_not_pos hc
        rw [hc, zero_mul, add_zero] at hsum
        have hsize : (if retsz < i + bb.length then i + bb.length else retsz) = i + bb.length := by
          split <;> omega
        simp only [ok_bind, pure_eq, hsize]
        exact .inl ⟨_, rfl, ok_of_same hfit hsame hzero, by dsimp only; omega, hsum⟩

theorem rowsTo_zero : RowsTo aa bb 0 (Vector.replicate n (0 : Digit t), 0) := by
  refine ⟨⟨Nat.zero_le n, fun j _ => digit_zeros j⟩, Nat.zero_le _, ?_⟩
  rw [valueOf_zeros, upTo_zero, zero_mul]

theorem mulInner_inv (h : aa.length ≤ bb.length)
    (hrun : mulInner (Vector.replicate n 0) aa bb = .ok s) : RowsTo aa bb aa.length s := by
  refine foldlM_range_inv rowsTo_zero (fun i hi s s' hs hstep => ?_) hrun
  obtain ⟨s'', hrow, h''⟩ | ⟨⟨e, hrow⟩, -⟩ := mulRow_cases (by omega) hi hs
  · rw [hrow] at hstep
    cases hstep
    exact h''
  · rw [hrow] at hstep
    cases hstep

theorem mulInner_makes (h : aa.length ≤ bb.length) (hfit : aa.length + bb.length ≤ n) :
    ∃ s, mulInner (Vector.replicate n 0) aa bb = .ok s ∧ RowsTo aa bb aa.length s := by
  refine foldlM_range rowsTo_zero fun i hi s hs => ?_
  exact (mulRow_cases (by omega) hi hs).resolve_right fun h => by omega

theorem mulDigits_eq (hx : x.Ok) (other : List (Digit t)) :
    ∃ aa bb : List (Digit t), aa.length ≤ bb.length ∧ aa.length + bb.length = x.size + other.length ∧
      valueOfList aa * valueOfList bb = x.denote * valueOfList other ∧
      x.mulDigits other = (do
        let (ret, retsz) ← mulInner (Vector.replicate n 0) aa bb
        pure { size := retsz, base := ret }) := by
  obtain ⟨l, hdigits, hlen, -, hvalue⟩ := digits_ok hx
  rw [mulDigits, hdigits]
  by_cases hlt : x.size < other.length
  · refine ⟨l, other, by omega, by omega, by rw [hvalue], ?_⟩
    simp only [if_pos hlt, ok_bind]
  · refine ⟨other, l, by omega, by omega, by rw [hvalue, mul_comm], ?_⟩
    simp only [if_neg hlt, ok_bind]

theorem mulDigits_denotes (hx : x.Ok) (other : List (Digit t)) :
    Denotes (x.mulDigits other) (x.denote * valueOfList other) := by
  obtain ⟨aa, bb, hle, -, hvalue, heq⟩ := mulDigits_eq hx other
  intro z hz
  rw [heq] at hz
  obtain ⟨⟨ret, retsz⟩, hrun, hz⟩ := bind_eq_ok.1 hz
  cases hz
  have h := mulInner_inv hle hrun
  exact ⟨h.ok, h.product.trans hvalue⟩

theorem mulDigits_makes (hx : x.Ok) {other : List (Digit t)} (hfit : x.size + other.length ≤ n) :
    ∃ z, x.mulDigits other = .ok z ∧ z.Ok ∧ z.size ≤ x.size + other.length ∧
      z.denote = x.denote * valueOfList other := by
  obtain ⟨aa, bb, hle, hlen, hvalue, heq⟩ := mulDigits_eq hx other
  obtain ⟨⟨ret, retsz⟩, hrun, h⟩ := @mulInner_makes t n aa bb hle (by omega)
  refine ⟨⟨retsz, ret⟩, by rw [heq, hrun]; rfl, h.ok, ?_, h.product.trans hvalue⟩
  have := h.size_le
  dsimp only at this ⊢
  omega

end Big

end Tortis.Num

/-! ## How many digits a bignum uses -/

namespace Tortis.Num.Big

open Outcome

variable {t n s k : Nat} {x : Big t n}

/-- A run returns a bignum that denotes `k`, and that uses at most `s` digits. -/
def MakesIn (s : Nat) (run : Outcome (Big t n)) (k : Nat) : Prop :=
  ∃ z, run = .ok z ∧ z.Ok ∧ z.size ≤ s ∧ z.denote = k

theorem Makes.makesIn {run : Outcome (Big t n)} (h : Makes run k)
    (hsize : ∀ z, run = .ok z → z.size ≤ s) : MakesIn s run k := by
  obtain ⟨z, hz, hok, hval⟩ := h
  exact ⟨z, hz, hok, hsize z hz, hval⟩

theorem Ok.lt_of_size (hx : x.Ok) (hs : x.size ≤ s) : x.denote < radix t ^ s :=
  lt_of_lt_of_le hx.denote_lt_pow (Nat.pow_le_pow_right (radix_pos t) hs)

variable {z : Big t n}

theorem fromU64Loop_size {v : BitVec 64} {base : Vector (Digit t) n} {sz m : Nat}
    (hv : v.toNat < radix t ^ m) (h : fromU64Loop v base sz = .ok z) : z.size ≤ sz + m := by
  fun_induction fromU64Loop v base sz generalizing m with
  | case1 v base sz hpos ih =>
    obtain ⟨base', -, h⟩ := bind_eq_ok.1 h
    split at h
    · cases m with
      | zero =>
        have hpos : 0 < v.toNat := hpos
        rw [pow_zero] at hv
        omega
      | succ m =>
        have hdiv : (v >>> digitBits t).toNat < radix t ^ m := by
          rw [BitVec.toNat_ushiftRight, Nat.shiftRight_eq_div_pow]
          refine Nat.div_lt_of_lt_mul ?_
          rwa [pow_succ, mul_comm] at hv
        have := ih base' hdiv h
        omega
    · cases h
  | case2 v base sz hzero =>
    cases h
    exact Nat.le_add_right _ _

theorem fromU64_makesIn (ht : digitBits t < 64) {m v : Nat} (hm : m ≤ n) (hlt : v < 2 ^ 64)
    (hv : v < radix t ^ m) : MakesIn m (fromU64 (BitVec.ofNat 64 v) : Outcome (Big t n)) v := by
  have hval : (BitVec.ofNat 64 v).toNat = v := by
    rw [BitVec.toNat_ofNat, Nat.mod_eq_of_lt hlt]
  have hmakes := (@fromU64_exact t n ht (BitVec.ofNat 64 v)).makes (by
    rw [hval]
    exact lt_of_lt_of_le hv (Nat.pow_le_pow_right (radix_pos t) hm))
  rw [hval] at hmakes
  refine hmakes.makesIn fun z hz => ?_
  have := fromU64Loop_size (by rwa [hval]) hz
  rwa [zero_add] at this

theorem mulSmall_size {a : Digit t} (h : x.mulSmall a = .ok z) :
    x.size ≤ z.size ∧ z.size ≤ x.size + 1 := by
  obtain ⟨_, -, h⟩ := bind_eq_ok.1 h
  obtain ⟨⟨base, carry⟩, -, h⟩ := bind_eq_ok.1 h
  dsimp only at h
  split at h
  · obtain ⟨base', -, h⟩ := bind_eq_ok.1 h
    cases h
    exact ⟨Nat.le_succ _, le_rfl⟩
  · cases h
    exact ⟨le_rfl, Nat.le_succ _⟩

theorem mulSmall_makesIn (hx : x.Ok) (hs : x.size ≤ s) (hn : s + 1 ≤ n) (a : Digit t) :
    MakesIn (s + 1) (x.mulSmall a) (a.toNat * x.denote) := by
  have hlt : a.toNat * x.denote < radix t ^ n := by
    calc a.toNat * x.denote < radix t * radix t ^ s :=
          Nat.mul_lt_mul'' (toNat_lt_radix a) (hx.lt_of_size hs)
      _ = radix t ^ (s + 1) := by rw [pow_succ, mul_comm]
      _ ≤ radix t ^ n := Nat.pow_le_pow_right (radix_pos t) hn
  refine ((mulSmall_exact hx a).makes hlt).makesIn fun z hz => ?_
  have := (mulSmall_size hz).2
  omega

theorem mulPow2_makesIn (debug : Bool) (hx : x.Ok) (hpos : 0 < x.denote) (hs : x.size ≤ s)
    (hn : s + k / digitBits t + 1 ≤ n) :
    MakesIn (s + k / digitBits t + 1) (x.mulPow2 debug k) (2 ^ k * x.denote) := by
  have hpow : 2 ^ k < radix t ^ (k / digitBits t + 1) := by
    rw [radix, ← pow_mul]
    refine Nat.pow_lt_pow_right (by decide) ?_
    exact Nat.lt_mul_div_succ k (digitBits_pos t)
  have hlt : 2 ^ k * x.denote < radix t ^ n := by
    calc 2 ^ k * x.denote < radix t ^ (k / digitBits t + 1) * radix t ^ s :=
          Nat.mul_lt_mul'' hpow (hx.lt_of_size hs)
      _ = radix t ^ (s + k / digitBits t + 1) := by
          rw [← pow_add]
          congr 1
          omega
      _ ≤ radix t ^ n := Nat.pow_le_pow_right (radix_pos t) hn
  refine (mulPow2_makes debug hx (hx.size_pos hpos) (by omega) hlt).makesIn fun z hz => ?_
  have := (mulPow2_size hz).2
  omega

theorem mulDigits_makesIn (hx : x.Ok) (hs : x.size ≤ s) {other : List (Digit t)}
    (hn : s + other.length ≤ n) :
    MakesIn (s + other.length) (x.mulDigits other) (x.denote * valueOfList other) := by
  obtain ⟨z, hz, hok, hsize, hval⟩ := mulDigits_makes hx (show x.size + other.length ≤ n by omega)
  exact ⟨z, hz, hok, by omega, hval⟩

end Tortis.Num.Big
