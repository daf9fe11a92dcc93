import Mathlib.Data.List.Induction
import Mathlib.Data.Nat.Size
import Tortis.Num.Product

/-!
# Comparisons and long division

`cmp`, `eq`, `is_zero`, `get_bit` and `bit_length` are those of the number that is denoted: the sizes
may differ, since no digit behind those in use counts.

`div_rem` takes the bits of the dividend from the highest one down. Before bit `i` is taken, the
quotient of the bits above it stands in `q`, moved up to its place, and the remainder in `r`.
-/

namespace Tortis.Num.Big

open Positional Outcome Slice FixedArray

variable {t n : Nat} {x y : Big t n}

/-! ## Comparisons -/

variable {v : Vector (Digit t) n} {i : Nat}

theorem getElem?_of_lt (h : i < n) : v.toList[i]? = some (getD v i 0) := by
  rw [Vector.getElem?_toList, getD, Vector.getElem?_eq_getElem h, Option.getD_some]

theorem iterCmp_reverse (v w : Vector (Digit t) n) :
    ∀ {k : Nat}, k ≤ n → iterCmp (v.toList.take k).reverse (w.toList.take k).reverse =
      compare (upTo (radix t) (digit v) k) (upTo (radix t) (digit w) k)
  | 0, _ => by simp [iterCmp]
  | k + 1, hk => by
    rw [List.take_add_one, List.take_add_one, getElem?_of_lt hk, getElem?_of_lt hk,
      Option.toList_some, Option.toList_some, List.reverse_append, List.reverse_append,
      List.reverse_singleton, List.reverse_singleton, List.singleton_append, List.singleton_append,
      iterCmp, iterCmp_reverse v w (Nat.le_of_succ_le hk), upTo_compare (digit_lt v) (digit_lt w)]
    rfl

theorem cmp_ok (hx : x.Ok) (hy : y.Ok) : x.cmp y = .ok (compare x.denote y.denote) := by
  have hle := max_size_le hx hy
  have hx' : max x.size y.size ≤ x.base.toList.length := by rwa [Vector.length_toList]
  have hy' : max x.size y.size ≤ y.base.toList.length := by rwa [Vector.length_toList]
  rw [cmp, Slice.sliceTo, if_pos hx', ok_bind, Slice.sliceTo, if_pos hy', ok_bind,
    iterCmp_reverse x.base y.base hle, hx.upTo hle (le_max_left _ _),
    hy.upTo hle (le_max_right _ _)]
  rfl

theorem base_inj {v w : Vector (Digit t) n} : valueOf v = valueOf w ↔ v = w := by
  refine ⟨fun h => ext_getD 0 fun i hi => ?_, fun h => by rw [h]⟩
  exact BitVec.eq_of_toNat_eq ((upTo_inj (digit_lt v) (digit_lt w)).1 h i hi)

theorem eq_eq (x y : Big t n) : x.eq y = decide (x.denote = y.denote) := by
  rw [eq, Bool.eq_iff_iff, beq_iff_eq, decide_eq_true_iff, denote, denote, base_inj]

theorem isZero_ok (hx : x.Ok) : x.isZero = .ok (decide (x.denote = 0)) := by
  obtain ⟨l, hl, hlen, hdigit, hvalue⟩ := digits_ok hx
  rw [isZero, hl, ok_bind, pure_eq, ← hvalue]
  congr 1
  rw [Bool.eq_iff_iff, List.all_eq_true, decide_eq_true_iff, valueOfList,
    upTo_eq_zero (radix_pos t)]
  constructor
  · intro h i hi
    obtain ⟨a, ha⟩ := exists_getElem? hi
    have := h a (List.mem_of_getElem? ha)
    rw [listDigit, ha, Option.getD_some, beq_iff_eq.1 this, zero_toNat]
  · intro h a ha
    obtain ⟨i, hi⟩ := List.getElem?_of_mem ha
    have := h i (lt_length hi)
    rw [listDigit, hi, Option.getD_some] at this
    exact beq_iff_eq.2 (BitVec.eq_of_toNat_eq this)

/-! ## Bits -/

theorem testBit_digit {d b : Nat} (hd : d < n) (hb : b < digitBits t) :
    (digit v d).testBit b = (valueOf v).testBit (digitBits t * d + b) := by
  rw [← upTo_div_mod (digit_lt v) hd, radix, Nat.testBit_mod_two_pow, decide_eq_true hb,
    Bool.true_and, ← pow_mul, Nat.testBit_div_two_pow, add_comm, valueOf, radix]

theorem getBit_ok (h : i < digitBits t * n) :
    x.getBit i = .ok (BitVec.ofNat 8 (x.denote.testBit i).toNat) := by
  have hd : i / digitBits t < n := Nat.div_lt_of_lt_mul h
  have hb : i % digitBits t < digitBits t := Nat.mod_lt _ (digitBits_pos t)
  obtain ⟨a, hget, ha⟩ := @get_eq t n _ x.base hd
  have hbit := @testBit_digit t n x.base _ _ hd hb
  rw [Nat.div_add_mod, ← ha] at hbit
  rw [getBit]
  simp only [hget, ok_bind, pure_eq]
  rw [denote, ← hbit]
  congr 1
  refine BitVec.eq_of_toNat_eq ?_
  rw [BitVec.toNat_setWidth, BitVec.toNat_and, BitVec.toNat_ushiftRight, one_toNat,
    BitVec.toNat_ofNat, Nat.and_one_is_mod, Nat.testBit_eq_decide_div_mod_eq,
    Nat.shiftRight_eq_div_pow]
  obtain h | h := Nat.mod_two_eq_zero_or_one (a.toNat / 2 ^ (i % digitBits t))
  · rw [h]
    rfl
  · rw [h]
    rfl

theorem getBit_of_le (h : digitBits t * n ≤ i) :
    x.getBit i = .error (.panic "index out of bounds") ∧ x.denote.testBit i = false := by
  have hd : n ≤ i / digitBits t := (Nat.le_div_iff_mul_le (digitBits_pos t)).2 (by
    rwa [mul_comm])
  refine ⟨by rw [getBit]; simp only [get_of_le hd, error_bind], ?_⟩
  refine Nat.testBit_lt_two_pow (lt_of_lt_of_le x.denote_lt ?_)
  rw [radix, ← pow_mul]
  exact Nat.pow_le_pow_right (by decide) h

theorem lastBit_ok (hzero : x.denote ≠ 0) :
    ∀ {i : Nat}, i < digitBits t * n → x.denote < 2 ^ (i + 1) →
      ∃ k, x.lastBit i = .ok k ∧ 2 ^ k ≤ x.denote ∧ x.denote < 2 ^ (k + 1)
  | 0, hi, hlt => by
    have hone : x.denote = 1 := by omega
    refine ⟨0, ?_, by omega, hlt⟩
    rw [lastBit, getBit_ok hi, hone]
    rfl
  | i + 1, hi, hlt => by
    rw [lastBit, getBit_ok hi, ok_bind]
    obtain hbit | hbit := lt_or_ge x.denote (2 ^ (i + 1))
    · rw [Nat.testBit_lt_two_pow hbit, if_pos (by decide)]
      exact lastBit_ok hzero (Nat.lt_of_succ_lt hi) hbit
    · rw [Nat.testBit_of_two_pow_le_and_two_pow_add_one_gt hbit hlt, if_neg (by decide)]
      exact ⟨i + 1, rfl, hbit, hlt⟩

theorem size_eq {m k : Nat} (hle : 2 ^ k ≤ m) (hlt : m < 2 ^ (k + 1)) : m.size = k + 1 :=
  le_antisymm (Nat.size_le.2 hlt) (Nat.lt_size.2 hle)

theorem listDigit_append_of_lt {l : List (Digit t)} {a : Digit t} {j : Nat} (h : j < l.length) :
    listDigit (l ++ [a]) j = listDigit l j := by
  rw [listDigit, List.getElem?_append_left h, listDigit]

section
variable (l : List (Digit t))

theorem listDigit_append_self (a : Digit t) : listDigit (l ++ [a]) l.length = a.toNat := by
  rw [listDigit, getElem?_append_cons rfl, Option.getD_some]

theorem listDigit_of_le {l : List (Digit t)} {j : Nat} (h : l.length ≤ j) : listDigit l j = 0 := by
  rw [listDigit, List.getElem?_eq_none h, Option.getD_none, zero_toNat]

/-- The number of digits up to the last one that is not zero. -/
def significant : Nat := l.length - (l.reverse.takeWhile (· == 0)).length

theorem significant_le : significant l ≤ l.length := Nat.sub_le _ _

theorem significant_append (a : Digit t) :
    significant (l ++ [a]) = if a = 0 then significant l else l.length + 1 := by
  rw [significant, List.reverse_append, List.reverse_singleton, List.singleton_append,
    List.takeWhile_cons, List.length_append, List.length_singleton]
  by_cases ha : a = 0
  · rw [if_pos (beq_iff_eq.2 ha), if_pos ha, List.length_cons, significant]
    omega
  · rw [if_neg (by rwa [beq_iff_eq]), if_neg ha, List.length_nil, Nat.sub_zero]

theorem significant_spec : (∀ j, significant l ≤ j → listDigit l j = 0) ∧
      (0 < significant l → listDigit l (significant l - 1) ≠ 0) := by
  induction l using List.reverseRecOn with
  | nil => exact ⟨fun j _ => listDigit_of_le (Nat.zero_le j), fun h => absurd h (Nat.lt_irrefl 0)⟩
  | append_singleton l a ih =>
    obtain ⟨hzero, hlast⟩ := ih
    have hle := significant_le l
    rw [significant_append]
    split
    · next ha =>
      refine ⟨fun j hj => ?_, fun hpos => ?_⟩
      · obtain hlt | rfl | hgt := lt_trichotomy j l.length
        · rw [listDigit_append_of_lt hlt, hzero j hj]
        · rw [listDigit_append_self, ha, zero_toNat]
        · exact listDigit_of_le (by rwa [List.length_append])
      · rw [listDigit_append_of_lt (by omega)]
        exact hlast hpos
    · next ha =>
      refine ⟨fun j hj => listDigit_of_le (by rwa [List.length_append]), fun _ => ?_⟩
      rw [Nat.add_sub_cancel, listDigit_append_self]
      exact fun h => ha (BitVec.eq_of_toNat_eq (h.trans zero_toNat.symm))

end

theorem bitLength_ok (hx : x.Ok) : x.bitLength = .ok x.denote.size := by
  obtain ⟨l, hl, hlen, -, hvalue⟩ := digits_ok hx
  obtain ⟨hzero, hlast⟩ := significant_spec l
  have hle := significant_le l
  have hnonzero : (l.take (significant l)).length = significant l := by
    rw [List.length_take, min_eq_left hle]
  rw [bitLength, hl, ok_bind]
  change (if (l.take (significant l)).isEmpty = true then pure 0 else do
    let i ← x.lastBit ((l.take (significant l)).length * digitBits t - 1)
    pure (i + 1)) = _
  rw [hnonzero]
  have hup : x.denote = upTo (radix t) (listDigit l) (significant l) := by
    rw [← hvalue, valueOfList, upTo_of_zero hle hzero]
  split
  · next h =>
    rw [List.isEmpty_iff_length_eq_zero, hnonzero] at h
    rw [hup, h, upTo_zero, Nat.size_zero]
    rfl
  · next h =>
    rw [List.isEmpty_iff_length_eq_zero, hnonzero] at h
    have hpos := Nat.pos_of_ne_zero h
    have hlow : radix t ^ (significant l - 1) ≤ x.denote := by
      rw [hup]
      exact pow_le_upTo (by omega) (hlast hpos)
    have hbits : 0 < significant l * digitBits t := mul_pos hpos (digitBits_pos t)
    have hsz : significant l * digitBits t ≤ digitBits t * n := by
      rw [mul_comm]
      exact Nat.mul_le_mul_left _ (le_trans (hlen ▸ hle) hx.size_le)
    have hhigh : x.denote < 2 ^ (significant l * digitBits t - 1 + 1) := by
      rw [Nat.sub_add_cancel hbits, mul_comm, pow_mul, hup]
      exact upTo_lt (fun i => BitVec.isLt _) _
    have hne : x.denote ≠ 0 := by
      have := pow_pos (radix_pos t) (n := significant l - 1)
      omega
    obtain ⟨k, hrun, hk, hk'⟩ := lastBit_ok hne (by omega) hhigh
    rw [hrun, ok_bind, size_eq hk hk']
    rfl

end Tortis.Num.Big

/-! ## Long division -/

namespace Tortis.Num.Big

open Positional Outcome

variable {t n : Nat} {x d : Big t n}

structure DividedFrom (x d : Big t n) (i : Nat) (s : Big t n × Big t n × Bool) : Prop where
  quotientOk : s.1.Ok
  remainderOk : s.2.1.Ok
  size_le : d.size ≤ s.2.1.size
  lt : s.2.1.denote < d.denote
  division : ∃ quo, s.1.denote = 2 ^ i * quo ∧ x.denote / 2 ^ i = quo * d.denote + s.2.1.denote
  room : (s.2.2 = true ∧ s.1.denote = 0) ∨ (s.2.2 = false ∧ i ≤ s.1.size * digitBits t)

theorem div_two_pow (m i : Nat) : m / 2 ^ i = 2 * (m / 2 ^ (i + 1)) + (m.testBit i).toNat := by
  have hmod : (m.testBit i).toNat = m / 2 ^ i % 2 := by
    rw [Nat.testBit_eq_decide_div_mod_eq]
    obtain h | h := Nat.mod_two_eq_zero_or_one (m / 2 ^ i)
    · rw [h]
      rfl
    · rw [h]
      rfl
  rw [hmod, pow_succ, ← Nat.div_div_eq_div_mul, Nat.div_add_mod]

theorem or_low {a b : Digit t} {k m : Nat} (ha : a.toNat = 2 ^ k * m) (hb : b.toNat < 2 ^ k) :
    (a ||| b).toNat = a.toNat + b.toNat := by
  rw [BitVec.toNat_or, ha, Nat.two_pow_add_eq_or_of_lt hb]

theorem digit_of_dvd {v : Vector (Digit t) n} {k b m : Nat} (hk : k < n) (hb : b < digitBits t)
    (h : valueOf v = 2 ^ (digitBits t * k + b + 1) * m) :
    digit v k = 2 ^ (b + 1) * (m % 2 ^ (digitBits t - (b + 1))) := by
  rw [← upTo_div_mod (digit_lt v) hk]
  change valueOf v / _ % _ = _
  rw [h, add_assoc, pow_add, radix, ← pow_mul, mul_assoc,
    Nat.mul_div_cancel_left _ (Nat.two_pow_pos _), ← Nat.mul_mod_mul_left, ← pow_add,
    Nat.add_sub_cancel' hb]

variable {i : Nat} {base : Vector (Digit t) n} {debug : Bool}

theorem nextBit_spec {r r1 : Big t n} {low : Digit t} (hr : r.Ok) (hsize : 0 < r.size)
    (hmul : r.mulPow2 debug 1 = .ok r1) (hlow : FixedArray.get r1.base 0 = .ok low)
    (hset : FixedArray.set r1.base 0
      (low ||| (BitVec.ofNat 8 (x.denote.testBit i).toNat).setWidth (digitBits t)) = .ok base) :
    ({ r1 with base } : Big t n).Ok ∧
      ({ r1 with base } : Big t n).denote = 2 * r.denote + (x.denote.testBit i).toNat := by
  obtain ⟨hok, hval⟩ := mulPow2_denotes debug hr 1 r1 hmul
  have hsz : 0 < r1.size :=
    lt_of_lt_of_le hsize (le_trans (Nat.le_add_right _ _) (mulPow2_size hmul).1)
  obtain ⟨hn, hdigit⟩ := get_ok hlow
  have hw := set_ok hset
  have hbit := (x.denote.testBit i).toNat_le
  have hbit' : ((BitVec.ofNat 8 (x.denote.testBit i).toNat).setWidth (digitBits t)).toNat =
      (x.denote.testBit i).toNat := by
    rw [BitVec.toNat_setWidth, BitVec.toNat_ofNat, Nat.mod_eq_of_lt (show _ < 2 ^ 8 by omega),
      Nat.mod_eq_of_lt]
    have := one_lt_radix t
    rw [radix] at this
    omega
  have heven := @digit_of_dvd t n r1.base 0 0 r.denote hn (digitBits_pos t) (by
    exact hval)
  have hor := or_low (hdigit.trans heven) (by
    rw [hbit']
    omega)
  have hvalue := hw.valueOf
  rw [hor, hbit', hdigit, pow_zero, mul_one, mul_one] at hvalue
  refine ⟨⟨hok.size_le, fun j hj => ?_⟩, ?_⟩
  · dsimp only at hj ⊢
    rw [hw.other (by omega)]
    exact hok.rest_zero j hj
  · rw [denote] at hval ⊢
    dsimp only
    omega

variable {q : Big t n}

theorem setBit_spec {i quo : Nat} {a : Digit t}
    (hq : q.Ok) (hval : q.denote = 2 ^ (i + 1) * quo) (hroom : i < q.size * digitBits t)
    (hget : FixedArray.get q.base (i / digitBits t) = .ok a)
    (hset : FixedArray.set q.base (i / digitBits t) (a ||| ((1 : Digit t) <<< (i % digitBits t))) =
      .ok base) :
    ({ q with base } : Big t n).Ok ∧
      ({ q with base } : Big t n).denote = 2 ^ i * (2 * quo + 1) := by
  obtain ⟨hn, hdigit⟩ := get_ok hget
  have hw := set_ok hset
  have hb : i % digitBits t < digitBits t := Nat.mod_lt _ (digitBits_pos t)
  have hi := Nat.div_add_mod i (digitBits t)
  have hone : ((1 : Digit t) <<< (i % digitBits t)).toNat = 2 ^ (i % digitBits t) := by
    rw [BitVec.toNat_shiftLeft, one_toNat, Nat.shiftLeft_eq, one_mul]
    exact Nat.mod_eq_of_lt (Nat.pow_lt_pow_right (by decide) hb)
  have hlow := digit_of_dvd hn hb (hval.trans (by rw [hi]))
  have hor := or_low (hdigit.trans hlow) (by
    rw [hone]
    exact Nat.pow_lt_pow_right (by decide) (lt_add_one _))
  have hvalue := hw.valueOf
  have hpow : 2 ^ (i % digitBits t) * radix t ^ (i / digitBits t) = 2 ^ i := by
    rw [radix, ← pow_mul, ← pow_add, add_comm, hi]
  rw [hor, hone, hdigit, add_mul, hpow] at hvalue
  have hlt : i / digitBits t < q.size := (Nat.div_lt_iff_lt_mul (digitBits_pos t)).2 hroom
  refine ⟨⟨hq.size_le, fun j hj => ?_⟩, ?_⟩
  · rw [hw.other (ne_of_gt (lt_of_lt_of_le hlt hj))]
    exact hq.rest_zero j hj
  · rw [denote] at hval ⊢
    linear_combination hvalue + hval

theorem firstBit_ok {z : Bool} (hi : i < digitBits t * n) (hq : q.Ok)
    (h : (z = true ∧ q.denote = 0) ∨ (z = false ∧ i + 1 ≤ q.size * digitBits t)) :
    ∃ q' : Big t n, (if z then (({ q with size := i / digitBits t + 1 } : Big t n), false)
        else (q, z)) = (q', false) ∧ q'.Ok ∧ q'.denote = q.denote ∧ i < q'.size * digitBits t := by
  obtain ⟨rfl, hzero⟩ | ⟨rfl, hroom⟩ := h
  · refine ⟨_, rfl, ⟨Nat.div_lt_of_lt_mul hi, fun j _ => ?_⟩, rfl, ?_⟩
    · obtain hj | hj := lt_or_ge j n
      · exact (upTo_eq_zero (radix_pos t)).1 hzero j hj
      · exact digit_of_le hj
    · exact (Nat.div_lt_iff_lt_mul (digitBits_pos t)).1 (lt_add_one _)
  · exact ⟨q, rfl, hq, rfl, hroom⟩

theorem divRemBit_step (debug : Bool) (hd : d.Ok) (hsize : 0 < d.size)
    (hi : i < digitBits t * n) {s s' : Big t n × Big t n × Bool} (h : DividedFrom x d (i + 1) s)
    (hrun : divRemBit debug x d s i = .ok s') : DividedFrom x d i s' := by
  obtain ⟨q, r, z⟩ := s
  obtain ⟨hq, hr, hle, hlt, ⟨quo, hquo, hdivision⟩, hroom⟩ := h
  dsimp only at hq hr hle hlt hquo hdivision hroom
  have hbits := div_two_pow x.denote i
  rw [divRemBit] at hrun
  obtain ⟨r1, hmul, hrun⟩ := bind_eq_ok.1 hrun
  rw [getBit_ok hi, ok_bind] at hrun
  obtain ⟨low, hlow, hrun⟩ := bind_eq_ok.1 hrun
  obtain ⟨base, hset, hrun⟩ := bind_eq_ok.1 hrun
  obtain ⟨hok, hval⟩ := nextBit_spec hr (lt_of_lt_of_le hsize hle) hmul hlow hset
  have hsz : d.size ≤ r1.size :=
    le_trans hle (le_trans (Nat.le_add_right _ _) (mulPow2_size hmul).1)
  have hbit := (x.denote.testBit i).toNat_le
  dsimp only at hrun
  rw [cmp_ok hok hd, ok_bind] at hrun
  split at hrun
  · next hge =>
    rw [ne_eq, compare_lt_iff_lt, not_lt] at hge
    obtain ⟨r2, hsub, hrun⟩ := bind_eq_ok.1 hrun
    obtain ⟨-, hmakes⟩ | ⟨hneg, -⟩ := sub_cases hok hd
    · obtain ⟨hok2, hval2⟩ := hmakes.denotes r2 hsub
      obtain ⟨q', hq', hqok, hqval, hqroom⟩ := firstBit_ok hi hq hroom
      rw [hq'] at hrun
      obtain ⟨a, hget, hrun⟩ := bind_eq_ok.1 hrun
      obtain ⟨base', hset', hrun⟩ := bind_eq_ok.1 hrun
      cases hrun
      obtain ⟨hqok', hqval'⟩ := setBit_spec hqok (hqval.trans hquo) hqroom hget hset'
      refine ⟨hqok', hok2, ?_, ?_, ⟨2 * quo + 1, hqval', ?_⟩, .inr ⟨rfl, le_of_lt hqroom⟩⟩
      · dsimp only
        rw [sub_size hsub]
        exact le_max_right _ _
      · dsimp only
        omega
      · have hr2 : r2.denote + d.denote = 2 * r.denote + (x.denote.testBit i).toNat := by omega
        rw [hbits, hdivision]
        linear_combination -hr2
    · omega
  · next hnot =>
    rw [ne_eq, not_not, compare_lt_iff_lt] at hnot
    cases hrun
    refine ⟨hq, hok, hsz, hnot, ⟨2 * quo, ?_, ?_⟩, ?_⟩
    · rw [hquo, pow_succ, mul_assoc]
    · rw [hbits, hdivision, hval]
      ring
    · exact hroom.imp id fun h => ⟨h.1, Nat.le_of_succ_le h.2⟩

theorem digit_map_zero (v : Vector (Digit t) n) (j : Nat) :
    digit (v.map fun _ => (0 : Digit t)) j = 0 := by
  rw [digit, FixedArray.getD, Vector.getElem?_map]
  cases v[j]? <;> rfl

theorem valueOf_map_zero (v : Vector (Digit t) n) : valueOf (v.map fun _ => (0 : Digit t)) = 0 :=
  (upTo_eq_zero (radix_pos t)).2 fun j _ => digit_map_zero v j

theorem size_le_bits (x : Big t n) : x.denote.size ≤ digitBits t * n := by
  rw [Nat.size_le, pow_mul]
  exact x.denote_lt

theorem divided_start (hd : d.Ok) (hpos : 0 < d.denote) (v w : Vector (Digit t) n) :
    DividedFrom x d x.denote.size (⟨1, v.map fun _ => 0⟩, ⟨d.size, w.map fun _ => 0⟩, true) := by
  have hn : 0 < n := lt_of_lt_of_le (hd.size_pos hpos) hd.size_le
  refine ⟨⟨hn, fun j _ => digit_map_zero v j⟩, ⟨hd.size_le, fun j _ => digit_map_zero w j⟩,
    le_rfl, ?_, ⟨0, ?_, ?_⟩, .inl ⟨rfl, valueOf_map_zero v⟩⟩
  · dsimp only [denote] at hpos ⊢
    rwa [valueOf_map_zero]
  · exact valueOf_map_zero v
  · rw [Nat.div_eq_of_lt (Nat.lt_size_self _), zero_mul, zero_add]
    exact (valueOf_map_zero w).symm

theorem divRem_zero (debug : Bool) (hd : d.Ok) (hzero : d.denote = 0) (q r : Big t n) :
    x.divRem debug d q r = .error (.panic "assertion failed: !d.is_zero()") := by
  rw [divRem, isZero_ok hd, ok_bind, hzero]
  rfl

theorem divRem_denotes (hx : x.Ok) (hd : d.Ok) {q r q' r' : Big t n}
    (hrun : x.divRem debug d q r = .ok (q', r')) : 0 < d.denote ∧ q'.Ok ∧ r'.Ok ∧ q'.denote =
    x.denote / d.denote ∧ r'.denote = x.denote % d.denote := by
  obtain hzero | hpos := Nat.eq_zero_or_pos d.denote
  · rw [divRem_zero debug hd hzero] at hrun
    cases hrun
  · have hsize := hd.size_pos hpos
    rw [divRem, isZero_ok hd, ok_bind] at hrun
    obtain ⟨_, -, hrun⟩ := bind_eq_ok.1 hrun
    rw [bitLength_ok hx] at hrun
    simp only [ok_bind] at hrun
    obtain ⟨⟨q1, r1, z⟩, hloop, hrun⟩ := bind_eq_ok.1 hrun
    obtain ⟨_, -, hrun⟩ := bind_eq_ok.1 hrun
    obtain ⟨_, -, hrun⟩ := bind_eq_ok.1 hrun
    cases hrun
    obtain ⟨hq, hr, -, hlt, ⟨quo, hquo, hdivision⟩, -⟩ :=
      foldlM_down_inv (divided_start hd hpos q.base r.base)
        (fun i hi s s' hs hstep => divRemBit_step debug hd hsize
          (lt_of_lt_of_le hi (size_le_bits x)) hs hstep) hloop
    rw [pow_zero, one_mul] at hquo
    rw [pow_zero, Nat.div_one] at hdivision
    refine ⟨hpos, hq, hr, ?_, ?_⟩
    · rw [hquo, hdivision, mul_comm, Nat.mul_add_div hpos, Nat.div_eq_of_lt hlt, add_zero]
    · rw [hdivision, mul_comm, Nat.mul_add_mod, Nat.mod_eq_of_lt hlt]

end Tortis.Num.Big
