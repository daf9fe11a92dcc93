import Tortis.Num.Linear

/-!
# Products by a power of two

`mul_pow2` moves the digits up, and then shifts them from the top one down, each with the high bits
of the digit below it. After the digits from `i` on are shifted, the array denotes their part of the
product, with the digits below `i` as they were and the high bits of the last of these added.
-/

namespace Tortis.Num.Big

open Positional Outcome Bool FixedArray FixedArray

variable {t n : Nat} {x : Big t n}

/-! ## Moving the digits -/

/-- The digits of `x` from `i` on are moved up by `d` places. -/
def MovedFrom (x : Big t n) (d i : Nat) (v : Vector (Digit t) n) : Prop :=
  ∀ j, digit v j = if i + d ≤ j ∧ j < x.size + d then digit x.base (j - d) else digit x.base j

variable {d i last : Nat} {v v₀ : Vector (Digit t) n}

theorem moveDigit_step (hi : i < x.size) (hfit : x.size + d ≤ n) (h : MovedFrom x d (i + 1) v) :
    ∃ v', moveDigit d v i = .ok v' ∧ MovedFrom x d i v' := by
  obtain ⟨a, hget, ha⟩ := @get_eq t n i v (by omega)
  obtain ⟨v', hset, hw⟩ := @set_eq t n (i + d) (by omega) v a
  refine ⟨v', by rw [moveDigit, hget, ok_bind, hset], fun j => ?_⟩
  obtain rfl | hj := Decidable.eq_or_ne j (i + d)
  · rw [hw.same, ha, h i, if_neg (by omega), if_pos (by omega), Nat.add_sub_cancel]
  · rw [hw.other hj, h j]
    by_cases hlt : i + 1 + d ≤ j ∧ j < x.size + d
    · rw [if_pos hlt, if_pos (by omega)]
    · rw [if_neg hlt, if_neg (by omega)]

/-- The digits below `i` are cleared. -/
def ClearedTo (v₀ : Vector (Digit t) n) (i : Nat) (v : Vector (Digit t) n) : Prop :=
  ∀ j, digit v j = if j < i then 0 else digit v₀ j

theorem clear_step (hi : i < n) (h : ClearedTo v₀ i v) :
    ∃ v', FixedArray.set v i 0 = .ok v' ∧ ClearedTo v₀ (i + 1) v' := by
  obtain ⟨v', hset, hw⟩ := set_eq hi v 0
  refine ⟨v', hset, fun j => ?_⟩
  obtain rfl | hj := Decidable.eq_or_ne j i
  · rw [hw.same, if_pos (lt_add_one j)]
    rfl
  · rw [hw.other hj, h j]
    by_cases hlt : j < i
    · rw [if_pos hlt, if_pos (Nat.lt_succ_of_lt hlt)]
    · rw [if_neg hlt, if_neg (by omega)]

/-- The digits are those of a product by a power of the base. -/
structure Moved (x : Big t n) (d : Nat) (v : Vector (Digit t) n) : Prop where
  digit_eq : ∀ j, digit v j = if j < d then 0 else digit x.base (j - d)
  value : valueOf v = radix t ^ d * x.denote

theorem moved_of_digit (hx : x.Ok) (hfit : x.size + d ≤ n)
    (h : ∀ j, digit v j = if j < d then 0 else digit x.base (j - d)) : Moved x d v := by
  refine ⟨h, ?_⟩
  rw [valueOf, funext h, ← hx.upTo hx.size_le le_rfl, ← upTo_shift,
    upTo_of_zero (show d + x.size ≤ n by omega)]
  intro i hi
  rw [if_neg (by omega)]
  exact hx.rest_zero _ (by omega)

theorem move_loops (hx : x.Ok) (hd : d < n) (hfit : x.size + d ≤ n) :
    ∃ v1 v2, (List.range x.size).reverse.foldlM (moveDigit d) x.base = .ok v1 ∧
      (List.range d).foldlM (fun base i => set base i 0) v1 = .ok v2 ∧ Moved x d v2 := by
  obtain ⟨v1, hmove, h1⟩ := @foldlM_down _ (moveDigit d) (MovedFrom x d) x.size x.base
    (fun j => by rw [if_neg (by omega)]) fun i hi v hv => moveDigit_step hi hfit hv
  obtain ⟨v2, hclear, h2⟩ := @foldlM_range _ (fun base i => set base i 0)
    (ClearedTo v1) v1 (fun j => rfl) d fun i hi v hv => clear_step (lt_trans hi hd) hv
  refine ⟨v1, v2, hmove, hclear, moved_of_digit hx hfit fun j => ?_⟩
  rw [h2 j, h1 j]
  by_cases hjd : j < d
  · rw [if_pos hjd, if_pos hjd]
  · rw [if_neg hjd, if_neg hjd]
    by_cases hj : j < x.size + d
    · rw [if_pos (by omega)]
    · rw [if_neg (by omega), hx.rest_zero j (by omega), hx.rest_zero (j - d) (by omega)]

theorem move_halts (hx : x.Ok) (hd : d < n) (hfit : n < x.size + d) :
    ∃ e, (List.range x.size).reverse.foldlM (moveDigit d) x.base = .error e := by
  obtain ⟨k, hk⟩ : ∃ k, x.size = k + 1 := ⟨x.size - 1, by omega⟩
  have hle := hx.size_le
  obtain ⟨a, hget, -⟩ := @get_eq t n k x.base (by omega)
  refine ⟨.panic "index out of bounds", ?_⟩
  rw [hk, List.range_succ, List.reverse_append, List.reverse_singleton, List.singleton_append,
    List.foldlM_cons, moveDigit, hget, ok_bind, set_of_le (by omega)]
  rfl

/-! ## Shifting the digits -/

variable {bits : Nat}

theorem radix_split (h : bits ≤ digitBits t) : radix t = 2 ^ bits * 2 ^ (digitBits t - bits) := by
  rw [radix, ← pow_add, Nat.add_sub_cancel' h]

/-- The bits of a digit that a shift moves to the next one. -/
def high (t bits a : Nat) : Nat := a / 2 ^ (digitBits t - bits)

/-- The bits of a digit that stay. -/
def low (t bits a : Nat) : Nat := 2 ^ bits * (a % 2 ^ (digitBits t - bits))

theorem high_low (h : bits ≤ digitBits t) (a : Nat) :
    high t bits a * radix t + low t bits a = 2 ^ bits * a := by
  have hdiv := Nat.div_add_mod a (2 ^ (digitBits t - bits))
  rw [high, low, radix_split h]
  linear_combination 2 ^ bits * hdiv

@[simp] theorem high_zero (t bits : Nat) : high t bits 0 = 0 := Nat.zero_div _

theorem shiftRight_toNat (b : Digit t) :
    (b >>> (digitBits t - bits)).toNat = high t bits b.toNat := by
  rw [BitVec.toNat_ushiftRight, Nat.shiftRight_eq_div_pow, high]

section
variable (h : bits ≤ digitBits t)
include h

theorem shiftLeft_toNat (a : Digit t) : (a <<< bits).toNat = low t bits a.toNat := by
  rw [BitVec.toNat_shiftLeft, Nat.shiftLeft_eq, mul_comm, low]
  change _ % radix t = _
  rw [radix_split h, Nat.mul_mod_mul_left]

theorem high_lt (b : Digit t) : high t bits b.toNat < 2 ^ bits := by
  have hb := toNat_lt_radix b
  rw [radix_split h] at hb
  exact (Nat.div_lt_iff_lt_mul (Nat.two_pow_pos _)).2 hb

theorem shift_or_toNat (a b : Digit t) : ((a <<< bits) ||| (b >>> (digitBits t - bits))).toNat =
      low t bits a.toNat + high t bits b.toNat := by
  rw [BitVec.toNat_or, shiftLeft_toNat h, shiftRight_toNat, low,
    Nat.two_pow_add_eq_or_of_lt (high_lt h b)]

end

/-- The digits from `i` to `last` are shifted. -/
structure ShiftedFrom (v₀ : Vector (Digit t) n) (bits last : Nat) (top : Nat → Nat) (i : Nat)
    (v : Vector (Digit t) n) : Prop where
  below : ∀ j, j < i → digit v j = digit v₀ j
  above : ∀ j, last ≤ j → digit v j = top j
  value : valueOf v + 2 ^ bits * upTo (radix t) (digit v₀) i =
    2 ^ bits * valueOf v₀ + upTo (radix t) (digit v₀) i +
      high t bits (digit v₀ (i - 1)) * radix t ^ i

variable {top : Nat → Nat}

section
variable (h : bits ≤ digitBits t)
include h

theorem shiftDigit_step (hi : 0 < i) (hlast : i < last) (hn : last ≤ n)
    (hv : ShiftedFrom v₀ bits last top (i + 1) v) :
    ∃ v', shiftDigit bits v i = .ok v' ∧ ShiftedFrom v₀ bits last top i v' := by
  obtain ⟨hbelow, habove, hvalue⟩ := hv
  obtain ⟨a, hget, ha⟩ := @get_eq t n i v (by omega)
  obtain ⟨b, hget', hb⟩ := @get_eq t n (i - 1) v (by omega)
  obtain ⟨v', hset, hw⟩ := set_eq (show i < n by omega) v
    ((a <<< bits) ||| (b >>> (digitBits t - bits)))
  refine ⟨v', ?_, fun j hj => ?_, fun j hj => ?_, ?_⟩
  · rw [shiftDigit, hget, ok_bind, hget', ok_bind, hset]
  · rw [hw.other (ne_of_lt hj)]
    exact hbelow j (Nat.lt_succ_of_lt hj)
  · rw [hw.other (by omega)]
    exact habove j hj
  · have hval := hw.valueOf
    have hsplit := high_low h (digit v₀ i)
    rw [shift_or_toNat h, ha, hb, hbelow i (lt_add_one i), hbelow (i - 1) (by omega)] at hval
    rw [upTo_succ, Nat.add_sub_cancel, pow_succ] at hvalue
    linear_combination hval + hvalue + radix t ^ i * hsplit

theorem shift_loop {v1 : Vector (Digit t) n}
    (hd : d < last) (hn : last ≤ n) (hzero : ∀ j, last ≤ j → digit v₀ j = 0)
    (hsame : ∀ j, j < last → digit v1 j = digit v₀ j)
    (hvalue : valueOf v1 = valueOf v₀ + high t bits (digit v₀ (last - 1)) * radix t ^ last) :
    ∃ v, (List.range' (d + 1) (last - (d + 1))).reverse.foldlM (shiftDigit bits) v1 = .ok v ∧
      ShiftedFrom v₀ bits last (digit v1) (d + 1) v := by
  refine foldlM_down_from ?_ fun i hi hlt v hv =>
    shiftDigit_step h (by omega) (by omega) hn hv
  rw [Nat.add_sub_cancel' hd]
  refine ⟨hsame, fun _ _ => rfl, ?_⟩
  rw [upTo_eq_valueOf hn hzero]
  linear_combination hvalue

theorem shift_lowest (hd : d < n) (hlow : ∀ j, j < d → digit v₀ j = 0)
    (hv : ShiftedFrom v₀ bits last top (d + 1) v) (hlast : d < last) :
    ∃ a v', FixedArray.get v d = .ok a ∧ FixedArray.set v d (a <<< bits) = .ok v' ∧
      valueOf v' = 2 ^ bits * valueOf v₀ ∧ ∀ j, last ≤ j → digit v' j = top j := by
  obtain ⟨hbelow, habove, hvalue⟩ := hv
  obtain ⟨a, hget, ha⟩ := @get_eq t n d v hd
  obtain ⟨v', hset, hw⟩ := set_eq hd v (a <<< bits)
  have hval := hw.valueOf
  have hsplit := high_low h (digit v₀ d)
  have hzero : upTo (radix t) (digit v₀) d = 0 := (upTo_eq_zero (radix_pos t)).2 hlow
  rw [shiftLeft_toNat h, ha, hbelow d (lt_add_one d)] at hval
  rw [upTo_succ, hzero, zero_add, Nat.add_sub_cancel, pow_succ] at hvalue
  refine ⟨a, v', hget, hset, ?_, fun j hj => ?_⟩
  · linear_combination hval + hvalue + radix t ^ d * hsplit
  · rw [hw.other (by omega)]
    exact habove j hj

end

theorem shiftBits_zero (hbits : 0 < bits) (h : bits ≤ digitBits t) (hd : d < n) (hd0 : 0 < d)
    (hzero : ∀ j, digit v j = 0) : Makes (shiftBits v d d bits) 0 := by
  obtain ⟨a, hget, ha⟩ := @get_eq t n (d - 1) v (by omega)
  obtain ⟨b, hget', hb⟩ := @get_eq t n d v hd
  obtain ⟨v', hset, hw⟩ := set_eq hd v (b <<< bits)
  have hover : ¬0 < a >>> (digitBits t - bits) := by
    rw [BitVec.lt_def, shiftRight_toNat, ha, hzero, high_zero]
    exact lt_irrefl 0
  have hz : ∀ j, digit v' j = 0 := by
    intro j
    obtain rfl | hj := Decidable.eq_or_ne j d
    · rw [hw.same, shiftLeft_toNat h, hb, hzero, low, Nat.zero_mod, mul_zero]
    · rw [hw.other hj, hzero]
  refine ⟨⟨d, v'⟩, ?_, ⟨le_of_lt hd, fun j _ => hz j⟩,
    (upTo_eq_zero (radix_pos t)).2 fun j _ => hz j⟩
  rw [shiftBits, if_pos hbits]
  simp only [assert, hd0, decide_true, if_true, ok_bind, hget, hover, if_false, pure_eq,
    Nat.sub_eq_zero_of_le (Nat.le_succ d), List.range'_zero, List.reverse_nil, List.foldlM_nil,
    hget', hset]

theorem pow_le_shifted (h : bits ≤ digitBits t) {m : Nat} {v : Vector (Digit t) (m + 1)}
    (hhigh : high t bits (digit v m) ≠ 0) : radix t ^ (m + 1) ≤ 2 ^ bits * valueOf v := by
  have hsplit := high_low h (digit v m)
  have hle : radix t ≤ 2 ^ bits * digit v m := by
    rw [← hsplit]
    exact Nat.le_add_right_of_le (Nat.le_mul_of_pos_left _ (Nat.pos_of_ne_zero hhigh))
  rw [valueOf, upTo_succ, pow_succ]
  calc radix t ^ m * radix t ≤ radix t ^ m * (2 ^ bits * digit v m) := Nat.mul_le_mul_left _ hle
    _ = 2 ^ bits * (digit v m * radix t ^ m) := by ring
    _ ≤ _ := Nat.mul_le_mul_left _ (Nat.le_add_left _ _)

theorem shiftBits_exact (h : bits ≤ digitBits t)
    (hd : d < last) (hn : last ≤ n) (hlow : ∀ j, j < d → digit v j = 0)
    (hzero : ∀ j, last ≤ j → digit v j = 0) :
    Exact (shiftBits v last d bits) (2 ^ bits * valueOf v) := by
  rw [shiftBits]
  split
  · obtain ⟨a, hget, ha⟩ := @get_eq t n (last - 1) v (by omega)
    have hover := @shiftRight_toNat t bits a
    rw [ha] at hover
    have hpos : 0 < last := Nat.zero_lt_of_lt hd
    simp only [assert, hpos, decide_true, if_true, ok_bind, hget]
    split
    · next hc =>
      obtain hlt | rfl := lt_or_eq_of_le hn
      · obtain ⟨v1, hset, hok, hval⟩ :=
          carry_digit hlt (.refl last v) hzero (a >>> (digitBits t - bits))
        have hw := set_ok hset
        rw [hover] at hval
        obtain ⟨v2, hloop, hshift⟩ :=
          shift_loop h hd hn hzero (fun j hj => hw.other (ne_of_lt hj)) hval
        obtain ⟨b, v', hget', hset', hvalue, habove⟩ :=
          shift_lowest h (lt_trans hd hlt) hlow hshift hd
        simp only [hset, ok_bind, pure_eq, hloop, hget', hset']
        refine .inl ⟨_, rfl, ⟨hlt, fun j hj => ?_⟩, hvalue⟩
        rw [habove j (Nat.le_of_succ_le hj)]
        exact hok.rest_zero j hj
      · rw [set_of_le le_rfl]
        refine .inr ⟨⟨_, rfl⟩, ?_⟩
        obtain ⟨m, rfl⟩ : ∃ m, last = m + 1 := ⟨last - 1, by omega⟩
        exact pow_le_shifted h (hover ▸ ne_of_gt hc)
    · next hc =>
      have hhigh : high t bits (digit v (last - 1)) = 0 := by
        rw [← hover]
        exact Nat.eq_zero_of_not_pos hc
      obtain ⟨v2, hloop, hshift⟩ := shift_loop h hd hn hzero (fun _ _ => rfl)
        (show valueOf v = _ by rw [hhigh, zero_mul, add_zero])
      obtain ⟨b, v', hget', hset', hvalue, habove⟩ :=
        shift_lowest h (lt_of_lt_of_le hd hn) hlow hshift hd
      simp only [pure_eq, ok_bind, hloop, hget', hset']
      refine .inl ⟨_, rfl, ⟨hn, fun j hj => ?_⟩, hvalue⟩
      rw [habove j hj, hzero j hj]
  · next hbits =>
    rw [Nat.eq_zero_of_not_pos hbits, pow_zero, one_mul]
    exact .inl ⟨_, rfl, ⟨hn, hzero⟩, rfl⟩

/-! ## `mul_pow2` -/

theorem pow_bits (t k : Nat) : radix t ^ (k / digitBits t) * 2 ^ (k % digitBits t) = 2 ^ k := by
  rw [radix, ← pow_mul, ← pow_add, Nat.div_add_mod]

theorem mulPow2Check_of (hx : x.Ok) (hbits : bits ≤ digitBits t) (hd : d < n)
    (hfit : x.size + d ≤ n) (hlt : 2 ^ bits * (radix t ^ d * x.denote) < radix t ^ n) :
    x.mulPow2Check d bits = true := by
  have hlast : n - d - 1 < n := by omega
  rw [mulPow2Check, and_eq_true, or_eq_true, List.all_eq_true, beq_iff_eq, beq_iff_eq]
  refine ⟨fun a ha => ?_, .inr (BitVec.eq_of_toNat_eq ?_)⟩
  · obtain ⟨i, hi, rfl⟩ := List.getElem_of_mem ha
    have hzero := hx.rest_zero (n - d + i) (by omega)
    rw [List.length_drop, Vector.length_toList] at hi
    rw [digit, getD, Vector.getElem?_eq_getElem (by omega), Option.getD_some] at hzero
    rw [beq_iff_eq, List.getElem_drop, Vector.getElem_toList]
    exact BitVec.eq_of_toNat_eq hzero
  · rw [shiftRight_toNat]
    by_contra hne
    have hsplit := high_low hbits (digit x.base (n - d - 1))
    have hone : radix t ≤ 2 ^ bits * digit x.base (n - d - 1) := by
      rw [← hsplit]
      exact Nat.le_add_right_of_le (Nat.le_mul_of_pos_left _ (Nat.pos_of_ne_zero hne))
    have hsum := @upTo_mono (radix t) (digit x.base) n (n - d - 1 + 1) hlast
    rw [upTo_succ] at hsum
    refine Nat.not_le.2 hlt ?_
    calc radix t ^ n = radix t ^ d * radix t ^ (n - d - 1) * radix t := by
          rw [← pow_add, ← pow_succ]
          congr 1
          omega
      _ ≤ radix t ^ d * radix t ^ (n - d - 1) * (2 ^ bits * digit x.base (n - d - 1)) :=
          Nat.mul_le_mul_left _ hone
      _ = 2 ^ bits * (radix t ^ d * (digit x.base (n - d - 1) * radix t ^ (n - d - 1))) := by ring
      _ ≤ 2 ^ bits * (radix t ^ d * x.denote) := Nat.mul_le_mul_left _
          (Nat.mul_le_mul_left _ (le_trans (Nat.le_add_left _ _) hsum))

/-- `mul_pow2` behind its assertions. -/
def mulPow2Body (x : Big t n) (d bits : Nat) : Outcome (Big t n) := do
  let base ← (List.range x.size).reverse.foldlM (moveDigit d) x.base
  let base ← (List.range d).foldlM (fun base i => set base i 0) base
  shiftBits base (x.size + d) d bits

theorem mulPow2_eq (debug : Bool) (x : Big t n) (k : Nat) :
    x.mulPow2 debug k = (do
      assert (k / digitBits t < n) "assertion failed: digits < $n"
      debugAssert debug (x.mulPow2Check (k / digitBits t) (k % digitBits t)) "assertion failed"
      mulPow2Body x (k / digitBits t) (k % digitBits t)) := rfl

theorem mulPow2Body_exact (hx : x.Ok) (hpos : 0 < x.size) (hbits : bits ≤ digitBits t)
    (hd : d < n) (hfit : x.size + d ≤ n) :
    Exact (mulPow2Body x d bits) (2 ^ bits * (radix t ^ d * x.denote)) := by
  obtain ⟨v1, v2, hmove, hclear, hdigit, hvalue⟩ := move_loops hx hd hfit
  rw [mulPow2Body, hmove, ok_bind, hclear, ok_bind, ← hvalue]
  refine shiftBits_exact hbits (by omega) hfit (fun j hj => ?_) fun j hj => ?_
  · rw [hdigit, if_pos hj]
  · rw [hdigit, if_neg (by omega), hx.rest_zero _ (by omega)]

theorem mulPow2Body_zero (hx : x.Ok) (hsize : x.size = 0) (hbits : bits ≤ digitBits t)
    (hd : d < n) : Denotes (mulPow2Body x d bits) (2 ^ bits * (radix t ^ d * x.denote)) := by
  have hzero : x.denote = 0 := (upTo_eq_zero (radix_pos t)).2 fun i _ =>
    hx.rest_zero i (hsize ▸ Nat.zero_le i)
  obtain ⟨v1, v2, hmove, hclear, hdigit, hvalue⟩ := move_loops hx hd (by omega)
  have hv2 : ∀ j, digit v2 j = 0 := fun j => by
    rw [hdigit, hx.rest_zero _ (by omega)]
    exact ite_self 0
  rw [mulPow2Body, hmove, ok_bind, hclear, ok_bind, hsize, zero_add, hzero, mul_zero, mul_zero]
  obtain rfl | hpos := Nat.eq_zero_or_pos bits
  · intro z hz
    cases hz
    exact ⟨⟨le_of_lt hd, fun j _ => hv2 j⟩, (upTo_eq_zero (radix_pos t)).2 fun j _ => hv2 j⟩
  · obtain rfl | hd0 := Nat.eq_zero_or_pos d
    · rw [shiftBits, if_pos hpos]
      exact .error
    · exact (shiftBits_zero hpos hbits hd hd0 hv2).denotes

theorem mulPow2_denotes (debug : Bool) (hx : x.Ok) (k : Nat) :
    Denotes (x.mulPow2 debug k) (2 ^ k * x.denote) := by
  intro z hz
  rw [mulPow2_eq] at hz
  obtain ⟨_, hassert, hz⟩ := bind_eq_ok.1 hz
  obtain ⟨_, -, hz⟩ := bind_eq_ok.1 hz
  have hd := of_decide_eq_true (assert_eq_ok.1 hassert)
  have hbits : k % digitBits t ≤ digitBits t := le_of_lt (Nat.mod_lt _ (digitBits_pos t))
  rw [← pow_bits t k, mul_comm (_ ^ _), mul_assoc]
  obtain hsize | hpos := Nat.eq_zero_or_pos x.size
  · exact mulPow2Body_zero hx hsize hbits hd z hz
  · obtain hfit | hfit := lt_or_ge n (x.size + k / digitBits t)
    · obtain ⟨e, he⟩ := move_halts hx hd hfit
      rw [mulPow2Body, he] at hz
      cases hz
    · exact (mulPow2Body_exact hx hpos hbits hd hfit).denotes z hz

variable {k : Nat}

theorem mulPow2_makes (debug : Bool) (hx : x.Ok) (hpos : 0 < x.size)
    (hfit : x.size + k / digitBits t ≤ n) (hlt : 2 ^ k * x.denote < radix t ^ n) :
    Makes (x.mulPow2 debug k) (2 ^ k * x.denote) := by
  have hbits : k % digitBits t ≤ digitBits t := le_of_lt (Nat.mod_lt _ (digitBits_pos t))
  have hd : k / digitBits t < n := by omega
  rw [← pow_bits t k, mul_comm (_ ^ _), mul_assoc] at hlt ⊢
  rw [mulPow2_eq, bind_of_assert hd, debugAssert_of (mulPow2Check_of hx hbits hd hfit hlt), ok_bind]
  exact (mulPow2Body_exact hx hpos hbits hd hfit).makes hlt

theorem mulPow2_makes_iff (debug : Bool) (hx : x.Ok) (hfit : x.size + k / digitBits t + 1 ≤ n) :
    (∃ z, x.mulPow2 debug k = .ok z) ↔ (x.size = 0 → k < digitBits t → k = 0) := by
  obtain hsize | hpos := Nat.eq_zero_or_pos x.size
  · have hbits : k % digitBits t < digitBits t := Nat.mod_lt _ (digitBits_pos t)
    have hd : k / digitBits t < n := by omega
    have hzero : ∀ i, digit x.base i = 0 := fun i => hx.rest_zero i (hsize ▸ Nat.zero_le i)
    have hvalue : x.denote = 0 := (upTo_eq_zero (radix_pos t)).2 fun i _ => hzero i
    have hcheck := mulPow2Check_of hx hbits.le hd (by omega)
      (by rw [hvalue, mul_zero, mul_zero]; exact Nat.pow_pos (radix_pos t))
    obtain ⟨v₁, v₂, hmove, hclear, hdigit, -⟩ := move_loops hx hd (by omega)
    have hv₂ : ∀ j, digit v₂ j = 0 := fun j => by
      rw [hdigit, hzero]
      exact ite_self 0
    rw [mulPow2_eq, bind_of_assert hd, debugAssert_of hcheck, ok_bind, mulPow2Body, hmove, ok_bind,
      hclear, ok_bind, hsize, zero_add]
    obtain hlow | hd0 := Nat.eq_zero_or_pos (k / digitBits t)
    · have hlt := (Nat.div_eq_zero_iff_lt (digitBits_pos t)).1 hlow
      rw [hlow, Nat.mod_eq_of_lt hlt, shiftBits]
      obtain rfl | hk := Nat.eq_zero_or_pos k
      · exact iff_of_true ⟨_, rfl⟩ fun _ _ => rfl
      · rw [if_pos hk]
        exact iff_of_false nofun fun h => hk.ne' (h rfl hlt)
    · refine iff_of_true ?_ fun _ hlt => ?_
      · obtain hk | hk := Nat.eq_zero_or_pos (k % digitBits t)
        · rw [hk]
          exact ⟨_, rfl⟩
        · obtain ⟨z, hz, -⟩ := shiftBits_zero hk hbits.le hd hd0 hv₂
          exact ⟨z, hz⟩
      · rw [Nat.div_eq_of_lt hlt] at hd0
        exact absurd hd0 (lt_irrefl 0)
  · refine iff_of_true ?_ fun h => absurd h hpos.ne'
    have hlt : 2 ^ k * x.denote < radix t ^ n := by
      rw [← pow_bits t k]
      calc radix t ^ (k / digitBits t) * 2 ^ (k % digitBits t) * x.denote
          < radix t ^ (k / digitBits t) * radix t * radix t ^ x.size := by
            refine Nat.mul_lt_mul_of_le_of_lt (Nat.mul_le_mul_left _ ?_) hx.denote_lt_pow ?_
            · exact Nat.pow_le_pow_right two_pos (Nat.mod_lt _ (digitBits_pos t)).le
            · exact Nat.mul_pos (Nat.pow_pos (radix_pos t)) (radix_pos t)
        _ = radix t ^ (x.size + k / digitBits t + 1) := by ring
        _ ≤ radix t ^ n := Nat.pow_le_pow_right (radix_pos t) hfit
    obtain ⟨z, hz, -⟩ := mulPow2_makes debug hx hpos (by omega) hlt
    exact ⟨z, hz⟩

variable {z : Big t n}

theorem shiftBits_size {sz : Nat}
    (h : shiftBits v sz d bits = .ok z) : sz ≤ z.size ∧ z.size ≤ sz + 1 := by
  rw [shiftBits] at h
  split at h
  · obtain ⟨_, -, h⟩ := bind_eq_ok.1 h
    obtain ⟨a, -, h⟩ := bind_eq_ok.1 h
    have hstep : ∀ {v1 : Vector (Digit t) n} {sz1 : Nat}, (do
        let v2 ← (List.range' (d + 1) (sz - (d + 1))).reverse.foldlM (shiftDigit bits) v1
        let b ← FixedArray.get v2 d
        let v3 ← FixedArray.set v2 d (b <<< bits)
        pure (⟨sz1, v3⟩ : Big t n)) = .ok z → z.size = sz1 := by
      intro v1 sz1 h
      obtain ⟨v2, -, h⟩ := bind_eq_ok.1 h
      obtain ⟨b, -, h⟩ := bind_eq_ok.1 h
      obtain ⟨v3, -, h⟩ := bind_eq_ok.1 h
      cases h
      rfl
    dsimp only at h
    split at h
    · obtain ⟨v1, -, h⟩ := bind_eq_ok.1 h
      have := hstep h
      omega
    · have := hstep h
      omega
  · cases h
    exact ⟨le_refl sz, Nat.le_succ sz⟩

theorem mulPow2_size {debug : Bool} (h : x.mulPow2 debug k = .ok z) :
    x.size + k / digitBits t ≤ z.size ∧ z.size ≤ x.size + k / digitBits t + 1 := by
  obtain ⟨_, -, h⟩ := bind_eq_ok.1 h
  obtain ⟨_, -, h⟩ := bind_eq_ok.1 h
  obtain ⟨v1, -, h⟩ := bind_eq_ok.1 h
  obtain ⟨v2, -, h⟩ := bind_eq_ok.1 h
  exact shiftBits_size h

end Tortis.Num.Big
