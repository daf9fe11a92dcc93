import Mathlib.Data.Rat.Floor
import Tortis.Lib.Shortest
import Tortis.Num.DragonScale
import Tortis.Num.Division

/-!
# The loop of the slow printer

The number that the digits of a buffer denote. `round_up` adds one to it, and has no carry left over
when the sum has no more digits.

An iteration divides by the scale with four comparisons (`divRemUpto16_spec`), so it generates the
next digit of the number (`Shortest.Rest`), and its two comparisons say whether a candidate is
within the bounds.
-/

namespace Tortis.Num

open Outcome List Slice

def IsDigits (l : List UInt8) : Prop := ∀ c ∈ l, 48 ≤ c.toNat ∧ c.toNat ≤ 57

/-- The number that decimal digits denote, from the most significant one on. -/
def numeral (l : List UInt8) : Nat := l.foldl (fun N c => N * 10 + (c.toNat - 48)) 0

variable {l l' : List UInt8} {c : UInt8} {n : Nat}

theorem isDigits_append : IsDigits (l ++ l') ↔ IsDigits l ∧ IsDigits l' := forall_mem_append

theorem isDigits_replicate (hc : 48 ≤ c.toNat ∧ c.toNat ≤ 57) (m : Nat) :
    IsDigits (replicate m c) := by
  intro c' h
  rwa [eq_of_mem_replicate h]

@[simp] theorem numeral_nil : numeral [] = 0 := rfl

theorem numeral_concat (l : List UInt8) (c : UInt8) :
    numeral (l ++ [c]) = numeral l * 10 + (c.toNat - 48) := by
  rw [numeral, foldl_append, foldl_cons, foldl_nil, numeral]

theorem numeral_append (l l' : List UInt8) :
    numeral (l ++ l') = numeral l * 10 ^ l'.length + numeral l' := by
  induction l' using List.reverseRecOn with
  | nil => simp
  | append_singleton l' c ih =>
    rw [← append_assoc, numeral_concat, ih, numeral_concat, length_append,
      length_singleton, pow_succ]
    ring

theorem numeral_lt (h : IsDigits l) : numeral l < 10 ^ l.length := by
  induction l using List.reverseRecOn with
  | nil => simp
  | append_singleton l c ih =>
    obtain ⟨hl, hc⟩ := isDigits_append.1 h
    have hlt := ih hl
    have hdigit := hc c (mem_singleton_self c)
    rw [numeral_concat, length_append, length_singleton, pow_succ]
    omega

theorem numeral_zeros (m : Nat) : numeral (replicate m 48) = 0 := by
  induction m with
  | zero => rfl
  | succ m ih =>
    rw [replicate_succ', numeral_concat, ih]
    rfl

theorem numeral_nines (m : Nat) : numeral (replicate m 57) + 1 = 10 ^ m := by
  induction m with
  | zero => rfl
  | succ m ih =>
    rw [replicate_succ', numeral_concat, pow_succ, ← ih, show (57 : UInt8).toNat - 48 = 9
      from rfl]
    ring

theorem head_ne_zero (h : IsDigits l) (hle : 10 ^ (l.length - 1) ≤ numeral l) :
    l.head? ≠ some 48 := by
  cases l with
  | nil => exact nofun
  | cons c l =>
    intro hc
    cases hc
    have hlt := numeral_lt (isDigits_append.1 (show IsDigits ([48] ++ l) from h)).2
    have hval : numeral (48 :: l) = numeral l := by
      rw [← singleton_append, numeral_append, show numeral [48] = 0 from rfl, zero_mul, zero_add]
    rw [hval, length_cons, Nat.add_sub_cancel] at hle
    omega

variable {d : List UInt8}

theorem set_digit {i m : Nat} (hi : i < d.length) (h : IsDigits (d.take i))
    (hm : m < 10) : ∃ d', Slice.set d i (48 + UInt8.ofNat m) = .ok d' ∧ d'.length = d.length ∧
      IsDigits (d'.take (i + 1)) ∧ numeral (d'.take (i + 1)) = numeral (d.take i) * 10 + m := by
  have hval : (48 + UInt8.ofNat m).toNat = 48 + m := by
    rw [UInt8.toNat_add, UInt8.toNat_ofNat_of_lt' (show m < UInt8.size by change m < 256; omega)]
    exact Nat.mod_eq_of_lt (by change 48 + m < 256; omega)
  have htake : (d.set i (48 + UInt8.ofNat m)).take (i + 1) = d.take i ++ [48 + UInt8.ofNat m] := by
    rw [take_add_one, take_set_of_le (le_refl i), getElem?_set_self hi]
    rfl
  refine ⟨_, Slice.set_eq hi _, length_set, ?_, ?_⟩
  · rw [htake]
    refine isDigits_append.2 ⟨h, fun c hc => ?_⟩
    rw [mem_singleton.1 hc, hval]
    omega
  · rw [htake, numeral_concat, hval, Nat.add_sub_cancel_left]

/-! ## Rounding -/

theorem fillZeros_eq : ∀ (a b d : List UInt8), fillZeros (a ++ b ++ d) a.length (a.length + b.length) =
    .ok (a ++ replicate b.length 48 ++ d) := by
  intro a b d
  rw [fillZeros, Nat.add_sub_cancel_left]
  induction b generalizing a with
  | nil => rfl
  | cons c b ih =>
    rw [length_cons, range'_succ, foldlM_cons, append_assoc, cons_append, set_append rfl, ok_bind]
    have := ih (a ++ [48])
    simpa [replicate_succ] using this

theorem exists_rposition (hdigits : IsDigits l) (hlt : numeral l + 1 < 10 ^ l.length) :
    ∃ a c m, Pieces.rposition (fun c => c != 57) l = some a.length ∧
      l = a ++ c :: replicate m 57 ∧ c.toNat ≤ 56 := by
  cases hpos : Pieces.rposition (fun c => c != 57) l with
  | none =>
    have hnines : l = replicate l.length 57 :=
      eq_replicate_iff.2 ⟨rfl, fun c hc => by simpa using Pieces.rposition_none hpos c hc⟩
    have := numeral_nines l.length
    rw [← hnines] at this
    omega
  | some i =>
    obtain ⟨a, c, b, hsplit, rfl, hc, hb⟩ := Pieces.rposition_some hpos
    have hb : b = replicate b.length 57 := eq_replicate_iff.2 ⟨rfl, fun c hc => by
      simpa using hb c hc⟩
    refine ⟨a, c, b.length, rfl, by rw [← hb, hsplit], ?_⟩
    have hne : c ≠ 57 := by simpa using hc
    have hle := (hdigits c (by rw [hsplit]; simp)).2
    have : c.toNat ≠ 57 := fun h => hne (UInt8.toNat_inj.1 h)
    omega

theorem toNat_succ (hc : c.toNat ≤ 56) : (c + 1).toNat = c.toNat + 1 := by
  exact Nat.mod_eq_of_lt (by change c.toNat + 1 < 256; omega)

theorem numeral_carry {a : List UInt8} {m : Nat} (h : IsDigits (a ++ c :: replicate m 57))
    (hc : c.toNat ≤ 56) : IsDigits (a ++ [c + 1] ++ replicate m 48) ∧
      numeral (a ++ [c + 1] ++ replicate m 48) = numeral (a ++ c :: replicate m 57) + 1 := by
  obtain ⟨ha, hcb⟩ := isDigits_append.1 h
  have hc48 := (hcb c (by simp)).1
  have hnines := numeral_nines m
  have hsub : c.toNat + 1 - 48 = c.toNat - 48 + 1 := by omega
  constructor
  · refine isDigits_append.2 ⟨isDigits_append.2 ⟨ha, ?_⟩, isDigits_replicate (by decide) _⟩
    intro c' hc'
    rw [mem_singleton.1 hc', toNat_succ hc]
    omega
  · rw [numeral_append, numeral_zeros, length_replicate, numeral_concat, toNat_succ hc,
      append_cons a, numeral_append, length_replicate, numeral_concat, add_assoc, hnines, hsub]
    ring

theorem roundUp_eq (hn : n ≤ d.length) (hdigits : IsDigits (d.take n))
    (hlt : numeral (d.take n) + 1 < 10 ^ n) : ∃ d', roundUp d n = .ok (none, d') ∧ d'.length =
    d.length ∧ IsDigits (d'.take n) ∧ numeral (d'.take n) = numeral (d.take n) + 1 := by
  have hlen : (d.take n).length = n := by rw [length_take, min_eq_left hn]
  obtain ⟨a, c, m, hpos, hsplit, hc⟩ := exists_rposition hdigits (by rwa [hlen])
  have hn' : n = a.length + 1 + m := by
    rw [← hlen, hsplit]
    simp
    omega
  have hd : d = a ++ c :: (replicate m 57 ++ d.drop n) := by
    rw [← cons_append, ← append_assoc, ← hsplit, take_append_drop]
  have hset : Slice.set d a.length (c + 1) = .ok (a ++ [c + 1] ++ replicate m 57 ++ d.drop n) := by
    conv_lhs => rw [hd]
    rw [set_append rfl]
    simp
  have hfill := fillZeros_eq (a ++ [c + 1]) (replicate m 57) (d.drop n)
  rw [length_append, length_singleton, length_replicate, ← hn'] at hfill
  have htake : (a ++ [c + 1] ++ replicate m 48 ++ d.drop n).take n =
      a ++ [c + 1] ++ replicate m 48 := by
    refine take_left' ?_
    rw [length_append, length_append, length_singleton, length_replicate, hn']
  rw [hsplit] at hdigits
  refine ⟨a ++ [c + 1] ++ replicate m 48 ++ d.drop n, ?_, ?_, ?_⟩
  · have hget : Slice.get d a.length = .ok c := by
      rw [hd]
      exact get_append rfl
    rw [roundUp, sliceTo, if_pos hn, ok_bind, hpos]
    simp only [hget, ok_bind, hset, hfill, pure_eq]
  · conv_rhs => rw [hd]
    simp
  · rw [htake, hsplit]
    exact numeral_carry hdigits hc

end Tortis.Num

/-! ## The loop of the slow printer -/

namespace Tortis.Num.Dragon

open Big Shortest Outcome List

variable {x y : Big32x40} {f : Fraction} {m mi pl s d w : Nat} {incl : Bool}

/-- There is room for small multiples of the scale. -/
def Small (s : Nat) : Prop := 128 * s ≤ radix 2 ^ 40

theorem Small.lt {v : Nat} (hs : Small s) (h : v < 128 * s) : v < radix 2 ^ 40 :=
  lt_of_lt_of_le h hs

/-! ## The next digit -/

theorem divRemBit16_spec (hx : x.Ok) (hy : y.Ok) (hlt : x.denote < 2 * y.denote) (d w : Nat) :
    ∃ b x', divRemBit16 x y d w = .ok (d + b * w, x') ∧ x'.Ok ∧ x'.denote < y.denote ∧
      x.denote = b * y.denote + x'.denote ∧ x.size ≤ x'.size := by
  rw [divRemBit16, cmp_ok hx hy, ok_bind]
  obtain h | h := lt_or_ge x.denote y.denote
  · rw [if_neg (by rw [not_not]; exact Nat.compare_eq_lt.2 h)]
    exact ⟨0, x, by rw [zero_mul, add_zero]; rfl, hx, h, by rw [zero_mul, zero_add], le_rfl⟩
  · rw [if_pos (by rw [ne_eq, Nat.compare_eq_lt]; exact Nat.not_lt.2 h)]
    obtain ⟨-, z, hz, hok, hval⟩ | ⟨hlt', -⟩ := sub_cases hx hy
    · refine ⟨1, z, ?_, hok, by omega, by omega, sub_size hz ▸ le_max_left _ _⟩
      rw [hz, ok_bind, one_mul]
      rfl
    · omega

structure Multiples.Holds (m : Multiples) (s : Nat) : Prop where
  scale : m.scale.Ok ∧ m.scale.denote = s
  scale2 : m.scale2.Ok ∧ m.scale2.denote = 2 * s
  scale4 : m.scale4.Ok ∧ m.scale4.denote = 4 * s
  scale8 : m.scale8.Ok ∧ m.scale8.denote = 8 * s

theorem multiples_spec (debug : Bool) (hx : x.Ok ∧ x.denote = s) (hpos : 0 < s) (hs : Small s) :
    ∃ ms, multiples debug x = .ok ms ∧ ms.Holds s ∧ ms.scale = x := by
  obtain ⟨hx, rfl⟩ := hx
  have hsize := hx.size_pos hpos
  have hle := hx.size_le
  have hbits : digitBits 2 = 32 := rfl
  obtain ⟨x2, h2, hok2, hv2⟩ := mulPow2_makes (k := 1) debug hx hsize (by rw [hbits]; omega)
    (hs.lt (by omega))
  obtain ⟨x4, h4, hok4, hv4⟩ := mulPow2_makes (k := 2) debug hx hsize (by rw [hbits]; omega)
    (hs.lt (by omega))
  obtain ⟨x8, h8, hok8, hv8⟩ := mulPow2_makes (k := 3) debug hx hsize (by rw [hbits]; omega)
    (hs.lt (by omega))
  refine ⟨⟨x, x2, x4, x8⟩, ?_, ⟨⟨hx, rfl⟩, ⟨hok2, hv2⟩, ⟨hok4, hv4⟩, hok8, hv8⟩, rfl⟩
  rw [multiples, h2, ok_bind, h4, ok_bind, h8]
  rfl

variable {ms : Multiples}

theorem divRemUpto16_spec (debug : Bool) (hms : ms.Holds s) (hx : x.Ok)
    (hlt : x.denote < 16 * s) : ∃ x', divRemUpto16 debug x ms.scale ms.scale2 ms.scale4 ms.scale8 =
    .ok (x.denote / s, x') ∧ x'.Ok ∧ x'.denote = x.denote % s ∧ x.size ≤ x'.size := by
  obtain ⟨⟨h1, hv1⟩, ⟨h2, hv2⟩, ⟨h4, hv4⟩, ⟨h8, hv8⟩⟩ := hms
  obtain ⟨b8, x8, hr8, hok8, hlt8, he8, hs8⟩ := divRemBit16_spec hx h8 (by omega) 0 8
  obtain ⟨b4, x4, hr4, hok4, hlt4, he4, hs4⟩ := divRemBit16_spec hok8 h4 (by omega) (0 + b8 * 8) 4
  obtain ⟨b2, x2, hr2, hok2, hlt2, he2, hs2⟩ := divRemBit16_spec hok4 h2 (by omega)
    (0 + b8 * 8 + b4 * 4) 2
  obtain ⟨b1, x1, hr1, hok1, hlt1, he1, hs1⟩ := divRemBit16_spec hok2 h1 (by omega)
    (0 + b8 * 8 + b4 * 4 + b2 * 2) 1
  have hsum : x1.denote + s * (0 + b8 * 8 + b4 * 4 + b2 * 2 + b1 * 1) = x.denote := by
    rw [hv8] at he8
    rw [hv4] at he4
    rw [hv2] at he2
    rw [hv1] at he1
    rw [he8, he4, he2, he1]
    ring
  rw [hv1] at hlt1
  obtain ⟨hdiv, hmod⟩ := (Nat.div_mod_unique (Nat.zero_lt_of_lt hlt1)).2 ⟨hsum, hlt1⟩
  refine ⟨x1, ?_, hok1, hmod.symm, by omega⟩
  rw [divRemUpto16, hr8]
  simp only [ok_bind, hr4, hr2, hr1, cmp_ok hok1 h1, hdiv]
  rw [debugAssert_of (decide_eq_true (Nat.compare_eq_lt.2 (by rwa [hv1]))), ok_bind]
  rfl

/-! ## The comparisons -/

theorem orderingLt_rounding (a b : Nat) :
    orderingLt (compare a b) (rounding incl) = decide (if incl then a ≤ b else a < b) := by
  obtain h | rfl | h := lt_trichotomy a b
  · rw [Nat.compare_eq_lt.2 h]
    cases incl <;> simp [orderingLt, rounding, h, h.le]
  · cases incl <;> simp [orderingLt, rounding]
  · rw [Nat.compare_eq_gt.2 h]
    cases incl <;> simp [orderingLt, h, h.le]

theorem roundsUp_spec (hf : f.Holds m mi pl s) (hlt : m + pl < radix 2 ^ 40) :
    f.roundsUp incl = .ok (decide (if incl then s ≤ m + pl else s < m + pl)) := by
  obtain ⟨⟨hm, hmv⟩, -, ⟨hpl, hplv⟩, ⟨hs, hsv⟩⟩ := hf
  obtain ⟨z, hz, hok, hval⟩ := (add_exact hm hpl).makes (by rwa [hmv, hplv])
  rw [Fraction.roundsUp, hz, ok_bind, cmp_ok hs hok, ok_bind, hsv, hval, hmv, hplv,
    orderingLt_rounding]
  rfl

theorem timesTen_spec (hf : f.Holds m mi pl s) (hm : 10 * m < radix 2 ^ 40)
    (hmi : 10 * mi < radix 2 ^ 40) (hpl : 10 * pl < radix 2 ^ 40) : ∃ f', f.timesTen = .ok f' ∧
    f'.Holds (10 * m) (10 * mi) (10 * pl) s ∧ f'.scale = f.scale ∧ f.mant.size ≤ f'.mant.size := by
  have hten : ∀ {x : Big32x40} {v : Nat}, x.Ok ∧ x.denote = v → 10 * v < radix 2 ^ 40 →
      ∃ z, x.mulSmall 10 = .ok z ∧ z.Ok ∧ z.denote = 10 * v := by
    intro x v hx hlt
    rw [← hx.2] at hlt ⊢
    exact (mulSmall_exact hx.1 10).makes hlt
  obtain ⟨hfm, hfmi, hfpl, hfs⟩ := hf
  obtain ⟨z, hz, hzv⟩ := hten hfm hm
  obtain ⟨z', hz', hzv'⟩ := hten hfmi hmi
  obtain ⟨z'', hz'', hzv''⟩ := hten hfpl hpl
  refine ⟨⟨z, z', z'', f.scale⟩, ?_, ⟨hzv, hzv', hzv'', hfs⟩, rfl, (mulSmall_size hz).1⟩
  rw [Fraction.timesTen, hz, ok_bind, hz', ok_bind, hz'']
  rfl

/-! ## The digits -/

variable {I : Bounds ℚ} {k : Int} {i N : Nat} {buf : List UInt8}

/-- What the loop ends with: the digits up to the first candidate, and the rest of the number. -/
structure Generated.Ends (g : Generated) (I : Bounds ℚ) (k : Int) (s len : Nat) : Prop where
  stops : Stops I 10 k g.i
  le : g.i ≤ 17
  length : g.buf.length = len
  digits : IsDigits (g.buf.take g.i)
  value : numeral (g.buf.take g.i) = floorAt I 10 k g.i
  down : g.down = true ↔ Down I 10 k g.i
  up : g.up = true ↔ Up I 10 k g.i
  mant_ok : g.mant.Ok
  mant_lt : g.mant.denote < s
  mant_size : 0 < g.mant.size
  floor_nearer : I.value - floorAt I 10 k g.i * unit ℚ 10 k g.i ≤
    (floorAt I 10 k g.i + 1) * unit ℚ 10 k g.i - I.value ↔ 2 * g.mant.denote ≤ s
  ceil_nearer : (floorAt I 10 k g.i + 1) * unit ℚ 10 k g.i - I.value ≤
    I.value - floorAt I 10 k g.i * unit ℚ 10 k g.i ↔ s ≤ 2 * g.mant.denote

/-- The state of the loop before an iteration. -/
structure LoopAt (I : Bounds ℚ) (k : Int) (ms : Multiples) (s : Nat) (f : Fraction)
    (buf : List UInt8) (i N m mi pl : Nat) : Prop where
  rest : Rest I 10 k s i N m mi pl
  holds : f.Holds m mi pl s
  scale : f.scale = ms.scale
  mant_size : 0 < f.mant.size
  minus_le : mi ≤ 10 * s
  plus_le : pl ≤ 10 * s
  before : ∀ j, 1 ≤ j → j ≤ i → ¬Down I 10 k j ∧ ¬Up I 10 k j
  digits : IsDigits (buf.take i)
  value : numeral (buf.take i) = N
  le : i ≤ 16
  length : 17 ≤ buf.length

theorem LoopAt.next (hs : 0 < s) (hsmall : Small s)
    (h : LoopAt I k ms s f buf i N m mi pl) (hdown : ¬Down I 10 k (i + 1))
    (hup : ¬Up I 10 k (i + 1)) (hle : i + 1 ≤ 16) {x' : Big32x40} (hx' : x'.Ok ∧ x'.denote = m % s)
    (hsize : 0 < x'.size)
    {buf' : List UInt8} (hlen : buf'.length = buf.length) (hdigits : IsDigits (buf'.take (i + 1)))
    (hvalue : numeral (buf'.take (i + 1)) = N * 10 + m / s) :
    ∃ f', Fraction.timesTen { f with mant := x' } = .ok f' ∧
      LoopAt I k ms s f' buf' (i + 1) (N * 10 + m / s) (10 * (m % s)) (10 * mi) (10 * pl) := by
  have hmod := Nat.mod_lt m hs
  have hmi : mi ≤ s := by
    rw [h.rest.down_iff (by decide) hs] at hdown
    split at hdown <;> omega
  have hpl : pl ≤ s := by
    rw [h.rest.up_iff (by decide) hs] at hup
    split at hup <;> omega
  obtain ⟨f', hf', hholds, hscale, hsize'⟩ := @timesTen_spec { f with mant := x' } _ _ _ _
    ⟨hx', h.holds.minus, h.holds.plus, h.holds.scale⟩ (hsmall.lt (by omega)) (hsmall.lt (by omega))
    (hsmall.lt (by omega))
  refine ⟨f', hf', h.rest.next (by decide) hs, hholds, hscale.trans h.scale,
    lt_of_lt_of_le hsize hsize', by omega, by omega, ?_, hdigits, hvalue, hle, hlen ▸ h.length⟩
  intro j hj hji
  obtain hlt | rfl := lt_or_eq_of_le hji
  · exact h.before j hj (Nat.le_of_lt_succ hlt)
  · exact ⟨hdown, hup⟩

theorem shortestLoop_spec (debug : Bool) (hs : 0 < s) (hsmall : Small s)
    (hms : ms.Holds s) (hlast : Down I 10 k 17 ∨ Up I 10 k 17) {fuel : Nat} :
    LoopAt I k ms s f buf i N m mi pl → 17 ≤ i + fuel →
      ∃ g, shortestLoop debug I.inclusive ms fuel f buf i = .ok g ∧ g.Ends I k s buf.length := by
  induction fuel generalizing f buf i N m mi pl with
  | zero =>
    intro h hfuel
    have := h.le
    omega
  | succ fuel ih =>
    intro h hfuel
    have hlt := h.rest.lt
    have hle := h.le
    have hlen := h.length
    obtain ⟨hm, hmv⟩ := h.holds.mant
    obtain ⟨hmi, hmiv⟩ := h.holds.minus
    have hmod := Nat.mod_lt m hs
    have hpl10 := h.plus_le
    obtain ⟨x', hdiv, hx', hxv, hsize⟩ := divRemUpto16_spec debug hms hm (by rw [hmv]; omega)
    rw [hmv] at hdiv hxv
    rw [← h.scale] at hdiv
    have hsize : 0 < x'.size := lt_of_lt_of_le h.mant_size hsize
    have hdigit : m / s < 10 := h.rest.digit_lt
    obtain ⟨buf', hset, hlen', hdigits, hvalue⟩ := set_digit (show i < buf.length by omega) h.digits
      hdigit
    rw [h.value] at hvalue
    have hholds : Fraction.Holds { f with mant := x' } (m % s) mi pl s :=
      ⟨⟨hx', hxv⟩, h.holds.minus, h.holds.plus, h.holds.scale⟩
    have hdown := (h.rest.down_iff (by decide) hs).trans decide_eq_true_iff.symm
    have hup := (h.rest.up_iff (by decide) hs).trans decide_eq_true_iff.symm
    rw [shortestLoop, hdiv, ok_bind]
    dsimp only
    rw [debugAssert_of (decide_eq_true hdigit), ok_bind, hset, ok_bind]
    simp only [cmp_ok hx' hmi, ok_bind, roundsUp_spec hholds (hsmall.lt (by omega)), hxv, hmiv,
      orderingLt_rounding]
    generalize decide (if I.inclusive = true then m % s ≤ mi else m % s < mi) = down at hdown ⊢
    generalize decide (if I.inclusive = true then s ≤ m % s + pl else s < m % s + pl) = up at hup ⊢
    by_cases hstop : Down I 10 k (i + 1) ∨ Up I 10 k (i + 1)
    · rw [if_pos (by rwa [Bool.or_eq_true, ← hdown, ← hup])]
      refine ⟨_, rfl, ⟨Nat.succ_pos i, hstop, fun j hj hji => h.before j hj (Nat.le_of_lt_succ hji)⟩,
        Nat.succ_le_succ hle, hlen', hdigits, ?_, hdown.symm, hup.symm, hx', hxv ▸ hmod,
        hsize, ?_, ?_⟩
      · rw [hvalue, h.rest.floorAt_eq (by decide) hs]
      · rw [h.rest.floor_nearer_iff (by decide) hs, hxv]
      · rw [h.rest.ceil_nearer_iff (by decide) hs, hxv]
    · rw [if_neg (by rwa [Bool.or_eq_true, ← hdown, ← hup])]
      rw [not_or] at hstop
      have hne : i + 1 ≠ 17 := by
        rintro heq
        rw [heq] at hstop
        exact hlast.elim hstop.1 hstop.2
      obtain ⟨f', hf', hnext⟩ := h.next hs hsmall hstop.1 hstop.2 (by omega) ⟨hx', hxv⟩ hsize hlen'
        hdigits hvalue
      rw [hf', ok_bind, ← hlen']
      exact ih hnext (by omega)

end Tortis.Num.Dragon
