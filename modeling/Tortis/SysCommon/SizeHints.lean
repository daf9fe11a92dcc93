import Tortis.SysCommon.Wide

/-!
# Size hints of the UTF-16 iterators

`EncodeWide` keeps the second unit of a pair, and `DecodeUtf16` a unit it has read too far, outside
of the iterator below. Their hints look at that iterator alone, so the upper bound misses the unit
that is kept where nothing makes up for it.
-/

namespace Tortis.SysCommon

open Str Outcome List Option EncodeWide DecodeUtf16

/-! ## The code -/

/-- `Wtf8CodePoints::size_hint`. -/
def codePointsSizeHint (bytes : List UInt8) : Nat × Option Nat :=
  (min (bytes.length + 3) (2 ^ 64 - 1) / 4, some bytes.length)

def checkedMul (a b : Nat) : Option Nat := if a * b < 2 ^ 64 then some (a * b) else none

def EncodeWide.sizeHint (self : EncodeWide) : Nat × Option Nat :=
  let (low, high) := codePointsSizeHint self.codePoints
  (low, high.bind fun n => checkedMul n 2)

/-- `DecodeUtf16::size_hint`, over an iterator with an exact one. -/
def DecodeUtf16.sizeHint (self : DecodeUtf16) : Nat × Option Nat :=
  let (low, high) := (self.iter.length, some self.iter.length)
  (low / 2, high)

/-! ## What is left of an iterator -/

section
variable {S I : Type} (next : S → Outcome (Option (I × S)))

/-- The iterator after some calls of `next`. -/
def advance : Nat → S → Outcome S
  | 0, s => .ok s
  | k + 1, s => do
    match ← next s with
    | none => .ok s
    | some (_, s) => advance k s

/-- So many items are left. -/
inductive Yields : S → Nat → Prop
  | nil {s} : next s = .ok none → Yields s 0
  | cons {s a s' n} : next s = .ok (some (a, s')) → Yields s' n → Yields s (n + 1)

end

def Bounds (hint : Nat × Option Nat) (n : Nat) : Prop := hint.1 ≤ n ∧ ∀ high ∈ hint.2, n ≤ high

/-! ## `EncodeWide` -/

theorem EncodeWide.advance_spec : ∀ (k : Nat) (extra : UInt16) (cs : List CodePoint),
    ∃ extra' cs', advance EncodeWide.next k ⟨encodeAll cs, extra⟩ = .ok ⟨encodeAll cs', extra'⟩
  | 0, extra, cs => ⟨extra, cs, rfl⟩
  | k + 1, extra, cs => by
    rw [advance]
    rcases next_spec extra cs with ⟨-, hnext⟩ | ⟨u, extra', cs', -, hnext⟩
    · exact ⟨extra, cs, by rw [hnext, ok_bind]⟩
    · rw [hnext, ok_bind]
      exact advance_spec k extra' cs'

theorem EncodeWide.yields_pending : ∀ {n : Nat} {extra : UInt16} {cs : List CodePoint},
    (pending extra cs).length = n → Yields EncodeWide.next ⟨encodeAll cs, extra⟩ n
  | 0, extra, cs, hn => by
    rcases next_spec extra cs with ⟨-, hnext⟩ | ⟨u, extra', cs', hcons, -⟩
    · exact .nil hnext
    · rw [hcons] at hn
      cases hn
  | n + 1, extra, cs, hn => by
    rcases next_spec extra cs with ⟨hnil, -⟩ | ⟨u, extra', cs', hcons, hnext⟩
    · rw [hnil] at hn
      cases hn
    · rw [hcons] at hn
      exact .cons hnext (yields_pending (Nat.succ.inj hn))

theorem length_encodeAll_le (cs : List CodePoint) :
    (encodeAll cs).length ≤ 4 * (wide cs).length := by
  induction cs with
  | nil => exact le_refl 0
  | cons c cs ih =>
    rw [wide_cons, encodeAll_cons, length_append, length_append]
    have hencode : c.encode.length ≤ 4 := by
      have hshape := c.shape
      generalize c.encode = m at hshape
      cases hshape <;> simp
    have hunits : 1 ≤ c.units.length := by
      have hspec := c.units_spec
      generalize c.units = l at hspec
      cases hspec <;> simp
    omega

/-- The hint is right unless all that is left is the second unit of a pair. -/
theorem EncodeWide.bounds_iff (extra : UInt16) (cs : List CodePoint) :
    Bounds (sizeHint ⟨encodeAll cs, extra⟩) (pending extra cs).length ↔
      extra = 0 ∨ encodeAll cs ≠ [] := by
  have hle := length_wide_le cs
  have hle' := length_encodeAll_le cs
  have hlen : (pending extra cs).length = (wide cs).length + if extra = 0 then 0 else 1 := by
    rw [pending]
    split <;> simp
  rw [← length_pos_iff, hlen]
  simp only [Bounds, sizeHint, codePointsSizeHint, checkedMul, bind_some,
    mem_def, ite_none_right_eq_some, Option.some.injEq]
  by_cases hextra : extra = 0
  · rw [if_pos hextra, iff_true_right (.inl hextra)]
    exact ⟨by omega, fun high hhigh => by omega⟩
  · rw [if_neg hextra, or_iff_right hextra]
    constructor
    · rintro ⟨-, hhigh⟩
      by_contra hzero
      have := hhigh _ ⟨by omega, rfl⟩
      omega
    · intro hpos
      exact ⟨by omega, fun high hhigh => by omega⟩

/-! ## `DecodeUtf16` -/

/-- How many surrogate pairs there are. -/
def pairs : List UInt16 → Nat
  | u :: v :: r =>
    if (0xD800 ≤ u.toNat ∧ u.toNat ≤ 0xDBFF) ∧ 0xDC00 ≤ v.toNat ∧ v.toNat ≤ 0xDFFF then
      pairs r + 1
    else pairs (v :: r)
  | _ => 0

theorem pairs_one {u : UInt16} {r : List UInt16}
    (h : (0xD800 ≤ u.toNat ∧ u.toNat ≤ 0xDBFF) → ∀ t ∈ r.head?, ¬ TrailUnit t) :
    pairs (u :: r) = pairs r := by
  cases r with
  | nil => rfl
  | cons v r => rw [pairs, if_neg fun ⟨hu, hv⟩ => h hu v rfl hv]

theorem two_mul_pairs_le : ∀ l : List UInt16, 2 * pairs l ≤ l.length
  | [] => le_refl 0
  | [_] => Nat.zero_le 1
  | u :: v :: r => by
    rw [pairs]
    have h1 := two_mul_pairs_le r
    have h2 := two_mul_pairs_le (v :: r)
    simp only [length_cons] at h2 ⊢
    split <;> omega

theorem DecodeUtf16.advance_spec : ∀ (k : Nat) (d : DecodeUtf16),
    ∃ d', advance DecodeUtf16.next k d = .ok d'
  | 0, d => ⟨d, rfl⟩
  | k + 1, d => by
    rw [advance]
    cases hview : d.view with
    | nil => exact ⟨d, by rw [DecodeUtf16.next, take_nil hview, ok_bind]⟩
    | cons u r =>
      obtain ⟨item, d', c, hnext, -⟩ := next_spec hview
      rw [hnext, ok_bind]
      exact advance_spec k d'

/-- Two units make one item where they are a pair, and a unit makes one elsewhere. -/
theorem DecodeUtf16.yields_spec : ∀ {n : Nat} {d : DecodeUtf16}, d.view.length < n →
    ∃ k, Yields DecodeUtf16.next d k ∧ k + pairs d.view = d.view.length
  | 0, d, hn => absurd hn (Nat.not_lt_zero _)
  | n + 1, d, hn => by
    cases hview : d.view with
    | nil => exact ⟨0, .nil (by rw [DecodeUtf16.next, take_nil hview]), rfl⟩
    | cons u r =>
      obtain ⟨item, d', c, hnext, hunits, -, hlead⟩ := next_spec hview
      rw [hunits] at hn
      rw [← hview, hunits]
      have hspec := c.units_spec
      generalize c.units = l at hspec hunits hn ⊢
      cases hspec with
      | @one u hu =>
        obtain ⟨k, hk, hlen⟩ := @yields_spec n d' (by simpa using hn)
        refine ⟨k + 1, .cons hnext hk, ?_⟩
        rw [singleton_append, pairs_one fun h => hlead (by rwa [hu] at h), length_cons]
        omega
      | @two u v hu hv h1 h2 =>
        obtain ⟨k, hk, hlen⟩ := @yields_spec n d' (by simp at hn; omega)
        refine ⟨k + 1, .cons hnext hk, ?_⟩
        rw [cons_append, singleton_append, pairs, if_pos (by omega)]
        simp only [length_cons]
        omega

/-- After any number of calls, the hints are right if and only if no unit is kept, or there are code
points left to encode, or a pair is left to decode. -/
theorem sizeHint_bounds_iff (k : Nat) (cs : List CodePoint) (v : List UInt16) :
    (∃ it n, advance EncodeWide.next k ⟨encodeAll cs, 0⟩ = .ok it ∧ Yields EncodeWide.next it n ∧
      (Bounds it.sizeHint n ↔ it.extra = 0 ∨ it.codePoints ≠ [])) ∧
    ∃ d n, advance DecodeUtf16.next k ⟨v, none⟩ = .ok d ∧ Yields DecodeUtf16.next d n ∧
      (Bounds d.sizeHint n ↔ d.buf = none ∨ 0 < pairs d.view) := by
  constructor
  · obtain ⟨extra, cs', hrun⟩ := advance_spec k 0 cs
    exact ⟨_, _, hrun, yields_pending rfl, bounds_iff extra cs'⟩
  · obtain ⟨d, hrun⟩ := advance_spec k ⟨v, none⟩
    obtain ⟨n, hn, hlen⟩ := yields_spec (Nat.lt_succ_self d.view.length)
    refine ⟨d, n, hrun, hn, ?_⟩
    have hle := two_mul_pairs_le d.view
    obtain ⟨iter, buf⟩ := d
    cases buf <;>
      simp [Bounds, DecodeUtf16.sizeHint, DecodeUtf16.view] at hlen hle ⊢ <;> omega

theorem sizeHint_misses_kept :
    (∃ it, advance EncodeWide.next 1 ⟨[0xF0, 0x90, 0x80, 0x80], 0⟩ = .ok it ∧
      Yields EncodeWide.next it 1 ∧ ¬ Bounds it.sizeHint 1) ∧
    ∃ d, advance DecodeUtf16.next 1 ⟨[0xD800, 0x41], none⟩ = .ok d ∧
      Yields DecodeUtf16.next d 1 ∧ ¬ Bounds d.sizeHint 1 := by
  refine ⟨⟨⟨[], 0xDC00⟩, by decide, .cons rfl (.nil rfl), ?_⟩,
    ⟨[], some 0x41⟩, by decide, .cons rfl (.nil rfl), ?_⟩ <;>
    exact fun h => absurd (h.2 0 rfl) (by decide)

end Tortis.SysCommon
