import Tortis.SysCommon.Wtf8

/-!
# Surrogates in a string

A byte that does not continue an encoding begins one, so the scans of `wtf8.rs` stay in phase with
the code points. Surrogates are the code points whose encoding starts with `0xED` and a byte from
`0xA0` on.
-/

namespace Tortis.SysCommon

open PrefixCode Str List Wtf8

/-! ## Boundaries -/

/-- A byte that does not continue an encoding. -/
def Starts (b : UInt8) : Prop := b.toNat < 0x80 ∨ 0xC0 ≤ b.toNat

variable {l : List UInt8} {n : Nat}

theorem Shape.not_starts {x b : UInt8} (h : Shape n (x :: l)) (hb : b ∈ l) : ¬ Starts b := by
  intro hstarts
  rw [Starts] at hstarts
  cases h with
  | one hx h => exact not_mem_nil hb
  | two hx hy h h' =>
    rcases mem_singleton.1 hb with rfl
    omega
  | three hx hy hz h h' =>
    simp only [mem_cons, not_mem_nil, or_false] at hb
    rcases hb with rfl | rfl <;> omega
  | four hx hy hz hw h h' =>
    simp only [mem_cons, not_mem_nil, or_false] at hb
    rcases hb with rfl | rfl | rfl <;> omega

theorem Shape.starts {x : UInt8} (h : Shape n (x :: l)) : Starts x := by
  rw [Starts]
  cases h <;> omega

theorem boundary : ∀ {cs : List CodePoint} {l r : List UInt8}, encodeAll cs = l ++ r →
    (∀ b ∈ r.head?, Starts b) →
      ∃ cs1 cs2, cs = cs1 ++ cs2 ∧ encodeAll cs1 = l ∧ encodeAll cs2 = r
  | [], l, r, h, _ => by
    obtain ⟨rfl, rfl⟩ := append_eq_nil_iff.1 h.symm
    exact ⟨[], [], rfl, rfl, rfl⟩
  | c :: cs, l, r, h, hr => by
    rw [encodeAll_cons] at h
    rcases append_eq_append_iff.1 h with ⟨a, rfl, ha⟩ | ⟨a, hc, rfl⟩
    · obtain ⟨cs1, cs2, rfl, rfl, hcs⟩ := boundary ha hr
      exact ⟨c :: cs1, cs2, rfl, encodeAll_cons c cs1, hcs⟩
    · cases a with
      | nil =>
        rw [append_nil] at hc
        exact ⟨[c], cs, rfl, by rw [← hc]; exact append_nil _, rfl⟩
      | cons b a =>
        cases l with
        | nil => exact ⟨[], c :: cs, rfl, rfl, by rw [encodeAll_cons, hc, nil_append]⟩
        | cons x l =>
          -- the byte is inside the encoding of the first code point
          have hshape := c.shape
          rw [hc] at hshape
          have hmem : b ∈ l ++ b :: a := mem_append_right _ mem_cons_self
          exact absurd (hr b rfl) (Shape.not_starts hshape hmem)

variable {cs : List CodePoint} {w : Wtf8}

theorem isCodePointBoundary_iff (h : w.bytes = encodeAll cs)
    (i : Nat) : w.isCodePointBoundary i = true ↔
      ∃ cs1 cs2, cs = cs1 ++ cs2 ∧ i = (encodeAll cs1).length := by
  have hstarts : ∀ b : UInt8, (b < 128 || 192 ≤ b) = true ↔ Starts b := fun b => by
    rw [Bool.or_eq_true, decide_eq_true_eq, decide_eq_true_eq]
    exact or_congr UInt8.lt_iff_toNat_lt UInt8.le_iff_toNat_le
  rw [isCodePointBoundary, Wtf8.len]
  constructor
  · intro hi
    have hsplit : encodeAll cs = w.bytes.take i ++ w.bytes.drop i := by
      rw [take_append_drop, h]
    have hlen : i ≤ w.bytes.length ∧ ∀ b ∈ (w.bytes.drop i).head?, Starts b := by
      split at hi
      · next heq =>
        rw [beq_iff_eq.1 heq, drop_length]
        exact ⟨le_rfl, nofun⟩
      · split at hi
        · cases hi
        · next b hb =>
          refine ⟨(List.getElem?_eq_some_iff.1 hb).1.le, fun b' hb' => ?_⟩
          rw [List.head?_drop, hb] at hb'
          cases hb'
          exact (hstarts b).1 hi
    obtain ⟨cs1, cs2, rfl, htake, -⟩ := boundary hsplit hlen.2
    exact ⟨cs1, cs2, rfl, by rw [htake, length_take, min_eq_left hlen.1]⟩
  · rintro ⟨cs1, cs2, rfl, rfl⟩
    rw [encodeAll_append] at h
    cases cs2 with
    | nil =>
      rw [encodeAll_nil, append_nil] at h
      rw [h, if_pos (beq_self_eq_true _)]
    | cons c cs2 =>
      split
      · rfl
      · have hshape := c.shape
        rw [encodeAll_cons] at h
        generalize c.encode = l at h hshape
        cases l with
        | nil => exact absurd rfl hshape.ne_nil
        | cons b l =>
          have hget : w.bytes[(encodeAll cs1).length]? = some b := by
            rw [h, getElem?_append_right le_rfl, Nat.sub_self]
            rfl
          rw [hget]
          exact (hstarts b).2 (Shape.starts hshape)

/-! ## The encodings of surrogates -/

variable {y z : UInt8}

theorem toNat_decodeSurrogate (hn : 0xD800 ≤ n) (hn' : n ≤ 0xDFFF)
    (hy : y.toNat = 0x80 + n / 64 % 64) (hz : z.toNat = 0x80 + n % 64) :
    (decodeSurrogate y z).toNat = n := by
  have hmask : ∀ b : UInt8, (b.toUInt16 &&& 0x3F).toNat = b.toNat % 64 := fun b => by
    exact Nat.and_two_pow_sub_one_eq_mod _ 6
  have hhigh : ((y.toUInt16 &&& 0x3F) <<< 6).toNat = y.toNat % 64 * 64 := by
    rw [UInt16.toNat_shiftLeft, hmask, Nat.shiftLeft_eq]
    change y.toNat % 64 * 2 ^ 6 % 2 ^ 16 = _
    omega
  have htag : ∀ p : Fin 64, 32 ≤ p.val → 0xD800 ||| p.val * 64 = 2 ^ 6 * (832 + p.val) := by
    decide
  rw [decodeSurrogate, UInt16.toNat_or, UInt16.toNat_or, hhigh, hmask]
  have hlow : 32 ≤ y.toNat % 64 := by omega
  have hor := htag ⟨y.toNat % 64, Nat.mod_lt _ (by decide)⟩ hlow
  change 0xD800 ||| y.toNat % 64 * 64 ||| z.toNat % 64 = n
  rw [hor, ← Nat.two_pow_add_eq_or_of_lt (Nat.mod_lt _ (by decide))]
  change 2 ^ 6 * (832 + y.toNat % 64) + z.toNat % 64 = n
  omega

variable {c : CodePoint}

theorem encode_surrogate (h : c.IsSurrogate) : ∃ y z : UInt8,
    c.encode = [0xED, y, z] ∧ 0xA0 ≤ y.toNat ∧ y.toNat ≤ 0xBF ∧ (y.toNat ≤ 0xAF ↔ c.IsLead) ∧
      (decodeSurrogate y z).toNat = c.value := by
  obtain ⟨h1, h2⟩ := h
  have hshape := c.shape
  generalize c.encode = l at hshape
  cases hshape with
  | one | two | four => omega
  | @three x y z hx hy hz h h' =>
    have hx' : x = 0xED := UInt8.toNat_inj.1 (hx.trans (by change _ = 237; omega))
    subst hx'
    refine ⟨y, z, rfl, by omega, by omega, ⟨fun hle => ⟨h1, by omega⟩, fun hlead => ?_⟩,
      toNat_decodeSurrogate h1 h2 hy hz⟩
    have := hlead.2
    omega

theorem isSurrogate_of_bytes {r t : List UInt8}
    (h : c.encode ++ r = 0xED :: y :: z :: t) (hy : 0xA0 ≤ y.toNat) :
    c.IsSurrogate ∧ c.encode = [0xED, y, z] ∧ r = t := by
  have hed : (0xED : UInt8).toNat = 237 := rfl
  have hshape := c.shape
  generalize hl : c.encode = l at h hshape
  cases hshape with
  | one hx h1 =>
    obtain ⟨rfl, -⟩ := cons_eq_cons.1 h
    omega
  | two hx _ h1 h2 =>
    obtain ⟨rfl, -⟩ := cons_eq_cons.1 h
    omega
  | three hx hy' hz h1 h2 =>
    obtain ⟨rfl, rfl, rfl, rfl⟩ := h
    exact ⟨⟨by omega, by omega⟩, rfl, rfl⟩
  | four hx _ _ _ _ _ =>
    obtain ⟨rfl, -⟩ := cons_eq_cons.1 h
    omega

theorem isSurrogate_iff : c.IsSurrogate ↔ c.IsLead ∨ c.IsTrail := by
  rw [CodePoint.IsSurrogate, CodePoint.IsLead, CodePoint.IsTrail]
  omega

theorem not_isLead_of_isTrail (h : c.IsTrail) : ¬ c.IsLead := fun h' => by
  have h1 := h.1
  have h2 := h'.2
  omega

/-! ## At the ends -/

theorem finalLeadSurrogate_spec {w : Wtf8} {cs : List CodePoint} (h : w.bytes = encodeAll cs) :
    (∃ ds c u, cs = ds ++ [c] ∧ c.IsLead ∧ w.finalLeadSurrogate = some u ∧ u.toNat = c.value ∧
        w.bytes.take (w.len - 3) = encodeAll ds) ∨
      (w.finalLeadSurrogate = none ∧ ∀ c ∈ cs.getLast?, ¬ c.IsLead) := by
  by_cases hlead : ∃ ds c, cs = ds ++ [c] ∧ c.IsLead
  · obtain ⟨ds, c, rfl, hc⟩ := hlead
    obtain ⟨y, z, hbytes, hy, -, hle, hdecode⟩ := encode_surrogate (isSurrogate_iff.2 (.inl hc))
    have hw : w.bytes = encodeAll ds ++ [0xED, y, z] := by
      rw [h, encodeAll_append, encodeAll_cons, encodeAll_nil, append_nil, hbytes]
    have hlen : w.len = (encodeAll ds).length + 3 := by
      rw [Wtf8.len, hw, length_append]
      rfl
    refine .inl ⟨ds, c, decodeSurrogate y z, rfl, hc, ?_, hdecode, ?_⟩
    · have hdrop : w.bytes.drop (w.len - 3) = [0xED, y, z] := by
        rw [hlen, Nat.add_sub_cancel, hw, drop_left]
      rw [finalLeadSurrogate, hdrop]
      dsimp only
      rw [if_neg (by omega), if_pos ⟨rfl, UInt8.le_iff_toNat_le.2 hy,
        UInt8.le_iff_toNat_le.2 (hle.2 hc)⟩]
    · rw [hlen, Nat.add_sub_cancel, hw, take_left]
  · refine .inr ⟨?_, fun c hc hc' => hlead ?_⟩
    · rw [finalLeadSurrogate]
      split
      · rfl
      split
      · next b1 b2 b3 hdrop =>
        refine if_neg fun ⟨hb1, hb2, hb3⟩ => hlead ?_
        subst hb1
        have hsplit : encodeAll cs = w.bytes.take (w.len - 3) ++ [0xED, b2, b3] := by
          rw [← hdrop, take_append_drop, h]
        obtain ⟨cs1, cs2, rfl, -, hcs2⟩ := boundary hsplit fun b hb => by
          cases hb
          exact .inr (by decide)
        cases cs2 with
        | nil => cases hcs2
        | cons c cs2 =>
          obtain ⟨hsurr, hbytes, hnil⟩ := isSurrogate_of_bytes hcs2 (UInt8.le_iff_toNat_le.1 hb2)
          have hnil' : cs2 = [] := encodeAll_injective (hnil.trans encodeAll_nil.symm)
          obtain ⟨y, z, hbytes', -, -, hle, -⟩ := encode_surrogate hsurr
          rw [hbytes] at hbytes'
          cases hbytes'
          exact ⟨cs1, c, by rw [hnil'], hle.1 (UInt8.le_iff_toNat_le.1 hb3)⟩
      · rfl
    · obtain ⟨ds, rfl⟩ := getLast?_eq_some_iff.1 hc
      exact ⟨ds, c, rfl, hc'⟩

theorem initialTrailSurrogate_spec (h : w.bytes = encodeAll cs) :
    (∃ c ds u, cs = c :: ds ∧ c.IsTrail ∧ w.initialTrailSurrogate = some u ∧ u.toNat = c.value ∧
        w.bytes.drop 3 = encodeAll ds) ∨
      (w.initialTrailSurrogate = none ∧ ∀ c ∈ cs.head?, ¬ c.IsTrail) := by
  by_cases htrail : ∃ c ds, cs = c :: ds ∧ c.IsTrail
  · obtain ⟨c, ds, rfl, hc⟩ := htrail
    obtain ⟨y, z, hbytes, hy, hy', hle, hdecode⟩ := encode_surrogate (isSurrogate_iff.2 (.inr hc))
    have hw : w.bytes = [0xED, y, z] ++ encodeAll ds := by rw [h, encodeAll_cons, hbytes]
    have hlow : 0xB0 ≤ y.toNat := by
      have hlead : ¬ y.toNat ≤ 0xAF := fun hle' => not_isLead_of_isTrail hc (hle.1 hle')
      omega
    refine .inl ⟨c, ds, decodeSurrogate y z, rfl, hc, ?_, hdecode, ?_⟩
    · rw [initialTrailSurrogate, Wtf8.len, hw]
      have hlen : ¬ ([0xED, y, z] ++ encodeAll ds).length < 3 := by
        rw [length_append]
        exact Nat.not_lt.2 (Nat.le_add_right 3 _)
      rw [if_neg hlen]
      exact if_pos ⟨rfl, UInt8.le_iff_toNat_le.2 hlow, UInt8.le_iff_toNat_le.2 hy'⟩
    · rw [hw]
      rfl
  · refine .inr ⟨?_, fun c hc hc' => htrail ?_⟩
    · rw [initialTrailSurrogate]
      split
      · rfl
      split
      · next b1 b2 b3 htake =>
        refine if_neg fun ⟨hb1, hb2, _⟩ => htrail ?_
        subst hb1
        have hsplit : encodeAll cs = 0xED :: b2 :: b3 :: w.bytes.drop 3 := by
          rw [← h, ← take_append_drop 3 w.bytes, htake]
          rfl
        have hb2' := UInt8.le_iff_toNat_le.1 hb2
        change 176 ≤ b2.toNat at hb2'
        cases cs with
        | nil => cases hsplit
        | cons c cs =>
          obtain ⟨hsurr, hbytes, -⟩ := isSurrogate_of_bytes hsplit (by omega)
          obtain ⟨y, z, hbytes', -, -, hle, -⟩ := encode_surrogate hsurr
          rw [hbytes] at hbytes'
          cases hbytes'
          refine ⟨c, cs, rfl, (isSurrogate_iff.1 hsurr).resolve_left fun hlead => ?_⟩
          have := hle.2 hlead
          omega
      · rfl
    · cases cs with
      | nil => cases hc
      | cons d ds =>
        cases hc
        exact ⟨c, ds, rfl, hc'⟩

end Tortis.SysCommon
