import Tortis.SysCommon.Surrogates

/-!
# Strings and 16-bit units

A well-formed string stands for a sequence of 16-bit units. `from_wide` makes the string of the
units, `encode_wide` gives the units of a string, and `push` and `push_wtf8` append units to them,
so that what two of these make of the same units is the same string.
-/

namespace Tortis.SysCommon

open PrefixCode Str Outcome List Wtf8Buf EncodeWide Wtf8

/-- The bytes are those of code points of which no two are a pair of surrogates. -/
def Holds (bytes : List UInt8) (cs : List CodePoint) : Prop := NoPair cs ∧ bytes = encodeAll cs

def WellFormed (bytes : List UInt8) : Prop := ∃ cs, Holds bytes cs

variable {cs ds : List CodePoint}

theorem Holds.eq {bytes bytes' : List UInt8} (h : Holds bytes cs)
    (h' : Holds bytes' ds) (hwide : wide cs = wide ds) : bytes = bytes' := by
  obtain ⟨hcs, rfl⟩ := h
  obtain ⟨hds, rfl⟩ := h'
  rw [wide_injective hcs hds hwide]

theorem units_eq {c : CodePoint} {l : List UInt16} (h : Units c.value l) : c.units = l :=
  c.units_spec.eq h

theorem fromU32Unchecked_of_isScalar {n : Nat} (h : IsScalar n) :
    ∃ ch, fromU32Unchecked n = .ok ch ∧ (CodePoint.fromChar ch).value = n := by
  have hch : (Char.ofNat n).toNat = n := toNat_ofNat h
  refine ⟨Char.ofNat n, ?_, hch⟩
  have := fromU32Unchecked_toNat (Char.ofNat n)
  rwa [hch] at this

/-! ## From units -/

def DecodeUtf16.view (self : DecodeUtf16) : List UInt16 := self.buf.toList ++ self.iter

variable {d : DecodeUtf16}

theorem take_nil (h : d.view = []) : d.take = none := by
  obtain ⟨iter, buf⟩ := d
  obtain ⟨hbuf, rfl⟩ := append_eq_nil_iff.1 h
  cases buf with
  | none => rfl
  | some u => cases hbuf

variable {r : List UInt16}

theorem take_cons {u : UInt16} (h : d.view = u :: r) : d.take = some (u, ⟨r, none⟩) := by
  obtain ⟨iter, buf⟩ := d
  cases buf with
  | none =>
    cases h
    rfl
  | some u =>
    cases h
    rfl

theorem pair_bits {u v : UInt16} (hu : 0xD800 ≤ u.toNat) (hv : 0xDC00 ≤ v.toNat)
    (hv' : v.toNat ≤ 0xDFFF) : (u - 0xD800).toNat <<< 10 ||| (v - 0xDC00).toNat =
      (u.toNat - 0xD800) * 1024 + (v.toNat - 0xDC00) := by
  have hsub : (u - 0xD800).toNat = u.toNat - 0xD800 :=
    UInt16.toNat_sub_of_le _ _ (UInt16.le_iff_toNat_le.2 hu)
  have hsub' : (v - 0xDC00).toNat = v.toNat - 0xDC00 :=
    UInt16.toNat_sub_of_le _ _ (UInt16.le_iff_toNat_le.2 hv)
  have hlow : v.toNat - 0xDC00 < 2 ^ 10 := by omega
  rw [hsub, hsub', ← Nat.shiftLeft_add_eq_or_of_lt hlow, Nat.shiftLeft_eq]

/-- What is decoded next: the units of a code point, which is no lead surrogate before a trail
surrogate. -/
theorem next_spec {u : UInt16} (h : d.view = u :: r) :
    ∃ item d', ∃ c : CodePoint, d.next = .ok (some (item, d')) ∧ d.view = c.units ++ d'.view ∧
      (∀ s : Wtf8Buf, s.pushItem item = .ok ⟨s.bytes ++ c.encode⟩) ∧
      (c.IsLead → ∀ t ∈ d'.view.head?, ¬ TrailUnit t) := by
  have hlt : ∀ {a b : UInt16}, a < b ↔ a.toNat < b.toNat := UInt16.lt_iff_toNat_lt
  have hunit : u.toNat < 65536 := u.toNat_lt
  -- the unit is returned as an unpaired surrogate
  have herr : ∃ c : CodePoint, c.value = u.toNat ∧ c.units = [u] ∧
      ∀ s : Wtf8Buf, s.pushItem (.error u) = .ok ⟨s.bytes ++ c.encode⟩ := by
    have hbound : u.toNat ≤ 0x10FFFF := by omega
    refine ⟨⟨u.toNat, hbound⟩, rfl, units_eq (.one rfl), fun s => ?_⟩
    rw [pushItem, CodePoint.fromU32Unchecked, dif_pos hbound]
    rfl
  rw [DecodeUtf16.next, take_cons h]
  dsimp only
  split
  · next hout =>
    change u.toNat < 0xD800 ∨ 0xDFFF < u.toNat at hout
    obtain ⟨ch, hch, hval⟩ := @fromU32Unchecked_of_isScalar u.toNat (by rw [IsScalar]; omega)
    refine ⟨.ok ch, ⟨r, none⟩, CodePoint.fromChar ch, ?_, ?_, fun s => rfl, fun hlead => ?_⟩
    · rw [hch, ok_bind]
    · rw [h, units_eq (.one hval.symm)]
      rfl
    · obtain ⟨h1, h2⟩ := hlead
      omega
  split
  · next hout htrail =>
    obtain ⟨c, hval, hunits, hpush⟩ := herr
    change 0xDC00 ≤ u.toNat at htrail
    refine ⟨.error u, ⟨r, none⟩, c, rfl, by rw [h, hunits]; rfl, hpush, fun hlead => ?_⟩
    have := hlead.2
    omega
  next hout hlead =>
  change ¬ (u.toNat < 0xD800 ∨ 0xDFFF < u.toNat) at hout
  change ¬ 0xDC00 ≤ u.toNat at hlead
  split
  · obtain ⟨c, hval, hunits, hpush⟩ := herr
    exact ⟨.error u, ⟨[], none⟩, c, rfl, by rw [h, hunits]; rfl, hpush, fun _ t ht => by cases ht⟩
  · next u2 iter =>
    split
    · next hout2 =>
      obtain ⟨c, hval, hunits, hpush⟩ := herr
      refine ⟨.error u, ⟨iter, some u2⟩, c, rfl, by rw [h, hunits]; rfl, hpush, fun _ t ht => ?_⟩
      cases ht
      change u2.toNat < 0xDC00 ∨ 0xDFFF < u2.toNat at hout2
      rintro ⟨h1, h2⟩
      omega
    · next hin2 =>
      rw [hlt, hlt] at hin2
      change ¬ (u2.toNat < 0xDC00 ∨ 0xDFFF < u2.toNat) at hin2
      rw [pair_bits (by omega) (by omega) (by omega)]
      obtain ⟨ch, hch, hval⟩ := @fromU32Unchecked_of_isScalar
        ((u.toNat - 0xD800) * 1024 + (u2.toNat - 0xDC00) + 0x10000) (by rw [IsScalar]; omega)
      refine ⟨.ok ch, ⟨iter, none⟩, CodePoint.fromChar ch, ?_, ?_, fun s => rfl, fun hl => ?_⟩
      · rw [hch, ok_bind]
      · have hunits : (CodePoint.fromChar ch).units = [u, u2] :=
          units_eq (.two (by omega) (by omega) (by omega) (by omega))
        rw [h, hunits]
        rfl
      · have := hl.2
        omega

theorem fromWideLoop_spec : ∀ {n : Nat} {d : DecodeUtf16} {s : Wtf8Buf}, d.view.length < n →
    ∃ cs, fromWideLoop n d s = .ok ⟨s.bytes ++ encodeAll cs⟩ ∧ NoPair cs ∧ wide cs = d.view
  | 0, d, s, hn => absurd hn (Nat.not_lt_zero _)
  | n + 1, d, s, hn => by
    rw [fromWideLoop]
    cases hview : d.view with
    | nil =>
      refine ⟨[], ?_, .nil, rfl⟩
      rw [DecodeUtf16.next, take_nil hview, ok_bind, encodeAll_nil, append_nil]
    | cons u r =>
      obtain ⟨item, d', c, hnext, hunits, hpush, hlead⟩ := next_spec hview
      have hpos : c.units.length ≠ 0 := by
        have hspec := c.units_spec
        generalize c.units = l at hspec
        cases hspec <;> simp
      have hlen := congrArg List.length hunits
      rw [length_append] at hlen
      obtain ⟨cs, hloop, hcs, hwide⟩ := @fromWideLoop_spec n d' ⟨s.bytes ++ c.encode⟩ (by omega)
      refine ⟨c :: cs, ?_, hcs.cons fun e he hpair => ?_, by rw [wide_cons, hwide, ← hunits, hview]⟩
      · rw [hnext, ok_bind]
        dsimp only
        rw [hpush, ok_bind, hloop, encodeAll_cons, append_assoc]
      · -- a trail surrogate would be the next unit
        cases cs with
        | nil => cases he
        | cons e' cs =>
          cases he
          obtain ⟨⟨h1, h2⟩, htrail⟩ : c.IsLead ∧ e.IsTrail := hpair
          have hunit : (UInt16.ofNat e.value).toNat = e.value := by
            refine UInt16.toNat_ofNat_of_lt' ?_
            have := htrail.2
            change e.value < 65536
            omega
          refine hlead ⟨h1, h2⟩ (UInt16.ofNat e.value) ?_ (by rw [TrailUnit, hunit]; exact htrail)
          rw [← hwide, wide_cons, units_eq (.one hunit)]
          rfl

theorem fromWide_spec (v : List UInt16) :
    ∃ s cs, fromWide v = .ok s ∧ Holds s.bytes cs ∧ wide cs = v := by
  obtain ⟨cs, hrun, hcs, hwide⟩ := @fromWideLoop_spec (v.length + 1) ⟨v, none⟩ .new
    (Nat.lt_succ_self _)
  exact ⟨_, cs, hrun, ⟨hcs, rfl⟩, hwide⟩

/-! ## To units -/

theorem nextOf_cons (c : CodePoint) (cs : List CodePoint) :
    nextOf (encodeAll (c :: cs)) = .ok (some (c, encodeAll cs)) := by
  rw [nextOf, encodeAll_cons, c.shape.next]
  dsimp only
  rw [c.fromU32Unchecked_value, ok_bind]

/-- The units of a unit that is kept and of code points. -/
def pending (extra : UInt16) (cs : List CodePoint) : List UInt16 :=
  if extra = 0 then wide cs else extra :: wide cs

theorem EncodeWide.next_spec (extra : UInt16) (cs : List CodePoint) :
    (pending extra cs = [] ∧ EncodeWide.next ⟨encodeAll cs, extra⟩ = .ok none) ∨
      ∃ u extra' cs', pending extra cs = u :: pending extra' cs' ∧
        EncodeWide.next ⟨encodeAll cs, extra⟩ = .ok (some (u, ⟨encodeAll cs', extra'⟩)) := by
  by_cases hextra : extra = 0
  · subst hextra
    cases cs with
    | nil => exact .inl ⟨rfl, rfl⟩
    | cons c cs =>
      refine .inr ?_
      rw [pending, if_pos rfl, wide_cons, EncodeWide.next, if_neg (not_not.2 rfl), nextOf_cons,
        ok_bind]
      dsimp only
      have hspec := c.units_spec
      change Units c.value (encodeUtf16 c.value) at hspec
      change ∃ u extra' cs', encodeUtf16 c.value ++ wide cs = _ ∧ _
      generalize encodeUtf16 c.value = l at hspec
      cases hspec with
      | @one u hu => exact ⟨u, 0, cs, rfl, rfl⟩
      | @two u v hu hv h1 h2 =>
        refine ⟨u, v, cs, ?_, rfl⟩
        have hv' : v ≠ 0 := fun h => by
          rw [h] at hv
          change 0 = _ at hv
          omega
        rw [pending, if_neg hv']
        rfl
  · refine .inr ⟨extra, 0, cs, ?_, ?_⟩
    · rw [pending, if_neg hextra, pending, if_pos rfl]
    · rw [EncodeWide.next, if_pos hextra]

theorem EncodeWide.collect_spec : ∀ {n : Nat} {extra : UInt16} {cs : List CodePoint},
    (pending extra cs).length < n → collect n ⟨encodeAll cs, extra⟩ =
      .ok (pending extra cs)
  | 0, extra, cs, hn => absurd hn (Nat.not_lt_zero _)
  | n + 1, extra, cs, hn => by
    rw [collect]
    rcases next_spec extra cs with ⟨hnil, hnext⟩ | ⟨u, extra', cs', hcons, hnext⟩
    · rw [hnext, hnil, ok_bind]
    · rw [hcons, length_cons] at hn
      rw [hnext, hcons, ok_bind]
      dsimp only
      rw [collect_spec (Nat.lt_of_succ_lt_succ hn), ok_bind]

theorem length_wide_le (cs : List CodePoint) : (wide cs).length ≤ (encodeAll cs).length := by
  induction cs with
  | nil => exact le_rfl
  | cons c cs ih =>
    rw [wide_cons, encodeAll_cons, length_append, length_append]
    refine Nat.add_le_add ?_ ih
    have hunits := c.units_spec
    have hshape := c.shape
    generalize c.units = l at hunits
    generalize c.encode = m at hshape
    cases hunits with
    | one h => exact length_pos_of_ne_nil hshape.ne_nil
    | two hu hv h1 h2 =>
      cases hshape with
      | one | two | three => omega
      | four => exact Nat.le_add_left 2 2

theorem encodeWide_spec {w : Wtf8} (h : w.bytes = encodeAll cs) : w.encodeWide = .ok (wide cs) := by
  rw [encodeWide, Wtf8.len, h]
  exact collect_spec (Nat.lt_succ_of_le (length_wide_le cs))

theorem collect_spec : ∀ {n : Nat} {cs : List CodePoint}, cs.length < n →
    Wtf8.collect n (encodeAll cs) = .ok cs
  | 0, cs, hn => absurd hn (Nat.not_lt_zero _)
  | n + 1, cs, hn => by
    rw [Wtf8.collect]
    cases cs with
    | nil => rfl
    | cons c cs =>
      rw [nextOf_cons, ok_bind]
      dsimp only
      rw [collect_spec (Nat.lt_of_succ_lt_succ hn), ok_bind]

theorem length_le_length_encodeAll (cs : List CodePoint) : cs.length ≤ (encodeAll cs).length := by
  induction cs with
  | nil => exact le_rfl
  | cons c cs ih =>
    have hpos := length_pos_of_ne_nil c.shape.ne_nil
    rw [encodeAll_cons, length_append, length_cons]
    omega

theorem codePoints_spec {w : Wtf8} (h : w.bytes = encodeAll cs) : w.codePoints = .ok cs := by
  have hlen : cs.length ≤ (encodeAll cs).length := length_le_length_encodeAll cs
  rw [Wtf8.codePoints, Wtf8.len, h]
  exact collect_spec (Nat.lt_succ_of_le hlen)

/-! ## Appending -/

theorem decodeSurrogatePair_spec {l t : CodePoint} {lead trail : UInt16} (hl : l.IsLead)
    (ht : t.IsTrail) (hlead : lead.toNat = l.value) (htrail : trail.toNat = t.value) :
    ∃ ch, decodeSurrogatePair lead trail = .ok ch ∧
      (CodePoint.fromChar ch).units = l.units ++ t.units := by
  obtain ⟨h1, h2⟩ := hl
  obtain ⟨h3, h4⟩ := ht
  rw [decodeSurrogatePair, pair_bits (by omega) (by omega) (by omega)]
  obtain ⟨ch, hch, hval⟩ := @fromU32Unchecked_of_isScalar
    (0x10000 + ((lead.toNat - 0xD800) * 1024 + (trail.toNat - 0xDC00))) (by rw [IsScalar]; omega)
  refine ⟨ch, hch, ?_⟩
  rw [units_eq (.one hlead), units_eq (.one htrail)]
  exact units_eq (.two (by omega) (by omega) (by omega) (by omega))

theorem unpaired_fromChar_left (ch : Char) (d : CodePoint) :
    Unpaired (CodePoint.fromChar ch) d := fun h =>
  CodePoint.not_isSurrogate_fromChar ch (isSurrogate_iff.2 (.inl h.1))

theorem unpaired_fromChar_right (c : CodePoint) (ch : Char) :
    Unpaired c (CodePoint.fromChar ch) := fun h =>
  CodePoint.not_isSurrogate_fromChar ch (isSurrogate_iff.2 (.inr h.2))

theorem NoPair.around (hcs : NoPair cs) (hds : NoPair ds) (ch : Char) :
    NoPair (cs ++ CodePoint.fromChar ch :: ds) := by
  refine hcs.append (hds.cons fun d _ => unpaired_fromChar_left ch d) fun c _ d hd => ?_
  cases hd
  exact unpaired_fromChar_right c ch

variable {s : Wtf8Buf}

theorem pushWtf8_spec {o : Wtf8} (hs : Holds s.bytes cs) (ho : Holds o.bytes ds) :
    ∃ s' es, s.pushWtf8 o = .ok s' ∧ Holds s'.bytes es ∧ wide es = wide cs ++ wide ds := by
  have hjoin : (∀ c ∈ cs.getLast?, ∀ d ∈ ds.head?, Unpaired c d) →
      Holds (s.bytes ++ o.bytes) (cs ++ ds) := fun h =>
    ⟨hs.1.append ho.1 h, by rw [hs.2, ho.2, encodeAll_append]⟩
  rw [pushWtf8]
  rcases @finalLeadSurrogate_spec s.asSlice cs hs.2 with
    ⟨cs', l, u, rfl, hl, hfinal, hlead, htake⟩ | ⟨hfinal, hlast⟩
  · rcases initialTrailSurrogate_spec ho.2 with
      ⟨t, ds', v, rfl, ht, hinitial, htrail, hdrop⟩ | ⟨hinitial, hfirst⟩
    · -- the surrogates at the seam are replaced by the code point of their pair
      obtain ⟨ch, hch, hunits⟩ := decodeSurrogatePair_spec hl ht hlead htrail
      refine ⟨⟨(s.withoutLead.pushChar ch).bytes ++ o.bytes.drop 3⟩,
        cs' ++ CodePoint.fromChar ch :: ds', ?_, ⟨?_, ?_⟩, ?_⟩
      · rw [hfinal, hinitial]
        dsimp only
        rw [hch, ok_bind]
      · exact NoPair.around hs.1.left_of_append ho.1.tail ch
      · rw [hdrop, encodeAll_append, encodeAll_cons, ← append_assoc]
        exact congrArg (· ++ _ ++ encodeAll ds') htake
      · rw [wide_append, wide_cons, hunits, wide_append, wide_cons, wide_cons, wide_nil]
        simp
    · refine ⟨⟨s.bytes ++ o.bytes⟩, cs' ++ [l] ++ ds, ?_, hjoin fun c _ d hd h => hfirst d hd h.2, wide_append _ _⟩
      rw [hfinal, hinitial]
  · refine ⟨⟨s.bytes ++ o.bytes⟩, cs ++ ds, ?_, hjoin fun c hc d _ h => hlast c hc h.1, wide_append _ _⟩
    rw [hfinal]

theorem push_spec (hs : Holds s.bytes cs) (c : CodePoint) :
    ∃ s' es, s.push c = .ok s' ∧ Holds s'.bytes es ∧ wide es = wide cs ++ c.units := by
  have hjoin : (∀ d ∈ cs.getLast?, Unpaired d c) →
      ∃ s' es, (.ok (s.pushCodePointUnchecked c) : Outcome Wtf8Buf) = .ok s' ∧
        Holds s'.bytes es ∧ wide es = wide cs ++ c.units := fun h => by
    refine ⟨s.pushCodePointUnchecked c, cs ++ [c], rfl, ⟨hs.1.append (.singleton c) ?_, ?_⟩, ?_⟩
    · intro d hd e he
      cases he
      exact h d hd
    · rw [pushCodePointUnchecked, hs.2, encodeAll_append, encodeAll_cons, encodeAll_nil, append_nil]
      rfl
    · rw [wide_append, wide_cons, wide_nil, append_nil]
  rw [Wtf8Buf.push]
  by_cases htrail : 0xDC00 ≤ c.value ∧ c.value ≤ 0xDFFF
  · rw [if_pos htrail]
    rcases @finalLeadSurrogate_spec s.asSlice cs hs.2 with
      ⟨cs', l, u, rfl, hl, hfinal, hlead, htake⟩ | ⟨hfinal, hlast⟩
    · have hunit : (UInt16.ofNat c.value).toNat = c.value := by
        refine UInt16.toNat_ofNat_of_lt' ?_
        change c.value < 65536
        omega
      obtain ⟨ch, hch, hunits⟩ := decodeSurrogatePair_spec hl htrail hlead hunit
      refine ⟨s.withoutLead.pushChar ch, cs' ++ [CodePoint.fromChar ch], ?_, ⟨?_, ?_⟩, ?_⟩
      · rw [hfinal]
        dsimp only
        rw [hch, ok_bind]
      · exact NoPair.around hs.1.left_of_append .nil ch
      · rw [encodeAll_append, encodeAll_cons, encodeAll_nil, append_nil]
        exact congrArg (· ++ _) htake
      · rw [wide_append, wide_cons, hunits, wide_append, wide_cons, wide_nil]
        simp
    · rw [hfinal]
      exact hjoin fun d hd h => hlast d hd h.1
  · rw [if_neg htrail]
    exact hjoin fun d _ h => htrail h.2

theorem extend_spec : ∀ {ds cs : List CodePoint}, Holds s.bytes cs →
    ∃ s' es, s.extend ds = .ok s' ∧ Holds s'.bytes es ∧ wide es = wide cs ++ wide ds := by
  intro ds cs hs
  have hloop := @foldlM_start _ _ Wtf8Buf.push
    (fun done s' => ∃ es, Holds s'.bytes es ∧ wide es = wide cs ++ wide done) ds s
    ⟨cs, hs, by rw [wide_nil, append_nil]⟩ fun pre c post s' _ ⟨es, hes, hwide⟩ => by
      obtain ⟨s'', es', hpush, hes', hwide'⟩ := push_spec hes c
      refine ⟨s'', hpush, es', hes', ?_⟩
      rw [hwide', hwide, wide_append, wide_cons, wide_nil, append_nil, append_assoc]
  obtain ⟨s', hrun, es, hes, hwide⟩ := hloop
  exact ⟨s', es, hrun, hes, hwide⟩

/-- The conversions between units and strings are inverse to each other, and the string of two
sequences of units is what `push_wtf8` makes of their strings, and what `push` makes of the one and
the code points of the other. -/
theorem wide_round_trip :
    (∀ v : List UInt16, ∃ s, fromWide v = .ok s ∧ s.asSlice.encodeWide = .ok v) ∧
    (∀ w : Wtf8, WellFormed w.bytes → ∃ v, w.encodeWide = .ok v ∧ fromWide v = .ok ⟨w.bytes⟩) ∧
    ∀ v₁ v₂ : List UInt16, ∃ s₁ s₂ s cs, fromWide v₁ = .ok s₁ ∧
      fromWide v₂ = .ok s₂ ∧ fromWide (v₁ ++ v₂) = .ok s ∧
      s₁.pushWtf8 s₂.asSlice = .ok s ∧ s₂.asSlice.codePoints = .ok cs ∧
      cs.foldlM Wtf8Buf.push s₁ = .ok s := by
  refine ⟨fun v => ?_, fun w ⟨cs, hcs⟩ => ?_, fun v₁ v₂ => ?_⟩
  · obtain ⟨s, cs, hs, hcs, rfl⟩ := fromWide_spec v
    exact ⟨s, hs, encodeWide_spec hcs.2⟩
  · obtain ⟨s, ds, hs, hds, hwide⟩ := fromWide_spec (wide cs)
    refine ⟨wide cs, encodeWide_spec hcs.2, ?_⟩
    rw [hs, ← hds.eq hcs hwide]
  · obtain ⟨s₁, cs1, hs1, hcs1, rfl⟩ := fromWide_spec v₁
    obtain ⟨s₂, cs2, hs2, hcs2, rfl⟩ := fromWide_spec v₂
    obtain ⟨s, cs, hs, hcs, hwide⟩ := fromWide_spec (wide cs1 ++ wide cs2)
    obtain ⟨s', es, hpush, hes, hwide'⟩ := pushWtf8_spec (o := s₂.asSlice) hcs1 hcs2
    obtain ⟨s'', es', hextend, hes', hwide''⟩ := @extend_spec s₁ cs2 cs1 hcs1
    refine ⟨s₁, s₂, s, cs2, hs1, hs2, hs, ?_, codePoints_spec hcs2.2, ?_⟩
    · have heq := hes.eq hcs (hwide'.trans hwide.symm)
      cases s
      cases s'
      cases heq
      exact hpush
    · have heq := hes'.eq hcs (hwide''.trans hwide.symm)
      cases s
      cases s''
      cases heq
      exact hextend

end Tortis.SysCommon
