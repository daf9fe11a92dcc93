import Mathlib.Tactic.IntervalCases
import Tortis.Net.ReadGroups

/-!
# Reading and displaying addresses

A text is parsed as an `Ipv6Addr` when the grammar derives it, with the address that the grammar
gives, and no other text is.

The text an address is displayed as is derived by the grammar, so it is parsed as the address.
-/

namespace Tortis.Net

open Outcome List Option Ipv6Addr UInt8

/-! ## Groups and octets -/

theorem fromBeBytes_shift (x : UInt16) : fromBeBytes (x >>> 8).toUInt8 x.toUInt8 = x := by
  have hhi : (x >>> 8).toUInt8.toNat = x.toNat / 256 := by
    rw [UInt16.toNat_toUInt8, UInt16.toNat_shiftRight, Nat.shiftRight_eq_div_pow]
    have := x.toNat_lt
    change x.toNat / 2 ^ 8 % 2 ^ 8 = _
    omega
  have hlo : x.toUInt8.toNat = x.toNat % 256 := UInt16.toNat_toUInt8 x
  refine UInt16.toNat_inj.1 ?_
  have hlt : x.toUInt8.toUInt16.toNat < 2 ^ 8 := x.toUInt8.toNat_lt
  have hshift : ((x >>> 8).toUInt8.toUInt16 <<< 8).toNat = 2 ^ 8 * (x.toNat / 256) := by
    rw [UInt16.toNat_shiftLeft, toNat_toUInt16, hhi, Nat.shiftLeft_eq]
    have := x.toNat_lt
    change x.toNat / 256 * 2 ^ 8 % 2 ^ 16 = _
    omega
  rw [fromBeBytes, UInt16.toNat_or, hshift, ← Nat.two_pow_add_eq_or_of_lt hlt,
    toNat_toUInt16, hlo]
  omega

theorem shift_fromBeBytes (x y : UInt8) :
    (fromBeBytes x y >>> 8).toUInt8 = x ∧ (fromBeBytes x y).toUInt8 = y := by
  have hx := x.toNat_lt
  have hy := y.toNat_lt
  have hval : (fromBeBytes x y).toNat = 2 ^ 8 * x.toNat + y.toNat := by
    have hlt : y.toUInt16.toNat < 2 ^ 8 := hy
    have hshift : (x.toUInt16 <<< 8).toNat = 2 ^ 8 * x.toNat := by
      rw [UInt16.toNat_shiftLeft, toNat_toUInt16, Nat.shiftLeft_eq]
      change x.toNat * 2 ^ 8 % 2 ^ 16 = _
      omega
    rw [fromBeBytes, UInt16.toNat_or, hshift, ← Nat.two_pow_add_eq_or_of_lt hlt,
      toNat_toUInt16]
  constructor
  · refine UInt8.toNat_inj.1 ?_
    rw [UInt16.toNat_toUInt8, UInt16.toNat_shiftRight, Nat.shiftRight_eq_div_pow, hval]
    change (2 ^ 8 * x.toNat + y.toNat) / 2 ^ 8 % 2 ^ 8 = _
    omega
  · refine UInt8.toNat_inj.1 ?_
    rw [UInt16.toNat_toUInt8, hval]
    omega

theorem segments_new (a b c d e f g h : UInt16) :
    (Ipv6Addr.new a b c d e f g h).segments = [a, b, c, d, e, f, g, h] := by
  change [fromBeBytes (a >>> 8).toUInt8 a.toUInt8, fromBeBytes (b >>> 8).toUInt8 b.toUInt8,
    fromBeBytes (c >>> 8).toUInt8 c.toUInt8, fromBeBytes (d >>> 8).toUInt8 d.toUInt8,
    fromBeBytes (e >>> 8).toUInt8 e.toUInt8, fromBeBytes (f >>> 8).toUInt8 f.toUInt8,
    fromBeBytes (g >>> 8).toUInt8 g.toUInt8, fromBeBytes (h >>> 8).toUInt8 h.toUInt8] = _
  simp only [fromBeBytes_shift]

variable {gs : List UInt16}

theorem segments_ofArray (h : gs.length = 8) : (ofArray gs).segments = gs := by
  match gs, h with
  | [a, b, c, d, e, f, g, h], _ => exact segments_new a b c d e f g h

theorem length_segments (a : Ipv6Addr) : a.segments.length = 8 := rfl

theorem ofArray_segments (a : Ipv6Addr) : ofArray a.segments = a := by
  refine congrArg Ipv6Addr.mk (Vector.ext fun i hi => ?_)
  simp only [getD_cons_zero, getD_cons_succ, segments, shift_fromBeBytes]
  interval_cases i <;> rfl

theorem segments_injective {a b : Ipv6Addr} (h : a.segments = b.segments) : a = b := by
  rw [← ofArray_segments a, h, ofArray_segments]

/-! ## Parsing -/

section
variable {α : Type} {f : Parser α} {p x : List UInt8} {a : α}

theorem readTillEof_some (h : f p = .ok (some a, [])) : readTillEof f p = .ok (some a, []) := by
  refine readAtomically_some ?_
  rw [h]
  rfl

theorem readTillEof_none {r : Option α} (h : f p = .ok (r, x)) (hx : r = none ∨ x ≠ []) :
    readTillEof f p = .ok (none, p) := by
  refine readAtomically_none (x := x) ?_
  rw [h, ok_bind]
  rcases hx with rfl | hx
  · rfl
  · cases x with
    | nil => exact absurd rfl hx
    | cons b x => cases r <;> rfl

end

theorem readTail_colons (head : List UInt16) (p : List UInt8) :
    readTail head (text "::" ++ p) = (do
      let limit := 8 - (head.length + 1)
      let ((tailSize, _), tail, p) ← readGroups limit (limit + 1) 0 (replicate 8 0) p
      let addr ← ipv6AddrFromHeadTail head (tail.take tailSize)
      .ok (some addr, p)) := by
  rfl

variable {hs ts : List UInt16}

theorem ipv6AddrFromHeadTail_spec (h : hs.length + ts.length ≤ 8) :
    ∃ a, ipv6AddrFromHeadTail hs ts = .ok a ∧
      a.segments = hs ++ replicate (8 - (hs.length + ts.length)) 0 ++ ts := by
  have harray : (hs ++ (replicate 8 (0 : UInt16)).drop hs.length).take (8 - ts.length) ++ ts =
      hs ++ replicate (8 - (hs.length + ts.length)) 0 ++ ts := by
    have hzeros : min (8 - ts.length - hs.length) (8 - hs.length) =
        8 - (hs.length + ts.length) := by omega
    rw [drop_replicate, take_append, take_of_length_le (by omega), take_replicate, hzeros]
  refine ⟨ofArray
    ((hs ++ (replicate 8 (0 : UInt16)).drop hs.length).take (8 - ts.length) ++ ts), ?_, ?_⟩
  · rw [ipv6AddrFromHeadTail, assert, if_pos (decide_eq_true h), ok_bind]
  · rw [harray]
    refine segments_ofArray ?_
    rw [length_append, length_append, length_replicate]
    omega

theorem readTail_sound {hs : List UInt16} (hhs : hs.length ≤ 7) (p : List UInt8) :
    (∃ m ts quad x a, p = text "::" ++ (m ++ x) ∧ Groups true quad m ts ∧
        hs.length + ts.length ≤ 7 ∧ readTail hs p = .ok (some a, x) ∧
        a.segments = hs ++ replicate (8 - (hs.length + ts.length)) 0 ++ ts) ∨
      ∃ x, readTail hs p = .ok (none, x) := by
  rcases readGivenChar_cases ':' p with ⟨p, rfl, -⟩ | ⟨-, hread⟩
  swap
  · refine .inr ⟨p, ?_⟩
    rw [readTail, hread]
    rfl
  rcases readGivenChar_cases ':' p with ⟨p, rfl, -⟩ | ⟨-, hread⟩
  swap
  · refine .inr ⟨p, ?_⟩
    rw [readTail, readGivenChar_eq, ok_bind]
    dsimp only
    rw [if_neg (by simp), hread]
    rfl
  obtain ⟨m, ts, quad, groups, x, rfl, hts, hle, -, htake, hrun⟩ :=
    @readGroups_sound (8 - (hs.length + 1)) (by omega) (8 - (hs.length + 1) + 1) 0
      (replicate 8 0) p (by omega) (Nat.zero_le _) length_replicate
  rw [zero_add] at hle htake
  obtain ⟨a, ha, hsegments⟩ := @ipv6AddrFromHeadTail_spec hs ts (by omega)
  refine .inl ⟨m, ts, quad, x, a, rfl, hts, by omega, ?_, hsegments⟩
  refine (readTail_colons hs (m ++ x)).trans ?_
  dsimp only
  rw [hrun, ok_bind]
  rw [zero_add, htake, take_zero, nil_append, ha, ok_bind]

theorem readTail_complete {quad : Bool} {m : List UInt8}
    (h : Groups true quad m ts) (hle : hs.length + ts.length ≤ 7) :
    ∃ a, readTail hs (text "::" ++ m) = .ok (some a, []) ∧
      a.segments = hs ++ replicate (8 - (hs.length + ts.length)) 0 ++ ts := by
  obtain ⟨groups, -, htake, hrun⟩ := @readGroups_complete (8 - (hs.length + 1)) (by omega) []
    (.inl rfl) true quad m ts h (8 - (hs.length + 1) + 1) 0 (replicate 8 0) rfl (by omega)
    (by omega) length_replicate
  rw [zero_add] at htake
  rw [append_nil] at hrun
  obtain ⟨a, ha, hsegments⟩ := @ipv6AddrFromHeadTail_spec hs ts (by omega)
  refine ⟨a, ?_, hsegments⟩
  rw [readTail_colons]
  dsimp only
  rw [hrun, ok_bind]
  rw [zero_add, htake, take_zero, nil_append, ha, ok_bind]

theorem readIpv6Addr_sound (p : List UInt8) :
    (∃ l x a, p = l ++ x ∧ Ipv6Text l a.segments ∧ readIpv6Addr p = .ok (some a, x)) ∨
      readIpv6Addr p = .ok (none, p) := by
  obtain ⟨l, hs, quad, groups, x, rfl, hhs, hle, hlen, htake, hrun⟩ :=
    @readGroups_sound 8 le_rfl 9 0 (replicate 8 0) p (by omega) (Nat.zero_le _)
      length_replicate
  rw [zero_add] at hle htake hrun
  rw [take_zero, nil_append] at htake
  by_cases height : hs.length = 8
  · have hgroups : groups = hs := by
      rw [← htake, height, ← hlen, take_length]
    have hsegments : (ofArray groups).segments = hs := hgroups ▸ segments_ofArray hlen
    refine .inl ⟨l, x, ofArray groups, rfl, ?_, readAtomically_some ?_⟩
    · rw [hsegments]
      exact .full hhs height
    · rw [readIpv6AddrImpl, hrun, ok_bind]
      exact if_pos height
  cases quad with
  | true =>
    refine .inr (readAtomically_none (x := x) ?_)
    rw [readIpv6AddrImpl, hrun, ok_bind]
    exact (if_neg height).trans (if_pos rfl)
  | false =>
    have himpl : readIpv6AddrImpl (l ++ x) = readTail hs x := by
      rw [readIpv6AddrImpl, hrun, ok_bind]
      refine (if_neg height).trans ((if_neg Bool.false_ne_true).trans ?_)
      rw [htake]
    rcases @readTail_sound hs (by omega) x with
      ⟨m, ts, quad, y, a, rfl, hts, hle', htail, hsegments⟩ | ⟨y, htail⟩
    · refine .inl ⟨l ++ text "::" ++ m, y, a, by simp, ?_, readAtomically_some ?_⟩
      · rw [hsegments]
        exact .compressed hhs hts hle'
      · rw [himpl, htail]
    · exact .inr (readAtomically_none (himpl.trans htail))

theorem readIpv6Addr_complete {l : List UInt8} {a : Ipv6Addr} (h : Ipv6Text l a.segments) :
    readIpv6Addr l = .ok (some a, []) := by
  refine readAtomically_some ?_
  generalize hgs : a.segments = gs at h
  cases h with
  | full hgroups hlen =>
    obtain ⟨groups, hlen', htake, hrun⟩ := @readGroups_complete 8 le_rfl [] (.inl rfl) true _ l gs
      hgroups 9 0 (replicate 8 0) rfl (by omega) (by omega) length_replicate
    rw [zero_add, hlen] at hrun htake
    rw [append_nil] at hrun
    rw [take_zero, nil_append, ← hlen', take_length] at htake
    rw [readIpv6AddrImpl, hrun, ok_bind]
    dsimp only
    rw [if_pos rfl, htake, ← hgs, ofArray_segments]
  | @compressed quad m n hs ts hhs hts hle =>
    obtain ⟨groups, hlen', htake, hrun⟩ := @readGroups_complete 8 le_rfl (text "::" ++ n)
      (.inr ⟨n, rfl⟩) true false m hs hhs 9 0 (replicate 8 0) rfl (by omega) (by omega)
      length_replicate
    rw [take_zero, nil_append] at htake
    obtain ⟨b, htail, hsegments⟩ := readTail_complete hts hle
    have hb : b = a := segments_injective (hsegments.trans hgs.symm)
    rw [append_assoc, readIpv6AddrImpl, hrun, ok_bind]
    dsimp only
    rw [if_neg (by omega), if_neg Bool.false_ne_true, htake, htail, hb]

theorem fromStr_spec (s : List UInt8) : ∃ r, fromStr s = .ok r ∧
    ∀ a, r = some a ↔ Ipv6Text s a.segments := by
  have hcomplete : ∀ a, Ipv6Text s a.segments → fromStr s = .ok (some a) := fun a ha => by
    rw [fromStr, readTillEof_some (readIpv6Addr_complete ha)]
    rfl
  have hnone : ∀ r x, readIpv6Addr s = .ok (r, x) → (r = none ∨ x ≠ []) →
      fromStr s = .ok none := fun r x hread hx => by
    rw [fromStr, readTillEof_none hread hx]
    rfl
  have hiff : fromStr s = .ok none → ∀ a : Ipv6Addr, none = some a ↔ Ipv6Text s a.segments :=
    fun hrun a => iff_of_false nofun fun ha => by
      rw [hcomplete a ha] at hrun
      cases hrun
  rcases readIpv6Addr_sound s with ⟨l, x, a, rfl, htext, hread⟩ | hread
  · cases x with
    | nil =>
      rw [append_nil] at hcomplete ⊢
      refine ⟨some a, hcomplete a htext, fun b => ⟨fun hb => ?_, fun hb => ?_⟩⟩
      · cases hb
        exact htext
      · have := (hcomplete a htext).symm.trans (hcomplete b hb)
        exact Except.ok.inj this
    | cons b x =>
      have hrun := hnone _ _ hread (.inr (cons_ne_nil b x))
      exact ⟨none, hrun, hiff hrun⟩
  · have hrun := hnone _ _ hread (.inl rfl)
    exact ⟨none, hrun, hiff hrun⟩

/-! ## Displaying and parsing -/

/-! ## Digits -/

theorem digit_digitOf {base d : Nat} (hb : base = 10 ∨ base = 16) (hd : d < base) :
    digit base (digitOf d) = some d := by
  rcases hb with rfl | rfl
  · have hall : ∀ d : Fin 10, digit 10 (digitOf d.val) = some d.val := by decide
    exact hall ⟨d, hd⟩
  · have hall : ∀ d : Fin 16, digit 16 (digitOf d.val) = some d.val := by decide
    exact hall ⟨d, hd⟩

theorem fmtInt_spec {base : Nat} (hb : base = 10 ∨ base = 16) : ∀ {n k x : Nat} (buf : List UInt8),
    x < base ^ k → 0 < k → k ≤ n → ∃ ds, fmtInt base n x buf = ds ++ buf ∧ Digits base ds ∧
      ds ≠ [] ∧ ds.length ≤ k ∧ value base ds = x
  | 0, k, x, buf, _, hk, hn => by omega
  | n + 1, k, x, buf, hx, hk, hn => by
    have hpos : 0 < base := by rcases hb with rfl | rfl <;> decide
    have hdigit : digit base (digitOf (x % base)) = some (x % base) :=
      digit_digitOf hb (Nat.mod_lt _ hpos)
    have hlast : Digits base [digitOf (x % base)] := fun b hb' => by
      rw [mem_singleton.1 hb', hdigit]
      rfl
    rw [fmtInt]
    split
    · next hzero =>
      refine ⟨[digitOf (x % base)], rfl, hlast, cons_ne_nil _ _, hk, ?_⟩
      rw [value, foldl_cons, foldl_nil, hdigit, getD_some]
      have := Nat.div_add_mod x base
      rw [hzero] at this
      omega
    · next hmore =>
      obtain ⟨k, rfl⟩ := Nat.exists_eq_succ_of_ne_zero hk.ne'
      have hlt : x / base < base ^ k := by
        rw [Nat.div_lt_iff_lt_mul hpos, ← pow_succ]
        exact hx
      have hk' : 0 < k := Nat.pos_of_ne_zero fun hk' => by
        subst hk'
        exact hmore (Nat.lt_one_iff.1 hlt)
      obtain ⟨ds, hrun, hds, hne, hlen, hval⟩ :=
        fmtInt_spec hb (digitOf (x % base) :: buf) hlt hk' (Nat.le_of_succ_le_succ hn)
      refine ⟨ds ++ [digitOf (x % base)], by rw [hrun]; simp, fun b hb' => ?_, by simp, ?_, ?_⟩
      · exact (mem_append.1 hb').elim (hds b) (hlast b)
      · rw [length_append]
        exact Nat.succ_le_succ hlen
      · rw [value_append, hval, hdigit, getD_some, mul_comm]
        exact Nat.div_add_mod x base

theorem group_lowerHex (g : UInt16) : Group (lowerHex g) g := by
  obtain ⟨ds, hrun, hds, hne, hlen, hval⟩ :=
    @fmtInt_spec 16 (.inr rfl) 128 4 g.toNat [] g.toNat_lt (by decide) (by decide)
  rw [Group, lowerHex, hrun, append_nil]
  exact ⟨hds, hne, hlen, hval, g.toNat_lt⟩

theorem octet_display (x : UInt8) : Octet (display x) x := by
  have hx := x.toNat_lt
  obtain ⟨ds, hrun, hds, hne, hlen, hval⟩ :=
    @fmtInt_spec 10 (.inl rfl) 128 3 x.toNat [] (by omega) (by decide) (by decide)
  rw [Octet, display, hrun, append_nil]
  exact ⟨hds, hne, hlen, hval, hx⟩

theorem groups_fmtQuad (first : Bool) (g h : UInt16) :
    Groups first true (sep ':' first ++ fmtQuad g h) [g, h] := by
  have hquad : Quad (fmtQuad g h) ⟨(g >>> 8).toUInt8, g.toUInt8, (h >>> 8).toUInt8, h.toUInt8⟩ :=
    ⟨_, _, _, _, octet_display _, octet_display _, octet_display _, octet_display _,
      by simp [fmtQuad, text]⟩
  have hgroups := @Groups.quad first _ _ hquad
  rwa [Ipv4Addr.groups, fromBeBytes_shift, fromBeBytes_shift] at hgroups

theorem groups_fmtSubslice (gs : List UInt16) : Groups true false (fmtSubslice gs) gs := by
  have hrest : ∀ gs : List UInt16,
      Groups false false (gs.flatMap fun seg => text ":" ++ lowerHex seg) gs := fun gs => by
    induction gs with
    | nil => exact .none
    | cons g gs ih => exact .group (group_lowerHex g) ih
  cases gs with
  | nil => exact .none
  | cons g gs => exact .group (group_lowerHex g) (hrest gs)

/-! ## The zeros -/

def Zeros (segments : List UInt16) (start len : Nat) : Prop :=
  ∀ j, start ≤ j → j < start + len → segments.getD j 0 = 0

theorem zeros_nil (segments : List UInt16) (start : Nat) : Zeros segments start 0 :=
  fun _ hj hj' => absurd (lt_of_le_of_lt hj hj') (lt_irrefl _)

/-- The state after a number of iterations. -/
structure Spanned (segments : List UInt16) (i : Nat) (s : Span) : Prop where
  longest : Zeros segments s.longestSpanAt s.longestSpanLen
  longest_le : s.longestSpanAt + s.longestSpanLen ≤ i
  cur : Zeros segments s.curSpanAt s.curSpanLen
  cur_end : s.curSpanLen ≠ 0 → s.curSpanAt + s.curSpanLen = i

variable {segments : List UInt16}

theorem Spanned.step {i : Nat} {s : Span} (h : Spanned segments i s) :
    Spanned segments (i + 1) (s.step segments i) := by
  have hle := h.longest_le
  rw [Span.step]
  split
  · next hzero =>
    dsimp only
    -- the span that goes on, or starts here
    have hcur : Zeros segments (if s.curSpanLen = 0 then i else s.curSpanAt) (s.curSpanLen + 1) ∧
        (if s.curSpanLen = 0 then i else s.curSpanAt) + (s.curSpanLen + 1) = i + 1 := by
      split
      · next hstart =>
        refine ⟨fun j hj hj' => ?_, by rw [hstart]⟩
        rw [hstart] at hj'
        rwa [le_antisymm (Nat.le_of_lt_succ hj') hj]
      · next hon =>
        have hend := h.cur_end hon
        refine ⟨fun j hj hj' => ?_, by omega⟩
        rcases lt_or_ge j i with hlt | hge
        · exact h.cur j hj (by omega)
        · have hj : j = i := by omega
          rwa [hj]
    split
    · exact ⟨hcur.1, hcur.2.le, hcur.1, fun _ => hcur.2⟩
    · exact ⟨h.longest, Nat.le_succ_of_le hle, hcur.1, fun _ => hcur.2⟩
  · exact ⟨h.longest, Nat.le_succ_of_le hle, zeros_nil _ _, by simp⟩

theorem findZeroSlice_spec (segments : List UInt16) :
    Zeros segments (findZeroSlice segments).1 (findZeroSlice segments).2 ∧
      (findZeroSlice segments).1 + (findZeroSlice segments).2 ≤ 8 := by
  have hloop : ∀ n, Spanned segments n
      ((range n).foldl (Span.step segments) ⟨0, 0, 0, 0⟩) := fun n => by
    induction n with
    | zero => exact ⟨zeros_nil _ _, le_rfl, zeros_nil _ _, by simp⟩
    | succ n ih =>
      rw [range_succ, foldl_append]
      exact ih.step
  exact ⟨(hloop 8).longest, (hloop 8).longest_le⟩

theorem split_zeros {start len : Nat} (h : Zeros segments start len)
    (hle : start + len ≤ segments.length) :
    segments.take start ++ replicate len 0 ++ segments.drop (start + len) = segments := by
  have hmid : (segments.drop start).take len = replicate len 0 := by
    refine eq_replicate_iff.2 ⟨?_, fun g hg => ?_⟩
    · rw [length_take, length_drop]
      omega
    · obtain ⟨j, hj, rfl⟩ := getElem_of_mem hg
      rw [length_take, length_drop] at hj
      rw [getElem_take, getElem_drop]
      have hzero := h (start + j) (Nat.le_add_right _ _) (by omega)
      rwa [getD_eq_getElem?_getD, getElem?_eq_getElem (by omega), getD_some] at hzero
  rw [← hmid, ← drop_drop, append_assoc, take_append_drop, take_append_drop]

/-! ## The text of an address -/

theorem ipv6Text_fmt (a : Ipv6Addr) : Ipv6Text a.fmt a.segments := by
  have hlen : a.segments.length = 8 := length_segments a
  have hcompressed : ∀ {quad : Bool} {m : List UInt8} {ts : List UInt16}, Groups true quad m ts →
      ts.length ≤ 7 → a.segments = replicate (8 - ts.length) 0 ++ ts →
      Ipv6Text (text "::" ++ m) a.segments := fun {quad m ts} hts hle heq => by
    have htext := Ipv6Text.compressed (l := []) .none hts (by simpa using hle)
    rw [length_nil, zero_add] at htext
    change Ipv6Text (text "::" ++ m) (replicate (8 - ts.length) 0 ++ ts) at htext
    rwa [← heq] at htext
  have hlast : ∀ {x : UInt16}, a.segments.take 6 = [0, 0, 0, 0, 0, x] →
      a.segments = [0, 0, 0, 0, 0, x, a.segments.getD 6 0, a.segments.getD 7 0] := fun hx => by
    conv_lhs => rw [← take_append_drop 6 a.segments, hx]
    rfl
  rw [fmt]
  dsimp only
  split
  · next h =>
    have htext := hcompressed .none (Nat.zero_le 7) (by rw [h]; rfl)
    rwa [append_nil] at htext
  split
  · next h =>
    have hdigits : (text "1").all (fun b => (digit 16 b).isSome) = true := by decide
    have hone : Group (text "1") 1 :=
      ⟨fun b hb => all_eq_true.1 hdigits b hb, by decide, by decide, by decide, by decide⟩
    exact hcompressed (@Groups.group true _ _ _ _ _ hone .none) (by decide) (by rw [h]; rfl)
  split
  · next h => exact hcompressed (groups_fmtQuad true _ _) (by simp) (hlast h)
  split
  · next h =>
    have hdigits : (text "ffff").all (fun b => (digit 16 b).isSome) = true := by decide
    have hffff : Group (text "ffff") 0xffff :=
      ⟨fun b hb => all_eq_true.1 hdigits b hb, by decide, by decide, by decide, by decide⟩
    have hgroups := @Groups.group true _ _ _ _ _ hffff
      (groups_fmtQuad false (a.segments.getD 6 0) (a.segments.getD 7 0))
    exact hcompressed hgroups (by simp) (hlast h)
  · split
    · next hmany =>
      obtain ⟨hzeros, hle⟩ := findZeroSlice_spec a.segments
      generalize findZeroSlice a.segments = z at hmany hzeros hle
      have hsplit := split_zeros hzeros (hlen ▸ hle)
      have hcount : (a.segments.take z.1).length + (a.segments.drop (z.1 + z.2)).length = 8 - z.2 := by
        rw [length_take, length_drop, hlen]
        omega
      have htext := Ipv6Text.compressed (groups_fmtSubslice (a.segments.take z.1))
        (groups_fmtSubslice (a.segments.drop (z.1 + z.2))) (by omega)
      have hspan : 8 - (8 - z.2) = z.2 := by omega
      rw [hcount, hspan, hsplit] at htext
      exact htext
    · exact .full (groups_fmtSubslice a.segments) hlen

theorem readIpv4Addr_ipv6Text {s : List UInt8} (h : Ipv6Text s gs) :
    readIpv4Addr s = .ok (none, s) := by
  have hgroup : ∀ {quad : Bool} {l m : List UInt8} {g : UInt16} {gs : List UInt16} (x : List UInt8),
      Group l g → Groups false quad m gs → Stop x →
      readIpv4Addr (sep ':' true ++ l ++ m ++ x) = .ok (none, sep ':' true ++ l ++ m ++ x) :=
    fun x hg hgs hx => by
      rw [append_assoc]
      exact readIpv4Addr_none hg.digits (hgs.colon hx)
  cases h with
  | full hgroups hlen =>
    cases hgroups with
    | none => cases hlen
    | group hg hgs =>
      have hread := hgroup [] hg hgs (.inl rfl)
      rwa [append_nil] at hread
    | quad hq => cases hlen
  | @compressed quad l m hs ts hhs hts hle =>
    rw [append_assoc]
    cases hhs with
    | none => exact @readIpv4Addr_none [] _ nofun (.inr ⟨_, rfl⟩)
    | group hg hgs => exact hgroup (text "::" ++ m) hg hgs (.inr ⟨m, rfl⟩)

/-- The text an address is displayed as is parsed as the address, and a text is parsed as an address
exactly if the grammar derives it. -/
theorem ipv6_round_trip : (∀ a : Ipv6Addr, fromStr a.fmt = .ok (some a) ∧
      IpAddr.fromStr a.fmt = .ok (some (.v6 a))) ∧ ∀ s : List UInt8, ∃ r, fromStr s = .ok r ∧
      ∀ a : Ipv6Addr, r = some a ↔ Ipv6Text s a.segments := by
  refine ⟨fun a => ?_, fromStr_spec⟩
  have htext := ipv6Text_fmt a
  have hread := readIpv6Addr_complete htext
  have hv4 : readAtomically (Parser.map IpAddr.v4 readIpv4Addr) a.fmt = .ok (none, a.fmt) := by
    refine readAtomically_none (x := a.fmt) ?_
    rw [Parser.map, readIpv4Addr_ipv6Text htext]
    rfl
  have hv6 : readAtomically (Parser.map IpAddr.v6 readIpv6Addr) a.fmt = .ok (some (.v6 a), []) := by
    refine readAtomically_some ?_
    rw [Parser.map, hread]
    rfl
  have hip : readIpAddr a.fmt = .ok (some (.v6 a), []) := by
    rw [readIpAddr, readOr, hv4, ok_bind]
    dsimp only
    rw [readOr, hv6]
    rfl
  constructor
  · rw [fromStr, readTillEof_some hread]
    rfl
  · rw [IpAddr.fromStr, readTillEof_some hip]
    rfl

end Tortis.Net
