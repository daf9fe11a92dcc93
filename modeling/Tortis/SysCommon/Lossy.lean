import Tortis.SysCommon.Wide

/-!
# Well-formed strings and their conversions

Every operation keeps a string well formed. On a well-formed string `next_surrogate` finds the
surrogates, so the conversions to UTF-8 give the string itself when it has none, and else a string
in which each of them is replaced.
-/

namespace Tortis.SysCommon

open PrefixCode Str Outcome List CodePoint Wtf8Buf Wtf8

/-! ## The operations -/

/-- How a string is made. A `str` is given by its characters. -/
inductive Start where
  | new
  | fromStr (str : List Char)
  | fromWide (v : List UInt16)
  | fromIter (iter : List CodePoint)

/-- An operation on a string. -/
inductive Op where
  | pushStr (other : List Char)
  | pushWtf8 (other : { w : Wtf8 // WellFormed w.bytes })
  | pushChar (c : Char)
  | push (codePoint : CodePoint)
  | extend (iter : List CodePoint)
  | truncate (newLen : Nat)

/-- The string that is made. -/
def Start.run : Start → Outcome Wtf8Buf
  | .new => .ok Wtf8Buf.new
  | .fromStr str => .ok (Wtf8Buf.fromStr (str.flatMap encodeChar))
  | .fromWide v => Wtf8Buf.fromWide v
  | .fromIter iter => Wtf8Buf.fromIter iter

def Op.run (self : Wtf8Buf) : Op → Outcome Wtf8Buf
  | .pushStr other => .ok (self.pushStr (other.flatMap encodeChar))
  | .pushWtf8 other => self.pushWtf8 other.val
  | .pushChar c => .ok (self.pushChar c)
  | .push codePoint => self.push codePoint
  | .extend iter => self.extend iter
  | .truncate newLen => self.truncate newLen

/-- The string after all of the operations. -/
def build (start : Start) (ops : List Op) : Outcome Wtf8Buf := do
  let s ← start.run
  ops.foldlM Op.run s

theorem noPair_append_chars {cs : List CodePoint} (hcs : NoPair cs) (str : List Char) :
    NoPair (cs ++ str.map fromChar) := by
  have hstr : NoPair (str.map fromChar) :=
    (isChain_map _).2 (List.Pairwise.isChain
      (pairwise_of_forall fun ch _ => unpaired_fromChar_left ch _))
  refine hcs.append hstr fun c _ d hd => ?_
  cases str with
  | nil => cases hd
  | cons ch str =>
    cases hd
    exact unpaired_fromChar_right c ch

theorem wellFormed_nil : WellFormed [] := ⟨[], .nil, rfl⟩

theorem WellFormed.append_chars {bytes : List UInt8} (h : WellFormed bytes) (str : List Char) :
    WellFormed (bytes ++ str.flatMap encodeChar) := by
  obtain ⟨cs, hcs, rfl⟩ := h
  refine ⟨_, noPair_append_chars hcs str, ?_⟩
  rw [encodeAll_append, encodeAll_map_fromChar]

theorem Start.run_spec (start : Start) : ∃ s, start.run = .ok s ∧ WellFormed s.bytes := by
  cases start with
  | new => exact ⟨_, rfl, wellFormed_nil⟩
  | fromStr str => exact ⟨_, rfl, wellFormed_nil.append_chars str⟩
  | fromWide v =>
    obtain ⟨s, cs, hs, hcs, -⟩ := fromWide_spec v
    exact ⟨s, hs, cs, hcs⟩
  | fromIter iter =>
    obtain ⟨s, cs, hs, hcs, -⟩ := @extend_spec Wtf8Buf.new iter [] ⟨.nil, rfl⟩
    exact ⟨s, hs, cs, hcs⟩

/-- An operation keeps a string well formed, and only `truncate` can panic, at a place that is not
between code points. -/
theorem Op.run_spec {s : Wtf8Buf} (h : WellFormed s.bytes) (op : Op) :
    (∃ s', op.run s = .ok s' ∧ WellFormed s'.bytes) ∨ ∃ n msg, op = .truncate n ∧
    s.asSlice.isCodePointBoundary n = false ∧ op.run s = .error (.panic msg) := by
  obtain ⟨cs, hcs⟩ := h
  cases op with
  | pushStr other => exact .inl ⟨_, rfl, WellFormed.append_chars ⟨cs, hcs⟩ other⟩
  | pushWtf8 other =>
    obtain ⟨ds, hds⟩ := other.property
    obtain ⟨s', es, hrun, hes, -⟩ := pushWtf8_spec hcs hds
    exact .inl ⟨s', hrun, es, hes⟩
  | pushChar c =>
    refine .inl ⟨_, rfl, ?_⟩
    have happ := WellFormed.append_chars ⟨cs, hcs⟩ [c]
    rwa [flatMap_singleton] at happ
  | push codePoint =>
    obtain ⟨s', es, hrun, hes, -⟩ := push_spec hcs codePoint
    exact .inl ⟨s', hrun, es, hes⟩
  | extend iter =>
    obtain ⟨s', es, hrun, hes, -⟩ := @extend_spec s iter cs hcs
    exact .inl ⟨s', hrun, es, hes⟩
  | truncate n =>
    rw [Op.run, Wtf8Buf.truncate]
    cases hb : s.asSlice.isCodePointBoundary n with
    | false => exact .inr ⟨n, _, rfl, hb, rfl⟩
    | true =>
      obtain ⟨cs1, cs2, rfl, rfl⟩ := (isCodePointBoundary_iff hcs.2 n).1 hb
      refine .inl ⟨_, rfl, cs1, hcs.1.left_of_append, ?_⟩
      rw [hcs.2, encodeAll_append, take_left]

theorem build_wellFormed {start : Start} {ops : List Op} {s : Wtf8Buf}
    (h : build start ops = .ok s) : WellFormed s.bytes := by
  obtain ⟨s0, hs0, hwf⟩ := start.run_spec
  rw [build, hs0, ok_bind] at h
  refine foldlM_keeps (P := fun s => WellFormed s.bytes) hwf h fun op _ s s' hs hrun => ?_
  rcases op.run_spec hs with ⟨s'', hrun', hwf'⟩ | ⟨n, msg, -, -, hpanic⟩
  · rw [hrun'] at hrun
    cases hrun
    exact hwf'
  · rw [hpanic] at hrun
    cases hrun

/-! ## The scan for surrogates -/

/-- What the scan from a place gives, by the code points from there on. -/
def NextSurrogate (cs : List CodePoint) (pos : Nat) : Option (Nat × UInt16) → Prop
  | none => ∀ c ∈ cs, ¬ c.IsSurrogate
  | some (p, u) => ∃ before c after, cs = before ++ c :: after ∧ (∀ d ∈ before, ¬ d.IsSurrogate) ∧
    c.IsSurrogate ∧ p = pos + (encodeAll before).length ∧ u.toNat = c.value

theorem nextSurrogateLoop_skip {c : CodePoint} (hc : ¬ c.IsSurrogate) (n : Nat)
    (rest : List UInt8) (pos : Nat) : nextSurrogateLoop (n + 1) (c.encode ++ rest) pos =
      nextSurrogateLoop n rest (pos + c.encode.length) := by
  have hlt : ∀ {a b : UInt8}, a < b ↔ a.toNat < b.toNat := UInt8.lt_iff_toNat_lt
  have hshape := c.shape
  rw [CodePoint.IsSurrogate] at hc
  generalize c.encode = l at hshape
  cases hshape with
  | one hx h =>
    rw [cons_append, nextSurrogateLoop, if_pos (hlt.2 (hx ▸ h))]
    rfl
  | @two x y hx hy h h' =>
    have hx1 : ¬ x < 0x80 := fun hx1 => by
      have : x.toNat < 0x80 := hlt.1 hx1
      omega
    have hx2 : x < 0xE0 := hlt.2 (by change x.toNat < 0xE0; omega)
    rw [cons_append, nextSurrogateLoop, if_neg hx1, if_pos hx2]
    rfl
  | @three x y z hx hy hz h h' =>
    have hx1 : ¬ x < 0x80 := fun hx1 => by
      have : x.toNat < 0x80 := hlt.1 hx1
      omega
    have hx2 : ¬ x < 0xE0 := fun hx2 => by
      have : x.toNat < 0xE0 := hlt.1 hx2
      omega
    have hx3 : x < 0xF0 := hlt.2 (by change x.toNat < 0xF0; omega)
    rw [cons_append, nextSurrogateLoop, if_neg hx1, if_neg hx2]
    by_cases hed : x = 0xED
    · have hy1 : ¬ 0xA0 ≤ y := fun hy1 => by
        have hed' := congrArg UInt8.toNat hed
        have : 0xA0 ≤ y.toNat := UInt8.le_iff_toNat_le.1 hy1
        change x.toNat = 0xED at hed'
        omega
      have hnone : surrogateBytes ([y, z] ++ rest) = none := if_neg hy1
      rw [if_pos hed, hnone]
      rfl
    · rw [if_neg hed, if_pos hx3]
      rfl
  | @four x y z w hx hy hz hw h h' =>
    have hx1 : ¬ x < 0x80 := fun hx1 => by
      have : x.toNat < 0x80 := hlt.1 hx1
      omega
    have hx2 : ¬ x < 0xE0 := fun hx2 => by
      have : x.toNat < 0xE0 := hlt.1 hx2
      omega
    have hx3 : ¬ x < 0xF0 := fun hx3 => by
      have : x.toNat < 0xF0 := hlt.1 hx3
      omega
    have hx4 : ¬ x = 0xED := fun hed => hx3 (hed ▸ by decide)
    rw [cons_append, nextSurrogateLoop, if_neg hx1, if_neg hx2, if_neg hx4, if_neg hx3]
    rfl

theorem nextSurrogateLoop_stop {c : CodePoint} (hc : c.IsSurrogate) (n : Nat) (rest : List UInt8)
    (pos : Nat) : ∃ u, nextSurrogateLoop (n + 1) (c.encode ++ rest) pos =
      .ok (some (pos, u)) ∧ u.toNat = c.value := by
  obtain ⟨y, z, hbytes, hy, -, -, hdecode⟩ := encode_surrogate hc
  refine ⟨decodeSurrogate y z, ?_, hdecode⟩
  rw [hbytes, cons_append, nextSurrogateLoop, if_neg (by decide), if_neg (by decide), if_pos rfl]
  have hsome : surrogateBytes ([y, z] ++ rest) = some (y, z) :=
    if_pos (UInt8.le_iff_toNat_le.2 hy : (0xA0 : UInt8) ≤ y)
  rw [hsome]

theorem nextSurrogateLoop_spec : ∀ {cs : List CodePoint} {n pos : Nat}, cs.length < n →
    ∃ r, nextSurrogateLoop n (encodeAll cs) pos = .ok r ∧ NextSurrogate cs pos r
  | cs, 0, pos, hn => absurd hn (Nat.not_lt_zero _)
  | [], n + 1, pos, hn => ⟨none, rfl, fun c hc => absurd hc not_mem_nil⟩
  | c :: cs, n + 1, pos, hn => by
    rw [encodeAll_cons]
    by_cases hc : c.IsSurrogate
    · obtain ⟨u, hrun, hu⟩ := nextSurrogateLoop_stop hc n (encodeAll cs) pos
      exact ⟨_, hrun, [], c, cs, rfl, nofun, hc, rfl, hu⟩
    · rw [nextSurrogateLoop_skip hc]
      obtain ⟨r, hrun, hr⟩ := @nextSurrogateLoop_spec cs n (pos + c.encode.length)
        (Nat.lt_of_succ_lt_succ hn)
      refine ⟨r, hrun, ?_⟩
      cases r with
      | none => exact forall_mem_cons.2 ⟨hc, hr⟩
      | some p =>
        obtain ⟨before, d, after, rfl, hbefore, hd, hp, hu⟩ := hr
        refine ⟨c :: before, d, after, rfl, forall_mem_cons.2 ⟨hc, hbefore⟩, hd, ?_, hu⟩
        rw [hp, encodeAll_cons, length_append, add_assoc]

theorem slice_spec (cs1 cs2 cs3 : List CodePoint) {bytes : List UInt8} {i j : Nat}
    (h : bytes = encodeAll (cs1 ++ cs2 ++ cs3)) (hi : i = (encodeAll cs1).length)
    (hj : j = i + (encodeAll cs2).length) : slice bytes i j = .ok (encodeAll cs2) := by
  subst hi hj
  rw [encodeAll_append, encodeAll_append] at h
  have hlen := congrArg List.length h
  rw [length_append, length_append] at hlen
  have hrange : (decide ((encodeAll cs1).length ≤ (encodeAll cs1).length + (encodeAll cs2).length) &&
      decide ((encodeAll cs1).length + (encodeAll cs2).length ≤ bytes.length)) = true := by
    rw [Bool.and_eq_true, decide_eq_true_eq, decide_eq_true_eq]
    omega
  rw [slice, assert, if_pos hrange, ok_bind, h, ← length_append, take_left, drop_left]

theorem nextSurrogate_spec {w : Wtf8} {cs1 cs2 : List CodePoint} {pos : Nat}
    (h : w.bytes = encodeAll (cs1 ++ cs2)) (hpos : pos = (encodeAll cs1).length) :
    ∃ r, w.nextSurrogate pos = .ok r ∧ NextSurrogate cs2 pos r := by
  have hlen : w.len = pos + (encodeAll cs2).length := by
    rw [Wtf8.len, h, encodeAll_append, length_append, hpos]
  have hslice : slice w.bytes pos w.len = .ok (encodeAll cs2) :=
    slice_spec cs1 cs2 [] (by rw [append_nil, h]) hpos hlen
  rw [nextSurrogate, hslice, ok_bind]
  refine nextSurrogateLoop_spec ?_
  have hle := length_le_length_encodeAll cs2
  omega

end Tortis.SysCommon

/-! ## From strings to UTF-8 -/

namespace Tortis.SysCommon

open PrefixCode Str Outcome List

/-- The characters in which each surrogate is replaced. -/
def replaced (cs : List CodePoint) : List Char := cs.map CodePoint.toCharLossy

/-- The character is the code point, or replaces it when it is a surrogate. -/
def Replaces (c : CodePoint) (ch : Char) : Prop :=
  if c.IsSurrogate then ch = '\uFFFD' else CodePoint.fromChar ch = c

variable {c : CodePoint}

theorem toCharLossy_of_isSurrogate (h : c.IsSurrogate) : c.toCharLossy = '\uFFFD' := by
  rw [CodePoint.toCharLossy, CodePoint.toChar_of_isSurrogate h, Option.getD_none]

theorem fromChar_toCharLossy (h : ¬ c.IsSurrogate) : CodePoint.fromChar c.toCharLossy = c := by
  obtain ⟨ch, hch, heq⟩ := CodePoint.toChar_spec h
  rw [CodePoint.toCharLossy, hch, Option.getD_some, heq]

theorem replaces_toCharLossy (c : CodePoint) : Replaces c c.toCharLossy := by
  rw [Replaces]
  split
  · next h => exact toCharLossy_of_isSurrogate h
  · next h => exact fromChar_toCharLossy h

theorem forall₂_replaced (cs : List CodePoint) : List.Forall₂ Replaces cs (replaced cs) := by
  rw [replaced, forall₂_map_right_iff, forall₂_same]
  exact fun c _ => replaces_toCharLossy c

theorem replaced_append (cs ds : List CodePoint) :
    replaced (cs ++ ds) = replaced cs ++ replaced ds := map_append

variable {cs : List CodePoint}

theorem map_fromChar_replaced (h : ∀ c ∈ cs, ¬ c.IsSurrogate) :
    (replaced cs).map CodePoint.fromChar = cs := by
  rw [replaced, map_map]
  exact (map_congr_left fun c hc => fromChar_toCharLossy (h c hc)).trans (map_id cs)

def replacedBytes (cs : List CodePoint) : List UInt8 := (replaced cs).flatMap encodeChar

theorem replacedBytes_append (cs ds : List CodePoint) :
    replacedBytes (cs ++ ds) = replacedBytes cs ++ replacedBytes ds := by
  rw [replacedBytes, replaced_append, flatMap_append]
  rfl

theorem replacedBytes_of_forall (h : ∀ c ∈ cs, ¬ c.IsSurrogate) :
    replacedBytes cs = encodeAll cs := by
  rw [replacedBytes, ← encodeAll_map_fromChar, map_fromChar_replaced h]

theorem replacedBytes_singleton (h : c.IsSurrogate) :
    replacedBytes [c] = UTF8_REPLACEMENT_CHARACTER := by
  rw [replacedBytes, replaced, map_singleton, flatMap_singleton, toCharLossy_of_isSurrogate h]
  rfl

theorem length_encode_surrogate (h : c.IsSurrogate) : c.encode.length = 3 := by
  obtain ⟨y, z, hbytes, -⟩ := encode_surrogate h
  rw [hbytes]
  rfl

theorem length_encodeAll_through {cs ds : List CodePoint} {c : CodePoint} (h : c.IsSurrogate) :
    (encodeAll (cs ++ (ds ++ [c]))).length = (encodeAll cs).length + (encodeAll ds).length + 3 := by
  rw [encodeAll_append, encodeAll_append, encodeAll_cons, encodeAll_nil, append_nil,
    length_append, length_append, length_encode_surrogate h, add_assoc]

/-! ## Copying -/

theorem toStringLossyLoop_spec {w : Wtf8} : ∀ {n : Nat} {cs1 cs2 : List CodePoint}
    {utf8Bytes : List UInt8} {pos : Nat}, cs2.length < n → w.bytes = encodeAll (cs1 ++ cs2) →
    pos = (encodeAll cs1).length →
      w.toStringLossyLoop n utf8Bytes pos = .ok (utf8Bytes ++ replacedBytes cs2)
  | 0, cs1, cs2, utf8Bytes, pos, hn, _, _ => absurd hn (Nat.not_lt_zero _)
  | n + 1, cs1, cs2, utf8Bytes, pos, hn, hw, hpos => by
    obtain ⟨r, hnext, hr⟩ := nextSurrogate_spec hw hpos
    rw [Wtf8.toStringLossyLoop, hnext, ok_bind]
    cases r with
    | none =>
      have hslice : slice w.bytes pos w.len = .ok (encodeAll cs2) := by
        refine slice_spec cs1 cs2 [] (by rw [append_nil, hw]) hpos ?_
        rw [Wtf8.len, hw, encodeAll_append, length_append, hpos]
      rw [hslice, ok_bind, replacedBytes_of_forall hr]
    | some p =>
      obtain ⟨p, u⟩ := p
      obtain ⟨before, c, after, rfl, hbefore, hc, hp, -⟩ := hr
      have hslice : slice w.bytes pos p = .ok (encodeAll before) :=
        slice_spec cs1 before (c :: after) (by rw [append_assoc, hw]) hpos hp
      have hlen : after.length < n := by
        rw [length_append, length_cons] at hn
        omega
      dsimp only
      rw [hslice, ok_bind, @toStringLossyLoop_spec w n (cs1 ++ (before ++ [c])) after _ _ hlen
        (by rw [hw]; simp) (by rw [length_encodeAll_through hc, hp, hpos])]
      have hsplit : before ++ c :: after = before ++ ([c] ++ after) := rfl
      rw [hsplit, replacedBytes_append, replacedBytes_append, replacedBytes_of_forall hbefore,
        replacedBytes_singleton hc]
      simp

theorem toStringLossy_spec {w : Wtf8} (hw : w.bytes = encodeAll cs) :
    ∃ cow, w.toStringLossy = .ok cow ∧ cow.bytes = replacedBytes cs := by
  obtain ⟨r, hnext, hr⟩ := @nextSurrogate_spec w [] cs 0 hw rfl
  rw [Wtf8.toStringLossy, hnext, ok_bind]
  cases r with
  | none => exact ⟨_, rfl, hw.trans (replacedBytes_of_forall hr).symm⟩
  | some p =>
    obtain ⟨p, u⟩ := p
    obtain ⟨before, c, after, rfl, hbefore, hc, hp, -⟩ := hr
    have hslice : slice w.bytes 0 p = .ok (encodeAll before) :=
      slice_spec [] before (c :: after) hw rfl hp
    have hlen : after.length < w.len + 1 := by
      have hle := length_le_length_encodeAll (before ++ c :: after)
      rw [← hw, length_append, length_cons] at hle
      rw [Wtf8.len]
      omega
    refine ⟨.owned (encodeAll before ++ UTF8_REPLACEMENT_CHARACTER ++ replacedBytes after), ?_, ?_⟩
    · dsimp only
      rw [hslice, ok_bind, @toStringLossyLoop_spec w _ (before ++ [c]) after _ _ hlen
        (by rw [hw]; simp) (by rw [hp]; exact (@length_encodeAll_through [] before c hc).symm),
        ok_bind]
    · have hsplit : before ++ c :: after = before ++ ([c] ++ after) := rfl
      rw [hsplit, replacedBytes_append, replacedBytes_append, replacedBytes_of_forall hbefore,
        replacedBytes_singleton hc]
      simp [Wtf8.Cow.bytes]

/-! ## Writing over -/

theorem copyFromSlice_spec {cs1 cs2 : List CodePoint} {d : CodePoint} (hc : c.IsSurrogate)
    (hd : d.encode.length = 3) : copyFromSlice (encodeAll (cs1 ++ c :: cs2)) (encodeAll cs1).length
      ((encodeAll cs1).length + 3) d.encode = .ok (encodeAll (cs1 ++ d :: cs2)) := by
  have hlen := length_encode_surrogate hc
  have hslice : slice (encodeAll (cs1 ++ c :: cs2)) (encodeAll cs1).length
      ((encodeAll cs1).length + 3) = .ok (encodeAll [c]) := by
    refine slice_spec cs1 [c] cs2 (by simp) rfl ?_
    rw [encodeAll_cons, encodeAll_nil, append_nil, hlen]
  have heq : (encodeAll [c]).length == d.encode.length := by
    rw [encodeAll_cons, encodeAll_nil, append_nil, hlen, hd]
    rfl
  have htake : (encodeAll (cs1 ++ c :: cs2)).take (encodeAll cs1).length = encodeAll cs1 := by
    rw [encodeAll_append, take_left]
  have hdrop : (encodeAll (cs1 ++ c :: cs2)).drop ((encodeAll cs1).length + 3) = encodeAll cs2 := by
    rw [encodeAll_append, encodeAll_cons, ← append_assoc, ← hlen, ← length_append, drop_left]
  rw [copyFromSlice, hslice, ok_bind, assert, if_pos heq, ok_bind, htake, hdrop]
  simp

theorem intoStringLossyLoop_spec : ∀ {n : Nat} {cs1 cs2 : List CodePoint} {s : Wtf8Buf}
    {pos : Nat}, cs2.length < n → s.bytes = encodeAll (cs1 ++ cs2) →
    (∀ c ∈ cs1, ¬ c.IsSurrogate) → pos = (encodeAll cs1).length →
      Wtf8Buf.intoStringLossyLoop n s pos = .ok (replacedBytes (cs1 ++ cs2))
  | 0, cs1, cs2, s, pos, hn, _, _, _ => absurd hn (Nat.not_lt_zero _)
  | n + 1, cs1, cs2, s, pos, hn, hs, hcs1, hpos => by
    obtain ⟨r, hnext, hr⟩ := @nextSurrogate_spec s.asSlice cs1 cs2 pos hs hpos
    rw [Wtf8Buf.intoStringLossyLoop, hnext, ok_bind]
    cases r with
    | none =>
      have hnone : ∀ c ∈ cs1 ++ cs2, ¬ c.IsSurrogate := fun c hc =>
        (mem_append.1 hc).elim (hcs1 c) (hr c)
      rw [replacedBytes_of_forall hnone, hs]
    | some p =>
      obtain ⟨p, u⟩ := p
      obtain ⟨before, c, after, rfl, hbefore, hc, hp, -⟩ := hr
      obtain ⟨repl, hrepl⟩ : ∃ d, d = CodePoint.fromChar '\uFFFD' := ⟨_, rfl⟩
      have hsplit : cs1 ++ (before ++ c :: after) = cs1 ++ before ++ c :: after := by simp
      have hplace : p = (encodeAll (cs1 ++ before)).length := by
        rw [hp, hpos, encodeAll_append, length_append]
      have hcopy : copyFromSlice s.bytes p (p + 3) UTF8_REPLACEMENT_CHARACTER =
          .ok (encodeAll (cs1 ++ before ++ repl :: after)) := by
        rw [hs, hsplit, hplace, hrepl]
        exact copyFromSlice_spec (d := CodePoint.fromChar '\uFFFD') hc (by decide)
      have hlen : after.length < n := by
        rw [length_append, length_cons] at hn
        omega
      have hclear : ∀ d ∈ cs1 ++ before ++ [repl], ¬ d.IsSurrogate := fun d hd => by
        rcases mem_append.1 hd with hd | hd
        · exact (mem_append.1 hd).elim (hcs1 d) (hbefore d)
        · rw [mem_singleton.1 hd, hrepl]
          exact CodePoint.not_isSurrogate_fromChar _
      have hbytes : encodeAll (cs1 ++ before ++ repl :: after) =
          encodeAll (cs1 ++ before ++ [repl] ++ after) := by simp
      have hnewpos : p + 3 = (encodeAll (cs1 ++ before ++ [repl])).length := by
        rw [encodeAll_append, length_append, ← hplace, hrepl]
        rfl
      dsimp only
      rw [hcopy, ok_bind, @intoStringLossyLoop_spec n (cs1 ++ before ++ [repl]) after
        ⟨encodeAll (cs1 ++ before ++ repl :: after)⟩ _ hlen hbytes hclear hnewpos]
      -- the surrogate and what it is replaced by are replaced by the same character
      have hsame : replacedBytes [repl] = replacedBytes [c] := by
        rw [replacedBytes_singleton hc, hrepl]
        decide
      have hcons : before ++ c :: after = before ++ ([c] ++ after) := rfl
      rw [hcons]
      simp only [replacedBytes_append, hsame, append_assoc]

theorem intoStringLossy_spec {s : Wtf8Buf} (hs : s.bytes = encodeAll cs) :
    s.intoStringLossy = .ok (replacedBytes cs) := by
  have hle := length_le_length_encodeAll cs
  rw [← hs] at hle
  exact @intoStringLossyLoop_spec _ [] cs s 0 (Nat.lt_succ_of_le hle) hs nofun rfl

/-! ## The conversions -/

/-- What the reading functions give on a string of code points. -/
structure Reads (w : Wtf8) (cs : List CodePoint) : Prop where
  /-- From each place between code points, the first surrogate is found. -/
  nextSurrogate : ∀ pos, w.isCodePointBoundary pos = true →
    ∃ cs₁ cs₂ r, cs = cs₁ ++ cs₂ ∧ pos = (encodeAll cs₁).length ∧ w.nextSurrogate pos = .ok r ∧
      NextSurrogate cs₂ pos r
  /-- Without surrogates, the string is valid and given back. -/
  valid : (∀ c ∈ cs, ¬ c.IsSurrogate) → Encoded encodeChar w.bytes ∧
    w.asStr = .ok (some w.bytes) ∧ Wtf8Buf.intoString ⟨w.bytes⟩ = .ok (.ok w.bytes)
  /-- With a surrogate, there is no conversion. -/
  invalid : (∃ c ∈ cs, c.IsSurrogate) →
    w.asStr = .ok none ∧ Wtf8Buf.intoString ⟨w.bytes⟩ = .ok (.error ⟨w.bytes⟩)
  /-- The lossy conversions replace each surrogate. -/
  lossy : ∃ str cow, List.Forall₂ Replaces cs str ∧ w.toStringLossy = .ok cow ∧
    cow.bytes = str.flatMap encodeChar ∧
    Wtf8Buf.intoStringLossy ⟨w.bytes⟩ = .ok (str.flatMap encodeChar)

theorem reads_of_holds {w : Wtf8} (h : Holds w.bytes cs) : Reads w cs where
  nextSurrogate pos hpos := by
    obtain ⟨cs1, cs2, rfl, hlen⟩ := (isCodePointBoundary_iff h.2 pos).1 hpos
    obtain ⟨r, hrun, hr⟩ := nextSurrogate_spec h.2 hlen
    exact ⟨cs1, cs2, r, rfl, hlen, hrun, hr⟩
  valid hclear := by
    obtain ⟨r, hnext, hr⟩ := @nextSurrogate_spec w [] cs 0 h.2 rfl
    cases r with
    | none =>
      refine ⟨⟨replaced cs, ?_⟩, ?_, ?_⟩
      · rw [h.2]
        exact replacedBytes_of_forall hclear
      · rw [Wtf8.asStr, hnext, ok_bind]
      · rw [Wtf8Buf.intoString, Wtf8Buf.asSlice, hnext, ok_bind]
    | some p =>
      obtain ⟨before, c, after, rfl, -, hc, -⟩ := hr
      exact absurd hc (hclear c (by simp))
  invalid := by
    rintro ⟨c, hc, hsurr⟩
    obtain ⟨r, hnext, hr⟩ := @nextSurrogate_spec w [] cs 0 h.2 rfl
    cases r with
    | none => exact absurd hsurr (hr c hc)
    | some p =>
      refine ⟨?_, ?_⟩
      · rw [Wtf8.asStr, hnext, ok_bind]
      · rw [Wtf8Buf.intoString, Wtf8Buf.asSlice, hnext, ok_bind]
  lossy := by
    obtain ⟨cow, hcow, hbytes⟩ := toStringLossy_spec h.2
    exact ⟨replaced cs, cow, forall₂_replaced cs, hcow, hbytes, intoStringLossy_spec h.2⟩

/-- A string that is built with the operations is well formed, the operations do not panic but for
a `truncate` inside of a code point, and a well-formed string is read as its code points say. -/
theorem strings_well_formed :
    (∀ (start : Start) (ops : List Op) (s : Wtf8Buf), build start ops = .ok s →
      WellFormed s.bytes) ∧
    (∀ s : Wtf8Buf, WellFormed s.bytes → ∀ op : Op, (∃ s', op.run s = .ok s') ∨
      ∃ n, op = .truncate n ∧ s.asSlice.isCodePointBoundary n = false) ∧
    ∀ w : Wtf8, WellFormed w.bytes → ∃ cs, Holds w.bytes cs ∧ Reads w cs := by
  refine ⟨fun start ops s h => build_wellFormed h, fun s hs op => ?_, fun w ⟨cs, hcs⟩ => ?_⟩
  · rcases op.run_spec hs with ⟨s', hrun, -⟩ | ⟨n, -, hop, hb, -⟩
    · exact .inl ⟨s', hrun⟩
    · exact .inr ⟨n, hop, hb⟩
  · exact ⟨cs, hcs, reads_of_holds hcs⟩

end Tortis.SysCommon
