import Tortis.Str.Chars

/-!
# Lossy decoding

`Utf8LossyChunksIter` in `libcore/str/lossy.rs`. A chunk is what was read of the source until no
encoding followed, and the bytes that are replaced. The scan does not share its code with validation
and reads zeros behind the end; `lossyMultibyte_eq` compares one step of the two.
-/

namespace Tortis.Str

open PrefixCode Outcome List Option Utf8Error

structure Utf8LossyChunk where
  valid : List UInt8
  broken : List UInt8

namespace Utf8LossyChunksIter

def TAG_CONT_U8 : UInt8 := 128

def safeGet (xs : List UInt8) (i : Nat) : UInt8 := (xs[i]?).getD 0

section
variable (source : List UInt8)

/-- `if safe_get(self.source, i) & 192 != TAG_CONT_U8 { error!(); } i += 1;`, with the place that
`error!` finds as the error. -/
def lossyCont (i : Nat) : Except Nat Nat :=
  if safeGet source i &&& 192 ≠ TAG_CONT_U8 then .error i else .ok (i + 1)

/-- The case of a first byte that is not ASCII, where `i` is the place after it. -/
def lossyMultibyte (i : Nat) (byte : UInt8) : Except Nat Nat :=
  match (UTF8_CHAR_WIDTH[byte.toNat]?).getD 0 with
  | 2 => lossyCont source i
  | 3 =>
    if second3 byte (safeGet source i) then lossyCont source (i + 1) else .error i
  | 4 =>
    if second4 byte (safeGet source i) then do
      let i ← lossyCont source (i + 1)
      lossyCont source i
    else .error i
  | _ => .error i

/-- `error!()`: the chunk, and what is left of the source. -/
def lossyError (i_ i : Nat) :
    Outcome (Option Utf8LossyChunk × List UInt8) := do
  assert (i_ ≤ i ∧ i ≤ source.length) "slice index out of range"
  .ok (some ⟨source.take i_, (source.take i).drop i_⟩, source.drop i)

def nextLoop (source : List UInt8) : Nat → Nat → Outcome (Option Utf8LossyChunk × List UInt8)
  | 0, _ => .error .outOfFuel
  | n + 1, i =>
    match source[i]? with
    | none => .ok (some ⟨source, []⟩, [])
    | some byte =>
      if byte < 128 then nextLoop source n (i + 1)
      else
        match lossyMultibyte source (i + 1) byte with
        | .ok j => nextLoop source n j
        | .error j => lossyError source i j

def next : Outcome (Option Utf8LossyChunk × List UInt8) :=
  if source.isEmpty then .ok (none, source) else nextLoop source (source.length + 1) 0

end

/-- The chunks that are left. -/
def collect : Nat → List UInt8 → Outcome (List Utf8LossyChunk)
  | 0, _ => .error .outOfFuel
  | n + 1, source => do
    let (chunk, source) ← next source
    match chunk with
    | none => .ok []
    | some chunk => do
      let chunks ← collect n source
      .ok (chunk :: chunks)

end Utf8LossyChunksIter

/-- `Utf8Lossy::chunks`, run to its end. -/
def chunks (bytes : List UInt8) : Outcome (List Utf8LossyChunk) :=
  Utf8LossyChunksIter.collect (bytes.length + 1) bytes

/-- The bytes that an error is about: as many as it says, or all that are left. -/
def Utf8Error.brokenLen (v : List UInt8) (e : Utf8Error) : Nat :=
  e.errorLen.getD (v.length - e.validUpTo)

/-! ## One step -/

namespace Utf8LossyChunksIter

/-- The two scans go on at the same place, or both stop at the same one. -/
inductive Agree (v : List UInt8) (old : Nat) : Except Utf8Error Nat → Except Nat Nat → Prop where
  | next (j : Nat) : Agree v old (.ok j) (.ok j)
  | failed {errorLen : Option Nat} {j : Nat} : j = old + brokenLen v ⟨old, errorLen⟩ →
    Agree v old (.error ⟨old, errorLen⟩) (.error j)

section
variable {v l : List UInt8} {old index k : Nat} {x : UInt8}

theorem second_zero (x : UInt8) : second3 x 0 = false ∧ second4 x 0 = false := by
  constructor
  · simp [second3]
  · simp [second4]

theorem nextByte_cases (old : Nat) (h : index < v.length) : (index + 1 < v.length ∧
      nextByte v old index = .ok (safeGet v (index + 1), index + 1)) ∨
    (v.length = index + 1 ∧ nextByte v old index = .error ⟨old, none⟩ ∧
      safeGet v (index + 1) = 0) := by
  rcases lt_or_ge (index + 1) v.length with hlt | hge
  · refine .inl ⟨hlt, ?_⟩
    rw [nextByte, safeGet, getElem?_eq_getElem hlt]
    rfl
  · refine .inr ⟨by omega, ?_, ?_⟩
    · rw [nextByte, getElem?_eq_none hge]
    · rw [safeGet, getElem?_eq_none hge]
      rfl

theorem nextCont_cases (old : Nat) (h : index < v.length) (hold : old ≤ index) (hk : old + k = index + 1) :
    (index + 1 < v.length ∧ nextCont v old index k = .ok (index + 1) ∧
      lossyCont v (index + 1) = .ok (index + 2)) ∨
    ∃ errorLen j, nextCont v old index k = .error ⟨old, errorLen⟩ ∧
      lossyCont v (index + 1) = .error j ∧ j = old + brokenLen v ⟨old, errorLen⟩ := by
  rcases nextByte_cases old h with ⟨hlt, hb⟩ | ⟨hlen, hb, hzero⟩
  · rw [nextCont, hb, lossyCont]
    dsimp only [bind, Except.bind]
    by_cases hcont : safeGet v (index + 1) &&& ~~~CONT_MASK = TAG_CONT
    · exact .inl ⟨hlt, if_neg (not_not.2 hcont), if_neg (not_not.2 hcont)⟩
    · exact .inr ⟨some k, index + 1, if_pos hcont, if_pos hcont, hk.symm⟩
  · refine .inr ⟨none, index + 1, ?_, ?_, ?_⟩
    · rw [nextCont, hb]
      rfl
    · rw [lossyCont, hzero]
      rfl
    · simp only [brokenLen, getD_none]
      omega

theorem lossyMultibyte_eq (h : index < v.length) :
    Agree v index (multibyte v index x) (lossyMultibyte v (index + 1) x) := by
  rw [multibyte, lossyMultibyte]
  generalize (UTF8_CHAR_WIDTH[x.toNat]?).getD 0 = w
  dsimp only
  split
  · rcases nextCont_cases index h le_rfl rfl with ⟨-, hv, hl⟩ | ⟨errorLen, j, hv, hl, hj⟩
    · rw [hv, hl]
      exact .next _
    · rw [hv, hl]
      exact .failed hj
  · rcases nextByte_cases index h with ⟨hlt, hb⟩ | ⟨hlen, hb, hzero⟩
    · rw [hb]
      dsimp only [bind, Except.bind]
      split
      · rcases nextCont_cases index (k := 2) hlt (Nat.le_succ index) rfl with
          ⟨-, hv, hl⟩ | ⟨errorLen, j, hv, hl, hj⟩
        · rw [hv, hl]
          exact .next _
        · rw [hv, hl]
          exact .failed hj
      · exact .failed rfl
    · rw [hb, hzero, (second_zero x).1]
      refine .failed ?_
      simp only [brokenLen, getD_none]
      omega
  · rcases nextByte_cases index h with ⟨hlt, hb⟩ | ⟨hlen, hb, hzero⟩
    · rw [hb]
      dsimp only [bind, Except.bind]
      split
      · rcases nextCont_cases index (k := 2) hlt (Nat.le_succ index) rfl with
          ⟨hlt', hv, hl⟩ | ⟨errorLen, j, hv, hl, hj⟩
        · rw [hv, hl]
          dsimp only
          rcases nextCont_cases index (k := 3) hlt' (by omega) rfl with
            ⟨-, hv, hl⟩ | ⟨errorLen, j, hv, hl, hj⟩
          · rw [hv, hl]
            exact .next _
          · rw [hv, hl]
            exact .failed hj
        · rw [hv, hl]
          exact .failed hj
      · exact .failed rfl
    · rw [hb, hzero, (second_zero x).2]
      refine .failed ?_
      simp only [brokenLen, getD_none]
      omega
  · next h2 h3 h4 =>
    rcases w with _ | _ | _ | _ | _ | w
    · exact .failed rfl
    · exact .failed rfl
    · exact absurd rfl h2
    · exact absurd rfl h3
    · exact absurd rfl h4
    · exact .failed rfl

end

end Utf8LossyChunksIter

/-! ## One chunk -/

section
variable {v l : List UInt8} {index n : Nat}

theorem Reports.unique {r r' : Except Utf8Error Unit} (h : Reports v r) (h' : Reports v r') :
    r = r' := by
  cases r with
  | ok u => exact (h'.ok_iff.2 h).symm
  | error e =>
    cases r' with
    | ok u => exact h.ok_iff.2 h'
    | error e' =>
      obtain ⟨i, k⟩ := e
      obtain ⟨i', k'⟩ := e'
      obtain rfl : i = i' := le_antisymm (h'.longest h.1.le h.2.1) (h.longest h'.1.le h'.2.1)
      obtain ⟨-, -, -, hfail⟩ := h
      obtain ⟨-, -, -, hfail'⟩ := h'
      dsimp only at hfail hfail'
      rw [hfail.unique hfail']

theorem Reports.brokenLen_le {e : Utf8Error} (h : Reports v (.error e)) :
    1 ≤ e.brokenLen v ∧ e.validUpTo + e.brokenLen v ≤ v.length := by
  obtain ⟨i, k⟩ := e
  obtain ⟨hlt, -, -, hfail⟩ := h
  dsimp only at hlt hfail
  cases k with
  | none =>
    simp only [brokenLen, getD_none]
    omega
  | some k =>
    obtain ⟨-, hpos, hle, -⟩ := hfail
    rw [length_drop] at hle
    simp only [brokenLen, getD_some]
    omega

end

namespace Utf8LossyChunksIter

section
variable {v l : List UInt8} {index n : Nat}

/-- What a call of `next` returns where validation reports this. -/
def nextOf (v : List UInt8) : Except Utf8Error Unit → Option Utf8LossyChunk × List UInt8
  | .ok () => (some ⟨v, []⟩, [])
  | .error e => (some ⟨v.take e.validUpTo, (v.drop e.validUpTo).take (e.brokenLen v)⟩,
      v.drop (e.validUpTo + e.brokenLen v))

theorem lossyError_eq {e : Utf8Error} (h : Reports v (.error e)) :
    lossyError v e.validUpTo (e.validUpTo + e.brokenLen v) = .ok (nextOf v (.error e)) := by
  have hle := h.brokenLen_le.2
  rw [lossyError, bind_of_assert ⟨Nat.le_add_right _ _, hle⟩, drop_take, nextOf,
    Nat.add_sub_cancel_left]

theorem nextLoop_spec : ∀ {n index : Nat}, index ≤ v.length → v.length < index + n →
    Encoded encodeChar (v.take index) →
      ∃ r, Reports v r ∧ nextLoop v n index = .ok (nextOf v r)
  | 0, index, hle, hn, _ => by omega
  | n + 1, index, hle, hn, henc => by
    rw [nextLoop]
    rcases Nat.eq_or_lt_of_le hle with rfl | hlt
    · rw [getElem?_eq_none le_rfl]
      rw [take_length] at henc
      exact ⟨.ok (), henc, rfl⟩
    rw [getElem?_eq_getElem hlt]
    dsimp only
    split
    · next hlow =>
      have hascii : Ascii v index (index + 1) := .single (getElem?_eq_getElem hlt) hlow
      exact nextLoop_spec hlt (by omega) (hascii.encoded henc)
    · next hge =>
      have hhigh : 0x80 ≤ v[index].toNat := Nat.le_of_not_lt hge
      have hread := multibyte_spec (drop_eq_getElem_cons hlt) hhigh
      have hagree := lossyMultibyte_eq (x := v[index]) hlt
      generalize multibyte v index v[index] = r at hread hagree
      generalize lossyMultibyte v (index + 1) v[index] = r' at hagree ⊢
      cases hread with
      | @next c hc =>
        cases hagree
        have hbound := hc.length_le
        rw [length_drop] at hbound
        have hpos := length_pos_of_ne_nil (shape_encodeChar c).ne_nil
        exact nextLoop_spec (by omega) (by omega) (encoded_next henc hc)
      | @failed errorLen hstuck hfail =>
        cases hagree with
        | failed hj =>
          have hreports : Reports v (.error ⟨index, errorLen⟩) := ⟨hlt, henc, hstuck, hfail⟩
          subst hj
          exact ⟨_, hreports, lossyError_eq hreports⟩

theorem next_spec (hv : v ≠ []) : ∃ r, Reports v r ∧ next v = .ok (nextOf v r) := by
  rw [next, if_neg (by simpa using hv)]
  exact nextLoop_spec (Nat.zero_le _) (by omega) .nil

end

end Utf8LossyChunksIter

/-! ## All chunks -/

/-- The chunk is what validation says about what is left of the source. -/
structure Utf8LossyChunk.Fits (align : BitVec 64) (left : List UInt8) (c : Utf8LossyChunk) :
    Prop where
  accepted : runUtf8Validation align c.valid = .ok (.ok ())
  isPrefix : c.valid <+: left
  longest : ∀ n, n ≤ left.length → runUtf8Validation align (left.take n) = .ok (.ok ()) →
    n ≤ c.valid.length
  broken : runUtf8Validation align left = .ok (.ok ()) ∧ c.broken = [] ∨
    ∃ e, runUtf8Validation align left = .ok (.error e) ∧ c.broken.length = e.brokenLen left

namespace Utf8LossyChunksIter

/-- What the chunks stand for. -/
def source (cs : List Utf8LossyChunk) : List UInt8 := cs.flatMap fun c => c.valid ++ c.broken

section
variable {v : List UInt8} {align : BitVec 64} {r : Except Utf8Error Unit}

theorem validation_eq (h : Reports v r) : runUtf8Validation align v = .ok r := by
  obtain ⟨r', hr', hreports⟩ := runUtf8Validation_reports align v
  rw [hr', hreports.unique h]

theorem accepted_iff : runUtf8Validation align v = .ok (.ok ()) ↔ Encoded encodeChar v := by
  constructor
  · intro h
    obtain ⟨r, hr, hreports⟩ := runUtf8Validation_reports align v
    rw [hr] at h
    cases h
    exact hreports
  · exact fun h => validation_eq (r := .ok ()) h

theorem nextOf_fits (hv : v ≠ []) (h : Reports v r) : ∃ c rest, nextOf v r = (some c, rest) ∧
    c.valid ++ c.broken ++ rest = v ∧ rest.length < v.length ∧ (c.broken = [] → rest = []) ∧
    ∀ align, c.Fits align v := by
  cases r with
  | ok u =>
    refine ⟨⟨v, []⟩, [], rfl, by simp, length_pos_of_ne_nil hv, fun _ => rfl, fun align => ?_⟩
    exact ⟨accepted_iff.2 h, prefix_rfl, fun n hn _ => hn, .inl ⟨validation_eq h, rfl⟩⟩
  | error e =>
    obtain ⟨hpos, hle⟩ := h.brokenLen_le
    have hlen : ((v.drop e.validUpTo).take (e.brokenLen v)).length = e.brokenLen v := by
      rw [length_take, length_drop]
      omega
    refine ⟨_, _, rfl, ?_, ?_, fun hnil => ?_, fun align => ⟨?_, ?_, fun n hn hacc => ?_, ?_⟩⟩
    · rw [append_assoc, ← drop_drop, take_append_drop, take_append_drop]
    · rw [length_drop]
      omega
    · have hnil' : (v.drop e.validUpTo).take (e.brokenLen v) = [] := hnil
      rw [hnil', length_nil] at hlen
      omega
    · exact accepted_iff.2 h.2.1
    · exact take_prefix _ _
    · rw [length_take, min_eq_left h.1.le]
      exact h.longest hn (accepted_iff.1 hacc)
    · exact .inr ⟨e, validation_eq h, hlen⟩

theorem collect_spec : ∀ {n : Nat} {v : List UInt8}, v.length < n →
    ∃ cs, collect n v = .ok cs ∧ source cs = v ∧ ∀ before c after, cs = before ++ c :: after →
      (c.broken = [] → after = []) ∧ ∀ align, c.Fits align (source (c :: after))
  | 0, v, hn => by omega
  | n + 1, [], hn => ⟨[], rfl, rfl, fun before c after h => by simp at h⟩
  | n + 1, x :: l, hn => by
    obtain ⟨r, hreports, hnext⟩ := next_spec (cons_ne_nil x l)
    obtain ⟨c, rest, hc, hsource, hlen, hlast, hfits⟩ := nextOf_fits (cons_ne_nil x l) hreports
    obtain ⟨cs, hcs, hrest, hall⟩ := collect_spec (n := n) (v := rest) (by omega)
    refine ⟨c :: cs, ?_, ?_, fun before c' after h => ?_⟩
    · rw [collect, hnext, hc, ok_bind]
      dsimp only
      rw [hcs, ok_bind]
    · rw [source, flatMap_cons, ← source, hrest, hsource]
    cases before with
    | nil =>
      cases h
      refine ⟨fun hnil : c.broken = [] => ?_, fun align => ?_⟩
      · rw [hlast hnil] at hcs
        cases n with
        | zero => cases hcs
        | succ n =>
          cases hcs
          rfl
      · rw [source, flatMap_cons, ← source, hrest, hsource]
        exact hfits align
    | cons d before =>
      rw [cons_append] at h
      exact hall before c' after (List.cons.inj h).2

end

/-- The chunks stand for the slice. Each takes the longest part of what is left that validation
accepts, and replaces as many bytes as the error of validation says, or all that are left; and only
the last one may replace none. -/
theorem chunks_fit (v : List UInt8) : ∃ cs, chunks v = .ok cs ∧
    (cs.flatMap fun c => c.valid ++ c.broken) = v ∧ ∀ before c after, cs = before ++ c :: after →
      (c.broken = [] → after = []) ∧
      ∀ align, c.Fits align ((c :: after).flatMap fun c => c.valid ++ c.broken) :=
  collect_spec (Nat.lt_succ_self v.length)

end Utf8LossyChunksIter

/-! ## `String::from_utf8_lossy` -/

open Utf8LossyChunksIter Utf8LossyChunk

/-- `Cow<str>`, as bytes. -/
inductive Cow where
  | borrowed (str : List UInt8)
  | owned (str : List UInt8)

def Cow.str : Cow → List UInt8
  | borrowed str => str
  | owned str => str

def REPLACEMENT : List UInt8 := encodeChar (Char.ofNat 0xFFFD)

/-- What is pushed for a chunk. -/
def Utf8LossyChunk.replaced (c : Utf8LossyChunk) : List UInt8 :=
  c.valid ++ if c.broken.isEmpty then [] else REPLACEMENT

/-- `from_utf8_lossy`, with its debug assertion. -/
def fromUtf8Lossy (v : List UInt8) : Outcome Cow := do
  let (first, iter) ← Utf8LossyChunksIter.next v
  match first with
  | some chunk =>
    if chunk.valid.length = v.length then do
      assert chunk.broken.isEmpty "assertion failed: broken.is_empty()"
      .ok (.borrowed chunk.valid)
    else do
      let chunks ← collect v.length iter
      .ok (.owned (chunks.foldl (fun res c => res ++ c.replaced) chunk.replaced))
  | none => .ok (.borrowed [])

theorem fromUtf8Lossy_encoded {v : List UInt8} (h : Encoded encodeChar v) :
    fromUtf8Lossy v = .ok (.borrowed v) := by
  by_cases hv : v = []
  · subst hv
    rfl
  obtain ⟨r, hr, hnext⟩ := next_spec hv
  cases hr.unique (show Reports v (.ok ()) from h)
  rw [fromUtf8Lossy, hnext, ok_bind, nextOf]
  dsimp only
  rw [if_pos rfl]
  rfl

theorem encoded_replaced {c : Utf8LossyChunk} (h : Encoded encodeChar c.valid) :
    Encoded encodeChar c.replaced := by
  refine h.append ?_
  split
  · exact .nil
  · exact ⟨[Char.ofNat 0xFFFD], by simp [REPLACEMENT]⟩

theorem encoded_flatMap_replaced {cs : List Utf8LossyChunk}
    (h : ∀ c ∈ cs, Encoded encodeChar c.valid) : Encoded encodeChar (cs.flatMap replaced) := by
  induction cs with
  | nil => exact .nil
  | cons c cs ih => exact (encoded_replaced (h c (.head _))).append (ih fun c hc => h c (.tail _ hc))

theorem fromUtf8Lossy_chunks (v : List UInt8) : ∃ cow cs, fromUtf8Lossy v = .ok cow ∧
    chunks v = .ok cs ∧ cow.str = cs.flatMap replaced := by
  by_cases hv : v = []
  · subst hv
    exact ⟨_, _, rfl, rfl, rfl⟩
  obtain ⟨r, hr, hnext⟩ := next_spec hv
  obtain ⟨c, rest, hc, hsource, hlt, -⟩ := nextOf_fits hv hr
  obtain ⟨cs, hcs, -⟩ := @collect_spec v.length rest hlt
  rw [hc] at hnext
  have hchunks : chunks v = .ok (c :: cs) := by
    rw [chunks, collect, hnext, ok_bind]
    dsimp only
    rw [hcs, ok_bind]
  rw [fromUtf8Lossy, hnext, ok_bind]
  dsimp only
  split
  · next hall =>
    -- The first chunk is the whole slice.
    have hlen := congrArg length hsource
    rw [length_append, length_append] at hlen
    obtain rfl : rest = [] := eq_nil_of_length_eq_zero (by omega)
    have hbroken : c.broken = [] := eq_nil_of_length_eq_zero (by omega)
    obtain ⟨n, hn⟩ := Nat.exists_eq_succ_of_ne_zero (length_pos_of_ne_nil hv).ne'
    rw [hn] at hcs
    cases hcs
    exact ⟨_, _, by rw [hbroken]; rfl, hchunks, by simp [Cow.str, replaced, hbroken]⟩
  · refine ⟨.owned _, _, by rw [hcs, ok_bind], hchunks, ?_⟩
    rw [Cow.str, foldl_append_eq_append]
    rfl

/-- The string is that of the chunks with every broken part replaced. It is well formed, so it is
taken as it is when it is decoded again, and it is the slice itself, without a copy, exactly if
validation accepts the slice. -/
theorem fromUtf8Lossy_spec (v : List UInt8) : ∃ cow cs, fromUtf8Lossy v = .ok cow ∧
    chunks v = .ok cs ∧ cow.str = cs.flatMap replaced ∧ Encoded encodeChar cow.str ∧
    fromUtf8Lossy cow.str = .ok (.borrowed cow.str) ∧
    ∀ align, cow = .borrowed v ↔ runUtf8Validation align v = .ok (.ok ()) := by
  obtain ⟨cow, cs, hrun, hcs, hstr⟩ := fromUtf8Lossy_chunks v
  obtain ⟨cs', hcs', -, hall⟩ := collect_spec (Nat.lt_succ_self v.length)
  cases hcs.symm.trans hcs'
  have henc : Encoded encodeChar cow.str := by
    rw [hstr]
    refine encoded_flatMap_replaced fun c hc => ?_
    obtain ⟨before, after, hsplit⟩ := append_of_mem hc
    exact accepted_iff.1 ((hall before c after hsplit).2 0).accepted
  refine ⟨cow, cs, hrun, hcs, hstr, henc, fromUtf8Lossy_encoded henc, fun align => ?_⟩
  rw [accepted_iff]
  constructor
  · rintro rfl
    exact henc
  · intro h
    exact Except.ok.inj (hrun.symm.trans (fromUtf8Lossy_encoded h))

end Tortis.Str
