import Tortis.Lib.FxHash
import Tortis.Lib.Numbering
import Tortis.Lib.Outcome

/-!
# Compressed spans

A `Span` (`libsyntax_pos/span_encoding.rs`) is a `SpanData` in eight bytes: a short one is kept
inline, any other is interned and the span is the number that the interner gave it. `Encodes` says
what the compression is for: a span stands for its data, given the table of the interner.
-/

namespace Tortis.SyntaxPos

open Outcome List UInt32

structure BytePos where
  pos : UInt32
deriving DecidableEq

structure SyntaxContext where
  raw : UInt32
deriving DecidableEq

structure SpanData where
  lo : BytePos
  hi : BytePos
  ctxt : SyntaxContext
deriving DecidableEq

structure Span where
  baseOrIndex : UInt32
  lenOrTag : UInt16
  ctxtOrZero : UInt16
deriving DecidableEq

def LEN_TAG : UInt16 := 0b1000000000000000
def MAX_LEN : UInt32 := 0b0111111111111111
def MAX_CTXT : UInt32 := 0b1111111111111111

/-! ## The interner -/

structure SpanInterner where
  spans : FxHashMap SpanData UInt32
  spanData : List SpanData

namespace SpanInterner

/-- `SpanInterner::default`. -/
protected def default : SpanInterner := ⟨∅, []⟩

def intern (interner : SpanInterner) (spanData : SpanData) : UInt32 × SpanInterner :=
  match interner.spans.get spanData with
  | some index => (index, interner)
  | none =>
    let index := UInt32.ofNat interner.spans.entries.length
    (index, ⟨interner.spans.insert spanData index, interner.spanData ++ [spanData]⟩)

def get (interner : SpanInterner) (index : UInt32) : Outcome SpanData :=
  expect "index out of bounds" interner.spanData[index.toNat]?

/-- The map knows where in the table a value stands, and has nothing else. -/
structure Wf (interner : SpanInterner) : Prop where
  tracks : Numbering.Tracks (fun d => (interner.spans.get d).map UInt32.toNat) interner.spanData
  len : interner.spans.entries.length = interner.spanData.length

theorem wf_default : SpanInterner.default.Wf := ⟨Numbering.Tracks.nil, rfl⟩

variable {interner : SpanInterner} {d : SpanData}

theorem isPrefix_intern (interner : SpanInterner) (d : SpanData) :
    interner.spanData <+: (interner.intern d).2.spanData := by
  rw [intern]
  split
  · exact prefix_rfl
  · exact prefix_append _ _

theorem intern_spec (h : interner.Wf) (hlen : (interner.intern d).2.spanData.length ≤ 2 ^ 32) :
    (interner.intern d).2.Wf ∧
      (interner.intern d).2.spanData[(interner.intern d).1.toNat]? = some d := by
  rw [intern] at hlen ⊢
  split
  · rename_i index hget
    exact ⟨h, h.tracks.getElem?_eq (by rw [hget]; rfl)⟩
  · rename_i hget
    simp only [hget, length_append, length_singleton] at hlen
    have hindex : (UInt32.ofNat interner.spans.entries.length).toNat = interner.spanData.length := by
      rw [h.len, toNat_ofNat_of_lt' (by rw [UInt32.size]; omega)]
    have hnew : (interner.spans.get d).map UInt32.toNat = none := by rw [hget]; rfl
    refine ⟨⟨?_, ?_⟩, by rw [hindex]; exact getElem?_concat_length⟩
    · have htracks := h.tracks.push hnew
      convert htracks using 2 with e
      rw [FxHashMap.get_insert]
      split
      · rw [Option.map_some, hindex]
      · rfl
    · have hnot : d ∉ interner.spans := by
        intro hmem
        obtain ⟨v, hv⟩ := FxHashMap.mem_keys_iff.mp (AList.mem_keys.mp hmem)
        rw [hget] at hv
        cases hv
      rw [AList.entries_insert_of_notMem hnot, length_cons, h.len, length_append, length_singleton]

end SpanInterner

/-! ## Spans -/

namespace Span

def new (lo hi : BytePos) (ctxt : SyntaxContext) (interner : SpanInterner) : Span × SpanInterner :=
  let (lo, hi) := if lo.pos > hi.pos then (hi, lo) else (lo, hi)
  let base := lo.pos
  let len := hi.pos - lo.pos
  let ctxt2 := ctxt.raw
  if len ≤ MAX_LEN ∧ ctxt2 ≤ MAX_CTXT then
    (⟨base, len.toUInt16, ctxt2.toUInt16⟩, interner)
  else
    let (index, interner) := interner.intern ⟨lo, hi, ctxt⟩
    (⟨index, LEN_TAG, 0⟩, interner)

/-- `Span::data`, with its debug assertions. -/
def data (span : Span) (interner : SpanInterner) : Outcome SpanData :=
  if span.lenOrTag ≠ LEN_TAG then do
    assert (span.lenOrTag.toUInt32 ≤ MAX_LEN)
      "assertion failed: self.len_or_tag as u32 <= MAX_LEN"
    assert (span.baseOrIndex.toNat + span.lenOrTag.toUInt32.toNat < UInt32.size)
      "attempt to add with overflow"
    .ok ⟨⟨span.baseOrIndex⟩, ⟨span.baseOrIndex + span.lenOrTag.toUInt32⟩,
      ⟨span.ctxtOrZero.toUInt32⟩⟩
  else do
    assert (span.ctxtOrZero = 0) "assertion failed: self.ctxt_or_zero == 0"
    interner.get span.baseOrIndex

end Span

def SpanData.Inline (d : SpanData) : Prop :=
  d.hi.pos - d.lo.pos ≤ MAX_LEN ∧ d.ctxt.raw ≤ MAX_CTXT

/-- A span stands for data, given the table of the interner. -/
inductive Encodes (table : List SpanData) : Span → SpanData → Prop where
  | inline {d : SpanData} (h : d.Inline) :
    Encodes table ⟨d.lo.pos, (d.hi.pos - d.lo.pos).toUInt16, d.ctxt.raw.toUInt16⟩ d
  | interned {d : SpanData} {index : UInt32} (h : ¬ d.Inline)
    (hget : table[index.toNat]? = some d) : Encodes table ⟨index, LEN_TAG, 0⟩ d

namespace Encodes

variable {table table' : List SpanData} {s s' : Span} {d : SpanData} {interner : SpanInterner}

theorem mono (h : Encodes table s d) (hle : table <+: table') : Encodes table' s d := by
  cases h with
  | inline h => exact .inline h
  | interned h hget => exact .interned h (Numbering.getElem?_of_isPrefix hle hget)

theorem span_unique (hwf : interner.Wf) (h : Encodes interner.spanData s d)
    (h' : Encodes interner.spanData s' d) : s = s' := by
  cases h with
  | inline h =>
    cases h' with
    | inline => rfl
    | interned hnot => exact absurd h hnot
  | interned hnot hget =>
    cases h' with
    | inline h => exact absurd h hnot
    | interned _ hget' => rw [UInt32.toNat_inj.mp (hwf.tracks.position_unique hget hget')]

theorem toUInt16_len {len : UInt32} (h : len ≤ MAX_LEN) :
    len.toUInt16 ≠ LEN_TAG ∧ len.toUInt16.toUInt32 = len := by
  have hle : len.toNat ≤ 32767 := le_iff_toNat_le.mp h
  have hmod : len.toUInt16.toNat = len.toNat := by
    rw [toNat_toUInt16, Nat.mod_eq_of_lt (by omega)]
  constructor
  · intro heq
    have : len.toUInt16.toNat = 32768 := by rw [heq]; rfl
    omega
  · exact UInt32.toNat_inj.mp (by rw [UInt16.toNat_toUInt32, hmod])

theorem data_eq (h : Encodes interner.spanData s d) (hd : d.lo.pos ≤ d.hi.pos) :
    s.data interner = .ok d := by
  cases h with
  | inline h =>
    obtain ⟨hlen, hctxt⟩ := h
    obtain ⟨hne, hback⟩ := toUInt16_len hlen
    have hctxt' : d.ctxt.raw.toUInt16.toUInt32 = d.ctxt.raw := by
      have hle : d.ctxt.raw.toNat ≤ 65535 := le_iff_toNat_le.mp hctxt
      refine UInt32.toNat_inj.mp ?_
      rw [UInt16.toNat_toUInt32, UInt32.toNat_toUInt16, Nat.mod_eq_of_lt (by omega)]
    have hsum : d.lo.pos.toNat + (d.hi.pos - d.lo.pos).toNat = d.hi.pos.toNat := by
      rw [UInt32.toNat_sub_of_le _ _ hd, Nat.add_sub_cancel' (UInt32.le_iff_toNat_le.mp hd)]
    have hfits : d.lo.pos.toNat + (d.hi.pos - d.lo.pos).toNat < UInt32.size := by
      rw [hsum]
      exact d.hi.pos.toNat_lt_size
    have hhi : d.lo.pos + (d.hi.pos - d.lo.pos) = d.hi.pos :=
      UInt32.toNat_inj.mp (by rw [UInt32.toNat_add, hsum, Nat.mod_eq_of_lt d.hi.pos.toNat_lt])
    rw [Span.data, if_pos hne]
    rw [hback, hctxt', bind_of_assert hlen, bind_of_assert hfits, hhi]
  | interned _ hget =>
    rw [Span.data, if_neg (by simp)]
    rw [bind_of_assert rfl, SpanInterner.get, hget, expect_some]

end Encodes

/-! ## Runs of the compiler -/

structure NewCall where
  lo : BytePos
  hi : BytePos
  ctxt : SyntaxContext

def NewCall.data (c : NewCall) : SpanData :=
  ⟨⟨min c.lo.pos c.hi.pos⟩, ⟨max c.lo.pos c.hi.pos⟩, c.ctxt⟩

/-- Calls of `Span::new`, one after the other: the spans and the interner after them. -/
def newAll (interner : SpanInterner) : List NewCall → List Span × SpanInterner
  | [] => ([], interner)
  | c :: calls =>
    let (span, interner) := Span.new c.lo c.hi c.ctxt interner
    let (spans, interner) := newAll interner calls
    (span :: spans, interner)

theorem NewCall.data_eq (c : NewCall) :
    c.data = if c.lo.pos > c.hi.pos then ⟨c.hi, c.lo, c.ctxt⟩ else ⟨c.lo, c.hi, c.ctxt⟩ := by
  have hmin : min c.lo.pos c.hi.pos = if c.lo.pos ≤ c.hi.pos then c.lo.pos else c.hi.pos := rfl
  have hmax : max c.lo.pos c.hi.pos = if c.lo.pos ≤ c.hi.pos then c.hi.pos else c.lo.pos := rfl
  rw [NewCall.data, hmin, hmax]
  by_cases h : c.lo.pos > c.hi.pos
  · rw [if_pos h, if_neg (UInt32.not_le.mpr h), if_neg (UInt32.not_le.mpr h)]
  · rw [if_neg h, if_pos (UInt32.not_lt.mp h), if_pos (UInt32.not_lt.mp h)]

theorem NewCall.data_lo_le (c : NewCall) : c.data.lo.pos ≤ c.data.hi.pos := by
  rw [NewCall.data_eq]
  split
  · rename_i h
    exact UInt32.le_of_lt h
  · rename_i h
    exact UInt32.not_lt.mp h

theorem Span.new_eq (c : NewCall) (interner : SpanInterner) :
    Span.new c.lo c.hi c.ctxt interner =
      if c.data.hi.pos - c.data.lo.pos ≤ MAX_LEN ∧ c.data.ctxt.raw ≤ MAX_CTXT then
        (⟨c.data.lo.pos, (c.data.hi.pos - c.data.lo.pos).toUInt16, c.data.ctxt.raw.toUInt16⟩,
          interner)
      else (⟨(interner.intern c.data).1, LEN_TAG, 0⟩, (interner.intern c.data).2) := by
  rw [Span.new, NewCall.data_eq]
  by_cases h : c.lo.pos > c.hi.pos
  · rw [if_pos h, if_pos h]
  · rw [if_neg h, if_neg h]

variable {interner : SpanInterner} {calls more : List NewCall}

theorem isPrefix_new (c : NewCall) (interner : SpanInterner) :
    interner.spanData <+: (Span.new c.lo c.hi c.ctxt interner).2.spanData := by
  rw [Span.new_eq]
  split
  · exact prefix_rfl
  · exact interner.isPrefix_intern _

theorem isPrefix_newAll : ∀ (interner : SpanInterner) (calls : List NewCall),
    interner.spanData <+: (newAll interner calls).2.spanData
  | _, [] => prefix_rfl
  | interner, c :: calls => (isPrefix_new c interner).trans (isPrefix_newAll _ calls)

theorem new_spec (c : NewCall) (h : interner.Wf)
    (hlen : (Span.new c.lo c.hi c.ctxt interner).2.spanData.length ≤ 2 ^ 32) :
    (Span.new c.lo c.hi c.ctxt interner).2.Wf ∧
      Encodes (Span.new c.lo c.hi c.ctxt interner).2.spanData
        (Span.new c.lo c.hi c.ctxt interner).1 c.data := by
  rw [Span.new_eq] at hlen ⊢
  split
  · rename_i hinline
    exact ⟨h, .inline hinline⟩
  · rename_i hnot
    rw [if_neg hnot] at hlen
    obtain ⟨hwf, hget⟩ := SpanInterner.intern_spec h hlen
    exact ⟨hwf, .interned hnot hget⟩

theorem newAll_spec (h : interner.Wf) (hlen : (newAll interner calls).2.spanData.length ≤ 2 ^ 32) :
    (newAll interner calls).2.Wf ∧
      ∀ (k : Nat) c s, calls[k]? = some c → (newAll interner calls).1[k]? = some s →
        Encodes (newAll interner calls).2.spanData s c.data := by
  induction calls generalizing interner with
  | nil => exact ⟨h, fun k c s hc => nomatch hc⟩
  | cons c calls ih =>
    have hle := isPrefix_newAll (Span.new c.lo c.hi c.ctxt interner).2 calls
    obtain ⟨hwf, hspan⟩ := new_spec c h (le_trans hle.length_le hlen)
    obtain ⟨hwf', hspans⟩ := ih hwf hlen
    refine ⟨hwf', fun k c' s hc hs => ?_⟩
    cases k with
    | zero =>
      cases hc
      cases hs
      exact hspan.mono hle
    | succ k => exact hspans k c' s hc hs

theorem newAll_append : newAll interner (calls ++ more) =
    ((newAll interner calls).1 ++ (newAll (newAll interner calls).2 more).1,
      (newAll (newAll interner calls).2 more).2) := by
  induction calls generalizing interner with
  | nil => rfl
  | cons c calls ih =>
    simp only [cons_append, newAll, ih]

theorem length_newAll : (newAll interner calls).1.length = calls.length := by
  induction calls generalizing interner with
  | nil => rfl
  | cons c calls ih => exact congrArg (· + 1) ih

theorem newAll_take (interner : SpanInterner) (calls : List NewCall) (n : Nat) :
    (newAll interner (calls.take n)).1 = (newAll interner calls).1.take n := by
  induction calls generalizing interner n with
  | nil => rw [take_nil, newAll, take_nil]
  | cons c calls ih =>
    cases n with
    | zero => rfl
    | succ n => exact congrArg _ (ih _ n)

theorem isPrefix_newAll_take (interner : SpanInterner) (calls : List NewCall) (n : Nat) :
    (newAll interner (calls.take n)).2.spanData <+: (newAll interner calls).2.spanData := by
  conv_rhs => rw [← take_append_drop n calls, newAll_append]
  exact isPrefix_newAll _ _

theorem encodes_newAll_take (h : interner.Wf)
    (hlen : (newAll interner calls).2.spanData.length ≤ 2 ^ 32) {k n : Nat} {c : NewCall} {s : Span}
    (hc : calls[k]? = some c) (hs : (newAll interner calls).1[k]? = some s) (hk : k < n) :
    (newAll interner (calls.take n)).2.Wf ∧
      Encodes (newAll interner (calls.take n)).2.spanData s c.data := by
  obtain ⟨hwf, hall⟩ := @newAll_spec interner (calls.take n) h
    (le_trans (isPrefix_newAll_take interner calls n).length_le hlen)
  refine ⟨hwf, hall k c s ?_ ?_⟩
  · rw [getElem?_take_of_lt hk, hc]
  · rw [newAll_take, getElem?_take_of_lt hk, hs]

/-- Compression is lossless and canonical. Along a run of the compiler, a span decodes to the data
of its call from its creation on, whatever is interned later; spans are equal where their data
are. -/
theorem data_newAll {calls : List NewCall}
    (hfew : (newAll .default calls).2.spanData.length < 2 ^ 32) :
    (newAll .default calls).1.length = calls.length ∧
    (∀ (k : Nat) (c : NewCall) (s : Span), calls[k]? = some c →
      (newAll .default calls).1[k]? = some s → ∀ n, k < n →
        s.data (newAll .default (calls.take n)).2 =
          .ok ⟨⟨min c.lo.pos c.hi.pos⟩, ⟨max c.lo.pos c.hi.pos⟩, c.ctxt⟩) ∧
    ∀ (i j : Nat) (s s' : Span), (newAll .default calls).1[i]? = some s →
      (newAll .default calls).1[j]? = some s' → ∀ n, i < n → j < n →
        (s = s' ↔ s.data (newAll .default (calls.take n)).2 =
          s'.data (newAll .default (calls.take n)).2) := by
  have hlen := le_of_lt hfew
  have hwf := SpanInterner.wf_default
  refine ⟨length_newAll, ?_, ?_⟩
  · intro k c s hc hs n hk
    exact (encodes_newAll_take hwf hlen hc hs hk).2.data_eq c.data_lo_le
  · intro i j s s' hs hs' n hi hj
    have hcall : ∀ (k : Nat) (t : Span), (newAll .default calls).1[k]? = some t →
        ∃ c, calls[k]? = some c := by
      intro k t ht
      have hlt := (List.getElem?_eq_some_iff.mp ht).1
      rw [length_newAll] at hlt
      exact ⟨_, getElem?_eq_getElem hlt⟩
    obtain ⟨c, hc⟩ := hcall i s hs
    obtain ⟨c', hc'⟩ := hcall j s' hs'
    obtain ⟨hwf, henc⟩ := encodes_newAll_take hwf hlen hc hs hi
    have henc' := (encodes_newAll_take SpanInterner.wf_default hlen hc' hs' hj).2
    constructor
    · intro heq
      rw [heq]
    · intro heq
      rw [henc.data_eq c.data_lo_le, henc'.data_eq c'.data_lo_le] at heq
      rw [← Except.ok.inj heq] at henc'
      exact henc.span_unique hwf henc'

/-- A length or a context that is too large for the inline format is interned, and interned once. -/
theorem data_newAll_mixed :
    let long : NewCall := ⟨⟨40000⟩, ⟨7⟩, ⟨0⟩⟩
    let short : NewCall := ⟨⟨7⟩, ⟨7 + 32767⟩, ⟨65535⟩⟩
    let deep : NewCall := ⟨⟨7⟩, ⟨8⟩, ⟨65536⟩⟩
    let spans := (newAll .default [long, short, deep, long]).1
    spans = [⟨0, LEN_TAG, 0⟩, ⟨7, 32767, 65535⟩, ⟨1, LEN_TAG, 0⟩, ⟨0, LEN_TAG, 0⟩] ∧
      (⟨0, LEN_TAG, 0⟩ : Span).data (newAll .default [long, short, deep, long]).2 =
        .ok ⟨⟨7⟩, ⟨40000⟩, ⟨0⟩⟩ :=
  ⟨by decide, (@data_newAll [⟨⟨40000⟩, ⟨7⟩, ⟨0⟩⟩, ⟨⟨7⟩, ⟨7 + 32767⟩, ⟨65535⟩⟩,
    ⟨⟨7⟩, ⟨8⟩, ⟨65536⟩⟩, ⟨⟨40000⟩, ⟨7⟩, ⟨0⟩⟩] (by decide)).2.1 0 _ _ rfl (by decide) 4
    (by decide)⟩

end Tortis.SyntaxPos
