import Tortis.Lexer.Literals
import Tortis.Lib.Tiling

/-!
# The ranges that unescaping reports

The four functions that unescape the contents of string literals return on every text, and the
ranges they pass to the callback tile it, but for the continuations of lines (`unescape_ranges`).
Where a range starts and stops is computed from what the iterator has left, and an escape leaves a
part of what it was given, on success and on every error (`unescapeOne_suffix`).
-/

namespace Tortis.Lexer

open Outcome List Report

open Tiling (Tiled)

/-- A backslash and a newline, with all the whitespace that is skipped behind them. -/
structure Continuation (s rest : List Char) : Prop where
  shape : ∃ t, s = '\\' :: '\n' :: t ∧ ∀ x ∈ t, isSkipped x = true
  all : ∀ x, rest.head? = some x → isSkipped x = false

def IsCharBoundary (text : List Char) (index : Nat) : Prop :=
  ∃ s t, text = s ++ t ∧ index = utf8Len s

/-- What is said of the ranges that are reported for a text. -/
structure ExactRanges (text : List Char) (ranges : List (Nat × Nat)) : Prop where
  nonempty : ∀ r ∈ ranges, r.1 < r.2
  ordered : ranges.Pairwise fun r r' => r.2 ≤ r'.1
  boundary : ∀ r ∈ ranges, IsCharBoundary text r.1 ∧ IsCharBoundary text r.2
  inside : ∀ r ∈ ranges, r.2 ≤ utf8Len text
  outside : Tiled Char.utf8Size Continuation 0 text ranges

def Report.range {α : Type} (report : Report α) : Nat × Nat := (report.start, report.stop)

section
variable {text : List Char} {ranges : List (Nat × Nat)}

theorem exactRanges_of_tiled (h : Tiled Char.utf8Size Continuation 0 text ranges) :
    ExactRanges text ranges where
  nonempty r hr := by
    obtain ⟨s, t, u, -, ht, hstart, hstop⟩ := h.exists_piece hr
    have := Tiling.width_pos Char.utf8Size_pos ht
    rw [Tiling.width_append] at hstop
    omega
  ordered := h.pairwise
  boundary r hr := by
    obtain ⟨s, t, u, rfl, -, hstart, hstop⟩ := h.exists_piece hr
    rw [zero_add] at hstart hstop
    exact ⟨⟨s, t ++ u, rfl, hstart⟩, s ++ t, u, (append_assoc _ _ _).symm, hstop⟩
  inside r hr := by
    obtain ⟨s, t, u, rfl, -, -, hstop⟩ := h.exists_piece hr
    rw [zero_add] at hstop
    rw [hstop, ← append_assoc, utf8Len_append]
    exact Nat.le_add_right _ _
  outside := h

end

/-! ## One character -/

section
variable {mode : Mode} {x c : Char} {chars : List Char}

theorem unescapeOne_suffix (x : Char) (chars : List Char) (mode : Mode) :
    ∃ eaten, chars = eaten ++ (unescapeOne x chars mode).2 := by
  rw [unescapeOne]
  split
  · exact ⟨[], rfl⟩
  split
  · exact ⟨[], rfl⟩
  by_cases hslash : x = '\\'
  · subst hslash
    cases chars with
    | nil => exact ⟨[], rfl⟩
    | cons y chars =>
      obtain ⟨eaten, heaten, -⟩ := (scanEscape_backslash y chars mode).suffix
      exact ⟨y :: eaten, congrArg (y :: ·) heaten⟩
  · rw [scanEscape_char hslash]
    exact ⟨[], rfl⟩

theorem ascii_byte (hmode : mode.isBytes = true)
    (h : ¬ (mode.isBytes && !isAscii x.toNat) = true) : x.toNat ≤ 0xFF := by
  rw [hmode, isAscii] at h
  simp only [Bool.true_and, Bool.not_eq_true', Bool.not_eq_false, decide_eq_true_eq] at h
  omega

theorem scanChar_byte (hmode : mode.isBytes = true) (h : scanChar x mode = .ok c) :
    c.toNat ≤ 0xFF := by
  rw [scanChar] at h
  split_ifs at h with _ _ _ _ hascii
  cases h
  exact ascii_byte hmode hascii

theorem toDigit16_lt {d : Nat} (h : toDigit16 x = some d) : d < 16 := by
  have hle : ∀ y, x ≤ y → x.toNat ≤ y.toNat := fun y hy => UInt32.le_iff_toNat_le.mp hy
  rw [toDigit16] at h
  split at h
  · next hx =>
    have : x.toNat ≤ 57 := hle '9' hx.2
    have : '0'.toNat = 48 := rfl
    cases h
    omega
  split at h
  · next hx =>
    have : x.toNat ≤ 102 := hle 'f' hx.2
    have : 'a'.toNat = 97 := rfl
    cases h
    omega
  split at h
  · next hx =>
    have : x.toNat ≤ 70 := hle 'F' hx.2
    have : 'A'.toNat = 65 := rfl
    cases h
    omega
  · cases h

theorem scanHexEscape_byte (h : (scanHexEscape mode chars).1 = .ok c) : c.toNat ≤ 0xFF := by
  cases chars with
  | nil => cases h
  | cons hi chars =>
    rw [scanHexEscape] at h
    cases hhi : toDigit16 hi with
    | none =>
      rw [hhi] at h
      cases h
    | some hi' =>
      rw [hhi] at h
      cases chars with
      | nil => cases h
      | cons lo chars =>
        dsimp only at h
        cases hlo : toDigit16 lo with
        | none =>
          rw [hlo] at h
          cases h
        | some lo' =>
          rw [hlo] at h
          dsimp only at h
          split at h
          · cases h
          · cases h
            have := toDigit16_lt hhi
            have := toDigit16_lt hlo
            have hvalid : (hi' * 16 + lo').isValidChar := .inl (by omega)
            have hval : (Char.ofNat (hi' * 16 + lo')).toNat = hi' * 16 + lo' := by
              rw [Char.ofNat, dif_pos hvalid]
              rfl
            omega

theorem scanUnicodeDigits_byte (hmode : mode.isBytes = true) {nDigits : Int32} {value : UInt32} :
    (scanUnicodeDigits mode nDigits value chars).1 ≠ .ok c := by
  induction chars generalizing nDigits value with
  | nil => intro h; cases h
  | cons y chars ih =>
    rw [scanUnicodeDigits]
    split
    · exact ih
    split
    · split
      · intro h; cases h
      · intro h; cases h
    split
    · intro h; cases h
    · dsimp only
      split <;> exact ih

theorem scanUnicodeEscape_byte (hmode : mode.isBytes = true) :
    (scanUnicodeEscape mode chars).1 ≠ .ok c := by
  cases chars with
  | nil => intro h; cases h
  | cons brace chars =>
    rw [scanUnicodeEscape.eq_def]
    dsimp only
    split
    · intro h; cases h
    cases chars with
    | nil => intro h; cases h
    | cons y chars =>
      dsimp only
      split
      · intro h; cases h
      split
      · intro h; cases h
      split
      · intro h; cases h
      · exact scanUnicodeDigits_byte hmode

theorem simpleEscape_byte (h : simpleEscape x = some c) : c.toNat ≤ 0xFF := by
  unfold simpleEscape at h
  split at h
  all_goals
    cases h
    try decide

theorem unescapeOne_byte (hmode : mode.isBytes = true) (h : (unescapeOne x chars mode).1 = .ok c) :
    c.toNat ≤ 0xFF := by
  rw [unescapeOne] at h
  split at h
  · cases h
    decide
  split at h
  · cases h
    decide
  by_cases hslash : x = '\\'
  · subst hslash
    cases chars with
    | nil => cases h
    | cons y chars =>
      rw [scanEscape.eq_def, if_neg (not_not.mpr rfl)] at h
      dsimp only at h
      split at h
      · next hsimple =>
        cases h
        exact simpleEscape_byte hsimple
      split at h
      · exact scanHexEscape_byte h
      split at h
      · exact absurd h (scanUnicodeEscape_byte hmode)
      · cases h
  · rw [scanEscape_char hslash] at h
    exact scanChar_byte hmode h

theorem unescapeRawOne_byte (hmode : mode.isBytes = true) (h : unescapeRawOne x mode = .ok c) :
    c.toNat ≤ 0xFF := by
  rw [unescapeRawOne] at h
  split_ifs at h with _ hascii
  cases h
  exact ascii_byte hmode hascii

end

/-! ## Whole texts -/

section
variable {mode : Mode} {x c : Char} {text chars : List Char} {n pos initialLen : Nat}

/-- A character that is reported can be passed on as a byte. -/
def Bytes (reports : List (Report Char)) : Prop :=
  ∀ report ∈ reports, ∀ c, report.result = .ok c → c.toNat ≤ 0xFF

theorem continuation_skip (h : chars.head? = some '\n') :
    ∃ t, chars = '\n' :: t ++ skipAsciiWhitespace chars ∧
      Continuation ('\\' :: '\n' :: t) (skipAsciiWhitespace chars) := by
  obtain ⟨rest, rfl⟩ := head?_eq_some_iff.mp h
  have hskip : skipAsciiWhitespace ('\n' :: rest) = rest.dropWhile isSkipped := by
    rw [skipAsciiWhitespace, dropWhile_cons_of_pos (by decide)]
  refine ⟨rest.takeWhile isSkipped, ?_, ⟨_, rfl, all_eq_true.mp all_takeWhile⟩, ?_⟩
  · rw [hskip, cons_append, takeWhile_append_dropWhile]
  · rw [hskip]
    intro x hx
    have := head?_dropWhile_not isSkipped rest
    rw [hx] at this
    simpa using this

theorem unescapeLoop_tiled (mode : Mode) :
    ∀ (n pos : Nat) (chars : List Char), chars.length ≤ n →
      ∃ reports, unescapeLoop mode (pos + utf8Len chars) n chars = .ok reports ∧
        Tiled Char.utf8Size Continuation pos chars (reports.map range) ∧
        (mode.isBytes = true → Bytes reports)
  | n, pos, [], _ => ⟨[], by cases n <;> rfl, .nil, fun _ => nofun⟩
  | 0, _, x :: chars, h => absurd h (Nat.not_succ_le_zero _)
  | n + 1, pos, x :: chars, h => by
    have hle : chars.length ≤ n := Nat.le_of_succ_le_succ h
    rw [unescapeLoop]
    split
    · next hline =>
      obtain ⟨rfl, hhead⟩ := hline
      obtain ⟨t, hsplit, hgap⟩ := continuation_skip hhead
      obtain ⟨reports, hrun, htiled, hbytes⟩ := unescapeLoop_tiled mode n
        (pos + utf8Len ('\\' :: '\n' :: t)) (skipAsciiWhitespace chars)
        (le_trans (dropWhile_sublist _).length_le hle)
      have hchars : '\\' :: chars = '\\' :: '\n' :: t ++ skipAsciiWhitespace chars :=
        congrArg ('\\' :: ·) hsplit
      refine ⟨reports, ?_, ?_, hbytes⟩
      · rw [← hrun, add_assoc, ← utf8Len_append, ← hchars]
      · rw [hchars]
        exact .gap hgap htiled
    · obtain ⟨eaten, heaten⟩ := unescapeOne_suffix x chars mode
      have hbyte := fun hmode c => @unescapeOne_byte mode x c chars hmode
      generalize unescapeOne x chars mode = r at heaten hbyte ⊢
      obtain ⟨result, rest⟩ := r
      dsimp only at heaten hbyte ⊢
      obtain ⟨reports, hrun, htiled, hbytes⟩ := unescapeLoop_tiled mode n
        (pos + utf8Len (x :: eaten)) rest (by
          have := congrArg List.length heaten
          rw [length_append] at this
          omega)
      have hchars : x :: chars = x :: eaten ++ rest := congrArg (x :: ·) heaten
      have hlen : pos + utf8Len (x :: chars) = pos + utf8Len (x :: eaten) + utf8Len rest := by
        rw [hchars, utf8Len_append, add_assoc]
      have hstart : pos + utf8Len (x :: chars) - utf8Len chars - x.utf8Size = pos := by
        rw [utf8Len_cons]
        omega
      have hstop : pos + utf8Len (x :: chars) - utf8Len rest = pos + utf8Len (x :: eaten) := by
        omega
      rw [hstart, hstop, hlen, hrun, ok_bind]
      refine ⟨_, rfl, ?_, fun hmode => ?_⟩
      · rw [hchars]
        exact .piece (cons_ne_nil _ _) htiled
      · exact forall_mem_cons.mpr ⟨fun c => hbyte hmode c, hbytes hmode⟩

theorem unescapeRawLoop_tiled (mode : Mode) : ∀ (pos : Nat) (chars : List Char),
    Tiled Char.utf8Size Continuation pos chars
      ((unescapeRawLoop mode (pos + utf8Len chars) chars).map range) ∧
    (mode.isBytes = true → Bytes (unescapeRawLoop mode (pos + utf8Len chars) chars))
  | _, [] => ⟨.nil, fun _ => nofun⟩
  | pos, x :: chars => by
    obtain ⟨htiled, hbytes⟩ := unescapeRawLoop_tiled mode (pos + utf8Len [x]) chars
    have hlen : pos + utf8Len (x :: chars) = pos + utf8Len [x] + utf8Len chars := by
      rw [utf8Len_cons, utf8Len_cons, utf8Len_nil, add_zero, add_assoc]
    have hstart : pos + utf8Len [x] + utf8Len chars - utf8Len chars - x.utf8Size = pos := by
      rw [Nat.add_sub_cancel, utf8Len_cons, utf8Len_nil, add_zero, Nat.add_sub_cancel]
    have hstop : pos + utf8Len [x] + utf8Len chars - utf8Len chars = pos + utf8Len [x] :=
      Nat.add_sub_cancel ..
    rw [hlen, unescapeRawLoop, hstart, hstop]
    refine ⟨.piece (s := [x]) (cons_ne_nil _ _) htiled, fun hmode => ?_⟩
    refine forall_mem_cons.mpr ⟨fun c hc => ?_, hbytes hmode⟩
    exact unescapeRawOne_byte hmode hc

theorem mapM_byteReport {reports : List (Report Char)} (h : Bytes reports) :
    ∃ bytes, reports.mapM byteReport = .ok bytes ∧
      bytes.map Report.range = reports.map Report.range := by
  induction reports with
  | nil => exact ⟨[], rfl, rfl⟩
  | cons report reports ih =>
    obtain ⟨hreport, hreports⟩ := forall_mem_cons.mp h
    obtain ⟨bytes, hrun, hranges⟩ := ih hreports
    obtain ⟨start, stop, result⟩ := report
    cases result with
    | error e =>
      refine ⟨⟨start, stop, .error e⟩ :: bytes, ?_, ?_⟩
      · rw [mapM_cons, hrun]
        rfl
      · rw [map_cons, hranges]
        rfl
    | ok c =>
      refine ⟨⟨start, stop, .ok (UInt8.ofNat c.toNat)⟩ :: bytes, ?_, ?_⟩
      · rw [mapM_cons, hrun, byteReport]
        dsimp only
        rw [byteFromChar, bind_of_assert (hreport c rfl)]
        rfl
      · rw [map_cons, hranges]
        rfl

theorem unescapeStrOrByteStr_exact (hmode : mode.inDoubleQuotes = true) (text : List Char) :
    ∃ reports, unescapeStrOrByteStr text mode = .ok reports ∧
      ExactRanges text (reports.map range) ∧ (mode.isBytes = true → Bytes reports) := by
  obtain ⟨reports, hrun, htiled, hbytes⟩ := unescapeLoop_tiled mode _ 0 text
    le_rfl
  rw [zero_add] at hrun
  refine ⟨reports, ?_, exactRanges_of_tiled htiled, hbytes⟩
  rw [unescapeStrOrByteStr, assert_ok hmode, ok_bind, hrun]

theorem unescapeRawStrOrByteStr_exact (hmode : mode.inDoubleQuotes = true) (text : List Char) :
    ∃ reports, unescapeRawStrOrByteStr text mode = .ok reports ∧
      ExactRanges text (reports.map range) ∧ (mode.isBytes = true → Bytes reports) := by
  obtain ⟨htiled, hbytes⟩ := unescapeRawLoop_tiled mode 0 text
  rw [zero_add] at htiled hbytes
  refine ⟨_, ?_, exactRanges_of_tiled htiled, hbytes⟩
  rw [unescapeRawStrOrByteStr, assert_ok hmode, ok_bind]

/-- Unescaping returns on every text, and the ranges it reports are exact. In the byte modes, every
character that is reported is passed on as a byte. -/
theorem unescape_ranges (text : List Char) : (∃ reports, unescapeStr text = .ok reports ∧
      ExactRanges text (reports.map range)) ∧
    (∃ reports, unescapeByteStr text = .ok reports ∧ ExactRanges text (reports.map range)) ∧
    (∃ reports, unescapeRawStr text = .ok reports ∧ ExactRanges text (reports.map range)) ∧
    ∃ reports, unescapeRawByteStr text = .ok reports ∧ ExactRanges text (reports.map range) := by
  refine ⟨?_, ?_, ?_, ?_⟩
  · obtain ⟨reports, hrun, hexact, -⟩ := @unescapeStrOrByteStr_exact .str rfl text
    exact ⟨reports, hrun, hexact⟩
  · obtain ⟨reports, hrun, hexact, hbytes⟩ := @unescapeStrOrByteStr_exact .byteStr rfl text
    obtain ⟨bytes, hmap, hranges⟩ := mapM_byteReport (hbytes rfl)
    refine ⟨bytes, ?_, hranges ▸ hexact⟩
    rw [unescapeByteStr, hrun, ok_bind, hmap]
  · obtain ⟨reports, hrun, hexact, -⟩ := @unescapeRawStrOrByteStr_exact .str rfl text
    exact ⟨reports, hrun, hexact⟩
  · obtain ⟨reports, hrun, hexact, hbytes⟩ := @unescapeRawStrOrByteStr_exact .byteStr rfl text
    obtain ⟨bytes, hmap, hranges⟩ := mapM_byteReport (hbytes rfl)
    refine ⟨bytes, ?_, hranges ▸ hexact⟩
    rw [unescapeRawByteStr, hrun, ok_bind, hmap]

end

end Tortis.Lexer
