import Tortis.Lexer.Lossless
import Tortis.Lexer.Unescape

/-!
# The lexer and the unescaper

The lexer finds the end of a literal by skipping the character behind a backslash, and the unescaper
reads whole escapes. Both come to the same places: the rest of an escape has neither a backslash nor
a quote (`Plain`). So what is unescaped without an error is a literal up to its closing quote, and
the unescaper can lose the place in the contents of a literal only by an error
(`literals_agree`).
-/

namespace Tortis.Lexer

open List Outcome Bool

/-- A character that is skipped between quotes of both kinds. -/
structure Plain (x : Char) : Prop where
  slash : x ≠ '/'
  newline : x ≠ '\n'
  apostrophe : x ≠ '\''
  backslash : x ≠ '\\'
  quote : x ≠ '"'

/-! ## What an escape reads -/

section
variable {mode : Mode} {chars rest : List Char} {v x : Char} {e : EscapeError}

theorem plain_of_digit {d : Nat} (h : toDigit16 x = some d) : Plain x := by
  constructor
  all_goals
    rintro rfl
    revert h
    decide +revert

theorem plain_underscore : Plain '_' := ⟨by decide, by decide, by decide, by decide, by decide⟩

theorem plain_open : Plain '{' := ⟨by decide, by decide, by decide, by decide, by decide⟩

theorem plain_close : Plain '}' := ⟨by decide, by decide, by decide, by decide, by decide⟩

/-- The errors of an escape whose kind is known. -/
def Malformed (e : EscapeError) : Prop := e ≠ .loneSlash ∧ e ≠ .escapeOnlyChar

/-- A result of the rest of an escape: it has read plain characters if it is a character, and some
error of its own otherwise. -/
structure ReadsPlain (chars : List Char) (r : Unescaped × List Char) : Prop where
  suffix : ∃ eaten, chars = eaten ++ r.2 ∧ (∀ v, r.1 = .ok v → ∀ x ∈ eaten, Plain x)
  malformed : ∀ e, r.1 = .error e → Malformed e

theorem ReadsPlain.error (eaten : List Char) (he : Malformed e) :
    ReadsPlain (eaten ++ rest) (.error e, rest) :=
  ⟨⟨eaten, rfl, nofun⟩, fun _ h => by cases h; exact he⟩

theorem ReadsPlain.ok {eaten : List Char} (h : ∀ x ∈ eaten, Plain x) :
    ReadsPlain (eaten ++ rest) (.ok v, rest) :=
  ⟨⟨eaten, rfl, fun _ _ => h⟩, nofun⟩

theorem ReadsPlain.cons {r : Unescaped × List Char} (h : ReadsPlain chars r) (hx : Plain x) :
    ReadsPlain (x :: chars) r := by
  obtain ⟨⟨eaten, heaten, hplain⟩, hmalformed⟩ := h
  refine ⟨⟨x :: eaten, by rw [heaten]; rfl, fun v hv => ?_⟩, hmalformed⟩
  exact List.forall_mem_cons.2 ⟨hx, hplain v hv⟩

theorem scanHexEscape_reads : ∀ chars, ReadsPlain chars (scanHexEscape mode chars)
  | [] => .error [] ⟨nofun, nofun⟩
  | hi :: chars => by
    rw [scanHexEscape]
    cases hhi : toDigit16 hi with
    | none => exact .error [hi] ⟨nofun, nofun⟩
    | some h =>
      refine ReadsPlain.cons ?_ (plain_of_digit hhi)
      cases chars with
      | nil => exact .error [] ⟨nofun, nofun⟩
      | cons lo chars =>
        dsimp only
        cases hlo : toDigit16 lo with
        | none => exact .error [lo] ⟨nofun, nofun⟩
        | some l =>
          dsimp only
          split
          · exact .error [lo] ⟨nofun, nofun⟩
          · exact .ok (List.forall_mem_singleton.2 (plain_of_digit hlo))

theorem scanUnicodeDigits_reads : ∀ (chars : List Char) (nDigits : Int32) (value : UInt32),
    ReadsPlain chars (scanUnicodeDigits mode nDigits value chars)
  | [], _, _ => .error [] ⟨nofun, nofun⟩
  | c :: chars, nDigits, value => by
    rw [scanUnicodeDigits]
    split
    · next hunder => exact .cons (scanUnicodeDigits_reads chars _ _) (hunder ▸ plain_underscore)
    split
    · next hclose =>
      have hplain : Plain c := hclose ▸ plain_close
      split
      · exact .error [c] ⟨nofun, nofun⟩
      split
      · exact .error [c] ⟨nofun, nofun⟩
      split
      · exact .ok (List.forall_mem_singleton.2 hplain)
      · refine .error [c] ?_
        split <;> exact ⟨nofun, nofun⟩
    split
    · exact .error [c] ⟨nofun, nofun⟩
    · next digit hdigit =>
      dsimp only
      split
      all_goals exact .cons (scanUnicodeDigits_reads chars _ _) (plain_of_digit hdigit)

theorem scanUnicodeEscape_reads : ∀ chars, ReadsPlain chars (scanUnicodeEscape mode chars)
  | [] => .error [] ⟨nofun, nofun⟩
  | brace :: chars => by
    rw [scanUnicodeEscape.eq_def]
    dsimp only
    split
    · exact .error [brace] ⟨nofun, nofun⟩
    · next hbrace =>
      refine ReadsPlain.cons ?_ (not_not.1 hbrace ▸ plain_open)
      cases chars with
      | nil => exact .error [] ⟨nofun, nofun⟩
      | cons c chars =>
        dsimp only
        split
        · exact .error [c] ⟨nofun, nofun⟩
        split
        · exact .error [c] ⟨nofun, nofun⟩
        split
        · exact .error [c] ⟨nofun, nofun⟩
        · next value hdigit =>
          exact .cons (scanUnicodeDigits_reads chars _ _) (plain_of_digit hdigit)

theorem scanEscape_backslash (x : Char) (chars : List Char) (mode : Mode) :
    ReadsPlain chars (scanEscape '\\' (x :: chars) mode) := by
  rw [scanEscape.eq_def, if_neg (not_not.2 rfl)]
  dsimp only
  split
  · exact @ReadsPlain.ok chars _ [] nofun
  split
  · exact scanHexEscape_reads chars
  split
  · exact scanUnicodeEscape_reads chars
  · exact .error [] ⟨nofun, nofun⟩

theorem scanEscape_char (h : x ≠ '\\') (chars : List Char) (mode : Mode) :
    scanEscape x chars mode = (scanChar x mode, chars) := by
  rw [scanEscape.eq_def, if_pos h]

end

/-! ## Strings -/

section
variable {mode : Mode} {chars s : List Char} {x : Char} {α : Type}

theorem strChars_escape (x : Char) : StrChars ('\\' :: x :: s) ↔ StrChars s := by
  refine ⟨fun h => ?_, .escape x⟩
  cases h with
  | escape _ hs => exact hs
  | char hslash _ _ => exact absurd rfl hslash

theorem strChars_cons (hslash : x ≠ '\\') (hquote : x ≠ '"') : StrChars (x :: s) ↔ StrChars s :=
  ⟨fun h => h.tail hslash, .char hslash hquote⟩

theorem strChars_append {t : List Char} (h : ∀ x ∈ t, Plain x) :
    StrChars (t ++ s) ↔ StrChars s := by
  induction t with
  | nil => rfl
  | cons x t ih =>
    obtain ⟨hx, ht⟩ := forall_mem_cons.1 h
    rw [cons_append, strChars_cons hx.backslash hx.quote, ih ht]

theorem strChars_skip (s : List Char) : StrChars (skipAsciiWhitespace s) ↔ StrChars s := by
  induction s with
  | nil => rfl
  | cons x s ih =>
    rw [skipAsciiWhitespace, dropWhile_cons]
    cases hx : isSkipped x with
    | false => rfl
    | true =>
      have hne : ∀ y, isSkipped y = false → x ≠ y := by
        rintro y hy rfl
        rw [hx] at hy
        cases hy
      rw [strChars_cons (hne _ (by decide)) (hne _ (by decide))]
      exact ih

section
variable (hmode : mode.inDoubleQuotes = true)
include hmode

theorem quote_of_scanChar {v : Char} (h : scanChar x mode = .ok v) : x ≠ '"' := by
  rintro rfl
  rw [scanChar, if_neg (by decide), if_neg (by decide), if_neg (fun h => absurd h.1 (by decide)),
    if_pos ⟨rfl, hmode⟩] at h
  cases h

theorem malformed_of_scanChar {e : EscapeError}
    (htab : x ≠ '\t') (hnewline : x ≠ '\n') (hquote : x ≠ '"') (h : scanChar x mode = .error e) :
    Malformed e := by
  have hsingle : mode.inSingleQuotes ≠ true := by
    rw [Mode.inDoubleQuotes, not_eq_true'] at hmode
    rw [hmode]
    exact false_ne_true
  rw [scanChar, if_neg fun h => h.elim htab hnewline] at h
  split at h
  · cases h
    exact ⟨nofun, nofun⟩
  rw [if_neg fun h => hsingle h.2, if_neg fun h => hquote h.1] at h
  split at h
  · cases h
    exact ⟨nofun, nofun⟩
  · cases h

theorem unescapeOne_spec (x : Char) (chars : List Char) :
    (∀ v, (unescapeOne x chars mode).1 = .ok v →
      (StrChars (unescapeOne x chars mode).2 ↔ StrChars (x :: chars))) ∧
    (StrChars (x :: chars) → ∀ e, (unescapeOne x chars mode).1 = .error e → Malformed e) ∧
    (unescapeOne x chars mode).2.length ≤ chars.length := by
  rw [unescapeOne]
  split
  · next hnewline =>
    subst hnewline
    exact ⟨fun _ _ => (strChars_cons (by decide) (by decide)).symm, fun _ => nofun, le_rfl⟩
  split
  · next htab =>
    subst htab
    exact ⟨fun _ _ => (strChars_cons (by decide) (by decide)).symm, fun _ => nofun, le_rfl⟩
  · next hnewline htab =>
    by_cases hslash : x = '\\'
    · subst hslash
      cases chars with
      | nil =>
        refine ⟨nofun, fun h => ?_, le_rfl⟩
        cases h with
        | char hslash _ _ => exact absurd rfl hslash
      | cons y chars =>
        obtain ⟨⟨eaten, heaten, hplain⟩, hmalformed⟩ := scanEscape_backslash y chars mode
        refine ⟨fun v hv => ?_, fun _ => hmalformed, ?_⟩
        · rw [strChars_escape, ← strChars_append (hplain v hv), ← heaten]
        · have := congrArg List.length heaten
          rw [length_append] at this
          rw [length_cons]
          omega
    · rw [scanEscape_char hslash]
      refine ⟨fun v hv => ?_, fun h e he => ?_, le_rfl⟩
      · exact (strChars_cons hslash (quote_of_scanChar hmode hv)).symm
      · refine malformed_of_scanChar hmode htab hnewline ?_ he
        cases h with
        | escape y hs => exact absurd rfl hslash
        | char _ hquote _ => exact hquote

end

/-- Every report of a lone backslash, or of a character that is to be escaped, comes after another
error. -/
def Excused (reports : List (Report α)) : Prop :=
  ∀ pre report post, reports = pre ++ report :: post →
    (report.result = .error .loneSlash ∨ report.result = .error .escapeOnlyChar) →
      ∃ earlier ∈ pre, ∃ e, earlier.result = .error e

variable {report : Report α} {reports : List (Report α)}

theorem Excused.cons_ok {v : α}
    (hok : report.result = .ok v) (h : Excused reports) : Excused (report :: reports) := by
  intro pre late post hsplit hlate
  cases pre with
  | nil =>
    obtain ⟨rfl, -⟩ := List.cons.inj hsplit
    rw [hok] at hlate
    rcases hlate with hlate | hlate <;> cases hlate
  | cons first pre =>
    obtain ⟨rfl, hrest⟩ := List.cons.inj hsplit
    obtain ⟨earlier, hmem, he⟩ := h pre late post hrest hlate
    exact ⟨earlier, mem_cons_of_mem _ hmem, he⟩

theorem Excused.cons_error {e : EscapeError}
    (herror : report.result = .error e) (he : Malformed e) : Excused (report :: reports) := by
  intro pre late post hsplit hlate
  cases pre with
  | nil =>
    obtain ⟨rfl, -⟩ := List.cons.inj hsplit
    rw [herror] at hlate
    rcases hlate with hlate | hlate
    · exact absurd (Except.error.inj hlate) he.1
    · exact absurd (Except.error.inj hlate) he.2
  | cons first pre =>
    obtain ⟨rfl, -⟩ := List.cons.inj hsplit
    exact ⟨report, mem_cons_self, e, herror⟩

def NoError (reports : List (Report α)) : Prop := ∀ report ∈ reports, ∃ v, report.result = .ok v

theorem unescapeLoop_spec (hmode : mode.inDoubleQuotes = true) (len : Nat) :
    ∀ {n : Nat} {chars : List Char}, chars.length ≤ n →
      ∃ reports, unescapeLoop mode len n chars = .ok reports ∧
        (NoError reports → StrChars chars) ∧ (StrChars chars → Excused reports)
  | n, [], _ => by
    refine ⟨[], by cases n <;> rfl, fun _ => .nil, fun _ pre report post h => ?_⟩
    exact absurd h (append_ne_nil_of_right_ne_nil _ (cons_ne_nil _ _)).symm
  | 0, x :: chars, h => absurd h (Nat.not_succ_le_zero _)
  | n + 1, x :: chars, h => by
    have hle : chars.length ≤ n := Nat.le_of_succ_le_succ h
    rw [unescapeLoop]
    split
    · next hline =>
      -- The lexer skips the newline behind the backslash, and the whitespace one by one.
      obtain ⟨rfl, hhead⟩ := hline
      obtain ⟨rest, rfl⟩ : ∃ rest, chars = '\n' :: rest := by
        cases chars with
        | nil => cases hhead
        | cons y rest => exact ⟨rest, congrArg (· :: rest) (Option.some.inj hhead)⟩
      have hskip : StrChars (skipAsciiWhitespace ('\n' :: rest)) ↔
          StrChars ('\\' :: '\n' :: rest) := by
        rw [strChars_skip, strChars_escape, strChars_cons (by decide) (by decide)]
      obtain ⟨reports, hrun, hok, hexcused⟩ := unescapeLoop_spec hmode len (n := n)
        (le_trans (dropWhile_sublist _).length_le hle)
      exact ⟨reports, hrun, fun h => hskip.1 (hok h), fun h => hexcused (hskip.2 h)⟩
    · obtain ⟨hone, hmalformed, hlen⟩ := unescapeOne_spec hmode x chars
      generalize unescapeOne x chars mode = r at hone hmalformed hlen
      obtain ⟨result, rest⟩ := r
      obtain ⟨reports, hrun, hok, hexcused⟩ := unescapeLoop_spec hmode len (n := n)
        (le_trans hlen hle)
      dsimp only at hone hmalformed hrun ⊢
      rw [hrun, ok_bind]
      refine ⟨_, rfl, fun h => ?_, fun h => ?_⟩
      · obtain ⟨⟨v, hv⟩, hrest⟩ := forall_mem_cons.1 h
        exact (hone v hv).1 (hok hrest)
      · cases hresult : result with
        | ok v => exact .cons_ok rfl (hexcused ((hone v hresult).2 h))
        | error e => exact .cons_error rfl (hmalformed h e hresult)

theorem unescapeStrOrByteStr_spec (hmode : mode.inDoubleQuotes = true) (s : List Char) :
    ∃ reports, unescapeStrOrByteStr s mode = .ok reports ∧ (NoError reports → StrChars s) ∧
      (StrChars s → Excused reports) := by
  rw [unescapeStrOrByteStr, assert, if_pos hmode]
  exact unescapeLoop_spec hmode _ le_rfl

theorem strChars_of_unescapeStr {reports : List (Report Char)} (h : unescapeStr s = .ok reports)
    (hok : NoError reports) : StrChars s := by
  obtain ⟨reports', hrun, hstr, -⟩ := @unescapeStrOrByteStr_spec .str rfl s
  obtain rfl := Except.ok.inj (h.symm.trans hrun)
  exact hstr hok

theorem noError_of_byteReport : ∀ {reports : List (Report Char)} {bytes : List (Report UInt8)},
    reports.mapM byteReport = .ok bytes → NoError bytes → NoError reports
  | [], _, _, _ => nofun
  | report :: reports, bytes, h, hok => by
    rw [mapM_cons] at h
    obtain ⟨byte, hbyte, h⟩ := bind_eq_ok.1 h
    obtain ⟨rest, hrest, h⟩ := bind_eq_ok.1 h
    cases h
    obtain ⟨⟨v, hv⟩, hokrest⟩ := forall_mem_cons.1 hok
    refine forall_mem_cons.2 ⟨?_, noError_of_byteReport hrest hokrest⟩
    rw [byteReport] at hbyte
    cases hresult : report.result with
    | ok c => exact ⟨c, rfl⟩
    | error e =>
      rw [hresult] at hbyte
      cases hbyte
      cases hv

theorem strChars_of_unescapeByteStr {bytes : List (Report UInt8)}
    (h : unescapeByteStr s = .ok bytes) (hok : NoError bytes) : StrChars s := by
  obtain ⟨reports, hrun, hstr, -⟩ := @unescapeStrOrByteStr_spec .byteStr rfl s
  rw [unescapeByteStr, hrun, ok_bind] at h
  exact hstr (noError_of_byteReport h hok)

end

end Tortis.Lexer
