import Tortis.Lexer.Delimiters

/-!
# Lossless tokens

Every scanner returns, whatever the input: it moves over a part of it, and what it moves over has
the shape that its token says. So the tokens of an input cover it (`tokenize_lossless`), and every
literal is a body, of the shape of its kind, and a suffix.
-/

namespace Tortis.Lexer

open Outcome List Bool Cursor

/-! ## The shapes of literals -/

def Digits (isDigit : Char → Bool) (s : List Char) : Prop := ∀ x ∈ s, x = '_' ∨ isDigit x = true

def Base.marker : Base → List Char
  | .binary => ['0', 'b']
  | .octal => ['0', 'o']
  | .hexadecimal => ['0', 'x']
  | .decimal => []

def Base.isDigit : Base → Char → Bool
  | .hexadecimal => isHexadecimalDigit
  | .binary | .octal | .decimal => isDecimalDigit

/-- The integer part of a number: it has a digit, and starts with one if it is decimal. -/
structure IntegerPart (base : Base) (s : List Char) : Prop where
  shape : ∃ t, s = base.marker ++ t ∧ Digits base.isDigit t ∧ ∃ x ∈ t, base.isDigit x = true
  first : base = .decimal → ∃ x t, s = x :: t ∧ isDecimalDigit x = true

def Exponent (empty : Bool) (s : List Char) : Prop :=
  ∃ e sign t, s = e :: (sign ++ t) ∧ (e = 'e' ∨ e = 'E') ∧
    (sign = [] ∨ sign = ['-'] ∨ sign = ['+']) ∧
    Digits isDecimalDigit t ∧ (empty = false ↔ ∃ x ∈ t, isDecimalDigit x = true)

/-- What follows the integer part of a floating-point number. -/
inductive Fraction : Bool → List Char → Prop where
  | dot : Fraction false ['.']
  | digits {x : Char} {s : List Char} (hx : isDecimalDigit x = true)
      (hs : Digits isDecimalDigit s) : Fraction false ('.' :: x :: s)
  | digitsExponent {x : Char} {s t : List Char} {empty : Bool} (hx : isDecimalDigit x = true)
      (hs : Digits isDecimalDigit s) (ht : Exponent empty t) : Fraction empty ('.' :: x :: s ++ t)
  | exponent {s : List Char} {empty : Bool} (hs : Exponent empty s) : Fraction empty s

/-- The characters between two double quotes: a backslash takes the next character with it. -/
inductive StrChars : List Char → Prop where
  | nil : StrChars []
  | escape (x : Char) {s : List Char} (hs : StrChars s) : StrChars ('\\' :: x :: s)
  | char {x : Char} {s : List Char} (hslash : x ≠ '\\') (hquote : x ≠ '"') (hs : StrChars s) :
      StrChars (x :: s)

section
variable (opening : List Char)

def DoubleQuoted (terminated : Bool) (s : List Char) : Prop :=
  ∃ t, s = opening ++ '"' :: t ++ (if terminated then ['"'] else []) ∧
    (terminated = true → StrChars t)

def SingleQuoted (terminated : Bool) (s : List Char) : Prop :=
  ∃ t, s = opening ++ '\'' :: t ++ if terminated then ['\''] else []

/-- A raw literal. One that is not started ends with the character in the place of the quote. -/
def RawQuoted (nHashes : Nat) (started terminated : Bool) (s : List Char) : Prop :=
  ∃ t, s = opening ++ replicate nHashes '#' ++ t ∧
    if started then
      ∃ u, t = '"' :: u ++ if terminated then '"' :: replicate nHashes '#' else []
    else t.length ≤ 1 ∧ terminated = false

end

def IsBody : LiteralKind → List Char → Prop
  | .int base false, s => IntegerPart base s
  | .int base true, s => base ≠ .decimal ∧ ∃ t, s = base.marker ++ t ∧ ∀ x ∈ t, x = '_'
  | .float base emptyExponent, s =>
    ∃ t u, s = t ++ u ∧ IntegerPart base t ∧ Fraction emptyExponent u
  | .char terminated, s => SingleQuoted [] terminated s
  | .byte terminated, s => SingleQuoted ['b'] terminated s
  | .str terminated, s => DoubleQuoted [] terminated s
  | .byteStr terminated, s => DoubleQuoted ['b'] terminated s
  | .rawStr n started terminated, s => RawQuoted ['r'] n started terminated s
  | .rawByteStr n started terminated, s => RawQuoted ['b', 'r'] n started terminated s

section
variable [UnicodeXid]

def IsIdent (s : List Char) : Prop :=
  ∃ x t, s = x :: t ∧ isIdStart x = true ∧ ∀ y ∈ t, isIdContinue y = true

/-- What a token says about the characters it covers: a literal is a body and a suffix. -/
def Describes (kind : TokenKind) (s : List Char) : Prop :=
  ∀ literal suffixStart, kind = .literal literal suffixStart →
    ∃ body suffix, s = body ++ suffix ∧ suffixStart = utf8Len body ∧ IsBody literal body ∧
      (suffix = [] ∨ IsIdent suffix)

/-- The tokens cover the input from its start to its end, each of them at least a character. -/
inductive Covers : List Token → List Char → Prop where
  | nil : Covers [] []
  | cons {token : Token} {tokens : List Token} {s rest : List Char} (nonempty : s ≠ [])
      (len : token.len = utf8Len s) (describes : Describes token.kind s)
      (tail : Covers tokens rest) : Covers (token :: tokens) (s ++ rest)

end

/-! ## What the loops move over -/

section
variable {c c' : Cursor} {x : Char} {s t : List Char} {n : Nat}

@[simp] theorem isWhitespace_eof : isWhitespace EOF_CHAR = false := by decide

@[simp] theorem isDecimalDigit_eof : isDecimalDigit EOF_CHAR = false := by decide

@[simp] theorem isHexadecimalDigit_eof : isHexadecimalDigit EOF_CHAR = false := by decide

@[simp] theorem isIdStart_eof [UnicodeXid] : isIdStart EOF_CHAR = false := by
  simp [isIdStart, between, EOF_CHAR]

@[simp] theorem isIdContinue_eof [UnicodeXid] : isIdContinue EOF_CHAR = false := by
  simp [isIdContinue, between, EOF_CHAR]

theorem lineCommentLoop_spec : ∀ {n : Nat} {c : Cursor}, c.chars.length < n →
    ∃ c' s, c.lineCommentLoop n = .ok c' ∧ Eats c s c'
  | 0, _, h => absurd h (Nat.not_lt_zero _)
  | n + 1, ⟨len, [], p⟩, _ => by
    refine ⟨_, [], ?_, .refl _⟩
    rw [lineCommentLoop, nthChar_eof, if_neg (by decide), if_pos ⟨rfl, rfl⟩]
  | n + 1, ⟨len, x :: s, p⟩, h => by
    rw [lineCommentLoop, nthChar_zero rfl]
    split
    · exact ⟨_, [], rfl, .refl _⟩
    · rw [if_neg fun h => Bool.false_ne_true h.2]
      obtain ⟨c', t, hrun, heats⟩ := lineCommentLoop_spec (n := n) (c := ⟨len, s, x⟩)
        (Nat.lt_of_succ_lt_succ h)
      exact ⟨c', x :: t, hrun, (eats_skip rfl).trans heats⟩

theorem blockCommentLoop_spec {depth : Nat} (h : c.chars.length < n) (hdepth : 0 < depth) :
    ∃ d c' s, c.blockCommentLoop n depth = .ok (d, c') ∧ Eats c s c' := by
  cases blockCommentLoop_run h hdepth with
  | closed _ _ hrun heats => exact ⟨_, _, _, hrun, heats⟩
  | unclosed _ hrun heats => exact ⟨_, _, _, hrun, heats⟩

/-! ### Numbers -/

variable {isDigit : Char → Bool}

theorem eatDigitsLoop_spec (heof : isDigit EOF_CHAR = false)
    (hunder : isDigit '_' = false) : ∀ (has : Bool) {n : Nat} {c : Cursor}, c.chars.length < n →
      ∃ b c' s, c.eatDigitsLoop isDigit n has = .ok (b, c') ∧ Eats c s c' ∧ Digits isDigit s ∧
        (b = true ↔ has = true ∨ ∃ x ∈ s, isDigit x = true) ∧ isDigit (c'.nthChar 0) = false
  | _, 0, _, h => absurd h (Nat.not_lt_zero _)
  | has, n + 1, ⟨len, [], p⟩, _ => by
    refine ⟨has, _, [], ?_, .refl _, nofun, by simp, heof⟩
    rw [eatDigitsLoop, nthChar_eof, if_neg (by decide), heof, if_neg Bool.false_ne_true]
  | has, n + 1, ⟨len, x :: s, p⟩, h => by
    have hskip := eats_cons len s p x
    have hlen : s.length < n := Nat.lt_of_succ_lt_succ h
    rw [eatDigitsLoop, nthChar_zero rfl, skip_mk]
    split
    · next hx =>
      subst hx
      obtain ⟨b, c', t, hrun, heats, hdigits, hb, hstop⟩ := eatDigitsLoop_spec heof hunder has
        (n := n) (c := ⟨len, s, '_'⟩) hlen
      refine ⟨b, c', '_' :: t, hrun, hskip.trans heats, ?_, ?_, hstop⟩
      · intro y hy
        rcases mem_cons.1 hy with rfl | hy
        exacts [.inl rfl, hdigits y hy]
      · rw [hb]
        simp [hunder]
    · split
      · next hx =>
        obtain ⟨b, c', t, hrun, heats, hdigits, hb, hstop⟩ := eatDigitsLoop_spec heof hunder true
          (n := n) (c := ⟨len, s, x⟩) hlen
        refine ⟨b, c', x :: t, hrun, hskip.trans heats, ?_, ?_, hstop⟩
        · intro y hy
          rcases mem_cons.1 hy with rfl | hy
          exacts [.inr hx, hdigits y hy]
        · simp [hb, hx]
      · next hx =>
        refine ⟨has, _, [], rfl, .refl _, nofun, by simp, ?_⟩
        exact eq_false_iff.2 hx

theorem eatDigits_spec (heof : isDigit EOF_CHAR = false)
    (hunder : isDigit '_' = false) (c : Cursor) : ∃ b c' s, c.eatDigitsLoop isDigit c.fuel false =
    .ok (b, c') ∧ Eats c s c' ∧ Digits isDigit s ∧ (b = true ↔ ∃ x ∈ s, isDigit x = true) ∧
    (isDigit (c.nthChar 0) = true → ∃ x t, s = x :: t ∧ isDigit x = true) := by
  obtain ⟨b, c', s, hrun, heats, hdigits, hb, hstop⟩ := eatDigitsLoop_spec heof hunder false
    (n := c.fuel) (c := c) (Nat.lt_succ_self _)
  refine ⟨b, c', s, hrun, heats, hdigits, by simpa using hb, fun hfirst => ?_⟩
  cases s with
  | nil =>
    have hchars : c.chars = c'.chars := heats.chars
    rw [nthChar, hchars, ← nthChar, hstop] at hfirst
    cases hfirst
  | cons x t =>
    rw [nthChar_zero heats.chars] at hfirst
    exact ⟨x, t, rfl, hfirst⟩

theorem eatDecimalDigits_spec (c : Cursor) :
    ∃ b c' s, c.eatDecimalDigits = .ok (b, c') ∧ Eats c s c' ∧ Digits isDecimalDigit s ∧
      (b = true ↔ ∃ x ∈ s, isDecimalDigit x = true) ∧
        (isDecimalDigit (c.nthChar 0) = true → ∃ x t, s = x :: t ∧ isDecimalDigit x = true) :=
  eatDigits_spec isDecimalDigit_eof (by decide) c

theorem Base.isDigit_spec (base : Base) (c : Cursor) :
    ∃ b c' s, c.eatDigitsLoop base.isDigit c.fuel false = .ok (b, c') ∧ Eats c s c' ∧
      Digits base.isDigit s ∧ (b = true ↔ ∃ x ∈ s, base.isDigit x = true) := by
  have h : ∃ b c' s, c.eatDigitsLoop base.isDigit c.fuel false = .ok (b, c') ∧ Eats c s c' ∧
      Digits base.isDigit s ∧ (b = true ↔ ∃ x ∈ s, base.isDigit x = true) ∧
        (base.isDigit (c.nthChar 0) = true → ∃ x t, s = x :: t ∧ base.isDigit x = true) := by
    cases base with
    | hexadecimal => exact eatDigits_spec isHexadecimalDigit_eof (by decide) c
    | binary | octal | decimal => exact eatDecimalDigits_spec c
  obtain ⟨b, c', s, hrun, heats, hdigits, hb, -⟩ := h
  exact ⟨b, c', s, hrun, heats, hdigits, hb⟩

theorem floatExponent_spec (h : c.nthChar 0 = 'e' ∨ c.nthChar 0 = 'E') :
    ∃ b c' s, c.skip.floatExponent = .ok (b, c') ∧ Eats c s c' ∧ Exponent b s := by
  have hletter : ∃ e s, c.chars = e :: s ∧ (e = 'e' ∨ e = 'E') := by
    rcases h with h | h
    all_goals obtain ⟨s, hs⟩ := chars_of_nthChar h (by decide)
    exacts [⟨_, s, hs, .inl rfl⟩, ⟨_, s, hs, .inr rfl⟩]
  obtain ⟨e, s, hs, he⟩ := hletter
  have hskip := eats_skip hs
  have hprev : c.skip.prev = e := hskip.prev
  have hassert : debugAssert (c.skip.prev == 'e' || c.skip.prev == 'E')
      "self.prev() == 'e' || self.prev() == 'E'" = .ok () := by
    rw [debugAssert, assert, hprev]
    rcases he with rfl | rfl <;> rfl
  -- The sign is eaten if it is there.
  obtain ⟨sign, c1, hc1, heats1, hsign⟩ : ∃ sign c1,
      (if c.skip.nthChar 0 = '-' ∨ c.skip.nthChar 0 = '+' then c.skip.skip else c.skip) = c1 ∧
        Eats c.skip sign c1 ∧ (sign = [] ∨ sign = ['-'] ∨ sign = ['+']) := by
    split
    · next hs =>
      rcases hs with hs | hs
      all_goals obtain ⟨t, ht⟩ := chars_of_nthChar hs (by decide)
      exacts [⟨_, _, rfl, eats_skip ht, .inr (.inl rfl)⟩,
        ⟨_, _, rfl, eats_skip ht, .inr (.inr rfl)⟩]
    · exact ⟨[], _, rfl, .refl _, .inl rfl⟩
  obtain ⟨b, c', t, hrun, heats, hdigits, hb, -⟩ := eatDecimalDigits_spec c1
  refine ⟨!b, c', e :: (sign ++ t), ?_, hskip.trans (heats1.trans heats),
    e, sign, t, rfl, he, hsign, hdigits, by rw [not_eq_false', hb]⟩
  rw [floatExponent, hassert, ok_bind]
  dsimp only
  rw [hc1, hrun]
  rfl

theorem numberRest_spec [UnicodeXid] (base : Base) (c : Cursor) : ∃ kind c' s, c.numberRest base =
    .ok (kind, c') ∧ Eats c s c' ∧ ∀ t, IntegerPart base t → IsBody kind (t ++ s) := by
  rw [numberRest]
  split
  · next hdot =>
    obtain ⟨s, hs⟩ := chars_of_nthChar hdot.1 (by decide)
    have hskip := eats_skip hs
    dsimp only
    split
    · next hdigit =>
      obtain ⟨b, c1, t, hrun, heats, hdigits, -, hfirst⟩ := eatDecimalDigits_spec c.skip
      obtain ⟨x, t, rfl, hx⟩ := hfirst hdigit
      have ht : Digits isDecimalDigit t := fun y hy => hdigits y (mem_cons_of_mem _ hy)
      rw [hrun, ok_bind]
      split
      · next hexp =>
        obtain ⟨b, c', u, hrun', heats', hu⟩ := floatExponent_spec hexp
        rw [hrun', ok_bind]
        exact ⟨_, c', _, rfl, hskip.trans (heats.trans heats'), fun i hi =>
          ⟨i, _, rfl, hi, .digitsExponent hx ht hu⟩⟩
      · exact ⟨_, c1, _, rfl, hskip.trans heats, fun i hi => ⟨i, _, rfl, hi, .digits hx ht⟩⟩
    · exact ⟨_, _, _, rfl, hskip, fun i hi => ⟨i, _, rfl, hi, .dot⟩⟩
  · split
    · next hexp =>
      obtain ⟨b, c', u, hrun', heats', hu⟩ := floatExponent_spec hexp
      rw [hrun', ok_bind]
      exact ⟨_, c', _, rfl, heats', fun i hi => ⟨i, u, rfl, hi, .exponent hu⟩⟩
    · exact ⟨_, c, [], rfl, .refl c, fun i hi => by rwa [append_nil]⟩

theorem numberPrefixed_spec [UnicodeXid] {base : Base} {letter : Char}
    (hbase : base.marker = ['0', letter]) (hletter : letter ≠ EOF_CHAR) (h : c.nthChar 0 = letter) :
    ∃ kind c' s, c.numberPrefixed base (fun c => c.eatDigitsLoop base.isDigit c.fuel false) =
      .ok (kind, c') ∧ Eats c s c' ∧ IsBody kind ('0' :: s) := by
  obtain ⟨s, hs⟩ := chars_of_nthChar h hletter
  have hdecimal : base ≠ .decimal := by
    rintro rfl
    cases hbase
  obtain ⟨b, c1, t, hrun, heats, hdigits, hb⟩ := base.isDigit_spec c.skip
  have hall : Eats c (letter :: t) c1 := (eats_skip hs).trans heats
  have hshape : '0' :: letter :: t = base.marker ++ t := by rw [hbase]; rfl
  rw [numberPrefixed, hrun, ok_bind]
  cases b with
  | false =>
    refine ⟨_, c1, _, rfl, hall, hdecimal, t, hshape, fun x hx => ?_⟩
    refine (hdigits x hx).resolve_right fun hdigit => ?_
    exact false_ne_true (hb.2 ⟨x, hx, hdigit⟩)
  | true =>
    obtain ⟨kind, c', u, hrun', heats', hbody⟩ := numberRest_spec base c1
    refine ⟨kind, c', _, hrun', hall.trans heats', ?_⟩
    exact hbody ('0' :: letter :: t)
      ⟨⟨t, hshape, hdigits, hb.1 rfl⟩, fun heq => absurd heq hdecimal⟩

theorem decimal_integerPart (hx : isDecimalDigit x = true) (hs : Digits isDecimalDigit s) :
    IntegerPart .decimal (x :: s) where
  shape := ⟨x :: s, rfl, forall_mem_cons.2 ⟨.inr hx, hs⟩, x, mem_cons_self, hx⟩
  first _ := ⟨x, s, rfl, hx⟩

theorem number_spec [UnicodeXid] (hprev : c.prev = x) (hx : isDecimalDigit x = true) :
    ∃ kind c' s, c.number x = .ok (kind, c') ∧ Eats c s c' ∧ IsBody kind (x :: s) := by
  have hassert : debugAssert (decide ('0' ≤ c.prev) && decide (c.prev ≤ '9'))
      "'0' <= self.prev() && self.prev() <= '9'" = .ok () := by
    rw [debugAssert, assert, hprev]
    exact if_pos hx
  have hdecimal : ∃ kind c' s, (c.eatDecimalDigits >>= fun p => p.2.numberRest .decimal) =
      .ok (kind, c') ∧ Eats c s c' ∧ IsBody kind (x :: s) := by
    obtain ⟨b, c1, s, hrun, heats, hdigits, -, -⟩ := eatDecimalDigits_spec c
    obtain ⟨kind, c', t, hrun', heats', hbody⟩ := numberRest_spec .decimal c1
    refine ⟨kind, c', s ++ t, ?_, heats.trans heats', hbody _ (decimal_integerPart hx hdigits)⟩
    rw [hrun, ok_bind, hrun']
  rw [number, hassert, ok_bind]
  split
  · next hzero =>
    subst hzero
    dsimp only
    split
    · next hb =>
      exact numberPrefixed_spec (show Base.marker .binary = ['0', 'b'] from rfl) (by decide) hb
    split
    · next ho =>
      exact numberPrefixed_spec (show Base.marker .octal = ['0', 'o'] from rfl) (by decide) ho
    split
    · next hx =>
      exact numberPrefixed_spec (show Base.marker .hexadecimal = ['0', 'x'] from rfl) (by decide) hx
    split
    · exact hdecimal
    · exact ⟨_, c, [], rfl, .refl c, decimal_integerPart hx (forall_mem_nil _)⟩
  · exact hdecimal

/-! ### Quoted literals -/

theorem exists_eats_skip (c : Cursor) : ∃ s, Eats c s c.skip ∧ s.length ≤ 1 := by
  obtain ⟨len, chars, p⟩ := c
  cases chars with
  | nil => exact ⟨[], .refl _, Nat.zero_le _⟩
  | cons x s => exact ⟨[x], eats_skip rfl, le_rfl⟩

theorem singleQuotedLoop_spec : ∀ {n : Nat} {first : Bool} {c : Cursor}, c.chars.length < n →
    ∃ b c' s, c.singleQuotedLoop n first = .ok (b, c') ∧
      Eats c (s ++ if b then ['\''] else []) c'
  | 0, _, _, h => absurd h (Nat.not_lt_zero _)
  | n + 1, first, ⟨len, [], p⟩, _ => by
    refine ⟨false, _, [], ?_, .refl _⟩
    rw [singleQuotedLoop, nthChar_eof, if_neg fun h => absurd h.1 (by decide),
      if_neg fun h => absurd h.1 (by decide), if_pos ⟨rfl, rfl⟩]
  | n + 1, first, ⟨len, x :: s, p⟩, h => by
    have hskip := eats_cons len s p x
    have hlen : s.length < n := Nat.lt_of_succ_lt_succ h
    rw [singleQuotedLoop, nthChar_zero rfl, skip_mk]
    split
    · exact ⟨false, _, [], rfl, .refl _⟩
    split
    · exact ⟨false, _, [], rfl, .refl _⟩
    rw [if_neg fun h => Bool.false_ne_true h.2]
    split
    · next hquote => exact ⟨true, _, [], rfl, hquote ▸ hskip⟩
    split
    · obtain ⟨t, heats, ht⟩ := exists_eats_skip ⟨len, s, x⟩
      have hshort : (skip ⟨len, s, x⟩).chars.length < n := by
        have := congrArg List.length heats.chars
        rw [length_append] at this
        dsimp only at this
        omega
      obtain ⟨b, c', u, hrun, hrest⟩ := singleQuotedLoop_spec (n := n) hshort
      refine ⟨b, c', x :: t ++ u, hrun, ?_⟩
      rw [append_assoc]
      exact hskip.trans (heats.trans hrest)
    · obtain ⟨b, c', u, hrun, hrest⟩ := singleQuotedLoop_spec (n := n) (c := ⟨len, s, x⟩) hlen
      exact ⟨b, c', x :: u, hrun, hskip.trans hrest⟩

theorem singleQuotedString_spec (h : c.prev = '\'') :
    ∃ b c' s, c.singleQuotedString = .ok (b, c') ∧ Eats c (s ++ if b then ['\''] else []) c' := by
  have hassert : debugAssert (c.prev == '\'') "self.prev() == '\\''" = .ok () := by
    rw [debugAssert, assert, h]
    rfl
  rw [singleQuotedString, hassert, ok_bind]
  split
  · obtain ⟨t, heats, -⟩ := exists_eats_skip c
    obtain ⟨b, c', s, hrun, hrest⟩ := singleQuotedLoop_spec (n := c.skip.fuel) (c := c.skip)
      (Nat.lt_succ_self _)
    refine ⟨b, c', t ++ s, hrun, ?_⟩
    rw [append_assoc]
    exact heats.trans hrest
  · exact singleQuotedLoop_spec (Nat.lt_succ_self _)

theorem StrChars.tail (h : StrChars (x :: s)) (hx : x ≠ '\\') : StrChars s := by
  cases h with
  | escape y hs => exact absurd rfl hx
  | char _ _ hs => exact hs

theorem doubleQuotedLoop_spec : ∀ {n : Nat} {c : Cursor}, c.chars.length < n →
    ∃ b c' s, c.doubleQuotedLoop n = .ok (b, c') ∧ Eats c (s ++ if b then ['"'] else []) c' ∧
      (b = true → StrChars s)
  | 0, _, h => absurd h (Nat.not_lt_zero _)
  | n + 1, ⟨len, [], p⟩, _ => by
    refine ⟨false, _, [], ?_, .refl _, nofun⟩
    rw [doubleQuotedLoop, nthChar_eof, if_neg (by decide), if_pos ⟨rfl, rfl⟩]
  | n + 1, ⟨len, x :: s, p⟩, h => by
    have hskip := eats_cons len s p x
    have hlen : s.length < n := Nat.lt_of_succ_lt_succ h
    rw [doubleQuotedLoop, nthChar_zero rfl, nthChar_one rfl, skip_mk]
    split
    · next hquote => exact ⟨true, _, [], rfl, hquote ▸ hskip, fun _ => .nil⟩
    rw [if_neg fun h => Bool.false_ne_true h.2]
    split
    · next hescape =>
      obtain ⟨rfl, hnext⟩ := hescape
      obtain ⟨y, s, rfl⟩ : ∃ y t, s = y :: t := by
        cases s with
        | nil => rcases hnext with hnext | hnext <;> exact absurd hnext (by decide)
        | cons y t => exact ⟨y, t, rfl⟩
      obtain ⟨b, c', u, hrun, hrest, hchars⟩ := doubleQuotedLoop_spec (n := n) (c := ⟨len, s, y⟩)
        (Nat.lt_of_succ_lt hlen)
      exact ⟨b, c', '\\' :: y :: u, hrun, hskip.trans ((eats_skip rfl).trans hrest),
        fun hb => .escape y (hchars hb)⟩
    · next hquote hescape =>
      obtain ⟨b, c', u, hrun, hrest, hchars⟩ := doubleQuotedLoop_spec (n := n) (c := ⟨len, s, x⟩)
        hlen
      refine ⟨b, c', x :: u, hrun, hskip.trans hrest, fun hb => ?_⟩
      by_cases hslash : x = '\\'
      · -- The next character is neither a backslash nor a quote, so it is a unit of its own.
        subst hslash
        have hs : s = u ++ '"' :: c'.chars := by
          have := hrest.chars
          rw [hb] at this
          simpa using this
        cases u with
        | nil => exact absurd ⟨rfl, .inr (by rw [hs]; rfl)⟩ hescape
        | cons y u =>
          have hy : y ≠ '\\' := fun hy => hescape ⟨rfl, .inl (by rw [hs, hy]; rfl)⟩
          exact .escape y ((hchars hb).tail hy)
      · exact .char hslash hquote (hchars hb)

theorem doubleQuotedString_spec (h : c.prev = '"') :
    ∃ b c' s, c.doubleQuotedString = .ok (b, c') ∧ Eats c (s ++ if b then ['"'] else []) c' ∧
      (b = true → StrChars s) := by
  have hassert : debugAssert (c.prev == '"') "self.prev() == '\"'" = .ok () := by
    rw [debugAssert, assert, h]
    rfl
  rw [doubleQuotedString, hassert, ok_bind]
  exact doubleQuotedLoop_spec (Nat.lt_succ_self _)

theorem openingHashes_spec : ∀ {n : Nat} (acc : Nat) {c : Cursor}, c.chars.length < n →
    ∃ k started c' t, c.openingHashes n acc = .ok (acc + k, started, c') ∧
      Eats c (replicate k '#' ++ t) c' ∧ if started then t = ['"'] else t.length ≤ 1
  | 0, _, _, h => absurd h (Nat.not_lt_zero _)
  | n + 1, acc, ⟨len, [], p⟩, _ => ⟨0, false, _, [], rfl, .refl _, Nat.zero_le _⟩
  | n + 1, acc, ⟨len, x :: s, p⟩, h => by
    have hskip := eats_cons len s p x
    rw [openingHashes, bump_eq rfl]
    dsimp only
    rw [skip_mk]
    split
    · next hx =>
      obtain ⟨k, started, c', t, hrun, hrest, ht⟩ := openingHashes_spec (n := n) (acc + 1)
        (c := ⟨len, s, x⟩) (Nat.lt_of_succ_lt_succ h)
      refine ⟨k + 1, started, c', t, ?_, ?_, ht⟩
      · rw [hrun, add_assoc, add_comm 1]
      · rw [replicate_succ, ← hx]
        exact hskip.trans (hx ▸ hrest)
    · split
      · next hx => exact ⟨0, true, _, [x], rfl, hskip, congrArg (fun x => [x]) hx⟩
      · exact ⟨0, false, _, [x], rfl, hskip, le_rfl⟩

theorem rawStringLoop_spec (nHashes : Nat) (h : c.chars.length < n) :
    ∃ b c' s, c.rawStringLoop nHashes n = .ok (b, c') ∧
      Eats c (s ++ if b then rawClosing nHashes else []) c' := by
  cases rawStringLoop_run (n := nHashes) h with
  | closed _ hrun heats => exact ⟨true, _, _, hrun, heats⟩
  | unclosed _ hrun heats => exact ⟨false, _, _, hrun, by simpa using heats⟩

theorem rawDoubleQuotedString_spec (h : c.prev = 'r') :
    ∃ n started terminated c' s, c.rawDoubleQuotedString = .ok ((n, started, terminated), c') ∧
      Eats c s c' ∧ ∀ opening, RawQuoted opening n started terminated (opening ++ s) := by
  have hassert : debugAssert (c.prev == 'r') "self.prev() == 'r'" = .ok () := by
    rw [debugAssert, assert, h]
    rfl
  obtain ⟨k, started, c1, t, hrun, heats, ht⟩ := openingHashes_spec 0
    (Nat.lt_succ_self c.chars.length)
  rw [rawDoubleQuotedString, hassert, ok_bind, fuel, hrun, ok_bind, zero_add]
  dsimp only
  cases started with
  | true =>
    obtain rfl : t = ['"'] := ht
    obtain ⟨b, c', s, hrun', hrest⟩ := rawStringLoop_spec k (Nat.lt_succ_self c1.chars.length)
    rw [if_pos rfl, fuel, hrun', ok_bind]
    refine ⟨k, true, b, c', _, rfl, heats.trans hrest, fun opening =>
      ⟨'"' :: (s ++ if b then rawClosing k else []), ?_, s, rfl⟩⟩
    simp
  | false =>
    refine ⟨k, false, false, c1, _, rfl, heats, fun opening => ⟨t, ?_, ht, rfl⟩⟩
    rw [append_assoc]

/-! ### Tokens -/

variable [UnicodeXid]

theorem eatLiteralSuffix_spec (c : Cursor) :
    ∃ c' s, c.eatLiteralSuffix = .ok c' ∧ Eats c s c' ∧ (s = [] ∨ IsIdent s) := by
  rw [eatLiteralSuffix]
  cases hstart : isIdStart (c.nthChar 0) with
  | false => exact ⟨c, [], rfl, .refl c, .inl rfl⟩
  | true =>
    have hne : c.nthChar 0 ≠ EOF_CHAR := by
      intro heq
      rw [heq, isIdStart_eof] at hstart
      cases hstart
    obtain ⟨s, hs⟩ := chars_of_nthChar rfl hne
    obtain ⟨c', hrun, heats⟩ := bumpWhile_spec isIdContinue_eof
      (Nat.lt_succ_self c.skip.chars.length)
    refine ⟨c', _, hrun, (eats_skip hs).trans heats, .inr ⟨_, _, rfl, hstart, fun y hy => ?_⟩⟩
    exact all_eq_true.1 all_takeWhile y hy

/-- What a scanner does with the text behind the first character of a token: it returns, moves over
a part of it, and its token describes what the cursor has moved over since the start. -/
def Scans (input : List Char) (before : List Char) (c : Cursor)
    (r : Outcome (TokenKind × Cursor)) : Prop :=
  Eats (.new input) before c →
    ∃ kind c' s, r = .ok (kind, c') ∧ Eats c s c' ∧ Describes kind (before ++ s)

variable {before input : List Char}

theorem scans_plain {r : Outcome (TokenKind × Cursor)}
    (h : ∃ kind c' s, r = .ok (kind, c') ∧ Eats c s c' ∧ ∀ l n, kind ≠ .literal l n) :
    Scans input before c r := by
  intro _
  obtain ⟨kind, c', s, hrun, heats, hkind⟩ := h
  exact ⟨kind, c', s, hrun, heats, fun l n heq => absurd heq (hkind l n)⟩

variable {kind : LiteralKind}

theorem literal_spec {body : List Char} (terminated : Bool)
    (h : Eats (.new input) body c) (hbody : IsBody kind body) :
    ∃ c' s, c.literal kind terminated = .ok (.literal kind (utf8Len body), c') ∧ Eats c s c' ∧
      Describes (.literal kind (utf8Len body)) (body ++ s) := by
  have hdescribes : ∀ {s}, s = [] ∨ IsIdent s →
      Describes (.literal kind (utf8Len body)) (body ++ s) := by
    intro s hs l n heq
    cases heq
    exact ⟨body, s, rfl, rfl, hbody, hs⟩
  rw [literal, h.lenConsumed]
  cases terminated with
  | true =>
    obtain ⟨c', s, hrun, heats, hs⟩ := eatLiteralSuffix_spec c
    exact ⟨c', s, by simp [hrun], heats, hdescribes hs⟩
  | false => exact ⟨c, [], rfl, .refl c, hdescribes (.inl rfl)⟩

theorem scans_literal {α : Type} {x : Outcome (α × Cursor)} {f : α → LiteralKind} {g : α → Bool}
    (h : ∃ a c' s, x = .ok (a, c') ∧ Eats c s c' ∧ IsBody (f a) (before ++ s)) :
    Scans input before c (x >>= fun p => p.2.literal (f p.1) (g p.1)) := by
  intro hbefore
  obtain ⟨a, c1, s, hx, heats, hbody⟩ := h
  obtain ⟨c', t, hrun, heats', hdescribes⟩ := literal_spec (g a) (hbefore.trans heats) hbody
  refine ⟨.literal (f a) (utf8Len (before ++ s)), c', s ++ t, ?_, heats.trans heats', ?_⟩
  · rw [hx, ok_bind]
    exact hrun
  · rwa [← append_assoc]

omit [UnicodeXid] in
theorem assert_prev {x : Char} (h : c.prev = x) (msg : String) :
    debugAssert (c.prev == x) msg = .ok () := by
  rw [debugAssert, assert, h, beq_self_eq_true, if_pos rfl]

theorem lifetimeOrChar_scans (hprev : c.prev = '\'') : Scans input ['\''] c c.lifetimeOrChar := by
  rw [lifetimeOrChar, assert_prev hprev, ok_bind]
  dsimp only
  split
  · obtain ⟨s, heats, -⟩ := exists_eats_skip c
    obtain ⟨c1, hrun, heats1⟩ := bumpWhile_spec isIdContinue_eof
      (Nat.lt_succ_self c.skip.chars.length)
    intro hbefore
    rw [fuel, hrun, ok_bind]
    split
    · next hquote =>
      obtain ⟨t, ht⟩ := chars_of_nthChar hquote (by decide)
      have hall := heats.trans (heats1.trans (eats_skip ht))
      refine ⟨_, _, _, rfl, hall, fun l n heq => ?_⟩
      obtain ⟨rfl, rfl⟩ := TokenKind.literal.inj heq
      refine ⟨_, [], (append_nil _).symm, (hbefore.trans hall).lenConsumed, ?_, .inl rfl⟩
      exact ⟨s ++ c.skip.chars.takeWhile isIdContinue, by simp⟩
    · exact ⟨_, c1, _, rfl, heats.trans heats1, nofun⟩
  · refine scans_literal (f := .char) (g := id) ?_
    obtain ⟨b, c', s, hrun, heats⟩ := singleQuotedString_spec hprev
    exact ⟨b, c', _, hrun, heats, s, by simp⟩

omit [UnicodeXid] in
theorem oneSymbol_ne_literal (h : oneSymbol x = some (.literal kind n)) : False := by
  unfold oneSymbol at h
  split at h <;> cases h

theorem ident_scans (hprev : isIdStart c.prev = true) : Scans input before c c.ident := by
  obtain ⟨c', hrun, heats⟩ := bumpWhile_spec isIdContinue_eof (Nat.lt_succ_self c.chars.length)
  refine scans_plain ⟨.ident, c', _, ?_, heats, nofun⟩
  rw [ident, debugAssert, assert, if_pos hprev, ok_bind, fuel, hrun]
  rfl

theorem isIdStart_r : isIdStart 'r' = true := by simp [isIdStart, between]

theorem isIdStart_b : isIdStart 'b' = true := by simp [isIdStart, between]

theorem tokenKind_scans (hprev : c.prev = x) : Scans input [x] c (c.tokenKind x) := by
  rw [tokenKind]
  split
  · next hslash =>
    subst hslash
    split
    · next hnext =>
      obtain ⟨s, hs⟩ := chars_of_nthChar hnext (by decide)
      obtain ⟨c', t, hrun, heats⟩ := lineCommentLoop_spec (Nat.lt_succ_self c.skip.chars.length)
      refine scans_plain ⟨.lineComment, c', _, ?_, (eats_skip hs).trans heats, (by simp)⟩
      rw [lineComment, hprev, hnext]
      dsimp only [debugAssert, assert]
      rw [fuel, hrun]
      rfl
    split
    · next hnext =>
      obtain ⟨s, hs⟩ := chars_of_nthChar hnext (by decide)
      obtain ⟨d, c', t, hrun, heats⟩ := blockCommentLoop_spec (Nat.lt_succ_self c.skip.chars.length)
        one_pos
      refine scans_plain ⟨.blockComment (d == 0), c', _, ?_, (eats_skip hs).trans heats, (by simp)⟩
      rw [blockComment, hprev, hnext]
      dsimp only [debugAssert, assert]
      rw [fuel, hrun]
      rfl
    · exact scans_plain ⟨.slash, c, [], rfl, .refl c, (by simp)⟩
  split
  · next hspace =>
    obtain ⟨c', hrun, heats⟩ := bumpWhile_spec isWhitespace_eof (Nat.lt_succ_self c.chars.length)
    refine scans_plain ⟨.whitespace, c', _, ?_, heats, (by simp)⟩
    rw [whitespace, debugAssert, assert, hprev, if_pos hspace, ok_bind, fuel, hrun]
    rfl
  split
  · next hr =>
    subst hr
    split
    · next hnext =>
      obtain ⟨s, hs⟩ := chars_of_nthChar hnext.1 (by decide)
      obtain ⟨t, ht, -⟩ := exists_eats_skip c.skip
      obtain ⟨c', hrun, heats⟩ := bumpWhile_spec isIdContinue_eof
        (Nat.lt_succ_self c.skip.skip.chars.length)
      refine scans_plain ⟨.rawIdent, c', _, ?_, (eats_skip hs).trans (ht.trans heats), (by simp)⟩
      rw [rawIdent, hprev, hnext.1, hnext.2]
      dsimp only [debugAssert, assert]
      rw [fuel, hrun]
      rfl
    split
    · obtain ⟨n, started, terminated, c', s, hrun, heats, hraw⟩ := rawDoubleQuotedString_spec hprev
      refine scans_literal (f := fun p : Nat × Bool × Bool => .rawStr p.1 p.2.1 p.2.2)
        (g := fun p => p.2.2) ?_
      exact ⟨_, c', s, hrun, heats, hraw ['r']⟩
    · exact ident_scans (hprev ▸ isIdStart_r)
  split
  · next hb =>
    subst hb
    split
    · next hnext =>
      obtain ⟨s, hs⟩ := chars_of_nthChar hnext (by decide)
      have hskip := eats_skip hs
      obtain ⟨b, c', t, hrun, heats⟩ := singleQuotedString_spec hskip.prev
      refine scans_literal (f := .byte) (g := id) ?_
      exact ⟨b, c', _, hrun, hskip.trans heats, t, by simp⟩
    split
    · next hnext =>
      obtain ⟨s, hs⟩ := chars_of_nthChar hnext (by decide)
      have hskip := eats_skip hs
      obtain ⟨b, c', t, hrun, heats, hchars⟩ := doubleQuotedString_spec hskip.prev
      refine scans_literal (f := .byteStr) (g := id) ?_
      exact ⟨b, c', _, hrun, hskip.trans heats, t, by simp, hchars⟩
    split
    · next hnext =>
      obtain ⟨s, hs⟩ := chars_of_nthChar hnext.1 (by decide)
      have hskip := eats_skip hs
      obtain ⟨n, started, terminated, c', t, hrun, heats, hraw⟩ :=
        rawDoubleQuotedString_spec hskip.prev
      refine scans_literal (f := fun p : Nat × Bool × Bool => .rawByteStr p.1 p.2.1 p.2.2)
        (g := fun p => p.2.2) ?_
      exact ⟨_, c', _, hrun, hskip.trans heats, hraw ['b', 'r']⟩
    · exact ident_scans (hprev ▸ isIdStart_b)
  split
  · next hstart => exact ident_scans (hprev ▸ hstart)
  split
  · next hdigit =>
    refine scans_literal (f := id) (g := fun _ => true) ?_
    exact number_spec hprev hdigit
  split
  · next kind hkind =>
    refine scans_plain ⟨kind, c, [], rfl, .refl c, fun l n heq => ?_⟩
    subst heq
    exact oneSymbol_ne_literal hkind
  split
  · next hquote =>
    subst hquote
    exact lifetimeOrChar_scans hprev
  split
  · next hquote =>
    subst hquote
    obtain ⟨b, c', t, hrun, heats, hchars⟩ := doubleQuotedString_spec hprev
    refine scans_literal (f := .str) (g := id) ?_
    exact ⟨b, c', _, hrun, heats, t, by simp, hchars⟩
  · exact scans_plain ⟨.unknown, c, [], rfl, .refl c, (by simp)⟩

end

/-! ## The tokens of an input -/

section
variable [UnicodeXid] {input : List Char}

theorem firstToken_spec (h : input ≠ []) : ∃ token s rest, firstToken input =
    .ok token ∧ input = s ++ rest ∧ s ≠ [] ∧ token.len = utf8Len s ∧ Describes token.kind s := by
  obtain ⟨x, rest, rfl⟩ := exists_cons_of_ne_nil h
  have hskip : Eats (.new (x :: rest)) [x] (Cursor.new (x :: rest)).skip := eats_skip rfl
  have hprev : (Cursor.new (x :: rest)).skip.prev = x := hskip.prev
  obtain ⟨kind, c', s, hrun, heats, hdescribes⟩ := tokenKind_scans hprev hskip
  have hall := hskip.trans heats
  refine ⟨⟨kind, c'.lenConsumed⟩, x :: s, c'.chars, ?_, hall.chars, by simp, hall.lenConsumed,
    hdescribes⟩
  rw [firstToken, advanceToken, bump_eq rfl]
  dsimp only [debugAssert, assert, List.isEmpty, Bool.not_false]
  rw [unwrap_some, ok_bind, hrun]
  rfl

omit [UnicodeXid] in
theorem sliceFrom_append (s rest : List Char) : sliceFrom (utf8Len s) (s ++ rest) = .ok rest := by
  induction s with
  | nil => rw [utf8Len_nil, nil_append, sliceFrom]
  | cons x s ih =>
    have hpos : 0 < x.utf8Size := x.utf8Size_pos
    obtain ⟨k, hk⟩ := Nat.exists_eq_succ_of_ne_zero
      (ne_of_gt (lt_of_lt_of_le hpos (Nat.le_add_right _ (utf8Len s))))
    rw [utf8Len_cons, hk, cons_append, sliceFrom, if_pos (by omega)]
    rw [show k + 1 - x.utf8Size = utf8Len s by omega, ih]

theorem tokens_spec : ∀ {n : Nat} {input : List Char}, input.length < n →
    ∃ l, tokens n input = .ok l ∧ Covers l input
  | 0, _, h => absurd h (Nat.not_lt_zero _)
  | n + 1, [], _ => ⟨[], rfl, .nil⟩
  | n + 1, x :: input, h => by
    obtain ⟨token, s, rest, hrun, hsplit, hs, hlen, hdescribes⟩ :=
      firstToken_spec (cons_ne_nil x input)
    have hshort : rest.length < n := by
      have := congrArg List.length hsplit
      have := length_pos_iff.2 hs
      rw [length_append] at *
      omega
    obtain ⟨l, hrest, hcovers⟩ := tokens_spec hshort
    refine ⟨token :: l, ?_, hsplit ▸ .cons hs hlen hdescribes hcovers⟩
    rw [tokens, if_neg (by simp), hrun, ok_bind, hlen, hsplit, sliceFrom_append, ok_bind, hrest]
    rfl

theorem Covers.sum_len {l : List Token} (h : Covers l input) :
    (l.map Token.len).sum = utf8Len input := by
  induction h with
  | nil => rfl
  | cons _ hlen _ _ ih => rw [map_cons, sum_cons, hlen, ih, utf8Len_append]

/-- Every input is split into tokens, and no slice is made inside a character. The tokens cover the
input, each of them at least one character, and their lengths sum up to its length. The suffix of a
literal starts inside the token, behind a body of the shape of the literal, and is empty or has the
shape of an identifier. -/
theorem tokenize_lossless (input : List Char) : ∃ l, tokenize input = .ok l ∧ Covers l input ∧
    (l.map Token.len).sum = utf8Len input ∧ ∀ token ∈ l, 0 < token.len ∧ ∀ kind suffixStart,
    token.kind = .literal kind suffixStart → suffixStart ≤ token.len := by
  obtain ⟨l, hrun, hcovers⟩ := tokens_spec (Nat.lt_succ_self input.length)
  refine ⟨l, hrun, hcovers, hcovers.sum_len, ?_⟩
  clear hrun
  induction hcovers with
  | nil => exact nofun
  | @cons token tokens s rest hs hlen hdescribes _ ih =>
    refine forall_mem_cons.2 ⟨⟨?_, fun kind n hkind => ?_⟩, ih⟩
    · obtain ⟨x, t, rfl⟩ := exists_cons_of_ne_nil hs
      rw [hlen, utf8Len_cons]
      exact Nat.add_pos_left x.utf8Size_pos _
    · obtain ⟨body, suffix, rfl, rfl, -, -⟩ := hdescribes kind n hkind
      rw [hlen, utf8Len_append]
      exact Nat.le_add_right _ _

end

end Tortis.Lexer
