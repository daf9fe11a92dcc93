import Tortis.Lexer.Literals

/-!
# The lexer and the unescaper agree

The scanners of the lexer come to the closing quote of the contents that the unescaper takes, and
what a terminated string has between its quotes is what the unescaper can follow
(`literals_agree`).
-/

namespace Tortis.Lexer

open Outcome List Cursor

section
variable {mode : Mode} {n len : Nat} {prev x v : Char} {s r rest : List Char}

/-! ## Contents in single quotes -/

/-- The contents of a character literal: a character, or the escape of one. -/
inductive CharChars : List Char → Prop where
  | char {x : Char} (hslash : x ≠ '\\') (hnewline : x ≠ '\n') (hquote : x ≠ '\'') : CharChars [x]
  | escape (x : Char) {s : List Char} (hs : ∀ y ∈ s, Plain y) : CharChars ('\\' :: x :: s)

theorem scanChar_singleQuotes (hmode : mode.inSingleQuotes = true) (h : scanChar x mode = .ok v) :
    x ≠ '\n' ∧ x ≠ '\'' := by
  constructor
  · rintro rfl
    cases h
  · rintro rfl
    rw [scanChar, if_neg (by decide), if_neg (by decide), if_pos ⟨rfl, hmode⟩] at h
    cases h

theorem charChars_of_unescape (hmode : mode.inSingleQuotes = true)
    (h : unescapeCharOrByte s mode = (.ok v, rest)) : CharChars s := by
  cases s with
  | nil => cases h
  | cons x chars =>
    rw [unescapeCharOrByte] at h
    split at h
    · cases h
    · next res hscan =>
      by_cases hslash : x = '\\'
      · subst hslash
        cases chars with
        | nil => cases hscan
        | cons y chars =>
          have hreads := scanEscape_backslash y chars mode
          rw [hscan] at hreads
          obtain ⟨eaten, heaten, hplain⟩ := hreads.suffix
          obtain rfl : chars = eaten := heaten.trans (append_nil _)
          exact .escape y (hplain res rfl)
      · rw [scanEscape_char hslash] at hscan
        obtain ⟨hchar, rfl⟩ := Prod.mk.inj hscan
        obtain ⟨hnewline, hquote⟩ := scanChar_singleQuotes hmode hchar
        exact .char hslash hnewline hquote
    · cases h

theorem charChars_of_unescapeChar (h : unescapeChar s = .ok v) : CharChars s := by
  rw [unescapeChar] at h
  split at h
  · next hread => exact charChars_of_unescape rfl hread
  · cases h

theorem charChars_of_unescapeByte {byte : UInt8} (h : unescapeByte s = .ok (.ok byte)) :
    CharChars s := by
  rw [unescapeByte] at h
  split at h
  · next hread => exact charChars_of_unescape rfl hread
  · cases h

/-! ## The scanners come to the closing quote -/

theorem doubleQuotedLoop_strChars (h : StrChars s) : ∀ {n : Nat} {prev : Char},
    (s ++ '"' :: r).length < n →
      (Cursor.mk len (s ++ '"' :: r) prev).doubleQuotedLoop n = .ok (true, ⟨len, r, '"'⟩) := by
  induction h with
  | nil =>
    intro n prev hn
    obtain ⟨n, rfl⟩ := Nat.exists_eq_succ_of_ne_zero (ne_of_gt (Nat.zero_lt_of_lt hn))
    rfl
  | @escape x s hs ih =>
    intro n prev hn
    obtain ⟨n, rfl⟩ : ∃ k, n = k + 2 := ⟨n - 2, by simp at hn; omega⟩
    have hlen : (s ++ '"' :: r).length < n := by simpa using hn
    rw [doubleQuotedLoop, nthChar_zero rfl, nthChar_one rfl, if_neg (by decide),
      if_neg fun h => absurd h.1 (by decide)]
    split
    · exact ih (Nat.lt_succ_of_lt hlen)
    · next hescape =>
      -- The loop takes the backslash alone, and the character behind it in the next iteration.
      have hslash : x ≠ '\\' := fun h => hescape ⟨rfl, .inl h⟩
      have hquote : x ≠ '"' := fun h => hescape ⟨rfl, .inr h⟩
      rw [cons_append, skip_mk, doubleQuotedLoop, nthChar_zero rfl, if_neg hquote,
        if_neg fun h => Bool.false_ne_true h.2, if_neg fun h => hslash h.1]
      exact ih hlen
  | @char x s hslash hquote hs ih =>
    intro n prev hn
    obtain ⟨n, rfl⟩ := Nat.exists_eq_succ_of_ne_zero (ne_of_gt (Nat.zero_lt_of_lt hn))
    rw [cons_append, doubleQuotedLoop, nthChar_zero rfl, if_neg hquote,
      if_neg fun h => Bool.false_ne_true h.2, if_neg fun h => hslash h.1]
    exact ih (Nat.lt_of_succ_lt_succ hn)

theorem doubleQuotedString_strChars (h : StrChars s) :
    (Cursor.mk len (s ++ '"' :: r) '"').doubleQuotedString = .ok (true, ⟨len, r, '"'⟩) := by
  rw [doubleQuotedString, assert_prev rfl, ok_bind]
  exact doubleQuotedLoop_strChars h (Nat.lt_succ_self _)

theorem singleQuotedLoop_plain : ∀ {s : List Char} {n : Nat} {prev : Char}, (∀ x ∈ s, Plain x) →
    (s ++ '\'' :: r).length < n →
      (Cursor.mk len (s ++ '\'' :: r) prev).singleQuotedLoop n false = .ok (true, ⟨len, r, '\''⟩)
  | _, 0, _, _, h => absurd h (Nat.not_lt_zero _)
  | [], n + 1, p, _, _ => by
    rw [nil_append, singleQuotedLoop, nthChar_zero rfl,
      if_neg fun h => absurd h.1 (by decide), if_neg fun h => absurd h.1 (by decide),
      if_neg fun h => absurd h.1 (by decide), if_pos rfl, skip_mk]
  | x :: s, n + 1, p, h, hn => by
    obtain ⟨hx, hs⟩ := forall_mem_cons.1 h
    rw [cons_append, singleQuotedLoop, nthChar_zero rfl, if_neg fun h => hx.slash h.1,
      if_neg fun h => hx.newline h.1, if_neg fun h => Bool.false_ne_true h.2,
      if_neg hx.apostrophe, if_neg hx.backslash, skip_mk]
    exact singleQuotedLoop_plain hs (Nat.lt_of_succ_lt_succ hn)

theorem singleQuotedString_charChars (h : CharChars s) :
    (Cursor.mk len (s ++ '\'' :: r) '\'').singleQuotedString = .ok (true, ⟨len, r, '\''⟩) := by
  rw [singleQuotedString, assert_prev rfl, ok_bind]
  cases h with
  | @char x hslash hnewline hquote =>
    dsimp only
    rw [singleton_append, nthChar_zero rfl, if_neg fun h => hquote h.1, fuel, singleQuotedLoop,
      nthChar_zero rfl, if_neg fun h => absurd h.2 (by decide), if_neg fun h => hnewline h.1,
      if_neg fun h => Bool.false_ne_true h.2, if_neg hquote, if_neg hslash, skip_mk]
    exact @singleQuotedLoop_plain len r [] _ x (by simp) (Nat.lt_succ_self _)
  | @escape x s hs =>
    dsimp only
    rw [cons_append, nthChar_zero rfl, if_neg fun h => absurd h.1 (by decide), fuel,
      singleQuotedLoop, nthChar_zero rfl, if_neg fun h => absurd h.1 (by decide),
      if_neg fun h => absurd h.1 (by decide), if_neg fun h => Bool.false_ne_true h.2,
      if_neg (by decide), if_pos rfl, skip_mk, cons_append, skip_mk]
    exact singleQuotedLoop_plain hs (Nat.lt_succ_of_lt (Nat.lt_succ_self _))

end

/-! ## The token of a literal -/

section
variable [UnicodeXid] {x : Char} {s r : List Char} {len : Nat} {kind : LiteralKind}

/-- What does not start with an identifier character. -/
def NoSuffix (r : List Char) : Prop := ∀ x ∈ r.head?, isIdStart x = false

theorem nthChar_noSuffix (h : NoSuffix r) : isIdStart ((Cursor.mk len r x).nthChar 0) = false := by
  cases r with
  | nil => exact isIdStart_eof
  | cons y r =>
    exact h y rfl

theorem literal_noSuffix (h : NoSuffix r) : (Cursor.mk len r x).literal kind true =
      .ok (.literal kind (len - utf8Len r), ⟨len, r, x⟩) := by
  rw [literal, eatLiteralSuffix, nthChar_noSuffix h]
  rfl

theorem firstToken_cons {c : Cursor} {kind : TokenKind}
    (h : (Cursor.mk (utf8Len (x :: s)) s x).tokenKind x = .ok (kind, c)) :
    firstToken (x :: s) = .ok ⟨kind, c.lenConsumed⟩ := by
  rw [firstToken, advanceToken]
  dsimp only [debugAssert, assert, List.isEmpty, Bool.not_false, Cursor.new, bump]
  rw [unwrap_some, ok_bind, h]
  rfl

theorem isIdStart_ascii (h : x.toNat ≤ 0x7f) (ha : between 'a' 'z' x = false)
    (hA : between 'A' 'Z' x = false) (hunder : x ≠ '_') : isIdStart x = false := by
  rw [isIdStart, ha, hA, beq_eq_false_iff_ne.2 hunder, decide_eq_false (Nat.not_lt.2 h)]
  rfl

theorem isIdStart_quote : isIdStart '"' = false :=
  isIdStart_ascii (by decide) (by decide) (by decide) (by decide)

theorem isIdStart_apostrophe : isIdStart '\'' = false :=
  isIdStart_ascii (by decide) (by decide) (by decide) (by decide)

theorem isIdStart_backslash : isIdStart '\\' = false :=
  isIdStart_ascii (by decide) (by decide) (by decide) (by decide)

theorem lifetimeOrChar_charChars (h : CharChars s) (hr : NoSuffix r) :
    (Cursor.mk len (s ++ '\'' :: r) '\'').lifetimeOrChar =
      .ok (.literal (.char true) (len - utf8Len r), ⟨len, r, '\''⟩) := by
  have hbranch : ¬ ((isIdStart ((Cursor.mk len (s ++ '\'' :: r) '\'').nthChar 0) ||
      (!isIdStart ((Cursor.mk len (s ++ '\'' :: r) '\'').nthChar 0) &&
        isDecimalDigit ((Cursor.mk len (s ++ '\'' :: r) '\'').nthChar 0))) = true ∧
      (Cursor.mk len (s ++ '\'' :: r) '\'').nthChar 1 ≠ '\'') := by
    cases h with
    | char _ _ _ => exact fun h => h.2 rfl
    | escape x _ =>
      rw [cons_append, nthChar_zero rfl, isIdStart_backslash]
      exact fun h => absurd h.1 (by decide)
  rw [lifetimeOrChar, assert_prev rfl, ok_bind]
  rw [if_neg hbranch, singleQuotedString_charChars h, ok_bind]
  exact literal_noSuffix hr

/-! ## Agreement -/

theorem firstToken_str (h : StrChars s) (hr : NoSuffix r) : firstToken ('"' :: s ++ '"' :: r) =
      .ok ⟨.literal (.str true) (utf8Len s + 2), utf8Len s + 2⟩ := by
  rw [cons_append, firstToken_cons (c := ⟨_, r, '"'⟩), lenConsumed, utf8Len_quoted '"' rfl]
  rw [tokenKind, if_neg (by decide), if_neg (by decide), if_neg (by decide),
    if_neg (by decide), if_neg (by rw [isIdStart_quote]; decide), if_neg (by decide),
    show oneSymbol '"' = none from rfl]
  dsimp only
  rw [if_neg (by decide), if_pos rfl, doubleQuotedString_strChars h, ok_bind]
  rw [literal_noSuffix hr, utf8Len_quoted '"' rfl]

theorem firstToken_byteStr (h : StrChars s) (hr : NoSuffix r) :
    firstToken ('b' :: '"' :: s ++ '"' :: r) =
      .ok ⟨.literal (.byteStr true) (utf8Len s + 3), utf8Len s + 3⟩ := by
  rw [cons_append, cons_append, firstToken_cons (c := ⟨_, r, '"'⟩), lenConsumed,
    utf8Len_byteQuoted '"' rfl]
  rw [tokenKind, if_neg (by decide), if_neg (by decide), if_neg (by decide), if_pos rfl,
    nthChar_zero rfl, if_neg (by decide), if_pos rfl, skip_mk, doubleQuotedString_strChars h,
    ok_bind]
  dsimp only
  rw [literal_noSuffix hr, utf8Len_byteQuoted '"' rfl]

theorem firstToken_char (h : CharChars s) (hr : NoSuffix r) : firstToken ('\'' :: s ++ '\'' :: r) =
      .ok ⟨.literal (.char true) (utf8Len s + 2), utf8Len s + 2⟩ := by
  rw [cons_append, firstToken_cons (c := ⟨_, r, '\''⟩), lenConsumed, utf8Len_quoted '\'' rfl]
  rw [tokenKind, if_neg (by decide), if_neg (by decide), if_neg (by decide),
    if_neg (by decide), if_neg (by rw [isIdStart_apostrophe]; decide), if_neg (by decide),
    show oneSymbol '\'' = none from rfl]
  rw [if_pos rfl, lifetimeOrChar_charChars h hr, utf8Len_quoted '\'' rfl]

theorem firstToken_byte (h : CharChars s) (hr : NoSuffix r) :
    firstToken ('b' :: '\'' :: s ++ '\'' :: r) =
      .ok ⟨.literal (.byte true) (utf8Len s + 3), utf8Len s + 3⟩ := by
  rw [cons_append, cons_append, firstToken_cons (c := ⟨_, r, '\''⟩), lenConsumed,
    utf8Len_byteQuoted '\'' rfl]
  rw [tokenKind, if_neg (by decide), if_neg (by decide), if_neg (by decide), if_pos rfl,
    nthChar_zero rfl, if_pos rfl, skip_mk, singleQuotedString_charChars h, ok_bind]
  dsimp only
  rw [literal_noSuffix hr, utf8Len_byteQuoted '\'' rfl]

theorem strChars_of_firstToken {input : List Char} {n len : Nat}
    (h : firstToken input = .ok ⟨.literal (.str true) n, len⟩) :
    ∃ s rest, input = '"' :: s ++ '"' :: rest ∧ n = utf8Len s + 2 ∧ StrChars s := by
  have hne : input ≠ [] := by
    rintro rfl
    cases h
  obtain ⟨token, s, rest, hrun, hsplit, -, -, hdescribes⟩ := firstToken_spec hne
  obtain rfl := Except.ok.inj (hrun.symm.trans h)
  obtain ⟨body, suffix, rfl, hn, ⟨t, rfl, hstr⟩, -⟩ := hdescribes _ _ rfl
  refine ⟨t, suffix ++ rest, by simpa using hsplit, ?_, hstr rfl⟩
  rw [hn, if_pos rfl, utf8Len_append, nil_append, utf8Len_cons, utf8Len_cons, utf8Len_nil,
    show '"'.utf8Size = 1 from rfl]
  omega

/-- Contents that are unescaped without an error are lexed as a terminated literal that ends at its
closing quote, if no suffix follows. Conversely, in the contents of a terminated string a lone
backslash or a character that is to be escaped, such as a quote, is only reported after another
error. -/
theorem literals_agree :
    (∀ s reports r, unescapeStr s = .ok reports → NoError reports → NoSuffix r →
      firstToken ('"' :: s ++ '"' :: r) =
        .ok ⟨.literal (.str true) (utf8Len s + 2), utf8Len s + 2⟩) ∧
    (∀ s bytes r, unescapeByteStr s = .ok bytes → NoError bytes → NoSuffix r →
      firstToken ('b' :: '"' :: s ++ '"' :: r) =
        .ok ⟨.literal (.byteStr true) (utf8Len s + 3), utf8Len s + 3⟩) ∧
    (∀ s v r, unescapeChar s = .ok v → NoSuffix r → firstToken ('\'' :: s ++ '\'' :: r) =
        .ok ⟨.literal (.char true) (utf8Len s + 2), utf8Len s + 2⟩) ∧
    (∀ s byte r, unescapeByte s = .ok (.ok byte) → NoSuffix r →
      firstToken ('b' :: '\'' :: s ++ '\'' :: r) =
        .ok ⟨.literal (.byte true) (utf8Len s + 3), utf8Len s + 3⟩) ∧
    (∀ input n len, firstToken input = .ok ⟨.literal (.str true) n, len⟩ →
      ∃ s rest reports, input = '"' :: s ++ '"' :: rest ∧ n = utf8Len s + 2 ∧
        unescapeStr s = .ok reports ∧ Excused reports) := by
  refine ⟨fun s reports r h hok => firstToken_str (strChars_of_unescapeStr h hok),
    fun s bytes r h hok => firstToken_byteStr (strChars_of_unescapeByteStr h hok),
    fun s v r h => firstToken_char (charChars_of_unescapeChar h),
    fun s byte r h => firstToken_byte (charChars_of_unescapeByte h), fun input n len h => ?_⟩
  obtain ⟨s, rest, hsplit, hn, hstr⟩ := strChars_of_firstToken h
  obtain ⟨reports, hrun, -, hexcused⟩ := @unescapeStrOrByteStr_spec .str rfl s
  exact ⟨s, rest, reports, hsplit, hn, hrun, hexcused hstr⟩

end

/-- An escaped quote does not end a string. -/
theorem literals_agree_quote :
    @firstToken ⟨fun _ => false, fun _ => false⟩ ['"', 'a', '\\', '"', '"', ';'] =
      .ok ⟨.literal (.str true) 5, 5⟩ :=
  (@literals_agree ⟨fun _ => false, fun _ => false⟩).1 ['a', '\\', '"']
    [⟨0, 1, .ok 'a'⟩, ⟨1, 3, .ok '"'⟩] [';'] (by rfl)
    (forall_mem_cons.2 ⟨⟨'a', rfl⟩, forall_mem_singleton.2 ⟨'"', rfl⟩⟩)
    (fun _ h => by cases h; rfl)

end Tortis.Lexer
