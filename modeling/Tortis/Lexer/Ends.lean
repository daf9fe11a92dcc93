import Tortis.Lexer.Lossless

/-!
# Where nested comments and raw strings end

The first token of an input that starts with `/*`, and of one that starts with `r`, hashes and a
quote (`firstToken_ends`): the loops over comments and raw strings end where they should, and the
rest of the scanner adds what comes before them and the suffix of the literal.
-/

namespace Tortis.Lexer

open Outcome Cursor

section
variable {x : Char} {t : List Char} {n : Nat} {c' : Cursor}

theorem firstToken_of_tokenKind [UnicodeXid] {input : List Char} {kind : TokenKind}
    (h : tokenKind x ⟨utf8Len (x :: input), input, x⟩ = .ok (kind, c')) :
    firstToken (x :: input) = .ok ⟨kind, c'.lenConsumed⟩ := by
  rw [firstToken, advanceToken, bump_eq rfl]
  dsimp only [debugAssert, assert, List.isEmpty, Bool.not_false, Cursor.new]
  rw [skip_mk, unwrap_some, ok_bind, h]
  rfl

theorem firstToken_of_comment [UnicodeXid] {rest : List Char} {d : Nat}
    (h : blockCommentLoop (rest.length + 1) 1
      ⟨utf8Len ('/' :: '*' :: rest), rest, '*'⟩ = .ok (d, c')) :
    firstToken ('/' :: '*' :: rest) = .ok ⟨.blockComment (d == 0), c'.lenConsumed⟩ := by
  refine firstToken_of_tokenKind ?_
  rw [tokenKind, if_pos rfl, nthChar_zero rfl, if_neg (by decide), if_pos rfl,
    blockComment, nthChar_zero rfl]
  dsimp only [debugAssert, assert, skip_mk, fuel]
  rw [h]
  rfl

theorem firstToken_comment [UnicodeXid] (rest : List Char) :
    (∃ pre, FirstBalance (pieces ('/' :: '*' :: rest)) pre ∧
      firstToken ('/' :: '*' :: rest) = .ok ⟨.blockComment true, utf8Len (textOf pre)⟩) ∨
    ((∀ pre, pre <+: pieces ('/' :: '*' :: rest) → pre ≠ [] → ¬ Balanced pre) ∧
      firstToken ('/' :: '*' :: rest) =
        .ok ⟨.blockComment false, utf8Len ('/' :: '*' :: rest)⟩) := by
  have hopened : Eats (.new ('/' :: '*' :: rest)) ['/', '*']
      ⟨utf8Len ('/' :: '*' :: rest), rest, '*'⟩ := ⟨rfl, rfl, rfl⟩
  rcases blockCommentLoop_run (c := ⟨utf8Len ('/' :: '*' :: rest), rest, '*'⟩)
    (Nat.lt_succ_self _) Nat.one_pos with ⟨hpre, hreturns, hrun, heats⟩ | ⟨hnever, hrun, heats⟩
  · refine .inl ⟨_, firstBalance_of_returns hpre hreturns, ?_⟩
    rw [firstToken_of_comment hrun, (hopened.trans heats).lenConsumed]
    rfl
  · refine .inr ⟨fun q hq hne => not_balanced_of_never hnever hq hne, ?_⟩
    rw [firstToken_of_comment hrun, (hopened.trans heats).lenConsumed]
    rfl

variable {terminated : Bool}

theorem rawDoubleQuotedString_eq {len : Nat}
    (h : rawStringLoop n (t.length + 1) ⟨len, t, '"'⟩ = .ok (terminated, c')) :
    rawDoubleQuotedString ⟨len, List.replicate n '#' ++ '"' :: t, 'r'⟩ =
      .ok ((n, true, terminated), c') := by
  have hfuel : n < fuel ⟨len, List.replicate n '#' ++ '"' :: t, 'r'⟩ := by
    rw [fuel, List.length_append, List.length_replicate]
    omega
  rw [rawDoubleQuotedString, assert_prev rfl, ok_bind, openingHashes_eq n hfuel, ok_bind, zero_add]
  dsimp only [fuel]
  rw [if_pos rfl, h]
  rfl

theorem rawStart [UnicodeXid] (n len : Nat) :
    let c : Cursor := ⟨len, List.replicate n '#' ++ '"' :: t, 'r'⟩
    (c.nthChar 0 = '#' ∨ c.nthChar 0 = '"') ∧
      ¬ (c.nthChar 0 = '#' ∧ isIdStart (c.nthChar 1) = true) := by
  have hhash : ¬ isIdStart '#' = true := by simp [isIdStart, between]
  have hquote : ¬ isIdStart '"' = true := by simp [isIdStart, between]
  rcases n with _ | _ | n
  · exact ⟨.inr rfl, fun h => absurd h.1 (by decide : '"' ≠ '#')⟩
  · exact ⟨.inl rfl, fun h => hquote h.2⟩
  · exact ⟨.inl rfl, fun h => hhash h.2⟩

theorem firstToken_of_raw [UnicodeXid] {c1 c2 : Cursor}
    (h : rawStringLoop n (t.length + 1) ⟨utf8Len (rawOpening n ++ t), t, '"'⟩ =
      .ok (terminated, c1))
    (hsuffix : (if terminated then c1.eatLiteralSuffix else .ok c1) = .ok c2) :
    firstToken (rawOpening n ++ t) =
      .ok ⟨.literal (.rawStr n true terminated) c1.lenConsumed, c2.lenConsumed⟩ := by
  have hinput : rawOpening n ++ t = 'r' :: (List.replicate n '#' ++ '"' :: t) := by
    simp [rawOpening]
  rw [hinput] at h ⊢
  refine firstToken_of_tokenKind ?_
  obtain ⟨hstart, hnext⟩ := rawStart (t := t) n (utf8Len ('r' :: (List.replicate n '#' ++ '"' :: t)))
  rw [tokenKind, if_neg (by decide), if_neg (by decide), if_pos rfl, if_neg hnext,
    if_pos hstart, rawDoubleQuotedString_eq h, ok_bind]
  dsimp only [literal]
  cases terminated with
  | true =>
    rw [if_pos rfl] at hsuffix ⊢
    rw [hsuffix]
    rfl
  | false =>
    cases hsuffix
    rfl

theorem firstToken_raw [UnicodeXid] (n : Nat) (text : List Char) :
    (∃ body suffix, FirstEnd n text body ∧ firstToken (rawOpening n ++ text) =
        .ok ⟨.literal (.rawStr n true true) (utf8Len (rawOpening n ++ body ++ rawClosing n)),
          utf8Len (rawOpening n ++ body ++ rawClosing n ++ suffix)⟩) ∨
    ((∀ body, ¬ EndsBehind n text body) ∧ firstToken (rawOpening n ++ text) =
        .ok ⟨.literal (.rawStr n true false) (utf8Len (rawOpening n ++ text)),
          utf8Len (rawOpening n ++ text)⟩) := by
  have hopened : Eats (.new (rawOpening n ++ text)) (rawOpening n)
      ⟨utf8Len (rawOpening n ++ text), text, '"'⟩ := by
    refine ⟨rfl, rfl, ?_⟩
    simp [rawOpening, List.getLastD_eq_getLast?, List.getLast?_cons]
  rcases rawStringLoop_run (n := n) (c := ⟨utf8Len (rawOpening n ++ text), text, '"'⟩)
    (Nat.lt_succ_self _) with ⟨hfirst, hrun, heats⟩ | ⟨hnever, hrun, heats⟩
  · obtain ⟨c2, suffix, hsuffix, heats', -⟩ := eatLiteralSuffix_spec _
    refine .inl ⟨_, suffix, hfirst, ?_⟩
    rw [firstToken_of_raw hrun hsuffix, (hopened.trans heats).lenConsumed,
      ((hopened.trans heats).trans heats').lenConsumed, ← List.append_assoc (rawOpening n)]
  · refine .inr ⟨hnever, ?_⟩
    rw [firstToken_of_raw hrun rfl, (hopened.trans heats).lenConsumed]

end

/-- Nested comments and raw strings end where they should. -/
theorem firstToken_ends [UnicodeXid] : (∀ rest : List Char,
      (∃ pre, FirstBalance (pieces ('/' :: '*' :: rest)) pre ∧
        firstToken ('/' :: '*' :: rest) = .ok ⟨.blockComment true, utf8Len (textOf pre)⟩) ∨
      ((∀ pre, pre <+: pieces ('/' :: '*' :: rest) → pre ≠ [] → ¬ Balanced pre) ∧
        firstToken ('/' :: '*' :: rest) =
          .ok ⟨.blockComment false, utf8Len ('/' :: '*' :: rest)⟩)) ∧
    ∀ (n : Nat) (text : List Char), (∃ body suffix, FirstEnd n text body ∧
        firstToken (rawOpening n ++ text) =
          .ok ⟨.literal (.rawStr n true true) (utf8Len (rawOpening n ++ body ++ rawClosing n)),
            utf8Len (rawOpening n ++ body ++ rawClosing n ++ suffix)⟩) ∨
      ((∀ body, ¬ EndsBehind n text body) ∧ firstToken (rawOpening n ++ text) =
          .ok ⟨.literal (.rawStr n true false) (utf8Len (rawOpening n ++ text)),
            utf8Len (rawOpening n ++ text)⟩) :=
  ⟨firstToken_comment, firstToken_raw⟩

end Tortis.Lexer
