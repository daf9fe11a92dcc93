import Tortis.Lexer.Scan
import Tortis.Lib.RunningTotal

/-!
# Comments and raw strings

`block_comment` and `raw_double_quoted_string` (`librustc_lexer/src/lib.rs`) look one character
ahead. A comment is read in pieces, from left to right: an opening `/*`, a closing `*/` or a
character (`pieces`), so that `/*/` is an opening and a slash. The comment ends behind the first
piece with as many closings as openings (`blockCommentLoop_run`).
-/

namespace Tortis.Lexer

open List RunningTotal Cursor

open RunningTotal (Returns Never total)

/-! ## The pieces of a comment -/

/-- A piece of a text, as comments are read. -/
inductive Piece where
  | opening
  | closing
  | char (x : Char)
deriving DecidableEq

def Piece.text : Piece → List Char
  | .opening => ['/', '*']
  | .closing => ['*', '/']
  | .char x => [x]

/-- What a piece does to the depth. -/
def Piece.weight : Piece → Int
  | .opening => 1
  | .closing => -1
  | .char _ => 0

/-- The pieces of a text, read from left to right. -/
def pieces : List Char → List Piece
  | '/' :: '*' :: s => .opening :: pieces s
  | '*' :: '/' :: s => .closing :: pieces s
  | x :: s => .char x :: pieces s
  | [] => []

/-- The characters of pieces. -/
def textOf (ps : List Piece) : List Char := ps.flatMap Piece.text

/-- There are as many openings as closings. -/
def Balanced (ps : List Piece) : Prop := ps.count .opening = ps.count .closing

/-- The first pieces, one at least, after which openings and closings balance. -/
structure FirstBalance (ps pre : List Piece) : Prop where
  isPrefix : pre <+: ps
  nonempty : pre ≠ []
  balanced : Balanced pre
  first : ∀ q, q <+: pre → q ≠ [] → q ≠ pre → ¬ Balanced q

section
variable {x : Char} {s t : List Char} {ps pre : List Piece} {c : Cursor} {n depth : Nat}

theorem pieces_char (hopen : ¬ (x = '/' ∧ s.head? = some '*'))
    (hclose : ¬ (x = '*' ∧ s.head? = some '/')) : pieces (x :: s) = .char x :: pieces s := by
  rw [pieces.eq_def]
  split
  · next heq =>
    cases heq
    exact absurd ⟨rfl, rfl⟩ hopen
  · next heq =>
    cases heq
    exact absurd ⟨rfl, rfl⟩ hclose
  · next heq =>
    cases heq
    rfl
  · next heq => cases heq

example : pieces ['/', '*', '/', '*', '/'] = [.opening, .opening, .char '/'] := rfl

theorem total_weight (ps : List Piece) :
    total Piece.weight ps = ps.count .opening - ps.count .closing := by
  induction ps with
  | nil => rfl
  | cons p ps ih =>
    cases p <;> simp [Piece.weight] <;> omega

theorem balanced_iff : Balanced ps ↔ total Piece.weight ps = 0 := by
  rw [total_weight, Balanced]
  omega

/-- A run of the loop over a comment: it stops behind the first piece that brings the depth to zero,
or at the end of the input where there is none. -/
inductive CommentRun (c : Cursor) (depth : Int) (r : Outcome (Nat × Cursor)) : Prop where
  | closed {pre : List Piece} {c' : Cursor} (isPrefix : pre <+: pieces c.chars)
      (returns : Returns Piece.weight depth pre) (run : r = .ok (0, c'))
      (eats : Eats c (textOf pre) c') : CommentRun c depth r
  | unclosed {d : Nat} {c' : Cursor} (never : Never Piece.weight depth (pieces c.chars))
      (run : r = .ok (d + 1, c')) (eats : Eats c c.chars c') : CommentRun c depth r

theorem CommentRun.cons {p : Piece} {c1 : Cursor} {d : Int} {r : Outcome (Nat × Cursor)}
    (hd : d ≠ 0) (heats : Eats c p.text c1) (hpieces : pieces c.chars = p :: pieces c1.chars)
    (h : CommentRun c1 (d + p.weight) r) : CommentRun c d r := by
  cases h with
  | closed hpre hreturns hrun heats' =>
    refine @CommentRun.closed _ _ _ (p :: _) _ ?_ (returns_cons hd hreturns) hrun
      (heats.trans heats')
    rw [hpieces]
    exact cons_prefix_cons.mpr ⟨rfl, hpre⟩
  | unclosed hnever hrun heats' =>
    refine .unclosed ?_ hrun ?_
    · rw [hpieces]
      exact never_cons hd hnever
    · rw [heats.chars]
      exact heats.trans heats'

theorem blockCommentLoop_run : ∀ {n depth : Nat} {c : Cursor}, c.chars.length < n → 0 < depth →
    CommentRun c depth (c.blockCommentLoop n depth)
  | 0, _, _, h, _ => absurd h (Nat.not_lt_zero _)
  | n + 1, depth + 1, ⟨len, [], p⟩, _, _ =>
    .unclosed (never_nil (Int.natCast_ne_zero_iff_pos.mpr (Nat.succ_pos _))) rfl
      (.refl _)
  | n + 1, depth, ⟨len, x :: s, p⟩, h, hd => by
    have hskip := eats_cons len s p x
    have hlen : s.length < n := Nat.lt_of_succ_lt_succ h
    have hd' : (depth : Int) ≠ 0 := Int.natCast_ne_zero_iff_pos.mpr hd
    have hnext : ∀ y, s.head? = some y → nthChar ⟨len, s, x⟩ 0 = y := by
      intro y hy
      obtain ⟨t, rfl⟩ := head?_eq_some_iff.mp hy
      rfl
    rw [blockCommentLoop, bump_eq rfl]
    dsimp only
    split
    · next hopen =>
      obtain ⟨rfl, hstar⟩ := hopen
      obtain ⟨s, rfl⟩ : ∃ t, s = '*' :: t := chars_of_nthChar hstar (by decide)
      exact .cons (p := .opening) hd' (hskip.trans (eats_skip rfl)) rfl
        (blockCommentLoop_run (Nat.lt_of_succ_lt hlen) (Nat.succ_pos _))
    · next hopen =>
      split
      · next hclose =>
        obtain ⟨rfl, hslash⟩ := hclose
        obtain ⟨s, rfl⟩ : ∃ t, s = '/' :: t := chars_of_nthChar hslash (by decide)
        refine .cons (p := .closing) hd' (hskip.trans (eats_skip rfl)) rfl ?_
        have hdepth : (depth : Int) + Piece.closing.weight = (depth - 1 : Nat) := by
          rw [Piece.weight]
          omega
        rw [hdepth]
        split
        · next hzero =>
          rw [hzero]
          exact .closed ( nil_prefix) returns_nil rfl (.refl _)
        · exact blockCommentLoop_run (Nat.lt_of_succ_lt hlen) (by omega)
      · next hclose =>
        refine .cons (p := .char x) hd' hskip ?_ ?_
        · exact pieces_char (fun h => hopen ⟨h.1, hnext _ h.2⟩) fun h => hclose ⟨h.1, hnext _ h.2⟩
        · exact blockCommentLoop_run hlen hd

theorem firstBalance_of_returns (hpre : pre <+: ps) (h : Returns Piece.weight 1 pre) :
    FirstBalance (.opening :: ps) (.opening :: pre) where
  isPrefix := cons_prefix_cons.mpr ⟨rfl, hpre⟩
  nonempty := cons_ne_nil _ _
  balanced := by
    rw [balanced_iff, total_cons]
    exact h.zero
  first q hq hne hneq := by
    rcases prefix_cons_iff.mp hq with rfl | ⟨q, rfl, hq'⟩
    · exact absurd rfl hne
    · rw [balanced_iff, total_cons]
      exact h.first q hq' fun heq => hneq (by rw [heq])

theorem not_balanced_of_never (h : Never Piece.weight 1 ps) {q : List Piece}
    (hq : q <+: .opening :: ps) (hne : q ≠ []) : ¬ Balanced q := by
  rcases prefix_cons_iff.mp hq with rfl | ⟨q, rfl, hq'⟩
  · exact absurd rfl hne
  · rw [balanced_iff, total_cons]
    exact h q hq'

end

/-! ## The end of a raw string -/

section
variable {x : Char} {s t body : List Char} {c : Cursor} {n k : Nat}

/-- What comes before the contents of a raw string. -/
def rawOpening (n : Nat) : List Char := 'r' :: (replicate n '#' ++ ['"'])

/-- What comes behind the contents of a raw string. -/
def rawClosing (n : Nat) : List Char := '"' :: replicate n '#'

/-- Behind the part `body` of a text comes a quote with enough hashes. -/
def EndsBehind (n : Nat) (text body : List Char) : Prop :=
  ∃ rest, text = body ++ (rawClosing n ++ rest)

/-- The first quote with enough hashes comes behind `body`. -/
structure FirstEnd (n : Nat) (text body : List Char) : Prop where
  ends : EndsBehind n text body
  first : ∀ b, EndsBehind n text b → body.length ≤ b.length

theorem endsBehind_cons (hx : ¬ (x = '"' ∧ replicate n '#' <+: t))
    (h : EndsBehind n (x :: t) body) : ∃ b, body = x :: b ∧ EndsBehind n t b := by
  obtain ⟨rest, hrest⟩ := h
  cases body with
  | nil =>
    obtain ⟨rfl, rfl⟩ := List.cons.inj hrest
    exact absurd ⟨rfl, prefix_append _ _⟩ hx
  | cons y b =>
    obtain ⟨rfl, rfl⟩ := List.cons.inj hrest
    exact ⟨b, rfl, rest, rfl⟩

theorem endsBehind_append (h : EndsBehind n t body) (s : List Char) :
    EndsBehind n (s ++ t) (s ++ body) := by
  obtain ⟨rest, rfl⟩ := h
  exact ⟨rest, (append_assoc _ _ _).symm⟩

theorem endsBehind_hashes (h : EndsBehind n (replicate k '#' ++ t) body) :
    ∃ b, body = replicate k '#' ++ b ∧ EndsBehind n t b := by
  induction k generalizing body with
  | zero => exact ⟨body, rfl, h⟩
  | succ k ih =>
    obtain ⟨b, rfl, hb⟩ := endsBehind_cons (fun h => absurd h.1 (by decide)) h
    obtain ⟨b', rfl, hb'⟩ := ih hb
    exact ⟨b', rfl, hb'⟩

theorem not_isPrefix_hashes (hk : k < n) (ht : ¬ ['#'] <+: t) :
    ¬ replicate n '#' <+: replicate k '#' ++ t := by
  obtain ⟨j, rfl⟩ := Nat.exists_eq_add_of_lt hk
  rw [add_assoc, replicate_add, prefix_append_right_inj, replicate_succ]
  intro h
  exact ht ((prefix_append ['#'] _).trans h)

/-- A run of the loop over a raw string: it stops behind the first quote with enough hashes, or at
the end of the input where there is none. -/
inductive RawRun (n : Nat) (c : Cursor) (r : Outcome (Bool × Cursor)) : Prop where
  | closed {body : List Char} {c' : Cursor} (first : FirstEnd n c.chars body)
      (run : r = .ok (true, c')) (eats : Eats c (body ++ rawClosing n) c') : RawRun n c r
  | unclosed {c' : Cursor} (never : ∀ body, ¬ EndsBehind n c.chars body)
      (run : r = .ok (false, c')) (eats : Eats c c.chars c') : RawRun n c r

theorem RawRun.append {c1 : Cursor} {r : Outcome (Bool × Cursor)} (heats : Eats c s c1)
    (hs : ∀ body, EndsBehind n c.chars body → ∃ b, body = s ++ b ∧ EndsBehind n c1.chars b)
    (h : RawRun n c1 r) : RawRun n c r := by
  cases h with
  | @closed body _ hfirst hrun heats' =>
    refine @RawRun.closed _ _ _ (s ++ body) _ ⟨?_, ?_⟩ hrun ?_
    · rw [heats.chars]
      exact endsBehind_append hfirst.ends s
    · intro b hb
      obtain ⟨b', rfl, hb'⟩ := hs b hb
      have := hfirst.first b' hb'
      rw [length_append, length_append]
      omega
    · rw [append_assoc]
      exact heats.trans heats'
  | unclosed hnever hrun heats' =>
    refine .unclosed (fun body hbody => ?_) hrun ?_
    · obtain ⟨b, -, hb⟩ := hs body hbody
      exact hnever b hb
    · rw [heats.chars]
      exact heats.trans heats'

theorem closingHashes_eats : ∀ {m acc : Nat} {c : Cursor}, c.chars.length < m →
    ∃ k c', c.closingHashes m acc = .ok (acc - k, c') ∧ Eats c (replicate k '#') c' ∧
      k ≤ acc ∧ (k < acc → ¬ ['#'] <+: c'.chars)
  | 0, _, _, h => absurd h (Nat.not_lt_zero _)
  | m + 1, acc, c, h => by
    rw [closingHashes]
    split
    · next hhash =>
      obtain ⟨s, hs⟩ := chars_of_nthChar hhash.1 (by decide)
      have hskip := eats_skip hs
      have hlen : c.skip.chars.length < m := by
        have := congrArg List.length hskip.chars
        rw [length_append, length_singleton] at this
        omega
      obtain ⟨k, c', hrun, heats, hk, hstop⟩ := @closingHashes_eats m (acc - 1) _ hlen
      refine ⟨k + 1, c', ?_, hskip.trans heats, by omega, fun h => hstop (by omega)⟩
      rw [hrun]
      congr 2
      omega
    · next hhash =>
      refine ⟨0, c, rfl, .refl c, Nat.zero_le _, fun hacc ⟨t, ht⟩ => hhash ⟨?_, hacc⟩⟩
      exact nthChar_zero ht.symm

theorem rawStringLoop_run : ∀ {m : Nat} {c : Cursor}, c.chars.length < m →
    RawRun n c (c.rawStringLoop n m)
  | 0, _, h => absurd h (Nat.not_lt_zero _)
  | m + 1, ⟨len, [], p⟩, _ => by
    refine .unclosed (fun body hbody => ?_) rfl (.refl _)
    obtain ⟨rest, hrest⟩ := hbody
    exact absurd hrest (by simp [rawClosing])
  | m + 1, ⟨len, x :: s, p⟩, h => by
    have hskip := eats_cons len s p x
    have hlen : s.length < m := Nat.lt_of_succ_lt_succ h
    rw [rawStringLoop, bump_eq rfl]
    dsimp only
    rw [skip_mk]
    split
    · next hquote =>
      subst hquote
      obtain ⟨k, c1, hrun, heats, hk, hstop⟩ :=
        @closingHashes_eats (fuel ⟨len, s, '"'⟩) n ⟨len, s, '"'⟩ (Nat.lt_succ_self _)
      have hchars : s = replicate k '#' ++ c1.chars := heats.chars
      rw [hrun, Outcome.ok_bind]
      split
      · obtain rfl : k = n := by omega
        exact @RawRun.closed _ _ _ [] _ ⟨⟨c1.chars, congrArg _ hchars⟩, fun b _ => Nat.zero_le _⟩
          rfl (hskip.trans heats)
      · -- Fewer hashes than wanted stand behind the quote, so the string does not end there.
        have hfew : ¬ replicate n '#' <+: s := by
          rw [hchars]
          exact not_isPrefix_hashes (by omega) (hstop (by omega))
        have hshort : c1.chars.length < m := by
          have := congrArg List.length hchars
          rw [length_append] at this
          omega
        refine .append (hskip.trans heats) (fun body hbody => ?_) (rawStringLoop_run hshort)
        obtain ⟨b, rfl, hb⟩ := endsBehind_cons (fun h => hfew h.2) hbody
        rw [hchars] at hb
        obtain ⟨b', rfl, hb'⟩ := endsBehind_hashes hb
        exact ⟨b', rfl, hb'⟩
    · next hquote =>
      exact .append hskip (fun body hbody => endsBehind_cons (fun h => hquote h.1) hbody)
        (rawStringLoop_run hlen)

theorem openingHashes_eq : ∀ (k : Nat) {m acc len : Nat} {p : Char}, k < m →
    openingHashes m acc ⟨len, replicate k '#' ++ '"' :: t, p⟩ =
      .ok (acc + k, true, ⟨len, t, '"'⟩)
  | 0, m + 1, acc, len, p, _ => rfl
  | k + 1, m + 1, acc, len, p, h => by
    rw [replicate_succ, cons_append, openingHashes, bump_eq rfl]
    dsimp only
    rw [if_pos rfl, skip_mk, openingHashes_eq k (Nat.lt_of_succ_lt_succ h), add_assoc, add_comm 1]

end

end Tortis.Lexer
