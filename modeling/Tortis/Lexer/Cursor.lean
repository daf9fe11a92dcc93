import Tortis.Lib.Outcome

/-!
# The cursor of the lexer

`librustc_lexer/src/cursor.rs` as it is compiled with debug assertions: a string is the list of its
characters, and positions count the bytes of its UTF-8 encoding. `Eats` says what a scanner has
moved over; `bumpWhile_spec` is the rule for the loops that skip characters of one class.
-/

namespace Tortis.Lexer

open List

/-- `len`: the number of bytes of a string. -/
def utf8Len (s : List Char) : Nat := (s.map Char.utf8Size).sum

def EOF_CHAR : Char := Char.ofNat 0

structure Cursor where
  initialLen : Nat
  chars : List Char
  prev : Char

def debugAssert (cond : Bool) (msg : String) : Outcome Unit :=
  Outcome.assert cond msg

namespace Cursor

def new (input : List Char) : Cursor := ⟨utf8Len input, input, EOF_CHAR⟩

section
variable (c : Cursor)

def nthChar (n : Nat) : Char := c.chars[n]?.getD EOF_CHAR

def isEof : Bool := c.chars.isEmpty

def lenConsumed : Nat := c.initialLen - utf8Len c.chars

def bump : Option Char × Cursor :=
  match c.chars with
  | [] => (none, c)
  | x :: rest => (some x, { c with chars := rest, prev := x })

/-- `bump`, where its value is not used. -/
def skip : Cursor := c.bump.2

end

/-- `while p(self.nth_char(0)) { self.bump(); }`. -/
def bumpWhile (p : Char → Bool) : Nat → Cursor → Outcome Cursor
  | 0, _ => .error .outOfFuel
  | n + 1, c => if p (c.nthChar 0) then bumpWhile p n c.skip else .ok c

/-- More iterations than a loop that moves on has. -/
def fuel (c : Cursor) : Nat := c.chars.length + 1

end Cursor

/-! ## What a scanner moves over -/

@[simp] theorem utf8Len_nil : utf8Len [] = 0 := rfl

@[simp] theorem utf8Len_cons (x : Char) (s : List Char) :
    utf8Len (x :: s) = x.utf8Size + utf8Len s := by
  rw [utf8Len, utf8Len, map_cons, sum_cons]

@[simp] theorem utf8Len_append (s t : List Char) : utf8Len (s ++ t) = utf8Len s + utf8Len t := by
  rw [utf8Len, utf8Len, utf8Len, map_append, sum_append]

section
variable (q : Char) {s r : List Char}

theorem utf8Len_quoted (hq : q.utf8Size = 1) :
    utf8Len (q :: (s ++ q :: r)) - utf8Len r = utf8Len s + 2 := by
  rw [utf8Len_cons, utf8Len_append, utf8Len_cons, hq]
  omega

theorem utf8Len_byteQuoted (hq : q.utf8Size = 1) :
    utf8Len ('b' :: q :: (s ++ q :: r)) - utf8Len r = utf8Len s + 3 := by
  rw [utf8Len_cons, utf8Len_cons, utf8Len_append, utf8Len_cons, hq, show 'b'.utf8Size = 1 from rfl]
  omega

end

/-- The cursor has moved over the characters of a string. -/
structure Eats (c : Cursor) (s : List Char) (c' : Cursor) : Prop where
  chars : c.chars = s ++ c'.chars
  initialLen : c'.initialLen = c.initialLen
  prev : c'.prev = s.getLastD c.prev

section
variable {c c' c'' : Cursor} {s t : List Char} {x : Char}

theorem Eats.refl (c : Cursor) : Eats c [] c := ⟨rfl, rfl, rfl⟩

theorem Eats.trans (h : Eats c s c') (h' : Eats c' t c'') : Eats c (s ++ t) c'' where
  chars := by rw [h.chars, h'.chars, append_assoc]
  initialLen := h'.initialLen.trans h.initialLen
  prev := by
    rw [h'.prev, h.prev]
    cases t with
    | nil => rw [append_nil]; rfl
    | cons x t => simp [getLastD_eq_getLast?, getLast?_append]

theorem eats_skip (h : c.chars = x :: s) : Eats c [x] c.skip := by
  obtain ⟨len, chars, prev⟩ := c
  cases h
  exact ⟨rfl, rfl, rfl⟩

theorem eats_cons (len : Nat) (s : List Char) (p x : Char) :
    Eats ⟨len, x :: s, p⟩ [x] ⟨len, s, x⟩ := eats_skip rfl

theorem bump_eq (h : c.chars = x :: s) : c.bump = (some x, c.skip) := by
  obtain ⟨len, chars, prev⟩ := c
  cases h
  rfl

@[simp] theorem skip_mk (len : Nat) (x : Char) (s : List Char) (prev : Char) :
    (Cursor.mk len (x :: s) prev).skip = ⟨len, s, x⟩ := rfl

@[simp] theorem nthChar_eof (len : Nat) (prev : Char) (n : Nat) :
    (Cursor.mk len [] prev).nthChar n = EOF_CHAR := rfl

theorem nthChar_zero (h : c.chars = x :: s) : c.nthChar 0 = x := by
  rw [Cursor.nthChar, h]
  rfl

theorem nthChar_one (h : c.chars = x :: s) : c.nthChar 1 = s.head?.getD EOF_CHAR := by
  rw [Cursor.nthChar, h, getElem?_cons_succ, head?_eq_getElem?]

theorem chars_of_nthChar (h : c.nthChar 0 = x) (hx : x ≠ EOF_CHAR) : ∃ s, c.chars = x :: s := by
  rw [Cursor.nthChar] at h
  cases hchars : c.chars with
  | nil =>
    rw [hchars] at h
    exact absurd h.symm hx
  | cons y s =>
    rw [hchars] at h
    obtain rfl : y = x := h
    exact ⟨s, rfl⟩

theorem Eats.lenConsumed {input : List Char} (h : Eats (.new input) s c) :
    c.lenConsumed = utf8Len s := by
  have hchars : input = s ++ c.chars := h.chars
  have hlen : c.initialLen = utf8Len input := h.initialLen
  rw [Cursor.lenConsumed, hlen, hchars, utf8Len_append, Nat.add_sub_cancel]

theorem bumpWhile_spec {p : Char → Bool} (hp : p EOF_CHAR = false) :
    ∀ {n : Nat} {c : Cursor}, c.chars.length < n →
      ∃ c', c.bumpWhile p n = .ok c' ∧ Eats c (c.chars.takeWhile p) c'
  | 0, _, h => absurd h (Nat.not_lt_zero _)
  | n + 1, ⟨len, [], prev⟩, _ => by
    refine ⟨⟨len, [], prev⟩, ?_, .refl _⟩
    rw [Cursor.bumpWhile, Cursor.nthChar]
    simp [hp]
  | n + 1, ⟨len, x :: s, prev⟩, h => by
    rw [Cursor.bumpWhile, nthChar_zero rfl, takeWhile_cons]
    cases hx : p x with
    | false => exact ⟨_, rfl, .refl _⟩
    | true =>
      obtain ⟨c', hrun, heats⟩ := bumpWhile_spec (n := n) hp (c := ⟨len, s, x⟩)
        (Nat.lt_of_succ_lt_succ h)
      exact ⟨c', hrun, (eats_skip rfl).trans heats⟩

end

end Tortis.Lexer
