import Tortis.Lexer.Cursor

/-!
# The scanners of the lexer

`librustc_lexer/src/lib.rs` as it is compiled with debug assertions: `advance_token` looks at the
first character of a token and passes the cursor to the scanner of its kind. The tables of the
`unicode_xid` crate are a parameter (`UnicodeXid`), about which nothing is assumed.
-/

namespace Tortis.Lexer

/-- `UnicodeXID`: the classes of identifier characters of the `unicode_xid` crate. -/
class UnicodeXid where
  isXidStart : Char → Bool
  isXidContinue : Char → Bool

inductive Base where
  | binary | octal | hexadecimal | decimal

inductive LiteralKind where
  | int (base : Base) (emptyInt : Bool)
  | float (base : Base) (emptyExponent : Bool)
  | char (terminated : Bool)
  | byte (terminated : Bool)
  | str (terminated : Bool)
  | byteStr (terminated : Bool)
  | rawStr (nHashes : Nat) (started terminated : Bool)
  | rawByteStr (nHashes : Nat) (started terminated : Bool)

inductive TokenKind where
  | lineComment
  | blockComment (terminated : Bool)
  | whitespace
  | ident
  | rawIdent
  | literal (kind : LiteralKind) (suffixStart : Nat)
  | lifetime (startsWithNumber : Bool)
  | semi | comma | dot
  | openParen | closeParen | openBrace | closeBrace | openBracket | closeBracket
  | at | pound | tilde | question | colon | dollar | eq | not | lt | gt | minus | and | or | plus
  | star | slash | caret | percent
  | unknown

structure Token where
  kind : TokenKind
  len : Nat

/-! ## Classes of characters -/

/-- The bounds of a range pattern. -/
def between (lo hi c : Char) : Bool := decide (lo ≤ c) && decide (c ≤ hi)

def isWhitespace (c : Char) : Bool :=
  [0x0009, 0x000A, 0x000B, 0x000C, 0x000D, 0x0020, 0x0085, 0x200E, 0x200F, 0x2028, 0x2029].contains
    c.toNat

/-- `is_digit(10)`, and the pattern `'0'..='9'`. -/
def isDecimalDigit (c : Char) : Bool := between '0' '9' c

/-- The pattern `'0'..='9' | 'a'..='f' | 'A'..='F'`. -/
def isHexadecimalDigit (c : Char) : Bool :=
  between '0' '9' c || between 'a' 'f' c || between 'A' 'F' c

section
variable [UnicodeXid]

def isIdStart (c : Char) : Bool :=
  between 'a' 'z' c || between 'A' 'Z' c || c == '_' ||
    (decide (0x7f < c.toNat) && UnicodeXid.isXidStart c)

def isIdContinue (c : Char) : Bool :=
  between 'a' 'z' c || between 'A' 'Z' c || between '0' '9' c || c == '_' ||
    (decide (0x7f < c.toNat) && UnicodeXid.isXidContinue c)

end

/-! ## Comments, whitespace and identifiers -/

namespace Cursor

def lineCommentLoop : Nat → Cursor → Outcome Cursor
  | 0, _ => .error .outOfFuel
  | n + 1, c =>
    if c.nthChar 0 = '\n' then .ok c
    else if c.nthChar 0 = EOF_CHAR ∧ c.isEof = true then .ok c
    else lineCommentLoop n c.skip

def lineComment (c : Cursor) : Outcome (TokenKind × Cursor) := do
  debugAssert (c.prev == '/' && c.nthChar 0 == '/') "self.prev() == '/' && self.nth_char(0) == '/'"
  let c := c.skip
  let c ← lineCommentLoop c.fuel c
  .ok (.lineComment, c)

def blockCommentLoop : Nat → Nat → Cursor → Outcome (Nat × Cursor)
  | 0, _, _ => .error .outOfFuel
  | n + 1, depth, c =>
    match c.bump with
    | (none, c) => .ok (depth, c)
    | (some x, c) =>
      if x = '/' ∧ c.nthChar 0 = '*' then blockCommentLoop n (depth + 1) c.skip
      else if x = '*' ∧ c.nthChar 0 = '/' then
        let c := c.skip
        let depth := depth - 1
        if depth = 0 then .ok (depth, c) else blockCommentLoop n depth c
      else blockCommentLoop n depth c

def blockComment (c : Cursor) : Outcome (TokenKind × Cursor) := do
  debugAssert (c.prev == '/' && c.nthChar 0 == '*') "self.prev() == '/' && self.nth_char(0) == '*'"
  let c := c.skip
  let (depth, c) ← blockCommentLoop c.fuel 1 c
  .ok (.blockComment (depth == 0), c)

def whitespace (c : Cursor) : Outcome (TokenKind × Cursor) := do
  debugAssert (isWhitespace c.prev) "is_whitespace(self.prev())"
  let c ← c.bumpWhile isWhitespace c.fuel
  .ok (.whitespace, c)

section
variable [UnicodeXid]

def rawIdent (c : Cursor) : Outcome (TokenKind × Cursor) := do
  debugAssert (c.prev == 'r' && c.nthChar 0 == '#' && isIdStart (c.nthChar 1))
    "self.prev() == 'r' && self.nth_char(0) == '#' && is_id_start(self.nth_char(1))"
  let c := c.skip.skip
  let c ← c.bumpWhile isIdContinue c.fuel
  .ok (.rawIdent, c)

def ident (c : Cursor) : Outcome (TokenKind × Cursor) := do
  debugAssert (isIdStart c.prev) "is_id_start(self.prev())"
  let c ← c.bumpWhile isIdContinue c.fuel
  .ok (.ident, c)

def eatLiteralSuffix (c : Cursor) : Outcome Cursor :=
  if !isIdStart (c.nthChar 0) then .ok c
  else
    let c := c.skip
    c.bumpWhile isIdContinue c.fuel

end

/-! ## Numbers -/

def eatDigitsLoop (isDigit : Char → Bool) : Nat → Bool → Cursor → Outcome (Bool × Cursor)
  | 0, _, _ => .error .outOfFuel
  | n + 1, hasDigits, c =>
    if c.nthChar 0 = '_' then eatDigitsLoop isDigit n hasDigits c.skip
    else if isDigit (c.nthChar 0) then eatDigitsLoop isDigit n true c.skip
    else .ok (hasDigits, c)

def eatDecimalDigits (c : Cursor) : Outcome (Bool × Cursor) :=
  eatDigitsLoop isDecimalDigit c.fuel false c

def eatHexadecimalDigits (c : Cursor) : Outcome (Bool × Cursor) :=
  eatDigitsLoop isHexadecimalDigit c.fuel false c

/-- `float_exponent`: whether it is an `Err`. -/
def floatExponent (c : Cursor) : Outcome (Bool × Cursor) := do
  debugAssert (c.prev == 'e' || c.prev == 'E') "self.prev() == 'e' || self.prev() == 'E'"
  let c := if c.nthChar 0 = '-' ∨ c.nthChar 0 = '+' then c.skip else c
  let (hasDigits, c) ← c.eatDecimalDigits
  .ok (!hasDigits, c)

/-- The end of `number`, after the integer part. -/
def numberRest [UnicodeXid] (base : Base) (c : Cursor) : Outcome (LiteralKind × Cursor) :=
  if c.nthChar 0 = '.' ∧ c.nthChar 1 ≠ '.' ∧ isIdStart (c.nthChar 1) = false then do
    let c := c.skip
    if isDecimalDigit (c.nthChar 0) then do
      let (_, c) ← c.eatDecimalDigits
      if c.nthChar 0 = 'e' ∨ c.nthChar 0 = 'E' then do
        let (emptyExponent, c) ← c.skip.floatExponent
        .ok (.float base emptyExponent, c)
      else .ok (.float base false, c)
    else .ok (.float base false, c)
  else if c.nthChar 0 = 'e' ∨ c.nthChar 0 = 'E' then do
    let (emptyExponent, c) ← c.skip.floatExponent
    .ok (.float base emptyExponent, c)
  else .ok (.int base false, c)

/-- The branch of `number` for the prefix of a base. -/
def numberPrefixed [UnicodeXid] (base : Base) (eatDigits : Cursor → Outcome (Bool × Cursor))
    (c : Cursor) : Outcome (LiteralKind × Cursor) := do
  let (hasDigits, c) ← eatDigits c.skip
  if !hasDigits then .ok (.int base true, c) else c.numberRest base

def number [UnicodeXid] (c : Cursor) (firstDigit : Char) : Outcome (LiteralKind × Cursor) := do
  debugAssert (decide ('0' ≤ c.prev) && decide (c.prev ≤ '9'))
    "'0' <= self.prev() && self.prev() <= '9'"
  if firstDigit = '0' then
    let next := c.nthChar 0
    if next = 'b' then c.numberPrefixed .binary eatDecimalDigits
    else if next = 'o' then c.numberPrefixed .octal eatDecimalDigits
    else if next = 'x' then c.numberPrefixed .hexadecimal eatHexadecimalDigits
    else if isDecimalDigit next = true ∨ next = '_' ∨ next = '.' ∨ next = 'e' ∨ next = 'E' then do
      let (_, c) ← c.eatDecimalDigits
      c.numberRest .decimal
    else .ok (.int .decimal false, c)
  else do
    let (_, c) ← c.eatDecimalDigits
    c.numberRest .decimal

/-! ## Quoted literals -/

def singleQuotedLoop : Nat → Bool → Cursor → Outcome (Bool × Cursor)
  | 0, _, _ => .error .outOfFuel
  | n + 1, first, c =>
    if c.nthChar 0 = '/' ∧ first = false then .ok (false, c)
    else if c.nthChar 0 = '\n' ∧ c.nthChar 1 ≠ '\'' then .ok (false, c)
    else if c.nthChar 0 = EOF_CHAR ∧ c.isEof = true then .ok (false, c)
    else if c.nthChar 0 = '\'' then .ok (true, c.skip)
    else if c.nthChar 0 = '\\' then singleQuotedLoop n false c.skip.skip
    else singleQuotedLoop n false c.skip

def singleQuotedString (c : Cursor) : Outcome (Bool × Cursor) := do
  debugAssert (c.prev == '\'') "self.prev() == '\\''"
  -- `'''` is a single literal.
  let c := if c.nthChar 0 = '\'' ∧ c.nthChar 1 = '\'' then c.skip else c
  singleQuotedLoop c.fuel true c

def doubleQuotedLoop : Nat → Cursor → Outcome (Bool × Cursor)
  | 0, _ => .error .outOfFuel
  | n + 1, c =>
    if c.nthChar 0 = '"' then .ok (true, c.skip)
    else if c.nthChar 0 = EOF_CHAR ∧ c.isEof = true then .ok (false, c)
    else if c.nthChar 0 = '\\' ∧ (c.nthChar 1 = '\\' ∨ c.nthChar 1 = '"') then
      doubleQuotedLoop n c.skip.skip
    else doubleQuotedLoop n c.skip

def doubleQuotedString (c : Cursor) : Outcome (Bool × Cursor) := do
  debugAssert (c.prev == '"') "self.prev() == '\"'"
  doubleQuotedLoop c.fuel c

/-- The loop of `raw_double_quoted_string` over the opening `#`s: their number, and whether the
quote follows them. -/
def openingHashes : Nat → Nat → Cursor → Outcome (Nat × Bool × Cursor)
  | 0, _, _ => .error .outOfFuel
  | n + 1, acc, c =>
    match c.bump with
    | (some x, c) =>
      if x = '#' then openingHashes n (acc + 1) c
      else if x = '"' then .ok (acc, true, c)
      else .ok (acc, false, c)
    | (none, c) => .ok (acc, false, c)

/-- The loop of `raw_double_quoted_string` over the closing `#`s: how many are missing. -/
def closingHashes : Nat → Nat → Cursor → Outcome (Nat × Cursor)
  | 0, _, _ => .error .outOfFuel
  | n + 1, acc, c =>
    if c.nthChar 0 = '#' ∧ 0 < acc then closingHashes n (acc - 1) c.skip else .ok (acc, c)

/-- The loop of `raw_double_quoted_string` over the string itself. -/
def rawStringLoop (nHashes : Nat) : Nat → Cursor → Outcome (Bool × Cursor)
  | 0, _ => .error .outOfFuel
  | n + 1, c =>
    match c.bump with
    | (some x, c) =>
      if x = '"' then do
        let (acc, c) ← closingHashes c.fuel nHashes c
        if acc = 0 then .ok (true, c) else rawStringLoop nHashes n c
      else rawStringLoop nHashes n c
    | (none, c) => .ok (false, c)

/-- `raw_double_quoted_string`: the number of `#`s, and whether the string is started and
terminated. -/
def rawDoubleQuotedString (c : Cursor) : Outcome ((Nat × Bool × Bool) × Cursor) := do
  debugAssert (c.prev == 'r') "self.prev() == 'r'"
  let (nHashes, started, c) ← openingHashes c.fuel 0 c
  if started then do
    let (terminated, c) ← rawStringLoop nHashes c.fuel c
    .ok ((nHashes, true, terminated), c)
  else .ok ((nHashes, false, false), c)

/-! ## Tokens -/

section
variable [UnicodeXid]

/-- The end of a literal: a suffix is eaten when it is terminated. -/
def literal (kind : LiteralKind) (terminated : Bool) (c : Cursor) :
    Outcome (TokenKind × Cursor) := do
  let suffixStart := c.lenConsumed
  let c ← if terminated then c.eatLiteralSuffix else .ok c
  .ok (.literal kind suffixStart, c)

def lifetimeOrChar (c : Cursor) : Outcome (TokenKind × Cursor) := do
  debugAssert (c.prev == '\'') "self.prev() == '\\''"
  let startsWithNumber := !isIdStart (c.nthChar 0) && isDecimalDigit (c.nthChar 0)
  if (isIdStart (c.nthChar 0) || startsWithNumber) = true ∧ c.nthChar 1 ≠ '\'' then do
    let c := c.skip
    let c ← c.bumpWhile isIdContinue c.fuel
    if c.nthChar 0 = '\'' then
      let c := c.skip
      .ok (.literal (.char true) c.lenConsumed, c)
    else .ok (.lifetime startsWithNumber, c)
  else do
    let (terminated, c) ← c.singleQuotedString
    c.literal (.char terminated) terminated

def oneSymbol : Char → Option TokenKind
  | ';' => some .semi
  | ',' => some .comma
  | '.' => some .dot
  | '(' => some .openParen
  | ')' => some .closeParen
  | '{' => some .openBrace
  | '}' => some .closeBrace
  | '[' => some .openBracket
  | ']' => some .closeBracket
  | '@' => some .at
  | '#' => some .pound
  | '~' => some .tilde
  | '?' => some .question
  | ':' => some .colon
  | '$' => some .dollar
  | '=' => some .eq
  | '!' => some .not
  | '<' => some .lt
  | '>' => some .gt
  | '-' => some .minus
  | '&' => some .and
  | '|' => some .or
  | '+' => some .plus
  | '*' => some .star
  | '^' => some .caret
  | '%' => some .percent
  | _ => none

def tokenKind (firstChar : Char) (c : Cursor) : Outcome (TokenKind × Cursor) :=
  if firstChar = '/' then
    if c.nthChar 0 = '/' then c.lineComment
    else if c.nthChar 0 = '*' then c.blockComment
    else .ok (.slash, c)
  else if isWhitespace firstChar then c.whitespace
  else if firstChar = 'r' then
    if c.nthChar 0 = '#' ∧ isIdStart (c.nthChar 1) = true then c.rawIdent
    else if c.nthChar 0 = '#' ∨ c.nthChar 0 = '"' then do
      let ((nHashes, started, terminated), c) ← c.rawDoubleQuotedString
      c.literal (.rawStr nHashes started terminated) terminated
    else c.ident
  else if firstChar = 'b' then
    if c.nthChar 0 = '\'' then do
      let (terminated, c) ← c.skip.singleQuotedString
      c.literal (.byte terminated) terminated
    else if c.nthChar 0 = '"' then do
      let (terminated, c) ← c.skip.doubleQuotedString
      c.literal (.byteStr terminated) terminated
    else if c.nthChar 0 = 'r' ∧ (c.nthChar 1 = '"' ∨ c.nthChar 1 = '#') then do
      let ((nHashes, started, terminated), c) ← c.skip.rawDoubleQuotedString
      c.literal (.rawByteStr nHashes started terminated) terminated
    else c.ident
  else if isIdStart firstChar then c.ident
  else if isDecimalDigit firstChar then do
    let (kind, c) ← c.number firstChar
    c.literal kind true
  else match oneSymbol firstChar with
    | some kind => .ok (kind, c)
    | none =>
      if firstChar = '\'' then c.lifetimeOrChar
      else if firstChar = '"' then do
        let (terminated, c) ← c.doubleQuotedString
        c.literal (.str terminated) terminated
      else .ok (.unknown, c)

def advanceToken (c : Cursor) : Outcome Token := do
  let (first, c) := c.bump
  let firstChar ← Outcome.unwrap first
  let (kind, c) ← c.tokenKind firstChar
  .ok ⟨kind, c.lenConsumed⟩

end

end Cursor

section
variable [UnicodeXid]

def firstToken (input : List Char) : Outcome Token := do
  debugAssert (!input.isEmpty) "!input.is_empty()"
  (Cursor.new input).advanceToken

/-- `&input[n..]`: the characters behind `n` bytes, which end at the end of a character. -/
def sliceFrom : Nat → List Char → Outcome (List Char)
  | 0, s => .ok s
  | _ + 1, [] => .error (.panic "byte index is out of bounds")
  | n + 1, x :: s =>
    if x.utf8Size ≤ n + 1 then sliceFrom (n + 1 - x.utf8Size) s
    else .error (.panic "byte index is not a char boundary")

/-- The tokens that the iterator of `tokenize` returns. -/
def tokens : Nat → List Char → Outcome (List Token)
  | 0, _ => .error .outOfFuel
  | n + 1, input =>
    if input.isEmpty then .ok []
    else do
      let token ← firstToken input
      let input ← sliceFrom token.len input
      let rest ← tokens n input
      .ok (token :: rest)

/-- `tokenize`: a token has a character at least. -/
def tokenize (input : List Char) : Outcome (List Token) := tokens (input.length + 1) input

end

end Tortis.Lexer
