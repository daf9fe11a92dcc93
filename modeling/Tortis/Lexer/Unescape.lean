import Tortis.Lexer.Cursor

/-!
# Unescaping literals

`librustc_lexer/src/unescape.rs`: the contents of a literal, without its quotes, are turned into the
characters that they stand for. `scan_escape` leaves the characters that it has not read, and the
callbacks of a string are the list of its reports. The number of digits of a Unicode escape and its
value wrap around, as in a compiler without overflow checks.
-/

namespace Tortis.Lexer

inductive EscapeError where
  | zeroChars | moreThanOneChar
  | loneSlash | invalidEscape | bareCarriageReturn | bareCarriageReturnInRawString | escapeOnlyChar
  | tooShortHexEscape | invalidCharInHexEscape | outOfRangeHexEscape
  | noBraceInUnicodeEscape | invalidCharInUnicodeEscape | emptyUnicodeEscape | unclosedUnicodeEscape
  | leadingUnderscoreUnicodeEscape | overlongUnicodeEscape | loneSurrogateUnicodeEscape
  | outOfRangeUnicodeEscape
  | unicodeEscapeInByte | nonAsciiCharInByte | nonAsciiCharInByteString

inductive Mode where
  | char | str | byte | byteStr

def Mode.inSingleQuotes : Mode → Bool
  | .char | .byte => true
  | .str | .byteStr => false

def Mode.inDoubleQuotes (mode : Mode) : Bool := !mode.inSingleQuotes

def Mode.isBytes : Mode → Bool
  | .byte | .byteStr => true
  | .char | .str => false

abbrev Unescaped := Except EscapeError Char

def isAscii (x : Nat) : Bool := x ≤ 0x7F

def toDigit16 (c : Char) : Option Nat :=
  if '0' ≤ c ∧ c ≤ '9' then some (c.toNat - '0'.toNat)
  else if 'a' ≤ c ∧ c ≤ 'f' then some (c.toNat - 'a'.toNat + 10)
  else if 'A' ≤ c ∧ c ≤ 'F' then some (c.toNat - 'A'.toNat + 10)
  else none

def charFromU32 (value : UInt32) : Option Char :=
  if value.toNat.isValidChar then some (Char.ofNat value.toNat) else none

/-- The escape of two hexadecimal digits in `scan_escape`, and the characters behind it. -/
def scanHexEscape (mode : Mode) : List Char → Unescaped × List Char
  | [] => (.error .tooShortHexEscape, [])
  | hi :: chars =>
    match toDigit16 hi with
    | none => (.error .invalidCharInHexEscape, chars)
    | some hi =>
      match chars with
      | [] => (.error .tooShortHexEscape, [])
      | lo :: chars =>
        match toDigit16 lo with
        | none => (.error .invalidCharInHexEscape, chars)
        | some lo =>
          let value := hi * 16 + lo
          if !mode.isBytes && !isAscii value then (.error .outOfRangeHexEscape, chars)
          else (.ok (Char.ofNat value), chars)

/-- The loop of `scan_escape` over the digits of a Unicode escape. -/
def scanUnicodeDigits (mode : Mode) : Int32 → UInt32 → List Char → Unescaped × List Char
  | _, _, [] => (.error .unclosedUnicodeEscape, [])
  | nDigits, value, c :: chars =>
    if c = '_' then scanUnicodeDigits mode nDigits value chars
    else if c = '}' then
      if 6 < nDigits then (.error .overlongUnicodeEscape, chars)
      else if mode.isBytes then (.error .unicodeEscapeInByte, chars)
      else match charFromU32 value with
        | some c => (.ok c, chars)
        | none =>
          (.error (if 0x10FFFF < value then .outOfRangeUnicodeEscape
            else .loneSurrogateUnicodeEscape), chars)
    else match toDigit16 c with
      | none => (.error .invalidCharInUnicodeEscape, chars)
      | some digit =>
        let nDigits := nDigits + 1
        if 6 < nDigits then scanUnicodeDigits mode nDigits value chars
        else scanUnicodeDigits mode nDigits (value * 16 + UInt32.ofNat digit) chars

/-- The Unicode escape in `scan_escape`, and the characters behind it. -/
def scanUnicodeEscape (mode : Mode) : List Char → Unescaped × List Char
  | [] => (.error .noBraceInUnicodeEscape, [])
  | brace :: chars =>
    if brace ≠ '{' then (.error .noBraceInUnicodeEscape, chars)
    else match chars with
      | [] => (.error .unclosedUnicodeEscape, [])
      | c :: chars =>
        if c = '_' then (.error .leadingUnderscoreUnicodeEscape, chars)
        else if c = '}' then (.error .emptyUnicodeEscape, chars)
        else match toDigit16 c with
          | none => (.error .invalidCharInUnicodeEscape, chars)
          | some value => scanUnicodeDigits mode 1 (UInt32.ofNat value) chars

def simpleEscape : Char → Option Char
  | '"' => some '"'
  | 'n' => some '\n'
  | 'r' => some '\r'
  | 't' => some '\t'
  | '\\' => some '\\'
  | '\'' => some '\''
  | '0' => some (Char.ofNat 0)
  | _ => none

def scanChar (firstChar : Char) (mode : Mode) : Unescaped :=
  if firstChar = '\t' ∨ firstChar = '\n' then .error .escapeOnlyChar
  else if firstChar = '\r' then .error .bareCarriageReturn
  else if firstChar = '\'' ∧ mode.inSingleQuotes = true then .error .escapeOnlyChar
  else if firstChar = '"' ∧ mode.inDoubleQuotes = true then .error .escapeOnlyChar
  else if mode.isBytes && !isAscii firstChar.toNat then .error .nonAsciiCharInByte
  else .ok firstChar

/-- `scan_escape`: the result, and the characters that are left. -/
def scanEscape (firstChar : Char) (chars : List Char) (mode : Mode) : Unescaped × List Char :=
  if firstChar ≠ '\\' then (scanChar firstChar mode, chars)
  else match chars with
    | [] => (.error .loneSlash, [])
    | secondChar :: chars =>
      match simpleEscape secondChar with
      | some c => (.ok c, chars)
      | none =>
        if secondChar = 'x' then scanHexEscape mode chars
        else if secondChar = 'u' then scanUnicodeEscape mode chars
        else (.error .invalidEscape, chars)

def unescapeCharOrByte (chars : List Char) (mode : Mode) : Unescaped × List Char :=
  match chars with
  | [] => (.error .zeroChars, [])
  | firstChar :: chars =>
    match scanEscape firstChar chars mode with
    | (.error e, chars) => (.error e, chars)
    | (.ok res, []) => (.ok res, [])
    | (.ok _, _ :: chars) => (.error .moreThanOneChar, chars)

def unescapeChar (literalText : List Char) : Except (Nat × EscapeError) Char :=
  match unescapeCharOrByte literalText .char with
  | (.ok c, _) => .ok c
  | (.error e, chars) => .error (utf8Len literalText - utf8Len chars, e)

def byteFromChar (c : Char) : Outcome UInt8 := do
  Outcome.assert (c.toNat ≤ 0xFF) "guaranteed because of Mode::Byte(Str)"
  .ok (UInt8.ofNat c.toNat)

def unescapeByte (literalText : List Char) : Outcome (Except (Nat × EscapeError) UInt8) :=
  match unescapeCharOrByte literalText .byte with
  | (.ok c, _) => do
    let byte ← byteFromChar c
    .ok (.ok byte)
  | (.error e, chars) => .ok (.error (utf8Len literalText - utf8Len chars, e))

/-! ## Strings -/

/-- A call of the callback. -/
structure Report (α : Type) where
  start : Nat
  stop : Nat
  result : Except EscapeError α

def isSkipped (c : Char) : Bool := c == ' ' || c == '\t' || c == '\n' || c == '\r'

def skipAsciiWhitespace (chars : List Char) : List Char := chars.dropWhile isSkipped

/-- The result for one character of a string, and the characters that are left. -/
def unescapeOne (firstChar : Char) (chars : List Char) (mode : Mode) : Unescaped × List Char :=
  if firstChar = '\n' then (.ok '\n', chars)
  else if firstChar = '\t' then (.ok '\t', chars)
  else scanEscape firstChar chars mode

def unescapeLoop (mode : Mode) (initialLen : Nat) : Nat → List Char → Outcome (List (Report Char))
  | _, [] => .ok []
  | 0, _ :: _ => .error .outOfFuel
  | n + 1, firstChar :: chars =>
    if firstChar = '\\' ∧ chars.head? = some '\n' then
      unescapeLoop mode initialLen n (skipAsciiWhitespace chars)
    else do
      let start := initialLen - utf8Len chars - firstChar.utf8Size
      let (result, chars) := unescapeOne firstChar chars mode
      let stop := initialLen - utf8Len chars
      let reports ← unescapeLoop mode initialLen n chars
      .ok (⟨start, stop, result⟩ :: reports)

/-- `unescape_str_or_byte_str`: each iteration reads a character at least. -/
def unescapeStrOrByteStr (src : List Char) (mode : Mode) : Outcome (List (Report Char)) := do
  Outcome.assert mode.inDoubleQuotes "assertion failed: mode.in_double_quotes()"
  unescapeLoop mode (utf8Len src) src.length src

section
variable (literalText : List Char)

def unescapeStr : Outcome (List (Report Char)) :=
  unescapeStrOrByteStr literalText .str

def byteReport (report : Report Char) : Outcome (Report UInt8) :=
  match report.result with
  | .ok c => do
    let byte ← byteFromChar c
    .ok ⟨report.start, report.stop, .ok byte⟩
  | .error e => .ok ⟨report.start, report.stop, .error e⟩

def unescapeByteStr : Outcome (List (Report UInt8)) := do
  let reports ← unescapeStrOrByteStr literalText .byteStr
  reports.mapM byteReport

/-! ## Raw strings -/

def unescapeRawOne (curr : Char) (mode : Mode) : Unescaped :=
  if curr = '\r' then .error .bareCarriageReturnInRawString
  else if mode.isBytes && !isAscii curr.toNat then .error .nonAsciiCharInByteString
  else .ok curr

def unescapeRawLoop (mode : Mode) (initialLen : Nat) : List Char → List (Report Char)
  | [] => []
  | curr :: chars =>
    let start := initialLen - utf8Len chars - curr.utf8Size
    let stop := initialLen - utf8Len chars
    ⟨start, stop, unescapeRawOne curr mode⟩ :: unescapeRawLoop mode initialLen chars

def unescapeRawStrOrByteStr (mode : Mode) :
    Outcome (List (Report Char)) := do
  Outcome.assert mode.inDoubleQuotes "assertion failed: mode.in_double_quotes()"
  .ok (unescapeRawLoop mode (utf8Len literalText) literalText)

def unescapeRawStr : Outcome (List (Report Char)) :=
  unescapeRawStrOrByteStr literalText .str

def unescapeRawByteStr : Outcome (List (Report UInt8)) := do
  let reports ← unescapeRawStrOrByteStr literalText .byteStr
  reports.mapM byteReport

end

end Tortis.Lexer
