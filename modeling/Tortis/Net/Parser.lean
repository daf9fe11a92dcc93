import Tortis.Lib.Outcome

/-!
# Internet addresses and their parser

`Ipv4Addr` and `Ipv6Addr` of `libstd/net/ip.rs`, and how an `Ipv6Addr` is displayed. A text is the
list of its bytes.

The parser of `libstd/net/parser.rs`, as far as addresses go. The position of a `Parser` is given by
the bytes from there on.
-/

namespace Tortis.Net

/-! ## Addresses -/

/-- `Ipv4Addr`, by its octets. -/
structure Ipv4Addr where
  a : UInt8
  b : UInt8
  c : UInt8
  d : UInt8

structure Ipv6Addr where
  s6Addr : Vector UInt8 16

inductive IpAddr where
  | v4 (ip : Ipv4Addr)
  | v6 (ip : Ipv6Addr)

def fromBeBytes (hi lo : UInt8) : UInt16 := hi.toUInt16 <<< 8 ||| lo.toUInt16

namespace Ipv6Addr

def new (a b c d e f g h : UInt16) : Ipv6Addr :=
  ⟨#v[(a >>> 8).toUInt8, a.toUInt8, (b >>> 8).toUInt8, b.toUInt8, (c >>> 8).toUInt8, c.toUInt8,
    (d >>> 8).toUInt8, d.toUInt8, (e >>> 8).toUInt8, e.toUInt8, (f >>> 8).toUInt8, f.toUInt8,
    (g >>> 8).toUInt8, g.toUInt8, (h >>> 8).toUInt8, h.toUInt8]⟩

/-- `Ipv6Addr::new` of the elements of an array of eight groups. -/
def ofArray (gs : List UInt16) : Ipv6Addr :=
  new (gs.getD 0 0) (gs.getD 1 0) (gs.getD 2 0) (gs.getD 3 0) (gs.getD 4 0) (gs.getD 5 0)
    (gs.getD 6 0) (gs.getD 7 0)

def segments (self : Ipv6Addr) : List UInt16 :=
  let arr := self.s6Addr
  [fromBeBytes arr[0] arr[1], fromBeBytes arr[2] arr[3], fromBeBytes arr[4] arr[5],
    fromBeBytes arr[6] arr[7], fromBeBytes arr[8] arr[9], fromBeBytes arr[10] arr[11],
    fromBeBytes arr[12] arr[13], fromBeBytes arr[14] arr[15]]

end Ipv6Addr

/-! ## Display -/

def ascii (c : Char) : UInt8 := UInt8.ofNat c.toNat

def text (s : String) : List UInt8 := s.toList.map ascii

/-- `digit` of `LowerHex`, and of the decimal digits. -/
def digitOf (x : Nat) : UInt8 := if x < 10 then ascii '0' + UInt8.ofNat x
  else ascii 'a' + UInt8.ofNat (x - 10)

/-- `fmt_int`: the digits of the number before those that are written. The fuel is the size of the
buffer. -/
def fmtInt (base : Nat) : Nat → Nat → List UInt8 → List UInt8
  | 0, _, buf => buf
  | n + 1, x, buf =>
    let buf := digitOf (x % base) :: buf
    let x := x / base
    if x = 0 then buf else fmtInt base n x buf

def lowerHex (x : UInt16) : List UInt8 := fmtInt 16 128 x.toNat []

/-- `{}` of a byte. -/
def display (x : UInt8) : List UInt8 := fmtInt 10 128 x.toNat []

/-- `{}.{}.{}.{}` of the bytes of two groups. -/
def fmtQuad (g h : UInt16) : List UInt8 :=
  display (g >>> 8).toUInt8 ++ text "." ++ display g.toUInt8 ++ text "." ++
    display (h >>> 8).toUInt8 ++ text "." ++ display h.toUInt8

/-- The state of the loop of `find_zero_slice`. -/
structure Span where
  longestSpanLen : Nat
  longestSpanAt : Nat
  curSpanLen : Nat
  curSpanAt : Nat

/-- The body of the loop of `find_zero_slice`. -/
def Span.step (segments : List UInt16) (s : Span) (i : Nat) : Span :=
  if segments.getD i 0 = 0 then
    let curSpanAt := if s.curSpanLen = 0 then i else s.curSpanAt
    let curSpanLen := s.curSpanLen + 1
    if s.longestSpanLen < curSpanLen then ⟨curSpanLen, curSpanAt, curSpanLen, curSpanAt⟩
    else ⟨s.longestSpanLen, s.longestSpanAt, curSpanLen, curSpanAt⟩
  else ⟨s.longestSpanLen, s.longestSpanAt, 0, 0⟩

def findZeroSlice (segments : List UInt16) : Nat × Nat :=
  let s := (List.range 8).foldl (Span.step segments) ⟨0, 0, 0, 0⟩
  (s.longestSpanAt, s.longestSpanLen)

def fmtSubslice : List UInt16 → List UInt8
  | [] => []
  | seg :: segments => lowerHex seg ++ segments.flatMap fun seg => text ":" ++ lowerHex seg

/-- `Display for Ipv6Addr`. -/
def Ipv6Addr.fmt (self : Ipv6Addr) : List UInt8 :=
  let segments := self.segments
  let g := segments.getD 6 0
  let h := segments.getD 7 0
  if segments = [0, 0, 0, 0, 0, 0, 0, 0] then text "::"
  else if segments = [0, 0, 0, 0, 0, 0, 0, 1] then text "::1"
  else if segments.take 6 = [0, 0, 0, 0, 0, 0] then text "::" ++ fmtQuad g h
  else if segments.take 6 = [0, 0, 0, 0, 0, 0xffff] then text "::ffff:" ++ fmtQuad g h
  else
    let (zerosAt, zerosLen) := findZeroSlice segments
    if 1 < zerosLen then
      fmtSubslice (segments.take zerosAt) ++ text "::" ++
        fmtSubslice (segments.drop (zerosAt + zerosLen))
    else fmtSubslice segments

/-! ## Parsing internet addresses -/

/-- A parser: what it returns, and the bytes from the position it is left at on. -/
abbrev Parser (α : Type) := List UInt8 → Outcome (Option α × List UInt8)

section
variable {α : Type}

def readAtomically (cb : Parser α) : Parser α := fun pos => do
  let (r, p) ← cb pos
  if r.isNone then .ok (r, pos) else .ok (r, p)

def readTillEof (cb : Parser α) : Parser α := readAtomically fun p => do
  let (r, p) ← cb p
  .ok (r.filter fun _ => p.isEmpty, p)

def readOr : List (Parser α) → Parser α
  | [], p => .ok (none, p)
  | pf :: parsers, p => do
    let (r, p) ← readAtomically pf p
    match r with
    | some r => .ok (some r, p)
    | none => readOr parsers p

end

def readChar : Parser UInt8
  | [] => .ok (none, [])
  | c :: p => .ok (some c, p)

def readGivenChar (c : Char) : Parser UInt8 := readAtomically fun p => do
  let (next, p) ← readChar p
  .ok (next.filter (· = ascii c), p)

def parseDigit (c radix : UInt8) : Option UInt8 :=
  if ascii '0' ≤ c ∧ c ≤ ascii '9' then some (c - ascii '0')
  else if 10 < radix ∧ ascii 'a' ≤ c ∧ c < ascii 'a' + (radix - 10) then
    some (c - ascii 'a' + 10)
  else if 10 < radix ∧ ascii 'A' ≤ c ∧ c < ascii 'A' + (radix - 10) then
    some (c - ascii 'A' + 10)
  else none

def readDigit (radix : UInt8) : Parser UInt8 := readAtomically fun p => do
  let (c, p) ← readChar p
  .ok (c.bind fun c => parseDigit c radix, p)

def readNumberLoop (radix : UInt8) (maxDigits upto : Nat) : Nat → Nat → Nat → Parser Nat
  | 0, _, _, _ => .error .outOfFuel
  | n + 1, r, digitCount, p => do
    let (d, p) ← readDigit radix p
    match d with
    | some d =>
      let r := r * radix.toNat + d.toNat
      let digitCount := digitCount + 1
      if maxDigits < digitCount ∨ upto ≤ r then .ok (none, p)
      else readNumberLoop radix maxDigits upto n r digitCount p
    | none => if digitCount = 0 then .ok (none, p) else .ok (some r, p)

def readNumberImpl (radix : UInt8) (maxDigits upto : Nat) : Parser Nat :=
  readNumberLoop radix maxDigits upto (maxDigits + 1) 0 0

def readNumber (radix : UInt8) (maxDigits upto : Nat) : Parser Nat :=
  readAtomically (readNumberImpl radix maxDigits upto)

/-- `i == 0 || self.read_given_char(c).is_some()`. -/
def readSep (c : Char) (i : Nat) (p : List UInt8) : Outcome (Bool × List UInt8) :=
  if i = 0 then .ok (true, p)
  else do
    let (r, p) ← readGivenChar c p
    .ok (r.isSome, p)

/-- The loop of `read_ipv4_addr_impl`, with the number of iterations that are left. -/
def readOctets : Nat → Nat → List UInt8 → Parser (List UInt8)
  | 0, _, bs, p => .ok (some bs, p)
  | n + 1, i, bs, p => do
    let (sep, p) ← readSep '.' i p
    if sep then do
      let (b, p) ← readNumber 10 3 0x100 p
      match b with
      | some b => readOctets n (i + 1) (bs.set i (UInt8.ofNat b)) p
      | none => .ok (none, p)
    else .ok (none, p)

def readIpv4AddrImpl : Parser Ipv4Addr := fun p => do
  let (bs, p) ← readOctets 4 0 [0, 0, 0, 0] p
  .ok (bs.map fun bs => ⟨bs.getD 0 0, bs.getD 1 0, bs.getD 2 0, bs.getD 3 0⟩, p)

def readIpv4Addr : Parser Ipv4Addr := readAtomically readIpv4AddrImpl

def ipv6AddrFromHeadTail (head tail : List UInt16) : Outcome Ipv6Addr := do
  Outcome.assert (head.length + tail.length ≤ 8)
    "assertion failed: head.len() + tail.len() <= 8"
  let gs := List.replicate 8 0
  let gs := head ++ gs.drop head.length
  let gs := gs.take (8 - tail.length) ++ tail
  .ok (Ipv6Addr.ofArray gs)

/-- The attempt of `read_groups` to read an IPv4 address. -/
def readIpv4Part (i : Nat) : Parser Ipv4Addr := readAtomically fun p => do
  let (sep, p) ← readSep ':' i p
  if sep then readIpv4Addr p else .ok (none, p)

def readGroup (i : Nat) : Parser UInt16 := readAtomically fun p => do
  let (sep, p) ← readSep ':' i p
  if sep then do
    let (n, p) ← readNumber 16 4 0x10000 p
    .ok (n.map UInt16.ofNat, p)
  else .ok (none, p)

/-- The condition and the attempt of `read_groups` to read an IPv4 address. -/
def readIpv4Within (limit i : Nat) : Parser Ipv4Addr :=
  if i < limit - 1 then readIpv4Part i else fun p => .ok (none, p)

/-- `read_groups`: the number of groups, whether the last two are an IPv4 address, and the array. -/
def readGroups (limit : Nat) : Nat → Nat → List UInt16 → List UInt8 →
    Outcome ((Nat × Bool) × List UInt16 × List UInt8)
  | 0, _, _, _ => .error .outOfFuel
  | n + 1, i, groups, p =>
    if i < limit then do
      let (ipv4, p) ← readIpv4Within limit i p
      match ipv4 with
      | some v4 =>
        let groups := groups.set i (v4.a.toUInt16 <<< 8 ||| v4.b.toUInt16)
        let groups := groups.set (i + 1) (v4.c.toUInt16 <<< 8 ||| v4.d.toUInt16)
        .ok ((i + 2, true), groups, p)
      | none => do
        let (group, p) ← readGroup i p
        match group with
        | some g => readGroups limit n (i + 1) (groups.set i g) p
        | none => .ok ((i, false), groups, p)
    else .ok ((i, false), groups, p)

/-- What `read_ipv6_addr_impl` reads from `::` on. -/
def readTail (head : List UInt16) : Parser Ipv6Addr := fun p => do
  let (c, p) ← readGivenChar ':' p
  if c.isNone then .ok (none, p)
  else do
    let (c, p) ← readGivenChar ':' p
    if c.isNone then .ok (none, p)
    else do
      let limit := 8 - (head.length + 1)
      let ((tailSize, _), tail, p) ← readGroups limit (limit + 1) 0 (List.replicate 8 0) p
      let addr ← ipv6AddrFromHeadTail head (tail.take tailSize)
      .ok (some addr, p)

def readIpv6AddrImpl : Parser Ipv6Addr := fun p => do
  let ((headSize, headIpv4), head, p) ← readGroups 8 9 0 (List.replicate 8 0) p
  if headSize = 8 then .ok (some (Ipv6Addr.ofArray head), p)
  else if headIpv4 then .ok (none, p)
  else readTail (head.take headSize) p

def readIpv6Addr : Parser Ipv6Addr := readAtomically readIpv6AddrImpl

/-- A parser whose value is mapped. -/
def Parser.map {α β : Type} (f : α → β) (cb : Parser α) : Parser β := fun p => do
  let (r, p) ← cb p
  .ok (r.map f, p)

def readIpAddr : Parser IpAddr :=
  readOr [Parser.map IpAddr.v4 readIpv4Addr, Parser.map IpAddr.v6 readIpv6Addr]

/-- `FromStr for Ipv6Addr`, with `None` as the error. -/
def Ipv6Addr.fromStr (s : List UInt8) : Outcome (Option Ipv6Addr) := do
  let (r, _) ← readTillEof readIpv6Addr s
  .ok r

/-- `FromStr for IpAddr`, with `None` as the error. -/
def IpAddr.fromStr (s : List UInt8) : Outcome (Option IpAddr) := do
  let (r, _) ← readTillEof readIpAddr s
  .ok r

end Tortis.Net
