import Tortis.Lib.Pieces
import Tortis.Lib.Slice

/-!
# Components of a path

The prefixes of Windows paths (`libstd/path.rs`) and the functions on bytes that `sys::path` gives
for each platform (`libstd/sys/unix/path.rs`, `libstd/sys/windows/path.rs`). An `OsStr` is the list of
its bytes. The text of a prefix is a first part of the path (`parsePrefix_len_le`).

`Components` of `libstd/path.rs`: an iterator with two ends. The front and the back each are in one
of four states, and the slice that is left is cut from both sides. The platform's `sys::path` is a
parameter. The loops take fuel.
-/

namespace Tortis.Path

def byte (c : Char) : UInt8 := UInt8.ofNat c.toNat

def bytes (s : String) : List UInt8 := s.toList.map byte

inductive Prefix where
  | verbatim (x : List UInt8)
  | verbatimUNC (server share : List UInt8)
  | verbatimDisk (letter : UInt8)
  | deviceNS (x : List UInt8)
  | unc (server share : List UInt8)
  | disk (letter : UInt8)
deriving DecidableEq

namespace Prefix

def len : Prefix → Nat
  | verbatim x => 4 + x.length
  | verbatimUNC x y => 8 + x.length + if 0 < y.length then 1 + y.length else 0
  | verbatimDisk _ => 6
  | unc x y => 2 + x.length + if 0 < y.length then 1 + y.length else 0
  | deviceNS x => 4 + x.length
  | disk _ => 2

def isVerbatim : Prefix → Bool
  | verbatim _ | verbatimDisk _ | verbatimUNC _ _ => true
  | _ => false

def isDrive : Prefix → Bool
  | disk _ => true
  | _ => false

def hasImplicitRoot (p : Prefix) : Bool := !p.isDrive

theorem len_pos : ∀ p : Prefix, 0 < p.len
  | verbatim _ | verbatimUNC _ _ | unc _ _ | deviceNS _ => by
    simp only [len]
    omega
  | verbatimDisk _ => Nat.zero_lt_succ 5
  | disk _ => Nat.zero_lt_succ 1

end Prefix

/-- The functions of `sys::path`. -/
structure Sys where
  isSepByte : UInt8 → Bool
  isVerbatimSep : UInt8 → Bool
  parsePrefix : List UInt8 → Outcome (Option Prefix)

/-! ## Unix -/

namespace Unix

def isSepByte (b : UInt8) : Bool := b == byte '/'

def isVerbatimSep (b : UInt8) : Bool := b == byte '/'

def parsePrefix (_ : List UInt8) : Outcome (Option Prefix) := .ok none

/-- `sys::path` on Unix. -/
def sys : Sys := ⟨isSepByte, isVerbatimSep, parsePrefix⟩

end Unix

/-! ## Windows -/

namespace Windows

open Pieces Slice

def isSepByte (b : UInt8) : Bool := b == byte '/' || b == byte '\\'

def isVerbatimSep (b : UInt8) : Bool := b == byte '\\'

section
variable (path : List UInt8)

def parseTwoComps (f : UInt8 → Bool) : Outcome (Option (List UInt8 × List UInt8)) :=
  match position f path with
  | none => .ok none
  | some i => do
    let first ← sliceTo path i
    let path ← sliceFrom path (first.length + 1)
    let second ← sliceTo path ((position f path).getD path.length)
    .ok (some (first, second))

/-- `c.is_ascii() && (c as char).is_alphabetic()`. -/
def isDriveLetter (c : UInt8) : Bool :=
  (byte 'a' ≤ c && c ≤ byte 'z') || (byte 'A' ≤ c && c ≤ byte 'Z')

def toAsciiUppercase (c : UInt8) : UInt8 :=
  if byte 'a' ≤ c ∧ c ≤ byte 'z' then c - 32 else c

/-- The drive letter of `\\?\C:\`, on the bytes after `\\?\`; `idx` is the place of the first
backslash. -/
def verbatimLetter (idx : Option Nat) : Outcome (Option UInt8) :=
  if idx = some 2 then do
    let colon ← Slice.get path 1
    if colon = byte ':' then do
      let c ← Slice.get path 0
      .ok (if isDriveLetter c then some (toAsciiUppercase c) else none)
    else .ok none
  else .ok none

/-- The branch of `parse_prefix` for `\\?\`, on the bytes after it. -/
def parseVerbatim : Outcome Prefix :=
  if (bytes "UNC\\").isPrefixOf path then do
    let path ← sliceFrom path 4
    match ← parseTwoComps path isVerbatimSep with
    | some (server, share) => .ok (.verbatimUNC server share)
    | none => .ok (.verbatimUNC path [])
  else do
    let idx := position (· == byte '\\') path
    match ← verbatimLetter path idx with
    | some c => .ok (.verbatimDisk c)
    | none => do
      let slice ← sliceTo path (idx.getD path.length)
      .ok (.verbatim slice)

/-- The branch of `parse_prefix` for `\\.\`, on the bytes after it. -/
def parseDevice : Outcome Prefix := do
  let slice ← sliceTo path ((position (· == byte '\\') path).getD path.length)
  .ok (.deviceNS slice)

def parsePrefix : Outcome (Option Prefix) :=
  if (bytes "\\\\").isPrefixOf path then do
    let path ← sliceFrom path 2
    if (bytes "?\\").isPrefixOf path then do
      let p ← parseVerbatim (← sliceFrom path 2)
      .ok (some p)
    else if (bytes ".\\").isPrefixOf path then do
      let p ← parseDevice (← sliceFrom path 2)
      .ok (some p)
    else
      match ← parseTwoComps path isSepByte with
      | some (server, share) =>
        .ok (if !server.isEmpty && !share.isEmpty then some (.unc server share) else none)
      | none => .ok none
  else if path[1]? = some (byte ':') then do
    let c ← Slice.get path 0
    .ok (if isDriveLetter c then some (.disk (toAsciiUppercase c)) else none)
  else .ok none

end

/-- `sys::path` on Windows. -/
def sys : Sys := ⟨isSepByte, isVerbatimSep, parsePrefix⟩

end Windows

/-! ## Components of a path -/

open Slice Pieces

/-- `State`: the prefix, the starting directory (`/` or `.` or nothing), the body, done. -/
inductive State where
  | pfx
  | startDir
  | body
  | done
deriving DecidableEq

namespace State

/-- The discriminant, which orders the states. -/
def rank : State → Nat
  | pfx => 0
  | startDir => 1
  | body => 2
  | done => 3

instance : LE State := ⟨fun a b => a.rank ≤ b.rank⟩

instance (a b : State) : Decidable (a ≤ b) := inferInstanceAs (Decidable (a.rank ≤ b.rank))

theorem le_startDir : ∀ {a : State}, a ≤ .startDir ↔ a = .pfx ∨ a = .startDir
  | pfx => by decide
  | startDir => by decide
  | body => by decide
  | done => by decide

end State

inductive Component where
  /-- `Component::Prefix`, with the raw and the parsed text of the `PrefixComponent`. -/
  | pfx (raw : List UInt8) (parsed : Prefix)
  | rootDir
  | curDir
  | parentDir
  | normal (text : List UInt8)
deriving DecidableEq

structure Components where
  /-- The path left to parse components from. -/
  path : List UInt8
  /-- The prefix as it was originally parsed, if any. -/
  pfx : Option Prefix
  /-- Whether the path has a physical root separator. -/
  hasPhysicalRoot : Bool
  front : State
  back : State
deriving DecidableEq

section
variable (sys : Sys)

def hasPhysicalRoot (s : List UInt8) (pfx : Option Prefix) : Outcome Bool := do
  let path ← match pfx with
    | some p => sliceFrom s p.len
    | none => .ok s
  .ok (match path with
    | b :: _ => sys.isSepByte b
    | [] => false)

def components (path : List UInt8) : Outcome Components := do
  let pfx ← sys.parsePrefix path
  let root ← hasPhysicalRoot sys path pfx
  .ok ⟨path, pfx, root, .pfx, .body⟩

end

namespace Components

variable (sys : Sys) (c : Components)

def prefixLen : Nat := c.pfx.elim 0 Prefix.len

def prefixVerbatim : Bool := c.pfx.elim false Prefix.isVerbatim

def prefixRemaining : Nat := if c.front = .pfx then c.prefixLen else 0

def hasRoot : Bool :=
  if c.hasPhysicalRoot then true
  else c.pfx.elim false Prefix.hasImplicitRoot

def isSepByte (b : UInt8) : Bool :=
  if c.prefixVerbatim then sys.isVerbatimSep b else sys.isSepByte b

/-- The `match` of `include_cur_dir` on the first two bytes after the prefix. -/
def startsWithDot : List UInt8 → Bool
  | [a] => a == byte '.'
  | a :: b :: _ => a == byte '.' && c.isSepByte sys b
  | [] => false

def includeCurDir : Outcome Bool :=
  if c.hasRoot then .ok false
  else do
    let rest ← sliceFrom c.path c.prefixLen
    .ok (c.startsWithDot sys rest)

def lenBeforeBody : Outcome Nat := do
  let root := if c.front ≤ .startDir ∧ c.hasPhysicalRoot then 1 else 0
  let curDir ← if c.front ≤ .startDir then includeCurDir sys c else .ok false
  .ok (c.prefixRemaining + root + if curDir then 1 else 0)

def finished : Bool := c.front = .done || c.back = .done || !(c.front ≤ c.back : Bool)

def parseSingleComponent (comp : List UInt8) : Option Component :=
  if comp = bytes "." then if c.prefixVerbatim then some .curDir else none
  else if comp = bytes ".." then some .parentDir
  else if comp = [] then none
  else some (.normal comp)

def parseNextComponent : Outcome (Nat × Option Component) := do
  Outcome.assert (c.front = .body) "assertion failed: self.front == State::Body"
  match position (c.isSepByte sys) c.path with
  | none => .ok (c.path.length, c.parseSingleComponent c.path)
  | some i => do
    let comp ← sliceTo c.path i
    .ok (comp.length + 1, c.parseSingleComponent comp)

def parseNextComponentBack : Outcome (Nat × Option Component) := do
  Outcome.assert (c.back = .body) "assertion failed: self.back == State::Body"
  let start ← c.lenBeforeBody sys
  let rest ← sliceFrom c.path start
  match rposition (c.isSepByte sys) rest with
  | none => .ok (rest.length, c.parseSingleComponent rest)
  | some i => do
    let comp ← sliceFrom c.path (start + i + 1)
    .ok (comp.length + 1, c.parseSingleComponent comp)

def trimLeft : Nat → Components → Outcome Components
  | 0, _ => .error .outOfFuel
  | n + 1, c =>
    if c.path.isEmpty then .ok c
    else do
      let (size, comp) ← c.parseNextComponent sys
      if comp.isSome then .ok c
      else do
        let path ← sliceFrom c.path size
        trimLeft n { c with path }

def trimRight : Nat → Components → Outcome Components
  | 0, _ => .error .outOfFuel
  | n + 1, c => do
    let start ← c.lenBeforeBody sys
    if c.path.length ≤ start then .ok c
    else do
      let (size, comp) ← c.parseNextComponentBack sys
      if comp.isSome then .ok c
      else do
        let path ← sliceToEnd c.path size
        trimRight n { c with path }

def asPath (n : Nat) : Outcome (List UInt8) := do
  let c ← if c.front = .body then trimLeft sys n c else .ok c
  let c ← if c.back = .body then trimRight sys n c else .ok c
  .ok c.path

/-- The body of the loop of `next`: what it returns, if it returns. -/
def nextIter : Outcome (Option (Option Component) × Components) :=
  match c.front with
  | .pfx =>
    if 0 < c.prefixLen then do
      Outcome.assert (c.prefixLen ≤ c.path.length)
        "assertion failed: self.prefix_len() <= self.path.len()"
      let raw ← sliceTo c.path c.prefixLen
      let path ← sliceFrom c.path c.prefixLen
      let parsed ← Outcome.unwrap c.pfx
      .ok (some (some (.pfx raw parsed)), { c with path, front := .startDir })
    else .ok (none, { c with front := .startDir })
  | .startDir =>
    if c.hasPhysicalRoot then do
      Outcome.assert (!c.path.isEmpty) "assertion failed: !self.path.is_empty()"
      let path ← sliceFrom c.path 1
      .ok (some (some .rootDir), { c with path, front := .body })
    else
      match c.pfx with
      | some p =>
        if p.hasImplicitRoot && !p.isVerbatim then
          .ok (some (some .rootDir), { c with front := .body })
        else .ok (none, { c with front := .body })
      | none => do
        if ← includeCurDir sys { c with front := .body } then do
          Outcome.assert (!c.path.isEmpty) "assertion failed: !self.path.is_empty()"
          let path ← sliceFrom c.path 1
          .ok (some (some .curDir), { c with path, front := .body })
        else .ok (none, { c with front := .body })
  | .body =>
    if c.path.isEmpty then .ok (none, { c with front := .done })
    else do
      let (size, comp) ← c.parseNextComponent sys
      let path ← sliceFrom c.path size
      .ok (if comp.isSome then some comp else none, { c with path })
  | .done => .error (.panic "internal error: entered unreachable code")

def next : Nat → Components → Outcome (Option Component × Components)
  | 0, _ => .error .outOfFuel
  | n + 1, c =>
    if c.finished then .ok (none, c)
    else do
      match ← c.nextIter sys with
      | (some r, c) => .ok (r, c)
      | (none, c) => next n c

/-- The body of the loop of `next_back`: what it returns, if it returns. -/
def nextBackIter : Outcome (Option (Option Component) × Components) :=
  match c.back with
  | .body => do
    let start ← c.lenBeforeBody sys
    if start < c.path.length then do
      let (size, comp) ← c.parseNextComponentBack sys
      let path ← sliceToEnd c.path size
      .ok (if comp.isSome then some comp else none, { c with path })
    else .ok (none, { c with back := .startDir })
  | .startDir =>
    if c.hasPhysicalRoot then do
      let path ← sliceToEnd c.path 1
      .ok (some (some .rootDir), { c with path, back := .pfx })
    else
      match c.pfx with
      | some p =>
        if p.hasImplicitRoot && !p.isVerbatim then
          .ok (some (some .rootDir), { c with back := .pfx })
        else .ok (none, { c with back := .pfx })
      | none => do
        if ← includeCurDir sys { c with back := .pfx } then do
          let path ← sliceToEnd c.path 1
          .ok (some (some .curDir), { c with path, back := .pfx })
        else .ok (none, { c with back := .pfx })
  | .pfx =>
    if 0 < c.prefixLen then do
      let parsed ← Outcome.unwrap c.pfx
      .ok (some (some (.pfx c.path parsed)), { c with back := .done })
    else .ok (some none, { c with back := .done })
  | .done => .error (.panic "internal error: entered unreachable code")

def nextBack : Nat → Components → Outcome (Option Component × Components)
  | 0, _ => .error .outOfFuel
  | n + 1, c =>
    if c.finished then .ok (none, c)
    else do
      match ← c.nextBackIter sys with
      | (some r, c) => .ok (r, c)
      | (none, c) => nextBack n c

end Components

/-! ## Calls from both ends -/

inductive Call where
  | next
  | nextBack
  | asPath

/-- The components that were taken from each end, in the order of the calls, and the iterator. -/
structure Taken where
  front : List Component
  back : List Component
  iter : Components
deriving DecidableEq

/-- What a call returns, as far as it is a component, and the state after it. -/
def Taken.call (sys : Sys) (n : Nat) (t : Taken) : Call → Outcome (Option Component × Taken)
  | .next => do
    let (r, iter) ← t.iter.next sys n
    .ok (r, { t with front := t.front ++ r.toList, iter })
  | .nextBack => do
    let (r, iter) ← t.iter.nextBack sys n
    .ok (r, { t with back := t.back ++ r.toList, iter })
  | .asPath => do
    let _ ← t.iter.asPath sys n
    .ok (none, t)

def run (sys : Sys) (n : Nat) (path : List UInt8) (calls : List Call) : Outcome Taken := do
  let iter ← components sys path
  calls.foldlM (fun t call => (t.call sys n call).map Prod.snd) ⟨[], [], iter⟩

end Tortis.Path
