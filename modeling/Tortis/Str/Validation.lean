import Tortis.Lib.Outcome
import Tortis.Str.WellFormed

/-!
# UTF-8 validation

`run_utf8_validation` in `libcore/str/mod.rs`, for a `usize` of 64 bits that is read from memory
with its lowest byte first. The scan goes from one encoding to the next; where no encoding follows,
what follows decides the error (`Failure`).
-/

namespace Tortis.Str

open PrefixCode List Bool

structure Utf8Error where
  validUpTo : Nat
  errorLen : Option Nat

def UTF8_CHAR_WIDTH : List Nat :=
  replicate 0x80 1 ++ replicate 0x42 0 ++ replicate 0x1E 2 ++ replicate 0x10 3 ++
    replicate 5 4 ++ replicate 11 0

section
variable (v : List UInt8)

/-- `next!()`: the byte after `index`, and its place. -/
def nextByte (oldOffset index : Nat) : Except Utf8Error (UInt8 × Nat) :=
  match v[index + 1]? with
  | some b => .ok (b, index + 1)
  | none => .error ⟨oldOffset, none⟩

/-- `if next!() & !CONT_MASK != TAG_CONT_U8 { err!(Some(error_len)) }`: the place of the byte. -/
def nextCont (oldOffset index errorLen : Nat) : Except Utf8Error Nat := do
  let (b, index) ← nextByte v oldOffset index
  if b &&& ~~~CONT_MASK ≠ TAG_CONT then .error ⟨oldOffset, some errorLen⟩ else .ok index

/-- The pairs of a first and a second byte of an encoding of three bytes. -/
def second3 (first second : UInt8) : Bool :=
  (first == 0xE0 && (0xA0 ≤ second && second ≤ 0xBF)) ||
  ((0xE1 ≤ first && first ≤ 0xEC) && (0x80 ≤ second && second ≤ 0xBF)) ||
  (first == 0xED && (0x80 ≤ second && second ≤ 0x9F)) ||
  ((0xEE ≤ first && first ≤ 0xEF) && (0x80 ≤ second && second ≤ 0xBF))

/-- The pairs of a first and a second byte of an encoding of four bytes. -/
def second4 (first second : UInt8) : Bool :=
  (first == 0xF0 && (0x90 ≤ second && second ≤ 0xBF)) ||
  ((0xF1 ≤ first && first ≤ 0xF3) && (0x80 ≤ second && second ≤ 0xBF)) ||
  (first == 0xF4 && (0x80 ≤ second && second ≤ 0x8F))

/-- The case of a first byte that is not ASCII: the place after the encoding. -/
def multibyte (index : Nat) (first : UInt8) : Except Utf8Error Nat := do
  let oldOffset := index
  match (UTF8_CHAR_WIDTH[first.toNat]?).getD 0 with
  | 2 => do
    let index ← nextCont v oldOffset index 1
    .ok (index + 1)
  | 3 => do
    let (second, index) ← nextByte v oldOffset index
    if second3 first second then do
      let index ← nextCont v oldOffset index 2
      .ok (index + 1)
    else .error ⟨oldOffset, some 1⟩
  | 4 => do
    let (second, index) ← nextByte v oldOffset index
    if second4 first second then do
      let index ← nextCont v oldOffset index 2
      let index ← nextCont v oldOffset index 3
      .ok (index + 1)
    else .error ⟨oldOffset, some 1⟩
  | _ => .error ⟨oldOffset, some 1⟩

/-! ## The scan over ASCII -/

def USIZE_BYTES : Nat := 8

def NONASCII_MASK : Nat := 0x80808080_80808080

def containsNonascii (x : Nat) : Bool := x &&& NONASCII_MASK != 0

/-- The number whose bytes these are, the lowest first. -/
def word : List UInt8 → Nat
  | [] => 0
  | b :: bytes => 2 ^ 8 * word bytes + b.toNat

/-- `*(ptr.add(index) as *const usize)`. -/
def readWord (index : Nat) : Outcome Nat := do
  Outcome.assert (index + USIZE_BYTES ≤ v.length) "read out of bounds"
  .ok (word ((v.drop index).take USIZE_BYTES))

end

section
variable (align : BitVec 64)

/-- `align != usize::max_value() && align.wrapping_sub(index) % usize_bytes == 0`. -/
def isAligned (index : Nat) : Bool :=
  align != BitVec.allOnes 64 && (align - BitVec.ofNat 64 index).toNat % USIZE_BYTES == 0

/-- The loop over blocks of two words. -/
def skipBlocks (v : List UInt8) (blocksEnd : Nat) : Nat → Nat → Outcome Nat
  | 0, _ => .error .outOfFuel
  | n + 1, index =>
    if index < blocksEnd then do
      let zu ← readWord v index
      let zv ← readWord v (index + USIZE_BYTES)
      if containsNonascii zu || containsNonascii zv then .ok index
      else skipBlocks v blocksEnd n (index + 2 * USIZE_BYTES)
    else .ok index

/-- The loop over single bytes. -/
def skipBytes (v : List UInt8) : Nat → Nat → Outcome Nat
  | 0, _ => .error .outOfFuel
  | n + 1, index =>
    match v[index]? with
    | some b => if b < 128 then skipBytes v n (index + 1) else .ok index
    | none => .ok index

def blocksEnd (len : Nat) : Nat :=
  if 2 * USIZE_BYTES ≤ len then len - 2 * USIZE_BYTES + 1 else 0

/-- The case of a first byte that is ASCII: the place where the scan goes on. -/
def skipAscii (v : List UInt8) (index : Nat) : Outcome Nat :=
  if isAligned align index then do
    let index ← skipBlocks v (blocksEnd v.length) (v.length + 1) index
    skipBytes v (v.length + 1) index
  else .ok (index + 1)

def validationLoop (align : BitVec 64) (v : List UInt8) :
    Nat → Nat → Outcome (Except Utf8Error Unit)
  | 0, _ => .error .outOfFuel
  | n + 1, index =>
    match v[index]? with
    | none => .ok (.ok ())
    | some first =>
      if 128 ≤ first then
        match multibyte v index first with
        | .ok index => validationLoop align v n index
        | .error e => .ok (.error e)
      else do
        let index ← skipAscii align v index
        validationLoop align v n index

/-- `run_utf8_validation`, where `align` is what `align_offset` returns for the address. -/
def runUtf8Validation (v : List UInt8) : Outcome (Except Utf8Error Unit) :=
  validationLoop align v (v.length + 1) 0

end

/-! ## Reading one encoding -/

section
variable {v l : List UInt8} {index old k : Nat} {x y z w b : UInt8}

theorem drop_succ (h : v.drop index = x :: l) : v.drop (index + 1) = l := by
  rw [← drop_drop, h, drop_one, tail_cons]

theorem nextByte_nil (h : v.drop index = [x]) : nextByte v old index = .error ⟨old, none⟩ := by
  have hnone : v[index + 1]? = none := by
    rw [← head?_drop, drop_succ h, head?_nil]
  rw [nextByte, hnone]

theorem nextByte_cons (h : v.drop index = x :: b :: l) :
    nextByte v old index = .ok (b, index + 1) := by
  have hsome : v[index + 1]? = some b := by
    rw [← head?_drop, drop_succ h, head?_cons]
  rw [nextByte, hsome]

theorem nextCont_nil (h : v.drop index = [x]) : nextCont v old index k = .error ⟨old, none⟩ := by
  rw [nextCont, nextByte_nil h]
  rfl

theorem nextCont_ok (h : v.drop index = x :: b :: l) (hb : Cont b) :
    nextCont v old index k = .ok (index + 1) := by
  rw [nextCont, nextByte_cons h]
  exact if_neg fun hne => hne ((cont_iff b).2 hb)

theorem nextCont_error (h : v.drop index = x :: b :: l) (hb : ¬ Cont b) :
    nextCont v old index k = .error ⟨old, some k⟩ := by
  rw [nextCont, nextByte_cons h]
  exact if_pos fun heq => hb ((cont_iff b).1 heq)

theorem width_eq (x : UInt8) : (UTF8_CHAR_WIDTH[x.toNat]?).getD 0 =
    if x.toNat < 0x80 then 1 else if x.toNat < 0xC2 then 0 else if x.toNat < 0xE0 then 2
    else if x.toNat < 0xF0 then 3 else if x.toNat < 0xF5 then 4 else 0 := by
  have hlt := x.toNat_lt
  simp only [UTF8_CHAR_WIDTH, getElem?_append, getElem?_replicate, length_append, length_replicate]
  split_ifs <;> first | rfl | omega

theorem second3_iff (hx : 0xE0 ≤ x.toNat) (hx' : x.toNat < 0xF0) :
    second3 x y = true ↔ Lead3 x y := by
  have hx1 : x = 0xE0 ↔ x.toNat = 0xE0 := UInt8.toNat_inj.symm
  have hx2 : x = 0xED ↔ x.toNat = 0xED := UInt8.toNat_inj.symm
  simp only [second3, or_eq_true, and_eq_true, beq_iff_eq, decide_eq_true_eq,
    UInt8.le_iff_toNat_le, hx1, hx2, Lead3, Cont, UInt8.reduceToNat]
  omega

theorem second4_iff (hx : 0xF0 ≤ x.toNat) (hx' : x.toNat < 0xF5) :
    second4 x y = true ↔ Lead4 x y := by
  have hx1 : x = 0xF0 ↔ x.toNat = 0xF0 := UInt8.toNat_inj.symm
  have hx2 : x = 0xF4 ↔ x.toNat = 0xF4 := UInt8.toNat_inj.symm
  simp only [second4, or_eq_true, and_eq_true, beq_iff_eq, decide_eq_true_eq,
    UInt8.le_iff_toNat_le, hx1, hx2, Lead4, Cont, UInt8.reduceToNat]
  omega

theorem exists_lead3 (hx : 0xE0 ≤ x.toNat) (hx' : x.toNat < 0xF0) : ∃ y, Lead3 x y := by
  by_cases hlow : x.toNat = 0xE0
  · exact ⟨0xA0, hx, by omega, ⟨by decide, by decide⟩, fun _ => by decide, by omega⟩
  · exact ⟨0x80, hx, by omega, ⟨by decide, by decide⟩, by omega, fun _ => by decide⟩

theorem exists_lead4 (hx : 0xF0 ≤ x.toNat) (hx' : x.toNat < 0xF5) : ∃ y, Lead4 x y := by
  by_cases hlow : x.toNat = 0xF0
  · exact ⟨0x90, hx, by omega, ⟨by decide, by decide⟩, fun _ => by decide, by omega⟩
  · exact ⟨0x80, hx, by omega, ⟨by decide, by decide⟩, by omega, fun _ => by decide⟩

end

/-- What a step from the place may return: the place after an encoding, or an error that says what
follows when no encoding does. -/
inductive Read (v : List UInt8) (index : Nat) : Except Utf8Error Nat → Prop where
  | next {c : Char} : encodeChar c <+: v.drop index →
    Read v index (.ok (index + (encodeChar c).length))
  | failed {errorLen : Option Nat} : Stuck encodeChar (v.drop index) →
    Failure (v.drop index) errorLen → Read v index (.error ⟨index, errorLen⟩)

section
variable {v l m : List UInt8} {index k : Nat} {x y z w : UInt8}

theorem Read.of_wellFormed (h : v.drop index = l ++ m) (hl : WellFormed l) :
    Read v index (.ok (index + l.length)) := by
  obtain ⟨c, rfl⟩ := hl.exists_char
  exact .next (h ▸ prefix_append _ _)

theorem Read.ends (h : v.drop index = l) (hl : WellFormed (l ++ x :: m)) :
    Read v index (.error ⟨index, none⟩) := by
  have hp : ProperPrefix encodeChar l := properPrefix_of hl (cons_ne_nil x m)
  exact .failed (h ▸ stuck_of_properPrefix hp) (h ▸ hp)

theorem Read.single (h : v.drop index = x :: l) (hx : 0x80 ≤ x.toNat)
    (hbad : ¬ Begins ((x :: l).take 2)) : Read v index (.error ⟨index, some 1⟩) := by
  obtain ⟨hstuck, hfail⟩ := failure_some hx le_rfl (Nat.succ_pos l.length) (.inl rfl) hbad
  exact .failed (h ▸ hstuck) (h ▸ hfail)

theorem Read.several (h : v.drop index = x :: l) (hx : 0x80 ≤ x.toNat) (hk : 1 ≤ k)
    (hlen : k ≤ (x :: l).length) (hgood : ProperPrefix encodeChar ((x :: l).take k))
    (hbad : ¬ Begins ((x :: l).take (k + 1))) : Read v index (.error ⟨index, some k⟩) := by
  obtain ⟨hstuck, hfail⟩ := failure_some hx hk hlen (.inr hgood) hbad
  exact .failed (h ▸ hstuck) (h ▸ hfail)

theorem cont_zero : Cont 0x80 := ⟨by decide, by decide⟩

section
variable (h : v.drop index = x :: l)
include h

theorem multibyte_two (hx : 0xC2 ≤ x.toNat) (hx' : x.toNat < 0xE0) :
    Read v index (multibyte v index x) := by
  have hw : (UTF8_CHAR_WIDTH[x.toNat]?).getD 0 = 2 := by
    rw [width_eq]
    simp [show ¬ x.toNat < 0x80 by omega, show ¬ x.toNat < 0xC2 by omega, hx']
  rw [multibyte, hw]
  cases l with
  | nil =>
    rw [nextCont_nil h]
    exact .ends h (.two hx hx' cont_zero)
  | cons y l =>
    by_cases hy : Cont y
    · rw [nextCont_ok h hy]
      exact .of_wellFormed (l := [x, y]) h (.two hx hx' hy)
    · rw [nextCont_error h hy]
      refine .single h (by omega) fun hb => hy ?_
      rcases hb.second with ⟨_, _, hy⟩ | ⟨_, _, hy, _⟩ | ⟨_, _, hy, _⟩
      all_goals exact hy

theorem multibyte_three (hx : 0xE0 ≤ x.toNat) (hx' : x.toNat < 0xF0) :
    Read v index (multibyte v index x) := by
  have hw : (UTF8_CHAR_WIDTH[x.toNat]?).getD 0 = 3 := by
    rw [width_eq]
    simp [show ¬ x.toNat < 0x80 by omega, show ¬ x.toNat < 0xC2 by omega,
      show ¬ x.toNat < 0xE0 by omega, hx']
  rw [multibyte, hw]
  cases l with
  | nil =>
    obtain ⟨y, hy⟩ := exists_lead3 hx hx'
    rw [nextByte_nil h]
    exact .ends h (.three hy cont_zero)
  | cons y l =>
    rw [nextByte_cons h]
    dsimp only [bind, Except.bind]
    by_cases hy : Lead3 x y
    · rw [if_pos ((second3_iff hx hx').2 hy)]
      have h' : v.drop (index + 1) = y :: l := drop_succ h
      cases l with
      | nil =>
        rw [nextCont_nil h']
        exact .ends h (.three hy cont_zero)
      | cons z l =>
        by_cases hz : Cont z
        · rw [nextCont_ok h' hz]
          exact .of_wellFormed (l := [x, y, z]) h (.three hy hz)
        · rw [nextCont_error h' hz]
          refine .several h (by omega) (by decide) (Nat.le_add_left 2 _) ?_ fun hb => hz hb.third
          exact properPrefix_of (l := [x, y]) (.three hy cont_zero) (cons_ne_nil _ _)
    · rw [if_neg fun hs => hy ((second3_iff hx hx').1 hs)]
      refine .single h (by omega) fun hb => hy ?_
      rcases hb.second with ⟨_, _, _⟩ | hy | ⟨_, _, _⟩
      · omega
      · exact hy
      · omega

theorem multibyte_four (hx : 0xF0 ≤ x.toNat) (hx' : x.toNat < 0xF5) :
    Read v index (multibyte v index x) := by
  have hw : (UTF8_CHAR_WIDTH[x.toNat]?).getD 0 = 4 := by
    rw [width_eq]
    simp [show ¬ x.toNat < 0x80 by omega, show ¬ x.toNat < 0xC2 by omega,
      show ¬ x.toNat < 0xE0 by omega, show ¬ x.toNat < 0xF0 by omega, hx']
  rw [multibyte, hw]
  cases l with
  | nil =>
    obtain ⟨y, hy⟩ := exists_lead4 hx hx'
    rw [nextByte_nil h]
    exact .ends h (.four hy cont_zero cont_zero)
  | cons y l =>
    rw [nextByte_cons h]
    dsimp only [bind, Except.bind]
    by_cases hy : Lead4 x y
    · rw [if_pos ((second4_iff hx hx').2 hy)]
      have h' : v.drop (index + 1) = y :: l := drop_succ h
      cases l with
      | nil =>
        rw [nextCont_nil h']
        exact .ends h (.four hy cont_zero cont_zero)
      | cons z l =>
        by_cases hz : Cont z
        · rw [nextCont_ok h' hz]
          dsimp only
          have h'' : v.drop (index + 1 + 1) = z :: l := drop_succ h'
          cases l with
          | nil =>
            rw [nextCont_nil h'']
            exact .ends h (.four hy hz cont_zero)
          | cons w l =>
            by_cases hw : Cont w
            · rw [nextCont_ok h'' hw]
              exact .of_wellFormed (l := [x, y, z, w]) h (.four hy hz hw)
            · rw [nextCont_error h'' hw]
              refine .several h (by omega) (by decide) (Nat.le_add_left 3 _) ?_
                fun hb => hw hb.fourth
              exact properPrefix_of (l := [x, y, z]) (.four hy hz cont_zero) (cons_ne_nil _ _)
        · rw [nextCont_error h' hz]
          refine .several h (by omega) (by decide) (Nat.le_add_left 2 _) ?_ fun hb => hz hb.third
          exact properPrefix_of (l := [x, y]) (.four hy cont_zero cont_zero) (cons_ne_nil _ _)
    · rw [if_neg fun hs => hy ((second4_iff hx hx').1 hs)]
      refine .single h (by omega) fun hb => hy ?_
      rcases hb.second with ⟨_, _, _⟩ | ⟨_, _, _⟩ | hy
      · omega
      · omega
      · exact hy

theorem multibyte_spec (hx : 0x80 ≤ x.toNat) : Read v index (multibyte v index x) := by
  by_cases hlow : x.toNat < 0xC2 ∨ 0xF5 ≤ x.toNat
  · have hw : (UTF8_CHAR_WIDTH[x.toNat]?).getD 0 = 0 := by
      rw [width_eq]
      rcases hlow with hlow | hhigh
      · simp [show ¬ x.toNat < 0x80 by omega, hlow]
      · simp [show ¬ x.toNat < 0x80 by omega, show ¬ x.toNat < 0xC2 by omega,
          show ¬ x.toNat < 0xE0 by omega, show ¬ x.toNat < 0xF0 by omega,
          show ¬ x.toNat < 0xF5 by omega]
    rw [multibyte, hw]
    refine .single h hx fun hb => ?_
    have hfirst := hb.first hx
    omega
  rcases lt_or_ge x.toNat 0xE0 with h2 | h2
  · exact multibyte_two h (by omega) h2
  rcases lt_or_ge x.toNat 0xF0 with h3 | h3
  · exact multibyte_three h h2 h3
  · exact multibyte_four h h3 (by omega)

end

end

end Tortis.Str
