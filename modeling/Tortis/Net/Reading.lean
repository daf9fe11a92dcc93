import Mathlib.Data.List.Induction
import Mathlib.Data.List.TakeWhile
import Tortis.Net.Parser

/-!
# The grammar of addresses, and what the parser reads

The texts that are read as an `Ipv6Addr` (`Ipv6Text`), and the lemmas on numbers that relate the
digits of a text to what is read.

Each reading function returns, reads the longest text of its kind where there is one, and else leaves
the position where it was.
-/

namespace Tortis.Net

open List Outcome Option

def digit (radix : Nat) (b : UInt8) : Option Nat :=
  let b := b.toNat
  let d := if '0'.toNat ≤ b ∧ b ≤ '9'.toNat then some (b - '0'.toNat)
    else if 'a'.toNat ≤ b ∧ b ≤ 'z'.toNat then some (b - 'a'.toNat + 10)
    else if 'A'.toNat ≤ b ∧ b ≤ 'Z'.toNat then some (b - 'A'.toNat + 10)
    else none
  d.filter (· < radix)

def value (radix : Nat) (l : List UInt8) : Nat :=
  l.foldl (fun r b => r * radix + (digit radix b).getD 0) 0

def Digits (radix : Nat) (l : List UInt8) : Prop := ∀ b ∈ l, (digit radix b).isSome

/-- A number of one to so many digits and below a bound. -/
structure Number (radix maxDigits upto : Nat) (l : List UInt8) (n : Nat) : Prop where
  digits : Digits radix l
  ne_nil : l ≠ []
  length_le : l.length ≤ maxDigits
  value_eq : value radix l = n
  lt : n < upto

/-- A group: one to four hexadecimal digits. -/
def Group (l : List UInt8) (g : UInt16) : Prop := Number 16 4 0x10000 l g.toNat

/-- An octet: a decimal number of at most three digits below 256. -/
def Octet (l : List UInt8) (a : UInt8) : Prop := Number 10 3 0x100 l a.toNat

/-- Four octets separated by dots. -/
def Quad (l : List UInt8) (a : Ipv4Addr) : Prop :=
  ∃ l₁ l₂ l₃ l₄, Octet l₁ a.a ∧ Octet l₂ a.b ∧ Octet l₃ a.c ∧ Octet l₄ a.d ∧
    l = l₁ ++ ascii '.' :: (l₂ ++ ascii '.' :: (l₃ ++ ascii '.' :: l₄))

/-- The separator before a part that is not the first one. -/
def sep (c : Char) (first : Bool) : List UInt8 := if first then [] else [ascii c]

def Ipv4Addr.groups (a : Ipv4Addr) : List UInt16 := [fromBeBytes a.a a.b, fromBeBytes a.c a.d]

/-- Groups separated by single colons, where the last two are a quad when `quad` is set. -/
inductive Groups : (first quad : Bool) → List UInt8 → List UInt16 → Prop where
  | none {first : Bool} : Groups first false [] []
  | group {first quad : Bool} {l m : List UInt8} {g : UInt16} {gs : List UInt16} : Group l g →
    Groups false quad m gs → Groups first quad (sep ':' first ++ l ++ m) (g :: gs)
  | quad {first : Bool} {l : List UInt8} {a : Ipv4Addr} : Quad l a →
    Groups first true (sep ':' first ++ l) a.groups

/-- The texts of an address: eight groups, or groups before and after `::` which stands for at least
one zero group. A quad may only be at the end of the text. -/
inductive Ipv6Text : List UInt8 → List UInt16 → Prop where
  | full {quad : Bool} {l : List UInt8} {gs : List UInt16} : Groups true quad l gs →
    gs.length = 8 → Ipv6Text l gs
  | compressed {quad : Bool} {l m : List UInt8} {hs ts : List UInt16} : Groups true false l hs →
    Groups true quad m ts → hs.length + ts.length ≤ 7 →
    Ipv6Text (l ++ text "::" ++ m) (hs ++ replicate (8 - (hs.length + ts.length)) 0 ++ ts)

/-! ## Digits -/

theorem parseDigit_eq {radix : UInt8} (hr : radix = 10 ∨ radix = 16) (c : UInt8) :
    (parseDigit c radix).map UInt8.toNat = digit radix.toNat c := by
  have hall : ∀ n : Fin 256, ∀ radix : UInt8, radix = 10 ∨ radix = 16 →
      (parseDigit (UInt8.ofNat n.val) radix).map UInt8.toNat =
        digit radix.toNat (UInt8.ofNat n.val) := by
    rintro n radix (rfl | rfl)
    · revert n
      decide +kernel
    · revert n
      decide +kernel
  have hc := hall ⟨c.toNat, c.toNat_lt⟩ radix hr
  rwa [UInt8.ofNat_toNat] at hc

theorem digit_sixteen {b : UInt8} (h : (digit 10 b).isSome) : (digit 16 b).isSome := by
  obtain ⟨d, hd⟩ := Option.isSome_iff_exists.1 h
  rw [digit, Option.filter_eq_some_iff, decide_eq_true_eq] at hd
  rw [digit, hd.1, Option.filter_some, if_pos (decide_eq_true (by omega))]
  rfl

theorem value_append (radix : Nat) (l : List UInt8) (b : UInt8) :
    value radix (l ++ [b]) = value radix l * radix + (digit radix b).getD 0 := by
  rw [value, foldl_append]
  rfl

theorem value_le_append {radix : Nat} (hr : 0 < radix) (l m : List UInt8) :
    value radix l ≤ value radix (l ++ m) := by
  induction m using List.reverseRecOn with
  | nil => rw [append_nil]
  | append_singleton m b ih =>
    rw [← append_assoc, value_append]
    exact (ih.trans (Nat.le_mul_of_pos_right _ hr)).trans (Nat.le_add_right _ _)

/-- The bytes do not start with a digit. -/
def NoDigit (radix : Nat) (x : List UInt8) : Prop := ∀ b ∈ x.head?, digit radix b = none

theorem exists_digits (radix : Nat) (p : List UInt8) :
    ∃ l x, p = l ++ x ∧ Digits radix l ∧ NoDigit radix x := by
  refine ⟨p.takeWhile fun b => (digit radix b).isSome, p.dropWhile fun b => (digit radix b).isSome,
    (takeWhile_append_dropWhile).symm, fun b hb => ?_, fun b hb => ?_⟩
  · exact mem_takeWhile_imp (p := fun b => (digit radix b).isSome) hb
  · have hhead := head?_dropWhile_not (fun b => (digit radix b).isSome) p
    rw [mem_def.1 hb] at hhead
    exact not_isSome_iff_eq_none.1 (by simpa using hhead)

theorem digits_unique {radix : Nat} : ∀ {l m x y : List UInt8}, Digits radix l → Digits radix m →
    NoDigit radix x → NoDigit radix y → l ++ x = m ++ y → l = m ∧ x = y
  | [], [], _, _, _, _, _, _, h => ⟨rfl, h⟩
  | [], b :: m, x, y, _, hm, hx, _, h => by
    rw [nil_append] at h
    have hnone := hx b (by rw [h]; rfl)
    have hsome := hm b mem_cons_self
    rw [hnone] at hsome
    cases hsome
  | b :: l, [], x, y, hl, _, _, hy, h => by
    rw [nil_append] at h
    have hnone := hy b (by rw [← h]; rfl)
    have hsome := hl b mem_cons_self
    rw [hnone] at hsome
    cases hsome
  | b :: l, b' :: m, x, y, hl, hm, hx, hy, h => by
    obtain ⟨rfl, htail⟩ := List.cons.inj h
    obtain ⟨rfl, rfl⟩ := digits_unique (fun b hb => hl b (mem_cons_of_mem _ hb))
      (fun b hb => hm b (mem_cons_of_mem _ hb)) hx hy htail
    exact ⟨rfl, rfl⟩

/-! ## What the parser reads -/

section
variable {α : Type} {f : Parser α} {p p' x : List UInt8} {a : α}

theorem readAtomically_some (h : f p = .ok (some a, x)) : readAtomically f p = .ok (some a, x) := by
  rw [readAtomically, h]
  rfl

theorem readAtomically_none (h : f p = .ok (none, x)) : readAtomically f p = .ok (none, p) := by
  rw [readAtomically, h]
  rfl

end

/-! ## Characters -/

section
variable {c : Char} {b : UInt8} {p : List UInt8}

theorem readGivenChar_eq : readGivenChar c (ascii c :: p) = .ok (some (ascii c), p) := by
  refine readAtomically_some ?_
  simp [readChar]

theorem readGivenChar_ne (h : ∀ b ∈ p.head?, b ≠ ascii c) : readGivenChar c p = .ok (none, p) := by
  cases p with
  | nil => rfl
  | cons b p =>
    refine readAtomically_none (x := p) ?_
    simp [readChar, h b rfl]

theorem readGivenChar_cases (c : Char) (p : List UInt8) :
    (∃ x, p = ascii c :: x ∧ readGivenChar c p = .ok (some (ascii c), x)) ∨
      ((∀ b ∈ p.head?, b ≠ ascii c) ∧ readGivenChar c p = .ok (none, p)) := by
  by_cases h : ∃ x, p = ascii c :: x
  · obtain ⟨x, rfl⟩ := h
    exact .inl ⟨x, rfl, readGivenChar_eq⟩
  · have hne : ∀ b ∈ p.head?, b ≠ ascii c := fun b hb heq => by
      obtain ⟨x, rfl⟩ := head?_eq_some_iff.1 hb
      exact h ⟨x, by rw [heq]⟩
    exact .inr ⟨hne, readGivenChar_ne hne⟩

theorem readSep_eq (i : Nat) (p : List UInt8) :
    readSep c i (sep c (decide (i = 0)) ++ p) = .ok (true, p) := by
  cases i with
  | zero => rfl
  | succ i =>
    have hsep : sep c (decide (i + 1 = 0)) = [ascii c] := rfl
    rw [hsep, readSep, if_neg (Nat.succ_ne_zero i), singleton_append, readGivenChar_eq]
    rfl

end

theorem readSep_cases (c : Char) (i : Nat) (p : List UInt8) :
    (∃ x, p = sep c (decide (i = 0)) ++ x ∧ readSep c i p = .ok (true, x)) ∨
      (i ≠ 0 ∧ (∀ b ∈ p.head?, b ≠ ascii c) ∧ readSep c i p = .ok (false, p)) := by
  cases i with
  | zero => exact .inl ⟨p, rfl, rfl⟩
  | succ i =>
    rw [readSep, if_neg (Nat.succ_ne_zero i)]
    rcases readGivenChar_cases c p with ⟨x, rfl, hread⟩ | ⟨hne, hread⟩
    · exact .inl ⟨x, rfl, by rw [hread]; rfl⟩
    · exact .inr ⟨Nat.succ_ne_zero i, hne, by rw [hread]; rfl⟩

/-! ## Numbers -/

/-- The number of a sequence of digits that is accepted. -/
def accepted (radix maxDigits upto : Nat) (l : List UInt8) : Option Nat :=
  if l ≠ [] ∧ l.length ≤ maxDigits ∧ value radix l < upto then some (value radix l) else none

section
variable {radix : UInt8} {maxDigits upto : Nat}

theorem readDigit_cons {b d : UInt8} {p : List UInt8} (h : parseDigit b radix = some d) :
    readDigit radix (b :: p) = .ok (some d, p) := by
  refine readAtomically_some ?_
  simp [readChar, h]

theorem number_of_accepted {ds : List UInt8} {n : Nat} (hds : Digits radix.toNat ds)
    (h : accepted radix.toNat maxDigits upto ds = some n) :
    Number radix.toNat maxDigits upto ds n := by
  rw [accepted] at h
  split at h
  · next hcond =>
    cases h
    exact ⟨hds, hcond.1, hcond.2.1, rfl, hcond.2.2⟩
  · cases h

theorem accepted_of_number {ds : List UInt8} {n : Nat} (h : Number radix.toNat maxDigits upto ds n) :
    accepted radix.toNat maxDigits upto ds = some n := by
  have hlt : value radix.toNat ds < upto := h.value_eq ▸ h.lt
  rw [accepted, if_pos ⟨h.ne_nil, h.length_le, hlt⟩, h.value_eq]

variable (hr : radix = 10 ∨ radix = 16)
include hr

theorem readDigit_stop {x : List UInt8} (hx : NoDigit radix.toNat x) :
    readDigit radix x = .ok (none, x) := by
  cases x with
  | nil => rfl
  | cons b x =>
    refine readAtomically_none (x := x) ?_
    have hnone : parseDigit b radix = none := by
      have hdigit := hx b rfl
      rw [← parseDigit_eq hr] at hdigit
      exact map_eq_none_iff.1 hdigit
    simp [readChar, hnone]

theorem readNumberLoop_spec {x : List UInt8} (hx : NoDigit radix.toNat x) :
    ∀ {ds done : List UInt8} {n : Nat}, Digits radix.toNat ds → done.length ≤ maxDigits →
      value radix.toNat done < upto → maxDigits < done.length + n →
      ∃ p, readNumberLoop radix maxDigits upto n (value radix.toNat done) done.length (ds ++ x) =
          .ok (accepted radix.toNat maxDigits upto (done ++ ds), p) ∧
        ((accepted radix.toNat maxDigits upto (done ++ ds)).isSome → p = x)
  | _, done, 0, _, hlen, _, hn => by omega
  | [], done, n + 1, _, hlen, hlt, _ => by
    refine ⟨x, ?_, fun _ => rfl⟩
    rw [nil_append, append_nil, readNumberLoop, readDigit_stop hr hx, ok_bind]
    dsimp only
    cases done with
    | nil => rfl
    | cons b done =>
      rw [if_neg (by simp), accepted, if_pos ⟨cons_ne_nil b done, hlen, hlt⟩]
  | b :: ds, done, n + 1, hds, hlen, hlt, hn => by
    have hpos : 0 < radix.toNat := by rcases hr with rfl | rfl <;> decide
    obtain ⟨d, hd⟩ := isSome_iff_exists.1 (hds b mem_cons_self)
    have hparse := parseDigit_eq hr b
    rw [hd] at hparse
    obtain ⟨d', hd', hval⟩ := map_eq_some_iff.1 hparse
    have hvalue : value radix.toNat done * radix.toNat + d'.toNat =
        value radix.toNat (done ++ [b]) := by rw [value_append, hd, hval, getD_some]
    have hlength : done.length + 1 = (done ++ [b]).length := by
      simp
    rw [cons_append, readNumberLoop, readDigit_cons hd', ok_bind]
    dsimp only
    rw [hvalue, hlength]
    have happ : done ++ b :: ds = done ++ [b] ++ ds := by simp
    rw [happ]
    split
    · next hstop =>
      refine ⟨ds ++ x, ?_, fun hsome => ?_⟩
      all_goals
        have hnone : accepted radix.toNat maxDigits upto (done ++ [b] ++ ds) = none := by
          refine if_neg fun ⟨_, hlen', hlt'⟩ => ?_
          have hmono := value_le_append hpos (done ++ [b]) ds
          rw [length_append] at hlen'
          omega
      · rw [hnone]
      · rw [hnone] at hsome
        cases hsome
    · next hgo =>
      rw [not_or, not_lt, not_le] at hgo
      refine readNumberLoop_spec hx (fun c hc => hds c (mem_cons_of_mem _ hc)) hgo.1 hgo.2 ?_
      omega

theorem readNumber_eq (hup : 0 < upto) {ds x : List UInt8} (hds : Digits radix.toNat ds)
    (hx : NoDigit radix.toNat x) : readNumber radix maxDigits upto (ds ++ x) =
      .ok (match accepted radix.toNat maxDigits upto ds with
        | some n => (some n, x)
        | none => (none, ds ++ x)) := by
  obtain ⟨p, hrun, hp⟩ := @readNumberLoop_spec radix maxDigits upto hr x hx ds [] (maxDigits + 1) hds
    (Nat.zero_le _) hup (by rw [length_nil]; omega)
  rw [nil_append] at hrun hp
  cases hacc : accepted radix.toNat maxDigits upto ds with
  | none =>
    rw [hacc] at hrun
    exact readAtomically_none hrun
  | some n =>
    rw [hacc] at hrun hp
    rw [hp rfl] at hrun
    exact readAtomically_some hrun

theorem readNumber_some {l x : List UInt8} {n : Nat} (h : Number radix.toNat maxDigits upto l n)
    (hx : NoDigit radix.toNat x) : readNumber radix maxDigits upto (l ++ x) = .ok (some n, x) := by
  rw [readNumber_eq hr (Nat.zero_lt_of_lt h.lt) h.digits hx, accepted_of_number h]

theorem readNumber_cases (hup : 0 < upto) (p : List UInt8) :
    (∃ l n x, p = l ++ x ∧ Number radix.toNat maxDigits upto l n ∧ NoDigit radix.toNat x ∧
        readNumber radix maxDigits upto p = .ok (some n, x)) ∨
      readNumber radix maxDigits upto p = .ok (none, p) := by
  obtain ⟨ds, x, rfl, hds, hx⟩ := exists_digits radix.toNat p
  rw [readNumber_eq hr hup hds hx]
  cases hacc : accepted radix.toNat maxDigits upto ds with
  | none => exact .inr rfl
  | some n => exact .inl ⟨ds, n, x, rfl, number_of_accepted hds hacc, hx, rfl⟩

end

end Tortis.Net
