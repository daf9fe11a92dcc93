import Mathlib.Data.Nat.Bitwise
import Tortis.Lib.Outcome

/-!
# Slots and rings of slots

Memory whose slots may be uninitialised. Reading such a slot, reaching out of the memory and copying
between blocks that overlap when they must not halt, so a run that returns has done none of it.

Memory used as a ring: after the last slot comes the first. `pos` is the slot some places after
another, `Holds` says that the slots from one on hold the elements of a list.
-/

namespace Tortis

open Outcome List

/-- Memory: a slot that is not initialised, or whose element was moved out, is `none`. -/
abbrev Slots (α : Type) := List (Option α)

namespace Slots

variable {α : Type}

section
variable (buf : Slots α)

def slot (p : Nat) : Option α := buf[p]?.join

def read (buf : Slots α) (p : Nat) : Outcome α :=
  expect "an uninitialised slot is read" (slot buf p)

/-- `ptr::read`: the element is moved out. -/
def moveOut (p : Nat) : Outcome (α × Slots α) := do
  let a ← read buf p
  .ok (a, buf.set p none)

def write (buf : Slots α) (p : Nat) (a : α) : Outcome (Slots α) :=
  if p < buf.length then .ok (buf.set p (some a)) else .error (.panic "write out of bounds")

def readBlock (src len : Nat) : Outcome (List α) :=
  (range len).mapM fun i => read buf (src + i)

def writeBlock (dst : Nat) (block : List α) : Outcome (Slots α) :=
  if dst + block.length ≤ buf.length then
    .ok (buf.take dst ++ block.map some ++ buf.drop (dst + block.length))
  else .error (.panic "write out of bounds")

/-- `ptr::copy`: the blocks may overlap. -/
def copy (dst src len : Nat) : Outcome (Slots α) := do
  let block ← readBlock buf src len
  writeBlock buf dst block

/-- `ptr::copy_nonoverlapping`, within one memory. -/
def copyNonoverlapping (dst src len : Nat) : Outcome (Slots α) := do
  assert (src + len ≤ dst || dst + len ≤ src) "the blocks overlap"
  buf.copy dst src len

/-- `ptr::copy_nonoverlapping`, from another memory. -/
def copyFrom (dst : Nat) (other : Slots α) (src len : Nat) :
    Outcome (Slots α) := do
  let block ← readBlock other src len
  writeBlock buf dst block

end

/-! ## What is in the slots -/

variable {buf buf' : Slots α} {p q dst src len : Nat} {a : α}

theorem read_eq (h : slot buf p = some a) : read buf p = .ok a := by
  rw [read, h, expect_some]

theorem slot_set (x : Option α) (hp : p < buf.length) :
    slot (buf.set p x) q = if q = p then x else slot buf q := by
  by_cases h : q = p
  · rw [if_pos h, slot, h, getElem?_set_self hp]
    rfl
  · rw [if_neg h, slot, slot, getElem?_set_ne (Ne.symm h)]

theorem moveOut_eq (h : slot buf p = some a) : moveOut buf p = .ok (a, buf.set p none) := by
  rw [moveOut, read_eq h, ok_bind]

theorem write_eq (h : p < buf.length) (a : α) : write buf p a = .ok (buf.set p (some a)) :=
  if_pos h

theorem readBlock_spec (h : ∀ i, i < len → (slot buf (src + i)).isSome) :
    ∃ block, readBlock buf src len = .ok block ∧ block.length = len ∧
      ∀ i, i < len → block[i]? = slot buf (src + i) := by
  induction len with
  | zero => exact ⟨[], rfl, rfl, fun i hi => absurd hi (Nat.not_lt_zero i)⟩
  | succ len ih =>
    obtain ⟨block, hread, hlen, hblock⟩ := ih fun i hi => h i (by omega)
    obtain ⟨a, ha⟩ := Option.isSome_iff_exists.1 (h len (by omega))
    refine ⟨block ++ [a], ?_, by simp [hlen], fun i hi => ?_⟩
    · rw [readBlock, range_succ, mapM_append, ← readBlock, hread, ok_bind, mapM_cons, read_eq ha]
      rfl
    · rw [getElem?_append]
      split
      · exact hblock i (by omega)
      · obtain rfl : i = len := by omega
        rw [hlen, Nat.sub_self, ha]
        rfl

theorem writeBlock_spec {block : List α} (h : dst + block.length ≤ buf.length) :
    ∃ buf', writeBlock buf dst block = .ok buf' ∧ buf'.length = buf.length ∧
      ∀ p, slot buf' p =
        if dst ≤ p ∧ p < dst + block.length then block[p - dst]? else slot buf p := by
  refine ⟨_, if_pos h, by simp; omega, fun p => ?_⟩
  have htake : (buf.take dst).length = dst := by simp; omega
  rw [slot, slot]
  rcases lt_or_ge p dst with hp | hp
  · rw [if_neg (by omega), append_assoc, getElem?_append_left (by omega), getElem?_take_of_lt hp]
  · rw [append_assoc, getElem?_append_right (by omega), htake]
    rcases lt_or_ge p (dst + block.length) with hp' | hp'
    · rw [if_pos ⟨hp, hp'⟩, getElem?_append_left (by simp; omega), getElem?_map]
      cases block[p - dst]? <;> rfl
    · rw [if_neg (by omega), getElem?_append_right (by simp; omega), length_map,
        getElem?_drop, show dst + block.length + (p - dst - block.length) = p by omega]

/-- Where a slot of a block has its element from. -/
@[grind] def origin (dst src len p : Nat) : Nat := if dst ≤ p ∧ p < dst + len then src + (p - dst) else p

theorem copy_spec (hdst : dst + len ≤ buf.length)
    (hsrc : ∀ p, src ≤ p → p < src + len → (slot buf p).isSome) :
    ∃ buf', copy buf dst src len = .ok buf' ∧ buf'.length = buf.length ∧
      ∀ p, slot buf' p = slot buf (origin dst src len p) := by
  obtain ⟨block, hread, hlen, hblock⟩ :=
    @readBlock_spec _ _ _ len fun i hi => hsrc (src + i) (by omega) (by omega)
  obtain ⟨buf', hwrite, hlength, hbuf'⟩ := @writeBlock_spec _ _ _ block (hlen.symm ▸ hdst)
  refine ⟨buf', by rw [copy, hread, ok_bind, hwrite], hlength, fun p => ?_⟩
  rw [hbuf', origin, hlen]
  split
  · next hp => exact hblock _ (by omega)
  · rfl

end Slots

end Tortis

/-! ## Rings of slots -/

namespace Tortis.SlotRing

open Slots List

/-- The slot `k` places after `start`. -/
@[grind] def pos (cap start k : Nat) : Nat := if start + k < cap then start + k else start + k - cap

variable {cap start k : Nat}

theorem pos_of_lt (h : start + k < cap) : pos cap start k = start + k := if_pos h

theorem pos_of_le (h : cap ≤ start + k) : pos cap start k = start + k - cap :=
  if_neg (Nat.not_lt.2 h)

variable {cap start i j : Nat}

theorem pos_pos (hstart : start < cap) (h : i + j < cap) :
    pos cap (pos cap start i) j = pos cap start (i + j) := by
  simp only [pos]
  split_ifs <;> omega

theorem pos_ne (hi : i < cap) (hj : j < cap) (hne : i ≠ j) : pos cap start i ≠ pos cap start j := by
  simp only [pos]
  split_ifs <;> omega

theorem pos_lt {cap start i : Nat} (hstart : start < cap) (hi : i ≤ cap) :
    pos cap start i < cap := by
  rw [pos]
  split_ifs <;> omega

/-- The slots from `start` on hold the elements of a list. -/
def Holds {α : Type} (buf : Slots α) (start : Nat) (l : List α) : Prop :=
  ∀ k, k < l.length → slot buf (pos buf.length start k) = l[k]?

section
variable {α : Type} {buf buf' : Slots α} {start : Nat} {l l' : List α}

theorem Holds.isSome (h : Holds buf start l) {k : Nat} (hk : k < l.length) :
    (slot buf (pos buf.length start k)).isSome := by
  rw [h k hk, getElem?_eq_getElem hk]
  rfl

theorem holds_append (hstart : start < buf.length) (hlen : l.length + l'.length ≤ buf.length) :
    Holds buf start (l ++ l') ↔
      Holds buf start l ∧ Holds buf (pos buf.length start l.length) l' := by
  have hpos : ∀ k, k < l'.length → pos buf.length start (l.length + k) =
      pos buf.length (pos buf.length start l.length) k := by
    intro k hk
    simp only [pos]
    split_ifs <;> omega
  constructor
  · intro h
    refine ⟨fun k hk => ?_, fun k hk => ?_⟩
    · rw [h k (by rw [length_append]; omega), getElem?_append_left hk]
    · rw [← hpos k hk, h _ (by rw [length_append]; omega),
        getElem?_append_right (Nat.le_add_right _ _), Nat.add_sub_cancel_left]
  · rintro ⟨h, h'⟩ k hk
    rw [length_append] at hk
    rcases lt_or_ge k l.length with hlt | hge
    · rw [h k hlt, getElem?_append_left hlt]
    · have := h' (k - l.length) (by omega)
      rw [← hpos _ (by omega), show l.length + (k - l.length) = k by omega] at this
      rw [this, getElem?_append_right hge]

theorem Holds.congr (h : Holds buf start l) (hlen : buf'.length = buf.length)
    (hsame : ∀ k, k < l.length →
      slot buf' (pos buf.length start k) = slot buf (pos buf.length start k)) :
    Holds buf' start l := by
  intro k hk
  rw [hlen, hsame k hk, h k hk]

end

/-! ## Masks -/

section
variable {k x a b : Nat}

theorem and_mask (hx : x < 2 * 2 ^ k) : x &&& (2 ^ k - 1) = if x < 2 ^ k then x else x - 2 ^ k := by
  rw [Nat.and_two_pow_sub_one_eq_mod]
  split
  · next h => exact Nat.mod_eq_of_lt h
  · next h => rw [Nat.mod_eq_sub_mod (by omega), Nat.mod_eq_of_lt (by omega)]

theorem sub_and_mask {w : Nat} (hk : k ≤ w) (ha : a < 2 ^ k) (hb : b ≤ 2 ^ k) :
    (a + 2 ^ w - b) % 2 ^ w &&& (2 ^ k - 1) = if b ≤ a then a - b else a + 2 ^ k - b := by
  have hdvd : 2 ^ k ∣ 2 ^ w := pow_dvd_pow 2 hk
  rw [Nat.and_two_pow_sub_one_eq_mod, Nat.mod_mod_of_dvd _ hdvd]
  split
  · next h =>
    obtain ⟨c, hc⟩ := hdvd
    rw [show a + 2 ^ w - b = a - b + 2 ^ k * c by omega, Nat.add_mul_mod_self_left,
      Nat.mod_eq_of_lt (by omega)]
  · next h =>
    obtain ⟨c, hc⟩ := hdvd
    obtain ⟨c, rfl⟩ : ∃ c', c = c' + 1 := ⟨c - 1, by
      rcases c with _ | c
      · simp at hc
      · rfl⟩
    rw [mul_add, mul_one] at hc
    rw [show a + 2 ^ w - b = a + 2 ^ k - b + 2 ^ k * c by omega, Nat.add_mul_mod_self_left,
      Nat.mod_eq_of_lt (by omega)]

end

end Tortis.SlotRing
