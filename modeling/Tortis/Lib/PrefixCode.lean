import Mathlib.Data.List.Infix

/-!
# Prefix codes

An encoding of symbols as lists of which none is a prefix of another one's (`PrefixFree`). A list
then is the encoding of at most one sequence of symbols (`flatMap_injective`), and a list that is
taken apart from the front until no symbol fits has been taken apart as far as it can be
(`longest`).
-/

namespace Tortis.PrefixCode

open List

variable {α β : Type} {enc : α → List β} {a b : α} {as bs : List α} {l m : List β}

/-- No encoding is empty, and none is a prefix of another one. -/
structure PrefixFree (enc : α → List β) : Prop where
  ne_nil : ∀ a, enc a ≠ []
  eq_of_isPrefix : ∀ a b, enc a <+: enc b → a = b

section
variable (enc : α → List β)

/-- The list is the encoding of a sequence of symbols. -/
def Encoded (l : List β) : Prop := ∃ as : List α, as.flatMap enc = l

/-- The list is a part of the encoding of a symbol, but not all of it. -/
def ProperPrefix (l : List β) : Prop := ∃ a, l <+: enc a ∧ l ≠ enc a

/-- No symbol can be taken from the front. -/
def Stuck (l : List β) : Prop := ∀ a, ¬ enc a <+: l

end

theorem Encoded.nil : Encoded enc [] := ⟨[], rfl⟩

theorem Encoded.append (h : Encoded enc l) (h' : Encoded enc m) : Encoded enc (l ++ m) := by
  obtain ⟨as, rfl⟩ := h
  obtain ⟨bs, rfl⟩ := h'
  exact ⟨as ++ bs, flatMap_append⟩

theorem PrefixFree.of_decode (decode : List β → Option (α × List β))
    (hne : ∀ a, enc a ≠ []) (h : ∀ a l, decode (enc a ++ l) = some (a, l)) : PrefixFree enc where
  ne_nil := hne
  eq_of_isPrefix a b := by
    rintro ⟨t, ht⟩
    have hb := h b []
    rw [append_nil, ← ht, h a t] at hb
    cases hb
    rfl

theorem PrefixFree.append_inj (h : PrefixFree enc) (heq : enc a ++ l = enc b ++ m) :
    a = b ∧ l = m := by
  have hab : a = b := by
    rcases prefix_or_prefix_of_prefix ⟨l, heq⟩ (prefix_append (enc b) m) with hp | hp
    · exact h.eq_of_isPrefix a b hp
    · exact (h.eq_of_isPrefix b a hp).symm
  subst hab
  exact ⟨rfl, append_cancel_left heq⟩

theorem PrefixFree.flatMap_append_isPrefix (h : PrefixFree enc) (hstuck : Stuck enc m) :
    ∀ {as bs : List α}, bs.flatMap enc <+: as.flatMap enc ++ m →
      bs.flatMap enc <+: as.flatMap enc
  | _, [], _ => nil_prefix
  | [], b :: bs, hp => by
    refine absurd ?_ (hstuck b)
    exact (prefix_append _ _).trans hp
  | a :: as, b :: bs, hp => by
    rw [flatMap_cons, flatMap_cons, append_assoc] at hp
    obtain ⟨t, ht⟩ := hp
    rw [append_assoc] at ht
    obtain ⟨rfl, heq⟩ := h.append_inj ht
    exact prefix_append_right_inj _ |>.2 (flatMap_append_isPrefix h hstuck ⟨t, heq⟩)

theorem PrefixFree.longest (h : PrefixFree enc) (hstuck : Stuck enc m) {n : Nat}
    (hn : n ≤ (as.flatMap enc ++ m).length) (henc : Encoded enc ((as.flatMap enc ++ m).take n)) :
    n ≤ (as.flatMap enc).length := by
  obtain ⟨bs, hbs⟩ := henc
  have hp : bs.flatMap enc <+: as.flatMap enc ++ m := hbs ▸ take_prefix _ _
  have hlen := (h.flatMap_append_isPrefix hstuck hp).length_le
  rwa [hbs, length_take, min_eq_left hn] at hlen

theorem PrefixFree.flatMap_injective (h : PrefixFree enc) :
    ∀ {as bs : List α}, as.flatMap enc = bs.flatMap enc → as = bs
  | [], [], _ => rfl
  | [], b :: bs, heq => by
    exact absurd (append_eq_nil_iff.1 heq.symm).1 (h.ne_nil b)
  | a :: as, [], heq => by
    exact absurd (append_eq_nil_iff.1 heq).1 (h.ne_nil a)
  | a :: as, b :: bs, heq => by
    obtain ⟨rfl, htail⟩ := h.append_inj heq
    rw [flatMap_injective h htail]

end Tortis.PrefixCode
