import Tortis.Net.Reading

/-!
# Reading quads and groups

`read_ipv4_addr` reads a quad, and `read_groups` the groups at the start of a text. A group is not
taken for the start of a quad, as no dot follows it.
-/

namespace Tortis.Net

open Outcome List

/-! ## Quads -/

section
variable {l x p : List UInt8} {a : UInt8} {n i : Nat} {bs : List UInt8}

theorem readOctets_step (h : Octet l a) (hx : NoDigit 10 x) :
    readOctets (n + 1) i bs (sep '.' (decide (i = 0)) ++ (l ++ x)) =
      readOctets n (i + 1) (bs.set i a) x := by
  rw [readOctets, readSep_eq, ok_bind]
  dsimp only
  rw [if_pos rfl, @readNumber_some 10 3 0x100 (.inl rfl) l x a.toNat h hx, ok_bind]
  dsimp only
  rw [UInt8.ofNat_toNat]

theorem readOctets_cases (n i : Nat) (bs p : List UInt8) :
    (∃ l a x, p = sep '.' (decide (i = 0)) ++ (l ++ x) ∧ Octet l a ∧ NoDigit 10 x ∧
        readOctets (n + 1) i bs p = readOctets n (i + 1) (bs.set i a) x) ∨
      ∃ x, readOctets (n + 1) i bs p = .ok (none, x) := by
  rcases readSep_cases '.' i p with ⟨y, rfl, hsep⟩ | ⟨-, -, hsep⟩
  · rcases @readNumber_cases 10 3 0x100 (.inl rfl) (by decide) y with
      ⟨l, m, x, rfl, hnum, hx, hread⟩ | hread
    · have hm : (UInt8.ofNat m).toNat = m := UInt8.toNat_ofNat_of_lt' hnum.lt
      have hoctet : Octet l (UInt8.ofNat m) := by
        rw [Octet, hm]
        exact hnum
      exact .inl ⟨l, UInt8.ofNat m, x, rfl, hoctet, hx, readOctets_step hoctet hx⟩
    · refine .inr ⟨y, ?_⟩
      rw [readOctets, hsep, ok_bind]
      dsimp only
      rw [if_pos rfl, hread, ok_bind]
  · refine .inr ⟨p, ?_⟩
    rw [readOctets, hsep, ok_bind]
    rfl

end

theorem noDigit_ascii {radix : Nat} {c : Char} (h : digit radix (ascii c) = none)
    (x : List UInt8) : NoDigit radix (ascii c :: x) := fun b hb => by
  cases hb
  exact h

theorem noDigit_dot (x : List UInt8) : NoDigit 10 (ascii '.' :: x) :=
  noDigit_ascii (by decide) x

theorem readIpv4Addr_some {l x : List UInt8} {a : Ipv4Addr} (h : Quad l a) (hx : NoDigit 10 x) :
    readIpv4Addr (l ++ x) = .ok (some a, x) := by
  obtain ⟨l1, l2, l3, l4, h1, h2, h3, h4, rfl⟩ := h
  refine readAtomically_some ?_
  have hrun : readOctets 4 0 [0, 0, 0, 0] (l1 ++ ascii '.' :: (l2 ++ ascii '.' :: (l3 ++
      ascii '.' :: l4)) ++ x) = .ok (some [a.a, a.b, a.c, a.d], x) := by
    have hassoc : l1 ++ ascii '.' :: (l2 ++ ascii '.' :: (l3 ++ ascii '.' :: l4)) ++ x =
        l1 ++ (ascii '.' :: (l2 ++ (ascii '.' :: (l3 ++ (ascii '.' :: (l4 ++ x)))))) := by simp
    rw [hassoc]
    refine (readOctets_step h1 (noDigit_dot _)).trans ?_
    refine (readOctets_step h2 (noDigit_dot _)).trans ?_
    refine (readOctets_step h3 (noDigit_dot _)).trans ?_
    exact readOctets_step h4 hx
  rw [readIpv4AddrImpl, hrun]
  rfl

theorem readIpv4Addr_cases (p : List UInt8) :
    (∃ l a x, p = l ++ x ∧ Quad l a ∧ NoDigit 10 x ∧ readIpv4Addr p = .ok (some a, x)) ∨
      readIpv4Addr p = .ok (none, p) := by
  have hfail : ∀ x, readOctets 4 0 [0, 0, 0, 0] p = .ok (none, x) →
      readIpv4Addr p = .ok (none, p) := fun x hx =>
    readAtomically_none (x := x) (by rw [readIpv4AddrImpl, hx]; rfl)
  rcases readOctets_cases 3 0 [0, 0, 0, 0] p with ⟨l1, a, x1, h1, o1, -, r1⟩ | ⟨x, r1⟩
  swap
  · exact .inr (hfail x r1)
  rcases readOctets_cases 2 1 [a, 0, 0, 0] x1 with ⟨l2, b, x2, h2, o2, -, r2⟩ | ⟨x, r2⟩
  swap
  · exact .inr (hfail x (r1.trans r2))
  rcases readOctets_cases 1 2 [a, b, 0, 0] x2 with ⟨l3, c, x3, h3, o3, -, r3⟩ | ⟨x, r3⟩
  swap
  · exact .inr (hfail x (r1.trans (r2.trans r3)))
  rcases readOctets_cases 0 3 [a, b, c, 0] x3 with ⟨l4, d, x4, h4, o4, hx4, r4⟩ | ⟨x, r4⟩
  swap
  · exact .inr (hfail x (r1.trans (r2.trans (r3.trans r4))))
  have hquad : Quad (l1 ++ ascii '.' :: (l2 ++ ascii '.' :: (l3 ++ ascii '.' :: l4))) ⟨a, b, c, d⟩ :=
    ⟨l1, l2, l3, l4, o1, o2, o3, o4, rfl⟩
  have hp : p = l1 ++ ascii '.' :: (l2 ++ ascii '.' :: (l3 ++ ascii '.' :: l4)) ++ x4 := by
    rw [h1, h2, h3, h4]
    simp [sep]
  refine .inl ⟨_, _, x4, hp, hquad, hx4, ?_⟩
  rw [hp]
  exact readIpv4Addr_some hquad hx4

/-- What follows a text of groups: nothing, or `::`. -/
def Stop (x : List UInt8) : Prop := x = [] ∨ ∃ y, x = ascii ':' :: ascii ':' :: y

/-- What follows a group: nothing, or a colon. -/
def Colon (x : List UInt8) : Prop := x = [] ∨ ∃ y, x = ascii ':' :: y

theorem Stop.colon {x : List UInt8} (h : Stop x) : Colon x := by
  rcases h with rfl | ⟨y, rfl⟩
  · exact .inl rfl
  · exact .inr ⟨_, rfl⟩

theorem Colon.noDigit {x : List UInt8} (h : Colon x) {radix : Nat}
    (hr : radix = 10 ∨ radix = 16) : NoDigit radix x := by
  rcases h with rfl | ⟨y, rfl⟩
  · exact nofun
  · refine noDigit_ascii ?_ y
    rcases hr with rfl | rfl <;> decide

theorem Colon.ne_dot {x : List UInt8} (h : Colon x) : ∀ b ∈ x.head?, b ≠ ascii '.' := by
  rcases h with rfl | ⟨y, rfl⟩
  · exact nofun
  · intro b hb
    cases hb
    decide

theorem readIpv4Addr_none {l x : List UInt8} (hl : Digits 16 l) (hx : Colon x) :
    readIpv4Addr (l ++ x) = .ok (none, l ++ x) := by
  rcases readIpv4Addr_cases (l ++ x) with ⟨m, a, y, heq, hquad, -, -⟩ | hnone
  · obtain ⟨l1, l2, l3, l4, h1, -, -, -, rfl⟩ := hquad
    have hassoc : l ++ x = l1 ++ ascii '.' :: ((l2 ++ ascii '.' :: (l3 ++ ascii '.' :: l4)) ++ y) := by
      rw [heq]
      simp
    obtain ⟨-, hdot⟩ := digits_unique hl (fun b hb => digit_sixteen (h1.digits b hb))
      (hx.noDigit (.inr rfl)) (noDigit_ascii (by decide) _) hassoc
    exact absurd rfl (hx.ne_dot (ascii '.') (by rw [hdot]; rfl))
  · exact hnone

/-! ## One group -/

section
variable {i limit : Nat} {l x p : List UInt8} {a : Ipv4Addr} {g : UInt16}

theorem readIpv4Part_some (h : Quad l a) (hx : NoDigit 10 x) :
    readIpv4Part i (sep ':' (decide (i = 0)) ++ (l ++ x)) = .ok (some a, x) := by
  refine readAtomically_some ?_
  rw [readSep_eq, ok_bind]
  exact readIpv4Addr_some h hx

theorem readIpv4Part_none (hl : Digits 16 l) (hx : Colon x) :
    readIpv4Part i (sep ':' (decide (i = 0)) ++ (l ++ x)) =
      .ok (none, sep ':' (decide (i = 0)) ++ (l ++ x)) := by
  refine readAtomically_none (x := l ++ x) ?_
  rw [readSep_eq, ok_bind]
  exact readIpv4Addr_none hl hx

theorem readIpv4Part_cases (i : Nat) (p : List UInt8) :
    (∃ l a x, p = sep ':' (decide (i = 0)) ++ (l ++ x) ∧ Quad l a ∧
        readIpv4Part i p = .ok (some a, x)) ∨ readIpv4Part i p = .ok (none, p) := by
  rcases readSep_cases ':' i p with ⟨y, rfl, hsep⟩ | ⟨-, -, hsep⟩
  · rcases readIpv4Addr_cases y with ⟨l, a, x, rfl, hquad, hx, -⟩ | hread
    · exact .inl ⟨l, a, x, rfl, hquad, readIpv4Part_some hquad hx⟩
    · refine .inr (readAtomically_none (x := y) ?_)
      rw [hsep, ok_bind]
      exact hread
  · refine .inr (readAtomically_none (x := p) ?_)
    rw [hsep, ok_bind]
    rfl

theorem readGroup_some (h : Group l g) (hx : NoDigit 16 x) :
    readGroup i (sep ':' (decide (i = 0)) ++ (l ++ x)) = .ok (some g, x) := by
  refine readAtomically_some ?_
  rw [readSep_eq, ok_bind]
  dsimp only
  rw [if_pos rfl, @readNumber_some 16 4 0x10000 (.inr rfl) l x g.toNat h hx, ok_bind,
    Option.map_some, UInt16.ofNat_toNat]

theorem readGroup_cases (i : Nat) (p : List UInt8) :
    (∃ l g x, p = sep ':' (decide (i = 0)) ++ (l ++ x) ∧ Group l g ∧
        readGroup i p = .ok (some g, x)) ∨ readGroup i p = .ok (none, p) := by
  rcases readSep_cases ':' i p with ⟨y, rfl, hsep⟩ | ⟨-, -, hsep⟩
  · rcases @readNumber_cases 16 4 0x10000 (.inr rfl) (by decide) y with
      ⟨l, n, x, rfl, hnum, hx, -⟩ | hread
    · have hn : (UInt16.ofNat n).toNat = n := UInt16.toNat_ofNat_of_lt' hnum.lt
      have hgroup : Group l (UInt16.ofNat n) := by
        rw [Group, hn]
        exact hnum
      exact .inl ⟨l, UInt16.ofNat n, x, rfl, hgroup, readGroup_some hgroup hx⟩
    · refine .inr (readAtomically_none (x := y) ?_)
      rw [hsep, ok_bind]
      dsimp only
      rw [if_pos rfl, hread, ok_bind]
      rfl
  · refine .inr (readAtomically_none (x := p) ?_)
    rw [hsep, ok_bind]
    rfl

theorem Stop.not_digit {radix : Nat} {b : UInt8} (hr : radix = 10 ∨ radix = 16)
    (hx : Stop (sep ':' (decide (i = 0)) ++ b :: p)) : digit radix b = none := by
  have hcolon : digit radix (ascii ':') = none := by rcases hr with rfl | rfl <;> decide
  have hb : b = ascii ':' := by
    cases i with
    | zero =>
      rcases hx with hnil | ⟨z, hz⟩
      · cases hnil
      · exact (List.cons.inj hz).1
    | succ i =>
      rcases hx with hnil | ⟨z, hz⟩
      · cases hnil
      · exact (List.cons.inj (List.cons.inj hz).2).1
  rw [hb, hcolon]

theorem readGroup_stop (i : Nat) (hx : Stop x) : readGroup i x = .ok (none, x) := by
  rcases readGroup_cases i x with ⟨l, g, y, rfl, hgroup, -⟩ | hnone
  · obtain ⟨b, l, rfl⟩ := exists_cons_of_ne_nil hgroup.ne_nil
    have hb : (digit 16 b).isSome := hgroup.digits b mem_cons_self
    rw [hx.not_digit (.inr rfl)] at hb
    cases hb
  · exact hnone

theorem readIpv4Part_stop (i : Nat) (hx : Stop x) : readIpv4Part i x = .ok (none, x) := by
  rcases readIpv4Part_cases i x with ⟨l, a, y, rfl, hquad, -⟩ | hnone
  · obtain ⟨l1, l2, l3, l4, h1, -, -, -, rfl⟩ := hquad
    obtain ⟨b, l, rfl⟩ := exists_cons_of_ne_nil h1.ne_nil
    have hb : (digit 10 b).isSome := h1.digits b mem_cons_self
    rw [hx.not_digit (.inl rfl)] at hb
    cases hb
  · exact hnone

end

/-! ## The groups -/

section
variable {limit : Nat}

theorem readIpv4Within_none {i : Nat} {p : List UInt8} (h : readIpv4Part i p = .ok (none, p)) :
    readIpv4Within limit i p = .ok (none, p) := by
  rw [readIpv4Within]
  split
  · exact h
  · rfl

theorem take_set_succ {groups : List UInt16} {i : Nat} (h : i < groups.length) (g : UInt16) :
    (groups.set i g).take (i + 1) = groups.take i ++ [g] := by
  rw [take_add_one, getElem?_set_self h, take_set_of_le le_rfl]
  rfl

theorem take_set_quad {groups : List UInt16} {i : Nat} (h : i + 1 < groups.length) (g g' : UInt16) :
    ((groups.set i g).set (i + 1) g').take (i + 2) = groups.take i ++ [g, g'] := by
  rw [take_set_succ (by rw [length_set]; exact h), take_set_succ (Nat.lt_of_succ_lt h)]
  simp

theorem readGroups_sound (hlimit : limit ≤ 8) : ∀ {n i : Nat} {groups : List UInt16}
    (p : List UInt8), limit < i + n → i ≤ limit → groups.length = 8 →
      ∃ l gs quad groups' x, p = l ++ x ∧ Groups (decide (i = 0)) quad l gs ∧
        i + gs.length ≤ limit ∧ groups'.length = 8 ∧
        groups'.take (i + gs.length) = groups.take i ++ gs ∧
        readGroups limit n i groups p = .ok ((i + gs.length, quad), groups', x)
  | 0, i, groups, p, hn, hi, _ => by omega
  | n + 1, i, groups, p, hn, hi, hlen => by
    have hend : ∃ l gs quad groups' x, p = l ++ x ∧ Groups (decide (i = 0)) quad l gs ∧
        i + gs.length ≤ limit ∧ groups'.length = 8 ∧
        groups'.take (i + gs.length) = groups.take i ++ gs ∧
        (.ok ((i, false), groups, p) : Outcome ((Nat × Bool) × List UInt16 × List UInt8)) =
          .ok ((i + gs.length, quad), groups', x) :=
      ⟨[], [], false, groups, p, rfl, .none, hi, hlen, (append_nil _).symm, rfl⟩
    rw [readGroups]
    split
    swap
    · exact hend
    next hlt =>
    have hgroup : ∀ f : Option UInt16 × List UInt8 → _,
        (∀ g x, f (some g, x) = readGroups limit n (i + 1) (groups.set i g) x) →
        (∀ x, f (none, x) = .ok ((i, false), groups, x)) →
        ∃ l gs quad groups' x, p = l ++ x ∧ Groups (decide (i = 0)) quad l gs ∧
        i + gs.length ≤ limit ∧ groups'.length = 8 ∧
        groups'.take (i + gs.length) = groups.take i ++ gs ∧
        (readGroup i p >>= f) = .ok ((i + gs.length, quad), groups', x) := by
      intro f hsome hnone
      rcases readGroup_cases i p with ⟨l, g, x, rfl, hg, hread⟩ | hread
      · obtain ⟨m, gs, quad, groups', y, rfl, hgs, hle, hlen', htake, hrun⟩ :=
          @readGroups_sound hlimit n (i + 1) (groups.set i g) x (by omega) hlt
            (by rw [length_set, hlen])
        have hcount : i + (g :: gs).length = i + 1 + gs.length := by
          rw [length_cons]
          omega
        refine ⟨sep ':' (decide (i = 0)) ++ l ++ m, g :: gs, quad, groups', y, by simp,
          .group hg hgs, by rw [hcount]; exact hle, hlen', ?_, ?_⟩
        · rw [hcount, htake, take_set_succ (by omega), append_assoc]
          rfl
        · rw [hread, ok_bind, hcount, hsome]
          exact hrun
      · rw [hread, ok_bind, hnone]
        exact hend
    rw [readIpv4Within]
    split
    · next hlt' =>
      rcases readIpv4Part_cases i p with ⟨l, a, x, rfl, hquad, hread⟩ | hread
      · refine ⟨sep ':' (decide (i = 0)) ++ l, a.groups, true, _, x, by simp, .quad hquad, ?_, ?_,
          take_set_quad (by omega) _ _, ?_⟩
        · change i + 2 ≤ limit
          omega
        · rw [length_set, length_set, hlen]
        · rw [hread, ok_bind]
          rfl
      · rw [hread, ok_bind]
        exact hgroup _ (fun _ _ => rfl) fun _ => rfl
    · exact hgroup _ (fun _ _ => rfl) fun _ => rfl

theorem Groups.colon {quad : Bool} {m x : List UInt8} {gs : List UInt16}
    (h : Groups false quad m gs) (hx : Stop x) : Colon (m ++ x) := by
  cases h with
  | none => exact hx.colon
  | group hg hgs => exact .inr ⟨_, rfl⟩
  | quad hq => exact .inr ⟨_, rfl⟩

theorem readGroups_complete (hlimit : limit ≤ 8) {x : List UInt8} (hx : Stop x) {first quad : Bool}
    {l : List UInt8} {gs : List UInt16} (h : Groups first quad l gs) :
    ∀ {n i : Nat} {groups : List UInt16}, first = decide (i = 0) → limit < i + n →
      i + gs.length ≤ limit → groups.length = 8 → ∃ groups', groups'.length = 8 ∧
        groups'.take (i + gs.length) = groups.take i ++ gs ∧
        readGroups limit n i groups (l ++ x) = .ok ((i + gs.length, quad), groups', x) := by
  induction h with
  | @none first =>
    intro n i groups hfirst hn hle hlen
    obtain ⟨n, rfl⟩ := Nat.exists_eq_succ_of_ne_zero (show n ≠ 0 by omega)
    refine ⟨groups, hlen, (append_nil _).symm, ?_⟩
    rw [nil_append, readGroups]
    split
    · rw [readIpv4Within_none (readIpv4Part_stop i hx), ok_bind]
      dsimp only
      rw [readGroup_stop i hx, ok_bind]
      rfl
    · rfl
  | @group first quad l m g gs hg hgs ih =>
    intro n i groups hfirst hn hle hlen
    obtain ⟨n, rfl⟩ := Nat.exists_eq_succ_of_ne_zero (show n ≠ 0 by omega)
    rw [length_cons] at hle
    have hlt : i < limit := by omega
    have hcolon := hgs.colon hx
    obtain ⟨groups', hlen', htake, hrun⟩ := @ih n (i + 1) (groups.set i g)
      (decide_eq_false (Nat.succ_ne_zero i)).symm (by omega) (by omega)
      (by rw [length_set, hlen])
    have hcount : i + (g :: gs).length = i + 1 + gs.length := by
      rw [length_cons]
      omega
    have hp : sep ':' first ++ l ++ m ++ x = sep ':' (decide (i = 0)) ++ (l ++ (m ++ x)) := by
      rw [hfirst]
      simp
    refine ⟨groups', hlen', ?_, ?_⟩
    · rw [hcount, htake, take_set_succ (by omega), append_assoc]
      rfl
    · rw [hp, readGroups, if_pos hlt,
        readIpv4Within_none (readIpv4Part_none hg.digits hcolon), ok_bind]
      dsimp only
      rw [readGroup_some hg (hcolon.noDigit (.inr rfl)), ok_bind, hcount]
      exact hrun
  | @quad first l a hq =>
    intro n i groups hfirst hn hle hlen
    obtain ⟨n, rfl⟩ := Nat.exists_eq_succ_of_ne_zero (show n ≠ 0 by omega)
    change i + 2 ≤ limit at hle
    have hlt : i < limit := by omega
    have hlt' : i < limit - 1 := by omega
    have hp : sep ':' first ++ l ++ x = sep ':' (decide (i = 0)) ++ (l ++ x) := by
      rw [hfirst]
      simp
    refine ⟨_, ?_, @take_set_quad groups i (by omega) _ _, ?_⟩
    · rw [length_set, length_set, hlen]
    · rw [hp, readGroups, if_pos hlt, readIpv4Within, if_pos hlt',
        readIpv4Part_some hq (hx.colon.noDigit (.inl rfl)), ok_bind]
      rfl

end

end Tortis.Net
