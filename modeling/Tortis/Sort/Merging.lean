import Tortis.Sort.MergeSort

/-!
# Insertion and merging in place

`insert_head` inserts the first element of a slice into the other ones. `merge` merges two parts of
a slice, from the front when the left one is shorter and else from the back; while it runs, the
slice has as many places to fill as the buffer has elements left.
-/

namespace Tortis.Sort

open Slice Compare Outcome List

variable {α σ : Type} {isLess : IsLess α σ}

theorem returns_onRange {β : Type} {f : List α → Asking σ (β × List α)} {P : β × List α → Prop}
    {a b c : List α} {l r : Nat} (hl : l = a.length) (hr : r = a.length + b.length)
    (hf : Returns (f b) P) :
    Returns (onRange (a ++ b ++ c) l r f) fun p => ∃ b', P (p.1, b') ∧ p.2 = a ++ b' ++ c := by
  subst hl hr
  refine .lift_bind (b := ()) ?_ ?_
  · rw [assert, if_pos]
    simp
  · rw [take_parts, drop_left, drop_parts, append_assoc a b c, take_left]
    exact .bind hf fun p hp => .pure ⟨p.2, hp, rfl⟩

theorem returns_inRange {f : List α → Asking σ (List α)} {P : List α → Prop} {a b c : List α}
    {l r : Nat} (hl : l = a.length) (hr : r = a.length + b.length) (hf : Returns (f b) P) :
    Returns (inRange (a ++ b ++ c) l r f) fun v => ∃ b', P b' ∧ v = a ++ b' ++ c := by
  have hpair : Returns (do
      let s ← f b
      pure ((), s)) fun p => P p.2 := .bind hf fun _ hb => .pure hb
  exact .bind (returns_onRange hl hr hpair) fun _ hp => .pure hp

/-! ## `insert_head` -/

theorem returns_insertHeadLoop {tmp : α} {b : List α} : ∀ {a : List α} {x : α},
    Returns (insertHeadLoop isLess tmp b.length (a.length + 1) a.length (a ++ x :: b)) fun p =>
      ∃ out, Inserts isLess tmp b out ∧ Slice.set p.2 p.1 tmp = .ok (a ++ out) := by
  induction b with
  | nil => exact .pure ⟨_, .nil, set_append rfl _⟩
  | cons y b ih =>
    intro a x
    have hget : Slice.get (a ++ x :: y :: b) (a.length + 1) = .ok y :=
      append_cons a x (y :: b) ▸ get_append (by simp)
    refine .lift_bind hget (.bind (returns_ask isLess y tmp) fun r hr => ?_)
    cases r with
    | false => exact .pure ⟨_, .here hr, set_append rfl _⟩
    | true =>
      refine .lift_bind (set_append rfl y) ?_
      have hloop := @ih (a ++ [y]) y
      rw [length_append, length_singleton, ← append_cons] at hloop
      refine hloop.imp fun p ⟨out, hout, hset⟩ => ⟨_, .behind hr hout, ?_⟩
      rw [hset, ← append_cons]

theorem returns_insertHead (a : α) (l : List α) :
    Returns (insertHead isLess (a :: l)) (Inserts isLess a l) := by
  cases l with
  | nil => exact .pure .nil
  | cons b l =>
    refine .lift_bind (b := b) rfl (.lift_bind (b := a) rfl ?_)
    refine .bind (returns_ask isLess b a) fun r hr => ?_
    cases r with
    | false => exact .pure (.here hr)
    | true =>
      refine .lift_bind (set_append (l := []) rfl b) ?_
      refine .bind (returns_insertHeadLoop (a := [b]) (x := b)) fun p ⟨out, hout, hset⟩ => ?_
      exact .lift hset (.behind hr hout)

theorem returns_insertHead_inRange {a l l' c : List α} {x : α} {i j : Nat} (hi : i = a.length)
    (hj : j = a.length + (x :: l').length) (hl : Sorts isLess l l') :
    Returns (inRange (a ++ x :: l' ++ c) i j (insertHead isLess)) fun v =>
      ∃ out, Sorts isLess (x :: l) out ∧ v = a ++ out ++ c :=
  (returns_inRange hi hj (returns_insertHead x l')).imp
    fun _ ⟨out, hout, heq⟩ => ⟨out, hl.insert hout, heq⟩

/-! ## `merge` -/

theorem copyWithin_eq {a b c : List α} {x y : α} {i j : Nat} (hi : i = a.length + 1 + b.length)
    (hj : j = a.length) : copyWithin (a ++ x :: b ++ y :: c) i j = .ok (a ++ y :: b ++ y :: c) := by
  rw [copyWithin, assert, if_pos, ok_bind, get_append, ok_bind,
    append_assoc, cons_append, set_append hj, append_assoc, cons_append]
  · simp [hi]
    omega
  · simp only [ne_eq, decide_not, Bool.not_eq_true', decide_eq_false_iff_not]
    omega

/-- The buffer holds `l` at the places of the hole, and the slice has as many free places between
`a` and `r`. -/
structure Holds (buf : Buffer α) (hole : MergeHole) (v a l r : List α) : Prop where
  slots : ∃ pre post, buf = pre ++ l.map some ++ post ∧ hole.start = pre.length
  end_ : hole.end_ = hole.start + l.length
  places : ∃ gap, gap.length = l.length ∧ v = a ++ gap ++ r
  dest : hole.dest = a.length

section
variable {buf : Buffer α} {hole : MergeHole} {v a l r : List α}

theorem mapM_expect_some (msg : String) : ∀ l : List α, (l.map some).mapM (expect msg) = .ok l
  | [] => rfl
  | a :: l => by
    rw [map_cons, mapM_cons, mapM_expect_some msg l]
    rfl

theorem Holds.drop_eq (h : Holds buf hole v a l r) : hole.drop buf v = .ok (a ++ l ++ r) := by
  obtain ⟨start, end_, dest⟩ := hole
  obtain ⟨⟨pre, post, rfl, hstart⟩, hend, ⟨gap, hgap, rfl⟩, hdest⟩ := h
  simp only at hstart hend hdest
  subst hstart hend hdest
  rw [MergeHole.drop, assert, if_pos, ok_bind]
  · simp only [Nat.add_sub_cancel_left, append_assoc, drop_left]
    rw [take_left' (by simp), mapM_expect_some, ok_bind, take_left,
      ← append_assoc a gap, ← hgap, ← length_append, drop_left]
  · simp [hgap]

theorem Holds.get {x : α} (h : Holds buf hole v a (x :: l) r) : buf.get hole.start = .ok x := by
  obtain ⟨⟨pre, post, rfl, hstart⟩, -⟩ := h
  rw [Buffer.get, map_cons, append_assoc, cons_append, get_append hstart]
  rfl

theorem Holds.right {x y : α} (h : Holds buf hole v a (x :: l) (y :: r)) :
    ∃ v', copyWithin v (a.length + (x :: l).length) hole.dest = .ok v' ∧
      Holds buf { hole with dest := hole.dest + 1 } v' (a ++ [y]) (x :: l) r := by
  obtain ⟨hslots, hend, ⟨gap, hgap, rfl⟩, hdest⟩ := h
  match gap, hgap with
  | g :: gap, hgap =>
    have hgap' : gap.length = l.length := Nat.succ.inj hgap
    refine ⟨_, copyWithin_eq (by simp [hgap']; omega) hdest, hslots, hend, ⟨gap ++ [y], ?_, ?_⟩, ?_⟩
    · simp [hgap']
    · simp
    · simp [hdest]

theorem Holds.left {x : α} (h : Holds buf hole v a (x :: l) r) :
    ∃ v', copyFromBuf buf v hole.start hole.dest = .ok v' ∧
      Holds buf { hole with start := hole.start + 1, dest := hole.dest + 1 } v' (a ++ [x]) l r := by
  have hget := h.get
  obtain ⟨⟨pre, post, rfl, hstart⟩, hend, ⟨gap, hgap, rfl⟩, hdest⟩ := h
  match gap, hgap with
  | g :: gap, hgap =>
    refine ⟨a ++ x :: (gap ++ r), ?_, ⟨pre ++ [some x], post, ?_, ?_⟩, ?_, ⟨gap, ?_, ?_⟩, ?_⟩
    · rw [copyFromBuf, hget, ok_bind, append_assoc, cons_append, set_append hdest]
    · simp
    · simp [hstart]
    · simp [hend]; omega
    · exact Nat.succ.inj hgap
    · simp
    · simp [hdest]

theorem returns_mergeForward : ∀ {n : Nat} {hole : MergeHole} {v a l r : List α},
    Holds buf hole v a l r → l.length + r.length < n →
    Returns (mergeForward isLess buf n hole (a.length + l.length) v) fun p =>
      ∃ out, Merges isLess l r out ∧ p.1.drop buf p.2 = .ok (a ++ out) := by
  intro n
  induction n with
  | zero => simp
  | succ n ih =>
    intro hole v a l r h hn
    have hend := h.end_
    obtain ⟨gap, hgap, hv⟩ := h.places
    have hlen : v.length = a.length + l.length + r.length := by simp [hv, hgap, add_assoc]
    rw [mergeForward]
    match l, r with
    | [], r =>
      rw [if_neg fun hlt => by simp at hend; omega]
      exact .pure ⟨r, .nilLeft, by rw [h.drop_eq, append_nil]⟩
    | x :: l, [] =>
      rw [if_neg fun hlt => by simp at hlen hlt; omega]
      exact .pure ⟨_, .nilRight, by rw [h.drop_eq, append_nil]⟩
    | x :: l, y :: r =>
      rw [if_pos ⟨by simp at hend; omega, by simp at hlen ⊢; omega⟩]
      refine .lift_bind (hv ▸ get_append (by simp [hgap])) (.lift_bind h.get ?_)
      refine .bind (returns_ask isLess y x) fun answer hyx => ?_
      cases answer with
      | true =>
        obtain ⟨v', hcopy, h'⟩ := h.right
        refine .lift_bind hcopy ?_
        have hloop := ih h' (by simp at hn ⊢; omega)
        rw [length_append, length_singleton, Nat.add_right_comm] at hloop
        exact hloop.imp fun p ⟨out, hout, hdrop⟩ =>
          ⟨y :: out, .right hyx hout, by rw [hdrop, ← append_cons]⟩
      | false =>
        obtain ⟨v', hcopy, h'⟩ := h.left
        refine .lift_bind hcopy ?_
        have hloop := ih h' (by simp at hn ⊢; omega)
        rw [length_append, length_singleton, add_assoc, add_comm 1] at hloop
        exact hloop.imp fun p ⟨out, hout, hdrop⟩ =>
          ⟨x :: out, .left hyx hout, by rw [hdrop, ← append_cons]⟩

theorem Holds.leftBack {x : α} (h : Holds buf hole v (a ++ [x]) l r) (hl : l ≠ []) :
    ∃ v', copyWithin v (hole.dest - 1) (a.length + l.length) = .ok v' ∧
      Holds buf { hole with dest := hole.dest - 1 } v' a l (x :: r) := by
  obtain ⟨hslots, hend, ⟨gap, hgap, rfl⟩, hdest⟩ := h
  rcases eq_nil_or_concat' gap with rfl | ⟨gap, g, rfl⟩
  · exact absurd (length_eq_zero_iff.1 hgap.symm) hl
  · rw [length_append, length_singleton] at hgap hdest
    refine ⟨a ++ x :: gap ++ x :: r, ?_, hslots, hend, ⟨x :: gap, hgap, rfl⟩, by simp [hdest]⟩
    rw [copyWithin, assert, if_pos (by simp; omega), ok_bind]
    have hv : a ++ [x] ++ (gap ++ [g]) ++ r = a ++ x :: gap ++ g :: r := by simp
    rw [hv, append_assoc, cons_append, get_append (by omega), ok_bind,
      ← cons_append, ← append_assoc, set_append (by simp; omega)]

theorem Holds.rightBack {y : α} (h : Holds buf hole v a (l ++ [y]) r) :
    buf.get (hole.end_ - 1) = .ok y ∧
    ∃ v', copyFromBuf buf v (hole.end_ - 1) (a.length + l.length) = .ok v' ∧
      Holds buf { hole with end_ := hole.end_ - 1 } v' a l (y :: r) := by
  obtain ⟨⟨pre, post, rfl, hstart⟩, hend, ⟨gap, hgap, rfl⟩, hdest⟩ := h
  rw [length_append, length_singleton] at hgap hend
  have hbuf : pre ++ (l ++ [y]).map some ++ post = pre ++ l.map some ++ some y :: post := by simp
  have hget : Buffer.get (pre ++ (l ++ [y]).map some ++ post) (hole.end_ - 1) = .ok y := by
    rw [hbuf, Buffer.get, get_append (by simp; omega)]
    rfl
  refine ⟨hget, ?_⟩
  rcases eq_nil_or_concat' gap with rfl | ⟨gap, g, rfl⟩
  · cases hgap
  · rw [length_append, length_singleton] at hgap
    refine ⟨a ++ gap ++ y :: r, ?_, ⟨pre, some y :: post, hbuf, hstart⟩, by simp [hend],
      ⟨gap, Nat.succ.inj hgap, rfl⟩, hdest⟩
    have hv : a ++ (gap ++ [g]) ++ r = a ++ gap ++ g :: r := by simp
    rw [copyFromBuf, hget, ok_bind, hv, set_append (by simp; omega)]

theorem returns_mergeBackward : ∀ {n : Nat} {hole : MergeHole} {v a l r : List α},
    Holds buf hole v a l r → hole.start = 0 → a.length + l.length < n →
    Returns (mergeBackward isLess buf n hole (a.length + l.length) v) fun p =>
      ∃ out, MergesBack isLess a l out ∧ p.1.drop buf p.2 = .ok (out ++ r) := by
  intro n
  induction n with
  | zero => simp
  | succ n ih =>
    intro hole v a l r h hstart hn
    have hend := h.end_
    rw [hstart, zero_add] at hend
    rw [mergeBackward]
    rcases eq_nil_or_concat' a with rfl | ⟨a, x, rfl⟩
    · rw [if_neg fun hlt => by simp [h.dest] at hlt]
      exact .pure ⟨l, .nilLeft l, h.drop_eq⟩
    rcases eq_nil_or_concat' l with rfl | ⟨l, y, rfl⟩
    · rw [if_neg fun hlt => by simp [hend] at hlt]
      exact .pure ⟨a ++ [x], .nilRight _, by rw [h.drop_eq, append_nil]⟩
    obtain ⟨hgety, vr, hcopyr, hr⟩ := h.rightBack
    obtain ⟨vl, hcopyl, hl⟩ := h.leftBack (by simp)
    obtain ⟨gap, hgap, hv⟩ := h.places
    simp only [length_append, length_singleton] at hn hend hcopyr hcopyl
    have hget : Slice.get v (hole.dest - 1) = .ok x := by
      rw [hv, append_assoc, append_assoc, singleton_append, get_append]
      simp [h.dest]
    rw [if_pos ⟨by simp [h.dest], by omega⟩]
    refine .lift_bind hgety (.lift_bind hget ?_)
    refine .bind (returns_ask isLess y x) fun answer hyx => ?_
    simp only [length_append, length_singleton, Nat.add_sub_cancel_right, ← add_assoc]
    cases answer with
    | true =>
      rw [Nat.add_right_comm _ 1]
      refine .lift_bind hcopyl ?_
      have hloop := ih hl hstart (by simp; omega)
      rw [length_append, length_singleton, ← add_assoc] at hloop
      exact hloop.imp fun p ⟨out, hout, hdrop⟩ =>
        ⟨out ++ [x], .left hyx hout, by rw [hdrop, append_assoc]; rfl⟩
    | false =>
      refine .lift_bind hcopyr ?_
      have hloop := ih hr hstart (by simp; omega)
      rw [length_append, length_singleton] at hloop
      exact hloop.imp fun p ⟨out, hout, hdrop⟩ =>
        ⟨out ++ [y], .right hyx hout, by rw [hdrop, append_assoc]; rfl⟩

end

theorem copyToBuf_eq {buf : Buffer α} {a b c : List α} (h : b.length ≤ buf.length) :
    copyToBuf (a ++ b ++ c) a.length b.length buf = .ok (b.map some ++ buf.drop b.length) := by
  rw [copyToBuf, assert, if_pos (by simp [h]), ok_bind, append_assoc, drop_left, take_left]

theorem returns_merge {buf : Buffer α} {l r : List α} (hbuf : min l.length r.length ≤ buf.length) :
    Returns (merge isLess l.length buf (l ++ r)) fun p => p.1.length = buf.length ∧
      (Merges isLess l r p.2 ∨ MergesBack isLess l r p.2) := by
  rw [merge]
  rw [length_append, Nat.add_sub_cancel_left]
  split
  · next hle =>
    have hlen : l.length ≤ buf.length := by omega
    refine .lift_bind (copyToBuf_eq (a := []) hlen) ?_
    have h : Holds (l.map some ++ buf.drop l.length) ⟨0, l.length, 0⟩ (l ++ r) [] l r :=
      ⟨⟨[], _, rfl, rfl⟩, by simp, ⟨l, rfl, rfl⟩, rfl⟩
    have hloop := @returns_mergeForward _ _ isLess _ _ _ _ _ _ _ h (Nat.lt_succ_self _)
    rw [length_nil, zero_add] at hloop
    refine .bind hloop fun p ⟨out, hout, hdrop⟩ => .lift_bind hdrop (.pure ⟨?_, .inl hout⟩)
    simp [hlen]
  · next hlt =>
    have hlen : r.length ≤ buf.length := by omega
    have hcopy := @copyToBuf_eq _ buf l r [] hlen
    rw [append_nil] at hcopy
    refine .lift_bind hcopy ?_
    have h : Holds (r.map some ++ buf.drop r.length) ⟨0, r.length, l.length⟩ (l ++ r) l r [] :=
      ⟨⟨[], _, rfl, rfl⟩, by simp, ⟨r, rfl, by simp⟩, rfl⟩
    have hloop := @returns_mergeBackward _ _ isLess _ _ _ _ _ _ _ h rfl (Nat.lt_succ_self _)
    refine .bind hloop fun p ⟨out, hout, hdrop⟩ => .lift_bind hdrop (.pure ⟨?_, .inr ?_⟩)
    · simp [hlen]
    · rwa [append_nil]

end Tortis.Sort
