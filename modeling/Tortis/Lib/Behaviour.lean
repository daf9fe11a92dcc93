import Mathlib.Data.List.Basic

/-!
# Code that ends in several ways

The executions of structured code are given by the events that happen in them and by the way they
end (`Exit`): normally, by a jump out of a loop or of a block, by a return, or not at all. The
behaviour of compound code is made of those of its parts (`Behaviour`). What an observer sees of a
behaviour, a finite list of ways to end with a flag for what has happened on the way (`Exits`), is
computed along the same structure, and without a loss (`Observer.Sees`).
-/

namespace Tortis

open List Bool

/-! ## Behaviours -/

/-- How an execution ends. One that is `interrupted` has not come to an end, or never does. -/
inductive Exit (κ : Type) where
  | normal
  | breakTo (target : κ)
  | continueTo (target : κ)
  | ret
  | interrupted
deriving DecidableEq

/-- The executions of a piece of code: the events of each, and how it ends. -/
abbrev Behaviour (ε κ : Type) := List ε → Exit κ → Prop

namespace Behaviour

variable {ε κ : Type}

/-- Code that does nothing. -/
def skip : Behaviour ε κ := fun t x => t = [] ∧ x = .normal

/-- Code that cannot be executed. -/
def stuck : Behaviour ε κ := fun _ _ => False

/-- A computation without events, which may also not come to an end. -/
def compute : Behaviour ε κ := fun t x => t = [] ∧ (x = .normal ∨ x = .interrupted)

def jump (target : Exit κ) : Behaviour ε κ := fun t x => t = [] ∧ x = target

/-- One event, which an execution may also stop before. -/
def emit (e : ε) : Behaviour ε κ := fun t x =>
  (t = [e] ∧ x = .normal) ∨ (t = [] ∧ x = .interrupted)

/-- One of two pieces of code. -/
def choice (a b : Behaviour ε κ) : Behaviour ε κ := fun t x => a t x ∨ b t x

/-- Two pieces of code one after the other. -/
inductive Seq (a b : Behaviour ε κ) : List ε → Exit κ → Prop where
  | leave {t : List ε} {x : Exit κ} (h : a t x) (hx : x ≠ .normal) : Seq a b t x
  | next {t t' : List ε} {x : Exit κ} (h : a t .normal) (h' : b t' x) : Seq a b (t ++ t') x

/-- A block that jumps may leave by its name. -/
inductive Catch (k : κ) (a : Behaviour ε κ) : List ε → Exit κ → Prop where
  | caught {t : List ε} (h : a t (.breakTo k)) : Catch k a t .normal
  | other {t : List ε} {x : Exit κ} (h : a t x) (hx : x ≠ .breakTo k) : Catch k a t x

theorem seq_assoc {a b c : Behaviour ε κ} {t : List ε} {x : Exit κ} :
    Seq (Seq a b) c t x ↔ Seq a (Seq b c) t x := by
  constructor
  · intro h
    cases h with
    | leave h hx =>
      cases h with
      | leave h _ => exact .leave h hx
      | next h h' => exact .next h (.leave h' hx)
    | next h h' =>
      cases h with
      | leave _ hx => exact absurd rfl hx
      | next h h'' =>
        rw [append_assoc]
        exact .next h (.next h'' h')
  · intro h
    cases h with
    | leave h hx => exact .leave (.leave h hx) hx
    | next h h' =>
      cases h' with
      | leave h' hx => exact .leave (.next h h') hx
      | next h' h'' =>
        rw [← append_assoc]
        exact .next (.next h h') h''

end Behaviour

/-- The body of the loop `k` has come to its end. -/
def Exit.iterates {κ : Type} [DecidableEq κ] (k : κ) : Exit κ → Bool
  | .normal => true
  | .continueTo target => target = k
  | _ => false

/-- What a jump out of the body of the loop or of the block `k` is outside of it. -/
def Exit.outside {κ : Type} [DecidableEq κ] (k : κ) : Exit κ → Exit κ
  | .breakTo target => if target = k then .normal else .breakTo target
  | x => x

namespace Behaviour

variable {ε κ : Type} [DecidableEq κ]

/-- A loop, which jumps may leave or go on with by its name. -/
inductive Loop (k : κ) (body : Behaviour ε κ) : List ε → Exit κ → Prop where
  | pause : Loop k body [] .interrupted
  | leave {t : List ε} {x : Exit κ} (h : body t x) (hx : x.iterates k = false) :
      Loop k body t (x.outside k)
  | again {t t' : List ε} {x y : Exit κ} (h : body t x) (hx : x.iterates k = true)
      (h' : Loop k body t' y) : Loop k body (t ++ t') y

end Behaviour

/-! ## Observers -/

/-- An observer of events: it raises a flag in the executions that are `seen`. -/
structure Observer (ε : Type) where
  Good : List ε → Prop
  seen : List ε → Bool
  good_nil : Good []
  seen_nil : seen [] = false
  good_append : ∀ {t t' : List ε}, Good t → Good t' → Good (t ++ t')
  seen_append : ∀ {t t' : List ε}, Good t → Good t' → seen (t ++ t') = (seen t || seen t')

/-- The ways to come to an end, with the flag of an observer. -/
abbrev Exits (κ : Type) := List (Exit κ × Bool)

namespace Exits

variable {κ : Type}

/-- One end, without a flag. -/
def only (x : Exit κ) : Exits κ := [(x, false)]

theorem mem_only {x y : Exit κ} {f : Bool} : (x, f) ∈ only y ↔ x = y ∧ f = false := by
  simp [only]

variable [DecidableEq κ]

/-- The ends of two pieces of code one after the other. -/
def seq (a b : Exits κ) : Exits κ :=
  a.filter (·.1 ≠ .normal) ++
    (a.filter (·.1 = .normal)).flatMap fun p => b.map fun q => (q.1, p.2 || q.2)

/-- The ends of a block. -/
def catching (k : κ) (a : Exits κ) : Exits κ :=
  a.map fun p => (p.1.outside k, p.2)

/-- The ends of a loop: a flag may be raised on the way round, too. -/
def loop (k : κ) (a : Exits κ) : Exits κ :=
  let left := (a.filter fun p => !p.1.iterates k).map fun p => (p.1.outside k, p.2)
  left ++ if a.any fun p => p.1.iterates k && p.2 then left.map fun p => (p.1, true) else []

variable {a b : Exits κ} {k : κ} {x : Exit κ} {f : Bool}

theorem mem_seq : (x, f) ∈ seq a b ↔ ((x, f) ∈ a ∧ x ≠ .normal) ∨
    ∃ g h, (.normal, g) ∈ a ∧ (x, h) ∈ b ∧ f = (g || h) := by
  simp only [seq, mem_append, mem_filter, decide_eq_true_eq, mem_flatMap, mem_map, Prod.mk.injEq]
  refine or_congr_right ⟨?_, ?_⟩
  · rintro ⟨⟨y, g⟩, ⟨hp, hy⟩, ⟨z, h⟩, hq, rfl, rfl⟩
    cases hy
    exact ⟨g, h, hp, hq, rfl⟩
  · rintro ⟨g, h, hp, hq, rfl⟩
    exact ⟨(.normal, g), ⟨hp, rfl⟩, (x, h), hq, rfl, rfl⟩

theorem only_seq : (only .normal).seq b = b := by
  simp [only, seq]

theorem mem_seq_only : (x, f) ∈ seq a (only .normal) ↔ (x, f) ∈ a := by
  rw [mem_seq]
  simp only [mem_only]
  constructor
  · rintro (⟨h, -⟩ | ⟨g, h, hg, ⟨rfl, rfl⟩, rfl⟩)
    · exact h
    · rwa [Bool.or_false]
  · intro h
    by_cases hx : x = .normal
    · subst hx
      exact .inr ⟨f, false, h, ⟨rfl, rfl⟩, (Bool.or_false f).symm⟩
    · exact .inl ⟨h, hx⟩

theorem mem_catching : (x, f) ∈ catching k a ↔ ∃ y, (y, f) ∈ a ∧ x = y.outside k := by
  simp only [catching, mem_map, Prod.mk.injEq]
  constructor
  · rintro ⟨⟨y, g⟩, hp, rfl, rfl⟩
    exact ⟨y, hp, rfl⟩
  · rintro ⟨y, hp, rfl⟩
    exact ⟨(y, f), hp, rfl, rfl⟩

theorem mem_loop : (x, f) ∈ loop k a ↔ ∃ y g, (y, g) ∈ a ∧ y.iterates k = false ∧
    x = y.outside k ∧ (f = g ∨ f = true ∧ ∃ z, (z, true) ∈ a ∧ z.iterates k = true) := by
  have hleft : ∀ g,
      (x, g) ∈ ((a.filter fun p => !p.1.iterates k).map fun p => (p.1.outside k, p.2)) ↔
        ∃ y, (y, g) ∈ a ∧ y.iterates k = false ∧ x = y.outside k := by
    intro g
    simp only [mem_map, mem_filter, Prod.mk.injEq, not_eq_true']
    constructor
    · rintro ⟨⟨y, g⟩, ⟨hp, hy⟩, rfl, rfl⟩
      exact ⟨y, hp, hy, rfl⟩
    · rintro ⟨y, hp, hy, rfl⟩
      exact ⟨(y, g), ⟨hp, hy⟩, rfl, rfl⟩
  have hany : (a.any fun p => p.1.iterates k && p.2) = true ↔
      ∃ z, (z, true) ∈ a ∧ z.iterates k = true := by
    simp only [any_eq_true, and_eq_true]
    constructor
    · rintro ⟨⟨z, g⟩, hp, hz, rfl⟩
      exact ⟨z, hp, hz⟩
    · rintro ⟨z, hp, hz⟩
      exact ⟨(z, true), hp, hz, rfl⟩
  simp only [loop, mem_append, hleft]
  constructor
  · rintro (⟨y, hp, hy, rfl⟩ | h)
    · exact ⟨y, f, hp, hy, rfl, .inl rfl⟩
    · split at h
      · rename_i hround
        obtain ⟨⟨x', g⟩, hp, heq⟩ := mem_map.1 h
        cases heq
        obtain ⟨y, hmem, hy, rfl⟩ := (hleft g).1 hp
        exact ⟨y, g, hmem, hy, rfl, .inr ⟨rfl, hany.1 hround⟩⟩
      · cases h
  · rintro ⟨y, g, hp, hy, rfl, rfl | ⟨rfl, hround⟩⟩
    · exact .inl ⟨y, hp, hy, rfl⟩
    · rw [if_pos (hany.2 hround)]
      have hmem := (hleft g).2 ⟨y, hp, hy, rfl⟩
      exact .inr (mem_map.2 ⟨(y.outside k, g), hmem, rfl⟩)

end Exits

namespace Observer

variable {ε κ : Type} {O : Observer ε}

/-- The observer sees a behaviour: its executions are good, and the ways in which they end, with
the flags, are the given ones. -/
structure Sees (O : Observer ε) (B : Behaviour ε κ) (o : Exits κ) : Prop where
  good : ∀ {t x}, B t x → O.Good t
  mem_iff : ∀ {x f}, (x, f) ∈ o ↔ x ≠ .interrupted ∧ ∃ t, B t x ∧ O.seen t = f

namespace Sees

variable {a b : Behaviour ε κ} {o o' : Exits κ} {k : κ}

theorem mem (h : O.Sees a o) {t : List ε} {x : Exit κ} (ht : a t x) (hx : x ≠ .interrupted) :
    (x, O.seen t) ∈ o :=
  h.mem_iff.2 ⟨hx, t, ht, rfl⟩

theorem congr (h : O.Sees a o) (hmem : ∀ p, p ∈ o' ↔ p ∈ o) : O.Sees a o' :=
  ⟨h.good, fun {x f} => (hmem (x, f)).trans h.mem_iff⟩

theorem of_iff (h : O.Sees a o) (heq : ∀ t x, b t x ↔ a t x) : O.Sees b o := by
  refine ⟨fun ht => h.good ((heq _ _).1 ht), fun {x f} => ?_⟩
  simp only [h.mem_iff, heq]

theorem skip : O.Sees (Behaviour.skip : Behaviour ε κ) (Exits.only .normal) := by
  refine ⟨?_, fun {x f} => ?_⟩
  · rintro t x ⟨rfl, -⟩
    exact O.good_nil
  · rw [Exits.mem_only]
    constructor
    · rintro ⟨rfl, rfl⟩
      exact ⟨nofun, [], ⟨rfl, rfl⟩, O.seen_nil⟩
    · rintro ⟨-, t, ⟨rfl, rfl⟩, rfl⟩
      exact ⟨rfl, O.seen_nil⟩

theorem stuck : O.Sees (Behaviour.stuck : Behaviour ε κ) [] :=
  ⟨nofun, fun {_ _} => ⟨nofun, fun ⟨_, _, h, _⟩ => h.elim⟩⟩

theorem compute : O.Sees (Behaviour.compute : Behaviour ε κ) (Exits.only .normal) := by
  refine ⟨?_, fun {x f} => ?_⟩
  · rintro t x ⟨rfl, -⟩
    exact O.good_nil
  · rw [Exits.mem_only]
    constructor
    · rintro ⟨rfl, rfl⟩
      exact ⟨nofun, [], ⟨rfl, .inl rfl⟩, O.seen_nil⟩
    · rintro ⟨hx, t, ⟨rfl, rfl | rfl⟩, rfl⟩
      · exact ⟨rfl, O.seen_nil⟩
      · exact absurd rfl hx

theorem jump {target : Exit κ} (htarget : target ≠ .interrupted) :
    O.Sees (Behaviour.jump target) (Exits.only target) := by
  refine ⟨?_, fun {x f} => ?_⟩
  · rintro t x ⟨rfl, -⟩
    exact O.good_nil
  · rw [Exits.mem_only]
    constructor
    · rintro ⟨rfl, rfl⟩
      exact ⟨htarget, [], ⟨rfl, rfl⟩, O.seen_nil⟩
    · rintro ⟨-, t, ⟨rfl, rfl⟩, rfl⟩
      exact ⟨rfl, O.seen_nil⟩

theorem choice (ha : O.Sees a o) (hb : O.Sees b o') : O.Sees (a.choice b) (o ++ o') := by
  refine ⟨fun h => h.elim ha.good hb.good, fun {x f} => ?_⟩
  rw [mem_append, ha.mem_iff, hb.mem_iff]
  constructor
  · rintro (⟨hx, t, ht, hf⟩ | ⟨hx, t, ht, hf⟩)
    · exact ⟨hx, t, .inl ht, hf⟩
    · exact ⟨hx, t, .inr ht, hf⟩
  · rintro ⟨hx, t, ht | ht, hf⟩
    · exact .inl ⟨hx, t, ht, hf⟩
    · exact .inr ⟨hx, t, ht, hf⟩

variable [DecidableEq κ]

section
variable (ha : O.Sees a o)
include ha

theorem seq (hb : O.Sees b o') : O.Sees (.Seq a b) (o.seq o') := by
  refine ⟨?_, fun {x f} => ?_⟩
  · intro t x h
    cases h with
    | leave h _ => exact ha.good h
    | next h h' => exact O.good_append (ha.good h) (hb.good h')
  · rw [Exits.mem_seq]
    constructor
    · rintro (⟨h, hx⟩ | ⟨g, g', h, h', rfl⟩)
      · obtain ⟨hi, t, ht, hf⟩ := ha.mem_iff.1 h
        exact ⟨hi, t, .leave ht hx, hf⟩
      · obtain ⟨-, t, ht, rfl⟩ := ha.mem_iff.1 h
        obtain ⟨hi, t', ht', rfl⟩ := hb.mem_iff.1 h'
        exact ⟨hi, t ++ t', .next ht ht', O.seen_append (ha.good ht) (hb.good ht')⟩
    · rintro ⟨hi, t, ht, rfl⟩
      cases ht with
      | leave h hx => exact .inl ⟨ha.mem h hi, hx⟩
      | next h h' =>
        exact .inr ⟨_, _, ha.mem h nofun, hb.mem h' hi, O.seen_append (ha.good h) (hb.good h')⟩

theorem skip_seq (hb : O.Sees b (Exits.only .normal)) : O.Sees (.Seq b a) o := by
  have h := hb.seq ha
  rwa [Exits.only_seq] at h

theorem seq_skip (hb : O.Sees b (Exits.only .normal)) : O.Sees (.Seq a b) o :=
  (ha.seq hb).congr fun _ => Exits.mem_seq_only.symm

theorem catching : O.Sees (.Catch k a) (o.catching k) := by
  refine ⟨?_, fun {x f} => ?_⟩
  · intro t x h
    cases h with
    | caught h => exact ha.good h
    | other h _ => exact ha.good h
  · rw [Exits.mem_catching]
    constructor
    · rintro ⟨y, hy, rfl⟩
      obtain ⟨hi, t, ht, hf⟩ := ha.mem_iff.1 hy
      by_cases hk : y = .breakTo k
      · subst hk
        rw [Exit.outside, if_pos rfl]
        exact ⟨nofun, t, .caught ht, hf⟩
      · have hout : y.outside k = y := by
          cases y with
          | breakTo target =>
            refine if_neg fun heq => hk ?_
            rw [heq]
          | _ => rfl
        rw [hout]
        exact ⟨hi, t, .other ht hk, hf⟩
    · rintro ⟨hi, t, ht, rfl⟩
      cases ht with
      | caught h => exact ⟨_, ha.mem h nofun, (if_pos rfl).symm⟩
      | other h hk =>
        refine ⟨x, ha.mem h hi, ?_⟩
        cases x with
        | breakTo target =>
          refine (if_neg fun heq => hk ?_).symm
          rw [heq]
        | _ => rfl

/-- The executions of a loop are good, and their exits are those of the body, with a flag that was
raised then or on the way round. -/
theorem loop_mem {t : List ε} {x : Exit κ} (h : Behaviour.Loop k a t x) :
    O.Good t ∧ (x ≠ .interrupted → (x, O.seen t) ∈ o.loop k) := by
  induction h with
  | pause => exact ⟨O.good_nil, by simp⟩
  | @leave t x h hx =>
    refine ⟨ha.good h, fun hi => Exits.mem_loop.2 ⟨x, O.seen t, ha.mem h ?_, hx, rfl, .inl rfl⟩⟩
    rintro rfl
    exact hi rfl
  | @again t t' x y h hx h' ih =>
    refine ⟨O.good_append (ha.good h) ih.1, fun hi => ?_⟩
    obtain ⟨z, g, hz, hstop, rfl, hflag⟩ := Exits.mem_loop.1 (ih.2 hi)
    refine Exits.mem_loop.2 ⟨z, g, hz, hstop, rfl, ?_⟩
    rw [O.seen_append (ha.good h) ih.1]
    cases hs : O.seen t with
    | false => simpa using hflag
    | true =>
      have hround := ha.mem h (by rintro rfl; cases hx)
      rw [hs] at hround
      exact .inr ⟨rfl, x, hround, hx⟩

theorem loop : O.Sees (.Loop k a) (o.loop k) := by
  refine ⟨fun h => (loop_mem ha h).1, fun {x f} => ⟨fun h => ?_, ?_⟩⟩
  · obtain ⟨y, g, hy, hstop, rfl, hflag⟩ := Exits.mem_loop.1 h
    obtain ⟨hi, t, ht, rfl⟩ := ha.mem_iff.1 hy
    have hi' : y.outside k ≠ .interrupted := by
      cases y with
      | breakTo target =>
        rw [Exit.outside]
        split <;> nofun
      | interrupted => exact absurd rfl hi
      | _ => nofun
    refine ⟨hi', ?_⟩
    rcases hflag with rfl | ⟨rfl, z, hz, hround⟩
    · exact ⟨t, .leave ht hstop, rfl⟩
    · -- once round with the flag raised, and then out
      obtain ⟨-, t', ht', hseen⟩ := ha.mem_iff.1 hz
      refine ⟨t' ++ t, .again ht' hround (.leave ht hstop), ?_⟩
      rw [O.seen_append (ha.good ht') (ha.good ht), hseen, Bool.true_or]
  · rintro ⟨hi, t, ht, rfl⟩
    exact (loop_mem ha ht).2 hi

end

end Sees

end Observer

end Tortis
