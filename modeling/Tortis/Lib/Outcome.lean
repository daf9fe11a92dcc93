import Mathlib.Data.List.Basic
import Mathlib.Algebra.Ring.Nat

/-!
# Runs that may stop

The compiler's functions are modelled as functions into `Outcome`: a run returns a value, panics (a
failed `unwrap`, `expect`, assertion or index), or has not ended within the fuel it was given.
Recursion whose end is not evident from the data takes fuel; a termination result says that some
fuel is enough.
-/

namespace Tortis

open List

/-- Why a run has no value. -/
inductive Halt where
  /-- The run panicked with this message. -/
  | panic (msg : String)
  /-- The run needs more fuel. -/
  | outOfFuel
deriving DecidableEq

/-- The result of a run of the compiler's code. -/
abbrev Outcome (α : Type) := Except Halt α

namespace Outcome

variable {α β σ : Type}

def unwrap : Option α → Outcome α
  | some a => .ok a
  | none => .error (.panic "called `Option::unwrap()` on a `None` value")

def expect (msg : String) : Option α → Outcome α
  | some a => .ok a
  | none => .error (.panic msg)

def assert (cond : Bool) (msg : String) : Outcome Unit :=
  if cond then .ok () else .error (.panic msg)

@[simp] theorem unwrap_some (a : α) : unwrap (some a) = .ok a := rfl
@[simp] theorem expect_some (msg : String) (a : α) : expect msg (some a) = .ok a := rfl

@[simp] theorem ok_bind (a : α) (f : α → Outcome β) : (Except.ok a >>= f) = f a := rfl
@[simp] theorem error_bind (e : Halt) (f : α → Outcome β) :
    ((Except.error e : Outcome α) >>= f) = .error e := rfl
@[simp] theorem pure_eq (a : α) : (pure a : Outcome α) = .ok a := rfl

variable {x : Outcome α} {f : α → Outcome β}

theorem bind_of_error {e : Halt} (h : x = .error e) : (x >>= f) = .error e := by
  rw [h, error_bind]

theorem unwrap_eq_ok {o : Option α} {a : α} : unwrap o = .ok a ↔ o = some a := by
  cases o <;> simp [unwrap]

variable {msg : String}

theorem expect_eq_ok {o : Option α} {a : α} : expect msg o = .ok a ↔ o = some a := by
  cases o <;> simp [expect]

theorem assert_ok {cond : Bool} (h : cond = true) : assert cond msg = .ok () := by
  rw [assert, if_pos h]

theorem assert_eq_ok {cond : Bool} {u : Unit} : assert cond msg = .ok u ↔ cond = true := by
  cases cond <;> simp [assert]

theorem bind_of_assert {cond : Prop} [Decidable cond] (h : cond) :
    (do assert (decide cond) msg; x) = x := by
  rw [assert_ok (decide_eq_true h)]
  rfl

theorem assert_error {cond : Prop} [Decidable cond] (h : ¬cond) :
    (do assert (decide cond) msg; x) = .error (.panic msg) := by
  rw [assert, if_neg (by simpa using h)]
  rfl

theorem bind_eq_ok {b : β} : (x >>= f) = .ok b ↔ ∃ a, x = .ok a ∧ f a = .ok b := by
  cases x <;> simp

theorem ok_of_map {f : α → β} {b : β} (h : x.map f = .ok b) : ∃ a, x = .ok a ∧ f a = b := by
  cases x with
  | error e => cases h
  | ok a => exact ⟨a, rfl, Except.ok.inj h⟩

theorem mapM_eq_ok {g : α → β} :
    ∀ {l : List α}, (∀ a ∈ l, f a = .ok (g a)) → l.mapM f = .ok (l.map g)
  | [], _ => rfl
  | a :: l, h => by
    rw [mapM_cons, h a mem_cons_self, ok_bind, mapM_eq_ok fun b hb => h b (mem_cons_of_mem _ hb)]
    rfl

theorem exists_of_mapM {f : α → Outcome β} : ∀ {l : List α} {l' : List β},
    l.mapM f = .ok l' → ∀ a ∈ l, ∃ b ∈ l', f a = .ok b
  | a :: l, l', h, a', ha => by
    rw [mapM_cons] at h
    obtain ⟨b, hb, h⟩ := bind_eq_ok.1 h
    obtain ⟨bs, hbs, h⟩ := bind_eq_ok.1 h
    cases h
    rcases mem_cons.1 ha with rfl | ha
    · exact ⟨b, .head _, hb⟩
    · obtain ⟨b', hb', hf⟩ := exists_of_mapM hbs a' ha
      exact ⟨b', .tail _ hb', hf⟩

theorem mapM_spec {f : α → Outcome β} {R : α → β → Prop} :
    ∀ {l : List α}, (∀ a ∈ l, ∃ b, f a = .ok b ∧ R a b) →
      ∃ l', l.mapM f = .ok l' ∧ List.Forall₂ R l l'
  | [], _ => ⟨[], rfl, .nil⟩
  | a :: l, h => by
    obtain ⟨b, hb, hR⟩ := h a mem_cons_self
    obtain ⟨l', hl', hRs⟩ := mapM_spec fun c hc => h c (mem_cons_of_mem _ hc)
    refine ⟨b :: l', ?_, .cons hR hRs⟩
    rw [mapM_cons, hb, ok_bind, hl']
    rfl

theorem foldlM_inv {f : σ → α → Outcome σ} {P : List α → σ → Prop} :
    ∀ {l done : List α} {s s' : σ}, P done s → l.foldlM f s = .ok s' →
      (∀ pre x post s s', l = pre ++ x :: post → P (done ++ pre) s → f s x = .ok s' →
        P (done ++ pre ++ [x]) s') → P (done ++ l) s'
  | [], done, s, s', h0, h, _ => by
    cases h
    simpa using h0
  | x :: l, done, s, s', h0, h, hstep => by
    obtain ⟨s1, h1, h2⟩ := bind_eq_ok.1 h
    have hx := hstep [] x l s s1 rfl (by simpa using h0) h1
    have := foldlM_inv hx h2 fun pre y post s s' hl hp hy => by
      have := hstep (x :: pre) y post s s' (by simp [hl]) (by simpa using hp) hy
      simpa using this
    simpa using this

theorem foldlM_keeps {f : σ → α → Outcome σ} {P : σ → Prop} {l : List α} {s s' : σ} (hs : P s)
    (h : l.foldlM f s = .ok s') (hstep : ∀ x ∈ l, ∀ s s', P s → f s x = .ok s' → P s') : P s' :=
  @foldlM_inv _ _ f (fun _ => P) l [] s s' hs h fun pre x post s s' hl hP hx =>
    hstep x (by rw [hl]; simp) s s' hP hx

/-- A loop returns, and keeps what each of its iterations keeps, when each iteration returns from
the states it can be started in. -/
theorem foldlM_spec {f : σ → α → Outcome σ} {P : List α → σ → Prop} :
    ∀ {l done : List α} {s : σ}, P done s →
      (∀ pre x post s, l = pre ++ x :: post → P (done ++ pre) s →
        ∃ s', f s x = .ok s' ∧ P (done ++ pre ++ [x]) s') →
      ∃ s', l.foldlM f s = .ok s' ∧ P (done ++ l) s'
  | [], done, s, h0, _ => ⟨s, rfl, by simpa using h0⟩
  | x :: l, done, s, h0, hstep => by
    obtain ⟨s1, h1, hx⟩ := hstep [] x l s rfl (by simpa using h0)
    obtain ⟨s', h2, hs'⟩ := foldlM_spec (l := l) hx fun pre y post s hl hp => by
      obtain ⟨s', hs', hp'⟩ := hstep (x :: pre) y post s (by simp [hl]) (by simpa using hp)
      exact ⟨s', hs', by simpa using hp'⟩
    refine ⟨s', ?_, by simpa using hs'⟩
    rw [foldlM_cons, h1]
    exact h2

theorem foldlM_start {f : σ → α → Outcome σ} {P : List α → σ → Prop} {l : List α} {s : σ}
    (hs : P [] s) (hstep : ∀ pre x post s, l = pre ++ x :: post → P pre s →
      ∃ s', f s x = .ok s' ∧ P (pre ++ [x]) s') : ∃ s', l.foldlM f s = .ok s' ∧ P l s' :=
  foldlM_spec hs hstep

theorem foldlM_range {f : σ → Nat → Outcome σ} {P : Nat → σ → Prop} {s : σ} (hs : P 0 s) :
    ∀ {n : Nat}, (∀ i < n, ∀ s, P i s → ∃ s', f s i = .ok s' ∧ P (i + 1) s') →
      ∃ s', (range n).foldlM f s = .ok s' ∧ P n s'
  | 0, _ => ⟨s, rfl, hs⟩
  | n + 1, hstep => by
    obtain ⟨s1, hrun, h1⟩ := foldlM_range hs fun i hi => hstep i (Nat.lt_succ_of_lt hi)
    obtain ⟨s', hlast, h'⟩ := hstep n (Nat.lt_succ_self n) s1 h1
    refine ⟨s', ?_, h'⟩
    rw [range_succ, foldlM_append, hrun, ok_bind, foldlM_cons, hlast]
    rfl

theorem foldlM_range_inv {f : σ → Nat → Outcome σ} {P : Nat → σ → Prop} {s : σ} (hs : P 0 s) :
    ∀ {n : Nat} {s' : σ}, (∀ i < n, ∀ s s', P i s → f s i = .ok s' → P (i + 1) s') →
      (range n).foldlM f s = .ok s' → P n s'
  | 0, s', _, h => by
    cases h
    exact hs
  | n + 1, s', hstep, h => by
    rw [range_succ, foldlM_append] at h
    obtain ⟨s1, h1, hlast⟩ := bind_eq_ok.1 h
    obtain ⟨s2, h2, hnil⟩ := bind_eq_ok.1 hlast
    cases hnil
    have hP := foldlM_range_inv hs (fun i hi => hstep i (Nat.lt_succ_of_lt hi)) h1
    exact hstep n (Nat.lt_succ_self n) s1 s' hP h2

/-- A loop over the numbers below a bound, from the last one down, returns, and keeps what each of
its iterations keeps. -/
theorem foldlM_down {f : σ → Nat → Outcome σ} {P : Nat → σ → Prop} :
    ∀ {n : Nat} {s : σ}, P n s →
      (∀ i < n, ∀ s, P (i + 1) s → ∃ s', f s i = .ok s' ∧ P i s') →
      ∃ s', (range n).reverse.foldlM f s = .ok s' ∧ P 0 s'
  | 0, s, hs, _ => ⟨s, rfl, hs⟩
  | n + 1, s, hs, hstep => by
    obtain ⟨s1, h1, hP⟩ := hstep n (Nat.lt_succ_self n) s hs
    obtain ⟨s', hrun, h'⟩ := foldlM_down hP fun i hi => hstep i (Nat.lt_succ_of_lt hi)
    refine ⟨s', ?_, h'⟩
    rw [range_succ, reverse_append, reverse_singleton, singleton_append,
      foldlM_cons, h1, ok_bind, hrun]

theorem foldlM_down_from {f : σ → Nat → Outcome σ} {P : Nat → σ → Prop} {a n : Nat} {s : σ}
    (hs : P (a + n) s)
    (hstep : ∀ i, a ≤ i → i < a + n → ∀ s, P (i + 1) s → ∃ s', f s i = .ok s' ∧ P i s') :
    ∃ s', (range' a n).reverse.foldlM f s = .ok s' ∧ P a s' := by
  rw [range'_eq_map_range, ← map_reverse, foldlM_map]
  exact @foldlM_down _ (fun s i => f s (a + i)) (fun i => P (a + i)) n s hs fun i hi =>
    hstep (a + i) (Nat.le_add_right a i) (Nat.add_lt_add_left hi a)

/-- A loop over the numbers below a bound, from the last one down, keeps what each of its iterations
keeps when it returns. -/
theorem foldlM_down_inv {f : σ → Nat → Outcome σ} {P : Nat → σ → Prop} :
    ∀ {n : Nat} {s s' : σ}, P n s →
      (∀ i < n, ∀ s s', P (i + 1) s → f s i = .ok s' → P i s') →
      (range n).reverse.foldlM f s = .ok s' → P 0 s'
  | 0, s, s', hs, _, h => by
    cases h
    exact hs
  | n + 1, s, s', hs, hstep, h => by
    rw [range_succ, reverse_append, reverse_singleton, singleton_append, foldlM_cons] at h
    obtain ⟨s1, h1, hrun⟩ := bind_eq_ok.1 h
    exact foldlM_down_inv (hstep n (Nat.lt_succ_self n) s s1 hs h1)
      (fun i hi => hstep i (Nat.lt_succ_of_lt hi)) hrun

end Outcome

end Tortis
