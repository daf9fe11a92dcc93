import Tortis.Lib.Outcome
import Mathlib.Data.Finset.Insert

/-!
# Enough fuel

`Ends x` says that a run has not stopped for lack of fuel, and `Runs A x P` says which halts are
allowed and what holds of a value. The rules compose it along sequences and loops, and
`exists_fuel` makes the fuel uniform over finitely many cases.
-/

namespace Tortis

open List

section
variable {α β σ : Type}

/-- The run ends: it returns or panics, and does not run out of fuel. -/
def Ends (x : Outcome α) : Prop := x ≠ .error .outOfFuel

@[simp] theorem ends_ok (a : α) : Ends (.ok a) := nofun

@[simp] theorem ends_panic (msg : String) : Ends (.error (.panic msg) : Outcome α) := nofun

@[simp] theorem ends_unwrap (o : Option α) : Ends (Outcome.unwrap o) := by
  cases o <;> simp [Outcome.unwrap]

@[simp] theorem ends_expect (msg : String) (o : Option α) : Ends (Outcome.expect msg o) := by
  cases o <;> simp [Outcome.expect]

variable {x : Outcome α}

theorem Ends.bind {f : α → Outcome β} (hx : Ends x)
    (hf : ∀ a, x = .ok a → Ends (f a)) : Ends (x >>= f) := by
  cases x with
  | ok a => exact hf a rfl
  | error e => exact fun h => hx (by cases h; rfl)

/-- The run halts early only as `A` allows, and what it returns satisfies `P`. When `A` allows
everything this is partial correctness; when it excludes `outOfFuel` the fuel is enough; when it
allows `outOfFuel` only, the run does not panic. -/
structure Runs (A : Halt → Prop) (x : Outcome α) (P : α → Prop) : Prop where
  halts : ∀ e, x = .error e → A e
  post : ∀ a, x = .ok a → P a

def Panics (A : Halt → Prop) : Prop := ∀ msg, A (.panic msg)

variable {P : α → Prop}

theorem Runs.ends (h : Runs (· ≠ .outOfFuel) x P) : Ends x :=
  fun he => h.halts _ he rfl

theorem Ends.runs (h : Ends x) (hP : ∀ a, x = .ok a → P a) : Runs (· ≠ .outOfFuel) x P :=
  ⟨fun _ he h' => h (h' ▸ he), hP⟩

namespace Runs
variable {A : Halt → Prop} {P : α → Prop} {Q : β → Prop}

theorem ok {a : α} (h : P a) : Runs A (.ok a) P := ⟨nofun, fun _ hb => by cases hb; exact h⟩

theorem panic (h : Panics A) (msg : String) : Runs A (.error (.panic msg)) P :=
  ⟨fun _ he => by cases he; exact h msg, nofun⟩

variable {o : Option α}

theorem unwrap (hnone : o = none → Panics A) (h : ∀ a, o = some a → P a) :
    Runs A (Outcome.unwrap o) P := by
  cases o with
  | none => exact panic (hnone rfl) _
  | some a => exact ok (h a rfl)

theorem expect {msg : String} (hnone : o = none → Panics A)
    (h : ∀ a, o = some a → P a) : Runs A (Outcome.expect msg o) P := by
  cases o with
  | none => exact panic (hnone rfl) _
  | some a => exact ok (h a rfl)

variable {x : Outcome α} {P' : α → Prop}

theorem and (h : Runs A x P) (h' : Runs A x P') : Runs A x fun a => P a ∧ P' a :=
  ⟨h.halts, fun a ha => ⟨h.post a ha, h'.post a ha⟩⟩

theorem mono (h : Runs A x P) (hP : ∀ a, P a → P' a) : Runs A x P' :=
  ⟨h.halts, fun a ha => hP a (h.post a ha)⟩

theorem bind {f : α → Outcome β} (hx : Runs A x P)
    (hf : ∀ a, P a → Runs A (f a) Q) : Runs A (x >>= f) Q where
  halts e he := by
    cases x with
    | ok a => exact (hf a (hx.post a rfl)).halts e he
    | error e' => exact hx.halts e (congrArg Except.error (Except.error.inj he))
  post b hb := by
    obtain ⟨a, ha, hb⟩ := Outcome.bind_eq_ok.1 hb
    exact (hf a (hx.post a ha)).post b hb

variable {f : σ → α → Outcome σ} {I : List α → σ → Prop}

theorem foldlM_append : ∀ {l done : List α} {s : σ}, I done s →
      (∀ pre x post s, l = pre ++ x :: post → I (done ++ pre) s →
        Runs A (f s x) (I (done ++ pre ++ [x]))) →
      Runs A (l.foldlM f s) (I (done ++ l))
  | [], done, _, hs, _ => by
    rw [append_nil]
    exact .ok hs
  | x :: l, done, s, hs, hstep => by
    have hx := hstep [] x l s rfl (by rwa [append_nil])
    rw [append_nil] at hx
    refine hx.bind fun s' hs' => ?_
    have hrest : Runs A (l.foldlM f s') (I (done ++ [x] ++ l)) :=
      foldlM_append hs' fun pre y post s hl hI => by
        have := hstep (x :: pre) y post s (by rw [hl]; rfl) (by simpa using hI)
        simpa using this
    rwa [append_assoc] at hrest

variable {l : List α}

theorem foldlM_done {s : σ} (hs : I [] s)
    (hstep : ∀ pre x post s, l = pre ++ x :: post → I pre s → Runs A (f s x) (I (pre ++ [x]))) :
    Runs A (l.foldlM f s) (I l) :=
  foldlM_append hs hstep

theorem foldlM {I : σ → Prop} {s : σ} (hs : I s)
    (hstep : ∀ s, ∀ x ∈ l, I s → Runs A (f s x) I) : Runs A (l.foldlM f s) I :=
  foldlM_done (I := fun _ => I) hs fun pre x post s hl hI => hstep s x (by rw [hl]; simp) hI

end Runs

theorem exists_fuel {R : Nat → α → Prop} {Q : α → Prop} (V : Finset α)
    (h : ∀ a ∈ V, Q a → ∃ N, ∀ n ≥ N, R n a) : ∃ N, ∀ n ≥ N, ∀ a ∈ V, Q a → R n a := by
  classical
  induction V using Finset.induction_on with
  | empty => exact ⟨0, by simp⟩
  | insert a V _ ih =>
    obtain ⟨N, hN⟩ := ih fun b hb => h b (Finset.mem_insert_of_mem hb)
    by_cases ha : Q a
    · obtain ⟨M, hM⟩ := h a (Finset.mem_insert_self a V) ha
      refine ⟨max N M, fun n hn b hb hQ => ?_⟩
      rcases Finset.mem_insert.1 hb with rfl | hb
      · exact hM n (le_trans (le_max_right N M) hn)
      · exact hN n (le_trans (le_max_left N M) hn) b hb hQ
    · refine ⟨N, fun n hn b hb hQ => ?_⟩
      rcases Finset.mem_insert.1 hb with rfl | hb
      · exact absurd hQ ha
      · exact hN n hn b hb hQ

end

end Tortis
