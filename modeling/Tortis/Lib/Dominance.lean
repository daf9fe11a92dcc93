import Tortis.Lib.Postorder
import Mathlib.Data.Finset.Lattice.Fold

/-!
# Dominance

A node dominates another one when every path from the root to that one passes it (`Dominates`,
`dominates_iff_path`). For an iteration that follows an order of the nodes the paths are counted by
their steps against the order: `Within j v d` says that every path to `v` with fewer than `j` such
steps passes `d`.
-/

namespace Tortis

open List Option

section
variable {α : Type} {succ : α → List α} {root : α}

structure IsPath (succ : α → List α) (a b : α) (path : List α) : Prop where
  chain : path.IsChain fun x y => y ∈ succ x
  head : path.head? = some a
  last : path.getLast? = some b

variable {b d y : α}

theorem Off.exists_path {a : α} (h : Off succ d a b) : ∃ path, IsPath succ a b path ∧ d ∉ path := by
  obtain ⟨hne, h⟩ := h
  induction h with
  | refl => exact ⟨[a], ⟨isChain_singleton a, rfl, rfl⟩, by simpa using Ne.symm hne⟩
  | @tail b c _ hbc ih =>
    obtain ⟨path, hpath, hd⟩ := ih
    refine ⟨path ++ [c], ⟨?_, ?_, getLast?_concat⟩, ?_⟩
    · refine isChain_append.2 ⟨hpath.chain, isChain_singleton c, ?_⟩
      intro x hx y hy
      rw [mem_def, hpath.last, some_inj] at hx
      obtain rfl : c = y := by simpa using hy
      exact hx ▸ hbc.1
    · rw [head?_append, hpath.head]
      rfl
    · simpa [hd] using Ne.symm hbc.2

theorem IsPath.off : ∀ {path : List α} {a : α}, IsPath succ a b path → d ∉ path → Off succ d a b
  | [], _, h, _ => nomatch h.head
  | [x], a, h, hd => by
    obtain rfl := some_inj.1 h.head
    obtain rfl := some_inj.1 h.last
    exact ⟨fun heq => hd (by simp [heq]), .refl⟩
  | x :: y :: path, a, h, hd => by
    obtain rfl := some_inj.1 h.head
    obtain ⟨hxy, hchain⟩ := isChain_cons_cons.1 h.chain
    have hrest : IsPath succ y b (y :: path) := ⟨hchain, rfl, by simpa using h.last⟩
    have hoff := hrest.off (fun hmem => hd (.tail _ hmem))
    exact ⟨fun heq => hd (by simp [heq]), .head ⟨hxy, hoff.1⟩ hoff.2⟩

theorem dominates_iff_path :
    Dominates succ root d y ↔ ∀ path, IsPath succ root y path → d ∈ path := by
  constructor
  · intro h path hpath
    by_contra hd
    exact h (hpath.off hd)
  · intro h hoff
    obtain ⟨path, hpath, hd⟩ := hoff.exists_path
    exact hd (h path hpath)

theorem Off.ne {a : α} (h : Off succ d a b) : b ≠ d := by
  obtain ⟨hne, h⟩ := h
  cases h with
  | refl => exact hne
  | tail _ hbc => exact hbc.2

theorem dominates_self (y : α) : Dominates succ root y y := fun h => h.ne rfl

theorem Dominates.eq_root (h : Dominates succ root d root) : d = root := by
  by_contra hne
  exact h ⟨Ne.symm hne, .refl⟩

theorem Dominates.of_succ {v p : α} (h : Dominates succ root d v) (hne : d ≠ v)
    (hp : v ∈ succ p) : Dominates succ root d p :=
  fun hoff => h (hoff.tail hp (Ne.symm hne))

/-! ## Steps against an order -/

/-- A path from the root that avoids `d` and takes the given number of steps against the order of the
ranks, which fall along it otherwise. -/
inductive Avoids (succ : α → List α) (root : α) (rank : α → Nat) (d : α) : Nat → α → Prop
  | root : root ≠ d → Avoids succ root rank d 0 root
  | forward {r p v} : Avoids succ root rank d r p → v ∈ succ p → v ≠ d → rank v < rank p →
      Avoids succ root rank d r v
  | back {r p v} : Avoids succ root rank d r p → v ∈ succ p → v ≠ d → rank p ≤ rank v →
      Avoids succ root rank d (r + 1) v

/-- Every path with fewer than `j` steps against the order passes `d`. -/
def Within (succ : α → List α) (root : α) (rank : α → Nat) (j : Nat) (v d : α) : Prop :=
  ∀ r < j, ¬ Avoids succ root rank d r v

variable {rank : α → Nat} {v : α}

theorem Avoids.off {r : Nat} (h : Avoids succ root rank d r v) : Off succ d root v := by
  induction h with
  | root hne => exact ⟨hne, .refl⟩
  | forward _ hv hne _ ih | back _ hv hne _ ih => exact ih.tail hv hne

theorem Off.avoids (h : Off succ d root v) : ∃ r, Avoids succ root rank d r v := by
  obtain ⟨hne, h⟩ := h
  induction h with
  | refl => exact ⟨0, .root hne⟩
  | @tail b c _ hbc ih =>
    obtain ⟨r, hr⟩ := ih
    rcases lt_or_ge (rank c) (rank b) with hlt | hge
    · exact ⟨r, hr.forward hbc.1 hbc.2 hlt⟩
    · exact ⟨r + 1, hr.back hbc.1 hbc.2 hge⟩

theorem Avoids.or_passes {r : Nat} (y : α) (h : Avoids succ root rank d r v) :
    Avoids succ root rank y r v ∨ ∃ r' ≤ r, Avoids succ root rank d r' y := by
  induction h with
  | root hne =>
    by_cases hy : root = y
    · exact .inr ⟨0, le_refl 0, hy ▸ .root hne⟩
    · exact .inl (.root hy)
  | @forward r p v hp hv hne hlt ih =>
    by_cases hy : v = y
    · exact .inr ⟨r, le_refl r, hy ▸ hp.forward hv hne hlt⟩
    · exact ih.imp_left fun h => h.forward hv hy hlt
  | @back r p v hp hv hne hle ih =>
    by_cases hy : v = y
    · exact .inr ⟨r + 1, le_rfl, hy ▸ hp.back hv hne hle⟩
    · refine ih.imp (fun h => h.back hv hy hle) ?_
      rintro ⟨r', hr', h'⟩
      exact ⟨r', Nat.le_succ_of_le hr', h'⟩

theorem Dominates.trans (h : Dominates succ root y v) (hy : Dominates succ root d y) :
    Dominates succ root d v := by
  intro hoff
  obtain ⟨r, hr⟩ : ∃ r, Avoids succ root (fun _ => 0) d r v := hoff.avoids
  rcases hr.or_passes y with hpass | ⟨r', -, hr'⟩
  exacts [h hpass.off, hy hr'.off]

theorem Within.trans {j : Nat} (h : Within succ root rank j v y)
    (hy : Within succ root rank j y d) : Within succ root rank j v d := by
  intro r hr havoid
  rcases havoid.or_passes y with hpass | ⟨r', hr', h'⟩
  · exact h r hr hpass
  · exact hy r' (lt_of_le_of_lt hr' hr) h'

theorem within_self (j : Nat) (v : α) : Within succ root rank j v v :=
  fun _ _ h => h.off.ne rfl

theorem within_zero (v d : α) : Within succ root rank 0 v d := fun _ h => absurd h (Nat.not_lt_zero _)

theorem Within.mono {j j' : Nat} (h : Within succ root rank j v d) (hle : j' ≤ j) :
    Within succ root rank j' v d := fun r hr => h r (lt_of_lt_of_le hr hle)

theorem Within.of_preds {j : Nat} (hroot : v ≠ root)
    (hforward : ∀ p, v ∈ succ p → rank v < rank p → Reach succ root p →
      Within succ root rank (j + 1) p d)
    (hback : ∀ p, v ∈ succ p → rank p ≤ rank v → Reach succ root p →
      Within succ root rank j p d) : Within succ root rank (j + 1) v d := by
  have hreach : ∀ {r p}, Avoids succ root rank d r p → Reach succ root p := fun h =>
    Relation.ReflTransGen.mono (fun _ _ => And.left) _ _ h.off.2
  intro r hr havoid
  cases havoid with
  | root => exact hroot rfl
  | @forward r p v hp hv _ hlt => exact hforward p hv hlt (hreach hp) r hr hp
  | @back r p v hp hv _ hle => exact hback p hv hle (hreach hp) r (Nat.lt_of_succ_lt_succ hr) hp

theorem exists_within (succ : α → List α) (root : α) (rank : α → Nat) (V : Finset α) :
    ∃ j, ∀ v ∈ V, ∀ d ∈ V, Within succ root rank j v d → Dominates succ root d v := by
  have hpair : ∀ x : α × α, ∃ r, Off succ x.2 root x.1 → Avoids succ root rank x.2 r x.1 := by
    intro x
    by_cases h : Off succ x.2 root x.1
    · exact h.avoids.imp fun _ hr _ => hr
    · exact ⟨0, fun h' => absurd h' h⟩
  choose r hr using hpair
  refine ⟨(V ×ˢ V).sup r + 1, fun v hv d hd hwithin hoff => ?_⟩
  refine hwithin (r (v, d)) (Nat.lt_succ_of_le ?_) (hr (v, d) hoff)
  exact Finset.le_sup (f := r) (Finset.mem_product.2 ⟨hv, hd⟩)

end

end Tortis
