import Tortis.BorrowCheck.Borrows

/-!
# Where borrows go out of scope

The search of `precompute_borrows_out_of_scope` checks every location that a path from the reserve
location comes to inside the region, and kills the borrow exactly at those that are outside of it.
-/

namespace Tortis.BorrowCheck

open Dataflow List Outcome Function Search

/-! ## The search -/

section
variable {body : Body} {contains : Location → Bool} {R : Location}

/-- A path from `R` comes to the location, and is inside the region before it. -/
inductive Checked (body : Body) (contains : Location → Bool) (R : Location) : Location → Prop
  | start : Checked body contains R R
  | step {P Q : Location} (hP : Checked body contains R P) (hin : contains P = true)
      (h : Follows body P Q) : Checked body contains R Q

variable {e : StackEntry}

theorem firstOutside_eq_some {i : Nat} :
    firstOutside contains e = some i ↔ contains ⟨e.bb, i⟩ = false ∧ e.lo ≤ i ∧ i ≤ e.hi ∧
      ∀ k, e.lo ≤ k → k < i → contains ⟨e.bb, k⟩ = true := by
  rw [firstOutside, find?_range'_eq_some]
  simp only [mem_range'_1, Bool.not_eq_true', Bool.not_not]
  constructor
  · rintro ⟨h1, ⟨h2, h3⟩, h4⟩
    exact ⟨h1, h2, by omega, h4⟩
  · rintro ⟨h1, h2, h3, h4⟩
    exact ⟨h1, ⟨h2, by omega⟩, h4⟩

theorem firstOutside_eq_none :
    firstOutside contains e = none ↔ ∀ k, e.lo ≤ k → k ≤ e.hi → contains ⟨e.bb, k⟩ = true := by
  rw [firstOutside, find?_eq_none]
  simp only [mem_range'_1, Bool.not_eq_true', Bool.not_eq_false]
  exact ⟨fun h k h1 h2 => h k ⟨h1, by omega⟩, fun h k hk => h k hk.1 (by omega)⟩

/-- The parts of blocks that the search processes: the part before `R` of its block, or a block from
its start or from `R` on. -/
def IsPart (body : Body) (R : Location) (e : StackEntry) : Prop :=
  (e.firstPartOnly = true ∧ e.bb = R.block ∧ e.lo = 0 ∧ e.hi + 1 = R.statementIndex) ∨
  (e.firstPartOnly = false ∧ (∃ data, body.basicBlocks[e.bb]? = some data ∧
      e.hi = data.statements.length) ∧
    (e.lo = 0 ∨ (e.bb = R.block ∧ e.lo = R.statementIndex)))

/-- What holds of the search when it has processed the parts `done`, and has to visit the successors
`left` of the last of them. -/
structure SearchInv (body : Body) (contains : Location → Bool) (R : Location)
    (done : List StackEntry) (killed : List Location) (left : List BasicBlock) (s : Search) :
    Prop where
  sound : ∀ P ∈ killed, contains P = false
  parts : ∀ e ∈ done ++ s.stack, IsPart body R e
  start : ∃ e ∈ done ++ s.stack, e.bb = R.block ∧ e.lo = R.statementIndex ∧ R.statementIndex ≤ e.hi
  visited : ∀ u lo, s.visited u = some lo → lo = 0 ∨ (u = R.block ∧ lo = R.statementIndex)
  cover : ∀ u, s.visited u = some 0 → ∃ e ∈ done ++ s.stack, e.bb = u ∧ e.lo = 0
  outside : ∀ e ∈ done, ∀ i, firstOutside contains e = some i → ⟨e.bb, i⟩ ∈ killed
  succs : ∀ e ∈ done, firstOutside contains e = none → e.firstPartOnly = false →
    ∀ u ∈ body.successors e.bb, s.visited u = some 0 ∨ u ∈ left

variable {done : List StackEntry} {killed : List Location} {visited : BasicBlock → Option Nat}

theorem SearchInv.complete
    (h : SearchInv body contains R done killed [] ⟨visited, []⟩) (hR : IsLocation body R) {P : Location} (hP : Checked body contains R P) :
    contains P = true ∨ P ∈ killed := by
  have hreached : ∃ e ∈ done, e.bb = P.block ∧ e.lo ≤ P.statementIndex ∧ P.statementIndex ≤ e.hi ∧
      ∀ k, e.lo ≤ k → k < P.statementIndex → contains ⟨P.block, k⟩ = true := by
    obtain ⟨e0, he0, hbb0, hlo0, hhi0⟩ := h.start
    rw [append_nil] at he0
    induction hP with
    | start => exact ⟨e0, he0, hbb0, hlo0.le, hhi0, fun k h1 h2 => by omega⟩
    | step _ hin hfollows ih =>
      obtain ⟨e, he, hbb, hlo, hhi, hbefore⟩ := ih
      have hpart := h.parts e (by simpa using he)
      cases hfollows with
      | @next bb j data hdata hj =>
        dsimp only at hbb hlo hhi hbefore ⊢
        by_cases hle : j + 1 ≤ e.hi
        · refine ⟨e, he, hbb, by omega, hle, fun k h1 h2 => ?_⟩
          rcases Nat.lt_succ_iff_lt_or_eq.1 h2 with h2 | rfl
          · exact hbefore k h1 h2
          · exact hin
        · -- the part ends before the terminator, so it ends before `R`
          rcases hpart with ⟨_, hbb', _, hhi'⟩ | ⟨_, ⟨data', hdata', hhi'⟩, _⟩
          · refine ⟨e0, he0, by rw [hbb0, ← hbb', hbb], ?_, ?_, fun k h1 h2 => ?_⟩ <;> omega
          · rw [hbb, hdata] at hdata'
            cases hdata'
            omega
      | @edge bb t data hdata ht =>
        dsimp only at hbb hlo hhi hbefore ⊢
        rcases hpart with ⟨_, hbb', _, hhi'⟩ | ⟨hfpo, ⟨data', hdata', hhi'⟩, _⟩
        · obtain ⟨data', hdata', hidx⟩ := hR
          rw [← hbb', hbb, hdata] at hdata'
          cases hdata'
          omega
        · rw [hbb, hdata] at hdata'
          cases hdata'
          have hnone : firstOutside contains e = none := by
            refine firstOutside_eq_none.2 fun k h1 h2 => ?_
            rw [hhi', Nat.le_iff_lt_or_eq] at h2
            rcases h2 with h2 | rfl
            · rw [hbb]
              exact hbefore k h1 h2
            · rw [hbb]
              exact hin
          have hseen := (h.succs e he hnone hfpo t (hbb ▸ ht)).resolve_right not_mem_nil
          obtain ⟨e', he', hbb', hlo'⟩ := h.cover t hseen
          exact ⟨e', by simpa using he', hbb', by omega, by omega, fun k h1 h2 => by omega⟩
  by_cases hin : contains P = true
  · exact .inl hin
  · obtain ⟨e, he, hbb, hlo, hhi, hbefore⟩ := hreached
    have hsome : firstOutside contains e = some P.statementIndex := by
      refine firstOutside_eq_some.2 ⟨?_, hlo, hhi, ?_⟩
      · rw [hbb]
        exact Bool.eq_false_iff.2 hin
      · rw [hbb]
        exact hbefore
    have := h.outside e he _ hsome
    rw [hbb] at this
    exact .inr this

/-- The blocks whose start has not been put on the stack. -/
def Search.unseen (body : Body) (s : Search) : Finset BasicBlock :=
  (Finset.range body.basicBlocks.length).filter fun u => s.visited u ≠ some 0

/-- What is left to process. -/
def Search.turns (body : Body) (s : Search) : Nat :=
  s.stack.length + (s.unseen body).card

variable {u : BasicBlock}

theorem unseen_update_lt (stack stack' : List StackEntry)
    (hu : u < body.basicBlocks.length) (hne : visited u ≠ some 0) :
    (unseen body ⟨update visited u (some 0), stack'⟩).card <
      (unseen body ⟨visited, stack⟩).card := by
  refine Finset.card_lt_card (Finset.ssubset_iff_subset_ne.2 ⟨fun v hv => ?_, fun he => ?_⟩)
  · simp only [unseen, Finset.mem_filter] at hv ⊢
    refine ⟨hv.1, fun h => hv.2 ?_⟩
    by_cases hvu : v = u
    · rw [hvu, update_self]
    · rw [update_of_ne hvu, h]
  · have : u ∈ unseen body ⟨visited, stack⟩ := by
      simp [unseen, hu, hne]
    rw [← he] at this
    simp [unseen] at this

variable {left : List BasicBlock}

theorem visitSuccessor_spec {s : Search}
    (h : SearchInv body contains R done killed (u :: left) s) (hu : u < body.basicBlocks.length) :
    ∃ s', visitSuccessor body s u = .ok s' ∧ SearchInv body contains R done killed left s' ∧
      s'.turns body ≤ s.turns body := by
  obtain ⟨visited, stack⟩ := s
  -- with the parts `new` on the stack, of which one starts at the start of `u` if `u` was not seen
  have hkeep : ∀ new : List StackEntry, (∀ e ∈ new, IsPart body R e) →
      (visited u = some 0 ∨ ∃ e ∈ new, e.bb = u ∧ e.lo = 0) →
      SearchInv body contains R done killed left
        ⟨update visited u (some 0), new ++ stack⟩ := by
    intro new hparts hcover
    have hmem : ∀ {e}, e ∈ done ++ stack → e ∈ done ++ (new ++ stack) := by
      intro e he
      simp only [mem_append] at he ⊢
      exact he.imp_right .inr
    refine ⟨h.sound, fun e he => ?_, ?_, fun v lo hv => ?_, fun v hv => ?_, h.outside,
      fun e he hnone hfpo v hv => ?_⟩
    · simp only [mem_append] at he
      rcases he with he | he | he
      · exact h.parts e (mem_append_left _ he)
      · exact hparts e he
      · exact h.parts e (mem_append_right _ he)
    · obtain ⟨e, he, hrest⟩ := h.start
      exact ⟨e, hmem he, hrest⟩
    · dsimp only at hv
      by_cases hvu : v = u
      · rw [hvu, update_self] at hv
        cases hv
        exact .inl rfl
      · rw [update_of_ne hvu] at hv
        exact h.visited v lo hv
    · dsimp only at hv
      by_cases hvu : v = u
      · subst hvu
        rcases hcover with hseen | ⟨e, he, hrest⟩
        · obtain ⟨e, he, hrest⟩ := h.cover v hseen
          exact ⟨e, hmem he, hrest⟩
        · exact ⟨e, by simp [he], hrest⟩
      · rw [update_of_ne hvu] at hv
        obtain ⟨e, he, hrest⟩ := h.cover v hv
        exact ⟨e, hmem he, hrest⟩
    · dsimp only
      by_cases hvu : v = u
      · rw [hvu, update_self]
        exact .inl rfl
      · rw [update_of_ne hvu]
        refine (h.succs e he hnone hfpo v hv).imp_right fun hleft => ?_
        exact (mem_cons.1 hleft).resolve_left hvu
  cases hvis : visited u with
  | none =>
    obtain ⟨data, hdata⟩ : ∃ data, body.basicBlocks[u]? = some data := ⟨_, getElem?_eq_getElem hu⟩
    refine ⟨⟨update visited u (some 0), [⟨u, 0, data.statements.length, false⟩] ++ stack⟩,
      ?_, hkeep _ ?_ (.inr ⟨_, .head _, rfl, rfl⟩), ?_⟩
    · simp [visitSuccessor, hvis, Body.block, hdata]
    · intro e he
      rw [mem_singleton.1 he]
      exact .inr ⟨rfl, ⟨data, hdata, rfl⟩, .inl rfl⟩
    · have hne : visited u ≠ some 0 := by simp [hvis]
      have := unseen_update_lt stack ([⟨u, 0, data.statements.length, false⟩] ++ stack) hu hne
      simp only [turns, length_append, length_singleton]
      omega
  | some lo =>
    by_cases hlo : lo > 0
    · refine ⟨⟨update visited u (some 0), [⟨u, 0, lo - 1, true⟩] ++ stack⟩, ?_,
        hkeep _ ?_ (.inr ⟨_, .head _, rfl, rfl⟩), ?_⟩
      · simp [visitSuccessor, hvis, hlo]
      · intro e he
        rw [mem_singleton.1 he]
        rcases h.visited u lo hvis with h0 | ⟨hbb, hidx⟩
        · omega
        · refine .inl ⟨rfl, hbb, rfl, ?_⟩
          dsimp only
          omega
      · have hne : visited u ≠ some 0 := by
          rw [hvis]
          intro h0
          cases h0
          omega
        have := unseen_update_lt stack ([⟨u, 0, lo - 1, true⟩] ++ stack) hu hne
        simp only [turns, length_append, length_singleton]
        omega
    · have hseen : visited u = some 0 := by
        rw [hvis, Nat.eq_zero_of_not_pos hlo]
      have hsame : update visited u (some 0) = visited := by
        rw [← hseen, update_eq_self]
      refine ⟨⟨update visited u (some 0), [] ++ stack⟩, ?_, hkeep _ (by simp) (.inl hseen), ?_⟩
      · simp [visitSuccessor, hvis, hlo]
      · rw [hsame]
        exact le_rfl

theorem visitSuccessors_spec :
    ∀ {left : List BasicBlock} {s : Search}, SearchInv body contains R done killed left s →
      (∀ u ∈ left, u < body.basicBlocks.length) →
      ∃ s', left.foldlM (visitSuccessor body) s = .ok s' ∧
        SearchInv body contains R done killed [] s' ∧ s'.turns body ≤ s.turns body
  | [], s, h, _ => ⟨s, rfl, h, le_rfl⟩
  | u :: left, s, h, hleft => by
    obtain ⟨s1, hs1, h1, hturns1⟩ := visitSuccessor_spec h (hleft u (.head _))
    obtain ⟨s2, hs2, h2, hturns2⟩ := visitSuccessors_spec h1 fun v hv => hleft v (.tail _ hv)
    refine ⟨s2, ?_, h2, hturns2.trans hturns1⟩
    rw [foldlM_cons, hs1]
    exact hs2

/-- A part that is taken off the stack counts as processed once its first location outside of the
region is killed, or its successors are visited. -/
theorem SearchInv.pop {done : List StackEntry} {killed killed' : List Location}
    {stack : List StackEntry}
    (h : SearchInv body contains R done killed [] ⟨visited, e :: stack⟩)
    (hsub : ∀ P ∈ killed, P ∈ killed') (hsound : ∀ P ∈ killed', contains P = false)
    (houtside : ∀ i, firstOutside contains e = some i → ⟨e.bb, i⟩ ∈ killed')
    (hsuccs : firstOutside contains e = none → e.firstPartOnly = false →
      ∀ u ∈ body.successors e.bb, u ∈ left) :
    SearchInv body contains R (done ++ [e]) killed' left ⟨visited, stack⟩ where
  sound := hsound
  parts e' he' := h.parts e' (by simpa using he')
  start := by
    obtain ⟨e', he', hrest⟩ := h.start
    exact ⟨e', by simpa using he', hrest⟩
  visited := h.visited
  cover u hu := by
    obtain ⟨e', he', hrest⟩ := h.cover u hu
    exact ⟨e', by simpa using he', hrest⟩
  outside e' he' i hi := by
    rcases mem_append.1 he' with he' | he'
    · exact hsub _ (h.outside e' he' i hi)
    · rw [mem_singleton.1 he'] at hi ⊢
      exact houtside i hi
  succs e' he' hnone hfpo u hu := by
    rcases mem_append.1 he' with he' | he'
    · exact .inl ((h.succs e' he' hnone hfpo u hu).resolve_right not_mem_nil)
    · rw [mem_singleton.1 he'] at hnone hfpo hu
      exact .inr (hsuccs hnone hfpo u hu)

/-- The loop ends, has killed the borrow only outside of the region, and has killed it at every
checked location outside of the region. -/
theorem searchLoop_spec (hbody : body.WF) (hR : IsLocation body R) :
    ∀ {fuel : Nat} {s : Search} {done : List StackEntry} {killed : List Location},
      s.turns body < fuel → SearchInv body contains R done killed [] s →
      ∃ killed', searchLoop body contains fuel s killed = .ok killed' ∧
        (∀ P ∈ killed', contains P = false) ∧
        ∀ P, Checked body contains R P → contains P = true ∨ P ∈ killed'
  | 0, _, _, _, hfuel, _ => absurd hfuel (Nat.not_lt_zero _)
  | fuel + 1, ⟨visited, []⟩, done, killed, _, h => ⟨killed, rfl, h.sound, fun _ => h.complete hR⟩
  | fuel + 1, ⟨visited, e :: stack⟩, done, killed, hfuel, h => by
    have hturns : turns body ⟨visited, stack⟩ < fuel := by
      simp only [turns, unseen, length_cons] at hfuel ⊢
      omega
    have hpart := h.parts e (by simp)
    cases hfirst : firstOutside contains e with
    | some i =>
      have hout : contains ⟨e.bb, i⟩ = false := (firstOutside_eq_some.1 hfirst).1
      have hsound : ∀ P ∈ killed ++ [⟨e.bb, i⟩], contains P = false := by
        intro P hP
        rcases mem_append.1 hP with hP | hP
        · exact h.sound P hP
        · rw [mem_singleton.1 hP]
          exact hout
      have hpop : SearchInv body contains R (done ++ [e]) (killed ++ [⟨e.bb, i⟩]) []
          ⟨visited, stack⟩ :=
        h.pop (fun P hP => mem_append_left _ hP) hsound (by simp [hfirst]) (by simp [hfirst])
      obtain ⟨killed', hrun, hspec⟩ := searchLoop_spec hbody hR hturns hpop
      exact ⟨killed', by simp [searchLoop, hfirst, hrun], hspec⟩
    | none =>
      cases hfpo : e.firstPartOnly with
      | true =>
        have hpop : SearchInv body contains R (done ++ [e]) killed [] ⟨visited, stack⟩ :=
          h.pop (fun _ => id) h.sound (by simp [hfirst]) (by simp [hfpo])
        obtain ⟨killed', hrun, hspec⟩ := searchLoop_spec hbody hR hturns hpop
        exact ⟨killed', by simp [searchLoop, hfirst, hfpo, hrun], hspec⟩
      | false =>
        obtain ⟨data, hdata, hhi⟩ : ∃ data, body.basicBlocks[e.bb]? = some data ∧
            e.hi = data.statements.length := by
          rcases hpart with ⟨htrue, _⟩ | ⟨_, hdata, _⟩
          · rw [hfpo] at htrue
            cases htrue
          · exact hdata
        obtain ⟨term, hterm⟩ := hbody.terminatorOf (List.getElem?_eq_some_iff.1 hdata).1
        have hsuccs : body.successors e.bb = term.successors := by
          rw [Body.successors, hterm, Option.elim_some]
        have hpop : SearchInv body contains R (done ++ [e]) killed term.successors
            ⟨visited, stack⟩ :=
          h.pop (fun _ => id) h.sound (by simp [hfirst]) fun _ _ u hu => hsuccs ▸ hu
        obtain ⟨s', hs', h', hturns'⟩ := visitSuccessors_spec hpop
          fun u hu => hbody.inRange e.bb u (hsuccs ▸ hu)
        obtain ⟨killed', hrun, hspec⟩ := searchLoop_spec hbody hR (hturns'.trans_lt hturns) h'
        refine ⟨killed', ?_, hspec⟩
        have hterm' : data.terminator = some term := by
          simpa [Body.terminatorOf, hdata] using hterm
        simp [searchLoop, hfirst, hfpo, Body.block, hdata, hhi, hterm', assert, hs', hrun]

/-- What the search finds out about a borrow: where it is killed is outside of its region, and it is
killed wherever a path first leaves the region. -/
structure KillsOutside (body : Body) (contains : Location → Bool) (R : Location)
    (killed : Location → Prop) : Prop where
  sound : ∀ P, killed P → contains P = false
  complete : ∀ P, Checked body contains R P → contains P = true ∨ killed P

theorem precomputeBorrowsOutOfScope_spec (hbody : body.WF) (hR : IsLocation body R) {fuel : Nat}
    (hfuel : body.basicBlocks.length + 1 < fuel) :
    ∃ killed, precomputeBorrowsOutOfScope body contains fuel R = .ok killed ∧
      KillsOutside body contains R (· ∈ killed) := by
  obtain ⟨data, hdata, hidx⟩ := hR
  have hinv : SearchInv body contains R [] []
      [] ⟨update (fun _ => none) R.block (some R.statementIndex),
        [⟨R.block, R.statementIndex, data.statements.length, false⟩]⟩ := by
    refine ⟨by simp, fun e he => ?_, ⟨_, .head _, rfl, rfl, hidx⟩, fun u lo hu => ?_,
      fun u hu => ?_, by simp, by simp⟩
    · rw [nil_append, mem_singleton] at he
      rw [he]
      exact .inr ⟨rfl, ⟨data, hdata, rfl⟩, .inr ⟨rfl, rfl⟩⟩
    · dsimp only at hu
      by_cases huR : u = R.block
      · rw [huR, update_self, Option.some.injEq] at hu
        exact .inr ⟨huR, hu.symm⟩
      · rw [update_of_ne huR] at hu
        cases hu
    · dsimp only at hu
      by_cases huR : u = R.block
      · rw [huR, update_self, Option.some.injEq] at hu
        exact ⟨_, .head _, huR.symm, hu⟩
      · rw [update_of_ne huR] at hu
        cases hu
  have hturns : ∀ s : Search, s.turns body ≤ s.stack.length + body.basicBlocks.length := by
    intro s
    have := Finset.card_filter_le (Finset.range body.basicBlocks.length) (s.visited · ≠ some 0)
    rw [Finset.card_range] at this
    exact Nat.add_le_add_left this _
  obtain ⟨killed, hrun, hsound, hcomplete⟩ := searchLoop_spec hbody ⟨data, hdata, hidx⟩
    ((hturns _).trans_lt (by simpa [add_comm] using hfuel)) hinv
  exact ⟨killed, by simp [precomputeBorrowsOutOfScope, Body.block, hdata, hrun], hsound, hcomplete⟩

end

section
variable {cx : BorrowCx} {body : Body} {bs : BorrowSet}

/-- The locations where a borrow is killed are known for the borrows `seen`, and for no others. -/
def Found (cx : BorrowCx) (body : Body) (bs : BorrowSet) (seen : List bs.Index)
    (entries : List (Location × bs.Index)) : Prop :=
  (∀ i ∈ seen, KillsOutside body (cx.regionContains (bs.borrows.get i).region)
    (bs.borrows.get i).reserveLocation fun P => (P, i) ∈ entries) ∧ ∀ p ∈ entries, p.2 ∈ seen

theorem Found.snoc {seen : List bs.Index} {entries : List (Location × bs.Index)} {i : bs.Index}
    {killed : List Location} (h : Found cx body bs seen entries) (hi : i ∉ seen)
    (hkilled : KillsOutside body (cx.regionContains (bs.borrows.get i).region)
      (bs.borrows.get i).reserveLocation (· ∈ killed)) :
    Found cx body bs (seen ++ [i]) (entries ++ killed.map (·, i)) := by
  obtain ⟨hseen, hentries⟩ := h
  have hmem : ∀ P k, (P, k) ∈ entries ++ killed.map (·, i) ↔
      (P, k) ∈ entries ∨ (P ∈ killed ∧ i = k) := by
    intro P k
    simp
  refine ⟨fun k hk => ?_, fun p hp => ?_⟩
  · simp only [hmem]
    rcases mem_append.1 hk with hk | hk
    · have hne : i ≠ k := fun h => hi (h ▸ hk)
      simpa only [hne, and_false, or_false] using hseen k hk
    · rw [mem_singleton.1 hk]
      have hnew : ∀ P, (P, i) ∉ entries := fun P hP => hi (hentries _ hP)
      simpa only [hnew, false_or, and_true] using hkilled
  · rcases (hmem p.1 p.2).1 hp with hp | ⟨-, hp⟩
    · exact mem_append_left _ (hentries p hp)
    · rw [← hp]
      exact mem_append_right _ (.head _)

theorem Borrows.new_spec (hbody : body.WF)
    (hR : ∀ i : bs.Index, IsLocation body (bs.borrows.get i).reserveLocation) {fuel : Nat}
    (hfuel : body.basicBlocks.length + 1 < fuel) :
    ∃ outOfScope, Borrows.new cx body bs fuel = .ok ⟨cx, body, bs, outOfScope⟩ ∧
      ∀ i : bs.Index, KillsOutside body (cx.regionContains (bs.borrows.get i).region)
        (bs.borrows.get i).reserveLocation fun P => (P, i) ∈ outOfScope := by
  obtain ⟨outOfScope, hrun, hdone, -⟩ := foldlM_spec
    (f := fun (entries : List (Location × bs.Index)) (i : bs.Index) => do
      let killed ← precomputeBorrowsOutOfScope body (cx.regionContains (bs.borrows.get i).region) fuel
        (bs.borrows.get i).reserveLocation
      .ok (entries ++ killed.map (·, i)))
    (l := finRange bs.borrows.length) (s := []) (P := Found cx body bs)
    ⟨forall_mem_nil _, forall_mem_nil _⟩ (fun pre i post entries hl h => by
      obtain ⟨killed, hkilled, hspec⟩ := precomputeBorrowsOutOfScope_spec hbody (hR i) hfuel
      have hi : i ∉ pre := by
        have := hl ▸ nodup_finRange bs.borrows.length
        exact fun hi => disjoint_of_nodup_append this hi (.head _)
      refine ⟨_, ?_, h.snoc hi hspec⟩
      rw [hkilled, ok_bind])
  refine ⟨outOfScope, ?_, fun i => hdone i (mem_finRange i)⟩
  rw [Borrows.new, hrun, ok_bind]

end

end Tortis.BorrowCheck
