import Tortis.BorrowCheck.OutOfScope

/-!
# The search for the ends of a borrow is exact

`SearchTrace` follows the parts of blocks that the search processes: no two of them share a
location, and a checked path comes to the first location of each. So a borrow is killed once at each
location where a path first leaves its region, and nowhere else (`killed_iff_leaves`).
-/

namespace Tortis.BorrowCheck

open Dataflow Outcome List Option Function

section
variable {body : Body} {contains : Location → Bool} {R : Location}

/-- The block and the first statement of a part. -/
def StackEntry.key (e : StackEntry) : BasicBlock × Nat := (e.bb, e.lo)

/-- Where processing a part kills the borrow. -/
def StackEntry.killed (contains : Location → Bool) (e : StackEntry) : Option Location :=
  (firstOutside contains e).map (Location.mk e.bb)

/-- What the search has done when it has processed the parts `done` and has to visit the successors
`left` of the last of them. -/
structure SearchTrace (body : Body) (contains : Location → Bool) (R : Location)
    (done : List StackEntry) (killed : List Location) (left : List BasicBlock) (s : Search) :
    Prop where
  part : ∀ e ∈ done ++ s.stack, (e.bb = R.block ∧ e.lo = R.statementIndex) ∨
    (e.lo = 0 ∧ (e.bb = R.block → e.hi < R.statementIndex))
  bound : ∀ e ∈ done ++ s.stack, ∃ data, body.basicBlocks[e.bb]? = some data ∧
    e.hi ≤ data.statements.length
  reach : ∀ e ∈ done ++ s.stack, Checked body contains R ⟨e.bb, e.lo⟩
  keys : ((done ++ s.stack).map StackEntry.key).Nodup
  seen : ∀ e ∈ done ++ s.stack, e.lo = 0 → s.visited e.bb = some 0
  block : ∃ lo, s.visited R.block = some lo
  visited : ∀ u lo, s.visited u = some lo → lo = 0 ∨ (u = R.block ∧ lo = R.statementIndex)
  killed_eq : killed = done.filterMap (StackEntry.killed contains)
  left : ∀ u ∈ left, Checked body contains R ⟨u, 0⟩

theorem Checked.through {bb lo i : Nat} {data : BasicBlockData}
    (hdata : body.basicBlocks[bb]? = some data) (h : Checked body contains R ⟨bb, lo⟩)
    (hlo : lo ≤ i) (hi : i ≤ data.statements.length)
    (hin : ∀ k, lo ≤ k → k < i → contains ⟨bb, k⟩ = true) : Checked body contains R ⟨bb, i⟩ := by
  induction i, hlo using Nat.le_induction with
  | base => exact h
  | succ i hlo ih =>
    have hP := ih (Nat.le_of_succ_le hi) fun k h1 h2 => hin k h1 (Nat.lt_succ_of_lt h2)
    exact .step hP (hin i hlo (Nat.lt_succ_self i)) (.next hdata hi)

variable {u : BasicBlock} {killed : List Location} {left : List BasicBlock}
  {stack : List StackEntry} {done : List StackEntry} {visited : BasicBlock → Option Nat}

theorem SearchTrace.push {hi : Nat} {first : Bool}
    (h : SearchTrace body contains R done killed (u :: left) ⟨visited, stack⟩)
    (hnew : visited u ≠ some 0) (hpart : u = R.block → hi < R.statementIndex)
    (hbound : ∃ data, body.basicBlocks[u]? = some data ∧ hi ≤ data.statements.length) :
    SearchTrace body contains R done killed left
      ⟨update visited u (some 0), ⟨u, 0, hi, first⟩ :: stack⟩ := by
  have hperm : (done ++ ⟨u, 0, hi, first⟩ :: stack).Perm (⟨u, 0, hi, first⟩ :: (done ++ stack)) :=
    perm_middle
  have hall : ∀ {Q : StackEntry → Prop}, Q ⟨u, 0, hi, first⟩ → (∀ e ∈ done ++ stack, Q e) →
      ∀ e ∈ done ++ ⟨u, 0, hi, first⟩ :: stack, Q e := by
    intro Q hQ hQs e he
    rcases mem_cons.1 (hperm.mem_iff.1 he) with rfl | he
    exacts [hQ, hQs e he]
  refine ⟨hall (.inr ⟨rfl, hpart⟩) h.part, hall hbound h.bound, hall (h.left u (.head _)) h.reach,
    ?_, hall (fun _ => by simp) fun e he hlo => ?_, ?_, fun v lo hv => ?_, h.killed_eq,
    fun v hv => h.left v (.tail _ hv)⟩
  · refine (hperm.map _).nodup_iff.2 (nodup_cons.2 ⟨fun hmem => ?_, h.keys⟩)
    obtain ⟨e, he, hkey⟩ := mem_map.1 hmem
    obtain ⟨hbb, hlo⟩ : e.bb = u ∧ e.lo = 0 := Prod.mk.inj hkey
    exact hnew (hbb ▸ h.seen e he hlo)
  · dsimp only
    by_cases hbb : e.bb = u
    · rw [hbb, update_self]
    · rw [update_of_ne hbb]
      exact h.seen e he hlo
  · dsimp only
    by_cases hbb : R.block = u
    · exact ⟨0, by rw [hbb, update_self]⟩
    · rw [update_of_ne hbb]
      exact h.block
  · dsimp only at hv
    by_cases hvu : v = u
    · rw [hvu, update_self] at hv
      exact .inl (some.inj hv).symm
    · rw [update_of_ne hvu] at hv
      exact h.visited v lo hv

theorem SearchTrace.visit (hR : IsLocation body R) {s s' : Search}
    (h : SearchTrace body contains R done killed (u :: left) s)
    (hrun : visitSuccessor body s u = .ok s') :
    SearchTrace body contains R done killed left s' := by
  obtain ⟨visited, stack⟩ := s
  obtain ⟨lo0, hlo0⟩ := h.block
  rw [visitSuccessor] at hrun
  cases hvis : visited u with
  | none =>
    simp only [hvis] at hrun
    obtain ⟨data, hdata, hrun⟩ := bind_eq_ok.1 hrun
    cases hrun
    refine h.push (by simp [hvis]) (fun hu => ?_) ⟨data, expect_eq_ok.1 hdata, le_rfl⟩
    have hsome : visited R.block = some lo0 := hlo0
    rw [hu, hsome] at hvis
    cases hvis
  | some lo =>
    simp only [hvis] at hrun
    cases hrun
    by_cases hlo : lo > 0
    · obtain ⟨hu, hidx⟩ := (h.visited u lo hvis).resolve_left hlo.ne'
      obtain ⟨data, hdata, hle⟩ := hR
      rw [if_pos hlo]
      refine h.push (by simp [hvis, hlo.ne']) (fun _ => ?_) ⟨data, hu ▸ hdata, ?_⟩ <;> omega
    · have hseen : visited u = some 0 := by rw [hvis, Nat.eq_zero_of_not_pos hlo]
      have hsame : update visited u (some 0) = visited := by
        rw [← hseen, update_eq_self]
      rw [if_neg hlo, hsame]
      exact ⟨h.part, h.bound, h.reach, h.keys, h.seen, h.block, h.visited, h.killed_eq,
        fun v hv => h.left v (.tail _ hv)⟩

variable {done : List StackEntry} {killed : List Location}

theorem SearchTrace.visits (hR : IsLocation body R) :
    ∀ {left : List BasicBlock} {s s' : Search}, SearchTrace body contains R done killed left s →
      left.foldlM (visitSuccessor body) s = .ok s' →
      SearchTrace body contains R done killed [] s'
  | [], s, s', h, hrun => by
    cases hrun
    exact h
  | u :: left, s, s', h, hrun => by
    obtain ⟨s1, h1, hrun⟩ := bind_eq_ok.1 hrun
    exact SearchTrace.visits hR (h.visit hR h1) hrun

theorem SearchTrace.pop {killed killed' : List Location} {e : StackEntry}
    (h : SearchTrace body contains R done killed [] ⟨visited, e :: stack⟩)
    (hkilled : killed' = killed ++ (e.killed contains).toList)
    (hleft : ∀ u ∈ left, Checked body contains R ⟨u, 0⟩) :
    SearchTrace body contains R (done ++ [e]) killed' left ⟨visited, stack⟩ := by
  have hsame : done ++ [e] ++ stack = done ++ e :: stack := by simp
  refine ⟨?_, ?_, ?_, ?_, ?_, h.block, h.visited, ?_, hleft⟩
  · simpa only [hsame] using h.part
  · simpa only [hsame] using h.bound
  · simpa only [hsame] using h.reach
  · simpa only [hsame] using h.keys
  · simpa only [hsame] using h.seen
  · rw [hkilled, h.killed_eq, filterMap_append]
    cases hk : e.killed contains <;> simp [hk]

theorem SearchTrace.run (hR : IsLocation body R) :
    ∀ {fuel : Nat} {s : Search} {done : List StackEntry} {killed killed' : List Location},
      SearchTrace body contains R done killed [] s →
      searchLoop body contains fuel s killed = .ok killed' →
      ∃ done' visited, SearchTrace body contains R done' killed' [] ⟨visited, []⟩
  | 0, _, _, _, _, _, hrun => nomatch hrun
  | _ + 1, ⟨visited, []⟩, done, killed, killed', h, hrun => by
    cases hrun
    exact ⟨done, visited, h⟩
  | fuel + 1, ⟨visited, e :: stack⟩, done, killed, killed', h, hrun => by
    rw [searchLoop] at hrun
    cases hfirst : firstOutside contains e with
    | some i =>
      simp only [hfirst] at hrun
      refine SearchTrace.run hR (h.pop ?_ (forall_mem_nil _)) hrun
      simp [StackEntry.killed, hfirst]
    | none =>
      have hnone : killed = killed ++ (e.killed contains).toList := by
        simp [StackEntry.killed, hfirst]
      simp only [hfirst] at hrun
      by_cases hpart : e.firstPartOnly
      · rw [if_pos hpart] at hrun
        exact SearchTrace.run hR (h.pop hnone (by simp)) hrun
      rw [if_neg hpart] at hrun
      obtain ⟨data, hdata, hrun⟩ := bind_eq_ok.1 hrun
      obtain ⟨u, hassert, hrun⟩ := bind_eq_ok.1 hrun
      obtain ⟨term, hterm, hrun⟩ := bind_eq_ok.1 hrun
      obtain ⟨s', hs', hrun⟩ := bind_eq_ok.1 hrun
      have hdata := expect_eq_ok.1 hdata
      have hterm := unwrap_eq_ok.1 hterm
      have hhi : e.hi = data.statements.length := by simpa using assert_eq_ok.1 hassert
      have hin := firstOutside_eq_none.1 hfirst
      have he := h.part e (by simp)
      -- the terminator is checked and in the region, so the successors are checked
      have hleft : ∀ v ∈ term.successors, Checked body contains R ⟨v, 0⟩ := by
        intro v hv
        have hlo : e.lo ≤ data.statements.length := by
          rcases he with ⟨hbb, hlo⟩ | ⟨hlo, -⟩
          · obtain ⟨data', hdata', hle⟩ := hR
            rw [← hbb, hdata] at hdata'
            cases hdata'
            omega
          · omega
        have hend := (h.reach e (by simp)).through hdata hlo le_rfl fun k h1 h2 =>
          hin k h1 (by omega)
        refine .step hend (hin _ hlo (by omega)) (.edge hdata ?_)
        simpa [Body.successors, Body.terminatorOf, hdata, hterm] using hv
      exact SearchTrace.run hR ((h.pop hnone hleft).visits hR hs') hrun

theorem SearchTrace.killed_nodup
    (h : SearchTrace body contains R done killed [] ⟨visited, []⟩) : killed.Nodup := by
  have hkeys : done.Pairwise fun e e' => e.key ≠ e'.key := by
    simpa [List.Nodup, pairwise_map] using h.keys
  rw [h.killed_eq]
  refine pairwise_filterMap.2 (hkeys.imp_of_mem fun {e e'} he he' hne P hP P' hP' heq => ?_)
  obtain ⟨i, hi, rfl⟩ := map_eq_some_iff.1 hP
  obtain ⟨i', hi', rfl⟩ := map_eq_some_iff.1 hP'
  obtain ⟨hbb, rfl⟩ := Location.mk.inj heq
  obtain ⟨-, hlo, hhi, -⟩ := firstOutside_eq_some.1 hi
  obtain ⟨-, hlo', hhi', -⟩ := firstOutside_eq_some.1 hi'
  -- two parts of one block that share a location start at the same statement
  refine hne (Prod.ext hbb ?_)
  show e.lo = e'.lo
  rcases h.part e (by simpa using he) with ⟨hR, hs⟩ | ⟨hs, hR⟩ <;>
    rcases h.part e' (by simpa using he') with ⟨hR', hs'⟩ | ⟨hs', hR'⟩
  · rw [hs, hs']
  · have := hR' (hbb ▸ hR)
    omega
  · have := hR (hbb ▸ hR')
    omega
  · rw [hs, hs']

theorem SearchTrace.checked
    (h : SearchTrace body contains R done killed [] ⟨visited, []⟩) {P : Location}
    (hP : P ∈ killed) : Checked body contains R P := by
  rw [h.killed_eq] at hP
  obtain ⟨e, he, hP⟩ := mem_filterMap.1 hP
  obtain ⟨i, hi, rfl⟩ := map_eq_some_iff.1 hP
  obtain ⟨-, hlo, hhi, hin⟩ := firstOutside_eq_some.1 hi
  obtain ⟨data, hdata, hle⟩ := h.bound e (by simpa using he)
  exact (h.reach e (by simpa using he)).through hdata hlo (hhi.trans hle) hin

/-- For every body, region and start location the search ends. It kills the borrow once at each
location outside of the region to which a path from the start location comes inside the region, and
nowhere else. -/
theorem killed_iff_leaves (hbody : body.WF) (contains : Location → Bool) (hR : IsLocation body R)
    {fuel : Nat} (hfuel : body.basicBlocks.length + 1 < fuel) :
    ∃ killed, precomputeBorrowsOutOfScope body contains fuel R = .ok killed ∧ killed.Nodup ∧
      ∀ P, P ∈ killed ↔ contains P = false ∧ Checked body contains R P := by
  obtain ⟨killed, hrun, hkills⟩ := precomputeBorrowsOutOfScope_spec hbody hR hfuel
  obtain ⟨data, hdata, hle⟩ := id hR
  have hstart : SearchTrace body contains R [] []
      [] ⟨update (fun _ => none) R.block (some R.statementIndex),
        [⟨R.block, R.statementIndex, data.statements.length, false⟩]⟩ := by
    refine ⟨?_, ?_, ?_, by simp, ?_, ⟨R.statementIndex, by simp⟩, fun u lo hu => ?_, rfl, by simp⟩
    · simp
    · simpa using ⟨data, hdata, le_rfl⟩
    · simpa using Checked.start
    · simp
    · dsimp only at hu
      by_cases huR : u = R.block
      · rw [huR, update_self, Option.some.injEq] at hu
        exact .inr ⟨huR, hu.symm⟩
      · rw [update_of_ne huR] at hu
        cases hu
  have hloop : searchLoop body contains fuel
      ⟨update (fun _ => none) R.block (some R.statementIndex),
        [⟨R.block, R.statementIndex, data.statements.length, false⟩]⟩ [] = .ok killed := by
    simpa [precomputeBorrowsOutOfScope, Body.block, hdata] using hrun
  obtain ⟨done, visited, htrace⟩ := hstart.run hR hloop
  refine ⟨killed, hrun, htrace.killed_nodup, fun P => ⟨fun hP => ?_, fun hP => ?_⟩⟩
  · exact ⟨hkills.sound P hP, htrace.checked hP⟩
  · exact (hkills.complete P hP.2).resolve_left (by simp [hP.1])

/-- A block that leads back to itself. -/
def selfLoop : Body := ⟨[⟨[.nop, .nop], some (.goto 0), false⟩], [], 0⟩

/-- The borrow is taken in the middle of the block, and its region leaves out the first statement. -/
theorem killed_iff_leaves_selfLoop :
    ∃ killed, precomputeBorrowsOutOfScope selfLoop (fun P => P.statementIndex ≠ 0) 3 ⟨0, 1⟩ =
        .ok killed ∧ killed.Nodup ∧ (⟨0, 0⟩ : Location) ∈ killed := by
  have hwf : selfLoop.WF := Body.wf_of_blocks (by decide) (by decide)
  obtain ⟨killed, hrun, hnodup, hiff⟩ := killed_iff_leaves hwf (fun P => P.statementIndex ≠ 0)
    (R := ⟨0, 1⟩) ⟨_, rfl, by decide⟩ (by decide : 1 + 1 < 3)
  have hedge : Follows selfLoop ⟨0, 2⟩ ⟨0, 0⟩ :=
    @Follows.edge _ 0 0 ⟨[.nop, .nop], some (.goto 0), false⟩ rfl (.head _)
  refine ⟨killed, hrun, hnodup, (hiff _).2 ⟨rfl, ?_⟩⟩
  exact .step (.step .start rfl (.next rfl (by decide))) rfl hedge

end

end Tortis.BorrowCheck
