import Tortis.BorrowCheck.RegionInfer

/-!
# Region inference computes the least solution

The construction gives each component the elements that its regions start with (`new_spec`), and the
propagation solves the components in the order of their indices (`propagateConstraints_spec`), in
which the successors of a component come before it.
-/

namespace Tortis.BorrowCheck

open Outcome List RegionDefinition RegionValues ConstraintGraph SparseBitMatrix RegionDefinition

/-! ## What the regions start with -/

section
variable {numPoints : Nat} {universal : UniversalRegions} {ix : PlaceholderIndices}

/-- The elements that a component gets in the place of ones it cannot name. -/
def IsStatic (numPoints : Nat) (universal : UniversalRegions) (e : RegionElement) : Prop :=
  RegionValues.IsPoint numPoints e ∨ e = .rootUniversalRegion universal.frStatic

/-- An element is in the initial value of a region: it is live there, it is part of a free region,
or it is the region's placeholder. -/
inductive Starts (definitions : List RegionDefinition) (liveness : LivenessValues numPoints)
    (r : RegionVid) : RegionElement → Prop
  | live (p : Fin numPoints) (hp : p ∈ liveness.points.bits r) :
    Starts definitions liveness r (.location p.val)
  | point {d : RegionDefinition} (hd : definitions[r]? = some d) (hfree : d.origin = .freeRegion)
      (p : Fin numPoints) : Starts definitions liveness r (.location p.val)
  | free {d : RegionDefinition} (hd : definitions[r]? = some d) (hfree : d.origin = .freeRegion) :
    Starts definitions liveness r (.rootUniversalRegion r)
  | placeholder {d : RegionDefinition} (hd : definitions[r]? = some d) {p : PlaceholderRegion}
      (hp : d.origin = .placeholder p) : Starts definitions liveness r (.placeholderRegion p)

/-- What `init_free_and_bound_regions` adds for a region whose component has the given universe. -/
def Contributes (numPoints : Nat) (universal : UniversalRegions) (u : UniverseIndex)
    (r : RegionVid) (d : RegionDefinition) (e : RegionElement) : Prop :=
  match d.origin with
  | .freeRegion => RegionValues.IsPoint numPoints e ∨ e = .rootUniversalRegion r
  | .placeholder p =>
    if u.canName p.universeIndex then e = .placeholderRegion p
    else IsStatic numPoints universal e
  | .existential _ => False

theorem addIncompatibleUniverse_spec (h : universal.frStatic < universal.numUniversals)
    (values : RegionValues numPoints universal.numUniversals ix) (scc : Nat) :
    ∃ v, RegionInferenceContext.addIncompatibleUniverse values scc = .ok v ∧
      ∀ s e, v.Has s e ↔ values.Has s e ∨ (s = scc ∧ IsStatic numPoints universal e) := by
  obtain ⟨v, hv, hhas⟩ := RegionValues.addFreeRegion_spec h scc (values.addAllPoints scc)
  refine ⟨v, hv, fun s e => ?_⟩
  rw [hhas, has_addAllPoints, IsStatic, or_assoc, and_or_left]

/-! ## Minima over the components -/

theorem foldlM_min {α : Type} {sccs : Sccs} {l : List α} {f : List Nat → α → Outcome (List Nat)}
    (key val : α → Nat) (top : Nat) (hkey : ∀ a ∈ l, sccs.index (key a) < sccs.numSccs)
    (hf : ∀ us, ∀ a ∈ l, ∀ u, us[sccs.index (key a)]? = some u →
      f us a = .ok (us.set (sccs.index (key a)) (min u (val a)))) :
    ∃ us, l.foldlM f (replicate sccs.numSccs top) = .ok us ∧
      ∀ s < sccs.numSccs, ∃ u, us[s]? = some u ∧ (∀ a ∈ l, sccs.index (key a) = s → u ≤ val a) ∧
        (u = top ∨ ∃ a ∈ l, sccs.index (key a) = s ∧ u = val a) := by
  refine foldlM_start (P := fun pre us => ∀ s < sccs.numSccs, ∃ u, us[s]? = some u ∧
    (∀ a ∈ pre, sccs.index (key a) = s → u ≤ val a) ∧
    (u = top ∨ ∃ a ∈ pre, sccs.index (key a) = s ∧ u = val a)) ?_ ?_
  · exact fun s hs => ⟨top, getElem?_replicate_of_lt hs, nofun, .inl rfl⟩
  · rintro pre a post us rfl hP
    have ha : a ∈ pre ++ a :: post := mem_append_right _ mem_cons_self
    obtain ⟨u, hu, hle, hmin⟩ := hP _ (hkey a ha)
    refine ⟨_, hf us a ha u hu, fun s hs => ?_⟩
    by_cases hsa : sccs.index (key a) = s
    · subst hsa
      refine ⟨min u (val a), List.getElem?_set_self (List.getElem?_eq_some_iff.1 hu).1, ?_, ?_⟩
      · intro b hb hbs
        rcases mem_append.1 hb with hb | hb
        · exact (min_le_left _ _).trans (hle b hb hbs)
        · rw [mem_singleton.1 hb]
          exact min_le_right _ _
      · rcases min_choice u (val a) with heq | heq <;> rw [heq]
        · exact hmin.imp_right fun ⟨b, hb, h⟩ => ⟨b, mem_append_left _ hb, h⟩
        · exact .inr ⟨a, mem_append_right _ mem_cons_self, rfl, rfl⟩
    · obtain ⟨w, hw, hle', hmin'⟩ := hP s hs
      refine ⟨w, by rwa [getElem?_set_ne hsa], fun b hb hbs => ?_, ?_⟩
      · rcases mem_append.1 hb with hb | hb
        · exact hle' b hb hbs
        · rw [mem_singleton.1 hb] at hbs
          exact absurd hbs hsa
      · exact hmin'.imp_right fun ⟨b, hb, h⟩ => ⟨b, mem_append_left _ hb, h⟩

/-! ## The construction -/

open RegionInferenceContext

variable {sccs : Sccs} {n : Nat} {succ : Nat → List Nat}

theorem mergeLiveRegions_spec (universal : UniversalRegions) (ix : PlaceholderIndices) (hsccs : sccs.Correct n succ) {liveness : LivenessValues numPoints}
    (hlive : ∀ r ∈ liveness.rows, r < n) : ∃ v : RegionValues numPoints universal.numUniversals ix,
      mergeLiveRegions sccs liveness = .ok v ∧ ∀ s e, v.Has s e ↔ ∃ r < n, sccs.index r = s ∧
        ∃ p ∈ liveness.points.bits r, e = .location p.val := by
  obtain ⟨v, hv, hP⟩ := foldlM_start
    (P := fun pre (v : RegionValues numPoints universal.numUniversals ix) =>
      ∀ s e, v.Has s e ↔ ∃ r ∈ pre, sccs.index r = s ∧
        ∃ p ∈ liveness.points.bits r, e = .location p.val)
    (f := fun sccValues region => do
      let scc ← sccs.scc region
      .ok (sccValues.mergeLiveness scc region liveness))
    (l := liveness.rows) (s := .new numPoints universal.numUniversals ix)
    (fun s e => by simp [not_has_new]) (by
      rintro pre r post v hl hP
      have hr : r < n := hlive r (by rw [hl]; exact mem_append_right _ mem_cons_self)
      refine ⟨v.mergeLiveness (sccs.index r) r liveness, ?_, fun s e => ?_⟩
      · rw [hsccs.scc_eq r hr]
        rfl
      · rw [has_mergeLiveness, hP]
        simp only [mem_append, mem_singleton]
        constructor
        · rintro (⟨q, hq, h⟩ | ⟨rfl, h⟩)
          exacts [⟨q, .inl hq, h⟩, ⟨r, .inr rfl, rfl, h⟩]
        · rintro ⟨q, hq | rfl, heq, h⟩
          exacts [.inl ⟨q, hq, heq, h⟩, .inr ⟨heq.symm, h⟩])
  refine ⟨v, hv, fun s e => (hP s e).trans ⟨?_, ?_⟩⟩
  · rintro ⟨r, hr, h⟩
    exact ⟨r, hlive r hr, h⟩
  · rintro ⟨r, -, heq, p, hp, he⟩
    refine ⟨r, ?_, heq, p, hp, he⟩
    rw [LivenessValues.rows, rowIndices, mem_range]
    by_contra hge
    rw [bits, row, getElem?_eq_none (Nat.not_lt.1 hge)] at hp
    cases hp

/-- What the input of the inference promises: the regions of the constraints and of the liveness
exist, the free regions are universal regions, among them `'static`, and the placeholders have
indices. -/
structure WellFormed (varInfos : List RegionVariableInfo) (universal : UniversalRegions)
    (ix : PlaceholderIndices) (constraints : OutlivesConstraintSet)
    (liveness : LivenessValues numPoints) : Prop where
  static_lt : universal.frStatic < varInfos.length
  static_universal : universal.frStatic < universal.numUniversals
  constraint_lt : ∀ c ∈ constraints.outlives, c.sup < varInfos.length ∧ c.sub < varInfos.length
  live_lt : ∀ r ∈ liveness.rows, r < varInfos.length
  free_universal : ∀ r info, varInfos[r]? = some info → info.origin = .nll .freeRegion →
    r < universal.numUniversals
  placeholder_index : ∀ info ∈ varInfos, ∀ p, info.origin = .nll (.placeholder p) →
    p ∈ ix.fromIndex

theorem RegionDefinition.new_origin {info : RegionVariableInfo} {o : NLLRegionVariableOrigin}
    (h : (new info).origin = o) (ho : o ≠ .existential false) : info.origin = .nll o := by
  rw [new] at h
  dsimp only at h
  split at h
  · rename_i origin heq
    rw [heq, h]
  · exact absurd h.symm ho

theorem initRegion_spec (hstatic : universal.frStatic < universal.numUniversals)
    (rcx : RegionInferenceContext numPoints universal ix) {r : RegionVid} (d : RegionDefinition)
    {u : UniverseIndex} {scc : Nat} (hscc : rcx.constraintSccs.scc r = .ok scc)
    (hu : rcx.sccUniverses[scc]? = some u)
    (hfree : d.origin = .freeRegion → r < universal.numUniversals)
    (hplaceholder : ∀ p, d.origin = .placeholder p → p ∈ ix.fromIndex) :
    ∃ rcx', initRegion rcx r d = .ok rcx' ∧
      rcx' = { rcx with
        livenessConstraints := rcx'.livenessConstraints, sccValues := rcx'.sccValues } ∧
      ∀ s e, rcx'.sccValues.Has s e ↔
        rcx.sccValues.Has s e ∨ (s = scc ∧ Contributes numPoints universal u r d e) := by
  rw [initRegion, hscc, ok_bind]
  unfold Contributes
  cases ho : d.origin with
  | freeRegion =>
    obtain ⟨v, hv, hhas⟩ := addFreeRegion_spec (hfree ho) scc (rcx.sccValues.addAllPoints scc)
    refine ⟨_, by rw [hv]; rfl, rfl, fun s e => ?_⟩
    rw [hhas, has_addAllPoints, or_assoc, and_or_left]
  | placeholder p =>
    dsimp only
    rw [hu, expect_some, ok_bind]
    split
    · obtain ⟨v, hv, hhas⟩ := RegionValues.addPlaceholder_spec (hplaceholder p ho) scc rcx.sccValues
      exact ⟨{ rcx with sccValues := v }, by rw [hv]; rfl, rfl, hhas⟩
    · obtain ⟨v, hv, hhas⟩ := addIncompatibleUniverse_spec hstatic rcx.sccValues scc
      exact ⟨{ rcx with sccValues := v }, by rw [hv]; rfl, rfl, hhas⟩
  | existential b => exact ⟨rcx, rfl, rfl, fun s e => by simp⟩

/-- What holds of a context that has been constructed. -/
structure Constructed (rcx : RegionInferenceContext numPoints universal ix)
    (varInfos : List RegionVariableInfo) (constraints : OutlivesConstraintSet)
    (liveness : LivenessValues numPoints) : Prop where
  definitions_eq : rcx.definitions = varInfos.map RegionDefinition.new
  constraints_eq : rcx.constraints = constraints
  sccs : rcx.constraintSccs.Correct varInfos.length
    (regionSucc .normal constraints universal.frStatic varInfos.length)
  universes : ∀ s < rcx.constraintSccs.numSccs, ∃ u, rcx.sccUniverses[s]? = some u ∧
    (∀ r d, rcx.definitions[r]? = some d → rcx.constraintSccs.index r = s →
      u ≤ d.universeIndex) ∧
    (u = UniverseIndex.MAX ∨ ∃ r d, rcx.definitions[r]? = some d ∧
      rcx.constraintSccs.index r = s ∧ u = d.universeIndex)
  representatives : ∀ s < rcx.constraintSccs.numSccs, ∃ r, rcx.sccRepresentatives[s]? = some r ∧
    rcx.constraintSccs.index r = s ∧
    ∀ r' < varInfos.length, rcx.constraintSccs.index r' = s → r ≤ r'
  has : ∀ s e, rcx.sccValues.Has s e ↔ ∃ r < varInfos.length, rcx.constraintSccs.index r = s ∧
    ((∃ p ∈ liveness.points.bits r, e = .location p.val) ∨
      ∃ d u, rcx.definitions[r]? = some d ∧ rcx.sccUniverses[s]? = some u ∧
        Contributes numPoints universal u r d e)

section
variable {varInfos : List RegionVariableInfo} {constraints : OutlivesConstraintSet}
  {liveness : LivenessValues numPoints}

theorem initFreeAndBoundRegions_spec (h : WellFormed varInfos universal ix constraints liveness)
    (rcx : RegionInferenceContext numPoints universal ix)
    (hdef : rcx.definitions = varInfos.map RegionDefinition.new)
    (hsccs : rcx.constraintSccs.Correct varInfos.length succ)
    (hu : ∀ s < rcx.constraintSccs.numSccs, ∃ u, rcx.sccUniverses[s]? = some u) :
    ∃ rcx', initFreeAndBoundRegions rcx = .ok rcx' ∧
      rcx' = { rcx with
        livenessConstraints := rcx'.livenessConstraints, sccValues := rcx'.sccValues } ∧
      ∀ s e, rcx'.sccValues.Has s e ↔ rcx.sccValues.Has s e ∨
        ∃ r d u, rcx.definitions[r]? = some d ∧ rcx.constraintSccs.index r = s ∧
          rcx.sccUniverses[s]? = some u ∧ Contributes numPoints universal u r d e := by
  obtain ⟨rcx', hrun, hsame, hhas⟩ := foldlM_start
    (P := fun pre (rcx' : RegionInferenceContext numPoints universal ix) =>
      rcx' = { rcx with
        livenessConstraints := rcx'.livenessConstraints, sccValues := rcx'.sccValues } ∧
      ∀ s e, rcx'.sccValues.Has s e ↔ rcx.sccValues.Has s e ∨
        ∃ r d u, (d, r) ∈ pre ∧ rcx.constraintSccs.index r = s ∧
          rcx.sccUniverses[s]? = some u ∧ Contributes numPoints universal u r d e)
    (f := fun rcx (x : RegionDefinition × Nat) => initRegion rcx x.2 x.1)
    (l := rcx.definitions.zipIdx) (s := rcx) ⟨rfl, fun s e => by simp⟩ (by
      rintro pre ⟨d, r⟩ post rcx' hl ⟨hsame, hhas⟩
      have hmem : (d, r) ∈ rcx.definitions.zipIdx := by
        rw [hl]
        simp
      have hd : rcx.definitions[r]? = some d := mem_zipIdx_iff_getElem?.1 hmem
      obtain ⟨info, hinfo, rfl⟩ : ∃ info, varInfos[r]? = some info ∧
          RegionDefinition.new info = d := by
        rw [hdef, getElem?_map] at hd
        exact Option.map_eq_some_iff.1 hd
      have hr : r < varInfos.length := (List.getElem?_eq_some_iff.1 hinfo).1
      obtain ⟨u, hus⟩ := hu _ ((hsccs.used _).2 ⟨r, hr, rfl⟩)
      obtain ⟨rcx'', hrun, hsame', hhas'⟩ := initRegion_spec h.static_universal rcx'
        (RegionDefinition.new info) (u := u) (r := r)
        (by rw [hsame]; exact hsccs.scc_eq r hr) (by rw [hsame]; exact hus)
        (fun ho => h.free_universal r info hinfo (new_origin ho nofun))
        (fun p hp => h.placeholder_index info (mem_of_getElem? hinfo) p
          (new_origin hp nofun))
      refine ⟨rcx'', hrun, hsame'.trans (by rw [hsame]), fun s e => ?_⟩
      rw [hhas', hhas, or_assoc]
      refine or_congr_right ⟨?_, ?_⟩
      · rintro (⟨r', d', u', hmem', heq, hu', hc⟩ | ⟨rfl, hc⟩)
        · exact ⟨r', d', u', mem_append_left _ hmem', heq, hu', hc⟩
        · exact ⟨r, _, u, mem_append_right _ mem_cons_self, rfl, hus, hc⟩
      · rintro ⟨r', d', u', hmem', heq, hu', hc⟩
        rcases mem_append.1 hmem' with hmem' | hmem'
        · exact .inl ⟨r', d', u', hmem', heq, hu', hc⟩
        · cases mem_singleton.1 hmem'
          subst heq
          rw [hus] at hu'
          cases hu'
          exact .inr ⟨rfl, hc⟩)
  refine ⟨rcx', hrun, hsame, fun s e => (hhas s e).trans ?_⟩
  simp only [mem_zipIdx_iff_getElem?]

theorem computeSccUniverses_spec (definitions : List RegionDefinition)
    (hsccs : sccs.Correct definitions.length succ) :
    ∃ us, computeSccUniverses sccs definitions = .ok us ∧ ∀ s < sccs.numSccs, ∃ u, us[s]? = some u ∧
      (∀ r d, definitions[r]? = some d → sccs.index r = s → u ≤ d.universeIndex) ∧
      (u = UniverseIndex.MAX ∨
        ∃ r d, definitions[r]? = some d ∧ sccs.index r = s ∧ u = d.universeIndex) := by
  have hlt : ∀ x ∈ definitions.zipIdx, x.2 < definitions.length := fun x hx =>
    (List.getElem?_eq_some_iff.1 (List.mem_zipIdx_iff_getElem?.1 hx)).1
  obtain ⟨us, hus, hmin⟩ := foldlM_min (l := definitions.zipIdx)
    (f := fun sccUniverses x => do
      let scc ← sccs.scc x.2
      let sccUniverse ← expect "index out of bounds" sccUniverses[scc]?
      .ok (sccUniverses.set scc (min sccUniverse x.1.universeIndex)))
    Prod.snd (fun x => x.1.universeIndex) UniverseIndex.MAX
    (fun x hx => (hsccs.used _).2 ⟨x.2, hlt x hx, rfl⟩)
    (fun us x hx u hu => by
      rw [hsccs.scc_eq _ (hlt x hx), ok_bind, hu]
      rfl)
  refine ⟨us, hus, fun s hs => ?_⟩
  obtain ⟨u, hu, hle, htop⟩ := hmin s hs
  refine ⟨u, hu, fun r d hd hr => hle (d, r) (mem_zipIdx_iff_getElem?.2 hd) hr, ?_⟩
  exact htop.imp_right fun ⟨x, hx, hr, hu⟩ => ⟨x.2, x.1, mem_zipIdx_iff_getElem?.1 hx, hr, hu⟩

theorem computeSccRepresentatives_spec (definitions : List RegionDefinition)
    (hsccs : sccs.Correct definitions.length succ) :
    ∃ rs, computeSccRepresentatives sccs definitions = .ok rs ∧ ∀ s < sccs.numSccs, ∃ r,
      rs[s]? = some r ∧ sccs.index r = s ∧
      ∀ r' < definitions.length, sccs.index r' = s → r ≤ r' := by
  obtain ⟨rs, hrs, hmin⟩ := foldlM_min (l := range definitions.length)
    (f := fun sccRepresentatives regionVid => do
      let scc ← sccs.scc regionVid
      let prevMin ← expect "index out of bounds" sccRepresentatives[scc]?
      .ok (sccRepresentatives.set scc (min regionVid prevMin)))
    id id definitions.length
    (fun r hr => (hsccs.used _).2 ⟨r, mem_range.1 hr, rfl⟩)
    (fun rs r hr u hu => by
      dsimp only [id] at hu ⊢
      rw [hsccs.scc_eq r (mem_range.1 hr), ok_bind, hu, expect_some, ok_bind, min_comm])
  refine ⟨rs, hrs, fun s hs => ?_⟩
  obtain ⟨r, hr, hle, htop⟩ := hmin s hs
  have hle' : ∀ r' < definitions.length, sccs.index r' = s → r ≤ r' := fun r' hr' =>
    hle r' (mem_range.2 hr')
  refine ⟨r, hr, ?_, hle'⟩
  rcases htop with rfl | ⟨r', -, hr', rfl⟩
  · obtain ⟨r', hr', heq⟩ := (hsccs.used s).1 hs
    exact absurd (hle' r' hr' heq) (Nat.not_le.2 hr')
  · exact hr'

theorem new_spec (h : WellFormed varInfos universal ix constraints liveness) : ∃ rcx :
    RegionInferenceContext numPoints universal ix, new varInfos universal ix constraints liveness =
    .ok rcx ∧ Constructed rcx varInfos constraints liveness := by
  have hlen : (varInfos.map RegionDefinition.new).length = varInfos.length := length_map ..
  obtain ⟨g, hg, hadded⟩ := ConstraintGraph.new_spec .normal constraints
    (n := varInfos.length) fun c hc => (h.constraint_lt c hc).1
  obtain ⟨sccs, hnew, hcorrect⟩ := Sccs.new_correct
    (regionGraph_hasSuccessors universal.frStatic hadded
      fun c hc => (h.constraint_lt c hc).2)
  have hsccs : sccs.Correct varInfos.length
      (regionSucc .normal constraints universal.frStatic varInfos.length) := by
    have hnum : (g.regionGraph .normal constraints universal.frStatic).numNodes =
        varInfos.length := hadded.first_length
    rwa [hnum] at hcorrect
  obtain ⟨v, hv, hvhas⟩ := mergeLiveRegions_spec universal ix hsccs h.live_lt
  obtain ⟨us, hus, humin⟩ := computeSccUniverses_spec
    (varInfos.map RegionDefinition.new) (by rwa [hlen])
  obtain ⟨rs, hrs, hrmin⟩ := computeSccRepresentatives_spec
    (varInfos.map RegionDefinition.new) (by rwa [hlen])
  obtain ⟨rcx, hinit, hsame, hhas⟩ := initFreeAndBoundRegions_spec h
    ⟨varInfos.map RegionDefinition.new, liveness, constraints, g, sccs, us, rs, v⟩ rfl hsccs
    (fun s hs => (humin s hs).imp fun u hu => hu.1)
  refine ⟨rcx, ?_, ?_⟩
  · rw [RegionInferenceContext.new, hlen, hg, ok_bind, OutlivesConstraintSet.computeSccs, hnew, ok_bind, hv,
      ok_bind, hus, ok_bind, hrs, ok_bind]
    exact hinit
  · have hd : rcx.definitions = varInfos.map RegionDefinition.new := by rw [hsame]
    have hs : rcx.constraintSccs = sccs := by rw [hsame]
    have hu : rcx.sccUniverses = us := by rw [hsame]
    have hr : rcx.sccRepresentatives = rs := by rw [hsame]
    exact {
      definitions_eq := hd
      constraints_eq := by rw [hsame]
      sccs := by rw [hs]; exact hsccs
      universes := by rw [hs, hu, hd]; exact humin
      representatives := by rw [hs, hr]; rw [hlen] at hrmin; exact hrmin
      has := fun s e => by
        rw [hhas, hd, hs, hu]
        rw [hvhas]
        constructor
        · rintro (⟨r, hlt, heq, hp⟩ | ⟨r, d, u, hd, heq, hu, hc⟩)
          · exact ⟨r, hlt, heq, .inl hp⟩
          · refine ⟨r, ?_, heq, .inr ⟨d, u, hd, hu, hc⟩⟩
            rw [← hlen]
            exact (List.getElem?_eq_some_iff.1 hd).1
        · rintro ⟨r, hlt, heq, hp | ⟨d, u, hd, hu, hc⟩⟩
          exacts [.inl ⟨r, hlt, heq, hp⟩, .inr ⟨r, d, u, hd, heq, hu, hc⟩] }

end

/-! ## The propagation -/

section
variable {rcx : RegionInferenceContext numPoints universal ix}
  {values values' : RegionValues numPoints universal.numUniversals ix}

section
variable (rcx : RegionInferenceContext numPoints universal ix)

def sccUniverse (s : Nat) : UniverseIndex :=
  rcx.sccUniverses[s]?.getD UniverseIndex.ROOT

/-- The component `a` can name what is in the value of `b`. -/
def Compatible (values : RegionValues numPoints universal.numUniversals ix) (b a : Nat) : Prop :=
  sccUniverse rcx b ≤ sccUniverse rcx a ∨
    ∀ p, values.Has b (.placeholderRegion p) → p.universeIndex ≤ sccUniverse rcx a

/-- An element comes into the value of `a` from its successor `b`. -/
def Flows
    (values : RegionValues numPoints universal.numUniversals ix) (a b : Nat) (e : RegionElement) :
    Prop :=
  (Compatible rcx values b a ∧ values.Has b e) ∨
    (¬ Compatible rcx values b a ∧ IsStatic numPoints universal e)

end

theorem Compatible.congr {a b : Nat} (h : ∀ e, values.Has b e ↔ values'.Has b e) :
    Compatible rcx values b a ↔ Compatible rcx values' b a := by
  simp only [Compatible, h]

theorem Flows.congr {a b : Nat} {e : RegionElement} (h : ∀ e, values.Has b e ↔ values'.Has b e) :
    Flows rcx values a b e ↔ Flows rcx values' a b e := by
  simp only [Flows, Compatible.congr h, h]

/-- What the propagation needs of a context. -/
structure Ready (rcx : RegionInferenceContext numPoints universal ix) (n : Nat)
    (succ : Nat → List Nat) : Prop where
  sccs : rcx.constraintSccs.Correct n succ
  universes : ∀ s < rcx.constraintSccs.numSccs, ∃ u, rcx.sccUniverses[s]? = some u
  static_universal : universal.frStatic < universal.numUniversals

theorem universeCompatible_spec (h : Ready rcx n succ) {a b : Nat}
    (ha : a < rcx.constraintSccs.numSccs) (hb : b < rcx.constraintSccs.numSccs)
    (values : RegionValues numPoints universal.numUniversals ix) : ∃ c : Bool,
    rcx.universeCompatible values b a = .ok c ∧ (c = true ↔ Compatible rcx values b a) := by
  obtain ⟨u, hu⟩ := h.universes a ha
  obtain ⟨w, hw⟩ := h.universes b hb
  rw [universeCompatible, hu, hw]
  simp only [expect_some, ok_bind, Compatible, sccUniverse, hu, hw, Option.getD_some]
  split
  · rename_i hname
    exact ⟨true, rfl, iff_of_true rfl (.inl (of_decide_eq_true hname))⟩
  · rename_i hname
    refine ⟨_, rfl, ?_⟩
    have hle : ¬ w ≤ u := fun hle => hname (decide_eq_true hle)
    simp only [all_eq_true, mem_placeholdersContainedIn,
      UniverseIndex.canName, decide_eq_true_eq, hle, false_or]

/-- What holds inside the component `k` when its successors `pre` have been propagated; the values
were `values` when the component was entered. -/
structure Propagating (rcx : RegionInferenceContext numPoints universal ix)
    (values : RegionValues numPoints universal.numUniversals ix) (k : Nat) (pre : List Nat)
    (st : Propagation numPoints universal ix) : Prop where
  visited : ∀ s, s ∈ st.visited ↔ s < k + 1
  processed : st.processed = range k
  frame : ∀ s ≠ k, ∀ e, st.values.Has s e ↔ values.Has s e
  has : ∀ e, st.values.Has k e ↔ values.Has k e ∨ ∃ t ∈ pre, Flows rcx values k t e

variable {st : Propagation numPoints universal ix}

theorem propagateSuccessor_spec (h : Ready rcx n succ) {k t m : Nat} {pre : List Nat}
    (hk : k < rcx.constraintSccs.numSccs) (ht : t < k)
    (hst : Propagating rcx values k pre st) :
    ∃ st', rcx.propagateSuccessor (rcx.propagateConstraintSccsIfNew (m + 1)) k st t = .ok st' ∧
      Propagating rcx values k (pre ++ [t]) st' := by
  have htlt := ht.trans hk
  have hframe : ∀ e, st.values.Has t e ↔ values.Has t e := hst.frame t ht.ne
  have hvisit : rcx.propagateConstraintSccsIfNew (m + 1) t st = .ok st := by
    rw [propagateConstraintSccsIfNew, assert, if_pos (decide_eq_true htlt),
      ok_bind, if_pos ((hst.visited t).2 (ht.trans (Nat.lt_succ_self k)))]
  obtain ⟨c, hc, hciff⟩ := universeCompatible_spec h hk htlt st.values
  rw [Compatible.congr hframe] at hciff
  rw [propagateSuccessor, hvisit, ok_bind, hc, ok_bind]
  have hflows {e : RegionElement} : (∃ x ∈ pre ++ [t], Flows rcx values k x e) ↔
      (∃ x ∈ pre, Flows rcx values k x e) ∨ Flows rcx values k t e := by
    simp only [mem_append, mem_singleton, or_and_right, exists_or, exists_eq_left]
  split
  · rename_i hcomp
    have hcomp := hciff.1 hcomp
    refine ⟨_, rfl, hst.visited, hst.processed, fun s hs e => ?_, fun e => ?_⟩
    · rw [has_addRegion, hst.frame s hs]
      exact ⟨fun he => he.resolve_right fun he => hs he.1, .inl⟩
    · rw [has_addRegion, hst.has, hframe, hflows, or_assoc]
      simp [Flows, hcomp]
  · rename_i hcomp
    have hcomp : ¬ Compatible rcx values t k := fun hc => hcomp (hciff.2 hc)
    obtain ⟨v, hv, hhas⟩ := addIncompatibleUniverse_spec h.static_universal st.values k
    refine ⟨{ st with values := v }, by rw [hv]; rfl, hst.visited, hst.processed,
      fun s hs e => ?_, fun e => ?_⟩
    · rw [hhas, hst.frame s hs]
      exact ⟨fun he => he.resolve_right fun he => hs he.1, .inl⟩
    · rw [hhas, hst.has, hflows, or_assoc]
      simp [Flows, hcomp]

/-- What holds when the components below `k` have been processed. -/
structure Propagated (rcx : RegionInferenceContext numPoints universal ix) (k : Nat)
    (st : Propagation numPoints universal ix) : Prop where
  visited : ∀ s, s ∈ st.visited ↔ s < k
  processed : st.processed = range k
  solved : ∀ s < k, ∀ e, st.values.Has s e ↔
    rcx.sccValues.Has s e ∨ ∃ t, rcx.constraintSccs.Next s t ∧ Flows rcx st.values s t e
  rest : ∀ s, k ≤ s → ∀ e, st.values.Has s e ↔ rcx.sccValues.Has s e

theorem propagateConstraintSccsIfNew_spec (h : Ready rcx n succ) {k m : Nat}
    (hk : k < rcx.constraintSccs.numSccs)
    (hst : Propagated rcx k st) : ∃ st', rcx.propagateConstraintSccsIfNew (m + 2) k st = .ok st' ∧
      Propagated rcx (k + 1) st' := by
  obtain ⟨l, hl⟩ := h.sccs.successors_ok k hk
  have hnext : ∀ t, t ∈ l ↔ rcx.constraintSccs.Next k t := fun t =>
    ⟨fun ht => ⟨l, hl, ht⟩, fun ⟨l', hl', ht⟩ => by
      rw [hl] at hl'
      cases hl'
      exact ht⟩
  have hlt : ∀ t ∈ l, t < k := fun t ht => h.sccs.condensed.next_lt k t ((hnext t).1 ht)
  obtain ⟨st', hrun, hst'⟩ := foldlM_start
    (P := Propagating rcx st.values k)
    (f := rcx.propagateSuccessor (rcx.propagateConstraintSccsIfNew (m + 1)) k) (l := l)
    (s := { st with visited := insert k st.visited })
    ⟨fun s => by rw [Finset.mem_insert, hst.visited]; omega, hst.processed,
      fun s _ e => Iff.rfl, fun e => by simp⟩
    (fun pre t post st hl hst => propagateSuccessor_spec h hk
      (hlt t (by rw [hl]; exact mem_append_right _ mem_cons_self)) hst)
  refine ⟨{ st' with processed := st'.processed ++ [k] }, ?_, ?_⟩
  · rw [propagateConstraintSccsIfNew, assert, if_pos (decide_eq_true hk),
      ok_bind, if_neg fun hmem => absurd ((hst.visited k).1 hmem) (lt_irrefl k),
      propagateConstraintSccsNew, hl, ok_bind, hrun]
    rfl
  · have hold : ∀ s ≠ k, ∀ e, st'.values.Has s e ↔ st.values.Has s e := hst'.frame
    refine ⟨hst'.visited, by rw [hst'.processed, range_succ], fun s hs e => ?_, fun s hs e => ?_⟩
    · have hflows (t : Nat) (ht : rcx.constraintSccs.Next s t) :
          Flows rcx st'.values s t e ↔ Flows rcx st.values s t e :=
        Flows.congr (hold t (by have := h.sccs.condensed.next_lt s t ht; omega))
      rcases Nat.lt_succ_iff_lt_or_eq.1 hs with hs | rfl
      · rw [hold s hs.ne, hst.solved s hs]
        refine or_congr_right (exists_congr fun t => and_congr_right fun ht => ?_)
        exact (hflows t ht).symm
      · rw [hst'.has, hst.rest s le_rfl]
        refine or_congr_right (exists_congr fun t => ?_)
        rw [hnext]
        exact and_congr_right fun ht => (hflows t ht).symm
    · rw [hold s (ne_of_gt hs), hst.rest s (Nat.le_of_succ_le hs)]

theorem propagateConstraints_spec (h : Ready rcx n succ) :
    ∃ values, rcx.propagateConstraints =
        .ok ({ rcx with sccValues := values }, range rcx.constraintSccs.numSccs) ∧
      ∀ s < rcx.constraintSccs.numSccs, ∀ e, values.Has s e ↔
        rcx.sccValues.Has s e ∨
          ∃ t, rcx.constraintSccs.Next s t ∧ Flows rcx values s t e := by
  obtain ⟨st, hrun, hst⟩ := foldlM_start
    (P := fun pre st => Propagated rcx pre.length st)
    (f := fun st sccIndex =>
      rcx.propagateConstraintSccsIfNew (rcx.constraintSccs.numSccs + 1) sccIndex st)
    (l := range rcx.constraintSccs.numSccs) (s := ⟨rcx.sccValues, ∅, []⟩)
    ⟨by simp, rfl, nofun, fun _ _ _ => Iff.rfl⟩
    (fun pre k post st hl hst => by
      have hlen : rcx.constraintSccs.numSccs = pre.length + (post.length + 1) := by
        simpa using congrArg List.length hl
      have hk : k = pre.length := by
        have hget : (range rcx.constraintSccs.numSccs)[pre.length]? = some k := by
          rw [hl, getElem?_append_right le_rfl, Nat.sub_self]
          rfl
        rw [getElem?_range (by omega)] at hget
        exact (Option.some.inj hget).symm
      subst hk
      have := propagateConstraintSccsIfNew_spec (m := pre.length + post.length) h (by omega) hst
      rw [hlen, length_append]
      exact this)
  rw [length_range] at hst
  refine ⟨st.values, ?_, hst.solved⟩
  rw [propagateConstraints, hrun, ok_bind, hst.processed]

end

/-! ## The solution -/

section
variable {varInfos : List RegionVariableInfo} {constraints : OutlivesConstraintSet}
  {liveness : LivenessValues numPoints} {rcx : RegionInferenceContext numPoints universal ix}

/-- A region has an edge to another one: a constraint makes it outlive that one, or it is
`'static`. -/
def Edge (constraints : OutlivesConstraintSet) (universal : UniversalRegions) (n : Nat)
    (r r' : RegionVid) : Prop :=
  (∃ c ∈ constraints.outlives, c.sup = r ∧ c.sub = r') ∨ (r = universal.frStatic ∧ r' < n)

theorem mem_regionSucc_iff_edge (h : WellFormed varInfos universal ix constraints liveness)
    (r r' : RegionVid) : r' ∈ regionSucc .normal constraints universal.frStatic varInfos.length r ↔
    Edge constraints universal varInfos.length r r' := by
  rw [mem_regionSucc, Edge]
  split
  · rename_i hstatic
    refine ⟨fun hlt => .inr ⟨hstatic.1, hlt⟩, ?_⟩
    rintro (⟨c, hc, -, rfl⟩ | ⟨-, hlt⟩)
    exacts [(h.constraint_lt c hc).2, hlt]
  · rename_i hstatic
    refine ⟨.inl, fun hedge => hedge.resolve_right fun hr => hstatic ⟨hr.1, rfl⟩⟩

theorem Constructed.ready (h : WellFormed varInfos universal ix constraints liveness)
    (hc : Constructed rcx varInfos constraints liveness) : Ready rcx varInfos.length
      (regionSucc .normal constraints universal.frStatic varInfos.length) :=
  ⟨hc.sccs, fun s hs => (hc.universes s hs).imp fun _ hu => hu.1, h.static_universal⟩

theorem regionContains_eq_true {n : Nat} {succ : Nat → List Nat}
    (h : rcx.constraintSccs.Correct n succ) {r : RegionVid} (hr : r < n) (e : RegionElement) :
    rcx.regionContains r e = .ok true ↔ rcx.sccValues.Has (rcx.constraintSccs.index r) e := by
  rw [regionContains, h.scc_eq r hr, ok_bind]
  exact contains_eq_true

theorem contributes_iff_starts {definitions : List RegionDefinition} {r : RegionVid}
    {e : RegionElement} {u : UniverseIndex}
    (hroot : ∀ d ∈ definitions, d.universeIndex = UniverseIndex.ROOT) :
    ((∃ p ∈ liveness.points.bits r, e = .location p.val) ∨
      ∃ d, definitions[r]? = some d ∧ Contributes numPoints universal u r d e) ↔
      Starts definitions liveness r e := by
  have hname {d : RegionDefinition} (hd : definitions[r]? = some d) {p : PlaceholderRegion}
      (hp : d.origin = .placeholder p) : u.canName p.universeIndex = true := by
    refine decide_eq_true ?_
    rw [d.placeholder_universe p hp, hroot d (mem_of_getElem? hd)]
    exact Nat.zero_le u
  constructor
  · rintro (⟨p, hp, rfl⟩ | ⟨d, hd, hc⟩)
    · exact .live p hp
    · unfold Contributes at hc
      split at hc
      · rename_i hfree
        rcases hc with hp | rfl
        · cases e with
          | location point => exact .point hd hfree ⟨point, hp⟩
          | rootUniversalRegion region => exact hp.elim
          | placeholderRegion p => exact hp.elim
        · exact .free hd hfree
      · rename_i p hp
        rw [if_pos (hname hd hp)] at hc
        subst hc
        exact .placeholder hd hp
      · exact hc.elim
  · intro h
    cases h with
    | live p hp => exact .inl ⟨p, hp, rfl⟩
    | point hd hfree p => exact .inr ⟨_, hd, by unfold Contributes; rw [hfree]; exact .inl p.2⟩
    | free hd hfree => exact .inr ⟨_, hd, by unfold Contributes; rw [hfree]; exact .inr rfl⟩
    | placeholder hd hp =>
      refine .inr ⟨_, hd, ?_⟩
      unfold Contributes
      rw [hp]
      dsimp only
      rw [if_pos (hname hd hp)]

section
variable {values : RegionValues numPoints universal.numUniversals ix}
  (hc : Constructed rcx varInfos constraints liveness)
  (hsolved : ∀ s < rcx.constraintSccs.numSccs, ∀ e, values.Has s e ↔
    rcx.sccValues.Has s e ∨ ∃ t, rcx.constraintSccs.Next s t ∧ Flows rcx values s t e)
include hc hsolved

/-- With all regions in the root universe the values are the least solution. -/
theorem solved_least (h : WellFormed varInfos universal ix constraints liveness)
    (hroot : ∀ info ∈ varInfos, info.universeIndex = UniverseIndex.ROOT) {r : RegionVid}
    (hr : r < varInfos.length) (e : RegionElement) : values.Has (rcx.constraintSccs.index r) e ↔
      ∃ r', Relation.ReflTransGen (Edge constraints universal varInfos.length) r r' ∧
        Starts (varInfos.map RegionDefinition.new) liveness r' e := by
  have hrootd : ∀ d ∈ varInfos.map RegionDefinition.new,
      d.universeIndex = UniverseIndex.ROOT := by
    intro d hd
    obtain ⟨info, hinfo, rfl⟩ := mem_map.1 hd
    exact hroot info hinfo
  have huniverse : ∀ s < rcx.constraintSccs.numSccs, sccUniverse rcx s = UniverseIndex.ROOT := by
    intro s hs
    obtain ⟨u, hu, hle, -⟩ := hc.universes s hs
    obtain ⟨v, hv, hvs⟩ := (hc.sccs.used s).1 hs
    have hd : rcx.definitions[v]? = some (RegionDefinition.new (varInfos[v])) := by
      rw [hc.definitions_eq, getElem?_map, getElem?_eq_getElem hv]
      rfl
    have hmin := hle v _ hd hvs
    rw [hrootd _ (mem_map_of_mem (getElem_mem hv))] at hmin
    rw [sccUniverse, hu]
    exact Nat.le_zero.1 hmin
  have hnum {s t : Nat} (hst : rcx.constraintSccs.Next s t) : s < rcx.constraintSccs.numSccs := by
    obtain ⟨l, hl, -⟩ := hst
    exact Scc.SccData.successors_lt hl
  have hstep : ∀ s e, e ∈ {e | s < rcx.constraintSccs.numSccs ∧ values.Has s e} ↔
      (∃ v ∈ {v | v < varInfos.length}, rcx.constraintSccs.index v = s ∧
        e ∈ {e | Starts (varInfos.map RegionDefinition.new) liveness v e}) ∨
      ∃ t, rcx.constraintSccs.Next s t ∧
        e ∈ {e | t < rcx.constraintSccs.numSccs ∧ values.Has t e} := by
    intro s e
    simp only [Set.mem_ofPred_eq]
    by_cases hs : s < rcx.constraintSccs.numSccs
    · obtain ⟨u, hu, -⟩ := hc.universes s hs
      rw [hsolved s hs, hc.has]
      refine (and_iff_right hs).trans (or_congr (exists_congr fun v => ?_) ?_)
      · refine and_congr_right fun _ => and_congr_right fun _ => ?_
        rw [← @contributes_iff_starts _ universal _ _ _ _ u hrootd, hc.definitions_eq]
        simp [hu]
      · refine exists_congr fun t => and_congr_right fun ht => ?_
        have hlt : t < rcx.constraintSccs.numSccs := (hc.sccs.condensed.next_lt s t ht).trans hs
        have hcomp : Compatible rcx values t s := by
          left
          rw [huniverse t hlt, huniverse s hs]
        simp [Flows, hcomp, hlt]
    · refine iff_of_false (fun he => hs he.1) ?_
      rintro (⟨v, hv, rfl, -⟩ | ⟨t, ht, -⟩)
      exacts [hs ((hc.sccs.used _).2 ⟨v, hv, rfl⟩), hs (hnum ht)]
  have hmem := hc.sccs.condensed.mem_value_iff hstep (v := r) hr e
  simp only [mem_regionSucc_iff_edge h, Set.mem_ofPred_eq] at hmem
  rw [← hmem]
  exact (and_iff_right ((hc.sccs.used _).2 ⟨r, hr, rfl⟩)).symm

theorem solved_nameable (p : PlaceholderRegion) (s : Nat) (hs : s < rcx.constraintSccs.numSccs)
    (hp : values.Has s (.placeholderRegion p)) : p.universeIndex ≤ sccUniverse rcx s := by
  induction s using Nat.strong_induction_on with
  | _ s ih =>
    rcases (hsolved s hs _).1 hp with hp | ⟨t, ht, ⟨hcomp, hpt⟩ | ⟨-, hpt⟩⟩
    · obtain ⟨r, -, -, ⟨_, _, heq⟩ | ⟨d, u, -, hu, hcontr⟩⟩ := (hc.has s _).1 hp
      · cases heq
      · unfold Contributes at hcontr
        split at hcontr
        · exact (hcontr.elim id nofun).elim
        · split at hcontr
          · rename_i hname
            cases hcontr
            rw [sccUniverse, hu]
            exact of_decide_eq_true hname
          · exact (hcontr.elim id nofun).elim
        · exact hcontr.elim
    · have hlt := hc.sccs.condensed.next_lt s t ht
      exact hcomp.elim (fun hle => (ih t hlt (hlt.trans hs) hpt).trans hle) fun hall => hall p hpt
    · exact (hpt.elim id nofun).elim

theorem solved_edge (h : WellFormed varInfos universal ix constraints liveness)
    {r r' : RegionVid} (hr : r < varInfos.length)
    (hedge : Edge constraints universal varInfos.length r r') :
    (∀ e, values.Has (rcx.constraintSccs.index r') e → values.Has (rcx.constraintSccs.index r) e) ∨
    ∀ e, IsStatic numPoints universal e → values.Has (rcx.constraintSccs.index r) e := by
  have hs := (hc.sccs.used _).2 ⟨r, hr, rfl⟩
  rcases hc.sccs.condensed.edge_next r hr r' ((mem_regionSucc_iff_edge h r r').2 hedge) with
    heq | hnext
  · exact .inl fun e he => heq ▸ he
  · by_cases hcomp : Compatible rcx values (rcx.constraintSccs.index r')
      (rcx.constraintSccs.index r)
    · exact .inl fun e he => (hsolved _ hs e).2 (.inr ⟨_, hnext, .inl ⟨hcomp, he⟩⟩)
    · exact .inr fun e he => (hsolved _ hs e).2 (.inr ⟨_, hnext, .inr ⟨hcomp, he⟩⟩)

end

/-- Region inference returns the least solution of its constraints. In the root universe a region
contains exactly what the regions that can be reached from it start with. In general no region
contains a placeholder that the universe of its component cannot name, every constraint is
satisfied, and every component is processed once, after its successors. -/
theorem infer_least (h : WellFormed varInfos universal ix constraints liveness) :
    ∃ (rcx : RegionInferenceContext numPoints universal ix) (processed : List Nat),
      infer varInfos universal ix constraints liveness = .ok (rcx, processed) ∧
      ((∀ info ∈ varInfos, info.universeIndex = UniverseIndex.ROOT) →
        ∀ r < varInfos.length, ∀ e, rcx.regionContains r e = .ok true ↔
          ∃ r', Relation.ReflTransGen (Edge constraints universal varInfos.length) r r' ∧
            Starts (varInfos.map RegionDefinition.new) liveness r' e) ∧
      (∀ r < varInfos.length, ∀ p, rcx.regionContains r (.placeholderRegion p) = .ok true →
        ∃ scc u, rcx.constraintSccs.scc r = .ok scc ∧ rcx.sccUniverses[scc]? = some u ∧
          u.canName p.universeIndex = true ∧
          ∀ r' info, varInfos[r']? = some info → rcx.constraintSccs.scc r' = .ok scc →
            u ≤ info.universeIndex) ∧ (∀ c ∈ constraints.outlives,
        (∀ e, rcx.regionContains c.sub e = .ok true → rcx.regionContains c.sup e = .ok true) ∨
        ∀ e, IsStatic numPoints universal e → rcx.regionContains c.sup e = .ok true) ∧
      processed.Nodup ∧ (∀ s, s ∈ processed ↔ s < rcx.constraintSccs.numSccs) ∧
      ∀ s < rcx.constraintSccs.numSccs, ∃ before after l, processed = before ++ s :: after ∧
        rcx.constraintSccs.successors s = .ok l ∧ ∀ t ∈ l, t ∈ before := by
  obtain ⟨rcx, hnew, hc⟩ := new_spec h
  obtain ⟨values, hrun, hsolved⟩ := propagateConstraints_spec (hc.ready h)
  have hcontains {r : RegionVid} (hr : r < varInfos.length) (e : RegionElement) :
      regionContains { rcx with sccValues := values } r e = .ok true ↔
        values.Has (rcx.constraintSccs.index r) e := by
    have hsccs := hc.sccs
    exact @regionContains_eq_true _ _ _ { rcx with sccValues := values } _ _ hsccs r hr e
  refine ⟨{ rcx with sccValues := values }, range rcx.constraintSccs.numSccs, ?_, ?_, ?_, ?_,
    nodup_range, fun s => mem_range, fun s hs => ?_⟩
  · rw [infer, hnew]
    exact hrun
  · intro hroot r hr e
    rw [hcontains hr]
    exact solved_least hc hsolved h hroot hr e
  · intro r hr p hp
    have hs := (hc.sccs.used _).2 ⟨r, hr, rfl⟩
    have hle := solved_nameable hc hsolved p _ hs ((hcontains hr _).1 hp)
    obtain ⟨u, hu, hmin, -⟩ := hc.universes _ hs
    rw [sccUniverse, hu] at hle
    refine ⟨_, u, hc.sccs.scc_eq r hr, hu, decide_eq_true hle, fun r' info hinfo hr' => ?_⟩
    have hlt := (List.getElem?_eq_some_iff.1 hinfo).1
    refine hmin r' (RegionDefinition.new info) ?_ ?_
    · rw [hc.definitions_eq, getElem?_map, hinfo]
      rfl
    · exact Except.ok.inj ((hc.sccs.scc_eq r' hlt).symm.trans hr')
  · intro c hmem
    obtain ⟨hsup, hsub⟩ := h.constraint_lt c hmem
    simp only [hcontains hsup, hcontains hsub]
    exact solved_edge hc hsolved h hsup (.inl ⟨c, hmem, rfl, rfl⟩)
  · replace hs : s < rcx.constraintSccs.numSccs := hs
    obtain ⟨l, hl⟩ := hc.sccs.successors_ok s hs
    refine ⟨range s, range' (s + 1) (rcx.constraintSccs.numSccs - (s + 1)), l, ?_, hl,
      fun t ht => mem_range.2 (hc.sccs.condensed.next_lt s t ⟨l, hl, ht⟩)⟩
    have hsplit : rcx.constraintSccs.numSccs =
        s + (rcx.constraintSccs.numSccs - (s + 1) + 1) := by omega
    conv_lhs => rw [hsplit]
    rw [range_eq_range', range_eq_range', ← range'_append_1, range'_succ, zero_add]

end

end

/-! ## A body with a placeholder -/

namespace Sample

/-- `'static`, a variable of the root universe, and a placeholder of the next one. -/
def varInfos : List RegionVariableInfo :=
  [⟨.nll .freeRegion, 0, nofun⟩, ⟨.nll (.existential false), 0, nofun⟩,
    ⟨.nll (.placeholder ⟨1, .brAnon 0⟩), 1, fun p hp => by cases hp; rfl⟩]

def universal : UniversalRegions := ⟨0, 1⟩

def placeholders : PlaceholderIndices := (PlaceholderIndices.empty.insert ⟨1, .brAnon 0⟩).2

/-- The variable must outlive the placeholder. -/
def constraints : OutlivesConstraintSet := ⟨[⟨1, 2⟩]⟩

/-- The variable is live at the second of two points. -/
def liveness : LivenessValues 2 := ⟨⟨[none, some {1}]⟩⟩

theorem wellFormed : WellFormed varInfos universal placeholders constraints liveness where
  static_lt := by decide
  static_universal := by decide
  constraint_lt := by decide
  live_lt := by decide
  free_universal r info hr ho := by
    match r, hr with
    | 0, _ => decide
    | 1, hr => cases hr; cases ho
    | 2, hr => cases hr; cases ho
  placeholder_index info hinfo p hp := by
    simp only [varInfos, mem_cons, not_mem_nil, or_false] at hinfo
    rcases hinfo with rfl | rfl | rfl <;> cases hp
    decide

end Sample

open Sample

/-- The constraint of the sample is satisfied. -/
theorem infer_least_sample : ∃ (rcx : RegionInferenceContext 2 universal placeholders)
    (processed : List Nat),
    RegionInferenceContext.infer varInfos universal placeholders constraints liveness =
      .ok (rcx, processed) ∧
    ((∀ e, rcx.regionContains 2 e = .ok true → rcx.regionContains 1 e = .ok true) ∨
      ∀ e, IsStatic 2 universal e → rcx.regionContains 1 e = .ok true) := by
  obtain ⟨rcx, processed, hrun, -, -, hsat, -⟩ := infer_least wellFormed
  exact ⟨rcx, processed, hrun, hsat ⟨1, 2⟩ mem_cons_self⟩

end Tortis.BorrowCheck
