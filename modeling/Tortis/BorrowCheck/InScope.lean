import Tortis.BorrowCheck.OutOfScope

/-!
# Which borrows are in scope

The gen/kill analysis along paths and the places where regions end together say which borrows the
analysis has at a location: `flowAtLocation_iff`. Reading it against what should kill a borrow gives
`borrows_exact_iff`: the analysis is exact unless an assignment of an ignored reference overwrites
the place of a borrow that is in scope.
-/

namespace Tortis.BorrowCheck

open Dataflow Outcome List BitDenotation Borrows Relation

/-! ## What overwrites the place of a borrow -/

namespace Borrows

variable {bw : Borrows} {b : bw.borrowSet.Index} {P Q : Location}

section
variable (bw : Borrows)

/-- `kill_borrows_on_place` of the place kills the borrow. -/
def Conflicts (b : bw.borrowSet.Index) (place : Place) : Prop :=
  ∃ killed, bw.killBorrowsOnPlace place = .ok killed ∧ b ∈ killed

def overwritten (P : Location) : List Place :=
  match statementAt bw.body P with
  | some (.assign lhs _) => [lhs]
  | some (.storageDead l) => [Place.ofLocal l]
  | some (.inlineAsm outputs _) =>
    ((outputs.zip (bw.cx.asmOutputs P)).filter fun p => !p.2.isIndirect && !p.2.isRw).map Prod.fst
  | _ => []

/-- The statement at a location overwrites the place of a borrow. -/
def Overwrites (b : bw.borrowSet.Index) (P : Location) : Prop :=
  ∃ place ∈ bw.overwritten P, bw.Conflicts b place

def TakesIgnored (P : Location) : Prop :=
  ∃ lhs kind place, statementAt bw.body P = some (.assign lhs (.ref kind place)) ∧
    ignoreBorrow bw.cx bw.borrowSet.localsStateAtExit place = .ok true

end

theorem conflicts_iff {place : Place} {killed : List bw.borrowSet.Index}
    (h : bw.killBorrowsOnPlace place = .ok killed) : bw.Conflicts b place ↔ b ∈ killed := by
  constructor
  · rintro ⟨killed', h', hb⟩
    rw [h] at h'
    cases h'
    exact hb
  · exact fun hb => ⟨killed, h, hb⟩

theorem mem_asm_kill : ∀ {outputs : List (Place × AsmOutput)} {acc killed : List _},
    outputs.foldlM (fun killed (p : Place × AsmOutput) =>
      if !p.2.isIndirect && !p.2.isRw then do
        let more ← bw.killBorrowsOnPlace p.1
        .ok (killed ++ more)
      else .ok killed) acc = .ok killed →
    (b ∈ killed ↔ b ∈ acc ∨
      ∃ place ∈ (outputs.filter fun p => !p.2.isIndirect && !p.2.isRw).map Prod.fst,
        bw.Conflicts b place)
  | [], acc, killed, h => by
    cases h
    simp
  | p :: outputs, acc, killed, h => by
    rw [foldlM_cons] at h
    obtain ⟨acc', h1, h2⟩ := bind_eq_ok.1 h
    rw [mem_asm_kill h2]
    by_cases hp : (!p.2.isIndirect && !p.2.isRw) = true
    · rw [if_pos hp] at h1
      obtain ⟨more, hmore, hacc⟩ := bind_eq_ok.1 h1
      cases hacc
      rw [filter_cons_of_pos (by simpa using hp), map_cons, exists_mem_cons_iff,
        conflicts_iff hmore, mem_append, or_assoc]
    · rw [if_neg hp] at h1
      cases h1
      rw [filter_cons_of_neg (by simpa using hp)]

def TakesNoRef (bw : Borrows) (P : Location) : Prop :=
  ∀ lhs kind place, statementAt bw.body P ≠ some (.assign lhs (.ref kind place))

variable {e : bw.StatementEffect}

/-- The effect of a statement: an ignored reference has none, any other reference generates the
borrow at its location and kills, and the other statements only kill. -/
theorem statementEffect_cases (h : bw.statementEffect P = .ok e) :
    (bw.TakesIgnored P ∧ e = ⟨none, []⟩) ∨
    (∃ lhs kind place index, statementAt bw.body P = some (.assign lhs (.ref kind place)) ∧
      ignoreBorrow bw.cx bw.borrowSet.localsStateAtExit place = .ok false ∧
      bw.borrowSet.locationMap P = some index ∧ e.gen = some index ∧
      ∀ b, b ∈ e.kill ↔ bw.Overwrites b P) ∨
    (bw.TakesNoRef P ∧ e.gen = none ∧ ∀ b, b ∈ e.kill ↔ bw.Overwrites b P) := by
  obtain ⟨block, hblock, h⟩ := bind_eq_ok.1 h
  obtain ⟨stmt, hstmt, h⟩ := bind_eq_ok.1 h
  have hat : statementAt bw.body P = some stmt := by
    rw [expect_eq_ok] at hblock hstmt
    rw [statementAt, hblock]
    exact hstmt
  have hassign : ∀ {lhs rv killed}, stmt = .assign lhs rv → bw.killBorrowsOnPlace lhs = .ok killed →
      ∀ b, b ∈ killed ↔ bw.Overwrites b P := by
    intro lhs rv killed hst hkilled b
    rw [Overwrites, overwritten, hat, hst]
    simp [conflicts_iff hkilled]
  by_cases href : ∃ lhs kind place, stmt = .assign lhs (.ref kind place)
  · obtain ⟨lhs, kind, place, rfl⟩ := href
    obtain ⟨ignored, hignored, h⟩ := bind_eq_ok.1 h
    cases ignored with
    | true =>
      cases h
      exact .inl ⟨⟨lhs, kind, place, hat, hignored⟩, rfl⟩
    | false =>
      obtain ⟨index, hindex, h⟩ := bind_eq_ok.1 h
      obtain ⟨killed, hkilled, h⟩ := bind_eq_ok.1 h
      cases h
      exact .inr (.inl ⟨lhs, kind, place, index, hat, hignored, expect_eq_ok.1 hindex, rfl,
        hassign rfl hkilled⟩)
  · have hnoref : bw.TakesNoRef P := by
      intro lhs kind place hP
      rw [hat, Option.some.injEq] at hP
      exact href ⟨lhs, kind, place, hP⟩
    refine .inr (.inr ⟨hnoref, ?_⟩)
    cases stmt with
    | assign lhs rv =>
      have h' : (bw.killBorrowsOnPlace lhs >>= fun killed =>
          (.ok ⟨none, killed⟩ : Outcome bw.StatementEffect)) = .ok e := by
        cases rv with
        | ref kind place => exact absurd ⟨lhs, kind, place, rfl⟩ href
        | _ => exact h
      obtain ⟨killed, hkilled, h'⟩ := bind_eq_ok.1 h'
      cases h'
      exact ⟨rfl, hassign rfl hkilled⟩
    | storageDead l =>
      obtain ⟨killed, hkilled, h⟩ := bind_eq_ok.1 h
      cases h
      refine ⟨rfl, fun b => ?_⟩
      rw [Overwrites, overwritten, hat]
      simp [conflicts_iff hkilled]
    | inlineAsm outputs inputs =>
      obtain ⟨killed, hkilled, h⟩ := bind_eq_ok.1 h
      cases h
      refine ⟨rfl, fun b => ?_⟩
      rw [Overwrites, overwritten, hat, mem_asm_kill hkilled]
      simp
    | _ =>
      cases h
      refine ⟨rfl, fun b => ?_⟩
      rw [Overwrites, overwritten, hat]
      simp

/-- A statement kills the borrows whose places it overwrites, unless it takes a reference that is
ignored. -/
theorem mem_kill_iff (h : bw.statementEffect P = .ok e) :
    b ∈ e.kill ↔ bw.Overwrites b P ∧ ¬ bw.TakesIgnored P := by
  rcases statementEffect_cases h with ⟨hign, rfl⟩ | ⟨lhs, kind, place, index, hat, hign, -, -, hkill⟩ |
    ⟨hnoref, -, hkill⟩
  · simp [hign]
  · have : ¬ bw.TakesIgnored P := by
      rintro ⟨lhs', kind', place', hat', hign'⟩
      rw [hat] at hat'
      cases hat'
      rw [hign] at hign'
      cases hign'
    rw [hkill, and_iff_left this]
  · have : ¬ bw.TakesIgnored P := fun ⟨lhs, kind, place, hat, _⟩ => hnoref lhs kind place hat
    rw [hkill, and_iff_left this]

theorem gen_iff (hbs : bw.borrowSet.Valid bw.cx bw.body) (h : bw.statementEffect P = .ok e) :
    e.gen = some b ↔ (bw.borrowSet.borrows.get b).reserveLocation = P := by
  obtain ⟨lhs, kind, hres, hign⟩ := hbs.reserved b
  rcases statementEffect_cases h with ⟨⟨lhs', kind', place', hat', hign'⟩, rfl⟩ |
    ⟨_, _, _, index, -, -, hindex, hgen, -⟩ | ⟨hnoref, hgen, -⟩
  · refine iff_of_false nofun fun hP => ?_
    rw [hP, hat'] at hres
    cases hres
    rw [hign] at hign'
    cases hign'
  · rw [hgen, ← hbs.locationMap_iff, hindex]
  · rw [hgen]
    refine iff_of_false nofun fun hP => ?_
    rw [hP] at hres
    exact hnoref _ _ _ hres

/-! ## The bit of a borrow -/

def Kills (bw : Borrows) (b : bw.borrowSet.Index) (P : Location) : Prop :=
  bw.Overwrites b P ∧ ¬ bw.TakesIgnored P

theorem not_overwrites_of_none (h : statementAt bw.body P = none) : ¬ bw.Overwrites b P := by
  rintro ⟨place, hplace, -⟩
  simp [overwritten, h] at hplace

theorem foldl_kill (l : List bw.borrowSet.Index) (x : Bool) :
    (l.map fun i => Effect.kill (bw.bitOf i)).foldl (Effect.onElem (bw.bitOf b)) x = true ↔
      x = true ∧ b ∉ l := by
  induction l generalizing x with
  | nil => simp
  | cons i l ih =>
    have hbit : bw.bitOf i = bw.bitOf b ↔ b = i := by
      simp only [bitOf, Fin.ext_iff]
      exact eq_comm
    rw [map_cons, foldl_cons, ih]
    simp [Effect.onElem, hbit, and_assoc]

theorem mem_killLoansOutOfScopeAtLocation :
    b ∈ bw.killLoansOutOfScopeAtLocation P ↔ (P, b) ∈ bw.outOfScope := by
  simp [killLoansOutOfScopeAtLocation]

theorem act_iff (hbs : bw.borrowSet.Valid bw.cx bw.body) (htotal : bw.Total)
    (hP : IsLocation bw.body P) {x : Bool} : bw.analysis.act bw.body (bw.bitOf b) P x = true ↔
      ((x = true ∧ (P, b) ∉ bw.outOfScope) ∨ (bw.borrowSet.borrows.get b).reserveLocation = P) ∧
        ¬ bw.Kills b P := by
  obtain ⟨data, hdata, -⟩ := hP
  by_cases hlt : P.statementIndex < data.statements.length
  · obtain ⟨e, he⟩ := htotal P (by simp [statementAt, hdata, hlt])
    have hgen : ∀ y : Bool, (e.gen.toList.map fun i => Effect.gen (bw.bitOf i)).foldl
        (Effect.onElem (bw.bitOf b)) y = true ↔ y = true ∨ e.gen = some b := by
      intro y
      cases e.gen with
      | none => simp
      | some i => simp [Effect.onElem, bitOf, Fin.ext_iff]
    simp only [ act, effectsAt, hdata, if_pos hlt, analysis, he,
      Except.toOption, Option.elim_some, StatementEffect.ops, foldl_append]
    rw [foldl_kill, hgen, foldl_kill, mem_killLoansOutOfScopeAtLocation, gen_iff hbs he,
      mem_kill_iff he, Kills]
  · have hnone : statementAt bw.body P = none := by
      simp only [statementAt, hdata, Option.bind_some]
      exact getElem?_eq_none (Nat.le_of_not_lt hlt)
    have hreserve : (bw.borrowSet.borrows.get b).reserveLocation ≠ P := by
      intro hP
      obtain ⟨lhs, kind, hres, -⟩ := hbs.reserved b
      rw [hP, hnone] at hres
      cases hres
    have hkills : ¬ bw.Kills b P := fun h => not_overwrites_of_none hnone h.1
    simp only [ act, effectsAt, hdata, if_neg hlt, analysis, append_nil]
    rw [foldl_kill, mem_killLoansOutOfScopeAtLocation, or_iff_left hreserve, and_iff_left hkills]

/-! ## The borrows in scope -/

section
variable (bw : Borrows)

def InRegion (b : bw.borrowSet.Index) (P : Location) : Prop :=
  bw.cx.regionContains (bw.borrowSet.borrows.get b).region P = true

/-- A borrow that is not overwritten stays in scope when the next location is in its region. -/
def StaysInScope (b : bw.borrowSet.Index) (P Q : Location) : Prop :=
  Follows bw.body P Q ∧ ¬ bw.Overwrites b P ∧ bw.InRegion b Q

/-- A borrow is in scope at a location: a path leads there from its reserve location, inside of its
region, on which no statement overwrites its place. -/
def InScope (b : bw.borrowSet.Index) : Location → Prop :=
  TransGen (bw.StaysInScope b) (bw.borrowSet.borrows.get b).reserveLocation

/-- The step that the analysis takes for a borrow. -/
def Stays (b : bw.borrowSet.Index) (P Q : Location) : Prop :=
  Follows bw.body P Q ∧ ¬ bw.Kills b P ∧ bw.InRegion b Q

end

/-- What the analysis is started with: no effect panics, the regions contain the points where their
borrows are reserved, and the borrows are killed where their regions end. -/
structure Ready (bw : Borrows) : Prop where
  wf : bw.body.WF
  valid : bw.borrowSet.Valid bw.cx bw.body
  total : bw.Total
  live : ∀ b, bw.InRegion b (bw.borrowSet.borrows.get b).reserveLocation
  outside : ∀ b, KillsOutside bw.body (bw.cx.regionContains (bw.borrowSet.borrows.get b).region)
    (bw.borrowSet.borrows.get b).reserveLocation fun P => (P, b) ∈ bw.outOfScope

section
variable (h : bw.Ready)
include h

theorem not_mem_outOfScope (hP : bw.InRegion b P) : (P, b) ∉ bw.outOfScope := by
  intro hout
  have := (h.outside b).sound P hout
  rw [InRegion, this] at hP
  cases hP

/-- The bit of a borrow that comes to a location has come from the reserve location, inside of the
region, without being killed. -/
theorem stays_of_carried (hQ : Carried bw.analysis bw.body (bw.bitOf b) Q) :
    Checked bw.body (bw.cx.regionContains (bw.borrowSet.borrows.get b).region)
        (bw.borrowSet.borrows.get b).reserveLocation Q ∧ ((Q, b) ∉ bw.outOfScope →
        TransGen (bw.Stays b) (bw.borrowSet.borrows.get b).reserveLocation Q) := by
  -- after the reserve location, and after a location where the borrow is in scope
  have hfirst : ∀ {Q}, Follows bw.body (bw.borrowSet.borrows.get b).reserveLocation Q →
      Checked bw.body (bw.cx.regionContains (bw.borrowSet.borrows.get b).region)
        (bw.borrowSet.borrows.get b).reserveLocation Q := fun hf => .step .start (h.live b) hf
  have hregion : ∀ {Q}, Checked bw.body (bw.cx.regionContains (bw.borrowSet.borrows.get b).region)
      (bw.borrowSet.borrows.get b).reserveLocation Q → (Q, b) ∉ bw.outOfScope → bw.InRegion b Q :=
    fun hc hout => ((h.outside b).complete _ hc).resolve_right hout
  induction hQ with
  | start hstart => simp [analysis, EntrySet.bottomSet] at hstart
  | @gen P Q hf hact =>
    obtain ⟨hgen, hkills⟩ := (act_iff h.valid h.total hf.isLocation_left).1 hact
    have hP : (bw.borrowSet.borrows.get b).reserveLocation = P := by simpa using hgen
    subst hP
    exact ⟨hfirst hf, fun hout => .single ⟨hf, hkills, hregion (hfirst hf) hout⟩⟩
  | @keep P Q hf _ hact ih =>
    obtain ⟨hor, hkills⟩ := (act_iff h.valid h.total hf.isLocation_left).1 hact
    rcases hor with ⟨-, hout⟩ | hP
    · have hc := Checked.step ih.1 (hregion ih.1 hout) hf
      exact ⟨hc, fun hout' => .tail (ih.2 hout) ⟨hf, hkills, hregion hc hout'⟩⟩
    · subst hP
      exact ⟨hfirst hf, fun hout => .single ⟨hf, hkills, hregion (hfirst hf) hout⟩⟩

theorem carried_of_stays
    (hQ : TransGen (bw.Stays b) (bw.borrowSet.borrows.get b).reserveLocation Q) :
    Carried bw.analysis bw.body (bw.bitOf b) Q ∧ bw.InRegion b Q := by
  induction hQ with
  | single hstep =>
    obtain ⟨hf, hkills, hin⟩ := hstep
    exact ⟨.gen hf ((act_iff h.valid h.total hf.isLocation_left).2 ⟨.inr rfl, hkills⟩), hin⟩
  | tail _ hstep ih =>
    obtain ⟨hf, hkills, hin⟩ := hstep
    have hout := not_mem_outOfScope h ih.2
    exact ⟨.keep hf ih.1 ((act_iff h.valid h.total hf.isLocation_left).2
      ⟨.inl ⟨rfl, hout⟩, hkills⟩), hin⟩

/-- The analysis, viewed at a location, has exactly the borrows that come there without being
killed, inside of their regions. -/
theorem flowAtLocation_iff : ∃ entries,
    (∃ N, ∀ fuel ≥ N, bw.analysis.propagate bw.body (fun _ => false) fuel = .ok entries) ∧
    ∀ L, IsLocation bw.body L → ∃ set, bw.analysis.flowAtLocation bw.body entries L = .ok set ∧
      ∀ b, set.getLsbD (bw.bitOf b) = true ↔
        TransGen (bw.Stays b) (bw.borrowSet.borrows.get b).reserveLocation L := by
  have hret : bw.analysis.NoReturnEffect := fun _ _ _ _ => rfl
  obtain ⟨entries, hrun, hleast⟩ := propagate_isLeast bw.analysis hret.monotoneReturn bw.body h.wf
    fun _ => false
  refine ⟨entries, hrun, fun L ⟨data, hdata, hidx⟩ => ?_⟩
  have hlt : L.block < entries.length := by
    rw [hleast.length_eq]
    exact (List.getElem?_eq_some_iff.1 hdata).1
  have hentry : entries[L.block]? = some (valueAt entries L.block) := by
    simp [valueAt, getD_eq_getElem?_getD, hlt]
  refine ⟨_, flowAtLocation_eq hdata hentry, fun b => ?_⟩
  have hbefore : (if L.statementIndex < data.statements.length then
      bw.analysis.beforeStatementEffect L else bw.analysis.beforeTerminatorEffect L) =
        (bw.killLoansOutOfScopeAtLocation L).map fun i => .kill (bw.bitOf i) := by
    simp [analysis]
  rw [hbefore, getLsbD_foldl_onSet, foldl_kill, mem_killLoansOutOfScopeAtLocation,
    carried_iff hret h.wf hleast hdata hidx]
  constructor
  · rintro ⟨hcarried, hout⟩
    exact (stays_of_carried h hcarried).2 hout
  · intro hstays
    obtain ⟨hcarried, hin⟩ := carried_of_stays h hstays
    exact ⟨hcarried, not_mem_outOfScope h hin⟩

end

/-! ## Exactness -/

/-- The analysis has a borrow exactly where it is in scope. -/
def Exact (bw : Borrows) (entries : List (EntrySet false bw.bitsPerBlock))
    (b : bw.borrowSet.Index) : Prop :=
  ∀ L, IsLocation bw.body L → Reach bw.body.successors START_BLOCK L.block →
    ∃ set, bw.analysis.flowAtLocation bw.body entries L = .ok set ∧
      (set.getLsbD (bw.bitOf b) = true ↔ bw.InScope b L)

/-- A reference that is ignored is never written over the place of a borrow that stays in scope. -/
def NoIgnoredOverwrite (bw : Borrows) (b : bw.borrowSet.Index) : Prop :=
  ∀ M, bw.InScope b M → bw.Overwrites b M → bw.TakesIgnored M →
    ¬ bw.InRegion b ⟨M.block, M.statementIndex + 1⟩

theorem reach_of_stays (hbs : bw.borrowSet.Valid bw.cx bw.body)
    (h : TransGen (bw.Stays b) (bw.borrowSet.borrows.get b).reserveLocation P) :
    Reach bw.body.successors START_BLOCK P.block := by
  have hstep : ∀ {P Q}, Follows bw.body P Q → Reach bw.body.successors START_BLOCK P.block →
      Reach bw.body.successors START_BLOCK Q.block := by
    intro P Q hf hP
    cases hf with
    | next _ _ => exact hP
    | edge _ ht => exact hP.tail ht
  induction h with
  | single h => exact hstep h.1 (hbs.reachable b)
  | tail _ h ih => exact hstep h.1 ih

theorem StaysInScope.stays (h : bw.StaysInScope b P Q) : bw.Stays b P Q :=
  ⟨h.1, fun hkills => h.2.1 hkills.1, h.2.2⟩

theorem TakesIgnored.follows (h : bw.TakesIgnored P) : ∃ data,
    bw.body.basicBlocks[P.block]? = some data ∧ P.statementIndex < data.statements.length := by
  obtain ⟨lhs, kind, place, hat, -⟩ := h
  obtain ⟨data, hdata, hstmt⟩ := Option.bind_eq_some_iff.1 hat
  exact ⟨data, hdata, (List.getElem?_eq_some_iff.1 hstmt).1⟩

/-- The path that the analysis takes is one on which the borrow is in scope, unless it comes over an
ignored reference that is written over the borrowed place. -/
theorem inScope_of_stays (hbs : bw.borrowSet.Valid bw.cx bw.body) (hno : bw.NoIgnoredOverwrite b)
    (h : TransGen (bw.Stays b) (bw.borrowSet.borrows.get b).reserveLocation Q) :
    bw.InScope b Q := by
  induction h with
  | single h =>
    obtain ⟨hf, hkills, hin⟩ := h
    refine .single ⟨hf, fun hover => hkills ⟨hover, ?_⟩, hin⟩
    rintro ⟨lhs', kind', place', hat', hign'⟩
    obtain ⟨lhs, kind, hat, hign⟩ := hbs.reserved b
    rw [hat] at hat'
    cases hat'
    rw [hign] at hign'
    cases hign'
  | tail _ h ih =>
    obtain ⟨hf, hkills, hin⟩ := h
    refine .tail ih ⟨hf, fun hover => hkills ⟨hover, fun hign => ?_⟩, hin⟩
    obtain ⟨data, hdata, hlt⟩ := hign.follows
    refine hno _ ih hover hign ?_
    cases hf with
    | next _ _ => exact hin
    | edge hdata' _ =>
      rw [hdata'] at hdata
      cases hdata
      exact absurd hlt (lt_irrefl _)

/-- The path that the analysis takes stays one on which the borrow is in scope exactly when no
ignored reference is written over the borrowed place. -/
theorem noIgnoredOverwrite_iff (hbs : bw.borrowSet.Valid bw.cx bw.body) :
    (∀ L, IsLocation bw.body L → Reach bw.body.successors START_BLOCK L.block →
      (TransGen (bw.Stays b) (bw.borrowSet.borrows.get b).reserveLocation L ↔
        bw.InScope b L)) ↔ bw.NoIgnoredOverwrite b := by
  have hstays : ∀ {L}, bw.InScope b L →
      TransGen (bw.Stays b) (bw.borrowSet.borrows.get b).reserveLocation L :=
    fun h => TransGen.mono (fun _ _ => StaysInScope.stays) _ _ h
  constructor
  · intro hexact M hM hover hign hin
    obtain ⟨data, hdata, hlt⟩ := hign.follows
    have hf : Follows bw.body M ⟨M.block, M.statementIndex + 1⟩ := .next hdata hlt
    have hnext := (hstays hM).tail ⟨hf, fun hkills => hkills.2 hign, hin⟩
    have hscope := (hexact ⟨M.block, M.statementIndex + 1⟩ ⟨data, hdata, hlt⟩
      (reach_of_stays hbs hnext)).1 hnext
    -- the only location before the next one is `M`, where the place is overwritten
    obtain ⟨P, hlast⟩ : ∃ P, bw.StaysInScope b P ⟨M.block, M.statementIndex + 1⟩ := by
      cases hscope with
      | single h => exact ⟨_, h⟩
      | tail _ h => exact ⟨_, h⟩
    obtain ⟨hf', hover', -⟩ := hlast
    cases hf' with
    | next _ _ => exact hover' hover
  · exact fun hno L _ _ => ⟨inScope_of_stays hbs hno, hstays⟩

end Borrows

/-- The borrows in scope are exact for a borrow if and only if no ignored reference is written over
its place while it stays in scope. -/
theorem borrows_exact_iff {cx : BorrowCx} {body : Body} {bs : BorrowSet} (hbody : body.WF)
    (hbs : bs.Valid cx body) (hlive : ∀ b : bs.Index,
      cx.regionContains (bs.borrows.get b).region (bs.borrows.get b).reserveLocation = true)
    (htotal : ∀ outOfScope, (Borrows.mk cx body bs outOfScope).Total) :
    ∃ N, ∀ fuel ≥ N, ∃ outOfScope, Borrows.new cx body bs fuel = .ok ⟨cx, body, bs, outOfScope⟩ ∧
      ∃ entries, (∃ N', ∀ fuel' ≥ N', (Borrows.mk cx body bs outOfScope).analysis.propagate body
          (fun _ => false) fuel' = .ok entries) ∧
        ∀ b : bs.Index, (Borrows.mk cx body bs outOfScope).Exact entries b ↔
          (Borrows.mk cx body bs outOfScope).NoIgnoredOverwrite b := by
  have hR : ∀ b : bs.Index, IsLocation body (bs.borrows.get b).reserveLocation := by
    intro b
    obtain ⟨lhs, kind, hat, -⟩ := hbs.reserved b
    obtain ⟨data, hdata, hstmt⟩ := Option.bind_eq_some_iff.1 hat
    exact ⟨data, hdata, (List.getElem?_eq_some_iff.1 hstmt).1.le⟩
  refine ⟨body.basicBlocks.length + 2, fun fuel hfuel => ?_⟩
  obtain ⟨outOfScope, hnew, houtside⟩ := @Borrows.new_spec cx body bs hbody hR fuel
    (Nat.lt_of_succ_le hfuel)
  have hready : (Borrows.mk cx body bs outOfScope).Ready :=
    ⟨hbody, hbs, htotal outOfScope, hlive, houtside⟩
  obtain ⟨entries, hrun, hflow⟩ := flowAtLocation_iff hready
  refine ⟨outOfScope, hnew, entries, hrun, fun b => ?_⟩
  rw [← noIgnoredOverwrite_iff hbs]
  refine forall_congr' fun L => forall_congr' fun hL => forall_congr' fun _ => ?_
  obtain ⟨set, hset, hmem⟩ := hflow L hL
  constructor
  · rintro ⟨set', hset', hiff⟩
    rw [hset] at hset'
    cases hset'
    rw [← hmem, hiff]
  · intro hiff
    exact ⟨set, hset, (hmem b).trans hiff⟩

namespace Sample

/-- `_2 = &mut (*_1).0; _1 = &mut *_3;` with a raw pointer `_3`. -/
def reassigned : Body :=
  { basicBlocks := [⟨[.assign (Place.ofLocal 2) (.ref (.mut false) ⟨.loc 1, [.deref, .field 0]⟩),
      .assign (Place.ofLocal 1) (.ref (.mut false) ⟨.loc 3, [.deref]⟩)], some .ret, false⟩]
    localDecls := [⟨none⟩, ⟨none⟩, ⟨none⟩, ⟨none⟩]
    argCount := 0 }

/-- The types of the locals, and a region that contains every point. -/
def reassignedCx : BorrowCx :=
  { adtDef := fun _ => ⟨false, false, false⟩
    localTy := fun l => some (if l = 3 then .rawPtr (.adt ⟨0, 0⟩ [])
      else .ref (.adt ⟨0, 0⟩ []) .mutMutable)
    staticTy := fun _ => .other
    isMutableStatic := fun _ => false
    fieldTy := fun _ _ _ => .other
    localMutability := fun _ => some .mutMutable
    asmOutputs := fun _ => []
    regionContains := fun _ _ => true }

/-- The borrow of `(*_1).0`. -/
def reassignedSet : BorrowSet :=
  { borrows := [⟨⟨0, 0⟩, 0, ⟨.loc 1, [.deref, .field 0]⟩⟩]
    locationMap := fun P => if P = ⟨0, 0⟩ then some 0 else none
    localMap := fun l => if l = 1 then [0] else []
    localsStateAtExit := .allAreInvalidated }

theorem reassigned_wf : reassigned.WF := Body.wf_of_blocks (by decide) (by decide)

theorem reassignedSet_valid : reassignedSet.Valid reassignedCx reassigned where
  reserved i := by
    rw [Fin.fin_one_eq_zero i]
    exact ⟨_, _, rfl, rfl⟩
  locationMap_iff P i := by
    rw [Fin.fin_one_eq_zero i]
    change (if P = ⟨0, 0⟩ then some (0 : Fin 1) else none) = some 0 ↔ (⟨0, 0⟩ : Location) = P
    rw [eq_comm (b := P)]
    split <;> simp [*]
  localMap_iff l i := by
    rw [Fin.fin_one_eq_zero i]
    change (0 : Fin 1) ∈ (if l = 1 then [0] else []) ↔ PlaceBase.loc 1 = .loc l
    rw [PlaceBase.loc.injEq, eq_comm (b := l)]
    split <;> simp [*]
  reachable i := by
    rw [Fin.fin_one_eq_zero i]
    exact .refl

theorem reassigned_total (outOfScope : List (Location × reassignedSet.Index)) :
    (Borrows.mk reassignedCx reassigned reassignedSet outOfScope).Total := by
  rintro ⟨bb, j⟩ hat
  match bb, j with
  | 0, 0 => exact ⟨_, rfl⟩
  | 0, 1 => exact ⟨_, rfl⟩
  | 0, j + 2 => simp [statementAt, reassigned] at hat
  | bb + 1, j => simp [statementAt, reassigned] at hat

end Sample

open Sample

/-- The borrow of the sample is exact if and only if it is not overwritten by the ignored one. -/
theorem borrows_exact_iff_reassigned : ∃ N, ∀ fuel ≥ N, ∃ outOfScope,
      Borrows.new reassignedCx reassigned reassignedSet fuel =
        .ok ⟨reassignedCx, reassigned, reassignedSet, outOfScope⟩ ∧
      ∃ entries, (∃ N', ∀ fuel' ≥ N',
        (Borrows.mk reassignedCx reassigned reassignedSet
          outOfScope).analysis.propagate reassigned (fun _ => false) fuel' = .ok entries) ∧
        ∀ b : reassignedSet.Index,
          (Borrows.mk reassignedCx reassigned reassignedSet
            outOfScope).Exact entries b ↔
          (Borrows.mk reassignedCx reassigned reassignedSet
            outOfScope).NoIgnoredOverwrite b :=
  borrows_exact_iff reassigned_wf reassignedSet_valid (fun _ => rfl)
    reassigned_total

/-- After `_1` has been assigned over, the analysis still has the borrow of `(*_1).0`. -/
theorem borrows_not_exact_reassigned : ∃ bw entries b,
    Borrows.new reassignedCx reassigned reassignedSet 10 = .ok bw ∧
    bw.analysis.propagate bw.body (fun _ => false) 10 = .ok entries ∧ ¬ bw.Exact entries b := by
  refine ⟨⟨reassignedCx, reassigned, reassignedSet, []⟩, [⟨0⟩],
    (0 : Fin 1), rfl, by decide, fun hexact => ?_⟩
  obtain ⟨set, hset, hiff⟩ := hexact ⟨0, 2⟩ ⟨_, rfl, by decide⟩ .refl
  have hone : set = 1 := by
    have hat : (Borrows.mk reassignedCx reassigned reassignedSet
        []).analysis.flowAtLocation reassigned [⟨0⟩] ⟨0, 2⟩ = .ok 1 := by
      decide
    exact Except.ok.inj (hset.symm.trans hat)
  have hscope := hiff.1 (by rw [hone]; decide)
  -- the borrow would have to stay in scope after the second statement, which overwrites `_1`
  obtain ⟨P, hf, hover, -⟩ : ∃ P, Borrows.StaysInScope _ _ P ⟨0, 2⟩ := by
    cases hscope with
    | single h => exact ⟨_, h⟩
    | tail _ h => exact ⟨_, h⟩
  cases hf with
  | next _ _ => exact hover ⟨Place.ofLocal 1, .head _, [(0 : Fin 1)], rfl, .head _⟩

end Tortis.BorrowCheck
