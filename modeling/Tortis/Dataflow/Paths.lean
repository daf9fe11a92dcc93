import Tortis.Dataflow.Fixpoint

/-!
# Gen/kill analyses along paths

For an analysis that starts from the empty set, joins by union and does nothing on the return from
a call, an element is in the set before a location exactly when some path comes there on which the
element was generated and not killed since. `carried_iff` is that statement for the least solution
of `flowSystem`, with no dead unwinds.
-/

namespace Tortis.Dataflow

open List Outcome Bool BitDenotation EntrySet GenKill

variable {n : Nat}

/-! ## Locations -/

/-- A location follows another one: the next statement or the terminator of the block, or the first
location of a successor. -/
inductive Follows (body : Body) : Location → Location → Prop
  | next {bb j : Nat} {data : BasicBlockData} (hdata : body.basicBlocks[bb]? = some data)
      (hj : j < data.statements.length) : Follows body ⟨bb, j⟩ ⟨bb, j + 1⟩
  | edge {bb t : Nat} {data : BasicBlockData} (hdata : body.basicBlocks[bb]? = some data)
      (ht : t ∈ body.successors bb) : Follows body ⟨bb, data.statements.length⟩ ⟨t, 0⟩

/-- A statement or the terminator of a block of the body. -/
def IsLocation (body : Body) (P : Location) : Prop :=
  ∃ data, body.basicBlocks[P.block]? = some data ∧ P.statementIndex ≤ data.statements.length

theorem Follows.isLocation_left {body : Body} {P Q : Location} (h : Follows body P Q) :
    IsLocation body P := by
  cases h with
  | next hdata hj => exact ⟨_, hdata, hj.le⟩
  | edge hdata _ => exact ⟨_, hdata, le_rfl⟩

/-! ## Effects on one element -/

def Effect.onElem (e : Fin n) (x : Bool) : Effect n → Bool
  | .gen k => x || decide (k = e)
  | .kill k => x && !decide (k = e)

theorem getLsbD_foldl_onSet (ops : List (Effect n)) (set : BitVec n) (e : Fin n) :
    (ops.foldl Effect.onSet set).getLsbD e = ops.foldl (Effect.onElem e) (set.getLsbD e) := by
  induction ops generalizing set with
  | nil => rfl
  | cons op ops ih =>
    rw [foldl_cons, foldl_cons, ih, getLsbD_onSet _ _ e.isLt]
    congr 1
    cases op <;> simp [Effect.onElem, Fin.ext_iff]

theorem foldl_onElem_mono {e : Fin n} (ops : List (Effect n)) {x y : Bool}
    (hxy : x = true → y = true) (h : ops.foldl (Effect.onElem e) x = true) :
    ops.foldl (Effect.onElem e) y = true := by
  induction ops generalizing x y with
  | nil => exact hxy h
  | cons op ops ih =>
    refine ih (fun hx => ?_) h
    cases op with
    | gen k =>
      simp only [Effect.onElem, or_eq_true] at hx ⊢
      exact hx.imp_left hxy
    | kill k =>
      simp only [Effect.onElem, and_eq_true] at hx ⊢
      exact ⟨hxy hx.1, hx.2⟩

theorem foldl_onElem_idem (e : Fin n) (ops : List (Effect n)) (x : Bool) :
    ops.foldl (Effect.onElem e) (ops.foldl (Effect.onElem e) x) =
      ops.foldl (Effect.onElem e) x := by
  have hmono := @foldl_onElem_mono n e ops false true nofun
  cases x <;> cases h : ops.foldl (Effect.onElem e) false <;>
    cases h' : ops.foldl (Effect.onElem e) true <;> simp_all

theorem foldl_onSet_idem (ops : List (Effect n)) (set : BitVec n) :
    ops.foldl Effect.onSet (ops.foldl Effect.onSet set) = ops.foldl Effect.onSet set := by
  refine BitVec.eq_of_getLsbD_eq fun i hi => ?_
  rw [getLsbD_foldl_onSet ops _ ⟨i, hi⟩, getLsbD_foldl_onSet ops _ ⟨i, hi⟩]
  exact foldl_onElem_idem ⟨i, hi⟩ ops _

namespace BitDenotation

section
variable (d : BitDenotation false n)

def effectsAt (body : Body) (P : Location) : List (Effect n) :=
  match body.basicBlocks[P.block]? with
  | none => []
  | some data =>
    if P.statementIndex < data.statements.length then
      d.beforeStatementEffect P ++ d.statementEffect P
    else d.beforeTerminatorEffect P ++ d.terminatorEffect P

/-- What a location makes of the membership of an element. -/
def act (body : Body) (e : Fin n) (P : Location) (x : Bool) : Bool :=
  (d.effectsAt body P).foldl (Effect.onElem e) x

/-- The set before the statement `j` of a block, or before its terminator. -/
def setBefore (bb j : Nat) (set : BitVec n) : BitVec n :=
  (range j).foldl (fun set j => d.statementOnSet ⟨bb, j⟩ set) set

end

end BitDenotation

/-- An element comes to a location: it is there at the start, or the location before has generated
it, or has kept it when it came. -/
inductive Carried (d : BitDenotation false n) (body : Body) (e : Fin n) : Location → Prop
  | start (h : (d.startBlockEffect (bottomSet false n).bits).getLsbD e = true) :
      Carried d body e ⟨START_BLOCK, 0⟩
  | gen {P Q : Location} (h : Follows body P Q) (hact : d.act body e P false = true) :
      Carried d body e Q
  | keep {P Q : Location} (h : Follows body P Q) (hP : Carried d body e P)
      (hact : d.act body e P true = true) : Carried d body e Q

section
variable {d : BitDenotation false n} {body : Body} {e : Fin n} {bb j : Nat} {data : BasicBlockData}
  {set : BitVec n}

theorem Carried.of_act {P Q : Location} (h : Follows body P Q) {x : Bool}
    (hx : x = true → Carried d body e P) (hact : d.act body e P x = true) : Carried d body e Q := by
  cases x with
  | false => exact .gen h hact
  | true => exact .keep h (hx rfl) hact

theorem setBefore_succ : d.setBefore bb (j + 1) set =
    d.statementOnSet ⟨bb, j⟩ (d.setBefore bb j set) := by
  rw [ setBefore, range_succ, foldl_append]
  rfl

section
variable (hdata : body.basicBlocks[bb]? = some data)
include hdata

theorem getLsbD_statementOnSet (hj : j < data.statements.length) :
    (d.statementOnSet ⟨bb, j⟩ set).getLsbD e = d.act body e ⟨bb, j⟩ (set.getLsbD e) := by
  simp only [ act, effectsAt, hdata, if_pos hj]
  rw [ statementOnSet, getLsbD_foldl_onSet, getLsbD_foldl_onSet, foldl_append]

theorem getLsbD_terminatorOnSet : (d.terminatorOnSet ⟨bb, data.statements.length⟩ set).getLsbD e =
      d.act body e ⟨bb, data.statements.length⟩ (set.getLsbD e) := by
  simp only [ act, effectsAt, hdata, lt_irrefl, if_false]
  rw [ terminatorOnSet, getLsbD_foldl_onSet, getLsbD_foldl_onSet, foldl_append]

theorem Carried.of_setBefore
    (hset : set.getLsbD e = true → Carried d body e ⟨bb, 0⟩) (hj : j ≤ data.statements.length)
    (h : (d.setBefore bb j set).getLsbD e = true) : Carried d body e ⟨bb, j⟩ := by
  induction j with
  | zero => exact hset h
  | succ j ih =>
    rw [setBefore_succ, getLsbD_statementOnSet hdata hj] at h
    exact .of_act (.next hdata hj) (ih (Nat.le_of_succ_le hj)) h

theorem Carried.of_blockOnSet
    (hset : set.getLsbD e = true → Carried d body e ⟨bb, 0⟩) {t : BasicBlock}
    (ht : t ∈ body.successors bb) (h : (d.blockOnSet bb data set).getLsbD e = true) :
    Carried d body e ⟨t, 0⟩ := by
  have hblock : d.blockOnSet bb data set = d.terminatorOnSet ⟨bb, data.statements.length⟩
      (d.setBefore bb data.statements.length set) := rfl
  rw [hblock, getLsbD_terminatorOnSet hdata] at h
  exact .of_act (.edge hdata ht) (.of_setBefore hdata hset le_rfl) h

/-- The state in which `FlowAtLocation` shows a location is the set before it, with the effect before
the location. -/
theorem flowAtLocation_eq {entries : List (EntrySet false n)} {x : EntrySet false n} (hx : entries[bb]? = some x) :
    d.flowAtLocation body entries ⟨bb, j⟩ = .ok (
      (if j < data.statements.length then d.beforeStatementEffect ⟨bb, j⟩
        else d.beforeTerminatorEffect ⟨bb, j⟩).foldl Effect.onSet (d.setBefore bb j x.bits)) := by
  have happly : ∀ (ops : List (Effect n)) set,
      (ops.foldl effect nop).apply set = ops.foldl Effect.onSet set := by
    intro ops set
    rw [apply_foldl_effect, apply_nop]
  have hstate : (range j).foldl (fun currState j =>
      ((d.statementEffect ⟨bb, j⟩).foldl effect
        ((d.beforeStatementEffect ⟨bb, j⟩).foldl effect nop)).apply
        (((d.beforeStatementEffect ⟨bb, j⟩).foldl effect nop).apply currState))
      x.bits = d.setBefore bb j x.bits := by
    congr 1
    funext set k
    rw [apply_foldl_effect, happly, happly, foldl_onSet_idem]
    rfl
  simp only [ flowAtLocation, reconstructStatementEffect,
    reconstructTerminatorEffect, Body.block, hdata, hx, hstate, expect_some, ok_bind]
  split <;> rw [happly]

end

/-! ## The least solution -/

/-- The analysis does nothing on the return from a call. -/
def BitDenotation.NoReturnEffect (d : BitDenotation false n) : Prop :=
  ∀ set callBb destBb destPlace, d.propagateCallReturn set callBb destBb destPlace = set

theorem BitDenotation.NoReturnEffect.monotoneReturn (h : d.NoReturnEffect) : d.MonotoneReturn := by
  intro callBb destBb destPlace x y hxy
  dsimp only
  rw [h, h]
  exact hxy

/-- Without dead unwinds and return effects, the edges of a block are its successors with the effect
of the block. -/
theorem mem_systemEdges (hret : d.NoReturnEffect) (hbb : body.basicBlocks[bb]? = some data)
    {p : BasicBlock × (EntrySet false n → EntrySet false n)} :
    p ∈ systemEdges d body (fun _ => false) bb ↔
      p.1 ∈ body.successors bb ∧ p.2 = fun x => ⟨d.blockOnSet bb data x.bits⟩ := by
  have hedge : ∀ e : EdgeKind × BasicBlock, ∀ set, d.edgeOnSet bb e set = set := by
    intro e set
    obtain ⟨kind, t⟩ := e
    cases kind with
    | normal | unwind => rfl
    | ret func args destPlace => exact hret _ _ _ _
  have hlive : ∀ term, liveEdges (fun _ => false) bb term = flowEdges term := by
    intro term
    simp [liveEdges]
  obtain ⟨t, f⟩ := p
  cases hterm : data.terminator with
  | none => simp [systemEdges, hbb, hterm, Body.successors, Body.terminatorOf]
  | some term =>
    simp only [systemEdges, hbb, hterm, Option.elim_some, hlive, hedge, mem_map,
      Body.successors, Body.terminatorOf, Option.bind_some, ← flowEdges_successors, Prod.mk.injEq]
    constructor
    · rintro ⟨e, he, rfl, rfl⟩
      exact ⟨⟨e, he, rfl⟩, rfl⟩
    · rintro ⟨⟨e, he, rfl⟩, rfl⟩
      exact ⟨e, he, rfl, rfl⟩

theorem EntrySet.le_iff_false {x y : EntrySet false n} :
    x ≤ y ↔ ∀ e : Fin n, x.bits.getLsbD e = true → y.bits.getLsbD e = true := by
  rw [le_iff]
  simp only [raised, bne_false]
  exact ⟨fun h e => h e e.isLt, fun h i hi => h ⟨i, hi⟩⟩

/-- The solution that has an element only where it is carried to, and has all other elements. -/
def onlyCarried (d : BitDenotation false n) (body : Body) (e : Fin n)
    [DecidablePred fun bb => Carried d body e ⟨bb, 0⟩] (bb : BasicBlock) : EntrySet false n :=
  ⟨if Carried d body e ⟨bb, 0⟩ then BitVec.allOnes n else ~~~bit e⟩

theorem getLsbD_onlyCarried [DecidablePred fun bb => Carried d body e ⟨bb, 0⟩] (k : Fin n) :
    (onlyCarried d body e bb).bits.getLsbD k = true ↔ k = e → Carried d body e ⟨bb, 0⟩ := by
  rw [onlyCarried]
  split
  · rename_i h
    simp [h]
  · rename_i h
    rw [bit, BitVec.getLsbD_not, BitVec.getLsbD_twoPow]
    simp only [h, k.isLt, e.isLt, decide_true, Bool.true_and, Bool.not_eq_true',
      decide_eq_false_iff_not, Fin.ext_iff, imp_false]
    exact not_congr eq_comm

theorem act_of_false {P : Location} (h : d.act body e P false = true) (x : Bool) :
    d.act body e P x = true := by
  have hfalse : false = true → x = true := nofun
  exact foldl_onElem_mono _ hfalse h

section
variable (hret : d.NoReturnEffect) (hbody : body.WF) {entries : List (EntrySet false n)}
  (hleast : (flowSystem d hret.monotoneReturn body hbody fun _ => false).IsLeast entries)

include hleast

theorem mem_of_follows {P Q : Location} (h : Follows body P Q) (hact : d.act body e P
      ((d.setBefore P.block P.statementIndex (valueAt entries P.block).bits).getLsbD e) = true) :
    (d.setBefore Q.block Q.statementIndex (valueAt entries Q.block).bits).getLsbD e = true := by
  cases h with
  | next hdata hj =>
    rw [setBefore_succ, getLsbD_statementOnSet hdata hj]
    exact hact
  | @edge bb t data hdata ht =>
    have hlt : bb < body.basicBlocks.length := (List.getElem?_eq_some_iff.1 hdata).1
    have hedge := hleast.solution.edge_le bb hlt (t, fun x => ⟨d.blockOnSet bb data x.bits⟩)
      ((mem_systemEdges hret hdata).2 ⟨ht, rfl⟩)
    refine le_iff_false.1 hedge e ?_
    have hblock : ∀ set, d.blockOnSet bb data set =
        d.terminatorOnSet ⟨bb, data.statements.length⟩
          (d.setBefore bb data.statements.length set) := fun _ => rfl
    dsimp only
    rw [hblock, getLsbD_terminatorOnSet hdata]
    exact hact

theorem Carried.mem {P : Location} (h : Carried d body e P) :
    (d.setBefore P.block P.statementIndex (valueAt entries P.block).bits).getLsbD e = true := by
  induction h with
  | start h =>
    have hinit := hleast.solution.init_le START_BLOCK hbody.start
    exact le_iff_false.1 hinit e (by simpa [flowSystem] using h)
  | gen h hact => exact mem_of_follows hret hbody hleast h (act_of_false hact _)
  | keep h _ hact ih => exact mem_of_follows hret hbody hleast h (by rw [ih]; exact hact)

end

open Classical in
theorem carried_iff (hret : d.NoReturnEffect) (hbody : body.WF) {entries : List (EntrySet false n)}
    (hleast : (flowSystem d hret.monotoneReturn body hbody fun _ => false).IsLeast entries)
    (hdata : body.basicBlocks[bb]? = some data) (hj : j ≤ data.statements.length) :
    (d.setBefore bb j (valueAt entries bb).bits).getLsbD e = true ↔ Carried d body e ⟨bb, j⟩ := by
  have hlt : ∀ {bb data}, body.basicBlocks[bb]? = some data → bb < body.basicBlocks.length :=
    fun h => (List.getElem?_eq_some_iff.1 h).1
  constructor
  · -- the sets are below the solution that has the element only where it is carried to
    refine Carried.of_setBefore hdata (fun h => ?_) hj
    have hsol : (flowSystem d hret.monotoneReturn body hbody fun _ => false).IsSolution
        (onlyCarried d body e) := by
      refine ⟨fun t ht => ?_, fun b hb f hf => ?_⟩
      · refine le_iff_false.2 fun k hk => (getLsbD_onlyCarried k).2 fun hke => ?_
        subst hke
        by_cases hstart : t = START_BLOCK
        · subst hstart
          exact .start (by simpa [flowSystem] using hk)
        · have hbot : ((⊥ : EntrySet false n).bits).getLsbD k = true := by
            simpa [flowSystem, hstart] using hk
          have hzero : (⊥ : EntrySet false n).bits = 0#n := rfl
          simp [hzero] at hbot
      · have hdata' : body.basicBlocks[b]? = some body.basicBlocks[b] := getElem?_eq_getElem hb
        obtain ⟨ht, hf'⟩ := (mem_systemEdges hret hdata').1 hf
        refine le_iff_false.2 fun k hk => (getLsbD_onlyCarried k).2 fun hke => ?_
        subst hke
        rw [hf'] at hk
        exact .of_blockOnSet hdata' (fun h => (getLsbD_onlyCarried k).1 h rfl) ht hk
    have := le_iff_false.1 (hleast.least _ hsol bb (hlt hdata)) e h
    exact (getLsbD_onlyCarried e).1 this rfl
  · exact fun h => h.mem hret hbody hleast

end

end Tortis.Dataflow
