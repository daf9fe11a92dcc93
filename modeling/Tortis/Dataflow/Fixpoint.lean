import Tortis.Dataflow.Engine

/-!
# The entry sets are the least solution

The inequalities between the entry sets of a body, over its control-flow edges with the effects
along them, and the proof that both engines of `Tortis.Dataflow.Engine` end with their least
solution: each iteration of the loop is a step of a worklist over these inequalities.
-/

namespace Tortis.Dataflow

open Outcome List EntrySet GenKill BitDenotation Worklist Body

variable {bottom : Bool} {n : Nat}

/-! ## The inequalities of a body -/

/-- The kinds of control-flow edges. The return edge of a call stores the call's result. -/
inductive EdgeKind where
  | normal
  | unwind
  | ret (func : Operand) (args : List Operand) (destPlace : Place)
deriving DecidableEq

def flowEdges : Terminator → List (EdgeKind × BasicBlock)
  | .resume | .abort | .generatorDrop | .ret | .unreachable => []
  | .goto t => [(.normal, t)]
  | .call func args destination cleanup =>
    (destination.map fun d => (.ret func args d.1, d.2)).toList ++
      (cleanup.map fun u => (.unwind, u)).toList
  | .yield _ t u => (.normal, t) :: (u.map fun u => (.normal, u)).toList
  | .dropAndReplace _ _ t u | .drop _ t u | .assert _ _ _ t u | .falseUnwind t u =>
    (.normal, t) :: (u.map fun u => (.unwind, u)).toList
  | .switchInt _ _ targets => targets.map fun t => (.normal, t)
  | .falseEdges t u => [(.normal, t), (.normal, u)]

theorem flowEdges_successors (term : Terminator) :
    (flowEdges term).map Prod.snd = term.successors := by
  cases term with
  | resume | abort | generatorDrop | ret | unreachable | goto | falseEdges => rfl
  | call _ _ destination cleanup => cases destination <;> cases cleanup <;> rfl
  | yield _ _ u | dropAndReplace _ _ _ u | drop _ _ u | assert _ _ _ _ u | falseUnwind _ u =>
    cases u <;> rfl
  | switchInt _ _ targets => simp [flowEdges, Terminator.successors]

/-- The edges that are followed: all but the unwind edges of blocks with a dead unwind. -/
def liveEdges (deadUnwinds : BasicBlock → Bool) (bb : BasicBlock) (term : Terminator) :
    List (EdgeKind × BasicBlock) :=
  (flowEdges term).filter fun e => !(e.1 = .unwind && deadUnwinds bb)

namespace BitDenotation

section
variable (d : BitDenotation bottom n)

def statementOnSet (location : Location) (set : BitVec n) : BitVec n :=
  (d.statementEffect location).foldl Effect.onSet
    ((d.beforeStatementEffect location).foldl Effect.onSet set)

def terminatorOnSet (location : Location) (set : BitVec n) : BitVec n :=
  (d.terminatorEffect location).foldl Effect.onSet
    ((d.beforeTerminatorEffect location).foldl Effect.onSet set)

/-- A set after the statements and the terminator of a block, one after the other. -/
def blockOnSet (bb : BasicBlock) (data : BasicBlockData) (set : BitVec n) : BitVec n :=
  d.terminatorOnSet ⟨bb, data.statements.length⟩
    ((range data.statements.length).foldl (fun set j => d.statementOnSet ⟨bb, j⟩ set) set)

/-- A set after an edge: only the return edge of a call has an effect of its own. -/
def edgeOnSet (bb : BasicBlock) (e : EdgeKind × BasicBlock) (set : BitVec n) : BitVec n :=
  match e.1 with
  | .normal | .unwind => set
  | .ret _ _ destPlace => d.propagateCallReturn set bb e.2 destPlace

def MonotoneReturn : Prop :=
  ∀ callBb destBb destPlace,
    Monotone fun x : EntrySet bottom n => (⟨d.propagateCallReturn x.bits callBb destBb destPlace⟩ :
      EntrySet bottom n)

end

end BitDenotation

/-! ## Effects -/

theorem getLsbD_onSet (set : BitVec n) (e : Effect n) {i : Nat} (hi : i < n) :
    (e.onSet set).getLsbD i = match e with
      | .gen k => set.getLsbD i || decide ((k : Nat) = i)
      | .kill k => set.getLsbD i && !decide ((k : Nat) = i) := by
  cases e with
  | gen k =>
    simp only [Effect.onSet, bit, BitVec.getLsbD_or, BitVec.getLsbD_twoPow, k.isLt, decide_true,
      Bool.true_and]
  | kill k =>
    simp only [Effect.onSet, bit, BitVec.getLsbD_and, BitVec.getLsbD_not, BitVec.getLsbD_twoPow,
      k.isLt, hi, decide_true, Bool.true_and]

theorem onSet_mono (e : Effect n) :
    Monotone fun x : EntrySet bottom n => (⟨e.onSet x.bits⟩ : EntrySet bottom n) := by
  intro x y h
  rw [le_iff] at h ⊢
  intro i hi
  have := h i hi
  simp only [raised, getLsbD_onSet _ e hi] at this ⊢
  revert this
  cases e <;> cases bottom <;> cases x.bits.getLsbD i <;> cases y.bits.getLsbD i <;> simp

theorem foldl_onSet_mono (l : List (Effect n)) :
    Monotone fun x : EntrySet bottom n => (⟨l.foldl Effect.onSet x.bits⟩ : EntrySet bottom n) := by
  induction l with
  | nil => exact fun _ _ h => h
  | cons e l ih => exact fun _ _ h => ih (onSet_mono e h)

section
variable (d : BitDenotation bottom n)

theorem statementOnSet_mono (location : Location) : Monotone fun x : EntrySet bottom n =>
      (⟨d.statementOnSet location x.bits⟩ : EntrySet bottom n) :=
  fun _ _ h => foldl_onSet_mono _ (foldl_onSet_mono _ h)

theorem blockOnSet_mono (bb : BasicBlock) (data : BasicBlockData) :
    Monotone fun x : EntrySet bottom n => (⟨d.blockOnSet bb data x.bits⟩ : EntrySet bottom n) := by
  have hstmts : ∀ l : List Nat, Monotone fun x : EntrySet bottom n =>
      (⟨l.foldl (fun set j => d.statementOnSet ⟨bb, j⟩ set) x.bits⟩ : EntrySet bottom n) := by
    intro l
    induction l with
    | nil => exact fun _ _ h => h
    | cons j l ih => exact fun _ _ h => ih (statementOnSet_mono d ⟨bb, j⟩ h)
  exact fun _ _ h => foldl_onSet_mono _ (foldl_onSet_mono _ (hstmts _ h))

theorem edgeOnSet_mono {d : BitDenotation bottom n} (hd : d.MonotoneReturn) (bb : BasicBlock)
    (e : EdgeKind × BasicBlock) :
    Monotone fun x : EntrySet bottom n => (⟨d.edgeOnSet bb e x.bits⟩ : EntrySet bottom n) := by
  obtain ⟨kind, t⟩ := e
  cases kind with
  | normal | unwind => exact fun _ _ h => h
  | ret _ _ destPlace => exact hd bb t destPlace

theorem apply_effect (trans : GenKill n) (e : Effect n) (set : BitVec n) :
    (trans.effect e).apply set = e.onSet (trans.apply set) := by
  refine BitVec.eq_of_getLsbD_eq fun i hi => ?_
  rw [getLsbD_onSet _ e hi]
  cases e with
  | gen k =>
    simp only [apply, effect, bit, BitVec.getLsbD_and, BitVec.getLsbD_or,
      BitVec.getLsbD_not, BitVec.getLsbD_twoPow, k.isLt, hi, decide_true, Bool.true_and]
    cases decide ((k : Nat) = i) <;> simp
  | kill k =>
    simp only [apply, effect, bit, BitVec.getLsbD_and, BitVec.getLsbD_or,
      BitVec.getLsbD_not, BitVec.getLsbD_twoPow, k.isLt, hi, decide_true, Bool.true_and]
    cases decide ((k : Nat) = i) <;> simp

theorem apply_nop (set : BitVec n) : GenKill.nop.apply set = set := by
  simp [apply, nop]

theorem apply_foldl_effect (l : List (Effect n)) (trans : GenKill n) (set : BitVec n) :
    (l.foldl effect trans).apply set = l.foldl Effect.onSet (trans.apply set) := by
  induction l generalizing trans with
  | nil => rfl
  | cons e l ih => rw [foldl_cons, foldl_cons, ih, apply_effect]

theorem blockTrans_apply (bb : BasicBlock) {data : BasicBlockData} (h : data.terminator.isSome)
    (set : BitVec n) : (d.blockTrans bb data).apply set = d.blockOnSet bb data set := by
  have hstmts : ∀ (l : List Nat) (trans : GenKill n),
      (l.foldl (fun trans j => (d.statementEffect ⟨bb, j⟩).foldl effect
        ((d.beforeStatementEffect ⟨bb, j⟩).foldl effect trans)) trans).apply set =
      l.foldl (fun set j => d.statementOnSet ⟨bb, j⟩ set) (trans.apply set) := by
    intro l
    induction l with
    | nil => exact fun _ => rfl
    | cons j l ih =>
      intro trans
      rw [foldl_cons, foldl_cons, ih, apply_foldl_effect, apply_foldl_effect]
      rfl
  simp only [ blockTrans, h, if_true]
  rw [apply_foldl_effect, apply_foldl_effect, hstmts, apply_nop]
  rfl

/-! ## The system -/

/-- The edges out of a block that are followed, with what they make of the block's entry set. -/
def systemEdges (body : Body) (deadUnwinds : BasicBlock → Bool)
    (bb : BasicBlock) : List (BasicBlock × (EntrySet bottom n → EntrySet bottom n)) :=
  match body.basicBlocks[bb]? with
  | none => []
  | some data =>
    (data.terminator.elim [] (liveEdges deadUnwinds bb)).map fun e =>
      (e.2, fun x => ⟨d.edgeOnSet bb e (d.blockOnSet bb data x.bits)⟩)

/-- The inequalities between the entry sets of a body: the start block's is at least what the start
effect makes of the bottom, and along every edge that is followed the source's entry set, changed by
its statements, its terminator and the edge, is below the target's. -/
def flowSystem (hd : d.MonotoneReturn) (body : Body)
    (hbody : body.WF) (deadUnwinds : BasicBlock → Bool) : FlowSystem (EntrySet bottom n) where
  size := body.basicBlocks.length
  init t := if t = START_BLOCK then ⟨d.startBlockEffect (bottomSet bottom n).bits⟩ else ⊥
  edges := systemEdges d body deadUnwinds
  inRange bb e he := by
    rw [systemEdges] at he
    cases hdata : body.basicBlocks[bb]? with
    | none => simp [hdata] at he
    | some data =>
      rw [hdata] at he
      obtain ⟨e', he', rfl⟩ := mem_map.1 he
      refine hbody.inRange bb e'.2 ?_
      cases hterm : data.terminator with
      | none => simp [hterm] at he'
      | some term =>
        rw [hterm] at he'
        have := mem_map_of_mem (f := Prod.snd) (mem_filter.1 he').1
        rw [flowEdges_successors] at this
        simpa [successors, terminatorOf, hdata, hterm] using this
  mono bb e he := by
    rw [systemEdges] at he
    cases hdata : body.basicBlocks[bb]? with
    | none => simp [hdata] at he
    | some data =>
      rw [hdata] at he
      obtain ⟨e', _, rfl⟩ := mem_map.1 he
      exact (edgeOnSet_mono hd bb e').comp (blockOnSet_mono d bb data)

end

/-! ## The loop -/

variable {st : Worklist (EntrySet bottom n)}

theorem propagateBitsIntoEntrySetFor_eq (x : EntrySet bottom n) {bb : BasicBlock} (h : bb < st.entries.length) :
    propagateBitsIntoEntrySetFor x bb st = .ok (st.join bb x) := by
  have hval : valueAt st.entries bb = st.entries[bb] := by
    simp [valueAt, getD_eq_getElem?_getD, h]
  rw [propagateBitsIntoEntrySetFor, getElem?_eq_getElem h, expect_some,
    ok_bind, Worklist.join, hval, sup_eq_join]
  by_cases hc : st.entries[bb].join x = st.entries[bb]
  · simp [hc]
  · simp [hc]

theorem foldlM_propagate (x : EntrySet bottom n) (targets : List BasicBlock) (h : ∀ t ∈ targets, t < st.entries.length) :
    targets.foldlM (fun st target => propagateBitsIntoEntrySetFor x target st) st =
      .ok (st.joins (targets.map fun t => (t, x))) := by
  induction targets generalizing st with
  | nil => rfl
  | cons t targets ih =>
    have hlen := (join_joined st (h t (.head _)) x).length_eq
    rw [foldlM_cons, propagateBitsIntoEntrySetFor_eq x (h t (.head _)), ok_bind,
      ih fun u hu => hlen ▸ h u (.tail _ hu)]
    rfl

theorem propagate_pair (x y : EntrySet bottom n) {t u : BasicBlock} (ht : t < st.entries.length) (hu : u < st.entries.length) :
    (do let st ← propagateBitsIntoEntrySetFor x t st; propagateBitsIntoEntrySetFor y u st) =
      .ok (st.joins [(t, x), (u, y)]) := by
  have hlen := (join_joined st ht x).length_eq
  rw [propagateBitsIntoEntrySetFor_eq x ht, ok_bind, propagateBitsIntoEntrySetFor_eq y (hlen ▸ hu)]
  rfl

/-- What an engine propagates along an edge. -/
def propagated
    (callReturn : BitVec n → BasicBlock → Operand → List Operand → Place → BasicBlock → BitVec n)
    (x : BitVec n) (bb : BasicBlock) (e : EdgeKind × BasicBlock) : BasicBlock × EntrySet bottom n :=
  match e.1 with
  | .normal | .unwind => (e.2, ⟨x⟩)
  | .ret func args destPlace => (e.2, ⟨callReturn x bb func args destPlace e.2⟩)

theorem propagateBitsIntoGraphSuccessorsOf_eq (deadUnwinds : BasicBlock → Bool)
    (callReturn : BitVec n → BasicBlock → Operand → List Operand → Place → BasicBlock → BitVec n)
    (x : EntrySet bottom n) (bb : BasicBlock) (term : Terminator)
    (st : Worklist (EntrySet bottom n)) (h : ∀ e ∈ flowEdges term, e.2 < st.entries.length) :
    ∃ l, propagateBitsIntoGraphSuccessorsOf deadUnwinds callReturn x bb term st = .ok (st.joins l) ∧
      ∀ p, p ∈ l ↔ ∃ e ∈ liveEdges deadUnwinds bb term, p = propagated callReturn x.bits bb e := by
  have one : ∀ {t} (y : EntrySet bottom n), t < st.entries.length →
      propagateBitsIntoEntrySetFor y t st = .ok (st.joins [(t, y)]) :=
    fun y ht => propagateBitsIntoEntrySetFor_eq y ht
  cases term with
  | resume | abort | generatorDrop | ret | unreachable =>
    exact ⟨[], rfl, by simp [liveEdges, flowEdges]⟩
  | goto t =>
    refine ⟨[(t, x)], one x (h _ (.head _)), ?_⟩
    simp [liveEdges, flowEdges, propagated]
  | falseEdges t u =>
    refine ⟨[(t, x), (u, x)], propagate_pair x x (h _ (.head _)) (h _ (.tail _ (.head _))), ?_⟩
    simp [liveEdges, flowEdges, propagated]
  | switchInt _ _ targets =>
    refine ⟨targets.map fun t => (t, x), foldlM_propagate x targets fun t ht => ?_, ?_⟩
    · exact h (.normal, t) (mem_map_of_mem ht)
    · intro p
      simp only [liveEdges, flowEdges, mem_map, mem_filter]
      constructor
      · rintro ⟨t, ht, rfl⟩
        exact ⟨(.normal, t), ⟨⟨t, ht, rfl⟩, by simp⟩, rfl⟩
      · rintro ⟨e, ⟨⟨t, ht, rfl⟩, _⟩, rfl⟩
        exact ⟨t, ht, rfl⟩
  | yield _ t u =>
    cases u with
    | none =>
      refine ⟨[(t, x)], one x (h _ (.head _)), ?_⟩
      simp [liveEdges, flowEdges, propagated]
    | some u =>
      refine ⟨[(t, x), (u, x)], propagate_pair x x (h _ (.head _)) (h _ (.tail _ (.head _))), ?_⟩
      simp [liveEdges, flowEdges, propagated]
  | dropAndReplace _ _ t u | drop _ t u | assert _ _ _ t u | falseUnwind t u =>
    cases u with
    | none =>
      refine ⟨[(t, x)], ?_, by simp [liveEdges, flowEdges, propagated]⟩
      simp [propagateBitsIntoGraphSuccessorsOf, one x (h _ (.head _))]
    | some u =>
      cases hdead : deadUnwinds bb
      · refine ⟨[(t, x), (u, x)], ?_, by simp [liveEdges, flowEdges, propagated, hdead]⟩
        have := propagate_pair x x (h _ (.head _)) (h _ (.tail _ (.head _)))
        simpa [propagateBitsIntoGraphSuccessorsOf, hdead] using this
      · refine ⟨[(t, x)], ?_, by simp [liveEdges, flowEdges, propagated, hdead]⟩
        simp [propagateBitsIntoGraphSuccessorsOf, hdead, one x (h _ (.head _))]
  | call func args destination cleanup =>
    cases cleanup with
    | none =>
      cases destination with
      | none => exact ⟨[], rfl, by simp [liveEdges, flowEdges]⟩
      | some dest =>
        obtain ⟨place, t⟩ := dest
        refine ⟨[(t, ⟨callReturn x.bits bb func args place t⟩)], ?_,
          by simp [liveEdges, flowEdges, propagated]⟩
        exact one _ (h (.ret func args place, t) (by simp [flowEdges]))
    | some u =>
      have hu : u < st.entries.length := h (.unwind, u) (by simp [flowEdges])
      cases destination with
      | none =>
        cases hdead : deadUnwinds bb
        · refine ⟨[(u, x)], ?_, by simp [liveEdges, flowEdges, propagated, hdead]⟩
          simp [propagateBitsIntoGraphSuccessorsOf, hdead, one x hu]
        · refine ⟨[], ?_, by simp [liveEdges, flowEdges, hdead]⟩
          simp [propagateBitsIntoGraphSuccessorsOf, hdead, joins]
      | some dest =>
        obtain ⟨place, t⟩ := dest
        have ht : t < st.entries.length := h (.ret func args place, t) (by simp [flowEdges])
        cases hdead : deadUnwinds bb
        · refine ⟨[(u, x), (t, ⟨callReturn x.bits bb func args place t⟩)], ?_, fun p => ?_⟩
          · have := propagate_pair x ⟨callReturn x.bits bb func args place t⟩ hu ht
            simpa [propagateBitsIntoGraphSuccessorsOf, hdead] using this
          · simp [liveEdges, flowEdges, propagated, hdead, or_comm]
        · refine ⟨[(t, ⟨callReturn x.bits bb func args place t⟩)], ?_,
            by simp [liveEdges, flowEdges, propagated, hdead]⟩
          simp [propagateBitsIntoGraphSuccessorsOf, hdead, one _ ht]

/-- The blocks' effects and the return effect of an engine are those of `d`. -/
structure Implements (d : BitDenotation bottom n) (body : Body)
    (blockEffect : BasicBlock → BasicBlockData → BitVec n → Outcome (BitVec n))
    (callReturn : BitVec n → BasicBlock → Operand → List Operand → Place → BasicBlock → BitVec n) :
    Prop where
  block : ∀ bb data, body.basicBlocks[bb]? = some data → ∀ set,
    blockEffect bb data set = .ok (d.blockOnSet bb data set)
  ret : ∀ bb func args destPlace destBb cleanup,
    body.terminatorOf bb = some (.call func args (some (destPlace, destBb)) cleanup) → ∀ set,
    callReturn set bb func args destPlace destBb = d.propagateCallReturn set bb destBb destPlace

section
variable {d : BitDenotation bottom n} {hd : d.MonotoneReturn} {body : Body} {hbody : body.WF}
  {deadUnwinds : BasicBlock → Bool}
  {blockEffect : BasicBlock → BasicBlockData → BitVec n → Outcome (BitVec n)}
  {callReturn : BitVec n → BasicBlock → Operand → List Operand → Place → BasicBlock → BitVec n}

variable {term : Terminator}

theorem eq_call_of_ret {func : Operand} {args : List Operand} {destPlace : Place} {t : BasicBlock}
    (h : (EdgeKind.ret func args destPlace, t) ∈ flowEdges term) :
    ∃ cleanup, term = .call func args (some (destPlace, t)) cleanup := by
  cases term with
  | resume | abort | generatorDrop | ret | unreachable | goto | falseEdges =>
    simp [flowEdges] at h
  | yield _ _ u | dropAndReplace _ _ _ u | drop _ _ u | assert _ _ _ _ u | falseUnwind _ u =>
    cases u <;> simp [flowEdges] at h
  | switchInt _ _ targets => simp [flowEdges] at h
  | call func' args' destination cleanup =>
    cases cleanup <;> cases destination <;> simp [flowEdges] at h
    all_goals
      obtain ⟨⟨rfl, rfl, rfl⟩, rfl⟩ := h
      exact ⟨_, rfl⟩

variable {bb : BasicBlock}

theorem propagated_eq (hi : Implements d body blockEffect callReturn)
    (hterm : body.terminatorOf bb = some term) {e : EdgeKind × BasicBlock}
    (he : e ∈ flowEdges term) (x : BitVec n) :
    (propagated callReturn x bb e : BasicBlock × EntrySet bottom n) =
      (e.2, ⟨d.edgeOnSet bb e x⟩) := by
  obtain ⟨kind, t⟩ := e
  cases kind with
  | normal | unwind => rfl
  | ret func args destPlace =>
    obtain ⟨cleanup, rfl⟩ := eq_call_of_ret he
    simp only [propagated, edgeOnSet, hi.ret bb func args destPlace t cleanup hterm]

variable (hd hbody deadUnwinds) in
theorem drain_step (hi : Implements d body blockEffect callReturn)
    {entries : List (EntrySet bottom n)} {queue : List BasicBlock}
    (hlen : entries.length = body.basicBlocks.length) (hbb : bb < body.basicBlocks.length)
    (fuel : Nat) : ∃ st, Worklist.Step (flowSystem d hd body hbody deadUnwinds)
    ⟨entries, bb :: queue⟩ st ∧ drain body deadUnwinds blockEffect callReturn (fuel + 1)
    ⟨entries, bb :: queue⟩ = drain body deadUnwinds blockEffect callReturn fuel st := by
  obtain ⟨term, hterm⟩ := hbody.terminatorOf hbb
  have hdata : body.basicBlocks[bb]? = some body.basicBlocks[bb] := by simp [hbb]
  have hterm' : body.basicBlocks[bb].terminator = some term := by
    simpa [terminatorOf, hdata] using hterm
  have hentry : entries[bb]? = some (valueAt entries bb) := by
    simp [valueAt, getD_eq_getElem?_getD, hlen, hbb]
  have hrange : ∀ e ∈ flowEdges term, e.2 < entries.length := by
    intro e he
    rw [hlen]
    refine hbody.inRange bb e.2 ?_
    rw [successors, hterm, Option.elim_some, ← flowEdges_successors]
    exact mem_map_of_mem he
  obtain ⟨l, hrun, hl⟩ := propagateBitsIntoGraphSuccessorsOf_eq deadUnwinds callReturn
    ⟨d.blockOnSet bb body.basicBlocks[bb] (valueAt entries bb).bits⟩ bb term ⟨entries, queue⟩ hrange
  refine ⟨joins ⟨entries, queue⟩ l, ?_, ?_⟩
  · refine @Worklist.Step.take _ _ _ _ _ entries [] queue bb l fun p => ?_
    have hedges : (flowSystem d hd body hbody deadUnwinds).edges bb =
        (liveEdges deadUnwinds bb term).map fun e =>
          (e.2, fun x => ⟨d.edgeOnSet bb e (d.blockOnSet bb body.basicBlocks[bb] x.bits)⟩) := by
      simp only [flowSystem, systemEdges, hdata, hterm', Option.elim_some]
    rw [hl, hedges]
    constructor
    · rintro ⟨e, he, rfl⟩
      exact ⟨_, mem_map_of_mem he, propagated_eq hi hterm (mem_filter.1 he).1 _⟩
    · rintro ⟨f, hf, rfl⟩
      obtain ⟨e, he, rfl⟩ := mem_map.1 hf
      exact ⟨e, he, (propagated_eq hi hterm (mem_filter.1 he).1 _).symm⟩
  · rw [drain, hentry, expect_some, ok_bind, block, hdata, expect_some, ok_bind,
      hi.block bb _ hdata, ok_bind, hterm', expect_some, ok_bind, hrun, ok_bind]

theorem drain_spec (hi : Implements d body blockEffect callReturn) (fuel : Nat)
    (st : Worklist (EntrySet bottom n)) (hst : st.Inv (flowSystem d hd body hbody deadUnwinds))
    (hfuel : st.potential EntrySet.rank n < fuel) :
    ∃ entries, drain body deadUnwinds blockEffect callReturn fuel st = .ok entries ∧
      (flowSystem d hd body hbody deadUnwinds).IsLeast entries := by
  induction fuel generalizing st with
  | zero => omega
  | succ fuel ih =>
    obtain ⟨entries, queue⟩ := st
    cases queue with
    | nil => exact ⟨entries, rfl, hst.isLeast rfl⟩
    | cons bb queue =>
      have hlen : entries.length = body.basicBlocks.length := hst.length_eq
      obtain ⟨st', hstep, hrun⟩ := drain_step hd hbody deadUnwinds hi hlen
        (hst.inRange bb (.head _)) fuel
      have hlt := hstep.potential_lt (fun _ _ => rank_lt) EntrySet.rank_le hst
      rw [hrun]
      exact ih st' (hstep.inv hst) (by omega)

variable (hd hbody deadUnwinds) in
theorem startSets_spec :
    ∃ start, d.startSets body = .ok start ∧ ∀ queue, (∀ b, b ∈ queue ↔ b < body.basicBlocks.length) →
      Worklist.Inv (flowSystem d hd body hbody deadUnwinds) ⟨start, queue⟩ := by
  refine ⟨(replicate body.basicBlocks.length (bottomSet bottom n)).set START_BLOCK
    ⟨d.startBlockEffect (bottomSet bottom n).bits⟩, ?_, fun queue hq => ?_⟩
  · rw [ startSets, getElem?_replicate_of_lt hbody.start]
    rfl
  · refine Worklist.Inv.start (by simp [flowSystem]) (fun t ht => ?_) hq
    have ht' : t < body.basicBlocks.length := ht
    rw [valueAt_set (by simpa using hbody.start)]
    split
    · rename_i h
      simp [flowSystem, h]
    · rename_i h
      simp only [valueAt, getD_eq_getElem?_getD, getElem?_replicate_of_lt ht',
        Option.getD_some, flowSystem, if_neg h]
      rfl

theorem drain_ends (hi : Implements d body blockEffect callReturn)
    {st : Worklist (EntrySet bottom n)} (hst : st.Inv (flowSystem d hd body hbody deadUnwinds))
    {entries : List (EntrySet bottom n)}
    (hleast : (flowSystem d hd body hbody deadUnwinds).IsLeast entries) :
    ∃ N, ∀ fuel ≥ N, drain body deadUnwinds blockEffect callReturn fuel st = .ok entries := by
  refine ⟨st.potential EntrySet.rank n + 1, fun fuel hfuel => ?_⟩
  obtain ⟨entries', hrun, hleast'⟩ := drain_spec hi fuel st hst hfuel
  rw [hrun, hleast.unique hleast']

theorem queueOrder_spec (hbody : body.WF) :
    ∃ queue, queueOrder body = .ok queue ∧ ∀ b, b ∈ queue ↔ b < body.basicBlocks.length := by
  obtain ⟨out, hout, hpost⟩ := postorder_spec hbody hbody.start
  have hmem : ∀ (l queue : List BasicBlock) (b : BasicBlock),
      b ∈ l.foldl enqueue queue ↔ b ∈ queue ∨ b ∈ l := by
    intro l
    induction l with
    | nil => simp
    | cons t l ih =>
      intro queue b
      rw [foldl_cons, ih, mem_enqueue, mem_cons, or_assoc]
  have hrun : queueOrder body =
      .ok ((out.reverse ++ range body.basicBlocks.length).foldl enqueue []) := by
    rw [queueOrder, reversePostorder, hout]
    rfl
  refine ⟨_, hrun, fun b => ?_⟩
  rw [hmem, mem_append, mem_reverse, mem_range, hpost.mem_iff]
  have hreach : ∀ b, Reach body.successors START_BLOCK b → b < body.basicBlocks.length := by
    intro b hb
    cases hb with
    | refl => exact hbody.start
    | tail _ hstep => exact hbody.inRange _ b hstep
  have := hreach b
  constructor
  · rintro (h | h | h)
    · cases h
    · exact this h
    · exact h
  · exact fun h => .inr (.inr h)

end

/-! ## The two engines -/

theorem implements_trans (d : BitDenotation bottom n) {body : Body} (hbody : body.WF) :
    Implements d body
      (fun bb _ set => do
        let trans ← expect "index out of bounds"
          (body.basicBlocks.zipIdx.map fun (data, bb) => d.blockTrans bb data)[bb]?
        .ok (trans.apply set))
      (fun inOut bb _ _ destPlace destBb => d.propagateCallReturn inOut bb destBb destPlace) where
  block bb data hdata set := by
    have hterm := hbody.terminated data (mem_of_getElem? hdata)
    simp [hdata, blockTrans_apply d bb hterm]
  ret _ _ _ _ _ _ _ _ := rfl

/-- An analysis of the generic engine has the effects of a denotation. -/
structure SameEffects (d : BitDenotation bottom n) (a : Analysis bottom n) (body : Body) : Prop where
  start : ∀ set, a.initializeStartBlock set = d.startBlockEffect set
  statement : ∀ bb data j stmt, body.basicBlocks[bb]? = some data →
    data.statements[j]? = some stmt → ∀ set,
    a.applyStatementEffect set stmt ⟨bb, j⟩ = d.statementOnSet ⟨bb, j⟩ set
  terminator : ∀ bb data term, body.basicBlocks[bb]? = some data → data.terminator = some term →
    ∀ set, a.applyTerminatorEffect set term ⟨bb, data.statements.length⟩ =
      d.terminatorOnSet ⟨bb, data.statements.length⟩ set
  callReturn : ∀ bb func args destPlace destBb cleanup,
    body.terminatorOf bb = some (.call func args (some (destPlace, destBb)) cleanup) → ∀ set,
    a.applyCallReturnEffect set bb func args destPlace =
      d.propagateCallReturn set bb destBb destPlace

theorem SameEffects.implements {d : BitDenotation bottom n} {a : Analysis bottom n} {body : Body}
    (h : SameEffects d a body) (hbody : body.WF) :
    Implements d body a.applyWholeBlockEffect
      (fun inOut bb func args destPlace _ =>
        a.applyCallReturnEffect inOut bb func args destPlace) where
  block bb data hdata set := by
    obtain ⟨term, hterm⟩ :=
      Option.isSome_iff_exists.1 (hbody.terminated data (mem_of_getElem? hdata))
    have hstmts : ∀ (f : BitVec n → Statement × Nat → BitVec n) (l : List Statement) (k : Nat)
        (set : BitVec n), (∀ set p, f set p = a.applyStatementEffect set p.1 ⟨bb, p.2⟩) →
        (∀ i stmt, l[i]? = some stmt → data.statements[k + i]? = some stmt) →
        (l.zipIdx k).foldl f set =
          (range' k l.length).foldl (fun set j => d.statementOnSet ⟨bb, j⟩ set) set := by
      intro f l k set hf
      induction l generalizing k set with
      | nil => exact fun _ => rfl
      | cons stmt l ih =>
        intro hl
        have hstmt := h.statement bb data k stmt hdata (hl 0 stmt rfl) set
        rw [zipIdx_cons, foldl_cons, length_cons, range'_succ, foldl_cons, ← hstmt, hf]
        refine ih (k + 1) _ fun i stmt hi => ?_
        have := hl (i + 1) stmt hi
        rwa [show k + 1 + i = k + (i + 1) by omega]
    rw [Analysis.applyWholeBlockEffect, hstmts, hterm, expect_some, ok_bind,
      h.terminator bb data term hdata hterm, ← range_eq_range']
    · rfl
    · exact fun _ _ => rfl
    · simp
  ret := h.callReturn

theorem walkCfg_ends {d : BitDenotation bottom n} {hd : d.MonotoneReturn} {body : Body}
    {hbody : body.WF} {deadUnwinds : BasicBlock → Bool} {entries : List (EntrySet bottom n)}
    (hleast : (flowSystem d hd body hbody deadUnwinds).IsLeast entries) {queue : List BasicBlock}
    (hq : ∀ b, b ∈ queue ↔ b < body.basicBlocks.length) :
    ∃ N, ∀ fuel ≥ N, d.walkCfg body deadUnwinds fuel queue = .ok entries := by
  obtain ⟨start, hstart, hinv⟩ := startSets_spec hd hbody deadUnwinds
  obtain ⟨N, hN⟩ := drain_ends (implements_trans d hbody) (hinv queue hq) hleast
  refine ⟨N, fun fuel hfuel => ?_⟩
  rw [ walkCfg, hstart, ok_bind]
  exact hN fuel hfuel

theorem propagate_isLeast (d : BitDenotation bottom n) (hd : d.MonotoneReturn) (body : Body)
    (hbody : body.WF) (deadUnwinds : BasicBlock → Bool) : ∃ entries : List (EntrySet bottom n),
      (∃ N, ∀ fuel ≥ N, d.propagate body deadUnwinds fuel = .ok entries) ∧
      (flowSystem d hd body hbody deadUnwinds).IsLeast entries := by
  obtain ⟨start, -, hinv⟩ := startSets_spec hd hbody deadUnwinds
  obtain ⟨order, horder, hmem⟩ := queueOrder_spec hbody
  obtain ⟨entries, -, hleast⟩ := drain_spec (implements_trans d hbody) _ _ (hinv order hmem)
    (Nat.lt_succ_self _)
  refine ⟨entries, ?_, hleast⟩
  simpa only [ propagate, horder, ok_bind] using walkCfg_ends hleast hmem

/-- Both engines end with the least solution of the inequalities between the entry sets, for every
bottom value, body, set of dead unwinds and family of effects with a monotone return effect; and so
do they from every order in which the blocks are queued, and so does every way to take the blocks
off. -/
theorem dataflow_least_solution (d : BitDenotation bottom n) (hd : d.MonotoneReturn) (body : Body)
    (hbody : body.WF) (deadUnwinds : BasicBlock → Bool) : ∃ entries : List (EntrySet bottom n),
      (∃ N, ∀ fuel ≥ N, d.propagate body deadUnwinds fuel = .ok entries) ∧
      (flowSystem d hd body hbody deadUnwinds).IsLeast entries ∧
      (∀ t < body.basicBlocks.length, valueAt entries t =
        FlowSystem.joinAll ((flowSystem d hd body hbody deadUnwinds).init t)
          ((flowSystem d hd body hbody deadUnwinds).incoming (valueAt entries) t)) ∧
      (∀ a : Analysis bottom n, SameEffects d a body →
        ∃ N, ∀ fuel ≥ N, a.iterateToFixpoint body deadUnwinds fuel = .ok entries) ∧
      ∀ queue, (∀ b, b ∈ queue ↔ b < body.basicBlocks.length) →
        (∃ N, ∀ fuel ≥ N, d.walkCfg body deadUnwinds fuel queue = .ok entries) ∧
        (∀ a : Analysis bottom n, SameEffects d a body →
          ∃ N, ∀ fuel ≥ N, a.iterateFrom body deadUnwinds fuel queue = .ok entries) ∧
        ∃ start, d.startSets body = .ok start ∧ ∀ st,
          Relation.ReflTransGen (Worklist.Step (flowSystem d hd body hbody deadUnwinds))
            ⟨start, queue⟩ st → st.queue = [] → st.entries = entries := by
  obtain ⟨entries, hpropagate, hleast⟩ := propagate_isLeast d hd body hbody deadUnwinds
  obtain ⟨start, hstart, hinv⟩ := startSets_spec hd hbody deadUnwinds
  obtain ⟨order, horder, hmem⟩ := queueOrder_spec hbody
  have hiter : ∀ queue, (∀ b, b ∈ queue ↔ b < body.basicBlocks.length) →
      ∀ a : Analysis bottom n, SameEffects d a body →
        ∃ N, ∀ fuel ≥ N, a.iterateFrom body deadUnwinds fuel queue = .ok entries := by
    intro queue hq a ha
    obtain ⟨N, hN⟩ := drain_ends (ha.implements hbody) (hinv queue hq) hleast
    refine ⟨N, fun fuel hfuel => ?_⟩
    have hsets : a.startSets body = d.startSets body := by
      simp only [Analysis.startSets, startSets, ha.start]
    rw [Analysis.iterateFrom, hsets, hstart, ok_bind]
    exact hN fuel hfuel
  refine ⟨entries, hpropagate, hleast, fun t ht => hleast.eq_join ht, fun a ha => ?_,
    fun queue hq => ⟨walkCfg_ends hleast hq, hiter queue hq, start, hstart,
      fun st hrun hempty => ?_⟩⟩
  · simpa only [Analysis.iterateToFixpoint, horder, ok_bind] using hiter order hmem a ha
  · exact (run_isLeast hrun (hinv queue hq) hempty).unique hleast

namespace Sample

/-- Two blocks that lead to each other. -/
def loop : Body :=
  { basicBlocks := [⟨[.nop], some (.goto 1), false⟩, ⟨[], some (.goto 0), false⟩]
    localDecls := []
    argCount := 0 }

theorem loop_wf : loop.WF := wf_of_blocks (by decide) (by decide)

def generates : BitDenotation false 1 :=
  { startBlockEffect := id
    beforeStatementEffect := fun _ => []
    statementEffect := fun _ => [.gen 0]
    beforeTerminatorEffect := fun _ => []
    terminatorEffect := fun _ => []
    propagateCallReturn := fun set _ _ _ => set }

theorem generates_monotone : generates.MonotoneReturn := fun _ _ _ _ _ h => h

end Sample

open Sample

/-- The iteration over the loop ends with the least solution. -/
theorem dataflow_least_solution_loop :
    ∃ entries, (∃ N, ∀ fuel ≥ N,
        generates.propagate loop (fun _ => false) fuel = .ok entries) ∧
      (flowSystem generates generates_monotone loop loop_wf
        fun _ => false).IsLeast entries := by
  obtain ⟨entries, hrun, hleast, -⟩ := dataflow_least_solution generates
    generates_monotone loop loop_wf fun _ => false
  exact ⟨entries, hrun, hleast⟩

end Tortis.Dataflow
