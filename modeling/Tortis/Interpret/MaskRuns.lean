import Tortis.Interpret.UndefMask

/-!
# Runs of the mask of defined bytes

What an `UndefMask` is for: a map from the offsets below a length to states (`Assigned`). The
operations assign a state to the offsets of a range or to those that growth adds. Every operation on
a mask that represents a map returns one that represents the map after it (`apply_represents`), and
so after every run (`runOps_represents`) `get` and `is_range_defined` answer for what was assigned
last (`runOps_answers`).
-/

namespace Tortis.Interpret

/-- A map from the offsets below a length to states. -/
structure Assigned where
  len : Nat
  state : Nat → Bool

/-- The map that gives a state to some offsets. -/
def Assigned.assign (a : Assigned) (len : Nat) (P : Nat → Prop) [DecidablePred P]
    (newState : Bool) : Assigned :=
  ⟨len, fun i => if P i then newState else a.state i⟩

inductive MaskOp where
  | grow (amount : Nat) (newState : Bool)
  | set (i : Nat) (newState : Bool)
  | setRange (start stop : Nat) (newState : Bool)
  | setRangeInbounds (start stop : Nat) (newState : Bool)

namespace MaskOp

def apply (m : UndefMask) : MaskOp → Outcome UndefMask
  | grow amount newState => m.grow amount newState
  | set i newState => m.set i newState
  | setRange start stop newState => m.setRange start stop newState
  | setRangeInbounds start stop newState => m.setRangeInbounds start stop newState

/-- What the operation assigns: growth assigns to the offsets it adds. -/
def assign (a : Assigned) : MaskOp → Assigned
  | grow amount newState =>
    a.assign (a.len + amount) (fun i => a.len ≤ i ∧ i < a.len + amount) newState
  | set i newState => a.assign a.len (fun j => j = i) newState
  | setRange start stop newState =>
    a.assign (max a.len stop) (fun i => (start ≤ i ∨ a.len ≤ i) ∧ i < stop) newState
  | setRangeInbounds start stop newState =>
    a.assign a.len (fun i => start ≤ i ∧ i < stop) newState

/-- The ranges are not empty, in bounds for `set_range_inbounds`, and `set` is for an offset that a
block has a bit for. -/
def Fits (m : UndefMask) : MaskOp → Prop
  | grow _ _ => True
  | set i _ => i < 64 * m.blocks.length
  | setRange start stop _ => start < stop
  | setRangeInbounds start stop _ => start < stop ∧ stop ≤ m.len

end MaskOp

namespace UndefMask

def runOps (m : UndefMask) : List MaskOp → Outcome UndefMask
  | [] => .ok m
  | op :: ops => do (← op.apply m).runOps ops

/-- Every operation of a sequence fits the mask it comes to. -/
def FitsAll (m : UndefMask) : List MaskOp → Prop
  | [] => True
  | op :: ops => op.Fits m ∧ ∀ m', op.apply m = .ok m' → m'.FitsAll ops

/-- The mask holds the states of a map. -/
structure Represents (m : UndefMask) (a : Assigned) : Prop where
  wf : m.WF
  len : m.len = a.len
  bit : ∀ i < a.len, m.bit i = a.state i

variable {m : UndefMask} {a : Assigned}

theorem new_represents (size : Nat) (state : Bool) :
    ∃ m, new size state = .ok m ∧ m.Represents ⟨size, fun _ => state⟩ := by
  obtain ⟨m, hrun, hlen, hm, hbit⟩ := new_spec size state
  exact ⟨m, hrun, hm, hlen, hbit⟩

theorem apply_represents (h : m.Represents a) {op : MaskOp} (hop : op.Fits m) :
    ∃ m', op.apply m = .ok m' ∧ m'.Represents (op.assign a) := by
  cases op with
  | grow amount newState =>
    obtain ⟨m', hrun, hlen, hm', hbit⟩ := grow_spec h.wf amount newState
    refine ⟨m', hrun, hm', by rw [hlen, h.len]; rfl, fun i hi => ?_⟩
    rw [hbit, h.len]
    simp only [MaskOp.assign, Assigned.assign] at hi ⊢
    by_cases hlt : i < a.len
    · rw [if_neg (by omega), if_neg (by omega), h.bit i hlt]
    · rw [if_pos ⟨by omega, hi⟩, if_pos ⟨by omega, hi⟩]
  | set j newState =>
    obtain ⟨m', hrun, hlen, hblocks, hbit⟩ := set_spec (m := m) newState hop
    refine ⟨m', hrun, ?_, hlen.trans h.len, fun i hi => ?_⟩
    · rw [WF, hlen, hblocks]
      exact h.wf
    · rw [hbit, h.bit i hi]
      rfl
  | setRange start stop newState =>
    obtain ⟨m', hrun, hlen, hm', hbit⟩ := setRange_grow_spec h.wf newState hop
    refine ⟨m', hrun, hm', by rw [hlen, h.len]; rfl, fun i hi => ?_⟩
    rw [hbit, h.len]
    simp only [MaskOp.assign, Assigned.assign] at hi ⊢
    by_cases hlt : i < a.len
    · rw [h.bit i hlt]
    · rw [if_pos (by omega), if_pos (by omega)]
  | setRangeInbounds start stop newState =>
    obtain ⟨m', hrun, hlen, hblocks, hbit⟩ :=
      setRangeInbounds_spec (m := m) newState hop.1 (le_trans hop.2 h.wf)
    refine ⟨m', hrun, ?_, hlen.trans h.len, fun i hi => ?_⟩
    · rw [WF, hlen, hblocks]
      exact h.wf
    · rw [hbit, h.bit i hi]
      rfl

theorem runOps_represents : ∀ {ops : List MaskOp} {m : UndefMask} {a : Assigned},
    m.Represents a → m.FitsAll ops →
      ∃ m', m.runOps ops = .ok m' ∧ m'.Represents (ops.foldl MaskOp.assign a)
  | [], m, _, h, _ => ⟨m, rfl, h⟩
  | op :: ops, m, a, h, hfits => by
    obtain ⟨m1, hrun1, h1⟩ := apply_represents h hfits.1
    obtain ⟨m2, hrun2, h2⟩ := runOps_represents h1 (hfits.2 m1 hrun1)
    exact ⟨m2, by rw [runOps, hrun1, Outcome.ok_bind, hrun2], h2⟩

theorem Represents.get_eq (h : m.Represents a) {i : Nat} (hi : i < a.len) :
    m.get i = .ok (a.state i) := by
  have hle : m.len ≤ 64 * m.blocks.length := h.wf
  have hlen := h.len
  rw [UndefMask.get_eq (by omega), h.bit i hi]

/-- What a mask answers when it holds the states of a map. -/
structure Answers (m : UndefMask) (a : Assigned) : Prop where
  len : m.len = a.len
  get : ∀ i < a.len, m.get i = .ok (a.state i)
  /-- A range up to the length is defined when all its offsets are. -/
  defined : ∀ start stop, stop ≤ a.len → (m.isRangeDefined start stop = .ok (.ok ()) ↔
    ∀ i, start ≤ i → i < stop → a.state i = true)
  /-- And otherwise the answer is the first offset that is not. -/
  undefined : ∀ start stop, stop ≤ a.len → ∀ i, m.isRangeDefined start stop = .ok (.error i) ↔
    start ≤ i ∧ i < stop ∧ a.state i = false ∧ ∀ j, start ≤ j → j < i → a.state j = true
  /-- For a range that goes on after the length the answer is the length. -/
  beyond : ∀ start stop, a.len < stop → m.isRangeDefined start stop = .ok (.error a.len)

theorem Represents.answers (h : m.Represents a) : m.Answers a where
  len := h.len
  get i hi := h.get_eq hi
  defined start stop hstop := by
    refine (isRangeDefined_iff h.wf (h.len ▸ hstop)).1.trans ?_
    exact forall_congr' fun i => forall_congr' fun _ => forall_congr' fun hi => by
      rw [h.bit i (by omega)]
  undefined start stop hstop i := by
    refine ((isRangeDefined_iff h.wf (h.len ▸ hstop)).2 i).trans ?_
    refine and_congr_right fun _ => and_congr_right fun hi => ?_
    rw [h.bit i (by omega)]
    refine and_congr_right fun _ => forall_congr' fun j => forall_congr' fun _ =>
      forall_congr' fun hj => ?_
    rw [h.bit j (by omega)]
  beyond start stop hstop := by rw [isRangeDefined, if_pos (h.len ▸ hstop), h.len]

/-- Every sequence of operations that fit runs, and the mask answers for what it has assigned. -/
theorem runOps_answers (size : Nat) (state : Bool) (ops : List MaskOp)
    (hfits : ∀ m, new size state = .ok m → m.FitsAll ops) :
    ∃ m, (do (← new size state).runOps ops) = .ok m ∧
      m.Answers (ops.foldl MaskOp.assign ⟨size, fun _ => state⟩) := by
  obtain ⟨m0, hnew, h0⟩ := new_represents size state
  obtain ⟨m, hrun, h⟩ := runOps_represents h0 (hfits m0 hnew)
  exact ⟨m, by rw [hnew, Outcome.ok_bind, hrun], h.answers⟩

/-- A run that leaves bits past the length and grows over them: offset `1` of a mask of one offset is
set and then assigned by growth. -/
theorem runOps_answers_grow :
    ∃ m, (do (← new 1 false).runOps [.set 1 true, .grow 2 false]) = .ok m ∧
      m.get 1 = .ok false := by
  have hfits : ∀ m, new 1 false = .ok m → m.FitsAll [.set 1 true, .grow 2 false] := by
    intro m hm
    obtain rfl : m = ⟨[0#64], 1⟩ := by
      have : new 1 false = .ok ⟨[0#64], 1⟩ := by decide
      cases hm.symm.trans this
      rfl
    exact ⟨(by decide : 1 < 64 * 1), fun _ _ => ⟨trivial, fun _ _ => trivial⟩⟩
  obtain ⟨m, hrun, h⟩ := runOps_answers 1 false [.set 1 true, .grow 2 false] hfits
  exact ⟨m, hrun, h.get 1 (by decide)⟩

/-- A range that goes on after the length: its first undefined offset is `0`, and the answer is the
length. And an offset that no block has a bit for cannot be set. -/
theorem isRangeDefined_beyond :
    (do (← new 1 false).isRangeDefined 0 2) = .ok (.error 1) ∧
      (do (← new 1 false).get 0) = .ok false ∧
      (do (← new 1 false).set 64 true) = .error (.panic "index out of bounds") := by
  decide

end UndefMask

end Tortis.Interpret
