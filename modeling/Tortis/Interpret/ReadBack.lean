import Tortis.Interpret.Memory

/-!
# Reading back what was written

Runs of writes and copies over the interpreter's memory. Allocations stay well formed; a scalar is
read back as long as nothing overlaps with it; and what no write touches is left as it is
(`memory_reads_back`).

`write_scalar` of an undefined value only marks the range as undefined: it does not, as every other
write does, clear the relocations of the range. A read of a part of the range that cuts one of these
fails at the edge of the pointer that is no longer there, before it comes to the mask
(`readScalar_undef_iff`).
-/

namespace Tortis.Interpret

open Allocation InterpResult Memory

variable {Tag : Type} {cx : InterpCx}

/-! ## Fresh allocations -/

/-! ## Runs -/

/-- A write or a copy. -/
inductive Access (Tag : Type) where
  | writeScalar (ptr : Pointer Tag) (val : ScalarMaybeUndef Tag) (size : Nat)
  | writeBytes (ptr : Pointer Tag) (src : List UInt8)
  | copy (src dest : Pointer Tag) (size length : Nat) (nonoverlapping : Bool)

namespace Access

def allocId : Access Tag → AllocId
  | .writeScalar ptr _ _ | .writeBytes ptr _ => ptr.allocId
  | .copy _ dest _ _ _ => dest.allocId

/-- Where the range that is written to starts. -/
def offset : Access Tag → Nat
  | .writeScalar ptr _ _ | .writeBytes ptr _ => ptr.offset
  | .copy _ dest _ _ _ => dest.offset

/-- How long the range is that is written to. -/
def size : Access Tag → Nat
  | .writeScalar _ _ size => size
  | .writeBytes _ src => src.length
  | .copy _ _ size length _ => size * length

/-- The access writes to bytes of a range. -/
def Overlaps (op : Access Tag) (id : AllocId) (p n : Nat) : Prop :=
  op.allocId = id ∧ Allocation.Overlaps op.offset op.size p n

/-- The bounds that the callers check. A copy of no bytes returns before it comes to the memory. -/
def InBounds (mem : Memory Tag) : Access Tag → Prop
  | .writeScalar ptr _ size => ∀ a, mem.getMut ptr.allocId = .ok a → ptr.offset + size ≤ a.size
  | .writeBytes ptr src => ∀ a, mem.getMut ptr.allocId = .ok a → ptr.offset + src.length ≤ a.size
  | .copy src dest size length _ => 0 < size ∧ 0 < length ∧
    (∀ a, mem.get src.allocId = .ok a → src.offset + size ≤ a.size) ∧
    ∀ a, mem.getMut dest.allocId = .ok a → dest.offset + size * length ≤ a.size

def step (cx : InterpCx) (mem : Memory Tag) : Access Tag → InterpResult (Memory Tag)
  | .writeScalar ptr val size => do
    let a ← mem.getMut ptr.allocId
    let a ← a.writeScalar cx ptr.offset val size
    .ok (mem.set ptr.allocId a)
  | .writeBytes ptr src => do
    let a ← mem.getMut ptr.allocId
    let a ← a.writeBytes cx ptr.offset src
    .ok (mem.set ptr.allocId a)
  | .copy src dest size length nonoverlapping =>
    mem.copyRepeatedly cx src dest size length nonoverlapping

end Access

inductive Run (cx : InterpCx) : Memory Tag → List (Access Tag) → Memory Tag → Prop
  | nil {mem : Memory Tag} : Run cx mem [] mem
  | cons {mem mem₁ mem₂ : Memory Tag} {op : Access Tag} {ops : List (Access Tag)}
      (hin : op.InBounds mem) (hstep : op.step cx mem = .ok mem₁) (hrun : Run cx mem₁ ops mem₂) :
      Run cx mem (op :: ops) mem₂

/-- A memory whose allocations are well formed. -/
def Memory.WF (cx : InterpCx) (mem : Memory Tag) : Prop :=
  ∀ id a, mem.get id = .ok a → a.WF cx

/-- The accesses of a run leave a range alone: none writes to it, and none removes a relocation that
has a byte in it. -/
def Spares (cx : InterpCx) (id : AllocId) (p n : Nat) : Memory Tag → List (Access Tag) → Prop
  | _, [] => True
  | mem, op :: ops => ∀ mem₁, op.step cx mem = .ok mem₁ → ¬ op.Overlaps id p n ∧
    (∀ a a₁, mem.get id = .ok a → mem₁.get id = .ok a₁ → ∀ e ∈ a.relocations.data,
      e ∉ a₁.relocations.data → ¬ Allocation.Overlaps e.1 cx.pointerSize p n) ∧
    Spares cx id p n mem₁ ops

/-! ## Steps -/

variable {a : Allocation Tag}

theorem noCut_of_getBytes (h : a.WF cx) {off size : Nat} {bytes : List UInt8}
    (hok : a.getBytesWithUndefAndPtr cx off size = .ok bytes) : a.NoCut cx off size := by
  obtain ⟨_, -, hok⟩ := bind_eq_ok.1 hok
  obtain ⟨_, hedges, -⟩ := bind_eq_ok.1 hok
  obtain ⟨_, hstart, hedges⟩ := bind_eq_ok.1 hedges
  obtain ⟨stop, hoffset, hstop⟩ := bind_eq_ok.1 hedges
  have hstop_eq : stop = off + size := by
    rw [Allocation.offset] at hoffset
    split at hoffset
    · cases hoffset
    · exact (Except.ok.inj hoffset).symm
  have hnone : ∀ {o}, a.checkRelocations cx o 0 = .ok () →
      ∀ e ∈ a.relocations.data, ¬ Allocation.Overlaps e.1 cx.pointerSize o 0 := by
    intro o ho
    rw [checkRelocations_eq h] at ho
    split at ho
    · assumption
    · cases ho
  intro e he ho
  have h1 := hnone hstart e he
  have h2 := hnone hstop e he
  rw [Allocation.Overlaps] at ho h1 h2
  omega

variable {op : Access Tag} {mem mem1 : Memory Tag}

theorem Access.step_spec (hbo : cx.byteOrder.Lawful) (hwf : mem.WF cx) (hin : op.InBounds mem) (hstep : op.step cx mem = .ok mem1) :
    ∃ a a1, mem.get op.allocId = .ok a ∧ mem1 = mem.set op.allocId a1 ∧
      Written cx a a1 op.offset op.size := by
  cases op with
  | writeScalar ptr val size =>
    obtain ⟨a, ha, h⟩ := bind_eq_ok.1 hstep
    obtain ⟨a1, ha1, h⟩ := bind_eq_ok.1 h
    have hget := (getMut_eq_ok ha).2
    refine ⟨a, a1, hget, (Except.ok.inj h).symm, ?_⟩
    cases val with
    | scalar val => exact writeScalar_written hbo (hwf _ _ hget) ha1
    | undef =>
      obtain ⟨a2, ha2, hw⟩ := writeScalar_undef_spec (hwf _ _ hget) (hin a ha)
      rw [ha1] at ha2
      cases ha2
      exact hw
  | writeBytes ptr src =>
    obtain ⟨a, ha, h⟩ := bind_eq_ok.1 hstep
    obtain ⟨a1, ha1, h⟩ := bind_eq_ok.1 h
    have hget := (getMut_eq_ok ha).2
    refine ⟨a, a1, hget, (Except.ok.inj h).symm, ?_⟩
    obtain ⟨a2, ha2, hw⟩ := writeBytes_spec (hwf _ _ hget) (hin a ha)
    rw [ha1] at ha2
    cases ha2
    exact hw
  | copy src dest size length nonoverlapping =>
    obtain ⟨hsize, hlength, hsrc_in, hdest_in⟩ := hin
    obtain ⟨srcAlloc, hsrc, h⟩ := bind_eq_ok.1 hstep
    obtain ⟨_, -, h⟩ := bind_eq_ok.1 h
    obtain ⟨_, hbytes, h⟩ := bind_eq_ok.1 h
    obtain ⟨destAlloc, hdest, h⟩ := bind_eq_ok.1 h
    obtain ⟨a1, -, h⟩ := bind_eq_ok.1 h
    obtain ⟨_, hcopy, -⟩ := bind_eq_ok.1 h
    have hget := (getMut_eq_ok hdest).2
    have hub : src.allocId = dest.allocId →
        ¬ Memory.OverlapError src dest size nonoverlapping := by
      intro hid herr
      rw [copyBytes, if_pos hid] at hcopy
      exact absurd ((if_pos herr).symm.trans hcopy) (by intro h; cases h)
    obtain ⟨destAlloc', hrun, hcopied⟩ := copyRepeatedly_spec hsrc hdest (hwf _ _ hsrc)
      (hwf _ _ hget) hsize hlength (hsrc_in _ hsrc) (hdest_in _ hdest)
      (noCut_of_getBytes (hwf _ _ hsrc) hbytes) hub
    refine ⟨destAlloc, destAlloc', hget, ?_, hcopied.written⟩
    exact Except.ok.inj (hstep.symm.trans hrun)

theorem Access.step_wf (hbo : cx.byteOrder.Lawful) (hwf : mem.WF cx) (hin : op.InBounds mem) (hstep : op.step cx mem = .ok mem1) :
    mem1.WF cx := by
  obtain ⟨a, a1, -, rfl, hw⟩ := Access.step_spec hbo hwf hin hstep
  intro id b hb
  rw [get_set] at hb
  split at hb
  · cases hb
    exact hw.wf
  · exact hwf id b hb

theorem Allocation.Written.noCut {a a' : Allocation Tag} {off size p n : Nat}
    (h : Written cx a a' off size) (hno : ¬ Allocation.Overlaps off size p n)
    (hcut : a.NoCut cx p n) : (∀ e ∈ a.relocations.data, e ∉ a'.relocations.data →
      ¬ Allocation.Overlaps e.1 cx.pointerSize p n) ∧ a'.NoCut cx p n := by
  rw [Allocation.Overlaps] at hno
  refine ⟨fun e he hgone ho => hgone (h.kept e he fun ho' => ?_), fun e he ho => ?_⟩
  · have hinside := hcut e he ho
    rw [Allocation.Overlaps] at ho'
    omega
  · rcases h.new e he with he | hinside
    · exact hcut e he ho
    · rw [Allocation.Overlaps] at ho
      omega

theorem Allocation.Agree.refl (a : Allocation Tag) (p n : Nat) : Agree cx a a p n :=
  ⟨rfl, fun _ _ _ => rfl, fun _ _ _ => rfl, fun _ _ => Iff.rfl⟩

theorem Access.step_agree (hbo : cx.byteOrder.Lawful) (hwf : mem.WF cx) (hin : op.InBounds mem) (hstep : op.step cx mem = .ok mem1) {id : AllocId}
    {p n : Nat} (ha : mem.get id = .ok a) (hno : ¬ op.Overlaps id p n)
    (hgone : ∀ a1, mem1.get id = .ok a1 → ∀ e ∈ a.relocations.data, e ∉ a1.relocations.data →
      ¬ Allocation.Overlaps e.1 cx.pointerSize p n) :
    ∃ a1, mem1.get id = .ok a1 ∧ Agree cx a a1 p n := by
  obtain ⟨b, b1, hb, rfl, hw⟩ := Access.step_spec hbo hwf hin hstep
  by_cases hid : id = op.allocId
  · subst hid
    rw [ha] at hb
    cases hb
    have hget : (mem.set op.allocId b1).get op.allocId = .ok b1 := by
      rw [get_set, if_pos rfl]
    exact ⟨b1, hget, hw.agree (fun ho => hno ⟨rfl, ho⟩) (hgone b1 hget)⟩
  · refine ⟨a, ?_, .refl a p n⟩
    rw [get_set, if_neg hid, ha]

/-! ## Whole runs -/

section
variable (hbo : cx.byteOrder.Lawful) {mem mem' : Memory Tag} {ops : List (Access Tag)}
  {id : AllocId} {p n : Nat}

include hbo

theorem Run.wf (hrun : Run cx mem ops mem') (hwf : mem.WF cx) : mem'.WF cx := by
  induction hrun with
  | nil => exact hwf
  | cons hin hstep _ ih => exact ih (Access.step_wf hbo hwf hin hstep)

variable {a : Allocation Tag}

theorem Run.reads (hrun : Run cx mem ops mem') (hwf : mem.WF cx) (hn : 0 < n)
    (hspares : Spares cx id p n mem ops) (ha : mem.get id = .ok a)
    (hin : p + n ≤ a.size) :
    ∃ a', mem'.get id = .ok a' ∧ a'.readScalar cx p n = a.readScalar cx p n ∧
      ∀ check, a'.getBytesInternal cx p n check = a.getBytesInternal cx p n check := by
  induction hrun generalizing a with
  | nil => exact ⟨a, ha, rfl, fun _ => rfl⟩
  | cons hbounds hstep _ ih =>
    obtain ⟨hno, hgone, hrest⟩ := hspares _ hstep
    obtain ⟨a1, ha1, hagree⟩ := Access.step_agree hbo hwf hbounds hstep ha hno
      fun a1 ha1 => hgone a a1 ha ha1
    have hwf1 := Access.step_wf hbo hwf hbounds hstep
    obtain ⟨a', ha', hscalar, hbytes⟩ := ih hwf1 hrest ha1 (by rw [hagree.size_eq]; exact hin)
    refine ⟨a', ha', ?_, fun check => ?_⟩
    · rw [hscalar, readScalar_congr (hwf _ _ ha) (hwf1 _ _ ha1) hagree hn hin]
    · rw [hbytes, getBytesInternal_congr (hwf _ _ ha) (hwf1 _ _ ha1) hagree hn hin]

theorem Run.reads_noCut (hrun : Run cx mem ops mem') (hwf : mem.WF cx) (hn : 0 < n)
    (hno : ∀ op ∈ ops, ¬ op.Overlaps id p n) (ha : mem.get id = .ok a)
    (hin : p + n ≤ a.size) (hcut : a.NoCut cx p n) :
    ∃ a', mem'.get id = .ok a' ∧ a'.readScalar cx p n = a.readScalar cx p n := by
  induction hrun generalizing a with
  | nil => exact ⟨a, ha, rfl⟩
  | @cons mem mem1 _ op _ hbounds hstep _ ih =>
    have hwf1 := Access.step_wf hbo hwf hbounds hstep
    have hno' := hno op (.head _)
    -- what is left of the relocations that the range does not cut
    obtain ⟨hgone, hcut1⟩ : (∀ a1, mem1.get id = .ok a1 → ∀ e ∈ a.relocations.data,
        e ∉ a1.relocations.data → ¬ Allocation.Overlaps e.1 cx.pointerSize p n) ∧
        ∀ a1, mem1.get id = .ok a1 → a1.NoCut cx p n := by
      obtain ⟨b, b1, hb, rfl, hw⟩ := Access.step_spec hbo hwf hbounds hstep
      rw [get_set]
      by_cases hid : id = op.allocId
      · subst hid
        rw [ha] at hb
        cases hb
        obtain ⟨h1, h2⟩ := hw.noCut (fun ho => hno' ⟨rfl, ho⟩) hcut
        rw [if_pos rfl]
        refine ⟨?_, ?_⟩
        · rintro _ ⟨⟩
          exact h1
        · rintro _ ⟨⟩
          exact h2
      · rw [if_neg hid, ha]
        refine ⟨?_, ?_⟩
        · rintro _ ⟨⟩ e he hgone
          exact absurd he hgone
        · rintro _ ⟨⟩
          exact hcut
    obtain ⟨a1, ha1, hagree⟩ := Access.step_agree hbo hwf hbounds hstep ha hno' hgone
    obtain ⟨a', ha', hscalar⟩ := ih hwf1 (fun op hop => hno op (.tail _ hop)) ha1
      (by rw [hagree.size_eq]; exact hin) (hcut1 a1 ha1)
    exact ⟨a', ha', hscalar.trans (readScalar_congr (hwf _ _ ha) (hwf1 _ _ ha1) hagree hn hin)⟩

end

theorem Run.append {mem mem' : Memory Tag} {ops ops' : List (Access Tag)}
    (h : Run cx mem (ops ++ ops') mem') : ∃ mem1, Run cx mem ops mem1 ∧ Run cx mem1 ops' mem' := by
  induction ops generalizing mem with
  | nil => exact ⟨mem, .nil, h⟩
  | cons op ops ih =>
    cases h with
    | cons hin hstep hrun =>
      obtain ⟨mem1, h1, h2⟩ := ih hrun
      exact ⟨mem1, .cons hin hstep h1, h2⟩

/-- Over every run of accesses in bounds, relocations stay inside of their allocations and at least
the size of a pointer apart; a scalar is read back where it was written as long as nothing later
overlaps with it; and a range reads as before when no access writes to it or removes a relocation
that has a byte in it. -/
theorem memory_reads_back (cx : InterpCx) (hbo : cx.byteOrder.Lawful) (mem mem' : Memory Tag)
    (ops : List (Access Tag)) (hwf : mem.WF cx) (hrun : Run cx mem ops mem') :
    (∀ id a, mem'.get id = .ok a →
      (a.relocations.data.Pairwise fun x y => x.1 + cx.pointerSize ≤ y.1) ∧
      ∀ e ∈ a.relocations.data, e.1 + cx.pointerSize ≤ a.size) ∧
    (∀ before ptr val size after, ops = before ++ .writeScalar ptr (.scalar val) size :: after →
      (∀ op ∈ after, ¬ op.Overlaps ptr.allocId ptr.offset size) →
      ∃ a', mem'.get ptr.allocId = .ok a' ∧ a'.readScalar cx ptr.offset size = .ok (.scalar val)) ∧
    (∀ id p n a, 0 < n → mem.get id = .ok a → p + n ≤ a.size → Spares cx id p n mem ops →
      ∃ a', mem'.get id = .ok a' ∧ a'.readScalar cx p n = a.readScalar cx p n ∧
        a'.getBytes cx p n = a.getBytes cx p n ∧
        a'.getBytesWithUndefAndPtr cx p n = a.getBytesWithUndefAndPtr cx p n) := by
  refine ⟨fun id a ha => ?_, ?_, fun id p n a hn ha hin hspares => ?_⟩
  · have hwf' := hrun.wf hbo hwf id a ha
    exact ⟨hwf'.apart, hwf'.inside⟩
  · rintro before ptr val size after rfl hno
    obtain ⟨mem1, hrun1, hrun2⟩ := hrun.append
    have hwf1 := hrun1.wf hbo hwf
    cases hrun2 with
    | cons hbounds hstep hrun3 =>
      have hwf2 := Access.step_wf hbo hwf1 hbounds hstep
      obtain ⟨a, ha, h⟩ := bind_eq_ok.1 hstep
      obtain ⟨a1, ha1, h⟩ := bind_eq_ok.1 h
      cases h
      have hwfa := hwf1 _ _ (getMut_eq_ok ha).2
      obtain ⟨hread, hcut⟩ := readScalar_writeScalar hbo hwfa ha1
      obtain ⟨hpos, -, -, -, a2, hmut, -⟩ := writeScalar_cases hbo ha1
      have hsize := (writeScalar_written hbo hwfa ha1).size_eq
      have hin := le_of_getBytesMut hmut
      obtain ⟨a', ha', hsame⟩ := hrun3.reads_noCut hbo hwf2 hpos hno
        (by rw [get_set, if_pos rfl]) (by rw [hsize]; exact hin) hcut
      exact ⟨a', ha', hsame.trans hread⟩
  · obtain ⟨a', ha', hscalar, hbytes⟩ := hrun.reads hbo hwf hn hspares ha hin
    exact ⟨a', ha', hscalar, hbytes true, hbytes false⟩

theorem Sample.memory_wf : Sample.memory.WF Sample.cx := by
  intro id a ha
  rw [Memory.get, Sample.memory] at ha
  dsimp only at ha
  split at ha
  · rename_i b hb
    cases ha
    split at hb
    · cases hb
      exact Sample.source_wf
    · split at hb
      · cases hb
        exact Sample.target_wf
      · cases hb
  · cases ha

/-- A pointer is read back after bytes have been written beside it. -/
theorem memory_reads_back_pointer : ∃ mem', Run Sample.cx Sample.memory
      [.writeScalar ⟨1, 3, ()⟩ (.scalar (.ptr ⟨7, 5, ()⟩)) 2, .writeBytes ⟨1, 5, ()⟩ [1, 2]] mem' ∧
    ∃ a', mem'.get 1 = .ok a' ∧ a'.readScalar Sample.cx 3 2 = .ok (.scalar (.ptr ⟨7, 5, ()⟩)) := by
  have hin1 : (Access.writeScalar ⟨1, 3, ()⟩ (.scalar (.ptr ⟨7, 5, ()⟩)) 2).InBounds
      Sample.memory := by
    rintro a ⟨⟩
    decide
  obtain ⟨mem1, hstep1⟩ : ∃ mem1, (Access.writeScalar ⟨1, 3, ()⟩ (.scalar (.ptr ⟨7, 5, ()⟩)) 2).step
      Sample.cx Sample.memory = .ok mem1 := ⟨_, rfl⟩
  have hin2 : (Access.writeBytes (⟨1, 5, ()⟩ : Pointer Unit) [1, 2]).InBounds mem1 := by
    cases hstep1
    rintro a ⟨⟩
    decide
  obtain ⟨mem2, hstep2⟩ : ∃ mem2, (Access.writeBytes (⟨1, 5, ()⟩ : Pointer Unit) [1, 2]).step
      Sample.cx mem1 = .ok mem2 := by
    cases hstep1
    exact ⟨_, rfl⟩
  have hrun := Run.cons hin1 hstep1 (.cons hin2 hstep2 .nil)
  refine ⟨mem2, hrun, ?_⟩
  refine (memory_reads_back Sample.cx ByteOrder.reference_lawful _ _ _ Sample.memory_wf hrun).2.1
    [] ⟨1, 3, ()⟩ _ 2 _ rfl ?_
  rintro op (_ | ⟨_, ⟨⟩⟩) ⟨-, ho⟩
  exact absurd ho (by decide)

end Tortis.Interpret

/-! ## Memory that is overwritten with undefined values -/

namespace Tortis.Interpret

open Allocation InterpResult

variable {Tag : Type} {cx : InterpCx}

namespace Allocation

variable {a a' : Allocation Tag} {off size p n : Nat}

/-- A range cuts a relocation: it has bytes in the range and outside of it. -/
def Cuts (cx : InterpCx) (e : Nat × Tag × AllocId) (p n : Nat) : Prop :=
  Overlaps e.1 cx.pointerSize p n ∧ ¬ (p ≤ e.1 ∧ e.1 + cx.pointerSize ≤ p + n)

def Inside (cx : InterpCx) (e : Nat × Tag × AllocId) (off size : Nat) : Prop :=
  off ≤ e.1 ∧ e.1 + cx.pointerSize ≤ off + size

theorem noCut_iff : a.NoCut cx p n ↔ ∀ e ∈ a.relocations.data, ¬ Cuts cx e p n :=
  forall_congr' fun _ => forall_congr' fun _ => (not_and_not_right ..).symm

theorem readScalar_undef_iff (h : a.WF cx) (hn : 0 < n) (hin : p + n ≤ a.size)
    (hbit : ∀ i, p ≤ i → i < p + n → a.undefMask.bit i = false) :
    a.readScalar cx p n = .ok .undef ↔ a.NoCut cx p n := by
  constructor
  · intro hread
    obtain ⟨bytes, hbytes, -⟩ := bind_eq_ok.1 hread
    exact noCut_of_getBytes h hbytes
  · intro hcut
    have hfirst : a.undefMask.isRangeDefined p (p + n) = .ok (.error p) :=
      ((UndefMask.isRangeDefined_iff h.mask (by rw [h.maskLen]; exact hin)).2 p).2
        ⟨le_refl p, by omega, hbit p (le_refl p) (by omega), fun j hj hlt => by omega⟩
    have hdefined : a.checkDefined p n = .error (.error (.readUndefBytes p)) := by
      rw [checkDefined, hfirst]
      rfl
    rw [readScalar, getBytesWithUndefAndPtr_ok h hn hin hcut, ok_bind, hdefined]

/-- A part of a range that cuts no relocation lying partly outside of the range. -/
structure Part (cx : InterpCx) (a : Allocation Tag) (off size p n : Nat) : Prop where
  pos : 0 < n
  start : off ≤ p
  stop : p + n ≤ off + size
  outer : ∀ e ∈ a.relocations.data, ¬ Inside cx e off size → ¬ Cuts cx e p n

/-- After a write of an undefined value, a part of its range reads as undefined when it cuts none of
the relocations that are still there. -/
theorem writeScalar_undef_reads (h : a.WF cx) (hin : off + size ≤ a.size) :
    ∃ a', a.writeScalar cx off .undef size = .ok a' ∧ ∀ p n, Part cx a off size p n →
      (a'.readScalar cx p n = .ok .undef ↔
        ∀ e ∈ a.relocations.data, Inside cx e off size → ¬ Cuts cx e p n) := by
  obtain ⟨m, hmark, hlen, hm, hbit⟩ := markDefinedness_spec h hin false
  refine ⟨{ a with undefMask := m }, by simp [writeScalar, hmark], fun p n hpart => ?_⟩
  have hwf : WF cx { a with undefMask := m } := ⟨h.bytes, hlen, hm, h.apart, h.inside, h.small⟩
  have hstart := hpart.start
  have hstop := hpart.stop
  refine (readScalar_undef_iff hwf hpart.pos (hstop.trans hin) fun i h1 h2 => ?_).trans ?_
  · exact (hbit i).trans (if_pos ⟨by omega, by omega⟩)
  · rw [noCut_iff]
    refine ⟨fun hno e he _ => hno e he, fun hno e he => ?_⟩
    by_cases hinside : Inside cx e off size
    · exact hno e he hinside
    · exact hpart.outer e he hinside

/-- Every part of the range reads as undefined exactly when no relocation is inside of the range, or
pointers have one byte. -/
theorem writeScalar_undef_iff (h : a.WF cx) (hin : off + size ≤ a.size) :
    ∃ a', a.writeScalar cx off .undef size = .ok a' ∧
      ((∀ p n, Part cx a off size p n → a'.readScalar cx p n = .ok .undef) ↔
        cx.pointerSize = 1 ∨ ∀ e ∈ a.relocations.data, ¬ Inside cx e off size) := by
  have hps := cx.pointerSize_pos
  obtain ⟨a', hrun, hreads⟩ := writeScalar_undef_reads h hin
  refine ⟨a', hrun, fun hall => ?_, fun hcond p n hpart => ?_⟩
  · by_contra hcond
    rw [not_or] at hcond
    obtain ⟨hne, hex⟩ := hcond
    obtain ⟨e, he, hinside⟩ : ∃ e ∈ a.relocations.data, Inside cx e off size := by
      simpa using hex
    have hinside' := hinside
    rw [Inside] at hinside'
    -- the first byte of the pointer, which no other relocation covers
    have hpart : Part cx a off size e.1 1 := by
      refine ⟨Nat.one_pos, hinside'.1, by omega, fun e' he' hout ⟨ho, hcut⟩ => ?_⟩
      rw [Overlaps] at ho
      rcases h.apart_of_mem he' he with rfl | hlt | hlt
      · exact hout hinside
      · omega
      · omega
    refine (hreads e.1 1 hpart).1 (hall e.1 1 hpart) e he hinside ⟨?_, ?_⟩
    · exact ⟨by omega, by omega⟩
    · omega
  · rw [hreads p n hpart]
    rintro e he hinside ⟨ho, hcut⟩
    rw [Overlaps] at ho
    rcases hcond with hone | hnone
    · omega
    · exact hnone e he hinside

end Allocation

/-- In every state that a run of accesses reaches: after a write of an undefined value a part of its
range reads as undefined when it cuts no relocation that was inside of the range, and all parts do
when there was none. -/
theorem Run.writeScalar_undef {mem mem' : Memory Tag} {ops : List (Access Tag)}
    (hbo : cx.byteOrder.Lawful) (hwf : mem.WF cx) (hrun : Run cx mem ops mem') {id : AllocId}
    {a : Allocation Tag} (ha : mem'.get id = .ok a) {off size : Nat} (hin : off + size ≤ a.size) :
    ∃ a', a.writeScalar cx off .undef size = .ok a' ∧
      (∀ p n, Part cx a off size p n → (a'.readScalar cx p n = .ok .undef ↔
        ∀ e ∈ a.relocations.data, Inside cx e off size → ¬ Cuts cx e p n)) ∧
      ((∀ p n, Part cx a off size p n → a'.readScalar cx p n = .ok .undef) ↔
        cx.pointerSize = 1 ∨ ∀ e ∈ a.relocations.data, ¬ Inside cx e off size) := by
  have hwfa := hrun.wf hbo hwf id a ha
  obtain ⟨a', hwrite, hreads⟩ := writeScalar_undef_reads hwfa hin
  obtain ⟨a'', hwrite', hall⟩ := writeScalar_undef_iff hwfa hin
  obtain rfl : a' = a'' := Except.ok.inj (hwrite.symm.trans hwrite')
  exact ⟨a', hwrite, hreads, hall⟩

/-- Four bytes over a pointer: its second half is in the range that is overwritten. -/
theorem Run.writeScalar_undef_target :
    ∃ a', Sample.target.writeScalar Sample.cx 2 .undef 4 = .ok a' ∧
      ∀ p n, Part Sample.cx Sample.target 2 4 p n → a'.readScalar Sample.cx p n = .ok .undef := by
  obtain ⟨a', hwrite, -, hall⟩ := Run.writeScalar_undef
    ByteOrder.reference_lawful Sample.memory_wf .nil (rfl : Sample.memory.get 1 = _)
    (show 2 + 4 ≤ Sample.target.size by decide)
  exact ⟨a', hwrite, hall.2 (.inr (by unfold Inside; decide))⟩

/-- A pointer is written to fresh memory and overwritten with an undefined value: its first byte
cannot be read, where that of memory that was never written is undefined. -/
theorem Allocation.readScalar_half_of_undef :
    (do
      let a : Allocation Unit ← undef 2
      let a ← a.writeScalar Sample.cx 0 (.scalar (.ptr ⟨7, 0, ()⟩)) 2
      let a ← a.writeScalar Sample.cx 0 .undef 2
      a.readScalar Sample.cx 0 1 : InterpResult _) = .error (.error .readPointerAsBytes) ∧
    (do
      let a : Allocation Unit ← undef 2
      a.readScalar Sample.cx 0 1 : InterpResult _) = .ok .undef := by
  decide

end Tortis.Interpret
