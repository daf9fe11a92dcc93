import Tortis.Interpret.Memory

/-!
# Copies between overlapping ranges

`Memory::copy` between two ranges of one allocation that overlap. The bytes are moved with
`ptr::copy`, and the relocations are saved before the destination is prepared; the definedness of
the source is read after that, when the overlap has been marked as defined and the bytes of
relocations that were cut at the border of the destination as undefined. `copy_moves_iff` says when
the copy is a `memmove` all the same.
-/

namespace Tortis.Interpret

open Allocation List Sample

variable {Tag : Type}

def Memory.copy (cx : InterpCx) (mem : Memory Tag) (src dest : Pointer Tag) (size : Nat)
    (nonoverlapping : Bool) : InterpResult (Memory Tag) :=
  mem.copyRepeatedly cx src dest size 1 nonoverlapping

namespace Allocation

/-- One range of an allocation has what another range of it had before: the bytes, the definedness
and the relocations. -/
structure Moved (cx : InterpCx) (a a' : Allocation Tag) (src dest size : Nat) : Prop where
  bytes : ∀ j < size, a'.bytes[dest + j]? = a.bytes[src + j]?
  defined : ∀ j < size, a'.undefMask.bit (dest + j) = a.undefMask.bit (src + j)
  relocations : ∀ e : Nat × Tag × AllocId, Overlaps e.1 cx.pointerSize dest size →
    (e ∈ a'.relocations.data ↔
      ∃ j < size, e.1 = dest + j ∧ (src + j, e.2) ∈ a.relocations.data)

/-- Preparing the destination leaves the definedness of the source as it is. -/
structure Undisturbed (cx : InterpCx) (a : Allocation Tag) (src dest size : Nat) : Prop where
  /-- What is in both ranges is defined. -/
  overlap : ∀ i, src ≤ i → i < src + size → dest ≤ i → i < dest + size →
    a.undefMask.bit i = true
  /-- The bytes outside of the destination of a pointer that is cut at its border are undefined. -/
  cut : ∀ i, src ≤ i → i < src + size → ¬ (dest ≤ i ∧ i < dest + size) →
    ∀ e ∈ a.relocations.data, Overlaps e.1 cx.pointerSize dest size → e.1 ≤ i →
      i < e.1 + cx.pointerSize → a.undefMask.bit i = false

variable {cx : InterpCx} {a a₁ : Allocation Tag} {src dest size : Nat}

theorem Cleared.undisturbed_iff (hc : Cleared cx a a₁ dest size) :
    (∀ j < size, a₁.undefMask.bit (src + j) = a.undefMask.bit (src + j)) ↔
      Undisturbed cx a src dest size := by
  constructor
  · intro h
    have hbit : ∀ i, src ≤ i → i < src + size → a₁.undefMask.bit i = a.undefMask.bit i := by
      intro i h1 h2
      have := h (i - src) (by omega)
      rwa [Nat.add_sub_cancel' h1] at this
    refine ⟨fun i h1 h2 h3 h4 => ?_, fun i h1 h2 hi e he ho h3 h4 => ?_⟩
    · rw [← hbit i h1 h2, hc.defined i h3 h4]
    · rw [← hbit i h1 h2, hc.clobbered i hi e he ho h3 h4]
  · intro h j hj
    by_cases hi : dest ≤ src + j ∧ src + j < dest + size
    · rw [hc.defined _ hi.1 hi.2, h.overlap _ (by omega) (by omega) hi.1 hi.2]
    · by_cases hcov : ∃ e ∈ a.relocations.data, Overlaps e.1 cx.pointerSize dest size ∧
          e.1 ≤ src + j ∧ src + j < e.1 + cx.pointerSize
      · obtain ⟨e, he, ho, h1, h2⟩ := hcov
        rw [hc.clobbered _ hi e he ho h1 h2, h.cut _ (by omega) (by omega) hi e he ho h1 h2]
      · exact hc.outside _ hi fun e he ho h1 => hcov ⟨e, he, ho, h1⟩

end Allocation

theorem Memory.copyBytes_move {src dest : Pointer Tag} {size : Nat} {a : Allocation Tag}
    {srcBytes bytes : List UInt8} (hid : src.allocId = dest.allocId)
    (hin : src.offset + size ≤ a.bytes.length) (hin' : dest.offset + size ≤ a.bytes.length)
    (h : copyBytes src dest size 1 false srcBytes a = .ok { a with bytes }) :
    ∀ j < size, bytes[dest.offset + j]? = a.bytes[src.offset + j]? := by
  have heq : copyBytes src dest size 1 false srcBytes a =
      .ok (a.setBytes dest.offset ((a.bytes.drop src.offset).take size)) := by
    rw [copyBytes, if_pos hid, if_neg fun herr => Bool.false_ne_true herr.1]
    rfl
  have hbytes : bytes = (a.setBytes dest.offset ((a.bytes.drop src.offset).take size)).bytes :=
    congrArg Allocation.bytes (Except.ok.inj (h.symm.trans heq))
  have hlen : ((a.bytes.drop src.offset).take size).length = size := by
    rw [length_take, length_drop]
    omega
  intro j hj
  rw [hbytes, getElem?_setBytes (by omega), hlen, if_pos (by omega), Nat.add_sub_cancel_left,
    getElem?_take_of_lt hj, getElem?_drop]

/-- A copy between overlapping ranges of one allocation returns, and it is a `memmove` exactly when
the source is undisturbed. -/
theorem Memory.copy_moves_iff {cx : InterpCx} {mem : Memory Tag} {src dest : Pointer Tag}
    {size : Nat} {a : Allocation Tag} (hid : src.allocId = dest.allocId)
    (ha : mem.getMut dest.allocId = .ok a) (hwf : a.WF cx)
    (hin : src.offset + size ≤ a.size) (hin' : dest.offset + size ≤ a.size)
    (hover : Allocation.Overlaps src.offset size dest.offset size)
    (hcut : a.NoCut cx src.offset size) :
    ∃ a', mem.copy cx src dest size false = .ok (mem.set dest.allocId a') ∧
      (Moved cx a a' src.offset dest.offset size ↔
        Undisturbed cx a src.offset dest.offset size) := by
  have hover' := hover
  rw [Allocation.Overlaps] at hover'
  have hsrc : mem.get src.allocId = .ok a := hid ▸ (getMut_eq_ok ha).2
  obtain ⟨a₁, bytes, m, elements, h, hrun⟩ := copyRepeatedly_parts hsrc ha hwf hwf (by omega)
    Nat.one_pos hin (show dest.offset + size * 1 ≤ a.size by omega) hcut
    (fun _ (herr : OverlapError src dest size false) => Bool.false_ne_true herr.1)
  have hc := h.cleared
  have hmask : ∀ j < size, m.bit (dest.offset + j) = a₁.undefMask.bit (src.offset + j) := by
    intro j hj
    have := h.mask_copied 0 Nat.one_pos j hj
    rwa [if_pos hid, zero_mul, add_zero] at this
  rw [mul_one] at hc
  refine ⟨_, hrun, fun hmoved => hc.undisturbed_iff.1 fun j hj => ?_, fun hun => ⟨?_, ?_, ?_⟩⟩
  · rw [← hmask j hj]
    exact hmoved.defined j hj
  · have hmove := copyBytes_move hid (by rw [hc.bytes, hwf.bytes]; exact hin)
      (by rw [hc.bytes, hwf.bytes]; exact hin') h.bytes_eq
    rwa [hc.bytes] at hmove
  · exact fun j hj => (hmask j hj).trans (hc.undisturbed_iff.2 hun j hj)
  · intro e ho
    rw [h.cleared.mem_insertPresorted h.inside e, h.mem_elements, mul_one]
    constructor
    · rintro (⟨c, hc', e0, he0, ho0, rfl⟩ | ⟨-, hno⟩)
      · have hinside := hcut e0 he0 ho0
        have hps := cx.pointerSize_pos
        obtain rfl : c = 0 := by omega
        refine ⟨e0.1 - src.offset, by omega, by dsimp only; omega, ?_⟩
        rwa [Nat.add_sub_cancel' hinside.1]
      · exact absurd ho hno
    · rintro ⟨j, hj, he, hmem⟩
      have hps := cx.pointerSize_pos
      refine .inl ⟨0, Nat.one_pos, _, hmem, ⟨by dsimp only; omega, by dsimp only; omega⟩,
        Prod.ext ?_ rfl⟩
      omega

/-- Three bytes without pointers, moved by one. -/
theorem Memory.copy_moves_iff_step : ∃ a',
    memory.copy cx ⟨1, 4, ()⟩ ⟨1, 5, ()⟩ 3 false = .ok (memory.set 1 a') ∧
      (Moved cx Sample.target a' 4 5 3 ↔ Undisturbed cx Sample.target 4 5 3) :=
  Memory.copy_moves_iff rfl rfl target_wf (by decide) (by decide) (by decide)
    (by unfold NoCut; decide)

/-- A pointer that is moved by its size, with the byte before it and the byte after it: the source
holds a pointer, and what is read in its place in the destination is undefined. -/
theorem Memory.copy_pointer_lost :
    Sample.target.NoCut cx 0 4 ∧ Allocation.Overlaps 0 4 2 4 ∧
      Sample.target.readScalar cx 1 2 = .ok (.scalar (.ptr ⟨8, 2313, ()⟩)) ∧
      (do
        let mem ← memory.copy cx ⟨1, 0, ()⟩ ⟨1, 2, ()⟩ 4 false
        (← mem.get 1).readScalar cx 3 2) = .ok .undef := by
  refine ⟨by unfold NoCut; decide, by decide, by decide⟩

end Tortis.Interpret
