import Tortis.Interpret.Allocation

/-!
# Reads and writes of allocations

What a write leaves alone (`Written`), and that reads depend only on the bytes, the definedness and
the relocations of their range (`readScalar_congr`, `getBytesInternal_congr`).
-/

namespace Tortis.Interpret

open List Outcome Scalar

/-! ## Results -/

namespace InterpResult

variable {α β : Type}

@[simp] theorem ok_bind (a : α) (f : α → InterpResult β) : (Except.ok a >>= f) = f a := rfl

@[simp] theorem lift_ok (a : α) : (liftM (Except.ok a : Outcome α) : InterpResult α) = .ok a := rfl

theorem bind_eq_ok {x : InterpResult α} {f : α → InterpResult β} {b : β} :
    (x >>= f) = .ok b ↔ ∃ a, x = .ok a ∧ f a = .ok b := by
  cases x with
  | error e => exact ⟨nofun, nofun⟩
  | ok a => exact ⟨fun h => ⟨a, rfl, h⟩, fun ⟨_, ha, h⟩ => Except.ok.inj ha ▸ h⟩

theorem lift_eq_ok {x : Outcome α} {a : α} : (liftM x : InterpResult α) = .ok a ↔ x = .ok a := by
  cases x with
  | error e => exact ⟨nofun, nofun⟩
  | ok b => exact ⟨fun h => Except.ok.inj h ▸ rfl, fun h => Except.ok.inj h ▸ rfl⟩

end InterpResult

variable {Tag : Type} {cx : InterpCx}

namespace Allocation

variable {a a' : Allocation Tag} {off size p n : Nat}

/-! ## Reads -/

/-- Two allocations agree on a range: on its bytes, on which of them are defined, and on the
relocations that overlap with it. -/
structure Agree (cx : InterpCx) (a a' : Allocation Tag) (p n : Nat) : Prop where
  size_eq : a'.size = a.size
  bytes : ∀ i, p ≤ i → i < p + n → a'.bytes[i]? = a.bytes[i]?
  defined : ∀ i, p ≤ i → i < p + n → a'.undefMask.bit i = a.undefMask.bit i
  relocations : ∀ e : Nat × Tag × AllocId, Overlaps e.1 cx.pointerSize p n →
    (e ∈ a'.relocations.data ↔ e ∈ a.relocations.data)

theorem checkRelocations_eq (h : a.WF cx) : a.checkRelocations cx off size =
    if ∀ e ∈ a.relocations.data, ¬ Overlaps e.1 cx.pointerSize off size then .ok ()
    else .error (.error .readPointerAsBytes) := by
  rw [checkRelocations, getRelocations_eq h]
  simp only [InterpResult.lift_ok, InterpResult.ok_bind, List.isEmpty_iff,
    List.filter_eq_nil_iff, decide_eq_true_eq]

theorem checkRelocations_congr (h : a.WF cx) (h' : a'.WF cx)
    (hsame : ∀ e : Nat × Tag × AllocId, Overlaps e.1 cx.pointerSize off size →
      (e ∈ a'.relocations.data ↔ e ∈ a.relocations.data)) :
    a'.checkRelocations cx off size = a.checkRelocations cx off size := by
  rw [checkRelocations_eq h, checkRelocations_eq h']
  congr 1
  rw [eq_iff_iff]
  exact ⟨fun hno e he ho => hno e ((hsame e ho).2 he) ho,
    fun hno e he ho => hno e ((hsame e ho).1 he) ho⟩

theorem checkDefined_congr (h : a.WF cx) (h' : a'.WF cx) (hag : Agree cx a a' p n)
    (hin : p + n ≤ a.size) : a'.checkDefined p n = a.checkDefined p n := by
  have hlen := h.maskLen
  have hlen' := h'.maskLen
  have hsize := hag.size_eq
  rw [checkDefined, checkDefined, UndefMask.isRangeDefined_congr h.mask h'.mask (by omega)
    (by omega) hag.defined]

theorem checkRelocationEdges_congr (h : a.WF cx) (h' : a'.WF cx) (hag : Agree cx a a' p n)
    (hn : 0 < n) : a'.checkRelocationEdges cx p n = a.checkRelocationEdges cx p n := by
  have hstart : a'.checkRelocations cx p 0 = a.checkRelocations cx p 0 := by
    refine checkRelocations_congr h h' fun e ho => hag.relocations e ?_
    rw [Overlaps] at ho ⊢
    omega
  have hstop : a'.checkRelocations cx (p + n) 0 = a.checkRelocations cx (p + n) 0 := by
    refine checkRelocations_congr h h' fun e ho => hag.relocations e ?_
    rw [Overlaps] at ho ⊢
    omega
  rw [checkRelocationEdges, checkRelocationEdges, hstart, Allocation.offset]
  split
  · rfl
  · rw [InterpResult.ok_bind, InterpResult.ok_bind, hstop]

theorem take_drop_congr {l l' : List UInt8} (h : ∀ i, p ≤ i → i < p + n → l'[i]? = l[i]?) :
    (l'.drop p).take n = (l.drop p).take n := by
  refine ext_getElem? fun i => ?_
  rw [getElem?_take, getElem?_take]
  by_cases hi : i < n
  · rw [if_pos hi, if_pos hi, getElem?_drop, getElem?_drop, h _ (by omega) (by omega)]
  · rw [if_neg hi, if_neg hi]

theorem getBytesInternal_congr (h : a.WF cx) (h' : a'.WF cx) (hag : Agree cx a a' p n)
    (hn : 0 < n) (hin : p + n ≤ a.size) (check : Bool) :
    a'.getBytesInternal cx p n check = a.getBytesInternal cx p n check := by
  rw [getBytesInternal, getBytesInternal, checkBounds, checkBounds, hag.size_eq,
    checkDefined_congr h h' hag hin, checkRelocations_congr h h' hag.relocations,
    checkRelocationEdges_congr h h' hag hn, take_drop_congr hag.bytes]

theorem get_congr (h : a.WF cx) (h' : a'.WF cx) (hag : Agree cx a a' p n) (hn : 0 < n) :
    a'.relocations.get p = a.relocations.get p := by
  have hps := cx.pointerSize_pos
  have hp : ∀ v, a'.relocations.get p = some v ↔ a.relocations.get p = some v := by
    intro v
    rw [h.sorted.get_eq_some, h'.sorted.get_eq_some]
    refine hag.relocations (p, v) ?_
    rw [Overlaps]
    omega
  exact Option.ext hp

theorem readScalar_congr (h : a.WF cx) (h' : a'.WF cx) (hag : Agree cx a a' p n) (hn : 0 < n)
    (hin : p + n ≤ a.size) : a'.readScalar cx p n = a.readScalar cx p n := by
  rw [readScalar, readScalar, getBytesWithUndefAndPtr, getBytesWithUndefAndPtr,
    getBytesInternal_congr h h' hag hn hin, checkDefined_congr h h' hag hin,
    checkRelocations_congr h h' hag.relocations, get_congr h h' hag hn]

/-! ## Writes -/

/-- What a write to a range leaves alone: the bytes outside of the range, their definedness unless a
relocation that covers them is gone, and the relocations that do not overlap with the range. -/
structure Written (cx : InterpCx) (a a' : Allocation Tag) (off size : Nat) : Prop where
  wf : a'.WF cx
  size_eq : a'.size = a.size
  isMutable : a'.isMutable = a.isMutable
  bytes : ∀ i, ¬ (off ≤ i ∧ i < off + size) → a'.bytes[i]? = a.bytes[i]?
  defined : ∀ i, ¬ (off ≤ i ∧ i < off + size) → (∀ e ∈ a.relocations.data,
    e.1 ≤ i → i < e.1 + cx.pointerSize → e ∈ a'.relocations.data) →
    a'.undefMask.bit i = a.undefMask.bit i
  new : ∀ e ∈ a'.relocations.data,
    e ∈ a.relocations.data ∨ (off ≤ e.1 ∧ e.1 + cx.pointerSize ≤ off + size)
  kept : ∀ e ∈ a.relocations.data, ¬ Overlaps e.1 cx.pointerSize off size →
    e ∈ a'.relocations.data

theorem Written.agree (h : Written cx a a' off size) (hno : ¬ Overlaps off size p n)
    (hgone : ∀ e ∈ a.relocations.data, e ∉ a'.relocations.data →
      ¬ Overlaps e.1 cx.pointerSize p n) : Agree cx a a' p n := by
  have hout : ∀ i, p ≤ i → i < p + n → ¬ (off ≤ i ∧ i < off + size) := by
    rintro i h1 h2 ⟨h3, h4⟩
    exact hno ⟨by omega, by omega⟩
  refine ⟨h.size_eq, fun i h1 h2 => h.bytes i (hout i h1 h2), fun i h1 h2 => ?_, fun e ho => ?_⟩
  · refine h.defined i (hout i h1 h2) fun e he h3 h4 => ?_
    by_contra hgone'
    exact hgone e he hgone' ⟨by omega, by omega⟩
  · constructor
    · intro he
      rcases h.new e he with he | ⟨h1, h2⟩
      · exact he
      · rw [Overlaps] at ho
        exact absurd ⟨by omega, by omega⟩ hno
    · intro he
      by_contra hgone'
      exact hgone e he hgone' ho

theorem getElem?_setBytes {src : List UInt8} (h : off + src.length ≤ a.bytes.length) (i : Nat) :
    (a.setBytes off src).bytes[i]? =
      if off ≤ i ∧ i < off + src.length then src[i - off]? else a.bytes[i]? := by
  have hlen : (a.bytes.take off).length = off := by
    rw [length_take]
    omega
  simp only [setBytes]
  by_cases h1 : i < off
  · rw [append_assoc, getElem?_append_left (by omega), getElem?_take_of_lt h1, if_neg (by omega)]
  · rw [append_assoc, getElem?_append_right (by omega), hlen]
    by_cases h2 : i < off + src.length
    · rw [getElem?_append_left (by omega), if_pos (by omega)]
    · rw [getElem?_append_right (by omega), getElem?_drop, if_neg (by omega)]
      congr 1
      omega

theorem length_setBytes {src : List UInt8} (h : off + src.length ≤ a.bytes.length) :
    (a.setBytes off src).bytes.length = a.bytes.length := by
  simp only [setBytes, length_append, length_take, length_drop]
  omega

section
variable {a₁ : Allocation Tag} {elements : List (Nat × Tag × AllocId)}

theorem Cleared.insertPresorted_eq (hc : Cleared cx a a₁ off size)
    (hel : ∀ e ∈ elements, off ≤ e.1 ∧ e.1 + cx.pointerSize ≤ off + size) :
    (a₁.relocations.insertPresorted elements).data =
      a₁.relocations.data.filter (·.1 < off) ++ elements ++
        a₁.relocations.data.filter (off + size ≤ ·.1) := by
  have hps := cx.pointerSize_pos
  rw [hc.wf.sorted.insertPresorted_eq (b := off + size) (a := off) ?_ ?_ (Nat.le_add_right _ _)]
  · exact fun e he => ⟨(hel e he).1, by have := (hel e he).2; omega⟩
  · intro e he
    rw [hc.relocations, mem_filter, decide_eq_true_eq, Overlaps] at he
    omega

section
variable (hc : Cleared cx a a₁ off size)
include hc

theorem Cleared.mem_insertPresorted
    (hel : ∀ e ∈ elements, off ≤ e.1 ∧ e.1 + cx.pointerSize ≤ off + size)
    (e : Nat × Tag × AllocId) : e ∈ (a₁.relocations.insertPresorted elements).data ↔
      e ∈ elements ∨ (e ∈ a.relocations.data ∧ ¬ Overlaps e.1 cx.pointerSize off size) := by
  have hps := cx.pointerSize_pos
  rw [hc.insertPresorted_eq hel]
  simp only [mem_append, mem_filter, decide_eq_true_eq, hc.relocations]
  constructor
  · rintro ((⟨⟨he, ho⟩, -⟩ | he) | ⟨⟨he, ho⟩, -⟩)
    · exact .inr ⟨he, ho⟩
    · exact .inl he
    · exact .inr ⟨he, ho⟩
  · rintro (he | ⟨he, ho⟩)
    · exact .inl (.inr he)
    · by_cases hlt : e.1 < off
      · exact .inl (.inl ⟨⟨he, ho⟩, hlt⟩)
      · refine .inr ⟨⟨he, ho⟩, ?_⟩
        rw [Overlaps] at ho
        omega

theorem Cleared.written (h : a.WF cx) (hin : off + size ≤ a.size)
    {bytes : List UInt8} (hlength : bytes.length = a.size)
    (hbytes : ∀ i, ¬ (off ≤ i ∧ i < off + size) → bytes[i]? = a.bytes[i]?)
    {m : UndefMask} (hlen : m.len = a.size) (hm : m.WF)
    (hbit : ∀ i, ¬ (off ≤ i ∧ i < off + size) → m.bit i = a₁.undefMask.bit i)
    (hel : ∀ e ∈ elements, off ≤ e.1 ∧ e.1 + cx.pointerSize ≤ off + size)
    (hapart : elements.Pairwise fun x y => x.1 + cx.pointerSize ≤ y.1) :
    Written cx a { a₁ with
      bytes, undefMask := m, relocations := a₁.relocations.insertPresorted elements } off size := by
  have hnone : ∀ e ∈ a₁.relocations.data, ¬ Overlaps e.1 cx.pointerSize off size := by
    intro e he
    rw [hc.relocations, mem_filter, decide_eq_true_eq] at he
    exact he.2
  have hmem := hc.mem_insertPresorted hel
  refine ⟨⟨?_, ?_, hm, ?_, ?_, ?_⟩, hc.size_eq, hc.isMutable, hbytes, fun i hi hcov => ?_,
    fun e he => ?_, fun e he ho => ?_⟩
  · exact hlength.trans hc.size_eq.symm
  · exact hlen.trans hc.size_eq.symm
  · rw [hc.insertPresorted_eq hel]
    refine pairwise_append.2 ⟨pairwise_append.2 ⟨hc.wf.apart.filter _, hapart, ?_⟩,
      hc.wf.apart.filter _, ?_⟩
    · intro x hx y hy
      rw [mem_filter, decide_eq_true_eq] at hx
      have hx' := hnone x hx.1
      have hy' := hel y hy
      rw [Overlaps] at hx'
      omega
    · intro x hx y hy
      rw [mem_filter, decide_eq_true_eq] at hy
      rcases mem_append.1 hx with hx | hx
      · rw [mem_filter, decide_eq_true_eq] at hx
        have hx' := hnone x hx.1
        rw [Overlaps] at hx'
        omega
      · have hx' := hel x hx
        omega
  · intro e he
    rcases (hmem e).1 he with he | ⟨he, -⟩
    · have := (hel e he).2
      have hsize := hc.size_eq
      dsimp only
      omega
    · have := h.inside e he
      have hsize := hc.size_eq
      dsimp only
      omega
  · rw [hc.size_eq]
    exact h.small
  · rw [hbit i hi]
    refine hc.outside i hi fun e he ho hi' => ?_
    -- a relocation that covers the byte is still there, so it is a new one, inside of the range
    rcases (hmem e).1 (hcov e he hi'.1 hi'.2) with he' | ⟨-, ho'⟩
    · have := hel e he'
      omega
    · exact ho' ho
  · rcases (hmem e).1 he with he | ⟨he, -⟩
    · exact .inr (hel e he)
    · exact .inl he
  · exact (hmem e).2 (.inr ⟨he, ho⟩)

theorem Cleared.written_setBytes (h : a.WF cx)
    (hin : off + size ≤ a.size) {src : List UInt8} (hsrc : src.length = size)
    (hel : ∀ e ∈ elements, off ≤ e.1 ∧ e.1 + cx.pointerSize ≤ off + size)
    (hapart : elements.Pairwise fun x y => x.1 + cx.pointerSize ≤ y.1) :
    Written cx a { a₁.setBytes off src with
      relocations := a₁.relocations.insertPresorted elements } off size := by
  have hroom : off + src.length ≤ a₁.bytes.length := by
    rw [hc.bytes, h.bytes, hsrc]
    exact hin
  refine hc.written h hin ?_ (fun i hi => ?_) (hc.wf.maskLen.trans hc.size_eq) hc.wf.mask
    (fun _ _ => rfl) hel hapart
  · rw [length_setBytes hroom, hc.bytes, h.bytes]
  · rw [getElem?_setBytes hroom, hsrc, if_neg hi, hc.bytes]

end

end

theorem writeBytes_spec (h : a.WF cx) {src : List UInt8} (hin : off + src.length ≤ a.size) :
    ∃ a', a.writeBytes cx off src = .ok a' ∧ Written cx a a' off src.length := by
  obtain ⟨a₁, hrun, hc⟩ := getBytesMut_spec h hin
  refine ⟨a₁.setBytes off src, by simp [writeBytes, hrun], ?_⟩
  exact hc.written_setBytes h hin rfl (forall_mem_nil _) List.Pairwise.nil

theorem writeScalar_undef_spec (h : a.WF cx) (hin : off + size ≤ a.size) :
    ∃ a', a.writeScalar cx off .undef size = .ok a' ∧ Written cx a a' off size := by
  obtain ⟨m, hmark, hlen, hm, hbit⟩ := markDefinedness_spec h hin false
  refine ⟨{ a with undefMask := m }, by simp [writeScalar, hmark], ?_⟩
  refine ⟨⟨h.bytes, hlen, hm, h.apart, h.inside, h.small⟩, rfl, rfl, fun _ _ => rfl,
    fun i hi _ => ?_, fun e he => .inl he, fun e he _ => he⟩
  exact (hbit i).trans (if_neg hi)

end Allocation

/-! ## The encoding of integers -/

/-- The bytes of an integer, from the least significant one. -/
def leBytes : (nbytes data : Nat) → List UInt8
  | 0, _ => []
  | nbytes + 1, data => UInt8.ofNat (data % 256) :: leBytes nbytes (data / 256)

/-- The integer with the given bytes, from the least significant one. -/
def leValue : List UInt8 → Nat
  | [] => 0
  | b :: bytes => b.toNat + 256 * leValue bytes

/-- The bytes of an integer in the order of a target. -/
def encode : Endian → (nbytes data : Nat) → List UInt8
  | .little, nbytes, data => leBytes nbytes data
  | .big, nbytes, data => (leBytes nbytes data).reverse

/-- The integer with the given bytes in the order of a target. -/
def decode : Endian → List UInt8 → Nat
  | .little, bytes => leValue bytes
  | .big, bytes => leValue bytes.reverse

/-- What `byteorder` documents: integers of at most 16 bytes are written and read in the given order,
and the write of an integer that does not fit panics. -/
structure ByteOrder.Lawful (bo : ByteOrder) : Prop where
  write_eq : ∀ e data nbytes, 1 ≤ nbytes → nbytes ≤ 16 → data < 256 ^ nbytes →
    bo.writeUint128 e data nbytes = .ok (encode e nbytes data)
  write_panic : ∀ e data nbytes, ¬ (1 ≤ nbytes ∧ nbytes ≤ 16 ∧ data < 256 ^ nbytes) →
    ∃ msg, bo.writeUint128 e data nbytes = .error (.panic msg)
  read_eq : ∀ e bytes, 1 ≤ bytes.length → bytes.length ≤ 16 →
    bo.readUint128 e bytes = .ok (decode e bytes)

/-- Functions that do what `byteorder` documents. -/
def ByteOrder.reference : ByteOrder where
  writeUint128 e data nbytes :=
    if 1 ≤ nbytes ∧ nbytes ≤ 16 ∧ data < 256 ^ nbytes then .ok (encode e nbytes data)
    else .error (.panic "assertion failed: pack_size(n) <= nbytes && nbytes <= 16")
  readUint128 e bytes := .ok (decode e bytes)

theorem ByteOrder.reference_lawful : ByteOrder.reference.Lawful where
  write_eq _ _ _ h1 h2 h3 := if_pos ⟨h1, h2, h3⟩
  write_panic _ _ _ h := ⟨_, if_neg h⟩
  read_eq _ _ _ _ := rfl

theorem leBytes_length : ∀ (nbytes data : Nat), (leBytes nbytes data).length = nbytes
  | 0, _ => rfl
  | nbytes + 1, data => congrArg (· + 1) (leBytes_length nbytes (data / 256))

theorem leValue_leBytes : ∀ (nbytes data : Nat), leValue (leBytes nbytes data) = data % 256 ^ nbytes
  | 0, data => by rw [pow_zero, Nat.mod_one]; rfl
  | nbytes + 1, data => by
    have hbyte : (UInt8.ofNat (data % 256)).toNat = data % 256 := by
      exact Nat.mod_mod _ _
    rw [leBytes, leValue, leValue_leBytes nbytes, hbyte, Nat.pow_succ', Nat.mod_mul]

theorem encode_length (e : Endian) (nbytes data : Nat) : (encode e nbytes data).length = nbytes := by
  cases e with
  | little => exact leBytes_length nbytes data
  | big => rw [encode, length_reverse, leBytes_length]

theorem decode_encode (e : Endian) {nbytes data : Nat} (h : data < 256 ^ nbytes) :
    decode e (encode e nbytes data) = data := by
  cases e with
  | little => rw [encode, decode, leValue_leBytes, Nat.mod_eq_of_lt h]
  | big => rw [encode, decode, reverse_reverse, leValue_leBytes, Nat.mod_eq_of_lt h]

theorem ByteOrder.Lawful.of_write {bo : ByteOrder} (h : bo.Lawful) {e : Endian} {data nbytes : Nat}
    {bytes : List UInt8} (hw : bo.writeUint128 e data nbytes = .ok bytes) :
    1 ≤ nbytes ∧ nbytes ≤ 16 ∧ data < 256 ^ nbytes ∧ bytes = encode e nbytes data := by
  by_cases hfit : 1 ≤ nbytes ∧ nbytes ≤ 16 ∧ data < 256 ^ nbytes
  · rw [h.write_eq e data nbytes hfit.1 hfit.2.1 hfit.2.2] at hw
    exact ⟨hfit.1, hfit.2.1, hfit.2.2, (Except.ok.inj hw).symm⟩
  · obtain ⟨msg, hpanic⟩ := h.write_panic e data nbytes hfit
    rw [hpanic] at hw
    cases hw

/-! ## Scalars -/

def Scalar.bits : Scalar Tag → Nat
  | .raw data _ => data
  | .ptr p => p.offset

def Scalar.storedSize (cx : InterpCx) : Scalar Tag → Nat
  | .raw _ size => size
  | .ptr _ => cx.pointerSize

def Scalar.stored (off : Nat) : Scalar Tag → List (Nat × Tag × AllocId)
  | .raw _ _ => []
  | .ptr p => [(off, p.tag, p.allocId)]

namespace Allocation

variable {a a' : Allocation Tag} {off size : Nat} {val : Scalar Tag}

theorem le_of_getBytesMut (h : a.getBytesMut cx off size = .ok a') : off + size ≤ a.size := by
  obtain ⟨_, hbounds, -⟩ := bind_eq_ok.1 h
  rw [checkBounds, assert] at hbounds
  split at hbounds
  · rename_i hle
    exact of_decide_eq_true hle
  · cases hbounds

/-- A write of a scalar that returns has cleared the range and stored the scalar's bits and its
relocation. -/
theorem writeScalar_cases (hbo : cx.byteOrder.Lawful)
    (h : a.writeScalar cx off (.scalar val) size = .ok a') :
    1 ≤ size ∧ size ≤ 16 ∧ val.bits < 256 ^ size ∧ size = val.storedSize cx ∧
      ∃ a₁, a.getBytesMut cx off size = .ok a₁ ∧
        a' = { a₁.setBytes off (encode cx.endian size val.bits) with
          relocations := a₁.relocations.insertPresorted (val.stored off) } := by
  obtain ⟨r, hr, h⟩ := InterpResult.bind_eq_ok.1 h
  obtain ⟨a₁, ha1, h⟩ := InterpResult.bind_eq_ok.1 h
  obtain ⟨dst, hdst, h⟩ := InterpResult.bind_eq_ok.1 h
  rw [InterpResult.lift_eq_ok] at hr ha1 hdst
  cases val with
  | raw data s =>
    have hr' : size = s ∧ r = .ok data := by
      obtain ⟨_, hsize, hr⟩ := bind_eq_ok.1 hr
      obtain ⟨_, -, hr⟩ := bind_eq_ok.1 hr
      exact ⟨of_decide_eq_true (assert_eq_ok.1 hsize), (Except.ok.inj hr).symm⟩
    obtain ⟨hs, rfl⟩ := hr'
    obtain ⟨h1, h2, h3, rfl⟩ := hbo.of_write hdst
    exact ⟨h1, h2, h3, hs, a₁, ha1, (Except.ok.inj h).symm⟩
  | ptr p =>
    have hr' : size = cx.pointerSize ∧ r = .error p := by
      obtain ⟨_, hsize, hr⟩ := bind_eq_ok.1 hr
      exact ⟨of_decide_eq_true (assert_eq_ok.1 hsize), (Except.ok.inj hr).symm⟩
    obtain ⟨hs, rfl⟩ := hr'
    obtain ⟨h1, h2, h3, rfl⟩ := hbo.of_write hdst
    refine ⟨h1, h2, h3, hs, a₁, ha1, ?_⟩
    rw [stored, ← SortedMap.insert_eq_insertPresorted]
    exact (Except.ok.inj h).symm

theorem stored_inside (hsize : size = val.storedSize cx) :
    ∀ e ∈ val.stored off, off ≤ e.1 ∧ e.1 + cx.pointerSize ≤ off + size := by
  cases val with
  | raw data s => exact forall_mem_nil _
  | ptr p =>
    intro e he
    rw [stored, mem_singleton] at he
    rw [he, hsize, storedSize]
    exact ⟨le_rfl, le_rfl⟩

theorem stored_apart : (val.stored off).Pairwise fun x y => x.1 + cx.pointerSize ≤ y.1 := by
  cases val with
  | raw data s => exact List.Pairwise.nil
  | ptr p => exact pairwise_singleton _ _

theorem writeScalar_written (hbo : cx.byteOrder.Lawful) (h : a.WF cx)
    (hok : a.writeScalar cx off (.scalar val) size = .ok a') : Written cx a a' off size := by
  obtain ⟨-, -, -, hsize, a₁, hmut, rfl⟩ := writeScalar_cases hbo hok
  have hin := le_of_getBytesMut hmut
  obtain ⟨a2, hmut', hc⟩ := getBytesMut_spec h hin
  rw [hmut] at hmut'
  cases hmut'
  exact hc.written_setBytes h hin (encode_length _ _ _) (stored_inside hsize) stored_apart

def NoCut (cx : InterpCx) (a : Allocation Tag) (off size : Nat) : Prop :=
  ∀ e ∈ a.relocations.data, Overlaps e.1 cx.pointerSize off size →
    off ≤ e.1 ∧ e.1 + cx.pointerSize ≤ off + size

theorem checkRelocations_ok (h : a.WF cx)
    (hno : ∀ e ∈ a.relocations.data, ¬ Overlaps e.1 cx.pointerSize off size) :
    a.checkRelocations cx off size = .ok () := by
  rw [checkRelocations_eq h, if_pos hno]

theorem getBytesWithUndefAndPtr_ok (h : a.WF cx) (hsize : 0 < size) (hin : off + size ≤ a.size)
    (hcut : a.NoCut cx off size) :
    a.getBytesWithUndefAndPtr cx off size = .ok ((a.bytes.drop off).take size) := by
  have hstart : a.checkRelocations cx off 0 = .ok () := by
    refine checkRelocations_ok h fun e he ho => ?_
    rw [Overlaps] at ho
    have := hcut e he ⟨by omega, by omega⟩
    omega
  have hstop : a.checkRelocations cx (off + size) 0 = .ok () := by
    refine checkRelocations_ok h fun e he ho => ?_
    rw [Overlaps] at ho
    have := hcut e he ⟨by omega, by omega⟩
    omega
  have hsmall : ¬ off + size ≥ 2 ^ (8 * cx.pointerSize) := by
    have := h.small
    omega
  have hedges : a.checkRelocationEdges cx off size = .ok () := by
    rw [checkRelocationEdges, hstart, Allocation.offset, if_neg hsmall]
    exact hstop
  have hbounds : a.checkBounds off size = .ok () := by
    rw [checkBounds, assert, if_pos (decide_eq_true hin)]
  rw [getBytesWithUndefAndPtr, getBytesInternal, hbounds, hedges]
  rfl

theorem checkDefined_ok (h : a.WF cx) (hin : off + size ≤ a.size)
    (hdef : ∀ i, off ≤ i → i < off + size → a.undefMask.bit i = true) :
    a.checkDefined off size = .ok () := by
  have hlen := h.maskLen
  rw [checkDefined, UndefMask.isRangeDefined_eq_ok h.mask (by omega) hdef]
  rfl

theorem readScalar_writeScalar (hbo : cx.byteOrder.Lawful) (h : a.WF cx)
    (hok : a.writeScalar cx off (.scalar val) size = .ok a') :
    a'.readScalar cx off size = .ok (.scalar val) ∧ a'.NoCut cx off size := by
  have hw := writeScalar_written hbo h hok
  obtain ⟨hpos, hle, hfit, hsize, a₁, hmut, ha'⟩ := writeScalar_cases hbo hok
  have hin := le_of_getBytesMut hmut
  obtain ⟨a2, hmut', hc⟩ := getBytesMut_spec h hin
  rw [hmut] at hmut'
  cases hmut'
  have hmem : ∀ e, e ∈ a'.relocations.data ↔
      e ∈ val.stored off ∨ (e ∈ a.relocations.data ∧ ¬ Overlaps e.1 cx.pointerSize off size) := by
    intro e
    rw [ha']
    exact hc.mem_insertPresorted (stored_inside hsize) e
  have hcut : a'.NoCut cx off size := by
    intro e he ho
    rcases (hmem e).1 he with he | ⟨-, ho'⟩
    · exact stored_inside hsize e he
    · exact absurd ho ho'
  refine ⟨?_, hcut⟩
  have hin' : off + size ≤ a'.size := by
    rw [hw.size_eq]
    exact hin
  have hbytes : (a'.bytes.drop off).take size = encode cx.endian size val.bits := by
    have hlen := encode_length cx.endian size val.bits
    have hroom : off + (encode cx.endian size val.bits).length ≤ a₁.bytes.length := by
      rw [hlen, hc.bytes, h.bytes]
      exact hin
    refine ext_getElem? fun i => ?_
    rw [getElem?_take]
    by_cases hi : i < size
    · have hset : a'.bytes[off + i]? = (encode cx.endian size val.bits)[off + i - off]? := by
        rw [ha']
        rw [getElem?_setBytes hroom, hlen, if_pos (by omega)]
      rw [if_pos hi, getElem?_drop, hset, Nat.add_sub_cancel_left]
    · rw [if_neg hi, getElem?_eq_none (by omega)]
  have hread : cx.byteOrder.readUint128 cx.endian ((a'.bytes.drop off).take size) =
      .ok val.bits := by
    rw [hbytes, hbo.read_eq _ _ (by rw [encode_length]; exact hpos)
      (by rw [encode_length]; exact hle), decode_encode _ hfit]
  have hdef : a'.checkDefined off size = .ok () := by
    refine checkDefined_ok hw.wf hin' fun i h1 h2 => ?_
    rw [ha']
    exact hc.defined i h1 h2
  rw [readScalar, getBytesWithUndefAndPtr_ok hw.wf hpos hin' hcut, InterpResult.ok_bind, hdef]
  rw [hread, InterpResult.lift_ok, InterpResult.ok_bind]
  cases val with
  | raw data s =>
    have hnone : ∀ e ∈ a'.relocations.data, ¬ Overlaps e.1 cx.pointerSize off size := by
      intro e he
      rcases (hmem e).1 he with he | ⟨-, ho⟩
      · cases he
      · exact ho
    have hscalar : (fromUint data size : Outcome (Scalar Tag)) = .ok (.raw data s) := by
      have hlt : data < 2 ^ (8 * size) := by
        rw [pow_mul]
        exact hfit
      rw [fromUint, assert, if_pos (decide_eq_true hlt), ok_bind, hsize, storedSize]
    have hget : a'.relocations.get off = none := by
      rw [Option.eq_none_iff_forall_ne_some]
      intro v hv
      rw [hw.wf.sorted.get_eq_some] at hv
      have hps := cx.pointerSize_pos
      exact hnone _ hv ⟨by dsimp only; omega, by dsimp only; omega⟩
    rw [checkRelocations_ok hw.wf hnone, hget, InterpResult.ok_bind]
    simp only [bits, hscalar, InterpResult.lift_ok, InterpResult.ok_bind, ite_self]
  | ptr p =>
    have hget : a'.relocations.get off = some (p.tag, p.allocId) := by
      rw [hw.wf.sorted.get_eq_some, hmem]
      exact .inl (.head _)
    have hmod : p.offset % 2 ^ 64 = p.offset := by
      refine Nat.mod_eq_of_lt (lt_of_lt_of_le hfit ?_)
      have hps := cx.pointerSize_le
      have hpow : (2 : Nat) ^ 64 = 256 ^ 8 := rfl
      rw [hsize, storedSize, hpow]
      exact Nat.pow_le_pow_right (by omega) hps
    have hsize' : ¬ size ≠ cx.pointerSize := not_not.2 hsize
    rw [if_neg hsize', hget, bits, hmod]

end Allocation

end Tortis.Interpret
