import Tortis.Serialize.Opaque

/-!
# Encoded vectors

`Vec<T>` of `libserialize/serialize.rs` in the opaque encoding: the length, then the elements. A
`Codec` is a type whose values are read back, and a vector of such values is read back too.
-/

namespace Tortis.Serialize

open List

variable {α β : Type} (ptr : PointerWidth)

/-- `Encodable` and `Decodable` of a type whose values are read back. -/
structure Codec (α : Type) where
  encode : Encoder → α → Encoder
  decode : Decoder → Outcome (α × Decoder)
  reads : ∀ e v, Reads decode e (encode e v) v

theorem Reads.seq {read : Decoder → Outcome (α × Decoder)}
    {next : α × Decoder → Outcome (β × Decoder)} {e e' e'' : Encoder} {a : α} {b : β}
    (h : Reads read e e' a) (hnext : Reads (fun d => next (a, d)) e' e'' b) :
    Reads (fun d => read d >>= next) e e'' b := by
  obtain ⟨bytes, hdata, hread⟩ := h
  obtain ⟨bytes', hdata', hread'⟩ := hnext
  refine ⟨bytes ++ bytes', by rw [hdata', hdata, append_assoc], fun suf => ?_⟩
  have hfirst := hread (bytes' ++ suf)
  rw [append_assoc]
  show read _ >>= next = _
  rw [hfirst, Outcome.ok_bind]
  exact hread' suf

theorem Reads.nothing (e : Encoder) (a : α) : Reads (fun d => .ok (a, d)) e e a :=
  ⟨[], (append_nil _).symm, fun _ => rfl⟩

def encodeUsize (e : Encoder) (v : Nat) : Encoder := e.emitUsize ptr (BitVec.ofNat ptr.bits v)

def decodeUsize (d : Decoder) : Outcome (Nat × Decoder) := do
  let (v, d) ← d.readUsize ptr
  .ok (v.toNat, d)

theorem reads_usize (e : Encoder) {v : Nat} (hv : v < 2 ^ ptr.bits) :
    Reads (decodeUsize ptr) e (encodeUsize ptr e v) v :=
  (reads_uleb128 e .usize (BitVec.ofNat ptr.bits v)).bind fun d =>
    congrArg (fun v => Except.ok (v, d)) ((BitVec.toNat_ofNat v _).trans (Nat.mod_eq_of_lt hv))

def encodeVec (encode : Encoder → α → Encoder) (e : Encoder) (l : List α) : Encoder :=
  l.foldl encode (encodeUsize ptr e l.length)

def decodeElements (decode : Decoder → Outcome (α × Decoder)) :
    Nat → Decoder → Outcome (List α × Decoder)
  | 0, d => .ok ([], d)
  | n + 1, d => do
    let (v, d) ← decode d
    let (l, d) ← decodeElements decode n d
    .ok (v :: l, d)

def decodeVec (decode : Decoder → Outcome (α × Decoder)) (d : Decoder) :
    Outcome (List α × Decoder) := do
  let (len, d) ← decodeUsize ptr d
  decodeElements decode len d

variable {decode : Decoder → Outcome (α × Decoder)} {encode : Encoder → α → Encoder}

theorem reads_elements : ∀ {l : List α}, (∀ v ∈ l, ∀ e, Reads decode e (encode e v) v) →
      ∀ e, Reads (decodeElements decode l.length) e (l.foldl encode e) l
  | [], _, e => Reads.nothing e []
  | v :: l, h, e => by
    have hrest := reads_elements (l := l) fun w hw => h w (mem_cons_of_mem _ hw)
    exact (h v mem_cons_self e).seq <|
      (hrest (encode e v)).seq (Reads.nothing _ (v :: l))

theorem reads_vec
    {l : List α} (h : ∀ v ∈ l, ∀ e, Reads decode e (encode e v) v) (hlen : l.length < 2 ^ ptr.bits)
    (e : Encoder) : Reads (decodeVec ptr decode) e (encodeVec ptr encode e l) l :=
  (reads_usize ptr e hlen).seq (reads_elements h _)

end Tortis.Serialize
