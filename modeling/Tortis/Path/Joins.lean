import Tortis.Path.Unix

/-!
# Prefixes and joins of paths

`push`, `pop`, `parent`, `file_name`, `strip_prefix` and `ends_with` of `libstd/path.rs` on Unix. A
path that is pushed adds its components (`push_reference`), since only the first component of a path
can be the root or a dot; an iterator is followed by the components ahead of it (`Ahead`).
-/

namespace Tortis.Path

open Slice

/-- `iter_after`, with the `next` of the iterators, for components that are no prefixes. -/
def iterAfter {ι : Type} (next : ι → Outcome (Option Component × ι)) :
    Nat → ι → ι → Outcome (Option ι)
  | 0, _, _ => .error .outOfFuel
  | n + 1, iter, pfx => do
    let (x, iterNext) ← next iter
    let (y, pfx) ← next pfx
    match x, y with
    | some x, some y => if x = y then iterAfter next n iterNext pfx else .ok none
    | some _, none => .ok (some iter)
    | none, none => .ok (some iter)
    | none, some _ => .ok none

namespace Unix

open Components Pieces Outcome List

section
variable (n : Nat) (path : List UInt8)

/-- `_push`: the path after it. -/
def push (self path : List UInt8) : Outcome (List UInt8) := do
  let comps ← components sys self
  let other ← components sys path
  let needSep := self.getLast?.any (!isSepByte ·) && !(decide (0 < comps.prefixLen) &&
    decide (comps.prefixLen = comps.path.length) && comps.pfx.any Prefix.isDrive)
  .ok ((if other.hasRoot || other.pfx.isSome then []
    else if other.hasRoot then self.take comps.prefixRemaining
    else if needSep then self ++ bytes "/"
    else self) ++ path)

def join (self path : List UInt8) : Outcome (List UInt8) := push self path

def stripPrefix (base : List UInt8) : Outcome (Option (List UInt8)) := do
  match ← iterAfter (·.next sys n) n (← components sys path) (← components sys base) with
  | some c => do
    let rest ← c.asPath sys n
    .ok (some rest)
  | none => .ok none

def endsWith (child : List UInt8) : Outcome Bool := do
  let found ← iterAfter (·.nextBack sys n) n (← components sys path) (← components sys child)
  .ok found.isSome

def parent : Outcome (Option (List UInt8)) := do
  let (comp, comps) ← (← components sys path).nextBack sys n
  match comp with
  | some (.normal _) | some .curDir | some .parentDir => do
    let q ← comps.asPath sys n
    .ok (some q)
  | _ => .ok none

def fileName : Outcome (Option (List UInt8)) := do
  let (comp, _) ← (← components sys path).nextBack sys n
  match comp with
  | some (.normal text) => .ok (some text)
  | _ => .ok none

/-- `pop`: whether there is a parent, and the path after it. -/
def pop : Outcome (Bool × List UInt8) := do
  match ← parent n path with
  | some q => .ok (true, path.take q.length)
  | none => .ok (false, path)

end

theorem components_eq (path : List UInt8) :
    components sys path = .ok ⟨path, none, path.head?.any isSepByte, .pfx, .body⟩ := by
  cases path <;> rfl

theorem push_eq (b r : List UInt8) : push b r = .ok ((if r.head?.any isSepByte then []
    else if b.getLast?.any (!isSepByte ·) then b ++ bytes "/" else b) ++ r) := by
  rw [push, components_eq, ok_bind, components_eq, ok_bind]
  cases hr : r.head?.any isSepByte <;> simp [hasRoot, prefixLen]

/-! ## The components of a join -/

/-- The components of the pieces between the slashes. -/
def pieces (path : List UInt8) : List Component :=
  (path.splitOnP isSepByte).filterMap pieceComponent

variable {a b p r t : List UInt8} {l k : List Component}

theorem reference_slash (a r : List UInt8) :
    reference (a ++ byte '/' :: r) = reference (a ++ [byte '/']) ++ pieces r := by
  have hs : isSepByte (byte '/') = true := rfl
  have hhead : (a ++ byte '/' :: r).head? = (a ++ [byte '/']).head? := by cases a <;> rfl
  have hnil : ([].splitOnP isSepByte).filterMap pieceComponent = [] := rfl
  rw [reference, reference, hhead, splitOnP_append_cons _ _ hs, splitOnP_append_cons _ _ hs,
    head?_append_of_ne_nil _ (splitOnP_ne_nil _ a), head?_append_of_ne_nil _ (splitOnP_ne_nil _ a),
    filterMap_append, filterMap_append, hnil, append_nil, append_assoc, pieces]

theorem reference_concat_slash (ha : a ≠ []) : reference (a ++ [byte '/']) = reference a := by
  have hs : isSepByte (byte '/') = true := rfl
  have hnil : ([].splitOnP isSepByte).filterMap pieceComponent = [] := rfl
  rw [reference, reference, splitOnP_append_cons _ _ hs, filterMap_append, hnil, append_nil,
    head?_append_of_ne_nil _ (splitOnP_ne_nil _ a), head?_append_of_ne_nil _ ha]

/-- Neither the root nor a leading dot is among the components. -/
def NoStart (l : List Component) : Prop := .rootDir ∉ l ∧ .curDir ∉ l

theorem NoStart.reference_eq (h : NoStart (reference r)) :
    reference r = pieces r ∧ r.head?.any isSepByte = false := by
  rw [NoStart, reference] at h
  cases r <;> grind [reference, pieces, isSepByte]

theorem push_reference (hr : b ≠ [] → NoStart (reference r)) :
    ∃ j, push b r = .ok j ∧ reference j = reference b ++ reference r := by
  rw [push_eq]
  obtain rfl | ⟨a, x, rfl⟩ := eq_nil_or_concat' b
  · have hnil : reference [] = [] := rfl
    exact ⟨_, rfl, by simp [hnil]⟩
  · have hne : a ++ [x] ≠ [] := by simp
    obtain ⟨hpieces, hhead⟩ := (hr hne).reference_eq
    rw [hhead, hpieces]
    refine ⟨_, rfl, ?_⟩
    cases hx : isSepByte x with
    | true =>
      obtain rfl : x = byte '/' := eq_of_beq hx
      simpa [hx] using reference_slash a r
    | false =>
      have hslash := reference_slash (a ++ [x]) r
      rw [reference_concat_slash hne] at hslash
      simpa [hx, bytes] using hslash

theorem mem_pieces {x : Component} (h : x ∈ pieces p) :
    x = .parentDir ∨ ∃ t, x = .normal t ∧ reference t = [.normal t] := by
  obtain ⟨t, ht, hx⟩ := mem_filterMap.1 h
  have hfree := forall_of_mem_splitOnP ht
  have hpieces := splitOnP_eq_singleton hfree
  have hslash : t.head? ≠ some (byte '/') := fun hhead =>
    absurd (hfree _ (mem_of_head? hhead)) (by decide)
  grind [reference, pieceComponent]

/-- What comes before the pieces. -/
theorem reference_cases (path : List UInt8) : reference path = pieces path ∨
    reference path = .rootDir :: pieces path ∨ reference path = .curDir :: pieces path := by
  grind [reference, pieces]

theorem noStart_of_append (h : reference p = l ++ k) (hl : l ≠ []) : NoStart k := by
  obtain ⟨y, l, rfl⟩ := exists_cons_of_ne_nil hl
  have hsub : ∀ x ∈ k, x ∈ pieces p := by
    intro x hx
    rcases reference_cases p with hp | hp | hp <;> rw [hp] at h
    · simp [h, hx]
    · simp [(cons.inj h).2, hx]
    · simp [(cons.inj h).2, hx]
  exact ⟨fun hx => by simpa using mem_pieces (hsub _ hx),
    fun hx => by simpa using mem_pieces (hsub _ hx)⟩

theorem reference_of_normal (h : .normal t ∈ reference p) : reference t = [.normal t] := by
  have ht : .normal t ∈ pieces p := by
    rcases reference_cases p with hp | hp | hp <;> simpa [hp] using h
  simpa using mem_pieces ht

theorem eq_nil_of_reference (h : reference b = []) : b = [] := by
  cases b with
  | nil => rfl
  | cons x b =>
    obtain ⟨t, ts, hts⟩ := exists_cons_of_ne_nil (splitOnP_ne_nil isSepByte b)
    cases hx : x == byte '/' <;>
      grind [reference, splitOnP_cons_eq_if_modifyHead, modifyHead_cons, pieceComponent, isSepByte]

/-! ## The iterators -/

/-- The components that are ahead of the iterator, on which the calls with the fuel `n` return. -/
def Ahead (n : Nat) (c : Components) (l : List Component) : Prop :=
  ∃ lead rest, Left sys [] lead rest c ∧ c.pfx = none ∧
    (c.hasPhysicalRoot = true → lead = bytes "/") ∧ c.toCome sys [] lead rest = l ∧
      c.path.length + 3 < n

variable {n : Nat} {c : Components}

theorem ahead_components (hn : p.length + 3 < n) :
    ∃ c, components sys p = .ok c ∧ c.path = p ∧ c.front = .pfx ∧ Ahead n c (reference p) := by
  obtain ⟨c, lead, rest, hcomps, hpath, hpfx, hroot, hleft, hcome⟩ := components_reference p
  have hfront := components_eq p
  rw [hcomps] at hfront
  refine ⟨c, hcomps, hpath, ?_, lead, rest, hleft, hpfx, hroot, hcome, by rwa [hpath]⟩
  cases hfront
  rfl

section
variable (h : Ahead n c l)
include h

theorem Ahead.call : ∃ lead rest, Left sys [] lead rest c ∧
    c.toCome sys [] lead rest = l ∧ c.path.length + 3 < n ∧ ∀ {c' rest'},
      Left sys [] lead rest' c' → SameOrigin c c' → Ahead n c' (c'.toCome sys [] lead rest') := by
  obtain ⟨lead, rest, hleft, hpfx, hroot, hl, hn⟩ := h
  refine ⟨lead, rest, hleft, hl, hn, fun {c' rest'} hleft' hsame => ?_⟩
  have hle := hsame.length
  exact ⟨lead, rest', hleft', hsame.pfx.trans hpfx, fun hr => hroot (hsame.root ▸ hr), rfl, by omega⟩

theorem Ahead.next : ∃ c', c.next sys n = .ok (l.head?, c') ∧ Ahead n c' l.tail := by
  obtain ⟨lead, rest, hleft, rfl, hn, hcall⟩ := h.call
  obtain ⟨r, c', rest', hnext, hleft', hsame, htakes, hnone⟩ :=
    hleft.next_spec (n := n) (not_isSepByte_dot c) (by rw [frontWork]; omega)
  have hahead := hcall hleft' hsame
  rw [TakesFirst] at htakes
  refine ⟨c', ?_⟩
  cases r with
  | none => grind
  | some x => simpa [hnext, htakes] using hahead

theorem Ahead.nextBack : ∃ c', c.nextBack sys n = .ok (l.getLast?, c') ∧ Ahead n c' l.dropLast := by
  obtain ⟨lead, rest, hleft, rfl, hn, hcall⟩ := h.call
  obtain ⟨r, c', rest', hnext, hleft', hsame, htakes, hnone⟩ :=
    hleft.nextBack_spec (n := n) (not_isSepByte_dot c) (by rw [backWork]; split <;> omega)
  have hahead := hcall hleft' hsame
  rw [TakesLast] at htakes
  refine ⟨c', ?_⟩
  cases r with
  | none => grind
  | some x => simpa [hnext, htakes] using hahead

theorem Ahead.asPath : ∃ q, c.asPath sys n = .ok q ∧ reference q = l := by
  obtain ⟨lead, rest, hleft, hpfx, hroot, rfl, hn⟩ := h
  obtain ⟨rest', c', hasPath, hleft', hc', -, hbody, hkept⟩ :=
    hleft.asPath_spec (n := n) (not_isSepByte_dot c) (by omega)
  refine ⟨c'.path, hasPath, Eq.symm ?_⟩
  rw [← toCome_eq_reference hleft' (by rw [hc', hpfx]) (by rw [hc']; exact hroot), toCome,
    ← hbody, hc']
  · rfl
  · rw [hc']
    exact hkept

end

theorem iterAfter_spec {ι : Type} {next : ι → Outcome (Option Component × ι)}
    {R : ι → List Component → Prop}
    (hnext : ∀ {c l}, R c l → ∃ c', next c = .ok (l.head?, c') ∧ R c' l.tail) :
    ∀ {n : Nat} {c c' : ι} {l l' : List Component}, R c l → R c' l' → l'.length < n →
      ∃ r, iterAfter next n c c' = .ok r ∧ (r.isSome ↔ l' <+: l) ∧
        ∀ d, r = some d → ∃ k, l = l' ++ k ∧ R d k := by
  intro n
  induction n with
  | zero => simp
  | succ n ih =>
    intro c c' l l' hc hc' hn
    obtain ⟨d, hd, hdl⟩ := hnext hc
    obtain ⟨d', hd', hdl'⟩ := hnext hc'
    rw [iterAfter, hd, ok_bind]
    dsimp only
    rw [hd', ok_bind]
    cases l' with
    | nil => cases l <;> exact ⟨some c, rfl, by simp, by rintro _ ⟨⟩; exact ⟨_, rfl, hc⟩⟩
    | cons y l' =>
      cases l with
      | nil => exact ⟨none, rfl, by simp, by simp⟩
      | cons x l =>
        dsimp only [head?_cons]
        split
        · next heq =>
          subst heq
          obtain ⟨r, hrun, hiff, hsome⟩ := ih hdl hdl' (Nat.lt_of_succ_lt_succ hn)
          refine ⟨r, hrun, by simpa [prefix_cons_inj] using hiff, fun d hd => ?_⟩
          obtain ⟨k, rfl, hk⟩ := hsome d hd
          exact ⟨k, rfl, hk⟩
        · next hne => exact ⟨none, rfl, by simp [cons_prefix_cons, Ne.symm hne], by simp⟩

/-! ## What is cut off at the back -/

theorem sliceToEnd_isPrefix {q : List UInt8} {i : Nat} (h : sliceToEnd p i = .ok q) : q <+: p := by
  rw [sliceToEnd] at h
  split at h
  · cases h
    exact take_prefix _ _
  · cases h

/-- The front stays, and the slice is cut at its end. -/
def CutsBack (c c' : Components) : Prop := c'.path <+: c.path ∧ c'.front = c.front

theorem CutsBack.refl (c : Components) : CutsBack c c := ⟨prefix_rfl, rfl⟩

theorem nextBackIter_cuts {r : Option (Option Component)} {c' : Components}
    (h : c.nextBackIter sys = .ok (r, c')) : CutsBack c c' := by
  rw [nextBackIter] at h
  split at h
  all_goals grind [bind_eq_ok, sliceToEnd_isPrefix, CutsBack]

theorem nextBack_cuts {r : Option Component} {c' : Components} : ∀ {n : Nat} {c : Components},
    c.nextBack sys n = .ok (r, c') → CutsBack c c'
  | 0, _, h => by cases h
  | n + 1, c, h => by
    rw [nextBack] at h
    split at h
    · cases h
      exact .refl _
    obtain ⟨⟨o, d⟩, hiter, h⟩ := bind_eq_ok.1 h
    have hcuts := nextBackIter_cuts hiter
    cases o with
    | some o =>
      cases h
      exact hcuts
    | none =>
      have hcuts' := nextBack_cuts h
      exact ⟨hcuts'.1.trans hcuts.1, hcuts'.2.trans hcuts.2⟩

theorem trimRight_isPrefix {c' : Components} : ∀ {n : Nat} {c : Components},
    trimRight sys n c = .ok c' → c'.path <+: c.path
  | 0, _, h => by cases h
  | n + 1, c, h => by
    have ih := @trimRight_isPrefix c' n
    rw [trimRight] at h
    grind [bind_eq_ok, sliceToEnd_isPrefix, IsPrefix.trans]

theorem asPath_isPrefix {q : List UInt8} (hfront : c.front ≠ .body) (h : c.asPath sys n = .ok q) :
    q <+: c.path := by
  grind [asPath, bind_eq_ok, trimRight_isPrefix]

/-! ## The laws -/

theorem length_reference_le (path : List UInt8) : (reference path).length ≤ path.length + 2 := by
  have hle := length_filterMap_le pieceComponent (path.splitOnP isSepByte)
  have hlen := length_splitOnP_le (p := isSepByte) path
  rw [reference, length_append]
  split
  · simp
    omega
  · split <;> simp <;> omega

/-- A prefix is stripped exactly when its components are the first ones of the path, and joined with
the rest it has the components of the path; a path ends with the paths whose components are its last
ones; and a parent is a first part of the path, which joined with the file name has its components
again. -/
theorem strip_and_join (p b : List UInt8) (k : Nat) :
    (∃ r, stripPrefix (p.length + b.length + 4 + k) p b = .ok r ∧
      (r.isSome ↔ reference b <+: reference p) ∧
      ∀ rest, r = some rest → ∃ j, join b rest = .ok j ∧ reference j = reference p) ∧
    (∃ e, endsWith (p.length + b.length + 4 + k) p b = .ok e ∧
      (e = true ↔ reference b <:+ reference p)) ∧
    (∃ q name, parent (p.length + b.length + 4 + k) p = .ok q ∧
      fileName (p.length + b.length + 4 + k) p = .ok name ∧
      ∀ q' t, q = some q' → name = some t → q' <+: p ∧
        pop (p.length + b.length + 4 + k) p = .ok (true, q') ∧
        ∃ j, join q' t = .ok j ∧ reference j = reference p) ∧
    Reads (p.length + b.length + 4 + k) p (reference p) := by
  generalize hn : p.length + b.length + 4 + k = n
  obtain ⟨c, hc, rfl, hfront, hahead⟩ := @ahead_components p n (by omega)
  obtain ⟨c', hc', -, -, hahead'⟩ := @ahead_components b n (by omega)
  have hlen : (reference b).length < n := by
    have := length_reference_le b
    omega
  refine ⟨?_, ?_, ?_, reads_reference (by omega)⟩
  · obtain ⟨r, hrun, hiff, hsome⟩ := iterAfter_spec Ahead.next hahead hahead' hlen
    rw [stripPrefix, hc, ok_bind, hc', ok_bind, hrun, ok_bind]
    cases r with
    | none => exact ⟨none, rfl, hiff, by simp⟩
    | some d =>
      obtain ⟨k, hk, hd⟩ := hsome d rfl
      obtain ⟨q, hq, rfl⟩ := hd.asPath
      refine ⟨some q, by simp [hq], hiff, ?_⟩
      rintro _ ⟨⟩
      obtain ⟨j, hj, href⟩ := push_reference fun hne =>
        noStart_of_append hk fun h => hne (eq_nil_of_reference h)
      exact ⟨j, hj, href.trans hk.symm⟩
  · rw [← reverse_reverse (reference c.path)] at hahead
    rw [← reverse_reverse (reference b)] at hahead'
    obtain ⟨r, hrun, hiff, -⟩ := iterAfter_spec (R := fun c l => Ahead n c l.reverse)
      (fun h => by simpa using h.nextBack) hahead hahead' (by simpa : _ < n)
    rw [endsWith, hc, ok_bind, hc', ok_bind, hrun]
    exact ⟨r.isSome, rfl, by rw [hiff, reverse_prefix]⟩
  · obtain ⟨c', hback, hahead'⟩ := hahead.nextBack
    obtain ⟨q, hq, href⟩ := hahead'.asPath
    have hcuts := nextBack_cuts hback
    simp only [pop, parent, fileName, hc, hback, ok_bind]
    cases hlast : (reference c.path).getLast? with
    | none => exact ⟨none, none, rfl, rfl, by simp⟩
    | some x =>
      cases x with
      | pfx | rootDir => exact ⟨none, none, rfl, rfl, by simp⟩
      | curDir | parentDir => exact ⟨some q, none, by simp [hq], rfl, by simp⟩
      | normal t =>
        refine ⟨some q, some t, by simp [hq], rfl, ?_⟩
        rintro _ _ ⟨⟩ ⟨⟩
        have hcut : q <+: c.path :=
          (asPath_isPrefix (by rw [hcuts.2, hfront]; decide) hq).trans hcuts.1
        have hsplit : reference c.path = reference q ++ [.normal t] := by
          rw [href, dropLast_append_getLast? _ hlast]
        have ht : reference t = [.normal t] := reference_of_normal (p := c.path) (by simp [hsplit])
        obtain ⟨j, hj, hjoin⟩ := push_reference (b := q) (r := t) fun _ => by simp [NoStart, ht]
        exact ⟨hcut, by simp [hq, ← prefix_iff_eq_take.1 hcut], j, hj, by
          rw [hjoin, ht, hsplit]⟩

end Unix

end Tortis.Path
