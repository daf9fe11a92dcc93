import Tortis.Path.Runs

/-!
# Paths on Unix

The components of a Unix path, as a list (`reference`). Whatever calls are made at the two ends, they
take the components of the path from its two ends, and `as_path` is a path of the components that
are left (`run_components`).
-/

namespace Tortis.Path.Unix

open Components Pieces List

/-- The component of a piece, if it is neither empty nor a dot. -/
def pieceComponent (piece : List UInt8) : Option Component :=
  if piece = [] ∨ piece = bytes "." then none
  else if piece = bytes ".." then some .parentDir
  else some (.normal piece)

/-- The components of a path: the root or a leading dot, and the pieces between the slashes. -/
def reference (path : List UInt8) : List Component :=
  (if path.head? = some (byte '/') then [.rootDir]
    else if (path.splitOnP isSepByte).head? = some (bytes ".") then [.curDir]
    else []) ++ (path.splitOnP isSepByte).filterMap pieceComponent

/-- The iterator over the path returns the components one after the other, and then nothing. -/
def Reads (n : Nat) (path : List UInt8) (l : List Component) : Prop :=
  ∃ t c, run sys n path (replicate l.length .next) = .ok t ∧ t.front = l ∧
    t.iter.next sys n = .ok (none, c)

theorem not_isSepByte_dot (c : Components) : c.isSepByte sys (byte '.') = false := by
  rw [Components.isSepByte]
  split <;> decide

section
variable {c : Components} {raw lead rest : List UInt8}

theorem isSepByte_eq (hpfx : c.pfx = none) : c.isSepByte sys = isSepByte := by
  funext b
  rw [Components.isSepByte, prefixVerbatim, hpfx]
  rfl

theorem bodyComponents_eq (hpfx : c.pfx = none) (l : List UInt8) :
    c.bodyComponents sys l = (l.splitOnP isSepByte).filterMap pieceComponent := by
  have hpiece : c.parseSingleComponent = pieceComponent := by
    funext piece
    have hne' : bytes ".." ≠ [] := cons_ne_nil _ _
    have hdots : bytes ".." ≠ bytes "." := by decide
    rw [parseSingleComponent, pieceComponent, prefixVerbatim, hpfx]
    by_cases h1 : piece = bytes "."
    · simp [h1]
    · by_cases h2 : piece = bytes ".."
      · simp [h2, hdots, hne']
      · simp [h1, h2]
  rw [bodyComponents, hpiece, isSepByte_eq hpfx]

theorem filterMap_skip {a : List UInt8} (ha : ∀ x ∈ a, isSepByte x = false)
    (hnone : pieceComponent a = none) {s : UInt8} (hs : isSepByte s = true) (b : List UInt8) :
    ((a ++ s :: b).splitOnP isSepByte).filterMap pieceComponent =
      (b.splitOnP isSepByte).filterMap pieceComponent := by
  rw [filterMap_first _ hs ha, hnone]
  rfl

theorem not_isSepByte_of_dot : ∀ x ∈ bytes ".", isSepByte x = false := by
  intro x hx
  obtain rfl := mem_singleton.1 hx
  decide

theorem reference_start (h : Left sys raw lead rest c) (hpfx : c.pfx = none)
    (hroot : c.hasPhysicalRoot = true → lead = bytes "/") (hstart : HasStart c.front c.back) :
    reference (lead ++ rest) =
      leadComponents c.pfx c.hasPhysicalRoot lead ++ c.bodyComponents sys rest := by
  rw [bodyComponents_eq hpfx, reference]
  have hempty : pieceComponent [] = none := if_pos (.inl rfl)
  have hlead := h.isLead
  cases hr : c.hasPhysicalRoot with
  | true =>
    rw [hroot hr]
    rfl
  | false =>
    have hno : c.hasRoot = false := by simp [hasRoot, hr, hpfx]
    obtain ⟨hcur, hsep⟩ := h.cur hstart hno
    rw [DotFirst, isSepByte_eq hpfx] at hcur
    rw [isSepByte_eq hpfx] at hsep
    rw [hr, hpfx] at hlead
    rw [hpfx]
    cases hlead with
    | root hr' => cases hr'
    | implicit _ hp => cases hp
    | curDir =>
      have hfirst := hcur.2 rfl
      have hne : (bytes "." ++ rest).head? ≠ some (byte '/') := by
        have hbytes : bytes "." ++ rest = byte '.' :: rest := rfl
        rw [hbytes, head?_cons]
        decide
      rw [if_neg hne, if_pos hfirst]
      have hdot : pieceComponent (bytes ".") = none := if_pos (.inr rfl)
      have hrest : ((bytes "." ++ rest).splitOnP isSepByte).filterMap pieceComponent =
          (rest.splitOnP isSepByte).filterMap pieceComponent := by
        rcases (head?_splitOnP not_isSepByte_of_dot).1 hfirst with heq | ⟨s, b, heq, hs⟩
        · obtain rfl : rest = [] := append_right_eq_self.1 heq
          rw [append_nil, filterMap_only _ not_isSepByte_of_dot, hdot,
            filterMap_only _ (by simp), hempty]
        · obtain rfl : rest = s :: b := append_cancel_left heq
          rw [filterMap_skip not_isSepByte_of_dot hdot hs]
          exact (filterMap_skip (a := []) (by simp) hempty hs b).symm
      rw [hrest]
      rfl
    | nothing =>
      rw [nil_append] at hcur ⊢
      have hne : rest.head? ≠ some (byte '/') := by
        intro hslash
        have := hsep rfl
        rw [hslash] at this
        exact absurd this (by decide)
      rw [if_neg hne, if_neg fun hfirst => absurd (hcur.1 hfirst) (cons_ne_nil _ _).symm]
      rfl

theorem reference_body (hpfx : c.pfx = none) (h : rest = [] ∨ FirstKept sys c rest) :
    reference rest = c.bodyComponents sys rest := by
  rw [bodyComponents_eq hpfx, reference]
  rcases h with rfl | ⟨a, ha, hsome⟩
  · rfl
  · rw [isSepByte_eq hpfx] at ha
    have hne : a ≠ [] := by
      rintro rfl
      simp [parseSingleComponent, bytes] at hsome
    have hdot : a ≠ bytes "." := by
      rintro rfl
      simp [parseSingleComponent, prefixVerbatim, hpfx] at hsome
    have hslash : rest.head? ≠ some (byte '/') := by
      intro hslash
      cases rest with
      | nil => cases hslash
      | cons b rest =>
        obtain rfl := Option.some.inj hslash
        exact hne (Option.some.inj ha).symm
    have hfirst : (rest.splitOnP isSepByte).head? ≠ some (bytes ".") := fun hfirst =>
      hdot (Option.mem_unique ha hfirst)
    rw [if_neg hslash, if_neg hfirst, nil_append]

theorem toCome_eq_reference (h : Left sys [] lead rest c) (hpfx : c.pfx = none)
    (hroot : c.hasPhysicalRoot = true → lead = bytes "/")
    (hkept : c.front = .body → rest = [] ∨ FirstKept sys c rest) :
    c.toCome sys [] lead rest = reference c.path := by
  have hpath := h.path
  have hraw : rawLeft [] c.front = [] := by
    rw [rawLeft]
    split <;> rfl
  rw [hraw, nil_append] at hpath
  have hcome : pfxComponents [] c.pfx c.front c.back = [] := by simp [pfxComponents, hpfx]
  rw [toCome, hcome, nil_append, startComponents]
  by_cases hstart : HasStart c.front c.back
  · rw [leadLeft, if_pos hstart] at hpath
    rw [if_pos hstart, hpath, reference_start h hpfx hroot hstart]
  · rw [leadLeft, if_neg hstart, nil_append] at hpath
    rw [if_neg hstart, nil_append, hpath]
    have hrest : rest = [] ∨ FirstKept sys c rest := by
      by_cases hback : c.back = .body
      · cases hfront : c.front with
        | pfx => exact absurd ⟨.inl hfront, .inr hback⟩ hstart
        | startDir => exact absurd ⟨.inr hfront, .inr hback⟩ hstart
        | body => exact hkept hfront
        | done => exact .inl (h.front hfront)
      · exact .inl (h.back hback)
    exact (reference_body hpfx hrest).symm

end

theorem components_reference (path : List UInt8) :
    ∃ c lead rest, components sys path = .ok c ∧ c.path = path ∧ c.pfx = none ∧
      (c.hasPhysicalRoot = true → lead = bytes "/") ∧ Left sys [] lead rest c ∧
      c.toCome sys [] lead rest = reference path := by
  have hdrive : ¬ DriveRelative sys path := by
    rintro ⟨p, hp, -⟩
    cases hp
  obtain ⟨root, lead, rest, hcomps, hroot, hpath, hleft⟩ :=
    @left_components sys path none not_isSepByte_dot rfl (Nat.zero_le path.length) hdrive
  have hslash : root = true → lead = bytes "/" := by
    intro hr
    have hlead := hleft.isLead
    simp only [hr] at hlead
    cases hlead with
    | @root s _ =>
      have hhead : path.head? = some s := by
        rw [hpath]
        rfl
      have hdrop : path.drop ((none : Option Prefix).elim 0 Prefix.len) = path := rfl
      rw [hdrop, hhead, hr] at hroot
      have hs : isSepByte s = true := hroot.symm
      rw [eq_of_beq hs]
      rfl
    | implicit h => cases h
    | curDir h => cases h
    | nothing h => cases h
  refine ⟨_, lead, rest, hcomps, rfl, rfl, hslash, hleft, ?_⟩
  exact toCome_eq_reference hleft rfl hslash nofun

theorem reads_reference {n : Nat} {path : List UInt8} (hn : path.length + 3 < n) :
    Reads n path (reference path) := by
  obtain ⟨c, lead, rest, hcomps, rfl, -, -, hleft, hcome⟩ := components_reference path
  obtain ⟨c', hrun, c'', hlast⟩ :=
    @Left.collect sys [] lead n _ rest ⟨[], [], c⟩ hleft (not_isSepByte_dot c) hn hcome
  exact ⟨_, c'', by rw [run, hcomps, Outcome.ok_bind, hrun], rfl, hlast⟩

/-- Whatever calls are made at its two ends, the iterator over a path shares the components out
between them in their order, each once; a call returns nothing exactly when nothing is left, and
`as_path` leaves a path of what is left. -/
theorem run_components (path : List UInt8) (calls : List Call) (k : Nat) :
    ∃ t rest p, run sys (path.length + 4 + k) path calls = .ok t ∧
      reference path = t.front ++ rest ++ t.back.reverse ∧
      (∀ call, call ≠ .asPath → ∃ r t', t.call sys (path.length + 4 + k) call = .ok (r, t') ∧
        (r = none ↔ rest = [])) ∧ t.iter.asPath sys (path.length + 4 + k) = .ok p ∧
      Reads (path.length + 4 + k) p rest ∧ reference p = rest := by
  generalize hn : path.length + 4 + k = n
  obtain ⟨c, lead, rest0, hcomps, hpath, hpfx, hslash, hleft, hcome⟩ := components_reference path
  have hlt : c.path.length + 3 < n := by
    rw [hpath]
    omega
  obtain ⟨t, rest, hrun, hshares⟩ :=
    @run_shares sys [] lead rest0 path calls n c not_isSepByte_dot hcomps hleft hlt
  have hle := hshares.same.length
  obtain ⟨rest', c', hasPath, hleft', hc', hle', hbody, hkept⟩ :=
    hshares.left.asPath_spec (n := n) (not_isSepByte_dot _) (by omega)
  have hpfx' : c'.pfx = none := by rw [hc', ← hpfx, ← hshares.same.pfx]
  have hroot' : c'.hasPhysicalRoot = true → lead = bytes "/" := by
    rw [hc', hshares.same.root]
    exact hslash
  have hfront' : c'.front = t.iter.front := by rw [hc']
  have hcome' : t.iter.toCome sys [] lead rest = reference c'.path := by
    rw [← toCome_eq_reference hleft' hpfx' hroot' fun hf => ?_, toCome, ← hbody, hc']
    · rfl
    · rw [hc']
      exact hkept (hfront' ▸ hf)
  refine ⟨t, reference c'.path, c'.path, hrun, ?_, fun call hcall => ?_, hasPath,
    reads_reference (by omega), rfl⟩
  · rw [← hcome, hshares.all_eq, hcome']
  · obtain ⟨r, t', -, hrun', -, hnone⟩ := hshares.call (not_isSepByte_dot _) hlt call
    exact ⟨r, t', hrun', hcome' ▸ hnone hcall⟩

end Tortis.Path.Unix
