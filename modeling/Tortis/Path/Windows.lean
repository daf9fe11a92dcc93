import Tortis.Path.Runs

/-!
# Paths on Windows

A run of calls on the components of a Windows path can fail in one case only: the path begins with a
drive letter and has no root behind it, as in `C:a`. There `include_cur_dir` skips the length of the
prefix after `next` has cut the prefix off. On every other path no call panics, and the text of a
prefix component is the text that `parse_prefix` has read (`safe_iff`).
-/

namespace Tortis.Path.Windows

open Components Pieces Slice Outcome List Option Prefix

/-! ## The prefix is a part of the path -/

section
variable (path : List UInt8)

theorem parseTwoComps_spec (f : UInt8 → Bool) : ∃ o, parseTwoComps path f = .ok o ∧
      ∀ first second, o = some (first, second) → first.length + 1 + second.length ≤ path.length := by
  rw [parseTwoComps]
  cases hp : position f path with
  | none => exact ⟨none, rfl, nofun⟩
  | some i =>
    obtain ⟨a, s, b, rfl, rfl, -, -⟩ := position_some hp
    have hto : sliceTo (a ++ s :: b) a.length = .ok a := sliceTo_append rfl
    have hfrom : sliceFrom (a ++ s :: b) (a.length + 1) = .ok b := by
      have hsplit : a ++ s :: b = (a ++ [s]) ++ b := by simp
      rw [hsplit]
      exact sliceFrom_append (by simp only [length_append, length_singleton])
    have hle : (position f b).getD b.length ≤ b.length := by
      cases hp' : position f b with
      | none => exact le_rfl
      | some j =>
        obtain ⟨a', s', b', rfl, rfl, -, -⟩ := position_some hp'
        simp
    refine ⟨some (a, b.take ((position f b).getD b.length)), ?_, ?_⟩
    · have hto' : sliceTo b ((position f b).getD b.length) =
          .ok (b.take ((position f b).getD b.length)) := if_pos hle
      simp only [hto, hfrom, hto', ok_bind]
    · rintro _ _ ⟨rfl, rfl⟩
      simp only [length_take, length_append, length_cons]
      omega

theorem sliceTo_position (f : UInt8 → Bool) :
    ∃ slice, sliceTo path ((position f path).getD path.length) = .ok slice ∧
      slice.length ≤ path.length := by
  have hle : (position f path).getD path.length ≤ path.length := by
    cases hp : position f path with
    | none => exact le_rfl
    | some j =>
      obtain ⟨a, s, b, rfl, rfl, -, -⟩ := position_some hp
      simp
  exact ⟨_, if_pos hle, length_take_le' _ _⟩

theorem parseVerbatim_spec : ∃ p, parseVerbatim path = .ok p ∧ p.len ≤ path.length + 4 := by
  rw [parseVerbatim]
  split
  · next h =>
    obtain ⟨rest, rfl⟩ := isPrefixOf_iff_prefix.1 h
    have hfrom : sliceFrom (bytes "UNC\\" ++ rest) 4 = .ok rest := sliceFrom_append rfl
    obtain ⟨o, ho, hlen⟩ := parseTwoComps_spec rest isVerbatimSep
    have hunc : (bytes "UNC\\" ++ rest).length = 4 + rest.length := by
      rw [length_append]
      rfl
    rcases o with _ | ⟨server, share⟩
    · refine ⟨.verbatimUNC rest [], by simp [hfrom, ho], ?_⟩
      simp only [Prefix.len, hunc, length_nil, lt_irrefl, if_false]
      omega
    · refine ⟨.verbatimUNC server share, by simp [hfrom, ho], ?_⟩
      have := hlen server share rfl
      simp only [Prefix.len, hunc]
      split <;> omega
  · next h =>
    obtain ⟨slice, hslice, hle⟩ := sliceTo_position path (· == byte '\\')
    have hverb : (verbatim slice).len ≤ path.length + 4 := by
      simp only [Prefix.len]
      omega
    cases hidx : position (· == byte '\\') path with
    | none =>
      rw [hidx] at hslice
      have hslice' : sliceTo path path.length = .ok slice := hslice
      exact ⟨.verbatim slice, by simp [verbatimLetter, hslice'], hverb⟩
    | some i =>
      rw [hidx] at hslice
      have hslice' : sliceTo path i = .ok slice := hslice
      by_cases hi : i = 2
      · subst hi
        obtain ⟨a, s, b, rfl, ha, -, -⟩ := position_some hidx
        obtain ⟨x, y, rfl⟩ := length_eq_two.1 ha
        change sliceTo (x :: y :: s :: b) 2 = .ok slice at hslice'
        have hget : Slice.get (x :: y :: s :: b) 1 = .ok y := rfl
        have hget' : Slice.get (x :: y :: s :: b) 0 = .ok x := rfl
        have hletter : verbatimLetter (x :: y :: s :: b) (some 2) =
            .ok (if y = byte ':' ∧ isDriveLetter x = true then some (toAsciiUppercase x)
              else none) := by
          rw [verbatimLetter, if_pos rfl, hget, ok_bind]
          by_cases hy : y = byte ':'
          · subst hy
            simp [hget']
          · simp [hy]
        change ∃ p, (verbatimLetter (x :: y :: s :: b) (some 2) >>= _) = _ ∧ _
        rw [hletter, ok_bind]
        split
        · refine ⟨_, rfl, ?_⟩
          simp only [Prefix.len, length_append, length_cons]
          omega
        · exact ⟨.verbatim slice, by simp [hslice'], hverb⟩
      · exact ⟨.verbatim slice, by simp [verbatimLetter, hi, hslice'], hverb⟩

theorem parsePrefix_spec :
    ∃ o, parsePrefix path = .ok o ∧ ∀ p, o = some p → p.len ≤ path.length := by
  rw [parsePrefix]
  split
  · next h =>
    obtain ⟨rest, rfl⟩ := isPrefixOf_iff_prefix.1 h
    have hfrom : sliceFrom (bytes "\\\\" ++ rest) 2 = .ok rest := sliceFrom_append rfl
    have hlen : (bytes "\\\\" ++ rest).length = 2 + rest.length := by
      rw [length_append]
      rfl
    rw [hfrom, ok_bind, hlen]
    split
    · next h =>
      obtain ⟨rest, rfl⟩ := isPrefixOf_iff_prefix.1 h
      have hfrom : sliceFrom (bytes "?\\" ++ rest) 2 = .ok rest := sliceFrom_append rfl
      obtain ⟨p, hp, hle⟩ := parseVerbatim_spec rest
      refine ⟨some p, by simp [hfrom, hp], ?_⟩
      rintro _ ⟨rfl⟩
      rw [length_append]
      have : (bytes "?\\").length = 2 := rfl
      omega
    split
    · next h =>
      obtain ⟨rest, rfl⟩ := isPrefixOf_iff_prefix.1 h
      have hfrom : sliceFrom (bytes ".\\" ++ rest) 2 = .ok rest := sliceFrom_append rfl
      obtain ⟨slice, hslice, hle⟩ := sliceTo_position rest (· == byte '\\')
      refine ⟨some (.deviceNS slice), by simp [hfrom, parseDevice, hslice], ?_⟩
      rintro _ ⟨rfl⟩
      rw [length_append]
      have : (bytes ".\\").length = 2 := rfl
      simp only [Prefix.len]
      omega
    · obtain ⟨o, ho, hlen⟩ := parseTwoComps_spec rest isSepByte
      rcases o with _ | ⟨server, share⟩
      · exact ⟨none, by simp [ho], (by simp)⟩
      · refine ⟨_, by simp only [ho, ok_bind]; rfl, fun p hp => ?_⟩
        have := hlen server share rfl
        split at hp
        · cases hp
          simp only [Prefix.len]
          split <;> omega
        · cases hp
  split
  · next h =>
    rcases path with _ | ⟨c, _ | ⟨b, path⟩⟩
    iterate 2 cases h
    have hget : Slice.get (c :: b :: path) 0 = .ok c := rfl
    refine ⟨_, by rw [hget]; rfl, fun p hp => ?_⟩
    split at hp
    · cases hp
      simp [Prefix.len]
    · cases hp
  · exact ⟨none, rfl, (by simp)⟩

/-! ## Drives without a root -/

/-- The path is relative to a drive: a drive letter, a colon, and no separator after it. -/
def IsDriveRelative : Prop :=
  ∃ c rest, path = c :: byte ':' :: rest ∧ isDriveLetter c = true ∧
    rest.head?.any isSepByte = false

end

variable {path : List UInt8}

theorem parseVerbatim_isVerbatim {p : Prefix}
    (h : parseVerbatim path = .ok p) : p.isVerbatim = true := by
  rw [parseVerbatim] at h
  split at h
  · obtain ⟨rest, -, h⟩ := bind_eq_ok.1 h
    obtain ⟨o, -, h⟩ := bind_eq_ok.1 h
    rcases o with _ | ⟨server, share⟩ <;>
    · cases h
      rfl
  · obtain ⟨letter, -, h⟩ := bind_eq_ok.1 h
    rcases letter with _ | c
    · obtain ⟨slice, -, h⟩ := bind_eq_ok.1 h
      cases h
      rfl
    · cases h
      rfl

theorem parsePrefix_disk {p : Prefix} (h : parsePrefix path = .ok (some p))
    (hroot : p.hasImplicitRoot = false) : ∃ c rest, path = c :: byte ':' :: rest ∧ isDriveLetter c =
    true ∧ p = .disk (toAsciiUppercase c) := by
  have hdrive : p.isDrive = true := by simpa [hasImplicitRoot] using hroot
  have hnot : p.isVerbatim = true → False := by
    cases p <;> simp_all [isDrive, isVerbatim]
  rw [parsePrefix] at h
  split at h
  · obtain ⟨rest, -, h⟩ := bind_eq_ok.1 h
    split at h
    · obtain ⟨rest', -, h⟩ := bind_eq_ok.1 h
      obtain ⟨p', hp', h⟩ := bind_eq_ok.1 h
      cases h
      exact (hnot (parseVerbatim_isVerbatim hp')).elim
    split at h
    · obtain ⟨rest', -, h⟩ := bind_eq_ok.1 h
      obtain ⟨p', hp', h⟩ := bind_eq_ok.1 h
      obtain ⟨slice, -, hp'⟩ := bind_eq_ok.1 hp'
      cases h
      cases hp'
      cases hdrive
    · obtain ⟨o, -, h⟩ := bind_eq_ok.1 h
      rcases o with _ | ⟨server, share⟩
      · cases h
      · simp only at h
        split at h
        · cases h
          cases hdrive
        · cases h
  split at h
  · next hcolon =>
    match path, hcolon with
    | c :: b :: rest, hcolon =>
      obtain rfl : b = byte ':' := some.inj hcolon
      have hget : Slice.get (c :: byte ':' :: rest) 0 = .ok c := rfl
      rw [hget, ok_bind] at h
      split at h
      · next hletter =>
        cases h
        exact ⟨c, rest, rfl, hletter, rfl⟩
      · cases h
  · cases h

theorem parsePrefix_drive {c : UInt8} (hc : isDriveLetter c = true) (rest : List UInt8) :
    parsePrefix (c :: byte ':' :: rest) = .ok (some (.disk (toAsciiUppercase c))) := by
  have hne : c ≠ byte '\\' := by
    rintro rfl
    exact absurd hc (by decide)
  have hno : (bytes "\\\\").isPrefixOf (c :: byte ':' :: rest) = false := by
    have hbytes : bytes "\\\\" = [byte '\\', byte '\\'] := rfl
    simp [hbytes, List.isPrefixOf, Ne.symm hne]
  have hget : Slice.get (c :: byte ':' :: rest) 0 = .ok c := rfl
  rw [parsePrefix, hno, if_neg Bool.false_ne_true,
    if_pos (show (c :: byte ':' :: rest)[1]? = some (byte ':') from rfl), hget, ok_bind, if_pos hc]

theorem hasPhysicalRoot_drive (c l : UInt8) (rest : List UInt8) :
    hasPhysicalRoot sys (c :: byte ':' :: rest) (some (.disk l)) =
      .ok (rest.head?.any isSepByte) := by
  cases rest <;> rfl

theorem driveRelative_iff (path : List UInt8) : DriveRelative sys path ↔ IsDriveRelative path := by
  constructor
  · rintro ⟨p, hp, hroot, hphys⟩
    obtain ⟨c, rest, rfl, hc, rfl⟩ := parsePrefix_disk hp hroot
    rw [hasPhysicalRoot_drive] at hphys
    exact ⟨c, rest, rfl, hc, Except.ok.inj hphys⟩
  · rintro ⟨c, rest, rfl, hc, hrest⟩
    exact ⟨_, parsePrefix_drive hc rest, rfl, (hasPhysicalRoot_drive c _ rest).trans (by rw [hrest])⟩

/-! ## Runs that are safe -/

/-- The prefix fits in the path; no run of calls panics; and the text of every prefix component, from
whichever end, is the first part of the path, of the length of the prefix. -/
def Safe (path : List UInt8) : Prop :=
  (∀ p, parsePrefix path = .ok (some p) → p.len ≤ path.length) ∧
    ∃ N, ∀ n ≥ N, ∀ calls, ∃ t, run sys n path calls = .ok t ∧
      ∀ raw p, Component.pfx raw p ∈ t.front ++ t.back → raw = path.take p.len

theorem not_isSepByte_dot (c : Components) : c.isSepByte sys (byte '.') = false := by
  rw [Components.isSepByte]
  split <;> decide

variable {c : Components}

theorem mem_toCome_pfx {raw lead rest raw' : List UInt8} {p : Prefix}
    (h : Component.pfx raw' p ∈ c.toCome sys raw lead rest) : raw' = raw ∧ c.pfx = some p := by
  rw [toCome, mem_append, mem_append] at h
  rcases h with (h | h) | h
  · rw [pfxComponents] at h
    split at h
    · cases hp : c.pfx with
      | none => simp [hp] at h
      | some q =>
        simp only [hp, map_some, toList_some, mem_singleton] at h
        cases h
        exact ⟨rfl, rfl⟩
    · cases h
  · unfold startComponents leadComponents at h
    split at h
    · split at h
      · simp at h
      split at h
      · split at h <;> simp at h
      · split at h <;> simp at h
    · cases h
  · rw [bodyComponents, mem_filterMap] at h
    obtain ⟨piece, -, h⟩ := h
    rw [parseSingleComponent] at h
    split at h
    · split at h <;> cases h
    split at h
    · cases h
    split at h <;> cases h

theorem safe_of_not_driveRelative (h : ¬ IsDriveRelative path) : Safe path := by
  obtain ⟨o, ho, hlen⟩ := parsePrefix_spec path
  refine ⟨fun p hp => hlen p (Except.ok.inj (ho.symm.trans hp)), path.length + 4,
    fun n hn calls => ?_⟩
  have hle : o.elim 0 Prefix.len ≤ path.length := by
    cases o with
    | none => exact Nat.zero_le _
    | some p => exact hlen p rfl
  obtain ⟨root, lead, rest, hcomps, -, -, hleft⟩ :=
    left_components not_isSepByte_dot ho hle fun hd => h ((driveRelative_iff path).1 hd)
  obtain ⟨t, rest', hrun, hshares⟩ :=
    @run_shares sys _ lead rest path calls n _ not_isSepByte_dot hcomps hleft (by simp only; omega)
  refine ⟨t, hrun, fun raw p hmem => ?_⟩
  have hall : Component.pfx raw p ∈ toCome sys (path.take (o.elim 0 Prefix.len)) lead rest
      ⟨path, o, root, .pfx, .body⟩ := by
    rw [hshares.all_eq]
    simp only [mem_append, mem_reverse] at hmem ⊢
    tauto
  obtain ⟨rfl, rfl⟩ := mem_toCome_pfx hall
  rfl

/-! ## Runs on a path that is relative to a drive -/

/-- The state after `next` has returned the prefix of such a path, while `next_back` takes the
body. -/
structure AfterDrive (c : Components) : Prop where
  pfx : ∃ l, c.pfx = some (.disk l)
  root : c.hasPhysicalRoot = false
  front : c.front = .startDir
  back : c.back = .body

theorem AfterDrive.includeCurDir (h : AfterDrive c) {b : Bool}
    (hb : c.includeCurDir sys = .ok b) : 2 ≤ c.path.length := by
  obtain ⟨l, hl⟩ := h.pfx
  have hroot : c.hasRoot = false := by simp [hasRoot, h.root, hl, hasImplicitRoot, isDrive]
  have hlen : c.prefixLen = 2 := by
    rw [prefixLen, hl]
    rfl
  rw [Components.includeCurDir, hroot, if_neg Bool.false_ne_true, hlen, sliceFrom] at hb
  split at hb
  · assumption
  · cases hb

theorem AfterDrive.lenBeforeBody (h : AfterDrive c) {start : Nat}
    (hs : c.lenBeforeBody sys = .ok start) : 2 ≤ c.path.length ∧ start ≤ 1 := by
  rw [Components.lenBeforeBody, if_pos (by rw [h.front]; decide)] at hs
  obtain ⟨b, hb, hs⟩ := bind_eq_ok.1 hs
  refine ⟨h.includeCurDir hb, ?_⟩
  cases hs
  rw [prefixRemaining, h.front, h.root]
  cases b <;> simp

theorem parseNextComponentBack_pos {start size : Nat} {comp : Option Component}
    (hs : c.lenBeforeBody sys = .ok start) (hlt : start < c.path.length)
    (h : c.parseNextComponentBack sys = .ok (size, comp)) : 0 < size := by
  obtain ⟨_, -, h⟩ := bind_eq_ok.1 h
  obtain ⟨start', hs', h⟩ := bind_eq_ok.1 h
  obtain rfl := Except.ok.inj (hs.symm.trans hs')
  obtain ⟨rest, hrest, h⟩ := bind_eq_ok.1 h
  split at h
  · cases h
    rw [sliceFrom, if_pos (le_of_lt hlt)] at hrest
    cases hrest
    rw [length_drop]
    omega
  · obtain ⟨comp', -, h⟩ := bind_eq_ok.1 h
    cases h
    omega

theorem AfterDrive.nextBack : ∀ {n : Nat} {c c' : Components} {r : Option Component},
    AfterDrive c → c.nextBack sys n = .ok (r, c') → AfterDrive c' ∧ c'.path.length < c.path.length
  | 0, _, _, _, _, hrun => by cases hrun
  | n + 1, c, c', r, h, hrun => by
    have hfin : c.finished = false := by
      rw [finished, h.front, h.back]
      rfl
    rw [Components.nextBack, hfin, if_neg Bool.false_ne_true] at hrun
    obtain ⟨⟨r', c1⟩, hiter, hrun⟩ := bind_eq_ok.1 hrun
    rw [nextBackIter, h.back] at hiter
    obtain ⟨start, hs, hiter⟩ := bind_eq_ok.1 hiter
    obtain ⟨hlen, hle⟩ := h.lenBeforeBody hs
    have hlt : start < c.path.length := by omega
    rw [if_pos hlt] at hiter
    obtain ⟨⟨size, comp⟩, hparse, hiter⟩ := bind_eq_ok.1 hiter
    obtain ⟨path, hpath, hiter⟩ := bind_eq_ok.1 hiter
    have hpos := parseNextComponentBack_pos hs hlt hparse
    have hcut : path.length < c.path.length := by
      rw [sliceToEnd] at hpath
      split at hpath
      · cases hpath
        rw [length_take]
        omega
      · cases hpath
    obtain ⟨rfl, rfl⟩ := Prod.mk.inj (Except.ok.inj hiter)
    have hafter : AfterDrive { c with path, back := .body } := ⟨h.pfx, h.root, h.front, rfl⟩
    cases comp with
    | some comp =>
      cases hrun
      exact ⟨hafter, hcut⟩
    | none =>
      have hnext : Components.nextBack sys n { c with path, back := .body } = .ok (r, c') := hrun
      obtain ⟨h', hlt'⟩ := hafter.nextBack hnext
      exact ⟨h', lt_trans hlt' hcut⟩

theorem AfterDrive.nextBacks {n : Nat} : ∀ {m : Nat} {t t' : Taken}, AfterDrive t.iter →
    (replicate m Call.nextBack).foldlM (fun t call => (t.call sys n call).map Prod.snd) t =
      .ok t' → m ≤ t.iter.path.length
  | 0, _, _, _, _ => Nat.zero_le _
  | m + 1, t, t', h, hrun => by
    obtain ⟨t1, hmap, hrun⟩ := bind_eq_ok.1 hrun
    obtain ⟨⟨r, t2⟩, hcall, rfl⟩ := ok_of_map hmap
    obtain ⟨⟨r', c'⟩, hback, hcall⟩ := bind_eq_ok.1 hcall
    obtain ⟨-, rfl⟩ := Prod.mk.inj (Except.ok.inj hcall)
    obtain ⟨h', hlt⟩ := h.nextBack hback
    exact lt_of_le_of_lt (AfterDrive.nextBacks h' hrun) hlt

/-- On a path that is relative to a drive, one call of `next` and calls of `next_back` until the body
is used up panic. -/
theorem run_driveRelative (h : IsDriveRelative path) (n : Nat) {t : Taken} :
    run sys n path (.next :: replicate (path.length + 1) .nextBack) ≠ .ok t := by
  obtain ⟨c, rest, rfl, hc, hrest⟩ := h
  intro hrun
  have hcomps : components sys (c :: byte ':' :: rest) = .ok ⟨c :: byte ':' :: rest,
      some (.disk (toAsciiUppercase c)), false, .pfx, .body⟩ := by
    have hparse : sys.parsePrefix (c :: byte ':' :: rest) = _ := parsePrefix_drive hc rest
    simp only [components, hparse, hasPhysicalRoot_drive, hrest, ok_bind]
  rw [run, hcomps, ok_bind, foldlM_cons] at hrun
  obtain ⟨t1, hmap, hrun⟩ := bind_eq_ok.1 hrun
  obtain ⟨⟨r, t2⟩, hcall, rfl⟩ := ok_of_map hmap
  rw [Taken.call] at hcall
  obtain ⟨⟨r', c'⟩, hnext, hcall⟩ := bind_eq_ok.1 hcall
  obtain ⟨-, rfl⟩ := Prod.mk.inj (Except.ok.inj hcall)
  cases n with
  | zero => cases hnext
  | succ n =>
    cases hnext
    have hle := AfterDrive.nextBacks (m := _) ⟨⟨_, rfl⟩, rfl, rfl, rfl⟩ hrun
    simp at hle
    omega

/-- Every run of calls on a path is safe exactly when the path is not relative to a drive. -/
theorem safe_iff (path : List UInt8) : Safe path ↔ ¬ IsDriveRelative path := by
  refine ⟨?_, safe_of_not_driveRelative⟩
  rintro ⟨-, N, hrun⟩ hdrive
  obtain ⟨t, ht, -⟩ := hrun N le_rfl (.next :: replicate (path.length + 1) .nextBack)
  exact run_driveRelative hdrive N ht

/-- After `next` has returned the prefix of `C:`, a call of `next_back` panics; and the text of the
prefix component of `C:.` depends on the end. -/
theorem drive_panics : ¬ Safe (bytes "C:") ∧
    run sys 8 (bytes "C:") [.next, .nextBack] = .error (.panic "slice index out of range") ∧
    (run sys 8 (bytes "C:.") [.next]).map Taken.front = .ok [.pfx (bytes "C:") (.disk (byte 'C'))] ∧
    (run sys 8 (bytes "C:.") [.nextBack]).map Taken.back =
      .ok [.pfx (bytes "C:.") (.disk (byte 'C'))] := by
  refine ⟨?_, by decide, by decide, by decide⟩
  rintro ⟨-, N, hrun⟩
  obtain ⟨t, ht, -⟩ := hrun N le_rfl (.next :: replicate 3 .nextBack)
  exact run_driveRelative ⟨byte 'C', [], rfl, by decide, rfl⟩ N ht

end Tortis.Path.Windows
