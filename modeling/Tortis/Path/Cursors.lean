import Tortis.Path.Components

/-!
# What the two ends have left

`Left raw lead rest c` says what the slice of an iterator consists of: the text `raw` of the prefix
and the text `lead` of the starting directory, as far as the ends have not taken them, and the text
`rest` of the body. `toCome` are the components that are still to come.
-/

namespace Tortis.Path

open Slice Pieces Outcome List Components State

/-- The text of the starting directory: a root separator, nothing where the root is implicit, and,
without a prefix, a dot or nothing. -/
inductive Lead (pfx : Option Prefix) (root : Bool) : List UInt8 → Prop where
  | root {s : UInt8} : root = true → Lead pfx root [s]
  | implicit {p : Prefix} : root = false → pfx = some p → p.hasImplicitRoot = true →
    Lead pfx root []
  | curDir : root = false → pfx = none → Lead pfx root (bytes ".")
  | nothing : root = false → pfx = none → Lead pfx root []

/-- The starting directory is ahead of both ends. -/
def HasStart (front back : State) : Prop :=
  (front = .pfx ∨ front = .startDir) ∧ (back = .startDir ∨ back = .body)

instance (front back : State) : Decidable (HasStart front back) :=
  inferInstanceAs (Decidable
    ((front = .pfx ∨ front = .startDir) ∧ (back = .startDir ∨ back = .body)))

/-- What is left of the text of the prefix. -/
def rawLeft (raw : List UInt8) (front : State) : List UInt8 := if front = .pfx then raw else []

/-- What is left of the text of the starting directory. -/
def leadLeft (lead : List UInt8) (front back : State) : List UInt8 :=
  if HasStart front back then lead else []

/-- The prefix component, if it is to come. -/
def pfxComponents (raw : List UInt8) (pfx : Option Prefix) (front back : State) : List Component :=
  if front = .pfx ∧ back ≠ .done then (pfx.map (Component.pfx raw)).toList else []

/-- The component of the starting directory, by its text. -/
def leadComponents (pfx : Option Prefix) (root : Bool) (lead : List UInt8) : List Component :=
  if root then [.rootDir]
  else
    match pfx with
    | some p => if p.hasImplicitRoot && !p.isVerbatim then [.rootDir] else []
    | none => if lead = bytes "." then [.curDir] else []

/-- The component of the starting directory, if it is to come. -/
def startComponents (pfx : Option Prefix) (root : Bool) (lead : List UInt8) (front back : State) :
    List Component :=
  if HasStart front back then leadComponents pfx root lead else []

namespace Components

variable (sys : Sys) (raw lead rest : List UInt8) (c : Components)

def DotFirst (l : List UInt8) : Prop := (l.splitOnP (c.isSepByte sys)).head? = some (bytes ".")

/-- What the slice of the iterator consists of. -/
structure Left : Prop where
  path : c.path = rawLeft raw c.front ++ leadLeft lead c.front c.back ++ rest
  raw_length : raw.length = c.prefixLen
  isLead : Lead c.pfx c.hasPhysicalRoot lead
  cur : HasStart c.front c.back → c.hasRoot = false →
    (c.DotFirst sys (lead ++ rest) ↔ lead = bytes ".") ∧
      (lead = [] → rest.head?.any (c.isSepByte sys) = false)
  back : c.back ≠ .body → rest = []
  front : c.front = .done → rest = []

def bodyComponents : List Component :=
  (rest.splitOnP (c.isSepByte sys)).filterMap c.parseSingleComponent

def toCome : List Component :=
  pfxComponents raw c.pfx c.front c.back ++
    startComponents c.pfx c.hasPhysicalRoot lead c.front c.back ++ c.bodyComponents sys rest

/-- A bound for the iterations of `next`. -/
def frontWork : Nat := c.path.length + (3 - c.front.rank)

/-- A bound for the iterations of `next_back`. -/
def backWork : Nat :=
  c.path.length + match c.back with
    | .body => 3
    | .startDir => 2
    | .pfx => 1
    | .done => 0

variable {sys raw lead rest c}

@[simp] theorem bodyComponents_nil : c.bodyComponents sys [] = [] := by
  have hnil : c.parseSingleComponent [] = none := by
    simp [parseSingleComponent, bytes]
  simp [bodyComponents, hnil]

variable {a b : List UInt8}

theorem bodyComponents_first {s : UInt8} (hs : c.isSepByte sys s = true)
    (ha : ∀ x ∈ a, c.isSepByte sys x = false) : c.bodyComponents sys (a ++ s :: b) =
      (c.parseSingleComponent a).toList ++ c.bodyComponents sys b :=
  filterMap_first _ hs ha

theorem bodyComponents_last {s : UInt8} (hs : c.isSepByte sys s = true)
    (hb : ∀ x ∈ b, c.isSepByte sys x = false) : c.bodyComponents sys (a ++ s :: b) =
      c.bodyComponents sys a ++ (c.parseSingleComponent b).toList :=
  filterMap_last _ hs hb

theorem bodyComponents_only (h : ∀ x ∈ rest, c.isSepByte sys x = false) :
    c.bodyComponents sys rest = (c.parseSingleComponent rest).toList :=
  filterMap_only _ h

theorem dotFirst_cut {s : UInt8} (hs : c.isSepByte sys s = true) :
    c.DotFirst sys (a ++ s :: b) ↔ c.DotFirst sys a := by
  rw [DotFirst, DotFirst, splitOnP_append_cons a b hs,
    head?_append_of_ne_nil _ (splitOnP_ne_nil _ a)]

/-! ## The iterator knows what is left -/

section
variable (hdot : c.isSepByte sys (byte '.') = false)
include hdot

theorem startsWithDot_iff (l : List UInt8) : c.startsWithDot sys l = true ↔ c.DotFirst sys l := by
  have hpiece : ∀ x ∈ bytes ".", c.isSepByte sys x = false := by
    intro x hx
    obtain rfl := mem_singleton.1 hx
    exact hdot
  rw [DotFirst, head?_splitOnP hpiece]
  have hbytes : bytes "." = [byte '.'] := rfl
  rw [hbytes]
  match l with
  | [] => simp [startsWithDot]
  | [a] => simp [startsWithDot]
  | a :: b :: l =>
    simp only [startsWithDot, List.cons.injEq, reduceCtorEq, and_false, false_or,
      singleton_append, Bool.and_eq_true, beq_iff_eq]
    constructor
    · rintro ⟨rfl, hs⟩
      exact ⟨b, l, ⟨rfl, rfl, rfl⟩, hs⟩
    · rintro ⟨s, t, ⟨rfl, rfl, rfl⟩, hs⟩
      exact ⟨rfl, hs⟩

theorem dotFirst_dot : c.DotFirst sys (bytes ".") :=
  (startsWithDot_iff hdot _).1 (beq_self_eq_true (byte '.'))

omit hdot in
theorem not_dotFirst_nil : ¬ c.DotFirst sys [] := by
  simp [DotFirst, bytes]

theorem Left.includeCurDir_eq (h : Left sys raw lead rest c) (hstart : HasStart c.front c.back) :
    c.includeCurDir sys = .ok (decide (c.hasRoot = false ∧ lead = bytes ".")) := by
  rw [includeCurDir]
  cases hroot : c.hasRoot with
  | true => rfl
  | false =>
    have hpfx : c.pfx = none := by
      cases h.isLead with
      | root hr => simp [hasRoot, hr] at hroot
      | implicit hr hp hi => simp [hasRoot, hr, hp, hi] at hroot
      | curDir _ hp => exact hp
      | nothing _ hp => exact hp
    have hlen : c.prefixLen = 0 := by simp [prefixLen, hpfx]
    have hraw : raw = [] := eq_nil_of_length_eq_zero (h.raw_length.trans hlen)
    have hpath : c.path = lead ++ rest := by
      rw [h.path, rawLeft, leadLeft, if_pos hstart, hraw]
      simp
    have hslice : sliceFrom c.path 0 = .ok c.path := rfl
    rw [if_neg (by simp), hlen, hslice, hpath]
    have hcur := (startsWithDot_iff hdot (lead ++ rest)).trans (h.cur hstart hroot).1
    rw [ok_bind, Bool.eq_iff_iff.2 (hcur.trans decide_eq_true_iff.symm)]
    simp

theorem Left.lenBeforeBody_eq (h : Left sys raw lead rest c) (hback : c.back = .body) :
    c.lenBeforeBody sys = .ok ((rawLeft raw c.front).length + (leadLeft lead c.front c.back).length) := by
  rw [lenBeforeBody]
  have hraw : c.prefixRemaining = (rawLeft raw c.front).length := by
    rw [prefixRemaining, rawLeft]
    split
    · exact h.raw_length.symm
    · rfl
  by_cases hfront : c.front ≤ .startDir
  · have hstart : HasStart c.front c.back := ⟨le_startDir.1 hfront, .inr hback⟩
    rw [if_pos hfront, h.includeCurDir_eq hdot hstart, ok_bind, hraw, leadLeft, if_pos hstart]
    simp only [hfront, true_and, add_assoc, decide_eq_true_eq]
    congr 2
    cases h.isLead with
    | root hr => simp [hr, hasRoot]
    | implicit hr hp hi => simp [hr, hasRoot, hp, hi]
    | curDir hr hp =>
      simp [hr, hasRoot, hp]
      rfl
    | nothing hr hp => simp [hr, bytes]
  · have hstart : ¬ HasStart c.front c.back := fun hs => hfront (le_startDir.2 hs.1)
    simp only [hfront, ok_bind, false_and, if_false, leadLeft, if_neg hstart, hraw]
    simp

end

/-! ## The body from the front -/

/-- Of a text that is left of the body, the first piece gives a component. -/
def FirstKept (sys : Sys) (c : Components) (rest : List UInt8) : Prop :=
  ∃ a, (rest.splitOnP (c.isSepByte sys)).head? = some a ∧ (c.parseSingleComponent a).isSome

theorem Left.path_eq (h : Left sys raw lead rest c) (hfront : c.front = .body) : c.path = rest := by
  have hstart : ¬ HasStart c.front c.back := by simp [HasStart, hfront]
  rw [h.path, rawLeft, leadLeft, if_neg hstart, if_neg (by rw [hfront]; decide)]
  rfl

theorem parseNextComponent_spec (hfront : c.front = .body) (hne : c.path ≠ []) :
    ∃ size comp rest', c.parseNextComponent sys = .ok (size, comp) ∧
      sliceFrom c.path size = .ok rest' ∧ rest'.length < c.path.length ∧
      c.bodyComponents sys c.path = comp.toList ++ c.bodyComponents sys rest' ∧
      (comp.isSome → FirstKept sys c c.path) := by
  have hassert : assert (decide (c.front = .body))
      "assertion failed: self.front == State::Body" = .ok () := by
    rw [hfront]
    rfl
  have hpos : 0 < c.path.length := length_pos_iff.2 hne
  rw [parseNextComponent, hassert, ok_bind]
  cases hp : position (c.isSepByte sys) c.path with
  | none =>
    have hnone := position_none hp
    refine ⟨_, _, [], rfl, ?_, hpos, ?_, fun hsome => ⟨c.path, ?_, hsome⟩⟩
    · have hslice := sliceFrom_append (a := c.path) (b := []) rfl
      rwa [append_nil] at hslice
    · rw [bodyComponents_only hnone, bodyComponents_nil, append_nil]
    · rw [splitOnP_eq_singleton hnone, head?_cons]
  | some i =>
    obtain ⟨a, s, b, hpath, rfl, hs, ha⟩ := position_some hp
    have hto : sliceTo c.path a.length = .ok a := by
      rw [hpath]
      exact sliceTo_append rfl
    simp only [hto, ok_bind]
    refine ⟨_, _, b, rfl, ?_, ?_, ?_, fun hsome => ⟨a, ?_, hsome⟩⟩
    · have hsplit : c.path = (a ++ [s]) ++ b := by rw [hpath]; simp
      rw [hsplit]
      exact sliceFrom_append (by simp)
    · rw [hpath]
      simp only [length_append, length_cons]
      omega
    · rw [hpath, bodyComponents_first hs ha]
    · rw [hpath, splitOnP_append_cons_of_forall_mem ha s hs, head?_cons]

theorem Left.cutFront {rest' : List UInt8} (h : Left sys raw lead rest c) (hfront : c.front = .body)
    (hback : c.back = .body) : Left sys raw lead rest' { c with path := rest' } where
  path := by simp [rawLeft, leadLeft, HasStart, hfront]
  raw_length := h.raw_length
  isLead := h.isLead
  cur hs := by simp [HasStart, hfront] at hs
  back hne := absurd hback hne
  front hdone := by
    simp only [hfront] at hdone
    cases hdone

/-! ## The body from the back -/

/-- A text that is left of the body when its last piece is taken away. -/
def CutBack (sys : Sys) (c : Components) (rest rest' : List UInt8) : Prop :=
  (rest' = [] ∧ ∀ x ∈ rest, c.isSepByte sys x = false) ∨
    ∃ s b, rest = rest' ++ s :: b ∧ c.isSepByte sys s = true

section
variable (hdot : c.isSepByte sys (byte '.') = false)
include hdot

theorem Left.cutBack {rest' : List UInt8} (h : Left sys raw lead rest c)
    (hcut : CutBack sys c rest rest') (hback : c.back = .body) (hdone : c.front ≠ .done) :
    Left sys raw lead rest' { c with path := rawLeft raw c.front ++ leadLeft lead c.front c.back ++ rest' } where
  path := rfl
  raw_length := h.raw_length
  isLead := h.isLead
  cur hs hroot := by
    obtain ⟨hcur, hsep⟩ := h.cur hs hroot
    rcases hcut with ⟨rfl, -⟩ | ⟨s, b, rfl, hs⟩
    · refine ⟨?_, fun _ => rfl⟩
      cases h.isLead with
      | root hr => simp [hasRoot, hr] at hroot
      | implicit hr hp hi => simp [hasRoot, hr, hp, hi] at hroot
      | curDir => exact iff_of_true (dotFirst_dot hdot) rfl
      | nothing => exact iff_of_false not_dotFirst_nil (by simp [bytes])
    · rw [← append_assoc, dotFirst_cut hs] at hcur
      refine ⟨hcur, fun hnil => ?_⟩
      cases rest' with
      | nil => rfl
      | cons a rest' => exact hsep hnil
  back hne := absurd hback hne
  front hfront := absurd hfront hdone

theorem Left.parseNextComponentBack_spec (h : Left sys raw lead rest c) (hback : c.back = .body)
    (hne : rest ≠ []) : ∃ size comp rest', c.parseNextComponentBack sys = .ok (size, comp) ∧
      sliceToEnd c.path size = .ok (rawLeft raw c.front ++ leadLeft lead c.front c.back ++ rest') ∧
      rest'.length < rest.length ∧
      c.bodyComponents sys rest = c.bodyComponents sys rest' ++ comp.toList ∧
      CutBack sys c rest rest' := by
  have hassert : assert (decide (c.back = .body))
      "assertion failed: self.back == State::Body" = .ok () := by
    rw [hback]
    rfl
  have hpos : 0 < rest.length := length_pos_iff.2 hne
  generalize hbefore : rawLeft raw c.front ++ leadLeft lead c.front c.back = before
  have hpath : c.path = before ++ rest := by rw [h.path, hbefore]
  have hstart : c.lenBeforeBody sys = .ok before.length := by
    rw [h.lenBeforeBody_eq hdot hback, ← hbefore, length_append]
  have hslice : sliceFrom c.path before.length = .ok rest := by
    rw [hpath]
    exact sliceFrom_append rfl
  rw [parseNextComponentBack, hassert, ok_bind, hstart, ok_bind, hslice, ok_bind]
  cases hp : rposition (c.isSepByte sys) rest with
  | none =>
    have hnone := rposition_none hp
    refine ⟨_, _, [], rfl, ?_, hpos, ?_, .inl ⟨rfl, hnone⟩⟩
    · rw [hpath, append_nil]
      exact sliceToEnd_append rfl
    · rw [bodyComponents_only hnone, bodyComponents_nil, nil_append]
  | some i =>
    obtain ⟨a, s, b, rfl, rfl, hs, hb⟩ := rposition_some hp
    have hfrom : sliceFrom c.path (before.length + a.length + 1) = .ok b := by
      have hsplit : c.path = (before ++ a ++ [s]) ++ b := by rw [hpath]; simp
      rw [hsplit]
      exact sliceFrom_append (by simp only [length_append, length_singleton])
    simp only [hfrom, ok_bind]
    refine ⟨_, _, a, rfl, ?_, ?_, bodyComponents_last hs hb, .inr ⟨s, b, rfl, hs⟩⟩
    · rw [hpath, ← append_assoc]
      exact sliceToEnd_append (by simp)
    · simp only [length_append, length_cons]
      omega

end

/-! ## An iteration of `next` -/

structure SameOrigin (c c' : Components) : Prop where
  pfx : c'.pfx = c.pfx
  root : c'.hasPhysicalRoot = c.hasPhysicalRoot
  length : c'.path.length ≤ c.path.length

theorem Left.toCome_finished (h : Left sys raw lead rest c) (hfin : c.finished = true) :
    c.toCome sys raw lead rest = [] := by
  have hfront := h.front
  have hback := h.back
  obtain ⟨path, pfx, root, front, back⟩ := c
  have hrest : rest = [] := by
    cases back with
    | body =>
      refine hfront ?_
      cases front <;> first | rfl | cases hfin
    | _ => exact hback nofun
  subst hrest
  cases front <;> cases back <;> first | cases hfin; done | skip
  all_goals
    simp [toCome, pfxComponents, startComponents, HasStart]

theorem Left.length_path (h : Left sys raw lead rest c) : c.path.length =
    (rawLeft raw c.front).length + (leadLeft lead c.front c.back).length + rest.length := by
  rw [h.path, length_append, length_append]

theorem not_finished (hfin : c.finished = false) :
    c.front ≠ .done ∧ c.back ≠ .done ∧ c.front ≤ c.back := by
  simpa [finished, and_assoc] using hfin

section
variable (hdot : c.isSepByte sys (byte '.') = false) (h : Left sys raw lead rest c)
  (hfin : c.finished = false)

/-- What an iteration of a loop does: it returns the component `r` that is taken at an end, or
goes on. -/
def Iterates (sys : Sys) (raw lead rest : List UInt8) (c : Components)
    (takes : List Component → List Component → List Component → Prop)
    (work : Components → Nat) (x : Outcome (Option (Option Component) × Components)) : Prop :=
  ∃ r c' rest', x = .ok (r, c') ∧ Left sys raw lead rest' c' ∧ SameOrigin c c' ∧ work c' < work c ∧
    takes (c.toCome sys raw lead rest) (r.join.toList) (c'.toCome sys raw lead rest') ∧
    (r = some none → c.toCome sys raw lead rest = [])

/-- The front takes the component before those that are still to come. -/
def TakesFirst (before taken after : List Component) : Prop := before = taken ++ after

/-- The back takes the component after those that are still to come. -/
def TakesLast (before taken after : List Component) : Prop := before = after ++ taken

include h hfin

theorem Left.nextIter_pfx (hfront : c.front = .pfx) :
    Iterates sys raw lead rest c TakesFirst frontWork (c.nextIter sys) := by
  obtain ⟨-, hback, -⟩ := not_finished hfin
  obtain ⟨path, pfx, root, front, back⟩ := c
  obtain rfl : front = .pfx := hfront
  have hstart : HasStart .pfx back ↔ HasStart .startDir back := by simp [HasStart]
  have hcur := h.cur
  have hpath := h.path
  simp only [hstart] at hcur
  simp only [rawLeft, if_true, leadLeft, hstart, append_assoc] at hpath
  cases pfx with
  | none =>
    obtain rfl : raw = [] := eq_nil_of_length_eq_zero h.raw_length
    refine ⟨none, ⟨path, none, root, .startDir, back⟩, rest, rfl,
      ⟨?_, h.raw_length, h.isLead, hcur, h.back, nofun⟩, ⟨rfl, rfl, le_rfl⟩, ?_, ?_, nofun⟩
    · simpa [rawLeft, leadLeft] using hpath
    · simp [frontWork, State.rank]
    · simp only [TakesFirst, toCome, startComponents, hstart, pfxComponents]
      simp
      rfl
  | some p =>
    have hlen : raw.length = p.len := h.raw_length
    generalize hT : (if HasStart .startDir back then lead else []) ++ rest = T at hpath
    subst hpath
    have hto : sliceTo (raw ++ T) p.len = .ok raw := sliceTo_append hlen
    have hfrom : sliceFrom (raw ++ T) p.len = .ok T := sliceFrom_append hlen
    have hpos := p.len_pos
    have hle : p.len ≤ raw.length + T.length := by omega
    refine ⟨some (some (.pfx raw p)), ⟨T, some p, root, .startDir, back⟩, rest, ?_,
      ⟨?_, h.raw_length, h.isLead, hcur, h.back, nofun⟩, ⟨rfl, rfl, ?_⟩, ?_, ?_, nofun⟩
    · simp [nextIter, prefixLen, hpos, assert, hle, hto, hfrom]
    · simp [rawLeft, leadLeft, hT]
    · simp
    · simp only [frontWork, State.rank, length_append]
      omega
    · simp only [TakesFirst, toCome, startComponents, hstart, pfxComponents]
      simp [hback]
      rfl

include hdot in
theorem Left.nextIter_startDir (hfront : c.front = .startDir) :
    Iterates sys raw lead rest c TakesFirst frontWork (c.nextIter sys) := by
  obtain ⟨-, hnotDone, hle⟩ := not_finished hfin
  obtain ⟨path, pfx, root, front, back⟩ := c
  obtain rfl : front = .startDir := hfront
  have hback : back = .startDir ∨ back = .body := by
    cases back with
    | pfx => exact absurd hle (show ¬ State.startDir ≤ State.pfx by decide)
    | startDir => exact .inl rfl
    | body => exact .inr rfl
    | done => exact absurd rfl hnotDone
  have hstart : HasStart .startDir back := ⟨.inr rfl, hback⟩
  have hcur := h.includeCurDir_eq hdot hstart
  have hpath : path = lead ++ rest := by
    simpa [rawLeft, leadLeft, hstart] using h.path
  -- Behind the starting directory the body is left.
  have hleft : Left sys raw lead rest ⟨rest, pfx, root, .body, back⟩ :=
    ⟨by simp [rawLeft, leadLeft, HasStart], h.raw_length, h.isLead, fun hs => by simp [HasStart] at hs,
      h.back, nofun⟩
  have hwork : rest.length + 1 < path.length + 2 := by
    rw [hpath, length_append]
    omega
  have htoCome : toCome sys raw lead rest ⟨path, pfx, root, .startDir, back⟩ =
      leadComponents pfx root lead ++ toCome sys raw lead rest ⟨rest, pfx, root, .body, back⟩ := by
    simp only [toCome, pfxComponents, startComponents, if_pos hstart]
    rfl
  have hiter : ∀ r, nextIter sys ⟨path, pfx, root, .startDir, back⟩ =
        .ok (r, ⟨rest, pfx, root, .body, back⟩) → r ≠ some none →
      r.join.toList = leadComponents pfx root lead →
      Iterates sys raw lead rest ⟨path, pfx, root, .startDir, back⟩ TakesFirst frontWork
        (nextIter sys ⟨path, pfx, root, .startDir, back⟩) := by
    intro r hr hne htaken
    refine ⟨r, _, rest, hr, hleft, ⟨rfl, rfl, ?_⟩, hwork, ?_, fun h => absurd h hne⟩
    · change rest.length ≤ path.length
      omega
    · rw [TakesFirst, htoCome, htaken]
  have hlead := h.isLead
  cases hlead with
  | root hr =>
    subst hr
    obtain rfl := hpath
    exact hiter (some (some .rootDir)) rfl nofun rfl
  | @implicit p hr hp hi =>
    subst hr hp
    obtain rfl : path = rest := hpath
    cases hv : p.isVerbatim with
    | true => exact hiter none (by simp [nextIter, hv]) nofun (by simp [leadComponents, hv])
    | false =>
      exact hiter (some (some .rootDir)) (by simp [nextIter, hv, hi]) nofun
        (by simp [leadComponents, hv, hi])
  | curDir hr hp =>
    subst hr hp
    obtain rfl := hpath
    have hcur' : includeCurDir sys ⟨bytes "." ++ rest, none, false, .body, back⟩ = .ok true := hcur
    have hslice : sliceFrom (bytes "." ++ rest) 1 = .ok rest := sliceFrom_append rfl
    have hempty : bytes "." ≠ [] := cons_ne_nil _ _
    exact hiter (some (some .curDir))
      (by simp [nextIter, hcur', hslice, assert, hempty]) nofun rfl
  | nothing hr hp =>
    subst hr hp
    obtain rfl : path = rest := hpath
    have hcur' : includeCurDir sys ⟨path, none, false, .body, back⟩ = .ok false := hcur
    exact hiter none (by simp [nextIter, hcur']) nofun rfl

theorem Left.nextIter_body (hfront : c.front = .body) :
    Iterates sys raw lead rest c TakesFirst frontWork (c.nextIter sys) := by
  obtain ⟨-, hnotDone, hle⟩ := not_finished hfin
  have hpath := h.path_eq hfront
  have hback : c.back = .body := by
    obtain ⟨path, pfx, root, front, back⟩ := c
    obtain rfl : front = .body := hfront
    cases back with
    | pfx => exact absurd hle (show ¬ State.body ≤ State.pfx by decide)
    | startDir => exact absurd hle (show ¬ body ≤ startDir by decide)
    | body => rfl
    | done => exact absurd rfl hnotDone
  have htoCome : ∀ l c', c'.front = .body ∨ c'.front = .done → c'.pfx = c.pfx →
      toCome sys raw lead l c' = c.bodyComponents sys l := by
    rintro l ⟨path, pfx, root, front, back⟩ (rfl | rfl) rfl <;>
    · rfl
  by_cases hnil : c.path = []
  · have hrest : rest = [] := hpath ▸ hnil
    subst hrest
    refine ⟨none, { c with front := .done }, [], ?_, ⟨?_, h.raw_length, h.isLead, ?_, h.back,
      fun _ => rfl⟩, ⟨rfl, rfl, le_rfl⟩, ?_, ?_, nofun⟩
    · simp [nextIter, hfront, hnil]
    · simp [rawLeft, leadLeft, HasStart, hnil]
    · simp [HasStart]
    · simp [frontWork, hfront, State.rank]
    · rw [TakesFirst, htoCome [] c (.inl hfront) rfl,
        htoCome [] { c with front := .done } (.inr rfl) rfl]
      rfl
  · obtain ⟨size, comp, rest', hparse, hslice, hlt, hbody, -⟩ :=
      @parseNextComponent_spec sys c hfront hnil
    refine ⟨if comp.isSome then some comp else none, { c with path := rest' }, rest', ?_,
      h.cutFront hfront hback, ⟨rfl, rfl, le_of_lt hlt⟩, ?_, ?_, ?_⟩
    · simp [nextIter, hfront, hnil, hparse, hslice]
    · simp only [frontWork]
      omega
    · rw [TakesFirst, htoCome rest c (.inl hfront) rfl,
        htoCome rest' { c with path := rest' } (.inl hfront) rfl, ← hpath, hbody]
      cases comp <;> rfl
    · cases comp <;> nofun

include hdot in
theorem Left.nextIter_spec :
    Iterates sys raw lead rest c TakesFirst frontWork (c.nextIter sys) := by
  cases hfront : c.front with
  | pfx => exact h.nextIter_pfx hfin hfront
  | startDir => exact h.nextIter_startDir hdot hfin hfront
  | body => exact h.nextIter_body hfin hfront
  | done => exact absurd hfront (not_finished hfin).1

/-! ## An iteration of `next_back` -/

include hdot in
theorem Left.nextBackIter_body (hback : c.back = .body) :
    Iterates sys raw lead rest c TakesLast backWork (c.nextBackIter sys) := by
  obtain ⟨hnotDone, -, -⟩ := not_finished hfin
  have hstart := h.lenBeforeBody_eq hdot hback
  have hlen := h.length_path
  by_cases hnil : rest = []
  · subst hnil
    have hs : HasStart c.front .startDir ↔ HasStart c.front c.back := by simp [HasStart, hback]
    refine ⟨none, { c with back := .startDir }, [], ?_, ⟨?_, h.raw_length, h.isLead, ?_,
      fun _ => rfl, fun _ => rfl⟩, ⟨rfl, rfl, le_rfl⟩, ?_, ?_, nofun⟩
    · simp [nextBackIter, hback, hstart, hlen]
    · simpa only [leadLeft, hs] using h.path
    · exact fun hstart' => h.cur (hs.1 hstart')
    · simp [backWork, hback]
    · simp only [TakesLast, toCome, startComponents, hs, pfxComponents, hback]
      simp
  · obtain ⟨size, comp, rest', hparse, hslice, hlt, hbody, hcut⟩ :=
      h.parseNextComponentBack_spec hdot hback hnil
    have hpos := length_pos_iff.2 hnil
    refine ⟨if comp.isSome then some comp else none, _, rest', ?_,
      h.cutBack hdot hcut hback hnotDone, ⟨rfl, rfl, ?_⟩, ?_, ?_, ?_⟩
    · simp [nextBackIter, hback, hstart, hlen, hparse, hslice, hpos]
    · simp only [length_append, hlen]
      omega
    · simp only [backWork, hback, length_append, hlen]
      omega
    · simp only [TakesLast, toCome, hbody, ← append_assoc]
      cases comp <;> rfl
    · cases comp <;> nofun

include hdot in
theorem Left.nextBackIter_startDir (hback : c.back = .startDir) :
    Iterates sys raw lead rest c TakesLast backWork (c.nextBackIter sys) := by
  obtain ⟨hnotDone, -, hle⟩ := not_finished hfin
  obtain rfl : rest = [] := h.back (by rw [hback]; nofun)
  obtain ⟨path, pfx, root, front, back⟩ := c
  obtain rfl : back = .startDir := hback
  have hfront : front = .pfx ∨ front = .startDir := by
    cases front with
    | pfx => exact .inl rfl
    | startDir => exact .inr rfl
    | body => exact absurd hle (show ¬ body ≤ startDir by decide)
    | done => exact absurd rfl hnotDone
  have hstart : HasStart front .startDir := ⟨hfront, .inl rfl⟩
  have hno : ¬ HasStart front .pfx := by simp [HasStart]
  have hcur := h.includeCurDir_eq hdot hstart
  have hpath : path = rawLeft raw front ++ lead := by
    simpa [leadLeft, hstart] using h.path
  generalize hT : rawLeft raw front = T at hpath
  -- Before the starting directory the prefix is left.
  have hleft : Left sys raw lead [] ⟨T, pfx, root, front, .pfx⟩ :=
    ⟨by simp [hT, leadLeft, hno], h.raw_length, h.isLead, fun hs => absurd hs hno,
      fun _ => rfl, fun _ => rfl⟩
  have htoCome : toCome sys raw lead [] ⟨path, pfx, root, front, .startDir⟩ =
      toCome sys raw lead [] ⟨T, pfx, root, front, .pfx⟩ ++ leadComponents pfx root lead := by
    simp [toCome, pfxComponents, startComponents, hstart, hno]
  have hiter : ∀ r, nextBackIter sys ⟨path, pfx, root, front, .startDir⟩ =
        .ok (r, ⟨T, pfx, root, front, .pfx⟩) → r ≠ some none →
      r.join.toList = leadComponents pfx root lead →
      Iterates sys raw lead [] ⟨path, pfx, root, front, .startDir⟩ TakesLast backWork
        (nextBackIter sys ⟨path, pfx, root, front, .startDir⟩) := by
    intro r hr hne htaken
    have hlen : T.length ≤ path.length := by
      rw [hpath, length_append]
      omega
    refine ⟨r, _, [], hr, hleft, ⟨rfl, rfl, hlen⟩, ?_, ?_, fun h => absurd h hne⟩
    · simp only [backWork]
      omega
    · rw [TakesLast, htoCome, htaken]
  have hlead := h.isLead
  cases hlead with
  | root hr =>
    subst hr
    obtain rfl := hpath
    have hslice : ∀ s, sliceToEnd (T ++ [s]) 1 = .ok T := fun s => sliceToEnd_append rfl
    exact hiter (some (some .rootDir)) (by simp [nextBackIter, hslice]) nofun rfl
  | @implicit p hr hp hi =>
    subst hr hp
    obtain rfl : path = T := by rw [hpath, append_nil]
    cases hv : p.isVerbatim with
    | true => exact hiter none (by simp [nextBackIter, hv]) nofun (by simp [leadComponents, hv])
    | false =>
      exact hiter (some (some .rootDir)) (by simp [nextBackIter, hv, hi]) nofun
        (by simp [leadComponents, hv, hi])
  | curDir hr hp =>
    subst hr hp
    obtain rfl := hpath
    have hcur' : includeCurDir sys ⟨T ++ bytes ".", none, false, front, .pfx⟩ = .ok true := hcur
    have hslice : sliceToEnd (T ++ bytes ".") 1 = .ok T := sliceToEnd_append rfl
    exact hiter (some (some .curDir)) (by simp [nextBackIter, hcur', hslice]) nofun rfl
  | nothing hr hp =>
    subst hr hp
    obtain rfl : path = T := by rw [hpath, append_nil]
    have hcur' : includeCurDir sys ⟨path, none, false, front, .pfx⟩ = .ok false := hcur
    exact hiter none (by simp [nextBackIter, hcur']) nofun rfl

theorem Left.nextBackIter_pfx (hback : c.back = .pfx) :
    Iterates sys raw lead rest c TakesLast backWork (c.nextBackIter sys) := by
  obtain ⟨hnotDone, -, hle⟩ := not_finished hfin
  obtain rfl : rest = [] := h.back (by rw [hback]; nofun)
  obtain ⟨path, pfx, root, front, back⟩ := c
  obtain rfl : back = .pfx := hback
  obtain rfl : front = .pfx := by
    cases front with
    | pfx => rfl
    | startDir => exact absurd hle (show ¬ State.startDir ≤ State.pfx by decide)
    | body => exact absurd hle (show ¬ State.body ≤ State.pfx by decide)
    | done => exact absurd rfl hnotDone
  obtain rfl : path = raw := by simpa [rawLeft, leadLeft, HasStart] using h.path
  have hleft : Left sys path lead [] ⟨path, pfx, root, .pfx, .done⟩ :=
    ⟨by simp [rawLeft, leadLeft, HasStart], h.raw_length, h.isLead,
      fun hs => by simp [HasStart] at hs, fun _ => rfl, fun _ => rfl⟩
  cases pfx with
  | none =>
    refine ⟨some none, _, [], rfl, hleft, ⟨rfl, rfl, le_rfl⟩, ?_, ?_, fun _ => ?_⟩
    · simp [backWork]
    · simp [TakesLast, toCome, pfxComponents, startComponents, HasStart]
    · simp [toCome, pfxComponents, startComponents, HasStart]
  | some p =>
    refine ⟨some (some (.pfx path p)), _, [], ?_, hleft, ⟨rfl, rfl, le_rfl⟩, ?_, ?_, nofun⟩
    · simp [nextBackIter, prefixLen, p.len_pos]
    · simp [backWork]
    · simp [TakesLast, toCome, pfxComponents, startComponents, HasStart]

include hdot in
theorem Left.nextBackIter_spec :
    Iterates sys raw lead rest c TakesLast backWork (c.nextBackIter sys) := by
  cases hback : c.back with
  | pfx => exact h.nextBackIter_pfx hfin hback
  | startDir => exact h.nextBackIter_startDir hdot hfin hback
  | body => exact h.nextBackIter_body hdot hfin hback
  | done => exact absurd hback (not_finished hfin).2.1

end

end Components

end Tortis.Path
