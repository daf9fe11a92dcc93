import Tortis.Path.Cursors

/-!
# Runs of calls from both ends

A call of `next` takes the first of the components that are to come and a call of `next_back` the
last one (`next_spec`, `nextBack_spec`); `as_path` leaves them all (`asPath_spec`). So every run of
calls shares the components of the path out between its ends (`run_shares`), when the iterator
starts with an account of its path (`left_components`).
-/

namespace Tortis.Path

open Slice Pieces Outcome List Option

namespace Components

variable {sys : Sys} {raw lead rest : List UInt8} {c : Components}

/-! ## Calls -/

theorem SameOrigin.trans {c1 c2 c3 : Components} (h : SameOrigin c1 c2) (h' : SameOrigin c2 c3) :
    SameOrigin c1 c3 :=
  ⟨h'.pfx.trans h.pfx, h'.root.trans h.root, le_trans h'.length h.length⟩

theorem SameOrigin.isSepByte_eq {c' : Components} (h : SameOrigin c c') (sys : Sys) :
    c'.isSepByte sys = c.isSepByte sys := by
  funext b
  rw [isSepByte, isSepByte, prefixVerbatim, prefixVerbatim, h.pfx]

theorem Left.next_spec : ∀ {n : Nat} {rest : List UInt8} {c : Components},
    c.isSepByte sys (byte '.') = false → Left sys raw lead rest c → c.frontWork < n →
    ∃ r c' rest', c.next sys n = .ok (r, c') ∧ Left sys raw lead rest' c' ∧ SameOrigin c c' ∧
      TakesFirst (c.toCome sys raw lead rest) r.toList (c'.toCome sys raw lead rest') ∧
      (r = none → c.toCome sys raw lead rest = [])
  | 0, _, _, _, _, hn => absurd hn (Nat.not_lt_zero _)
  | n + 1, rest, c, hdot, h, hn => by
    cases hfin : c.finished with
    | true =>
      have hnil := h.toCome_finished hfin
      exact ⟨none, c, rest, by simp [next, hfin], h, ⟨rfl, rfl, le_rfl⟩, rfl, fun _ => hnil⟩
    | false =>
      obtain ⟨r, c', rest', hiter, h', hsame, hlt, htakes, hnone⟩ := h.nextIter_spec hdot hfin
      cases r with
      | some r =>
        exact ⟨r, c', rest', by simp [next, hfin, hiter], h', hsame, htakes,
          fun hr => hnone (congrArg some hr)⟩
      | none =>
        have hdot' : c'.isSepByte sys (byte '.') = false := by rwa [hsame.isSepByte_eq]
        obtain ⟨r, c'', rest'', hnext, h'', hsame', htakes', hnone'⟩ :=
          h'.next_spec hdot' (lt_of_lt_of_le hlt (Nat.le_of_lt_succ hn))
        have heq : c.toCome sys raw lead rest = c'.toCome sys raw lead rest' := htakes
        exact ⟨r, c'', rest'', by simp [next, hfin, hiter, hnext], h'', hsame.trans hsame',
          heq ▸ htakes', fun hr => heq.trans (hnone' hr)⟩

theorem Left.nextBack_spec : ∀ {n : Nat} {rest : List UInt8} {c : Components},
    c.isSepByte sys (byte '.') = false → Left sys raw lead rest c → c.backWork < n →
    ∃ r c' rest', c.nextBack sys n = .ok (r, c') ∧ Left sys raw lead rest' c' ∧ SameOrigin c c' ∧
      TakesLast (c.toCome sys raw lead rest) r.toList (c'.toCome sys raw lead rest') ∧
      (r = none → c.toCome sys raw lead rest = [])
  | 0, _, _, _, _, hn => absurd hn (Nat.not_lt_zero _)
  | n + 1, rest, c, hdot, h, hn => by
    cases hfin : c.finished with
    | true =>
      have hnil := h.toCome_finished hfin
      exact ⟨none, c, rest, by simp [nextBack, hfin], h, ⟨rfl, rfl, le_rfl⟩,
        (append_nil _).symm, fun _ => hnil⟩
    | false =>
      obtain ⟨r, c', rest', hiter, h', hsame, hlt, htakes, hnone⟩ := h.nextBackIter_spec hdot hfin
      cases r with
      | some r =>
        exact ⟨r, c', rest', by simp [nextBack, hfin, hiter], h', hsame, htakes,
          fun hr => hnone (congrArg some hr)⟩
      | none =>
        have hdot' : c'.isSepByte sys (byte '.') = false := by rwa [hsame.isSepByte_eq]
        obtain ⟨r, c'', rest'', hnext, h'', hsame', htakes', hnone'⟩ :=
          h'.nextBack_spec hdot' (lt_of_lt_of_le hlt (Nat.le_of_lt_succ hn))
        have heq : c.toCome sys raw lead rest = c'.toCome sys raw lead rest' :=
          htakes.trans (append_nil _)
        exact ⟨r, c'', rest'', by simp [nextBack, hfin, hiter, hnext], h'', hsame.trans hsame',
          heq ▸ htakes', fun hr => heq.trans (hnone' hr)⟩

theorem Left.trimLeft_spec : ∀ {n : Nat} {rest : List UInt8} {c : Components},
    Left sys raw lead rest c → c.front = .body → c.back = .body → c.path.length < n →
    ∃ rest', trimLeft sys n c = .ok { c with path := rest' } ∧
      Left sys raw lead rest' { c with path := rest' } ∧ rest'.length ≤ c.path.length ∧
      c.bodyComponents sys rest' = c.bodyComponents sys rest ∧ (rest' = [] ∨ FirstKept sys c rest')
  | 0, _, _, _, _, _, hn => absurd hn (Nat.not_lt_zero _)
  | n + 1, rest, c, h, hfront, hback, hn => by
    obtain rfl := h.path_eq hfront
    by_cases hnil : c.path = []
    · refine ⟨c.path, ?_, h, le_rfl, rfl, .inl hnil⟩
      rw [trimLeft, if_pos (by rw [hnil]; rfl)]
    · have hempty : ¬ c.path.isEmpty = true := by simpa using hnil
      obtain ⟨size, comp, rest', hparse, hslice, hlt, hbody, hkept⟩ :=
        @parseNextComponent_spec sys c hfront hnil
      cases comp with
      | some comp =>
        refine ⟨c.path, ?_, h, le_rfl, rfl, .inr (hkept rfl)⟩
        rw [trimLeft, if_neg hempty, hparse]
        rfl
      | none =>
        have h' := @Left.cutFront sys raw lead c.path c rest' h hfront hback
        obtain ⟨rest'', htrim, h'', hle, hbody', hkept'⟩ :=
          h'.trimLeft_spec hfront hback (lt_of_lt_of_le hlt (Nat.le_of_lt_succ hn))
        refine ⟨rest'', ?_, h'', le_trans hle (le_of_lt hlt), ?_, hkept'⟩
        · rw [trimLeft, if_neg hempty, hparse, ok_bind]
          simp [hslice, htrim]
        · rw [hbody]
          exact hbody'

theorem CutBack.firstKept {rest' : List UInt8} (h : CutBack sys c rest rest')
    (hnone : rest' = [] → c.bodyComponents sys rest = []) (hkept : FirstKept sys c rest) :
    FirstKept sys c rest' := by
  obtain ⟨a, ha, hsome⟩ := hkept
  rcases h with ⟨rfl, hall⟩ | ⟨s, b, rfl, hs⟩
  · have hnil := hnone rfl
    rw [bodyComponents_only hall, toList_eq_nil_iff] at hnil
    rw [splitOnP_eq_singleton hall] at ha
    obtain rfl := some.inj ha
    rw [hnil] at hsome
    cases hsome
  · refine ⟨a, ?_, hsome⟩
    rwa [splitOnP_append_cons rest' b hs, head?_append_of_ne_nil _ (splitOnP_ne_nil _ rest')] at ha

/-- `trim_right` leaves what comes before the body, the components of the body, and a first piece
that gives one. -/
theorem Left.trimRight_spec : ∀ {n : Nat} {rest : List UInt8} {c : Components},
    c.isSepByte sys (byte '.') = false → Left sys raw lead rest c → c.back = .body →
    c.path.length < n →
    ∃ rest' c', trimRight sys n c = .ok c' ∧ Left sys raw lead rest' c' ∧
      c' = { c with path := c'.path } ∧ c'.path.length ≤ c.path.length ∧
      c.bodyComponents sys rest' = c.bodyComponents sys rest ∧
      (rest = [] ∨ FirstKept sys c rest → rest' = [] ∨ FirstKept sys c rest')
  | 0, _, _, _, _, _, hn => absurd hn (Nat.not_lt_zero _)
  | n + 1, rest, c, hdot, h, hback, hn => by
    have hstart := h.lenBeforeBody_eq hdot hback
    have hlen := h.length_path
    by_cases hnil : rest = []
    · subst hnil
      refine ⟨[], c, ?_, h, rfl, le_rfl, rfl, id⟩
      rw [trimRight, hstart, ok_bind, if_pos (by rw [hlen]; exact le_rfl)]
    · obtain ⟨size, comp, rest', hparse, hslice, hlt, hbody, hcut⟩ :=
        h.parseNextComponentBack_spec hdot hback hnil
      cases comp with
      | some comp =>
        refine ⟨rest, c, ?_, h, rfl, le_rfl, rfl, id⟩
        rw [trimRight, hstart, ok_bind, if_neg (by omega), hparse]
        rfl
      | none =>
        have hbody' : c.bodyComponents sys rest = c.bodyComponents sys rest' :=
          hbody.trans (append_nil _)
        have hlt' : (rawLeft raw c.front ++ leadLeft lead c.front c.back ++ rest').length <
            c.path.length := by
          rw [length_append, length_append]
          omega
        have hleft := h.cutBack hdot hcut hback fun hdone => hnil (h.front hdone)
        generalize rawLeft raw c.front ++ leadLeft lead c.front c.back ++ rest' = before
          at hslice hlt' hleft
        obtain ⟨rest'', c'', htrim, h'', hc'', hle, hbody'', hkept⟩ :=
          @Left.trimRight_spec n rest' { c with path := before } hdot hleft hback
            (lt_of_lt_of_le hlt' (Nat.le_of_lt_succ hn))
        refine ⟨rest'', c'', ?_, h'', hc'', le_trans hle (le_of_lt hlt'), ?_,
          fun hfirst => hkept ?_⟩
        · rw [trimRight, hstart, ok_bind, if_neg (by omega), hparse, ok_bind]
          simp [hslice, htrim]
        · rw [hbody']
          exact hbody''
        · refine .inr (hcut.firstKept (fun hnil' => ?_) (hfirst.resolve_left hnil))
          rw [hbody', hnil', bodyComponents_nil]

theorem Left.asPath_spec (hdot : c.isSepByte sys (byte '.') = false)
    (h : Left sys raw lead rest c) {n : Nat} (hn : c.path.length < n) :
    ∃ rest' c', c.asPath sys n = .ok c'.path ∧ Left sys raw lead rest' c' ∧
      c' = { c with path := c'.path } ∧ c'.path.length ≤ c.path.length ∧
      c.bodyComponents sys rest' = c.bodyComponents sys rest ∧
      (c.front = .body → rest' = [] ∨ FirstKept sys c rest') := by
  by_cases hfront : c.front = .body
  · by_cases hback : c.back = .body
    · obtain ⟨rest', hleft, h', hle, hbody, hkept⟩ := h.trimLeft_spec hfront hback hn
      obtain ⟨rest'', c'', hright, h'', hc'', hle', hbody', hkept'⟩ :=
        @Left.trimRight_spec sys raw lead n rest' { c with path := rest' } hdot h' hback
          (lt_of_le_of_lt hle hn)
      refine ⟨rest'', c'', ?_, h'', hc'', le_trans hle' hle, hbody'.trans hbody,
        fun _ => hkept' hkept⟩
      rw [asPath, if_pos hfront, hleft]
      simp only [ok_bind, if_pos hback, hright]
    · obtain rfl : rest = [] := h.back hback
      have hpath := h.path_eq hfront
      have hleft : trimLeft sys n c = .ok c := by
        obtain ⟨n, rfl⟩ := Nat.exists_eq_add_one_of_ne_zero (Nat.ne_zero_of_lt hn)
        rw [trimLeft, if_pos (by rw [hpath]; rfl)]
      exact ⟨[], c, by simp [asPath, hfront, hback, hleft], h, rfl, le_rfl, rfl, fun _ => .inl rfl⟩
  · by_cases hback : c.back = .body
    · obtain ⟨rest', c', hright, h', hc', hle, hbody, -⟩ := h.trimRight_spec hdot hback hn
      exact ⟨rest', c', by simp [asPath, hfront, hback, hright], h', hc', hle, hbody,
        fun hf => absurd hf hfront⟩
    · exact ⟨rest, c, by simp [asPath, hfront, hback], h, rfl, le_rfl, rfl,
        fun hf => absurd hf hfront⟩

end Components

/-! ## Runs of calls -/

open Components

/-- What the calls so far have taken from the components `all`, and what is left of them. -/
structure Shares (sys : Sys) (raw lead rest : List UInt8) (all : List Component) (c : Components)
    (t : Taken) : Prop where
  left : Left sys raw lead rest t.iter
  same : SameOrigin c t.iter
  all_eq : all = t.front ++ t.iter.toCome sys raw lead rest ++ t.back.reverse

section
variable {sys : Sys} {raw lead rest : List UInt8} {all : List Component} {c : Components} {t : Taken}

theorem Shares.call (h : Shares sys raw lead rest all c t)
    (hdot : c.isSepByte sys (byte '.') = false) {n : Nat} (hn : c.path.length + 3 < n)
    (call : Call) : ∃ r t' rest', t.call sys n call = .ok (r, t') ∧
      Shares sys raw lead rest' all c t' ∧
      (call ≠ .asPath → (r = none ↔ t.iter.toCome sys raw lead rest = [])) := by
  have hdot' : t.iter.isSepByte sys (byte '.') = false := by rwa [h.same.isSepByte_eq]
  have hle := h.same.length
  cases call with
  | next =>
    have hwork : t.iter.frontWork < n := by
      rw [frontWork]
      omega
    obtain ⟨r, c', rest', hnext, h', hsame, htakes, hnone⟩ := h.left.next_spec hdot' hwork
    refine ⟨r, _, rest', by simp [Taken.call, hnext]; rfl, ⟨h', h.same.trans hsame, ?_⟩,
      fun _ => ⟨hnone, fun hnil => ?_⟩⟩
    · have hall := h.all_eq
      rw [htakes] at hall
      simpa using hall
    · rw [htakes] at hnil
      exact toList_eq_nil_iff.1 (append_eq_nil_iff.1 hnil).1
  | nextBack =>
    have hwork : t.iter.backWork < n := by
      rw [backWork]
      split <;> omega
    obtain ⟨r, c', rest', hnext, h', hsame, htakes, hnone⟩ := h.left.nextBack_spec hdot' hwork
    rw [TakesLast] at htakes
    refine ⟨r, _, rest', by simp [Taken.call, hnext]; rfl, ⟨h', h.same.trans hsame, ?_⟩,
      fun _ => ⟨hnone, fun hnil => ?_⟩⟩
    · have hall := h.all_eq
      rw [htakes] at hall
      cases r <;> simpa using hall
    · rw [htakes] at hnil
      exact toList_eq_nil_iff.1 (append_eq_nil_iff.1 hnil).2
  | asPath =>
    obtain ⟨-, c', hpath, -⟩ := h.left.asPath_spec hdot' (show _ < n by omega)
    exact ⟨none, t, rest, by simp [Taken.call, hpath], h, by simp⟩

theorem Shares.run (h : Shares sys raw lead rest all c t)
    (hdot : c.isSepByte sys (byte '.') = false) {n : Nat} (hn : c.path.length + 3 < n)
    (calls : List Call) : ∃ t' rest', calls.foldlM (fun t call => (t.call sys n call).map Prod.snd)
    t = .ok t' ∧ Shares sys raw lead rest' all c t' := by
  induction calls generalizing t rest with
  | nil => exact ⟨t, rest, rfl, h⟩
  | cons call calls ih =>
    obtain ⟨r, t', rest', hcall, h', -⟩ := h.call hdot hn call
    obtain ⟨t'', rest'', hrun, h''⟩ := ih h'
    refine ⟨t'', rest'', ?_, h''⟩
    rw [foldlM_cons, hcall]
    exact hrun

theorem Left.collect {n : Nat} {l : List Component} : ∀ {rest : List UInt8} {t : Taken},
    Left sys raw lead rest t.iter → t.iter.isSepByte sys (byte '.') = false →
    t.iter.path.length + 3 < n → t.iter.toCome sys raw lead rest = l →
    ∃ c', (replicate l.length Call.next).foldlM
        (fun t call => (t.call sys n call).map Prod.snd) t =
          .ok { t with front := t.front ++ l, iter := c' } ∧
      ∃ c'', c'.next sys n = .ok (none, c'') := by
  induction l with
  | nil =>
    intro rest t h hdot hn hl
    have hwork : t.iter.frontWork < n := by
      rw [frontWork]
      omega
    obtain ⟨r, c', rest', hnext, -, -, htakes, -⟩ := h.next_spec hdot hwork
    rw [TakesFirst, hl] at htakes
    obtain rfl := toList_eq_nil_iff.1 (append_eq_nil_iff.1 htakes.symm).1
    exact ⟨t.iter, by simp, c', hnext⟩
  | cons x l ih =>
    intro rest t h hdot hn hl
    have hwork : t.iter.frontWork < n := by
      rw [frontWork]
      omega
    obtain ⟨r, c', rest', hnext, h', hsame, htakes, hnone⟩ := h.next_spec hdot hwork
    rw [TakesFirst, hl] at htakes
    cases r with
    | none =>
      have := hnone rfl
      rw [hl] at this
      cases this
    | some y =>
      obtain ⟨rfl, htail⟩ := List.cons.inj htakes
      have hle := hsame.length
      obtain ⟨c'', hrun, hlast⟩ := @ih rest' { t with front := t.front ++ [x], iter := c' } h'
        (by rwa [hsame.isSepByte_eq]) (by simp only; omega) htail.symm
      refine ⟨c'', ?_, hlast⟩
      have hcall : t.call sys n .next =
          .ok (some x, { t with front := t.front ++ [x], iter := c' }) := by
        simp [Taken.call, hnext]
      rw [length_cons, replicate_succ, foldlM_cons, hcall]
      change List.foldlM _ _ _ = _
      rw [hrun]
      simp

/-! ## The start of a run -/

/-- The path is that of a drive without a root: a prefix that has no implicit root, and no separator
after it. -/
def DriveRelative (sys : Sys) (path : List UInt8) : Prop :=
  ∃ p, sys.parsePrefix path = .ok (some p) ∧ p.hasImplicitRoot = false ∧
    hasPhysicalRoot sys path (some p) = .ok false

/-- The iterator over a path accounts for it, when the prefix is no longer than the path and the path
is not that of a drive without a root. -/
theorem left_components {path : List UInt8} {pfx : Option Prefix}
    (hdot : ∀ c : Components, c.isSepByte sys (byte '.') = false)
    (hpfx : sys.parsePrefix path = .ok pfx) (hlen : pfx.elim 0 Prefix.len ≤ path.length)
    (hdrive : ¬ DriveRelative sys path) :
    ∃ root lead rest, components sys path = .ok ⟨path, pfx, root, .pfx, .body⟩ ∧
      root = (path.drop (pfx.elim 0 Prefix.len)).head?.any sys.isSepByte ∧
      path = path.take (pfx.elim 0 Prefix.len) ++ lead ++ rest ∧
      Left sys (path.take (pfx.elim 0 Prefix.len)) lead rest ⟨path, pfx, root, .pfx, .body⟩ := by
  generalize hk : pfx.elim 0 Prefix.len = k at hlen
  have hroot : hasPhysicalRoot sys path pfx = .ok ((path.drop k).head?.any sys.isSepByte) := by
    cases pfx with
    | none =>
      obtain rfl : 0 = k := hk
      cases path <;> rfl
    | some p =>
      obtain rfl : p.len = k := hk
      simp only [hasPhysicalRoot, sliceFrom, if_pos hlen, ok_bind]
      cases path.drop p.len <;> rfl
  have hcomps : components sys path =
      .ok ⟨path, pfx, (path.drop k).head?.any sys.isSepByte, .pfx, .body⟩ := by
    simp only [components, hpfx, hroot, ok_bind]
  have hstart : HasStart .pfx .body := ⟨.inl rfl, .inr rfl⟩
  have htake : (path.take k).length = k := length_take_of_le hlen
  have hleft : ∀ root lead rest, path.drop k = lead ++ rest → Lead pfx root lead →
      (root = false → pfx = none →
        (DotFirst sys ⟨path, pfx, root, .pfx, .body⟩ (lead ++ rest) ↔ lead = bytes ".") ∧
          (lead = [] → rest.head?.any (isSepByte sys ⟨path, pfx, root, .pfx, .body⟩) = false)) →
      Left sys (path.take k) lead rest ⟨path, pfx, root, .pfx, .body⟩ := by
    intro root lead rest hdrop hlead hcur
    refine ⟨?_, htake.trans hk.symm, hlead, fun _ hno => ?_, (by simp), (by simp)⟩
    · simp only [rawLeft, if_true, leadLeft, if_pos hstart]
      rw [append_assoc, ← hdrop, take_append_drop]
    · refine hcur ?_ ?_
      · cases root with
        | false => rfl
        | true => simp [hasRoot] at hno
      · cases hlead with
        | root hr => simp [hasRoot, hr] at hno
        | implicit hr hp hi => simp [hasRoot, hp, hi] at hno
        | curDir _ hp => exact hp
        | nothing _ hp => exact hp
  have hsplit : ∀ {lead rest}, path.drop k = lead ++ rest → path = path.take k ++ lead ++ rest :=
    fun hdrop => by rw [append_assoc, ← hdrop, take_append_drop]
  cases hr : (path.drop k).head?.any sys.isSepByte with
  | true =>
    rw [hr] at hcomps
    obtain ⟨s, rest, hdrop⟩ : ∃ s rest, path.drop k = s :: rest := by
      cases hd : path.drop k with
      | nil => simp [hd] at hr
      | cons s rest => exact ⟨s, rest, rfl⟩
    exact ⟨true, [s], rest, hcomps, rfl, hsplit hdrop, hleft _ _ _ hdrop (.root rfl) (by simp)⟩
  | false =>
    rw [hr] at hcomps
    cases pfx with
    | some p =>
      cases hi : p.hasImplicitRoot with
      | true =>
        exact ⟨false, [], path.drop k, hcomps, rfl, hsplit rfl, hleft _ _ _ rfl (.implicit rfl rfl hi)
          (by simp)⟩
      | false => exact absurd ⟨p, hpfx, hi, hroot.trans (by rw [hr])⟩ hdrive
    | none =>
      by_cases hd : DotFirst sys ⟨path, none, false, .pfx, .body⟩ (path.drop k)
      · obtain ⟨rest, hdrop⟩ : ∃ rest, path.drop k = bytes "." ++ rest := by
          have hpiece : ∀ x ∈ bytes ".", isSepByte sys ⟨path, none, false, .pfx, .body⟩ x = false := by
            intro x hx
            obtain rfl := mem_singleton.1 hx
            exact hdot _
          rcases (head?_splitOnP hpiece).1 hd with h | ⟨s, b, h, -⟩
          · exact ⟨[], by rw [h, append_nil]⟩
          · exact ⟨s :: b, h⟩
        exact ⟨false, bytes ".", rest, hcomps, rfl, hsplit hdrop, hleft _ _ _ hdrop (.curDir rfl rfl)
          fun _ _ => ⟨iff_of_true (hdrop ▸ hd) rfl, fun h => absurd h (cons_ne_nil _ _)⟩⟩
      · exact ⟨false, [], path.drop k, hcomps, rfl, hsplit rfl, hleft _ _ _ rfl (.nothing rfl rfl)
          fun _ _ => ⟨iff_of_false hd (by simp [bytes]), fun _ => hr⟩⟩

theorem run_shares {path : List UInt8} {calls : List Call} {n : Nat} {c : Components}
    (hdot : ∀ c : Components, c.isSepByte sys (byte '.') = false)
    (hcomps : components sys path = .ok c) (hleft : Left sys raw lead rest c)
    (hn : c.path.length + 3 < n) : ∃ t rest', run sys n path calls = .ok t ∧
      Shares sys raw lead rest' (c.toCome sys raw lead rest) c t := by
  have hstart : Shares sys raw lead rest (c.toCome sys raw lead rest) c ⟨[], [], c⟩ :=
    ⟨hleft, ⟨rfl, rfl, le_rfl⟩, by simp⟩
  obtain ⟨t, rest', hrun, ht⟩ := hstart.run (hdot c) hn calls
  exact ⟨t, rest', by rw [run, hcomps, ok_bind, hrun], ht⟩

end

end Tortis.Path
