import Tortis.Transaction.Map

/-!
# The map of a called function

The use-def analysis makes a transaction map for every function it enters, starting in the
transaction of the call. Two facts about such a map (`perform_inTx`, `perform_own`).
-/

namespace Tortis

open Outcome List Option FxHashMap

namespace TransactionMap

/-! ## Maps that are returned -/

variable {tm tm' : TransactionMap}

theorem enterTx_closed (ord : IterOrder)
    (h : (tm.terminatorToLock.iter ord).foldlM enterTx tm = .ok tm') {k v : UniqueId}
    (hk : tm.terminatorToLock.get k = some v) : ∃ u, tm.lockToUnlock.get v = some u := by
  let P (done : List (UniqueId × UniqueId)) (s : TransactionMap) : Prop :=
    s.lockToUnlock = tm.lockToUnlock ∧ ∀ e ∈ done, ∃ u, tm.lockToUnlock.get e.2 = some u
  have init : P [] tm := ⟨rfl, nofun⟩
  have hloop := foldlM_inv init h ?_
  · exact hloop.2 (k, v) (mem_iter.2 hk)
  · rintro pre e post s s' - ⟨hs, hdone⟩ hs'
    obtain ⟨u, hu, hs'⟩ := bind_eq_ok.1 hs'
    cases hs'
    refine ⟨hs, fun e' he' => ?_⟩
    rcases mem_append.1 he' with he' | he'
    · exact hdone e' he'
    · obtain rfl := mem_singleton.1 he'
      exact ⟨u, by rw [← hs]; exact unwrap_eq_ok.1 hu⟩

theorem perform_get (ord : IterOrder) (h : tm.perform ord = .ok tm') :
    ∃ s, tm.walkBlocks = .ok s ∧ ∀ k, tm'.terminatorToTx.get k =
      match s.terminatorToLock.get k with
      | some lock => (s.lockToUnlock.get lock).map (lock, ·)
      | none => s.terminatorToTx.get k := by
  obtain ⟨s, hwalk, hloop⟩ := bind_eq_ok.1 h
  obtain ⟨tm'', hrun, -, hget⟩ := s.enterTx_spec ord fun k v hk => enterTx_closed ord hloop hk
  obtain rfl := Except.ok.inj (hloop.symm.trans hrun)
  exact ⟨s, hwalk, hget⟩

/-! ## Calls before the transactions of a function -/

/-- In the order of the walk, the block comes before the locks of the body, and every unlock comes
after one of them. -/
def BeforeLocks (body : Body) (lk ul : DefId) (rpo : List BasicBlock) (x : BasicBlock) : Prop :=
  x ∈ rpo ∧ ∀ pre y post, rpo = pre ++ y :: post →
    (IsLock body lk y → x ∈ pre) ∧ (IsUnlock body ul y → ∃ z ∈ pre, IsLock body lk z)

variable {lk ul : DefId} {body : Body}

theorem BeforeLocks.of_lock_mem {rpo pre post : List BasicBlock}
    {x : BasicBlock} (h : BeforeLocks body lk ul rpo x) (hrpo : rpo = pre ++ post)
    (hlock : ∃ z ∈ pre, IsLock body lk z) : x ∈ pre := by
  obtain ⟨z, hz, hlock⟩ := hlock
  obtain ⟨p, q, rfl⟩ := append_of_mem hz
  have := (h.2 p z (q ++ post) (by simp [hrpo])).1 hlock
  exact mem_append_left _ this

section
variable {tm : TransactionMap} {lk ul : DefId} {T : UniqueId × UniqueId} {x : BasicBlock}
  {b : UniqueId}

/-- What the walk knows of the transaction `T` of the caller and of the call `b` in the block `x`. -/
structure Carries (tm : TransactionMap) (lk ul : DefId) (T : UniqueId × UniqueId) (x : BasicBlock)
    (b : UniqueId) (done : List BasicBlock) (s : TransactionMap) : Prop where
  body : s.body = tm.body
  defId : s.defId = tm.defId
  lock : s.lockDefId = some lk
  unlock : s.unlockDefId = some ul
  pair : s.lockToUnlock.get T.1 = some T.2
  current : s.transactionId = some T.1 ↔ ∀ z ∈ done, ¬ IsLock tm.body lk z
  entered : x ∈ done → s.terminatorToLock.get b = some T.1

theorem Carries.step {rpo done post : List BasicBlock} {y : BasicBlock} {s s' : TransactionMap}
    (h : Carries tm lk ul T x b done s) (hother : T.1.defId ≠ tm.defId)
    (hx : BeforeLocks tm.body lk ul rpo x) (hb : Enterable tm.body tm.defId x b)
    (hnodup : rpo.Nodup) (hsplit : rpo = done ++ y :: post)
    (hs : s.visitBasicBlockData y = .ok s') : Carries tm lk ul T x b (done ++ [y]) s' := by
  obtain ⟨hbody, hdef, hlk, hul, hpair, hcur, hent⟩ := h
  -- Whether a lock has been visited, after a block that is none.
  have hsame : ¬ IsLock tm.body lk y →
      ((∀ z ∈ done ++ [y], ¬ IsLock tm.body lk z) ↔ ∀ z ∈ done, ¬ IsLock tm.body lk z) := by
    intro hy
    simp only [forall_mem_append, forall_mem_singleton, hy, not_false_eq_true, and_true]
  have hmem : x ∈ done ++ [y] → (y = x → x ∈ done) → x ∈ done := fun h hy => by
    rcases mem_append.1 h with h | h
    · exact h
    · exact hy (mem_singleton.1 h).symm
  -- Before an unlock call a lock has been visited.
  have hafter : IsUnlock tm.body ul y → s.transactionId ≠ some T.1 ∧
      (¬ ∀ z ∈ done ++ [y], ¬ IsLock tm.body lk z) ∧ x ∈ done := by
    intro hu
    obtain ⟨z, hz, hlock⟩ := (hx.2 done y post hsplit).2 hu
    exact ⟨fun h => hcur.1 h z hz hlock, fun h => h z (mem_append_left _ hz) hlock,
      hx.of_lock_mem hsplit ⟨z, hz, hlock⟩⟩
  cases visits hbody hdef hlk hul hs with
  | skip hl hu hskip =>
    refine ⟨hbody, hdef, hlk, hul, hpair, by rw [hsame hl, hcur], fun h => hent (hmem h ?_)⟩
    rintro rfl
    rcases hskip hb.1 with hno | hno
    · -- No transaction is open, so a lock has been visited.
      refine hx.of_lock_mem hsplit ?_
      by_contra hnone
      rw [hno] at hcur
      exact nomatch hcur.2 fun z hz hlock => hnone ⟨z, hz, hlock⟩
    · cases hno.symm.trans hb.2
  | lock hl hid =>
    refine ⟨hbody, hdef, hlk, hul, hpair, ?_, fun h => hent (hmem h ?_)⟩
    · refine iff_of_false (fun h => hother ?_) fun h => h y (by simp) hl
      rw [← some.inj h, Body.callId_defId hid]
    · rintro rfl
      exact (hx.2 done y post hsplit).1 hl
  | unlockNone hl hu hnone =>
    obtain ⟨hne, hno, hdone⟩ := hafter hu
    exact ⟨hbody, hdef, hlk, hul, hpair, iff_of_false hne hno, fun _ => hent hdone⟩
  | unlock hl hu hlock hid =>
    obtain ⟨hne, hno, hdone⟩ := hafter hu
    refine ⟨hbody, hdef, hlk, hul, ?_, iff_of_false nofun hno, fun _ => hent hdone⟩
    rw [get_insert, if_neg fun h => hne (by rw [hlock, h]), hpair]
  | enter hord htx hid =>
    refine ⟨hbody, hdef, hlk, hul, hpair, by rw [hsame hord.other.1]; exact hcur, fun h => ?_⟩
    rw [get_insert]
    split
    · next hk =>
      subst hk
      obtain rfl := Body.callId_inj hid hb.2
      have hnot : y ∉ done := by
        rw [hsplit] at hnodup
        exact fun h => (nodup_append.1 hnodup).2.2 y h y (mem_cons_self) rfl
      rw [← htx]
      exact hcur.2 fun z hz hlock => hnot (hx.of_lock_mem hsplit ⟨z, hz, hlock⟩)
    · next hk =>
      refine hent (hmem h fun hy => absurd ?_ hk)
      rw [hy, hb.2] at hid
      exact some.inj hid

/-- A call that comes before the transactions of the function is entered under the transaction of the
caller. -/
theorem perform_inTx (ord : IterOrder) {tm' : TransactionMap} (h : tm.perform ord = .ok tm')
    (hwf : tm.body.WF) (hlk : tm.lockDefId = some lk) (hul : tm.unlockDefId = some ul)
    (htx : tm.transactionId = some T.1) (hpair : tm.lockToUnlock.get T.1 = some T.2)
    (hother : T.1.defId ≠ tm.defId) {rpo : List BasicBlock}
    (hrpo : reversePostorder tm.body = .ok rpo) (hx : BeforeLocks tm.body lk ul rpo x)
    (hb : Enterable tm.body tm.defId x b) : tm'.terminatorToTx.get b = some T := by
  obtain ⟨s, hwalk, hget⟩ := perform_get ord h
  obtain ⟨rpo', hrpo', hR⟩ := reversePostorder_spec hwf
  obtain rfl := Except.ok.inj (hrpo.symm.trans hrpo')
  simp only [walkBlocks, hlk, hul, hrpo, ok_bind] at hwalk
  have init : Carries tm lk ul T x b [] tm := ⟨rfl, rfl, hlk, hul, hpair, by simp [htx], (by simp)⟩
  have hcarries := foldlM_inv init hwalk fun pre y post s s' hl hc hs =>
    hc.step hother hx hb hR.nodup (by simpa using hl) hs
  rw [hget, hcarries.entered hx.1]
  simp [hcarries.pair]

end

/-! ## Calls inside the transactions of a function -/

/-- A new map and the map of a called function, while both walk over the body: as soon as the first
lock is visited they are in the same transaction. -/
structure Agrees (s s' : TransactionMap) : Prop where
  body : s'.body = s.body
  defId : s'.defId = s.defId
  lock : s'.lockDefId = s.lockDefId
  unlock : s'.unlockDefId = s.unlockDefId
  entered : ∀ k v, s.terminatorToLock.get k = some v → s'.terminatorToLock.get k = some v
  current : (s'.transactionId = s.transactionId ∧
      ∀ k v, s.lockToUnlock.get k = some v → s'.lockToUnlock.get k = some v) ∨
    (s.transactionId = none ∧ s.lockToUnlock = ∅ ∧ s.terminatorToLock = ∅)

theorem Agrees.step {s s' r r' : TransactionMap} (h : Agrees s s')
    (hlk : s.lockDefId = some lk) (hul : s.unlockDefId = some ul) {y : BasicBlock}
    (hr : s.visitBasicBlockData y = .ok r) (hr' : s'.visitBasicBlockData y = .ok r') :
    Agrees r r' ∧ r.lockDefId = some lk ∧ r.unlockDefId = some ul := by
  obtain ⟨hbody, hdef, hlk', hul', hent, hcur⟩ := h
  have hempty : s.lockToUnlock = ∅ →
      ∀ k v, s.lockToUnlock.get k = some v → s'.lockToUnlock.get k = some v := by
    intro h k v hk
    simp [h] at hk
  rw [visitBasicBlockData_eq hlk hul (lt_length_of_visit hr)] at hr
  rw [visitBasicBlockData_eq (hlk'.trans hlk) (hul'.trans hul) (lt_length_of_visit hr'), hbody,
    hdef] at hr'
  cases hf : s.body.callee y with
  | none =>
    rw [hf] at hr hr'
    cases hr
    cases hr'
    exact ⟨⟨hbody, hdef, hlk', hul', hent, hcur⟩, hlk, hul⟩
  | some f =>
    simp only [hf] at hr hr'
    by_cases hl : f = lk
    · rw [if_pos hl] at hr hr'
      obtain ⟨id, hid, hr⟩ := bind_eq_ok.1 hr
      obtain ⟨id', hid', hr'⟩ := bind_eq_ok.1 hr'
      obtain rfl := Except.ok.inj (hid.symm.trans hid')
      cases hr
      cases hr'
      refine ⟨⟨rfl, rfl, hlk', hul', hent, .inl ⟨rfl, ?_⟩⟩, hlk, hul⟩
      rcases hcur with ⟨-, hpairs⟩ | ⟨-, hpairs, -⟩
      exacts [hpairs, hempty hpairs]
    · rw [if_neg hl] at hr hr'
      by_cases hu : f = ul
      · rw [if_pos hu] at hr hr'
        rcases hcur with ⟨htx, hpairs⟩ | ⟨hnone, hpairs, hnoent⟩
        · rw [htx] at hr'
          cases ht : s.transactionId with
          | none =>
            rw [ht] at hr hr'
            cases hr
            cases hr'
            exact ⟨⟨hbody, hdef, hlk', hul', hent, .inl ⟨htx, hpairs⟩⟩, hlk, hul⟩
          | some lockId =>
            rw [ht] at hr hr'
            obtain ⟨id, hid, hr⟩ := bind_eq_ok.1 hr
            obtain ⟨id', hid', hr'⟩ := bind_eq_ok.1 hr'
            obtain rfl := Except.ok.inj (hid.symm.trans hid')
            cases hr
            cases hr'
            exact ⟨⟨rfl, rfl, hlk', hul', hent, .inl ⟨rfl, get_insert_mono hpairs lockId id⟩⟩,
              hlk, hul⟩
        · rw [hnone] at hr
          cases hr
          suffices hs : r'.body = s.body ∧ r'.defId = s.defId ∧ r'.lockDefId = s.lockDefId ∧
              r'.unlockDefId = s.unlockDefId ∧ r'.terminatorToLock = s'.terminatorToLock from
            ⟨⟨hs.1, hs.2.1, hs.2.2.1, hs.2.2.2.1, hs.2.2.2.2 ▸ hent, .inr ⟨hnone, hpairs, hnoent⟩⟩,
              hlk, hul⟩
          cases ht : s'.transactionId with
          | none =>
            rw [ht] at hr'
            cases hr'
            exact ⟨hbody, hdef, hlk', hul', rfl⟩
          | some lockId =>
            rw [ht] at hr'
            obtain ⟨id, -, hr'⟩ := bind_eq_ok.1 hr'
            cases hr'
            exact ⟨rfl, rfl, hlk', hul', rfl⟩
      · rw [if_neg hu] at hr hr'
        rcases hcur with ⟨htx, hpairs⟩ | ⟨hnone, hpairs, hnoent⟩
        · rw [htx] at hr'
          cases ht : s.transactionId with
          | none =>
            rw [ht] at hr hr'
            cases hr
            cases hr'
            exact ⟨⟨hbody, hdef, hlk', hul', hent, .inl ⟨htx, hpairs⟩⟩, hlk, hul⟩
          | some txId =>
            cases hid : s.body.callId s.defId y with
            | none =>
              rw [ht, hid] at hr hr'
              cases hr
              cases hr'
              exact ⟨⟨hbody, hdef, hlk', hul', hent, .inl ⟨htx, hpairs⟩⟩, hlk, hul⟩
            | some id =>
              rw [ht, hid] at hr hr'
              cases hr
              cases hr'
              exact ⟨⟨rfl, rfl, hlk', hul', get_insert_mono hent id txId, .inl ⟨rfl, hpairs⟩⟩,
                hlk, hul⟩
        · rw [hnone] at hr
          cases hr
          suffices hs : r'.body = s.body ∧ r'.defId = s.defId ∧ r'.lockDefId = s.lockDefId ∧
              r'.unlockDefId = s.unlockDefId from
            ⟨⟨hs.1, hs.2.1, hs.2.2.1, hs.2.2.2, fun k v hk => by simp [hnoent] at hk,
              .inr ⟨hnone, hpairs, hnoent⟩⟩, hlk, hul⟩
          split at hr'
          · cases hr'
            exact ⟨rfl, rfl, hlk', hul'⟩
          · cases hr'
            exact ⟨hbody, hdef, hlk', hul'⟩

theorem Agrees.walk : ∀ {blocks : List BasicBlock} {s s' r r' : TransactionMap},
    Agrees s s' → s.lockDefId = some lk → s.unlockDefId = some ul →
    blocks.foldlM visitBasicBlockData s = .ok r → blocks.foldlM visitBasicBlockData s' = .ok r' →
    Agrees r r'
  | [], _, _, _, _, h, _, _, hr, hr' => by
    cases hr
    cases hr'
    exact h
  | y :: blocks, s, s', r, r', h, hlk, hul, hr, hr' => by
    obtain ⟨s1, hs1, hr⟩ := bind_eq_ok.1 hr
    obtain ⟨s1', hs1', hr'⟩ := bind_eq_ok.1 hr'
    obtain ⟨h1, hlk1, hul1⟩ := h.step hlk hul hs1 hs1'
    exact h1.walk hlk1 hul1 hr hr'

variable {items : LangItems} {defId : DefId} {t : UniqueId × UniqueId} {k : UniqueId}

/-- A call that the map of a function enters under one of its own transactions is entered under the
same transaction whatever the function is called in. -/
theorem perform_own {ord ord' : IterOrder} (h : (new defId body items).perform ord = .ok tm)
    {txIds : Option (UniqueId × UniqueId)} {txs : FxHashMap UniqueId (UniqueId × UniqueId)}
    (h' : (newChild defId body txIds items txs).perform ord' = .ok tm')
    (hk : tm.terminatorToTx.get k = some t) : tm'.terminatorToTx.get k = some t := by
  obtain ⟨r, hr, hget⟩ := perform_get ord h
  obtain ⟨r', hr', hget'⟩ := perform_get ord' h'
  have hstart : Agrees (new defId body items) (newChild defId body txIds items txs) :=
    ⟨rfl, rfl, rfl, rfl, fun _ _ h => h, .inr ⟨rfl, rfl, rfl⟩⟩
  have hold : r.terminatorToTx = ∅ ∧ Agrees r r' := by
    unfold walkBlocks at hr hr'
    split at hr
    · next lk ul hlk hul =>
      have hlk' : (newChild defId body txIds items txs).lockDefId = some lk := hlk
      have hul' : (newChild defId body txIds items txs).unlockDefId = some ul := hul
      simp only [hlk', hul'] at hr'
      obtain ⟨rpo, hrpo, hr⟩ := bind_eq_ok.1 hr
      obtain ⟨rpo', hrpo', hr'⟩ := bind_eq_ok.1 hr'
      obtain rfl := Except.ok.inj (hrpo.symm.trans hrpo')
      refine ⟨?_, hstart.walk hlk hul hr hr'⟩
      refine foldlM_keeps (P := fun s => s.terminatorToTx = ∅) rfl hr ?_
      intro x _ s s' hs hs'
      obtain ⟨data, -, hs'⟩ := bind_eq_ok.1 hs'
      split at hs'
      · exact (visitTerminator_keys hs').2.1.trans hs
      · cases hs'
        exact hs
    · next hnone =>
      cases hr
      split at hr'
      · next lk ul hlk hul => exact absurd hul (hnone lk ul hlk)
      · cases hr'
        exact ⟨rfl, hstart⟩
  obtain ⟨htx, hagrees⟩ := hold
  rw [hget] at hk
  rw [hget']
  cases hl : r.terminatorToLock.get k with
  | none => simp [hl, htx] at hk
  | some L =>
    rw [hagrees.entered k L hl]
    rw [hl] at hk
    rcases hagrees.current with ⟨-, hpairs⟩ | ⟨-, -, hempty⟩
    · simp only [map_eq_some_iff] at hk ⊢
      obtain ⟨u, hu, rfl⟩ := hk
      exact ⟨u, hpairs L u hu, rfl⟩
    · simp [hempty] at hl

theorem perform_new_defId (ord : IterOrder)
    {tm : TransactionMap} (h : (new defId body items).perform ord = .ok tm)
    (hk : tm.terminatorToTx.get k = some t) : t.1.defId = defId := by
  obtain ⟨s, hs, hget⟩ := perform_get ord h
  have hlocks : s.terminatorToTx = ∅ ∧
      ∀ k v, s.terminatorToLock.get k = some v → v.defId = defId := by
    unfold walkBlocks at hs
    split at hs
    · next lk ul hlk hul =>
      obtain ⟨rpo, -, hs⟩ := bind_eq_ok.1 hs
      have hkept := foldlM_keeps (P := fun s : TransactionMap =>
        s.lockDefId = some lk ∧ s.unlockDefId = some ul ∧ s.defId = defId ∧ s.terminatorToTx = ∅ ∧
        (∀ v, s.transactionId = some v → v.defId = defId) ∧
        ∀ k v, s.terminatorToLock.get k = some v → v.defId = defId)
        ⟨hlk, hul, rfl, rfl, nofun, nofun⟩ hs ?_
      · exact ⟨hkept.2.2.2.1, hkept.2.2.2.2.2⟩
      · rintro x - s s' ⟨hlk, hul, hd, htx, hcur, hent⟩ hs
        cases visits rfl hd hlk hul hs with
        | skip | unlockNone => exact ⟨hlk, hul, hd, htx, hcur, hent⟩
        | lock _ hid =>
          refine ⟨hlk, hul, hd, htx, fun v hv => ?_, hent⟩
          cases hv
          exact Body.callId_defId hid
        | unlock => exact ⟨hlk, hul, hd, htx, nofun, hent⟩
        | enter _ htxId _ =>
          refine ⟨hlk, hul, hd, htx, hcur, fun k v hk => ?_⟩
          rw [get_insert] at hk
          split at hk
          · cases hk
            exact hcur _ htxId
          · exact hent k v hk
    · cases hs
      exact ⟨rfl, nofun⟩
  rw [hget] at hk
  cases hl : s.terminatorToLock.get k with
  | none => simp [hl, hlocks.1] at hk
  | some L =>
    rw [hl] at hk
    simp only [map_eq_some_iff] at hk
    obtain ⟨u, -, rfl⟩ := hk
    exact hlocks.2 k L hl

/-- In the order of the walk, the unlock is the next lock or unlock after the lock. -/
def NextUnlock (body : Body) (lk ul : DefId) (rpo : List BasicBlock) (L U : BasicBlock) : Prop :=
  IsLock body lk L ∧ IsUnlock body ul U ∧ ¬ IsLock body lk U ∧ ∃ pre mid post,
    rpo = pre ++ L :: mid ++ U :: post ∧ ∀ y ∈ mid, ¬ IsLock body lk y ∧ ¬ IsUnlock body ul y

end TransactionMap

end Tortis
