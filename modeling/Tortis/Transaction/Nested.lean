import Tortis.Transaction.Called

/-!
# Nested transactions

`TransactionMap` keeps one transaction id: a lock overwrites it and an unlock clears it.

`StackAt` follows the paths with a stack, `Nested` is the discipline of nested blocks, and
`Attributes` says that the map attributes every call to the innermost open transaction.
`perform_attributes_iff` says when `perform` returns such a map: when in reverse postorder the last
lock or unlock call before each call is the lock of its transaction, and the next one is the unlock.
-/

namespace Tortis

open List Option TransactionMap

section
variable (body : Body) (lk ul : DefId)

/-! ## Stacks of transactions -/

/-- The locks that are open after a block, the innermost first, when those of `s` are open before
it. -/
def stackAfter (s : List BasicBlock) (x : BasicBlock) : List BasicBlock :=
  if IsLock body lk x then x :: s else if IsUnlock body ul x then s.tail else s

/-- Some path from the start block arrives at the block with the locks of the stack open. -/
inductive StackAt : List BasicBlock → BasicBlock → Prop
  | start : StackAt [] START_BLOCK
  | step {s x y} : StackAt s x → y ∈ body.successors x → StackAt (stackAfter body lk ul s x) y

/-- The unlock call closes the lock: some path arrives there with the lock innermost. -/
def Closes (L U : BasicBlock) : Prop :=
  IsUnlock body ul U ∧ ¬ IsLock body lk U ∧ ∃ s, StackAt body lk ul (L :: s) U

/-- The body of properly nested transaction blocks: every unlock call closes a lock, the paths that
arrive at a call agree about the open locks, and each lock has its own unlock. -/
structure Nested : Prop where
  dest : ∀ x, Reach body.successors START_BLOCK x → IsLock body lk x ∨ IsUnlock body ul x →
    (body.destLocal x).isSome
  unlock : ∀ s x, StackAt body lk ul s x → IsUnlock body ul x → s ≠ []
  same : ∀ s s' x, StackAt body lk ul s x → StackAt body lk ul s' x → (body.callOf x).isSome → s = s'
  own : ∀ L U L' U', Closes body lk ul L U → Closes body lk ul L' U' → (L = L' ↔ U = U')

/-- The map attributes a call with a destination local that is neither a lock nor an unlock call to
the innermost transaction that is open there, and to none when none is open. -/
def Attributes (defId : DefId) (tm : TransactionMap) : Prop :=
  ∀ s x id, StackAt body lk ul s x → body.callId defId x = some id → ¬ IsLock body lk x →
    ¬ IsUnlock body ul x →
    match s with
    | [] => tm.terminatorToTx.get id = none
    | L :: _ => ∃ U l u, Closes body lk ul L U ∧ body.callId defId L = some l ∧
        body.callId defId U = some u ∧ tm.terminatorToTx.get id = some (l, u)

/-! ## The order of the walk -/

/-- In the order of the walk, the last lock or unlock call before a call outside the transactions is
no lock call; a call inside a transaction has a known function, its lock is the last lock or unlock
call before it, and its unlock is the next one after the lock. -/
def InOrder : Prop :=
  ∃ rpo, reversePostorder body = .ok rpo ∧ ∀ done x rest, rpo = done ++ x :: rest →
    (body.destLocal x).isSome → ¬ IsLock body lk x → ¬ IsUnlock body ul x →
    ∀ s, StackAt body lk ul s x →
      match s with
      | [] => (body.callee x).isSome → ∀ L, ¬ Latest body lk ul done L
      | L :: _ => (body.callee x).isSome ∧ Latest body lk ul done L ∧
          ∃ U, Closes body lk ul L U ∧ TransactionMap.NextUnlock body lk ul rpo L U

end

section
variable {body : Body} {lk ul : DefId}

theorem exists_stackAt (lk ul : DefId) {x : BasicBlock} (h : Reach body.successors START_BLOCK x) :
    ∃ s, StackAt body lk ul s x := by
  induction h with
  | refl => exact ⟨[], .start⟩
  | tail _ hxy ih =>
    obtain ⟨s, hs⟩ := ih
    exact ⟨_, hs.step hxy⟩

theorem StackAt.reach {s : List BasicBlock} {x : BasicBlock} (h : StackAt body lk ul s x) :
    Reach body.successors START_BLOCK x := by
  induction h with
  | start => exact .refl
  | step _ hy ih => exact ih.tail hy

theorem nextUnlock_iff {rpo : List BasicBlock} {L U : BasicBlock} :
    TransactionMap.NextUnlock body lk ul rpo L U ↔ ∃ pre post, rpo = pre ++ U :: post ∧
      IsUnlock body ul U ∧ ¬ IsLock body lk U ∧ Latest body lk ul pre L := by
  constructor
  · rintro ⟨hL, hU, hnl, pre, mid, post, hrpo, hmid⟩
    exact ⟨_, post, hrpo, hU, hnl, hL, pre, mid, rfl, hmid⟩
  · rintro ⟨_, post, hrpo, hU, hnl, hL, pre, mid, rfl, hmid⟩
    exact ⟨hL, hU, hnl, pre, mid, post, hrpo, hmid⟩

/-! ## When calls are attributed to their transactions -/

section
variable {defId : DefId} {rpo done rest : List BasicBlock} {x : BasicBlock} {tm : TransactionMap}
  (h : Registered body lk ul defId rpo tm) (hnodup : rpo.Nodup) (hsplit : rpo = done ++ x :: rest)
include h hnodup hsplit

theorem Registered.entered_iff {id v : UniqueId} (hid : body.callId defId x = some id) :
    tm.terminatorToLock.get id = some v ↔ IsOrdinary body lk ul x ∧
      ∃ L, Latest body lk ul done L ∧ body.callId defId L = some v := by
  rw [h.entered]
  constructor
  · rintro ⟨pre, y, post, hpre, hord, hy, hL⟩
    obtain rfl := Body.callId_inj hy hid
    have hnot : y ∉ done ∧ y ∉ pre := by
      refine ⟨fun hy => ?_, fun hy => ?_⟩
      · rw [hsplit] at hnodup
        exact (nodup_append.1 hnodup).2.2 y hy y (.head _) rfl
      · rw [hpre] at hnodup
        exact (nodup_append.1 hnodup).2.2 y hy y (.head _) rfl
    obtain ⟨rfl, -, -⟩ := split_unique (hsplit.symm.trans hpre) hnot.2 hnot.1
    exact ⟨hord, hL⟩
  · rintro ⟨hord, hL⟩
    exact ⟨done, x, rest, hsplit, hord, hid, hL⟩

omit hnodup hsplit in
theorem Registered.paired_iff {L : BasicBlock} {l u : UniqueId}
    (hL : body.callId defId L = some l) : tm.lockToUnlock.get l = some u ↔
      ∃ U, TransactionMap.NextUnlock body lk ul rpo L U ∧ body.callId defId U = some u := by
  rw [h.paired]
  constructor
  · rintro ⟨pre, U, post, hpre, hU, hu, L', hlatest, hL'⟩
    obtain rfl := Body.callId_inj hL hL'
    exact ⟨U, nextUnlock_iff.2 ⟨pre, post, hpre, hU.1, hU.2, hlatest⟩, hu⟩
  · rintro ⟨U, hnext, hu⟩
    obtain ⟨pre, post, hpre, hU, hnl, hlatest⟩ := nextUnlock_iff.1 hnext
    exact ⟨pre, U, post, hpre, ⟨hU, hnl⟩, hu, L, hlatest, hL⟩

end

section
variable {items : LangItems} {defId : DefId} {rpo : List BasicBlock} {tm : TransactionMap}
  (hR : IsReversePostorder body.successors START_BLOCK rpo) (h : Registered body lk ul defId rpo tm)
  (hdest : ∀ x, Reach body.successors START_BLOCK x → IsLock body lk x ∨ IsUnlock body ul x →
    (body.destLocal x).isSome)
include hR hdest

theorem Latest.callId {done rest : List BasicBlock} {x L : BasicBlock}
    (hL : Latest body lk ul done L) (hsplit : rpo = done ++ x :: rest) :
    ∃ l, body.callId defId L = some l := by
  have hmem : L ∈ rpo := hsplit ▸ mem_append_left _ hL.mem
  rw [← isSome_iff_exists, callId_isSome]
  exact hdest L ((hR.mem_iff L).1 hmem) (.inl hL.1)

include h

theorem Attributes.inOrder (hrpo : reversePostorder body = .ok rpo) {ord : IterOrder}
    {tm' : TransactionMap} (hwalk : (TransactionMap.new defId body items).walkBlocks = .ok tm)
    (hrun : (TransactionMap.new defId body items).perform ord = .ok tm')
    (hattr : Attributes body lk ul defId tm') : InOrder body lk ul := by
  obtain ⟨tm1, hwalk1, hget⟩ := perform_get ord hrun
  obtain rfl := Except.ok.inj (hwalk.symm.trans hwalk1)
  obtain ⟨_, hwalk2, hloop⟩ := Outcome.bind_eq_ok.1 hrun
  obtain rfl := Except.ok.inj (hwalk.symm.trans hwalk2)
  refine ⟨rpo, hrpo, fun done x rest hsplit hd hxl hxu s hs => ?_⟩
  obtain ⟨id, hid⟩ := isSome_iff_exists.1 ((callId_isSome defId x).trans hd)
  have hx := hattr s x id hs hid hxl hxu
  rcases s with _ | ⟨L, s⟩
  · -- A latest lock would be the transaction the call is attributed to.
    intro hcallee L hL
    obtain ⟨f, hf⟩ := isSome_iff_exists.1 hcallee
    obtain ⟨l, hl⟩ := hL.callId hR hdest hsplit
    have hord : IsOrdinary body lk ul x :=
      ⟨f, hf, fun heq => hxl (by rw [IsLock, hf, heq]), fun heq => hxu (by rw [IsUnlock, hf, heq])⟩
    have hent := (h.entered_iff hR.nodup hsplit hid).2 ⟨hord, L, hL, hl⟩
    obtain ⟨u, hu⟩ := enterTx_closed ord hloop hent
    rw [hget, hent] at hx
    simp [hu] at hx
  · obtain ⟨U, l, u, hU, hl, hu, htx⟩ := hx
    rw [hget, h.tx_eq] at htx
    cases hent : tm.terminatorToLock.get id with
    | none => simp [hent] at htx
    | some v =>
      rw [hent] at htx
      simp only [map_eq_some_iff, Prod.mk.injEq] at htx
      obtain ⟨u', hpair, rfl, rfl⟩ := htx
      obtain ⟨⟨f, hf, -⟩, L', hlatest, hL'⟩ := (h.entered_iff hR.nodup hsplit hid).1 hent
      obtain rfl := Body.callId_inj hL' hl
      obtain ⟨U', hnext, hU'⟩ := (h.paired_iff hl).1 hpair
      obtain rfl := Body.callId_inj hU' hu
      exact ⟨by simp [hf], hlatest, U', hU, hnext⟩

theorem InOrder.entered (hin : InOrder body lk ul) (hrpo : reversePostorder body = .ok rpo)
    {s done rest : List BasicBlock} {x L : BasicBlock} (hsplit : rpo = done ++ x :: rest)
    (hord : IsOrdinary body lk ul x) {id : UniqueId} (hid : body.callId defId x = some id)
    (hs : StackAt body lk ul (L :: s) x) :
    Latest body lk ul done L ∧ ∃ U l u, Closes body lk ul L U ∧ body.callId defId L = some l ∧
      body.callId defId U = some u ∧ tm.lockToUnlock.get l = some u := by
  obtain ⟨rpo', hrpo', hin⟩ := hin
  obtain rfl := Except.ok.inj (hrpo.symm.trans hrpo')
  have hd : (body.destLocal x).isSome := by
    rw [← callId_isSome defId, hid]
    rfl
  obtain ⟨-, hL, U, hU, hnext⟩ := hin done x rest hsplit hd hord.other.1 hord.other.2 (L :: s) hs
  obtain ⟨l, hl⟩ := hL.callId hR hdest hsplit
  obtain ⟨s', hs'⟩ := hU.2.2
  obtain ⟨u, hu⟩ := isSome_iff_exists.1
    ((callId_isSome defId U).trans (hdest U hs'.reach (.inr hU.1)))
  exact ⟨hL, U, l, u, hU, hl, hu, (h.paired_iff hl).2 ⟨U, hnext, hu⟩⟩

theorem InOrder.attributes (hin : InOrder body lk ul) (hrpo : reversePostorder body = .ok rpo)
    (ord : IterOrder) (hwalk : (TransactionMap.new defId body items).walkBlocks = .ok tm) :
    ∃ tm', (TransactionMap.new defId body items).perform ord = .ok tm' ∧
      Attributes body lk ul defId tm' := by
  obtain ⟨rpo', hrpo', hcond⟩ := id hin
  obtain rfl := Except.ok.inj (hrpo.symm.trans hrpo')
  obtain ⟨tm', hrun, -, hget⟩ := tm.enterTx_spec ord fun k v hkv => by
    obtain ⟨done, x, rest, hsplit, hord, hk, L, hL, hLv⟩ := (h.entered k v).1 hkv
    obtain ⟨s, hs⟩ := exists_stackAt lk ul ((hR.mem_iff x).1 (by rw [hsplit]; simp))
    rcases s with _ | ⟨L', s⟩
    · have hd : (body.destLocal x).isSome := by
        rw [← callId_isSome defId, hk]
        rfl
      have hno := hcond done x rest hsplit hd hord.other.1 hord.other.2 [] hs
      obtain ⟨f, hf, -⟩ := hord
      exact absurd hL (hno (by simp [hf]) L)
    · obtain ⟨hL', -, l, u, -, hl, -, hu⟩ := hin.entered hR h hdest hrpo hsplit hord hk hs
      obtain rfl := hL.unique hL'
      obtain rfl := mem_unique hLv hl
      exact ⟨u, hu⟩
  refine ⟨tm', by simp [perform, hwalk, hrun], fun s x id hs hid hxl hxu => ?_⟩
  obtain ⟨done, rest, hsplit⟩ := append_of_mem ((hR.mem_iff x).2 hs.reach)
  have hd : (body.destLocal x).isSome := by
    rw [← callId_isSome defId, hid]
    rfl
  have hx := hcond done x rest hsplit hd hxl hxu s hs
  have hord : (body.callee x).isSome → IsOrdinary body lk ul x := fun hcallee => by
    obtain ⟨f, hf⟩ := isSome_iff_exists.1 hcallee
    exact ⟨f, hf, fun heq => hxl (by rw [IsLock, hf, heq]),
      fun heq => hxu (by rw [IsUnlock, hf, heq])⟩
  rcases s with _ | ⟨L, s⟩
  · cases hent : tm.terminatorToLock.get id with
    | none =>
      rw [hget, hent, h.tx_eq]
      simp
    | some v =>
      obtain ⟨⟨f, hf, -⟩, L, hL, -⟩ := (h.entered_iff hR.nodup hsplit hid).1 hent
      exact absurd hL (hx (by simp [hf]) L)
  · obtain ⟨hL, U, l, u, hU, hl, hu, hpair⟩ := hin.entered hR h hdest hrpo hsplit (hord hx.1) hid hs
    have hent := (h.entered_iff hR.nodup hsplit hid).2 ⟨hord hx.1, L, hL, hl⟩
    refine ⟨U, l, u, hU, hl, hu, ?_⟩
    rw [hget, hent]
    simp [hpair]

end

/-- `perform` returns a map that attributes every call to the innermost open transaction exactly when
the walk meets the lock, the calls and the unlock of each transaction with no other lock or unlock
call in between, and the calls outside elsewhere. -/
theorem perform_attributes_iff {items : LangItems} (hlk : items.transactionLock = some lk)
    (hul : items.transactionUnlock = some ul) (hwf : body.WF)
    (hdest : ∀ x, Reach body.successors START_BLOCK x → IsLock body lk x ∨ IsUnlock body ul x →
      (body.destLocal x).isSome) (ord : IterOrder) (defId : DefId) :
    (∃ tm, (TransactionMap.new defId body items).perform ord = .ok tm ∧
      Attributes body lk ul defId tm) ↔ InOrder body lk ul := by
  obtain ⟨rpo, hrpo, hR⟩ := reversePostorder_spec hwf
  obtain ⟨tm, hwalk, h⟩ := walkBlocks_returns hlk hul hwf defId hrpo hR hdest
  constructor
  · rintro ⟨tm', hrun, hattr⟩
    exact hattr.inOrder hR h hdest hrpo hwalk hrun
  · exact fun hin => hin.attributes hR h hdest hrpo ord hwalk

end

/-! ## A transaction in a transaction -/

section
variable {body : Body} {lk ul : DefId} (S : List (List BasicBlock × BasicBlock))
  (hstart : ([], START_BLOCK) ∈ S)
  (hclosed : ∀ e ∈ S, ∀ y ∈ body.successors e.2, (stackAfter body lk ul e.1 e.2, y) ∈ S)
include hstart hclosed

theorem StackAt.mem_of_closed {s : List BasicBlock} {x : BasicBlock}
    (h : StackAt body lk ul s x) : (s, x) ∈ S := by
  induction h with
  | start => exact hstart
  | step _ hy ih => exact hclosed _ ih _ hy

theorem nested_of_closed
    (hdest : ∀ e ∈ S, IsLock body lk e.2 ∨ IsUnlock body ul e.2 → (body.destLocal e.2).isSome)
    (hunlock : ∀ e ∈ S, IsUnlock body ul e.2 → e.1 ≠ [])
    (hsame : ∀ e ∈ S, ∀ e' ∈ S, e.2 = e'.2 → e.1 = e'.1)
    (hown : ∀ e ∈ S, ∀ e' ∈ S, IsUnlock body ul e.2 → IsUnlock body ul e'.2 →
      (e.1.head? = e'.1.head? ↔ e.2 = e'.2)) : Nested body lk ul where
  dest x hx hc := by
    obtain ⟨s, hs⟩ := exists_stackAt lk ul hx
    exact hdest _ (hs.mem_of_closed S hstart hclosed) hc
  unlock s x h hu := hunlock _ (h.mem_of_closed S hstart hclosed) hu
  same s s' x h h' _ :=
    hsame _ (h.mem_of_closed S hstart hclosed) _ (h'.mem_of_closed S hstart hclosed) rfl
  own L U L' U' h h' := by
    obtain ⟨hu, -, s, hs⟩ := h
    obtain ⟨hu', -, s', hs'⟩ := h'
    have := hown _ (hs.mem_of_closed S hstart hclosed) _ (hs'.mem_of_closed S hstart hclosed) hu hu'
    simpa using this

end

/-- The body of `transaction { transaction { f(); } }`. -/
def innerBody (lk ul f : DefId) : Body where
  basicBlocks := [callBlock lk 99 1 1, callBlock lk 99 2 2, callBlock f 0 3 3, callBlock ul 99 4 4,
    callBlock ul 99 5 5, ⟨[], some .ret, false⟩]
  localDecls := [⟨none⟩, ⟨none⟩, ⟨none⟩, ⟨none⟩, ⟨none⟩, ⟨none⟩]
  argCount := 0

/-- The body of `transaction { f(); transaction { g(); } h(); }`. -/
def nestedBody (lk ul f g h : DefId) : Body where
  basicBlocks := [callBlock lk 99 1 1, callBlock f 0 2 2, callBlock lk 99 3 3, callBlock g 0 4 4,
    callBlock ul 99 5 5, callBlock h 0 6 6, callBlock ul 99 7 7, ⟨[], some .ret, false⟩]
  localDecls := [⟨none⟩, ⟨none⟩, ⟨none⟩, ⟨none⟩, ⟨none⟩, ⟨none⟩, ⟨none⟩, ⟨none⟩]
  argCount := 0

/-- All calls are in the inner transaction: `f` is attributed to it. -/
theorem perform_attributes_inner :
    let lk : DefId := ⟨1, 0⟩
    let ul : DefId := ⟨1, 1⟩
    let body := innerBody lk ul ⟨1, 2⟩
    ∃ tm, (TransactionMap.new ⟨0, 0⟩ body ⟨some lk, some ul, none, none, none, none⟩).perform
        .entries = .ok tm ∧ Attributes body lk ul ⟨0, 0⟩ tm := by
  intro lk ul body
  let S : List (List BasicBlock × BasicBlock) :=
    [([], 0), ([0], 1), ([1, 0], 2), ([1, 0], 3), ([0], 4), ([], 5)]
  have hstart : ([], START_BLOCK) ∈ S := by decide
  have hclosed : ∀ e ∈ S, ∀ y ∈ body.successors e.2, (stackAfter body lk ul e.1 e.2, y) ∈ S := by
    decide
  have hn : Nested body lk ul :=
    nested_of_closed S hstart hclosed (by decide) (by decide) (by decide) (by decide)
  refine (perform_attributes_iff rfl rfl (Body.wf_of_blocks (by decide) (by decide)) hn.dest
    .entries ⟨0, 0⟩).2 ⟨[0, 1, 2, 3, 4, 5], by rfl, fun done x rest hsplit hd hxl hxu s hs => ?_⟩
  have hx : ∀ e ∈ S, (body.destLocal e.2).isSome → ¬ IsLock body lk e.2 → ¬ IsUnlock body ul e.2 →
      e = ([1, 0], 2) := by
    decide
  obtain ⟨rfl, rfl⟩ := Prod.mk.inj (hx _ (hs.mem_of_closed S hstart hclosed) hd hxl hxu)
  have hnodup : [0, 1, 2, 3, 4, 5].Nodup := by decide
  have hdone : 2 ∉ done := fun h => by
    rw [hsplit] at hnodup
    exact (nodup_append.1 hnodup).2.2 2 h 2 (.head _) rfl
  obtain ⟨rfl, -, -⟩ := split_unique (p := [0, 1]) (q := [3, 4, 5]) hsplit hdone (by decide)
  have hlock : IsLock body lk 1 := by decide
  refine ⟨by decide, ⟨hlock, [0], [], rfl, nofun⟩, 3, ⟨by decide, by decide, [0], ?_⟩,
    hlock, by decide, by decide, [0], [2], [4, 5], rfl, by decide⟩
  have h1 : StackAt body lk ul [0] 1 := StackAt.start.step (x := 0) (by decide)
  have h2 : StackAt body lk ul [1, 0] 2 := h1.step (x := 1) (by decide)
  exact h2.step (x := 2) (by decide)

/-- A transaction with calls on both sides of the inner one: the map has no unlock for it, and
`perform` panics. -/
theorem perform_misses_outer :
    let lk : DefId := ⟨1, 0⟩
    let ul : DefId := ⟨1, 1⟩
    let body := nestedBody lk ul ⟨1, 2⟩ ⟨1, 3⟩ ⟨1, 4⟩
    body.WF ∧ Nested body lk ul ∧
      ¬ ∃ tm, (TransactionMap.new ⟨0, 0⟩ body ⟨some lk, some ul, none, none, none, none⟩).perform
        .entries = .ok tm ∧ Attributes body lk ul ⟨0, 0⟩ tm := by
  intro lk ul body
  let S : List (List BasicBlock × BasicBlock) :=
    [([], 0), ([0], 1), ([0], 2), ([2, 0], 3), ([2, 0], 4), ([0], 5), ([0], 6), ([], 7)]
  refine ⟨Body.wf_of_blocks (by decide) (by decide), nested_of_closed S (by decide) (by decide)
    (by decide) (by decide) (by decide) (by decide), ?_⟩
  rintro ⟨tm, htm, -⟩
  have hrun : ((TransactionMap.new ⟨0, 0⟩ body ⟨some lk, some ul, none, none, none, none⟩).perform
      .entries).toOption.isSome = false := by
    decide
  rw [htm] at hrun
  cases hrun

end Tortis
