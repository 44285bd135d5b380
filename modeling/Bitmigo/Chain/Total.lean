import Bitmigo.Chain.Run

/-
  When the calls return.

  Key definitions include:
    * `LargeTarget`, the target is not absurdly small
    * `Call.Permitted`, the assertions a caller answers for

  Key theorems include:
    * `HeaderTree.Sound.exists_context`, large targets give every block a context
    * `Call.returns`, with large targets every permitted call returns
-/

namespace Bitmigo

open Result List U256 Nat

variable {K : Primitives} {params : ChainParams} {tree after : HeaderTree} {header : Header}
variable {chain : List Header} {log : List (Call × Answer)}

--------
-- Periods of a Chain
--------

theorem heights_chainFacts (hLen : chain.length ≤ 0x7fffffff) :
    (chainFacts chain).map (fun facts => facts.height.val) = (List.range chain.length).reverse := by
  induction chain with
  | nil => rfl
  | cons header chain ih =>
    rw [length_cons] at hLen
    rw [chainFacts, map_cons, ih (by omega), length_cons, range_succ, reverse_append,
      reverse_singleton, singleton_append]
    congr 1
    show min chain.length 0x7fffffff = chain.length
    omega

/- The period a chain ends in starts at a boundary. -/
theorem isPeriod_chainPeriod {interval : Nat} (hInterval : 0 < interval) (hNe : chain ≠ [])
    (hLen : chain.length ≤ 0x7fffffff) :
    (chainPeriod interval chain).length = (chain.length - 1) % interval + 1 ∧
      IsPeriod interval (chainPeriod interval chain)
        (chain.length - ((chain.length - 1) % interval + 1)) := by
  have hPos := length_pos_iff.mpr hNe
  have hMod := mod_lt (chain.length - 1) hInterval
  have hLe := mod_le (chain.length - 1) interval
  have hCount : (chainPeriod interval chain).length = (chain.length - 1) % interval + 1 := by
    rw [chainPeriod, length_reverse, length_take, HeaderTree.Sound.length_chainFacts]
    omega
  refine ⟨hCount, ?_, ?_, ?_, ?_⟩
  · rw [← length_pos_iff, hCount]
    omega
  · omega
  · rw [show chain.length - ((chain.length - 1) % interval + 1) =
      interval * ((chain.length - 1) / interval) by
        have hDiv := div_add_mod (chain.length - 1) interval
        omega]
    exact mul_mod_right _ _
  · rw [hCount, chainPeriod, map_reverse, map_take,
      heights_chainFacts hLen, take_reverse, reverse_reverse, length_range,
      range_eq_range', drop_range']
    congr 1
    · omega
    · omega

theorem getLast?_chainPeriod (interval : Nat) (header : Header) (chain : List Header) :
    (chainPeriod interval (header :: chain)).getLast? =
      some (.fromHeader (Height.above chain.length) header) := by
  rw [chainPeriod, getLast?_reverse, chainFacts, take_succ_cons, head?_cons]

/- The target is not absurdly small. -/
def LargeTarget (params : ChainParams) (header : Header) : Prop :=
  ∀ target, decodeTarget header.bits params.powLimit = .ok target → 2 ^ 32 ≤ beNat target

namespace HeaderTree

/- Every header of the tree has a large target. -/
def Large (params : ChainParams) (tree : HeaderTree) : Prop :=
  ∀ {n : Nat} {entry}, tree.entries[n]? = some entry → LargeTarget params entry.header

/- Large targets give every block a context. -/
theorem Sound.exists_context (hTab : params.Tabled K) (hSound : tree.Sound K params)
    (hLarge : tree.Large params) {parent : NodeId} (hLine : tree.Lineage parent chain)
    (header : Header) : ∃ context, IsContext K params chain header context := by
  rcases Lineage.entry hLine with ⟨entry, rest, hEntry, rfl, _⟩
  have hLen := hSound.length_le hLine
  have hMax : maxTreeHeaders < 0x7fffffff := by decide
  rw [length_cons] at hLen
  have hInterval : 0 < params.intervalOf := Nat.lt_trans Nat.zero_lt_one params.intervalOf_pos
  have hHeight : (entry.header :: rest).length ≤ 0x7fffffff := by
    rw [length_cons]
    omega
  rcases isPeriod_chainPeriod hInterval (cons_ne_nil entry.header rest) hHeight with
    ⟨hCount, hPeriod⟩
  have hBits : ∃ bits,
      (nextRequiredBits params (chainPeriod params.intervalOf (entry.header :: rest))
        header.time : Result Empty UInt32) = .ok bits := by
    refine hTab.nextRequiredBits_returns hPeriod (getLast?_chainPeriod _ _ _) ?_ ?_ header.time
    · show min rest.length 0x7fffffff < 0x7fffffff
      omega
    · -- a full period does not end at genesis
      intro _ hFull
      have hNode : parent ≠ NodeId.genesis := by
        rintro rfl
        have hRoot := hLine.unique hSound.root
        rw [hRoot] at hFull hCount
        rw [hFull] at hCount
        have hOne := params.intervalOf_pos
        simp only [length_singleton, Nat.sub_self, zero_mod] at hCount
        omega
      rcases checkHeader_eq_ok.mp (hSound.worked hEntry hNode) with ⟨target, hDecode, _⟩
      exact ⟨target, hDecode, Nat.le_trans (by decide) (hLarge hEntry target hDecode)⟩
  rcases hBits with ⟨bits, hBits⟩
  have hRules : ∃ rules,
      (params.rulesAt ⟨(entry.header :: rest).length, hHeight⟩ (K.blockHash header)
        (chainBip34 K params (entry.header :: rest)) : Result Empty Rules) = .ok rules := by
    refine hTab.rulesAt_returns _ ?_
    intro hSome
    unfold chainBip34 at hSome
    split at hSome
    · cases hSome
    · rename_i hAbove
      exact Nat.not_le.mp hAbove
  rcases hRules with ⟨rules, hRules⟩
  exact ⟨⟨⟨(entry.header :: rest).length, hHeight⟩, medianOf (chainTimes (entry.header :: rest)),
    entry.header.time, bits, rules, succ_pos _⟩,
    rfl, rfl, rfl, hBits, hRules⟩

--------
-- Work
--------

end HeaderTree

theorem ChainParams.Tabled.powLimit_large (hTab : params.Tabled K) :
    2 ^ 32 ≤ beNat params.powLimit := by
  rcases hTab.cases with rfl | ⟨_, rfl⟩ | ⟨_, rfl⟩
  all_goals
    show _ ≤ beNat (hexBytes _)
    rw [beNat_hexBytes (by decide)]
    decide

/- A large target is little work. -/
theorem LargeTarget.workNat_le (hTab : params.Tabled K) (hLarge : LargeTarget params header) :
    workNat header.bits ≤ 2 ^ 256 / (2 ^ 32 + 1) := by
  by_cases hZero : compactNat header.bits = 0
  · rw [workNat, if_pos (.inr (.inr hZero))]
    exact Nat.zero_le _
  by_cases hNegative : (split header.bits).negative = true
  · rw [workNat, if_pos (.inl hNegative)]
    exact Nat.zero_le _
  refine Bitmigo.workNat_le ?_
  by_cases hLimit : compactNat header.bits ≤ beNat params.powLimit
  · have hDecode := decodeTarget_eq_ok.mpr
      ⟨Bool.not_eq_true _ ▸ hNegative, Nat.pos_of_ne_zero hZero, hLimit, rfl⟩
    have hTarget := hLarge _ hDecode
    rwa [beNat_targetOfNat (Nat.lt_of_le_of_lt hLimit (beNat_lt _))] at hTarget
  · exact Nat.le_trans hTab.powLimit_large (Nat.le_of_not_le hLimit)

theorem chainWork_le {most : Nat} (hMost : ∀ header ∈ chain, workNat header.bits ≤ most) :
    chainWork chain ≤ chain.length * most := by
  induction chain with
  | nil => exact Nat.zero_le _
  | cons header chain ih =>
    have hFst := hMost header mem_cons_self
    have hRest := ih fun other hOther =>
      hMost other (mem_cons_of_mem _ hOther)
    rw [chainWork_cons, length_cons, Nat.add_mul]
    omega

namespace HeaderTree

theorem Large.of_lineage (hLarge : tree.Large params) {n : NodeId}
    (hLine : tree.Lineage n chain) : ∀ header ∈ chain, LargeTarget params header := by
  induction hLine with
  | root hNode =>
    rcases view_eq_some.mp hNode with ⟨entry, hEntry, rfl, _⟩
    intro header hHeader
    cases mem_singleton.mp hHeader
    exact hLarge hEntry
  | child hNode _ ih =>
    rcases view_eq_some.mp hNode with ⟨entry, hEntry, rfl, _⟩
    intro header hHeader
    rcases mem_cons.mp hHeader with rfl | hRest
    · exact hLarge hEntry
    · exact ih header hRest

/- Large targets never add up to 256 bits. -/
theorem Sound.work_lt (hTab : params.Tabled K) (hSound : tree.Sound K params)
    (hLarge : tree.Large params) {n : NodeId} (hLine : tree.Lineage n chain)
    (hHeader : LargeTarget params header) : workNat header.bits + chainWork chain < 2 ^ 256 := by
  have hLen := hSound.length_le hLine
  have hWork := chainWork_le fun other hOther =>
    (hLarge.of_lineage hLine other hOther).workNat_le hTab
  have hMore := hHeader.workNat_le hTab
  have hMost :
      chain.length * (2 ^ 256 / (2 ^ 32 + 1)) ≤ maxTreeHeaders * (2 ^ 256 / (2 ^ 32 + 1)) :=
    Nat.mul_le_mul_right _ hLen
  have hRoom : 2 ^ 256 / (2 ^ 32 + 1) + maxTreeHeaders * (2 ^ 256 / (2 ^ 32 + 1)) < 2 ^ 256 := by
    decide
  exact Nat.lt_of_le_of_lt (Nat.add_le_add hMore (Nat.le_trans hWork hMost)) hRoom

/- Large targets never stop a header. -/
theorem Sound.accept_returns (hTab : params.Tabled K) (hSound : tree.Sound K params)
    (hBest : tree.bestHeader < tree.len) (hLarge : tree.Large params)
    (hHeader : LargeTarget params header) (now : BlockTime) :
    ∃ outcome after, settle (tree.accept K header params now) = .ok (outcome, after) := by
  rcases hSound.accept_cases hTab hBest header now with
    ⟨outcome, after, hCall, _⟩ | ⟨_, parent, chain, hStuck⟩
  · exact ⟨outcome, after, hCall⟩
  · rcases hStuck.cause with ⟨_, hNone⟩ | ⟨_, hWork, _⟩
    · rcases hSound.exists_context hTab hLarge hStuck.lineage header with ⟨context, hCtx⟩
      exact absurd hCtx (hNone context)
    · exact absurd hWork (Nat.not_le.mpr (hSound.work_lt hTab hLarge hStuck.lineage hHeader))

end HeaderTree

--------
-- Permitted Calls
--------

open HeaderTree

/- The assertions a caller answers for. -/
def Call.Permitted (tree : HeaderTree) : Call → Prop
  | .accept _ _ => True
  | .blockChecked node _ =>
    tree.statusAt node = some .headerAccepted
  | .connected node _ =>
    ∃ entry location, tree.entries[node]? = some entry ∧
      entry.parent = some tree.tip ∧
      entry.status = .blockChecked location
  | .disconnected node =>
    node = tree.tip ∧ ∃ location undo, tree.statusAt node = some (.connected location undo)
  | .invalidate node _ =>
    ∃ status, tree.statusAt node = some status ∧
      status.isTerminal = false ∧
      status.isConnected = false
  | .clearDirty => True
  | .contextOf node =>
    ∃ entry, tree.entries[node]? = some entry ∧ entry.parent.isSome
  | .reorg limit => 0 < limit

/- The headers that calls present have large targets. -/
def Call.LargeTargets (params : ChainParams) : Call → Prop
  | .accept header _ => LargeTarget params header
  | _ => True

/- A permitted call returns. -/
theorem Call.returns (hTab : params.Tabled K) (hHealthy : tree.Healthy K params)
    (hLarge : tree.Large params) {call : Call} (hPermitted : call.Permitted tree)
    (hTargets : call.LargeTargets params) :
    ∃ answer after, call.apply K params tree = .ok (answer, after) := by
  have hSound := hHealthy.sound
  have hMarked := hHealthy.judged.marked
  cases call with
  | accept header now =>
    rcases hSound.accept_returns hTab hHealthy.judged.bestHeader_lt hLarge hTargets now with
      ⟨outcome, after, hAccept⟩
    refine ⟨.accepted outcome, after, ?_⟩
    rw [Call.apply, hAccept]
    rfl
  | blockChecked node location =>
    have hCall := (@blockChecked_eq_ok tree _ hMarked node location).mpr ⟨hPermitted, rfl⟩
    refine ⟨.done, tree.restated node (.blockChecked location), ?_⟩
    rw [Call.apply, hCall]
    rfl
  | connected node undo =>
    rcases hPermitted with ⟨entry, location, hEntry, hPar, hStat⟩
    have hCall := (@connected_eq_ok tree _ hMarked node undo).mpr
      ⟨entry, location, hEntry, hPar, hStat, rfl⟩
    refine ⟨.done, { tree.restated node (.connected location undo) with
        tip := node }, ?_⟩
    rw [Call.apply, hCall]
    rfl
  | disconnected node =>
    rcases hPermitted with ⟨rfl, location, undo, hStat⟩
    rcases statusAt_eq_some.mp hStat with ⟨entry, hEntry, hKind⟩
    -- only genesis has no parent
    cases hPar : entry.parent with
    | none =>
      have hView := view_of_entry hEntry
      rw [hPar] at hView
      have hRoot := hHealthy.judged.root.mpr (hSound.grown.root hView)
      rw [hStat] at hRoot
      cases hRoot
    | some p =>
      have hCall := (disconnected_eq_ok hMarked).mpr
        ⟨entry, location, undo, p, rfl, hEntry, hKind, hPar, rfl⟩
      refine ⟨.done, { tree.restated tree.tip (.blockChecked location) with tip := p }, ?_⟩
      rw [Call.apply, hCall]
      rfl
  | invalidate node invalidity =>
    rcases hPermitted with ⟨status, hStat, hSpared, hIdle⟩
    rcases invalidate_eq hSound hHealthy.judged hStat
        hSpared hIdle invalidity with ⟨after, hCall, _⟩
    refine ⟨.done, after, ?_⟩
    rw [Call.apply, hCall]
    rfl
  | clearDirty =>
    refine ⟨.done, tree.cleared, ?_⟩
    rw [Call.apply, clearDirty_eq hMarked]
    rfl
  | contextOf node =>
    rcases hPermitted with ⟨entry, hEntry, hSome⟩
    rcases Option.isSome_iff_exists.mp hSome with ⟨p, hPar⟩
    rcases hSound.exists_lineage hEntry with ⟨chain, hLine⟩
    rcases hLine.tail (by rw [← hPar, view_of_entry hEntry]) with ⟨rest, _, hRest⟩
    rcases hSound.exists_context hTab hLarge hRest entry.header with ⟨context, hCtx⟩
    have hFor := (hSound.contextFor_eq_ok hTab hRest).mpr ⟨hCtx, rfl⟩
    refine ⟨.context context, { tree with
        period := chainPeriod params.intervalOf rest }, ?_⟩
    rw [Call.apply, HeaderTree.contextOf, entry_eq hEntry, ok_bind, hPar, expect_some, ok_bind,
      (hSound.fits hEntry hLine).hash, hFor]
    rfl
  | reorg limit =>
    rcases hHealthy.reorg_eq hTab hPermitted with ⟨plan, scratch, _, _, _, hReorg, _⟩
    refine ⟨.plan plan, { tree with period := scratch }, ?_⟩
    rw [Call.apply, hReorg]
    rfl

/- Every header but genesis was presented. -/
theorem TreeRun.presented (hTab : params.Tabled K) {cap : Nat}
    (hRun : TreeRun K params cap log tree) {n p : Nat}
    (hView : tree.view n = some (header, some p)) :
    ∃ now answer, (Call.accept header now, answer) ∈ log := by
  induction hRun with
  | start hStart =>
    rcases (withCap_eq_ok hTab).mp hStart with ⟨_, rfl⟩
    rcases view_eq_some.mp hView with ⟨entry, hEntry, _, hPar⟩
    rcases mem_singleton.mp (mem_of_getElem? hEntry) with rfl
    cases hPar
  | @call log tree after call answer hRun hCall ih =>
    have hOld : tree.view n = some (header, some p) →
        ∃ now answer', (Call.accept header now, answer') ∈ log ++ [(call, answer)] := by
      intro hBefore
      rcases ih hBefore with ⟨now, earlier, hMem⟩
      exact ⟨now, earlier, mem_append_left _ hMem⟩
    cases Call.effect hTab (hRun.healthy hTab) hCall with
    | keep _ hKept =>
      rw [hKept.view] at hView
      exact hOld hView
    | @accept other now outcome _ hPlaced =>
      rcases hPlaced.view_cases hView with hBefore | rfl
      · exact hOld hBefore
      · exact ⟨now, .accepted outcome, mem_append_right _ mem_cons_self⟩

theorem TreeRun.large (hTab : params.Tabled K) {cap : Nat} (hRun : TreeRun K params cap log tree)
    (hGenesis : LargeTarget params params.genesis.header)
    (hTargets : ∀ {call answer}, (call, answer) ∈ log → call.LargeTargets params) :
    tree.Large params := by
  intro n entry hEntry
  have hSound := (hRun.healthy hTab).sound
  have hView := view_of_entry hEntry
  cases hPar : entry.parent with
  | none =>
    rw [hPar] at hView
    cases hSound.grown.root hView
    have hRoot := (Arena.Lineage.root hView).unique hSound.root
    rwa [(List.cons.inj hRoot).1]
  | some p =>
    rw [hPar] at hView
    rcases hRun.presented hTab hView with ⟨now, answer, hMem⟩
    exact hTargets hMem

end Bitmigo
