import Bitmigo.Chain.Tree
import Bitmigo.Lib.Arena
import Bitmigo.Lib.SkipList

/-
  What the walks of the header tree compute, in terms of the headers from a node down to genesis.

  Key definitions include:
    * `HeaderTree.Lineage`
    * `HeaderTree.Sound`, the entries say the truth about their own chains
    * `IsContext`, the context of a block as its parent's chain gives it

  Key theorems include:
    * `HeaderTree.Sound.ancestor_eq`, the skip list finds the ancestor within its step bound
    * `HeaderTree.Sound.contextFor_eq_ok`, the walks compute the context the chain gives
-/

namespace Bitmigo

open Result List

open Arena (upTo)

variable {header : Header} {height : Height} {node : NodeId}

--------
-- Chains of Headers
--------

/- The work of a chain. -/
def chainWork (chain : List Header) : Nat :=
  (chain.map fun header => workNat header.bits).sum

@[simp] theorem chainWork_cons (header : Header) (chain : List Header) :
    chainWork (header :: chain) = workNat header.bits + chainWork chain := rfl

theorem Height.min_le (below : Nat) : min below 0x7fffffff ≤ 0x7fffffff :=
  Nat.min_le_right _ _

/- The height of a block that has this many below it. -/
def Height.above (below : Nat) : Height :=
  ⟨min below 0x7fffffff, Height.min_le below⟩

theorem Height.above_val (height : Height) : Height.above height.val = height :=
  Subtype.ext (Nat.min_eq_left height.property)

/- What the difficulty rules read of a chain. -/
def chainFacts : List Header → List HeaderFacts
  | [] => []
  | header :: chain =>
    .fromHeader (Height.above chain.length) header :: chainFacts chain

/- The difficulty period a chain ends in, oldest first. -/
def chainPeriod (interval : Nat) (chain : List Header) : List HeaderFacts :=
  ((chainFacts chain).take ((chain.length - 1) % interval + 1)).reverse

/- The last timestamps of a chain. -/
def chainTimes (chain : List Header) : List BlockTime :=
  (chain.take medianTimeSpan).map (·.time)

/- The BIP34 block, for a block above it. -/
def chainBip34 (K : Primitives) (params : ChainParams) (chain : List Header) : Option BlockHash :=
  if chain.length ≤ params.buried.bip34.height.val then
    none
  else
    (upTo params.buried.bip34.height.val chain).head?.map K.blockHash

/- The context of `header` on top of a chain. -/
structure IsContext (K : Primitives) (params : ChainParams) (chain : List Header) (header : Header)
    (context : Context) : Prop where
  height : context.height.val = chain.length
  medianTimePast : context.medianTimePast = medianOf (chainTimes chain)
  previousTime : chain.head?.map (·.time) = some context.previousTime
  requiredBits : nextRequiredBits params (chainPeriod params.intervalOf chain) header.time =
        (.ok context.requiredBits : Result Empty UInt32)
  rules : params.rulesAt context.height (K.blockHash header)
      (chainBip34 K params chain) = (.ok context.rules : Result Empty Rules)

/- A chain gives a block at most one context. -/
theorem IsContext.unique {K : Primitives} {params : ChainParams} {chain : List Header}
    {context other : Context} (hCtx : IsContext K params chain header context)
    (hOther : IsContext K params chain header other) : context = other := by
  have hHeight : context.height = other.height :=
    Subtype.ext (hCtx.height.trans hOther.height.symm)
  have hMedian := hCtx.medianTimePast.trans hOther.medianTimePast.symm
  have hPrevious := hCtx.previousTime.symm.trans hOther.previousTime
  have hBits := hCtx.requiredBits.symm.trans hOther.requiredBits
  have hRules := hCtx.rules
  rw [hHeight, hOther.rules] at hRules
  rcases context with ⟨h, m, p, b, r, _⟩
  rcases other with ⟨h', m', p', b', r', _⟩
  cases hHeight
  cases hMedian
  cases hPrevious
  cases hBits
  cases hRules
  rfl

--------
-- Sound Trees
--------

/- The arena of a tree. -/
def HeaderTree.view (tree : HeaderTree) : Arena.View Header :=
  fun n => tree.entries[n]?.map fun entry =>
    (entry.header, entry.parent)

/- The headers from a node down to genesis. -/
abbrev HeaderTree.Lineage (tree : HeaderTree) : NodeId → List Header → Prop :=
  Arena.Lineage tree.view

/- What an entry says about its own chain. -/
structure HeaderEntry.Fits (K : Primitives) (tree : HeaderTree) (entry : HeaderEntry)
    (chain : List Header) : Prop where
  hash : entry.hash = K.blockHash entry.header
  height : entry.height.val + 1 = chain.length
  chainwork : U256.beNat entry.chainwork = chainWork chain
  skip : 0 < entry.height.val →
      ∃ target, entry.skip = some target ∧
        tree.Lineage target (upTo (skipHeight entry.height.val) chain)

/- The part of the tree that no status change touches. -/
structure HeaderTree.Sound (K : Primitives) (params : ChainParams)
    (tree : HeaderTree) : Prop where
  grown : Arena.Grown tree.view
  root : tree.Lineage NodeId.genesis [params.genesis.header]
  fits : ∀ {n : NodeId} {entry : HeaderEntry} {chain},
      tree.entries[n]? = some entry → tree.Lineage n chain → entry.Fits K tree chain
  linked : ∀ {n p : NodeId} {entry above : HeaderEntry},
      tree.entries[n]? = some entry →
        entry.parent = some p →
          tree.entries[p]? = some above → entry.header.prevBlockhash = above.hash
  worked : ∀ {n : NodeId} {entry : HeaderEntry},
      tree.entries[n]? = some entry → n ≠ NodeId.genesis →
        checkHeader K entry.header params = .ok ()
  index : ∀ {hash : BlockHash} {n : NodeId},
      tree.index.lookup hash = some n ↔ ∃ entry, tree.entries[n]? = some entry ∧ entry.hash = hash
  len_le : tree.len ≤ tree.cap
  cap_le : tree.cap ≤ maxTreeHeaders

namespace HeaderTree

variable {K : Primitives} {params : ChainParams} {tree : HeaderTree}

theorem view_eq_some {n : NodeId} {parent : Option NodeId} :
    tree.view n = some (header, parent) ↔
      ∃ entry, tree.entries[n]? = some entry ∧ entry.header = header ∧ entry.parent = parent := by
  simp [view]

section

variable {n : NodeId} {entry : HeaderEntry} (hEntry : tree.entries[n]? = some entry)

include hEntry

theorem view_isSome : (tree.view n).isSome := by
  simp [view, hEntry]

theorem view_of_entry : tree.view n = some (entry.header, entry.parent) :=
  view_eq_some.mpr ⟨entry, hEntry, rfl, rfl⟩

theorem entry_eq : tree.entry n = .ok entry := by
  rw [HeaderTree.entry, hEntry]
  rfl

end

/- Every node of a lineage has an entry. -/
theorem Lineage.entry {n : NodeId} {chain : List Header} (hLine : tree.Lineage n chain) :
    ∃ entry rest, tree.entries[n]? = some entry ∧ chain = entry.header :: rest ∧
      (entry.parent = none ∧ rest = [] ∨ ∃ p, entry.parent = some p ∧ tree.Lineage p rest) := by
  cases hLine with
  | root hNode =>
    rcases view_eq_some.mp hNode with ⟨entry, hEntry, rfl, hPar⟩
    exact ⟨entry, [], hEntry, rfl, .inl ⟨hPar, rfl⟩⟩
  | child hNode hRest =>
    rcases view_eq_some.mp hNode with ⟨entry, hEntry, rfl, hPar⟩
    exact ⟨entry, _, hEntry, rfl, .inr ⟨_, hPar, hRest⟩⟩

namespace Sound

/- No two nodes hold one header. -/
theorem distinct (hSound : tree.Sound K params) : Arena.Distinct tree.view := by
  intro m n header _ _ hFst hSnd
  rcases view_eq_some.mp hFst with ⟨entry, hEntry, hHead, _⟩
  rcases view_eq_some.mp hSnd with ⟨other, hOther, hHead', _⟩
  rcases hSound.grown.exists_lineage (view_isSome hEntry) with ⟨_, hChain⟩
  rcases hSound.grown.exists_lineage (view_isSome hOther) with ⟨_, hChain'⟩
  have hHash := (hSound.fits hEntry hChain).hash
  have hHash' := (hSound.fits hOther hChain').hash
  have hFound := hSound.index.mpr ⟨entry, hEntry, hHash⟩
  have hFound' := hSound.index.mpr ⟨other, hOther, hHash'⟩
  rw [hHead] at hFound
  rw [hHead', hFound] at hFound'
  exact Option.some.inj hFound'

theorem exists_lineage (hSound : tree.Sound K params) {n : NodeId} {entry : HeaderEntry}
    (hEntry : tree.entries[n]? = some entry) : ∃ chain, tree.Lineage n chain :=
  hSound.grown.exists_lineage (view_isSome hEntry)

theorem length_le (hSound : tree.Sound K params) {n : NodeId} {chain : List Header}
    (hLine : tree.Lineage n chain) : chain.length ≤ maxTreeHeaders := by
  rcases Lineage.entry hLine with ⟨entry, _, hEntry, _⟩
  have hLe := hSound.grown.length_le hLine
  have hLt := (List.getElem?_eq_some_iff.mp hEntry).1
  have hLen : tree.entries.length ≤ tree.cap := hSound.len_le
  have hCap := hSound.cap_le
  omega

--------
-- The Skip List
--------

/- A pointer is followed where the library follows it. -/
theorem skipToward_eq {entry : HeaderEntry} {skip : NodeId} (hSkip : entry.skip = some skip)
    (fromHeight target : Height) :
    skipToward entry fromHeight target = if SkipList.Takes fromHeight.val target.val then
        some skip
      else
        none := by
  have hTakes : SkipList.Takes fromHeight.val target.val ↔ skipHeight fromHeight.val = target.val ∨
          (target.val < skipHeight fromHeight.val ∧
            ¬ (skipHeight (fromHeight.val - 1) < skipHeight fromHeight.val - 2 ∧
              target.val ≤ skipHeight (fromHeight.val - 1))) := Iff.rfl
  rw [skipToward, hSkip, Option.bind_eq_bind, Option.bind_some]
  dsimp only
  split_ifs <;> simp_all

/-
  The loop reaches the target. The steps left bound the potential of the walk, which every step
  lowers.
-/
theorem walkSteps_eq (hSound : tree.Sound K params) {steps : Nat} {walk : NodeId}
    {walkHeight : Height} {chain : List Header} (hWalk : tree.Lineage walk chain)
    (hHeight : walkHeight.val + 1 = chain.length) (hAbove : height.val ≤ walkHeight.val)
    (hSteps : SkipList.potential walkHeight.val height.val ≤ steps) :
    ∃ found, tree.walkSteps height steps walk walkHeight = .ok found ∧
      tree.Lineage found (upTo height.val chain) := by
  induction steps generalizing walk walkHeight chain with
  | zero =>
    have hEq : walkHeight.val = height.val := by
      by_contra hNe
      have hPos := SkipList.potential_pos hNe
      omega
    have hStop : ¬ height < walkHeight := by
      rw [← Subtype.coe_lt_coe]
      omega
    refine ⟨walk, ?_, ?_⟩
    · rw [walkSteps, assert_of hStop]
      rfl
    · rwa [Arena.upTo_of_length (by omega)]
  | succ steps ih =>
    by_cases hEq : walkHeight.val = height.val
    · have hStop : ¬ height < walkHeight := by
        rw [← Subtype.coe_lt_coe]
        omega
      refine ⟨walk, ?_, ?_⟩
      · rw [walkSteps, if_neg hStop]
        rfl
      · rwa [Arena.upTo_of_length (by omega)]
    · have hLt : height.val < walkHeight.val := by omega
      have hGo : height < walkHeight := hLt
      rcases SkipList.hop_spec hLt with ⟨hTarget, hBelow, hPotential⟩
      rcases Lineage.entry hWalk with ⟨entry, rest, hEntry, rfl, hPar⟩
      have hFits := hSound.fits hEntry hWalk
      have hEntryHeight := hFits.height
      have hSame : entry.height.val = walkHeight.val := by omega
      rcases hFits.skip (by omega) with ⟨skip, hSkip, hSkipLineage⟩
      rw [hSame] at hSkipLineage
      rw [walkSteps, if_pos hGo, entry_eq hEntry, ok_bind, skipToward_eq hSkip]
      unfold SkipList.hop at hTarget hBelow hPotential
      by_cases hTakes : SkipList.Takes walkHeight.val height.val
      · -- down the pointer
        have hLanding : skipHeight walkHeight.val = SkipList.landing walkHeight.val := rfl
        rw [if_pos hTakes] at hTarget hBelow hPotential
        rw [if_pos hTakes]
        have hShort : skipHeight walkHeight.val < (entry.header :: rest).length := by omega
        have hFits' : skipHeight walkHeight.val ≤ 0x7fffffff := by omega
        rcases @ih skip ⟨_, hFits'⟩ _ hSkipLineage (by rw [Arena.length_upTo hShort]) hTarget (by
              rw [← hLanding] at hPotential
              dsimp only
              omega) with
          ⟨found, hFound, hLine⟩
        rw [Arena.upTo_of_suffix (Arena.upTo_suffix _ _) (by rw [Arena.length_upTo hShort]; omega)]
          at hLine
        refine ⟨found, ?_, hLine⟩
        dsimp only
        rw [Height.new, dif_pos hFits', ok_bind, hFound]
      · -- down to the parent
        rw [if_neg hTakes] at hTarget hBelow hPotential
        rw [if_neg hTakes]
        rcases hPar with ⟨_, rfl⟩ | ⟨p, hp, hRest⟩
        · simp only [length_singleton] at hHeight
          omega
        · have hFits' : walkHeight.val - 1 ≤ 0x7fffffff := by omega
          rw [length_cons] at hHeight
          rcases @ih p ⟨_, hFits'⟩ rest hRest (by dsimp only; omega) hTarget
              (by dsimp only; omega) with
            ⟨found, hFound, hLine⟩
          rw [Arena.upTo_of_suffix (suffix_cons _ _) (by omega)] at hLine
          refine ⟨found, ?_, hLine⟩
          dsimp only
          rw [hp, expect_some, ok_bind, Height.new, dif_pos hFits', ok_bind, hFound]

/- A lineage is below `2 ^ 21`, so the bound is enough. -/
theorem ancestor_eq (hSound : tree.Sound K params)
    {node : NodeId} {height : Height} {chain : List Header} (hLine : tree.Lineage node chain)
    (hHeight : height.val < chain.length) :
    ∃ found, tree.ancestor node height = .ok (some found) ∧
      tree.Lineage found (upTo height.val chain) := by
  rcases Lineage.entry hLine with ⟨entry, _, hEntry, _⟩
  have hFits := (hSound.fits hEntry hLine).height
  have hLen := hSound.length_le hLine
  have hMax : maxTreeHeaders = 2 ^ (20 + 1) := rfl
  have hNotAbove : ¬ entry.height < height := by
    rw [← Subtype.coe_lt_coe]
    omega
  have hPotential : SkipList.potential entry.height.val height.val ≤ maxAncestorSteps :=
    (SkipList.potential_le (n := 20) (by omega) (by omega)).trans (by decide)
  rcases hSound.walkSteps_eq hLine hFits (by omega) hPotential with
    ⟨found, hFound, hFoundLineage⟩
  refine ⟨found, ?_, hFoundLineage⟩
  rw [ancestor, entry_eq hEntry, ok_bind,
    if_neg hNotAbove, walkBack, entry_eq hEntry, ok_bind, hFound]
  rfl

theorem ancestor_above (hSound : tree.Sound K params) {chain : List Header}
    (hLine : tree.Lineage node chain) (hHeight : chain.length ≤ height.val) :
    tree.ancestor node height = .ok none := by
  rcases Lineage.entry hLine with ⟨entry, _, hEntry, _⟩
  have hFits := (hSound.fits hEntry hLine).height
  have hAbove : entry.height < height := by
    rw [← Subtype.coe_lt_coe]
    omega
  rw [ancestor, entry_eq hEntry, ok_bind, if_pos hAbove]
  rfl

--------
-- The Context
--------

theorem timesBack_eq {chain : List Header} (hLine : tree.Lineage node chain) (count : Nat) :
    tree.timesBack count (some node) = .ok ((chain.take count).map (·.time)) := by
  induction count generalizing node chain with
  | zero => rfl
  | succ count ih =>
    rcases Lineage.entry hLine with ⟨entry, rest, hEntry, rfl, hPar⟩
    rw [timesBack, entry_eq hEntry, ok_bind]
    rcases hPar with ⟨hNone, rfl⟩ | ⟨p, hp, hRest⟩
    · rw [hNone]
      cases count <;> rfl
    · rw [hp, ih hRest]
      rfl

theorem factsBack_eq (hSound : tree.Sound K params) {chain : List Header}
    (hLine : tree.Lineage node chain) (count : Nat) :
    tree.factsBack count node = .ok ((chainFacts chain).take count) := by
  induction count generalizing node chain with
  | zero => rfl
  | succ count ih =>
    rcases Lineage.entry hLine with ⟨entry, rest, hEntry, rfl, hPar⟩
    have hHeight : Height.above rest.length = entry.height := by
      have hFits := (hSound.fits hEntry hLine).height
      rw [length_cons] at hFits
      rw [← Height.above_val entry.height]
      congr 1
      omega
    rw [factsBack, entry_eq hEntry, ok_bind]
    dsimp only
    rcases hPar with ⟨hNone, rfl⟩ | ⟨p, hp, hRest⟩
    · rw [hNone, chainFacts, hHeight]
      cases count <;> rfl
    · rw [hp, chainFacts, hHeight]
      dsimp only
      rw [ih hRest]
      rfl

theorem length_chainFacts (chain : List Header) : (chainFacts chain).length = chain.length := by
  induction chain with
  | nil => rfl
  | cons header chain ih => rw [chainFacts, length_cons, ih, length_cons]

theorem medianTimePastAt_eq {chain : List Header} (hLine : tree.Lineage node chain) :
    tree.medianTimePastAt node = .ok (medianOf (chainTimes chain)) := by
  have hNe : (chain.take medianTimeSpan).map (fun header => header.time) ≠ [] := by
    simpa [medianTimeSpan] using hLine.ne_nil
  rw [medianTimePastAt, timesBack_eq hLine, ok_bind, medianTimePast_returns hNe (by simp)]
  rfl

theorem bip34Ancestor_eq (hSound : tree.Sound K params) {chain : List Header}
    (hLine : tree.Lineage node chain) (hHeight : height.val = chain.length) :
    tree.bip34Ancestor node height params = .ok (chainBip34 K params chain) := by
  unfold bip34Ancestor chainBip34
  dsimp only
  by_cases hBelow : chain.length ≤ params.buried.bip34.height.val
  · have hLe : height ≤ params.buried.bip34.height := by
      rwa [← Subtype.coe_le_coe, hHeight]
    rw [if_pos hBelow, if_pos hLe]
    rfl
  · have hNotLe : ¬ height ≤ params.buried.bip34.height := by
      rwa [← Subtype.coe_le_coe, hHeight]
    rcases hSound.ancestor_eq hLine (Nat.not_le.mp hBelow) with ⟨found, hFound, hFoundLineage⟩
    rcases Lineage.entry hFoundLineage with ⟨entry, rest, hEntry, hChain, _⟩
    have hHash := (hSound.fits hEntry hFoundLineage).hash
    rw [if_neg hBelow, if_neg hNotLe, hFound, ok_bind,
      expect_some, ok_bind, entry_eq hEntry, ok_bind, hChain, hHash]
    rfl

/- The scratch buffer and the tip are no part of the arena. -/
theorem withTip (hSound : tree.Sound K params) (period : List HeaderFacts) (tip : NodeId) :
    { tree with period := period, tip := tip }.Sound K params :=
  ⟨hSound.grown, hSound.root, fun hEntry hLine => by
      rcases hSound.fits hEntry hLine with ⟨hHash, hHeight, hWork, hSkip⟩
      exact ⟨hHash, hHeight, hWork, hSkip⟩,
    hSound.linked, hSound.worked, hSound.index,
    hSound.len_le, hSound.cap_le⟩

theorem withPeriod (hSound : tree.Sound K params) (period : List HeaderFacts) :
    { tree with period := period }.Sound K params :=
  hSound.withTip period tree.tip

/-
  The walks compute the context that the parent's chain gives, and only the scratch buffer changes.
-/
theorem contextFor_eq_ok (hTab : params.Tabled K) (hSound : tree.Sound K params)
    {parent : NodeId} {chain : List Header} (hLine : tree.Lineage parent chain)
    {context : Context} {after : HeaderTree} :
    tree.contextFor parent (K.blockHash header) header params = .ok (context, after) ↔
      IsContext K params chain header context ∧ after = { tree with
            period := chainPeriod params.intervalOf chain } := by
  rcases Lineage.entry hLine with ⟨entry, rest, hEntry, hChain, _⟩
  have hHead : chain.head? = some entry.header := by
    rw [hChain]
    rfl
  have hEntryHeight := (hSound.fits hEntry hLine).height
  have hLen := hSound.length_le hLine
  have hMax : maxTreeHeaders < 0x7fffffff := by decide
  have hNext : (entry.height.next : Result Empty Height) = .ok ⟨chain.length, by omega⟩ := by
    rw [Height.next_eq_ok]
    exact hEntryHeight.symm
  have hSteps :
      entry.height.val % params.intervalOf + 1 = (chain.length - 1) % params.intervalOf + 1 := by
    congr 2
    omega
  have hPos : Height.genesis < (⟨chain.length, by omega⟩ : Height) := by
    rw [← Subtype.coe_lt_coe]
    show 0 < chain.length
    omega
  simp only [contextFor, requiredBitsAfter, entry_eq hEntry,
    ok_bind, hNext, medianTimePastAt_eq hLine,
    hTab.interval, hSteps, hSound.factsBack_eq hLine, Context.new, dif_pos hPos, bind_eq_ok,
    pure_inj, Prod.mk.injEq, Prod.exists]
  have hScratch := hSound.withPeriod (chainPeriod params.intervalOf chain)
  constructor
  · rintro ⟨_, _, ⟨bits, hBits, rfl, rfl⟩, bip34, hBip34, rules, hRules, rfl, rfl⟩
    refine ⟨⟨rfl, rfl, ?_, hBits, ?_⟩, rfl⟩
    · rw [hHead]
      rfl
    · have hFound := hScratch.bip34Ancestor_eq hLine
          (show (⟨chain.length, by omega⟩ : Height).val = chain.length from rfl)
      rw [chainPeriod] at hFound
      rw [hFound] at hBip34
      cases hBip34
      exact hRules
  · rintro ⟨hCtx, rfl⟩
    have hHeight : context.height = ⟨chain.length, by omega⟩ := Subtype.ext hCtx.height
    have hFound := hScratch.bip34Ancestor_eq hLine
        (show (⟨chain.length, by omega⟩ : Height).val = chain.length from rfl)
    have hRules := hCtx.rules
    rw [hHeight] at hRules
    refine ⟨_, _, ⟨_, hCtx.requiredBits, rfl, rfl⟩, _, hFound, _, hRules, ?_, rfl⟩
    have hPrevious := hCtx.previousTime
    rw [hHead] at hPrevious
    rcases context with ⟨h, m, p, b, r, _⟩
    cases hHeight
    cases hCtx.medianTimePast
    cases hPrevious
    rfl

end Sound

end HeaderTree

end Bitmigo
