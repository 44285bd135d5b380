import Bitmigo.Chain.Locator
import Bitmigo.Chain.Plan

/-
  Which blocks to ask one peer for next.

  Key definitions include:
    * `nextBlocks`
    * `Window.heightsAbove`, the heights above the last common block within the window
    * `Window.below`, the blocks below the first refused one
    * `Window.climb`, the top of the run of held blocks

  Key theorems include:
    * `HeaderTree.commonBlock_agrees`, the two walks to the last common block
    * `Window.visit_append`, a walk in batches is one walk
    * `nextBlocksBy_eq`, what one pass returns, as filters of the blocks in range
    * `nextBlocks_asks`, which blocks are asked for
    * `blamesAtWindow_iff`, when a staller is named only at the end of the window
-/

namespace Bitmigo

open Result List U256

open Arena (upTo)

variable {heights : List Nat} {adjacent : Prop} {fork : List Header}

--------
-- The Functions
--------

abbrev peerSlots : Nat := 32

/- A slot's position in the table. -/
abbrev SlotIndex := Fin peerSlots

def maxBlocksInFlight : Nat := 16

def blockDownloadWindow : Nat := 1024

def walkBatch : Nat := 128

def limitedPeerDepth : Nat := 288 - 2

/- A block that was asked for and has not been given. -/
structure InFlight where
  peer : SlotIndex
  deriving DecidableEq

/- What is known about one peer's chain. -/
structure PeerDownload where
  bestKnown : Option NodeId
  lastCommon : Option NodeId
  deriving DecidableEq

/- What one pass over one peer's window found. -/
structure Walk where
  blocks : List NodeId
  staller : Option SlotIndex
  deriving DecidableEq

def Walk.default : Walk where
  blocks := []
  staller := none

/- Everything the walk reads and does not own. -/
structure Window where
  tree : HeaderTree
  inFlight : KeyedMap BlockHash InFlight
  delivered : Finset BlockHash
  minimumChainWork : Work

/- The loop of `lastCommonAncestor`, with the steps it may still take. -/
def HeaderTree.commonWalk (tree : HeaderTree) :
    Nat → NodeId → NodeId → Result Empty NodeId
  | 0, left, right => do
      assert (left = right)
      return left
  | steps + 1, left, right =>
    if left = right then
      return left
    else do
      let leftEntry ← tree.entry left
      let left ← expect leftEntry.parent
      let rightEntry ← tree.entry right
      let right ← expect rightEntry.parent
      tree.commonWalk steps left right

/- The deepest block two nodes share. -/
def HeaderTree.lastCommonAncestor (tree : HeaderTree) (left right : NodeId) :
    Result Empty NodeId := do
  let leftEntry ← tree.entry left
  let rightEntry ← tree.entry right
  let height := min leftEntry.height rightEntry.height
  let left ← tree.ancestor left height
  let left ← expect left
  let right ← tree.ancestor right height
  let right ← expect right
  tree.commonWalk tree.len left right

/- Where the left edge is looked for. -/
def HeaderTree.knownBlock (tree : HeaderTree) (state : PeerDownload) (best : NodeId) :
    Result Empty NodeId :=
  match state.lastCommon with
  | some known => return known
  | none => do
      let tip ← tree.entry tree.tip
      let entry ← tree.entry best
      let found ← tree.ancestor tree.tip (min tip.height entry.height)
      expect found

/- The left edge of this peer's window. -/
def HeaderTree.commonBlock (tree : HeaderTree) (state : PeerDownload) (best : NodeId) :
    Result Empty NodeId := do
  let known ← tree.knownBlock state best
  tree.lastCommonAncestor known best

/- The nodes from a node down to a height, as `headersDown`. -/
def HeaderTree.nodesDown (tree : HeaderTree) (first : Nat) :
    Nat → NodeId → Result Empty (List NodeId)
  | 0, _ => panicked
  | fuel + 1, node => do
      let entry ← tree.entry node
      if entry.height.val ≤ first then
        return [node]
      else do
        let parent ← expect entry.parent
        let below ← tree.nodesDown first fuel parent
        return node :: below

/- The ancestors of `best` in a range, lowest first. -/
def Window.batch (tree : HeaderTree) (best : NodeId) (first last : Nat) :
    Result Empty (List NodeId) := do
  assert (first ≤ last)
  let height ← Height.new last
  let found ← tree.ancestor best height
  let node ← expect found
  let nodes ← tree.nodesDown first tree.len node
  assert (nodes.length = last - first + 1)
  return nodes.reverse

namespace Window

/- Is the block behind a header already here? -/
def haveBlock (window : Window) (node : NodeId) : Result Empty Bool := do
  let entry ← window.tree.entry node
  return entry.status.location.isSome ||
    decide (entry.hash ∈ window.delivered)

/- What a walk has gathered so far. -/
structure Scan where
  blocks : List NodeId
  common : NodeId
  waitingFor : Option SlotIndex
  deriving DecidableEq

/- The walk over one batch, and whether a refused block ended the pass. -/
def visit (window : Window) (bestHeight want : Nat) (limited : Bool) :
    List NodeId → Scan → Result Empty (Bool × Scan)
  | [], scan => return (false, scan)
  | node :: rest, scan => do
      let entry ← window.tree.entry node
      if entry.status.isTerminal then
        return (true, scan)
      else do
        let here ← window.haveBlock node
        if here then do
          let common ← window.tree.entry scan.common
          -- contiguously, and only contiguously
          if entry.height.val = common.height.val + 1 then
            window.visit bestHeight want limited rest { scan with common := node }
          else
            window.visit bestHeight want limited rest scan
        else
          match window.inFlight.lookup entry.hash with
          | some held =>
            window.visit bestHeight want limited rest
              { scan with
                waitingFor := scan.waitingFor.or (some held.peer) }
          | none =>
            if limited ∧
                entry.height.val + limitedPeerDepth < bestHeight then
              window.visit bestHeight want limited rest scan
            else
              let scan := { scan with blocks := scan.blocks ++ [node] }
              if want ≤ scan.blocks.length then
                return (false, scan)
              else
                window.visit bestHeight want limited rest scan

/- The `u32` a batch's size becomes. -/
def spanOf (size want : Nat) : Nat :=
  if max size want < 2 ^ 32 then
    max size want
  else
    2 ^ 32 - 1

/- The walk over the batches.  A batch is not empty, so there are no more of them than heights. -/
def visitBatches
    (window : Window) (size : Nat) (best : NodeId) (bestHeight want : Nat) (limited : Bool)
    (last : Nat) :
    Nat → Nat → Scan → Result Empty (Bool × Scan)
  | 0, _, scan => return (false, scan)
  | fuel + 1, height, scan =>
    if scan.blocks.length < want ∧ height ≤ last then do
      let batchEnd := min last (min (height + spanOf size want) (2 ^ 32 - 1) - 1)
      let nodes ← batch window.tree best height batchEnd
      let (refused, scan) ← window.visit bestHeight want limited nodes scan
      if refused then
        return (true, scan)
      else
        window.visitBatches size best bestHeight want limited last fuel (batchEnd + 1) scan
    else
      return (false, scan)

end Window

/- The next blocks to ask `peer` for, walking batches of at least `size`. -/
def nextBlocksBy
    (size : Nat) (window : Window) (state : PeerDownload) (peer : SlotIndex) (want : Nat)
    (limited : Bool) :
    Result Empty (Walk × PeerDownload) := do
  assert (0 < want ∧ want ≤ maxBlocksInFlight)
  let tree := window.tree
  match state.bestKnown with
  | none => return (Walk.default, state)
  | some best => do
      let entry ← tree.entry best
      let tip ← tree.entry tree.tip
      if beNat entry.chainwork <
          beNat tip.chainwork then
        return (Walk.default, state)
      else if beNat entry.chainwork <
          beNat window.minimumChainWork then
        return (Walk.default, state)
      else do
        let common ← tree.commonBlock state best
        let state := { state with lastCommon := some common }
        if common = best then
          return (Walk.default, state)
        else do
          let bestHeight := entry.height.val
          let edge ← tree.entry common
          let last := min bestHeight (edge.height.val + blockDownloadWindow)
          let first := edge.height.val + 1
          let (refused, scan) ←
            window.visitBatches size best bestHeight want
              limited last (last + 1 - first) first
              { blocks := [], common, waitingFor := none }
          let state := { state with lastCommon := some scan.common }
          if refused then
            return ({ blocks := scan.blocks, staller := none }, state)
          else if scan.blocks = [] ∧
              scan.waitingFor.any (· ≠ peer) then
            return ({ blocks := scan.blocks,
                      staller := scan.waitingFor }, state)
          else
            return ({ blocks := scan.blocks, staller := none }, state)

def nextBlocks :
    Window → PeerDownload → SlotIndex → Nat → Bool → Result Empty (Walk × PeerDownload) :=
  nextBlocksBy walkBatch

--------
-- The Last Common Block
--------

namespace HeaderTree

variable {K : Primitives} {params : ChainParams} {tree : HeaderTree}

theorem val_min (left right : Height) : (min left right).val = min left.val right.val := by
  rcases le_total left right with hLe | hLe
  · rw [min_eq_left hLe, Nat.min_eq_left hLe]
  · rw [min_eq_right hLe, Nat.min_eq_right hLe]

variable {m n : NodeId} {left right : List Header}

section

variable (hSound : tree.Sound K params) (hLeft : tree.Lineage m left)
variable (hRight : tree.Lineage n right)

include hSound hLeft hRight

/- Two lineages of length one are both genesis. -/
theorem Sound.eq_of_length_one (hOne : left.length ≤ 1) (hLen : left.length = right.length) :
    left = right := by
  rcases hSound.grown.root_shared hLeft hRight with ⟨a, hSuf, hSuf'⟩
  have hLeftEq : [a] = left := hSuf.eq_of_length (Nat.le_antisymm hSuf.length_le hOne)
  rw [hLen] at hOne
  have hRightEq : [a] = right := hSuf'.eq_of_length (Nat.le_antisymm hSuf'.length_le hOne)
  rw [← hLeftEq, ← hRightEq]

theorem Sound.commonWalk_eq {steps : Nat} (hLen : left.length = right.length)
    (hSteps : left.length ≤ steps + 1) :
    ∃ node fork, tree.commonWalk steps m n = .ok node ∧ tree.Lineage node fork ∧
      Reroute.IsFork left right fork := by
  induction steps generalizing m n left right with
  | zero =>
    have hSame := hSound.eq_of_length_one hLeft hRight hSteps hLen
    subst hSame
    have hNode := Arena.Lineage.injective hSound.distinct hLeft hRight
    refine ⟨m, left, ?_, hLeft, .refl left⟩
    rw [commonWalk, assert_of hNode]
    rfl
  | succ steps ih =>
    by_cases hSame : m = n
    · subst hSame
      cases Arena.Lineage.unique hLeft hRight
      exact ⟨m, left, if_pos rfl, hLeft, .refl left⟩
    · have hNe : left ≠ right := by
        intro hEq
        subst hEq
        exact hSame (Arena.Lineage.injective hSound.distinct hLeft hRight)
      have hLong : 1 < left.length := by
        by_contra hShort
        exact hNe (hSound.eq_of_length_one hLeft hRight (by omega) hLen)
      rcases Lineage.entry hLeft with ⟨entry, rest, hEntry, rfl, hAbove⟩
      rcases Lineage.entry hRight with ⟨other, rest', hOther, rfl, hAbove'⟩
      simp only [length_cons] at hLen hSteps hLong
      rcases hAbove with ⟨_, rfl⟩ | ⟨p, hPar, hRest⟩
      · simp only [length_nil] at hLong
        omega
      rcases hAbove' with ⟨_, rfl⟩ | ⟨q, hPar', hRest'⟩
      · simp only [length_nil] at hLen
        omega
      rcases ih hRest hRest' (by omega) (by omega) with ⟨node, fork, hWalk, hNode, hFork⟩
      refine ⟨node, fork, ?_, hNode, hFork.cons hNe (by omega)⟩
      rw [commonWalk, if_neg hSame, entry_eq hEntry,
        ok_bind, hPar, expect_some, ok_bind, entry_eq hOther, ok_bind,
        hPar', expect_some, ok_bind, hWalk]

/- The deepest block two chains share. -/
theorem Sound.lastCommonAncestor_eq :
    ∃ node fork, tree.lastCommonAncestor m n = .ok node ∧ tree.Lineage node fork ∧
      Reroute.IsFork left right fork := by
  rcases Lineage.entry hLeft with ⟨entry, _, hEntry, _⟩
  rcases Lineage.entry hRight with ⟨other, _, hOther, _⟩
  have hHeight := (hSound.fits hEntry hLeft).height
  have hHeight' := (hSound.fits hOther hRight).height
  have hMin := val_min entry.height other.height
  have hBelow : (min entry.height other.height).val < left.length := by omega
  have hBelow' : (min entry.height other.height).val < right.length := by omega
  rcases hSound.ancestor_eq hLeft hBelow with ⟨low, hLow, hLowLineage⟩
  rcases hSound.ancestor_eq hRight hBelow' with ⟨low', hLow', hLowLineage'⟩
  have hLength := Arena.length_upTo hBelow
  have hLength' := Arena.length_upTo hBelow'
  have hSteps : (upTo (min entry.height other.height).val left).length ≤ tree.len + 1 := by
    have hLen := hSound.lineage_le_len hLowLineage
    omega
  rcases hSound.commonWalk_eq hLowLineage hLowLineage' (by omega) hSteps with
    ⟨node, fork, hWalk, hNode, hFork⟩
  refine ⟨node, fork, ?_, hNode, hFork.of_upTo hBelow hBelow' (by omega)⟩
  rw [lastCommonAncestor, entry_eq hEntry, ok_bind, entry_eq hOther, ok_bind]
  dsimp only
  rw [hLow, ok_bind, expect_some, ok_bind, hLow', ok_bind, expect_some, ok_bind, hWalk]

end

/- Where the search for the left edge starts. -/
def Known (tree : HeaderTree) (state : PeerDownload) (chain known : List Header) : Prop :=
  match state.lastCommon with
  | some node => tree.Lineage node known
  | none =>
    ∃ tip, tree.Lineage tree.tip tip ∧ known = upTo (min (tip.length - 1) (chain.length - 1)) tip

variable {best : NodeId} {chain : List Header}

section

variable (hSound : tree.Sound K params) {state : PeerDownload} {known : List Header}
variable (hBest : tree.Lineage best chain) (hKnown : tree.Known state chain known)

include hSound hBest hKnown

theorem Sound.knownBlock_eq :
    ∃ node, tree.knownBlock state best = .ok node ∧ tree.Lineage node known := by
  unfold Known at hKnown
  unfold knownBlock
  cases hCommon : state.lastCommon with
  | some node =>
    rw [hCommon] at hKnown
    exact ⟨node, rfl, hKnown⟩
  | none =>
    rw [hCommon] at hKnown
    rcases hKnown with ⟨tip, hTip, rfl⟩
    rcases Lineage.entry hTip with ⟨top, _, hTop, _⟩
    rcases Lineage.entry hBest with ⟨entry, _, hEntry, _⟩
    have hTopHeight := (hSound.fits hTop hTip).height
    have hHeight := (hSound.fits hEntry hBest).height
    have hMin : (min top.height entry.height).val = min (tip.length - 1) (chain.length - 1) := by
      rw [val_min]
      omega
    rcases @Sound.ancestor_eq _ _ _ hSound tree.tip (min top.height entry.height) _ hTip
        (by omega) with
      ⟨found, hFound, hLine⟩
    rw [hMin] at hLine
    refine ⟨found, ?_, hLine⟩
    dsimp only
    rw [entry_eq hTop, ok_bind, entry_eq hEntry, ok_bind, hFound]
    rfl

theorem Sound.commonBlock_eq :
    ∃ node fork, tree.commonBlock state best = .ok node ∧ tree.Lineage node fork ∧
      Reroute.IsFork known chain fork := by
  rcases hSound.knownBlock_eq hBest hKnown with ⟨start, hStart, hLine⟩
  rcases hSound.lastCommonAncestor_eq hLine hBest with ⟨node, fork, hNode, hFound⟩
  refine ⟨node, fork, ?_, hFound⟩
  rw [commonBlock, hStart, ok_bind, hNode]

end

/- The left edge for a peer not yet asked is the fork a reorganisation to its chain starts from. -/
theorem commonBlock_agrees (hTab : params.Tabled K) {cap : Nat} {log : List (Call × Answer)}
    (hRun : TreeRun K params cap log tree) (hBest : tree.Lineage best chain) {state : PeerDownload}
    (hFresh : state.lastCommon = none) :
    ∃ fork, tree.forkPoint best = .ok fork ∧ tree.commonBlock state best = .ok fork := by
  have hHealthy := hRun.healthy hTab
  rcases hHealthy.exists_tip with ⟨_, tip, _, hTip⟩
  have hKnown : tree.Known state chain (upTo (min (tip.length - 1) (chain.length - 1)) tip) := by
    rw [Known, hFresh]
    exact ⟨tip, hTip, rfl⟩
  rcases hHealthy.forkPoint_eq hTip hBest with ⟨fork, _, hFork, hShared, hLeft, hRight, hDeep⟩
  rcases hHealthy.sound.commonBlock_eq hBest hKnown with ⟨node, _, hNode, hPath, hOther⟩
  -- what the chains share is no longer than either, so it outlasts the cut
  have hLen := hLeft.length_le
  have hLen' := hRight.length_le
  cases hOther.unique ⟨suffix_of_suffix_length_le hLeft (Arena.upTo_suffix _ _)
    (by rw [upTo, length_drop]; omega), hRight,
    fun hLow => hDeep (hLow.trans (Arena.upTo_suffix _ _))⟩
  cases Arena.Lineage.injective hHealthy.sound.distinct hPath hShared
  exact ⟨fork, hFork, hNode⟩

--------
-- Batches
--------

/- These are the nodes at these heights of a chain. -/
def NodesAt (tree : HeaderTree) (chain : List Header) : List Nat → List NodeId → Prop :=
  Forall₂ fun height node =>
    tree.Lineage node (upTo height chain)

theorem Lineage.exists_nodesAt (hLine : tree.Lineage n chain)
    (hHeights : ∀ height ∈ heights, height < chain.length) :
    ∃ nodes, tree.NodesAt chain heights nodes := by
  induction heights with
  | nil => exact ⟨[], .nil⟩
  | cons height rest ih =>
    rcases ih (fun other hOther => hHeights other (mem_cons_of_mem _ hOther)) with
      ⟨nodes, hNodes⟩
    rcases Arena.Lineage.exists_upTo hLine (hHeights height mem_cons_self) with
      ⟨node, hNode, _⟩
    exact ⟨node :: nodes, .cons hNode hNodes⟩

theorem Sound.nodesAt_unique (hSound : tree.Sound K params) {nodes others : List NodeId}
    (hNodes : tree.NodesAt chain heights nodes) (hOthers : tree.NodesAt chain heights others) :
    nodes = others := by
  refine right_unique_forall₂' ?_ hNodes hOthers
  intro height node other hNode hOther
  exact Arena.Lineage.injective hSound.distinct hNode hOther

theorem Sound.nodesDown_eq (hSound : tree.Sound K params) {first last fuel : Nat} {node : NodeId}
    (hNode : tree.Lineage node (upTo last chain)) (hFst : first ≤ last)
    (hLast : last < chain.length) (hFuel : last - first < fuel) :
    ∃ nodes, tree.nodesDown first fuel node = .ok nodes ∧
      tree.NodesAt chain (range' first (last + 1 - first)) nodes.reverse := by
  induction fuel generalizing last node with
  | zero => omega
  | succ fuel ih =>
    rcases hSound.entry_upTo hLast hNode with ⟨entry, hEntry, hHeight, _⟩
    rw [nodesDown, entry_eq hEntry, ok_bind]
    by_cases hEnd : entry.height.val ≤ first
    · have hSame : last = first := by omega
      subst hSame
      have hOne : last + 1 - last = 1 := by omega
      rw [if_pos hEnd, hOne]
      exact ⟨[node], rfl, .cons hNode .nil⟩
    · rcases Lineage.entry hNode with ⟨same, rest, hSame, hChain, hPar⟩
      rw [hEntry, Option.some.injEq] at hSame
      subst hSame
      have hLen := Arena.length_upTo hLast
      rw [hChain, length_cons] at hLen
      rcases hPar with ⟨_, rfl⟩ | ⟨p, hSome, hRest⟩
      · simp only [length_nil] at hLen
        omega
      have hSuf : rest <:+ chain :=
        (suffix_cons entry.header rest).trans (hChain ▸ Arena.upTo_suffix last chain)
      rw [Arena.eq_upTo_of_suffix hSuf (show rest.length = last - 1 + 1 by omega)] at hRest
      rcases ih hRest (by omega) (by omega) (by omega) with ⟨below, hBelow, hNodes⟩
      have hCount : last + 1 - first = last - 1 + 1 - first + 1 := by omega
      have hAt : first + (last - 1 + 1 - first) = last := by omega
      refine ⟨node :: below, ?_, ?_⟩
      · rw [if_neg hEnd, hSome, expect_some, ok_bind, hBelow, ok_bind]
        rfl
      · rw [hCount, range'_1_concat, hAt, reverse_cons]
        exact rel_append hNodes (.cons hNode .nil)

/- A batch is the nodes of its range, lowest first. -/
theorem Sound.batch_eq (hSound : tree.Sound K params) (hBest : tree.Lineage best chain)
    {first last : Nat} (hFst : first ≤ last) (hLast : last < chain.length) :
    ∃ nodes, Window.batch tree best first last = .ok nodes ∧
      tree.NodesAt chain (range' first (last + 1 - first)) nodes := by
  have hFits : last ≤ 0x7fffffff := by
    have hLe := hSound.length_le hBest
    have hMax : maxTreeHeaders = 2 ^ 21 := rfl
    omega
  rcases @Sound.ancestor_eq _ _ _ hSound best ⟨last, hFits⟩ _ hBest hLast with
    ⟨node, hFound, hLine⟩
  have hNode : tree.Lineage node (upTo last chain) := hLine
  have hLen := hSound.lineage_le_len hNode
  rw [Arena.length_upTo hLast] at hLen
  rcases hSound.nodesDown_eq hNode hFst hLast (show last - first < tree.len by omega) with
    ⟨nodes, hDown, hNodes⟩
  have hLength : nodes.length = last - first + 1 := by
    have hSame := hNodes.length_eq
    rw [length_range', length_reverse] at hSame
    omega
  refine ⟨nodes.reverse, ?_, hNodes⟩
  rw [Window.batch, assert_of hFst, ok_bind, Height.new, dif_pos hFits, ok_bind, hFound,
    ok_bind, expect_some, ok_bind, hDown, ok_bind, assert_of hLength]
  rfl

end HeaderTree

namespace Window

variable {K : Primitives} {params : ChainParams} {window : Window} {bestHeight want : Nat}
variable {limited : Bool}

--------
-- The Walk
--------

/- The status a node has is refused. -/
def refused (window : Window) (node : NodeId) : Bool :=
  (window.tree.entries[node]?).any (·.status.isTerminal)

/- The block is stored, or was delivered. -/
def held (window : Window) (node : NodeId) : Bool :=
  (window.tree.entries[node]?).any fun entry =>
    entry.status.location.isSome ||
      decide (entry.hash ∈ window.delivered)

/- The peer a block was asked of. -/
def holder (window : Window) (node : NodeId) : Option SlotIndex :=
  (window.tree.entries[node]?).bind fun entry =>
    (window.inFlight.lookup entry.hash).map (·.peer)

/- The block is too old for a peer that keeps few. -/
def tooDeep (window : Window) (limited : Bool) (bestHeight : Nat) (node : NodeId) : Bool :=
  limited && (window.tree.entries[node]?).any fun entry =>
    decide (entry.height.val + limitedPeerDepth < bestHeight)

/- The block is one to ask for. -/
def wanted (window : Window) (limited : Bool) (bestHeight : Nat) (node : NodeId) : Bool :=
  !window.held node && (window.holder node).isNone && !window.tooDeep limited bestHeight node

/- The peer a block that is not here was asked of. -/
def awaited (window : Window) (node : NodeId) : Option SlotIndex :=
  if window.held node then none else window.holder node

/- The blocks below the first refused one. -/
def below (window : Window) (nodes : List NodeId) : List NodeId :=
  nodes.takeWhile fun node => !window.refused node

/- The top of the run of held blocks, or where it starts. -/
def climb (window : Window) (common : NodeId) (nodes : List NodeId) : NodeId :=
  (((window.below nodes).takeWhile window.held).getLast?).getD common

/- What one node does to a walk. -/
inductive Step where
  | stop (ended : Bool) (scan : Scan)
  | go (scan : Scan)

def heightAt (window : Window) (node : NodeId) : Option Nat :=
  (window.tree.entries[node]?).map (·.height.val)

/- The left edge moves up to a node directly above it. -/
def advance (window : Window) (scan : Scan) (node : NodeId) : Scan :=
  if window.heightAt node =
      (window.heightAt scan.common).map (· + 1) then
    { scan with common := node }
  else
    scan

def step (window : Window) (bestHeight want : Nat) (limited : Bool) (node : NodeId)
    (scan : Scan) : Step :=
  if window.refused node then
    .stop true scan
  else if window.held node then
    .go (window.advance scan node)
  else
    match window.holder node with
    | some peer =>
      .go { scan with
        waitingFor := scan.waitingFor.or (some peer) }
    | none =>
      if window.tooDeep limited bestHeight node then
        .go scan
      else if want ≤ scan.blocks.length + 1 then
        .stop false { scan with blocks := scan.blocks ++ [node] }
      else
        .go { scan with blocks := scan.blocks ++ [node] }

/- Every node is of the tree. -/
def Minted (window : Window) (nodes : List NodeId) : Prop :=
  ∀ node ∈ nodes, (window.tree.entries[node]?).isSome

variable {node : NodeId} {rest : List NodeId} {scan : Scan}

theorem visit_cons (hMinted : window.Minted [scan.common, node]) :
    window.visit bestHeight want limited (node :: rest) scan =
      match window.step bestHeight want limited node scan with
      | .stop ended scan => .ok (ended, scan)
      | .go scan =>
        window.visit bestHeight want limited rest scan := by
  rcases Option.isSome_iff_exists.mp (hMinted scan.common (by simp)) with ⟨edge, hEdge⟩
  rcases Option.isSome_iff_exists.mp (hMinted node (by simp)) with ⟨entry, hEntry⟩
  rw [visit, HeaderTree.entry_eq hEntry, ok_bind, haveBlock, HeaderTree.entry_eq hEntry, ok_bind,
    HeaderTree.entry_eq hEdge, step, refused, held, holder, tooDeep, advance, heightAt, heightAt]
  simp only [hEntry, hEdge, Option.any_some, Option.bind_some,
    Option.map_some, Option.some.injEq, pure_eq_ok, ok_bind, Bool.and_eq_true, decide_eq_true_eq,
    length_append, length_cons, length_nil, Nat.zero_add]
  split
  · rfl
  split
  · split <;> rfl
  cases window.inFlight.lookup entry.hash with
  | some _ => rfl
  | none =>
    dsimp only [Option.map_none]
    split
    · rfl
    split <;> rfl

variable {height : Nat}

theorem isSome_of_heightAt (hHeight : window.heightAt node = some height) :
    (window.tree.entries[node]?).isSome := by
  rcases Option.map_eq_some_iff.mp hHeight with ⟨entry, hEntry, _⟩
  rw [hEntry]
  rfl

/- What a node the walk goes on from has done. -/
structure Went (window : Window) (bestHeight want : Nat) (limited : Bool) (node : NodeId)
    (scan after : Scan) : Prop where
  fine : window.refused node = false
  blocks : after.blocks = scan.blocks ++
        if window.wanted limited bestHeight node then [node]
        else []
  room : scan.blocks.length < want → after.blocks.length < want
  common : after.common =
      if window.held node then
        (window.advance scan node).common
      else
        scan.common
  waitingFor : after.waitingFor = scan.waitingFor.or (window.awaited node)

variable {after : Scan}

theorem step_go (hStep : window.step bestHeight want limited node scan = .go after) :
    window.Went bestHeight want limited node scan after := by
  unfold step at hStep
  split at hStep
  case isTrue => cases hStep
  case isFalse hFine =>
  rw [Bool.not_eq_true] at hFine
  split at hStep
  case isTrue hHeld =>
    have hSame : (window.advance scan node).blocks = scan.blocks ∧
        (window.advance scan node).waitingFor = scan.waitingFor := by
      unfold advance
      split <;> exact ⟨rfl, rfl⟩
    cases hStep
    refine ⟨hFine, ?_, ?_, ?_, ?_⟩
    · simp [wanted, hHeld, hSame.1]
    · rw [hSame.1]
      exact id
    · rw [if_pos hHeld]
    · simp [awaited, hHeld, hSame.2]
  case isFalse hHeld =>
  split at hStep
  case h_1 peer hPeer =>
    cases hStep
    refine ⟨hFine, ?_, id, ?_, ?_⟩
    · simp [wanted, hPeer]
    · rw [if_neg hHeld]
    · rw [awaited, if_neg hHeld, hPeer]
  case h_2 hPeer =>
  split at hStep
  case isTrue hDeep =>
    cases hStep
    refine ⟨hFine, ?_, id, ?_, ?_⟩
    · simp [wanted, hDeep]
    · rw [if_neg hHeld]
    · rw [awaited, if_neg hHeld, hPeer, Option.or_none]
  case isFalse hDeep =>
  split at hStep
  case isTrue => cases hStep
  case isFalse hMore =>
    cases hStep
    refine ⟨hFine, ?_, ?_, ?_, ?_⟩
    · simp [wanted, hHeld, hPeer, hDeep]
    · intro _
      rw [length_append]
      exact Nat.not_le.mp hMore
    · rw [if_neg hHeld]
    · rw [awaited, if_neg hHeld, hPeer, Option.or_none]

theorem Went.common_mem (hWent : window.Went bestHeight want limited node scan after) :
    after.common = scan.common ∨ after.common = node := by
  rw [hWent.common]
  split
  · unfold advance
    split
    · exact .inr rfl
    · exact .inl rfl
  · exact .inl rfl

variable {ended : Bool}

/- It stops at a refused block, or when it is full. -/
theorem step_stop (hStep : window.step bestHeight want limited node scan = .stop ended after) :
    (window.refused node = true ∧ ended = true ∧ after = scan) ∨
      (window.refused node = false ∧ window.wanted limited bestHeight node = true ∧
        want ≤ scan.blocks.length + 1 ∧
        after = { scan with blocks := scan.blocks ++ [node] }) := by
  unfold step at hStep
  split at hStep
  case isTrue hRefused =>
    cases hStep
    exact .inl ⟨hRefused, rfl, rfl⟩
  case isFalse hFine =>
  split at hStep
  case isTrue => cases hStep
  case isFalse hHeld =>
  split at hStep
  case h_1 => cases hStep
  case h_2 hPeer =>
  split at hStep
  case isTrue => cases hStep
  case isFalse hDeep =>
  split at hStep
  case isTrue hFull =>
    cases hStep
    refine .inr ⟨Bool.not_eq_true _ ▸ hFine, ?_, hFull, rfl⟩
    simp [wanted, hHeld, hPeer, hDeep]
  case isFalse => cases hStep

/- Then no further node is looked at. -/
theorem ended_or_full (hStep : window.step bestHeight want limited node scan = .stop ended after) :
    (ended = true ∨ want ≤ after.blocks.length) ∧ after.common = scan.common := by
  rcases step_stop hStep with ⟨_, hEnded, rfl⟩ | ⟨_, _, hFull, rfl⟩
  · exact ⟨.inl hEnded, rfl⟩
  · refine ⟨.inr ?_, rfl⟩
    rwa [length_append]

theorem Minted.go (hMinted : window.Minted (scan.common :: node :: rest))
    (hCommon : after.common = scan.common ∨ after.common = node) :
    window.Minted (after.common :: rest) := by
  intro other hOther
  rcases mem_cons.mp hOther with rfl | hRest
  · rcases hCommon with hSame | hNode
    · rw [hSame]
      exact hMinted _ (by simp)
    · rw [hNode]
      exact hMinted _ (by simp)
  · exact hMinted other (by simp [hRest])

/- A walk returns, and its left edge is of the tree. -/
theorem visit_returns {nodes : List NodeId} {scan : Scan}
    (hMinted : window.Minted (scan.common :: nodes)) (hRoom : scan.blocks.length < want) :
    ∃ ended after, window.visit bestHeight want limited nodes scan = .ok (ended, after) ∧
      (window.tree.entries[after.common]?).isSome := by
  induction nodes generalizing scan with
  | nil => exact ⟨false, scan, rfl, hMinted _ mem_cons_self⟩
  | cons node rest ih =>
    rw [visit_cons (fun other hOther => hMinted other (by simp at hOther ⊢; tauto))]
    cases hStep : window.step bestHeight want limited node scan with
    | stop ended after =>
      refine ⟨ended, after, rfl, ?_⟩
      rw [(ended_or_full hStep).2]
      exact hMinted _ mem_cons_self
    | go after =>
      have hWent := step_go hStep
      exact ih (hMinted.go hWent.common_mem) (hWent.room hRoom)

/- A walk in batches is one walk. -/
theorem visit_append {before after : List NodeId} (hMinted : window.Minted (scan.common :: before))
    (hRoom : scan.blocks.length < want) :
    window.visit bestHeight want limited (before ++ after) scan =
      (window.visit bestHeight want limited before scan >>= fun (ended, scan) =>
          if ended ∨ want ≤ scan.blocks.length then
            .ok (ended, scan)
          else
            window.visit bestHeight want limited after scan) := by
  induction before generalizing scan with
  | nil =>
    rw [nil_append, visit, pure_eq_ok, ok_bind]
    exact (if_neg (by simp; omega)).symm
  | cons node rest ih =>
    have hPair : window.Minted [scan.common, node] :=
      fun other hOther =>
        hMinted other (by simp at hOther ⊢; tauto)
    rw [cons_append, visit_cons hPair, visit_cons hPair]
    cases hStep : window.step bestHeight want limited node scan with
    | stop ended after =>
      rw [ok_bind]
      exact (if_pos (ended_or_full hStep).1).symm
    | go after =>
      have hWent := step_go hStep
      exact ih (hMinted.go hWent.common_mem) (hWent.room hRoom)

variable {chain : List Header} {nodes : List NodeId}

theorem minted_of_nodesAt (hNodes : window.tree.NodesAt chain heights nodes) :
    window.Minted nodes := by
  intro node hMem
  induction hNodes with
  | nil => cases hMem
  | cons hFst _ ih =>
    rcases mem_cons.mp hMem with rfl | hRest
    · rcases HeaderTree.Lineage.entry hFst with ⟨entry, _, hEntry, _⟩
      rw [hEntry]
      rfl
    · exact ih hRest

variable {last : Nat}

/- The nodes of a range are those of its two parts. -/
theorem nodesAt_split (middle : Nat) (hHeight : height ≤ middle) (hMiddle : middle ≤ last)
    (hNodes : window.tree.NodesAt chain (range' height (last - height)) nodes) :
    ∃ before after, nodes = before ++ after ∧
      window.tree.NodesAt chain (range' height (middle - height)) before ∧
      window.tree.NodesAt chain (range' middle (last - middle)) after := by
  have hRange : range' height (last - height) =
      range' height (middle - height) ++ range' middle (last - middle) := by
    have hJoin := @List.range'_append_1 height (middle - height) (last - middle)
    rw [Nat.add_sub_cancel' hHeight] at hJoin
    rw [hJoin]
    congr 1
    omega
  have hLen :
      (range' height (middle - height)).length = middle - height := length_range'
  have hTake := forall₂_take (middle - height) hNodes
  have hDrop := forall₂_drop (middle - height) hNodes
  rw [hRange, take_left' hLen] at hTake
  rw [hRange, drop_left' hLen] at hDrop
  exact ⟨_, _, (take_append_drop _ _).symm, hTake, hDrop⟩

/- A batch is not empty. -/
theorem batchEnd_mem (size : Nat) (hWant : 0 < want) (hHeight : height ≤ last)
    (hLast : last < 2 ^ 31) :
    height ≤ min last (min (height + spanOf size want) (2 ^ 32 - 1) - 1) ∧
      min last (min (height + spanOf size want) (2 ^ 32 - 1) - 1) ≤ last := by
  have hSpan : 0 < spanOf size want := by
    unfold spanOf
    split <;> omega
  omega

/- A walk that is full takes no further batch. -/
theorem visitBatches_full {size fuel : Nat} {best : NodeId} (hFull : want ≤ scan.blocks.length) :
    window.visitBatches size best bestHeight want limited last fuel height scan =
      .ok (false, scan) := by
  cases fuel with
  | zero => rfl
  | succ fuel =>
    exact if_neg fun hBoth =>
      Nat.not_lt.mpr hFull hBoth.1

/- The walk over the batches is the walk over the range. -/
theorem visitBatches_eq (hSound : window.tree.Sound K params) {size : Nat} {best : NodeId}
    (hBest : window.tree.Lineage best chain) (hLast : last < chain.length) {fuel : Nat}
    (hFuel : last + 1 - height ≤ fuel)
    (hNodes : window.tree.NodesAt chain (range' height (last + 1 - height)) nodes)
    (hCommon : (window.tree.entries[scan.common]?).isSome) (hRoom : scan.blocks.length < want) :
    window.visitBatches size best bestHeight want limited last fuel height scan =
      window.visit bestHeight want limited nodes scan := by
  induction fuel generalizing height nodes scan with
  | zero =>
    have hNone : last + 1 - height = 0 := by omega
    rw [hNone] at hNodes
    cases hNodes
    rfl
  | succ fuel ih =>
    rw [visitBatches]
    by_cases hMore : height ≤ last
    · rw [if_pos ⟨hRoom, hMore⟩]
      have hMax := hSound.length_le hBest
      have hCap : maxTreeHeaders = 2 ^ 21 := rfl
      have hEnd := batchEnd_mem size (Nat.zero_lt_of_lt hRoom) hMore (by omega)
      dsimp only
      generalize min last (min (height + spanOf size want) (2 ^ 32 - 1) - 1) = batchEnd at hEnd
      rcases hSound.batch_eq hBest hEnd.1 (by omega) with ⟨before, hBatch, hBefore⟩
      rcases nodesAt_split (batchEnd + 1) (by omega) (by omega) hNodes with
        ⟨same, after, rfl, hSame, hAfter⟩
      cases hSound.nodesAt_unique hSame hBefore
      have hMinted : window.Minted (scan.common :: before) := by
        intro node hNode
        rcases mem_cons.mp hNode with rfl | hRest
        · exact hCommon
        · exact minted_of_nodesAt hBefore node hRest
      rcases @visit_returns _ bestHeight _ limited _ _ hMinted hRoom with
        ⟨ended, next, hVisit, hNext⟩
      rw [visit_append hMinted hRoom, hBatch, ok_bind, hVisit, ok_bind, ok_bind]
      dsimp only
      cases ended with
      | true =>
        rw [if_pos rfl, if_pos (.inl rfl)]
        rfl
      | false =>
        rw [if_neg Bool.false_ne_true]
        by_cases hFull : want ≤ next.blocks.length
        · rw [if_pos (.inr hFull), visitBatches_full hFull]
        · rw [if_neg (by simp [hFull])]
          exact ih (by omega) hAfter hNext (Nat.not_le.mp hFull)
    · have hNone : last + 1 - height = 0 := by omega
      rw [hNone] at hNodes
      cases hNodes
      rw [if_neg (fun hBoth => hMore hBoth.2)]
      rfl

--------
-- What a Walk Finds
--------

theorem below_of_refused (hRefused : window.refused node = true) (rest : List NodeId) :
    window.below (node :: rest) = [] := by
  rw [below, takeWhile_cons, hRefused]
  rfl

theorem below_cons (hFine : window.refused node = false) (rest : List NodeId) :
    window.below (node :: rest) = node :: window.below rest := by
  rw [below, takeWhile_cons, hFine]
  rfl

theorem climb_cons_of_held (hFine : window.refused node = false) (hHeld : window.held node = true)
    (common : NodeId) (rest : List NodeId) :
    window.climb common (node :: rest) = window.climb node rest := by
  rw [climb, below_cons hFine, takeWhile_cons, if_pos hHeld, getLast?_cons, Option.getD_some]
  rfl

theorem climb_cons_of_not_held (hFine : window.refused node = false)
    (hHeld : window.held node = false) (common : NodeId) (rest : List NodeId) :
    window.climb common (node :: rest) = common := by
  rw [climb, below_cons hFine, takeWhile_cons, hHeld]
  rfl

theorem climb_of_refused (hRefused : window.refused node = true)
    (common : NodeId) (rest : List NodeId) : window.climb common (node :: rest) = common := by
  rw [climb, below_of_refused hRefused]
  rfl

/- What a walk leaves, as filters of the nodes it is over. -/
structure Surveyed (window : Window) (bestHeight want : Nat) (limited : Bool) (nodes : List NodeId)
    (adjacent : Prop) [Decidable adjacent] (scan : Scan) (ended : Bool)
    (after : Scan) : Prop where
  blocks : after.blocks =
      (scan.blocks ++ (window.below nodes).filter (window.wanted limited bestHeight)).take want
  common : after.common =
      if adjacent then window.climb scan.common nodes
      else scan.common
  idle : after.blocks = [] →
      ended = nodes.any window.refused ∧
        after.waitingFor = scan.waitingFor.or ((window.below nodes).findSome? window.awaited)

/- A node the walk goes on from, and the rest. -/
theorem Surveyed.cons
    {node : NodeId} {rest : List NodeId} {adjacent above : Prop} [Decidable adjacent]
    [Decidable above] {scan next after : Scan} {ended : Bool}
    (hWent : window.Went bestHeight want limited node scan next) (hCommon :
      (if above then window.climb next.common rest else next.common) =
      if adjacent then window.climb scan.common (node :: rest) else scan.common)
    (hNext : window.Surveyed bestHeight want limited rest above next ended after) :
    window.Surveyed bestHeight want limited (node :: rest) adjacent scan ended after where
  blocks := by
    rw [hNext.blocks, hWent.blocks, below_cons hWent.fine, filter_cons, append_assoc]
    congr 2
    split <;> rfl
  common := hNext.common.trans hCommon
  idle := by
    intro hNone
    rcases hNext.idle hNone with ⟨hEnded, hHolder⟩
    refine ⟨?_, ?_⟩
    · rw [hEnded, any_cons, hWent.fine, Bool.false_or]
    · rw [hHolder, hWent.waitingFor, below_cons hWent.fine, Option.or_assoc, findSome?_cons]
      cases window.awaited node <;> rfl

/- A node the walk stops at. -/
theorem Surveyed.stop [Decidable adjacent] (hRoom : scan.blocks.length < want)
    (hStep : window.step bestHeight want limited node scan = .stop ended after) :
    window.Surveyed bestHeight want limited (node :: rest) adjacent scan ended after := by
  rcases step_stop hStep with ⟨hRefused, rfl, rfl⟩ | ⟨hFine, hWanted, hFull, rfl⟩
  · refine ⟨?_, ?_, ?_⟩
    · rw [below_of_refused hRefused, filter_nil, append_nil, take_of_length_le hRoom.le]
    · rw [climb_of_refused hRefused, ite_self]
    · intro _
      rw [below_of_refused hRefused, any_cons, hRefused]
      exact ⟨rfl, (Option.or_none).symm⟩
  · have hHeld : window.held node = false := by
      simp only [wanted, Bool.and_eq_true, Bool.not_eq_true'] at hWanted
      exact hWanted.1.1
    refine ⟨?_, ?_, ?_⟩
    · have hLen : (scan.blocks ++ [node]).length = want := by
        rw [length_append]
        exact Nat.le_antisymm hRoom hFull
      rw [below_cons hFine, filter_cons_of_pos hWanted,
        append_cons _ _ (List.filter _ _), take_left' hLen]
    · rw [climb_cons_of_not_held hFine hHeld, ite_self]
    · intro hNone
      exact absurd hNone (by simp)

/- The nodes of a range directly above the left edge or not. -/
theorem visit_eq (hSound : window.tree.Sound K params)
    {chain : List Header} {height count : Nat} {nodes : List NodeId}
    (hNodes : window.tree.NodesAt chain (range' height count) nodes)
    (hCount : height + count ≤ chain.length) {scan : Scan} {edge : Nat}
    (hEdge : window.heightAt scan.common = some edge) (hBelow : edge < height)
    (hRoom : scan.blocks.length < want) :
    ∃ ended after, window.visit bestHeight want limited nodes scan = .ok (ended, after) ∧
      window.Surveyed bestHeight want limited nodes (height = edge + 1) scan ended after := by
  induction nodes generalizing height count scan edge with
  | nil =>
    refine ⟨false, scan, rfl, ?_, ?_, ?_⟩
    · simp [below, take_of_length_le hRoom.le]
    · simp [climb, below]
    · simp [below]
  | cons node rest ih =>
    cases count with
    | zero => cases hNodes
    | succ count =>
    rw [range'_succ] at hNodes
    cases hNodes with
    | cons hFst hRest =>
    rcases hSound.entry_upTo (by omega) hFst with ⟨entry, hEntry, hHeight, _⟩
    have hAt : window.heightAt node = some height := by
      rw [heightAt, hEntry, Option.map_some, hHeight]
    have hPair : window.Minted [scan.common, node] := by
      intro other hOther
      rcases mem_pair.mp hOther with rfl | rfl
      · exact isSome_of_heightAt hEdge
      · exact isSome_of_heightAt hAt
    rw [visit_cons hPair]
    cases hStep : window.step bestHeight want limited node scan with
    | stop ended after => exact ⟨ended, after, rfl, .stop hRoom hStep⟩
    | go next =>
      have hWent := step_go hStep
      by_cases hClimbs : window.held node = true ∧ height = edge + 1
      · -- the left edge moves up to the node
        have hNext : next.common = node := by
          rw [hWent.common, if_pos hClimbs.1, advance, if_pos]
          rw [hAt, hEdge, hClimbs.2]
          rfl
        rw [← hNext] at hAt
        rcases ih hRest (by omega) hAt (by omega) (hWent.room hRoom) with
          ⟨ended, after, hVisit, hSurveyed⟩
        refine ⟨ended, after, hVisit, .cons hWent ?_ hSurveyed⟩
        rw [if_pos rfl, if_pos hClimbs.2, hNext, climb_cons_of_held hWent.fine hClimbs.1]
      · have hNext : next.common = scan.common := by
          rw [hWent.common]
          split
          case isTrue hHeld =>
            rw [advance, if_neg]
            rw [hAt, hEdge, Option.map_some, Option.some.injEq]
            exact fun hAbove => hClimbs ⟨hHeld, hAbove⟩
          case isFalse => rfl
        rw [← hNext] at hEdge
        rcases ih hRest (by omega) hEdge (by omega) (hWent.room hRoom) with
          ⟨ended, after, hVisit, hSurveyed⟩
        refine ⟨ended, after, hVisit, .cons hWent ?_ hSurveyed⟩
        rw [if_neg (by omega), hNext]
        split
        case isTrue hAbove =>
          have hHeld : window.held node = false := by
            rw [← Bool.not_eq_true]
            exact fun hHeld => hClimbs ⟨hHeld, hAbove⟩
          rw [climb_cons_of_not_held hWent.fine hHeld]
        case isFalse => rfl

/- The heights above a left edge, within the window. -/
def heightsAbove (fork chain : List Header) : List Nat :=
  range' fork.length
    (min (chain.length - 1) (fork.length - 1 + blockDownloadWindow) + 1 - fork.length)

/- What a pass over these nodes finds. -/
def found (window : Window) (peer : SlotIndex) (bestHeight want : Nat) (limited : Bool)
    (nodes : List NodeId) : Walk where
  blocks := ((window.below nodes).filter (window.wanted limited bestHeight)).take want
  staller :=
    if nodes.any window.refused ∨
        (window.below nodes).any (window.wanted limited bestHeight) then
      none
    else
      ((window.below nodes).findSome? window.awaited).filter (· ≠ peer)

theorem found_nil (peer : SlotIndex) :
    window.found peer bestHeight want limited [] = Walk.default := by
  simp [found, below, Walk.default]

/- The end of `nextBlocks`, after the walk. -/
theorem Surveyed.found_eq [Decidable adjacent] {common : NodeId} (hWant : 0 < want)
    (hSurveyed : window.Surveyed bestHeight want limited nodes adjacent
        { blocks := [], common, waitingFor := none } ended
        after) (peer : SlotIndex) :
    (if ended then
        { blocks := after.blocks, staller := none }
      else if after.blocks = [] ∧ after.waitingFor.any (· ≠ peer) then
        { blocks := after.blocks, staller := after.waitingFor }
      else
        { blocks := after.blocks, staller := none }) =
      window.found peer bestHeight want limited nodes := by
  have hBlocks := hSurveyed.blocks
  rw [nil_append] at hBlocks
  have hEmpty :
      after.blocks = [] ↔ (window.below nodes).any (window.wanted limited bestHeight) = false := by
    rw [hBlocks, take_eq_nil_iff, any_eq_false, filter_eq_nil_iff]
    exact or_iff_right hWant.ne'
  rw [found, ← hBlocks]
  by_cases hNone : after.blocks = []
  · rcases hSurveyed.idle hNone with ⟨hEnded, hWaiting⟩
    rw [Option.none_or] at hWaiting
    rw [hEmpty.mp hNone, ← hEnded, ← hWaiting]
    cases ended with
    | true => rw [if_pos rfl, if_pos (.inl rfl)]
    | false =>
      cases after.waitingFor with
      | none => simp
      | some held =>
        by_cases hPeer : held = peer
        · simp [hPeer, Option.filter_some]
        · simp [hNone, hPeer, Option.filter_some]
  · have hSome : (window.below nodes).any (window.wanted limited bestHeight) = true := by
      rw [← Bool.not_eq_false]
      exact fun hFalse => hNone (hEmpty.mpr hFalse)
    cases ended <;> simp [hNone, hSome]

end Window

section

variable {K : Primitives} {params : ChainParams} {window : Window} {state : PeerDownload}
variable {peer : SlotIndex} {want : Nat} {limited : Bool} {best : NodeId}

variable {chain : List Header}

section

variable (hHealthy : window.tree.Healthy K params) (hWant : 0 < want ∧ want ≤ maxBlocksInFlight)
variable (hKnows : state.bestKnown = some best) (hBest : window.tree.Lineage best chain)

include hHealthy hWant hKnows hBest

/- A peer whose chain has too little work is not asked. -/
theorem nextBlocksBy_of_lt (hLow : window.tree.workAt best < window.tree.workAt window.tree.tip ∨
      window.tree.workAt best < beNat window.minimumChainWork) (size : Nat) :
    nextBlocksBy size window state peer want limited = .ok (Walk.default, state) := by
  rcases HeaderTree.Lineage.entry hBest with ⟨entry, _, hEntry, _⟩
  rcases hHealthy.exists_tip with ⟨top, _, hTop, _⟩
  rw [HeaderTree.workAt_eq hEntry, HeaderTree.workAt_eq hTop] at hLow
  rw [nextBlocksBy, assert_of hWant, ok_bind, hKnows]
  dsimp only
  rw [HeaderTree.entry_eq hEntry, ok_bind, HeaderTree.entry_eq hTop, ok_bind]
  split
  case isTrue => rfl
  case isFalse hEnough =>
    rw [if_pos (hLow.resolve_left hEnough)]
    rfl

/- What one pass returns and where it leaves the left edge. -/
theorem nextBlocksBy_eq {known : List Header} (hKnown : window.tree.Known state chain known)
    (hWork : window.tree.workAt window.tree.tip ≤ window.tree.workAt best)
    (hMinimum : beNat window.minimumChainWork ≤ window.tree.workAt best) :
    ∃ common fork nodes, window.tree.Lineage common fork ∧ Reroute.IsFork known chain fork ∧
        window.tree.NodesAt chain (Window.heightsAbove fork chain) nodes ∧
        ∀ size, nextBlocksBy size window state peer want limited =
            .ok (window.found peer (chain.length - 1) want limited nodes, { state with
                lastCommon := some (window.climb common nodes) }) := by
  have hSound := hHealthy.sound
  rcases HeaderTree.Lineage.entry hBest with ⟨entry, _, hEntry, _⟩
  rcases hHealthy.exists_tip with ⟨top, _, hTop, _⟩
  rcases hSound.commonBlock_eq hBest hKnown with ⟨common, fork, hCommon, hFork, hIsFork⟩
  rcases HeaderTree.Lineage.entry hFork with ⟨edge, _, hEdge, _⟩
  have hHeight := (hSound.fits hEntry hBest).height
  have hEdgeHeight := (hSound.fits hEdge hFork).height
  have hLe := hIsFork.right.length_le
  rw [HeaderTree.workAt_eq hEntry, HeaderTree.workAt_eq hTop] at hWork
  rw [HeaderTree.workAt_eq hEntry] at hMinimum
  have hInside : ∀ height ∈ Window.heightsAbove fork chain, height < chain.length := by
    intro height hHeight
    rw [Window.heightsAbove, mem_range'_1] at hHeight
    omega
  rcases HeaderTree.Lineage.exists_nodesAt hBest hInside with ⟨nodes, hNodes⟩
  refine ⟨common, fork, nodes, hFork, hIsFork, hNodes, ?_⟩
  intro size
  rw [nextBlocksBy, assert_of hWant, ok_bind, hKnows]
  dsimp only
  rw [HeaderTree.entry_eq hEntry, ok_bind,
    HeaderTree.entry_eq hTop, ok_bind, if_neg (Nat.not_lt.mpr hWork),
    if_neg (Nat.not_lt.mpr hMinimum), hCommon, ok_bind]
  by_cases hSame : common = best
  · subst hSame
    cases Arena.Lineage.unique hFork hBest
    have hNone : Window.heightsAbove chain chain = [] := by
      rw [Window.heightsAbove, range'_eq_nil_iff]
      omega
    rw [hNone] at hNodes
    cases hNodes
    rw [if_pos rfl, Window.found_nil]
    rfl
  · rw [if_neg hSame, HeaderTree.entry_eq hEdge, ok_bind]
    have hFst : edge.height.val + 1 = fork.length := hEdgeHeight
    have hTopHeight : entry.height.val = chain.length - 1 := by omega
    have hEdgeVal : edge.height.val = fork.length - 1 := by omega
    have hAt : window.heightAt common = some (fork.length - 1) := by
      rw [Window.heightAt, hEdge, Option.map_some, hEdgeVal]
    rcases @Window.visit_eq _ _ window (chain.length - 1) want
        limited hSound _ _ _ _ hNodes (by omega)
        { blocks := [], common, waitingFor := none } _ hAt
        (by omega) hWant.1 with
      ⟨ended, after, hVisit, hSurveyed⟩
    rw [hFst, hTopHeight, hEdgeVal, Window.visitBatches_eq hSound hBest (by omega)
        (Nat.le_refl _) hNodes
        (Window.isSome_of_heightAt hAt) hWant.1, hVisit,
      ok_bind]
    dsimp only
    have hEdgeMoved := hSurveyed.common
    rw [if_pos (by omega)] at hEdgeMoved
    rw [← hSurveyed.found_eq hWant.1 peer, hEdgeMoved]
    split
    · rfl
    split <;> rfl

end

--------
-- What Is Asked For
--------

variable {nodes : List NodeId}

theorem HeaderTree.NodesAt.exists_height {tree : HeaderTree}
    (hNodes : tree.NodesAt chain heights nodes) {node : NodeId} (hMem : node ∈ nodes) :
    ∃ height ∈ heights, tree.Lineage node (upTo height chain) := by
  induction hNodes with
  | nil => cases hMem
  | cons hFst _ ih =>
    rcases mem_cons.mp hMem with rfl | hRest
    · exact ⟨_, mem_cons_self, hFst⟩
    · rcases ih hRest with ⟨height, hIn, hNode⟩
      exact ⟨height, mem_cons_of_mem _ hIn, hNode⟩

/- A block to ask for is known by its header alone. -/
theorem Window.status_of_wanted (hHealthy : window.tree.Healthy K params) (hFork : fork ≠ [])
    (hLen : fork.length ≤ chain.length)
    (hNodes : window.tree.NodesAt chain (heightsAbove fork chain) nodes) {bestHeight : Nat}
    {node : NodeId} (hMem : node ∈ (window.below nodes).filter (window.wanted limited bestHeight)) :
    window.tree.statusAt node = some .headerAccepted := by
  rcases mem_filter.mp hMem with ⟨hBelow, hWanted⟩
  have hFine := mem_takeWhile_imp hBelow
  have hIn := (takeWhile_sublist _).mem hBelow
  rcases hNodes.exists_height hIn with ⟨height, hHeight, hNode⟩
  rcases HeaderTree.Lineage.entry hNode with ⟨entry, _, hEntry, _⟩
  have hStat := HeaderTree.statusAt_of_entry hEntry
  simp only [refused, hEntry, Option.any_some, Bool.not_eq_true'] at hFine
  simp only [wanted, held, hEntry, Option.any_some,
    Bool.and_eq_true, Bool.not_eq_true', Bool.or_eq_false_iff] at hWanted
  have hBytes := hWanted.1.1.1
  rw [hStat]
  cases hKind : entry.status with
  | headerAccepted => rfl
  | genesis =>
    rw [hKind] at hStat
    cases hHealthy.judged.root.mp hStat
    have hRoot := Arena.Lineage.unique hNode hHealthy.sound.root
    have hSize := congrArg List.length hRoot
    have hPos := length_pos_iff.mpr hFork
    rw [heightsAbove, mem_range'_1] at hHeight
    rw [Arena.length_upTo (by omega), length_singleton] at hSize
    omega
  | blockChecked location | connected location undo =>
    rw [hKind] at hBytes
    cases hBytes
  | invalid invalidity | invalidAncestor culprit =>
    rw [hKind] at hFine
    cases hFine

/-
  One pass asks for the lowest blocks above the last common one that are below the first refused one
  and neither here, nor in flight, nor too old, and moves the left edge over the blocks that are
  here, whatever the size of its batches.
-/
theorem nextBlocks_asks (hTab : params.Tabled K) {cap : Nat} {log : List (Call × Answer)}
    (hRun : TreeRun K params cap log window.tree) (hWant : 0 < want ∧ want ≤ maxBlocksInFlight)
    (hKnows : state.bestKnown = some best) {chain known : List Header}
    (hBest : window.tree.Lineage best chain) (hKnown : window.tree.Known state chain known)
    (hWork : window.tree.workAt window.tree.tip ≤ window.tree.workAt best)
    (hMinimum : beNat window.minimumChainWork ≤ window.tree.workAt best) :
    ∃ common fork nodes walk,
      window.tree.Lineage common fork ∧
        Reroute.IsFork known chain fork ∧
        window.tree.NodesAt chain (Window.heightsAbove fork chain) nodes ∧
        nextBlocks window state peer want limited = .ok (walk,
            { state with
              lastCommon := some (window.climb common nodes) }) ∧
        walk.blocks =
          ((window.below nodes).filter (window.wanted limited (chain.length - 1))).take want ∧
        (∀ node ∈ walk.blocks, window.tree.statusAt node = some .headerAccepted) ∧
        ∀ size,
          nextBlocksBy size window state peer want limited =
            nextBlocks window state peer want limited := by
  have hHealthy := hRun.healthy hTab
  rcases nextBlocksBy_eq hHealthy hWant hKnows hBest hKnown hWork hMinimum with
    ⟨common, fork, nodes, hFork, hIsFork, hNodes, hRet⟩
  refine ⟨common, fork, nodes, _, hFork, hIsFork, hNodes, hRet walkBatch, rfl, ?_, ?_⟩
  · intro node hNode
    exact Window.status_of_wanted hHealthy (Arena.Lineage.ne_nil hFork) hIsFork.right.length_le
      hNodes (mem_of_mem_take hNode)
  · intro size
    rw [nextBlocks, hRet, hRet]

--------
-- Who Is Blamed
--------

/- A staller is named only when the peer's chain goes on past the window. -/
def BlamesAtWindow (window : Window) (state : PeerDownload) (peer : SlotIndex) (want : Nat)
    (limited : Bool) : Prop :=
  ∀ walk after staller best chain known fork,
    nextBlocks window state peer want limited =
        .ok (walk, after) →
      walk.staller = some staller →
      state.bestKnown = some best →
      window.tree.Lineage best chain →
      window.tree.Known state chain known →
      Reroute.IsFork known chain fork → fork.length - 1 + blockDownloadWindow < chain.length - 1

/-
  Where the peer's chain ends within the window, a block on the way is to be asked for, or refused,
  or nobody else is waited for.
-/
def Unblocked (window : Window) (state : PeerDownload) (peer : SlotIndex) (limited : Bool) : Prop :=
  ∀ best chain known fork nodes,
    state.bestKnown = some best →
      window.tree.Lineage best chain →
      window.tree.Known state chain known →
      Reroute.IsFork known chain fork →
      chain.length - 1 ≤ fork.length - 1 + blockDownloadWindow →
      window.tree.NodesAt chain (range' fork.length (chain.length - fork.length)) nodes →
      window.tree.workAt window.tree.tip ≤ window.tree.workAt best →
      beNat window.minimumChainWork ≤
        window.tree.workAt best →
        (∃ node ∈ nodes, window.refused node = true) ∨
          (∃ node ∈ nodes, window.wanted limited (chain.length - 1) node = true) ∨
          ∀ other, nodes.findSome? window.awaited = some other → other = peer

/- A chain that ends within the window is walked whole. -/
theorem Window.heightsAbove_of_le (hLen : fork.length ≤ chain.length) (hFork : fork ≠ [])
    (hEnds : chain.length - 1 ≤ fork.length - 1 + blockDownloadWindow) :
    heightsAbove fork chain = range' fork.length (chain.length - fork.length) := by
  have hPos := length_pos_iff.mpr hFork
  rw [heightsAbove, Nat.min_eq_left hEnds, Nat.sub_add_cancel (by omega)]

theorem Window.below_of_fine (hFine : ∀ node ∈ nodes, ¬ window.refused node = true) :
    window.below nodes = nodes := by
  rw [below, takeWhile_eq_self_iff]
  intro node hNode
  rw [Bool.not_eq_true', ← Bool.not_eq_true]
  exact hFine node hNode

/- When a pass names a staller. -/
theorem Window.staller_eq_some {nodes : List NodeId} {bestHeight : Nat} {staller : SlotIndex} :
    (window.found peer bestHeight want limited nodes).staller = some staller ↔
      (∀ node ∈ nodes, ¬ window.refused node = true) ∧
        (∀ node ∈ nodes, ¬ window.wanted limited bestHeight node = true) ∧
        nodes.findSome? window.awaited = some staller ∧ staller ≠ peer := by
  by_cases hFine : ∀ node ∈ nodes, ¬ window.refused node = true
  · have hNone : nodes.any window.refused = false := any_eq_false.mpr hFine
    rw [found, below_of_fine hFine, hNone]
    simp only [Bool.false_eq_true, false_or]
    by_cases hIdle : nodes.any (window.wanted limited bestHeight) = true
    · rw [if_pos hIdle]
      rcases any_eq_true.mp hIdle with ⟨node, hNode, hWanted⟩
      constructor
      · intro hSome
        cases hSome
      · intro hAll
        exact absurd hWanted (hAll.2.1 node hNode)
    · rw [if_neg hIdle, Option.filter_eq_some_iff]
      rw [Bool.not_eq_true, any_eq_false] at hIdle
      simp only [decide_eq_true_eq]
      exact ⟨fun hSome => ⟨hFine, hIdle, hSome⟩, fun hAll => hAll.2.2⟩
  · have hSome : nodes.any window.refused = true := by
      rwa [← Bool.not_eq_false, any_eq_false]
    rw [found, hSome, if_pos (.inl rfl)]
    constructor
    · intro hNone
      cases hNone
    · intro hAll
      exact absurd hAll.1 hFine

/- Who is blamed, exactly. -/
theorem blamesAtWindow_iff (hTab : params.Tabled K) {cap : Nat} {log : List (Call × Answer)}
    (hRun : TreeRun K params cap log window.tree) (hWant : 0 < want ∧ want ≤ maxBlocksInFlight) :
    BlamesAtWindow window state peer want limited ↔ Unblocked window state peer limited := by
  have hHealthy := hRun.healthy hTab
  constructor
  · intro hBlames best chain known fork nodes hKnows hBest hKnown hFork hEnds hNodes hWork hMinimum
    rcases nextBlocksBy_eq hHealthy hWant hKnows hBest hKnown hWork hMinimum with
      ⟨common, same, found, hCommon, hSame, hFound, hRet⟩
    cases hSame.unique hFork
    rw [Window.heightsAbove_of_le hFork.right.length_le
      (Arena.Lineage.ne_nil hCommon) hEnds] at hFound
    cases hHealthy.sound.nodesAt_unique hFound hNodes
    by_contra hNot
    simp only [not_or, not_exists, not_and, not_forall] at hNot
    rcases hNot with ⟨hFine, hIdle, other, hOther, hNe⟩
    have hStaller := (@Window.staller_eq_some window peer want limited _
        (chain.length - 1) other).mpr ⟨hFine, hIdle, hOther, hNe⟩
    have hPast := hBlames _ _ other best chain known fork
      (hRet walkBatch) hStaller hKnows hBest hKnown hFork
    omega
  · intro hUnblocked walk after staller best chain known fork
      hRet hStaller hKnows hBest hKnown hFork
    by_contra hEnds
    by_cases hLow : window.tree.workAt best < window.tree.workAt window.tree.tip ∨
          window.tree.workAt best < beNat window.minimumChainWork
    · rw [nextBlocks, nextBlocksBy_of_lt hHealthy hWant hKnows hBest hLow] at hRet
      cases hRet
      cases hStaller
    · rw [not_or, Nat.not_lt, Nat.not_lt] at hLow
      rcases nextBlocksBy_eq hHealthy hWant hKnows hBest hKnown hLow.1 hLow.2 with
        ⟨common, same, nodes, hCommon, hSame, hNodes, hWalks⟩
      cases hSame.unique hFork
      rw [nextBlocks, hWalks] at hRet
      cases hRet
      rw [Window.heightsAbove_of_le hFork.right.length_le
        (Arena.Lineage.ne_nil hCommon) (Nat.not_lt.mp hEnds)]
        at hNodes
      rcases Window.staller_eq_some.mp hStaller with ⟨hFine, hIdle, hOther, hNe⟩
      rcases hUnblocked best chain known fork nodes hKnows
          hBest hKnown hFork (Nat.not_lt.mp hEnds) hNodes
          hLow.1 hLow.2 with
        ⟨node, hNode, hRefused⟩ | ⟨node, hNode, hWanted⟩ | hPeer
      · exact hFine node hNode hRefused
      · exact hIdle node hNode hWanted
      · exact hNe (hPeer staller hOther)

end

--------
-- A Short Chain
--------

/- A peer has told us of `right` and `top`, and we have neither block. -/
namespace SmallChain

def peerState : PeerDownload where
  bestKnown := some 2
  lastCommon := none

def noWork : Work := ⟨replicate 32 0, by decide⟩

/- Nothing has been asked for. -/
def idleWindow (tree : HeaderTree) : Window where
  tree := tree
  inFlight := ∅
  delivered := ∅
  minimumChainWork := noWork

/- Both blocks have been asked of slot one. -/
def busyWindow (tree : HeaderTree) : Window where
  tree := tree
  inFlight :=
    (Finmap.singleton rightHash { peer := 1 }).insert
      (crypto.primitives.blockHash top) { peer := 1 }
  delivered := ∅
  minimumChainWork := noWork

theorem works_returns :
    climb.map (fun tree => (tree.workAt tree.tip, tree.workAt 2)) = .ok (2, 6) := by
  decide +kernel

theorem busy_returns :
    (climb >>= fun tree => nextBlocks (busyWindow tree) peerState 0 16 false) =
      .ok ({ blocks := [], staller := some 1 }, { bestKnown := some 2, lastCommon := some 0 }) := by
  decide +kernel

theorem isFork_genesis :
    Reroute.IsFork [params.genesis.header] [top, right, params.genesis.header]
      [params.genesis.header] where
  left := suffix_refl _
  right := ⟨[top, right], rfl⟩
  deepest := fun hOther _ => hOther

theorem commonBlock_agrees_top :
    ∃ tree, climb = .ok tree ∧ ∃ fork, tree.forkPoint 2 = .ok fork ∧
      tree.commonBlock peerState 2 = .ok fork := by
  rcases exists_climb with ⟨log, tree, hClimb, hRun, hBest, _⟩
  exact ⟨tree, hClimb, HeaderTree.commonBlock_agrees tabled hRun hBest rfl⟩

/- Both blocks are asked for. -/
theorem nextBlocks_asks_idle :
    ∃ window walk after,
      window.inFlight = ∅ ∧
        nextBlocks window peerState 0 16 false = .ok (walk, after) ∧
        ∀ node ∈ walk.blocks, window.tree.statusAt node = some .headerAccepted := by
  rcases exists_climb with ⟨log, tree, hClimb, hRun, hBest, hTip⟩
  have hWorks := works_returns
  rw [hClimb, Except.map, Except.ok.injEq, Prod.mk.injEq] at hWorks
  have hKnown : tree.Known peerState [top, right, params.genesis.header] [params.genesis.header] :=
    ⟨_, hTip, rfl⟩
  rcases @nextBlocks_asks _ _ (idleWindow tree) peerState 0 16
      false 2 tabled 8 log hRun (by decide) rfl _ _ hBest hKnown
      (by
        show tree.workAt tree.tip ≤ tree.workAt 2
        rw [hWorks.1, hWorks.2]
        decide)
      (by
        show beNat noWork ≤ tree.workAt 2
        rw [hWorks.2]
        decide +kernel) with
    ⟨_, _, _, walk, _, _, _, hRet, _, hStat, _⟩
  exact ⟨idleWindow tree, walk, _, rfl, hRet, hStat⟩

/- The walk ends where the peer's chain does, and slot one is blamed all the same. -/
theorem nextBlocks_blames_slot_one :
    ∃ log window,
      TreeRun crypto.primitives params 8 log window.tree ∧
        ¬ BlamesAtWindow window peerState 0 16 false := by
  rcases exists_climb with ⟨log, tree, hClimb, hRun, hBest, hTip⟩
  have hRet := busy_returns
  rw [hClimb, ok_bind] at hRet
  refine ⟨log, busyWindow tree, hRun, ?_⟩
  intro hBlames
  have hPast := hBlames _ _ 1 2 _ [params.genesis.header] _
    hRet rfl rfl hBest ⟨_, hTip, rfl⟩ isFork_genesis
  exact absurd hPast (by decide)

theorem blamesAtWindow_iff_busy :
    ∃ log tree,
      TreeRun crypto.primitives params 8 log tree ∧
        (0 < 16 ∧ 16 ≤ maxBlocksInFlight) ∧
        (BlamesAtWindow (busyWindow tree) peerState 0 16 false ↔
          Unblocked (busyWindow tree) peerState 0 false) := by
  rcases exists_climb with ⟨log, tree, _, hRun, _⟩
  exact ⟨log, tree, hRun, by decide,
    @blamesAtWindow_iff _ _ (busyWindow tree) _ _ _ _ tabled 8 log hRun (by decide)⟩

end SmallChain

end Bitmigo
