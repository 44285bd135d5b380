import Bitmigo.Chain.Context
import Bitmigo.Lib.Backoff
import Bitmigo.Peer.Wire

/-
  Locators, and the answer to `getheaders` read off the same tree.

  Key definitions include:
    * `HeaderTree.locator`
    * `HeaderTree.forkInActiveChain`
    * `HeaderTree.headersAfter`

  Key theorems include:
    * `HeaderTree.Sound.locator_eq`, the hashes of the stops of a walk that doubles its step
    * `HeaderTree.Healthy.forkInActiveChain_eq`
    * `HeaderTree.Healthy.headersAfter_eq`
    * `locator_finds_fork`, two trees find where they agree
    * `HeaderTree.ancestor_exact`, the skip list finds what the parent links lead to
-/

namespace Bitmigo

open Result List Backoff

open Arena (upTo)

/- The most entries a locator built here can have. -/
def maxLocatorEntries : Nat := 40

/- How many entries go by before the step doubles. -/
def locatorPlain : Nat := 10

namespace HeaderTree

--------
-- The Functions
--------

/-
  The loop of `locator`. An entry more than allowed fails the assertion, so the loop runs at most
  once more than the entries there may be.
-/
def locatorLoop (tree : HeaderTree) :
    Nat → NodeId → Nat → List BlockHash → Result Empty (List BlockHash)
  | 0, _, _, _ => panicked
  | fuel + 1, walk, step, entries => do
      let entry ← tree.entry walk
      let entries := entries ++ [entry.hash]
      assert (entries.length ≤ maxLocatorEntries)
      if entry.height = Height.genesis then
        return entries
      else do
        let back ← Height.new (entry.height.val - step)
        let found ← tree.ancestor walk back
        let walk ← expect found
        let step :=
          if locatorPlain < entries.length then
            min (step * 2) (2 ^ 32 - 1)
          else
            step
        locatorLoop tree fuel walk step entries

/- The locator of a node's chain. -/
def locator (tree : HeaderTree) (node : NodeId) : Result Empty (List BlockHash) :=
  tree.locatorLoop (maxLocatorEntries + 1) node 1 []

/- The first of these hashes on the active chain, or genesis. -/
def firstActive (tree : HeaderTree) :
    List BlockHash → Result Empty NodeId
  | [] => return NodeId.genesis
  | hash :: rest =>
    match tree.nodeOf hash with
    | none => tree.firstActive rest
    | some node => do
        let active ← tree.isActive node
        if active then
          return node
        else
          tree.firstActive rest

def forkInActiveChain (tree : HeaderTree) (locator : List BlockHash) : Result Empty NodeId := do
  assert (locator.length ≤ maxLocatorItems)
  tree.firstActive (locator.take maxLocatorItems)

/- The headers from a node down to a height.  A walk down parents is no longer than the tree. -/
def headersDown (tree : HeaderTree) (first : Nat) :
    Nat → NodeId → Result Empty (List Header)
  | 0, _ => panicked
  | fuel + 1, walk => do
      let entry ← tree.entry walk
      if entry.height.val ≤ first then
        return [entry.header]
      else do
        let parent ← expect entry.parent
        let below ← tree.headersDown first fuel parent
        return entry.header :: below

/- A stop block on the way is the last one served. -/
def clampToStop (tree : HeaderTree) (stop : BlockHash) (first last : Nat) : Result Empty Nat :=
  match tree.nodeOf stop with
  | none => return last
  | some node => do
      let entry ← tree.entry node
      let height := entry.height.val
      let active ← tree.isActive node
      if active ∧ first ≤ height ∧ height < last then
        return height
      else
        return last

/- The answer to one `getheaders`. -/
def headersAfter (tree : HeaderTree) (locator : List BlockHash) (stop : BlockHash) (max : Nat) :
    Result Empty (List Header) := do
  assert (0 < max ∧ max ≤ maxHeadersItems)
  let fork ← tree.forkInActiveChain locator
  let entry ← tree.entry fork
  let first := entry.height.val + 1
  let tip ← tree.entry tree.tip
  let tipHeight := tip.height.val
  if tipHeight < first then
    return []
  else do
    let last ← tree.clampToStop stop first (min tipHeight (first + max - 1))
    let last ← Height.new last
    let found ← tree.ancestor tree.tip last
    let walk ← expect found
    let headers ← tree.headersDown first tree.len walk
    let headers := headers.reverse
    assert (headers.length ≤ max)
    return headers

--------
-- Chains by Height
--------

/- The hashes of a chain, from genesis up. -/
def chainHashes (K : Primitives) (chain : List Header) : List BlockHash :=
  chain.reverse.map K.blockHash

/- These are the hashes at these heights. -/
def HashesAt (K : Primitives) (chain : List Header) : List Nat → List BlockHash → Prop :=
  Forall₂ fun height hash =>
    (chainHashes K chain)[height]? = some hash

variable {K : Primitives} {params : ChainParams} {tree : HeaderTree}

variable {height : Nat} {chain : List Header}

theorem getElem?_reverse (hHeight : height < chain.length) :
    chain.reverse[height]? = (upTo height chain).head? := by
  rw [upTo, head?_drop, List.getElem?_reverse hHeight]
  congr 1
  omega

variable {n : NodeId}

/- The entry at a height of a node's chain. -/
theorem Sound.entry_upTo (hSound : tree.Sound K params) (hHeight : height < chain.length)
    (hLine : tree.Lineage n (upTo height chain)) :
    ∃ entry, tree.entries[n]? = some entry ∧ entry.height.val = height ∧
      (chainHashes K chain)[height]? = some entry.hash := by
  rcases Lineage.entry hLine with ⟨entry, rest, hEntry, hChain, _⟩
  have hFits := hSound.fits hEntry hLine
  have hLen := hFits.height
  rw [Arena.length_upTo hHeight] at hLen
  refine ⟨entry, hEntry, by omega, ?_⟩
  rw [chainHashes, getElem?_map, getElem?_reverse hHeight, hChain, hFits.hash]
  rfl

--------
-- The Locator
--------

/- The heights a locator names. -/
def locatorHeights (height : Nat) : List Nat :=
  (List.range (reach locatorPlain height + 1)).map
    fun stop => height - Backoff.depth locatorPlain stop

variable {stop : Nat}

theorem locatorStep_eq (hStop : stop < maxLocatorEntries) :
    (if locatorPlain < stop + 1 then
        min (Backoff.step locatorPlain stop * 2) (2 ^ 32 - 1)
      else
        Backoff.step locatorPlain stop) =
      Backoff.step locatorPlain (stop + 1) := by
  have hSmall : Backoff.step locatorPlain stop * 2 ≤ 2 ^ 32 - 1 := by
    have hLe : stop - locatorPlain ≤ 30 := by
      simp only [maxLocatorEntries, locatorPlain] at *
      omega
    have hPow := Nat.pow_le_pow_right (Nat.two_pos) hLe
    rw [Backoff.step]
    omega
  rw [step_succ, Nat.min_eq_left hSmall, Nat.mul_comm]
  simp only [Nat.lt_succ_iff]

/- The loop from a stop on.  What has been collected are the hashes of the stops before it. -/
theorem Sound.locatorLoop_eq (hSound : tree.Sound K params) (hHeight : chain.length = height + 1)
    (hReach : reach locatorPlain height < maxLocatorEntries)
    {fuel : Nat} {walk : NodeId} {entries : List BlockHash}
    (hWalk : tree.Lineage walk (upTo (height - Backoff.depth locatorPlain stop) chain))
    (hEntries : HashesAt K chain ((List.range stop).map fun stop =>
        height - Backoff.depth locatorPlain stop) entries)
    (hStop : stop ≤ reach locatorPlain height) (hFuel : reach locatorPlain height < stop + fuel) :
    ∃ hashes, tree.locatorLoop fuel walk (Backoff.step locatorPlain stop) entries = .ok hashes ∧
      HashesAt K chain (locatorHeights height) hashes := by
  induction fuel generalizing stop walk entries with
  | zero => omega
  | succ fuel ih =>
    rcases hSound.entry_upTo (by omega) hWalk with ⟨entry, hEntry, hEntryHeight, hHash⟩
    have hMore : HashesAt K chain
        ((List.range (stop + 1)).map fun stop => height - Backoff.depth locatorPlain stop)
        (entries ++ [entry.hash]) := by
      rw [range_succ, map_append]
      exact rel_append hEntries (.cons hHash .nil)
    have hLen : (entries ++ [entry.hash]).length = stop + 1 := by
      have hSame := hMore.length_eq
      simpa using hSame.symm
    rw [locatorLoop, entry_eq hEntry, ok_bind]
    dsimp only
    rw [assert_of (by rw [hLen]; omega), ok_bind]
    by_cases hDone : height ≤ Backoff.depth locatorPlain stop
    · -- the last stop is genesis
      have hLast : stop = reach locatorPlain height :=
        Nat.le_antisymm hStop ((reach_le_iff locatorPlain).mpr hDone)
      have hGenesis : entry.height = Height.genesis := by
        refine Subtype.ext ?_
        rw [hEntryHeight]
        show _ = 0
        omega
      rw [if_pos hGenesis]
      refine ⟨_, rfl, ?_⟩
      rwa [hLast] at hMore
    · have hNext : stop < reach locatorPlain height :=
        (lt_reach_iff locatorPlain).mpr (Nat.not_le.mp hDone)
      have hNotGenesis : entry.height ≠ Height.genesis := by
        intro hGenesis
        have hZero := congrArg Subtype.val hGenesis
        rw [hEntryHeight] at hZero
        exact hDone (by
          have : Height.genesis.val = 0 := rfl
          omega)
      have hBack : entry.height.val - Backoff.step locatorPlain stop =
          height - Backoff.depth locatorPlain (stop + 1) := by
        rw [hEntryHeight, Backoff.depth]
        omega
      have hFits : height - Backoff.depth locatorPlain (stop + 1) ≤ 0x7fffffff := by
        have hBound := entry.height.property
        omega
      have hBelow : height - Backoff.depth locatorPlain (stop + 1) <
          (upTo (height - Backoff.depth locatorPlain stop) chain).length := by
        rw [Arena.length_upTo (by omega), Backoff.depth]
        omega
      rcases @Sound.ancestor_eq _ _ _ hSound walk ⟨_, hFits⟩ _ hWalk hBelow with
        ⟨found, hFound, hFoundLineage⟩
      rw [Arena.upTo_of_suffix (Arena.upTo_suffix _ _) hBelow] at hFoundLineage
      rw [if_neg hNotGenesis, hBack, Height.new,
        dif_pos hFits, ok_bind, hFound, ok_bind, expect_some, ok_bind,
        hLen, locatorStep_eq (by omega)]
      exact ih hFoundLineage hMore hNext (by omega)

variable {node : NodeId}

theorem Sound.reach_lt (hSound : tree.Sound K params) (hLine : tree.Lineage node chain) :
    reach locatorPlain (chain.length - 1) < 32 := by
  have hLen := hSound.length_le hLine
  have hMax : maxTreeHeaders = 2 ^ 21 := rfl
  have hReach := reach_le locatorPlain (by decide) (show chain.length - 1 ≤ 2 ^ 21 by omega)
  simp only [locatorPlain] at hReach ⊢
  omega

/- A locator is the hashes at its heights. -/
theorem Sound.locator_eq (hSound : tree.Sound K params) (hLine : tree.Lineage node chain) :
    ∃ hashes, tree.locator node = .ok hashes ∧
      HashesAt K chain (locatorHeights (chain.length - 1)) hashes := by
  have hReach := hSound.reach_lt hLine
  have hPos := length_pos_iff.mpr (Arena.Lineage.ne_nil hLine)
  have hHeight : chain.length = chain.length - 1 + 1 := by omega
  have hStart :
      tree.Lineage node (upTo (chain.length - 1 - Backoff.depth locatorPlain 0) chain) := by
    rwa [Backoff.depth, Nat.sub_zero, Arena.upTo_of_length hHeight]
  exact hSound.locatorLoop_eq hHeight (by simp only [maxLocatorEntries]; omega) hStart .nil
    (Nat.zero_le _) (by simp only [maxLocatorEntries]; omega)

theorem length_locatorHeights (height : Nat) :
    (locatorHeights height).length = reach locatorPlain height + 1 := by
  rw [locatorHeights, length_map, length_range]

theorem locatorHeights_head (height : Nat) : (locatorHeights height).head? = some height := by
  rw [locatorHeights, range_succ_eq_map]
  rfl

theorem locatorHeights_getLast (height : Nat) : (locatorHeights height).getLast? = some 0 := by
  rw [locatorHeights, range_succ, map_append, map_singleton, getLast?_concat,
    Nat.sub_eq_zero_of_le (le_depth_reach _ _)]

/- No stop before the last is at genesis. -/
theorem locatorHeights_descend (height : Nat) : (locatorHeights height).Pairwise (· > ·) := by
  rw [locatorHeights, pairwise_map]
  refine List.Pairwise.imp_of_mem ?_ pairwise_lt_range
  intro stop later _ hLater hLt
  have hStop : stop < reach locatorPlain height := by
    rw [mem_range] at hLater
    omega
  have hDepth := (lt_reach_iff _).mp hStop
  have hMono := depth_strictMono locatorPlain hLt
  omega

--------
-- The Fork
--------

variable {hash : BlockHash}

theorem Sound.nodeOf_upTo (hSound : tree.Sound K params) (hLine : tree.Lineage n chain)
    (hHash : (chainHashes K chain)[height]? = some hash) :
    ∃ node, tree.nodeOf hash = some node ∧ tree.Lineage node (upTo height chain) := by
  have hHeight : height < chain.length := by
    have hLt := (List.getElem?_eq_some_iff.mp hHash).1
    simpa [chainHashes] using hLt
  rcases Arena.Lineage.exists_upTo hLine hHeight with ⟨node, hNode, _⟩
  rcases hSound.entry_upTo hHeight hNode with ⟨entry, hEntry, _, hSame⟩
  rw [hHash, Option.some.injEq] at hSame
  exact ⟨node, hSound.index.mpr ⟨entry, hEntry, hSame.symm⟩, hNode⟩

variable {tip : List Header}

/- A node on the active chain has its hash there. -/
theorem Sound.mem_chainHashes (hSound : tree.Sound K params) {entry : HeaderEntry}
    (hEntry : tree.entries[node]? = some entry) (hLine : tree.Lineage node chain)
    (hSuf : chain <:+ tip) : entry.hash ∈ chainHashes K tip := by
  rcases Lineage.entry hLine with ⟨same, rest, hSame, rfl, _⟩
  rw [hEntry, Option.some.injEq] at hSame
  subst hSame
  rw [(hSound.fits hEntry hLine).hash, chainHashes]
  exact mem_map_of_mem (mem_reverse.mpr (hSuf.subset mem_cons_self))

section

variable (hHealthy : tree.Healthy K params) (hTip : tree.Lineage tree.tip tip)

include hHealthy hTip

/- A node whose hash is not on the active chain is not. -/
theorem Healthy.isActive_foreign (hNode : tree.nodeOf hash = some node)
    (hForeign : hash ∉ chainHashes K tip) :
    ∃ entry, tree.entries[node]? = some entry ∧ tree.isActive node = .ok false := by
  rcases hHealthy.sound.index.mp hNode with ⟨entry, hEntry, rfl⟩
  rcases hHealthy.sound.exists_lineage hEntry with ⟨chain, hLine⟩
  have hOff : ¬ chain <:+ tip := by
    intro hSuf
    exact hForeign (hHealthy.sound.mem_chainHashes hEntry hLine hSuf)
  refine ⟨entry, hEntry, ?_⟩
  rw [hHealthy.isActive_eq hLine hTip, decide_eq_false hOff]

theorem Healthy.firstActive_skip (hForeign : hash ∉ chainHashes K tip) (rest : List BlockHash) :
    tree.firstActive (hash :: rest) = tree.firstActive rest := by
  rw [firstActive]
  cases hNode : tree.nodeOf hash with
  | none => rfl
  | some node =>
    rcases hHealthy.isActive_foreign hTip hNode hForeign with ⟨_, _, hOff⟩
    dsimp only
    rw [hOff]
    rfl

theorem Healthy.firstActive_found (hHash : (chainHashes K tip)[height]? = some hash)
    (rest : List BlockHash) :
    ∃ node, tree.firstActive (hash :: rest) = .ok node ∧ tree.Lineage node (upTo height tip) := by
  rcases hHealthy.sound.nodeOf_upTo hTip hHash with ⟨node, hNode, hLine⟩
  refine ⟨node, ?_, hLine⟩
  rw [firstActive, hNode]
  dsimp only
  rw [hHealthy.isActive_eq hLine hTip, ok_bind, decide_eq_true (Arena.upTo_suffix _ _)]
  rfl

/- The hashes off the active chain are passed over. -/
theorem Healthy.firstActive_eq {foreign rest : List BlockHash}
    (hForeign : ∀ hash ∈ foreign, hash ∉ chainHashes K tip)
    (hHash : (chainHashes K tip)[height]? = some hash) :
    ∃ node, tree.firstActive (foreign ++ hash :: rest) = .ok node ∧
      tree.Lineage node (upTo height tip) := by
  induction foreign with
  | nil => exact hHealthy.firstActive_found hTip hHash rest
  | cons first foreign ih =>
    rw [cons_append, hHealthy.firstActive_skip hTip (hForeign first mem_cons_self)]
    exact ih fun hash hMem =>
      hForeign hash (mem_cons_of_mem _ hMem)

end

/- A chain shares exactly the blocks up to a height with another. -/
structure Shares (K : Primitives) (chain tip : List Header)
    (last : Nat) : Prop where
  lt : last < chain.length
  same : ∀ height ≤ last, (chainHashes K tip)[height]? = (chainHashes K chain)[height]?
  above : ∀ height hash, last < height →
      (chainHashes K chain)[height]? = some hash → hash ∉ chainHashes K tip

variable {hashes : List BlockHash}

theorem HashesAt.exists_of_mem {heights : List Nat} (hHashes : HashesAt K chain heights hashes)
    (hMem : hash ∈ hashes) : ∃ height ∈ heights, (chainHashes K chain)[height]? = some hash := by
  induction hHashes with
  | nil => cases hMem
  | cons hFst _ ih =>
    rcases mem_cons.mp hMem with rfl | hMem
    · exact ⟨_, mem_cons_self, hFst⟩
    · rcases ih hMem with ⟨height, hIn, hHash⟩
      exact ⟨height, mem_cons_of_mem _ hIn, hHash⟩

/- The stops before one, it, and those after. -/
theorem HashesAt.split (hHashes : HashesAt K chain (locatorHeights height) hashes)
    (hStop : stop ≤ reach locatorPlain height) :
    ∃ before hash after, hashes = before ++ hash :: after ∧ HashesAt K chain
        ((List.range stop).map fun stop => height - Backoff.depth locatorPlain stop) before ∧
      (chainHashes K chain)[height - Backoff.depth locatorPlain stop]? = some hash := by
  have hTake := forall₂_take stop hHashes
  have hDrop := forall₂_drop stop hHashes
  rw [locatorHeights, ← map_take, take_range, Nat.min_eq_left (by omega)] at hTake
  rw [locatorHeights, ← map_drop, drop_eq_getElem_cons (by rw [length_range]; omega),
    getElem_range, map_cons] at hDrop
  rcases forall₂_cons_left_iff.mp hDrop with ⟨hash, after, hHash, _, hAfter⟩
  refine ⟨hashes.take stop, hash, after, ?_, hTake, hHash⟩
  rw [← hAfter, take_append_drop]

/-
  The fork of a locator. The stop at or past the shared part's top is the first on the active chain.
-/
theorem Healthy.forkInActiveChain_eq (hHealthy : tree.Healthy K params)
    (hTip : tree.Lineage tree.tip tip) {last : Nat} (hShares : Shares K chain tip last)
    (hHashes : HashesAt K chain (locatorHeights (chain.length - 1)) hashes)
    (hLen : hashes.length ≤ maxLocatorItems) :
    ∃ node, tree.forkInActiveChain hashes = .ok node ∧
      tree.Lineage node (upTo (chain.length - 1 - Backoff.depth locatorPlain
        (reach locatorPlain (chain.length - 1 - last))) tip) := by
  have hReach : reach locatorPlain (chain.length - 1 - last) ≤
      reach locatorPlain (chain.length - 1) := by
    have hLe := le_depth_reach locatorPlain (chain.length - 1)
    rw [reach_le_iff]
    omega
  rcases hHashes.split hReach with ⟨before, hash, after, rfl, hBefore, hHash⟩
  have hForeign : ∀ hash ∈ before, hash ∉ chainHashes K tip := by
    intro hash hMem
    rcases hBefore.exists_of_mem hMem with ⟨height, hHeight, hAt⟩
    rcases mem_map.mp hHeight with ⟨stop, hStop, rfl⟩
    have hBelow := (lt_reach_iff locatorPlain).mp (mem_range.mp hStop)
    exact hShares.above _ _ (by omega) hAt
  have hDepth := le_depth_reach locatorPlain (chain.length - 1 - last)
  rw [← hShares.same _ (by omega)] at hHash
  rw [forkInActiveChain, assert_of hLen, ok_bind, take_of_length_le hLen]
  exact hHealthy.firstActive_eq hTip hForeign hHash

--------
-- Headers After a Fork
--------

/- The walk down reads the headers above a height. -/
theorem Sound.headersDown_eq (hSound : tree.Sound K params) {first fuel : Nat} {walk : NodeId}
    (hLine : tree.Lineage walk chain) (hFst : first < chain.length)
    (hFuel : chain.length - first ≤ fuel) :
    tree.headersDown first fuel walk = .ok (chain.take (chain.length - first)) := by
  induction fuel generalizing walk chain with
  | zero => omega
  | succ fuel ih =>
    rcases Lineage.entry hLine with ⟨entry, rest, hEntry, rfl, hPar⟩
    have hHeight := (hSound.fits hEntry hLine).height
    simp only [length_cons] at hFst hFuel hHeight ⊢
    rw [headersDown, entry_eq hEntry, ok_bind]
    by_cases hLast : entry.height.val ≤ first
    · have hOne : rest.length + 1 - first = 1 := by omega
      rw [if_pos hLast, hOne]
      rfl
    · rcases hPar with ⟨_, rfl⟩ | ⟨p, hSome, hRest⟩
      · simp only [length_nil] at hHeight
        omega
      · have hMore : rest.length + 1 - first = rest.length - first + 1 := by omega
        rw [if_neg hLast, hSome, expect_some, ok_bind, ih hRest (by omega) (by omega),
          ok_bind, hMore, take_succ_cons]
        rfl

/- A stop that is not on the active chain clamps nothing. -/
theorem Healthy.clampToStop_eq (hHealthy : tree.Healthy K params) (hTip : tree.Lineage tree.tip tip)
    {stop : BlockHash} (hStop : stop ∉ chainHashes K tip) (first last : Nat) :
    tree.clampToStop stop first last = .ok last := by
  rw [clampToStop]
  cases hNode : tree.nodeOf stop with
  | none => rfl
  | some node =>
    rcases hHealthy.isActive_foreign hTip hNode hStop with ⟨entry, hEntry, hOff⟩
    dsimp only
    rw [entry_eq hEntry, ok_bind, hOff]
    rfl

/- Reading down and turning around is reading up. -/
theorem reverse_take_upTo {first last : Nat} (hFst : first ≤ last) (hLast : last < chain.length) :
    ((upTo last chain).take ((upTo last chain).length - first)).reverse =
      (chain.reverse.drop first).take (last + 1 - first) := by
  rw [reverse_take, Arena.length_upTo hLast, Nat.sub_sub_self (by omega), upTo, reverse_drop,
    Nat.sub_sub_self (by omega), drop_take]

/- A walk down parents is no longer than the tree. -/
theorem Sound.lineage_le_len (hSound : tree.Sound K params) (hLine : tree.Lineage n chain) :
    chain.length ≤ tree.len := by
  rcases Lineage.entry hLine with ⟨_, _, hEntry, _⟩
  have hLe := hSound.grown.length_le hLine
  exact hLe.trans (List.getElem?_eq_some_iff.mp hEntry).1

/- The headers of a node's chain between two heights. -/
theorem Sound.headersBetween (hSound : tree.Sound K params) {n : NodeId} {chain : List Header}
    (hLine : tree.Lineage n chain) {first : Nat} {last : Height} (hFst : first ≤ last.val)
    (hLast : last.val < chain.length) :
    ∃ walk headers, tree.ancestor n last = .ok (some walk) ∧
      tree.headersDown first tree.len walk = .ok headers ∧
      headers.reverse = (chain.reverse.drop first).take (last.val + 1 - first) := by
  rcases hSound.ancestor_eq hLine hLast with ⟨walk, hWalk, hWalkLineage⟩
  have hLen := Arena.length_upTo hLast
  have hFuel := hSound.lineage_le_len hWalkLineage
  exact ⟨walk, _, hWalk,
    hSound.headersDown_eq hWalkLineage (by omega) (by omega), reverse_take_upTo hFst hLast⟩

/- The answer is the active chain above the fork. -/
theorem Healthy.headersAfter_eq (hHealthy : tree.Healthy K params)
    (hTip : tree.Lineage tree.tip tip) {fork : NodeId}
    (hFork : tree.forkInActiveChain hashes = .ok fork) (hHeight : height < tip.length)
    (hLine : tree.Lineage fork (upTo height tip)) {stop : BlockHash}
    (hStop : stop ∉ chainHashes K tip) {max : Nat} (hMax : 0 < max ∧ max ≤ maxHeadersItems) :
    tree.headersAfter hashes stop max = .ok ((tip.reverse.drop (height + 1)).take max) := by
  have hSound := hHealthy.sound
  rcases hSound.entry_upTo hHeight hLine with ⟨entry, hEntry, hEntryHeight, _⟩
  rcases Lineage.entry hTip with ⟨top, _, hTop, _⟩
  have hTopHeight := (hSound.fits hTop hTip).height
  have hTopBound := top.height.property
  rw [headersAfter, assert_of hMax, ok_bind, hFork, ok_bind, entry_eq hEntry, ok_bind,
    entry_eq hTop, ok_bind, hEntryHeight]
  dsimp only
  have hDrop : (tip.reverse.drop (height + 1)).length = tip.length - (height + 1) := by
    rw [length_drop, length_reverse]
  by_cases hNone : top.height.val < height + 1
  · -- the fork is the tip
    have hNil : tip.reverse.drop (height + 1) = [] := length_eq_zero_iff.mp (by omega)
    rw [if_pos hNone, hNil, take_nil]
    rfl
  · have hFits : min top.height.val (height + 1 + max - 1) ≤ 0x7fffffff := by omega
    rcases @Sound.headersBetween _ _ _ hSound _ _ hTip
        (height + 1) ⟨_, hFits⟩ (by dsimp only; omega)
        (by dsimp only; omega) with
      ⟨walk, headers, hWalk, hDown, hReverse⟩
    have hAll : (tip.reverse.drop (height + 1)).take
          (min top.height.val (height + 1 + max - 1) + 1 - (height + 1)) =
        (tip.reverse.drop (height + 1)).take max := by
      rw [take_eq_take_iff, hDrop]
      omega
    rw [hAll] at hReverse
    rw [if_neg hNone, hHealthy.clampToStop_eq hTip hStop,
      ok_bind, Height.new, dif_pos hFits, ok_bind, hWalk, ok_bind,
      expect_some, ok_bind, hDown, ok_bind, hReverse, assert_of (length_take_le _ _)]
    rfl

--------
-- Ancestors
--------

/- The node this many parent links further down. -/
def parentsDown (tree : HeaderTree) : Nat → NodeId → Option NodeId
  | 0, node => some node
  | links + 1, node => do
      let entry ← tree.entries[node]?
      let parent ← entry.parent
      tree.parentsDown links parent

theorem Lineage.parentsDown_eq (hLine : tree.Lineage n chain) {links : Nat}
    (hLinks : links < chain.length) :
    ∃ a, tree.parentsDown links n = some a ∧ tree.Lineage a (chain.drop links) := by
  induction links generalizing n chain with
  | zero => exact ⟨n, rfl, hLine⟩
  | succ links ih =>
    rcases Lineage.entry hLine with ⟨entry, rest, hEntry, rfl, hPar⟩
    rw [length_cons] at hLinks
    rcases hPar with ⟨_, rfl⟩ | ⟨p, hPar, hRest⟩
    · exact absurd (Nat.lt_of_succ_lt_succ hLinks) (Nat.not_lt_zero _)
    · rcases ih hRest (by omega) with ⟨a, hDown, hNode⟩
      refine ⟨a, ?_, hNode⟩
      simp [parentsDown, hEntry, hPar, hDown]

/-
  The skip list finds the node that the parent links lead to, and nothing above the node it starts
  from. Between any two heights of a tree it takes at most as many steps as its bound.
-/
theorem ancestor_exact (hTab : params.Tabled K) {cap : Nat} {log : List (Call × Answer)}
    (hRun : TreeRun K params cap log tree) :
    (∀ node entry, tree.entries[node]? = some entry →
      ∀ height : Height,
        (entry.height < height → tree.ancestor node height = .ok none) ∧
        (height ≤ entry.height →
          ∃ found,
            tree.ancestor node height = .ok (some found) ∧
              tree.parentsDown (entry.height.val - height.val) node = some found)) ∧
      ∀ walk target, walk < maxTreeHeaders → target ≤ walk →
        ∃ steps ≤ maxAncestorSteps, (SkipList.hop · target)^[steps] walk = target := by
  have hSound := (hRun.healthy hTab).sound
  have hMax : maxTreeHeaders = 2 ^ (20 + 1) := rfl
  constructor
  · intro node entry hEntry height
    rcases hSound.exists_lineage hEntry with ⟨chain, hLine⟩
    have hLen := (hSound.fits hEntry hLine).height
    constructor
    · intro (hAbove : entry.height.val < height.val)
      exact hSound.ancestor_above hLine (by omega)
    · intro (hBelow : height.val ≤ entry.height.val)
      have hInside : height.val < chain.length := by omega
      rcases hSound.ancestor_eq hLine hInside with ⟨found, hFound, hFoundLineage⟩
      have hLinks : entry.height.val - height.val < chain.length := by omega
      rcases hLine.parentsDown_eq hLinks with ⟨a, hDown, hNode⟩
      have hSame : chain.length - (height.val + 1) = entry.height.val - height.val := by omega
      rw [upTo, hSame] at hFoundLineage
      cases Arena.Lineage.injective hSound.distinct hFoundLineage hNode
      exact ⟨found, hFound, hDown⟩
  · intro walk target hWalk hTarget
    rcases SkipList.hop_iterate hTarget with ⟨steps, hSteps, hEnd⟩
    have hBound : SkipList.potential walk target ≤ maxAncestorSteps :=
      (SkipList.potential_le (n := 20) (by omega) (by omega)).trans (by decide)
    exact ⟨steps, hSteps.trans hBound, hEnd⟩

--------
-- Finding the Fork
--------

/-
  Two trees find where they agree. Blocks are known by their hashes; the top of the shared part is
  at `last`.
-/
theorem locator_finds_fork
    {paramsA paramsB : ChainParams} {capA capB : Nat} {logA logB : List (Call × Answer)}
    {A B : HeaderTree} (hTabledA : paramsA.Tabled K) (hTabledB : paramsB.Tabled K)
    (hRunA : TreeRun K paramsA capA logA A) (hRunB : TreeRun K paramsB capB logB B)
    {node : NodeId} {chain tip : List Header} (hNode : A.Lineage node chain)
    (hTip : B.Lineage B.tip tip) {last : Nat} (hShares : Shares K chain tip last) :
    ∃ heights hashes fork height,
      A.locator node = .ok hashes ∧
        hashes.length ≤ maxLocatorEntries ∧
        HashesAt K chain heights hashes ∧
        heights.Pairwise (· > ·) ∧
        heights.head? = some (chain.length - 1) ∧
        heights.getLast? = some 0 ∧
      B.forkInActiveChain hashes = .ok fork ∧
        B.Lineage fork (upTo height tip) ∧
        height ≤ last ∧
        last - height ≤ chain.length - 1 - last ∧
        (chain.length - 1 - last ≤ 11 → height = last) ∧
      ∀ stop max, stop ∉ chainHashes K tip →
        0 < max ∧ max ≤ maxHeadersItems →
          B.headersAfter hashes stop max = .ok ((tip.reverse.drop (height + 1)).take max) := by
  have hSoundA := (hRunA.healthy hTabledA).sound
  have hHealthyB := hRunB.healthy hTabledB
  rcases hSoundA.locator_eq hNode with ⟨hashes, hLocator, hHashes⟩
  have hCount : hashes.length ≤ 32 := by
    have hReach := hSoundA.reach_lt hNode
    rw [← hHashes.length_eq, length_locatorHeights]
    omega
  rcases hHealthyB.forkInActiveChain_eq hTip hShares hHashes
      (by simp only [maxLocatorItems]; omega) with
    ⟨fork, hFork, hLine⟩
  have hLt := hShares.lt
  have hLe := le_depth_reach locatorPlain (chain.length - 1 - last)
  have hNear := depth_reach_le locatorPlain (chain.length - 1 - last)
  have hBelow : last < tip.length := by
    have hSome := hShares.same last (Nat.le_refl _)
    rw [getElem?_eq_getElem (show last < (chainHashes K chain).length by
        simpa [chainHashes] using hLt)] at hSome
    have hIn := (List.getElem?_eq_some_iff.mp hSome).1
    simpa [chainHashes] using hIn
  refine ⟨_, hashes, fork, _, hLocator,
    by simp only [maxLocatorEntries]; omega, hHashes,
    locatorHeights_descend _, locatorHeights_head _,
    locatorHeights_getLast _, hFork, hLine, by omega, by omega, ?_, ?_⟩
  · intro hClose
    have hExact := depth_reach_of_le locatorPlain
      (show chain.length - 1 - last ≤ locatorPlain + 1 from hClose)
    omega
  · intro stop max hStop hMax
    exact hHealthyB.headersAfter_eq hTip hFork (by omega) hLine hStop hMax

theorem view_eq_getElem? (n : Nat) :
    tree.view n = (tree.entries.map fun entry => (entry.header, entry.parent))[n]? := by
  rw [getElem?_map]
  rfl

end HeaderTree

--------
-- Two Small Trees
--------

namespace SmallChain

/- The headers of a tree, their parents and the tip. -/
def shown (tree : HeaderTree) : List (Header × Option NodeId) × NodeId :=
  (tree.entries.map fun entry => (entry.header, entry.parent), tree.tip)

theorem exists_of_shown {calls : List Call} {entries : List (Header × Option NodeId)} {tip : NodeId}
    (hShown : (grown calls).map shown = .ok (entries, tip)) :
    ∃ log tree, grown calls = .ok tree ∧ TreeRun crypto.primitives params 8 log tree ∧
      (∀ n, tree.view n = entries[n]?) ∧ tree.tip = tip := by
  rcases hGrown : grown calls with _ | tree
  · rw [hGrown] at hShown
    cases hShown
  · rw [hGrown, Except.map, Except.ok.injEq, shown, Prod.mk.injEq] at hShown
    rcases run_of_grown hGrown with ⟨log, hRun⟩
    rcases hShown with ⟨rfl, hTip⟩
    exact ⟨log, tree, rfl, hRun, HeaderTree.view_eq_getElem?, hTip⟩

/- One tree has the headers of `right` and `top`. -/
theorem climb_shown :
    climb.map shown = .ok ([(params.genesis.header, none), (right, some 0), (top, some 1)], 0) := by
  decide +kernel

/- The other has connected `left`. -/
theorem connectLeft_shown :
    (grown connectLeft).map shown = .ok ([(params.genesis.header, none), (left, some 0)], 1) := by
  decide +kernel

theorem shares_genesis :
    HeaderTree.Shares crypto.primitives [top, right, params.genesis.header]
      [left, params.genesis.header] 0 where
  lt := by decide
  same := by decide +kernel
  above := by
    have hNone : ∀ hash ∈ (HeaderTree.chainHashes crypto.primitives
          [top, right, params.genesis.header]).drop 1,
        hash ∉ HeaderTree.chainHashes crypto.primitives [left, params.genesis.header] := by
      decide +kernel
    intro height hash hHeight hHash
    refine hNone hash (mem_of_getElem? (i := height - 1) ?_)
    rwa [getElem?_drop, Nat.add_sub_cancel' hHeight]

theorem exists_climb :
    ∃ log tree, climb = .ok tree ∧ TreeRun crypto.primitives params 8 log tree ∧
      tree.Lineage 2 [top, right, params.genesis.header] ∧
      tree.Lineage tree.tip [params.genesis.header] := by
  rcases exists_of_shown climb_shown with ⟨log, tree, hClimb, hRun, hView, hTip⟩
  refine ⟨log, tree, hClimb, hRun, .child (hView 2) (.child (hView 1) (.root (hView 0))), ?_⟩
  rw [hTip]
  exact .root (hView 0)

theorem exists_connectLeft :
    ∃ log tree, TreeRun crypto.primitives params 8 log tree ∧
      tree.Lineage tree.tip [left, params.genesis.header] := by
  rcases exists_of_shown connectLeft_shown with ⟨log, tree, _, hRun, hView, hTip⟩
  refine ⟨log, tree, hRun, ?_⟩
  rw [hTip]
  exact .child (hView 1) (.root (hView 0))

/- They agree on genesis, and `left` is what is served. -/
theorem locator_finds_genesis :
    ∃ asker answerer hashes fork,
      HeaderTree.locator asker 2 = .ok hashes ∧
        HeaderTree.forkInActiveChain answerer hashes = .ok fork ∧
        HeaderTree.headersAfter answerer hashes rightHash 2 = .ok [left] := by
  rcases exists_climb with ⟨logA, asker, _, hAsker, hNode, _⟩
  rcases exists_connectLeft with ⟨logB, answerer, hAnswerer, hTip⟩
  rcases HeaderTree.locator_finds_fork tabled tabled hAsker hAnswerer hNode hTip shares_genesis with
    ⟨heights, hashes, fork, height, hLocator, _, _, _, _, _, hFork, _, hLe, _, _, hHeaders⟩
  have hServed := hHeaders rightHash 2 (by decide +kernel) (by decide)
  rw [Nat.le_zero.mp hLe] at hServed
  exact ⟨asker, answerer, hashes, fork, hLocator, hFork, hServed⟩

/- From `top` the skip list finds genesis. -/
theorem ancestor_exact_top :
    ∃ log tree,
      TreeRun crypto.primitives params 8 log tree ∧
        ∃ entry found,
          tree.entries[2]? = some entry ∧
            tree.ancestor 2 ⟨0, Nat.zero_le _⟩ = .ok (some found) ∧
            tree.parentsDown entry.height.val 2 = some found := by
  rcases exists_climb with ⟨log, tree, _, hRun, hTop, _⟩
  rcases HeaderTree.Lineage.entry hTop with ⟨entry, _, hEntry, _⟩
  rcases ((HeaderTree.ancestor_exact tabled hRun).1 2 entry hEntry
    ⟨0, Nat.zero_le _⟩).2 (Nat.zero_le _) with ⟨found, hFound, hDown⟩
  exact ⟨log, tree, hRun, entry, found, hEntry, hFound, hDown⟩

end SmallChain

end Bitmigo
