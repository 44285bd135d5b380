import Bitmigo.Block.Coins
import Bitmigo.Lib.KeyedMap

/-
  The header tree: every header the node has accepted, what is known about the block behind it, and
  the two chains that fall out of that.

  Key definitions include:
    * `HeaderStatus`, `HeaderEntry` and `HeaderTree`
    * `HeaderTree.ancestor`, the walk down the skip list
    * `HeaderTree.contextFor` and `HeaderTree.contextOf`
    * `HeaderTree.accept`
    * `HeaderTree.blockChecked`, `HeaderTree.connected`, `HeaderTree.disconnected` and
      `HeaderTree.invalidate`

  Every function takes the tree and returns the tree it leaves. An error of `accept` carries the
  tree too, because some refused headers are stored.
-/

namespace Bitmigo

open Result U256

--------
-- Entries
--------

/- The most headers the tree will hold. -/
def maxTreeHeaders : Nat := 2 * 1024 * 1024

/- The most steps a walk to an ancestor may take. -/
def maxAncestorSteps : Nat := 512

/- A node's position in the arena. -/
abbrev NodeId := Nat

/- The root of every tree. -/
def NodeId.genesis : NodeId := 0

/- The node at an arena position, which must fit a `u32`. -/
def NodeId.at (position : Nat) : Result Empty NodeId := do
  assert (position < 2 ^ 32)
  return position

/- Where a block's bytes are on disk. -/
structure BlockLocation where
  file : UInt32
  offset : UInt32
  len : UInt32
  deriving DecidableEq

/- Where a block's undo record is on disk. -/
structure UndoLocation where
  file : UInt32
  offset : UInt32
  len : UInt32
  deriving DecidableEq

/- The stages that can refuse a block. -/
inductive Stage where
  | acceptHeader
  | checkBlock
  | acceptBlock
  | confirm
  | connect
  deriving DecidableEq

/- Which stage refused a block, and what it said. -/
inductive Invalidity where
  | acceptHeader (error : HeaderError)
  | checkBlock (error : BlockError)
  | acceptBlock (error : BlockError)
  | confirm (error : ConfirmError)
  | connect (error : ConnectError)
  -- a verdict of an earlier run
  | reloaded (stage : Stage)
  deriving DecidableEq

def Invalidity.stage : Invalidity → Stage
  | .acceptHeader _ => .acceptHeader
  | .checkBlock _ => .checkBlock
  | .acceptBlock _ => .acceptBlock
  | .confirm _ => .confirm
  | .connect _ => .connect
  | .reloaded stage => stage

/- What is known about the block behind a header. -/
inductive HeaderStatus where
  | genesis
  | headerAccepted
  | blockChecked (location : BlockLocation)
  | connected (location : BlockLocation) (undo : UndoLocation)
  | invalid (invalidity : Invalidity)
  | invalidAncestor (culprit : BlockHash)
  deriving DecidableEq

namespace HeaderStatus

/- Can nothing further happen to the block? -/
def isTerminal : HeaderStatus → Bool
  | invalid _ | invalidAncestor _ => true
  | genesis | headerAccepted | blockChecked _
  | connected _ _ => false

/- Where the block's bytes are, if they are on the disk. -/
def location : HeaderStatus → Option BlockLocation
  | blockChecked location | connected location _ =>
    some location
  | genesis | headerAccepted | invalid _
  | invalidAncestor _ => none

/- Are the block's coins in the chainstate? -/
def isConnected : HeaderStatus → Bool
  | genesis | connected _ _ => true
  | headerAccepted | blockChecked _ | invalid _
  | invalidAncestor _ => false

end HeaderStatus

/- One header and everything the tree knows about it. -/
structure HeaderEntry where
  header : Header
  hash : BlockHash
  height : Height
  chainwork : Work
  parent : Option NodeId
  skip : Option NodeId
  status : HeaderStatus
  -- changed since the block index last had it
  dirty : Bool
  deriving DecidableEq

/- Every header accepted, and the two chains through them. -/
structure HeaderTree where
  entries : List HeaderEntry
  index : KeyedMap BlockHash NodeId
  tip : NodeId
  bestHeader : NodeId
  -- what the block index has not been told about
  dirty : List NodeId
  -- scratch for `nextRequiredBits`
  period : List HeaderFacts
  cap : Nat

/- Why a header was not accepted. -/
inductive AcceptError where
  | checkHeader (error : HeaderError)
  | unknownParent (previous : BlockHash)
  | invalid (node : NodeId) (invalidity : Invalidity)
  | invalidAncestor (node : NodeId) (culprit : BlockHash)
  | tooFarInFuture (time limit : BlockTime)
  | treeFull
  deriving DecidableEq

/- A header that reached the tree. -/
inductive Accepted where
  | first (node : NodeId) (context : Context)
  | duplicate (node : NodeId)

--------
-- Arithmetic
--------

/- `value & value.wrapping_sub(1)`; where the subtraction wraps, the other operand is zero. -/
def invertLowestOne (value : Nat) : Nat :=
  value &&& (value - 1)

/- The height a node's skip pointer lands on. -/
def skipHeight (height : Nat) : Nat :=
  if height < 2 then
    0
  else if height % 2 = 0 then
    invertLowestOne height
  else
    invertLowestOne (invertLowestOne (height - 1)) + 1

/- One byte of a sum and the carry into the next. -/
def addWorkStep (bytes : UInt8 × UInt8) (carry : Nat) : Result Empty (UInt8 × Nat) := do
  let value := bytes.1.toNat + bytes.2.toNat + carry
  assert (value < 2 ^ 16)
  return (UInt8.ofNat (value &&& 0xff), value >>> 8)

/- Sum two chain works, which must stay inside 256 bits. -/
def addWork (total block : Work) : Result Empty Work := do
  let (sum, carry) ← Limbs.scanUp addWorkStep (total.val.zip block.val) 0
  assert (carry = 0)
  return ⟨sum.val, by
    simp [sum.property, total.property, block.property]⟩

/- The latest `nTime` the node will take right now. -/
def futureLimit (now : BlockTime) : BlockTime :=
  UInt32.ofNat (min (now.toNat + maxFutureBlockTime.toNat) (2 ^ 32 - 1))

/-
  Follow the skip pointer when it lands on the target, or when it overshoots by less than the
  parent's would.
-/
def skipToward (entry : HeaderEntry) (fromHeight target : Height) : Option NodeId := do
  let skip ← entry.skip
  let landing := skipHeight fromHeight.val
  let previousLanding := skipHeight (fromHeight.val - 1)
  if landing = target.val then
    some skip
  else if target.val < landing ∧
      ¬ (previousLanding < landing - 2 ∧ target.val ≤ previousLanding) then
    some skip
  else
    none

--------
-- Reading the Tree
--------

namespace HeaderTree

/- How many headers are held. -/
def len (tree : HeaderTree) : Nat := tree.entries.length

def nodeOf (tree : HeaderTree) (hash : BlockHash) : Option NodeId :=
  tree.index.lookup hash

/- Panics on a node the tree did not mint. -/
def entry (tree : HeaderTree) (node : NodeId) : Result Empty HeaderEntry :=
  expect tree.entries[node]?

def isActive (tree : HeaderTree) (node : NodeId) : Result Empty Bool := do
  let entry ← tree.entry node
  return entry.status.isConnected

/- The loop of `walkBack`, with the steps it may still take. -/
def walkSteps (tree : HeaderTree) (height : Height) :
    Nat → NodeId → Height → Result Empty NodeId
  | 0, walk, walkHeight => do
      assert (¬ height < walkHeight)
      return walk
  | steps + 1, walk, walkHeight =>
    if height < walkHeight then do
      let entry ← tree.entry walk
      match skipToward entry walkHeight height with
      | some skip => do
          let landing ← Height.new (skipHeight walkHeight.val)
          walkSteps tree height steps skip landing
      | none => do
          let parent ← expect entry.parent
          let below ← Height.new (walkHeight.val - 1)
          walkSteps tree height steps parent below
    else
      return walk

/- The walk, once the target is known to be reachable. -/
def walkBack (tree : HeaderTree) (node : NodeId) (height : Height) : Result Empty NodeId := do
  let entry ← tree.entry node
  tree.walkSteps height maxAncestorSteps node entry.height

/- The ancestor at a height; nothing above the node. -/
def ancestor (tree : HeaderTree) (node : NodeId) (height : Height) :
    Result Empty (Option NodeId) := do
  let entry ← tree.entry node
  if entry.height < height then
    return none
  else do
    let found ← tree.walkBack node height
    return some found

/- The nearest ancestor that was refused, `node` included. -/
def culprit (tree : HeaderTree) (node : NodeId) : Result Empty (Option BlockHash) := do
  let entry ← tree.entry node
  match entry.status with
  | .invalid _ => return some entry.hash
  | .invalidAncestor culprit => return some culprit
  | .genesis | .headerAccepted | .blockChecked _
  | .connected _ _ => return none

/- The timestamps going back from a node, at most so many. -/
def timesBack (tree : HeaderTree) :
    Nat → Option NodeId → Result Empty (List BlockTime)
  | 0, _ => return []
  | _ + 1, none => return []
  | count + 1, some current => do
      let entry ← tree.entry current
      let earlier ← tree.timesBack count entry.parent
      return entry.header.time :: earlier

def medianTimePastAt (tree : HeaderTree) (node : NodeId) : Result Empty BlockTime := do
  let times ← tree.timesBack medianTimeSpan (some node)
  medianTimePast times

/- The headers going back from a node, at most so many. -/
def factsBack (tree : HeaderTree) :
    Nat → NodeId → Result Empty (List HeaderFacts)
  | 0, _ => return []
  | count + 1, walk => do
      let entry ← tree.entry walk
      let facts := HeaderFacts.fromHeader entry.height entry.header
      match entry.parent with
      | some above => do
          let earlier ← tree.factsBack count above
          return facts :: earlier
      | none => return [facts]

/- The `nBits` after `parent`, through the scratch buffer. -/
def requiredBitsAfter
    (tree : HeaderTree) (parent : NodeId) (newTime : BlockTime) (params : ChainParams) :
    Result Empty (UInt32 × HeaderTree) := do
  let interval ← params.difficultyAdjustmentInterval
  let entry ← tree.entry parent
  let steps := entry.height.val % interval
  let walked ← tree.factsBack (steps + 1) parent
  let period := walked.reverse
  let bits ← nextRequiredBits params period newTime
  return (bits, { tree with period := period })

/- The BIP34 block on this header's own chain. -/
def bip34Ancestor (tree : HeaderTree) (parent : NodeId) (height : Height) (params : ChainParams) :
    Result Empty (Option BlockHash) := do
  let bip34 := params.buried.bip34.height
  if height ≤ bip34 then
    return none
  else do
    let found ← tree.ancestor parent bip34
    let node ← expect found
    let entry ← tree.entry node
    return some entry.hash

/- What the chain contributes to the block after `parent`. -/
def contextFor (tree : HeaderTree) (parent : NodeId) (hash : BlockHash) (header : Header)
    (params : ChainParams) :
    Result Empty (Context × HeaderTree) := do
  let entry ← tree.entry parent
  let height ← entry.height.next
  let previousTime := entry.header.time
  let median ← tree.medianTimePastAt parent
  let (requiredBits, tree) ← tree.requiredBitsAfter parent header.time params
  let bip34 ← tree.bip34Ancestor parent height params
  let rules ← params.rulesAt height hash bip34
  let context ← Context.new height median previousTime requiredBits rules
  return (context, tree)

/- The same for a block already in the tree. -/
def contextOf (tree : HeaderTree) (node : NodeId) (params : ChainParams) :
    Result Empty (Context × HeaderTree) := do
  let entry ← tree.entry node
  let parent ← expect entry.parent
  tree.contextFor parent entry.hash entry.header params

end HeaderTree

--------
-- Growing the Tree
--------

namespace HeaderTree

variable (K : Primitives)

/- A tree that holds genesis, which is connected. -/
def withCap (params : ChainParams) (cap : Nat) : Result Empty HeaderTree := do
  assert (0 < cap ∧ cap ≤ maxTreeHeaders)
  let header := params.genesis.header
  let hash := K.blockHash header
  assert (hash = params.genesisHash K)
  let _ ← params.difficultyAdjustmentInterval
  let chainwork ← blockWork header.bits
  let genesis : HeaderEntry :=
    { header := header
      hash := hash
      height := Height.genesis
      chainwork := chainwork
      parent := none
      skip := none
      status := .genesis
      dirty := false }
  return {
    entries := [genesis]
    index := Finmap.singleton hash NodeId.genesis
    tip := NodeId.genesis
    bestHeader := NodeId.genesis
    dirty := []
    period := []
    cap := cap }

/- Append one header under a parent already in the tree. -/
def insert (tree : HeaderTree) (header : Header) (hash : BlockHash) (parent : NodeId)
    (status : HeaderStatus) :
    Result (AcceptError × HeaderTree) (NodeId × HeaderTree) := do
  ensure (.treeFull, tree) (tree.len < tree.cap)
  let above ← Result.lift (tree.entry parent)
  let height ← above.height.next
  let work ← blockWork header.bits
  let chainwork ← Result.lift (addWork above.chainwork work)
  let landing ← Height.new (skipHeight height.val)
  let skip ← Result.lift (tree.ancestor parent landing)
  assert skip.isSome
  let node ← Result.lift (NodeId.at tree.len)
  let entry : HeaderEntry :=
    { header, hash, height, chainwork, skip, status
      parent := some parent
      dirty := true }
  let seen := tree.index.lookup hash
  assert seen.isNone
  let grown : HeaderTree :=
    { tree with
      entries := tree.entries ++ [entry]
      dirty := tree.dirty ++ [node]
      index := tree.index.insert hash node }
  let best ← Result.lift (grown.entry grown.bestHeader)
  -- equal work keeps the header that arrived first
  if status.isTerminal = false ∧
      beNat best.chainwork < beNat chainwork then
    return (node, { grown with bestHeader := node })
  else
    return (node, grown)

/- `accept` from the context on: no ancestor is refused. -/
def acceptUnder (tree : HeaderTree) (header : Header) (hash : BlockHash) (parent : NodeId)
    (params : ChainParams) (now : BlockTime) :
    Result (AcceptError × HeaderTree) (Accepted × HeaderTree) := do
  let (context, tree) ← Result.lift (tree.contextFor parent hash header params)
  match acceptHeader header params context with
  | .error .panic => panicked
  | .error (.error error) => do
      let invalidity := Invalidity.acceptHeader error
      let (node, tree) ← tree.insert header hash parent (.invalid invalidity)
      Result.fail (.invalid node invalidity, tree)
  | .ok () => do
      let limit := futureLimit now
      let time := header.time
      ensure (.tooFarInFuture time limit, tree) (¬ limit < time)
      let (node, tree) ← tree.insert header hash parent .headerAccepted
      return (.first node context, tree)

/- Place a header in the tree. -/
def accept (tree : HeaderTree) (header : Header) (params : ChainParams) (now : BlockTime) :
    Result (AcceptError × HeaderTree) (Accepted × HeaderTree) := do
  let hash := K.blockHash header
  match tree.nodeOf hash with
  | some node => return (.duplicate node, tree)
  | none => do
      mapError (fun error => (.checkHeader error, tree)) (checkHeader K header params)
      let previous := header.prevBlockhash
      let parent ← orFail (.unknownParent previous, tree) (tree.nodeOf previous)
      let refused ← Result.lift (tree.culprit parent)
      match refused with
      | some culprit => do
          let (node, tree) ← tree.insert header hash parent (.invalidAncestor culprit)
          Result.fail (.invalidAncestor node culprit, tree)
      | none =>
        tree.acceptUnder header hash parent params now

end HeaderTree

--------
-- Changing a Status
--------

namespace HeaderTree

/- Write to an entry the tree minted. -/
def modifyEntry (tree : HeaderTree) (node : NodeId) (change : HeaderEntry → HeaderEntry) :
    Result Empty HeaderTree := do
  let entry ← tree.entry node
  return { tree with
    entries := tree.entries.set node (change entry) }

def setStatus (tree : HeaderTree) (node : NodeId) (status : HeaderStatus) :
    Result Empty HeaderTree :=
  tree.modifyEntry node fun entry =>
    { entry with status := status }

/- Note a change the block index has not seen. -/
def markDirty (tree : HeaderTree) (node : NodeId) : Result Empty HeaderTree := do
  let entry ← tree.entry node
  if entry.dirty then
    return tree
  else do
    let tree ← tree.modifyEntry node fun entry =>
      { entry with dirty := true }
    let dirty := tree.dirty ++ [node]
    assert (dirty.length ≤ tree.entries.length)
    return { tree with dirty := dirty }

/- The block's bytes are on the disk. -/
def blockChecked (tree : HeaderTree) (node : NodeId) (location : BlockLocation) :
    Result Empty HeaderTree := do
  let entry ← tree.entry node
  assert (entry.status = .headerAccepted)
  let tree ← tree.setStatus node (.blockChecked location)
  tree.markDirty node

/- The block's coins are in the chainstate. -/
def connected (tree : HeaderTree) (node : NodeId) (undo : UndoLocation) :
    Result Empty HeaderTree := do
  let entry ← tree.entry node
  assert (entry.parent = some tree.tip)
  match entry.status with
  | .blockChecked location => do
      let tree ← tree.setStatus node (.connected location undo)
      let tree ← tree.markDirty node
      return { tree with tip := node }
  | .genesis | .headerAccepted | .connected _ _ | .invalid _
  | .invalidAncestor _ => panicked

/- The block's coins are back out of the chainstate. -/
def disconnected (tree : HeaderTree) (node : NodeId) : Result Empty HeaderTree := do
  assert (node = tree.tip)
  let entry ← tree.entry node
  match entry.status with
  | .connected location _ => do
      let parent ← expect entry.parent
      let tree ← tree.setStatus node (.blockChecked location)
      let tree ← tree.markDirty node
      return { tree with tip := parent }
  | .genesis | .headerAccepted | .blockChecked _ | .invalid _
  | .invalidAncestor _ => panicked

/- Give one node its parent's verdict, if there is one. -/
def inherit (tree : HeaderTree) (node : NodeId) : Result Empty HeaderTree := do
  let entry ← tree.entry node
  if entry.status.isTerminal then
    return tree
  else
    match entry.parent with
    | none => return tree
    | some parent => do
        let refused ← tree.culprit parent
        match refused with
        | none => return tree
        | some culprit => do
            assert (entry.status.isConnected = false)
            tree.setStatus node (.invalidAncestor culprit)

/- The best header of the nodes passed so far. -/
structure Selection where
  best : Nat
  bestWork : Work

/- One node of the pass. -/
def propagateAt (source : NodeId) (state : HeaderTree × Selection) (position : Nat) :
    Result Empty (HeaderTree × Selection) := do
  let (tree, selection) := state
  let node ← NodeId.at position
  let tree ←
    (if source < position then tree.inherit node
      else .ok tree)
  let entry ← tree.entry node
  if entry.status.isTerminal = false ∧
      beNat selection.bestWork < beNat entry.chainwork then
    return (tree, ⟨node, entry.chainwork⟩)
  else
    return (tree, selection)

/- Mark every descendant and choose the best header again. -/
def propagateAndReselect (tree : HeaderTree) (source : NodeId) : Result Empty HeaderTree := do
  assert (tree.len ≤ tree.cap)
  let genesis ← tree.entry NodeId.genesis
  let (tree, selection) ←
    (List.range tree.len).foldlM (propagateAt source) (tree, ⟨NodeId.genesis, genesis.chainwork⟩)
  return { tree with bestHeader := selection.best }

/- A stage refused the block. -/
def invalidate (tree : HeaderTree) (node : NodeId) (invalidity : Invalidity) :
    Result Empty HeaderTree := do
  let entry ← tree.entry node
  assert (entry.status.isTerminal = false)
  assert (entry.status.isConnected = false)
  let tree ← tree.setStatus node (.invalid invalidity)
  let tree ← tree.markDirty node
  tree.propagateAndReselect node

/- Clear the flag of every node of a list. -/
def clearFlags (tree : HeaderTree) :
    List NodeId → Result Empty HeaderTree
  | [] => return tree
  | node :: rest => do
      let tree ← tree.modifyEntry node fun entry =>
        { entry with dirty := false }
      clearFlags tree rest

/- The block index has them. -/
def clearDirty (tree : HeaderTree) : Result Empty HeaderTree := do
  let cleared ← tree.clearFlags tree.dirty
  return { cleared with dirty := [] }

end HeaderTree

end Bitmigo
