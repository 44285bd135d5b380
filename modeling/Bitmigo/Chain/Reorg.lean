import Bitmigo.Chain.Tree

/-
  The reorg driver: what the validation thread should do next to move the chainstate onto the
  most-work chain.

  Key definitions include:
    * `ConnectJob` and `Reorg`
    * `HeaderTree.forkPoint`
    * `HeaderTree.reorg`

  A sync is a reorg with nothing to disconnect.
-/

namespace Bitmigo

open Result

/- Apply the block, or take it back off. -/
inductive JobKind where
  | connect
  | disconnect
  deriving DecidableEq

/- One block of work for the validation thread. -/
structure ConnectJob where
  kind : JobKind
  hash : BlockHash
  context : Context
  location : BlockLocation

/- What to hand the validation thread next. -/
structure Reorg where
  fork : NodeId
  depth : Nat
  jobs : List ConnectJob
  missing : Option BlockHash

/- Nothing to do? -/
def Reorg.isEmpty (plan : Reorg) : Bool :=
  plan.jobs.isEmpty

namespace HeaderTree

/- The loop of `forkPoint`, with the steps it may still take. -/
def forkWalk (tree : HeaderTree) :
    Nat → NodeId → Result Empty NodeId
  | 0, walk => do
      let active ← tree.isActive walk
      assert active
      return walk
  | steps + 1, walk => do
      let active ← tree.isActive walk
      if active then
        return walk
      else do
        let entry ← tree.entry walk
        let parent ← expect entry.parent
        tree.forkWalk steps parent

/- The last block on the active chain below `target`. -/
def forkPoint (tree : HeaderTree) (target : NodeId) : Result Empty NodeId := do
  let tip ← tree.entry tree.tip
  let found ← tree.ancestor target tip.height
  tree.forkWalk tree.len (found.getD target)

/- How many blocks lie between a node and an ancestor. -/
def stepsBetween (tree : HeaderTree) (node ancestor : NodeId) : Result Empty Nat := do
  let above ← tree.entry node
  let below ← tree.entry ancestor
  assert (below.height ≤ above.height)
  return above.height.val - below.height.val

/-
  Every block down to the fork has its undo record. The loop of the source has no bound of its own;
  a chain is no longer than the arena.
-/
def checkUndo (tree : HeaderTree) (fork : NodeId) :
    Nat → NodeId → Result Empty Unit
  | 0, walk => assert (walk = fork)
  | steps + 1, walk =>
    if walk = fork then
      return ()
    else do
      let entry ← tree.entry walk
      match entry.status with
      | .connected _ _ => do
          let parent ← expect entry.parent
          tree.checkUndo fork steps parent
      | .genesis | .headerAccepted | .blockChecked _
      | .invalid _ | .invalidAncestor _ => panicked

/- The disconnects, while there is room for more jobs. -/
def disconnectJobs (params : ChainParams) (fork : NodeId) :
    Nat → NodeId → HeaderTree → Result Empty (List ConnectJob × HeaderTree)
  | 0, _, tree => return ([], tree)
  | room + 1, walk, tree =>
    if walk = fork then
      return ([], tree)
    else do
      let entry ← tree.entry walk
      let parent ← expect entry.parent
      let location ← expect entry.status.location
      let (context, tree) ← tree.contextOf walk params
      let (jobs, tree) ← disconnectJobs params fork room parent tree
      let job : ConnectJob :=
        { kind := .disconnect, hash := entry.hash
          context, location }
      return (job :: jobs, tree)

/- Take the active chain off, tip first, down to the fork. -/
def planDisconnects (tree : HeaderTree) (fork : NodeId) (limit : Nat) (params : ChainParams) :
    Result Empty (List ConnectJob × HeaderTree) := do
  tree.checkUndo fork tree.len tree.tip
  disconnectJobs params fork limit tree.tip tree

/- The connects, while there is room and the bytes are here. -/
def connectJobs (params : ChainParams) (target : NodeId) (last : Nat) :
    Nat → Nat → HeaderTree → Result Empty (List ConnectJob × Option BlockHash × HeaderTree)
  | 0, _, tree => return ([], none, tree)
  | room + 1, height, tree =>
    if height ≤ last then do
      let found ← tree.ancestor target (← Height.new height)
      let node ← expect found
      let entry ← tree.entry node
      assert (entry.status.isTerminal = false)
      match entry.status.location with
      | none => return ([], some entry.hash, tree)
      | some location => do
          let (context, tree) ← tree.contextOf node params
          let (jobs, missing, tree) ← connectJobs params target last room (height + 1) tree
          let job : ConnectJob :=
            { kind := .connect, hash := entry.hash
              context, location }
          return (job :: jobs, missing, tree)
    else
      return ([], none, tree)

/- Put the target's blocks on, from just above the fork. -/
def planConnects (tree : HeaderTree) (target fork : NodeId) (room : Nat) (params : ChainParams) :
    Result Empty (List ConnectJob × Option BlockHash × HeaderTree) := do
  let above ← tree.entry target
  let below ← tree.entry fork
  connectJobs params target above.height.val room (below.height.val + 1) tree

/- Plan the next `limit` steps towards the best header. -/
def reorg (tree : HeaderTree) (params : ChainParams) (limit : Nat) :
    Result Empty (Reorg × HeaderTree) := do
  assert (0 < limit)
  let target := tree.bestHeader
  let fork ← tree.forkPoint target
  let depth ← tree.stepsBetween tree.tip fork
  let (off, tree) ← tree.planDisconnects fork limit params
  let (on, missing, tree) ← tree.planConnects target fork (limit - off.length) params
  let jobs := off ++ on
  assert (jobs.length ≤ limit)
  return ({ fork, depth, jobs, missing }, tree)

end HeaderTree

end Bitmigo
