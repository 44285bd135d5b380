import Bitmigo.Chain.Context

/-
  When the node leaves its chain for one it can reach.

  Key definitions include:
    * `HeaderTree.OnDisk`
    * `HeaderTree.CanReach`, a heavier block of the best header's chain can be connected from the
      fork

  Key theorems include:
    * `reorg_reaches_iff`, a plan that takes blocks off has such a block ahead exactly when the
      bytes up to the first heavier block are on the disk
    * `SmallChain.reorg_leaves`, a plan that has not
-/

namespace Bitmigo

open Reroute List Arena

/- A plan takes blocks off the active chain. -/
def Reorg.Disconnects (plan : Reorg) : Prop :=
  ∃ job ∈ plan.jobs, job.kind = .disconnect

namespace HeaderTree

variable {K : Primitives} {params : ChainParams} {tree : HeaderTree} {chain : List Header} {n : Nat}

/- The block's bytes are on the disk. -/
def OnDisk (tree : HeaderTree) (n : NodeId) : Prop :=
  ∃ status, tree.statusAt n = some status ∧ status.location.isSome

/-
  A block of the best header's chain has more work than the tip, and from just above the fork up to
  it every block's bytes are on the disk.
-/
def CanReach (tree : HeaderTree) (fork : NodeId) : Prop :=
  ∃ n, Ancestor tree.view n tree.bestHeader ∧
    tree.workAt tree.tip < tree.workAt n ∧
    ∀ m, Ancestor tree.view fork m → m ≠ fork → Ancestor tree.view m n → tree.OnDisk m

/-
  The tip is on the best header's chain, or that chain has more work and its blocks off the active
  chain are on the disk, up to the first one that is heavier than the tip.
-/
def Prepared (tree : HeaderTree) : Prop :=
  Ancestor tree.view tree.tip tree.bestHeader ∨
    (tree.workAt tree.tip < tree.workAt tree.bestHeader ∧
      ∀ n, Ancestor tree.view n tree.bestHeader →
        ¬ Ancestor tree.view n tree.tip →
          (∀ p, IsParent tree.view p n →
            tree.workAt p ≤ tree.workAt tree.tip) →
            tree.OnDisk n)

--------
-- Work Along a Chain
--------

theorem chainWork_le_of_suffix {part : List Header} (hSuf : part <:+ chain) :
    chainWork part ≤ chainWork chain := by
  rcases hSuf with ⟨above, rfl⟩
  rw [chainWork, chainWork, map_append, sum_append]
  exact Nat.le_add_left _ _

section

variable (hSound : tree.Sound K params) (hLine : tree.Lineage n chain)

include hSound hLine

theorem Sound.workAt_of_lineage : tree.workAt n = chainWork chain := by
  rcases Lineage.entry hLine with ⟨entry, _, hEntry, _⟩
  rw [workAt_eq hEntry]
  exact (hSound.fits hEntry hLine).chainwork

theorem Sound.lineage_of_ancestor {a : Nat} (hAnc : Ancestor tree.view a n) :
    ∃ part, tree.Lineage a part := by
  rcases Lineage.entry hLine with ⟨entry, _, hEntry, _⟩
  refine hSound.grown.exists_lineage (hAnc.isSome hSound.grown ?_)
  rw [view_of_entry hEntry]
  rfl

/- Work only grows along a chain. -/
theorem Sound.workAt_le {a : Nat} (hAnc : Ancestor tree.view a n) :
    tree.workAt a ≤ tree.workAt n := by
  rcases hSound.lineage_of_ancestor hLine hAnc with ⟨part, hPart⟩
  rw [hSound.workAt_of_lineage hPart, hSound.workAt_of_lineage hLine]
  exact chainWork_le_of_suffix (hPart.suffix_of_ancestor hLine hAnc)

end

--------
-- Plans That Disconnect
--------

/- A plan takes blocks off unless the tip is on the way. -/
theorem disconnects_iff {plan : Reorg} {tip goal : List Header} {limit : Nat} (hLimit : 0 < limit)
    (hJobs :
      Forall₂ (tree.Realises K params) plan.jobs (moves (tree.hasBytes K) goal limit tip)) :
    plan.Disconnects ↔ ¬ tip <:+ goal := by
  constructor
  · rintro ⟨job, hJob, hKind⟩ hSuf
    rcases exists_move hJobs hJob with ⟨move, hMove, hRealises⟩
    rcases moves_of_suffix hSuf move hMove with ⟨chain, rfl⟩
    rw [hRealises.1] at hKind
    cases hKind
  · intro hNot
    rcases Nat.exists_eq_add_of_lt hLimit with ⟨count, rfl⟩
    rw [Nat.zero_add, moves, if_neg hNot] at hJobs
    rcases forall₂_cons_right_iff.mp hJobs with ⟨job, jobs, hFst, _, hPlan⟩
    refine ⟨job, ?_, hFst.1⟩
    rw [hPlan]
    exact mem_cons_self

/- A block both chains share is at or below the fork. -/
theorem Sound.ancestor_fork (hSound : tree.Sound K params)
    {fork : Nat} {tip goal shared : List Header} (hTip : tree.Lineage tree.tip tip)
    (hGoal : tree.Lineage tree.bestHeader goal) (hFork : tree.Lineage fork shared)
    (hShared : IsFork tip goal shared) (hLeft : Ancestor tree.view n tree.tip)
    (hRight : Ancestor tree.view n tree.bestHeader) : Ancestor tree.view n fork := by
  rcases hSound.lineage_of_ancestor hTip hLeft with ⟨part, hPart⟩
  rw [Arena.Lineage.ancestor_iff hSound.distinct hPart hFork]
  exact hShared.deepest (hPart.suffix_of_ancestor hTip hLeft)
    (hPart.suffix_of_ancestor hGoal hRight)

section

variable {fork : Nat} {goal : List Header}

/- What is on the disk up to the first heavier block. -/
theorem Sound.canReach_of_prepared (hSound : tree.Sound K params)
    (hGoal : tree.Lineage tree.bestHeader goal) (hShared : ∀ n, Ancestor tree.view n tree.tip →
      Ancestor tree.view n tree.bestHeader → Ancestor tree.view n fork)
    (hOff : ¬ Ancestor tree.view tree.tip tree.bestHeader) (hPrepared : tree.Prepared) :
    tree.CanReach fork := by
  rcases hPrepared with hOn | ⟨hHeavier, hDisk⟩
  · exact absurd hOn hOff
  rcases Arena.Lineage.exists_lowest (P := fun n => tree.workAt tree.tip < tree.workAt n)
      hGoal hHeavier with
    ⟨n, hAnc, hWork, hLowest⟩
  refine ⟨n, hAnc, hWork, ?_⟩
  intro m hAbove hNe hBelow
  refine hDisk m (hBelow.trans hAnc) ?_ ?_
  · intro hActive
    exact hNe ((hShared m hActive (hBelow.trans hAnc)).antisymm hSound.grown hAbove)
  · -- its parent is below the first heavier block
    intro p hPar
    rcases hBelow.exists_parent hPar with ⟨q, hLast, hUnder⟩
    rcases hSound.lineage_of_ancestor hGoal (.head hLast hAnc) with ⟨part, hPart⟩
    exact Nat.le_trans (hSound.workAt_le hPart hUnder) (Nat.le_of_not_lt (hLowest q hLast))

theorem Sound.prepared_of_canReach (hSound : tree.Sound K params)
    (hGoal : tree.Lineage tree.bestHeader goal) (hTip : Ancestor tree.view fork tree.tip)
    (hBest : Ancestor tree.view fork tree.bestHeader) (hReach : tree.CanReach fork) :
    tree.Prepared := by
  rcases hReach with ⟨n, hAnc, hWork, hDisk⟩
  refine .inr ⟨Nat.lt_of_lt_of_le hWork (hSound.workAt_le hGoal hAnc), ?_⟩
  intro m hOn hOff hLight
  refine hDisk m ?_ ?_ ?_
  · rcases hOn.total hBest with hBelow | hAbove
    · exact absurd (hBelow.trans hTip) hOff
    · exact hAbove
  · rintro rfl
    exact hOff hTip
  · rcases hOn.total hAnc with hBelow | hAbove
    · exact hBelow
    · rcases Relation.ReflTransGen.cases_tail hAbove with
        rfl | ⟨p, hUnder, hPar⟩
      · exact .refl
      -- a block above the heavier one has a heavier parent
      rcases hSound.lineage_of_ancestor hGoal (.head hPar hOn) with ⟨part, hPart⟩
      have hMore := hSound.workAt_le hPart hUnder
      exact absurd hWork (Nat.not_lt_of_le (Nat.le_trans hMore (hLight p hPar)))

end

end HeaderTree

open HeaderTree

/-
  A plan that takes blocks off the active chain has a heavier block within reach exactly when the
  tree is prepared.
-/
theorem reorg_reaches_iff {K : Primitives} {params : ChainParams} (hTab : params.Tabled K)
    {cap : Nat} {log : List (Call × Answer)} {tree : HeaderTree}
    (hRun : TreeRun K params cap log tree) {limit : Nat} (hLimit : 0 < limit) :
    ∃ plan after,
      tree.reorg params limit = .ok (plan, after) ∧
        ((plan.Disconnects → tree.CanReach plan.fork) ↔ tree.Prepared) := by
  have hHealthy := hRun.healthy hTab
  have hSound := hHealthy.sound
  rcases hHealthy.reorg_eq hTab hLimit with
    ⟨plan, scratch, tip, goal, shared, hReorg, hTip, hGoal, hFork, hShared, _, hJobs⟩
  refine ⟨plan, _, hReorg, ?_⟩
  rw [disconnects_iff hLimit hJobs, ← Arena.Lineage.ancestor_iff hSound.distinct hTip hGoal]
  have hForkTip := (Arena.Lineage.ancestor_iff hSound.distinct hFork hTip).mpr hShared.left
  have hForkBest := (Arena.Lineage.ancestor_iff hSound.distinct hFork hGoal).mpr hShared.right
  constructor
  · intro hReach
    by_cases hOn : Ancestor tree.view tree.tip tree.bestHeader
    · exact .inl hOn
    · exact hSound.prepared_of_canReach hGoal hForkTip hForkBest (hReach hOn)
  · intro hPrepared hOff
    refine hSound.canReach_of_prepared hGoal ?_ hOff hPrepared
    exact fun n => hSound.ancestor_fork hTip hGoal hFork hShared

--------
-- A Chain Left for Headers Alone
--------

namespace HeaderTree

theorem isParent_iff {tree : HeaderTree} {p n : Nat} :
    IsParent tree.view p n ↔ (tree.entries.map (·.parent))[n]? = some (some p) := by
  rw [getElem?_map, Option.map_eq_some_iff]
  constructor
  · rintro ⟨header, hView⟩
    rcases view_eq_some.mp hView with ⟨entry, hEntry, _, hPar⟩
    exact ⟨entry, hEntry, hPar⟩
  · rintro ⟨entry, hEntry, hPar⟩
    exact ⟨entry.header, by rw [view_of_entry hEntry, hPar]⟩

theorem onDisk_iff {tree : HeaderTree} {n : Nat} :
    tree.OnDisk n ↔ (tree.entries.map (·.status.location.isSome))[n]? = some true := by
  rw [getElem?_map, Option.map_eq_some_iff]
  constructor
  · rintro ⟨status, hStat, hSome⟩
    rcases statusAt_eq_some.mp hStat with ⟨entry, hEntry, rfl⟩
    exact ⟨entry, hEntry, hSome⟩
  · rintro ⟨entry, hEntry, hSome⟩
    exact ⟨_, statusAt_of_entry hEntry, hSome⟩

end HeaderTree

namespace SmallChain

/- What a tree and its plan show of the blocks. -/
def Departure (tree : HeaderTree) (plan : Reorg) : Prop :=
  tree.entries.map (·.parent) =
      [none, some 0, some 0, some 2] ∧
    (List.range 4).map tree.workAt = [2, 4, 4, 6] ∧
    tree.entries.map (·.status.location.isSome) = [false, true, false, false] ∧
    tree.tip = 1 ∧
    tree.bestHeader = 3 ∧
    plan.fork = 0 ∧
    plan.jobs.map (·.kind) = [.disconnect]

instance
    (tree : HeaderTree) (plan : Reorg) :
    Decidable (Departure tree plan) :=
  inferInstanceAs (Decidable (_ ∧ _))

/- `left` is connected, and the headers of `right` and `top` arrive without their blocks. -/
def departure : Result Empty Bool := do
  let tree ← grown (connectLeft ++ [.accept right now, .accept top now])
  let (plan, _) ← tree.reorg params 4
  return decide (Departure tree plan)

theorem departure_returns : departure = .ok true := by
  decide +kernel

theorem exists_departure :
    ∃ log tree plan after, TreeRun crypto.primitives params 8 log tree ∧
      tree.reorg params 4 = .ok (plan, after) ∧ Departure tree plan := by
  have hRet := departure_returns
  simp only [departure, Result.bind_eq_ok, Result.pure_inj, decide_eq_true_eq, Prod.exists] at hRet
  rcases hRet with ⟨tree, hGrown, plan, after, hReorg, hShows⟩
  rcases run_of_grown hGrown with ⟨log, hRun⟩
  exact ⟨log, tree, plan, after, hRun, hReorg, hShows⟩

/- The plan takes `left` off, and `right` is not here. -/
theorem reorg_leaves :
    ∃ log tree plan after,
      TreeRun crypto.primitives params 8 log tree ∧
        tree.reorg params 4 = .ok (plan, after) ∧
        plan.Disconnects ∧
        ¬ tree.CanReach plan.fork := by
  rcases exists_departure with
    ⟨log, tree, plan, after, hRun, hReorg, hParents, hWorks, hDisk, hTip, hBest, hFork, hJobs⟩
  refine ⟨log, tree, plan, after, hRun, hReorg, ?_, ?_⟩
  · have hMem : JobKind.disconnect ∈ plan.jobs.map (·.kind) := by
      rw [hJobs]
      exact mem_cons_self
    rcases mem_map.mp hMem with ⟨job, hJob, hKind⟩
    exact ⟨job, hJob, hKind⟩
  · have hRight : IsParent tree.view 0 2 := by
      rw [HeaderTree.isParent_iff, hParents]
      rfl
    have hTop : IsParent tree.view 2 3 := by
      rw [HeaderTree.isParent_iff, hParents]
      rfl
    have hMissing : ¬ tree.OnDisk 2 := by
      rw [HeaderTree.onDisk_iff, hDisk]
      decide
    simp only [List.range, List.range.loop, map_cons,
      map_nil, List.cons.injEq, and_true] at hWorks
    rcases hWorks with ⟨hWork0, hWork1, hWork2, _⟩
    rintro ⟨n, hOn, hWork, hReach⟩
    rw [hTip, hWork1] at hWork
    rw [hBest, hTop.ancestor_iff, hRight.ancestor_iff] at hOn
    rw [hFork] at hReach
    rcases hOn with rfl | rfl | hRoot
    · exact hMissing (hReach 2 (.single hRight) (by decide) (.single hTop))
    · rw [hWork2] at hWork
      exact Nat.lt_irrefl _ hWork
    · have hGrown := (hRun.healthy tabled).sound.grown
      cases Nat.le_zero.mp (hRoot.le hGrown)
      rw [hWork0] at hWork
      exact absurd hWork (by decide)

/- The condition decides that plan. -/
theorem reorg_reaches_iff_departure :
    ∃ log tree,
      TreeRun crypto.primitives params 8 log tree ∧
        0 < 4 ∧
        ∃ plan after,
          tree.reorg params 4 = .ok (plan, after) ∧
            ((plan.Disconnects → tree.CanReach plan.fork) ↔ tree.Prepared) := by
  rcases exists_departure with ⟨log, tree, _, _, hRun, _⟩
  exact ⟨log, tree, hRun, by decide, reorg_reaches_iff tabled hRun (by decide)⟩

end SmallChain

end Bitmigo
