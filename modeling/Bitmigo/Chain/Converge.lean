import Bitmigo.Chain.Reach
import Mathlib.Algebra.Order.BigOperators.Group.Finset

/-
  Carrying out the plans of the reorg driver, one batch after another.

  Key definitions include:
    * `HeaderTree.carryOut`, one job applied to the tree
    * `HeaderTree.batches`, plans made and carried out
    * `HeaderTree.Steady`, what applying jobs keeps

  Key theorems include:
    * `HeaderTree.Healthy.carryOut_moves`, a plan is carried out and leads where its moves lead
    * `HeaderTree.Healthy.batches_eq`, what any number of batches do
    * `reorg_converges`, finitely many batches lead to the best header
-/

namespace Bitmigo

open Result List Option

open Arena (upTo)
open Reroute

variable {limits : Nat → Nat}

namespace HeaderTree

--------
-- Jobs and Batches
--------

/- One job applied to the tree. -/
def carryOut (tree : HeaderTree) (job : ConnectJob) (undo : UndoLocation) :
    Result Empty HeaderTree := do
  let node ← expect (tree.nodeOf job.hash)
  match job.kind with
  | .disconnect => tree.disconnected node
  | .connect => tree.connected node undo

def carryOutAll (undos : BlockHash → UndoLocation) (tree : HeaderTree) (jobs : List ConnectJob) :
    Result Empty HeaderTree :=
  jobs.foldlM (fun tree job => tree.carryOut job (undos job.hash)) tree

/- A plan, and the tree once it is carried out. -/
def batch
    (params : ChainParams) (tree : HeaderTree) (limit : Nat) (undos : BlockHash → UndoLocation) :
    Result Empty (Reorg × HeaderTree) := do
  let (plan, tree) ← tree.reorg params limit
  let tree ← tree.carryOutAll undos plan.jobs
  return (plan, tree)

/- The plans of the first batches, and the tree after them. -/
def batches (params : ChainParams) (tree : HeaderTree) (limits : Nat → Nat)
    (undos : Nat → BlockHash → UndoLocation) :
    Nat → Result Empty (List Reorg × HeaderTree)
  | 0 => return ([], tree)
  | count + 1 => do
      let (plans, tree) ← batches params tree limits undos count
      let (plan, tree) ← tree.batch params (limits count) (undos count)
      return (plans ++ [plan], tree)

variable {K : Primitives} {params : ChainParams} {tree after : HeaderTree}
variable {here goal chain : List Header} {job : ConnectJob}

--------
-- What Jobs Keep
--------

/- Only which blocks are connected differs. -/
structure Steady (K : Primitives) (params : ChainParams)
    (tree after : HeaderTree) : Prop where
  healthy : after.Healthy K params
  same : tree.SameArena after
  best : after.bestHeader = tree.bestHeader
  located : ∀ n : Nat, (after.statusAt n).bind (·.location) = (tree.statusAt n).bind (·.location)

theorem Steady.trans {last : HeaderTree} (hFst : Steady K params tree after)
    (hSnd : Steady K params after last) : Steady K params tree last :=
  ⟨hSnd.healthy, hFst.same.trans hSnd.same,
    hSnd.best.trans hFst.best, fun n => (hSnd.located n).trans (hFst.located n)⟩

theorem Steady.symm (hHealthy : tree.Healthy K params) (hSteady : Steady K params tree after) :
    Steady K params after tree :=
  ⟨hHealthy, hSteady.same.symm, hSteady.best.symm, fun n => (hSteady.located n).symm⟩

theorem Healthy.steady_withPeriod (hHealthy : tree.Healthy K params) (period : List HeaderFacts) :
    Steady K params tree { tree with period := period } :=
  ⟨hHealthy.withPeriod period, ⟨rfl, rfl, rfl⟩, rfl, fun _ => rfl⟩

section

variable (hSteady : Steady K params tree after)

include hSteady

theorem Steady.lineage {n : Nat} : after.Lineage n chain ↔ tree.Lineage n chain := by
  rw [HeaderTree.Lineage, HeaderTree.Lineage, hSteady.same.view]

theorem Steady.hasBytes : after.hasBytes K = tree.hasBytes K := by
  funext chain
  cases chain with
  | nil => rfl
  | cons header rest => simp only [HeaderTree.hasBytes, nodeOf, hSteady.same.index, hSteady.located]

/- A plan made before still says what to do. -/
theorem Steady.carries (hCarries : tree.Carries K params job chain) :
    after.Carries K params job chain := by
  rcases hCarries.block with ⟨n, entry, hLine, hEntry, hHash, hLoc⟩
  rcases hSteady.same.symm.entry hEntry with ⟨new, hNew, hPlace⟩
  simp only [HeaderEntry.place, HeaderEntry.mk.injEq] at hPlace
  refine ⟨⟨n, new, hSteady.lineage.mpr hLine, hNew,
    hHash.trans hPlace.2.1.symm, ?_⟩, hCarries.context⟩
  have hLocated := hSteady.located n
  rw [statusAt_of_entry hNew, statusAt_of_entry hEntry, bind_some, bind_some] at hLocated
  rw [hLocated, hLoc]

theorem Steady.realises {move : Move Header} (hRealises : tree.Realises K params job move) :
    after.Realises K params job move := by
  cases move with
  | down chain | up chain => exact ⟨hRealises.1, hSteady.carries hRealises.2⟩

end

theorem sameArena_moved (node : NodeId) (status : HeaderStatus) (tip : NodeId) :
    tree.SameArena { tree.restated node status with tip := tip } :=
  have hSame := @sameArena_restated tree node status
  ⟨hSame.entries, hSame.index, hSame.cap⟩

/- A status change that keeps the location. -/
theorem located_restated {node : Nat} {old status : HeaderStatus}
    (hOld : tree.statusAt node = some old) (hLoc : status.location = old.location) (n : Nat) :
    ((tree.restated node status).statusAt n).bind (·.location) =
      (tree.statusAt n).bind (·.location) := by
  rw [statusAt_restated (statusAt_lt_len hOld)]
  split
  · rename_i hn
    rw [hn, hOld, bind_some, bind_some, hLoc]
  · rfl

--------
-- One Job
--------

section

variable (hHealthy : tree.Healthy K params)

include hHealthy

/- The block of a job, and the one below it. -/
theorem Healthy.carried (hCarries : tree.Carries K params job chain) :
    ∃ n entry p, tree.nodeOf job.hash = some n ∧ tree.entries[n]? = some entry ∧
      entry.status.location = some job.location ∧ entry.parent = some p ∧ tree.Lineage n chain ∧
      tree.Lineage p chain.tail := by
  rcases hCarries.block with ⟨n, entry, hLine, hEntry, hHash, hLoc⟩
  have hFound := hHealthy.sound.index.mpr ⟨entry, hEntry, hHash.symm⟩
  rcases Lineage.entry hLine with ⟨same, rest, hSame, rfl, hPar⟩
  rw [hEntry] at hSame
  cases hSame
  rcases hPar with ⟨hNone, rfl⟩ | ⟨p, hSome, hRest⟩
  · -- the first block has no location
    have hView := view_of_entry hEntry
    rw [hNone] at hView
    cases hHealthy.sound.grown.root hView
    have hGenesis := hHealthy.judged.root.mpr rfl
    rw [statusAt_of_entry hEntry, Option.some.injEq] at hGenesis
    rw [hGenesis] at hLoc
    cases hLoc
  · exact ⟨n, entry, p, hFound, hEntry, hLoc, hSome, hLine, hRest⟩

/- The tip comes off. -/
theorem Healthy.carryOut_down (hHere : tree.Lineage tree.tip here)
    (hRealises : tree.Realises K params job (.down here)) (undo : UndoLocation) :
    ∃ after, tree.carryOut job undo = .ok after ∧ Steady K params tree after ∧
      after.Lineage after.tip here.tail := by
  rcases hHealthy.carried hRealises.2 with
    ⟨n, entry, p, hFound, hEntry, hLoc, hPar, hLine, hRest⟩
  cases hLine.injective hHealthy.sound.distinct hHere
  have hStat := statusAt_of_entry hEntry
  have hConn := (hHealthy.judged.active hStat).mpr .refl
  rcases (⟨_, rfl⟩ : ∃ status, status = entry.status) with ⟨status, hKind⟩
  rw [← hKind] at hLoc hConn
  cases status with
  | connected location held =>
    have hCall := (disconnected_eq_ok hHealthy.judged.marked).mpr
      ⟨entry, location, held, p, rfl, hEntry, hKind.symm, hPar, rfl⟩
    refine ⟨_, ?_, ⟨(hHealthy.disconnected hCall).1,
      sameArena_moved _ _ _, rfl, located_restated hStat (by rw [← hKind]; rfl)⟩, ?_⟩
    · rwa [carryOut, hFound, expect_some, ok_bind, hRealises.1]
    · exact hRest.mono (fun hView => by
          rwa [(sameArena_moved _ _ _).view])
  | genesis | headerAccepted => cases hLoc
  | blockChecked _ => cases hConn
  | invalid _ | invalidAncestor _ => cases hLoc

/- The next block goes on. -/
theorem Healthy.carryOut_up {next : List Header} (hHere : tree.Lineage tree.tip here)
    (hNext : next.tail = here) (hRealises : tree.Realises K params job (.up next))
    (undo : UndoLocation) :
    ∃ after, tree.carryOut job undo = .ok after ∧ Steady K params tree after ∧
      after.Lineage after.tip next := by
  rcases hHealthy.carried hRealises.2 with
    ⟨n, entry, p, hFound, hEntry, hLoc, hPar, hLine, hRest⟩
  rw [hNext] at hRest
  cases hRest.injective hHealthy.sound.distinct hHere
  have hStat := statusAt_of_entry hEntry
  have hView := view_of_entry hEntry
  rw [hPar] at hView
  have hIdle : entry.status.isConnected ≠ true := by
    intro hConn
    have hAnc := (hHealthy.judged.active hStat).mp hConn
    have hLt := (hHealthy.sound.grown.parent hView).1
    exact absurd hLt (Nat.not_lt.mpr (hAnc.le hHealthy.sound.grown))
  rcases (⟨_, rfl⟩ : ∃ status, status = entry.status) with ⟨status, hKind⟩
  rw [← hKind] at hLoc hIdle
  cases status with
  | blockChecked location =>
    have hCall := (@connected_eq_ok tree _ hHealthy.judged.marked n undo).mpr
      ⟨entry, location, hEntry, hPar, hKind.symm, rfl⟩
    refine ⟨_, ?_, ⟨(hHealthy.connected hCall).1,
      sameArena_moved _ _ _, rfl, located_restated hStat (by rw [← hKind]; rfl)⟩, ?_⟩
    · rwa [carryOut, hFound, expect_some, ok_bind, hRealises.1]
    · exact hLine.mono (fun hView => by
          rwa [(sameArena_moved _ _ _).view])
  | genesis | headerAccepted => cases hLoc
  | connected _ _ => exact absurd rfl hIdle
  | invalid _ | invalidAncestor _ => cases hLoc

--------
-- One Batch
--------

/- A plan is carried out and leads where its moves lead. -/
theorem Healthy.carryOut_moves {ready : List Header → Bool} {count : Nat} {jobs : List ConnectJob}
    (hHere : tree.Lineage tree.tip here)
    (hJobs : Forall₂ (tree.Realises K params) jobs (moves ready goal count here))
    (undos : BlockHash → UndoLocation) :
    ∃ after, tree.carryOutAll undos jobs = .ok after ∧ Steady K params tree after ∧
      after.Lineage after.tip (arrive here (moves ready goal count here)) := by
  induction count generalizing tree here jobs with
  | zero =>
    cases hJobs
    exact ⟨tree, rfl, hHealthy.steady_withPeriod tree.period, hHere⟩
  | succ count ih =>
    -- after the first job the rest is a shorter plan
    have hStep : ∀ {job : ConnectJob} {rest : List ConnectJob}
        {way : Move Header} {middle : HeaderTree},
        tree.carryOut job (undos job.hash) = .ok middle → Steady K params tree middle →
          middle.Lineage middle.tip way.after →
          Forall₂ (tree.Realises K params) rest (moves ready goal count way.after) → ∃ after,
            tree.carryOutAll undos (job :: rest) = .ok after ∧ Steady K params tree after ∧
              after.Lineage after.tip (arrive way.after (moves ready goal count way.after)) := by
      intro job rest way middle hFst hSteady hTip hRest
      rcases ih hSteady.healthy hTip (hRest.imp fun _ _ => hSteady.realises) with
        ⟨after, hAll, hLater, hEnd⟩
      refine ⟨after, ?_, hSteady.trans hLater, hEnd⟩
      rwa [carryOutAll, foldlM_cons, hFst, ok_bind]
    unfold moves at hJobs ⊢
    split at hJobs
    · rename_i hSuf
      rw [if_pos hSuf]
      split at hJobs
      · rename_i hMore
        rw [if_pos hMore, arrive_cons]
        rcases forall₂_cons_right_iff.mp hJobs with ⟨job, rest, hJob, hRest, rfl⟩
        have hTail : (upTo here.length goal).tail = here := by
          have hBelow := (tail_suffix (upTo here.length goal)).trans (Arena.upTo_suffix _ _)
          have hSame := suffix_of_suffix_length_le hBelow hSuf (by
              rw [length_tail, Arena.length_upTo hMore.1]
              omega)
          refine hSame.eq_of_length ?_
          rw [length_tail, Arena.length_upTo hMore.1]
          omega
        rcases hHealthy.carryOut_up hHere hTail hJob (undos job.hash) with
          ⟨middle, hFst, hSteady, hTip⟩
        exact hStep hFst hSteady hTip hRest
      · rename_i hStop
        rw [if_neg hStop]
        cases hJobs
        exact ⟨tree, rfl, hHealthy.steady_withPeriod tree.period, hHere⟩
    · rename_i hNot
      rw [if_neg hNot, arrive_cons]
      rcases forall₂_cons_right_iff.mp hJobs with ⟨job, rest, hJob, hRest, rfl⟩
      rcases hHealthy.carryOut_down hHere hJob (undos job.hash) with ⟨middle, hFst, hSteady, hTip⟩
      exact hStep hFst hSteady hTip hRest

end

/- How many blocks a plan takes off. -/
def disconnects (plan : Reorg) : Nat :=
  plan.jobs.countP (·.kind = .disconnect)

theorem disconnects_eq {plan : Reorg} {ways : List (Move Header)}
    (hJobs : Forall₂ (tree.Realises K params) plan.jobs ways) :
    disconnects plan = ways.countP (·.isDown) := by
  rw [disconnects]
  generalize plan.jobs = jobs at hJobs
  induction hJobs with
  | nil => rfl
  | @cons job way _ _ hJob _ ih =>
    rw [countP_cons, countP_cons, ih]
    cases way with
    | down chain | up chain => simp [hJob.1, Move.isDown]

/- What a batch does on the way from `here` to `goal`. -/
structure Batched
    (K : Primitives) (params : ChainParams) (tree : HeaderTree) (goal here : List Header)
    (limit : Nat) (plan : Reorg) (after : HeaderTree)
    (there : List Header) : Prop where
  steady : Steady K params tree after
  tip : after.Lineage after.tip there
  way : Open (tree.hasBytes K) goal there
  left : distance goal there = distance goal here - limit
  jobs : plan.jobs.length = min limit (distance goal here)
  downs : descent goal there + disconnects plan = descent goal here
  carries : ∀ job ∈ plan.jobs, ∃ chain, tree.Carries K params job chain
  fork : ∃ shared, tree.Lineage plan.fork shared ∧
      IsFork here goal shared ∧
      plan.depth + shared.length = here.length

theorem Healthy.batch_eq (hTab : params.Tabled K) (hHealthy : tree.Healthy K params)
    (hGoal : tree.Lineage tree.bestHeader goal) (hHere : tree.Lineage tree.tip here)
    (hOpen : Open (tree.hasBytes K) goal here) {limit : Nat} (hLimit : 0 < limit)
    (undos : BlockHash → UndoLocation) :
    ∃ plan after there, tree.batch params limit undos = .ok (plan, after) ∧
      Batched K params tree goal here limit plan after there := by
  rcases hHealthy.reorg_eq hTab hLimit with
    ⟨plan, scratch, tip, best, shared, hReorg, hTip, hBest, hFork, hShared, hDepth, hJobs⟩
  cases hTip.unique hHere
  cases hBest.unique hGoal
  have hScratch := hHealthy.steady_withPeriod scratch
  have hRealised := hJobs.imp fun _ _ => hScratch.realises
  rcases hScratch.healthy.carryOut_moves (hScratch.lineage.mpr hHere) hRealised undos with
    ⟨after, hAll, hLater, hThere⟩
  have hProgress := progress hOpen limit
  refine ⟨plan, after, _, ?_, hScratch.trans hLater, hThere,
    hProgress.way, hProgress.left, ?_, ?_, ?_, ⟨shared, hFork, hShared, hDepth⟩⟩
  · rw [batch, hReorg, ok_bind]
    dsimp only
    rw [hAll]
    rfl
  · rw [hJobs.length_eq, hProgress.length]
  · rw [disconnects_eq hJobs, hProgress.downs]
  · intro job hJob
    rcases exists_move hJobs hJob with ⟨way, _, hRealises⟩
    cases way with
    | down chain | up chain => exact ⟨chain, hRealises.2⟩

--------
-- Batch After Batch
--------

/- What the first batches do together. -/
structure Travelled
    (K : Primitives) (params : ChainParams) (tree : HeaderTree) (goal here : List Header)
    (limits : Nat → Nat) (plans : List Reorg) (after : HeaderTree)
    (there : List Header) : Prop where
  steady : Steady K params tree after
  start : plans = [] → there = here
  tip : after.Lineage after.tip there
  way : Open (tree.hasBytes K) goal there
  left : distance goal there = distance goal here - ∑ i ∈ Finset.range plans.length, limits i
  jobs : ∀ i plan, plans[i]? = some plan →
      plan.jobs.length = min (limits i) (distance goal here - ∑ j ∈ Finset.range i, limits j)
  downs : descent goal there + (plans.map disconnects).sum = descent goal here
  carries : ∀ plan ∈ plans, ∀ job ∈ plan.jobs, ∃ chain, tree.Carries K params job chain
  fork : ∀ plan, plans.head? = some plan →
      ∃ shared, tree.Lineage plan.fork shared ∧
        IsFork here goal shared ∧
        plan.depth + shared.length = here.length

/- One batch more. -/
theorem Travelled.batch (hHealthy : tree.Healthy K params) {there further : List Header}
    {plans : List Reorg} {plan : Reorg} {middle : HeaderTree}
    (hTravelled : Travelled K params tree goal here limits plans middle there)
    (hBatched : Batched K params middle goal there (limits plans.length) plan after further) :
    Travelled K params tree goal here limits (plans ++ [plan]) after further := by
  have hSteady := hTravelled.steady
  have hBack := hSteady.symm hHealthy
  have hLeft := hTravelled.left
  refine ⟨hSteady.trans hBatched.steady, ?_, hBatched.tip, ?_, ?_, ?_, ?_, ?_, ?_⟩
  · intro hNil
    exact absurd hNil (append_ne_nil_of_right_ne_nil _ (cons_ne_nil _ _))
  · rw [← hSteady.hasBytes]
    exact hBatched.way
  · rw [hBatched.left, hLeft, length_append, length_singleton, Finset.sum_range_succ]
    omega
  · intro i found hFound
    rcases Nat.lt_or_ge i plans.length with hLt | hGe
    · rw [getElem?_append_left hLt] at hFound
      exact hTravelled.jobs i found hFound
    · rw [getElem?_append_right hGe] at hFound
      have hLast : i = plans.length := by
        have hOne := (List.getElem?_eq_some_iff.mp hFound).1
        rw [length_singleton] at hOne
        omega
      subst hLast
      rw [Nat.sub_self, getElem?_cons_zero, Option.some.injEq] at hFound
      rw [← hFound, hBatched.jobs, hLeft]
  · have hDowns := hTravelled.downs
    have hMore := hBatched.downs
    rw [map_append, sum_append, map_singleton, sum_singleton]
    omega
  · intro found hFound job hJob
    rcases mem_append.mp hFound with hOld | hNew
    · exact hTravelled.carries found hOld job hJob
    · cases mem_singleton.mp hNew
      rcases hBatched.carries job hJob with ⟨chain, hCarries⟩
      exact ⟨chain, hBack.carries hCarries⟩
  · intro found hFound
    cases plans with
    | nil =>
      -- before the first batch nothing has moved
      cases hFound
      cases hTravelled.start rfl
      rcases hBatched.fork with ⟨shared, hFork, hShared, hDepth⟩
      exact ⟨shared, hSteady.lineage.mp hFork, hShared, hDepth⟩
    | cons first rest => exact hTravelled.fork found hFound

/- What any number of batches do. -/
theorem Healthy.batches_eq (hTab : params.Tabled K) (hHealthy : tree.Healthy K params)
    (hGoal : tree.Lineage tree.bestHeader goal) (hHere : tree.Lineage tree.tip here)
    (hOpen : Open (tree.hasBytes K) goal here) (hLimits : ∀ i, 0 < limits i)
    (undos : Nat → BlockHash → UndoLocation) (count : Nat) :
    ∃ plans after there, tree.batches params limits undos count = .ok (plans, after) ∧
      plans.length = count ∧ Travelled K params tree goal here limits plans after there := by
  induction count with
  | zero =>
    refine ⟨[], tree, here, rfl, rfl, hHealthy.steady_withPeriod tree.period, fun _ => rfl,
      hHere, hOpen, rfl, ?_, rfl, ?_, ?_⟩
    · intro i plan hFound
      cases hFound
    · intro plan hPlan
      cases hPlan
    · intro plan hPlan
      cases hPlan
  | succ count ih =>
    rcases ih with ⟨plans, middle, there, hBefore, rfl, hTravelled⟩
    have hSteady := hTravelled.steady
    have hGoal' : middle.Lineage middle.bestHeader goal := by
      rw [hSteady.best]
      exact hSteady.lineage.mpr hGoal
    rcases hSteady.healthy.batch_eq hTab hGoal' hTravelled.tip (hSteady.hasBytes ▸ hTravelled.way)
        (hLimits plans.length) (undos plans.length) with
      ⟨plan, after, further, hBatch, hBatched⟩
    refine ⟨plans ++ [plan], after, further, ?_, ?_, hTravelled.batch hHealthy hBatched⟩
    · rw [batches, hBefore, ok_bind]
      dsimp only
      rw [hBatch]
      rfl
    · rw [length_append, length_singleton]

--------
-- Arriving
--------

/- The deepest block that the tip and the best header share. -/
structure DeepestShared (tree : HeaderTree)
    (fork : NodeId) : Prop where
  left : Arena.Ancestor tree.view fork tree.tip
  right : Arena.Ancestor tree.view fork tree.bestHeader
  deepest : ∀ n, Arena.Ancestor tree.view n tree.tip →
      Arena.Ancestor tree.view n tree.bestHeader → Arena.Ancestor tree.view n fork

theorem Sound.deepestShared (hSound : tree.Sound K params)
    {fork : NodeId} {tip shared : List Header} (hTip : tree.Lineage tree.tip tip)
    (hGoal : tree.Lineage tree.bestHeader goal) (hFork : tree.Lineage fork shared)
    (hShared : IsFork tip goal shared) : tree.DeepestShared fork where
  left := (Arena.Lineage.ancestor_iff hSound.distinct hFork hTip).mpr hShared.left
  right := (Arena.Lineage.ancestor_iff hSound.distinct hFork hGoal).mpr hShared.right
  deepest _ := hSound.ancestor_fork hTip hGoal hFork hShared

/- Bytes on the disk make the way up open. -/
theorem Sound.open_of_onDisk (hSound : tree.Sound K params) (hHere : tree.Lineage tree.tip here)
    (hGoal : tree.Lineage tree.bestHeader goal)
    (hBytes : ∀ n, Arena.Ancestor tree.view n tree.bestHeader →
      ¬ Arena.Ancestor tree.view n tree.tip → tree.OnDisk n) :
    Open (tree.hasBytes K) goal here := by
  intro chain hChain hOff
  have hNe : chain ≠ [] := by
    rintro rfl
    exact hOff nil_suffix
  rcases hGoal.of_suffix hChain hNe with ⟨n, hLine, hAnc⟩
  rcases Lineage.entry hLine with ⟨entry, _, hEntry, _⟩
  rcases hBytes n hAnc (fun hActive => hOff (hLine.suffix_of_ancestor hHere hActive)) with
    ⟨status, hStat, hSome⟩
  rw [statusAt_of_entry hEntry, Option.some.injEq] at hStat
  rwa [hasBytes_eq hSound hEntry hLine, hStat]

/- A job carries the context its block was accepted under. -/
theorem Carries.logged (hTab : params.Tabled K) {cap : Nat} {log : List (Call × Answer)}
    (hRun : TreeRun K params cap log tree) (hCarries : tree.Carries K params job chain) :
    ∃ header now node,
      (Call.accept header now, Answer.accepted (.ok (.first node job.context))) ∈ log ∧
        K.blockHash header = job.hash := by
  have hHealthy := hRun.healthy hTab
  rcases hHealthy.carried hCarries with ⟨n, entry, p, hFound, hEntry, hLoc, _, hLine, hRest⟩
  rcases hCarries.context with ⟨header, rest, rfl, hCtx⟩
  have hSpared : entry.status.isTerminal = false := by
    rcases (⟨_, rfl⟩ : ∃ status, status = entry.status) with ⟨status, hKind⟩
    rw [← hKind] at hLoc ⊢
    cases status with
    | invalid _ | invalidAncestor _ => cases hLoc
    | genesis | headerAccepted | blockChecked _ | connected _ _ => rfl
  rcases hRun.logged hTab (statusAt_of_entry hEntry) hSpared hLine hRest.ne_nil with
    ⟨now, context, hMem, hOther⟩
  rw [← hCtx.unique hOther] at hMem
  refine ⟨header, now, n, hMem, ?_⟩
  rcases hHealthy.sound.index.mp hFound with ⟨same, hSame, hHash⟩
  rw [hEntry] at hSame
  cases hSame
  rcases Lineage.entry hLine with ⟨same, _, hSame, hChain, _⟩
  rw [hEntry] at hSame
  cases hSame
  rw [(List.cons.inj hChain).1, ← hHash]
  exact (hHealthy.sound.fits hEntry hLine).hash.symm

end HeaderTree

open HeaderTree

theorem le_sum_limits (hLimits : ∀ i, 0 < limits i) (count : Nat) :
    count ≤ ∑ i ∈ Finset.range count, limits i := by
  induction count with
  | zero => exact Nat.zero_le _
  | succ count ih =>
    have hLast := hLimits count
    rw [Finset.sum_range_succ]
    omega

/- The first batch after which a distance is covered. -/
theorem exists_last (hLimits : ∀ i, 0 < limits i) (total : Nat) :
    ∃ last, ∀ count, total ≤ ∑ i ∈ Finset.range count, limits i ↔ last ≤ count := by
  have hCovered : ∃ count, total ≤ ∑ i ∈ Finset.range count, limits i :=
    ⟨total, le_sum_limits hLimits total⟩
  refine ⟨Nat.find hCovered, ?_⟩
  intro count
  constructor
  · exact fun hCount => Nat.find_min' hCovered hCount
  · intro hLe
    exact Nat.le_trans (Nat.find_spec hCovered)
      (Finset.sum_le_sum_of_subset (Finset.range_mono hLe))

/-
  Plans made and carried out with any positive limits lead to the best header in finitely many
  batches, taking off exactly the blocks above the fork, and every job has the context its block was
  accepted under.
-/
theorem reorg_converges {K : Primitives} {params : ChainParams} (hTab : params.Tabled K)
    {cap : Nat} {log : List (Call × Answer)} {tree : HeaderTree}
    (hRun : TreeRun K params cap log tree)
    (hBytes : ∀ n, Arena.Ancestor tree.view n tree.bestHeader →
        ¬ Arena.Ancestor tree.view n tree.tip → tree.OnDisk n)
    {limits : Nat → Nat}
    (hLimits : ∀ i, 0 < limits i)
    (undos : Nat → BlockHash → UndoLocation) :
    ∃ last, ∀ count, ∃ plans after,
      tree.batches params limits undos count = .ok (plans, after) ∧
        plans.length = count ∧
        after.bestHeader = tree.bestHeader ∧
        (after.tip = tree.bestHeader ↔ last ≤ count) ∧
        (∀ i plan, plans[i]? = some plan → (plan.isEmpty = true ↔ last ≤ i)) ∧
        (∀ first, plans.head? = some first →
          tree.DeepestShared first.fork ∧
          (∃ active shared,
            tree.Lineage tree.tip active ∧
              tree.Lineage first.fork shared ∧
              first.depth + shared.length = active.length) ∧
          (last ≤ count → (plans.map disconnects).sum = first.depth)) ∧
        ∀ plan ∈ plans, ∀ job ∈ plan.jobs,
          ∃ header now node,
            (Call.accept header now, Answer.accepted (.ok (.first node job.context))) ∈ log ∧
              K.blockHash header = job.hash := by
  have hHealthy := hRun.healthy hTab
  have hSound := hHealthy.sound
  rcases hHealthy.exists_tip with ⟨_, here, _, hHere⟩
  rcases hHealthy.exists_best with ⟨_, goal, _, hGoal⟩
  have hOpen := hSound.open_of_onDisk hHere hGoal hBytes
  rcases exists_last hLimits (distance goal here) with ⟨last, hLast⟩
  refine ⟨last, ?_⟩
  intro count
  rcases hHealthy.batches_eq hTab hGoal hHere hOpen hLimits undos count with
    ⟨plans, after, there, hBatches, rfl, hTravelled⟩
  have hSteady := hTravelled.steady
  have hThere := hSteady.lineage.mp hTravelled.tip
  have hArrived : there = goal ↔ last ≤ plans.length := by
    rw [← distance_eq_zero, hTravelled.left, ← hLast]
    omega
  refine ⟨plans, after, hBatches, rfl, hSteady.best, ?_, ?_, ?_, ?_⟩
  · rw [← hArrived]
    constructor
    · intro hTip
      rw [hTip] at hThere
      exact hThere.unique hGoal
    · rintro rfl
      exact hThere.injective hSound.distinct hGoal
  · intro i plan hPlan
    have hLen := hTravelled.jobs i plan hPlan
    have hLimit := hLimits i
    rw [Reorg.isEmpty, List.isEmpty_iff, ← length_eq_zero_iff, hLen, ← hLast]
    omega
  · intro first hFst
    rcases hTravelled.fork first hFst with ⟨shared, hFork, hShared, hDepth⟩
    refine ⟨hSound.deepestShared hHere hGoal hFork hShared,
      ⟨here, shared, hHere, hFork, hDepth⟩, ?_⟩
    intro hEnd
    have hDowns := hTravelled.downs
    rw [hArrived.mpr hEnd, descent_of_suffix (suffix_refl _)] at hDowns
    have hDrop := congrArg List.length (hShared.unique (isFork_drop goal here))
    rw [length_drop] at hDrop
    have hLe := descent_le goal here
    omega
  · intro plan hPlan job hJob
    rcases hTravelled.carries plan hPlan job hJob with ⟨chain, hCarries⟩
    exact hCarries.logged hTab hRun

--------
-- A Reorg of One Block
--------

namespace SmallChain

/- What the tree shows when every block has arrived. -/
def Arrival (tree : HeaderTree) : Prop :=
  tree.entries.map (·.parent) =
      [none, some 0, some 0, some 2] ∧
    tree.entries.map (·.status.location.isSome) = [false, true, true, true] ∧
    tree.tip = 1 ∧
    tree.bestHeader = 3

instance
    (tree : HeaderTree) :
    Decidable (Arrival tree) :=
  inferInstanceAs (Decidable (_ ∧ _))

/- `left` is connected, and the heavier branch is here. -/
def arrival : Result Empty Bool := do
  let tree ← grown (connectLeft ++ [
    .accept right now, .blockChecked 2 { file := 0, offset := 81, len := 81 }, .accept top now,
    .blockChecked 3 { file := 0, offset := 162, len := 81 }])
  return decide (Arrival tree)

theorem arrival_returns : arrival = .ok true := by
  decide +kernel

/- One block at a time, from `left` to `top`. -/
theorem reorg_converges_top :
    ∃ log tree,
      TreeRun crypto.primitives params 8 log tree ∧
        tree.tip = 1 ∧ tree.bestHeader = 3 ∧
        (∀ i : Nat, 0 < (fun _ => 1) i) ∧
        ∃ last, ∀ count, ∃ plans after,
          tree.batches params (fun _ => 1) (fun _ _ => { file := 0, offset := 0, len := 1 }) count =
            .ok (plans, after) ∧
          (after.tip = 3 ↔ last ≤ count) := by
  have hRet := arrival_returns
  simp only [arrival, bind_eq_ok, pure_inj, decide_eq_true_eq] at hRet
  rcases hRet with ⟨tree, hGrown, hParents, hDisk, hTip, hBest⟩
  rcases run_of_grown hGrown with ⟨log, hRun⟩
  have hLeft : Arena.IsParent tree.view 0 1 := by
    rw [isParent_iff, hParents]
    rfl
  have hRight : Arena.IsParent tree.view 0 2 := by
    rw [isParent_iff, hParents]
    rfl
  have hTop : Arena.IsParent tree.view 2 3 := by
    rw [isParent_iff, hParents]
    rfl
  have hBytes : ∀ n, Arena.Ancestor tree.view n tree.bestHeader →
        ¬ Arena.Ancestor tree.view n tree.tip → tree.OnDisk n := by
    intro n hOn hOff
    rw [hBest, hTop.ancestor_iff, hRight.ancestor_iff] at hOn
    rw [hTip, hLeft.ancestor_iff] at hOff
    rw [onDisk_iff, hDisk]
    rcases hOn with rfl | rfl | hRoot
    · rfl
    · rfl
    · exact absurd (.inr hRoot) hOff
  have hLimits : ∀ i : Nat, 0 < (fun _ => 1) i := fun _ => Nat.one_pos
  rcases reorg_converges tabled hRun hBytes hLimits
      (fun _ _ => { file := 0, offset := 0, len := 1 }) with
    ⟨last, hLast⟩
  refine ⟨log, tree, hRun, hTip, hBest, hLimits, last, ?_⟩
  intro count
  rcases hLast count with ⟨plans, after, hBatches, _, _, hEnd, _⟩
  rw [hBest] at hEnd
  exact ⟨plans, after, hBatches, hEnd⟩

end SmallChain

end Bitmigo
