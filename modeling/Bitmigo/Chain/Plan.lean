import Bitmigo.Chain.Invariant
import Bitmigo.Chain.Reorg
import Bitmigo.Lib.Reroute

/-
  What a plan of the reorg driver is.

  Key definitions include:
    * `HeaderTree.hasBytes`, the block's bytes are on the disk
    * `HeaderTree.Realises`, a job carries out a move from one chain to another

  Key theorems include:
    * `HeaderTree.Healthy.reorg_eq`, a plan is the next moves from the tip's chain to the best
      header's, as far as the bytes are here
-/

namespace Bitmigo

open Result List Option

open Arena (upTo)
open Reroute

variable {target : NodeId}

namespace HeaderTree

variable {K : Primitives} {params : ChainParams} {tree : HeaderTree}
variable {chain tip goal shared : List Header} {walk fork : NodeId}

/- Are the bytes of a chain's last block on the disk? -/
def hasBytes (K : Primitives) (tree : HeaderTree) :
    List Header → Bool
  | [] => false
  | header :: _ =>
    match tree.nodeOf (K.blockHash header) with
    | none => false
    | some n =>
      ((tree.statusAt n).bind (·.location)).isSome

/- A job is about the last block of a chain. -/
structure Carries (K : Primitives) (params : ChainParams) (tree : HeaderTree) (job : ConnectJob)
    (chain : List Header) : Prop where
  block : ∃ n entry, tree.Lineage n chain ∧
      tree.entries[n]? = some entry ∧
      job.hash = entry.hash ∧
      entry.status.location = some job.location
  context : ∃ header rest, chain = header :: rest ∧ IsContext K params rest header job.context

/- A job carries out a move. -/
def Realises (K : Primitives) (params : ChainParams) (tree : HeaderTree) (job : ConnectJob) :
    Move Header → Prop
  | .down chain =>
    job.kind = .disconnect ∧ tree.Carries K params job chain
  | .up chain =>
    job.kind = .connect ∧ tree.Carries K params job chain

theorem hasBytes_eq (hSound : tree.Sound K params) {n : Nat} {entry : HeaderEntry}
    (hEntry : tree.entries[n]? = some entry) (hLine : tree.Lineage n chain) :
    tree.hasBytes K chain = entry.status.location.isSome := by
  rcases Lineage.entry hLine with ⟨same, rest, hSame, rfl, _⟩
  rw [hEntry] at hSame
  cases hSame
  have hFound := hSound.index.mpr ⟨entry, hEntry, (hSound.fits hEntry hLine).hash⟩
  rw [hasBytes, nodeOf, hFound]
  simp only [statusAt_of_entry hEntry, bind_some]

section

variable (hHealthy : tree.Healthy K params)

include hHealthy

/- The active chain is the tip's. -/
theorem Healthy.isActive_eq {n : Nat} (hLine : tree.Lineage n chain)
    (hTip : tree.Lineage tree.tip tip) : tree.isActive n = .ok (decide (chain <:+ tip)) := by
  rcases Lineage.entry hLine with ⟨entry, _, hEntry, _⟩
  have hActive := hHealthy.judged.active (statusAt_of_entry hEntry)
  rw [Arena.Lineage.ancestor_iff hHealthy.sound.distinct hLine hTip] at hActive
  rwa [isActive, entry_eq hEntry, ok_bind, pure_inj, Bool.eq_iff_iff, decide_eq_true_eq]

/- Down the target's chain to the first active block. -/
theorem Healthy.forkWalk_eq (hTip : tree.Lineage tree.tip tip) {steps : Nat}
    (hWalk : tree.Lineage walk chain) (hGoal : chain <:+ goal)
    (hDeep : ∀ {other}, other <:+ tip → other <:+ goal → other <:+ chain)
    (hSteps : chain.length ≤ steps + 1) :
    ∃ fork shared,
      tree.forkWalk steps walk = .ok fork ∧ tree.Lineage fork shared ∧ IsFork tip goal shared := by
  induction steps generalizing walk chain with
  | zero =>
    -- one header is left, and genesis is active
    rcases hHealthy.sound.grown.root_shared hWalk hTip with ⟨root, hSuf, hSuf'⟩
    have hChain : chain = [root] := by
      refine (hSuf.eq_of_length_le ?_).symm
      simpa using hSteps
    have hActive : chain <:+ tip := hChain ▸ hSuf'
    refine ⟨walk, chain, ?_, hWalk, hActive, hGoal, hDeep⟩
    rw [forkWalk, hHealthy.isActive_eq hWalk hTip, ok_bind, assert_of (by simpa using hActive)]
    rfl
  | succ steps ih =>
    rw [forkWalk, hHealthy.isActive_eq hWalk hTip, ok_bind]
    by_cases hActive : chain <:+ tip
    · rw [if_pos (by simpa using hActive)]
      exact ⟨walk, chain, rfl, hWalk, hActive, hGoal, hDeep⟩
    · rw [if_neg (by simpa using hActive)]
      rcases Lineage.entry hWalk with ⟨entry, rest, hEntry, rfl, hPar⟩
      rcases hPar with ⟨_, rfl⟩ | ⟨p, hPar, hRest⟩
      · -- genesis is active
        rcases hHealthy.sound.grown.root_shared hWalk hTip with ⟨root, hSuf, hSuf'⟩
        rw [hSuf.eq_of_length rfl] at hSuf'
        exact absurd hSuf' hActive
      · rw [entry_eq hEntry, ok_bind, hPar, expect_some, ok_bind]
        refine ih hRest ((suffix_cons _ _).trans hGoal) ?_ (by rw [length_cons] at hSteps; omega)
        intro other hLeft hRight
        rcases suffix_cons_iff.mp (hDeep hLeft hRight) with rfl | hOther
        · exact absurd hLeft hActive
        · exact hOther

theorem Healthy.forkPoint_eq (hTip : tree.Lineage tree.tip tip) (hGoal : tree.Lineage target goal) :
    ∃ fork shared,
      tree.forkPoint target = .ok fork ∧ tree.Lineage fork shared ∧ IsFork tip goal shared := by
  have hSound := hHealthy.sound
  rcases Lineage.entry hTip with ⟨entry, _, hEntry, _⟩
  have hHeight := (hSound.fits hEntry hTip).height
  have hLens : ∀ {n chain}, tree.Lineage n chain → chain.length ≤ tree.len + 1 := by
    intro n chain hLine
    rcases Lineage.entry hLine with ⟨found, _, hFound, _⟩
    have hLe := hSound.grown.length_le hLine
    have hLt := lt_len hFound
    omega
  rw [forkPoint, entry_eq hEntry, ok_bind]
  by_cases hBelow : entry.height.val < goal.length
  · rcases hSound.ancestor_eq hGoal hBelow with ⟨found, hFound, hLine⟩
    rw [hFound, ok_bind, getD_some]
    refine hHealthy.forkWalk_eq hTip hLine (Arena.upTo_suffix _ _) ?_ (hLens hLine)
    intro other hLeft hRight
    have hShort := hLeft.length_le
    refine suffix_of_suffix_length_le hRight (Arena.upTo_suffix _ _) ?_
    rw [Arena.length_upTo hBelow]
    omega
  · rw [hSound.ancestor_above hGoal (Nat.not_lt.mp hBelow), ok_bind, getD_none]
    exact hHealthy.forkWalk_eq hTip hGoal (suffix_refl _) (fun _ hRight => hRight) (hLens hGoal)

--------
-- Down to the Fork
--------

/- A block above the fork on the active chain. -/
structure Above (tree : HeaderTree) (shared : List Header) (walk : NodeId) (entry : HeaderEntry)
    (rest : List Header) : Prop where
  stored : tree.entries[walk]? = some entry
  parent : ∃ p, entry.parent = some p ∧ tree.Lineage p rest
  connected : ∃ location undo, entry.status = .connected location undo
  below : shared <:+ rest

theorem Healthy.above (hTip : tree.Lineage tree.tip tip) (hFork : tree.Lineage fork shared)
    (hWalk : tree.Lineage walk chain) (hBetween : shared <:+ chain) (hActive : chain <:+ tip)
    (hNe : walk ≠ fork) :
    ∃ entry rest, chain = entry.header :: rest ∧ tree.Above shared walk entry rest := by
  rcases Lineage.entry hWalk with ⟨entry, rest, hEntry, rfl, hPar⟩
  have hBelow : shared <:+ rest := by
    rcases suffix_cons_iff.mp hBetween with rfl | hRest
    · exact absurd (hWalk.injective hHealthy.sound.distinct hFork) hNe
    · exact hRest
  rcases hPar with ⟨_, rfl⟩ | ⟨p, hPar, hRest⟩
  · exact absurd (suffix_nil.mp hBelow) hFork.ne_nil
  · refine ⟨entry, rest, rfl, hEntry, ⟨p, hPar, hRest⟩, ?_, hBelow⟩
    have hStat := statusAt_of_entry hEntry
    have hConn := (hHealthy.judged.active hStat).mpr
        ((Arena.Lineage.ancestor_iff hHealthy.sound.distinct hWalk hTip).mpr hActive)
    cases hKind : entry.status with
    | connected location undo => exact ⟨location, undo, rfl⟩
    | genesis =>
      rw [hKind] at hStat
      cases hHealthy.judged.root.mp hStat
      have hRoot := hWalk.unique hHealthy.sound.root
      exact absurd (List.cons.inj hRoot).2 hRest.ne_nil
    | headerAccepted | blockChecked _ | invalid _ | invalidAncestor _ =>
      simp [hKind, HeaderStatus.isConnected] at hConn

theorem Healthy.checkUndo_eq (hTip : tree.Lineage tree.tip tip) (hFork : tree.Lineage fork shared)
    {steps : Nat} (hWalk : tree.Lineage walk chain) (hBetween : shared <:+ chain)
    (hActive : chain <:+ tip) (hSteps : chain.length ≤ shared.length + steps) :
    tree.checkUndo fork steps walk = .ok () := by
  induction steps generalizing walk chain with
  | zero =>
    have hSame : shared = chain := hBetween.eq_of_length_le hSteps
    subst hSame
    have hEq := hWalk.injective hHealthy.sound.distinct hFork
    exact assert_of hEq
  | succ steps ih =>
    unfold checkUndo
    by_cases hEq : walk = fork
    · rw [if_pos hEq]
      rfl
    · rw [if_neg hEq]
      rcases hHealthy.above hTip hFork hWalk hBetween hActive hEq with ⟨entry, rest, rfl, hAbove⟩
      rcases hAbove.parent with ⟨p, hPar, hRest⟩
      rcases hAbove.connected with ⟨location, undo, hStat⟩
      rw [entry_eq hAbove.stored, ok_bind, hStat]
      dsimp only
      rw [hPar, expect_some, ok_bind]
      refine ih hRest hAbove.below ((suffix_cons _ _).trans hActive) ?_
      rw [length_cons] at hSteps
      omega

end

section

variable (hTab : params.Tabled K) (hHealthy : tree.Healthy K params)

include hTab hHealthy

/- What the disconnects leave for the connects to complete. -/
theorem Healthy.disconnectJobs_eq (hTip : tree.Lineage tree.tip tip)
    (hShared : IsFork tip goal shared) (hFork : tree.Lineage fork shared) (room : Nat)
    (hWalk : tree.Lineage walk chain) (hBetween : shared <:+ chain) (hActive : chain <:+ tip)
    (period : List HeaderFacts) (ready : List Header → Bool) :
    ∃ jobs scratch, disconnectJobs params fork room walk
          { tree with period := period } =
          .ok (jobs, { tree with period := scratch }) ∧
        jobs.length ≤ room ∧
        (jobs.length < room → jobs.length + shared.length = chain.length) ∧
        ∀ rest, Forall₂ (tree.Realises K params) rest
            (moves ready goal (room - jobs.length) shared) →
          Forall₂ (tree.Realises K params) (jobs ++ rest) (moves ready goal room chain) := by
  induction room generalizing walk chain period with
  | zero =>
    refine ⟨[], period, rfl, Nat.le_refl _, ?_, ?_⟩
    · intro hLt
      exact absurd hLt (Nat.not_lt_zero _)
    · intro rest hRest
      exact hRest
  | succ room ih =>
    by_cases hEq : walk = fork
    · subst hEq
      cases hWalk.unique hFork
      refine ⟨[], period, ?_, Nat.zero_le _, ?_, ?_⟩
      · rw [disconnectJobs, if_pos rfl]
        rfl
      · intro _
        rw [length_nil, Nat.zero_add]
      · intro rest hRest
        exact hRest
    · rcases hHealthy.above hTip hFork hWalk hBetween hActive hEq with ⟨entry, rest, rfl, hAbove⟩
      rcases hAbove.parent with ⟨p, hPar, hRest⟩
      rcases hAbove.connected with ⟨location, undo, hStat⟩
      have hActiveRest := (suffix_cons _ _).trans hActive
      rcases (hHealthy.withPeriod period).contextOf_eq hTab hAbove.stored (by rw [hStat]; rfl)
          hWalk hRest.ne_nil with
        ⟨context, next, hCtx, hIs⟩
      rcases ih hRest hAbove.below hActiveRest next with
        ⟨jobs, scratch, hJobs, hLen, hFull, hAppend⟩
      refine
        ⟨{ kind := .disconnect, hash := entry.hash,
            context := context, location := location } ::
            jobs, scratch, ?_, ?_, ?_, ?_⟩
      · rw [disconnectJobs, if_neg hEq, entry_eq (show { tree with period := period
            }.entries[walk]? = some entry from hAbove.stored),
          ok_bind, hPar, expect_some,
          ok_bind, hStat]
        dsimp only [HeaderStatus.location]
        rw [expect_some, ok_bind, hCtx, ok_bind]
        dsimp only
        rw [hJobs, ok_bind]
        rfl
      · rw [length_cons]
        omega
      · intro hLt
        rw [length_cons] at hLt ⊢
        rw [length_cons, ← hFull (by omega)]
        omega
      · intro more hMore
        -- the block is above the fork
        have hNot : ¬ entry.header :: rest <:+ goal := by
          intro hSuf
          have hShort := (hShared.deepest hActive hSuf).length_le
          have hLong := hAbove.below.length_le
          rw [length_cons] at hShort
          omega
        rw [length_cons, Nat.add_sub_add_right] at hMore
        unfold moves
        rw [if_neg hNot]
        refine .cons ⟨rfl, ⟨walk, entry, hWalk,
          hAbove.stored, rfl, ?_⟩, entry.header, rest, rfl, hIs⟩ (hAppend more hMore)
        rw [hStat]
        rfl

--------
-- Up to the Target
--------

theorem Healthy.connectJobs_eq (hGoal : tree.Lineage target goal) {status : HeaderStatus}
    (hStat : tree.statusAt target = some status) (hSpared : status.isTerminal = false)
    {last : Nat} (hLast : last + 1 = goal.length) (room : Nat) {here : List Header}
    (hHere : here <:+ goal) (hNe : here ≠ []) (period : List HeaderFacts) :
    ∃ jobs missing scratch, connectJobs params target last room here.length
          { tree with period := period } =
          .ok (jobs, missing, { tree with period := scratch }) ∧
        jobs.length ≤ room ∧
        Forall₂ (tree.Realises K params) jobs (moves (tree.hasBytes K) goal room here) := by
  induction room generalizing here period with
  | zero => exact ⟨[], none, period, rfl, Nat.le_refl _, .nil⟩
  | succ room ih =>
    have hMax : maxTreeHeaders < 0x7fffffff := by decide
    have hSmall := hHealthy.sound.length_le hGoal
    have hPos := length_pos_iff.mpr hNe
    unfold connectJobs moves
    rw [if_pos hHere]
    by_cases hMore : here.length ≤ last
    · have hShort : here.length < goal.length := by omega
      have hFits : here.length ≤ 0x7fffffff := by omega
      rcases (hHealthy.withPeriod period).sound.ancestor_eq
          hGoal (show (⟨here.length, hFits⟩ : Height).val < goal.length from hShort) with
        ⟨node, hNode, hLine⟩
      have hAnc : Arena.Ancestor tree.view node target :=
        (Arena.Lineage.ancestor_iff hHealthy.sound.distinct
          hLine hGoal).mpr (Arena.upTo_suffix _ _)
      rcases hHealthy.spared_of_ancestor hAnc hStat
          hSpared with ⟨above, hAbove, hAboveSpared⟩
      rcases statusAt_eq_some.mp hAbove with ⟨entry, hEntry, rfl⟩
      have hBytes := hasBytes_eq hHealthy.sound hEntry hLine
      have hNew :
          (Height.new here.length : Result Empty Height) = .ok ⟨here.length, hFits⟩ := dif_pos hFits
      rw [if_pos hMore, hNew, ok_bind, hNode, ok_bind, expect_some, ok_bind,
        entry_eq (show { tree with period := period
          }.entries[node]? = some entry from hEntry),
        ok_bind, assert_of hAboveSpared,
        ok_bind]
      cases hLoc : entry.status.location with
      | none =>
        rw [hLoc] at hBytes
        rw [if_neg (by simp [hBytes])]
        exact ⟨[], some entry.hash, period, rfl, Nat.zero_le _, .nil⟩
      | some location =>
        rw [hLoc] at hBytes
        rw [if_pos ⟨hShort, by simp [hBytes]⟩]
        rcases Lineage.entry hLine with ⟨same, rest, hSame, hCons, _⟩
        change tree.entries[node]? = some same at hSame
        rw [hEntry] at hSame
        cases hSame
        have hLen := Arena.length_upTo hShort
        have hRest : rest ≠ [] := by
          rintro rfl
          change upTo here.length goal = _ at hCons
          rw [hCons, length_singleton] at hLen
          omega
        have hLine' : tree.Lineage node (entry.header :: rest) := hCons ▸ hLine
        rcases (hHealthy.withPeriod period).contextOf_eq
            hTab hEntry hAboveSpared hLine' hRest with
          ⟨context, next, hCtx, hIs⟩
        rcases @ih (upTo here.length goal) (Arena.upTo_suffix _ _)
            (Arena.upTo_ne_nil hShort) next with
          ⟨jobs, missing, scratch, hJobs, hRoom, hAll⟩
        rw [hLen] at hJobs
        refine
          ⟨{ kind := .connect, hash := entry.hash,
              context := context, location := location } ::
              jobs, missing, scratch, ?_, ?_, ?_⟩
        · dsimp only
          rw [hCtx, ok_bind]
          dsimp only
          rw [hJobs, ok_bind]
          rfl
        · rw [length_cons]
          omega
        · exact .cons ⟨rfl, ⟨node, entry, hLine, hEntry,
            rfl, hLoc⟩, entry.header, rest, hCons,
            hIs⟩ hAll
    · have hEnd : ¬ here.length < goal.length := by omega
      rw [if_neg hMore, if_neg (fun hBoth => hEnd hBoth.1)]
      exact ⟨[], none, period, rfl, Nat.zero_le _, .nil⟩

/-
  A plan is the next moves from the tip's chain to the best header's, as far as the bytes are here.
-/
theorem Healthy.reorg_eq {limit : Nat} (hLimit : 0 < limit) :
    ∃ plan scratch tip goal shared,
      tree.reorg params limit = .ok (plan, { tree with period := scratch }) ∧
        tree.Lineage tree.tip tip ∧
        tree.Lineage tree.bestHeader goal ∧
        tree.Lineage plan.fork shared ∧
        IsFork tip goal shared ∧
        plan.depth + shared.length = tip.length ∧
        Forall₂ (tree.Realises K params) plan.jobs (moves (tree.hasBytes K) goal limit tip) := by
  have hSound := hHealthy.sound
  rcases hHealthy.exists_tip with ⟨tipEntry, tip, hTipEntry, hTip⟩
  rcases hHealthy.judged.best.spared with ⟨status, hStat, hSpared⟩
  rcases statusAt_eq_some.mp hStat with ⟨bestEntry, hBestEntry, _⟩
  rcases hSound.exists_lineage hBestEntry with ⟨goal, hGoal⟩
  rcases hHealthy.forkPoint_eq hTip hGoal with ⟨fork, shared, hForkPoint, hFork, hShared⟩
  rcases Lineage.entry hFork with ⟨forkEntry, _, hForkEntry, _⟩
  have hTipHeight := (hSound.fits hTipEntry hTip).height
  have hBestHeight := (hSound.fits hBestEntry hGoal).height
  have hForkHeight := (hSound.fits hForkEntry hFork).height
  have hLe := hShared.left.length_le
  have hOrder : forkEntry.height ≤ tipEntry.height := by
    rw [← Subtype.coe_le_coe]
    omega
  have hSteps :
      tree.stepsBetween tree.tip fork = .ok (tipEntry.height.val - forkEntry.height.val) := by
    rw [stepsBetween, entry_eq hTipEntry, ok_bind, entry_eq hForkEntry, ok_bind, assert_of hOrder]
    rfl
  have hEnough : tip.length ≤ shared.length + tree.len := by
    have hShort := hSound.grown.length_le hTip
    have hLt := lt_len hTipEntry
    omega
  have hUndo := hHealthy.checkUndo_eq hTip hFork hTip hShared.left (suffix_refl _) hEnough
  rcases hHealthy.disconnectJobs_eq hTab hTip hShared hFork
      limit hTip hShared.left (suffix_refl _) tree.period
      (tree.hasBytes K) with
    ⟨off, between, hOff, hOffRoom, _, hAppend⟩
  rcases hHealthy.connectJobs_eq hTab hGoal hStat hSpared
      hBestHeight (limit - off.length) hShared.right
      hFork.ne_nil between with
    ⟨on, missing, scratch, hOn, hOnRoom, hAll⟩
  refine ⟨⟨fork, tipEntry.height.val - forkEntry.height.val,
    off ++ on, missing⟩, scratch, tip, goal, shared, ?_, hTip,
    hGoal, hFork, hShared, ?_, hAppend on hAll⟩
  · rw [← hForkHeight] at hOn
    rw [reorg, assert_of hLimit, ok_bind]
    dsimp only
    rw [hForkPoint, ok_bind, hSteps, ok_bind, planDisconnects, hUndo, ok_bind]
    have hSame : { tree with period := tree.period } = tree := rfl
    rw [hSame] at hOff
    rw [hOff, ok_bind]
    dsimp only
    rw [planConnects, entry_eq (show { tree with period := between
        }.entries[tree.bestHeader]? = some bestEntry
        from hBestEntry),
      ok_bind,
      entry_eq (show { tree with period := between
        }.entries[fork]? = some forkEntry from hForkEntry),
      ok_bind, hOn, ok_bind]
    dsimp only
    rw [assert_of (by
      rw [length_append]
      omega)]
    rfl
  · dsimp only
    omega

end

end HeaderTree

end Bitmigo
