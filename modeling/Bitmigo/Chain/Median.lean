import Bitmigo.Chain.Context
import Bitmigo.Lib.Median

/-
  The median time past never goes back along a branch, and so a lock that is met once stays met.

  Key definitions include:
    * `HeaderTree.HeaderAccepted`, a header that passes under its own context
    * `HeaderTree.AcceptedBranch`

  Key theorems include:
    * `medianOf_chainTimes_le`, one header further
    * `HeaderTree.Sound.medianOf_branch_le`, any number of them
    * `isFinal_mono` and `sequenceLocksSatisfied_mono`
    * `medianTimePast_branch`, the median and both locks
-/

namespace Bitmigo

open Result List Arena

variable {tx : Transaction} {context : Context} {header : Header}

--------
-- Locks
--------

/- A lock that is met stays met as height and time grow. -/
theorem isFinal_mono {height later : Height} {cutoff after : BlockTime} (hHeight : height ≤ later)
    (hTime : cutoff ≤ after) (hFinal : isFinal tx height cutoff = true) :
    isFinal tx later after = true := by
  have hVal : height.val ≤ later.val := hHeight
  have hNat : cutoff.toNat ≤ after.toNat := hTime
  simp only [isFinal, decide_eq_true_eq] at hFinal ⊢
  rcases hFinal with hZero | hBelow | hAll
  · exact .inl hZero
  · refine .inr (.inl ?_)
    split_ifs at hBelow ⊢ <;> omega
  · exact .inr (.inr hAll)

/- The points do not depend on the context. -/
theorem sequenceLocksSatisfied_mono {ε : Type} {bases : List RelativeLockBase} {later : Context}
    (hHeight : context.height ≤ later.height)
    (hTime : context.medianTimePast ≤ later.medianTimePast)
    (hActive : context.rules.csvActive = true)
    (hSatisfied : (sequenceLocksSatisfied tx bases context : Result ε Bool) = .ok true) :
    (sequenceLocksSatisfied tx bases later : Result ε Bool) = .ok true := by
  have hVal : context.height.val ≤ later.height.val := hHeight
  have hNat : context.medianTimePast.toNat ≤ later.medianTimePast.toNat := hTime
  simp only [sequenceLocksSatisfied, bind_eq_ok] at hSatisfied ⊢
  rcases hSatisfied with ⟨_, hLen, hLocks⟩
  refine ⟨(), hLen, ?_⟩
  by_cases hExempt : ¬ bip68Applies tx = true ∨ ¬ later.rules.csvActive = true
  · rw [if_pos hExempt]
    rfl
  · have hApplies : bip68Applies tx = true := by
      by_contra hNot
      exact hExempt (.inl hNot)
    rw [if_neg (by simp [hApplies, hActive])] at hLocks
    rw [if_neg hExempt]
    simp only [bind_eq_ok, pure_inj, decide_eq_true_eq] at hLocks ⊢
    rcases hLocks with ⟨points, hPoints, hAbove, hAfter⟩
    exact ⟨points, hPoints, by omega, by omega⟩

--------
-- The Window
--------

theorem time_gt_of_acceptHeader {params : ChainParams}
    (hAccepted : acceptHeader header params context = .ok ()) :
    context.medianTimePast < header.time := by
  simp only [acceptHeader, bind_eq_ok, ensure_eq_ok] at hAccepted
  rcases hAccepted with ⟨_, _, _, hTime, _⟩
  exact hTime

/- The window of a child is its own time and what is kept. -/
theorem chainTimes_cons (header : Header) (chain : List Header) :
    chainTimes (header :: chain) = header.time :: (chainTimes chain).take (medianTimeSpan - 1) := by
  rw [chainTimes, chainTimes, ← map_take, take_take]
  rfl

/-
  Near genesis the window grows and the middle moves up at every second header, later it slides. In
  both cases it takes in a time above the old median.
-/
theorem medianOf_chainTimes_le {chain : List Header} (hNe : chain ≠ [])
    (hAbove : medianOf (chainTimes chain) < header.time) :
    medianOf (chainTimes chain) ≤ medianOf (chainTimes (header :: chain)) := by
  rw [chainTimes_cons]
  refine Median.middle_le_cons ?_ (take_sublist _ _) ?_ hAbove
  · simpa [chainTimes, medianTimeSpan] using hNe
  · simp only [chainTimes, medianTimeSpan, length_cons, length_take, length_map]
    omega

--------
-- Branches
--------

namespace HeaderTree

variable {K : Primitives} {params : ChainParams} {tree : HeaderTree} {chain : List Header}

/- The header passes `acceptHeader` under its context. -/
def HeaderAccepted (params : ChainParams) (tree : HeaderTree) (n : NodeId) : Prop :=
  ∃ entry context after,
    tree.entries[n]? = some entry ∧
      tree.contextOf n params = .ok (context, after) ∧
        acceptHeader entry.header params context = .ok ()

/- From a node to a descendant, through accepted headers. -/
def AcceptedBranch (params : ChainParams) (tree : HeaderTree) : NodeId → NodeId → Prop :=
  Relation.ReflTransGen fun p n =>
    IsParent tree.view p n ∧ tree.HeaderAccepted params n

section

variable (hTab : params.Tabled K) (hSound : tree.Sound K params)

include hTab hSound

/- What the context of an entry is, if it has one. -/
theorem Sound.isContext_of_contextOf {n p : NodeId} {entry : HeaderEntry}
    (hEntry : tree.entries[n]? = some entry) (hPar : entry.parent = some p)
    (hLine : tree.Lineage p chain) {after : HeaderTree}
    (hCtx : tree.contextOf n params = .ok (context, after)) :
    IsContext K params chain entry.header context := by
  have hSelf : tree.Lineage n (entry.header :: chain) :=
    .child (by rw [view_of_entry hEntry, hPar]) hLine
  rw [contextOf, entry_eq hEntry, ok_bind, hPar, expect_some, ok_bind,
    (hSound.fits hEntry hSelf).hash] at hCtx
  exact ((hSound.contextFor_eq_ok hTab hLine).mp hCtx).1

/- One accepted header further the median is no earlier. -/
theorem Sound.medianOf_child_le {p n : NodeId} (hLine : tree.Lineage p chain)
    (hPar : IsParent tree.view p n) (hAccepted : tree.HeaderAccepted params n) :
    ∃ header, tree.Lineage n (header :: chain) ∧
      medianOf (chainTimes chain) ≤ medianOf (chainTimes (header :: chain)) := by
  rcases hPar with ⟨header, hView⟩
  rcases view_eq_some.mp hView with ⟨entry, hEntry, rfl, hAbove⟩
  rcases hAccepted with ⟨same, context, after, hSame, hCtx, hPassed⟩
  rw [hEntry] at hSame
  cases hSame
  have hIs := hSound.isContext_of_contextOf hTab hEntry hAbove hLine hCtx
  have hTime := time_gt_of_acceptHeader hPassed
  rw [hIs.medianTimePast] at hTime
  exact ⟨entry.header, .child hView hLine, medianOf_chainTimes_le hLine.ne_nil hTime⟩

/- By induction on the branch. -/
theorem Sound.medianOf_branch_le {e d : NodeId} (hLine : tree.Lineage e chain)
    (hBranch : tree.AcceptedBranch params e d) :
    ∃ branch, tree.Lineage d branch ∧ chain.length ≤ branch.length ∧
      medianOf (chainTimes chain) ≤ medianOf (chainTimes branch) := by
  induction hBranch with
  | refl => exact ⟨chain, hLine, le_rfl, Std.le_refl _⟩
  | tail _ hStep ih =>
    rcases ih with ⟨branch, hSoFar, hLen, hMedian⟩
    rcases hSound.medianOf_child_le hTab hSoFar hStep.1 hStep.2 with ⟨header, hNext, hLe⟩
    refine ⟨_, hNext, ?_, Std.le_trans hMedian hLe⟩
    rw [length_cons]
    omega

end

/- What is not refused stands on accepted headers only. -/
theorem Healthy.acceptedBranch (hTab : params.Tabled K) (hHealthy : tree.Healthy K params)
    {e d : NodeId} {status : HeaderStatus} (hAnc : Ancestor tree.view e d)
    (hStat : tree.statusAt d = some status) (hSpared : status.isTerminal = false) :
    tree.AcceptedBranch params e d := by
  induction hAnc generalizing status with
  | refl => exact .refl
  | @tail p n _ hPar ih =>
    rcases hHealthy.spared_of_ancestor (.single hPar) hStat hSpared with
      ⟨above, hAbove, hAboveSpared⟩
    refine .tail (ih hAbove hAboveSpared) ⟨hPar, ?_⟩
    rcases hPar with ⟨header, hView⟩
    rcases view_eq_some.mp hView with ⟨entry, hEntry, rfl, hUp⟩
    rcases statusAt_eq_some.mp hAbove with ⟨parent, hParentEntry, _⟩
    rcases hHealthy.sound.exists_lineage hParentEntry with ⟨chain, hLine⟩
    have hSelf : tree.Lineage n (entry.header :: chain) := .child hView hLine
    have hEntrySpared : entry.status.isTerminal = false := by
      rw [statusAt_of_entry hEntry, Option.some.injEq] at hStat
      rwa [hStat]
    rcases hHealthy.contextOf_eq hTab hEntry hEntrySpared hSelf hLine.ne_nil with
      ⟨context, period, hCtx, hIs⟩
    rcases hHealthy.vetted hStat hSpared hSelf hLine.ne_nil with ⟨other, hOther, hPassed⟩
    rw [hOther.unique hIs] at hPassed
    exact ⟨entry, context, _, hEntry, hCtx, hPassed⟩

end HeaderTree

open HeaderTree

/-
  Along a branch of accepted headers the median time past does not go back. So a transaction that is
  final on top of the branch's first block is final on top of its last, and relative locks satisfied
  in the context of a block there stay satisfied.
-/
theorem medianTimePast_branch {K : Primitives} {params : ChainParams} (hTab : params.Tabled K)
    {cap : Nat} {log : List (Call × Answer)} {tree : HeaderTree}
    (hRun : TreeRun K params cap log tree) {e d : NodeId} {entry : HeaderEntry}
    (hEntry : tree.entries[e]? = some entry) (hBranch : tree.AcceptedBranch params e d) :
    ∃ earlier later,
      tree.medianTimePastAt e = .ok earlier ∧
        tree.medianTimePastAt d = .ok later ∧
        earlier ≤ later ∧
        (∀ (tx : Transaction) (height above : Height),
          height ≤ above → isFinal tx height earlier = true → isFinal tx above later = true) ∧
        ∀ (tx : Transaction) (bases : List RelativeLockBase)
          (header child : Header) (context descendant : Context)
          (after ahead : HeaderTree),
          tree.contextFor e (K.blockHash header) header params = .ok (context, after) →
            tree.contextFor d (K.blockHash child) child params = .ok (descendant, ahead) →
              context.rules.csvActive = true →
                (sequenceLocksSatisfied tx bases context : Result Empty Bool) = .ok true →
                  (sequenceLocksSatisfied tx bases descendant : Result Empty Bool) = .ok true := by
  have hSound := (hRun.healthy hTab).sound
  rcases hSound.exists_lineage hEntry with ⟨chain, hLine⟩
  rcases hSound.medianOf_branch_le hTab hLine hBranch with ⟨branch, hEnd, hLen, hMedian⟩
  refine ⟨_, _, Sound.medianTimePastAt_eq hLine, Sound.medianTimePastAt_eq hEnd, hMedian, ?_, ?_⟩
  · intro tx height above hAbove hFinal
    exact isFinal_mono hAbove hMedian hFinal
  · intro tx bases header child context descendant after ahead
      hCtx hDescendant hActive hSatisfied
    have hIs := ((hSound.contextFor_eq_ok hTab hLine).mp hCtx).1
    have hIsLater := ((hSound.contextFor_eq_ok hTab hEnd).mp hDescendant).1
    refine sequenceLocksSatisfied_mono ?_ ?_ hActive hSatisfied
    · rwa [← Subtype.coe_le_coe, hIs.height, hIsLater.height]
    · rwa [hIs.medianTimePast, hIsLater.medianTimePast]

--------
-- Two Headers on Genesis
--------

namespace SmallChain

/- The window of `top` holds the times of all three. -/
theorem climb_returns :
    (do
      let tree ← climb
      let first ← tree.medianTimePastAt NodeId.genesis
      let last ← tree.medianTimePastAt tree.bestHeader
      return (tree.bestHeader, first.toNat, last.toNat)) =
    .ok (2, 1296688602, 1296688603) := by
  decide +kernel

theorem medianTimePast_branch_top :
    ∃ log tree earlier later,
      TreeRun crypto.primitives params 8 log tree ∧
        tree.AcceptedBranch params NodeId.genesis 2 ∧
        tree.medianTimePastAt NodeId.genesis = .ok earlier ∧
        tree.medianTimePastAt 2 = .ok later ∧
        earlier.toNat = 1296688602 ∧
        later.toNat = 1296688603 ∧
        earlier ≤ later := by
  have hClimb := climb_returns
  simp only [bind_eq_ok, pure_inj, Prod.mk.injEq] at hClimb
  rcases hClimb with ⟨tree, hTree, first, hFst, last, hLast, hBest, hValues⟩
  rcases run_of_grown hTree with ⟨log, hRun⟩
  have hHealthy := hRun.healthy tabled
  -- the best header stands on genesis and is not refused
  rcases hHealthy.judged.best.spared with ⟨status, hStat, hSpared⟩
  rcases hHealthy.exists_best with ⟨_, chain, _, hLine⟩
  have hAnc : Ancestor tree.view NodeId.genesis tree.bestHeader :=
    (Arena.Lineage.ancestor_iff hHealthy.sound.distinct hHealthy.sound.root hLine).mpr (by
          rcases hHealthy.sound.grown.root_suffix hLine with ⟨_, hRoot, hSuf⟩
          rwa [hHealthy.sound.root.unique hRoot])
  have hBranch := hHealthy.acceptedBranch tabled hAnc hStat hSpared
  rcases Lineage.entry hHealthy.sound.root with ⟨entry, _, hEntry, _⟩
  rcases medianTimePast_branch tabled hRun hEntry hBranch with
    ⟨earlier, later, hEarlier, hLater, hLe, _⟩
  rw [hFst] at hEarlier
  rw [hLast] at hLater
  cases hEarlier
  cases hLater
  rw [hBest] at hLast hBranch
  exact ⟨_, tree, first, last, hRun, hBranch, hFst, hLast, hValues.1, hValues.2, hLe⟩

end SmallChain

end Bitmigo
