import Bitmigo.Chain.Verdict

/-
  What holds of the header tree between any two calls.

  Key definitions include:
    * `HeaderTree.Judged`, the statuses, the two chains and the marks agree
    * `HeaderTree.Vetted`, what is not refused has a context
    * `HeaderTree.Healthy`, all of it

  Key theorems include:
    * `HeaderTree.Judged.connected`, `HeaderTree.Judged.refused` and the rest, every call keeps the
      agreement
    * `HeaderTree.Healthy.contextOf_eq`
-/

namespace Bitmigo

open Result List Arena Option

namespace HeaderTree

variable {K : Primitives} {params : ChainParams} {tree after : HeaderTree}
variable {n node : Nat} {status old : HeaderStatus} {invalidity : Invalidity} {entry : HeaderEntry}

/- The statuses, the two chains and the marks agree. -/
structure Judged (tree : HeaderTree) : Prop where
  root : ∀ {n : Nat}, tree.statusAt n = some .genesis ↔ n = 0
  consistent : ∀ {n p : Nat} {entry : HeaderEntry},
      tree.entries[n]? = some entry → entry.parent = some p →
        Consistent entry.status (tree.refusalAt p)
  active : ∀ {n : Nat} {status : HeaderStatus},
      tree.statusAt n = some status →
        (status.isConnected = true ↔ Ancestor tree.view n tree.tip)
  tip : (tree.statusAt tree.tip).isSome
  best : tree.IsBest tree.len tree.bestHeader
  marked : tree.Marked

/- What is not refused has a context and passed under it. -/
def Vetted (K : Primitives) (params : ChainParams) (tree : HeaderTree) : Prop :=
  ∀ {n : Nat} {status : HeaderStatus} {header : Header}
    {chain : List Header},
    tree.statusAt n = some status →
      status.isTerminal = false →
        tree.Lineage n (header :: chain) → chain ≠ [] →
          ∃ context, IsContext K params chain header context ∧
            acceptHeader header params context = .ok ()

--------
-- Reading the Statuses
--------

theorem statusAt_lt_len (hStat : tree.statusAt n = some status) : n < tree.len := by
  rcases statusAt_eq_some.mp hStat with ⟨_, hEntry, _⟩
  exact lt_len hEntry

theorem statusAt_isSome_iff : (tree.statusAt n).isSome ↔ (tree.view n).isSome := by
  simp [statusAt, view]

theorem refusalAt_eq_none_iff (hStat : tree.statusAt n = some status) :
    tree.refusalAt n = none ↔ status.isTerminal = false := by
  rcases statusAt_eq_some.mp hStat with ⟨entry, hEntry, rfl⟩
  rw [refusalAt_of_entry hEntry, ← not_isSome_iff_eq_none,
    HeaderEntry.refusal_isSome, Bool.not_eq_true]

theorem refusalAt_congr (hSame : tree.SameArena after)
    (hStat : after.statusAt n = tree.statusAt n) : after.refusalAt n = tree.refusalAt n := by
  cases hEntry : after.entries[n]? with
  | none =>
    have hNone : tree.entries[n]? = none := by simpa [statusAt, hEntry, eq_comm] using hStat
    rw [refusalAt, refusalAt, hEntry, hNone]
  | some entry =>
    rcases hSame.entry hEntry with ⟨old, hOld, hPlace⟩
    rw [statusAt_of_entry hEntry, statusAt_of_entry hOld, Option.some.injEq] at hStat
    simp only [HeaderEntry.place, HeaderEntry.mk.injEq] at hPlace
    rw [refusalAt_of_entry hEntry, refusalAt_of_entry hOld,
      HeaderEntry.refusal, HeaderEntry.refusal, hStat, hPlace.2.1]

/- Refused or not, work, and so the best header. -/
theorem IsBest.congr {count best : Nat} (hBest : tree.IsBest count best)
    (hSame : tree.SameArena after) (hTerm :
      ∀ n : Nat, (after.statusAt n).map (·.isTerminal) = (tree.statusAt n).map (·.isTerminal)) :
    after.IsBest count best := by
  constructor
  · rcases hBest.spared with ⟨status, hStat, hSpared⟩
    have hAt := hTerm best
    rw [hStat, map_some, hSpared] at hAt
    exact map_eq_some_iff.mp hAt
  · intro n status hn hStat hSpared
    have hAt := hTerm n
    rw [hStat, map_some, hSpared] at hAt
    rcases map_eq_some_iff.mp hAt.symm with ⟨old, hOld, hOldSpared⟩
    rw [hSame.workAt, hSame.workAt]
    exact hBest.most hn hOld hOldSpared

namespace Judged

theorem bestHeader_lt (hJudged : tree.Judged) : tree.bestHeader < tree.len := by
  rcases hJudged.best.spared with ⟨_, hStat, _⟩
  exact statusAt_lt_len hStat

/- The active chain has no gaps. -/
theorem grounded (hJudged : tree.Judged) : tree.Grounded := by
  intro n p entry above hEntry hPar hAbove hConn
  have hActive := (hJudged.active (statusAt_of_entry hEntry)).mp hConn
  refine (hJudged.active (statusAt_of_entry hAbove)).mpr ?_
  refine Relation.ReflTransGen.head ?_ hActive
  exact ⟨entry.header, by rw [← hPar, view_of_entry hEntry]⟩

/- What is not refused has no refused parent. -/
theorem spared_parent (hJudged : tree.Judged) {p : Nat} {above : HeaderEntry}
    (hEntry : tree.entries[n]? = some entry) (hPar : entry.parent = some p)
    (hAbove : tree.entries[p]? = some above) (hSpared : entry.status.isTerminal = false) :
    above.status.isTerminal = false := by
  have hNone := (hJudged.consistent hEntry hPar).of_spared hSpared
  rwa [refusalAt_eq_none_iff (statusAt_of_entry hAbove)] at hNone

end Judged

--------
-- The Scratch Buffer and the Marks
--------

theorem Judged.withPeriod (hJudged : tree.Judged) (period : List HeaderFacts) :
    { tree with period := period }.Judged :=
  ⟨hJudged.root, hJudged.consistent, hJudged.active,
    hJudged.tip, ⟨hJudged.best.spared, hJudged.best.most⟩,
    ⟨hJudged.marked.nodup, hJudged.marked.mem_iff⟩⟩

theorem Judged.cleared (hJudged : tree.Judged) : tree.cleared.Judged := by
  have hSame := @sameArena_cleared tree
  have hStat := @statusAt_cleared tree
  refine ⟨?_, ?_, ?_, ?_, ?_, marked_cleared⟩
  · intro n
    rw [hStat]
    exact hJudged.root
  · intro n p entry hEntry hPar
    rcases hSame.entry hEntry with ⟨old, hOld, hPlace⟩
    have hAt := hStat n
    rw [statusAt_of_entry hEntry, statusAt_of_entry hOld, Option.some.injEq] at hAt
    simp only [HeaderEntry.place, HeaderEntry.mk.injEq] at hPlace
    rw [hAt, refusalAt_congr hSame (hStat p)]
    exact hJudged.consistent hOld (hPlace.2.2.2.2.1.trans hPar)
  · intro n status hAt
    rw [hStat] at hAt
    rw [hSame.view]
    exact hJudged.active hAt
  · rw [hStat]
    exact hJudged.tip
  · rw [hSame.len]
    refine hJudged.best.congr hSame fun n => by rw [hStat]

/- No header comes or moves, and no refused block is spared. -/
structure Kept (tree after : HeaderTree) : Prop where
  view : after.view = tree.view
  spared : ∀ {n : Nat} {status},
      after.statusAt n = some status →
        status.isTerminal = false → ∃ old, tree.statusAt n = some old ∧ old.isTerminal = false

theorem Vetted.of_kept (hVetted : tree.Vetted K params) (hKept : tree.Kept after) :
    after.Vetted K params := by
  intro n status header chain hStat hNot hLine hNe
  rcases hKept.spared hStat hNot with ⟨old, hOld, hOldNot⟩
  rw [HeaderTree.Lineage, hKept.view] at hLine
  exact hVetted hOld hOldNot hLine hNe

--------
-- One Status
--------

/- What a change from one spared status to another keeps. -/
theorem Judged.restated (hJudged : tree.Judged) (hOld : tree.statusAt node = some old)
    (hOldSpared : old.isTerminal = false) (hSpared : status.isTerminal = false) (hNode : node ≠ 0)
    (hStat : status ≠ .genesis) {tip : NodeId} (hTip : (tree.statusAt tip).isSome)
    (hActive : ∀ {n : Nat} {s : HeaderStatus}, (tree.restated node status).statusAt n = some s →
          (s.isConnected = true ↔ Ancestor tree.view n tip)) :
    { tree.restated node status with tip := tip }.Judged := by
  have hLt := statusAt_lt_len hOld
  have hSame := @sameArena_restated tree node status
  have hAt := fun n =>
    @statusAt_restated tree node n status hLt
  have hRefusal : ∀ n, (tree.restated node status).refusalAt n = tree.refusalAt n := by
    intro n
    by_cases hn : n = node
    · subst hn
      have hNew := hAt n
      rw [if_pos rfl] at hNew
      rw [(refusalAt_eq_none_iff hNew).mpr hSpared, (refusalAt_eq_none_iff hOld).mpr hOldSpared]
    · refine refusalAt_congr hSame ?_
      rw [hAt, if_neg hn]
  refine ⟨?_, ?_, ?_, ?_, ?_, ?_⟩
  · intro n
    show (tree.restated node status).statusAt n = _ ↔ _
    rw [hAt]
    split
    · rename_i hn
      subst hn
      simp [hStat, hNode]
    · exact hJudged.root
  · intro n p entry hEntry hPar
    change (tree.restated node status).entries[n]? = some entry at hEntry
    show Consistent entry.status ((tree.restated node status).refusalAt p)
    rw [hRefusal]
    rcases hSame.entry hEntry with ⟨before, hBefore, hPlace⟩
    simp only [HeaderEntry.place, HeaderEntry.mk.injEq] at hPlace
    have hConsistent := hJudged.consistent hBefore (hPlace.2.2.2.2.1.trans hPar)
    have hNew := hAt n
    rw [statusAt_of_entry hEntry] at hNew
    by_cases hn : n = node
    · subst hn
      rw [if_pos rfl, Option.some.injEq] at hNew
      rw [statusAt_of_entry hBefore, Option.some.injEq] at hOld
      rw [hOld] at hConsistent
      rw [hNew, hConsistent.of_spared hOldSpared]
      exact consistent_of_none hSpared
    · rw [if_neg hn, statusAt_of_entry hBefore, Option.some.injEq] at hNew
      rwa [hNew]
  · intro n s hStat
    show s.isConnected = true ↔ Ancestor (tree.restated node status).view n tip
    rw [hSame.view]
    exact hActive hStat
  · show ((tree.restated node status).statusAt tip).isSome
    rwa [statusAt_isSome_iff, hSame.view, ← statusAt_isSome_iff]
  · have hBest :
        (tree.restated node status).IsBest (tree.restated node status).len tree.bestHeader := by
      rw [hSame.len]
      refine hJudged.best.congr hSame fun n => ?_
      rw [hAt]
      split
      · rename_i hn
        rw [hn, hOld, map_some, map_some, hSpared, hOldSpared]
      · rfl
    exact ⟨hBest.spared, hBest.most⟩
  · have hMarked := hJudged.marked.restated hLt status
    exact ⟨hMarked.nodup, hMarked.mem_iff⟩

theorem Judged.blockChecked (hJudged : tree.Judged) {node : NodeId} {location : BlockLocation}
    (hCall : tree.blockChecked node location = .ok after) : after.Judged := by
  rcases (blockChecked_eq_ok hJudged.marked).mp hCall with ⟨hStat, rfl⟩
  have hLt := statusAt_lt_len hStat
  have hNode : node ≠ 0 := by
    rintro rfl
    rw [hJudged.root.mpr rfl] at hStat
    cases hStat
  have hNew : HeaderStatus.blockChecked location ≠ .genesis := nofun
  refine hJudged.restated hStat rfl rfl hNode hNew hJudged.tip ?_
  intro n s hAt
  rw [statusAt_restated hLt] at hAt
  split at hAt
  · rename_i hn
    subst hn
    cases hAt
    rw [← hJudged.active hStat]
    simp [HeaderStatus.isConnected]
  · exact hJudged.active hAt

theorem Judged.connected (hJudged : tree.Judged) {node : NodeId} {undo : UndoLocation}
    (hCall : tree.connected node undo = .ok after) : after.Judged := by
  rcases (connected_eq_ok hJudged.marked).mp hCall with
    ⟨entry, location, hEntry, hPar, hStat, rfl⟩
  have hAtNode := statusAt_of_entry hEntry
  have hLt := statusAt_lt_len hAtNode
  have hChild : IsParent tree.view tree.tip node :=
    ⟨entry.header, by rw [← hPar, view_of_entry hEntry]⟩
  have hNode : node ≠ 0 := by
    rintro rfl
    rw [hJudged.root.mpr rfl, hStat] at hAtNode
    cases hAtNode
  have hSome : (tree.statusAt node).isSome := by
    rw [hAtNode]
    rfl
  have hNew : HeaderStatus.connected location undo ≠ .genesis := nofun
  refine hJudged.restated hAtNode (by rw [hStat]; rfl) rfl hNode hNew hSome ?_
  intro n s hAt
  rw [statusAt_restated hLt] at hAt
  rw [hChild.ancestor_iff]
  split at hAt
  · rename_i hn
    cases hAt
    simp [HeaderStatus.isConnected, hn]
  · rename_i hn
    rw [hJudged.active hAt]
    simp [hn]

theorem Judged.disconnected (hGrown : Grown tree.view) (hJudged : tree.Judged) {node : NodeId}
    (hCall : tree.disconnected node = .ok after) : after.Judged := by
  rcases (disconnected_eq_ok hJudged.marked).mp hCall with
    ⟨entry, location, undo, p, rfl, hEntry, hStat, hPar, rfl⟩
  have hAtNode := statusAt_of_entry hEntry
  have hLt := statusAt_lt_len hAtNode
  have hView := view_of_entry hEntry
  rw [hPar] at hView
  have hChild : IsParent tree.view p tree.tip := ⟨entry.header, hView⟩
  have hBelow := hGrown.parent hView
  have hNode : tree.tip ≠ 0 := by
    intro hZero
    rw [hZero, hJudged.root.mpr rfl, hStat] at hAtNode
    cases hAtNode
  have hSome : (tree.statusAt p).isSome := statusAt_isSome_iff.mpr hBelow.2
  have hNew : HeaderStatus.blockChecked location ≠ .genesis := nofun
  refine hJudged.restated hAtNode (by rw [hStat]; rfl) rfl hNode hNew hSome ?_
  intro n s hAt
  rw [statusAt_restated hLt] at hAt
  split at hAt
  · rename_i hn
    subst hn
    cases hAt
    simp only [HeaderStatus.isConnected, Bool.false_eq_true, false_iff]
    intro hAnc
    have hLe := hAnc.le hGrown
    exact absurd hBelow.1 (Nat.not_lt.mpr hLe)
  · rename_i hn
    rw [hJudged.active hAt, hChild.ancestor_iff]
    simp [hn]

--------
-- A Verdict
--------

/- The node itself refused, before its verdict spreads. -/
theorem Judged.grounded_restated (hJudged : tree.Judged) (hOld : tree.statusAt node = some old)
    (hIdle : old.isConnected = false) (invalidity : Invalidity) :
    (tree.restated node (.invalid invalidity)).Grounded := by
  have hLt := statusAt_lt_len hOld
  intro n p entry above hEntry hPar hAbove hConn
  have hSame := @sameArena_restated tree node (.invalid invalidity)
  rcases hSame.entry hEntry with ⟨before, hBefore, hPlace⟩
  rcases hSame.entry hAbove with ⟨below, hBelow, _⟩
  simp only [HeaderEntry.place, HeaderEntry.mk.injEq] at hPlace
  have hAt := statusAt_of_entry hEntry
  rw [statusAt_restated hLt] at hAt
  split at hAt
  · rw [← Option.some.inj hAt] at hConn
    cases hConn
  · rw [statusAt_of_entry hBefore, Option.some.injEq] at hAt
    rw [← hAt] at hConn
    have hGround := hJudged.grounded hBefore (hPlace.2.2.2.2.1.trans hPar) hBelow hConn
    have hAbove' := statusAt_of_entry hAbove
    rw [statusAt_restated hLt] at hAbove'
    split at hAbove'
    · rename_i hp
      subst hp
      rw [statusAt_of_entry hBelow, Option.some.injEq] at hOld
      rw [hOld, hIdle] at hGround
      cases hGround
    · rw [statusAt_of_entry hBelow, Option.some.injEq] at hAbove'
      rwa [← hAbove']

/- What a refusal does to the tree. -/
structure Refused (tree : HeaderTree) (node : Nat) (invalidity : Invalidity)
    (after : HeaderTree) : Prop where
  same : tree.SameArena after
  tip : after.tip = tree.tip
  status : ∀ n : Nat, ∀ old, tree.entries[n]? = some old →
      after.statusAt n =
        some (if n = node then .invalid invalidity
          else if node < n then after.verdictFor old
          else old.status)
  active : ∀ n : Nat, ∀ old, tree.entries[n]? = some old →
      old.status.isConnected = true → after.statusAt n = some old.status
  best : after.IsBest after.len after.bestHeader
  marked : after.Marked
  dirty : ∀ n : Nat, n ∈ after.dirty ↔ n = node ∨ n ∈ tree.dirty

theorem invalidate_eq (hSound : tree.Sound K params) (hJudged : tree.Judged)
    (hOld : tree.statusAt node = some old) (hSpared : old.isTerminal = false)
    (hIdle : old.isConnected = false) (invalidity : Invalidity) :
    ∃ after, tree.invalidate node invalidity = .ok after ∧ tree.Refused node invalidity after := by
  have hLt := statusAt_lt_len hOld
  rcases statusAt_eq_some.mp hOld with ⟨entry, hEntry, rfl⟩
  have hSame := @sameArena_restated tree node (.invalid invalidity)
  have hSound' := hSound.of_sameArena hSame
  have hNode : node ≠ 0 := by
    rintro rfl
    rw [hJudged.root.mpr rfl, Option.some.injEq] at hOld
    rw [← hOld] at hIdle
    cases hIdle
  have hStart : ∀ n : Nat, ∀ before, n ≠ node → tree.entries[n]? = some before →
      (tree.restated node (.invalid invalidity)).entries[n]? = some before := by
    intro n before hn hBefore
    simp [restated, hBefore, Ne.symm hn]
  rcases statusAt_eq_some.mp (hJudged.root.mpr rfl) with ⟨genesis, hGenesis, hStat⟩
  rcases @propagateAndReselect_spec (tree.restated node (.invalid invalidity)) node hSound'.grown
      (hJudged.grounded_restated hOld hIdle invalidity)
      hSound'.len_le hSound'.cap_le genesis
      (hStart 0 genesis hNode.symm hGenesis)
      (by rw [hStat]; rfl) with
    ⟨judged, best, hPass, hRejudged, hSettled, hActive, hBest⟩
  have hJudgedLen := hRejudged.sameArena.len
  have hMarked := hRejudged.marked (hJudged.marked.restated hLt (.invalid invalidity))
  rcases bind_eq_ok.mp (setStatus_markDirty hJudged.marked hEntry (.invalid invalidity)) with
    ⟨middle, hSet, hMark⟩
  refine ⟨{ judged with bestHeader := best }, ?_, ?_⟩
  · rw [invalidate, entry_eq hEntry, ok_bind, assert_of hSpared, ok_bind,
      assert_of hIdle, ok_bind, hSet, ok_bind, hMark, ok_bind, hPass]
  · have hSameAfter := hSame.trans hRejudged.sameArena
    refine ⟨⟨hSameAfter.entries, hSameAfter.index,
      hSameAfter.cap⟩, ?_, ?_, ?_, ?_, ⟨hMarked.nodup, hMarked.mem_iff⟩, ?_⟩
    · show judged.tip = tree.tip
      rw [hRejudged.frame]
      rfl
    · intro n before hBefore
      show judged.statusAt n = some (if n = node then _ else if node < n then
          judged.verdictFor before else _)
      by_cases hn : n = node
      · subst hn
        rw [hEntry] at hBefore
        cases hBefore
        rcases hSame.symm.entry hEntry with ⟨new, hNew, _⟩
        have hAt := statusAt_of_entry hNew
        rw [statusAt_restated hLt, if_pos rfl, Option.some.injEq] at hAt
        rw [hSettled n new hNew, if_neg (Nat.lt_irrefl _), if_pos rfl, hAt]
      · rw [hSettled n before (hStart n before hn hBefore), if_neg hn]
    · intro n before hBefore hConn
      have hn : n ≠ node := by
        rintro rfl
        rw [hEntry] at hBefore
        cases hBefore
        rw [hIdle] at hConn
        cases hConn
      exact hActive n before (hStart n before hn hBefore) hConn
    · have hLenEq : judged.len = tree.len := hSameAfter.len
      show HeaderTree.IsBest _ judged.len best
      rw [hLenEq, ← hSame.len]
      exact ⟨hBest.spared, hBest.most⟩
    · intro n
      show n ∈ judged.dirty ↔ _
      have hDirty : judged.dirty = (tree.restated node (.invalid invalidity)).dirty := by
        rw [hRejudged.frame]
      rw [hDirty, (hJudged.marked.restated hLt _).mem_iff, dirtyAt_restated hLt, Bool.or_eq_true,
        decide_eq_true_eq, hJudged.marked.mem_iff]

/- A refusal of a spared block off the active chain. -/
theorem invalidate_cases (hSound : tree.Sound K params) (hJudged : tree.Judged) {node : NodeId}
    (hCall : tree.invalidate node invalidity = .ok after) :
    ∃ old, tree.statusAt node = some old ∧
      old.isTerminal = false ∧ old.isConnected = false ∧ tree.Refused node invalidity after := by
  have hRet := hCall
  simp only [invalidate, entry, bind_eq_ok, expect_eq_ok, assert_eq_ok, exists_const] at hRet
  rcases hRet with ⟨entry, hEntry, hSpared, hIdle, _⟩
  have hOld := statusAt_of_entry hEntry
  rcases invalidate_eq hSound hJudged hOld hSpared hIdle invalidity with ⟨other, hOther, hRefused⟩
  rw [hCall] at hOther
  cases hOther
  exact ⟨_, hOld, hSpared, hIdle, hRefused⟩

/- A refusal leaves terminal statuses as they were. -/
theorem Refused.terminal (hRefused : tree.Refused node invalidity after) {old : HeaderEntry}
    (hOld : tree.entries[n]? = some old) (hNe : n ≠ node)
    (hTerm : old.status.isTerminal = true) : after.statusAt n = some old.status := by
  rw [hRefused.status n old hOld, if_neg hNe]
  split
  · unfold verdictFor
    split
    · exact congrArg some (inherited_of_terminal hTerm _)
    · rfl
  · rfl

theorem inherited_cases (status : HeaderStatus) (above : Option BlockHash) :
    inherited status above = status ∨
      status.isTerminal = false ∧ ∃ culprit, inherited status above = .invalidAncestor culprit := by
  cases above with
  | none => exact .inl (inherited_none _)
  | some culprit =>
    cases hTerm : status.isTerminal with
    | true => exact .inl (inherited_of_terminal hTerm _)
    | false => exact .inr ⟨rfl, culprit, inherited_some hTerm _⟩

/- A status after a refusal: kept, or refused. -/
theorem Refused.status_cases (hRefused : tree.Refused node invalidity after)
    (hStat : after.statusAt n = some status) :
    tree.statusAt n = some status ∨ status.isTerminal = true ∧ status.isConnected = false := by
  rcases statusAt_eq_some.mp hStat with ⟨new, hNew, _⟩
  rcases hRefused.same.entry hNew with ⟨old, hOld, _⟩
  have hAt := hRefused.status n old hOld
  rw [hStat, Option.some.injEq] at hAt
  rw [statusAt_of_entry hOld]
  split at hAt
  · exact .inr (by rw [hAt]; exact ⟨rfl, rfl⟩)
  · split at hAt
    · unfold verdictFor at hAt
      split at hAt
      · rename_i p _
        rcases inherited_cases old.status (after.refusalAt p) with hSame | ⟨_, culprit, hCulprit⟩
        · rw [hSame] at hAt
          exact .inl (by rw [hAt])
        · rw [hCulprit] at hAt
          exact .inr (by rw [hAt]; exact ⟨rfl, rfl⟩)
      · exact .inl (by rw [hAt])
    · exact .inl (by rw [hAt])

section

variable (hGrown : Grown tree.view) (hJudged : tree.Judged)
variable (hOld : tree.statusAt node = some old) (hSpared : old.isTerminal = false)
variable (hRefused : tree.Refused node invalidity after)

include hGrown hJudged hOld hSpared hRefused

theorem Refused.consistent {p : Nat} (hEntry : after.entries[n]? = some entry)
    (hPar : entry.parent = some p) : Consistent entry.status (after.refusalAt p) := by
  have hSame := hRefused.same
  rcases hSame.entry hEntry with ⟨before, hBefore, hPlace⟩
  simp only [HeaderEntry.place, HeaderEntry.mk.injEq] at hPlace
  have hParentBefore := hPlace.2.2.2.2.1.trans hPar
  have hView := view_of_entry hBefore
  rw [hParentBefore] at hView
  rcases hGrown.parent hView with ⟨hLess, hSome⟩
  rcases isSome_iff_exists.mp hSome with ⟨⟨_, _⟩, hAboveView⟩
  rcases view_eq_some.mp hAboveView with ⟨above, hAbove, _⟩
  have hConsistent := hJudged.consistent hBefore hParentBefore
  have hAt := hRefused.status n before hBefore
  rw [statusAt_of_entry hEntry, Option.some.injEq] at hAt
  -- a parent refused before is refused in the same words
  have hKept : tree.refusalAt p ≠ none → after.refusalAt p = tree.refusalAt p := by
    intro hNe
    have hTerm : above.status.isTerminal = true := by
      rwa [ne_eq, refusalAt_eq_none_iff (statusAt_of_entry hAbove), Bool.not_eq_false] at hNe
    have hp : p ≠ node := by
      rintro rfl
      rw [statusAt_of_entry hAbove, Option.some.injEq] at hOld
      rw [hOld, hSpared] at hTerm
      cases hTerm
    refine refusalAt_congr hSame ?_
    rw [hRefused.terminal hAbove hp hTerm, statusAt_of_entry hAbove]
  by_cases hn : n = node
  · rw [if_pos hn] at hAt
    rw [hAt]
    trivial
  · rw [if_neg hn] at hAt
    by_cases hLater : node < n
    · rw [if_pos hLater, verdictFor, hParentBefore] at hAt
      dsimp only at hAt
      rw [hAt]
      cases hTerm : before.status.isTerminal with
      | true =>
        rw [inherited_of_terminal hTerm]
        cases hStat : before.status with
        | invalidAncestor culprit =>
          rw [hStat] at hConsistent
          have hSomeRefusal : tree.refusalAt p = some culprit := hConsistent
          rw [hKept (by simp [hSomeRefusal]), hSomeRefusal]
          rfl
        | invalid _ => trivial
        | genesis | headerAccepted | blockChecked _ | connected _ _ =>
          simp [hStat, HeaderStatus.isTerminal] at hTerm
      | false =>
        cases after.refusalAt p with
        | none =>
          rw [inherited_none]
          exact consistent_of_none hTerm
        | some culprit =>
          rw [inherited_some hTerm]
          rfl
    · rw [if_neg hLater] at hAt
      have hSamePast : after.refusalAt p = tree.refusalAt p := by
        refine refusalAt_congr hSame ?_
        rw [hRefused.status p above hAbove,
          if_neg (by omega), if_neg (by omega), statusAt_of_entry hAbove]
      rwa [hAt, hSamePast]

theorem Judged.refused : after.Judged := by
  have hSame := hRefused.same
  refine ⟨?_, ?_, ?_, ?_, hRefused.best, hRefused.marked⟩
  · intro n
    constructor
    · intro hStat
      rcases hRefused.status_cases hStat with hBefore | ⟨hTerm, _⟩
      · exact hJudged.root.mp hBefore
      · cases hTerm
    · rintro rfl
      have hGenesis := hJudged.root.mpr rfl
      rcases statusAt_eq_some.mp hGenesis with ⟨genesis, hEntry, hStat⟩
      rw [hRefused.active 0 genesis hEntry (by rw [hStat]; rfl), hStat]
  · exact hRefused.consistent hGrown hJudged hOld hSpared
  · intro n status hStat
    rw [hSame.view, hRefused.tip]
    rcases hRefused.status_cases hStat with hBefore | ⟨_, hIdle⟩
    · exact hJudged.active hBefore
    · rcases statusAt_eq_some.mp hStat with ⟨new, hNew, _⟩
      rcases hSame.entry hNew with ⟨before, hBefore, _⟩
      have hBeforeAt := statusAt_of_entry hBefore
      rw [← hJudged.active hBeforeAt]
      constructor
      · intro hConn
        rw [hIdle] at hConn
        cases hConn
      · intro hConn
        have hKept := hRefused.active n before hBefore hConn
        rw [hStat, Option.some.injEq] at hKept
        rwa [hKept]
  · rw [hRefused.tip, statusAt_isSome_iff, hSame.view, ← statusAt_isSome_iff]
    exact hJudged.tip

end

--------
-- One Entry More
--------

theorem getElem?_extended_of_lt (hLt : n < tree.len) (entry : HeaderEntry) :
    (tree.extended entry).entries[n]? = tree.entries[n]? :=
  getElem?_append_left hLt

theorem getElem?_extended_len (entry : HeaderEntry) :
    (tree.extended entry).entries[tree.len]? = some entry :=
  getElem?_extended.mpr (.inr ⟨rfl, rfl⟩)

theorem statusAt_extended :
    (tree.extended entry).statusAt n = some status ↔
      tree.statusAt n = some status ∨ n = tree.len ∧ entry.status = status := by
  simp only [statusAt_eq_some, getElem?_extended]
  constructor
  · rintro ⟨found, hOld | ⟨rfl, rfl⟩, hStat⟩
    · exact .inl ⟨found, hOld, hStat⟩
    · exact .inr ⟨rfl, hStat⟩
  · rintro (⟨found, hOld, hStat⟩ | ⟨rfl, hStat⟩)
    · exact ⟨found, .inl hOld, hStat⟩
    · exact ⟨entry, .inr ⟨rfl, rfl⟩, hStat⟩

theorem IsBest.extended (hBest : tree.IsBest tree.len tree.bestHeader) (entry : HeaderEntry) :
    (tree.extended entry).IsBest (tree.extended entry).len (tree.extended entry).bestHeader := by
  have hLen : (tree.extended entry).len = tree.len + 1 := by simp [HeaderTree.extended, len]
  rcases hBest.spared with ⟨status, hStat, hSpared⟩
  have hBestLt := statusAt_lt_len hStat
  have hOld : ∀ n, n < tree.len → (tree.extended entry).workAt n = tree.workAt n := by
    intro n hn
    rw [workAt, workAt, getElem?_extended_of_lt hn]
  have hNew : (tree.extended entry).workAt tree.len = U256.beNat entry.chainwork :=
    workAt_eq (getElem?_extended_len entry)
  rw [hLen]
  by_cases hBetter :
      entry.status.isTerminal = false ∧ tree.workAt tree.bestHeader < U256.beNat entry.chainwork
  · have hChosen : (tree.extended entry).bestHeader = tree.len := if_pos hBetter
    rw [hChosen]
    refine ⟨⟨entry.status, statusAt_of_entry (getElem?_extended_len entry), hBetter.1⟩, ?_⟩
    intro n other hn hOther hOtherSpared
    rw [hNew]
    rcases statusAt_extended.mp hOther with hBefore | ⟨rfl, _⟩
    · have hLt := statusAt_lt_len hBefore
      have hMost := (hBest.most hLt hBefore hOtherSpared).1
      rw [hOld n hLt]
      omega
    · rw [hNew]
      exact ⟨Nat.le_refl _, fun _ => Nat.le_refl _⟩
  · have hChosen : (tree.extended entry).bestHeader = tree.bestHeader := if_neg hBetter
    rw [hChosen]
    refine ⟨⟨status, statusAt_extended.mpr (.inl hStat), hSpared⟩, ?_⟩
    intro n other hn hOther hOtherSpared
    rw [hOld _ hBestLt]
    rcases statusAt_extended.mp hOther with hBefore | ⟨rfl, rfl⟩
    · have hLt := statusAt_lt_len hBefore
      rw [hOld n hLt]
      exact hBest.most hLt hBefore hOtherSpared
    · have hNotMore : ¬ tree.workAt tree.bestHeader < U256.beNat entry.chainwork :=
        fun hMore => hBetter ⟨hOtherSpared, hMore⟩
      rw [hNew]
      exact ⟨Nat.not_lt.mp hNotMore, fun _ => hBestLt.le⟩

theorem Marked.extended (hMarked : tree.Marked) (hDirty : entry.dirty = true) :
    (tree.extended entry).Marked := by
  have hFresh : tree.len ∉ tree.dirty := fun hMem => Nat.lt_irrefl _ (hMarked.lt_len hMem)
  constructor
  · show (tree.dirty ++ [tree.len]).Nodup
    exact nodup_append.mpr ⟨hMarked.nodup, nodup_singleton _, by
        rintro n hn _ hNew rfl
        cases mem_singleton.mp hNew
        exact hFresh hn⟩
  · intro n
    show n ∈ tree.dirty ++ [tree.len] ↔ _
    rw [mem_append, mem_singleton]
    rcases Nat.lt_or_ge n tree.len with hLt | hGe
    · rw [dirtyAt, getElem?_extended_of_lt hLt, ← dirtyAt, ← hMarked.mem_iff]
      simp [hLt.ne]
    · by_cases hSame : n = tree.len
      · subst hSame
        rw [dirtyAt_of_entry (getElem?_extended_len entry), hDirty]
        simp
      · have hNone : (tree.extended entry).entries[n]? = none := by
          show (tree.entries ++ [entry])[n]? = none
          rw [List.getElem?_eq_none_iff, length_append, length_singleton]
          exact Nat.lt_of_le_of_ne hGe (Ne.symm hSame)
        rw [dirtyAt, hNone]
        simp only [hSame, or_false, map_none, getD_none, Bool.false_eq_true, iff_false]
        exact fun hMem =>
          absurd (hMarked.lt_len hMem) (Nat.not_lt.mpr hGe)

section

variable {header : Header} {parent : NodeId} {chain : List Header} {entry : HeaderEntry}

theorem Judged.extended (hSound : tree.Sound K params) (hJudged : tree.Judged)
    (hEnters : tree.Enters K header parent chain entry) (hLine : tree.Lineage parent chain)
    (hConsistent : Consistent entry.status (tree.refusalAt parent))
    (hIdle : entry.status.isConnected = false) : (tree.extended entry).Judged := by
  have hExtends := @extends_extended tree entry
  have hTipSome : (tree.view tree.tip).isSome := statusAt_isSome_iff.mp hJudged.tip
  have hRefusal : ∀ n, n < tree.len → (tree.extended entry).refusalAt n = tree.refusalAt n := by
    intro n hn
    rw [refusalAt, refusalAt, getElem?_extended_of_lt hn]
  refine ⟨?_, ?_, ?_, ?_, hJudged.best.extended entry, hJudged.marked.extended hEnters.dirty⟩
  · intro n
    rw [statusAt_extended, hJudged.root]
    constructor
    · rintro (hZero | ⟨_, hGenesis⟩)
      · exact hZero
      · rw [hGenesis] at hIdle
        cases hIdle
    · exact .inl
  · intro n p found hFound hPar
    rcases getElem?_extended.mp hFound with hOld | ⟨rfl, rfl⟩
    · have hView := view_of_entry hOld
      rw [hPar] at hView
      have hLess := (hSound.grown.parent hView).1
      rw [hRefusal p (hLess.trans (lt_len hOld))]
      exact hJudged.consistent hOld hPar
    · rw [hEnters.parent] at hPar
      cases hPar
      rcases Lineage.entry hLine with ⟨_, _, hAbove, _⟩
      rwa [hRefusal parent (lt_len hAbove)]
  · intro n status hStat
    show status.isConnected = true ↔ Ancestor (tree.extended entry).view n tree.tip
    rw [hSound.grown.ancestor_of_extends hExtends hTipSome]
    rcases statusAt_extended.mp hStat with hOld | ⟨rfl, rfl⟩
    · exact hJudged.active hOld
    · rw [hIdle]
      simp only [Bool.false_eq_true, false_iff]
      intro hAnc
      have hLe := hAnc.le hSound.grown
      rcases isSome_iff_exists.mp hJudged.tip with ⟨_, hTip⟩
      exact absurd (statusAt_lt_len hTip) (Nat.not_lt.mpr hLe)
  · rcases isSome_iff_exists.mp hJudged.tip with ⟨status, hTip⟩
    show ((tree.extended entry).statusAt tree.tip).isSome
    rw [statusAt_extended.mpr (.inl hTip)]
    rfl

theorem Vetted.extended (hSound : tree.Sound K params) (hVetted : tree.Vetted K params)
    (hEnters : tree.Enters K header parent chain entry) (hLine : tree.Lineage parent chain)
    (hCtx : entry.status.isTerminal = false → ∃ context, IsContext K params chain header context ∧
        acceptHeader header params context = .ok ()) : (tree.extended entry).Vetted K params := by
  intro n status top rest hStat hSpared hChain hNe
  rcases statusAt_extended.mp hStat with hOld | ⟨rfl, rfl⟩
  · have hOldChain := hSound.grown.lineage_of_extends (extends_extended entry)
        (statusAt_isSome_iff.mp (by rw [hOld]; rfl)) hChain
    exact hVetted hOld hSpared hOldChain hNe
  · cases hChain.unique (hEnters.lineage hLine)
    exact hCtx hSpared

end

--------
-- Healthy Trees
--------

/- Everything that holds between any two calls. -/
structure Healthy (K : Primitives) (params : ChainParams)
    (tree : HeaderTree) : Prop where
  sound : tree.Sound K params
  judged : tree.Judged
  vetted : tree.Vetted K params

namespace Healthy

section

variable (hHealthy : tree.Healthy K params)

include hHealthy

theorem withPeriod (period : List HeaderFacts) : { tree with period := period }.Healthy K params :=
  ⟨hHealthy.sound.withPeriod period, hHealthy.judged.withPeriod period, hHealthy.vetted⟩

theorem exists_node {n : NodeId} (hStat : tree.statusAt n = some status) :
    ∃ entry chain, tree.entries[n]? = some entry ∧ tree.Lineage n chain := by
  rcases statusAt_eq_some.mp hStat with ⟨entry, hEntry, _⟩
  rcases hHealthy.sound.exists_lineage hEntry with ⟨chain, hLine⟩
  exact ⟨entry, chain, hEntry, hLine⟩

/- The tip is a node. -/
theorem exists_tip :
    ∃ entry chain, tree.entries[tree.tip]? = some entry ∧ tree.Lineage tree.tip chain := by
  rcases isSome_iff_exists.mp hHealthy.judged.tip with ⟨_, hStat⟩
  exact hHealthy.exists_node hStat

/- The best header is a node. -/
theorem exists_best :
    ∃ entry chain,
      tree.entries[tree.bestHeader]? = some entry ∧ tree.Lineage tree.bestHeader chain := by
  rcases hHealthy.judged.best.spared with ⟨_, hStat, _⟩
  exact hHealthy.exists_node hStat

/- No ancestor of a spared block is refused. -/
theorem spared_of_ancestor {a : Nat} (hAnc : Ancestor tree.view a n)
    (hStat : tree.statusAt n = some status) (hSpared : status.isTerminal = false) :
    ∃ above, tree.statusAt a = some above ∧ above.isTerminal = false := by
  induction hAnc generalizing status with
  | refl => exact ⟨status, hStat, hSpared⟩
  | tail _ hPar ih =>
    rcases hPar with ⟨_, hView⟩
    rcases view_eq_some.mp hView with ⟨entry, hEntry, _, hPar⟩
    rcases isSome_iff_exists.mp (hHealthy.sound.grown.parent hView).2 with
      ⟨⟨_, _⟩, hAboveView⟩
    rcases view_eq_some.mp hAboveView with ⟨above, hAbove, _⟩
    rw [statusAt_of_entry hEntry, Option.some.injEq] at hStat
    exact ih (statusAt_of_entry hAbove)
      (hHealthy.judged.spared_parent hEntry hPar hAbove (by rwa [hStat]))

end

/- A spared block has its context, whenever it is asked for. -/
theorem contextOf_eq (hTab : params.Tabled K) (hHealthy : tree.Healthy K params)
    {chain : List Header} (hEntry : tree.entries[n]? = some entry)
    (hSpared : entry.status.isTerminal = false) (hLine : tree.Lineage n (entry.header :: chain))
    (hNe : chain ≠ []) :
    ∃ context period, tree.contextOf n params = .ok (context, { tree with period := period }) ∧
        IsContext K params chain entry.header context := by
  rcases hHealthy.vetted (statusAt_of_entry hEntry) hSpared hLine hNe with ⟨context, hCtx, _⟩
  rcases Lineage.entry hLine with ⟨same, rest, hSame, hCons, hPar⟩
  rw [hEntry] at hSame
  cases hSame
  cases hCons
  rcases hPar with ⟨_, hNil⟩ | ⟨p, hPar, hRest⟩
  · exact absurd hNil hNe
  · refine ⟨context, chainPeriod params.intervalOf chain, ?_, hCtx⟩
    rw [contextOf, entry_eq hEntry, ok_bind, hPar, expect_some, ok_bind,
      (hHealthy.sound.fits hEntry hLine).hash]
    exact (hHealthy.sound.contextFor_eq_ok hTab hRest).mpr ⟨hCtx, rfl⟩

end Healthy

end HeaderTree

end Bitmigo
