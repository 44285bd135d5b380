import Bitmigo.Chain.Plan

/-
  Runs of the header tree: any calls in any order.

  Key definitions include:
    * `Call` and `Answer`
    * `TreeRun`, the trees the node can have, with what was asked and answered
    * `Later`, the trees that any further calls lead to
    * `HeaderTree.play`, given calls one after another

  Key theorems include:
    * `TreeRun.healthy`, every tree of a run is healthy
    * `TreeRun.logged`, every spared block was accepted
    * `Later.healthy`, and no call takes a header out or moves it
-/

namespace Bitmigo

open Result List Arena Except

variable {parent : NodeId} {entry : HeaderEntry} {n : Nat} {context : Context} {old : HeaderStatus}

--------
-- Calls
--------

/- What the node asks of its tree. -/
inductive Call where
  | accept (header : Header) (now : BlockTime)
  | blockChecked (node : NodeId) (location : BlockLocation)
  | connected (node : NodeId) (undo : UndoLocation)
  | disconnected (node : NodeId)
  | invalidate (node : NodeId) (invalidity : Invalidity)
  | clearDirty
  | contextOf (node : NodeId)
  | reorg (limit : Nat)

/- What the tree answers. -/
inductive Answer where
  | accepted (outcome : Except AcceptError Accepted)
  | done
  | context (context : Context)
  | plan (plan : Reorg)

variable {answer : Answer}

def Call.apply (K : Primitives) (params : ChainParams) (tree : HeaderTree) :
    Call → Result Empty (Answer × HeaderTree)
  | .accept header now => do
      let (outcome, tree) ← settle (tree.accept K header params now)
      return (.accepted outcome, tree)
  | .blockChecked node location => do
      let tree ← tree.blockChecked node location
      return (.done, tree)
  | .connected node undo => do
      let tree ← tree.connected node undo
      return (.done, tree)
  | .disconnected node => do
      let tree ← tree.disconnected node
      return (.done, tree)
  | .invalidate node invalidity => do
      let tree ← tree.invalidate node invalidity
      return (.done, tree)
  | .clearDirty => do
      let tree ← tree.clearDirty
      return (.done, tree)
  | .contextOf node => do
      let (context, tree) ← tree.contextOf node params
      return (.context context, tree)
  | .reorg limit => do
      let (plan, tree) ← tree.reorg params limit
      return (.plan plan, tree)

/- Calls that returned, and the tree they left. -/
inductive TreeRun (K : Primitives) (params : ChainParams) (cap : Nat) :
    List (Call × Answer) → HeaderTree → Prop where
  | start {tree : HeaderTree} (hStart : HeaderTree.withCap K params cap = .ok tree) :
      TreeRun K params cap [] tree
  | call {log : List (Call × Answer)} {tree after : HeaderTree} {call : Call} {answer : Answer}
      (hRun : TreeRun K params cap log tree)
      (hCall : call.apply K params tree = .ok (answer, after)) :
      TreeRun K params cap (log ++ [(call, answer)]) after

/- Any further calls. -/
inductive Later (K : Primitives) (params : ChainParams)
    (tree : HeaderTree) : HeaderTree → Prop where
  | refl : Later K params tree tree
  | call {middle after : HeaderTree} {call : Call} {answer : Answer}
      (hLater : Later K params tree middle)
      (hCall : call.apply K params middle = .ok (answer, after)) :
      Later K params tree after

/- The tree after one call after another. -/
def HeaderTree.play
    (K : Primitives) (params : ChainParams) (tree : HeaderTree) (calls : List Call) :
    Result Empty HeaderTree :=
  calls.foldlM (fun tree call => do
    let (_, tree) ← call.apply K params tree
    return tree) tree

variable {K : Primitives} {params : ChainParams} {tree after : HeaderTree} {call : Call} {cap : Nat}
variable {log : List (Call × Answer)} {calls : List Call}

theorem HeaderTree.play_cons :
    tree.play K params (call :: calls) = .ok after ↔ ∃ answer middle,
      call.apply K params tree = .ok (answer, middle) ∧ middle.play K params calls = .ok after := by
  simp only [play, foldlM_cons, bind_eq_ok, pure_inj, Prod.exists]
  constructor
  · rintro ⟨_, ⟨answer, middle, hCall, rfl⟩, hRest⟩
    exact ⟨answer, middle, hCall, hRest⟩
  · rintro ⟨answer, middle, hCall, hRest⟩
    exact ⟨middle, ⟨answer, middle, hCall, rfl⟩, hRest⟩

theorem TreeRun.play (hRun : TreeRun K params cap log tree)
    (hPlay : tree.play K params calls = .ok after) :
    ∃ later, TreeRun K params cap (log ++ later) after ∧ later.map (·.1) = calls := by
  induction calls generalizing tree log with
  | nil =>
    cases hPlay
    exact ⟨[], (append_nil log).symm ▸ hRun, rfl⟩
  | cons call calls ih =>
    rcases HeaderTree.play_cons.mp hPlay with ⟨answer, middle, hCall, hRest⟩
    rcases ih (hRun.call hCall) hRest with ⟨later, hLater, hCalls⟩
    refine ⟨(call, answer) :: later, ?_, ?_⟩
    · rwa [append_assoc] at hLater
    · rw [map_cons, hCalls]

theorem Later.play {first : HeaderTree} (hLater : Later K params first tree)
    (hPlay : tree.play K params calls = .ok after) : Later K params first after := by
  induction calls generalizing tree with
  | nil =>
    cases hPlay
    exact hLater
  | cons call calls ih =>
    rcases HeaderTree.play_cons.mp hPlay with ⟨answer, middle, hCall, hRest⟩
    exact ih (hLater.call hCall) hRest

--------
-- The First Tree
--------

namespace HeaderTree

variable {header : Header} {now : BlockTime} {node : NodeId} {outcome : Except AcceptError Accepted}
variable {chain : List Header} {status : HeaderStatus}

/- The entry of the first block. -/
def genesisEntry (K : Primitives) (params : ChainParams) : HeaderEntry where
  header := params.genesis.header
  hash := K.blockHash params.genesis.header
  height := Height.genesis
  chainwork := targetOfNat (workNat params.genesis.header.bits)
  parent := none
  skip := none
  status := .genesis
  dirty := false

theorem withCap_eq_ok (hTab : params.Tabled K) :
    withCap K params cap = .ok tree ↔ (0 < cap ∧ cap ≤ maxTreeHeaders) ∧ tree =
          { entries := [genesisEntry K params]
            index := Finmap.singleton (K.blockHash params.genesis.header) NodeId.genesis
            tip := NodeId.genesis
            bestHeader := NodeId.genesis
            dirty := []
            period := []
            cap := cap } := by
  simp only [withCap, bind_eq_ok, assert_eq_ok, hTab.interval, blockWork_eq, pure_eq_ok,
    ok.injEq, exists_const, exists_eq_left', ChainParams.genesisHash, true_and]
  exact and_congr_right fun _ => eq_comm

theorem healthy_withCap (hTab : params.Tabled K) (hStart : withCap K params cap = .ok tree) :
    tree.Healthy K params := by
  rcases (withCap_eq_ok hTab).mp hStart with ⟨⟨hPos, hCap⟩, rfl⟩
  have hEntry : ∀ {n : Nat} {entry : HeaderEntry},
      [genesisEntry K params][n]? = some entry ↔ n = 0 ∧ entry = genesisEntry K params := by
    intro n entry
    cases n with
    | zero => simp [eq_comm]
    | succ n => simp
  have hRoot : Arena.Lineage
        (fun n => [genesisEntry K params][n]?.map fun entry => (entry.header, entry.parent))
        0 [params.genesis.header] := .root rfl
  refine ⟨⟨⟨?_, ?_⟩, hRoot, ?_, ?_, ?_, ?_, hPos, hCap⟩,
    ⟨?_, ?_, ?_, rfl, ⟨⟨.genesis, rfl, rfl⟩, ?_⟩, nodup_nil, ?_⟩, ?_⟩
  · intro n a hView
    rcases view_eq_some.mp hView with ⟨entry, hFound, _⟩
    exact (hEntry.mp hFound).1
  · intro n a p hView
    rcases view_eq_some.mp hView with ⟨entry, hFound, _, hPar⟩
    cases (hEntry.mp hFound).2
    cases hPar
  · intro n entry chain hFound hLine
    rcases hEntry.mp hFound with ⟨rfl, rfl⟩
    cases hLine.unique hRoot
    refine ⟨rfl, rfl, ?_, ?_⟩
    · show U256.beNat (targetOfNat _) = _
      rw [beNat_targetOfNat (workNat_lt _)]
      rfl
    · intro hHigh
      exact absurd hHigh (Nat.lt_irrefl 0)
  · intro n p entry above hFound hPar
    cases (hEntry.mp hFound).2
    cases hPar
  · intro n entry hFound hNe
    exact absurd (hEntry.mp hFound).1 hNe
  · intro hash n
    show (Finmap.singleton (K.blockHash params.genesis.header) NodeId.genesis :
          KeyedMap BlockHash NodeId).lookup hash = some n ↔
      ∃ entry, [genesisEntry K params][n]? = some entry ∧ entry.hash = hash
    simp only [hEntry]
    by_cases hSame : hash = K.blockHash params.genesis.header
    · subst hSame
      rw [Finmap.lookup_singleton_eq, Option.some.injEq]
      constructor
      · rintro rfl
        exact ⟨_, ⟨rfl, rfl⟩, rfl⟩
      · rintro ⟨_, ⟨rfl, _⟩, _⟩
        rfl
    · constructor
      · intro hLookup
        have hMem := Finmap.mem_of_lookup_eq_some hLookup
        rw [Finmap.mem_singleton] at hMem
        exact absurd hMem hSame
      · rintro ⟨_, ⟨rfl, rfl⟩, hHash⟩
        exact absurd hHash.symm hSame
  · intro n
    rw [statusAt_eq_some]
    constructor
    · rintro ⟨entry, hFound, _⟩
      exact (hEntry.mp hFound).1
    · rintro rfl
      exact ⟨_, rfl, rfl⟩
  · intro n p entry hFound hPar
    cases (hEntry.mp hFound).2
    cases hPar
  · intro n status hStat
    rcases statusAt_eq_some.mp hStat with ⟨entry, hFound, rfl⟩
    rcases hEntry.mp hFound with ⟨rfl, rfl⟩
    exact ⟨fun _ => .refl, fun _ => rfl⟩
  · intro n status hLt _ _
    have hZero : n = 0 := Nat.lt_one_iff.mp hLt
    subst hZero
    exact ⟨Nat.le_refl _, fun _ => Nat.le_refl _⟩
  · intro n
    rw [dirtyAt]
    cases n with
    | zero => simp [genesisEntry]
    | succ n => simp
  · intro n status header chain hStat _ hLine hNe
    rcases statusAt_eq_some.mp hStat with ⟨entry, hFound, _⟩
    rcases hEntry.mp hFound with ⟨rfl, _⟩
    exact absurd (List.cons.inj (hLine.unique hRoot)).2 hNe

--------
-- Every Call Keeps the Tree Healthy
--------

/- The new entry does not depend on the scratch buffer. -/
theorem Enters.withPeriod (hEnters : tree.Enters K header parent chain entry)
    (period : List HeaderFacts) :
    { tree with period := period }.Enters K header parent chain entry :=
  ⟨hEnters.label, hEnters.hash, hEnters.parent,
    hEnters.height, hEnters.chainwork, hEnters.skip, hEnters.dirty⟩

theorem refusalAt_of_culprit {n : NodeId} {refused : Option BlockHash}
    (hLine : tree.Lineage n chain) (hCulprit : tree.culprit n = .ok refused) :
    tree.refusalAt n = refused := by
  rcases Lineage.entry hLine with ⟨entry, _, hEntry, _⟩
  rw [culprit_eq hEntry] at hCulprit
  exact ok.inj hCulprit

/- An entry more, wherever the scratch buffer stands. -/
theorem Healthy.extended (hHealthy : tree.Healthy K params)
    (hAt : tree.Attaches K params header parent chain) (hRoom : tree.len < tree.cap)
    (hEnters : tree.Enters K header parent chain entry)
    (hConsistent : Consistent entry.status (tree.refusalAt parent))
    (hIdle : entry.status.isConnected = false)
    (hCtx : entry.status.isTerminal = false → ∃ context, IsContext K params chain header context ∧
          acceptHeader header params context = .ok ()) (period : List HeaderFacts) :
    ({ tree with period := period }.extended entry).Healthy K params := by
  have hSound := hHealthy.sound.withPeriod period
  have hEnters' := hEnters.withPeriod period
  exact ⟨hSound.extended hEnters' hAt.lineage hAt.fresh hAt.below hAt.check hRoom,
    (hHealthy.judged.withPeriod period).extended hSound hEnters' hAt.lineage hConsistent hIdle,
    Vetted.extended hSound (hHealthy.withPeriod period).vetted hEnters' hAt.lineage hCtx⟩

theorem Placed.healthy (hHealthy : tree.Healthy K params)
    (hPlaced : Placed K params tree header now outcome after) : after.Healthy K params := by
  cases hPlaced with
  | duplicate _ | unchecked _ _ | unconnected _ _ _ => exact hHealthy
  | full _ _ | tooNew _ _ _ _ _ => exact hHealthy.withPeriod _
  | inherits hAt hRefused hRoom hEnters hStat =>
      have hRefusal := refusalAt_of_culprit hAt.lineage hRefused
      refine hHealthy.extended hAt hRoom hEnters ?_ ?_ ?_ tree.period
      · rw [hStat, hRefusal]
        rfl
      · rw [hStat]
        rfl
      · rw [hStat]
        intro hSpared
        cases hSpared
  | refused hAt hSpared hCtx hAccept hRoom hEnters hStat =>
      refine hHealthy.extended hAt hRoom hEnters ?_ ?_ ?_ _
      · rw [hStat]
        trivial
      · rw [hStat]
        rfl
      · rw [hStat]
        intro hSpared
        cases hSpared
  | accepted hAt hSpared hCtx hAccept hClock hRoom hEnters hStat =>
      have hRefusal := refusalAt_of_culprit hAt.lineage hSpared
      refine hHealthy.extended hAt hRoom hEnters ?_ ?_ ?_ _
      · rw [hStat, hRefusal]
        rfl
      · rw [hStat]
        rfl
      · exact fun _ => ⟨_, hCtx, hAccept⟩

theorem Placed.extends (hPlaced : Placed K params tree header now outcome after) :
    Extends tree.view after.view := by
  cases hPlaced with
  | duplicate _ | unchecked _ _ | unconnected _ _ _ | full _ _ | tooNew _ _ _ _ _ => exact id
  | inherits _ _ _ _ _ => exact extends_extended _
  | @refused _ chain _ _ entry _ _ _ _ _ _ _ | @accepted _ chain _ entry _ _ _ _ _ _ _ _ =>
    exact @extends_extended { tree with
        period := chainPeriod params.intervalOf chain } entry

/- Nothing but the header itself is new. -/
theorem Placed.view_cases (hPlaced : Placed K params tree header now outcome after) {other : Header}
    {parent : Option NodeId} (hView : after.view n = some (other, parent)) :
    tree.view n = some (other, parent) ∨ other = header := by
  rcases view_eq_some.mp hView with ⟨found, hFound, rfl, rfl⟩
  cases hPlaced with
  | duplicate _ | unchecked _ _ | unconnected _ _ _ | full _ _ | tooNew _ _ _ _ _ =>
    exact .inl hView
  | inherits _ _ _ hEnters _ | refused _ _ _ _ _ hEnters _ | accepted _ _ _ _ _ _ hEnters _ =>
    rcases getElem?_extended.mp hFound with hOld | ⟨_, rfl⟩
    · exact .inl (view_of_entry hOld)
    · exact .inr hEnters.label

/- Where a header accepted first stands. -/
theorem Placed.first (hPlaced : Placed K params tree header now (.ok (.first node context)) after) :
    ∃ parent chain, after.view node = some (header, some parent) ∧ after.Lineage parent chain ∧
      IsContext K params chain header context := by
  cases hPlaced with
  | @accepted parent chain _ entry hAt _ hCtx _ _ _ hEnters _ =>
      refine ⟨parent, chain, ?_, ?_, hCtx⟩
      · rw [← hEnters.label, ← hEnters.parent]
        exact view_of_entry (getElem?_extended.mpr (.inr ⟨rfl, rfl⟩))
      · exact hAt.lineage.mono (@extends_extended { tree with
            period := chainPeriod params.intervalOf chain }
          entry)

/- A spared block was spared before, or is accepted now. -/
theorem Placed.spared (hPlaced : Placed K params tree header now outcome after)
    (hStat : after.statusAt n = some status) (hSpared : status.isTerminal = false) :
    (∃ old, tree.statusAt n = some old ∧ old.isTerminal = false) ∨
      ∃ context, outcome = .ok (.first n context) := by
  cases hPlaced with
  | duplicate _ | unchecked _ _ | unconnected _ _ _ | full _ _ | tooNew _ _ _ _ _ =>
    exact .inl ⟨status, hStat, hSpared⟩
  | inherits _ _ _ _ hNew | refused _ _ _ _ _ _ hNew =>
    rcases statusAt_extended.mp hStat with hOld | ⟨_, rfl⟩
    · exact .inl ⟨status, hOld, hSpared⟩
    · rw [hNew] at hSpared
      cases hSpared
  | accepted _ _ _ _ _ _ _ _ =>
    rcases statusAt_extended.mp hStat with hOld | ⟨rfl, _⟩
    · exact .inl ⟨status, hOld, hSpared⟩
    · exact .inr ⟨_, rfl⟩

theorem Healthy.accept (hTab : params.Tabled K) (hHealthy : tree.Healthy K params)
    (hCall : settle (tree.accept K header params now) = .ok (outcome, after)) :
    Placed K params tree header now outcome after :=
  (hHealthy.sound.accept_cases hTab hHealthy.judged.bestHeader_lt header now).placed hCall

/- A status change among spared statuses. -/
theorem kept_restated {node : Nat} (hOld : tree.statusAt node = some old)
    (hSpared : old.isTerminal = false) (tip : NodeId) :
    tree.Kept { tree.restated node status with tip := tip } := by
  refine ⟨(sameArena_restated node status).view, ?_⟩
  intro n s hStat hNot
  have hAt : (tree.restated node status).statusAt n = some s := hStat
  rw [statusAt_restated (statusAt_lt_len hOld)] at hAt
  split at hAt
  · rename_i hn
    exact ⟨old, hn ▸ hOld, hSpared⟩
  · exact ⟨s, hAt, hNot⟩

section

variable (hHealthy : tree.Healthy K params)

include hHealthy

theorem Healthy.restated {node : Nat} (hOld : tree.statusAt node = some old)
    (hSpared : old.isTerminal = false) {tip : NodeId}
    (hJudged : { tree.restated node status with tip := tip }.Judged) :
    { tree.restated node status with tip := tip }.Healthy K params := by
  have hSound := hHealthy.sound.of_sameArena (@sameArena_restated tree node status)
  exact ⟨hSound.withTip _ tip, hJudged,
    Vetted.of_kept hHealthy.vetted (kept_restated hOld hSpared tip)⟩

theorem Healthy.blockChecked {location : BlockLocation}
    (hCall : tree.blockChecked node location = .ok after) :
    after.Healthy K params ∧ tree.Kept after := by
  have hJudged := hHealthy.judged.blockChecked hCall
  rcases (blockChecked_eq_ok hHealthy.judged.marked).mp hCall with ⟨hStat, rfl⟩
  exact ⟨hHealthy.restated hStat rfl hJudged, kept_restated hStat rfl _⟩

theorem Healthy.connected {undo : UndoLocation} (hCall : tree.connected node undo = .ok after) :
    after.Healthy K params ∧ tree.Kept after := by
  have hJudged := hHealthy.judged.connected hCall
  rcases (connected_eq_ok hHealthy.judged.marked).mp hCall with
    ⟨entry, location, hEntry, _, hStat, rfl⟩
  have hSpared : entry.status.isTerminal = false := by
    rw [hStat]
    rfl
  exact ⟨hHealthy.restated (statusAt_of_entry hEntry) hSpared hJudged,
    kept_restated (statusAt_of_entry hEntry) hSpared _⟩

theorem Healthy.disconnected (hCall : tree.disconnected node = .ok after) :
    after.Healthy K params ∧ tree.Kept after := by
  have hJudged := hHealthy.judged.disconnected hHealthy.sound.grown hCall
  rcases (disconnected_eq_ok hHealthy.judged.marked).mp hCall with
    ⟨entry, location, undo, p, _, hEntry, hStat, _, rfl⟩
  have hSpared : entry.status.isTerminal = false := by
    rw [hStat]
    rfl
  exact ⟨hHealthy.restated (statusAt_of_entry hEntry) hSpared hJudged,
    kept_restated (statusAt_of_entry hEntry) hSpared _⟩

theorem Healthy.invalidate {invalidity : Invalidity}
    (hCall : tree.invalidate node invalidity = .ok after) :
    after.Healthy K params ∧ tree.Kept after := by
  rcases invalidate_cases hHealthy.sound hHealthy.judged hCall with
    ⟨old, hOld, hSpared, _, hRefused⟩
  have hKept : tree.Kept after := by
    refine ⟨hRefused.same.view, ?_⟩
    intro n status hStat hNot
    rcases hRefused.status_cases hStat with hBefore | ⟨hTerm, _⟩
    · exact ⟨status, hBefore, hNot⟩
    · rw [hNot] at hTerm
      cases hTerm
  exact ⟨⟨hHealthy.sound.of_sameArena hRefused.same,
    hHealthy.judged.refused hHealthy.sound.grown hOld hSpared
      hRefused, Vetted.of_kept hHealthy.vetted hKept⟩, hKept⟩

theorem Healthy.clearDirty (hCall : tree.clearDirty = .ok after) :
    after.Healthy K params ∧ tree.Kept after := by
  rw [clearDirty_eq hHealthy.judged.marked] at hCall
  cases hCall
  have hSame := @sameArena_cleared tree
  have hKept : tree.Kept tree.cleared := by
    refine ⟨hSame.view, ?_⟩
    intro n status hStat hNot
    rw [statusAt_cleared] at hStat
    exact ⟨status, hStat, hNot⟩
  exact ⟨⟨hHealthy.sound.of_sameArena hSame,
    hHealthy.judged.cleared, Vetted.of_kept hHealthy.vetted hKept⟩, hKept⟩

end

/- Asking for a context changes the scratch buffer only. -/
theorem Healthy.contextOf (hTab : params.Tabled K) (hHealthy : tree.Healthy K params)
    (hCall : tree.contextOf node params = .ok (context, after)) :
    ∃ period, after = { tree with period := period } := by
  simp only [HeaderTree.contextOf, HeaderTree.entry, bind_eq_ok, expect_eq_ok] at hCall
  rcases hCall with ⟨entry, hEntry, p, hPar, hFor⟩
  rcases hHealthy.sound.exists_lineage hEntry with ⟨chain, hLine⟩
  rcases hLine.tail (by rw [← hPar, view_of_entry hEntry]) with ⟨rest, rfl, hRest⟩
  rw [(hHealthy.sound.fits hEntry hLine).hash] at hFor
  rcases (hHealthy.sound.contextFor_eq_ok hTab hRest).mp hFor with ⟨_, rfl⟩
  exact ⟨_, rfl⟩

end HeaderTree

open HeaderTree

/-
  What a call does: `accept` places a header, and every other call keeps the headers and spares no
  refused block.
-/
inductive Effect (K : Primitives) (params : ChainParams) (tree : HeaderTree) :
    Call → Answer → HeaderTree → Prop where
  | accept {header : Header} {now : BlockTime} {outcome : Except AcceptError Accepted}
      {after : HeaderTree} (hPlaced : tree.Placed K params header now outcome after) :
      Effect K params tree (.accept header now) (.accepted outcome) after
  | keep {call : Call} {answer : Answer} {after : HeaderTree} (hHealthy : after.Healthy K params)
      (hKept : tree.Kept after) :
      Effect K params tree call answer after

/- A call that only changes the tree. -/
theorem Call.of_done {step : Result Empty HeaderTree}
    (hCall : (do let tree ← step; return (.done, tree)) = (.ok (answer, after) : Result Empty _)) :
    step = .ok after := by
  simp only [bind_eq_ok, pure_inj, Prod.mk.injEq] at hCall
  rcases hCall with ⟨_, hStep, _, rfl⟩
  exact hStep

theorem Call.effect (hTab : params.Tabled K) (hHealthy : tree.Healthy K params)
    (hCall : call.apply K params tree = .ok (answer, after)) :
    Effect K params tree call answer after := by
  have hKeep :
      after.Healthy K params ∧ tree.Kept after → Effect K params tree call answer after := by
    rintro ⟨hAfter, hKept⟩
    exact .keep hAfter hKept
  have hScratch : ∀ period, after = { tree with period := period } →
        after.Healthy K params ∧ tree.Kept after := by
    rintro period rfl
    exact ⟨hHealthy.withPeriod period, rfl, fun hStat hSpared => ⟨_, hStat, hSpared⟩⟩
  cases call with
  | accept header now =>
    simp only [Call.apply, bind_eq_ok, pure_inj, Prod.mk.injEq, Prod.exists] at hCall
    rcases hCall with ⟨outcome, _, hAccept, rfl, rfl⟩
    exact .accept (hHealthy.accept hTab hAccept)
  | blockChecked node location => exact hKeep (hHealthy.blockChecked (of_done hCall))
  | connected node undo => exact hKeep (hHealthy.connected (of_done hCall))
  | disconnected node => exact hKeep (hHealthy.disconnected (of_done hCall))
  | invalidate node invalidity => exact hKeep (hHealthy.invalidate (of_done hCall))
  | clearDirty => exact hKeep (hHealthy.clearDirty (of_done hCall))
  | contextOf node =>
    simp only [Call.apply, bind_eq_ok, pure_inj, Prod.mk.injEq, Prod.exists] at hCall
    rcases hCall with ⟨context, _, hStep, _, rfl⟩
    rcases hHealthy.contextOf hTab hStep with ⟨period, hAfter⟩
    exact hKeep (hScratch period hAfter)
  | reorg limit =>
    simp only [Call.apply, bind_eq_ok, pure_inj, Prod.mk.injEq, Prod.exists] at hCall
    rcases hCall with ⟨plan, _, hStep, _, rfl⟩
    have hLimit : 0 < limit := by
      simp only [HeaderTree.reorg, bind_eq_ok, assert_eq_ok, exists_const] at hStep
      exact hStep.1
    rcases hHealthy.reorg_eq hTab hLimit with ⟨_, period, _, _, _, hPlan, _⟩
    rw [hPlan] at hStep
    cases hStep
    exact hKeep (hScratch period rfl)

theorem Effect.healthy (hHealthy : tree.Healthy K params)
    (hEffect : Effect K params tree call answer after) :
    after.Healthy K params ∧ Extends tree.view after.view := by
  cases hEffect with
  | accept hPlaced => exact ⟨hPlaced.healthy hHealthy, hPlaced.extends⟩
  | keep hAfter hKept =>
    refine ⟨hAfter, ?_⟩
    intro n x hView
    rw [hKept.view, hView]

/- Every tree of a run is healthy. -/
theorem TreeRun.healthy (hTab : params.Tabled K) (hRun : TreeRun K params cap log tree) :
    tree.Healthy K params := by
  induction hRun with
  | start hStart => exact healthy_withCap hTab hStart
  | call _ hCall ih => exact ((Call.effect hTab ih hCall).healthy ih).1

/- Every spared block was accepted, under its context. -/
theorem TreeRun.logged (hTab : params.Tabled K) (hRun : TreeRun K params cap log tree)
    {status : HeaderStatus} {header : Header} {chain : List Header}
    (hStat : tree.statusAt n = some status) (hSpared : status.isTerminal = false)
    (hLine : tree.Lineage n (header :: chain)) (hNe : chain ≠ []) :
    ∃ now context, (Call.accept header now, Answer.accepted (.ok (.first n context))) ∈ log ∧
      IsContext K params chain header context := by
  induction hRun generalizing status with
  | start hStart =>
    have hRoot := (healthy_withCap hTab hStart).sound.root
    rcases (withCap_eq_ok hTab).mp hStart with ⟨_, rfl⟩
    cases Nat.lt_one_iff.mp (statusAt_lt_len hStat)
    exact absurd (List.cons.inj (hLine.unique hRoot)).2 hNe
  | @call log tree after call answer hRun hCall ih =>
    have hHealthy := hRun.healthy hTab
    cases Call.effect hTab hHealthy hCall with
    | keep _ hKept =>
      rcases hKept.spared hStat hSpared with ⟨old, hOld, hOldSpared⟩
      rw [HeaderTree.Lineage, hKept.view] at hLine
      rcases ih hOld hOldSpared hLine with ⟨now, context, hMem, hCtx⟩
      exact ⟨now, context, mem_append_left _ hMem, hCtx⟩
    | @accept other now _ _ hPlaced =>
      rcases hPlaced.spared hStat hSpared with ⟨old, hOld, hOldSpared⟩ | ⟨context, rfl⟩
      · have hBefore := hHealthy.sound.grown.lineage_of_extends hPlaced.extends
          (statusAt_isSome_iff.mp (by rw [hOld]; rfl))
          hLine
        rcases ih hOld hOldSpared hBefore with ⟨earlier, context, hMem, hCtx⟩
        exact ⟨earlier, context, mem_append_left _ hMem, hCtx⟩
      · rcases hPlaced.first with ⟨parent, below, hView, hBelow, hCtx⟩
        have hSame := hLine.unique (.child hView hBelow)
        cases hSame
        exact ⟨now, context, mem_append_right _ mem_cons_self, hCtx⟩

/- No call takes a header out or moves it. -/
theorem Later.healthy (hTab : params.Tabled K) (hHealthy : tree.Healthy K params)
    (hLater : Later K params tree after) :
    after.Healthy K params ∧ Extends tree.view after.view := by
  induction hLater with
  | refl => exact ⟨hHealthy, id⟩
  | call _ hCall ih =>
    rcases (Call.effect hTab ih.1 hCall).healthy ih.1 with ⟨hNext, hExtends⟩
    exact ⟨hNext, fun hView => hExtends (ih.2 hView)⟩

end Bitmigo
