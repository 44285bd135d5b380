import Bitmigo.Chain.Status

/-
  How a verdict spreads, and how the best header is chosen again.

  Key definitions include:
    * `HeaderEntry.refusal`, the refused block an entry descends from, or is
    * `inherited`, a status under the parent's verdict
    * `HeaderTree.IsBest`, the first of the best headers

  Key theorems include:
    * `HeaderTree.propagateAndReselect_spec`, one ascending pass settles every status and finds the
      best header
-/

namespace Bitmigo

open Result List U256 Arena Option

variable {status : HeaderStatus} {n node : Nat} {old : HeaderEntry}
variable {selection : HeaderTree.Selection}

--------
-- Verdicts
--------

/- The refused block an entry descends from, or is. -/
def HeaderEntry.refusal (entry : HeaderEntry) : Option BlockHash :=
  match entry.status with
  | .invalid _ => some entry.hash
  | .invalidAncestor culprit => some culprit
  | .genesis | .headerAccepted | .blockChecked _
  | .connected _ _ => none

/- A status under what the parent's entry says. -/
def inherited (status : HeaderStatus) (above : Option BlockHash) : HeaderStatus :=
  if status.isTerminal then
    status
  else
    match above with
    | some culprit => .invalidAncestor culprit
    | none => status

theorem inherited_of_terminal (hTerm : status.isTerminal = true) (above : Option BlockHash) :
    inherited status above = status :=
  if_pos hTerm

theorem inherited_none (status : HeaderStatus) : inherited status none = status := by
  unfold inherited
  split <;> rfl

theorem inherited_some (hSpared : status.isTerminal = false) (culprit : BlockHash) :
    inherited status (some culprit) = .invalidAncestor culprit :=
  if_neg (by simp [hSpared])

/- A status that agrees with what the parent's entry says. -/
def Consistent (status : HeaderStatus) (above : Option BlockHash) : Prop :=
  match status with
  | .invalid _ => True
  | .invalidAncestor culprit => above = some culprit
  | .genesis | .headerAccepted | .blockChecked _
  | .connected _ _ => above = none

theorem Consistent.of_spared {above : Option BlockHash} (hConsistent : Consistent status above)
    (hSpared : status.isTerminal = false) : above = none := by
  cases status <;> first | exact hConsistent | cases hSpared

theorem consistent_of_none (hSpared : status.isTerminal = false) : Consistent status none := by
  cases status <;> first | rfl | cases hSpared

theorem HeaderEntry.refusal_isSome (entry : HeaderEntry) :
    entry.refusal.isSome = entry.status.isTerminal := by
  unfold HeaderEntry.refusal HeaderStatus.isTerminal
  cases entry.status <;> rfl

theorem HeaderStatus.not_terminal_of_connected (hConn : status.isConnected = true) :
    status.isTerminal = false := by
  cases status <;> first | rfl | cases hConn

namespace HeaderTree

variable {K : Primitives} {params : ChainParams} {tree after : HeaderTree}

/- The refused block a node descends from, or is. -/
def refusalAt (tree : HeaderTree) (n : Nat) : Option BlockHash :=
  tree.entries[n]?.bind (·.refusal)

theorem refusalAt_of_entry {entry : HeaderEntry} (hEntry : tree.entries[n]? = some entry) :
    tree.refusalAt n = entry.refusal := by
  simp [refusalAt, hEntry]

theorem culprit_eq {entry : HeaderEntry} (hEntry : tree.entries[n]? = some entry) :
    tree.culprit n = .ok (tree.refusalAt n) := by
  rw [culprit, entry_eq hEntry, ok_bind, refusalAt_of_entry hEntry, HeaderEntry.refusal]
  cases entry.status <;> rfl

--------
-- One Node of the Pass
--------

/- One status changed without a mark. -/
def judged (tree : HeaderTree) (node : NodeId) (status : HeaderStatus) : HeaderTree :=
  { tree with
    entries := tree.entries.modify node fun entry =>
      { entry with status := status } }

theorem getElem?_judged :
    (tree.judged node status).entries[n]? = tree.entries[n]?.map fun entry =>
        if n = node then { entry with status := status }
        else entry := by
  simp only [judged, getElem?_modify]
  by_cases hSame : n = node
  · simp [hSame]
  · simp [hSame, Ne.symm hSame]

theorem judged_self {entry : HeaderEntry} (hEntry : tree.entries[node]? = some entry) :
    tree.judged node entry.status = tree := by
  have hSame : (tree.judged node entry.status).entries = tree.entries := by
    apply ext_getElem?
    intro n
    rw [getElem?_judged]
    by_cases hNode : n = node
    · subst hNode
      simp [hEntry]
    · simp [hNode]
  rcases tree with ⟨entries, index, tip, best, dirty, p, cap⟩
  simp only [judged] at hSame ⊢
  rw [hSame]

/- What a status was under the parent's verdict. -/
def verdictFor (tree : HeaderTree) (entry : HeaderEntry) : HeaderStatus :=
  match entry.parent with
  | some p => inherited entry.status (tree.refusalAt p)
  | none => entry.status

theorem inherit_eq (hGrown : Grown tree.view) {entry : HeaderEntry}
    (hEntry : tree.entries[node]? = some entry) (hActive :
      ∀ p, entry.parent = some p → entry.status.isConnected = true → tree.refusalAt p = none) :
    tree.inherit node = .ok (tree.judged node (tree.verdictFor entry)) := by
  rw [inherit, entry_eq hEntry, ok_bind]
  cases hTerm : entry.status.isTerminal with
  | true =>
    have hVerdict : tree.verdictFor entry = entry.status := by
      unfold verdictFor
      split
      · exact inherited_of_terminal hTerm _
      · rfl
    rw [if_pos rfl, hVerdict, judged_self hEntry]
    rfl
  | false =>
    rw [if_neg (by simp)]
    cases hPar : entry.parent with
    | none =>
      have hVerdict : tree.verdictFor entry = entry.status := by simp [verdictFor, hPar]
      rw [hVerdict, judged_self hEntry]
      rfl
    | some p =>
      have hView := view_of_entry hEntry
      rw [hPar] at hView
      rcases isSome_iff_exists.mp (hGrown.parent hView).2 with ⟨⟨_, _⟩, hAbove⟩
      rcases view_eq_some.mp hAbove with ⟨above, hAboveEntry, _⟩
      dsimp only
      rw [culprit_eq hAboveEntry, ok_bind]
      cases hRefusal : tree.refusalAt p with
      | none =>
        have hVerdict : tree.verdictFor entry = entry.status := by
          simp [verdictFor, hPar, hRefusal, inherited_none]
        rw [hVerdict, judged_self hEntry]
        rfl
      | some culprit =>
        have hVerdict : tree.verdictFor entry = .invalidAncestor culprit := by
          simp [verdictFor, hPar, hRefusal, inherited_some hTerm]
        have hIdle : entry.status.isConnected = false := by
          rw [← Bool.not_eq_true]
          intro hConn
          have hNone := hActive p hPar hConn
          simp [hRefusal] at hNone
        have hModify : (tree.entries.modify node fun entry =>
              { entry with
                status := .invalidAncestor culprit }) =
              tree.entries.set node { entry with
                  status := .invalidAncestor culprit } := by
          rw [modify_eq_set_getElem?, hEntry]
          rfl
        dsimp only
        rw [assert_of hIdle, ok_bind, setStatus, modifyEntry, entry_eq hEntry,
          ok_bind, hVerdict, judged, hModify]
        rfl

--------
-- The Pass
--------

/- The first of the most-work nodes below `count`. -/
structure IsBest (tree : HeaderTree)
    (count best : Nat) : Prop where
  spared : ∃ status, tree.statusAt best = some status ∧ status.isTerminal = false
  most : ∀ {n status}, n < count → tree.statusAt n = some status →
      status.isTerminal = false →
        tree.workAt n ≤ tree.workAt best ∧ (tree.workAt n = tree.workAt best → best ≤ n)

/- Nothing but statuses differs. -/
structure Rejudged (start tree : HeaderTree) : Prop where
  frame : tree = { start with entries := tree.entries }
  entries : ∀ n : Nat, ∀ entry, tree.entries[n]? = some entry →
      ∃ old, start.entries[n]? = some old ∧ entry = { old with status := entry.status }
  length : tree.entries.length = start.entries.length

section

variable {start : HeaderTree} (hSame : Rejudged start tree)

include hSame

theorem Rejudged.entry (hOld : start.entries[n]? = some old) :
    ∃ entry, tree.entries[n]? = some entry ∧ entry = { old with status := entry.status } := by
  have hLt := (List.getElem?_eq_some_iff.mp hOld).1
  rw [← hSame.length] at hLt
  have hEntry := getElem?_eq_getElem hLt
  rcases hSame.entries n _ hEntry with ⟨other, hOther, hEq⟩
  rw [hOld] at hOther
  cases hOther
  exact ⟨_, hEntry, hEq⟩

theorem Rejudged.sameArena : start.SameArena tree := by
  refine ⟨?_, by rw [hSame.frame], by rw [hSame.frame]⟩
  apply ext_getElem?
  intro n
  rw [getElem?_map, getElem?_map]
  cases hOld : start.entries[n]? with
  | none =>
    have hNone : tree.entries[n]? = none := by
      rw [List.getElem?_eq_none_iff] at hOld ⊢
      rwa [hSame.length]
    rw [hNone]
  | some old =>
    rcases hSame.entry hOld with ⟨entry, hEntry, hEq⟩
    rw [hEntry, hEq]
    rfl

theorem Rejudged.marked (hMarked : start.Marked) : tree.Marked := by
  have hDirty : tree.dirty = start.dirty := by rw [hSame.frame]
  have hFlag : ∀ n, tree.dirtyAt n = start.dirtyAt n := by
    intro n
    cases hOld : start.entries[n]? with
    | none =>
      have hNone : tree.entries[n]? = none := by
        rw [List.getElem?_eq_none_iff] at hOld ⊢
        rwa [hSame.length]
      rw [dirtyAt, dirtyAt, hNone, hOld]
    | some old =>
      rcases hSame.entry hOld with ⟨entry, hEntry, hEq⟩
      rw [dirtyAt_of_entry hEntry, dirtyAt_of_entry hOld, hEq]
  exact ⟨hDirty ▸ hMarked.nodup, by
    intro n
    rw [hDirty, hFlag]
    exact hMarked.mem_iff⟩

end

/- What the pass has done to the nodes below `count`. -/
structure Pass (source : Nat) (start : HeaderTree) (count : Nat) (tree : HeaderTree)
    (selection : Selection) : Prop where
  rejudged : Rejudged start tree
  later : ∀ n : Nat, count ≤ n → tree.entries[n]? = start.entries[n]?
  settled : ∀ n : Nat, ∀ old, n < count →
      start.entries[n]? = some old →
        tree.statusAt n =
          some (if source < n then tree.verdictFor old
            else old.status)
  active : ∀ n : Nat, ∀ old, start.entries[n]? = some old →
      old.status.isConnected = true → tree.statusAt n = some old.status
  best : tree.IsBest count selection.best
  reached : selection.best = 0 ∨ selection.best < count
  work : beNat selection.bestWork = tree.workAt selection.best

/- The pass needs a connected parent under a connected node. -/
def Grounded (tree : HeaderTree) : Prop :=
  ∀ {n p : Nat} {entry above : HeaderEntry},
    tree.entries[n]? = some entry → entry.parent = some p →
      tree.entries[p]? = some above →
        entry.status.isConnected = true → above.status.isConnected = true

theorem refusalAt_judged_of_ne (hNe : n ≠ node) :
    (tree.judged node status).refusalAt n = tree.refusalAt n := by
  rw [refusalAt, getElem?_judged, refusalAt]
  simp [hNe]

theorem statusAt_judged {node n : Nat} {status : HeaderStatus}
    (hNode : node < tree.entries.length) :
    (tree.judged node status).statusAt n = if n = node then some status else tree.statusAt n := by
  rw [statusAt, getElem?_judged, statusAt]
  by_cases hSame : n = node
  · subst hSame
    simp [getElem?_eq_getElem hNode]
  · simp [hSame]

theorem verdictFor_judged {entry : HeaderEntry} (hPar : entry.parent ≠ some node) :
    (tree.judged node status).verdictFor entry = tree.verdictFor entry := by
  unfold verdictFor
  cases hAbove : entry.parent with
  | none => rfl
  | some p =>
    rw [hAbove, ne_eq, Option.some.injEq] at hPar
    dsimp only
    rw [refusalAt_judged_of_ne hPar]

/- One more node: its status, not yet the selection. -/
theorem Pass.judge {source count : Nat} {start : HeaderTree} (hGrown : Grown start.view)
    (hGrounded : start.Grounded) (hPass : Pass source start count tree selection)
    (hOld : start.entries[count]? = some old) :
    tree.inherit count = .ok (tree.judged count (tree.verdictFor old)) ∧
      (old.status.isConnected = true → tree.verdictFor old = old.status) := by
  have hEntry : tree.entries[count]? = some old := by rw [hPass.later count (Nat.le_refl _), hOld]
  have hView := hPass.rejudged.sameArena.view
  have hSpared :
      ∀ p, old.parent = some p → old.status.isConnected = true → tree.refusalAt p = none := by
    intro p hPar hConn
    have hShown := view_of_entry hOld
    rw [hPar] at hShown
    rcases isSome_iff_exists.mp (hGrown.parent hShown).2 with ⟨⟨_, _⟩, hAbove⟩
    rcases view_eq_some.mp hAbove with ⟨above, hAbove, _⟩
    have hActive := hGrounded hOld hPar hAbove hConn
    rcases statusAt_eq_some.mp (hPass.active p above hAbove hActive) with ⟨entry, hEntry, hStat⟩
    rw [refusalAt_of_entry hEntry, ← not_isSome_iff_eq_none,
      HeaderEntry.refusal_isSome, hStat, HeaderStatus.not_terminal_of_connected hActive]
    simp
  refine ⟨inherit_eq (hView ▸ hGrown) hEntry hSpared, ?_⟩
  intro hConn
  unfold verdictFor
  cases hPar : old.parent with
  | none => rfl
  | some p =>
    dsimp only
    rw [hSpared p hPar hConn, inherited_none]

theorem Rejudged.judged {start : HeaderTree} (hSame : Rejudged start tree)
    (node : Nat) (status : HeaderStatus) : Rejudged start (tree.judged node status) := by
  refine ⟨?_, ?_, ?_⟩
  · have hFrame := hSame.frame
    rw [HeaderTree.judged]
    rw [hFrame]
  · intro n entry hEntry
    rw [getElem?_judged] at hEntry
    rcases map_eq_some_iff.mp hEntry with ⟨middle, hMiddle, rfl⟩
    rcases hSame.entries n middle hMiddle with ⟨old, hOld, hEq⟩
    refine ⟨old, hOld, ?_⟩
    split
    · rw [hEq]
    · exact hEq
  · rw [← hSame.length, HeaderTree.judged, length_modify]

section

variable {start : HeaderTree} (hGrown : Grown start.view)

include hGrown

/- The new status and the new selection keep the pass. -/
theorem Pass.step {source count : Nat} (hPass : Pass source start count tree selection)
    (hOld : start.entries[count]? = some old) {status : HeaderStatus}
    (hStat : status = if source < count then tree.verdictFor old else old.status)
    (hConn : old.status.isConnected = true → status = old.status)
    (hFst : count = 0 → status = old.status)
    {next : Selection}
    (hNext : next =
        if status.isTerminal = false ∧ beNat selection.bestWork < beNat old.chainwork then
          ⟨count, old.chainwork⟩
        else
          selection) :
    Pass source start (count + 1) (tree.judged count status) next := by
  have hLt : count < tree.entries.length := by
    rw [hPass.rejudged.length]
    exact (List.getElem?_eq_some_iff.mp hOld).1
  have hRejudged := hPass.rejudged.judged count status
  have hParents :
      ∀ n entry, start.entries[n]? = some entry → n < count + 1 → entry.parent ≠ some count := by
    intro n entry hEntry hn hPar
    have hShown := view_of_entry hEntry
    rw [hPar] at hShown
    have hLess := (hGrown.parent hShown).1
    omega
  have hStatusAt := fun n => @statusAt_judged tree count n status hLt
  have hWorkAt : ∀ n, (tree.judged count status).workAt n = tree.workAt n := by
    intro n
    rw [hRejudged.sameArena.workAt, hPass.rejudged.sameArena.workAt]
  have hHere : tree.workAt count = beNat old.chainwork := by
    rw [hPass.rejudged.sameArena.workAt, workAt_eq hOld]
  have hBestAt :
      (tree.judged count status).statusAt selection.best = tree.statusAt selection.best := by
    rw [hStatusAt]
    split
    · rename_i hSame
      rcases hPass.reached with hZero | hLess
      · have hCount : count = 0 := by omega
        rw [hFst hCount, hSame, statusAt, hPass.later count (Nat.le_refl _), hOld]
        rfl
      · omega
    · rfl
  have hKept :
      ∃ s, (tree.judged count status).statusAt selection.best = some s ∧ s.isTerminal = false := by
    rw [hBestAt]
    exact hPass.best.spared
  refine ⟨hRejudged, ?_, ?_, ?_, ?_, ?_, ?_⟩
  · intro n hn
    rw [getElem?_judged, hPass.later n (by omega)]
    simp [show n ≠ count by omega]
  · intro n entry hn hEntry
    rw [verdictFor_judged (hParents n entry hEntry hn), hStatusAt]
    by_cases hSame : n = count
    · subst hSame
      rw [hOld] at hEntry
      cases hEntry
      rw [if_pos rfl, hStat]
    · rw [if_neg hSame]
      exact hPass.settled n entry (by omega) hEntry
  · intro n entry hEntry hActive
    rw [hStatusAt]
    by_cases hSame : n = count
    · subst hSame
      rw [hOld] at hEntry
      cases hEntry
      rw [if_pos rfl, hConn hActive]
    · rw [if_neg hSame]
      exact hPass.active n entry hEntry hActive
  · -- the selection is the best of one more
    subst hNext
    split
    · rename_i hBetter
      refine ⟨⟨status, by rw [hStatusAt, if_pos rfl], hBetter.1⟩, ?_⟩
      intro n s hn hAt hSpared
      rw [hWorkAt, hWorkAt, hHere]
      by_cases hSame : n = count
      · subst hSame
        rw [hHere]
        exact ⟨Nat.le_refl _, fun _ => Nat.le_refl _⟩
      · rw [hStatusAt, if_neg hSame] at hAt
        have hMost := (hPass.best.most (by omega) hAt hSpared).1
        have hWork := hPass.work
        omega
    · rename_i hNotBetter
      refine ⟨hKept, ?_⟩
      intro n s hn hAt hSpared
      rw [hWorkAt, hWorkAt]
      by_cases hSame : n = count
      · subst hSame
        rw [hStatusAt, if_pos rfl, Option.some.injEq] at hAt
        rw [hAt] at hNotBetter
        have hLe : ¬ beNat selection.bestWork < beNat old.chainwork :=
          fun hLess => hNotBetter ⟨hSpared, hLess⟩
        rw [hPass.work, ← hHere] at hLe
        have hReached := hPass.reached
        exact ⟨by omega, fun _ => by omega⟩
      · rw [hStatusAt, if_neg hSame] at hAt
        exact hPass.best.most (by omega) hAt hSpared
  · subst hNext
    have hReached := hPass.reached
    split
    · exact .inr (Nat.lt_succ_self _)
    · omega
  · subst hNext
    split
    · rw [hWorkAt, hHere]
    · rw [hWorkAt, hPass.work]

theorem propagateAt_spec {source count : Nat} (hGrounded : start.Grounded)
    (hPass : Pass source start count tree selection) (hCount : count < start.len)
    (hSmall : start.len ≤ maxTreeHeaders) :
    ∃ next, propagateAt source (tree, selection) count = .ok next ∧
      Pass source start (count + 1) next.1 next.2 := by
  have hMax : maxTreeHeaders < 2 ^ 32 := by decide
  have hOld := getElem?_eq_getElem hCount
  have hEntry : tree.entries[count]? = some start.entries[count] := by
    rw [hPass.later count (Nat.le_refl _), hOld]
  have hAt : NodeId.at count = .ok count := by
    rw [NodeId.at, assert_of (by omega)]
    rfl
  rcases hPass.judge hGrown hGrounded hOld with ⟨hInherit, hActive⟩
  rcases (⟨_, rfl⟩ : ∃ status, status = if source < count then
        tree.verdictFor start.entries[count]
      else
        start.entries[count].status) with ⟨status, hStat⟩
  have hFst :
      (if source < count then tree.inherit count
        else .ok tree) = .ok (tree.judged count status) := by
    rw [hStat]
    split
    · exact hInherit
    · rw [judged_self hEntry]
  have hNew : (tree.judged count status).entries[count]? =
        some { start.entries[count] with status := status } := by
    rw [getElem?_judged, hEntry]
    simp
  have hConn :
      start.entries[count].status.isConnected = true → status = start.entries[count].status := by
    intro hConn
    rw [hStat]
    split
    · exact hActive hConn
    · rfl
  have hGenesis : count = 0 → status = start.entries[count].status := by
    intro hZero
    rw [hStat, if_neg (by omega)]
  rcases (⟨_, rfl⟩ : ∃ next : Selection, next = if status.isTerminal = false ∧
          beNat selection.bestWork < beNat start.entries[count].chainwork then
        ⟨count, start.entries[count].chainwork⟩
      else
        selection) with ⟨next, hNext⟩
  refine ⟨(tree.judged count status, next), ?_, hPass.step hGrown hOld hStat hConn hGenesis hNext⟩
  rw [propagateAt, hAt, ok_bind, hFst, ok_bind, entry_eq hNew, ok_bind, hNext]
  split <;> rfl

/- The pass over the first nodes. -/
theorem foldlM_propagateAt {source : Nat} (hGrounded : start.Grounded)
    (hSmall : start.len ≤ maxTreeHeaders) {genesis : HeaderEntry}
    (hGenesis : start.entries[0]? = some genesis) (hSpared : genesis.status.isTerminal = false)
    {count : Nat} (hCount : count ≤ start.len) :
    ∃ state,
      (List.range count).foldlM (propagateAt source) (start, ⟨NodeId.genesis, genesis.chainwork⟩) =
        .ok state ∧ Pass source start count state.1 state.2 := by
  induction count with
  | zero =>
    refine ⟨_, rfl, ⟨⟨rfl, ?_, rfl⟩, fun _ _ => rfl, ?_, ?_,
      ⟨⟨_, statusAt_of_entry hGenesis, hSpared⟩, ?_⟩, .inl rfl, (workAt_eq hGenesis).symm⟩⟩
    · exact fun n entry hEntry => ⟨entry, hEntry, rfl⟩
    · exact fun n _ hn => absurd hn (Nat.not_lt_zero n)
    · exact fun n old hOld _ => statusAt_of_entry hOld
    · exact fun hn => absurd hn (Nat.not_lt_zero _)
  | succ count ih =>
    rcases ih (by omega) with ⟨state, hState, hPass⟩
    rcases propagateAt_spec hGrown hGrounded hPass (by omega) hSmall with ⟨next, hNext, hPass'⟩
    refine ⟨next, ?_, hPass'⟩
    rw [range_succ, foldlM_append, hState, ok_bind, foldlM_cons, hNext]
    rfl

end

/-
  One ascending pass gives every node after the source its parent's verdict and finds the first of
  the best headers.
-/
theorem propagateAndReselect_spec {source : Nat} (hGrown : Grown tree.view)
    (hGrounded : tree.Grounded) (hLen : tree.len ≤ tree.cap) (hCap : tree.cap ≤ maxTreeHeaders)
    {genesis : HeaderEntry} (hGenesis : tree.entries[0]? = some genesis)
    (hSpared : genesis.status.isTerminal = false) :
    ∃ judged best, tree.propagateAndReselect source = .ok { judged with bestHeader := best } ∧
        Rejudged tree judged ∧
        (∀ n : Nat, ∀ old, tree.entries[n]? = some old → judged.statusAt n =
            some (if source < n then judged.verdictFor old else old.status)) ∧
        (∀ n : Nat, ∀ old, tree.entries[n]? = some old →
          old.status.isConnected = true → judged.statusAt n = some old.status) ∧
        judged.IsBest tree.len best := by
  rcases @foldlM_propagateAt tree hGrown source hGrounded
      (Nat.le_trans hLen hCap) genesis hGenesis hSpared tree.len (Nat.le_refl _) with
    ⟨⟨judged, selection⟩, hFold, hPass⟩
  refine ⟨judged, selection.best, ?_, hPass.rejudged, ?_, hPass.active, hPass.best⟩
  · rw [propagateAndReselect, assert_of hLen, ok_bind,
      entry_eq (show tree.entries[NodeId.genesis]? = some genesis from hGenesis),
      ok_bind, hFold, ok_bind]
    rfl
  · intro n old hOld
    exact hPass.settled n old (lt_len hOld) hOld

end HeaderTree

end Bitmigo
