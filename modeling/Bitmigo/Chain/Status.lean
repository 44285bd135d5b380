import Bitmigo.Chain.Growth

/-
  How the statuses of the header tree change.

  Key definitions include:
    * `HeaderTree.SameArena`, nothing but statuses and marks differs
    * `HeaderTree.Marked`, the dirty list is the dirty flags
    * `HeaderTree.restated`, the tree with one status changed and marked

  Key theorems include:
    * `HeaderTree.Sound.of_sameArena`
    * `HeaderTree.blockChecked_eq_ok`, `HeaderTree.connected_eq_ok` and
      `HeaderTree.disconnected_eq_ok`, when each transition is made and what it does
    * `HeaderTree.clearDirty_eq`
-/

namespace Bitmigo

open Result List

open Arena (upTo)

variable {n : Nat} {status : HeaderStatus}

--------
-- The Arena Is Kept
--------

/- An entry without what a status change touches. -/
def HeaderEntry.place (entry : HeaderEntry) : HeaderEntry :=
  { entry with status := .genesis, dirty := false }

namespace HeaderTree

variable {K : Primitives} {params : ChainParams} {tree after : HeaderTree}

/- Nothing but statuses and marks differs. -/
structure SameArena (tree after : HeaderTree) : Prop where
  entries : after.entries.map (·.place) = tree.entries.map (·.place)
  index : after.index = tree.index
  cap : after.cap = tree.cap

theorem SameArena.trans {last : HeaderTree} (hFst : tree.SameArena after)
    (hSnd : after.SameArena last) : tree.SameArena last :=
  ⟨hSnd.entries.trans hFst.entries, hSnd.index.trans hFst.index, hSnd.cap.trans hFst.cap⟩

section

variable (hSame : tree.SameArena after)

include hSame

theorem SameArena.symm : after.SameArena tree :=
  ⟨hSame.entries.symm, hSame.index.symm, hSame.cap.symm⟩

theorem SameArena.len : after.len = tree.len := by
  have hLen := congrArg List.length hSame.entries
  simpa [HeaderTree.len] using hLen

theorem SameArena.entry {entry : HeaderEntry} (hEntry : after.entries[n]? = some entry) :
    ∃ old, tree.entries[n]? = some old ∧ old.place = entry.place := by
  have hAt := congrArg (·[n]?) hSame.entries
  simp only [getElem?_map, hEntry, Option.map_some] at hAt
  rcases Option.map_eq_some_iff.mp hAt.symm with ⟨old, hOld, hPlace⟩
  exact ⟨old, hOld, hPlace⟩

theorem SameArena.view : after.view = tree.view := by
  funext n
  have hAt := congrArg (fun entries => (entries[n]?).map fun entry : HeaderEntry =>
      (entry.header, entry.parent)) hSame.entries
  simpa [HeaderTree.view, Function.comp_def, HeaderEntry.place] using hAt

theorem SameArena.workAt (n : Nat) : after.workAt n = tree.workAt n := by
  have hAt := congrArg (fun entries => ((entries[n]?).map fun entry : HeaderEntry =>
      U256.beNat entry.chainwork).getD 0) hSame.entries
  simpa [HeaderTree.workAt, Function.comp_def, HeaderEntry.place] using hAt

end

theorem Sound.of_sameArena (hSound : tree.Sound K params) (hSame : tree.SameArena after) :
    after.Sound K params := by
  have hView := hSame.view
  refine ⟨hView ▸ hSound.grown, ?_, ?_, ?_, ?_, ?_, ?_, ?_⟩
  · rw [HeaderTree.Lineage, hView]
    exact hSound.root
  · intro n entry chain hEntry hLine
    rw [HeaderTree.Lineage, hView] at hLine
    rcases hSame.entry hEntry with ⟨old, hOld, hPlace⟩
    have hFits := hSound.fits hOld hLine
    simp only [HeaderEntry.place, HeaderEntry.mk.injEq] at hPlace
    rcases hPlace with ⟨hHeader, hHash, hHeight, hWork, _, hSkip, _⟩
    refine ⟨?_, ?_, ?_, ?_⟩
    · rw [← hHash, ← hHeader, hFits.hash]
    · rw [← hHeight, hFits.height]
    · rw [← hWork, hFits.chainwork]
    · rw [← hHeight, ← hSkip, HeaderTree.Lineage, hView]
      exact hFits.skip
  · intro n p entry above hEntry hPar hAbove
    rcases hSame.entry hEntry with ⟨old, hOld, hPlace⟩
    rcases hSame.entry hAbove with ⟨below, hBelow, hPlace'⟩
    simp only [HeaderEntry.place, HeaderEntry.mk.injEq] at hPlace hPlace'
    rw [← hPlace.1, ← hPlace'.2.1]
    exact hSound.linked hOld (hPlace.2.2.2.2.1.trans hPar) hBelow
  · intro n entry hEntry hNe
    rcases hSame.entry hEntry with ⟨old, hOld, hPlace⟩
    simp only [HeaderEntry.place, HeaderEntry.mk.injEq] at hPlace
    rw [← hPlace.1]
    exact hSound.worked hOld hNe
  · intro hash n
    rw [hSame.index, hSound.index]
    constructor
    · rintro ⟨old, hOld, hHash⟩
      rcases hSame.symm.entry hOld with ⟨new, hNew, hPlace⟩
      simp only [HeaderEntry.place, HeaderEntry.mk.injEq] at hPlace
      exact ⟨new, hNew, hPlace.2.1.trans hHash⟩
    · rintro ⟨new, hNew, hHash⟩
      rcases hSame.entry hNew with ⟨old, hOld, hPlace⟩
      simp only [HeaderEntry.place, HeaderEntry.mk.injEq] at hPlace
      exact ⟨old, hOld, hPlace.2.1.trans hHash⟩
  · rw [hSame.len, hSame.cap]
    exact hSound.len_le
  · rw [hSame.cap]
    exact hSound.cap_le

--------
-- Statuses and Marks
--------

/- The status of a node. -/
def statusAt (tree : HeaderTree) (n : Nat) : Option HeaderStatus :=
  tree.entries[n]?.map (·.status)

/- Is a node marked? -/
def dirtyAt (tree : HeaderTree) (n : Nat) : Bool :=
  (tree.entries[n]?.map (·.dirty)).getD false

theorem statusAt_of_entry {entry : HeaderEntry} (hEntry : tree.entries[n]? = some entry) :
    tree.statusAt n = some entry.status := by
  simp [statusAt, hEntry]

theorem statusAt_eq_some :
    tree.statusAt n = some status ↔
      ∃ entry, tree.entries[n]? = some entry ∧ entry.status = status := by
  simp [statusAt]

theorem dirtyAt_of_entry {entry : HeaderEntry} (hEntry : tree.entries[n]? = some entry) :
    tree.dirtyAt n = entry.dirty := by
  simp [dirtyAt, hEntry]

/- The dirty list holds the marked entries, each once. -/
structure Marked (tree : HeaderTree) : Prop where
  nodup : tree.dirty.Nodup
  mem_iff : ∀ {n}, n ∈ tree.dirty ↔ tree.dirtyAt n = true

theorem Marked.lt_len (hMarked : tree.Marked) (hMem : n ∈ tree.dirty) : n < tree.len := by
  rw [hMarked.mem_iff, dirtyAt] at hMem
  cases hEntry : tree.entries[n]? with
  | none => simp [hEntry] at hMem
  | some entry => exact HeaderTree.lt_len hEntry

theorem Marked.length_le (hMarked : tree.Marked) : tree.dirty.length ≤ tree.len := by
  have hSub : tree.dirty ⊆ List.range tree.len :=
    fun _ hMem => mem_range.mpr (hMarked.lt_len hMem)
  simpa using (hMarked.nodup.subperm hSub).length_le

/- One status changed and marked. -/
def restated (tree : HeaderTree) (node : NodeId) (status : HeaderStatus) : HeaderTree :=
  { tree with
    entries := tree.entries.modify node fun entry =>
      { entry with status := status, dirty := true }
    dirty :=
      if tree.dirtyAt node then tree.dirty
      else tree.dirty ++ [node] }

theorem sameArena_restated (node : NodeId) (status : HeaderStatus) :
    tree.SameArena (tree.restated node status) := by
  refine ⟨?_, rfl, rfl⟩
  apply ext_getElem?
  intro n
  simp only [restated, getElem?_map, getElem?_modify]
  cases tree.entries[n]? with
  | none => rfl
  | some entry =>
    by_cases hSame : node = n
    · simp [hSame, HeaderEntry.place]
    · simp [hSame]

theorem statusAt_restated {node n : Nat} {status : HeaderStatus} (hNode : node < tree.len) :
    (tree.restated node status).statusAt n = if n = node then some status else tree.statusAt n := by
  simp only [statusAt, restated, getElem?_modify]
  by_cases hSame : n = node
  · subst hSame
    simp [getElem?_eq_getElem hNode]
  · simp [hSame, Ne.symm hSame]

theorem dirtyAt_restated {node : Nat} (hNode : node < tree.len) :
    (tree.restated node status).dirtyAt n = (decide (n = node) || tree.dirtyAt n) := by
  simp only [dirtyAt, restated, getElem?_modify]
  by_cases hSame : n = node
  · subst hSame
    simp [getElem?_eq_getElem hNode]
  · simp [hSame, Ne.symm hSame]

section

variable (hMarked : tree.Marked)

include hMarked

theorem Marked.restated {node : Nat} (hNode : node < tree.len) (status : HeaderStatus) :
    (tree.restated node status).Marked := by
  constructor
  · show (if tree.dirtyAt node then tree.dirty else tree.dirty ++ [node]).Nodup
    split
    · exact hMarked.nodup
    · rename_i hClean
      rw [← hMarked.mem_iff] at hClean
      exact nodup_append.mpr ⟨hMarked.nodup, nodup_singleton _, by
          rintro m hm _ hNew rfl
          cases mem_singleton.mp hNew
          exact hClean hm⟩
  · intro n
    rw [dirtyAt_restated hNode]
    show n ∈ (if tree.dirtyAt node then tree.dirty else tree.dirty ++ [node]) ↔ _
    rw [Bool.or_eq_true, decide_eq_true_eq]
    split
    · rename_i hFlag
      constructor
      · exact fun hMem => .inr (hMarked.mem_iff.mp hMem)
      · rintro (rfl | hMem)
        · exact hMarked.mem_iff.mpr hFlag
        · exact hMarked.mem_iff.mpr hMem
    · rw [mem_append, mem_singleton, or_comm, hMarked.mem_iff]

/- Change a status, then mark. -/
theorem setStatus_markDirty {node : Nat} {entry : HeaderEntry}
    (hEntry : tree.entries[node]? = some entry) (status : HeaderStatus) :
    (do
      let tree ← tree.setStatus node status
      tree.markDirty node) = .ok (tree.restated node status) := by
  have hNode : node < tree.entries.length := lt_len hEntry
  have hModify : (tree.entries.modify node fun entry =>
        { entry with status := status, dirty := true }) =
          tree.entries.set node { entry with status := status, dirty := true } := by
    rw [modify_eq_set_getElem?, hEntry]
    rfl
  have hSet : (tree.entries.set node
        { entry with status := status })[node]? = some { entry with status := status } := by
    rw [getElem?_set_self hNode]
  rw [setStatus, modifyEntry, entry_eq hEntry, ok_bind,
    pure_eq_ok, ok_bind, markDirty, entry_eq hSet, ok_bind, restated, dirtyAt_of_entry hEntry]
  dsimp only
  by_cases hFlag : entry.dirty = true
  · rw [if_pos hFlag, if_pos hFlag, pure_eq_ok, hModify, hFlag]
  · have hMore : (tree.dirty ++ [node]).length ≤ tree.entries.length := by
      have hGrow := (hMarked.restated hNode status).length_le
      rw [(sameArena_restated node status).len] at hGrow
      simpa [restated, dirtyAt_of_entry hEntry, hFlag, len] using hGrow
    rw [if_neg hFlag, if_neg hFlag, modifyEntry, entry_eq hSet, ok_bind, pure_eq_ok, ok_bind,
      assert_of (by simpa using hMore), ok_bind, pure_eq_ok, hModify, set_set]

--------
-- Transitions
--------

theorem blockChecked_eq_ok {node : NodeId} {location : BlockLocation} :
    tree.blockChecked node location = .ok after ↔ tree.statusAt node = some .headerAccepted ∧
      after = tree.restated node (.blockChecked location) := by
  rw [statusAt_eq_some]
  simp only [blockChecked, entry, bind_eq_ok, expect_eq_ok, assert_eq_ok, exists_const]
  constructor
  · rintro ⟨entry, hEntry, hStat, _, hSet, hMark⟩
    have hBoth := setStatus_markDirty hMarked hEntry (.blockChecked location)
    rw [hSet, ok_bind, hMark] at hBoth
    cases hBoth
    exact ⟨⟨entry, hEntry, hStat⟩, rfl⟩
  · rintro ⟨⟨entry, hEntry, hStat⟩, rfl⟩
    rcases bind_eq_ok.mp (setStatus_markDirty hMarked hEntry (.blockChecked location)) with
      ⟨middle, hSet, hMark⟩
    exact ⟨entry, hEntry, hStat, middle, hSet, hMark⟩

theorem connected_eq_ok {node : NodeId} {undo : UndoLocation} :
    tree.connected node undo = .ok after ↔ ∃ entry location, tree.entries[node]? = some entry ∧
          entry.parent = some tree.tip ∧
          entry.status = .blockChecked location ∧
          after = { tree.restated node (.connected location undo) with
              tip := node } := by
  constructor
  · intro hConn
    simp only [connected, entry, bind_eq_ok, expect_eq_ok, assert_eq_ok, exists_const] at hConn
    rcases hConn with ⟨entry, hEntry, hPar, hRest⟩
    cases hStat : entry.status with
    | blockChecked location =>
      rw [hStat] at hRest
      simp only [bind_eq_ok] at hRest
      rcases hRest with ⟨_, hSet, _, hMark, hTip⟩
      have hBoth := setStatus_markDirty hMarked hEntry (.connected location undo)
      rw [hSet, ok_bind, hMark] at hBoth
      cases hBoth
      cases hTip
      exact ⟨entry, location, hEntry, hPar, hStat, rfl⟩
    | genesis | headerAccepted | connected _ _ | invalid _ | invalidAncestor _ =>
      rw [hStat] at hRest; cases hRest
  · rintro ⟨entry, location, hEntry, hPar, hStat, rfl⟩
    rcases bind_eq_ok.mp (setStatus_markDirty hMarked hEntry (.connected location undo)) with
      ⟨middle, hSet, hMark⟩
    rw [connected, entry_eq hEntry, ok_bind, assert_of hPar, ok_bind, hStat]
    dsimp only
    rw [hSet, ok_bind, hMark, ok_bind]
    rfl

theorem disconnected_eq_ok {node : NodeId} :
    tree.disconnected node = .ok after ↔ ∃ entry location undo p, node = tree.tip ∧
          tree.entries[node]? = some entry ∧
          entry.status = .connected location undo ∧
          entry.parent = some p ∧
          after = { tree.restated node (.blockChecked location) with
              tip := p } := by
  constructor
  · intro hDisconnected
    simp only [disconnected, entry, bind_eq_ok, expect_eq_ok, assert_eq_ok, exists_const]
      at hDisconnected
    rcases hDisconnected with ⟨hTip, entry, hEntry, hRest⟩
    cases hStat : entry.status with
    | connected location undo =>
      rw [hStat] at hRest
      simp only [bind_eq_ok, expect_eq_ok] at hRest
      rcases hRest with ⟨p, hPar, _, hSet, _, hMark, hEq⟩
      have hBoth := setStatus_markDirty hMarked hEntry (.blockChecked location)
      rw [hSet, ok_bind, hMark] at hBoth
      cases hBoth
      cases hEq
      exact ⟨entry, location, undo, p, hTip, hEntry, hStat, hPar, rfl⟩
    | genesis | headerAccepted | blockChecked _ | invalid _ | invalidAncestor _ =>
      rw [hStat] at hRest; cases hRest
  · rintro ⟨entry, location, undo, p, hTip, hEntry, hStat, hPar, rfl⟩
    rcases bind_eq_ok.mp (setStatus_markDirty hMarked hEntry (.blockChecked location)) with
      ⟨middle, hSet, hMark⟩
    rw [disconnected, assert_of hTip, ok_bind, entry_eq hEntry, ok_bind, hStat]
    dsimp only
    rw [hPar, expect_some, ok_bind, hSet, ok_bind, hMark, ok_bind]
    rfl

end

/- No entry marked. -/
def cleared (tree : HeaderTree) : HeaderTree :=
  { tree with
    entries := tree.entries.map fun entry =>
      { entry with dirty := false }
    dirty := [] }

theorem clearFlags_spec {nodes : List Nat} (hNodes : ∀ n ∈ nodes, n < tree.len) :
    ∃ entries, tree.clearFlags nodes = .ok { tree with entries := entries } ∧
        ∀ n : Nat, entries[n]? = tree.entries[n]?.map fun entry =>
            if n ∈ nodes then { entry with dirty := false }
            else entry := by
  induction nodes generalizing tree with
  | nil => exact ⟨tree.entries, rfl, by simp⟩
  | cons node rest ih =>
    have hNode : node < tree.entries.length := hNodes node mem_cons_self
    have hEntry := getElem?_eq_getElem hNode
    rcases @ih { tree with
          entries := tree.entries.set node { tree.entries[node] with dirty := false } }
        (by
          intro n hMem
          have hLt := hNodes n (mem_cons_of_mem _ hMem)
          simpa [len] using hLt) with
      ⟨entries, hClear, hAt⟩
    refine ⟨entries, ?_, ?_⟩
    · rw [clearFlags, modifyEntry, entry_eq hEntry, ok_bind, pure_eq_ok, ok_bind, hClear]
    · intro n
      rw [hAt, getElem?_set]
      by_cases hSame : node = n
      · subst hSame
        simp [hNode]
      · simp [hSame, Ne.symm hSame]

theorem clearDirty_eq (hMarked : tree.Marked) : tree.clearDirty = .ok tree.cleared := by
  rcases clearFlags_spec fun _ hMem => hMarked.lt_len hMem with ⟨entries, hClear, hAt⟩
  rw [clearDirty, hClear, ok_bind, pure_eq_ok, cleared]
  congr 2
  apply ext_getElem?
  intro n
  rw [hAt, getElem?_map]
  cases hEntry : tree.entries[n]? with
  | none => rfl
  | some entry =>
    by_cases hMem : n ∈ tree.dirty
    · simp [hMem]
    · have hClean : entry.dirty = false := by
        rw [hMarked.mem_iff, dirtyAt_of_entry hEntry] at hMem
        exact Bool.not_eq_true _ ▸ hMem
      simp [hMem, ← hClean]

theorem sameArena_cleared : tree.SameArena tree.cleared := by
  refine ⟨?_, rfl, rfl⟩
  simp [cleared, HeaderEntry.place, Function.comp_def]

theorem statusAt_cleared (n : Nat) : tree.cleared.statusAt n = tree.statusAt n := by
  simp [statusAt, cleared, Function.comp_def]

theorem marked_cleared : tree.cleared.Marked := by
  refine ⟨nodup_nil, ?_⟩
  intro n
  simp only [cleared, dirtyAt, getElem?_map, not_mem_nil, false_iff, Option.map_map]
  cases tree.entries[n]? <;> simp

end HeaderTree

end Bitmigo
