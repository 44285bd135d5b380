import Bitmigo.Chain.Context
import Bitmigo.Chain.Total

/-
  What every tree that calls lead to looks like.

  Key definitions include:
    * `HeaderTree.Conforms`, the invariants one by one

  Key theorems include:
    * `tree_conforms`, they hold after any calls, and the next permitted call returns
-/

namespace Bitmigo

open U256 Arena

variable {entry : HeaderEntry}

namespace HeaderTree

/- The invariants of the tree. -/
structure Conforms (K : Primitives)
    (tree : HeaderTree) : Prop where
  parent : ∀ (n : Nat) (entry : HeaderEntry),
      tree.entries[n]? = some entry → n ≠ 0 →
        ∃ p above work,
          entry.parent = some p ∧ p < n ∧
            tree.entries[p]? = some above ∧
            above.height.val + 1 = entry.height.val ∧
            (blockWork entry.header.bits : Result Empty Work) = .ok work ∧
            0 < beNat work ∧
            beNat entry.chainwork = beNat above.chainwork + beNat work
  hash : ∀ (n : Nat) (entry : HeaderEntry),
      tree.entries[n]? = some entry → entry.hash = K.blockHash entry.header
  index : ∀ (hash : BlockHash) (n : Nat),
      tree.index.lookup hash = some n ↔ ∃ entry, tree.entries[n]? = some entry ∧ entry.hash = hash
  skip : ∀ (n : Nat) (entry : HeaderEntry),
      tree.entries[n]? = some entry → n ≠ 0 →
        ∃ target found,
          entry.skip = some target ∧
            tree.entries[target]? = some found ∧
            Ancestor tree.view target n ∧
            found.height.val = skipHeight entry.height.val
  active : ∀ (n : Nat) (status : HeaderStatus),
      tree.statusAt n = some status →
        (status.isConnected = true ↔ Ancestor tree.view n tree.tip)
  terminal : ∀ (n : Nat) (status : HeaderStatus),
      tree.statusAt n = some status →
        (status.isTerminal = true ↔
          ∃ a invalidity, Ancestor tree.view a n ∧
            tree.statusAt a = some (.invalid invalidity))
  nearest : ∀ (n : Nat) (culprit : BlockHash),
      tree.statusAt n = some (.invalidAncestor culprit) →
        ∃ a found invalidity,
          Ancestor tree.view a n ∧ a ≠ n ∧
            tree.entries[a]? = some found ∧
            found.hash = culprit ∧
            found.status = .invalid invalidity ∧
            ∀ b, Ancestor tree.view a b → b ≠ a →
              Ancestor tree.view b n → b ≠ n →
                ∀ other, tree.statusAt b ≠ some (.invalid other)
  spared : ∃ status, tree.statusAt tree.bestHeader = some status ∧ status.isTerminal = false
  best : ∀ (n : Nat) (status : HeaderStatus),
      tree.statusAt n = some status →
        status.isTerminal = false →
          tree.workAt n ≤ tree.workAt tree.bestHeader ∧
            (tree.workAt n = tree.workAt tree.bestHeader → tree.bestHeader ≤ n)
  room : tree.len ≤ tree.cap
  nodup : tree.dirty.Nodup
  dirty : ∀ n : Nat, n ∈ tree.dirty ↔ tree.dirtyAt n = true

variable {K : Primitives} {params : ChainParams} {tree : HeaderTree}
variable {n : Nat} {status : HeaderStatus}

--------
-- Parents and Skip Pointers
--------

theorem Sound.conforms_parent (hSound : tree.Sound K params)
    (hEntry : tree.entries[n]? = some entry) (hNode : n ≠ 0) :
    ∃ p above work, entry.parent = some p ∧ p < n ∧ tree.entries[p]? = some above ∧
      above.height.val + 1 = entry.height.val ∧
      (blockWork entry.header.bits : Result Empty Work) = .ok work ∧ 0 < beNat work ∧
      beNat entry.chainwork = beNat above.chainwork + beNat work := by
  rcases hSound.exists_lineage hEntry with ⟨chain, hLine⟩
  rcases Lineage.entry hLine with ⟨same, rest, hSame, rfl, hPar⟩
  rw [hEntry] at hSame
  cases hSame
  have hView := view_of_entry hEntry
  rcases hPar with ⟨hNone, _⟩ | ⟨p, hPar, hRest⟩
  · rw [hNone] at hView
    exact absurd (hSound.grown.root hView) hNode
  · rw [hPar] at hView
    rcases Lineage.entry hRest with ⟨above, _, hAbove, _⟩
    have hFits := hSound.fits hEntry hLine
    have hBelow := hSound.fits hAbove hRest
    rcases checkHeader_eq_ok.mp (hSound.worked hEntry hNode) with ⟨target, hDecode, _⟩
    rcases decodeTarget_eq_ok.mp hDecode with ⟨hNegative, hPos, hLimit, _⟩
    have hWork := workNat_lt entry.header.bits
    refine ⟨p, above, _, hPar, (hSound.grown.parent hView).1, hAbove, ?_, blockWork_eq _, ?_, ?_⟩
    · have hHigh := hFits.height
      have hLow := hBelow.height
      rw [List.length_cons] at hHigh
      omega
    · rw [beNat_targetOfNat hWork]
      exact workNat_pos hNegative hPos (Nat.lt_of_le_of_lt hLimit (beNat_lt _))
    · rw [beNat_targetOfNat hWork, hFits.chainwork, hBelow.chainwork, chainWork_cons, Nat.add_comm]

theorem Sound.conforms_skip (hSound : tree.Sound K params) (hEntry : tree.entries[n]? = some entry)
    (hNode : n ≠ 0) :
    ∃ target found, entry.skip = some target ∧ tree.entries[target]? = some found ∧
      Ancestor tree.view target n ∧ found.height.val = skipHeight entry.height.val := by
  rcases hSound.conforms_parent hEntry hNode with ⟨p, above, _, _, _, _, hHeight, _⟩
  rcases hSound.exists_lineage hEntry with ⟨chain, hLine⟩
  have hFits := hSound.fits hEntry hLine
  have hHigh : 0 < entry.height.val := by omega
  have hSkip := skipHeight_lt hHigh
  have hLen := hFits.height
  rcases hFits.skip hHigh with ⟨target, hTarget, hLanding⟩
  rcases Lineage.entry hLanding with ⟨found, _, hFound, _⟩
  refine ⟨target, found, hTarget, hFound, ?_, ?_⟩
  · rw [Arena.Lineage.ancestor_iff hSound.distinct hLanding hLine]
    exact upTo_suffix _ _
  · have hAt := (hSound.fits hFound hLanding).height
    rw [length_upTo (by omega)] at hAt
    omega

--------
-- Verdicts
--------

section

variable (hHealthy : tree.Healthy K params)

include hHealthy

/- What a node's status has to do with its parent's. -/
theorem Healthy.parent_cases (hStat : tree.statusAt n = some status) :
    (n = 0 ∧ status = .genesis) ∨ ∃ p above, IsParent tree.view p n ∧ p < n ∧
      tree.entries[p]? = some above ∧ Consistent status above.refusal := by
  rcases statusAt_eq_some.mp hStat with ⟨entry, hEntry, rfl⟩
  have hView := view_of_entry hEntry
  cases hPar : entry.parent with
  | none =>
    rw [hPar] at hView
    have hRoot := hHealthy.sound.grown.root hView
    have hGenesis := hHealthy.judged.root.mpr hRoot
    rw [hStat, Option.some.injEq] at hGenesis
    exact .inl ⟨hRoot, hGenesis⟩
  | some p =>
    have hConsistent := hHealthy.judged.consistent hEntry hPar
    rw [hPar] at hView
    rcases hHealthy.sound.grown.parent hView with ⟨hLt, hSome⟩
    rcases Option.isSome_iff_exists.mp hSome with ⟨⟨_, _⟩, hAboveView⟩
    rcases view_eq_some.mp hAboveView with ⟨above, hAbove, _⟩
    rw [refusalAt_of_entry hAbove] at hConsistent
    exact .inr ⟨p, above, ⟨_, hView⟩, hLt, hAbove, hConsistent⟩

/- A refused block is below one that is invalid itself. -/
theorem Healthy.exists_invalid (hStat : tree.statusAt n = some status)
    (hTerm : status.isTerminal = true) :
    ∃ a invalidity, Ancestor tree.view a n ∧ tree.statusAt a = some (.invalid invalidity) := by
  induction n using Nat.strong_induction_on generalizing status with
  | _ n ih =>
    rcases hHealthy.parent_cases hStat with
      ⟨_, rfl⟩ | ⟨p, above, hPar, hLt, hAbove, hConsistent⟩
    · cases hTerm
    · cases status with
      | invalid invalidity => exact ⟨n, invalidity, .refl, hStat⟩
      | invalidAncestor culprit =>
        have hRefused : above.status.isTerminal = true := by
          rw [← HeaderEntry.refusal_isSome, hConsistent]
          rfl
        rcases ih p hLt (statusAt_of_entry hAbove) hRefused with
          ⟨a, invalidity, hAnc, hInvalid⟩
        exact ⟨a, invalidity, hAnc.tail hPar, hInvalid⟩
      | genesis | headerAccepted | blockChecked _ | connected _ _ => cases hTerm

/- Below an invalid block every block is refused. -/
theorem Healthy.terminal_of_invalid {a : Nat} {invalidity : Invalidity}
    (hAnc : Ancestor tree.view a n) (hInvalid : tree.statusAt a = some (.invalid invalidity))
    (hStat : tree.statusAt n = some status) : status.isTerminal = true := by
  cases hTerm : status.isTerminal with
  | true => rfl
  | false =>
    rcases hHealthy.spared_of_ancestor hAnc hStat hTerm with ⟨other, hOther, hSpared⟩
    rw [hInvalid, Option.some.injEq] at hOther
    rw [← hOther] at hSpared
    cases hSpared

/- An inherited verdict names the nearest invalid block. -/
theorem Healthy.nearest {culprit : BlockHash}
    (hStat : tree.statusAt n = some (.invalidAncestor culprit)) :
    ∃ a found invalidity, Ancestor tree.view a n ∧ a ≠ n ∧ tree.entries[a]? = some found ∧
      found.hash = culprit ∧ found.status = .invalid invalidity ∧
      ∀ b, Ancestor tree.view a b → b ≠ a → Ancestor tree.view b n → b ≠ n →
        ∀ other, tree.statusAt b ≠ some (.invalid other) := by
  have hGrown := hHealthy.sound.grown
  induction n using Nat.strong_induction_on with
  | _ n ih =>
    rcases hHealthy.parent_cases hStat with
      ⟨_, hGenesis⟩ | ⟨p, above, hPar, hLt, hAbove, hConsistent⟩
    · cases hGenesis
    have hRefusal : above.refusal = some culprit := hConsistent
    rcases (⟨_, rfl⟩ : ∃ status, status = above.status) with ⟨status, hKind⟩
    rw [HeaderEntry.refusal, ← hKind] at hRefusal
    cases status with
    | invalid invalidity =>
      refine ⟨p, above, invalidity, .single hPar,
        Nat.ne_of_lt hLt, hAbove, Option.some.inj hRefusal, hKind.symm, ?_⟩
      intro b hUp hNe hDown hNot
      rcases hPar.ancestor_iff.mp hDown with hSame | hBelow
      · exact absurd hSame hNot
      · exact absurd (hBelow.antisymm hGrown hUp) hNe
    | invalidAncestor other =>
      have hAt := statusAt_of_entry hAbove
      rw [← hKind, Option.some.inj hRefusal] at hAt
      rcases ih p hLt hAt with
        ⟨a, found, invalidity, hAnc, _, hFound, hHash, hInvalid, hBetween⟩
      refine ⟨a, found, invalidity, hAnc.tail hPar, ?_, hFound, hHash, hInvalid, ?_⟩
      · rintro rfl
        exact absurd (hAnc.le hGrown) (Nat.not_le.mpr hLt)
      · intro b hUp hNe hDown hNot
        rcases hPar.ancestor_iff.mp hDown with hSame | hBelow
        · exact absurd hSame hNot
        · by_cases hMiddle : b = p
          · rw [hMiddle, hAt]
            intro other hEq
            cases hEq
          · exact hBetween b hUp hNe hBelow hMiddle
    | genesis | headerAccepted | blockChecked _ | connected _ _ => cases hRefusal

theorem Healthy.conforms : tree.Conforms K where
  parent _ _ := hHealthy.sound.conforms_parent
  hash n entry hEntry := by
    rcases hHealthy.sound.exists_lineage hEntry with ⟨chain, hLine⟩
    exact (hHealthy.sound.fits hEntry hLine).hash
  index _ _ := hHealthy.sound.index
  skip _ _ := hHealthy.sound.conforms_skip
  active _ _ := hHealthy.judged.active
  terminal n status hStat :=
    ⟨hHealthy.exists_invalid hStat, fun ⟨_, _, hAnc, hInvalid⟩ =>
        hHealthy.terminal_of_invalid hAnc hInvalid hStat⟩
  nearest _ _ := hHealthy.nearest
  spared := hHealthy.judged.best.spared
  best _ _ hStat := hHealthy.judged.best.most (statusAt_lt_len hStat) hStat
  room := hHealthy.sound.len_le
  nodup := hHealthy.judged.marked.nodup
  dirty _ := hHealthy.judged.marked.mem_iff

end

end HeaderTree

open HeaderTree

/-
  While every target is large, the tree conforms after any calls that returned, and the next
  permitted call returns.
-/
theorem tree_conforms {K : Primitives} {params : ChainParams} (hTab : params.Tabled K)
    (hGenesis : LargeTarget params params.genesis.header)
    {cap : Nat} {log : List (Call × Answer)} {tree : HeaderTree}
    (hRun : TreeRun K params cap log tree)
    (hTargets : ∀ {call answer}, (call, answer) ∈ log → call.LargeTargets params) :
    tree.Conforms K ∧
      ∀ call : Call, call.Permitted tree →
        call.LargeTargets params →
          ∃ answer after, call.apply K params tree = .ok (answer, after) := by
  have hHealthy := hRun.healthy hTab
  have hLarge : tree.Large params := hRun.large hTab hGenesis hTargets
  exact ⟨hHealthy.conforms, fun call hPermitted hCall =>
    Call.returns hTab hHealthy hLarge hPermitted hCall⟩

--------
-- A Refused Branch
--------

namespace SmallChain

/- The easiest target of the test network is large. -/
theorem largeTarget {header : Header} (hBits : header.bits = 0x207fffff) :
    LargeTarget params header := by
  intro target hDecode
  rw [hBits] at hDecode
  rcases decodeTarget_eq_ok.mp hDecode with ⟨_, _, _, rfl⟩
  rw [beNat_targetOfNat (by decide)]
  decide

/- Two branches, and a verdict that refuses one of them. -/
def verdict : List Call := connectLeft ++ [.accept right now, .accept top now,
  .invalidate 2 (.reloaded .checkBlock), .clearDirty]

theorem verdict_returns :
    (do
      let tree ← HeaderTree.withCap crypto.primitives params 8
      let tree ← tree.play crypto.primitives params verdict
      return tree.bestHeader) = (.ok 1 : Result Empty NodeId) := by
  decide +kernel

theorem verdict_largeTargets : ∀ call ∈ verdict, call.LargeTargets params := by
  simp only [verdict, connectLeft, List.cons_append, List.nil_append, List.forall_mem_cons,
    Call.LargeTargets, true_and]
  refine ⟨largeTarget rfl, largeTarget rfl, largeTarget rfl, ?_⟩
  intro call hNil
  cases hNil

/- The tree conforms once its heaviest branch is refused. -/
theorem tree_conforms_verdict :
    ∃ log tree,
      TreeRun crypto.primitives params 8 log tree ∧
        tree.bestHeader = 1 ∧
        tree.Conforms crypto.primitives := by
  have hRet := verdict_returns
  simp only [Result.bind_eq_ok, Result.pure_inj] at hRet
  rcases hRet with ⟨first, hStart, tree, hPlay, hBest⟩
  rcases (TreeRun.start hStart).play hPlay with ⟨log, hRun, hCalls⟩
  refine ⟨[] ++ log, tree, hRun, hBest, (tree_conforms tabled (largeTarget rfl) hRun ?_).1⟩
  intro call answer hMem
  refine verdict_largeTargets call ?_
  rw [← hCalls]
  exact List.mem_map_of_mem hMem

end SmallChain

end Bitmigo
