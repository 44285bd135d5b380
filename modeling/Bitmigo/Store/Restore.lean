import Bitmigo.Block.Delta
import Bitmigo.Store.Undo

/-
  Disconnecting a block: the record made of its coins puts the set back as it was.

  Key definitions include:
    * `UndoRecord.of`, the record of a block that was confirmed
    * `BlockDelta.swapped`, the change of a disconnection

  Key theorems include:
    * `UndoRecord.resolve_of`, every coin is found at its input
    * `undo_restores`, the set before the block is back
-/

namespace Bitmigo

open Result List

variable {ε : Type} {K : Primitives} {block : Block} {prefetch : Prefetch} {context : Context}
variable {confirmed : Confirmed} {index : Nat} {state : ConfirmState} {coin : Coin}

--------
-- The Order of the Coins
--------

/- What the loop of `confirm` keeps: the coins of the set stand in the order of their inputs. -/
def InOrder (block : Block) (index : Nat) (state : ConfirmState) : Prop :=
  (state.spent.map (·.outpoint)).Sublist (((block.txdata.take index).drop 1).flatMap spends)

theorem InOrder.step {txids : TxidIndex} {tx : Transaction} {after : ConfirmState}
    (hTx : block.txdata[index]? = some tx) (hState : InOrder block index state)
    (hStep : confirmTx K block txids prefetch context index tx state = .ok after) :
    InOrder block (index + 1) after := by
  rcases Nat.eq_zero_or_pos index with rfl | hIndex
  · rw [(confirmTx_coinbase_eq_ok.mp hStep).2.2]
    simpa [InOrder] using hState
  · rcases (confirmTx_spend_eq_ok hIndex).mp hStep with ⟨_, resolved, _, hSpend⟩
    have hInside : 1 ≤ (block.txdata.take index).length := by
      have hLt := (List.getElem?_eq_some_iff.mp hTx).1
      rw [length_take]
      omega
    rw [InOrder, hSpend.spent, map_append, map_map, take_add_one, hTx,
      Option.toList_some, drop_append_of_le_length hInside, flatMap_append,
      flatMap_singleton, ← hSpend.outpoints]
    exact hState.append (filter_sublist.map _)

section

variable (hConfirm : confirm K block prefetch context = .ok confirmed)

include hConfirm

theorem sublist_spends : (confirmed.delta.spent.map (·.outpoint)).Sublist block.spends := by
  rcases confirm_eq_ok.mp hConfirm with ⟨_, _, state, hBlock⟩
  have hOrder : InOrder block block.txdata.length state :=
    confirmTxs_induct (fun _ _ _ _ => InOrder.step)
      (show InOrder block 0 .initial from nil_sublist _) hBlock.run
  rwa [InOrder, take_length, ← hBlock.spent] at hOrder

theorem length_spends_le : block.spends.length ≤ maxBlockInputs := by
  rcases confirm_eq_ok.mp hConfirm with ⟨_, _, _, hBlock⟩
  have hCount := hBlock.count
  simp only [inputCount, bind_eq_ok, assert_eq_ok] at hCount
  rcases hCount with ⟨_, hCount, _⟩
  rw [Block.spends, length_flatMap]
  simpa only [length_map] using hCount

--------
-- What a Block Destroys
--------

/- The coins a delta takes from the set. -/
def BlockDelta.destroyed (delta : BlockDelta) : List Coin :=
  delta.spent ++ delta.overwritten

variable {S : CoinSet} {medianTimePast : Height → BlockTime}
variable (hHonest : HonestPrefetch K block context S medianTimePast prefetch)

include hHonest

/- What a block destroys was in the set. -/
theorem get_of_destroyed (hCoin : coin ∈ confirmed.delta.destroyed) :
    S.get coin.outpoint = some coin := by
  rcases confirm_eq_ok.mp hConfirm with ⟨_, _, _, hBlock⟩
  rcases mem_append.mp hCoin with hSpent | hOverwritten
  · have hConserves := conserves_of_run hBlock.index (fun _ => hHonest.get_of_mem) hBlock.run
    exact (hConserves.spent coin (hBlock.spent ▸ hSpent)).1
  · rw [overwritten_eq_existing hConfirm] at hOverwritten
    exact ((hHonest.existing coin).mp hOverwritten).2.1

/- A coin of the set that gives way to one of the block is destroyed. -/
theorem mem_destroyed_of_created
    (hSkip : context.rules.bip30 = .skip → ∀ outpoint ∈ ownOutpoints K block, S.get outpoint = none)
    (hCreated : coin ∈ confirmed.delta.created) (hThere : S.get coin.outpoint ≠ none) :
    coin.outpoint ∈ confirmed.delta.destroyed.map (·.outpoint) := by
  rcases confirm_eq_ok.mp hConfirm with ⟨_, _, _, hBlock⟩
  rw [(net_eq_ok.mp hBlock.net).1, created_of_run hBlock.run] at hCreated
  rcases mem_createdBefore.mp (mem_of_mem_filter hCreated) with ⟨_, tx, _, hTx, hCoin⟩
  have hOwn : coin.outpoint ∈ ownOutpoints K block := by
    rcases mem_coinsOf.mp hCoin with ⟨vout, _, hOutput, _, rfl⟩
    have hVout := mem_range.mpr (List.getElem?_eq_some_iff.mp hOutput).1
    exact mem_flatMap.mpr ⟨tx, mem_of_getElem? hTx, mem_map.mpr ⟨vout, hVout, rfl⟩⟩
  have hRule : context.rules.bip30 ≠ .skip := fun hRule => hThere (hSkip hRule _ hOwn)
  obtain ⟨old, hOld⟩ := Option.ne_none_iff_exists'.mp hThere
  have hKey : old.outpoint = coin.outpoint := S.keyed _ _ hOld
  rw [← hKey] at hOld hOwn ⊢
  refine mem_map_of_mem (mem_append_right _ ?_)
  rw [overwritten_eq_existing hConfirm]
  exact (hHonest.existing old).mpr ⟨hRule, hOld, hOwn⟩

end

--------
-- Its Record
--------

namespace UndoRecord

/- A coin as the disk holds it. -/
def stored (coin : Coin) : StoredCoin :=
  ⟨coin.height, coin.coinbase, coin.output⟩

/- The loop over the coins, each looked for from the cursor on. -/
def place (outpoints : List OutPoint) : List Coin → Nat → Result ε (List UndoCoin)
  | [], _ => return []
  | coin :: coins, cursor => do
    let index := cursor + (outpoints.drop cursor).idxOf coin.outpoint
    assert (index < outpoints.length)
    let others ← place outpoints coins (index + 1)
    return (clampU32 index, stored coin) :: others

def of (spent overwritten : List Coin) (block : Block) : Result ε UndoRecord := do
  let outpoints := block.spends
  assert (spent.length ≤ outpoints.length)
  let coins ← place outpoints spent 0
  return ⟨coins, overwritten.map fun coin => (coin.outpoint, stored coin)⟩

theorem resolve_cons {entry : UndoCoin} {entries : List UndoCoin} {outpoint : OutPoint}
    {others restored : List (OutPoint × StoredCoin)}
    (hInput : block.spends[entry.1.toNat]? = some outpoint)
    (hRest : resolve ⟨entries, others⟩ block = .ok restored) :
    resolve ⟨entry :: entries, others⟩ block = .ok ((outpoint, entry.2) :: restored) := by
  rcases bind_eq_ok.mp hRest with ⟨found, hFound, hSum⟩
  simp only [resolve, mapM_cons, hInput]
  rw [hFound, ← Except.ok.inj hSum]
  rfl

/- The first place of the head of a sublist leaves room for the rest. -/
theorem sublist_drop_idxOf {outpoint : OutPoint} {rest list : List OutPoint}
    (hSublist : (outpoint :: rest).Sublist list) : list[list.idxOf outpoint]? = some outpoint ∧
      rest.Sublist (list.drop (list.idxOf outpoint + 1)) := by
  rcases cons_sublist_iff.mp hSublist with ⟨before, after, rfl, hMem, hRest⟩
  have hLt := idxOf_lt_length_iff.mpr hMem
  rw [idxOf_append_of_mem hMem, getElem?_append_left hLt, getElem?_eq_getElem hLt,
    getElem_idxOf, drop_append_of_le_length hLt]
  exact ⟨rfl, hRest.trans (sublist_append_right _ _)⟩

/- Coins in the order of the inputs are found, and the inputs lead back to their outpoints. -/
theorem resolve_place {coins : List Coin} {cursor : Nat}
    (hOrder : (coins.map (·.outpoint)).Sublist (block.spends.drop cursor))
    (hLen : block.spends.length ≤ maxBlockInputs) :
    ∃ entries, (place block.spends coins cursor : Result ε (List UndoCoin)) = .ok entries ∧
      ∀ others, resolve ⟨entries, others⟩ block =
        .ok (coins.map (fun coin => (coin.outpoint, stored coin)) ++ others) := by
  induction coins generalizing cursor with
  | nil => exact ⟨[], rfl, fun _ => rfl⟩
  | cons coin coins ih =>
    obtain ⟨hInput, hLater⟩ := sublist_drop_idxOf hOrder
    rw [getElem?_drop] at hInput
    rw [drop_drop, ← Nat.add_assoc] at hLater
    generalize hIndex : cursor + (block.spends.drop cursor).idxOf coin.outpoint = index at *
    have hInside := (List.getElem?_eq_some_iff.mp hInput).1
    have hClamp : (clampU32 index).toNat = index := by
      have hBound : maxBlockInputs < 2 ^ 32 := by decide
      rw [toNat_clampU32]
      omega
    obtain ⟨entries, hPlace, hResolve⟩ := ih hLater
    refine ⟨(clampU32 index, stored coin) :: entries, ?_, fun others => ?_⟩
    · simp only [place, hIndex, assert_of hInside, hPlace, ok_bind]
      rfl
    · exact resolve_cons (hClamp.symm ▸ hInput) (hResolve others)

/- The record of a confirmed block leads back to its coins. -/
theorem resolve_of (hConfirm : confirm K block prefetch context = .ok confirmed) :
    ∃ record : UndoRecord, (of confirmed.delta.spent confirmed.delta.overwritten block :
        Result ε UndoRecord) = .ok record ∧ record.resolve block =
          .ok (confirmed.delta.destroyed.map fun coin => (coin.outpoint, stored coin)) := by
  have hOrder := sublist_spends hConfirm
  have hFew : confirmed.delta.spent.length ≤ block.spends.length := by simpa using hOrder.length_le
  obtain ⟨entries, hPlace, hResolve⟩ :=
    resolve_place (ε := ε) (show Sublist _ (block.spends.drop 0) from hOrder)
      (length_spends_le hConfirm)
  refine ⟨⟨entries, _⟩, ?_, (hResolve _).trans (by rw [← map_append]; rfl)⟩
  simp only [of, assert_of hFew, hPlace, ok_bind]
  rfl

end UndoRecord

/- A coin of the record at its outpoint again. -/
def restored (entry : OutPoint × StoredCoin) : Coin :=
  ⟨entry.1, entry.2.output, entry.2.height, entry.2.coinbase⟩

/- The same type swapped: what was created out, what was destroyed in. -/
def BlockDelta.swapped (delta : BlockDelta) (entries : List (OutPoint × StoredCoin)) : BlockDelta :=
  { delta with spent := delta.created, overwritten := [], created := entries.map restored }

/- The record of a block resolves to what the block destroyed, and the swap restores the set. -/
theorem undo_restores {S : CoinSet} {medianTimePast : Height → BlockTime}
    (hHonest : HonestPrefetch K block context S medianTimePast prefetch)
    (hConfirm : confirm K block prefetch context = .ok confirmed) (hSkip :
      context.rules.bip30 = .skip → ∀ outpoint ∈ ownOutpoints K block, S.get outpoint = none) :
    ∃ record entries, (UndoRecord.of confirmed.delta.spent confirmed.delta.overwritten block :
        Result Empty UndoRecord) = .ok record ∧ record.resolve block = .ok entries ∧
      entries.map restored = confirmed.delta.spent ++ confirmed.delta.overwritten ∧
      (S.applyDelta confirmed.delta).applyDelta (confirmed.delta.swapped entries) = S := by
  obtain ⟨record, hOf, hResolve⟩ := UndoRecord.resolve_of (ε := Empty) hConfirm
  have hBack : (confirmed.delta.destroyed.map fun coin =>
      (coin.outpoint, UndoRecord.stored coin)).map restored = confirmed.delta.destroyed := by
    rw [map_map]
    exact map_id _
  refine ⟨record, _, hOf, hResolve, hBack, CoinSet.ext ?_⟩
  show KeyedMap.insertAll _ (map restored _) (KeyedMap.eraseAll (map _ (_ ++ [])) _) = _
  rw [append_nil, hBack]
  exact KeyedMap.swap_swap (fun coin => get_of_destroyed hConfirm hHonest)
    fun coin => mem_destroyed_of_created hConfirm hHonest hSkip

open RepeatedCoinbase in
theorem undo_restores_repeat :
    ∃ entries, entries.map restored = [oldCoin] ∧
      (coinSet.applyDelta (confirmedAt repeatContext.height [oldCoin]).delta).applyDelta
        ((confirmedAt repeatContext.height [oldCoin]).delta.swapped entries) = coinSet := by
  obtain ⟨_, entries, _, _, hEntries⟩ :=
    undo_restores honest_repeat confirm_repeat (by rintro ⟨⟩)
  exact ⟨entries, hEntries⟩

end Bitmigo
