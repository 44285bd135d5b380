import Bitmigo.Block.Coins
import Bitmigo.Lib.KeyedMap
import Mathlib.Algebra.Order.BigOperators.Group.Finset

/-
  What a confirmed block does to the set of coins.

  Key definitions include:
    * `CoinSet`, the unspent coins by outpoint
    * `HonestPrefetch`, the answers a set gives to `populate`
    * `CoinSet.applyDelta`
    * `ConfirmedChain`, blocks confirmed one on another

  Key theorems include:
    * `applyDelta_order`, when the two halves of a delta may be applied in either order
    * `no_inflation`, a block adds its subsidy at most
-/

namespace Bitmigo

open List Crypto

variable {pair : TxIn × Option InputCoin} {resolved : ResolvedInput} {after : ConfirmState}

--------
-- Sets of Coins
--------

/- The unspent coins, each at its outpoint. -/
structure CoinSet where
  coins : KeyedMap OutPoint Coin
  keyed : KeyedMap.Keyed Coin.outpoint coins

namespace CoinSet

theorem ext {S T : CoinSet} (hCoins : S.coins = T.coins) : S = T := by
  cases S
  cases T
  cases hCoins
  rfl

def empty : CoinSet where
  coins := ∅
  keyed := by
    intro outpoint coin hLookup
    cases hLookup

/- The coin at an outpoint, if there is one. -/
def get (S : CoinSet) (outpoint : OutPoint) : Option Coin :=
  S.coins.lookup outpoint

/- The set without what is at these outpoints. -/
def remove (S : CoinSet) (outpoints : List OutPoint) : CoinSet where
  coins := KeyedMap.eraseAll outpoints S.coins
  keyed := S.keyed.eraseAll outpoints

/- The set with these coins, in place of what was there. -/
def add (S : CoinSet) (coins : List Coin) : CoinSet where
  coins := KeyedMap.insertAll Coin.outpoint coins S.coins
  keyed := S.keyed.insertAll coins

/- What all the coins are worth. -/
def totalValue (S : CoinSet) : Nat :=
  KeyedMap.total Coin.value S.coins

end CoinSet

/- The outpoints a delta deletes. -/
def BlockDelta.removed (delta : BlockDelta) : List OutPoint :=
  (delta.spent ++ delta.overwritten).map (·.outpoint)

namespace CoinSet

/- Spent and overwritten out, then created in. -/
def applyDelta (S : CoinSet) (delta : BlockDelta) : CoinSet :=
  (S.remove delta.removed).add delta.created

/- The two halves in the other order. -/
def applyDeltaInsertFirst (S : CoinSet) (delta : BlockDelta) : CoinSet :=
  (S.add delta.created).remove delta.removed

end CoinSet

--------
-- Honest Answers
--------

/- What the set answers for one input. -/
def answerFor
    (S : CoinSet) (medianTimePast : Height → BlockTime) (txin : TxIn) (source : InputSource) :
    Option InputCoin :=
  match source with
  | .inBlock _ => none
  | .chain timeLocked =>
    (S.get txin.previousOutput).map fun coin =>
      { coin
        medianTimePast :=
          if timeLocked then some (medianTimePast coin.height)
          else none }

/- The inputs `populate` is asked about. -/
def spendInputs (block : Block) : List TxIn :=
  (block.txdata.drop 1).flatMap (·.input)

/- The outpoints of the block's own outputs. -/
def ownOutpoints (K : Primitives) (block : Block) : List OutPoint :=
  block.txdata.flatMap fun tx =>
    (List.range tx.output.length).map fun vout =>
      ⟨K.computeTxid tx, UInt32.ofNat vout⟩

/-
  The answers of a set: the coins at the inputs that are not in the block, and for BIP30 the coins
  at the block's own outpoints.
-/
structure HonestPrefetch (K : Primitives) (block : Block) (context : Context) (S : CoinSet)
    (medianTimePast : Height → BlockTime)
    (prefetch : Prefetch) : Prop where
  spent : ∃ sources,
      (populate K block : Result Empty (List InputSource)) = .ok sources ∧
        prefetch.spent = zipWith (answerFor S medianTimePast) (spendInputs block) sources
  nodup : (prefetch.existing.map (·.outpoint)).Nodup
  existing : ∀ coin,
      coin ∈ prefetch.existing ↔
        context.rules.bip30 ≠ .skip ∧
          S.get coin.outpoint = some coin ∧
          coin.outpoint ∈ ownOutpoints K block

/- An answer is a coin of the set. -/
theorem HonestPrefetch.get_of_mem {K : Primitives} {block : Block} {context : Context} {S : CoinSet}
    {medianTimePast : Height → BlockTime} {prefetch : Prefetch}
    (hHonest : HonestPrefetch K block context S medianTimePast prefetch) {answer : InputCoin}
    (hMem : some answer ∈ prefetch.spent) : S.get answer.coin.outpoint = some answer.coin := by
  rcases hHonest.spent with ⟨sources, _, hSpent⟩
  rw [hSpent] at hMem
  rcases mem_iff_getElem?.mp hMem with ⟨place, hPlace⟩
  rcases getElem?_zipWith_eq_some.mp hPlace with ⟨txin, source, _, _, hAnswer⟩
  cases source with
  | inBlock => cases hAnswer
  | chain timeLocked =>
    simp only [answerFor, Option.map_eq_some_iff] at hAnswer
    rcases hAnswer with ⟨coin, hGet, rfl⟩
    have hKey := S.keyed _ _ hGet
    simp only [hKey]
    exact hGet

--------
-- Either Order
--------

section

variable {K : Primitives} {block : Block} {prefetch : Prefetch} {context : Context}
variable {confirmed : Confirmed} {txids : TxidIndex} {tx : Transaction} {S : CoinSet}
variable {index : Nat} {state : ConfirmState}

theorem mem_coinsOf {coinbase : Bool} {height : Height} {coin : Coin} :
    coin ∈ coinsOf K coinbase height tx ↔
      ∃ vout output,
        tx.output[vout]? = some output ∧
          isUnspendable output.scriptPubkey = false ∧
          coin =
            { outpoint :=
                ⟨K.computeTxid tx, UInt32.ofNat vout⟩
              output
              height
              coinbase } := by
  simp only [coinsOf, mem_filterMap, Prod.exists, mem_zipIdx_iff_getElem?, coinOf?]
  constructor
  · rintro ⟨output, vout, hOutput, hCoin⟩
    split at hCoin
    · cases hCoin
    · rename_i hSpendable
      exact ⟨vout, output, hOutput, by simpa using hSpendable, (Option.some.inj hCoin).symm⟩
  · rintro ⟨vout, output, hOutput, hSpendable, rfl⟩
    exact ⟨output, vout, hOutput, by simp [hSpendable]⟩

/- The txid of a transaction of the block is found. -/
theorem position_isSome
    (hIndex : (TxidIndex.new K block : Result ConfirmError TxidIndex) = .ok txids)
    (hTx : tx ∈ block.txdata) : txids.position (K.computeTxid tx) ≠ none := by
  rw [TxidIndex.position_eq hIndex, Ne, findIdx?_eq_none_iff]
  intro hNone
  have hFalse := hNone _ (mem_map_of_mem hTx)
  simp at hFalse

/- The place found holds the transaction. -/
theorem computeTxid_of_position
    (hIndex : (TxidIndex.new K block : Result ConfirmError TxidIndex) = .ok txids)
    {txid : Txid} {place : Nat} (hPosition : txids.position txid = some place)
    (hTx : block.txdata[place]? = some tx) : K.computeTxid tx = txid := by
  rw [TxidIndex.position_eq hIndex, findIdx?_eq_some_iff_getElem] at hPosition
  rcases hPosition with ⟨hLen, hFound, _⟩
  rcases List.getElem?_eq_some_iff.mp hTx with ⟨_, rfl⟩
  simpa using hFound

/- No coin is both spent and created. -/
theorem spent_ne_created (hConfirm : confirm K block prefetch context = .ok confirmed)
    {coin other : Coin} (hSpent : coin ∈ confirmed.delta.spent)
    (hCreated : other ∈ confirmed.delta.created) : coin.outpoint ≠ other.outpoint := by
  rcases confirm_eq_ok.mp hConfirm with ⟨coinbase, txids, state, hBlock⟩
  rcases net_eq_ok.mp hBlock.net with ⟨hNet, _, hForeign⟩
  intro hSame
  have hNone := hForeign coin (hBlock.spent ▸ hSpent)
  rw [hNet, created_of_run hBlock.run] at hCreated
  rcases mem_createdBefore.mp (mem_of_mem_filter hCreated) with ⟨place, tx, _, hTx, hCoin⟩
  rcases mem_coinsOf.mp hCoin with ⟨_, _, _, _, rfl⟩
  rw [hSame] at hNone
  exact position_isSome hBlock.index (mem_of_getElem? hTx) hNone

/- What is found at the outpoints of a block that passes is the coinbase's to overwrite. -/
theorem mem_of_checkExisting {bip30 : Bip30} {existing : List Coin} {seen all : Finset OutPoint}
    (hCheck : checkExisting block txids bip30 existing seen = .ok all) {coin : Coin}
    (hCoin : coin ∈ existing) :
    bip30 = .overwrite ∧ txids.position coin.outpoint.txid = some 0 ∧
      ∃ tx, block.txdata[0]? = some tx ∧ coin.outpoint.vout.toNat < tx.output.length := by
  induction existing generalizing seen with
  | nil => cases hCoin
  | cons first rest ih =>
    simp only [checkExisting, Result.bind_eq_ok, Result.expect_eq_ok, Result.assert_eq_ok] at hCheck
    rcases hCheck with ⟨creator, hPosition, tx, hTx, _, hVout, _, _, hRest⟩
    cases bip30 with
    | enforce | skip => cases hRest
    | overwrite =>
      dsimp only at hRest
      split at hRest
      · cases hRest
      · rename_i hFst
        rcases mem_cons.mp hCoin with rfl | hCoin
        · rw [Nat.eq_zero_of_not_pos hFst] at hPosition hTx
          exact ⟨rfl, hPosition, tx, hTx, hVout⟩
        · exact ih hRest hCoin

/- A coin at an outpoint of the block is overwritten, or the block is refused. -/
theorem checkBip30_eq_ok {bip30 : Bip30} {existing overwritten : List Coin}
    (hCheck : checkBip30 block txids existing bip30 = .ok overwritten) :
    overwritten = existing ∧ ∀ coin ∈ existing,
      bip30 = .overwrite ∧ txids.position coin.outpoint.txid = some 0 ∧
        ∃ tx, block.txdata[0]? = some tx ∧ coin.outpoint.vout.toNat < tx.output.length := by
  simp only [checkBip30, Result.bind_eq_ok] at hCheck
  rcases hCheck with ⟨_, _, seen, hSeen, hRest⟩
  refine ⟨?_, fun coin hCoin => mem_of_checkExisting hSeen hCoin⟩
  split at hRest
  · simp only [Result.bind_eq_ok, Result.pure_inj] at hRest
    rcases hRest with ⟨_, _, hEq⟩
    exact hEq.symm
  · rename_i hRule
    rw [← Except.ok.inj hRest]
    exact (eq_nil_iff_forall_not_mem.mpr fun coin hCoin =>
      hRule (mem_of_checkExisting hSeen hCoin).1).symm

/- What a transaction spends of the coinbase's outpoints is a coin of the set. -/
theorem spent_of_position (hRun :
      confirmTxs K block txids prefetch context block.txdata 0 .initial = .ok state)
    {outpoint : OutPoint} (hHere : outpoint ∈ state.spentHere)
    (hPosition : txids.position outpoint.txid = some 0) :
    ∃ coin ∈ state.spent, coin.outpoint = outpoint := by
  refine confirmTxs_induct (P := fun _ state => outpoint ∈ state.spentHere →
    ∃ coin ∈ state.spent, coin.outpoint = outpoint) ?_ (fun hNone => ?_) hRun hHere
  · intro index tx before next _ hBefore hStep hHere
    rcases Nat.eq_zero_or_pos index with rfl | hIndex
    · rw [(confirmTx_coinbase_eq_ok.mp hStep).2.2] at hHere ⊢
      exact hBefore hHere
    rcases (confirmTx_spend_eq_ok hIndex).mp hStep with ⟨entries, resolved, fee, hSpend⟩
    rw [hSpend.spent]
    rw [hSpend.spentHere, Finset.mem_union, mem_toFinset, ← hSpend.outpoints] at hHere
    rcases hHere with hOld | hNew
    · rcases hBefore hOld with ⟨coin, hCoin, hSame⟩
      exact ⟨coin, mem_append_left _ hCoin, hSame⟩
    · rcases mem_map.mp hNew with ⟨input, hInput, rfl⟩
      refine ⟨input.coin, mem_append_right _ (mem_map_of_mem (mem_filter.mpr ⟨hInput, ?_⟩)), rfl⟩
      rcases checkTxInputs_eq_ok.mp hSpend.inputs with ⟨_, hLen, hAll, _⟩
      have hCoin := mem_map_of_mem (f := (·.coin)) hInput
      rw [← map_snd_zip (show _ ≤ tx.input.length from hLen.le)] at hCoin
      rcases mem_map.mp hCoin with ⟨spend, hZip, hSame⟩
      have hMature := (hAll spend hZip).mature
      rw [hSame] at hMature
      rcases hSpend.resolves_of_mem hInput with ⟨pair, _, hResolves⟩
      cases hResolves with
      | fetched => rfl
      | inBlock hOutput =>
        -- the coinbase of this block is not mature
        have hCreator := (inBlockOutput_eq_some.mp hOutput).1.symm.trans hPosition
        rw [Option.some.injEq] at hCreator
        have hDepth := hMature (decide_eq_true hCreator)
        rw [Nat.sub_self] at hDepth
        exact absurd hDepth (by decide)
  · cases hNone

section

variable (hConfirm : confirm K block prefetch context = .ok confirmed)

include hConfirm

theorem overwritten_eq_existing : confirmed.delta.overwritten = prefetch.existing := by
  rcases confirm_eq_ok.mp hConfirm with ⟨_, _, _, hBlock⟩
  exact (checkBip30_eq_ok hBlock.bip30).1

/-
  A delta may be applied in either order exactly when no coin that is found at an outpoint of the
  block is where the block puts one. Nothing is found, and nothing overwritten, unless BIP30 lets
  the coinbase overwrite, and then what is overwritten is at outpoints of the coinbase.
-/
theorem applyDelta_order (S : CoinSet) :
    (S.applyDelta confirmed.delta = S.applyDeltaInsertFirst confirmed.delta ↔
      ∀ coin ∈ prefetch.existing,
        ∀ new ∈ createdBefore K block context.height block.txdata.length,
          coin.outpoint ≠ new.outpoint) ∧
      confirmed.delta.overwritten = prefetch.existing ∧
      (context.rules.bip30 ≠ .overwrite → prefetch.existing = []) ∧
      ∀ coin ∈ prefetch.existing, ∃ coinbase, block.txdata.head? = some coinbase ∧
        coin.outpoint.txid = K.computeTxid coinbase ∧
        coin.outpoint.vout.toNat < coinbase.output.length := by
  rcases confirm_eq_ok.mp hConfirm with ⟨coinbase, txids, state, hBlock⟩
  rcases checkBip30_eq_ok hBlock.bip30 with ⟨hOverwritten, hExisting⟩
  have hComm := KeyedMap.eraseAll_insertAll_comm_iff Coin.outpoint
      confirmed.delta.removed confirmed.delta.created S.coins
  rcases net_eq_ok.mp hBlock.net with ⟨hNet, _, hForeign⟩
  rw [created_of_run hBlock.run] at hNet
  refine ⟨⟨?_, ?_⟩, hOverwritten, ?_, ?_⟩
  · intro hEq coin hCoin new hNew hSame
    -- a coin of the coinbase is not spent in its own block, so it is not netted
    have hKept : new ∈ confirmed.delta.created := by
      rw [hNet]
      refine mem_filter.mpr ⟨hNew, decide_eq_true fun hHere => ?_⟩
      have hPosition := (hExisting coin hCoin).2.1
      rw [hSame] at hPosition
      rcases spent_of_position hBlock.run hHere hPosition with ⟨other, hOther, hAt⟩
      have hNone := hForeign other hOther
      rw [hAt, hPosition] at hNone
      cases hNone
    refine hComm.mp (congrArg CoinSet.coins hEq).symm new hKept ?_
    rw [← hSame]
    exact mem_map_of_mem (mem_append_right _ (hOverwritten ▸ hCoin))
  · intro hDisjoint
    refine CoinSet.ext (hComm.mpr ?_).symm
    intro new hNew hRemoved
    rcases mem_map.mp hRemoved with ⟨coin, hCoin, hSame⟩
    rcases mem_append.mp hCoin with hSpent | hOver
    · exact spent_ne_created hConfirm hSpent hNew hSame
    · refine hDisjoint coin (hOverwritten ▸ hOver) new ?_ hSame
      rw [hNet] at hNew
      exact mem_of_mem_filter hNew
  · intro hRule
    exact eq_nil_iff_forall_not_mem.mpr fun coin hCoin => hRule (hExisting coin hCoin).1
  · intro coin hCoin
    rcases hExisting coin hCoin with ⟨_, hPosition, tx, hTx, hVout⟩
    rw [head?_eq_getElem?]
    exact ⟨tx, hTx, (computeTxid_of_position hBlock.index hPosition hTx).symm, hVout⟩

end

--------
-- No Inflation
--------

/- What is picked from a list is worth what is left out. -/
theorem sum_filter_add_sum_le {α : Type} (f : α → Nat) (p : α → Bool) {list picked : List α}
    (hNodup : picked.Nodup) (hPicked : ∀ a ∈ picked, a ∈ list ∧ p a = false) :
    ((list.filter p).map f).sum + (picked.map f).sum ≤ (list.map f).sum := by
  have hSubset : picked ⊆ list.filter fun a => !p a := by
    intro a hMem
    simpa [mem_filter] using hPicked a hMem
  have hLe : (picked.map f).sum ≤ ((list.filter fun a => !p a).map f).sum := by
    rcases hNodup.subperm hSubset with ⟨other, hPerm, hSub⟩
    rw [← (hPerm.map f).sum_eq]
    exact (hSub.map f).sum_le_sum (by simp)
  have hSplit := (filter_append_perm p list).map f
  rw [← hSplit.sum_eq, map_append, sum_append]
  exact Nat.add_le_add_left hLe _

/- A transaction creates coins worth its outputs at most. -/
theorem coinTotal_coinsOf_le (coinbase : Bool) (height : Height) (tx : Transaction) :
    coinTotal (coinsOf K coinbase height tx) ≤ outputTotal tx.output := by
  have hFrom : ∀ (outputs : List TxOut) (vout : Nat),
      coinTotal ((outputs.zipIdx vout).filterMap (coinOf? (K.computeTxid tx) coinbase height)) ≤
        outputTotal outputs := by
    intro outputs
    induction outputs with
    | nil => exact fun _ => Nat.le_refl _
    | cons output rest ih =>
      intro vout
      have hRest := ih (vout + 1)
      simp only [coinTotal, outputTotal] at hRest
      rw [zipIdx_cons, filterMap_cons]
      by_cases hUnspendable : isUnspendable output.scriptPubkey
      · simp only [coinOf?, hUnspendable, if_true, coinTotal, outputTotal, map_cons, sum_cons]
        omega
      · simp only [coinOf?, hUnspendable, coinTotal, outputTotal, map_cons, sum_cons,
          Bool.false_eq_true, if_false]
        exact Nat.add_le_add (Nat.le_refl _) hRest
  exact hFrom tx.output 0

/- An input resolved in the block spends a created coin. -/
theorem Resolves.mem_createdBefore
    (hIndex : (TxidIndex.new K block : Result ConfirmError TxidIndex) = .ok txids)
    (hResolves : Resolves block txids context index pair resolved)
    (hInBlock : resolved.inBlock = true) :
    resolved.coin ∈ createdBefore K block context.height index := by
  cases hResolves with
  | fetched => cases hInBlock
  | @inBlock txin creator output hOutput =>
    rcases inBlockOutput_eq_some.mp hOutput with ⟨hPosition, hBefore, tx, hTx, hGet, hSpendable⟩
    refine Bitmigo.mem_createdBefore.mpr
      ⟨creator, tx, hBefore, hTx, mem_coinsOf.mpr ⟨_, output, hGet, hSpendable, ?_⟩⟩
    rw [computeTxid_of_position hIndex hPosition hTx, UInt32.ofNat_toNat]

/- An input resolved in the set spends a coin of it. -/
theorem Resolves.get_of_fetched (hAnswers :
      ∀ answer, some answer ∈ prefetch.spent → S.get answer.coin.outpoint = some answer.coin)
    (hResolves : Resolves block txids context index pair resolved)
    (hEntry : pair.2 ∈ prefetch.spent) (hInBlock : resolved.inBlock = false) :
    S.get resolved.coin.outpoint = some resolved.coin := by
  cases hResolves with
  | inBlock => cases hInBlock
  | fetched _ _ => exact hAnswers _ hEntry

/-
  What the loop over the transactions keeps: what the block created and kept, with the fees, is
  worth no more than what it took from the set and what the coinbase pays.
-/
structure Conserves (K : Primitives) (block : Block) (context : Context) (S : CoinSet) (index : Nat)
    (state : ConfirmState) : Prop where
  created : state.created = createdBefore K block context.height index
  nodup : (state.spent.map (·.outpoint)).Nodup
  spent : ∀ coin ∈ state.spent, S.get coin.outpoint = some coin ∧ coin.outpoint ∈ state.spentHere
  value : coinTotal (state.created.filter fun coin => coin.outpoint ∉ state.spentHere) +
        state.fees ≤
      coinTotal state.spent + outputTotal ((block.txdata.take (min index 1)).flatMap (·.output))

theorem coinTotal_append (first second : List Coin) :
    coinTotal (first ++ second) = coinTotal first + coinTotal second := by
  simp [coinTotal]

theorem coinTotal_filter_le (p : Coin → Bool) (coins : List Coin) :
    coinTotal (coins.filter p) ≤ coinTotal coins := by
  have hLe := sum_filter_add_sum_le Coin.value p nodup_nil
      (show ∀ a ∈ [], a ∈ coins ∧ p a = false by simp)
  exact Nat.le_of_add_right_le hLe

/- The coinbase adds what it pays. -/
theorem Conserves.coinbase (hTx : block.txdata[0]? = some tx)
    (hState : Conserves K block context S 0 state)
    (hStep : confirmTx K block txids prefetch context 0 tx state = .ok after) :
    Conserves K block context S 1 after := by
  rcases confirmTx_coinbase_eq_ok.mp hStep with ⟨_, hCloses, hAfter⟩
  have hCreated := (addCreated_eq_ok hCloses.created).2
  have hSpent : after.spent = state.spent := by rw [hAfter]
  have hHere : after.spentHere = state.spentHere := by rw [hAfter]
  have hFees : after.fees = state.fees := by rw [hAfter]
  refine ⟨?_, ?_, ?_, ?_⟩
  · rw [hCreated, hState.created, createdBefore_succ hTx]
  · rw [hSpent]
    exact hState.nodup
  · rw [hSpent, hHere]
    exact hState.spent
  · have hValue := hState.value
    have hNew := coinTotal_coinsOf_le (K := K) (decide (0 = 0)) context.height tx
    have hKept := coinTotal_filter_le (fun coin => coin.outpoint ∉ state.spentHere)
      (coinsOf K (decide (0 = 0)) context.height tx)
    have hOutputs : (block.txdata.take 1).flatMap (·.output) = tx.output := by
      rw [take_one, head?_eq_getElem?, hTx]
      simp
    rw [hCreated, hSpent, hHere, hFees, filter_append, coinTotal_append, Nat.min_self, hOutputs]
    simp only [Nat.zero_min, take_zero, flatMap_nil, outputTotal, map_nil, sum_nil] at hValue
    omega

/- The inputs are paid by the set or by the block. -/
theorem coinTotal_resolved (resolved : List ResolvedInput) :
    coinTotal (resolved.map (·.coin)) = coinTotal ((resolved.filter (!·.inBlock)).map (·.coin)) +
      coinTotal ((resolved.filter (·.inBlock)).map (·.coin)) := by
  induction resolved with
  | nil => rfl
  | cons input rest ih =>
    simp only [coinTotal, map_map] at ih ⊢
    cases hInBlock : input.inBlock <;> simp [hInBlock] <;> omega

section

variable (hNew : (TxidIndex.new K block : Result ConfirmError TxidIndex) = .ok txids)
variable (hAnswers :
    ∀ answer, some answer ∈ prefetch.spent → S.get answer.coin.outpoint = some answer.coin)

include hNew hAnswers

/- A spend moves value and pays its fee. -/
theorem Conserves.spend (hIndex : 0 < index) (hTx : block.txdata[index]? = some tx)
    (hState : Conserves K block context S index state)
    (hStep : confirmTx K block txids prefetch context index tx state = .ok after) :
    Conserves K block context S (index + 1) after := by
  rcases (confirmTx_spend_eq_ok hIndex).mp hStep with ⟨entries, resolved, fee, hSpend⟩
  have hCreated := (addCreated_eq_ok hSpend.closes.created).2
  have hOutpoints := hSpend.outpoints
  have hNodup : (resolved.map (·.coin.outpoint)).Nodup := by
    rw [hOutpoints]
    exact hSpend.nodup
  have hSpends : ∀ input ∈ resolved, input.coin.outpoint ∈ spends tx := by
    intro input hInput
    rw [← hOutpoints]
    exact mem_map_of_mem hInput
  -- The coins of the block that this transaction spends.
  have hInBlock : ∀ coin ∈ (resolved.filter (·.inBlock)).map (·.coin),
      coin ∈ state.created.filter (fun coin => coin.outpoint ∉ state.spentHere) ∧
        coin.outpoint ∈ spends tx := by
    intro coin hCoin
    rcases mem_map.mp hCoin with ⟨input, hInput, rfl⟩
    rcases mem_filter.mp hInput with ⟨hMem, hFlag⟩
    rcases hSpend.resolves_of_mem hMem with ⟨pair, _, hResolves⟩
    refine ⟨mem_filter.mpr ⟨?_, ?_⟩, hSpends input hMem⟩
    · rw [hState.created]
      exact hResolves.mem_createdBefore hNew hFlag
    · simpa using hSpend.fresh _ (hSpends input hMem)
  refine ⟨?_, ?_, ?_, ?_⟩
  · rw [hCreated, hState.created, createdBefore_succ hTx]
  · rw [hSpend.spent, map_append, nodup_append']
    refine ⟨hState.nodup, ?_, ?_⟩
    · rw [map_map]
      exact hNodup.sublist (filter_sublist.map _)
    · intro outpoint hOld hOther
      rcases mem_map.mp hOld with ⟨coin, hCoin, rfl⟩
      rcases mem_map.mp hOther with ⟨other, hOther, hSame⟩
      rcases mem_map.mp hOther with ⟨input, hInput, rfl⟩
      have hMem := mem_of_mem_filter hInput
      exact hSpend.fresh _ (hSpends input hMem) (hSame ▸ (hState.spent coin hCoin).2)
  · rw [hSpend.spent, hSpend.spentHere]
    intro coin hCoin
    rcases mem_append.mp hCoin with hOld | hOther
    · rcases hState.spent coin hOld with ⟨hGet, hHere⟩
      exact ⟨hGet, Finset.mem_union_left _ hHere⟩
    · rcases mem_map.mp hOther with ⟨input, hInput, rfl⟩
      rcases mem_filter.mp hInput with ⟨hMem, hFlag⟩
      rcases hSpend.resolves_of_mem hMem with ⟨pair, hEntry, hResolves⟩
      refine ⟨hResolves.get_of_fetched hAnswers hEntry
        (by simpa using hFlag), Finset.mem_union_right _ ?_⟩
      exact mem_toFinset.mpr (hSpends input hMem)
  · have hFee := (checkTxInputs_eq_ok.mp hSpend.inputs).2.2.2.2
    have hSplit := coinTotal_resolved resolved
    have hValue := hState.value
    have hOutputs := coinTotal_coinsOf_le (K := K) (decide (index = 0)) context.height tx
    have hKept := coinTotal_filter_le (fun coin => coin.outpoint ∉ after.spentHere)
      (coinsOf K (decide (index = 0)) context.height tx)
    have hPicked : coinTotal (state.created.filter fun coin => coin.outpoint ∉ after.spentHere) +
          coinTotal ((resolved.filter (·.inBlock)).map (·.coin)) ≤
        coinTotal (state.created.filter fun coin => coin.outpoint ∉ state.spentHere) := by
      have hFilter : (state.created.filter fun coin => coin.outpoint ∉ state.spentHere).filter
          (fun coin => coin.outpoint ∉ after.spentHere) = state.created.filter fun coin =>
          coin.outpoint ∉ after.spentHere := by
        rw [filter_filter]
        apply filter_congr
        intro coin _
        rw [hSpend.spentHere]
        simp only [Finset.mem_union, not_or, Bool.decide_and]
        cases decide (coin.outpoint ∉ state.spentHere) <;> simp
      rw [← hFilter]
      refine sum_filter_add_sum_le Coin.value _ ?_ ?_
      · refine Nodup.of_map Coin.outpoint ?_
        rw [map_map]
        exact hNodup.sublist (filter_sublist.map _)
      · intro coin hCoin
        rcases hInBlock coin hCoin with ⟨hMem, hHere⟩
        refine ⟨hMem, ?_⟩
        simp [hSpend.spentHere, hHere]
    have hFst : min (index + 1) 1 = min index 1 := by omega
    rw [hCreated, hSpend.spent, hSpend.fees,
      filter_append, coinTotal_append, coinTotal_append, hFst]
    omega

/- The whole block conserves value. -/
theorem conserves_of_run
    (hRun : confirmTxs K block txids prefetch context block.txdata 0 .initial = .ok state) :
    Conserves K block context S block.txdata.length state := by
  refine confirmTxs_induct (P := Conserves K block context S) ?_ ?_ hRun
  · intro index tx state after hTx hState hStep
    rcases Nat.eq_zero_or_pos index with rfl | hIndex
    · exact hState.coinbase hTx hStep
    · exact hState.spend hNew hAnswers hIndex hTx hStep
  · refine ⟨rfl, nodup_nil, ?_, Nat.le_refl _⟩
    exact fun coin hCoin => absurd hCoin not_mem_nil

end

/- A block adds its subsidy to the set at most. -/
theorem totalValue_applyDelta_le (hConfirm : confirm K block prefetch context = .ok confirmed)
    (hAnswers :
      ∀ answer, some answer ∈ prefetch.spent → S.get answer.coin.outpoint = some answer.coin) :
    (S.applyDelta confirmed.delta).totalValue ≤ S.totalValue + context.rules.subsidy := by
  rcases confirm_eq_ok.mp hConfirm with ⟨coinbase, txids, state, hBlock⟩
  have hConserves := conserves_of_run hBlock.index hAnswers hBlock.run
  have hPaid := hBlock.amount
  have hCoinbase :
      (block.txdata.take (min block.txdata.length 1)).flatMap (·.output) = coinbase.output := by
    rcases head?_eq_some_iff.mp hBlock.head with ⟨rest, hTxdata⟩
    simp [hTxdata]
  have hValue := hConserves.value
  rw [hCoinbase, ← (net_eq_ok.mp hBlock.net).1, ← hBlock.spent] at hValue
  have hTaken : KeyedMap.total Coin.value
        (KeyedMap.eraseAll (confirmed.delta.spent.map (·.outpoint)) S.coins) +
      coinTotal confirmed.delta.spent = S.totalValue := by
    rw [hBlock.spent]
    exact KeyedMap.total_eraseAll hConserves.nodup fun coin hCoin => (hConserves.spent coin hCoin).1
  have hRemoved : (S.remove confirmed.delta.removed).totalValue ≤ KeyedMap.total Coin.value
      (KeyedMap.eraseAll (confirmed.delta.spent.map (·.outpoint)) S.coins) := by
    show KeyedMap.total Coin.value (KeyedMap.eraseAll confirmed.delta.removed S.coins) ≤ _
    rw [BlockDelta.removed, map_append, KeyedMap.eraseAll_append]
    exact KeyedMap.total_eraseAll_le _ _ _
  have hAdded : (S.applyDelta confirmed.delta).totalValue ≤
      (S.remove confirmed.delta.removed).totalValue + coinTotal confirmed.delta.created :=
    KeyedMap.total_insertAll_le _ _ _ _
  omega

end

--------
-- Chains of Blocks
--------

/- The blocks between two halvings on mainnet. -/
def mainnetHalvingInterval : Nat := 210000

/-
  The coins after blocks confirmed one on another at heights one, two, three and so on, from no
  coins at all.
-/
inductive ConfirmedChain
    (K : Primitives) : Nat → CoinSet → Prop where
  | start : ConfirmedChain K 0 CoinSet.empty
  | confirm {count : Nat} {S : CoinSet} {block : Block} {prefetch : Prefetch} {context : Context}
      {medianTimePast : Height → BlockTime} {confirmed : Confirmed}
      (hBefore : ConfirmedChain K count S) (hHeight : context.height.val = count + 1)
      (hSubsidy : (blockSubsidy context.height mainnetHalvingInterval :
          Result Empty Nat) = .ok context.rules.subsidy)
      (hHonest : HonestPrefetch K block context S medianTimePast prefetch)
      (hConfirm : confirm K block prefetch context = .ok confirmed) :
      ConfirmedChain K (count + 1) (S.applyDelta confirmed.delta)

/- The subsidy of an era between two halvings. -/
def eraSubsidy (era : Nat) : Nat :=
  if halvingsMax ≤ era then 0 else (50 * coin) >>> era

/- What the first blocks of a chain may add. -/
def subsidies (count : Nat) : Nat :=
  ∑ height ∈ Finset.range count, eraSubsidy ((height + 1) / mainnetHalvingInterval)

theorem sum_eraSubsidy_le (eras : Nat) :
    ∑ era ∈ Finset.range eras, eraSubsidy era ≤
      ∑ era ∈ Finset.range halvingsMax, eraSubsidy era := by
  rcases Nat.le_total eras halvingsMax with hLe | hGe
  · exact Finset.sum_le_sum_of_subset (Finset.range_subset_range.mpr hLe)
  · refine Nat.le_of_eq ?_
    symm
    apply Finset.sum_subset (Finset.range_subset_range.mpr hGe)
    intro era _ hEra
    rw [Finset.mem_range, Nat.not_lt] at hEra
    rw [eraSubsidy, if_pos hEra]

/- Whole eras, each as long as the interval. -/
theorem sum_div_interval {interval : Nat} (hInterval : 0 < interval) (f : Nat → Nat) (eras : Nat) :
    ∑ height ∈ Finset.range (eras * interval), f (height / interval) =
      interval * ∑ era ∈ Finset.range eras, f era := by
  induction eras with
  | zero => simp
  | succ eras ih =>
    have hEra : ∑ offset ∈ Finset.range interval, f ((eras * interval + offset) / interval) =
        interval * f eras := by
      rw [Finset.sum_congr rfl fun offset hOffset => by
        rw [Nat.add_comm, Nat.add_mul_div_right _ _ hInterval,
          Nat.div_eq_of_lt (Finset.mem_range.mp hOffset), Nat.zero_add]]
      simp
    rw [Nat.succ_mul, Finset.sum_range_add, ih, hEra, Finset.sum_range_succ, Nat.mul_add]

theorem eraSubsidy_total_le :
    mainnetHalvingInterval * ∑ era ∈ Finset.range halvingsMax, eraSubsidy era ≤ maxMoney := by
  decide +kernel

/- The halving series stays within the money supply. -/
theorem subsidies_le (count : Nat) : subsidies count ≤ maxMoney := by
  have hInterval : 0 < mainnetHalvingInterval := by decide
  let eras := (count + 1) / mainnetHalvingInterval + 1
  have hCount : count + 1 ≤ eras * mainnetHalvingInterval := by
    rw [Nat.mul_comm]
    exact Nat.le_of_lt (Nat.lt_mul_div_succ (count + 1) hInterval)
  calc
    subsidies count ≤
        ∑ height ∈ Finset.range (count + 1), eraSubsidy (height / mainnetHalvingInterval) := by
      rw [Finset.sum_range_succ', subsidies]
      exact Nat.le_add_right _ _
    _ ≤ ∑ height ∈ Finset.range (eras * mainnetHalvingInterval),
          eraSubsidy (height / mainnetHalvingInterval) :=
      Finset.sum_le_sum_of_subset (Finset.range_subset_range.mpr hCount)
    _ = mainnetHalvingInterval * ∑ era ∈ Finset.range eras, eraSubsidy era :=
      sum_div_interval hInterval eraSubsidy eras
    _ ≤ mainnetHalvingInterval * ∑ era ∈ Finset.range halvingsMax, eraSubsidy era :=
      Nat.mul_le_mul_left _ (sum_eraSubsidy_le eras)
    _ ≤ maxMoney := eraSubsidy_total_le

/- A chain holds what its subsidies add at most. -/
theorem ConfirmedChain.totalValue_le {K : Primitives} {count : Nat} {S : CoinSet}
    (hChain : ConfirmedChain K count S) : S.totalValue ≤ subsidies count := by
  induction hChain with
  | start => exact Nat.le_of_eq (KeyedMap.total_empty _)
  | @confirm count S block prefetch context _ confirmed _ hHeight hSubsidy hHonest hConfirm ih =>
      have hAdded := totalValue_applyDelta_le hConfirm (fun answer hMem => hHonest.get_of_mem hMem)
      rw [ChainParams.blockSubsidy_eq _ (by decide), hHeight, Except.ok.injEq] at hSubsidy
      have hEra : context.rules.subsidy = eraSubsidy ((count + 1) / mainnetHalvingInterval) :=
        hSubsidy.symm
      rw [subsidies, Finset.sum_range_succ, ← hEra]
      unfold subsidies at ih
      omega

/- A block adds its subsidy at most, so a chain of blocks never holds more than there is money. -/
theorem no_inflation (K : Primitives) :
    (∀ (S : CoinSet) (block : Block) (prefetch : Prefetch) (context : Context)
        (medianTimePast : Height → BlockTime)
        (confirmed : Confirmed),
      HonestPrefetch K block context S medianTimePast prefetch →
        confirm K block prefetch context = .ok confirmed →
        (S.applyDelta confirmed.delta).totalValue ≤ S.totalValue + context.rules.subsidy) ∧
      ∀ (count : Nat) (S : CoinSet), ConfirmedChain K count S → S.totalValue ≤ maxMoney := by
  refine ⟨?_, ?_⟩
  · intro S block prefetch context _ confirmed hHonest hConfirm
    exact totalValue_applyDelta_le hConfirm fun answer hMem => hHonest.get_of_mem hMem
  · intro count S hChain
    exact hChain.totalValue_le.trans (subsidies_le count)

/-
  The coinbase that the blocks at heights 91812 and 91842 share, and the coin the first of them
  left.
-/
namespace RepeatedCoinbase

def output : TxOut where
  value := 5000000000
  scriptPubkey :=
    [0x41] ++ (LittleEndian.encode 65
      0x046896ecfc449cb8560594eb7f413f199deb9b4e5d947a142e7dc7d2de0b811b8e204833ea2a2fd9d4c7b153a8ca7661d0a0b7fc981df1f42f55d64b26b3da1e9c).reverse ++
      [0xac]

def coinbase : Transaction where
  version := 1
  lockTime := 0
  input := [{
    previousOutput := OutPoint.null
    scriptSig := [0x04, 0x56, 0x72, 0x0e, 0x1b, 0x00]
    sequence := 0xffffffff
    witness := [] }]
  output := [output]

def txid : Hash32 := hash32
  0x9985d82954e10f2233a08905dc7b490eb444660c8759e324c7dfa3d28779d2d5

def block : Block where
  header := {
    version := 1
    prevBlockhash := hash32
      0x06226e46111a0b59caaf126043eb5bbf28c34f3a5e332a1fc7b2b73cf188910f
    merkleRoot := txid
    time := 1296688603
    bits := 0x207fffff
    nonce := 3 }
  txdata := [coinbase]

/- The first of the two hashes of each string. -/
def txHash : Hash32 := hash32
  0x913dbf410f8c553f5289c4f16fefd7d093b97fef499c79964d55e8e5850fc8fb

def headerHash : Hash32 := hash32
  0x7afd51444a3ae5920c4daf84b421bfab52077e63334e3722afb0f543bf1b13e1

def blockHash : Hash32 := hash32
  0xf5ea81a0ad6a9d8e822f940048a22b2724a571b4bc2370962d8e9e887eebab22

def crypto : Crypto := ofSha256 [(Encoding.txBase coinbase, txHash), (txHash.val, txid),
  (Encoding.header block.header, headerHash),
  (headerHash.val, blockHash)]

/- The rules of the early chain, for a block at a height. -/
def contextAt (height : Height) (hHeight : Height.genesis < height) (bip30 : Bip30) : Context where
  height := height
  medianTimePast := 1296688602
  previousTime := 1296688602
  requiredBits := 0x207fffff
  rules :=
    { scriptFlags := alwaysOnScriptFlags
      versionFloor := 1
      bip34Active := false
      csvActive := false
      segwitActive := false
      bip30 := bip30
      subsidy := 5000000000 }
  height_pos := hHeight

/- The coin a block at this height creates. -/
def coinAt (height : Height) : Coin where
  outpoint := ⟨txid, 0⟩
  output := output
  height := height
  coinbase := true

/- The change a block at this height makes. -/
def confirmedAt (height : Height) (overwritten : List Coin) : Confirmed where
  delta := {
    height := height
    hash := blockHash
    spent := []
    overwritten := overwritten
    created := [coinAt height] }
  prevouts := []

theorem firstHeight_le : 1 ≤ 0x7fffffff := by decide

theorem repeatHeight_le : 91842 ≤ 0x7fffffff := by decide

def firstContext : Context :=
  contextAt ⟨1, firstHeight_le⟩ (by decide) .enforce

def repeatContext : Context :=
  contextAt ⟨91842, repeatHeight_le⟩ (by decide) .overwrite

/- The coin of the earlier block. -/
def oldCoin : Coin := coinAt ⟨91812, by decide⟩

/- The set that holds it. -/
def coinSet : CoinSet := CoinSet.empty.add [oldCoin]

theorem confirm_first :
    confirm crypto.primitives block ⟨[], []⟩ firstContext =
      .ok (confirmedAt ⟨1, by decide⟩ []) := by
  decide +kernel

theorem confirm_repeat :
    confirm crypto.primitives block ⟨[], [oldCoin]⟩ repeatContext =
      .ok (confirmedAt ⟨91842, by decide⟩ [oldCoin]) := by
  decide +kernel

theorem populate_block :
    (populate crypto.primitives block : Result Empty (List InputSource)) = .ok [] := by
  decide +kernel

theorem ownOutpoints_block : ownOutpoints crypto.primitives block = [⟨txid, 0⟩] := by
  decide +kernel

theorem honest_first :
    HonestPrefetch crypto.primitives block firstContext CoinSet.empty (fun _ => 0) ⟨[], []⟩ := by
  refine ⟨⟨[], populate_block, rfl⟩, nodup_nil, ?_⟩
  intro coin
  simp only [not_mem_nil, false_iff]
  rintro ⟨_, hGet, _⟩
  cases hGet

theorem honest_repeat :
    HonestPrefetch crypto.primitives block repeatContext coinSet (fun _ => 0) ⟨[], [oldCoin]⟩ := by
  have hGet : coinSet.get ⟨txid, 0⟩ = some oldCoin := Finmap.lookup_insert _
  refine ⟨⟨[], populate_block, rfl⟩, nodup_singleton _, ?_⟩
  intro coin
  rw [ownOutpoints_block, mem_singleton, mem_singleton]
  constructor
  · rintro rfl
    exact ⟨by decide, hGet, rfl⟩
  · rintro ⟨_, hCoin, hOutpoint⟩
    rw [hOutpoint, hGet] at hCoin
    exact (Option.some.inj hCoin).symm

/- Inserting first loses the coin the block created. -/
theorem applyDelta_ne :
    HonestPrefetch crypto.primitives block repeatContext coinSet (fun _ => 0) ⟨[], [oldCoin]⟩ ∧
      confirm crypto.primitives block ⟨[], [oldCoin]⟩ repeatContext =
        .ok (confirmedAt ⟨91842, by decide⟩ [oldCoin]) ∧
      coinSet.applyDelta (confirmedAt ⟨91842, by decide⟩ [oldCoin]).delta ≠
        coinSet.applyDeltaInsertFirst (confirmedAt ⟨91842, by decide⟩ [oldCoin]).delta := by
  refine ⟨honest_repeat, confirm_repeat, ?_⟩
  intro hEq
  have hGet := congrArg (CoinSet.get · ⟨txid, 0⟩) hEq
  revert hGet
  decide +kernel

/- A coinbase with a second output, which cannot be spent, and a transaction that spends a coin. -/
def paying : Transaction :=
  { coinbase with output := [output, ⟨0, [0x6a]⟩] }

def spentCoin : Coin where
  outpoint := ⟨hash32 7, 0⟩
  output := ⟨1, [0x51]⟩
  height := ⟨1, firstHeight_le⟩
  coinbase := false

def spending : Transaction where
  version := 1
  lockTime := 0
  input := [⟨spentCoin.outpoint, [], 0xffffffff, []⟩]
  output := [spentCoin.output]

/- The set holds a coin where the coinbase has its second output. -/
def staleCoin : Coin :=
  { oldCoin with outpoint := ⟨txid, 1⟩ }

def payingCrypto : Crypto :=
  ofSha256 [(Encoding.txBase paying, txHash), (txHash.val, txid)]

theorem confirm_paying :
    (confirm payingCrypto.primitives { block with txdata := [paying, spending] }
        ⟨[some ⟨spentCoin, none⟩], [staleCoin]⟩ repeatContext).map
      (fun confirmed => (confirmed.delta.spent, confirmed.delta.overwritten)) =
      .ok ([spentCoin], [staleCoin]) := by
  decide +kernel

theorem created_paying :
    ∀ coin ∈ [staleCoin], ∀ new ∈ createdBefore payingCrypto.primitives
      { block with txdata := [paying, spending] } repeatContext.height 2,
      coin.outpoint ≠ new.outpoint := by
  decide +kernel

/- It is overwritten, and not where a coin is created, so the order does not matter. -/
theorem applyDelta_order_paying :
    ∃ confirmed, confirm payingCrypto.primitives { block with txdata := [paying, spending] }
        ⟨[some ⟨spentCoin, none⟩], [staleCoin]⟩ repeatContext = .ok confirmed ∧
      confirmed.delta.spent = [spentCoin] ∧ confirmed.delta.overwritten = [staleCoin] ∧
      (CoinSet.empty.add [spentCoin, staleCoin]).applyDelta confirmed.delta =
        (CoinSet.empty.add [spentCoin, staleCoin]).applyDeltaInsertFirst confirmed.delta := by
  have hRet := confirm_paying
  rcases hConfirm : confirm payingCrypto.primitives { block with txdata := [paying, spending] }
    ⟨[some ⟨spentCoin, none⟩], [staleCoin]⟩ repeatContext with _ | confirmed
  · rw [hConfirm] at hRet
    cases hRet
  · rw [hConfirm, Except.map, Except.ok.injEq, Prod.mk.injEq] at hRet
    exact ⟨confirmed, rfl, hRet.1, hRet.2,
      (applyDelta_order hConfirm _).1.mpr created_paying⟩

theorem no_inflation_coinbase :
    (coinSet.applyDelta (confirmedAt ⟨91842, by decide⟩ [oldCoin]).delta).totalValue ≤
        coinSet.totalValue + 5000000000 ∧
      (CoinSet.empty.applyDelta (confirmedAt ⟨1, by decide⟩ []).delta).totalValue ≤ maxMoney :=
  ⟨(no_inflation crypto.primitives).1 _ _ _ _ _ _ honest_repeat confirm_repeat,
    (no_inflation crypto.primitives).2 1 _ (.confirm .start rfl rfl honest_first confirm_first)⟩

end RepeatedCoinbase

end Bitmigo
