import Bitmigo.Block.Check
import Bitmigo.Lib.KeyIndex
import Bitmigo.Tx.Inputs
import Mathlib.Data.Finset.Card

/-
  The coins path: what a block needs fetched, the rules over the coins it spends, and the change it
  makes to the set.

  Key definitions include:
    * `InputSource` and `populate`
    * `Prefetch`, `BlockDelta` and `Confirmed`
    * `confirm`
    * `connect`

  Key theorems include:
    * `TxidIndex.position_eq`, a txid is found at its first place in the block

  The crate never looks a coin up: `populate` says what to fetch, and `confirm` reads the answers.
-/

namespace Bitmigo

open Result List Except

variable {ε : Type} {K : Primitives} {block : Block} {height : Height}

def blockBaseSizeMax : Nat := 1000000
def txInSizeMin : Nat := 36 + 1 + 4
def txOutSizeMin : Nat := 8 + 1
def maxBlockInputs : Nat := blockBaseSizeMax / txInSizeMin
def maxBlockOutputs : Nat := blockBaseSizeMax / txOutSizeMin

--------
-- What Goes In and Out
--------

/- Where the coin of an input comes from. -/
inductive InputSource where
  | inBlock (txIndex : Nat)
  | chain (timeLocked : Bool)
  deriving DecidableEq

/- What was fetched for an input. -/
structure InputCoin where
  coin : Coin
  medianTimePast : Option BlockTime
  deriving DecidableEq

/- The answers to `populate`. -/
structure Prefetch where
  spent : List (Option InputCoin)
  existing : List Coin

/- What connecting a block changes in the set. -/
structure BlockDelta where
  height : Height
  hash : BlockHash
  spent : List Coin
  overwritten : List Coin
  created : List Coin
  deriving DecidableEq

/- The change, and the coin behind every input. -/
structure Confirmed where
  delta : BlockDelta
  prevouts : List Coin
  deriving DecidableEq

/- Why a block was refused over its coins. -/
inductive ConfirmError where
  | bip30 (outpoint : OutPoint)
  | inputsMissingOrSpent (index input : Nat)
  | inputs (index : Nat) (error : TxInputsError)
  | accumulatedFeeOutOfRange (index : Nat)
  | sequenceLocked (index : Nat)
  | badSigOps (cost : Nat)
  | badCoinbaseAmount (paid allowed : Nat)
  deriving DecidableEq

/- The first input whose scripts fail. -/
structure ConnectError where
  index : Nat
  input : Nat
  error : ScriptError
  deriving DecidableEq

--------
-- Transactions by Id
--------

/- The transactions of a block by txid. -/
structure TxidIndex where
  entries : List (Txid × Nat)

/- The order the entries are sorted in. -/
def txidEntryLe (a b : Txid × Nat) : Bool :=
  (a.1.val.map UInt8.toNat) < (b.1.val.map UInt8.toNat) ∨ (a.1 = b.1 ∧ a.2 ≤ b.2)

namespace TxidIndex

/- Sorted by txid, the first place of each. -/
def new (K : Primitives) (block : Block) : Result ε TxidIndex := do
  assert (block.txdata ≠ [])
  let entries := (block.txdata.map K.computeTxid).zipIdx
  let entries := entries.insertionSort fun a b => txidEntryLe a b
  let entries := entries.destutter fun a b => a.1 ≠ b.1
  assert (entries.length ≤ block.txdata.length)
  return ⟨entries⟩

/- The binary search among entries sorted by distinct ids. -/
def position (txids : TxidIndex) (txid : Txid) : Option Nat :=
  (txids.entries.find? fun entry => entry.1 = txid).map (·.2)

end TxidIndex

theorem sorts_txidEntryLe :
    KeyIndex.Sorts (fun txid : Txid => txid.val.map UInt8.toNat) (fun a b => txidEntryLe a b) := by
  constructor
  · intro a b hEq
    apply Subtype.ext
    exact map_injective_iff.mpr (fun _ _ => UInt8.toNat_inj.mp) hEq
  · intro a b
    simp [txidEntryLe]

/- A txid is found at its first place in the block. -/
theorem TxidIndex.position_eq {txids : TxidIndex}
    (hNew : (TxidIndex.new K block : Result ε TxidIndex) = .ok txids) (txid : Txid) :
    txids.position txid = (block.txdata.map K.computeTxid).findIdx? fun other => other = txid := by
  simp only [TxidIndex.new, bind_eq_ok, assert_eq_ok, pure_inj] at hNew
  rcases hNew with ⟨_, _, _, _, rfl⟩
  exact KeyIndex.map_find?_index sorts_txidEntryLe _ txid

/- A spendable output created before `spender`. -/
def inBlockOutput (block : Block) (txids : TxidIndex) (spender : Nat) (outpoint : OutPoint) :
    Result ε (Option (Nat × TxOut)) :=
  match txids.position outpoint.txid with
  | none => .ok none
  | some creator =>
    if spender ≤ creator then
      .ok none
    else do
      assert (creator < block.txdata.length)
      return do
        let tx ← block.txdata[creator]?
        let output ← tx.output[outpoint.vout.toNat]?
        if isUnspendable output.scriptPubkey then
          none
        else
          some (creator, output)

/- The inputs of every transaction but the coinbase. -/
def inputCount (block : Block) : Result ε Nat := do
  let count := ((block.txdata.drop 1).map (·.input.length)).sum
  assert (count ≤ maxBlockInputs)
  return count

--------
-- What to Fetch
--------

/- A relative lock in time, not in blocks. -/
def isTimeLocked (sequence : UInt32) : Bool :=
  sequence.toNat &&& sequenceLocktimeDisableFlag = 0 ∧
    sequence.toNat &&& sequenceLocktimeTypeFlag ≠ 0

/- The source of the coin of one input. -/
def inputSource (block : Block) (txids : TxidIndex) (index : Nat) (bip68 : Bool) (input : TxIn) :
    Result ε InputSource := do
  match ← inBlockOutput block txids index input.previousOutput with
  | some (txIndex, _) => return .inBlock txIndex
  | none =>
    return .chain (bip68 && isTimeLocked input.sequence)

/- The sources of the inputs of the transactions from `index` on. -/
def populateTxs (block : Block) (txids : TxidIndex) (txs : List Transaction) (index : Nat) :
    Result ε (List InputSource) :=
  match txs with
  | [] => .ok []
  | tx :: rest => do
      assert (tx.isCoinbase = false)
      let sources ← tx.input.mapM (inputSource block txids index (bip68Applies tx))
      let more ← populateTxs block txids rest (index + 1)
      return sources ++ more

def populate (K : Primitives) (block : Block) : Result ε (List InputSource) := do
  let coinbase ← expect block.txdata.head?
  assert coinbase.isCoinbase
  let txids ← TxidIndex.new K block
  let count ← inputCount block
  let sources ← populateTxs block txids (block.txdata.drop 1) 1
  assert (sources.length = count)
  return sources

--------
-- BIP30
--------

/- The existing coins from the first on, against the ones already seen. -/
def checkExisting (block : Block) (txids : TxidIndex) (bip30 : Bip30) (existing : List Coin)
    (seen : Finset OutPoint) : Result ConfirmError (Finset OutPoint) :=
  match existing with
  | [] => .ok seen
  | coin :: rest => do
      let creator ← expect (txids.position coin.outpoint.txid)
      let tx ← expect block.txdata[creator]?
      assert (coin.outpoint.vout.toNat < tx.output.length)
      assert (coin.outpoint ∉ seen)
      match bip30 with
      | .enforce => Result.fail (.bip30 coin.outpoint)
      | .overwrite =>
        if 0 < creator then
          Result.fail (.bip30 coin.outpoint)
        else
          checkExisting block txids bip30 rest (insert coin.outpoint seen)
      | .skip => panicked

/- The coins the coinbase overwrites. -/
def checkBip30 (block : Block) (txids : TxidIndex) (existing : List Coin) (bip30 : Bip30) :
    Result ConfirmError (List Coin) := do
  assert (existing.length ≤ maxBlockOutputs)
  let seen ← checkExisting block txids bip30 existing ∅
  if bip30 = .overwrite then do
    assert (seen.card = existing.length)
    return existing
  else
    return []

--------
-- Inputs
--------

/- One input as the view resolved it. -/
structure ResolvedInput where
  coin : Coin
  base : RelativeLockBase
  inBlock : Bool

section

variable (block : Block) (txids : TxidIndex) (context : Context) (index : Nat)

/- The coin of one input, the time its lock is measured from and whether the block created it. -/
def findCoin (input : Nat) (txin : TxIn) (entry : Option InputCoin) :
    Result ConfirmError (Coin × Option BlockTime × Bool) := do
  let outpoint := txin.previousOutput
  match ← inBlockOutput block txids index outpoint with
  | some (creator, output) => do
      assert (entry = none)
      let coin : Coin :=
        { outpoint := outpoint
          output := output
          height := context.height
          coinbase := creator = 0 }
      return (coin, some context.medianTimePast, true)
  | none => do
      let fetched ← orFail (.inputsMissingOrSpent index input) entry
      assert (fetched.coin.outpoint = outpoint)
      return (fetched.coin, fetched.medianTimePast, false)

/- The inputs from `input` on, against what was spent. -/
def resolveInputs (pairs : List (TxIn × Option InputCoin)) (input : Nat) (spent : Finset OutPoint) :
    Result ConfirmError (List ResolvedInput × Finset OutPoint) :=
  match pairs with
  | [] => .ok ([], spent)
  | (txin, entry) :: rest => do
      let (coin, medianTimePast, inBlock) ← findCoin block txids context index input txin entry
      ensure (.inputsMissingOrSpent index input) (txin.previousOutput ∉ spent)
      let (resolved, spent) ← resolveInputs rest (input + 1) (insert txin.previousOutput spent)
      let base : RelativeLockBase := { height := coin.height, medianTimePast }
      return ({ coin, base, inBlock } :: resolved, spent)

def resolve (tx : Transaction) (entries : List (Option InputCoin)) (spent : Finset OutPoint) :
    Result ConfirmError (List ResolvedInput × Finset OutPoint) := do
  assert (0 < index)
  assert (entries.length = tx.input.length)
  let (resolved, spent) ← resolveInputs block txids context index (tx.input.zip entries) 0 spent
  assert (resolved.length = tx.input.length)
  return (resolved, spent)

end

/- The fee of a transaction, its locks being satisfied. -/
def confirmInputs
    (index : Nat) (tx : Transaction) (resolved : List ResolvedInput) (context : Context)
    (feesSoFar : Nat) :
    Result ConfirmError Nat := do
  assert (0 < index)
  assert (resolved.length = tx.input.length)
  let coins := resolved.map (·.coin)
  let fee ← mapError (ConfirmError.inputs index) (checkTxInputs tx coins context.height)
  assert (feesSoFar ≤ maxMoney)
  ensure (.accumulatedFeeOutOfRange index) (feesSoFar + fee ≤ maxMoney)
  let bases := resolved.map (·.base)
  let satisfied ← sequenceLocksSatisfied tx bases context
  ensure (.sequenceLocked index) satisfied
  return fee

--------
-- The Block
--------

/- The spendable outputs from `vout` on, as coins. -/
def createdCoins
    (txid : Txid) (coinbase : Bool) (height : Height) (outputs : List TxOut) (vout : Nat) :
    Result ε (List Coin) :=
  match outputs with
  | [] => .ok []
  | output :: rest =>
    if isUnspendable output.scriptPubkey then
      createdCoins txid coinbase height rest (vout + 1)
    else do
      assert (vout < 2 ^ 32)
      let coins ← createdCoins txid coinbase height rest (vout + 1)
      let outpoint : OutPoint := ⟨txid, UInt32.ofNat vout⟩
      return { outpoint, output, height, coinbase } :: coins

/- Every spendable output becomes a coin. -/
def addCreated
    (K : Primitives) (created : List Coin) (tx : Transaction) (index : Nat) (height : Height) :
    Result ε (List Coin) := do
  let coinbase : Bool := index = 0
  assert (coinbase = tx.isCoinbase)
  let coins ← createdCoins (K.computeTxid tx) coinbase height tx.output 0
  return created ++ coins

/- What the loop over the transactions carries. -/
structure ConfirmState where
  spentHere : Finset OutPoint
  fees : Nat
  sigopCostTotal : Nat
  nextEntry : Nat
  spent : List Coin
  prevouts : List Coin
  created : List Coin

def ConfirmState.initial : ConfirmState where
  spentHere := ∅
  fees := 0
  sigopCostTotal := 0
  nextEntry := 0
  spent := []
  prevouts := []
  created := []

/- `list.get(start..start + count)`. -/
def getSlice? {α : Type} (list : List α) (start count : Nat) : Option (List α) :=
  if start + count ≤ list.length then
    some ((list.drop start).take count)
  else
    none

section

variable (K : Primitives) (block : Block) (txids : TxidIndex)
variable (prefetch : Prefetch) (context : Context)

/- The inputs of a spend: its fee and its coins. -/
def confirmSpend
    (index : Nat) (tx : Transaction) (entries : List (Option InputCoin)) (state : ConfirmState) :
    Result ConfirmError (ConfirmState × List TxOut) := do
  let (resolved, spentHere) ← resolve block txids context index tx entries state.spentHere
  let fee ← confirmInputs index tx resolved context state.fees
  let fees ← addU64 state.fees fee
  let coins := resolved.map (·.coin)
  let fetched := resolved.filter fun input => !input.inBlock
  return ({ state with
    spentHere
    fees
    spent := state.spent ++ fetched.map (·.coin)
    prevouts := state.prevouts ++ coins },
    coins.map (·.output))

/- One transaction of the block. -/
def confirmTx (index : Nat) (tx : Transaction) (state : ConfirmState) :
    Result ConfirmError ConfirmState := do
  let count := if 0 < index then tx.input.length else 0
  let entries ← expect (getSlice? prefetch.spent state.nextEntry count)
  let state :=
    { state with
      nextEntry := state.nextEntry + entries.length }
  let (state, outputs) ←
    if 0 < index then
      confirmSpend block txids context index tx entries state
    else
      .ok (state, [])
  let cost ← sigopCostOf K tx outputs context.rules.scriptFlags
  let sigopCostTotal ← addU64 state.sigopCostTotal cost
  ensure (.badSigOps sigopCostTotal) (sigopCostTotal ≤ maxBlockSigopsCost)
  let created ← addCreated K state.created tx index context.height
  return { state with sigopCostTotal, created }

/- The transactions from `index` on. -/
def confirmTxs (txs : List Transaction) (index : Nat) (state : ConfirmState) :
    Result ConfirmError ConfirmState :=
  match txs with
  | [] => .ok state
  | tx :: rest => do
      let state ← confirmTx K block txids prefetch context index tx state
      confirmTxs rest (index + 1) state

end

/- Drops what the block spent itself. -/
def net (txids : TxidIndex) (state : ConfirmState) : Result ε (List Coin) := do
  let created :=
    state.created.filter fun coin =>
      coin.outpoint ∉ state.spentHere
  assert (created.length ≤ state.created.length)
  assert (created.length ≤ maxBlockOutputs)
  assert (∀ coin ∈ state.spent, txids.position coin.outpoint.txid = none)
  return created

/- The rules over the coins of a block, but for its scripts. -/
def confirm (K : Primitives) (block : Block) (prefetch : Prefetch) (context : Context) :
    Result ConfirmError Confirmed := do
  let coinbase ← expect block.txdata.head?
  assert coinbase.isCoinbase
  let count ← inputCount block
  assert (prefetch.spent.length = count)
  let txids ← TxidIndex.new K block
  let overwritten ← checkBip30 block txids prefetch.existing context.rules.bip30
  let state ← confirmTxs K block txids prefetch context block.txdata 0 .initial
  assert (state.nextEntry = count)
  assert (state.prevouts.length = count)
  let paid ← valueOut coinbase
  let allowed ← addU64 state.fees context.rules.subsidy
  ensure (.badCoinbaseAmount paid allowed) (paid ≤ allowed)
  let created ← net txids state
  return {
    delta := {
      height := context.height
      hash := K.blockHash block.header
      spent := state.spent
      overwritten
      created }
    prevouts := state.prevouts }

--------
-- The Scripts
--------

section

variable (K : Primitives) (flags : ScriptFlags)

/- The next `count` inputs of a transaction, from `input`. -/
def connectInputs
    (tx : Transaction) (index : Nat) (outputs : List TxOut) (precomputed : TxPrecomputed)
    (count input : Nat) : Result ConnectError Unit :=
  match count with
  | 0 => .ok ()
  | count + 1 => do
      mapError (ConnectError.mk index input)
        (verifyInput K tx input outputs precomputed flags).out
      connectInputs tx index outputs precomputed count (input + 1)

/- The transactions from `index` on; returns the place after the last coin read. -/
def connectTxs (prevouts : List Coin) (txs : List Transaction) (index nextCoin : Nat) :
    Result ConnectError Nat :=
  match txs with
  | [] => .ok nextCoin
  | tx :: rest => do
      assert (tx.isCoinbase = false)
      let coins ← expect (getSlice? prevouts nextCoin tx.input.length)
      assert (∀ pair ∈ tx.input.zip coins, pair.2.outpoint = pair.1.previousOutput)
      let outputs := coins.map (·.output)
      let precomputed ← expectOk (TxPrecomputed.new K tx outputs)
      connectInputs K flags tx index outputs precomputed tx.input.length 0
      connectTxs prevouts rest (index + 1) (nextCoin + coins.length)

end

/- The scripts of every transaction but the coinbase. -/
def connect (K : Primitives) (block : Block) (prevouts : List Coin) (context : Context) :
    Result ConnectError Unit := do
  let coinbase ← expect block.txdata.head?
  assert coinbase.isCoinbase
  let count ← inputCount block
  assert (prevouts.length = count)
  let nextCoin ← connectTxs K context.rules.scriptFlags prevouts (block.txdata.drop 1) 1 0
  assert (nextCoin = prevouts.length)

--------
-- What the Steps Promise
--------

theorem inBlockOutput_eq_some
    {txids : TxidIndex} {spender creator : Nat} {outpoint : OutPoint} {output : TxOut} :
    (inBlockOutput block txids spender outpoint :
        Result ε (Option (Nat × TxOut))) = .ok (some (creator, output)) ↔
      txids.position outpoint.txid = some creator ∧ creator < spender ∧ ∃ tx,
          block.txdata[creator]? = some tx ∧ tx.output[outpoint.vout.toNat]? = some output ∧
            isUnspendable output.scriptPubkey = false := by
  unfold inBlockOutput
  cases hPosition : txids.position outpoint.txid with
  | none => simp
  | some place =>
    by_cases hLater : spender ≤ place
    · simp only [hLater, if_true, ok.injEq, reduceCtorEq, Option.some.injEq, false_iff]
      rintro ⟨rfl, hBefore, _⟩
      omega
    · simp only [hLater, if_false, bind_eq_ok, assert_eq_ok, pure_inj, Option.bind_eq_bind,
        Option.bind_eq_some_iff, Option.some.injEq]
      constructor
      · rintro ⟨_, _, tx, hTx, found, hOutput, hSpendable⟩
        split at hSpendable
        · cases hSpendable
        · rename_i hUnspendable
          cases hSpendable
          exact ⟨rfl, by omega, tx, hTx, hOutput, by simpa using hUnspendable⟩
      · rintro ⟨rfl, _, tx, hTx, hOutput, hSpendable⟩
        refine ⟨(), ?_, tx, hTx, output, hOutput, ?_⟩
        · exact (List.getElem?_eq_some_iff.mp hTx).1
        · simp [hSpendable]

/-
  What an input may resolve to: an output of the block, with nothing fetched, or the coin that was
  fetched for it.
-/
inductive Resolves (block : Block) (txids : TxidIndex) (context : Context) (index : Nat) :
    TxIn × Option InputCoin → ResolvedInput → Prop where
  | inBlock {txin : TxIn} {creator : Nat} {output : TxOut}
      (hOutput : (inBlockOutput block txids index txin.previousOutput :
            Result ConfirmError (Option (Nat × TxOut))) =
          .ok (some (creator, output))) :
      Resolves block txids context index (txin, none)
        { coin :=
            { outpoint := txin.previousOutput
              output := output
              height := context.height
              coinbase := creator = 0 }
          base :=
            { height := context.height
              medianTimePast := some context.medianTimePast }
          inBlock := true }
  | fetched {txin : TxIn} {answer : InputCoin}
      (hOutput : (inBlockOutput block txids index txin.previousOutput :
            Result ConfirmError (Option (Nat × TxOut))) =
          .ok none)
      (hOutpoint : answer.coin.outpoint = txin.previousOutput) :
      Resolves block txids context index (txin, some answer)
        { coin := answer.coin
          base :=
            { height := answer.coin.height
              medianTimePast := answer.medianTimePast }
          inBlock := false }

section

variable {block : Block} {txids : TxidIndex} {context : Context} {index : Nat} {tx : Transaction}

theorem findCoin_eq_ok {input : Nat} {txin : TxIn} {entry : Option InputCoin} {coin : Coin}
    {medianTimePast : Option BlockTime} {inBlock : Bool} :
    findCoin block txids context index input txin entry = .ok (coin, medianTimePast, inBlock) ↔
      Resolves block txids context index (txin, entry)
        ⟨coin, ⟨coin.height, medianTimePast⟩, inBlock⟩ := by
  unfold findCoin
  constructor
  · intro hFind
    rcases bind_eq_ok.mp hFind with ⟨found, hFound, hRest⟩
    rcases found with _ | ⟨creator, output⟩
    · simp only [bind_eq_ok, orFail_eq_ok, assert_eq_ok, pure_inj, Prod.mk.injEq] at hRest
      rcases hRest with ⟨answer, rfl, _, hOutpoint, rfl, rfl, rfl⟩
      exact .fetched hFound hOutpoint
    · simp only [bind_eq_ok, assert_eq_ok, pure_inj, Prod.mk.injEq] at hRest
      rcases hRest with ⟨_, rfl, rfl, rfl, rfl⟩
      exact .inBlock hFound
  · intro hResolves
    cases hResolves with
    | inBlock hOutput => simp [hOutput]
    | fetched hOutput hOutpoint => simp [hOutput, hOutpoint, orFail]

section

variable {pair : TxIn × Option InputCoin} {resolved : ResolvedInput}
variable (hResolves : Resolves block txids context index pair resolved)

include hResolves

/- An input resolves to a coin at its outpoint. -/
theorem Resolves.outpoint_eq : resolved.coin.outpoint = pair.1.previousOutput := by
  cases hResolves with
  | inBlock => rfl
  | fetched _ hOutpoint => exact hOutpoint

theorem Resolves.base_height : resolved.base.height = resolved.coin.height := by
  cases hResolves <;> rfl

end

variable {resolved : List ResolvedInput}

/- The inputs resolve, and none of them was spent before. -/
theorem resolveInputs_eq_ok
    {pairs : List (TxIn × Option InputCoin)} {input : Nat} {spent after : Finset OutPoint} :
    resolveInputs block txids context index pairs input spent = .ok (resolved, after) ↔
      Forall₂ (Resolves block txids context index) pairs resolved ∧
        (pairs.map (·.1.previousOutput)).Nodup ∧ (∀ pair ∈ pairs, pair.1.previousOutput ∉ spent) ∧
        after = spent ∪ (pairs.map (·.1.previousOutput)).toFinset := by
  induction pairs generalizing input spent resolved after with
  | nil =>
    simp only [resolveInputs, ok.injEq, Prod.mk.injEq, map_nil, toFinset_nil, Finset.union_empty,
      forall₂_nil_left_iff, nodup_nil,
      not_mem_nil, false_implies, implies_true, true_and]
    exact ⟨fun ⟨hNil, hSpent⟩ => ⟨hNil.symm, hSpent.symm⟩,
      fun ⟨hNil, hSpent⟩ => ⟨hNil.symm, hSpent.symm⟩⟩
  | cons pair rest ih =>
    rcases pair with ⟨txin, entry⟩
    simp only [resolveInputs, bind_eq_ok, ensure_eq_ok, pure_inj, Prod.mk.injEq, Prod.exists,
      findCoin_eq_ok, ih, forall₂_cons_left_iff, map_cons, nodup_cons, mem_map,
      forall_mem_cons, toFinset_cons]
    constructor
    · rintro ⟨coin, medianTimePast, inBlock, hFst, _,
        hUnspent, others, _, ⟨hAll, hNodup, hFresh, rfl⟩, rfl, rfl⟩
      refine ⟨⟨_, others, hFst, hAll, rfl⟩, ⟨?_, hNodup⟩, ⟨hUnspent, ?_⟩, ?_⟩
      · rintro ⟨other, answer, hOther, hSame⟩
        exact hFresh (other, answer) hOther (hSame ▸ Finset.mem_insert_self _ _)
      · exact fun other hOther hSpent =>
          hFresh other hOther (Finset.mem_insert_of_mem hSpent)
      · rw [Finset.insert_union, Finset.union_insert]
    · rintro ⟨⟨first, others, hFst, hAll, rfl⟩, ⟨hNew, hNodup⟩, ⟨hUnspent, hFresh⟩, rfl⟩
      have hBase : first =
          ⟨first.coin, ⟨first.coin.height, first.base.medianTimePast⟩, first.inBlock⟩ := by
        rw [← hFst.base_height]
      refine ⟨first.coin, first.base.medianTimePast,
        first.inBlock, hBase ▸ hFst, (), hUnspent, others,
        _, ⟨hAll, hNodup, ?_, rfl⟩, ?_, ?_⟩
      · intro other hOther hMem
        rcases Finset.mem_insert.mp hMem with hSame | hSpent
        · exact hNew ⟨other.1, other.2, hOther, hSame⟩
        · exact hFresh other hOther hSpent
      · rw [← hBase]
      · rw [Finset.insert_union, Finset.union_insert]

/- The outpoints a transaction spends. -/
def spends (tx : Transaction) : List OutPoint :=
  tx.input.map (·.previousOutput)

theorem map_zip_eq_spends {entries : List (Option InputCoin)}
    (hLen : entries.length = tx.input.length) :
    (tx.input.zip entries).map (·.1.previousOutput) = spends tx := by
  conv_rhs =>
    rw [spends, ← map_fst_zip (Nat.le_of_eq hLen.symm), map_map]
  rfl

theorem resolve_eq_ok {entries : List (Option InputCoin)} {spent after : Finset OutPoint} :
    resolve block txids context index tx entries spent = .ok (resolved, after) ↔ 0 < index ∧
      entries.length = tx.input.length ∧
      Forall₂ (Resolves block txids context index) (tx.input.zip entries) resolved ∧
      (spends tx).Nodup ∧ (∀ outpoint ∈ spends tx, outpoint ∉ spent) ∧
      after = spent ∪ (spends tx).toFinset := by
  simp only [resolve, bind_eq_ok, assert_eq_ok, pure_inj, Prod.mk.injEq,
    Prod.exists, resolveInputs_eq_ok]
  constructor
  · rintro ⟨_, hIndex, _, hLen, _, _, ⟨hAll, hNodup, hFresh, rfl⟩, _, _, rfl, rfl⟩
    rw [map_zip_eq_spends hLen] at hNodup
    refine ⟨hIndex, hLen, hAll, hNodup, ?_, ?_⟩
    · rwa [← map_zip_eq_spends hLen, forall_mem_map]
    · rw [map_zip_eq_spends hLen]
  · rintro ⟨hIndex, hLen, hAll, hNodup, hFresh, rfl⟩
    refine ⟨(), hIndex, (), hLen, resolved, _,
      ⟨hAll, map_zip_eq_spends hLen ▸ hNodup, ?_, rfl⟩, (), ?_, rfl, ?_⟩
    · rwa [← map_zip_eq_spends hLen, forall_mem_map] at hFresh
    · simp [← hAll.length_eq, hLen]
    · rw [map_zip_eq_spends hLen]

theorem confirmInputs_eq_ok {feesSoFar fee : Nat} :
    confirmInputs index tx resolved context feesSoFar = .ok fee ↔ 0 < index ∧
      resolved.length = tx.input.length ∧
      checkTxInputs tx (resolved.map (·.coin)) context.height = .ok fee ∧
      feesSoFar + fee ≤ maxMoney ∧
      (sequenceLocksSatisfied tx (resolved.map (·.base)) context : Result ConfirmError Bool) =
        .ok true := by
  simp only [confirmInputs, bind_eq_ok, assert_eq_ok, ensure_eq_ok, mapError_eq_ok, pure_inj]
  constructor
  · rintro ⟨_, hIndex, _, hLen, _, hFee, _, _, _, hSum, satisfied, hLocks, _, rfl, rfl⟩
    exact ⟨hIndex, hLen, hFee, hSum, hLocks⟩
  · rintro ⟨hIndex, hLen, hFee, hSum, hLocks⟩
    exact ⟨(), hIndex, (), hLen, fee, hFee, (), by omega, (), hSum, true, hLocks, (), rfl, rfl⟩

end

/- The coin of an output, if it can ever be spent. -/
def coinOf? (txid : Txid) (coinbase : Bool) (height : Height) (output : TxOut × Nat) :
    Option Coin :=
  if isUnspendable output.1.scriptPubkey then
    none
  else
    some {
      outpoint := ⟨txid, UInt32.ofNat output.2⟩
      output := output.1
      height
      coinbase }

/- The coins a transaction creates. -/
def coinsOf (K : Primitives) (coinbase : Bool) (height : Height) (tx : Transaction) : List Coin :=
  tx.output.zipIdx.filterMap (coinOf? (K.computeTxid tx) coinbase height)

theorem createdCoins_eq_ok
    {txid : Txid} {coinbase : Bool} {outputs : List TxOut} {vout : Nat} {coins : List Coin}
    (hCreated :
      (createdCoins txid coinbase height outputs vout : Result ε (List Coin)) = .ok coins) :
    coins = (outputs.zipIdx vout).filterMap (coinOf? txid coinbase height) := by
  induction outputs generalizing vout coins with
  | nil =>
    cases hCreated
    rfl
  | cons output rest ih =>
    unfold createdCoins at hCreated
    rw [zipIdx_cons, filterMap_cons]
    by_cases hUnspendable : isUnspendable output.scriptPubkey
    · rw [if_pos hUnspendable] at hCreated
      simp only [coinOf?, hUnspendable, if_true]
      exact ih hCreated
    · rw [if_neg hUnspendable] at hCreated
      simp only [bind_eq_ok, assert_eq_ok, pure_inj] at hCreated
      rcases hCreated with ⟨_, _, more, hMore, rfl⟩
      simp only [coinOf?, hUnspendable]
      rw [ih hMore]
      rfl

theorem addCreated_eq_ok {created after : List Coin} {tx : Transaction} {index : Nat}
    (hAdd : (addCreated K created tx index height : Result ε (List Coin)) = .ok after) :
    decide (index = 0) = tx.isCoinbase ∧ after = created ++ coinsOf K (index = 0) height tx := by
  simp only [addCreated, bind_eq_ok, assert_eq_ok, pure_inj] at hAdd
  rcases hAdd with ⟨_, hCoinbase, coins, hCoins, rfl⟩
  rw [createdCoins_eq_ok hCoins]
  exact ⟨hCoinbase, rfl⟩

section

variable {K : Primitives} {block : Block} {txids : TxidIndex}
variable {prefetch : Prefetch} {context : Context} {index : Nat} {tx : Transaction}
variable {state after : ConfirmState}

/- A transaction within the budget, its outputs created. -/
structure Closes
    (K : Primitives) (context : Context) (index : Nat) (tx : Transaction) (prevouts : List TxOut)
    (state after : ConfirmState) : Prop where
  cost : ∃ cost,
      (sigopCostOf K tx prevouts context.rules.scriptFlags : Result ConfirmError Nat) = .ok cost ∧
        after.sigopCostTotal = state.sigopCostTotal + cost
  budget : after.sigopCostTotal ≤ maxBlockSigopsCost
  created : (addCreated K state.created tx index context.height :
        Result ConfirmError (List Coin)) = .ok after.created

/- What confirming a spend asks of the state before it. -/
structure ConfirmsSpend
    (K : Primitives) (block : Block) (txids : TxidIndex) (prefetch : Prefetch) (context : Context)
    (index : Nat) (tx : Transaction) (state after : ConfirmState)
    (entries : List (Option InputCoin)) (resolved : List ResolvedInput)
    (fee : Nat) : Prop where
  slice : getSlice? prefetch.spent state.nextEntry tx.input.length = some entries
  resolves : Forall₂ (Resolves block txids context index) (tx.input.zip entries) resolved
  nodup : (spends tx).Nodup
  fresh : ∀ outpoint ∈ spends tx, outpoint ∉ state.spentHere
  inputs : checkTxInputs tx (resolved.map (·.coin)) context.height = .ok fee
  feeRange : state.fees + fee ≤ maxMoney
  locks : (sequenceLocksSatisfied tx (resolved.map (·.base))
      context : Result ConfirmError Bool) = .ok true
  closes : Closes K context index tx (resolved.map (·.coin.output)) state after
  spentHere : after.spentHere = state.spentHere ∪ (spends tx).toFinset
  fees : after.fees = state.fees + fee
  nextEntry : after.nextEntry = state.nextEntry + tx.input.length
  spent : after.spent = state.spent ++ (resolved.filter fun input => !input.inBlock).map (·.coin)
  prevouts : after.prevouts = state.prevouts ++ resolved.map (·.coin)

theorem getSlice?_eq_some {α : Type} {list slice : List α} {start count : Nat} :
    getSlice? list start count = some slice ↔
      start + count ≤ list.length ∧ slice = (list.drop start).take count := by
  unfold getSlice?
  split
  · rename_i hInside
    simp [hInside, eq_comm]
  · rename_i hOutside
    simp [hOutside]

theorem length_of_getSlice? {α : Type} {list slice : List α} {start count : Nat}
    (hSlice : getSlice? list start count = some slice) : slice.length = count := by
  rcases getSlice?_eq_some.mp hSlice with ⟨hInside, rfl⟩
  simp
  omega

section

variable {entries : List (Option InputCoin)} {resolved : List ResolvedInput} {fee : Nat}
variable (hSpend :
    ConfirmsSpend K block txids prefetch context index tx state after entries resolved fee)

include hSpend

theorem ConfirmsSpend.outpoints : resolved.map (·.coin.outpoint) = spends tx := by
  rw [← map_zip_eq_spends (length_of_getSlice? hSpend.slice)]
  have hAll := hSpend.resolves
  generalize tx.input.zip entries = pairs at hAll
  clear hSpend
  induction hAll with
  | nil => rfl
  | cons hFst _ ih => rw [map_cons, map_cons, hFst.outpoint_eq, ih]

/- A resolved input comes from an entry of the prefetch. -/
theorem ConfirmsSpend.resolves_of_mem {input : ResolvedInput} (hMem : input ∈ resolved) :
    ∃ pair, pair.2 ∈ prefetch.spent ∧ Resolves block txids context index pair input := by
  have hEntries : ∀ entry ∈ entries, entry ∈ prefetch.spent := by
    rcases getSlice?_eq_some.mp hSpend.slice with ⟨_, rfl⟩
    exact fun entry hEntry =>
      mem_of_mem_drop (mem_of_mem_take hEntry)
  rcases mem_iff_getElem.mp hMem with ⟨place, hPlace, rfl⟩
  have hLen := hSpend.resolves.length_eq
  have hPair : place < (tx.input.zip entries).length := by rwa [hLen]
  refine ⟨_, hEntries _ ?_, hSpend.resolves.get hPair hPlace⟩
  exact (of_mem_zip (get_mem _ ⟨place, hPair⟩)).2

end

/- The coinbase spends nothing. -/
theorem confirmTx_coinbase_eq_ok :
    confirmTx K block txids prefetch context 0 tx state = .ok after ↔
      state.nextEntry ≤ prefetch.spent.length ∧ Closes K context 0 tx [] state after ∧ after =
          { state with
            sigopCostTotal := after.sigopCostTotal
            created := after.created } := by
  simp only [confirmTx, Nat.lt_irrefl, if_false, bind_eq_ok, expect_eq_ok,
    getSlice?_eq_some, Nat.add_zero, take_zero,
    ok.injEq, addU64_eq_ok, ensure_eq_ok, pure_eq_ok]
  constructor
  · rintro ⟨_, ⟨hRoom, rfl⟩, _, rfl, cost, hCost, _, ⟨_, rfl⟩, _, hBudget, created, hCreated, rfl⟩
    exact ⟨hRoom, ⟨⟨cost, hCost, rfl⟩, hBudget, hCreated⟩, rfl⟩
  · rintro ⟨hRoom, ⟨⟨cost, hCost, hTotal⟩, hBudget, hCreated⟩, hAfter⟩
    have hBound : maxBlockSigopsCost < 2 ^ 64 := by decide
    have hFits : state.sigopCostTotal + cost < 2 ^ 64 := by omega
    exact ⟨[], ⟨hRoom, rfl⟩, _, rfl, cost, hCost, _,
      ⟨hFits, hTotal⟩, (), hBudget, after.created, hCreated, hAfter.symm⟩

theorem confirmTx_spend_eq_ok (hIndex : 0 < index) :
    confirmTx K block txids prefetch context index tx state = .ok after ↔ ∃ entries resolved fee,
      ConfirmsSpend K block txids prefetch context index tx state after entries resolved fee := by
  simp only [confirmTx, confirmSpend, hIndex, if_true,
    bind_eq_ok, expect_eq_ok, ok.injEq, addU64_eq_ok, ensure_eq_ok,
    pure_eq_ok, Prod.exists, Prod.mk.injEq, resolve_eq_ok, confirmInputs_eq_ok, map_map]
  constructor
  · rintro ⟨entries, hSlice, _, _, ⟨resolved, _, ⟨_, _, hAll, hNodup, hFresh, rfl⟩, fee,
        ⟨_, _, hInputs, hRange, hLocks⟩, _, ⟨_, rfl⟩, rfl,
        rfl⟩,
      cost, hCost, _, ⟨_, rfl⟩, _, hBudget, created,
      hCreated, rfl⟩
    have hLen := length_of_getSlice? hSlice
    exact ⟨entries, resolved, fee, hSlice, hAll, hNodup,
      hFresh, hInputs, hRange, hLocks, ⟨⟨cost, hCost, rfl⟩, hBudget, hCreated⟩, rfl, rfl,
      by rw [hLen], rfl, rfl⟩
  · rintro ⟨entries, resolved, fee, hStep⟩
    rcases hStep.closes with ⟨⟨cost, hCost, hTotal⟩, hBudget, hCreated⟩
    have hLen := length_of_getSlice? hStep.slice
    have hMoney : maxMoney < 2 ^ 64 := by decide
    have hBound : maxBlockSigopsCost < 2 ^ 64 := by decide
    have hRange := hStep.feeRange
    have hFees : state.fees + fee < 2 ^ 64 := by omega
    have hFits : state.sigopCostTotal + cost < 2 ^ 64 := by omega
    have hResolved : resolved.length = tx.input.length := by
      simp [← hStep.resolves.length_eq, hLen]
    refine ⟨entries, hStep.slice, _, _, ⟨resolved, _, ⟨trivial, hLen, hStep.resolves,
        hStep.nodup, hStep.fresh, rfl⟩, fee,
        ⟨trivial, hResolved, hStep.inputs, hRange, hStep.locks⟩, _, ⟨hFees, rfl⟩, rfl, rfl⟩,
      cost, hCost, _, ⟨hFits, hTotal⟩, (), hBudget, after.created, hCreated, ?_⟩
    rcases after with ⟨spentHere, fees, total, nextEntry, spent, prevouts, created⟩
    simp only [ConfirmState.mk.injEq, and_true, true_and]
    exact ⟨hStep.spentHere.symm, hStep.fees.symm,
      hLen ▸ hStep.nextEntry.symm, hStep.spent.symm, hStep.prevouts.symm⟩

/- What every transaction preserves holds after the last. -/
theorem confirmTxs_induct {P : Nat → ConfirmState → Prop} (hStep : ∀ index tx state after,
      block.txdata[index]? = some tx → P index state →
      confirmTx K block txids prefetch context index tx state = .ok after → P (index + 1) after)
    (hStart : P 0 state)
    (hRun : confirmTxs K block txids prefetch context block.txdata 0 state = .ok after) :
    P block.txdata.length after := by
  have hFrom : ∀ (txs : List Transaction) (index : Nat)
      (state : ConfirmState), block.txdata.drop index = txs → index ≤ block.txdata.length →
      P index state → confirmTxs K block txids prefetch context txs index state = .ok after →
      P block.txdata.length after := by
    intro txs
    induction txs with
    | nil =>
      intro index state hDrop hIndex hState hRest
      have hEnd := drop_eq_nil_iff.mp hDrop
      cases hRest
      rwa [Nat.le_antisymm hIndex hEnd] at hState
    | cons tx rest ih =>
      intro index state hDrop hIndex hState hRest
      rcases bind_eq_ok.mp hRest with ⟨next, hTx, hRest⟩
      have hGet : block.txdata[index]? = some tx := by
        rw [← head?_drop, hDrop, head?_cons]
      have hLt := (List.getElem?_eq_some_iff.mp hGet).1
      refine ih (index + 1) next ?_ hLt (hStep index tx state next hGet hState hTx) hRest
      rw [← tail_drop, hDrop, tail_cons]
  exact hFrom block.txdata 0 state drop_zero (Nat.zero_le _) hStart hRun

/- Every transaction adds the coins it creates. -/
theorem confirmTx_closes
    (hTx : confirmTx K block txids prefetch context index tx state = .ok after) :
    ∃ prevouts, Closes K context index tx prevouts state after := by
  rcases Nat.eq_zero_or_pos index with rfl | hIndex
  · exact ⟨[], (confirmTx_coinbase_eq_ok.mp hTx).2.1⟩
  · rcases (confirmTx_spend_eq_ok hIndex).mp hTx with ⟨_, resolved, _, hSpend⟩
    exact ⟨_, hSpend.closes⟩

/- The coins the first transactions of a block create. -/
def createdBefore (K : Primitives) (block : Block) (height : Height) (index : Nat) : List Coin :=
  (block.txdata.take index).zipIdx.flatMap fun entry =>
    coinsOf K (entry.2 = 0) height entry.1

theorem createdBefore_succ (hTx : block.txdata[index]? = some tx) :
    createdBefore K block height (index + 1) =
      createdBefore K block height index ++ coinsOf K (index = 0) height tx := by
  have hLt := (List.getElem?_eq_some_iff.mp hTx).1
  rw [createdBefore, take_add_one, hTx, Option.toList_some,
    zipIdx_append, flatMap_append, createdBefore]
  simp [length_take, Nat.min_eq_left (Nat.le_of_lt hLt)]

theorem mem_createdBefore {coin : Coin} :
    coin ∈ createdBefore K block height index ↔ ∃ place tx, place < index ∧
      block.txdata[place]? = some tx ∧ coin ∈ coinsOf K (place = 0) height tx := by
  simp only [createdBefore, mem_flatMap, Prod.exists, mem_zipIdx_iff_getElem?, getElem?_take]
  constructor
  · rintro ⟨tx, place, hTx, hCoin⟩
    split at hTx
    · exact ⟨place, tx, ‹_›, hTx, hCoin⟩
    · cases hTx
  · rintro ⟨place, tx, hPlace, hTx, hCoin⟩
    exact ⟨tx, place, by simp [hPlace, hTx], hCoin⟩

theorem created_of_run
    (hRun : confirmTxs K block txids prefetch context block.txdata 0 .initial = .ok after) :
    after.created = createdBefore K block context.height block.txdata.length := by
  refine confirmTxs_induct
    (P := fun index state => state.created = createdBefore K block context.height index)
    ?_ rfl hRun
  intro index tx state next hTx hState hStep
  rcases confirmTx_closes hStep with ⟨_, hCloses⟩
  rw [(addCreated_eq_ok hCloses.created).2, hState, createdBefore_succ hTx]

/- What confirming a block promises. -/
structure ConfirmsBlock (K : Primitives) (block : Block) (prefetch : Prefetch) (context : Context)
    (confirmed : Confirmed) (coinbase : Transaction) (txids : TxidIndex)
    (state : ConfirmState) : Prop where
  head : block.txdata.head? = some coinbase
  isCoinbase : coinbase.isCoinbase = true
  count : (inputCount block : Result ConfirmError Nat) = .ok prefetch.spent.length
  index : (TxidIndex.new K block : Result ConfirmError TxidIndex) = .ok txids
  bip30 :
    checkBip30 block txids prefetch.existing context.rules.bip30 = .ok confirmed.delta.overwritten
  run : confirmTxs K block txids prefetch context block.txdata 0 .initial = .ok state
  nextEntry : state.nextEntry = prefetch.spent.length
  prevoutsLength : state.prevouts.length = prefetch.spent.length
  paid : outputTotal coinbase.output ≤ maxMoney
  fits : state.fees + context.rules.subsidy < 2 ^ 64
  amount : outputTotal coinbase.output ≤ state.fees + context.rules.subsidy
  net : (net txids state : Result ConfirmError (List Coin)) = .ok confirmed.delta.created
  height : confirmed.delta.height = context.height
  hash : confirmed.delta.hash = K.blockHash block.header
  spent : confirmed.delta.spent = state.spent
  prevouts : confirmed.prevouts = state.prevouts

theorem confirm_eq_ok {confirmed : Confirmed} :
    confirm K block prefetch context = .ok confirmed ↔ ∃ coinbase txids state,
      ConfirmsBlock K block prefetch context confirmed coinbase txids state := by
  simp only [confirm, bind_eq_ok, expect_eq_ok, assert_eq_ok, ensure_eq_ok,
    pure_inj, addU64_eq_ok, valueOut_eq_ok]
  constructor
  · rintro ⟨coinbase, hHead, _, hCoinbase, count, hCount, _,
      hLen, txids, hIndex, overwritten, hBip30, state, hRun,
      _, hEntry, _, hPrevouts, _, ⟨hPaid, rfl⟩, _, ⟨hFits, rfl⟩, _, hAmount, created, hNet, rfl⟩
    subst hLen
    exact ⟨coinbase, txids, state, hHead, hCoinbase, hCount,
      hIndex, hBip30, hRun, hEntry, hPrevouts, hPaid, hFits, hAmount, hNet, rfl, rfl, rfl, rfl⟩
  · rintro ⟨coinbase, txids, state, hBlock⟩
    refine ⟨coinbase, hBlock.head, (), hBlock.isCoinbase, _,
      hBlock.count, (), rfl, txids, hBlock.index, _,
      hBlock.bip30, state, hBlock.run, (), hBlock.nextEntry,
      (), hBlock.prevoutsLength, _, ⟨hBlock.paid, rfl⟩, _,
      ⟨hBlock.fits, rfl⟩, (), hBlock.amount, _, hBlock.net, ?_⟩
    rw [← hBlock.height, ← hBlock.hash, ← hBlock.spent, ← hBlock.prevouts]

/- The netted coins, and what the netting asserts. -/
theorem net_eq_ok {created : List Coin} :
    (net txids state : Result ε (List Coin)) = .ok created ↔
      created = state.created.filter (fun coin => coin.outpoint ∉ state.spentHere) ∧
        created.length ≤ maxBlockOutputs ∧
        ∀ coin ∈ state.spent, txids.position coin.outpoint.txid = none := by
  simp only [Bitmigo.net, bind_eq_ok, assert_eq_ok, pure_inj]
  constructor
  · rintro ⟨_, _, _, hLen, _, hForeign, rfl⟩
    exact ⟨rfl, hLen, hForeign⟩
  · rintro ⟨rfl, hLen, hForeign⟩
    exact ⟨(), length_filter_le _ _, (), hLen, (), hForeign, rfl⟩

end

end Bitmigo
