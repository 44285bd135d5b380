import Bitmigo.Block.Signet
import Bitmigo.Header.Check
import Bitmigo.Tx.Check

/-
  The block rules that need no coins.

  Key definitions include:
    * `BlockError`
    * `checkBlock`, context-free
    * `acceptBlock`, with the block's height and the median time past before it

  Key theorems include:
    * `checkBlock_eq_ok` and `acceptBlock_eq_ok`, what a block that passed promises
-/

namespace Bitmigo

open Result

variable {ε : Type}

/- Why a block was refused. -/
inductive BlockError where
  | header (error : HeaderError)
  | badMerkleRoot (computed : Hash32)
  | duplicateTransactions
  | badLength (txCount baseSize : Nat)
  | coinbaseMissing
  | coinbaseMultiple (index : Nat)
  | transaction (index : Nat) (error : TxError)
  | badSigOps (count : Nat)
  | nonFinal (index : Nat)
  | badCoinbaseHeight (expected : Height)
  | witnessNonceSize
  | witnessMerkleMismatch
  | unexpectedWitness (index : Nat)
  | badWeight (weight : Nat)
  | signet (error : SignetError)
  deriving DecidableEq

variable (K : Primitives)

--------
-- Context-Free Rules
--------

/- The root first, then the mutation flag. -/
def checkMerkleRoot (block : Block) : Result BlockError Unit := do
  let found ← merkleRoot K (block.txdata.map K.computeTxid)
  ensure (.badMerkleRoot found.root) (found.root = block.header.merkleRoot)
  ensure .duplicateTransactions (found.mutated = false)

/- The serialized sizes of a block and its count. -/
structure BlockSizes where
  txCount : Nat
  base : Nat
  total : Nat

/- The sizes of the transactions added to the sizes so far. -/
def addTxSizes (txs : List Transaction) (sizes : BlockSizes) : Result ε BlockSizes :=
  match txs with
  | [] => .ok sizes
  | tx :: rest => do
      assert (baseSize K tx ≤ totalSize K tx)
      let base ← addU64 sizes.base (baseSize K tx)
      let total ← addU64 sizes.total (totalSize K tx)
      addTxSizes rest { sizes with base, total }

def blockSizes (block : Block) : Result ε BlockSizes :=
  let countSize := K.varIntSize block.txdata.length
  addTxSizes K block.txdata
    { txCount := block.txdata.length
      base := 80 + countSize
      total := 80 + countSize }

/- Three times the base size plus the total size. -/
def BlockSizes.weight (sizes : BlockSizes) : Result ε Nat := do
  assert (sizes.base ≤ sizes.total)
  return sizes.base * (witnessScaleFactor - 1) + sizes.total

/- No transaction from `index` on is a coinbase. -/
def checkNoCoinbase (txs : List Transaction) (index : Nat) : Result BlockError Unit :=
  match txs with
  | [] => .ok ()
  | tx :: rest => do
      ensure (.coinbaseMultiple index) (tx.isCoinbase = false)
      checkNoCoinbase rest (index + 1)

def checkTxs (txs : List Transaction) (index : Nat) : Result BlockError Unit :=
  match txs with
  | [] => .ok ()
  | tx :: rest => do
      mapError (BlockError.transaction index) (checkTx K tx)
      checkTxs rest (index + 1)

def legacySigops (txs : List Transaction) (count : Nat) : Result ε Nat :=
  match txs with
  | [] => .ok count
  | tx :: rest => do
      let more ← legacySigopCount K tx
      let count ← addU64 count more
      legacySigops rest count

/- Signet only: genesis needs no solution. -/
def checkChallenge (block : Block) (params : ChainParams) : Result BlockError Unit :=
  match params.blockChallenge with
  | .none => .ok ()
  | .signet challenge =>
    if K.blockHash block.header ≠ params.genesisHash K then
      mapError BlockError.signet (checkSignetSolution K block challenge)
    else
      .ok ()

/- One coinbase first and no other. -/
def checkCoinbases (block : Block) : Result BlockError Unit := do
  let first ← expect block.txdata.head?
  ensure .coinbaseMissing first.isCoinbase
  checkNoCoinbase (block.txdata.drop 1) 1

def checkBlock (block : Block) (params : ChainParams) : Result BlockError Unit := do
  mapError BlockError.header (checkHeader K block.header params)
  checkChallenge K block params
  checkMerkleRoot K block
  let txCount := block.txdata.length
  let sizes ← blockSizes K block
  ensure (.badLength txCount sizes.base)
    (¬ (txCount = 0 ∨
      maxBlockWeight < sizes.txCount * witnessScaleFactor ∨
      maxBlockWeight < sizes.base * witnessScaleFactor))
  checkCoinbases block
  checkTxs K block.txdata 0
  let count ← legacySigops K block.txdata 0
  ensure (.badSigOps count) (count * witnessScaleFactor ≤ maxBlockSigopsCost)

--------
-- Contextual Rules
--------

def checkFinal (height : Height) (cutoff : BlockTime) (txs : List Transaction) (index : Nat) :
    Result BlockError Unit :=
  match txs with
  | [] => .ok ()
  | tx :: rest => do
      ensure (.nonFinal index) (isFinal tx height cutoff)
      checkFinal height cutoff rest (index + 1)

/- The shortest push of a height. -/
def heightScript (height : Height) : Result ε Bytes := do
  assert (Height.genesis < height)
  let value := height.val
  if 1 ≤ value ∧ value ≤ 16 then
    return [UInt8.ofNat (op1.toNat + (value - 1))]
  else do
    let num ← expectOk (ScriptNum.fromI64 value)
    let encoded ← expectOk num.encode
    let script ← expectOk (pushEncoding encoded)
    assert (2 ≤ script.length)
    assert (script.length ≤ 5)
    return script

/- The coinbase starts with the height. -/
def checkHeight (context : Context) (coinbase : Transaction) : Result BlockError Unit :=
  if context.rules.bip34Active then do
    let expected ← heightScript context.height
    let input ← expect coinbase.input.head?
    ensure (.badCoinbaseHeight context.height) (expected.isPrefixOf input.scriptSig)
  else
    .ok ()

/- The tree over the wtxids, with a zero for the coinbase. -/
def witnessLeaves (block : Block) : List Hash32 :=
  FixedBytes.zero 32 :: (block.txdata.drop 1).map K.computeWtxid

def witnessRoot (block : Block) : Result ε Hash32 := do
  assert (block.txdata ≠ [])
  let leaves := witnessLeaves K block
  assert (leaves.length = block.txdata.length)
  let found ← merkleRoot K leaves
  return found.root

/- The single item of the coinbase witness, of 32 bytes. -/
def reservedValue (coinbase : Transaction) : Option Bytes :=
  match coinbase.input.head? with
  | some ⟨_, _, _, [reserved]⟩ =>
    if reserved.length = witnessReservedValueSize then
      some reserved
    else
      none
  | _ => none

/- The commitment against the witness tree. -/
def checkCommitment (block : Block) (coinbase : Transaction) (position : Nat) :
    Result BlockError Unit := do
  assert (coinbase.input ≠ [])
  let reserved ← orFail .witnessNonceSize (reservedValue coinbase)
  let root ← witnessRoot K block
  let commitment := K.sha256d (root.val ++ reserved)
  let output ← expect coinbase.output[position]?
  let committed ←
    expect
      (getRange? output.scriptPubkey witnessCommitmentHeader.length witnessCommitmentSizeMin)
  ensure .witnessMerkleMismatch (committed = commitment.val)

def checkNoWitness (txs : List Transaction) (index : Nat) : Result BlockError Unit :=
  match txs with
  | [] => .ok ()
  | tx :: rest => do
      ensure (.unexpectedWitness index) (∀ input ∈ tx.input, input.witness = [])
      checkNoWitness rest (index + 1)

def checkWitnessMalleation (block : Block) (expectCommitment : Bool) : Result BlockError Unit := do
  let coinbase ← expect block.txdata.head?
  match expectCommitment, witnessCommitmentIndex coinbase with
  | true, some position =>
    checkCommitment K block coinbase position
  | _, _ => checkNoWitness block.txdata 0

def acceptBlock (block : Block) (context : Context) : Result BlockError Unit := do
  let coinbase ← expect block.txdata.head?
  assert coinbase.isCoinbase
  let rules := context.rules
  let cutoff :=
    if rules.csvActive then context.medianTimePast
    else block.header.time
  checkFinal context.height cutoff block.txdata 0
  checkHeight context coinbase
  checkWitnessMalleation K block rules.segwitActive
  let sizes ← blockSizes K block
  let weight ← sizes.weight
  ensure (.badWeight weight) (weight ≤ maxBlockWeight)

--------
-- What a Passed Block Promises
--------

variable {K} {txs : List Transaction} {index : Nat} {u : Unit}

theorem checkNoCoinbase_eq_ok :
    checkNoCoinbase txs index = .ok u ↔ ∀ tx ∈ txs, tx.isCoinbase = false := by
  induction txs generalizing index with
  | nil => simp [checkNoCoinbase]
  | cons tx rest ih => simp [checkNoCoinbase, bind_eq_ok, ih]

theorem checkTxs_eq_ok : checkTxs K txs index = .ok u ↔ ∀ tx ∈ txs, checkTx K tx = .ok () := by
  induction txs generalizing index with
  | nil => simp [checkTxs]
  | cons tx rest ih =>
    simp only [checkTxs, bind_eq_ok, mapError_eq_ok, ih, List.forall_mem_cons]
    constructor
    · rintro ⟨_, hTx, hRest⟩
      exact ⟨hTx, hRest⟩
    · rintro ⟨hTx, hRest⟩
      exact ⟨(), hTx, hRest⟩

theorem checkNoWitness_eq_ok :
    checkNoWitness txs index = .ok u ↔ ∀ tx ∈ txs, ∀ input ∈ tx.input, input.witness = [] := by
  induction txs generalizing index with
  | nil => simp [checkNoWitness]
  | cons tx rest ih => simp [checkNoWitness, bind_eq_ok, ih]

/- What `checkBlock` promises of a block. -/
structure CheckedBlock (K : Primitives) (block : Block)
    (params : ChainParams) : Prop where
  header : checkHeader K block.header params = .ok ()
  merkle : ∃ found,
      (merkleRoot K (block.txdata.map K.computeTxid) : Result BlockError MerkleRoot) = .ok found ∧
        found.root = block.header.merkleRoot ∧
        found.mutated = false
  sizes : ∃ sizes,
      (blockSizes K block : Result BlockError BlockSizes) = .ok sizes ∧
        sizes.base * witnessScaleFactor ≤ maxBlockWeight
  coinbase : ∃ first rest,
      block.txdata = first :: rest ∧ first.isCoinbase ∧ ∀ tx ∈ rest, tx.isCoinbase = false
  txs : ∀ tx ∈ block.txdata, checkTx K tx = .ok ()
  sigops : ∃ count,
      (legacySigops K block.txdata 0 : Result BlockError Nat) = .ok count ∧
        count * witnessScaleFactor ≤ maxBlockSigopsCost

theorem checkBlock_eq_ok {block : Block} {params : ChainParams}
    (hCheck : checkBlock K block params = .ok ()) : CheckedBlock K block params := by
  simp only [checkBlock, checkMerkleRoot, checkCoinbases,
    bind_eq_ok, mapError_eq_ok, ensure_eq_ok, expect_eq_ok,
    checkNoCoinbase_eq_ok, checkTxs_eq_ok] at hCheck
  rcases hCheck with
    ⟨_, hHeader, _, _, _, ⟨found, hFound, _, hRoot, hMutated⟩,
      sizes, hSizes, _, hLen, _, ⟨first, hFst, _,
      hCoinbase, hOthers⟩, _, hTxs, count, hCount, hSigops⟩
  rcases hTxdata : block.txdata with _ | ⟨head, rest⟩
  · simp [hTxdata] at hFst
  rw [hTxdata] at hFst hOthers
  cases hFst
  exact
    { header := hHeader
      merkle := ⟨found, hFound, hRoot, hMutated⟩
      sizes := ⟨sizes, hSizes, by
        simp only [not_or, Nat.not_lt] at hLen
        exact hLen.2.2⟩
      coinbase := ⟨first, rest, hTxdata, hCoinbase, hOthers⟩
      txs := hTxs
      sigops := ⟨count, hCount, hSigops⟩ }

/- What `acceptBlock` promises of a block. -/
structure AcceptedBlock (K : Primitives) (block : Block)
    (context : Context) : Prop where
  witness : checkWitnessMalleation K block context.rules.segwitActive = .ok ()
  weight : ∃ sizes,
      (blockSizes K block : Result BlockError BlockSizes) = .ok sizes ∧
        sizes.base * (witnessScaleFactor - 1) + sizes.total ≤ maxBlockWeight

theorem acceptBlock_eq_ok {block : Block} {context : Context}
    (hAccept : acceptBlock K block context = .ok ()) : AcceptedBlock K block context := by
  simp only [acceptBlock, BlockSizes.weight, bind_eq_ok, assert_eq_ok,
    ensure_eq_ok, pure_inj] at hAccept
  rcases hAccept with ⟨_, _, _, _, _, _, _, _, _, hWitness, sizes, hSizes, _, ⟨_, _, rfl⟩, hWeight⟩
  exact ⟨hWitness, sizes, hSizes, hWeight⟩

end Bitmigo
