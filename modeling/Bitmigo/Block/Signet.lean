import Bitmigo.Block.Merkle
import Bitmigo.Script.Verify

/-
  The signature a signet block carries over itself.

  Key definitions include:
    * `witnessCommitmentIndex`
    * `signetTxs`, the two transactions a solution is a spend of
    * `checkSignetSolution`
-/

namespace Bitmigo

open Result

variable {ε : Type}

--------
-- The Witness Commitment
--------

/- The least size of a commitment's script. -/
def witnessCommitmentSizeMin : Nat := 38

def witnessCommitmentHeader : Bytes :=
  [0x6a, 0x24, 0xaa, 0x21, 0xa9, 0xed]

def witnessReservedValueSize : Nat := 32

/- Does the output look like a commitment? -/
def isWitnessCommitment (output : TxOut) : Bool :=
  witnessCommitmentSizeMin ≤ output.scriptPubkey.length ∧
    witnessCommitmentHeader.isPrefixOf output.scriptPubkey

/- The last output from `index` on that does. -/
def lastCommitment (outputs : List TxOut) (index : Nat) (found : Option Nat) : Option Nat :=
  match outputs with
  | [] => found
  | output :: rest =>
    lastCommitment rest (index + 1)
      (if isWitnessCommitment output then some index
        else found)

def witnessCommitmentIndex (coinbase : Transaction) : Option Nat :=
  lastCommitment coinbase.output 0 none

--------
-- Solutions
--------

/- The bytes that mark the section of a solution. -/
def signetHeader : Bytes := [0xec, 0xc7, 0xda, 0xa2]

/- The flags a solution is verified under. -/
def blockScriptFlags : ScriptFlags :=
  ((ScriptFlags.p2sh.union .witness).union .dersig).union .nulldummy

def blockDataSize : Nat := 4 + 32 + 32 + 4
def maxSerializedSize : Nat := 0x02000000

/- Why a solution was refused. -/
inductive SignetError where
  | coinbaseMissing
  | noWitnessCommitment
  | malformedSolution
  | extraneousSolutionData (extra : Nat)
  | script (error : ScriptError)
  deriving DecidableEq

structure SignetTxs where
  toSpend : Transaction
  toSign : Transaction

/- A commitment without its section, and the section. -/
structure Cleared where
  replacement : Script
  solution : Bytes

/-
  Rewrite the pushes of a commitment. The first push with the header and something after it loses
  what comes after; a truncated push ends the walk.
-/
def clearSteps
    (steps : List (Result ScriptError (Op × Reader))) (cleared : Cleared) (found : Bool) :
    Result ε (Cleared × Bool) :=
  match steps with
  | [] => .ok (cleared, found)
  | .error .panic :: _ => panicked
  | .error (.error _) :: _ => .ok (cleared, found)
  | .ok (op, _) :: rest =>
    if op.push = [] then
      clearSteps rest
        { cleared with
          replacement := cleared.replacement ++ [op.opcode.byte] } found
    else if found = false ∧
        signetHeader.length < op.push.length ∧
        signetHeader.isPrefixOf op.push then do
      let push ← expectOk (pushEncoding signetHeader)
      clearSteps rest
        { replacement := cleared.replacement ++ push
          solution := cleared.solution ++ op.push.drop signetHeader.length } true
    else do
      let push ← expectOk (pushEncoding op.push)
      clearSteps rest
        { cleared with
          replacement := cleared.replacement ++ push } found

def fetchAndClearCommitmentSection (commitment : Script) : Result ε (Option Cleared) := do
  let (cleared, found) ← clearSteps (Reader.steps commitment) ⟨[], []⟩ false
  return if found then some cleared else none

/- The next `count` bytes, and what is left. -/
def takeBytes (bytes : Bytes) (count : Nat) : Result SignetError (Bytes × Bytes) := do
  ensure .malformedSolution (count ≤ bytes.length)
  return (bytes.take count, bytes.drop count)

/- A size in its shortest encoding, up to the ceiling. -/
def readCompactSize (bytes : Bytes) : Result SignetError (Nat × Bytes) := do
  let (first, bytes) ← takeBytes bytes 1
  let first ← expect first.head?
  let (value, bytes) ←
    (if first ≤ 252 then
      return (first.toNat, bytes)
    else do
      let (size, least) : Nat × Nat :=
        if first = 253 then (2, 253)
        else if first = 254 then (4, 0x10000)
        else (8, 0x100000000)
      let (encoded, bytes) ← takeBytes bytes size
      let value := LittleEndian.decode encoded
      ensure .malformedSolution (least ≤ value)
      return (value, bytes))
  ensure .malformedSolution (value ≤ maxSerializedSize)
  return (value, bytes)

/- A size and that many bytes. -/
def readBytes (bytes : Bytes) : Result SignetError (Bytes × Bytes) := do
  let (size, bytes) ← readCompactSize bytes
  takeBytes bytes size

def readItems (count : Nat) (bytes : Bytes) : Result SignetError (List Bytes × Bytes) :=
  match count with
  | 0 => .ok ([], bytes)
  | count + 1 => do
      let (item, bytes) ← readBytes bytes
      let (items, bytes) ← readItems count bytes
      return (item :: items, bytes)

/- A `scriptSig`, then a witness stack, then nothing. -/
def parseSolution (solution : Bytes) : Result SignetError (Script × Witness) := do
  let (scriptSig, bytes) ← readBytes solution
  let (count, bytes) ← readCompactSize bytes
  ensure .malformedSolution (count ≤ bytes.length)
  let (items, bytes) ← readItems count bytes
  assert (items.length = count)
  let extra := bytes.length
  ensure (.extraneousSolutionData extra) (extra = 0)
  return (scriptSig, items)

--------
-- The Two Transactions
--------

variable (K : Primitives)

/- The root with the modified coinbase in front. -/
def modifiedMerkleRoot (modifiedCoinbase : Transaction) (block : Block) : Result ε Hash32 := do
  assert (block.txdata ≠ [])
  let leaves := K.computeTxid modifiedCoinbase :: (block.txdata.drop 1).map K.computeTxid
  assert (leaves.length = block.txdata.length)
  let found ← merkleRoot K leaves
  return found.root

/- What a solution commits to; not the nonce. -/
def blockData (header : Header) (modifiedCoinbase : Transaction) (block : Block) :
    Result ε Bytes := do
  let root ← modifiedMerkleRoot K modifiedCoinbase block
  let data :=
    LittleEndian.encode 4 header.version.toUInt32.toNat ++
      header.prevBlockhash.val ++ root.val ++
      LittleEndian.encode 4 header.time.toNat
  assert (data.length = blockDataSize)
  return data

/- Pays zero to the challenge. -/
def toSpendTx (challenge : Script) (blockData : Bytes) : Result ε Transaction := do
  assert (blockData.length = blockDataSize)
  let push ← expectOk (pushEncoding blockData)
  return {
    version := 0
    lockTime := 0
    input := [{
      previousOutput := OutPoint.null
      scriptSig := op0 :: push
      sequence := 0
      witness := [] }]
    output := [{ value := 0, scriptPubkey := challenge }] }

/- Spends that output with the solution. -/
def toSignTx (toSpend : Txid) (scriptSig : Script) (witness : Witness) : Transaction where
  version := 0
  lockTime := 0
  input := [{
    previousOutput := ⟨toSpend, 0⟩
    scriptSig := scriptSig
    sequence := 0
    witness := witness }]
  output := [{ value := 0, scriptPubkey := [opReturn] }]

/- The coinbase with another script in one output. -/
def withOutputScript (tx : Transaction) (position : Nat) (script : Script) : Transaction :=
  { tx with
    output := tx.output.modify position fun output =>
      { output with scriptPubkey := script } }

def signetTxs (block : Block) (challenge : Script) : Result SignetError SignetTxs := do
  let coinbase ← orFail .coinbaseMissing block.txdata.head?
  let position ← orFail .noWitnessCommitment (witnessCommitmentIndex coinbase)
  let commitment ← expect coinbase.output[position]?
  let cleared ← fetchAndClearCommitmentSection commitment.scriptPubkey
  let modified :=
    match cleared with
    | some cleared =>
      withOutputScript coinbase position cleared.replacement
    | none => coinbase
  let data ← blockData K block.header modified block
  let toSpend ← toSpendTx challenge data
  let (scriptSig, witness) ←
    (match cleared with
    | some cleared => parseSolution cleared.solution
    | none => return ([], []))
  return { toSpend := toSpend
           toSign := toSignTx (K.computeTxid toSpend) scriptSig witness }

/- Genesis is the caller's exception. -/
def checkSignetSolution (block : Block) (challenge : Script) : Result SignetError Unit := do
  assert (challenge ≠ [])
  let txs ← signetTxs K block challenge
  let spent ← expect txs.toSpend.output.head?
  let precomputed ← expectOk (TxPrecomputed.new K txs.toSign [spent])
  mapError SignetError.script
    (verifyInput K txs.toSign 0 [spent] precomputed blockScriptFlags).out

end Bitmigo
