import Bitmigo.Params.Chain
import Bitmigo.Script.Sigops
import Mathlib.Data.List.Sort

/-
  The context-free transaction rules, finality and the legacy count of signature operations.

  Key definitions include:
    * `TxError` and `checkTx`
    * `isFinal`
    * `legacySigopCount`
-/

namespace Bitmigo

open Result

variable {ε : Type}

def witnessScaleFactor : Nat := 4
def maxBlockWeight : Nat := 4000000
def maxBlockSigopsCost : Nat := 80000
def maxMoney : Nat := 21000000 * 100000000
def coinbaseScriptSigSizeMin : Nat := 2
def coinbaseScriptSigSizeMax : Nat := 100

/- `u64` addition, which panics past the width. -/
def addU64 (a b : Nat) : Result ε Nat := do
  assert (a + b < 2 ^ 64)
  return a + b

/- Why a transaction was refused. -/
inductive TxError where
  | vinEmpty
  | voutEmpty
  | oversize (baseSize : Nat)
  | voutNegative (index : Nat)
  | voutTooLarge (index : Nat)
  | txOutTotalTooLarge (index : Nat)
  | inputsDuplicate (outpoint : OutPoint)
  | coinbaseLength (size : Nat)
  | prevoutNull (index : Nat)
  deriving DecidableEq

/- The non-witness serialized size. -/
def baseSize (K : Primitives) (tx : Transaction) : Nat :=
  (K.serializeTxBase tx).length

/- The serialized size with the witnesses. -/
def totalSize (K : Primitives) (tx : Transaction) : Nat :=
  (K.serializeTx tx).length

/- Each value and the running sum stay in range. -/
def checkOutputValues (outputs : List TxOut) (index total : Nat) : Result TxError Unit :=
  match outputs with
  | [] => assert (total ≤ maxMoney)
  | output :: rest => do
      let value := output.value.toNat
      ensure (.voutNegative index) (value &&& 2 ^ 63 = 0)
      ensure (.voutTooLarge index) (value ≤ maxMoney)
      let total := total + value
      ensure (.txOutTotalTooLarge index) (total ≤ maxMoney)
      checkOutputValues rest (index + 1) total

/- The order outpoints are sorted in. -/
def OutPoint.le (a b : OutPoint) : Bool :=
  (a.txid.val.map UInt8.toNat) < (b.txid.val.map UInt8.toNat) ∨ (a.txid = b.txid ∧ a.vout ≤ b.vout)

/- The first two neighbours that are equal. -/
def checkNeighbours :
    List OutPoint → Result TxError Unit
  | first :: second :: rest => do
      assert (first.le second)
      ensure (.inputsDuplicate first) (first ≠ second)
      checkNeighbours (second :: rest)
  | _ => .ok ()

/- No two inputs spend the same outpoint. -/
def checkInputsDistinct (tx : Transaction) : Result TxError Unit := do
  assert (tx.input ≠ [])
  let outpoints := tx.input.map (·.previousOutput)
  checkNeighbours (outpoints.insertionSort fun a b => a.le b)

/- The first null outpoint of a spend. -/
def checkPrevouts (inputs : List TxIn) (index : Nat) : Result TxError Unit :=
  match inputs with
  | [] => .ok ()
  | input :: rest => do
      ensure (.prevoutNull index) (input.previousOutput ≠ OutPoint.null)
      checkPrevouts rest (index + 1)

def checkTx (K : Primitives) (tx : Transaction) : Result TxError Unit := do
  ensure .vinEmpty (tx.input ≠ [])
  ensure .voutEmpty (tx.output ≠ [])
  let baseSize := baseSize K tx
  ensure (.oversize baseSize) (baseSize * witnessScaleFactor ≤ maxBlockWeight)
  assert (tx.output ≠ [])
  checkOutputValues tx.output 0 0
  checkInputsDistinct tx
  if tx.isCoinbase then do
    let input ← expect tx.input.head?
    let size := input.scriptSig.length
    ensure (.coinbaseLength size)
      (coinbaseScriptSigSizeMin ≤ size ∧ size ≤ coinbaseScriptSigSizeMax)
  else
    checkPrevouts tx.input 0

/- May the transaction be in the block at this height? -/
def isFinal (tx : Transaction) (height : Height) (cutoff : BlockTime) : Bool :=
  let lockTime := tx.lockTime.toNat
  let bound :=
    if lockTime < locktimeThreshold then height.val
    else cutoff.toNat
  lockTime = 0 ∨ lockTime < bound ∨ tx.input.all fun input => input.sequence = sequenceFinal

/- The counts of some scripts, added up. -/
def sigopTotal (scripts : List Script) (total : Nat) : Result ε Nat :=
  match scripts with
  | [] => .ok total
  | script :: rest => do
      let count ← expectOk (sigopCount script .inaccurate)
      let total ← addU64 total count
      sigopTotal rest total

/- The inaccurate count over every script. -/
def legacySigopCount (K : Primitives) (tx : Transaction) : Result ε Nat := do
  let count ← sigopTotal (tx.input.map (·.scriptSig)) 0
  let count ← sigopTotal (tx.output.map (·.scriptPubkey)) count
  assert (count ≤ 20 * baseSize K tx)
  return count

end Bitmigo
