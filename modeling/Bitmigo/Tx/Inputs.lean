import Bitmigo.Header.Check
import Bitmigo.Tx.Check

/-
  The transaction rules that read the coins a transaction spends.

  Key definitions include:
    * `Coin` and `isUnspendable`
    * `checkTxInputs` and `valueOut`
    * `sequenceLocksSatisfied`
    * `sigopCostOf`

  Key theorems include:
    * `checkTxInputs_eq_ok`, the fee is what the inputs pay over the outputs
    * `valueOut_eq_ok`, the sum of the output values

  Each rule is a function of one transaction and of the facts about its inputs, one coin per input.
-/

namespace Bitmigo

open Result List Except

variable {ε : Type} {tx : Transaction} {spendHeight : Height}

/- How deep a coinbase output must be to be spent. -/
def coinbaseMaturity : Nat := 100

/- A time lock counts in units of 512 seconds. -/
def sequenceLocktimeGranularity : Nat := 9

/- An unspent output and what the rules read about it. -/
structure Coin where
  outpoint : OutPoint
  output : TxOut
  height : Height
  coinbase : Bool
  deriving DecidableEq

/- What a coin pays, in satoshis. -/
def Coin.value (coin : Coin) : Nat :=
  coin.output.value.toNat

/- A script that can never be satisfied. -/
def isUnspendable (scriptPubkey : Script) : Bool :=
  scriptPubkey.head? = some opReturn ∨ maxScriptSize < scriptPubkey.length

--------
-- Values
--------

/- Why the inputs of a transaction were refused. -/
inductive TxInputsError where
  | prematureCoinbaseSpend (input depth : Nat)
  | inputValuesOutOfRange (input : Nat)
  | inBelowOut (valueIn valueOut : Nat)
  deriving DecidableEq

/- The outputs added to a running sum. -/
def addOutputs (outputs : List TxOut) (total : Nat) : Result ε Nat :=
  match outputs with
  | [] => .ok total
  | output :: rest => do
      let total ← addU64 total output.value.toNat
      assert (total ≤ maxMoney)
      addOutputs rest total

/- The sum of the output values. -/
def valueOut (tx : Transaction) : Result ε Nat :=
  addOutputs tx.output 0

/- The coins of the inputs from `input` on, added up. -/
def addInputs (spendHeight : Height) (pairs : List (TxIn × Coin)) (input valueIn : Nat) :
    Result TxInputsError Nat :=
  match pairs with
  | [] => .ok valueIn
  | (txin, coin) :: rest => do
      assert (coin.outpoint = txin.previousOutput)
      assert (coin.height ≤ spendHeight)
      let depth := spendHeight.val - coin.height.val
      ensure (.prematureCoinbaseSpend input depth) (coin.coinbase → coinbaseMaturity ≤ depth)
      ensure (.inputValuesOutOfRange input) (coin.value ≤ maxMoney)
      let valueIn ← addU64 valueIn coin.value
      ensure (.inputValuesOutOfRange input) (valueIn ≤ maxMoney)
      addInputs spendHeight rest (input + 1) valueIn

/- The fee, if the inputs cover the outputs. -/
def checkTxInputs (tx : Transaction) (coins : List Coin) (spendHeight : Height) :
    Result TxInputsError Nat := do
  assert (tx.isCoinbase = false)
  assert (coins.length = tx.input.length)
  let valueIn ← addInputs spendHeight (tx.input.zip coins) 0 0
  let valueOut ← valueOut tx
  ensure (.inBelowOut valueIn valueOut) (valueOut ≤ valueIn)
  let fee := valueIn - valueOut
  assert (fee ≤ maxMoney)
  return fee

--------
-- Relative Locks
--------

/- What the relative lock of an input is measured from. -/
structure RelativeLockBase where
  height : Height
  medianTimePast : Option BlockTime
  deriving DecidableEq

/- The version is compared as unsigned. -/
def bip68Applies (tx : Transaction) : Bool :=
  2 ≤ tx.version.toUInt32

/- The last height and the last time that are too early. -/
structure LockPoints where
  heightMin : Int
  timeMin : Int

/- The locks of some inputs, added to the points so far. -/
def lockPoints (pairs : List (TxIn × RelativeLockBase)) (points : LockPoints) :
    Result ε LockPoints :=
  match pairs with
  | [] => .ok points
  | (input, base) :: rest =>
    let sequence := input.sequence.toNat
    let value : Int := sequence &&& sequenceLocktimeMask
    if sequence &&& sequenceLocktimeDisableFlag ≠ 0 then
      lockPoints rest points
    else do
      assert (value ≤ 0xffff)
      if sequence &&& sequenceLocktimeTypeFlag ≠ 0 then do
        let coinTime ← expect base.medianTimePast
        let lock := coinTime.toNat + value * 2 ^ sequenceLocktimeGranularity - 1
        lockPoints rest { points with timeMin := max points.timeMin lock }
      else
        let lock := base.height.val + value - 1
        lockPoints rest
          { points with
            heightMin := max points.heightMin lock }

/- Are the relative locks of every input satisfied? -/
def sequenceLocksSatisfied (tx : Transaction) (bases : List RelativeLockBase) (context : Context) :
    Result ε Bool := do
  assert (bases.length = tx.input.length)
  if ¬ bip68Applies tx ∨ ¬ context.rules.csvActive then
    return true
  else do
    let points ← lockPoints (tx.input.zip bases) ⟨-1, -1⟩
    return points.heightMin < context.height.val ∧ points.timeMin < context.medianTimePast.toNat

--------
-- Signature Operations
--------

/- What the scripts behind some inputs add to a cost. -/
def addSigopCosts (flags : ScriptFlags) (pairs : List (TxIn × TxOut)) (cost : Nat) : Result ε Nat :=
  match pairs with
  | [] => .ok cost
  | (input, prevout) :: rest => do
      let cost ←
        if flags.contains .p2sh then do
          let count ← expectOk (p2shSigopCount prevout.scriptPubkey input.scriptSig)
          addU64 cost (count * witnessScaleFactor)
        else
          .ok cost
      let count ←
        expectOk (witnessSigopCount input.scriptSig prevout.scriptPubkey input.witness flags)
      let cost ← addU64 cost count
      addSigopCosts flags rest cost

/- The cost of one transaction against the block's budget. -/
def sigopCostOf (K : Primitives) (tx : Transaction) (prevouts : List TxOut) (flags : ScriptFlags) :
    Result ε Nat := do
  let count ← legacySigopCount K tx
  assert (count * witnessScaleFactor < 2 ^ 64)
  let cost := count * witnessScaleFactor
  if tx.isCoinbase then do
    assert (prevouts = [])
    return cost
  else do
    assert (prevouts.length = tx.input.length)
    addSigopCosts flags (tx.input.zip prevouts) cost

--------
-- What the Sums Are
--------

/- What the outputs of a transaction pay. -/
def outputTotal (outputs : List TxOut) : Nat :=
  (outputs.map (·.value.toNat)).sum

/- What some coins are worth. -/
def coinTotal (coins : List Coin) : Nat :=
  (coins.map Coin.value).sum

theorem addU64_eq_ok {a b c : Nat} :
    (addU64 a b : Result ε Nat) = .ok c ↔ a + b < 2 ^ 64 ∧ c = a + b := by
  simp only [addU64, bind_eq_ok, assert_eq_ok, pure_inj]
  exact ⟨fun ⟨_, hFits, hSum⟩ => ⟨hFits, hSum.symm⟩, fun ⟨hFits, hSum⟩ => ⟨(), hFits, hSum.symm⟩⟩

theorem addOutputs_eq_ok {outputs : List TxOut} {total sum : Nat} (hTotal : total ≤ maxMoney) :
    (addOutputs outputs total : Result ε Nat) = .ok sum ↔
      total + outputTotal outputs ≤ maxMoney ∧ sum = total + outputTotal outputs := by
  induction outputs generalizing total with
  | nil =>
    simp only [addOutputs, outputTotal, map_nil, sum_nil, Nat.add_zero, ok.injEq]
    exact ⟨fun h => ⟨hTotal, h.symm⟩, fun h => h.2.symm⟩
  | cons output rest ih =>
    have hMoney : maxMoney < 2 ^ 64 := by decide
    simp only [addOutputs, outputTotal, map_cons, sum_cons, bind_eq_ok, addU64_eq_ok, assert_eq_ok]
    constructor
    · rintro ⟨next, ⟨_, rfl⟩, _, hLe, hRest⟩
      have hSum := (ih hLe).mp hRest
      unfold outputTotal at hSum
      omega
    · rintro ⟨hLe, rfl⟩
      refine ⟨_, ⟨by omega, rfl⟩, (), by omega, ?_⟩
      rw [ih (by omega)]
      unfold outputTotal
      omega

theorem valueOut_eq_ok {value : Nat} :
    (valueOut tx : Result ε Nat) = .ok value ↔
      outputTotal tx.output ≤ maxMoney ∧ value = outputTotal tx.output := by
  rw [valueOut, addOutputs_eq_ok (Nat.zero_le maxMoney), Nat.zero_add]

/- One input may be spent at this height. -/
structure Spendable (spendHeight : Height) (txin : TxIn)
    (coin : Coin) : Prop where
  outpoint : coin.outpoint = txin.previousOutput
  height : coin.height ≤ spendHeight
  mature : coin.coinbase → coinbaseMaturity ≤ spendHeight.val - coin.height.val

theorem addInputs_eq_ok {pairs : List (TxIn × Coin)} {input valueIn sum : Nat}
    (hValueIn : valueIn ≤ maxMoney) :
    addInputs spendHeight pairs input valueIn = .ok sum ↔ (∀ pair ∈ pairs,
      Spendable spendHeight pair.1 pair.2) ∧ valueIn + coinTotal (pairs.map (·.2)) ≤ maxMoney ∧
      sum = valueIn + coinTotal (pairs.map (·.2)) := by
  induction pairs generalizing input valueIn with
  | nil =>
    simp only [addInputs, coinTotal, map_nil, sum_nil, Nat.add_zero, ok.injEq,
      not_mem_nil, false_implies, implies_true, true_and]
    exact ⟨fun h => ⟨hValueIn, h.symm⟩, fun h => h.2.symm⟩
  | cons pair rest ih =>
    rcases pair with ⟨txin, coin⟩
    have hMoney : maxMoney < 2 ^ 64 := by decide
    simp only [addInputs, coinTotal, map_cons, sum_cons, forall_mem_cons,
      bind_eq_ok, addU64_eq_ok, assert_eq_ok, ensure_eq_ok]
    constructor
    · rintro ⟨_, hOutpoint, _, hHeight, _, hMature, _, _, next, ⟨_, rfl⟩, _, hLe, hRest⟩
      rcases (ih hLe).mp hRest with ⟨hAll, hSum, hEq⟩
      unfold coinTotal at hSum hEq
      exact ⟨⟨⟨hOutpoint, hHeight, hMature⟩, hAll⟩, by omega, by omega⟩
    · rintro ⟨⟨hPair, hAll⟩, hLe, rfl⟩
      refine ⟨(), hPair.outpoint, (), hPair.height, (),
        hPair.mature, (), by omega, _, ⟨by omega, rfl⟩, (), by omega, ?_⟩
      rw [ih (by omega)]
      unfold coinTotal
      exact ⟨hAll, by omega, by omega⟩

theorem checkTxInputs_eq_ok {coins : List Coin} {fee : Nat} :
    checkTxInputs tx coins spendHeight = .ok fee ↔ tx.isCoinbase = false ∧
      coins.length = tx.input.length ∧
      (∀ pair ∈ tx.input.zip coins, Spendable spendHeight pair.1 pair.2) ∧
      coinTotal coins ≤ maxMoney ∧ fee + outputTotal tx.output = coinTotal coins := by
  simp only [checkTxInputs, bind_eq_ok, assert_eq_ok, ensure_eq_ok, valueOut_eq_ok, pure_inj]
  constructor
  · rintro ⟨_, hSpend, _, hLen, valueIn, hIn, value, ⟨_, rfl⟩, _, hCovers, _, _, rfl⟩
    rw [addInputs_eq_ok (Nat.zero_le maxMoney), map_snd_zip (by omega), Nat.zero_add] at hIn
    rcases hIn with ⟨hAll, hLe, rfl⟩
    exact ⟨hSpend, hLen, hAll, hLe, by omega⟩
  · rintro ⟨hSpend, hLen, hAll, hLe, hFee⟩
    refine ⟨(), hSpend, (), hLen, coinTotal coins, ?_,
      outputTotal tx.output, ⟨by omega, rfl⟩, (), by omega, (), by omega, by omega⟩
    rw [addInputs_eq_ok (Nat.zero_le maxMoney), map_snd_zip (by omega), Nat.zero_add]
    exact ⟨hAll, hLe, rfl⟩

end Bitmigo
