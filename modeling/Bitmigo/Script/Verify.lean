import Bitmigo.Script.Interpreter
import Bitmigo.Script.Taproot

/-
  Verifying one input: scriptSig, scriptPubKey, then the redeem script and the witness program they
  lead to.

  Key definitions include:
    * `verifyInput` and `verifyScript`
    * `verifyWitnessProgram` and `verifyTaproot`
    * `executeWitnessScript`
    * `isPayToScriptHash`, `witnessProgram`, `isPushOnly` and `hasOpSuccess`
-/

namespace Bitmigo

open Result

variable {K : Primitives}

def witnessV0KeyhashSize : Nat := 20
def witnessV0ScripthashSize : Nat := 32
def witnessV1TaprootSize : Nat := 32
def witnessProgramScriptLenMin : Nat := 4
def witnessProgramScriptLenMax : Nat := 42

--------
-- Script Shapes
--------

/- `HASH160 <20 bytes> EQUAL`. -/
def isPayToScriptHash (script : Script) : Bool :=
  script.length = 23 &&
    script[0]? == some opHash160 &&
    script[1]? == some 0x14 &&
    script.getLast? == some opEqual

/- The version a witness program's first byte names. -/
def witnessVersion? (byte : UInt8) : Option UInt8 :=
  if byte = op0 then some 0
  else if op1 ≤ byte ∧ byte ≤ op16 then some (byte - op1 + 1)
  else none

/- The version and program of a witness program script. -/
def witnessProgram (script : Script) : Result ScriptError (Option (UInt8 × Bytes)) :=
  if script.length < witnessProgramScriptLenMin ∨
      witnessProgramScriptLenMax < script.length then
    .ok none
  else
    match script with
    | versionByte :: pushLen :: program =>
      match witnessVersion? versionByte with
      | none => .ok none
      | some version =>
        if pushLen.toNat + 2 ≠ script.length then
          .ok none
        else do
          assert (program.length = pushLen.toNat)
          return some (version, program)
    | _ => .ok none

/- The P2PKH script a P2WPKH program stands for. -/
def p2wpkhScript (program : Bytes) : Result ScriptError Script := do
  assert (program.length = witnessV0KeyhashSize)
  let script := [opDup, opHash160, 0x14] ++ program ++ [opEqualverify, opChecksig]
  assert (script.length = 25)
  return script

/- Are all opcodes up to the end of the script pushes? -/
def isPushOnlySteps (steps : List (Result ScriptError (Op × Reader))) : Result ScriptError Bool :=
  match steps with
  | [] => .ok true
  | .error .panic :: _ => panicked
  | .error (.error _) :: _ => .ok false
  | .ok (op, _) :: rest =>
    if op16 < op.opcode.byte then
      .ok false
    else
      isPushOnlySteps rest

def isPushOnly (script : Script) : Result ScriptError Bool :=
  isPushOnlySteps (Reader.steps script)

/- Is there an `OP_SUCCESS` before any failed read? -/
def hasOpSuccessSteps (steps : List (Result ScriptError (Op × Reader))) : Result ScriptError Bool :=
  match steps with
  | [] => .ok false
  | step :: rest => do
      let (op, _) ← step
      if op.opcode.isSuccess then
        return true
      else
        hasOpSuccessSteps rest

def hasOpSuccess (script : Script) : Result ScriptError Bool :=
  hasOpSuccessSteps (Reader.steps script)

--------
-- Witness Programs
--------

/-
  Run a witness script on its items. An `OP_SUCCESS` overrides everything in a tapscript, and the
  script must leave exactly one true element.
-/
def executeWitnessScript
    (items : List Bytes) (execScript : Script) (flags : ScriptFlags) (sigVersion : SigVersion)
    (exec : ExecData) (checker : TxSigChecker K) :
    Run Unit := do
  (assert (sigVersion ≠ .base) : Result ScriptError Unit)
  let succeeded ←
    (if sigVersion = .tapscript then
      hasOpSuccess execScript
    else
      pure false : Result ScriptError Bool)
  if succeeded then
    return ()
  else do
    ensure ScriptError.stackSize (sigVersion = .tapscript → items.length ≤ maxStackSize)
    ensure ScriptError.pushSize (∀ item ∈ items, item.length ≤ maxScriptElementSize)
    let stack ← Stack.fromItems items
    let (stack, _) ← evalScript execScript stack flags sigVersion exec checker
    ensure ScriptError.cleanstack (stack.len = 1)
    let top ← stack.top 1
    ensure ScriptError.evalFalse (castToBool top.val)

/- Take the annex off the witness, if there is one. -/
def splitAnnex (items : List Bytes) : List Bytes × Option Bytes :=
  match items.getLast? with
  | none => (items, none)
  | some last =>
    if 2 ≤ items.length ∧ last.head? = some annexTag then
      (items.dropLast, some last)
    else
      (items, none)

/-
  The leaf a taproot script path spends: its script, its stack items and the data it executes with,
  or nothing when its version is unknown.
-/
def taprootLeaf
    (witness : Witness) (items : List Bytes) (annex : Option Bytes) (outputKey : Hash32) :
    Result ScriptError (Option (List Bytes × Script × TapscriptExec)) := do
  let controlItem ← expect items.getLast?
  let items := items.dropLast
  let script ← expect items.getLast?
  let items := items.dropLast
  let control ← ControlBlock.parse controlItem
  let leafHash ← tapleafHash K control.leafVersion script
  let committed ← verifyTaprootCommitment K control outputKey leafHash
  ensure .witnessProgramMismatch committed
  if control.leafVersion ≠ taprootLeafTapscript then
    return none
  else do
    let weight ← validationWeight K witness
    return some (items, script, ⟨leafHash, annex, weight⟩)

/- BIP341: the annex, the key path, the script path. -/
def verifyTaproot
    (witness : Witness) (outputKey : Hash32) (flags : ScriptFlags) (checker : TxSigChecker K) :
    Run Unit := do
  (assert (flags.contains .taproot) : Result ScriptError Unit)
  ensure ScriptError.witnessProgramWitnessEmpty (witness ≠ [])
  let (items, annex) := splitAnnex witness
  match items with
  | [signature] => do
      Traced.call .schnorr
      checker.checkSchnorr signature outputKey .keyPath annex
  | items => do
      match ← taprootLeaf (K := K) witness items annex outputKey with
      | none => return ()
      | some (items, script, exec) =>
        executeWitnessScript items script flags .tapscript (.ofTapscript exec) checker

/- Dispatch a witness program on its version and length. -/
def verifyWitnessProgram
    (witness : Witness) (version : UInt8) (program : Bytes) (flags : ScriptFlags)
    (checker : TxSigChecker K) (isP2sh : Bool) :
    Run Unit := do
  (assert (2 ≤ program.length) : Result ScriptError Unit)
  (assert (program.length ≤ 40) : Result ScriptError Unit)
  if version = 0 then
    if program.length = witnessV0ScripthashSize then do
      let script ←
        (orFail .witnessProgramWitnessEmpty witness.getLast? : Result ScriptError Bytes)
      ensure ScriptError.witnessProgramMismatch ((K.sha256 script).val = program)
      executeWitnessScript witness.dropLast script flags .witnessV0 .legacy checker
    else if program.length = witnessV0KeyhashSize then do
      ensure ScriptError.witnessProgramMismatch (witness.length = 2)
      let execScript ← p2wpkhScript program
      executeWitnessScript witness execScript flags .witnessV0 .legacy checker
    else
      liftM (Result.fail .witnessProgramWrongLength : Result ScriptError Unit)
  else if version = 1 ∧ !isP2sh then
    match FixedBytes.ofBytes? witnessV1TaprootSize program with
    | none => pure ()
    | some outputKey =>
      if !flags.contains .taproot then
        pure ()
      else
        verifyTaproot witness outputKey flags checker
  else
    pure ()

--------
-- The Verifier
--------

/- Fail unless the top of the stack is true. -/
def requireTrue (stack : Stack) : Result ScriptError Unit :=
  if stack.isEmpty then
    Result.fail .evalFalse
  else do
    let top ← stack.top 1
    ensure .evalFalse (castToBool top.val)

/-
  Run the redeem script of a P2SH output, then the witness program it may be. True when it was one.
-/
def verifyRedeemScript
    (scriptSig redeemScript : Script) (stack : Stack) (witness : Witness) (flags : ScriptFlags)
    (checker : TxSigChecker K) :
    Run Bool := do
  let (stack, _) ← evalScript redeemScript stack flags .base .legacy checker
  requireTrue stack
  if !flags.contains .witness then
    return false
  else do
    match ← witnessProgram redeemScript with
    | none => return false
    | some (version, program) => do
        let push ← pushEncoding redeemScript
        ensure ScriptError.witnessMalleatedP2sh (scriptSig = push)
        verifyWitnessProgram witness version program flags checker true
        return true

/- The native witness program of an output, if it is one. -/
def verifyNativeWitness (scriptSig scriptPubkey : Script) (witness : Witness) (flags : ScriptFlags)
    (checker : TxSigChecker K) : Run Bool :=
  if flags.contains .witness then do
    match ← witnessProgram scriptPubkey with
    | none => return false
    | some (version, program) => do
        ensure ScriptError.witnessMalleated (scriptSig = [])
        verifyWitnessProgram witness version program flags checker false
        return true
  else
    pure false

/- The redeem script of a P2SH output, if it is one. -/
def verifyP2sh (scriptSig scriptPubkey : Script) (stackCopy : Option Stack) (witness : Witness)
    (flags : ScriptFlags) (checker : TxSigChecker K) (hadWitness : Bool) : Run Bool :=
  if flags.contains .p2sh && isPayToScriptHash scriptPubkey
  then do
    let pushOnly ← isPushOnly scriptSig
    ensure ScriptError.sigPushonly pushOnly
    let stack ← (expect stackCopy : Result ScriptError Stack)
    (assert (¬ stack.isEmpty) : Result ScriptError Unit)
    let (redeemScript, stack) ← stack.pop
    verifyRedeemScript scriptSig redeemScript.val stack witness flags checker
  else
    pure hadWitness

/- Verify one input given its scripts and witness. -/
def verifyScript (scriptSig scriptPubkey : Script) (witness : Witness) (flags : ScriptFlags)
    (checker : TxSigChecker K) :
    Run Unit := do
  (assert (flags.contains .witness → flags.contains .p2sh) : Result ScriptError Unit)
  (assert (flags.contains .taproot → flags.contains .witness) : Result ScriptError Unit)
  let (stack, exec) ← evalScript scriptSig Stack.new flags .base .legacy checker
  let stackCopy :=
    if flags.contains .p2sh then some stack else none
  let (stack, _) ← evalScript scriptPubkey stack flags .base exec checker
  requireTrue stack
  let hadWitness ← verifyNativeWitness scriptSig scriptPubkey witness flags checker
  let hadWitness ← verifyP2sh scriptSig scriptPubkey stackCopy witness flags checker hadWitness
  ensure ScriptError.witnessUnexpected
    (¬ (flags.contains .witness ∧ hadWitness = false ∧ witness ≠ []))

/- Verify one input of a transaction, named by its index. -/
def verifyInput (K : Primitives) (tx : Transaction) (index : Nat) (prevouts : List TxOut)
    (precomputed : TxPrecomputed) (flags : ScriptFlags) :
    Run Unit := do
  (assert (index < tx.input.length) : Result ScriptError Unit)
  (assert (prevouts.length = tx.input.length) : Result ScriptError Unit)
  let input ← (expect tx.input[index]? : Result ScriptError TxIn)
  let prevout ← (expect prevouts[index]? : Result ScriptError TxOut)
  let checker ← TxSigChecker.new K tx index prevouts precomputed
  verifyScript input.scriptSig prevout.scriptPubkey input.witness flags checker

end Bitmigo
