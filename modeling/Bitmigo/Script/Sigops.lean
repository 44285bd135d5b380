import Bitmigo.Script.VerifySafety

/-
  Counting signature operations: a static scan of a script.

  Key definitions include:
    * `SigOpMode`, how a `CHECKMULTISIG` is counted
    * `sigopCount`, the count of one script
    * `p2shSigopCount` and `witnessSigopCount`, the counts of the scripts an input leads to
    * `lastPush`, what a push-only scriptSig leaves on top

  The scan stops silently at the first opcode that does not parse. A count is a `u32`, and adding to
  it is checked.
-/

namespace Bitmigo

open Result List

variable {K : Primitives}

/- How a `CHECKMULTISIG` is counted. -/
inductive SigOpMode where
  | inaccurate
  | accurate
  deriving DecidableEq

/-
  What one opcode adds: the key count a small integer before it announces, where that is asked for,
  else the maximum.
-/
def sigopCost (mode : SigOpMode) (previous opcode : Opcode) : Result ScriptError Nat :=
  if opcode.byte = opChecksig ∨
      opcode.byte = opChecksigverify then
    .ok 1
  else if opcode.byte = opCheckmultisig ∨
      opcode.byte = opCheckmultisigverify then
    if mode = .accurate ∧ op1 ≤ previous.byte ∧
        previous.byte ≤ op16 then do
      let keys ← previous.smallInteger
      assert (0 ≤ keys)
      assert (1 ≤ keys)
      assert (keys ≤ maxPubkeysPerMultisig)
      return keys.toNat
    else
      .ok maxPubkeysPerMultisig
  else
    .ok 0

/- The loop of the scan. -/
def sigopCountSteps
    (mode : SigOpMode) (steps : List (Result ScriptError (Op × Reader))) (count : Nat)
    (previous : Opcode) : Result ScriptError Nat :=
  match steps with
  | [] => .ok count
  | .error .panic :: _ => panicked
  | .error (.error _) :: _ => .ok count
  | .ok (op, _) :: rest => do
      let cost ← sigopCost mode previous op.opcode
      assert (count + cost < 2 ^ 32)
      sigopCountSteps mode rest (count + cost) op.opcode

def sigopCount (script : Script) (mode : SigOpMode) : Result ScriptError Nat := do
  let count ← sigopCountSteps mode (Reader.steps script) 0 ⟨opInvalidopcode⟩
  assert (count ≤ 20 * script.length)
  return count

/- The loop of `lastPush`, with the push last read. -/
def lastPushSteps (steps : List (Result ScriptError (Op × Reader))) (last : Bytes) :
    Result ScriptError (Option Bytes) :=
  match steps with
  | [] => .ok (some last)
  | .error .panic :: _ => panicked
  | .error (.error _) :: _ => .ok none
  | .ok (op, _) :: rest =>
    if op16 < op.opcode.byte then
      .ok none
    else
      lastPushSteps rest op.push

/- The data of the last push of a push-only script.  The small integers have none. -/
def lastPush (scriptSig : Script) : Result ScriptError (Option Bytes) :=
  lastPushSteps (Reader.steps scriptSig) []

/- The accurate count of the redeem script of a P2SH output. -/
def p2shSigopCount (scriptPubkey scriptSig : Script) : Result ScriptError Nat :=
  if !isPayToScriptHash scriptPubkey then
    .ok 0
  else do
    match ← lastPush scriptSig with
    | some redeemScript => sigopCount redeemScript .accurate
    | none => return 0

/- One for P2WPKH, the accurate count of a P2WSH script. -/
def witnessProgramSigopCount (version : UInt8) (program : Bytes) (witness : Witness) :
    Result ScriptError Nat := do
  assert (2 ≤ program.length)
  assert (program.length ≤ 40)
  if version ≠ 0 then
    return 0
  else if program.length = witnessV0KeyhashSize then
    return 1
  else if program.length = witnessV0ScripthashSize then
    match witness.getLast? with
    | some witnessScript =>
      sigopCount witnessScript .accurate
    | none => return 0
  else
    return 0

/- The count of a P2SH-wrapped witness program, if it is one. -/
def wrappedWitnessSigopCount (scriptSig scriptPubkey : Script) (witness : Witness) :
    Result ScriptError Nat :=
  if isPayToScriptHash scriptPubkey then do
    match ← lastPush scriptSig with
    | none => return 0
    | some redeemScript => do
        match ← witnessProgram redeemScript with
        | none => return 0
        | some (version, program) =>
          witnessProgramSigopCount version program witness
  else
    .ok 0

/- The count of the witness program an input spends. -/
def witnessSigopCount (scriptSig scriptPubkey : Script) (witness : Witness) (flags : ScriptFlags) :
    Result ScriptError Nat :=
  if !flags.contains .witness then
    .ok 0
  else do
    assert (flags.contains .p2sh)
    match ← witnessProgram scriptPubkey with
    | some (version, program) =>
      witnessProgramSigopCount version program witness
    | none =>
      wrappedWitnessSigopCount scriptSig scriptPubkey witness

--------
-- Small Integers
--------

/- The opcode bytes of the numbers that have one. -/
def smallIntegerBytes : List UInt8 :=
  op1negate :: map UInt8.ofNat (range' 0x51 16)

/- Is this one of the opcodes that push a number? -/
abbrev Opcode.IsSmallInteger (opcode : Opcode) : Prop :=
  opcode.byte = op1negate ∨ (op1 ≤ opcode.byte ∧ opcode.byte ≤ op16)

theorem mem_smallIntegerBytes {opcode : Opcode} (hSmall : opcode.IsSmallInteger) :
    opcode.byte ∈ smallIntegerBytes := by
  rcases hSmall with hNegate | ⟨hLow, hHigh⟩
  · rw [hNegate]
    exact mem_cons_self
  · rw [UInt8.le_iff_toNat_le] at hLow hHigh
    refine mem_cons_of_mem _ (mem_map.mpr ⟨opcode.byte.toNat, ?_, by simp⟩)
    rw [mem_range'_1]
    exact ⟨hLow, Nat.lt_succ_of_le hHigh⟩

end Bitmigo
