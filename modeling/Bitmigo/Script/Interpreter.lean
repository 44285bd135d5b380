import Bitmigo.Script.Checker
import Bitmigo.Script.Num
import Bitmigo.Script.Stack

/-
  The script interpreter, one opcode at a time.

  Key definitions include:
    * `ConditionStack`
    * `Env`, what an execution is given, and `Machine`, what it changes
    * `Machine.execute`, the dispatch on one opcode
    * `evalStep`, `evalLoop` and `evalScript`
    * `findAndDelete`

  An execution is a `Run`: its result, with the calls it made to the signature checker.
-/

namespace Bitmigo

open Result ScriptNum

def maxScriptSize : Nat := 10000
def maxStackSize : Nat := 1000
def maxOpsPerScript : Nat := 201
def maxPubkeysPerMultisig : Nat := 20
def validationWeightPerSigopPassed : Int := 50
def codeseparatorPosNone : UInt32 := 0xffffffff
def opCountMax : Nat := maxOpsPerScript + 20
def nestingMax : Nat := 10001

/- A call to the signature checker. -/
inductive SigCall where
  | ecdsa
  | schnorr
  deriving DecidableEq

/- An execution and the signature checks it made. -/
abbrev Run (α : Type) := Traced SigCall ScriptError α

--------
-- Execution Data
--------

/- What a tapscript signature check needs from its spend. -/
structure TapscriptExec where
  leafHash : Hash32
  annex : Option Bytes
  validationWeightLeft : Int

/- The budget after a check: only a signature is charged. -/
def TapscriptExec.charged (exec : TapscriptExec) (success : Bool) : TapscriptExec :=
  if success then
    { exec with
      validationWeightLeft := exec.validationWeightLeft - validationWeightPerSigopPassed }
  else
    exec

structure ExecData where
  codesepPos : UInt32
  -- Present exactly when the script is a tapscript leaf.
  tapscript : Option TapscriptExec

namespace ExecData

def legacy : ExecData where
  codesepPos := codeseparatorPosNone
  tapscript := none

def ofTapscript (exec : TapscriptExec) : ExecData where
  codesepPos := codeseparatorPosNone
  tapscript := some exec

end ExecData

--------
-- Conditions
--------

/-
  The nest of conditionals around the current opcode: its depth and the depth of the outermost
  false.
-/
structure ConditionStack where
  depth : Nat
  firstFalse : Option Nat
  firstFalse_lt : ∀ first ∈ firstFalse, first < depth

namespace ConditionStack

def new : ConditionStack where
  depth := 0
  firstFalse := none
  firstFalse_lt := by simp

def isEmpty (conditions : ConditionStack) : Bool :=
  conditions.depth = 0

/- Is every enclosing branch taken? -/
def allTrue (conditions : ConditionStack) : Bool :=
  conditions.firstFalse.isNone

/- One more conditional, without the depth assertion. -/
def opened (conditions : ConditionStack) (value : Bool) : ConditionStack where
  depth := conditions.depth + 1
  firstFalse :=
    if conditions.firstFalse.isNone && !value then
      some conditions.depth
    else
      conditions.firstFalse
  firstFalse_lt := by
    intro first hFst
    split at hFst
    · simp at hFst
      omega
    · have := conditions.firstFalse_lt first hFst
      omega

/-
  The source asserts a depth of at most `nestingMax`. The bound is an argument here, so that the run
  without it can be stated: `none` is no bound.
-/
def push (limit : Option Nat) (conditions : ConditionStack) (value : Bool) :
    Result ScriptError ConditionStack := do
  let conditions := conditions.opened value
  assert (∀ bound ∈ limit, conditions.depth ≤ bound)
  return conditions

/- The innermost conditional closed. -/
def closed (conditions : ConditionStack) : ConditionStack where
  depth := conditions.depth - 1
  firstFalse :=
    if conditions.firstFalse = some (conditions.depth - 1)
    then
      none
    else
      conditions.firstFalse
  firstFalse_lt := by
    intro first hFst
    split at hFst
    · simp at hFst
    · rename_i hNe
      have := conditions.firstFalse_lt first hFst
      have hMem : conditions.firstFalse = some first := hFst
      rw [hMem, Option.some.injEq] at hNe
      omega

def pop (conditions : ConditionStack) : Result ScriptError ConditionStack := do
  assert (0 < conditions.depth)
  return conditions.closed

/- `OP_ELSE`: flip the innermost branch.  Only the outermost false is tracked. -/
def toggleTop (conditions : ConditionStack) : Result ScriptError ConditionStack :=
  if h : 0 < conditions.depth then
    .ok {
      depth := conditions.depth
      firstFalse :=
        match conditions.firstFalse with
        | none => some (conditions.depth - 1)
        | some first =>
          if first = conditions.depth - 1 then
            none
          else
            some first
      firstFalse_lt := by
        intro first hFst
        split at hFst
        · simp at hFst
          omega
        · rename_i outer hOuter
          have := conditions.firstFalse_lt outer hOuter
          split at hFst
          · simp at hFst
          · simp at hFst
            omega }
  else
    panicked

end ConditionStack

--------
-- Signature Encodings
--------

/- The byte of a signature at a checked index. -/
def sigAt (sig : Bytes) (index : Nat) : Result ScriptError UInt8 :=
  expect sig[index]?

/- Strict DER (BIP66), one rule after the other. -/
def isValidSignatureEncoding (sig : Bytes) : Result ScriptError Bool :=
  if sig.length < 9 ∨ 73 < sig.length then
    .ok false
  else do
    let at0 ← sigAt sig 0
    let at1 ← sigAt sig 1
    if at0 ≠ 0x30 ∨ at1.toNat ≠ sig.length - 3 then
      return false
    else do
      let at3 ← sigAt sig 3
      let lenR := at3.toNat
      if sig.length ≤ 5 + lenR then
        return false
      else do
        let at5R ← sigAt sig (5 + lenR)
        let lenS := at5R.toNat
        if lenR + lenS + 7 ≠ sig.length then
          return false
        else do
          let at2 ← sigAt sig 2
          let at4 ← sigAt sig 4
          if at2 ≠ 0x02 ∨ lenR = 0 ∨ at4 &&& 0x80 ≠ 0 then
            return false
          else do
            let at5 ← sigAt sig 5
            if 1 < lenR ∧ at4 = 0x00 ∧ at5 &&& 0x80 = 0 then
              return false
            else do
              let at4R ← sigAt sig (lenR + 4)
              if at4R ≠ 0x02 ∨ lenS = 0 then
                return false
              else do
                let at6R ← sigAt sig (lenR + 6)
                if at6R &&& 0x80 ≠ 0 then
                  return false
                else if 1 < lenS ∧ at6R = 0x00 then do
                  let at7R ← sigAt sig (lenR + 7)
                  return at7R &&& 0x80 ≠ 0
                else
                  return true

/- An empty signature passes; `DERSIG` demands strict DER. -/
def checkSignatureEncoding (signature : Bytes) (flags : ScriptFlags) : Result ScriptError Unit :=
  if signature.isEmpty then
    .ok ()
  else if flags.contains .dersig then do
    let valid ← isValidSignatureEncoding signature
    ensure .sigDer valid
  else
    .ok ()

--------
-- Find and Delete
--------

/- Skip every consecutive copy of the pattern. -/
def skipPattern (script pattern : Bytes) (fuel pc found : Nat) : Nat × Nat :=
  match fuel with
  | 0 => (pc, found)
  | fuel + 1 =>
    if pattern.length ≤ script.length - pc ∧
        getRange? script pc (pc + pattern.length) = some pattern then
      skipPattern script pattern fuel (pc + pattern.length) (found + 1)
    else
      (pc, found)

/-
  The walk over opcode boundaries: what was copied, how many copies were found, and where the
  uncopied rest starts. The fuel is the source's bound on its iterations, asserted.
-/
def findAndDeleteLoop (script pattern : Bytes) (fuel : Nat) (result : Bytes) (found pc pc2 : Nat) :
    Result ScriptError (Bytes × Nat × Nat) :=
  match fuel with
  | 0 => panicked
  | fuel + 1 => do
      let segment ← expect (getRange? script pc2 pc)
      let result := result ++ segment
      let (pc, found) := skipPattern script pattern script.length pc found
      if script.length ≤ pc then
        return (result, found, pc)
      else do
        match ← readOp script pc with
        | .op _ next =>
          findAndDeleteLoop script pattern fuel result found
            next pc
        | .truncated _ => return (result, found, pc)

/- Remove every occurrence of the pattern that starts at an opcode boundary. -/
def findAndDelete (script pattern : Bytes) : Result ScriptError (Bytes × Nat) :=
  if pattern.isEmpty then
    .ok (script, 0)
  else do
    let (result, found, pc2) ← findAndDeleteLoop script pattern (script.length + 1) [] 0 0 0
    if found = 0 then
      return (script, 0)
    else do
      let rest ← expect (getRange? script pc2 script.length)
      let result := result ++ rest
      assert (result.length + found * pattern.length = script.length)
      return (result, found)

--------
-- The Machine
--------

/- What an execution is given. -/
structure Env (K : Primitives) where
  script : Script
  flags : ScriptFlags
  sigVersion : SigVersion
  checker : TxSigChecker K

/- What an execution changes. -/
structure Machine where
  stack : Stack
  altstack : Stack
  conditions : ConditionStack
  opCount : Nat
  codesepStart : Nat
  exec : ExecData

namespace Machine

variable {K : Primitives}

/- A BIP65 operand, left on the stack. -/
def checkLocktime (env : Env K) (m : Machine) : Result ScriptError Machine :=
  if !env.flags.contains .checklocktimeverify then
    .ok m
  else do
    m.stack.require 1
    let operand ← m.stack.top 1
    let lockTime ← ScriptNum.decode operand.val scriptnumLocktimeSizeMax
    ensure .negativeLocktime (0 ≤ lockTime.value)
    let satisfied ← env.checker.checkLocktime lockTime.value
    ensure .unsatisfiedLocktime satisfied
    return m

/- A BIP112 operand, left on the stack. -/
def checkSequence (env : Env K) (m : Machine) : Result ScriptError Machine :=
  if !env.flags.contains .checksequenceverify then
    .ok m
  else do
    m.stack.require 1
    let operand ← m.stack.top 1
    let sequence ← ScriptNum.decode operand.val scriptnumLocktimeSizeMax
    ensure .negativeLocktime (0 ≤ sequence.value)
    if sequence.value.toNat &&& sequenceLocktimeDisableFlag ≠ 0
    then
      return m
    else do
      let satisfied ← env.checker.checkSequence sequence.value
      ensure .unsatisfiedLocktime satisfied
      return m

/- The condition an executed `OP_IF` or `OP_NOTIF` pops. -/
def branchValue (sigVersion : SigVersion) (opcode : UInt8) (stack : Stack) :
    Result ScriptError (Bool × Stack) := do
  stack.require 1
  let argument ← stack.top 1
  ensure .tapscriptMinimalif
    (sigVersion = .tapscript → argument.val = [] ∨ argument.val = [1])
  let value := castToBool argument.val
  let value := if opcode = opNotif then !value else value
  let (_, stack) ← stack.pop
  return (value, stack)

/- An unexecuted conditional opens a false branch. -/
def branch (limit : Option Nat) (env : Env K) (m : Machine) (opcode : UInt8) (executing : Bool) :
    Result ScriptError Machine := do
  let (value, stack) ←
    (if executing then
      branchValue env.sigVersion opcode m.stack
    else
      pure (false, m.stack))
  let conditions ← m.conditions.push limit value
  return { m with stack := stack, conditions := conditions }

/- The altstack moves and the larger stack opcodes. -/
def stackOpPairs (m : Machine) (opcode : UInt8) : Result ScriptError Machine :=
  if opcode = opToaltstack then do
    m.stack.require 1
    let (item, stack) ← m.stack.pop
    let altstack ← m.altstack.push item.val
    return { m with stack := stack, altstack := altstack }
  else if opcode = opFromaltstack then do
    ensure .invalidAltstackOperation (¬ m.altstack.isEmpty)
    let (item, altstack) ← m.altstack.pop
    let stack ← m.stack.push item.val
    return { m with stack := stack, altstack := altstack }
  else if opcode = op2drop then do
    m.stack.require 2
    let (_, stack) ← m.stack.pop
    let (_, stack) ← stack.pop
    return { m with stack := stack }
  else if opcode = op2dup then do
    m.stack.require 2
    let x1 ← m.stack.top 2
    let x2 ← m.stack.top 1
    let stack ← m.stack.push x1.val
    let stack ← stack.push x2.val
    return { m with stack := stack }
  else if opcode = op3dup then do
    m.stack.require 3
    let x1 ← m.stack.top 3
    let x2 ← m.stack.top 2
    let x3 ← m.stack.top 1
    let stack ← m.stack.push x1.val
    let stack ← stack.push x2.val
    let stack ← stack.push x3.val
    return { m with stack := stack }
  else if opcode = op2over then do
    m.stack.require 4
    let x1 ← m.stack.top 4
    let x2 ← m.stack.top 3
    let stack ← m.stack.push x1.val
    let stack ← stack.push x2.val
    return { m with stack := stack }
  else if opcode = op2rot then do
    m.stack.require 6
    let (x1, stack) ← m.stack.remove 6
    let (x2, stack) ← stack.remove 5
    let stack ← stack.push x1.val
    let stack ← stack.push x2.val
    return { m with stack := stack }
  else if opcode = op2swap then do
    m.stack.require 4
    let stack ← m.stack.swap 4 2
    let stack ← stack.swap 3 1
    return { m with stack := stack }
  else
    panicked

/- `OP_PICK` copies and `OP_ROLL` moves. -/
def pickOrRoll (m : Machine) (opcode : UInt8) : Result ScriptError Machine := do
  m.stack.require 2
  let operand ← m.stack.top 1
  let num ← ScriptNum.decode operand.val scriptnumSizeMax
  let n := num.toClampedI32
  let (_, stack) ← m.stack.pop
  ensure .invalidStackOperation (0 ≤ n)
  let n := n.toNat
  ensure .invalidStackOperation (n < stack.len)
  let item ← stack.top (n + 1)
  let stack ←
    (if opcode = opRoll then do
      let (_, stack) ← stack.remove (n + 1)
      return stack
    else
      pure stack)
  let stack ← stack.push item.val
  return { m with stack := stack }

/- The one-element stack opcodes. -/
def stackOpSingles (m : Machine) (opcode : UInt8) : Result ScriptError Machine :=
  if opcode = opIfdup then do
    m.stack.require 1
    let x ← m.stack.top 1
    if castToBool x.val then do
      let stack ← m.stack.push x.val
      return { m with stack := stack }
    else
      return m
  else if opcode = opDepth then do
    let depth ← fromUsize m.stack.len
    let stack ← m.stack.push (← depth.encode)
    return { m with stack := stack }
  else if opcode = opDrop then do
    m.stack.require 1
    let (_, stack) ← m.stack.pop
    return { m with stack := stack }
  else if opcode = opDup then do
    m.stack.require 1
    let x ← m.stack.top 1
    let stack ← m.stack.push x.val
    return { m with stack := stack }
  else if opcode = opNip then do
    m.stack.require 2
    let (_, stack) ← m.stack.remove 2
    return { m with stack := stack }
  else if opcode = opOver then do
    m.stack.require 2
    let x1 ← m.stack.top 2
    let stack ← m.stack.push x1.val
    return { m with stack := stack }
  else if opcode = opPick ∨ opcode = opRoll then
    m.pickOrRoll opcode
  else if opcode = opRot then do
    m.stack.require 3
    let stack ← m.stack.swap 3 2
    let stack ← stack.swap 2 1
    return { m with stack := stack }
  else if opcode = opSwap then do
    m.stack.require 2
    let stack ← m.stack.swap 2 1
    return { m with stack := stack }
  else if opcode = opTuck then do
    m.stack.require 2
    let x2 ← m.stack.top 1
    let stack ← m.stack.insert 2 x2.val
    return { m with stack := stack }
  else
    panicked

/- `OP_EQUAL` compares bytes. -/
def equal (m : Machine) (opcode : UInt8) : Result ScriptError Machine := do
  m.stack.require 2
  let (x2, stack) ← m.stack.pop
  let (x1, stack) ← stack.pop
  let equal : Bool := x1.val == x2.val
  let stack ← stack.pushBool equal
  if opcode = opEqualverify then do
    ensure .equalverify equal
    let (_, stack) ← stack.pop
    return { m with stack := stack }
  else
    return { m with stack := stack }

/- The result of a one-operand numeric opcode. -/
def unaryResult (opcode : UInt8) (n : ScriptNum) : Result ScriptError ScriptNum :=
  if opcode = op1add then n.add .one
  else if opcode = op1sub then n.sub .one
  else if opcode = opNegate then n.neg
  else if opcode = opAbs then n.abs
  else if opcode = opNot then .ok (.fromBool n.isZero)
  else if opcode = op0notequal then
    .ok (.fromBool !n.isZero)
  else panicked

def numericUnary (m : Machine) (opcode : UInt8) : Result ScriptError Machine := do
  m.stack.require 1
  let operand ← m.stack.top 1
  let n ← ScriptNum.decode operand.val scriptnumSizeMax
  let result ← unaryResult opcode n
  let (_, stack) ← m.stack.pop
  let stack ← stack.push (← result.encode)
  return { m with stack := stack }

/- The result of a two-operand numeric opcode. -/
def binaryResult (opcode : UInt8) (x1 x2 : ScriptNum) : Result ScriptError ScriptNum :=
  if opcode = opAdd then x1.add x2
  else if opcode = opSub then x1.sub x2
  else if opcode = opBooland then
    .ok (.fromBool (!x1.isZero && !x2.isZero))
  else if opcode = opBoolor then
    .ok (.fromBool (!x1.isZero || !x2.isZero))
  else if opcode = opNumequal ∨ opcode = opNumequalverify then
    .ok (.fromBool (x1.value = x2.value))
  else if opcode = opNumnotequal then
    .ok (.fromBool (x1.value ≠ x2.value))
  else if opcode = opLessthan then
    .ok (.fromBool (x1.value < x2.value))
  else if opcode = opGreaterthan then
    .ok (.fromBool (x2.value < x1.value))
  else if opcode = opLessthanorequal then
    .ok (.fromBool (x1.value ≤ x2.value))
  else if opcode = opGreaterthanorequal then
    .ok (.fromBool (x2.value ≤ x1.value))
  else if opcode = opMin then
    .ok (if x1.value ≤ x2.value then x1 else x2)
  else if opcode = opMax then
    .ok (if x1.value ≤ x2.value then x2 else x1)
  else panicked

def numericBinary (m : Machine) (opcode : UInt8) : Result ScriptError Machine := do
  m.stack.require 2
  let first ← m.stack.top 2
  let x1 ← ScriptNum.decode first.val scriptnumSizeMax
  let second ← m.stack.top 1
  let x2 ← ScriptNum.decode second.val scriptnumSizeMax
  let result ← binaryResult opcode x1 x2
  let (_, stack) ← m.stack.pop
  let (_, stack) ← stack.pop
  let stack ← stack.push (← result.encode)
  if opcode = opNumequalverify then do
    let top ← stack.top 1
    ensure .numequalverify (castToBool top.val)
    let (_, stack) ← stack.pop
    return { m with stack := stack }
  else
    return { m with stack := stack }

def within (m : Machine) : Result ScriptError Machine := do
  m.stack.require 3
  let third ← m.stack.top 3
  let x ← ScriptNum.decode third.val scriptnumSizeMax
  let second ← m.stack.top 2
  let min ← ScriptNum.decode second.val scriptnumSizeMax
  let first ← m.stack.top 1
  let max ← ScriptNum.decode first.val scriptnumSizeMax
  let inside : Bool := min.value ≤ x.value && x.value < max.value
  let (_, stack) ← m.stack.pop
  let (_, stack) ← stack.pop
  let (_, stack) ← stack.pop
  let stack ← stack.pushBool inside
  return { m with stack := stack }

/- The digest a hash opcode pushes. -/
def hashDigest (K : Primitives) (opcode : UInt8) (input : Bytes) : Result ScriptError Bytes :=
  if opcode = opRipemd160 then .ok (K.ripemd160 input).val
  else if opcode = opSha1 then .ok (K.sha1 input).val
  else if opcode = opSha256 then .ok (K.sha256 input).val
  else if opcode = opHash160 then .ok (K.hash160 input).val
  else if opcode = opHash256 then .ok (K.sha256d input).val
  else panicked

def hash (K : Primitives) (m : Machine) (opcode : UInt8) : Result ScriptError Machine := do
  m.stack.require 1
  let (input, stack) ← m.stack.pop
  let digest ← hashDigest K opcode input.val
  assert (digest.length = 20 ∨ digest.length = 32)
  let stack ← stack.push digest
  return { m with stack := stack }

/- The script from after the last executed separator. -/
def scriptCode (env : Env K) (m : Machine) : Result ScriptError Script := do
  assert (m.codesepStart ≤ env.script.length)
  expect (getRange? env.script m.codesepStart env.script.length)

--------
-- Signature Opcodes
--------

/- One call to the checker's ECDSA check. -/
def checkEcdsa (env : Env K) (signature pubkey : Bytes) (scriptCode : Script) : Run Bool := do
  Traced.call .ecdsa
  env.checker.checkEcdsa signature pubkey scriptCode env.sigVersion

/- The legacy removal of the signature from the script code, the DER rule, then the checker. -/
def evalChecksigPreTapscript (env : Env K) (m : Machine) (signature pubkey : Bytes) : Run Bool := do
  let code ← m.scriptCode env
  let code ←
    (if env.sigVersion = .base then do
      let pattern ← pushEncoding signature
      let (code, _) ← findAndDelete code pattern
      return code
    else
      pure code : Result ScriptError Script)
  checkSignatureEncoding signature env.flags
  checkEcdsa env signature pubkey code

/-
  BIP342: the budget is charged first, an empty key fails, a 32-byte key is checked and any other
  key passes.
-/
def evalChecksigTapscript (env : Env K) (m : Machine) (signature pubkey : Bytes) :
    Run (Bool × Machine) := do
  let exec ← (expect m.exec.tapscript : Result ScriptError TapscriptExec)
  let success := !signature.isEmpty
  let exec := exec.charged success
  -- The budget is an `i64`.
  (assert (i64Min ≤ exec.validationWeightLeft) : Result ScriptError Unit)
  ensure ScriptError.tapscriptValidationWeight (success → 0 ≤ exec.validationWeightLeft)
  let m := { m with exec := { m.exec with tapscript := some exec } }
  ensure ScriptError.tapscriptEmptyPubkey (¬ pubkey.isEmpty)
  match FixedBytes.ofBytes? 32 pubkey with
  | none => return (success, m)
  | some pubkey =>
    if success then do
      Traced.call .schnorr
      env.checker.checkSchnorr signature pubkey
        (.tapscript exec.leafHash m.exec.codesepPos)
        exec.annex
      return (success, m)
    else
      return (success, m)

/- An error fails the script; `false` goes on the stack. -/
def evalChecksig (env : Env K) (m : Machine) (signature pubkey : Bytes) : Run (Bool × Machine) :=
  match env.sigVersion with
  | .base | .witnessV0 => do
      let success ← m.evalChecksigPreTapscript env signature pubkey
      return (success, m)
  | .tapscript =>
    m.evalChecksigTapscript env signature pubkey

def checksig (env : Env K) (m : Machine) (opcode : UInt8) : Run Machine := do
  m.stack.require 2
  let (pubkey, stack) ← m.stack.pop
  let (signature, stack) ← stack.pop
  let (success, m) ← m.evalChecksig env signature.val pubkey.val
  let stack ← stack.pushBool success
  if opcode = opChecksigverify then do
    ensure ScriptError.checksigverify success
    let (_, stack) ← stack.pop
    return { m with stack := stack }
  else
    return { m with stack := stack }

/- BIP342: add one to a number for a valid signature. -/
def checksigadd (env : Env K) (m : Machine) : Run Machine := do
  ensure ScriptError.badOpcode (env.sigVersion = .tapscript)
  m.stack.require 3
  let (pubkey, stack) ← m.stack.pop
  let operand ← stack.top 1
  let n ← ScriptNum.decode operand.val scriptnumSizeMax
  let (_, stack) ← stack.pop
  let (signature, stack) ← stack.pop
  let (success, m) ← m.evalChecksig env signature.val pubkey.val
  let sum ← n.add (.fromBool success)
  let item ← sum.encode
  let stack ← stack.push item
  return { m with stack := stack }

/- A multisig count that has passed its range check. -/
def countFrom (count : Int) : Result ScriptError Nat := do
  assert (0 ≤ count)
  return count.toNat

/- The multisig script code: from the last separator, minus every signature under legacy rules. -/
def multisigScriptCode (env : Env K) (m : Machine) (isig sigCount : Nat) :
    Result ScriptError Script := do
  let code ← m.scriptCode env
  if env.sigVersion = .base then
    (List.range sigCount).foldlM (fun code k => do
      let signature ← m.stack.top (isig + k)
      let pattern ← pushEncoding signature.val
      let (code, _) ← findAndDelete code pattern
      return code) code
  else
    return code

/-
  Match signatures against keys in order. The fuel is the source's bound on its iterations,
  asserted.
-/
def checkmultisigVerify
    (env : Env K) (m : Machine) (code : Script) (fuel ikey isig keysLeft sigsLeft : Nat) :
    Run Bool :=
  if sigsLeft = 0 then
    pure true
  else
    match fuel with
    | 0 => liftM (panicked : Result ScriptError Bool)
    | fuel + 1 => do
        let signature ← m.stack.top isig
        let pubkey ← m.stack.top ikey
        checkSignatureEncoding signature.val env.flags
        let ok ← checkEcdsa env signature.val pubkey.val code
        let isig := if ok then isig + 1 else isig
        let sigsLeft := if ok then sigsLeft - 1 else sigsLeft
        -- `keys_left -= 1` must not wrap.
        (assert (1 ≤ keysLeft) : Result ScriptError Unit)
        let keysLeft := keysLeft - 1
        if keysLeft < sigsLeft then
          return false
        else
          m.checkmultisigVerify env code fuel (ikey + 1) isig keysLeft sigsLeft

/- Pop `count` elements. -/
def popMany (count : Nat) (stack : Stack) : Result ScriptError Stack :=
  match count with
  | 0 => .ok stack
  | count + 1 => do
      let (_, stack) ← stack.pop
      popMany count stack

/-
  The counts a multisig reads: the key count, the machine with its opcodes counted, the depth of the
  first signature and the signature count.
-/
def multisigCounts (m : Machine) : Result ScriptError (Nat × Machine × Nat × Nat) := do
  m.stack.require 1
  let keyOperand ← m.stack.top 1
  let keyNum ← ScriptNum.decode keyOperand.val scriptnumSizeMax
  let keyCountI32 := keyNum.toClampedI32
  ensure .pubkeyCount (0 ≤ keyCountI32 ∧ keyCountI32 ≤ maxPubkeysPerMultisig)
  let keyCount ← countFrom keyCountI32
  let m := { m with opCount := m.opCount + keyCount }
  ensure .opCount (m.opCount ≤ maxOpsPerScript)
  let i := 2 + keyCount
  m.stack.require i
  let sigOperand ← m.stack.top i
  let sigNum ← ScriptNum.decode sigOperand.val scriptnumSizeMax
  let sigCountI32 := sigNum.toClampedI32
  ensure .sigCount (0 ≤ sigCountI32 ∧ sigCountI32 ≤ keyCountI32)
  let sigCount ← countFrom sigCountI32
  return (keyCount, m, i + 1, sigCount)

/- Pop the arguments and the dummy element, and push the verdict. -/
def multisigFinish (env : Env K) (m : Machine) (opcode : UInt8) (i : Nat) (success : Bool) :
    Result ScriptError Machine := do
  let stack ← popMany (i - 1) m.stack
  stack.require 1
  let dummy ← stack.top 1
  ensure .sigNulldummy (¬ (env.flags.contains .nulldummy ∧ dummy.val ≠ []))
  let (_, stack) ← stack.pop
  let stack ← stack.pushBool success
  if opcode = opCheckmultisigverify then do
    ensure .checkmultisigverify success
    let (_, stack) ← stack.pop
    return { m with stack := stack }
  else
    return { m with stack := stack }

def checkmultisig (env : Env K) (m : Machine) (opcode : UInt8) : Run Machine := do
  ensure ScriptError.tapscriptCheckmultisig (env.sigVersion ≠ .tapscript)
  let (keyCount, m, isig, sigCount) ← m.multisigCounts
  let i := isig + sigCount
  m.stack.require i
  let code ← m.multisigScriptCode env isig sigCount
  let success ← m.checkmultisigVerify env code maxPubkeysPerMultisig 2 isig keyCount sigCount
  m.multisigFinish env opcode i success

--------
-- Dispatch
--------

/- The opcodes that touch neither conditions nor signatures. -/
def executePlain (env : Env K) (m : Machine) (op : Op) (opcodeIndex : Nat) :
    Result ScriptError Machine :=
  let byte := op.opcode.byte
  if byte = op1negate ∨ (op1 ≤ byte ∧ byte ≤ op16) then do
    let value ← op.opcode.smallInteger
    let value ← fromI64 value
    let stack ← m.stack.push (← value.encode)
    return { m with stack := stack }
  else if byte = opNop ∨ byte = opNop1 ∨
      (opNop4 ≤ byte ∧ byte ≤ opNop10) then
    .ok m
  else if byte = opChecklocktimeverify then
    m.checkLocktime env
  else if byte = opChecksequenceverify then
    m.checkSequence env
  else if byte = opVerify then do
    m.stack.require 1
    let top ← m.stack.top 1
    ensure .verify (castToBool top.val)
    let (_, stack) ← m.stack.pop
    return { m with stack := stack }
  else if byte = opReturn then
    Result.fail .opReturn
  else if opToaltstack ≤ byte ∧ byte ≤ op2swap then
    m.stackOpPairs byte
  else if opIfdup ≤ byte ∧ byte ≤ opTuck then
    m.stackOpSingles byte
  else if byte = opSize then do
    m.stack.require 1
    let top ← m.stack.top 1
    let size ← fromUsize top.val.length
    let stack ← m.stack.push (← size.encode)
    return { m with stack := stack }
  else if byte = opEqual ∨ byte = opEqualverify then
    m.equal byte
  else if byte = op1add ∨ byte = op1sub ∨ byte = opNegate ∨
      byte = opAbs ∨ byte = opNot ∨ byte = op0notequal then
    m.numericUnary byte
  else if byte = opAdd ∨ byte = opSub ∨
      (opBooland ≤ byte ∧ byte ≤ opMax) then
    m.numericBinary byte
  else if byte = opWithin then
    m.within
  else if opRipemd160 ≤ byte ∧ byte ≤ opHash256 then
    m.hash K byte
  else if byte = opCodeseparator then
    .ok
      { m with
        codesepStart := op.stop
        exec :=
          { m.exec with
            codesepPos := UInt32.ofNat opcodeIndex } }
  else
    Result.fail .badOpcode

/- `OP_IF`, `OP_NOTIF`, `OP_ELSE` and `OP_ENDIF`. -/
def executeConditional
    (limit : Option Nat) (env : Env K) (m : Machine) (byte : UInt8) (executing : Bool) :
    Result ScriptError Machine :=
  if byte = opIf ∨ byte = opNotif then
    m.branch limit env byte executing
  else if byte = opElse then do
    ensure .unbalancedConditional (¬ m.conditions.isEmpty)
    let conditions ← m.conditions.toggleTop
    return { m with conditions := conditions }
  else do
    ensure .unbalancedConditional (¬ m.conditions.isEmpty)
    let conditions ← m.conditions.pop
    return { m with conditions := conditions }

/- Dispatch an opcode that is executing or is a conditional. Anything unlisted is `BadOpcode`. -/
def execute (limit : Option Nat) (env : Env K) (m : Machine) (op : Op) (executing : Bool)
    (opcodeIndex : Nat) : Run Machine :=
  let byte := op.opcode.byte
  if byte = opIf ∨ byte = opNotif ∨ byte = opElse ∨
      byte = opEndif then
    liftM (m.executeConditional limit env byte executing)
  else if byte = opChecksig ∨ byte = opChecksigverify then
    m.checksig env byte
  else if byte = opChecksigadd then
    m.checksigadd env
  else if byte = opCheckmultisig ∨
      byte = opCheckmultisigverify then
    m.checkmultisig env byte
  else
    liftM (m.executePlain env op opcodeIndex)

end Machine

--------
-- The Loop
--------

variable {K : Primitives}

/- Does this version count opcodes and bound the script? -/
def countsOps (sigVersion : SigVersion) : Bool :=
  sigVersion ≠ .tapscript

/- The opcode limit, checked as the opcode is counted. -/
def countOp (env : Env K) (m : Machine) (op : Op) : Result ScriptError Machine :=
  if countsOps env.sigVersion &&
      op.opcode.countsTowardOpLimit then do
    let m := { m with opCount := m.opCount + 1 }
    ensure .opCount (m.opCount ≤ maxOpsPerScript)
    return m
  else
    .ok m

/- Push, dispatch or skip one opcode. -/
def dispatch (limit : Option Nat) (env : Env K) (m : Machine) (op : Op) (reader : Reader) :
    Run Machine :=
  let executing := m.conditions.allTrue
  if executing && op.opcode.isPush then do
    let stack ← m.stack.push op.push
    return { m with stack := stack }
  else if executing || op.opcode.isConditional then do
    let opcodeIndex ← reader.opcodeIndex
    m.execute limit env op executing opcodeIndex
  else
    pure m

/- One iteration of the loop. -/
def evalStep (limit : Option Nat) (env : Env K) (m : Machine) (op : Op) (reader : Reader) :
    Run Machine := do
  ensure ScriptError.pushSize (op.push.length ≤ maxScriptElementSize)
  let m ← countOp env m op
  ensure ScriptError.disabledOpcode (¬ op.opcode.isDisabled)
  let m ← dispatch limit env m op reader
  ensure ScriptError.stackSize (m.stack.len + m.altstack.len ≤ maxStackSize)
  return m

/- The loop over the reads of a script. -/
def evalLoop (limit : Option Nat) (env : Env K) (steps : List (Result ScriptError (Op × Reader)))
    (m : Machine) : Run Machine :=
  match steps with
  | [] => pure m
  | step :: rest => do
      let (op, reader) ← step
      let m ← evalStep limit env m op reader
      evalLoop limit env rest m

/- The machine a script starts with. -/
def Machine.start (stack : Stack) (exec : ExecData) : Machine where
  stack := stack
  altstack := Stack.new
  conditions := ConditionStack.new
  opCount := 0
  codesepStart := 0
  exec := { exec with codesepPos := codeseparatorPosNone }

/- Run a script against a stack.  On success, the stack and the execution data it leaves. -/
def evalScript (script : Script) (stack : Stack) (flags : ScriptFlags) (sigVersion : SigVersion)
    (exec : ExecData) (checker : TxSigChecker K) :
    Run (Stack × ExecData) := do
  (assert (exec.tapscript.isSome ↔ sigVersion = .tapscript) : Result ScriptError Unit)
  ensure ScriptError.scriptSize (countsOps sigVersion → script.length ≤ maxScriptSize)
  let env : Env K := ⟨script, flags, sigVersion, checker⟩
  let m ← evalLoop (some nestingMax) env (Reader.steps script) (Machine.start stack exec)
  (assert (m.opCount ≤ opCountMax) : Result ScriptError Unit)
  ensure ScriptError.unbalancedConditional m.conditions.isEmpty
  return (m.stack, m.exec)

end Bitmigo
