import Bitmigo.Bitcoin.Types
import Bitmigo.Lib.Outcome

/-
  Script errors, script flags, and the opcode bytes with the questions the interpreter asks of one
  byte before it dispatches on it.

  Key definitions include:
    * `ScriptError`
    * `ScriptFlags`
    * `SigVersion`
    * `Opcode` and its predicates
-/

namespace Bitmigo

open Result

--------
-- Errors
--------

/- Why a script failed. -/
inductive ScriptError where
  | evalFalse
  | verify
  | equalverify
  | checkmultisigverify
  | checksigverify
  | numequalverify
  | scriptSize
  | pushSize
  | opCount
  | stackSize
  | sigCount
  | pubkeyCount
  | badOpcode
  | disabledOpcode
  | invalidStackOperation
  | invalidAltstackOperation
  | opReturn
  | unbalancedConditional
  | negativeLocktime
  | unsatisfiedLocktime
  | sigDer
  | sigPushonly
  | sigNulldummy
  | cleanstack
  | witnessProgramWrongLength
  | witnessProgramWitnessEmpty
  | witnessProgramMismatch
  | witnessMalleated
  | witnessMalleatedP2sh
  | witnessUnexpected
  | schnorrSigSize
  | schnorrSigHashtype
  | schnorrSig
  | taprootWrongControlSize
  | tapscriptValidationWeight
  | tapscriptCheckmultisig
  | tapscriptMinimalif
  | tapscriptEmptyPubkey
  | scriptnum
  deriving DecidableEq, Repr

/- The rules a script executes under. -/
inductive SigVersion where
  | base
  | witnessV0
  | tapscript
  deriving DecidableEq, Repr

--------
-- Flags
--------

/- A set of script verification flags, as a bit mask. -/
structure ScriptFlags where
  bits : UInt32
  deriving DecidableEq

namespace ScriptFlags

def none : ScriptFlags := ⟨0⟩
def p2sh : ScriptFlags := ⟨(1 : UInt32) <<< 0⟩
def dersig : ScriptFlags := ⟨(1 : UInt32) <<< 2⟩
def nulldummy : ScriptFlags := ⟨(1 : UInt32) <<< 4⟩
def checklocktimeverify : ScriptFlags := ⟨(1 : UInt32) <<< 9⟩
def checksequenceverify : ScriptFlags := ⟨(1 : UInt32) <<< 10⟩
def witness : ScriptFlags := ⟨(1 : UInt32) <<< 11⟩
def taproot : ScriptFlags := ⟨(1 : UInt32) <<< 17⟩

/- The flags in either set. -/
def union (left right : ScriptFlags) : ScriptFlags :=
  ⟨left.bits ||| right.bits⟩

/- Is every flag of `other` set in `flags`? -/
def contains (flags other : ScriptFlags) : Bool :=
  flags.bits &&& other.bits == other.bits

/- Is every flag of `flags` set in `other`? -/
def isSubsetOf (flags other : ScriptFlags) : Bool :=
  other.contains flags

/- Every flag block validation can apply. -/
def mandatory : ScriptFlags :=
  ((((((p2sh.union dersig).union nulldummy).union
    checklocktimeverify).union checksequenceverify).union witness).union taproot)

/-
  What the verifier asserts of the flags it is given: the witness rules come with P2SH, and taproot
  with the witness rules.
-/
def Consistent (flags : ScriptFlags) : Prop :=
  (flags.contains witness → flags.contains p2sh) ∧ (flags.contains taproot → flags.contains witness)

instance (flags : ScriptFlags) :
    Decidable flags.Consistent :=
  inferInstanceAs (Decidable (_ ∧ _))

/- A flag of a smaller set is a flag of the larger one. -/
theorem contains_of_isSubsetOf {smaller larger flag : ScriptFlags}
    (hSub : smaller.isSubsetOf larger) (hFlag : smaller.contains flag) : larger.contains flag := by
  simp only [isSubsetOf, contains, beq_iff_eq] at *
  have hAnd : larger.bits &&& (smaller.bits &&& flag.bits) = flag.bits := by
    rw [← UInt32.and_assoc, hSub, hFlag]
  rwa [hFlag] at hAnd

end ScriptFlags

--------
-- Opcode Bytes
--------

abbrev op0 : UInt8 := 0x00
abbrev opPushdata1 : UInt8 := 0x4c
abbrev opPushdata2 : UInt8 := 0x4d
abbrev opPushdata4 : UInt8 := 0x4e
abbrev op1negate : UInt8 := 0x4f
abbrev opReserved : UInt8 := 0x50
abbrev op1 : UInt8 := 0x51
abbrev op16 : UInt8 := 0x60

-- Control.
abbrev opNop : UInt8 := 0x61
abbrev opVer : UInt8 := 0x62
abbrev opIf : UInt8 := 0x63
abbrev opNotif : UInt8 := 0x64
abbrev opElse : UInt8 := 0x67
abbrev opEndif : UInt8 := 0x68
abbrev opVerify : UInt8 := 0x69
abbrev opReturn : UInt8 := 0x6a

-- Stack.
abbrev opToaltstack : UInt8 := 0x6b
abbrev opFromaltstack : UInt8 := 0x6c
abbrev op2drop : UInt8 := 0x6d
abbrev op2dup : UInt8 := 0x6e
abbrev op3dup : UInt8 := 0x6f
abbrev op2over : UInt8 := 0x70
abbrev op2rot : UInt8 := 0x71
abbrev op2swap : UInt8 := 0x72
abbrev opIfdup : UInt8 := 0x73
abbrev opDepth : UInt8 := 0x74
abbrev opDrop : UInt8 := 0x75
abbrev opDup : UInt8 := 0x76
abbrev opNip : UInt8 := 0x77
abbrev opOver : UInt8 := 0x78
abbrev opPick : UInt8 := 0x79
abbrev opRoll : UInt8 := 0x7a
abbrev opRot : UInt8 := 0x7b
abbrev opSwap : UInt8 := 0x7c
abbrev opTuck : UInt8 := 0x7d

-- Splice and bit logic.
abbrev opCat : UInt8 := 0x7e
abbrev opRight : UInt8 := 0x81
abbrev opSize : UInt8 := 0x82
abbrev opInvert : UInt8 := 0x83
abbrev opXor : UInt8 := 0x86
abbrev opEqual : UInt8 := 0x87
abbrev opEqualverify : UInt8 := 0x88
abbrev opReserved1 : UInt8 := 0x89
abbrev opReserved2 : UInt8 := 0x8a

-- Numeric.
abbrev op1add : UInt8 := 0x8b
abbrev op1sub : UInt8 := 0x8c
abbrev op2mul : UInt8 := 0x8d
abbrev op2div : UInt8 := 0x8e
abbrev opNegate : UInt8 := 0x8f
abbrev opAbs : UInt8 := 0x90
abbrev opNot : UInt8 := 0x91
abbrev op0notequal : UInt8 := 0x92
abbrev opAdd : UInt8 := 0x93
abbrev opSub : UInt8 := 0x94
abbrev opMul : UInt8 := 0x95
abbrev opRshift : UInt8 := 0x99
abbrev opBooland : UInt8 := 0x9a
abbrev opBoolor : UInt8 := 0x9b
abbrev opNumequal : UInt8 := 0x9c
abbrev opNumequalverify : UInt8 := 0x9d
abbrev opNumnotequal : UInt8 := 0x9e
abbrev opLessthan : UInt8 := 0x9f
abbrev opGreaterthan : UInt8 := 0xa0
abbrev opLessthanorequal : UInt8 := 0xa1
abbrev opGreaterthanorequal : UInt8 := 0xa2
abbrev opMin : UInt8 := 0xa3
abbrev opMax : UInt8 := 0xa4
abbrev opWithin : UInt8 := 0xa5

-- Crypto.
abbrev opRipemd160 : UInt8 := 0xa6
abbrev opSha1 : UInt8 := 0xa7
abbrev opSha256 : UInt8 := 0xa8
abbrev opHash160 : UInt8 := 0xa9
abbrev opHash256 : UInt8 := 0xaa
abbrev opCodeseparator : UInt8 := 0xab
abbrev opChecksig : UInt8 := 0xac
abbrev opChecksigverify : UInt8 := 0xad
abbrev opCheckmultisig : UInt8 := 0xae
abbrev opCheckmultisigverify : UInt8 := 0xaf

-- Expansion.
abbrev opNop1 : UInt8 := 0xb0
abbrev opChecklocktimeverify : UInt8 := 0xb1
abbrev opChecksequenceverify : UInt8 := 0xb2
abbrev opNop4 : UInt8 := 0xb3
abbrev opNop10 : UInt8 := 0xb9
abbrev opChecksigadd : UInt8 := 0xba
abbrev opInvalidopcode : UInt8 := 0xff

/- One opcode byte as read from a script. -/
structure Opcode where
  byte : UInt8
  deriving DecidableEq

namespace Opcode

/- A data push: `OP_0`, the direct pushes and the `OP_PUSHDATA`s. -/
def isPush (opcode : Opcode) : Bool :=
  opcode.byte ≤ opPushdata4

/- The opcodes that fail a script when parsed. -/
def isDisabled (opcode : Opcode) : Bool :=
  (opCat ≤ opcode.byte && opcode.byte ≤ opRight) ||
    (opInvert ≤ opcode.byte && opcode.byte ≤ opXor) ||
    (op2mul ≤ opcode.byte && opcode.byte ≤ op2div) ||
    (opMul ≤ opcode.byte && opcode.byte ≤ opRshift)

/- The opcodes reserved for future tapscript upgrades. -/
def isSuccess (opcode : Opcode) : Bool :=
  opcode.byte == opReserved ||
    opcode.byte == opVer ||
    (opCat ≤ opcode.byte && opcode.byte ≤ opRight) ||
    (opInvert ≤ opcode.byte && opcode.byte ≤ opXor) ||
    (opReserved1 ≤ opcode.byte && opcode.byte ≤ opReserved2) ||
    (op2mul ≤ opcode.byte && opcode.byte ≤ op2div) ||
    (opMul ≤ opcode.byte && opcode.byte ≤ opRshift) ||
    (0xbb ≤ opcode.byte && opcode.byte ≤ 0xfe)

/- `OP_IF` through `OP_ENDIF`: run in unexecuted branches too. -/
def isConditional (opcode : Opcode) : Bool :=
  opIf ≤ opcode.byte && opcode.byte ≤ opEndif

/- Everything above `OP_16` counts toward the opcode limit. -/
def countsTowardOpLimit (opcode : Opcode) : Bool :=
  op16 < opcode.byte

/- The number `OP_1NEGATE` and `OP_1` to `OP_16` push. -/
def smallInteger (opcode : Opcode) : Result ScriptError Int := do
  assert (opcode.byte = op1negate ∨ (op1 ≤ opcode.byte ∧ opcode.byte ≤ op16))
  let value : Int := opcode.byte.toNat - (op1 - 1).toNat
  assert (-1 ≤ value)
  assert (value ≤ 16)
  assert (value ≠ 0)
  return value

/- A small integer opcode never trips its assertions. -/
theorem smallInteger_safe {opcode : Opcode}
    (hOpcode : opcode.byte = op1negate ∨ (op1 ≤ opcode.byte ∧ opcode.byte ≤ op16)) :
    opcode.smallInteger.Safe (fun value => -1 ≤ value ∧ value ≤ 16) := by
  have hRange : 0x4f ≤ opcode.byte.toNat ∧ opcode.byte.toNat ≠ 0x50 ∧ opcode.byte.toNat ≤ 0x60 := by
    simp only [UInt8.le_iff_toNat_le, ← UInt8.toNat_inj, UInt8.toNat_ofNat] at hOpcode
    omega
  have hBase : ((op1 - 1 : UInt8).toNat : Int) = 0x50 := by decide
  simp only [smallInteger, safe_bind, safe_assert, hBase, hOpcode, true_and, pure_eq_ok, safe_ok]
  omega

end Opcode

end Bitmigo
