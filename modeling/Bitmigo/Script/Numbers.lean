import Bitmigo.Script.Visits

/-
  The numbers an opcode works with: the operands it decodes off the stack and the results it
  computes.

  Key definitions include:
    * `Machine.numbers`, the numbers of an executed opcode
    * `Machine.Computes`, they are in range and left behind

  Key theorems include:
    * `Machine.numbers_of_execute`

  Operands are at most four bytes wide, those of the two lock times five, so that no arithmetic
  comes near the width of an `i64`.
-/

namespace Bitmigo

open Result List Stack Except ScriptNum

variable {K : Primitives}

namespace Machine

variable {m : Machine} {op : Op} {num : ScriptNum} {byte : UInt8}

--------
-- Operands and Results
--------

/- The number at this depth, of at most `size` bytes. -/
def operand (m : Machine) (depth size : Nat) : Result ScriptError ScriptNum := do
  let item ← m.stack.top depth
  ScriptNum.decode item.val size

/-
  The numbers an executed opcode decodes off the stack, in the order it reads them, and the numbers
  it computes.
-/
def numbers (env : Env K) (m : Machine) (op : Op) :
    Result ScriptError (List ScriptNum × List ScriptNum) :=
  let byte := op.opcode.byte
  if byte = opChecksigadd then do
    let n ← m.operand 2 scriptnumSizeMax
    let signature ← m.stack.top 3
    let sum ← n.add (.fromBool !signature.val.isEmpty)
    return ([n], [sum])
  else if byte = opCheckmultisig ∨
      byte = opCheckmultisigverify then do
    let keyNum ← m.operand 1 scriptnumSizeMax
    let keyCount := keyNum.toClampedI32.toNat
    let sigNum ← m.operand (2 + keyCount) scriptnumSizeMax
    return ([keyNum, sigNum], [])
  else if byte = op1negate ∨ (op1 ≤ byte ∧ byte ≤ op16) then do
    let value ← op.opcode.smallInteger
    let num ← fromI64 value
    return ([], [num])
  else if byte = opChecklocktimeverify then
    if env.flags.contains .checklocktimeverify then do
      let lockTime ← m.operand 1 scriptnumLocktimeSizeMax
      return ([lockTime], [])
    else
      .ok ([], [])
  else if byte = opChecksequenceverify then
    if env.flags.contains .checksequenceverify then do
      let sequence ← m.operand 1 scriptnumLocktimeSizeMax
      return ([sequence], [])
    else
      .ok ([], [])
  else if byte = opDepth then do
    let depth ← fromUsize m.stack.len
    return ([], [depth])
  else if byte = opPick ∨ byte = opRoll then do
    let n ← m.operand 1 scriptnumSizeMax
    return ([n], [])
  else if byte = opSize then do
    let top ← m.stack.top 1
    let size ← fromUsize top.val.length
    return ([], [size])
  else if byte = op1add ∨ byte = op1sub ∨ byte = opNegate ∨
      byte = opAbs ∨ byte = opNot ∨ byte = op0notequal then do
    let n ← m.operand 1 scriptnumSizeMax
    let result ← unaryResult byte n
    return ([n], [result])
  else if byte = opAdd ∨ byte = opSub ∨
      (opBooland ≤ byte ∧ byte ≤ opMax) then do
    let x1 ← m.operand 2 scriptnumSizeMax
    let x2 ← m.operand 1 scriptnumSizeMax
    let result ← binaryResult byte x1 x2
    return ([x1, x2], [result])
  else if byte = opWithin then do
    let x ← m.operand 3 scriptnumSizeMax
    let min ← m.operand 2 scriptnumSizeMax
    let max ← m.operand 1 scriptnumSizeMax
    return ([x, min, max], [])
  else
    .ok ([], [])

/- The number on top of the stack. -/
def Encodes (num : ScriptNum) (stack : Stack) : Prop :=
  ∃ item rest, stack.items = item :: rest ∧ num.encode = .ok item.val

theorem encodes_of_push {item : Bytes} {stack next : Stack} (hItem : num.encode = .ok item)
    (hPush : stack.push item = .ok next) : Encodes num next := by
  rcases push_eq_ok hPush with ⟨pushed, rfl, hItems⟩
  exact ⟨pushed, stack.items, hItems, hItem⟩

/-
  The numbers of an opcode that goes on: its operands are below `2 ^ 39` and its results below `2 ^
  33`. A result is on the stack it left, unless the opcode is `OP_NUMEQUALVERIFY`, which takes its
  result off again.
-/
def Computes (env : Env K) (m : Machine) (op : Op) (next : Machine) : Prop :=
  ∃ operands results,
    m.numbers env op = .ok (operands, results) ∧
    (∀ num ∈ operands, num.value.natAbs < 2 ^ 39) ∧
    ∀ num ∈ results,
      num.value.natAbs < 2 ^ 33 ∧ (op.opcode.byte = opNumequalverify ∨ Encodes num next.stack)

theorem operand_lt {depth size : Nat} (hSize : size ≤ scriptnumLocktimeSizeMax)
    (hNum : m.operand depth size = .ok num) : num.value.natAbs < 2 ^ (8 * size - 1) := by
  simp only [operand, bind_eq_ok] at hNum
  rcases hNum with ⟨item, _, hNum⟩
  exact (decode_width item.val hSize).of_eq_ok hNum

theorem small_operand {depth : Nat} (hNum : m.operand depth scriptnumSizeMax = .ok num) :
    num.value.natAbs < 2 ^ 31 :=
  operand_lt (by decide) hNum

theorem lockTime_operand (hNum : m.operand 1 scriptnumLocktimeSizeMax = .ok num) :
    num.value.natAbs < 2 ^ 39 :=
  operand_lt (by decide) hNum

variable {env : Env K} {next : Machine}

/- An opcode that reads a number and computes none. -/
theorem Computes.of_operand (num : ScriptNum) (hNumbers : m.numbers env op = .ok ([num], []))
    (hNum : num.value.natAbs < 2 ^ 39) : Computes env m op next :=
  ⟨[num], [], hNumbers, by simpa using hNum, by simp⟩

/- An opcode that reads none and pushes one. -/
theorem Computes.of_result (num : ScriptNum) (hNumbers : m.numbers env op = .ok ([], [num]))
    (hNum : num.value.natAbs < 2 ^ 33) (hTop : Encodes num next.stack) : Computes env m op next :=
  ⟨[], [num], hNumbers, by simp, by simpa using ⟨hNum, Or.inr hTop⟩⟩

theorem Computes.of_none (hNumbers : m.numbers env op = .ok ([], [])) : Computes env m op next :=
  ⟨[], [], hNumbers, by simp, by simp⟩

--------
-- The Opcode Functions
--------

theorem numericUnary_eq_ok (hNext : m.numericUnary byte = .ok next) :
    ∃ n result, m.operand 1 scriptnumSizeMax = .ok n ∧ unaryResult byte n = .ok result ∧
      Encodes result next.stack := by
  simp only [numericUnary, bind_eq_ok, pure_inj] at hNext
  rcases hNext with ⟨_, _, item, hItem, n, hNum, result,
    hResult, ⟨_, below⟩, _, bytes, hBytes, stack, hPush, rfl⟩
  refine ⟨n, result, ?_, hResult, encodes_of_push hBytes hPush⟩
  simp [operand, hItem, hNum]

theorem numericBinary_eq_ok (hNext : m.numericBinary byte = .ok next) :
    ∃ x1 x2 result, m.operand 2 scriptnumSizeMax = .ok x1 ∧ m.operand 1 scriptnumSizeMax = .ok x2 ∧
      binaryResult byte x1 x2 = .ok result ∧
      (byte = opNumequalverify ∨ Encodes result next.stack) := by
  simp only [numericBinary, bind_eq_ok, pure_eq_ok] at hNext
  rcases hNext with ⟨_, _, first, hFst, x1, hX1, second,
    hSnd, x2, hX2, result, hResult, ⟨_, _⟩, _, ⟨_, below⟩, _, bytes, hBytes, stack, hPush, hNext⟩
  refine ⟨x1, x2, result, by simp [operand, hFst, hX1], by simp [operand, hSnd, hX2], hResult, ?_⟩
  split at hNext
  case isTrue hVerify => exact Or.inl hVerify
  case isFalse =>
    cases hNext
    exact Or.inr (encodes_of_push hBytes hPush)

theorem within_eq (hNext : m.within = .ok next) :
    ∃ x min max, m.operand 3 scriptnumSizeMax = .ok x ∧ m.operand 2 scriptnumSizeMax = .ok min ∧
      m.operand 1 scriptnumSizeMax = .ok max := by
  simp only [within, bind_eq_ok] at hNext
  rcases hNext with ⟨_, _, third, hThird, x, hX, second, hSnd, min, hMin, first, hFst, max, hMax, _⟩
  exact ⟨x, min, max, by simp [operand, hThird, hX],
    by simp [operand, hSnd, hMin], by simp [operand, hFst, hMax]⟩

theorem pickOrRoll_eq_ok (hNext : m.pickOrRoll byte = .ok next) :
    ∃ n, m.operand 1 scriptnumSizeMax = .ok n := by
  simp only [pickOrRoll, bind_eq_ok] at hNext
  rcases hNext with ⟨_, _, item, hItem, n, hNum, _⟩
  exact ⟨n, by simp [operand, hItem, hNum]⟩

theorem checkLocktime_eq_ok (hFlag : env.flags.contains .checklocktimeverify)
    (hNext : m.checkLocktime env = .ok next) :
    ∃ n, m.operand 1 scriptnumLocktimeSizeMax = .ok n := by
  simp only [checkLocktime, hFlag, Bool.not_true, Bool.false_eq_true, if_false, bind_eq_ok] at hNext
  rcases hNext with ⟨_, _, item, hItem, n, hNum, _⟩
  exact ⟨n, by simp [operand, hItem, hNum]⟩

theorem checkSequence_eq_ok (hFlag : env.flags.contains .checksequenceverify)
    (hNext : m.checkSequence env = .ok next) :
    ∃ n, m.operand 1 scriptnumLocktimeSizeMax = .ok n := by
  simp only [checkSequence, hFlag, Bool.not_true, Bool.false_eq_true, if_false, bind_eq_ok] at hNext
  rcases hNext with ⟨_, _, item, hItem, n, hNum, _⟩
  exact ⟨n, by simp [operand, hItem, hNum]⟩

theorem operands_of_multisigCounts {counted : Machine} {keyCount isig sigCount : Nat}
    (hCounts : m.multisigCounts = .ok (keyCount, counted, isig, sigCount)) :
    ∃ keyNum sigNum, m.operand 1 scriptnumSizeMax = .ok keyNum ∧
      m.operand (2 + keyNum.toClampedI32.toNat) scriptnumSizeMax = .ok sigNum := by
  simp only [multisigCounts, countFrom, bind_eq_ok, assert_eq_ok, pure_inj] at hCounts
  rcases hCounts with ⟨_, _, item, hItem, num, hNum, _, _,
    _, ⟨_, _, rfl⟩, _, _, _, _, lower, hLower, sigNum, hSigNum, _⟩
  exact ⟨num, sigNum, by simp [operand, hItem, hNum], by simp [operand, hLower, hSigNum]⟩

--------
-- Every Opcode
--------

variable {opcodeIndex : Nat}

theorem numbers_of_smallInteger
    (hByte : op.opcode.byte = op1negate ∨ (op1 ≤ op.opcode.byte ∧ op.opcode.byte ≤ op16))
    (hNext : m.executePlain env op opcodeIndex = .ok next) : Computes env m op next := by
  rw [executePlain, if_pos hByte] at hNext
  simp only [bind_eq_ok, pure_inj] at hNext
  rcases hNext with ⟨value, hValue, num, hNum, item, hItem, stack, hPush, rfl⟩
  have hRange := (Opcode.smallInteger_safe hByte).of_eq_ok hValue
  have hSame := (fromI64_safe (by omega)).of_eq_ok hNum
  refine .of_result num ?_ (by omega) (encodes_of_push hItem hPush)
  rw [numbers, if_neg (by grind), if_neg (by grind), if_pos hByte]
  simp [hValue, hNum]

theorem numbers_of_unary (hByte : op.opcode.byte = op1add ∨ op.opcode.byte = op1sub ∨
      op.opcode.byte = opNegate ∨ op.opcode.byte = opAbs ∨ op.opcode.byte = opNot ∨
      op.opcode.byte = op0notequal) (hNext : m.executePlain env op opcodeIndex = .ok next) :
    Computes env m op next := by
  have hExec : m.executePlain env op opcodeIndex = m.numericUnary op.opcode.byte := by
    rw [executePlain]
    repeat rw [if_neg (by grind)]
    rw [if_pos hByte]
  rw [hExec] at hNext
  rcases numericUnary_eq_ok hNext with ⟨n, result, hNum, hResult, hTop⟩
  have hOperand := small_operand hNum
  have hBound := (unaryResult_safe hByte (by omega)).of_eq_ok hResult
  refine ⟨[n], [result], ?_, ?_, ?_⟩
  · rw [numbers]
    repeat rw [if_neg (by grind)]
    rw [if_pos hByte]
    simp [hNum, hResult]
  · simp only [mem_singleton, forall_eq]
    omega
  · simp only [mem_singleton, forall_eq]
    exact ⟨by omega, Or.inr hTop⟩

theorem numbers_of_binary (hByte : op.opcode.byte = opAdd ∨ op.opcode.byte = opSub ∨
      (opBooland ≤ op.opcode.byte ∧ op.opcode.byte ≤ opMax))
    (hNext : m.executePlain env op opcodeIndex = .ok next) : Computes env m op next := by
  have hExec : m.executePlain env op opcodeIndex = m.numericBinary op.opcode.byte := by
    rw [executePlain]
    repeat rw [if_neg (by grind)]
    rw [if_pos hByte]
  rw [hExec] at hNext
  rcases numericBinary_eq_ok hNext with ⟨x1, x2, result, hX1, hX2, hResult, hTop⟩
  have hFst := small_operand hX1
  have hSnd := small_operand hX2
  have hBound := (binaryResult_safe hByte (by omega) (by omega)).of_eq_ok hResult
  refine ⟨[x1, x2], [result], ?_, ?_, ?_⟩
  · rw [numbers]
    repeat rw [if_neg (by grind)]
    rw [if_pos hByte]
    simp [hX1, hX2, hResult]
  · simp only [mem_cons, not_mem_nil, or_false, forall_eq_or_imp, forall_eq]
    omega
  · simp only [mem_singleton, forall_eq]
    exact ⟨by omega, hTop⟩

theorem numbers_of_within (hByte : op.opcode.byte = opWithin)
    (hNext : m.executePlain env op opcodeIndex = .ok next) : Computes env m op next := by
  simp +decide only [executePlain, hByte, if_true, if_false] at hNext
  rcases within_eq hNext with ⟨x, min, max, hX, hMin, hMax⟩
  have hFst := small_operand hX
  have hSnd := small_operand hMin
  have hThird := small_operand hMax
  refine ⟨[x, min, max], [], ?_, ?_, by simp⟩
  · simp +decide only [numbers, hByte, if_true, if_false]
    simp [hX, hMin, hMax]
  · simp only [mem_cons, not_mem_nil, or_false, forall_eq_or_imp, forall_eq]
    omega

/- The opcodes with one number and a byte of their own. -/
theorem numbers_of_single (hByte : op.opcode.byte = opChecklocktimeverify ∨
      op.opcode.byte = opChecksequenceverify ∨ op.opcode.byte = opDepth ∨ op.opcode.byte = opPick ∨
      op.opcode.byte = opRoll ∨ op.opcode.byte = opSize) (hFits : next.stack.len ≤ maxStackSize)
    (hNext : m.executePlain env op opcodeIndex = .ok next) : Computes env m op next := by
  have hStackMax : maxStackSize = 1000 := rfl
  have hItemMax : maxScriptElementSize = 520 := rfl
  have hPicks (hNumbers : m.numbers env op = do
          let n ← m.operand 1 scriptnumSizeMax
          return ([n], []))
      (hPick : m.pickOrRoll op.opcode.byte = .ok next) :
      Computes env m op next := by
    rcases pickOrRoll_eq_ok hPick with ⟨n, hNum⟩
    have hOperand := small_operand hNum
    exact .of_operand n (by simp [hNumbers, hNum]) (by omega)
  rcases hByte with hByte | hByte | hByte | hByte | hByte | hByte
  · simp +decide only [executePlain, hByte, if_true, if_false] at hNext
    cases hFlag : env.flags.contains .checklocktimeverify with
    | false =>
      exact .of_none (by
        simp +decide [numbers, hByte, hFlag])
    | true =>
      rcases checkLocktime_eq_ok hFlag hNext with ⟨n, hNum⟩
      exact .of_operand n (by simp +decide [numbers, hByte, hFlag, hNum]) (lockTime_operand hNum)
  · simp +decide only [executePlain, hByte, if_true, if_false] at hNext
    cases hFlag : env.flags.contains .checksequenceverify with
    | false =>
      exact .of_none (by
        simp +decide [numbers, hByte, hFlag])
    | true =>
      rcases checkSequence_eq_ok hFlag hNext with ⟨n, hNum⟩
      exact .of_operand n (by simp +decide [numbers, hByte, hFlag, hNum]) (lockTime_operand hNum)
  · simp +decide only [executePlain, stackOpSingles, hByte,
      if_true, if_false, bind_eq_ok, pure_inj] at hNext
    rcases hNext with ⟨depth, hDepth, item, hItem, stack, hPush, rfl⟩
    rcases push_eq_ok hPush with ⟨_, _, hItems⟩
    simp only [Stack.len, hItems, length_cons] at hFits
    have hSame := (fromUsize_safe (show m.stack.len < 2 ^ 63 by
        unfold Stack.len; omega)).of_eq_ok hDepth
    unfold Stack.len at hSame
    exact .of_result depth (by simp +decide [numbers, hByte, hDepth]) (by omega)
      (encodes_of_push hItem hPush)
  · refine hPicks ?_ ?_
    · simp +decide [numbers, hByte]
    · simpa +decide [executePlain, stackOpSingles, hByte] using hNext
  · refine hPicks ?_ ?_
    · simp +decide [numbers, hByte]
    · simpa +decide [executePlain, stackOpSingles, hByte] using hNext
  · simp +decide only [executePlain, hByte, if_true, if_false, bind_eq_ok, pure_inj] at hNext
    rcases hNext with ⟨_, _, top, hTop, size, hSize, item, hItem, stack, hPush, rfl⟩
    have hSame := (fromUsize_safe (by omega)).of_eq_ok hSize
    exact .of_result size (by simp +decide [numbers, hByte, hTop, hSize])
      (by omega) (encodes_of_push hItem hPush)

theorem numbers_of_executePlain (hAdd : op.opcode.byte ≠ opChecksigadd)
    (hMultisig : ¬ (op.opcode.byte = opCheckmultisig ∨ op.opcode.byte = opCheckmultisigverify))
    (hFits : next.stack.len ≤ maxStackSize) (hNext : m.executePlain env op opcodeIndex = .ok next) :
    Computes env m op next := by
  by_cases hSmall : op.opcode.byte = op1negate ∨ (op1 ≤ op.opcode.byte ∧ op.opcode.byte ≤ op16)
  · exact numbers_of_smallInteger hSmall hNext
  by_cases hUnary : op.opcode.byte = op1add ∨ op.opcode.byte = op1sub ∨
        op.opcode.byte = opNegate ∨ op.opcode.byte = opAbs ∨
        op.opcode.byte = opNot ∨
        op.opcode.byte = op0notequal
  · exact numbers_of_unary hUnary hNext
  by_cases hBinary : op.opcode.byte = opAdd ∨ op.opcode.byte = opSub ∨
        (opBooland ≤ op.opcode.byte ∧ op.opcode.byte ≤ opMax)
  · exact numbers_of_binary hBinary hNext
  by_cases hWithin : op.opcode.byte = opWithin
  · exact numbers_of_within hWithin hNext
  by_cases hSingle : op.opcode.byte = opChecklocktimeverify ∨
        op.opcode.byte = opChecksequenceverify ∨
        op.opcode.byte = opDepth ∨ op.opcode.byte = opPick ∨
        op.opcode.byte = opRoll ∨ op.opcode.byte = opSize
  · exact numbers_of_single hSingle hFits hNext
  simp only [not_or] at hSingle
  rcases hSingle with ⟨hLocktime, hSequence, hDepth, hPick, hRoll, hSize⟩
  refine .of_none ?_
  rw [numbers, if_neg hAdd, if_neg hMultisig, if_neg hSmall,
    if_neg hLocktime, if_neg hSequence, if_neg hDepth,
    if_neg (not_or.mpr ⟨hPick, hRoll⟩), if_neg hSize, if_neg hUnary, if_neg hBinary, if_neg hWithin]

theorem numbers_of_checksigadd (hByte : op.opcode.byte = opChecksigadd)
    (hNext : (m.checksigadd env).out = .ok next) : Computes env m op next := by
  rcases checksigadd_eq_ok hNext with
    ⟨hVer, key, item, signature, rest, success, charged,
      stack, hItems, hPaid, rfl, n, sum, bytes, hNum, hSum, hBytes, hPush⟩
  have hOperand : m.operand 2 scriptnumSizeMax = .ok n := by
    simp [operand, Stack.top, indexAtDepth, hItems, hNum]
  have hSig : m.stack.top 3 = .ok signature := by simp [Stack.top, indexAtDepth, hItems]
  have hSmall := small_operand hOperand
  have hBool := natAbs_fromBool_le success
  have hValue := (add_safe (by omega) (by omega)).of_eq_ok hSum
  rw [hPaid.verdict hVer] at hSum
  refine ⟨[n], [sum], ?_, ?_, ?_⟩
  · rw [numbers, if_pos hByte]
    simp [hOperand, hSig, hSum]
  · simp only [mem_singleton, forall_eq]
    omega
  · simp only [mem_singleton, forall_eq]
    exact ⟨by omega, Or.inr (encodes_of_push hBytes hPush)⟩

theorem numbers_of_checkmultisig
    (hByte : op.opcode.byte = opCheckmultisig ∨ op.opcode.byte = opCheckmultisigverify)
    (hNext : (m.checkmultisig env op.opcode.byte).out = .ok next) : Computes env m op next := by
  rcases checkmultisig_eq_ok hNext with ⟨_, keyCount, counted, isig, sigCount, stack, hCounts, _⟩
  rcases operands_of_multisigCounts hCounts with ⟨keyNum, sigNum, hKeys, hSigs⟩
  have hFst := small_operand hKeys
  have hSnd := small_operand hSigs
  refine ⟨[keyNum, sigNum], [], ?_, ?_, by simp⟩
  · rw [numbers, if_neg (by grind), if_pos hByte]
    simp [hKeys, hSigs]
  · simp only [mem_cons, not_mem_nil, or_false, forall_eq_or_imp, forall_eq]
    omega

/- Every executed opcode that goes on, and leaves no more than the stack may hold. -/
theorem numbers_of_execute {limit : Option Nat} {executing : Bool}
    (hFits : next.stack.len ≤ maxStackSize)
    (hNext : (m.execute limit env op executing opcodeIndex).out = .ok next) :
    Computes env m op next := by
  unfold execute at hNext
  simp only [Traced.out_ite, Traced.out_lift] at hNext
  split at hNext
  case isTrue hByte =>
    refine .of_none ?_
    rcases hByte with h | h | h | h <;> simp +decide only [numbers, h, if_false]
  split at hNext
  case isTrue hByte =>
    refine .of_none ?_
    rcases hByte with h | h <;> simp +decide only [numbers, h, if_false]
  split at hNext
  case isTrue hByte => exact numbers_of_checksigadd hByte hNext
  rename_i hAdd
  split at hNext
  case isTrue hByte =>
    exact numbers_of_checkmultisig hByte hNext
  case isFalse hMultisig =>
    exact numbers_of_executePlain hAdd hMultisig hFits hNext

end Machine

end Bitmigo
