import Bitmigo.Script.Interpreter

/-
  The plain opcodes trip no assertion.

  Key definitions include:
    * `Machine.OnlyStacks`, what a stack opcode may change
    * `Machine.OpStep`, what any opcode other than a conditional may change

  Key theorems include:
    * `isValidSignatureEncoding_returns`
    * `Machine.executePlain_safe`
-/

namespace Bitmigo

open Result Stack ScriptNum

variable {K : Primitives} {next : Machine}

--------
-- Signature Encodings
--------

theorem sigAt_of_lt (sig : Bytes) (index : Nat) (hIndex : index < sig.length) :
    sigAt sig index = .ok (sig.get ⟨index, hIndex⟩) := by
  simp [sigAt, List.getElem?_eq_getElem hIndex]

/- Every index the DER check reads is inside the signature. -/
theorem isValidSignatureEncoding_returns (sig : Bytes) :
    ∃ valid, isValidSignatureEncoding sig = .ok valid := by
  unfold isValidSignatureEncoding
  refine exists_ok_ite (fun _ => ⟨_, rfl⟩) fun hSize => ?_
  rw [sigAt_of_lt sig 0 (by omega), sigAt_of_lt sig 1 (by omega),
    sigAt_of_lt sig 2 (by omega), sigAt_of_lt sig 3 (by omega),
    sigAt_of_lt sig 4 (by omega), sigAt_of_lt sig 5 (by omega)]
  simp only [ok_bind]
  generalize (sig.get ⟨3, by omega⟩).toNat = lenR
  refine exists_ok_ite (fun _ => ⟨_, rfl⟩) fun _ => ?_
  refine exists_ok_ite (fun _ => ⟨_, rfl⟩) fun hLenR => ?_
  rw [sigAt_of_lt sig (5 + lenR) (by omega)]
  simp only [ok_bind]
  generalize (sig.get ⟨5 + lenR, by omega⟩).toNat = lenS
  refine exists_ok_ite (fun _ => ⟨_, rfl⟩) fun hTotal => ?_
  rw [sigAt_of_lt sig (lenR + 4) (by omega)]
  refine exists_ok_ite (fun _ => ⟨_, rfl⟩) fun _ => ?_
  refine exists_ok_ite (fun _ => ⟨_, rfl⟩) fun _ => ?_
  simp only [ok_bind]
  refine exists_ok_ite (fun _ => ⟨_, rfl⟩) fun hLenS => ?_
  rw [sigAt_of_lt sig (lenR + 6) (by omega)]
  simp only [ok_bind]
  refine exists_ok_ite (fun _ => ⟨_, rfl⟩) fun _ => ?_
  refine exists_ok_ite (fun hLong => ?_) fun _ => ⟨_, rfl⟩
  rw [sigAt_of_lt sig (lenR + 7) (by omega)]
  exact ⟨_, rfl⟩

theorem checkSignatureEncoding_safe (signature : Bytes) (flags : ScriptFlags) :
    (checkSignatureEncoding signature flags).Safe (fun _ => True) := by
  unfold checkSignatureEncoding
  refine Safe.ite (fun _ => trivial) fun _ => ?_
  refine Safe.ite (fun _ => ?_) fun _ => trivial
  rcases isValidSignatureEncoding_returns signature with ⟨valid, hValid⟩
  simp [hValid]

namespace Machine

variable {opcode : UInt8} {env : Env K} {m : Machine} {op : Op} {n : ScriptNum}

--------
-- Plain Opcodes
--------

/- The step changed nothing but the two stacks. -/
def OnlyStacks (m next : Machine) : Prop :=
  ∃ stack altstack, next = { m with stack := stack, altstack := altstack }

theorem stackOpPairs_safe (m : Machine) (hLow : opToaltstack ≤ opcode) (hHigh : opcode ≤ op2swap) :
    (m.stackOpPairs opcode).Safe (OnlyStacks m) := by
  rcases m with ⟨⟨items⟩, ⟨alts⟩, _, _, _, _⟩
  unfold stackOpPairs
  -- One goal for each opcode.
  repeat' refine Safe.ite (fun _ => ?_) (fun _ => ?_)
  · rcases items with _ | ⟨x, rest⟩ <;> simp [require, OnlyStacks]
  · rcases alts with _ | ⟨x, rest⟩ <;> simp [Stack.isEmpty, OnlyStacks]
  · rcases items with _ | ⟨x, _ | ⟨y, rest⟩⟩ <;> simp [require, OnlyStacks]
  · rcases items with _ | ⟨x, _ | ⟨y, rest⟩⟩ <;> simp [require, OnlyStacks, Stack.top, indexAtDepth]
  · rcases items with _ | ⟨x, _ | ⟨y, _ | ⟨z, rest⟩⟩⟩ <;>
      simp [require, OnlyStacks, Stack.top, indexAtDepth]
  · rcases items with
      _ | ⟨x, _ | ⟨y, _ | ⟨z, _ | ⟨w, rest⟩⟩⟩⟩ <;>
      simp [require, OnlyStacks, Stack.top, indexAtDepth]
  · rcases items with
      _ | ⟨x, _ | ⟨y, _ | ⟨z, _ | ⟨w, _ | ⟨u, _ | ⟨v, rest⟩⟩⟩⟩⟩⟩ <;>
      simp [require, OnlyStacks, Stack.remove, indexAtDepth]
  · rcases items with
      _ | ⟨x, _ | ⟨y, _ | ⟨z, _ | ⟨w, rest⟩⟩⟩⟩ <;>
      simp [require, OnlyStacks, swap, indexAtDepth]
  · grind

/- A number's encoding is small enough to push. -/
theorem push_encode_safe (num : ScriptNum) (stack : Stack) :
    (num.encode >>= stack.push).Safe (fun next => ∃ item, next = ⟨item :: stack.items⟩) := by
  refine num.encode_safe.bind ?_
  intro bytes hBytes
  have hSize : bytes.length ≤ maxScriptElementSize := Nat.le_trans hBytes (by decide)
  exact push_of_le hSize ▸ ⟨_, rfl⟩

theorem pickOrRoll_safe (m : Machine) (opcode : UInt8) :
    (m.pickOrRoll opcode).Safe (OnlyStacks m) := by
  rcases m with ⟨⟨items⟩, alts, _, _, _, _⟩
  rcases items with _ | ⟨x, rest⟩
  · simp [pickOrRoll, require]
  unfold pickOrRoll
  refine safe_ensure_bind fun _ => ?_
  simp only [top_of_le ⟨x :: rest⟩ (Nat.le_refl 1) (by simp), ok_bind, pop_cons]
  refine (decode_safe x.val (by decide)).bind ?_
  intro num _
  refine safe_ensure_bind fun _ => ?_
  refine safe_ensure_bind fun hDepth => ?_
  have hInside : num.toClampedI32.toNat + 1 ≤ rest.length := hDepth
  rw [top_of_le ⟨rest⟩ (Nat.le_add_left _ _) hInside, ok_bind]
  refine Safe.bind (Q := fun _ => True) ?_ ?_
  · refine Safe.ite (fun _ => ?_) (fun _ => trivial)
    exact (remove_safe ⟨rest⟩ (Nat.le_add_left _ _) hInside).bind fun _ _ => trivial
  · intro stack _
    simp [OnlyStacks]

theorem stackOpSingles_safe (m : Machine) (hLow : opIfdup ≤ opcode) (hHigh : opcode ≤ opTuck)
    (hLen : opcode = opDepth → m.stack.len < 2 ^ 63) :
    (m.stackOpSingles opcode).Safe (OnlyStacks m) := by
  rcases m with ⟨⟨items⟩, alts, _, _, _, _⟩
  unfold stackOpSingles
  refine Safe.ite (fun _ => ?_) fun _ => ?_
  · rcases items with _ | ⟨x, rest⟩
    · simp [require]
    · simp only [require, Stack.top, indexAtDepth]
      by_cases hTrue : castToBool x.val <;> simp [hTrue, OnlyStacks]
  refine Safe.ite (fun hDepth => ?_) fun _ => ?_
  · refine (fromUsize_safe (hLen hDepth)).bind ?_
    intro depth _
    rw [← bind_assoc]
    refine (push_encode_safe depth ⟨items⟩).bind ?_
    intro stack _
    exact ⟨stack, alts, rfl⟩
  repeat' refine Safe.ite (fun _ => ?_) (fun _ => ?_)
  · rcases items with _ | ⟨x, rest⟩ <;> simp [require, OnlyStacks]
  · rcases items with _ | ⟨x, rest⟩ <;> simp [require, OnlyStacks, Stack.top, indexAtDepth]
  · rcases items with _ | ⟨x, _ | ⟨y, rest⟩⟩ <;>
      simp [require, OnlyStacks, Stack.remove, indexAtDepth]
  · rcases items with _ | ⟨x, _ | ⟨y, rest⟩⟩ <;> simp [require, OnlyStacks, Stack.top, indexAtDepth]
  · exact pickOrRoll_safe _ opcode
  · rcases items with _ | ⟨x, _ | ⟨y, _ | ⟨z, rest⟩⟩⟩ <;>
      simp [require, OnlyStacks, swap, indexAtDepth]
  · rcases items with _ | ⟨x, _ | ⟨y, rest⟩⟩ <;> simp [require, OnlyStacks, swap, indexAtDepth]
  · rcases items with _ | ⟨x, _ | ⟨y, rest⟩⟩ <;>
      simp [require, OnlyStacks, Stack.top, Stack.insert, indexAtDepth]
  · grind

theorem equal_safe (m : Machine) (opcode : UInt8) : (m.equal opcode).Safe (OnlyStacks m) := by
  rcases m with ⟨⟨items⟩, alts, _, _, _, _⟩
  rcases items with _ | ⟨x, _ | ⟨y, rest⟩⟩
  · simp [equal, require]
  · simp [equal, require]
  · simp only [equal, require, pop_cons, safe_bind, safe_ensure, safe_ok, pushBool_eq]
    intro _
    split <;> simp [OnlyStacks, safe_bind]

--------
-- Numbers and Hashes
--------

/- The operands of the numeric opcodes are far from overflow. -/
theorem unaryResult_safe (hOpcode : opcode = op1add ∨ opcode = op1sub ∨ opcode = opNegate ∨
      opcode = opAbs ∨ opcode = opNot ∨ opcode = op0notequal) (hSmall : n.value.natAbs < 2 ^ 39) :
    (unaryResult opcode n).Safe (fun num => num.value.natAbs ≤ n.value.natAbs + 1) := by
  have hOne : ScriptNum.one.value = 1 := rfl
  have hBound : n.value.natAbs < 2 ^ 62 := by omega
  have hBool (value : Bool) : (fromBool value).value.natAbs ≤ n.value.natAbs + 1 := by
    have := natAbs_fromBool_le value
    omega
  unfold unaryResult
  refine Safe.ite (fun _ => ?_) fun _ => ?_
  · refine (add_safe hBound (by decide)).mono ?_
    intro num hNum
    omega
  refine Safe.ite (fun _ => ?_) fun _ => ?_
  · refine (sub_safe hBound (by decide)).mono ?_
    intro num hNum
    omega
  refine Safe.ite (fun _ => ?_) fun _ => ?_
  · refine (neg_safe hBound).mono ?_
    intro num hNum
    omega
  refine Safe.ite (fun _ => ?_) fun _ => ?_
  · refine Safe.ite (fun _ => ?_) (fun _ => Nat.le_succ _)
    refine (neg_safe hBound).mono ?_
    intro num hNum
    omega
  refine Safe.ite (fun _ => hBool _) fun _ => ?_
  refine Safe.ite (fun _ => hBool _) fun _ => ?_
  grind

theorem numericUnary_safe (m : Machine)
    (hOpcode : opcode = op1add ∨ opcode = op1sub ∨ opcode = opNegate ∨
      opcode = opAbs ∨ opcode = opNot ∨ opcode = op0notequal) :
    (m.numericUnary opcode).Safe (OnlyStacks m) := by
  rcases m with ⟨⟨items⟩, alts, _, _, _, _⟩
  rcases items with _ | ⟨x, rest⟩
  · simp [numericUnary, require]
  unfold numericUnary
  refine safe_ensure_bind fun _ => ?_
  simp only [top_of_le ⟨x :: rest⟩ (Nat.le_refl 1) (by simp), ok_bind, pop_cons]
  refine (decode_safe x.val (by decide)).bind ?_
  intro num hNum
  refine (unaryResult_safe hOpcode hNum).bind ?_
  intro result _
  rw [← bind_assoc]
  refine (push_encode_safe result ⟨rest⟩).bind ?_
  intro stack _
  exact ⟨stack, alts, rfl⟩

theorem binaryResult_safe {x1 x2 : ScriptNum}
    (hOpcode : opcode = opAdd ∨ opcode = opSub ∨ (opBooland ≤ opcode ∧ opcode ≤ opMax))
    (hFst : x1.value.natAbs < 2 ^ 39) (hSnd : x2.value.natAbs < 2 ^ 39) :
    (binaryResult opcode x1 x2).Safe
      (fun num => num.value.natAbs ≤ x1.value.natAbs + x2.value.natAbs + 1) := by
  have hBool (value : Bool) :
      (fromBool value).value.natAbs ≤ x1.value.natAbs + x2.value.natAbs + 1 := by
    have := natAbs_fromBool_le value
    omega
  unfold binaryResult
  refine Safe.ite (fun _ => ?_) fun _ => ?_
  · refine (add_safe (by omega) (by omega)).mono ?_
    intro num hNum
    omega
  refine Safe.ite (fun _ => ?_) fun _ => ?_
  · refine (sub_safe (by omega) (by omega)).mono ?_
    intro num hNum
    omega
  -- The logical connectives and the comparisons.
  iterate 8 refine Safe.ite (fun _ => hBool _) (fun _ => ?_)
  -- The smaller and the larger operand.
  refine Safe.ite (fun _ => ?_) fun _ => ?_
  · rw [safe_ok]
    split <;> omega
  refine Safe.ite (fun _ => ?_) fun _ => ?_
  · rw [safe_ok]
    split <;> omega
  grind

theorem numericBinary_safe (m : Machine)
    (hOpcode : opcode = opAdd ∨ opcode = opSub ∨ (opBooland ≤ opcode ∧ opcode ≤ opMax)) :
    (m.numericBinary opcode).Safe (OnlyStacks m) := by
  rcases m with ⟨⟨items⟩, alts, _, _, _, _⟩
  rcases items with _ | ⟨x, _ | ⟨y, rest⟩⟩
  · simp [numericBinary, require]
  · simp [numericBinary, require]
  unfold numericBinary
  refine safe_ensure_bind fun _ => ?_
  simp only [top_of_le ⟨x :: y :: rest⟩ (Nat.le_refl 1) (by simp),
    top_of_le ⟨x :: y :: rest⟩ (Nat.le_succ 1) (by simp), ok_bind, pop_cons]
  refine (decode_safe y.val (by decide)).bind ?_
  intro first hFst
  refine (decode_safe x.val (by decide)).bind ?_
  intro second hSnd
  refine (binaryResult_safe hOpcode hFst hSnd).bind ?_
  intro result _
  rw [← bind_assoc]
  refine (push_encode_safe result ⟨rest⟩).bind ?_
  rintro stack ⟨item, rfl⟩
  refine Safe.ite (fun _ => ?_) fun _ => ?_
  · simp [Stack.top, indexAtDepth, safe_bind, OnlyStacks]
  · exact ⟨_, alts, rfl⟩

theorem within_safe (m : Machine) : m.within.Safe (OnlyStacks m) := by
  rcases m with ⟨⟨items⟩, alts, _, _, _, _⟩
  rcases items with _ | ⟨x, _ | ⟨y, _ | ⟨z, rest⟩⟩⟩
  · simp [within, require]
  · simp [within, require]
  · simp [within, require]
  unfold within
  refine safe_ensure_bind fun _ => ?_
  simp only [top_of_le ⟨x :: y :: z :: rest⟩ (Nat.le_refl 1) (by simp),
    top_of_le ⟨x :: y :: z :: rest⟩ (Nat.le_add_left 1 1) (by simp),
    top_of_le ⟨x :: y :: z :: rest⟩ (Nat.le_add_left 1 2) (by simp), ok_bind, pop_cons,
    pushBool_eq]
  refine (decode_safe z.val (by decide)).bind ?_
  intro value _
  refine (decode_safe y.val (by decide)).bind ?_
  intro min _
  refine (decode_safe x.val (by decide)).bind ?_
  intro max _
  exact ⟨_, alts, rfl⟩

theorem hashDigest_safe (input : Bytes) (hLow : opRipemd160 ≤ opcode) (hHigh : opcode ≤ opHash256) :
    (hashDigest K opcode input).Safe (fun digest => digest.length = 20 ∨ digest.length = 32) := by
  unfold hashDigest
  repeat' refine Safe.ite (fun _ => ?_) (fun _ => ?_)
  · exact Or.inl (K.ripemd160 input).property
  · exact Or.inl (K.sha1 input).property
  · exact Or.inr (K.sha256 input).property
  · exact Or.inl (K.hash160 input).property
  · exact Or.inr (K.sha256d input).property
  · grind

theorem hash_safe (m : Machine) (hLow : opRipemd160 ≤ opcode) (hHigh : opcode ≤ opHash256) :
    (m.hash K opcode).Safe (OnlyStacks m) := by
  rcases m with ⟨⟨items⟩, alts, _, _, _, _⟩
  rcases items with _ | ⟨x, rest⟩
  · simp [hash, require]
  unfold hash
  refine safe_ensure_bind fun _ => ?_
  simp only [ok_bind, pop_cons]
  refine (hashDigest_safe x.val hLow hHigh).bind ?_
  intro digest hDigest
  refine safe_bind.mpr (safe_assert.mpr ⟨hDigest, ?_⟩)
  have hSize : digest.length ≤ maxScriptElementSize := by
    have hMax : maxScriptElementSize = 520 := rfl
    omega
  rw [push_of_le hSize]
  exact ⟨_, alts, rfl⟩

--------
-- Lock Times
--------

theorem checkLocktime_safe (env : Env K) (m : Machine) :
    (m.checkLocktime env).Safe (fun next => next = m) := by
  unfold checkLocktime
  refine Safe.ite (fun _ => rfl) fun _ => ?_
  refine safe_ensure_bind fun hOne => ?_
  rw [top_of_le m.stack (Nat.le_refl 1) hOne, ok_bind]
  refine (decode_safe _ (by decide)).bind ?_
  intro lockTime hSmall
  refine safe_ensure_bind fun hLow => ?_
  have hHigh : lockTime.value ≤ scriptnumLocktimeMax := by
    unfold scriptnumLocktimeMax
    omega
  refine (env.checker.checkLocktime_safe hLow hHigh).bind ?_
  intro satisfied _
  simp [safe_bind]

theorem checkSequence_safe (env : Env K) (m : Machine) :
    (m.checkSequence env).Safe (fun next => next = m) := by
  unfold checkSequence
  refine Safe.ite (fun _ => rfl) fun _ => ?_
  refine safe_ensure_bind fun hOne => ?_
  rw [top_of_le m.stack (Nat.le_refl 1) hOne, ok_bind]
  refine (decode_safe _ (by decide)).bind ?_
  intro sequence hSmall
  refine safe_ensure_bind fun hLow => ?_
  have hHigh : sequence.value ≤ scriptnumLocktimeMax := by
    unfold scriptnumLocktimeMax
    omega
  refine Safe.ite (fun _ => rfl) fun _ => ?_
  refine (env.checker.checkSequence_safe hLow hHigh).bind ?_
  intro satisfied _
  simp [safe_bind]

--------
-- Dispatch of the Plain Opcodes
--------

/- What a taproot execution carries: a budget that has not run out and an annex with its tag. -/
def ValidExec (exec : ExecData) : Prop :=
  ∀ tapscript ∈ exec.tapscript,
    0 ≤ tapscript.validationWeightLeft ∧ ∀ bytes ∈ tapscript.annex, bytes.head? = some annexTag

/- What an opcode other than a conditional may do to the machine besides its stacks. -/
structure OpStep (env : Env K) (m next : Machine) : Prop where
  conditions : next.conditions = m.conditions
  opCount : m.opCount ≤ next.opCount
  counted : m.opCount ≤ maxOpsPerScript →
      next.opCount ≤ maxOpsPerScript
  tapscript : next.exec.tapscript.isSome = m.exec.tapscript.isSome
  validExec : ValidExec m.exec → ValidExec next.exec
  codesepStart : m.codesepStart ≤ env.script.length →
      next.codesepStart ≤ env.script.length

theorem OpStep.refl (env : Env K) (m : Machine) : OpStep env m m :=
  ⟨rfl, Nat.le_refl _, id, rfl, id, id⟩

theorem OnlyStacks.opStep (hOnly : OnlyStacks m next) : OpStep env m next := by
  rcases hOnly with ⟨stack, altstack, rfl⟩
  exact ⟨rfl, Nat.le_refl _, id, rfl, id, id⟩

/- A separator moves the start of the script code. -/
theorem executePlain_separator (env : Env K) (m : Machine) (opcodeIndex : Nat)
    (hByte : op.opcode.byte = opCodeseparator) :
    m.executePlain env op opcodeIndex = .ok { m with
          codesepStart := op.stop
          exec :=
            { m.exec with
              codesepPos := UInt32.ofNat opcodeIndex } } := by
  simp +decide [executePlain, hByte]

/-
  Every other plain opcode changes the stacks only. The number of elements is pushed by `OP_DEPTH`
  alone.
-/
theorem executePlain_stacks (opcodeIndex : Nat) (hByte : op.opcode.byte ≠ opCodeseparator)
    (hLen : op.opcode.byte = opDepth → m.stack.len < 2 ^ 63) :
    (m.executePlain env op opcodeIndex).Safe (OnlyStacks m) := by
  have hRefl : OnlyStacks m m := ⟨_, _, rfl⟩
  have hSame {x : Result ScriptError Machine} (hSafe : x.Safe (fun next => next = m)) :
      x.Safe (OnlyStacks m) :=
    hSafe.mono fun _ hEq => hEq ▸ hRefl
  unfold executePlain
  refine Safe.ite (fun hSmall => ?_) fun _ => ?_
  · refine (Opcode.smallInteger_safe hSmall).bind ?_
    intro value hValue
    refine (fromI64_safe (by omega)).bind ?_
    intro num _
    rw [← bind_assoc]
    refine (push_encode_safe num m.stack).bind ?_
    intro stack _
    exact ⟨stack, _, rfl⟩
  refine Safe.ite (fun _ => hRefl) fun _ => ?_
  refine Safe.ite (fun _ => hSame (checkLocktime_safe env m)) fun _ => ?_
  refine Safe.ite (fun _ => hSame (checkSequence_safe env m)) fun _ => ?_
  refine Safe.ite (fun _ => ?_) fun _ => ?_
  · rcases m with ⟨⟨_ | ⟨x, rest⟩⟩, alts, _, _, _, _⟩ <;>
      simp [require, Stack.top, indexAtDepth, safe_bind, OnlyStacks]
  refine Safe.ite (fun _ => trivial) fun _ => ?_
  refine Safe.ite (fun h => stackOpPairs_safe m h.1 h.2) fun _ => ?_
  refine Safe.ite (fun h => stackOpSingles_safe m h.1 h.2 hLen) fun _ => ?_
  refine Safe.ite (fun _ => ?_) fun _ => ?_
  · refine safe_ensure_bind fun hOne => ?_
    rw [top_of_le m.stack (Nat.le_refl 1) hOne, ok_bind]
    have hSize := (m.stack.items.get ⟨1 - 1, by omega⟩).property
    have hMax : maxScriptElementSize = 520 := rfl
    refine (fromUsize_safe (by omega)).bind ?_
    intro size _
    rw [← bind_assoc]
    refine (push_encode_safe size m.stack).bind ?_
    intro stack _
    exact ⟨stack, _, rfl⟩
  refine Safe.ite (fun _ => equal_safe m _) fun _ => ?_
  refine Safe.ite (fun h => numericUnary_safe m h) fun _ => ?_
  refine Safe.ite (fun h => numericBinary_safe m h) fun _ => ?_
  refine Safe.ite (fun _ => within_safe m) fun _ => ?_
  refine Safe.ite (fun h => hash_safe m h.1 h.2) fun _ => ?_
  exact Safe.ite (fun h => absurd h hByte) fun _ => trivial

theorem executePlain_safe (opcodeIndex : Nat) (hLen : m.stack.len < 2 ^ 63)
    (hStop : op.stop ≤ env.script.length) :
    (m.executePlain env op opcodeIndex).Safe (OpStep env m) := by
  by_cases hByte : op.opcode.byte = opCodeseparator
  · rw [executePlain_separator env m opcodeIndex hByte]
    exact ⟨rfl, Nat.le_refl _, id, rfl, id, fun _ => hStop⟩
  · exact (executePlain_stacks opcodeIndex hByte (fun _ => hLen)).mono fun _ => OnlyStacks.opStep

/- The same for any stack, of a run that returns. -/
theorem executePlain_eq_ok {opcodeIndex : Nat} (hByte : op.opcode.byte ≠ opCodeseparator)
    (hNext : m.executePlain env op opcodeIndex = .ok next) : OnlyStacks m next := by
  by_cases hDepth : op.opcode.byte = opDepth
  · simp +decide only [executePlain, hDepth, stackOpSingles,
      if_false, if_true, bind_eq_ok, pure_inj] at hNext
    rcases hNext with ⟨_, _, _, _, stack, _, rfl⟩
    exact ⟨stack, _, rfl⟩
  · exact (executePlain_stacks opcodeIndex hByte (fun h => absurd h hDepth)).of_eq_ok hNext

end Machine

end Bitmigo
