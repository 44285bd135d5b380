import Bitmigo.Script.FindAndDelete
import Bitmigo.Script.Safety

/-
  One iteration of the interpreter trips no assertion, the nesting bound aside.

  Key definitions include:
    * `Machine.SigReady`, what a signature opcode relies on
    * `Machine.NestStep`, what a conditional may do
    * `Machine.Inv`, what holds between opcodes

  Key theorems include:
    * `Machine.checksig_safe`, `Machine.checksigadd_safe` and `Machine.checkmultisig_safe`
    * `evalStep_none_safe`
-/

namespace Bitmigo

open Result Traced Stack

variable {K : Primitives} {env : Env K} {m : Machine}
variable {pubkey : Bytes} {conditions : ConditionStack} {op : Op} {reader : Reader}

namespace Machine

variable {env : Env K} {m next : Machine} {signature : Bytes} {success : Bool}

--------
-- Signature Opcodes
--------

theorem scriptCode_safe (hCodesep : m.codesepStart ≤ env.script.length) :
    (m.scriptCode env).Safe (fun _ => True) := by
  have hRange := getRange?_eq_some.mpr ⟨hCodesep, Nat.le_refl env.script.length, rfl⟩
  simp [scriptCode, hCodesep, hRange]

/- A stack element has a push, and that is deleted from any code. -/
theorem element_pushEncoding (item : Element) :
    ∃ pattern, pushEncoding item.val = .ok pattern ∧
      ∀ code, ∃ kept, findAndDelete code pattern = .ok kept := by
  have hMax : maxScriptElementSize = 520 := rfl
  rcases isChunk_pushEncoding (by omega : item.val.length < 2 ^ 32) with
    ⟨pattern, hPattern, hChunk⟩
  exact ⟨pattern, hPattern, fun code => ⟨_, findAndDelete_eq hChunk code⟩⟩

theorem evalChecksigPreTapscript_safe (signature : Element) (pubkey : Bytes)
    (hVer : env.sigVersion ≠ .tapscript) (hCodesep : m.codesepStart ≤ env.script.length) :
    (m.evalChecksigPreTapscript env signature.val pubkey).out.Safe (fun _ => True) := by
  unfold evalChecksigPreTapscript checkEcdsa
  simp only [out_bind, out_lift, out_call, ok_bind]
  refine (scriptCode_safe hCodesep).bind ?_
  intro code _
  refine Safe.bind (Q := fun _ => True) ?_ ?_
  · refine Safe.ite (fun _ => ?_) (fun _ => trivial)
    rcases element_pushEncoding signature with ⟨pattern, hPattern, hDelete⟩
    rcases hDelete code with ⟨kept, hKept⟩
    rw [hPattern, ok_bind, hKept]
    trivial
  · intro code _
    refine (checkSignatureEncoding_safe _ env.flags).bind ?_
    intro _ _
    rcases env.checker.checkEcdsa_returns signature.val pubkey code hVer with ⟨ok, hOk⟩
    rw [hOk]
    trivial

/- What a signature check leaves: the budget charged. -/
def chargedExec (sigVersion : SigVersion) (exec : ExecData) (signature : Bytes) : ExecData :=
  if sigVersion = .tapscript then
    { exec with
      tapscript :=
        exec.tapscript.map fun tapscript =>
          tapscript.charged !signature.isEmpty }
  else
    exec

/- A signature check charges its budget, and nothing else. -/
structure Paid (env : Env K) (m : Machine) (signature : Bytes) (success : Bool)
    (next : Machine) : Prop where
  same : next =
      { m with
        exec := chargedExec env.sigVersion m.exec signature }
  verdict : env.sigVersion = .tapscript → success = !signature.isEmpty
  budget : env.sigVersion = .tapscript → signature ≠ [] →
      ∀ exec ∈ next.exec.tapscript, 0 ≤ exec.validationWeightLeft

theorem evalChecksigTapscript_eq_ok (hVer : env.sigVersion = .tapscript)
    (hNext : (m.evalChecksigTapscript env signature pubkey).out = .ok (success, next)) :
    Paid env m signature success next := by
  simp only [evalChecksigTapscript, out_bind,
    out_lift, bind_eq_ok, expect_eq_ok, assert_eq_ok, ensure_eq_ok] at hNext
  rcases hNext with ⟨exec, hExec, _, _, _, hBudget, _, _, hNext⟩
  have hPaid : Paid env m signature (!signature.isEmpty) { m with
          exec :=
            { m.exec with
              tapscript := some (exec.charged !signature.isEmpty) } } := by
    refine ⟨?_, fun _ => rfl, ?_⟩
    · simp [chargedExec, hVer, hExec]
    · intro _ hSig tapscript hTap
      rw [← Option.some.inj hTap]
      exact hBudget (by simpa using hSig)
  have hSame : success = (!signature.isEmpty) ∧ next = { m with
            exec :=
              { m.exec with
                tapscript := some (exec.charged !signature.isEmpty) } } := by
    cases hKey : FixedBytes.ofBytes? 32 pubkey with
    | none =>
      simp only [hKey, out_pure, Except.ok.injEq, Prod.mk.injEq] at hNext
      exact ⟨hNext.1.symm, hNext.2.symm⟩
    | some key =>
      simp only [hKey, out_ite, out_bind, out_call, out_lift, out_pure, ok_bind] at hNext
      split at hNext
      · rcases bind_eq_ok.mp hNext with ⟨_, _, hNext⟩
        simp only [Except.ok.injEq, Prod.mk.injEq] at hNext
        exact ⟨hNext.1.symm, hNext.2.symm⟩
      · simp only [Except.ok.injEq, Prod.mk.injEq] at hNext
        exact ⟨hNext.1.symm, hNext.2.symm⟩
  rwa [hSame.1, hSame.2]

theorem evalChecksig_eq_ok
    (hNext : (m.evalChecksig env signature pubkey).out = .ok (success, next)) :
    Paid env m signature success next := by
  cases hVer : env.sigVersion with
  | tapscript =>
    simp only [evalChecksig, hVer] at hNext
    exact evalChecksigTapscript_eq_ok hVer hNext
  | base | witnessV0 =>
    simp only [evalChecksig, hVer, out_bind,
      out_pure, bind_eq_ok, Except.ok.injEq, Prod.mk.injEq] at hNext
    rcases hNext with ⟨_, _, _, rfl⟩
    exact ⟨by simp [chargedExec, hVer], by simp [hVer], by simp [hVer]⟩

theorem charged_spec (exec : TapscriptExec) (success : Bool) :
    (exec.charged success).annex = exec.annex ∧
      exec.validationWeightLeft - 50 ≤ (exec.charged success).validationWeightLeft ∧
      (success = false →
        (exec.charged success).validationWeightLeft = exec.validationWeightLeft) := by
  have hPassed : validationWeightPerSigopPassed = 50 := rfl
  cases success <;> simp [TapscriptExec.charged, hPassed]

theorem Paid.tapscript (hPaid : Paid env m signature success next) :
    next.exec.tapscript.isSome = m.exec.tapscript.isSome := by
  rw [hPaid.same, chargedExec]
  split <;> simp

theorem Paid.validExec (hPaid : Paid env m signature success next) (hValid : ValidExec m.exec) :
    ValidExec next.exec := by
  by_cases hVer : env.sigVersion = .tapscript
  · intro exec hExec
    have hBudget := hPaid.budget hVer
    rw [hPaid.same] at hBudget hExec
    simp only [chargedExec, hVer, if_true, Option.mem_def, Option.map_eq_some_iff] at hExec hBudget
    rcases hExec with ⟨tapscript, hTap, rfl⟩
    rcases hValid tapscript hTap with ⟨hWeight, hAnnex⟩
    rcases charged_spec tapscript (!signature.isEmpty) with ⟨hSame, _, hFree⟩
    rw [hSame]
    refine ⟨?_, hAnnex⟩
    by_cases hEmpty : signature = []
    · rwa [hFree (by simp [hEmpty])]
    · exact hBudget hEmpty _ ⟨tapscript, hTap, rfl⟩
  · have hSame : next.exec = m.exec := by
      rw [hPaid.same]
      simp [chargedExec, hVer]
    rwa [hSame]

/- The caller of a signature check then replaces the stack. -/
theorem Paid.opStep (hPaid : Paid env m signature success next) (stack : Stack) :
    OpStep env m { next with stack := stack } where
  conditions := by rw [hPaid.same]
  opCount := by rw [hPaid.same]
  counted := by rw [hPaid.same]; exact id
  tapscript := hPaid.tapscript
  validExec := hPaid.validExec
  codesepStart := by rw [hPaid.same]; exact id

/- What a signature opcode relies on. -/
structure SigReady (env : Env K) (m : Machine) : Prop where
  codesepStart : m.codesepStart ≤ env.script.length
  tapscript : m.exec.tapscript.isSome ↔ env.sigVersion = .tapscript
  validExec : ValidExec m.exec
  inputs : env.checker.tx.input.length ≤ 2 ^ 32

/- The same, with nothing asked of the checker but that it returns. -/
structure SigSafe (env : Env K) (m : Machine) : Prop where
  codesepStart : m.codesepStart ≤ env.script.length
  tapscript : m.exec.tapscript.isSome ↔ env.sigVersion = .tapscript
  budget : ∀ exec ∈ m.exec.tapscript, 0 ≤ exec.validationWeightLeft
  checker : ∀ exec ∈ m.exec.tapscript,
      ∀ signature pubkey spend,
        (env.checker.checkSchnorr signature pubkey spend exec.annex).Safe (fun _ => True)

theorem SigReady.sigSafe (hReady : SigReady env m) : SigSafe env m where
  codesepStart := hReady.codesepStart
  tapscript := hReady.tapscript
  budget := fun exec hExec => (hReady.validExec exec hExec).1
  checker := fun exec hExec signature pubkey spend =>
    env.checker.checkSchnorr_safe signature pubkey spend
      hReady.inputs (hReady.validExec exec hExec).2

theorem evalChecksigTapscript_safe (signature pubkey : Bytes)
    (hVer : env.sigVersion = .tapscript) (hSafe : SigSafe env m) :
    (m.evalChecksigTapscript env signature pubkey).out.Safe (fun _ => True) := by
  rcases Option.isSome_iff_exists.mp (hSafe.tapscript.mpr hVer) with ⟨tapscript, hTap⟩
  have hWeight := hSafe.budget tapscript hTap
  have hChecker := hSafe.checker tapscript hTap
  unfold evalChecksigTapscript
  simp only [out_bind, out_lift, hTap, expect_some, ok_bind]
  rcases charged_spec tapscript (!signature.isEmpty) with ⟨hSameAnnex, hCharge, _⟩
  rw [← hSameAnnex] at hChecker
  generalize tapscript.charged (!signature.isEmpty) = charged at hChecker hCharge ⊢
  refine safe_bind.mpr (safe_assert.mpr ⟨?_, ?_⟩)
  · unfold i64Min
    omega
  refine safe_ensure_bind fun _ => ?_
  refine safe_ensure_bind fun _ => ?_
  cases FixedBytes.ofBytes? 32 pubkey with
  | none => trivial
  | some key =>
    simp only [out_ite, out_bind, out_call, out_lift, out_pure, ok_bind]
    refine Safe.ite (fun _ => ?_) fun _ => trivial
    exact (hChecker signature key _).bind fun _ _ => trivial

theorem evalChecksig_safe (signature : Element) (pubkey : Bytes) (hSafe : SigSafe env m) :
    (m.evalChecksig env signature.val pubkey).out.Safe (fun _ => True) := by
  cases hVer : env.sigVersion with
  | tapscript =>
    simp only [evalChecksig, hVer]
    exact evalChecksigTapscript_safe _ _ hVer hSafe
  | base | witnessV0 =>
    simp only [evalChecksig, hVer, out_bind, out_pure]
    exact (evalChecksigPreTapscript_safe signature _
      (by simp [hVer]) hSafe.codesepStart).bind (fun _ _ => trivial)

theorem checksig_safe (opcode : UInt8) (hSafe : SigSafe env m) :
    (m.checksig env opcode).out.Safe (OpStep env m) := by
  rcases hItems : m.stack with ⟨_ | ⟨key, _ | ⟨sig, rest⟩⟩⟩
  · simp [checksig, require, hItems]
  · simp [checksig, require, hItems]
  unfold checksig
  simp only [out_bind, out_lift, out_ite, out_pure, hItems, pop_cons, ok_bind]
  refine safe_ensure_bind fun _ => ?_
  refine (evalChecksig_safe sig key.val hSafe).bind_eq ?_
  rintro ⟨success, next⟩ hEval _
  have hPaid := evalChecksig_eq_ok hEval
  simp only [pushBool_eq, ok_bind, pop_cons]
  refine Safe.ite (fun _ => ?_) fun _ => hPaid.opStep _
  refine safe_ensure_bind fun _ => ?_
  exact hPaid.opStep _

theorem checksigadd_safe (hSafe : SigSafe env m) : (m.checksigadd env).out.Safe (OpStep env m) := by
  unfold checksigadd
  simp only [out_bind, out_lift, out_pure]
  refine safe_ensure_bind fun _ => ?_
  rcases hItems : m.stack with ⟨_ | ⟨key, _ | ⟨num, _ | ⟨sig, rest⟩⟩⟩⟩
  · simp [require]
  · simp [require]
  · simp [require]
  refine safe_ensure_bind fun _ => ?_
  simp only [pop_cons, ok_bind, top_of_le ⟨num :: sig :: rest⟩ (Nat.le_refl 1) (by simp)]
  refine (ScriptNum.decode_safe num.val (by decide)).bind ?_
  intro n hSmall
  refine (evalChecksig_safe sig key.val hSafe).bind_eq ?_
  rintro ⟨success, next⟩ hEval _
  have hPaid := evalChecksig_eq_ok hEval
  have hBool : (ScriptNum.fromBool success).value.natAbs < 2 ^ 62 :=
    Nat.lt_of_le_of_lt (ScriptNum.natAbs_fromBool_le success) (by decide)
  refine (ScriptNum.add_safe (by omega) hBool).bind ?_
  intro sum _
  rw [← bind_assoc]
  refine (push_encode_safe sum ⟨rest⟩).bind ?_
  intro stack _
  exact hPaid.opStep stack

/- The counts are in range, and the operands are there. -/
theorem multisigCounts_safe (m : Machine) :
    m.multisigCounts.Safe (fun result => result.1 ≤ maxPubkeysPerMultisig ∧
        result.2.1 = { m with opCount := m.opCount + result.1 } ∧
        m.opCount + result.1 ≤ maxOpsPerScript ∧
        result.2.2.1 = 3 + result.1 ∧
        result.2.2.2 ≤ result.1) := by
  have hMax : maxPubkeysPerMultisig = 20 := rfl
  unfold multisigCounts countFrom
  refine safe_ensure_bind fun hOne => ?_
  rw [top_of_le m.stack (Nat.le_refl 1) hOne, ok_bind]
  refine (ScriptNum.decode_safe _ (by decide)).bind ?_
  intro keyNum _
  generalize keyNum.toClampedI32 = keyCount
  refine safe_ensure_bind fun hKeys => ?_
  simp only [safe_bind, safe_assert, safe_ensure, pure_eq_ok, safe_ok, require]
  refine ⟨hKeys.1, ?_⟩
  intro hOps hDepth
  rw [top_of_le m.stack (by omega) hDepth, safe_ok]
  refine (ScriptNum.decode_safe _ (by decide)).mono ?_
  intro sigNum _
  generalize sigNum.toClampedI32 = sigCount
  intro hSigs
  refine ⟨hSigs.1, ?_, trivial, hOps, ?_, ?_⟩ <;> omega

theorem multisigScriptCode_safe {isig sigCount : Nat} (hLow : 1 ≤ isig)
    (hHigh : isig + sigCount ≤ m.stack.items.length)
    (hCodesep : m.codesepStart ≤ env.script.length) :
    (m.multisigScriptCode env isig sigCount).Safe (fun _ => True) := by
  unfold multisigScriptCode
  refine (scriptCode_safe hCodesep).bind ?_
  intro code _
  refine Safe.ite (fun _ => ?_) fun _ => trivial
  refine safe_foldlM trivial ?_
  intro k hMem code _
  have hBelow := List.mem_range.mp hMem
  rw [top_of_le m.stack (by omega) (by omega), ok_bind]
  rcases element_pushEncoding (m.stack.items.get _) with ⟨pattern, hPattern, hDelete⟩
  rcases hDelete code with ⟨kept, hKept⟩
  rw [hPattern, ok_bind, hKept]
  trivial

/- Every iteration uses up a key, and there are never more signatures than keys left. -/
theorem checkmultisigVerify_safe (code : Script) {fuel ikey isig keysLeft sigsLeft : Nat}
    (hVer : env.sigVersion ≠ .tapscript) (hFuel : keysLeft ≤ fuel) (hSigs : sigsLeft ≤ keysLeft)
    (hKeyLow : 1 ≤ ikey) (hSigLow : 1 ≤ isig)
    (hKeyHigh : ikey + keysLeft ≤ m.stack.items.length + 1)
    (hSigHigh : isig + sigsLeft ≤ m.stack.items.length + 1) :
    (m.checkmultisigVerify env code fuel ikey isig keysLeft sigsLeft).out.Safe (fun _ => True) := by
  induction fuel generalizing ikey isig keysLeft sigsLeft with
  | zero =>
    have hNone : sigsLeft = 0 := by omega
    unfold checkmultisigVerify
    simp [hNone]
  | succ fuel ih =>
    unfold checkmultisigVerify checkEcdsa
    rw [out_ite]
    refine Safe.ite (fun _ => trivial) fun hLeft => ?_
    simp only [out_bind, out_lift, out_call, out_ite, out_pure, ok_bind]
    rw [top_of_le m.stack hSigLow (by omega),
      top_of_le m.stack hKeyLow (by omega), ok_bind, ok_bind]
    refine (checkSignatureEncoding_safe _ _).bind ?_
    intro _ _
    rcases env.checker.checkEcdsa_returns _ _ code hVer with ⟨ok, hOk⟩
    rw [hOk, ok_bind]
    refine safe_bind.mpr (safe_assert.mpr ⟨by omega, ?_⟩)
    refine Safe.ite (fun _ => trivial) fun hEnough => ?_
    cases ok with
    | true =>
      simp only [if_true] at hEnough ⊢
      exact ih (by omega) (by omega) (by omega) (by omega) (by omega) (by omega)
    | false =>
      simp only [Bool.false_eq_true, if_false] at hEnough ⊢
      exact ih (by omega) (by omega) (by omega) hSigLow (by omega) (by omega)

theorem popMany_safe {count : Nat} {stack : Stack} (hCount : count ≤ stack.items.length) :
    (popMany count stack).Safe (fun next => next.items.length + count = stack.items.length) := by
  induction count generalizing stack with
  | zero => simp [popMany]
  | succ count ih =>
    unfold popMany
    refine (pop_safe (by omega)).bind ?_
    rintro ⟨item, rest⟩ hRest
    simp only at hRest
    refine (ih (by omega)).mono ?_
    intro next hNext
    omega

theorem multisigFinish_safe (opcode : UInt8) {i : Nat} (success : Bool)
    (hHigh : i ≤ m.stack.items.length) :
    (m.multisigFinish env opcode i success).Safe (OnlyStacks m) := by
  unfold multisigFinish
  refine (popMany_safe (by omega)).bind ?_
  rintro ⟨_ | ⟨dummy, rest⟩⟩ _
  · simp [require]
  simp only [require, safe_bind, safe_ensure, pop_cons, safe_ok, pushBool_eq,
    top_of_le ⟨dummy :: rest⟩ (Nat.le_refl 1) (by simp)]
  intro _ _
  refine Safe.ite (fun _ => ?_) fun _ => ?_
  · simp [safe_bind, OnlyStacks]
  · exact ⟨_, _, rfl⟩

theorem checkmultisig_safe (opcode : UInt8) (hSafe : SigSafe env m) :
    (m.checkmultisig env opcode).out.Safe (OpStep env m) := by
  unfold checkmultisig
  simp only [out_bind, out_lift]
  refine safe_ensure_bind fun hVer => ?_
  refine m.multisigCounts_safe.bind ?_
  rintro ⟨keyCount, counted, isig, sigCount⟩ ⟨hKeys, hCounted, hOps, hIsig, hSigs⟩
  dsimp only at hKeys hCounted hOps hIsig hSigs ⊢
  have hCodesep : counted.codesepStart ≤ env.script.length := by
    rw [hCounted]
    exact hSafe.codesepStart
  refine safe_ensure_bind fun hDepth => ?_
  refine (multisigScriptCode_safe (by omega) hDepth hCodesep).bind ?_
  intro code _
  have hKeyHigh : 2 + keyCount ≤ counted.stack.items.length + 1 := by omega
  have hSigHigh : isig + sigCount ≤ counted.stack.items.length + 1 := by omega
  generalize maxPubkeysPerMultisig = fuel at hKeys ⊢
  refine (checkmultisigVerify_safe code hVer hKeys hSigs
    (by omega) (by omega) hKeyHigh hSigHigh).bind ?_
  intro success _
  refine (multisigFinish_safe opcode success hDepth).mono ?_
  rintro final ⟨stack, altstack, rfl⟩
  rw [hCounted]
  exact ⟨rfl, Nat.le_add_right _ _, fun _ => hOps, rfl, id, id⟩

--------
-- Conditionals
--------

/- What a conditional may do: change the nest by at most one level and pop its argument. -/
structure NestStep (m next : Machine) : Prop where
  same : next =
      { m with
        stack := next.stack
        conditions := next.conditions }
  depth : next.conditions.depth ≤ m.conditions.depth + 1
  stack : next.stack.len ≤ m.stack.len

theorem branchValue_safe (sigVersion : SigVersion) (opcode : UInt8) (stack : Stack) :
    (branchValue sigVersion opcode stack).Safe (fun result => result.2.len ≤ stack.len) := by
  rcases stack with ⟨_ | ⟨argument, rest⟩⟩
  · simp [branchValue, require]
  unfold branchValue
  simp only [require, safe_bind, safe_ensure, pop_cons, safe_ok, pure_eq_ok,
    top_of_le ⟨argument :: rest⟩ (Nat.le_refl 1) (by simp)]
  intro _ _
  exact Nat.le_succ _

theorem branch_none_safe (env : Env K) (m : Machine) (opcode : UInt8) (executing : Bool) :
    (m.branch none env opcode executing).Safe (NestStep m) := by
  unfold branch
  refine Safe.bind (Q := fun result => result.2.len ≤ m.stack.len) ?_ ?_
  · refine Safe.ite (fun _ => ?_) (fun _ => Nat.le_refl _)
    exact branchValue_safe _ opcode m.stack
  · rintro ⟨value, stack⟩ hStack
    simp only [ConditionStack.push, Option.not_mem_none, false_implies, implies_true, assert_true,
      ok_bind, pure_eq_ok, safe_ok]
    exact ⟨rfl, Nat.le_refl _, hStack⟩

theorem toggleTop_safe (hOpen : ¬ conditions.isEmpty) :
    conditions.toggleTop.Safe (fun next => next.depth = conditions.depth) := by
  have hPos : 0 < conditions.depth := by
    simp [ConditionStack.isEmpty] at hOpen
    omega
  simp [ConditionStack.toggleTop, hPos]

theorem pop_conditions_safe (hOpen : ¬ conditions.isEmpty) :
    conditions.pop.Safe (fun next => next.depth ≤ conditions.depth) := by
  have hPos : 0 < conditions.depth := by
    simp [ConditionStack.isEmpty] at hOpen
    omega
  simp [ConditionStack.pop, hPos, ConditionStack.closed]

theorem executeConditional_none_safe (env : Env K) (m : Machine) (byte : UInt8) (executing : Bool) :
    (m.executeConditional none env byte executing).Safe (NestStep m) := by
  unfold executeConditional
  refine Safe.ite (fun _ => ?_) fun _ => ?_
  · exact branch_none_safe env m byte executing
  refine Safe.ite (fun _ => ?_) fun _ => ?_
  · refine safe_ensure_bind fun hOpen => ?_
    refine (toggleTop_safe hOpen).bind ?_
    intro next hDepth
    exact ⟨rfl, Nat.le_succ_of_le (Nat.le_of_eq hDepth), Nat.le_refl _⟩
  · refine safe_ensure_bind fun hOpen => ?_
    refine (pop_conditions_safe hOpen).bind ?_
    intro next hDepth
    exact ⟨rfl, Nat.le_succ_of_le hDepth, Nat.le_refl _⟩

--------
-- One Iteration
--------

/- What holds between opcodes. -/
structure Inv (env : Env K) (m : Machine) : Prop where
  ready : SigReady env m
  stackLen : m.stack.len < 2 ^ 63
  -- Every other version checks the size after each opcode
  -- only, and may start above it.
  tapscriptStack : env.sigVersion = .tapscript → m.stack.len + m.altstack.len ≤ maxStackSize
  opCount : m.opCount ≤ maxOpsPerScript
  depth : countsOps env.sigVersion → m.conditions.depth ≤ m.opCount

theorem OpStep.sigReady (hStep : OpStep env m next) (hReady : SigReady env m) :
    SigReady env next where
  codesepStart := hStep.codesepStart hReady.codesepStart
  tapscript := hStep.tapscript ▸ hReady.tapscript
  validExec := hStep.validExec hReady.validExec
  inputs := hReady.inputs

theorem NestStep.sigReady (hStep : NestStep m next) (hReady : SigReady env m) :
    SigReady env next := by
  rw [hStep.same]
  exact ⟨hReady.codesepStart, hReady.tapscript, hReady.validExec, hReady.inputs⟩

/- An executed opcode is a conditional, or it leaves the nest alone. -/
theorem execute_none_safe (executing : Bool) (opcodeIndex : Nat) (hSafe : SigSafe env m)
    (hLen : m.stack.len < 2 ^ 63) (hStop : op.stop ≤ env.script.length) :
    (m.execute none env op executing opcodeIndex).out.Safe
      (fun next => OpStep env m next ∨ (op.opcode.isConditional ∧ NestStep m next)) := by
  unfold execute
  simp only [out_ite, out_lift]
  refine Safe.ite (fun hByte => ?_) fun _ => ?_
  · have hConditional : op.opcode.isConditional := by
      rcases hByte with hByte | hByte | hByte | hByte <;>
        rw [Opcode.isConditional, hByte] <;> decide
    exact (executeConditional_none_safe env m _ _).mono fun _ hNest => Or.inr ⟨hConditional, hNest⟩
  refine Safe.ite (fun _ => ?_) fun _ => ?_
  · exact (checksig_safe _ hSafe).mono fun _ => Or.inl
  refine Safe.ite (fun _ => ?_) fun _ => ?_
  · exact (checksigadd_safe hSafe).mono fun _ => Or.inl
  refine Safe.ite (fun _ => ?_) fun _ => ?_
  · exact (checkmultisig_safe _ hSafe).mono fun _ => Or.inl
  · exact (executePlain_safe opcodeIndex hLen hStop).mono fun _ => Or.inl

end Machine

open Machine

/- An opcode of a script, as the interpreter's loop reads it. -/
structure OpOf (script : Script) (op : Op) (reader : Reader) :
    Prop where
  stop : op.stop ≤ script.length
  opsRead : 0 < reader.opsRead

theorem dispatch_none_safe (hSize : op.push.length ≤ maxScriptElementSize) (hSafe : SigSafe env m)
    (hLen : m.stack.len < 2 ^ 63) (hOp : OpOf env.script op reader) :
    (dispatch none env m op reader).out.Safe
      (fun next => OpStep env m next ∨ (op.opcode.isConditional ∧ NestStep m next)) := by
  unfold dispatch
  simp only [out_ite, out_bind, out_lift, out_pure]
  refine Safe.ite (fun _ => ?_) fun _ => ?_
  · rw [push_of_le hSize]
    exact Or.inl (OnlyStacks.opStep ⟨_, _, rfl⟩)
  refine Safe.ite (fun _ => ?_) fun _ => Or.inl (OpStep.refl env m)
  refine Safe.bind (Q := fun _ => True) ?_ ?_
  · simp [Reader.opcodeIndex, hOp.opsRead]
  · intro opcodeIndex _
    exact execute_none_safe _ opcodeIndex hSafe hLen hOp.stop

/- Counting an opcode makes room for one more conditional. -/
theorem countOp_safe (op : Op) (hInv : Inv env m) :
    (countOp env m op).Safe (fun next => next = { m with opCount := next.opCount } ∧
        next.opCount ≤ maxOpsPerScript ∧
        m.opCount ≤ next.opCount ∧
        (countsOps env.sigVersion →
          op.opcode.isConditional → m.conditions.depth + 1 ≤ next.opCount)) := by
  unfold countOp
  refine Safe.ite (fun hCounts => ?_) fun hSkips => ?_
  · refine safe_ensure_bind fun hMax => ?_
    refine ⟨rfl, hMax, Nat.le_succ _, ?_⟩
    intro hVer _
    exact Nat.succ_le_succ (hInv.depth hVer)
  · refine ⟨rfl, hInv.opCount, Nat.le_refl _, ?_⟩
    intro hVer hConditional
    simp only [hVer, Bool.true_and, Opcode.countsTowardOpLimit, Opcode.isConditional]
      at hSkips hConditional
    grind

/- One iteration without the bound keeps the invariant. -/
theorem evalStep_none_safe (hInv : Inv env m) (hOp : OpOf env.script op reader) :
    (evalStep none env m op reader).out.Safe (Inv env) := by
  have hMax : maxStackSize = 1000 := rfl
  unfold evalStep
  simp only [out_bind, out_lift, out_pure]
  refine safe_ensure_bind fun hSize => ?_
  refine (countOp_safe op hInv).bind ?_
  rintro counted ⟨hCounted, hOps, hMore, hRoom⟩
  have hReady : SigReady env counted := by
    rw [hCounted]
    exact ⟨hInv.ready.codesepStart, hInv.ready.tapscript, hInv.ready.validExec, hInv.ready.inputs⟩
  have hConds : counted.conditions = m.conditions := by rw [hCounted]
  have hLen : counted.stack.len < 2 ^ 63 := by
    rw [hCounted]
    exact hInv.stackLen
  refine safe_ensure_bind fun _ => ?_
  refine (dispatch_none_safe hSize hReady.sigSafe hLen hOp).bind ?_
  intro next hNext
  refine safe_ensure_bind fun hStack => ?_
  rcases hNext with hStep | ⟨hConditional, hNest⟩
  · refine ⟨hStep.sigReady hReady, by omega, fun _ => hStack, hStep.counted hOps, ?_⟩
    intro hVer
    rw [hStep.conditions, hConds]
    have := hInv.depth hVer
    have := hStep.opCount
    omega
  · have hCount : next.opCount = counted.opCount := by rw [hNest.same]
    refine ⟨hNest.sigReady hReady, by omega, fun _ => hStack, hCount ▸ hOps, ?_⟩
    intro hVer
    have := hRoom hVer hConditional
    have hDepth := hNest.depth
    rw [hConds] at hDepth
    omega

end Bitmigo
