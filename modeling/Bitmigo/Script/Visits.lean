import Bitmigo.Script.SigopBound

/-
  What a run of the interpreter went through, opcode by opcode, and what each opcode left.

  Key definitions include:
    * `visits`, the opcodes a run got past
    * `machineAfter`, where they leave the machine
    * `Machine.signs`, an executed check of a signature
    * `Machine.separates`, an executed separator
    * `Effect`, what an opcode does besides its stacks

  Key theorems include:
    * `visits_induction`, the invariant rule for runs
    * `evalStep_effect`, every opcode has its effect

  The two rules later proofs use: one about a step, one about the runs made of such steps.
-/

namespace Bitmigo

open Result Traced Stack

variable {K : Primitives} {env : Env K} {limit : Option Nat} {m next : Machine}
variable {op : Op} {reader : Reader} {steps : List (Result ScriptError (Op × Reader))}

--------
-- The Opcodes of a Run
--------

/- An opcode a run got past, and the machines around it. -/
structure Visit where
  before : Machine
  op : Op
  after : Machine

/- The opcodes a run gets past before it ends or stops. -/
def visits (limit : Option Nat) (env : Env K) (steps : List (Result ScriptError (Op × Reader)))
    (m : Machine) : List Visit :=
  match steps with
  | [] => []
  | .error _ :: _ => []
  | .ok (op, reader) :: rest =>
    match (evalStep limit env m op reader).out with
    | .error _ => []
    | .ok next => ⟨m, op, next⟩ :: visits limit env rest next

/- Where these opcodes leave a machine that started here. -/
def machineAfter (start : Machine) (seen : List Visit) : Machine :=
  (seen.getLast?.map Visit.after).getD start

@[simp] theorem machineAfter_cons (start : Machine) (visit : Visit) (seen : List Visit) :
    machineAfter start (visit :: seen) = machineAfter visit.after seen := by
  cases seen with
  | nil => rfl
  | cons next rest => simp [machineAfter, List.getLast?_eq_some_getLast]

theorem visits_cons (rest : List (Result ScriptError (Op × Reader)))
    (hStep : (evalStep limit env m op reader).out = .ok next) :
    visits limit env (.ok (op, reader) :: rest) m =
      ⟨m, op, next⟩ :: visits limit env rest next := by
  rw [visits, hStep]

/- The first opcode of a run, when it got past one. -/
theorem exists_of_visits_eq_cons {visit : Visit} {later : List Visit}
    (hVisits : visits limit env steps m = visit :: later) :
    ∃ op reader rest next, steps = .ok (op, reader) :: rest ∧
      (evalStep limit env m op reader).out = .ok next ∧ visit = ⟨m, op, next⟩ ∧
      later = visits limit env rest next := by
  rcases steps with _ | ⟨_ | ⟨op, reader⟩, rest⟩
  · cases hVisits
  · cases hVisits
  cases hStep : (evalStep limit env m op reader).out with
  | error halt =>
    rw [visits, hStep] at hVisits
    cases hVisits
  | ok next =>
    rw [visits_cons rest hStep, List.cons.injEq] at hVisits
    exact ⟨op, reader, rest, next, rfl, hStep, hVisits.1.symm, hVisits.2.symm⟩

/- What holds at the start and is kept by every opcode of the script holds wherever the run gets. -/
theorem visits_induction {start : Machine} {P : List Visit → Machine → Prop} (hStart : P [] start)
    (hStep : ∀ seen m op reader next, P seen m → .ok (op, reader) ∈ steps →
      (evalStep limit env m op reader).out = .ok next → P (seen ++ [⟨m, op, next⟩]) next)
    {seen : List Visit} (hSeen : seen <+: visits limit env steps start) :
    P seen (machineAfter start seen) := by
  induction seen generalizing steps start P with
  | nil => exact hStart
  | cons visit seen ih =>
    rcases hSeen with ⟨later, hVisits⟩
    rcases exists_of_visits_eq_cons hVisits.symm with
      ⟨op, reader, rest, next, rfl, hFst, rfl, hRest⟩
    rw [machineAfter_cons]
    -- The invariant of the rest has this opcode behind it.
    refine ih (P := fun seen m => P (⟨_, op, next⟩ :: seen) m) ?_ ?_ ⟨later, hRest⟩
    · exact hStep [] _ op reader next hStart List.mem_cons_self hFst
    · intro seen m op reader next hSeen hRead hNext
      exact hStep _ m op reader next hSeen (List.mem_cons_of_mem _ hRead) hNext

--------
-- Signatures and Separators
--------

namespace Machine

variable {m next : Machine} {env : Env K} {byte : UInt8} {op : Op} {limit : Option Nat}

/- Where an opcode finds the signature it checks. -/
def signatureDepth (byte : UInt8) : Option Nat :=
  if byte = opChecksig ∨ byte = opChecksigverify then
    some 2
  else if byte = opChecksigadd then
    some 3
  else
    none

/- The signature on the stack that an opcode checks. -/
def signature (m : Machine) (byte : UInt8) : Option Bytes := do
  let depth ← signatureDepth byte
  let item ← m.stack.items[depth - 1]?
  return item.val

/-
  An executed `OP_CHECKSIG`, `OP_CHECKSIGVERIFY` or `OP_CHECKSIGADD` with a signature that is not
  empty.
-/
def signs (m : Machine) (op : Op) : Bool :=
  m.conditions.allTrue &&
    (m.signature op.opcode.byte).any fun bytes =>
      !bytes.isEmpty

/- An executed `OP_CODESEPARATOR`. -/
def separates (m : Machine) (op : Op) : Bool :=
  m.conditions.allTrue && op.opcode.byte == opCodeseparator

/- The budget after an opcode of tapscript. -/
def chargedFor (sigVersion : SigVersion) (m : Machine) (op : Op) : Option TapscriptExec :=
  if sigVersion = .tapscript ∧ m.signs op then
    m.exec.tapscript.map (·.charged true)
  else
    m.exec.tapscript

theorem signature_of_depth (depth : Nat) {item : Element}
    (hDepth : signatureDepth byte = some depth) (hItem : m.stack.items[depth - 1]? = some item) :
    m.signature byte = some item.val := by
  simp [signature, hDepth, hItem]

theorem signs_of_depth_none (m : Machine) (hDepth : signatureDepth op.opcode.byte = none) :
    m.signs op = false := by
  simp [signs, signature, hDepth]

theorem separates_of_ne (m : Machine) (hByte : op.opcode.byte ≠ opCodeseparator) :
    m.separates op = false := by
  simp [separates, hByte]

--------
-- What an Opcode Leaves
--------

/- What an opcode does besides its stacks and branches. -/
structure Effect (env : Env K) (m : Machine) (op : Op)
    (next : Machine) : Prop where
  codesepStart : next.codesepStart =
      if m.separates op then op.stop else m.codesepStart
  tapscript : next.exec.tapscript = m.chargedFor env.sigVersion op
  budget : env.sigVersion = .tapscript → m.signs op →
      ∀ exec ∈ next.exec.tapscript, 0 ≤ exec.validationWeightLeft
  uncounted : env.sigVersion = .tapscript → next.opCount = m.opCount
  counted : m.opCount ≤ maxOpsPerScript →
      next.opCount ≤ maxOpsPerScript

/- An opcode that neither signs nor separates. -/
theorem Effect.quiet (hSigns : m.signs op = false) (hSeparates : m.separates op = false)
    (hStart : next.codesepStart = m.codesepStart) (hExec : next.exec = m.exec)
    (hCount : next.opCount = m.opCount) : Effect env m op next where
  codesepStart := by simp [hSeparates, hStart]
  tapscript := by simp [chargedFor, hSigns, hExec]
  budget := by simp [hSigns]
  uncounted := fun _ => hCount
  counted := fun hMax => hCount ▸ hMax

/- The charge of a signature check is that of its opcode. -/
theorem Paid.effect {signature : Element} {success : Bool}
    (hExecuting : m.conditions.allTrue = true) (hSeparates : m.separates op = false)
    (hSig : m.signature op.opcode.byte = some signature.val)
    (hPaid : Paid env m signature.val success next) (stack : Stack) :
    Effect env m op { next with stack := stack } := by
  have hSigns : m.signs op = !signature.val.isEmpty := by simp [signs, hExecuting, hSig]
  refine ⟨?_, ?_, ?_, ?_, ?_⟩
  · rw [hSeparates, hPaid.same]
    rfl
  · rw [hPaid.same]
    by_cases hVer : env.sigVersion = .tapscript
    · cases hEmpty : signature.val.isEmpty <;>
        simp [chargedExec, chargedFor, hVer, hSigns, hEmpty, TapscriptExec.charged]
    · simp [chargedExec, chargedFor, hVer]
  · intro hVer hPays
    refine hPaid.budget hVer ?_
    simpa [hSigns] using hPays
  · intro _
    rw [hPaid.same]
  · intro hMax
    rwa [hPaid.same]

theorem checksig_eq_ok (hNext : (m.checksig env byte).out = .ok next) :
    ∃ key signature rest success charged stack, m.stack.items = key :: signature :: rest ∧
      Paid env m signature.val success charged ∧
      next = { charged with stack := stack } := by
  simp only [checksig, out_bind, out_lift, out_ite, out_pure, bind_eq_ok] at hNext
  rcases hNext with ⟨_, _, ⟨key, below⟩, hKey, ⟨signature, rest⟩,
    hSig, ⟨success, charged⟩, hEval, stack, _, hNext⟩
  have hItems : m.stack.items = key :: signature :: rest.items := by
    rw [pop_eq_ok.mp hKey, pop_eq_ok.mp hSig]
  have hPaid := evalChecksig_eq_ok hEval
  split at hNext
  · simp only [bind_eq_ok, Except.ok.injEq] at hNext
    rcases hNext with ⟨_, _, ⟨_, last⟩, _, rfl⟩
    exact ⟨key, signature, rest.items, success, charged, last, hItems, hPaid, rfl⟩
  · cases hNext
    exact ⟨key, signature, rest.items, success, charged, stack, hItems, hPaid, rfl⟩

/- An addition decodes the number under its key. -/
theorem checksigadd_eq_ok (hNext : (m.checksigadd env).out = .ok next) :
    env.sigVersion = .tapscript ∧
    ∃ key operand signature rest success charged stack,
      m.stack.items = key :: operand :: signature :: rest ∧
      Paid env m signature.val success charged ∧
      next = { charged with stack := stack } ∧
      ∃ n sum item, ScriptNum.decode operand.val scriptnumSizeMax = .ok n ∧
        n.add (.fromBool success) = .ok sum ∧
        sum.encode = .ok item ∧
        Stack.push ⟨rest⟩ item = .ok stack := by
  simp only [checksigadd, out_bind, out_lift,
    out_pure, bind_eq_ok, ensure_eq_ok, Except.ok.injEq] at hNext
  rcases hNext with ⟨_, hVer, _, _, ⟨key, below⟩, hKey,
    operand, hOperand, n, hNum, ⟨popped, lower⟩, hPopped,
    ⟨signature, rest⟩, hSig, ⟨success, charged⟩, hEval,
    sum, hSum, item, hItem, stack, hPush, rfl⟩
  have hBelow := pop_eq_ok.mp hPopped
  rw [top_one_of_items hBelow] at hOperand
  cases hOperand
  refine ⟨hVer, key, operand, signature, rest.items,
    success, charged, stack, ?_, evalChecksig_eq_ok hEval, rfl,
    n, sum, item, hNum, hSum, hItem, hPush⟩
  rw [pop_eq_ok.mp hKey, hBelow, pop_eq_ok.mp hSig]

theorem multisigFinish_eq_ok {i : Nat} {success : Bool}
    (hNext : m.multisigFinish env byte i success = .ok next) :
    ∃ stack, next = { m with stack := stack } := by
  simp only [multisigFinish, bind_eq_ok, pure_eq_ok] at hNext
  rcases hNext with ⟨_, _, _, _, _, _, _, _, ⟨_, _⟩, _, stack, _, hNext⟩
  split at hNext
  · simp only [bind_eq_ok, Except.ok.injEq] at hNext
    rcases hNext with ⟨_, _, ⟨_, last⟩, _, rfl⟩
    exact ⟨last, rfl⟩
  · cases hNext
    exact ⟨stack, rfl⟩

/- A multisig adds its keys to the opcodes counted. -/
theorem checkmultisig_eq_ok (hNext : (m.checkmultisig env byte).out = .ok next) :
    env.sigVersion ≠ .tapscript ∧
    ∃ keyCount counted isig sigCount stack,
      m.multisigCounts = .ok (keyCount, counted, isig, sigCount) ∧
      next = { counted with stack := stack } := by
  simp only [checkmultisig, out_bind, out_lift, bind_eq_ok, ensure_eq_ok] at hNext
  rcases hNext with ⟨_, hVer, ⟨keyCount, counted, isig, sigCount⟩, hCounts, _, _, _, _, _, _, hNext⟩
  rcases multisigFinish_eq_ok hNext with ⟨stack, rfl⟩
  exact ⟨hVer, keyCount, counted, isig, sigCount, stack, hCounts, rfl⟩

theorem branch_eq_ok {executing : Bool} (hNext : m.branch limit env byte executing = .ok next) :
    ∃ stack conditions, next = { m with stack := stack, conditions := conditions } := by
  simp only [branch, bind_eq_ok, pure_inj] at hNext
  rcases hNext with ⟨⟨_, stack⟩, _, conditions, _, rfl⟩
  exact ⟨stack, conditions, rfl⟩

theorem executeConditional_eq_ok {executing : Bool}
    (hNext : m.executeConditional limit env byte executing = .ok next) :
    ∃ stack conditions, next = { m with stack := stack, conditions := conditions } := by
  unfold executeConditional at hNext
  split at hNext
  · exact branch_eq_ok hNext
  split at hNext
  · simp only [bind_eq_ok, pure_inj] at hNext
    rcases hNext with ⟨_, _, conditions, _, rfl⟩
    exact ⟨m.stack, conditions, rfl⟩
  · simp only [bind_eq_ok, pure_inj] at hNext
    rcases hNext with ⟨_, _, conditions, _, rfl⟩
    exact ⟨m.stack, conditions, rfl⟩

theorem execute_effect {opcodeIndex : Nat}
    (hExecuting : (m.conditions.allTrue || op.opcode.isConditional) = true)
    (hNext : (m.execute limit env op m.conditions.allTrue opcodeIndex).out = .ok next) :
    Effect env m op next := by
  have hTrue (hByte : op.opcode.isConditional = false) : m.conditions.allTrue = true := by
    simpa [hByte] using hExecuting
  unfold execute at hNext
  simp only [out_ite, out_lift] at hNext
  split at hNext
  case isTrue hByte =>
    rcases executeConditional_eq_ok hNext with ⟨stack, conditions, rfl⟩
    refine .quiet ?_ ?_ rfl rfl rfl
    · refine m.signs_of_depth_none ?_
      rcases hByte with h | h | h | h <;> rw [h] <;> decide
    · refine m.separates_of_ne ?_
      rcases hByte with h | h | h | h <;> rw [h] <;> decide
  split at hNext
  case isTrue hByte =>
    rcases checksig_eq_ok hNext with
      ⟨key, signature, rest, success, charged, stack, hItems, hPaid, rfl⟩
    refine hPaid.effect (hTrue ?_) (m.separates_of_ne ?_) (signature_of_depth 2 ?_ ?_) stack
    · rcases hByte with h | h <;> rw [Opcode.isConditional, h] <;> decide
    · rcases hByte with h | h <;> rw [h] <;> decide
    · simp [signatureDepth, hByte]
    · simp [hItems]
  split at hNext
  case isTrue hByte =>
    rcases checksigadd_eq_ok hNext with
      ⟨_, key, operand, signature, rest, success, charged, stack, hItems, hPaid, rfl, _⟩
    refine hPaid.effect (hTrue ?_) (m.separates_of_ne ?_) (signature_of_depth 3 ?_ ?_) stack
    · rw [Opcode.isConditional, hByte]
      decide
    · rw [hByte]
      decide
    · rw [hByte]
      decide
    · simp [hItems]
  rename_i hNotSig hNotAdd
  have hSigns : m.signs op = false := m.signs_of_depth_none (by
      simp [signatureDepth, hNotSig, hNotAdd])
  split at hNext
  case isTrue hByte =>
    rcases checkmultisig_eq_ok hNext with
      ⟨hVer, keyCount, counted, isig, sigCount, stack, hCounts, rfl⟩
    rcases m.multisigCounts_safe.of_eq_ok hCounts with ⟨_, hCounted, hMax, _⟩
    dsimp only at hCounted hMax
    have hSeparates : m.separates op = false := m.separates_of_ne (by
        rcases hByte with h | h <;> rw [h] <;> decide)
    rw [hCounted]
    exact
      { codesepStart := by simp [hSeparates]
        tapscript := by simp [chargedFor, hSigns]
        budget := by simp [hSigns]
        uncounted := fun h => absurd h hVer
        counted := fun _ => hMax }
  case isFalse =>
    by_cases hByte : op.opcode.byte = opCodeseparator
    · rw [executePlain_separator env m opcodeIndex hByte] at hNext
      cases hNext
      have hSkips : op.opcode.isConditional = false := by
        rw [Opcode.isConditional, hByte]
        decide
      have hSeparates : m.separates op = true := by simp [separates, hByte, hTrue hSkips]
      exact
        { codesepStart := by simp [hSeparates]
          tapscript := by simp [chargedFor, hSigns]
          budget := by simp [hSigns]
          uncounted := fun _ => rfl
          counted := id }
    · rcases executePlain_eq_ok hByte hNext with ⟨stack, altstack, rfl⟩
      exact .quiet hSigns (m.separates_of_ne hByte) rfl rfl rfl

end Machine

open Machine

theorem dispatch_effect (hNext : (dispatch limit env m op reader).out = .ok next) :
    Effect env m op next := by
  unfold dispatch at hNext
  simp only [out_ite, out_bind, out_lift, out_pure] at hNext
  split at hNext
  case isTrue hPush =>
    simp only [bind_eq_ok, Except.ok.injEq] at hNext
    rcases hNext with ⟨stack, _, rfl⟩
    have hLow : op.opcode.byte ≤ opPushdata4 := by
      simpa [Opcode.isPush] using (Bool.and_eq_true_iff.mp hPush).2
    refine .quiet ?_ ?_ rfl rfl rfl
    · refine m.signs_of_depth_none ?_
      unfold signatureDepth
      rw [if_neg (by grind), if_neg (by grind)]
    · exact m.separates_of_ne (by grind)
  split at hNext
  case isTrue hExecuting =>
    rcases bind_eq_ok.mp hNext with ⟨opcodeIndex, _, hNext⟩
    exact execute_effect hExecuting hNext
  case isFalse hSkips =>
    cases hNext
    have hFalse : m.conditions.allTrue = false := by
      simp only [Bool.or_eq_true, not_or, Bool.not_eq_true] at hSkips
      exact hSkips.1
    exact .quiet (by simp [signs, hFalse]) (by simp [separates, hFalse]) rfl rfl rfl

theorem countOp_uncounted {counted : Machine} (hCount : countOp env m op = .ok counted) :
    counted = { m with opCount := counted.opCount } ∧
      (env.sigVersion = .tapscript → counted.opCount = m.opCount) ∧
      (m.opCount ≤ maxOpsPerScript → counted.opCount ≤ maxOpsPerScript) := by
  unfold countOp at hCount
  split at hCount
  case isTrue hCounts =>
    simp only [bind_eq_ok, ensure_eq_ok, pure_inj] at hCount
    rcases hCount with ⟨_, hMax, rfl⟩
    refine ⟨rfl, fun hVer => ?_, fun _ => hMax⟩
    simp [countsOps, hVer] at hCounts
  case isFalse =>
    cases hCount
    exact ⟨rfl, fun _ => rfl, id⟩

/- Every opcode a run gets past has its effect. -/
theorem evalStep_effect (hStep : (evalStep limit env m op reader).out = .ok next) :
    Effect env m op next := by
  rcases evalStep_eq_ok hStep with ⟨counted, hCount, hDispatch, _⟩
  have hEffect := dispatch_effect hDispatch
  rcases countOp_uncounted hCount with ⟨hCounted, hUncounted, hMax⟩
  have hSigns : counted.signs op = m.signs op := by
    rw [hCounted]
    rfl
  have hSeparates : counted.separates op = m.separates op := by
    rw [hCounted]
    rfl
  have hStart : counted.codesepStart = m.codesepStart := by rw [hCounted]
  have hCharged : counted.chargedFor env.sigVersion op = m.chargedFor env.sigVersion op := by
    rw [hCounted]
    rfl
  exact
    { codesepStart := by
        rw [hEffect.codesepStart, hSeparates, hStart]
      tapscript := by rw [hEffect.tapscript, hCharged]
      budget := hSigns ▸ hEffect.budget
      uncounted := fun hVer => by
        rw [hEffect.uncounted hVer, hUncounted hVer]
      counted := fun h => hEffect.counted (hMax h) }

/- The stacks are checked last. -/
theorem evalStep_stackSize (hStep : (evalStep limit env m op reader).out = .ok next) :
    next.stack.len + next.altstack.len ≤ maxStackSize := by
  simp only [evalStep, out_bind, out_lift,
    out_pure, bind_eq_ok, ensure_eq_ok, Except.ok.injEq] at hStep
  rcases hStep with ⟨_, _, _, _, _, _, after, _, _, hStack, rfl⟩
  exact hStack

end Bitmigo
