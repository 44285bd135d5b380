import Bitmigo.Script.Multisig
import Bitmigo.Script.Numbers

/-
  What holds after every opcode of every run: the sizes, the counts, the numbers and the start of
  the script code.

  Key definitions include:
    * `lastSeparator`, where the script code starts
    * `WithinLimits`, what the opcodes of a run keep

  Key theorems include:
    * `evalStep_some_safe`, no assertion is tripped below the nesting bound
    * `WithinLimits.step`
    * `evalScript_limits`
-/

namespace Bitmigo

open Machine Result Traced List

variable {K : Primitives} {op : Op} {m : Machine} {limit : Option Nat}
variable {bound : Nat} {reader : Reader} {next : Machine}

namespace Machine

--------
-- Below the Nesting Bound
--------

/- Below the bound, opening a conditional does not meet it. -/
theorem executeConditional_some_safe (env : Env K) {byte : UInt8} (executing : Bool)
    (hDepth : byte = opIf ∨ byte = opNotif → m.conditions.depth < bound) :
    (m.executeConditional (some bound) env byte executing).Safe (fun _ => True) := by
  unfold executeConditional
  refine Safe.ite (fun hOpens => ?_) fun _ => ?_
  · have hBelow := hDepth hOpens
    unfold branch
    refine Safe.bind (Q := fun _ => True) ?_ ?_
    · refine Safe.ite (fun _ => ?_) (fun _ => trivial)
      exact (branchValue_safe _ byte m.stack).mono fun _ _ => trivial
    · rintro ⟨value, stack⟩ _
      have hRoom : ∀ limit ∈ some bound, (m.conditions.opened value).depth ≤ limit := by
        intro limit hLimit
        cases hLimit
        exact hBelow
      simp [ConditionStack.push, hRoom]
  refine Safe.ite (fun _ => ?_) fun _ => ?_
  · refine safe_ensure_bind fun hOpen => ?_
    exact (toggleTop_safe hOpen).bind fun _ _ => trivial
  · refine safe_ensure_bind fun hOpen => ?_
    exact (pop_conditions_safe hOpen).bind fun _ _ => trivial

theorem execute_some_safe {env : Env K} (executing : Bool) (opcodeIndex : Nat)
    (hSafe : SigSafe env m) (hLen : m.stack.len < 2 ^ 63) (hStop : op.stop ≤ env.script.length)
    (hDepth : op.opcode.byte = opIf ∨ op.opcode.byte = opNotif → m.conditions.depth < bound) :
    (m.execute (some bound) env op executing opcodeIndex).out.Safe (fun _ => True) := by
  unfold execute
  simp only [out_ite, out_lift]
  refine Safe.ite (fun _ => ?_) fun _ => ?_
  · exact executeConditional_some_safe env executing hDepth
  refine Safe.ite (fun _ => ?_) fun _ => ?_
  · exact (checksig_safe _ hSafe).mono fun _ _ => trivial
  refine Safe.ite (fun _ => ?_) fun _ => ?_
  · exact (checksigadd_safe hSafe).mono fun _ _ => trivial
  refine Safe.ite (fun _ => ?_) fun _ => ?_
  · exact (checkmultisig_safe _ hSafe).mono fun _ _ => trivial
  · exact (executePlain_safe opcodeIndex hLen hStop).mono fun _ _ => trivial

end Machine

theorem countOp_not_panics (env : Env K) (m : Machine) (op : Op) :
    (countOp env m op).Safe (fun _ => True) := by
  unfold countOp
  refine Safe.ite (fun _ => ?_) fun _ => trivial
  exact safe_ensure_bind fun _ => trivial

/- One opcode trips no assertion, the nesting bound aside. -/
theorem evalStep_some_safe {env : Env K} (hSafe : SigSafe env m) (hLen : m.stack.len < 2 ^ 63)
    (hOp : OpOf env.script op reader)
    (hDepth : op.opcode.byte = opIf ∨ op.opcode.byte = opNotif → m.conditions.depth < bound) :
    (evalStep (some bound) env m op reader).out.Safe (fun _ => True) := by
  unfold evalStep
  simp only [out_bind, out_lift, out_pure]
  refine safe_ensure_bind fun hSize => ?_
  refine (countOp_not_panics env m op).bind_eq ?_
  intro counted hCount _
  have hSame := (countOp_uncounted hCount).1
  have hCounted : SigSafe env counted := by
    rw [hSame]
    exact ⟨hSafe.codesepStart, hSafe.tapscript, hSafe.budget, hSafe.checker⟩
  have hStack : counted.stack = m.stack := by rw [hSame]
  have hConds : counted.conditions = m.conditions := by rw [hSame]
  refine safe_ensure_bind fun _ => ?_
  refine Safe.bind (Q := fun _ => True) ?_ ?_
  · unfold dispatch
    simp only [out_ite, out_bind, out_lift, out_pure]
    refine Safe.ite (fun _ => ?_) fun _ => ?_
    · rw [Stack.push_of_le hSize]
      trivial
    refine Safe.ite (fun _ => ?_) fun _ => trivial
    refine Safe.bind (Q := fun _ => True) ?_ ?_
    · simp [Reader.opcodeIndex, hOp.opsRead]
    · intro opcodeIndex _
      exact execute_some_safe _ opcodeIndex hCounted (hStack ▸ hLen) hOp.stop (hConds ▸ hDepth)
  · intro next _
    exact safe_ensure_bind fun _ => trivial

/- What a signature opcode relies on is kept. -/
theorem sigSafe_of_effect {env : Env K} (hSafe : SigSafe env m)
    (hStop : op.stop ≤ env.script.length) (hEffect : Effect env m op next) : SigSafe env next := by
  have hStart := hEffect.codesepStart
  have hTap := hEffect.tapscript
  have hBudget := hEffect.budget
  unfold chargedFor at hTap
  refine ⟨?_, ?_, ?_, ?_⟩
  · rw [hStart]
    split
    · exact hStop
    · exact hSafe.codesepStart
  · have hSome : next.exec.tapscript.isSome = m.exec.tapscript.isSome := by
      rw [hTap]
      split <;> simp
    rw [hSome]
    exact hSafe.tapscript
  · intro exec hExec
    by_cases hPays : env.sigVersion = .tapscript ∧ m.signs op = true
    · exact hBudget hPays.1 hPays.2 exec hExec
    · rw [hTap, if_neg hPays] at hExec
      exact hSafe.budget exec hExec
  · intro exec hExec signature pubkey spend
    rw [hTap] at hExec
    split at hExec
    · simp only [Option.mem_def, Option.map_eq_some_iff] at hExec
      rcases hExec with ⟨before, hBefore, rfl⟩
      rw [(charged_spec before true).1]
      exact hSafe.checker before hBefore signature pubkey spend
    · exact hSafe.checker exec hExec signature pubkey spend

--------
-- Every Run
--------

/- Right after the last separator executed, or the start. -/
def lastSeparator (seen : List Visit) : Nat :=
  ((seen.filter fun visit =>
    visit.before.separates visit.op).getLast?.map fun visit => visit.op.stop).getD 0

theorem lastSeparator_append (seen : List Visit) (visit : Visit) :
    lastSeparator (seen ++ [visit]) = if visit.before.separates visit.op then
        visit.op.stop
      else
        lastSeparator seen := by
  unfold lastSeparator
  rw [filter_append]
  split
  case isTrue hSeparates => simp [hSeparates]
  case isFalse hSeparates => simp [hSeparates]

/- The numbers of an executed opcode are within their range. -/
def InRange (env : Env K) (visit : Visit) : Prop :=
  visit.before.conditions.allTrue = true →
  visit.op.opcode.isPush = false → Computes env visit.before visit.op visit.after

theorem inRange_of_evalStep {env : Env K}
    (hStep : (evalStep limit env m op reader).out = .ok next) : InRange env ⟨m, op, next⟩ := by
  intro hTrue hPush
  dsimp only at hTrue hPush ⊢
  have hFits := evalStep_stackSize hStep
  rcases evalStep_eq_ok hStep with ⟨counted, hCount, hDispatch, _⟩
  have hSame := (countOp_uncounted hCount).1
  have hExecuting : counted.conditions.allTrue = true := by
    rwa [hSame]
  have hNumbers : counted.numbers env op = m.numbers env op := by
    rw [hSame]
    rfl
  simp only [dispatch, hExecuting, hPush, Bool.and_false,
    Bool.false_eq_true, if_false, Bool.true_or, if_true, out_bind, out_lift, bind_eq_ok]
    at hDispatch
  rcases hDispatch with ⟨opcodeIndex, _, hNext⟩
  have hComputes := numbers_of_execute (by omega) hNext
  rwa [Computes, hNumbers] at hComputes

/- What holds of the opcodes seen and where they led. -/
structure WithinLimits (env : Env K) (seen : List Visit)
    (m : Machine) : Prop where
  stackSize : seen ≠ [] → m.stack.len + m.altstack.len ≤ maxStackSize
  uncounted : env.sigVersion = .tapscript → m.opCount = 0
  counted : m.opCount ≤ maxOpsPerScript
  inRange : ∀ visit ∈ seen, InRange env visit
  codesepStart : m.codesepStart = lastSeparator seen

theorem WithinLimits.start (env : Env K) (stack : Stack) (exec : ExecData) :
    WithinLimits env [] (Machine.start stack exec) where
  stackSize := fun h => absurd rfl h
  uncounted := fun _ => rfl
  counted := Nat.zero_le _
  inRange := by simp
  codesepStart := rfl

theorem WithinLimits.step {env : Env K} {seen : List Visit} {next : Machine} {reader : Reader}
    (hLimits : WithinLimits env seen m) (hStep : (evalStep limit env m op reader).out = .ok next) :
    WithinLimits env (seen ++ [⟨m, op, next⟩]) next := by
  have hEffect := evalStep_effect hStep
  exact
    { stackSize := fun _ => evalStep_stackSize hStep
      uncounted := fun hVer => by
        rw [hEffect.uncounted hVer, hLimits.uncounted hVer]
      counted := hEffect.counted hLimits.counted
      inRange := by
        intro visit hVisit
        rcases mem_append.mp hVisit with hOld | hNew
        · exact hLimits.inRange visit hOld
        · rw [mem_singleton.mp hNew]
          exact inRange_of_evalStep hStep
      codesepStart := by
        rw [hEffect.codesepStart, lastSeparator_append, hLimits.codesepStart] }

theorem opOf_of_mem_steps {script : Script} (hRead : .ok (op, reader) ∈ Reader.steps script) :
    OpOf script op reader :=
  ⟨(Reader.stop_le_of_mem_stepsFrom hRead).1, (Reader.stop_le_of_mem_stepsFrom hRead).2⟩

/- Wherever a run gets, a signature opcode could be next. -/
theorem sigSafe_of_visits {env : Env K} {start : Machine} {seen : List Visit}
    (hSafe : SigSafe env start) (hLen : start.stack.len < 2 ^ 63)
    (hSeen : seen <+: visits limit env (Reader.steps env.script) start) :
    SigSafe env (machineAfter start seen) ∧ (machineAfter start seen).stack.len < 2 ^ 63 := by
  have hMax : maxStackSize = 1000 := rfl
  refine visits_induction (P := fun _ m => SigSafe env m ∧ m.stack.len < 2 ^ 63)
    ⟨hSafe, hLen⟩ ?_ hSeen
  intro _ m op reader next hInv hRead hStep
  have hFits := evalStep_stackSize hStep
  exact ⟨sigSafe_of_effect hInv.1 (opOf_of_mem_steps hRead).stop (evalStep_effect hStep), by omega⟩

/-
  What holds after every opcode that did not return an error, in every run of a script: the two
  stacks hold at most 1000 elements of at most 520 bytes, the opcodes counted stay within the limit
  of the version, every operand and every result is in range, and the script code starts after the
  last separator executed. From there the next opcode trips no assertion, unless it opens one
  conditional too many: all that is asked is the data the run is started with, and that the checker
  itself returns.
-/
theorem evalScript_limits
    (script : Script) (flags : ScriptFlags) (sigVersion : SigVersion) (checker : TxSigChecker K)
    (stack : Stack) (exec : ExecData) {seen : List Visit}
    (hSeen : seen <+: visits (some nestingMax) ⟨script, flags, sigVersion, checker⟩
        (Reader.steps script) (Machine.start stack exec)) :
    let env : Env K := ⟨script, flags, sigVersion, checker⟩
    let m := machineAfter (Machine.start stack exec) seen
    (seen ≠ [] → m.stack.len + m.altstack.len ≤ 1000) ∧
    (∀ item ∈ m.stack.items ++ m.altstack.items, item.val.length ≤ 520) ∧
    (sigVersion ≠ .tapscript → m.opCount ≤ 201) ∧
    (sigVersion = .tapscript → m.opCount = 0) ∧
    (∀ visit ∈ seen, InRange env visit) ∧
    m.codesepStart = lastSeparator seen ∧
    (stack.len < 2 ^ 63 →
      (exec.tapscript.isSome ↔ sigVersion = .tapscript) →
      (∀ leaf ∈ exec.tapscript,
        0 ≤ leaf.validationWeightLeft ∧
          ∀ signature pubkey spend,
            ¬ (checker.checkSchnorr signature pubkey spend leaf.annex).Panics) →
      ∀ op reader,
        (Reader.steps script)[seen.length]? = some (.ok (op, reader)) →
        (op.opcode.byte = opIf ∨ op.opcode.byte = opNotif → m.conditions.depth < nestingMax) →
        ¬ (evalStep (some nestingMax) env m op reader).out.Panics) := by
  intro env m
  have hLimits : WithinLimits env seen m := visits_induction (WithinLimits.start env stack exec)
      (fun _ _ _ _ _ hLimits _ hStep => hLimits.step hStep)
      hSeen
  refine ⟨hLimits.stackSize, fun item _ => item.property,
    fun _ => hLimits.counted, hLimits.uncounted, hLimits.inRange, hLimits.codesepStart, ?_⟩
  intro hLen hTap hLeaf op reader hRead hDepth
  have hStart : SigSafe env (Machine.start stack exec) :=
    { codesepStart := Nat.zero_le _
      tapscript := hTap
      budget := fun leaf hMem => (hLeaf leaf hMem).1
      checker := fun leaf hMem signature pubkey spend =>
        safe_true_iff.mpr ((hLeaf leaf hMem).2 signature pubkey spend) }
  rcases sigSafe_of_visits hStart hLen hSeen with ⟨hSafe, hRoom⟩
  exact (evalStep_some_safe hSafe hRoom (opOf_of_mem_steps (mem_of_getElem? hRead))
    hDepth).not_panics

--------
-- A Sum and a Separator
--------

namespace SeparatedSum

def script : Script :=
  [op1, op1add, opCodeseparator, opIf]

def env : Env TwoOfThree.crypto.primitives where
  script := script
  flags := .p2sh
  sigVersion := .base
  checker := TwoOfThree.checker

def start : Machine := .start ⟨[]⟩ .legacy

/- The opcodes before the conditional. -/
def seen : List Visit :=
  (visits (some nestingMax) env (Reader.steps script) start).take 3

/- One and one is two, and a conditional may follow. -/
theorem evalScript_limits_sum :
    seen.length = 3 ∧
      (machineAfter start seen).stack.items.map Subtype.val = [[2]] ∧
      (∀ visit ∈ seen, InRange env visit) ∧
      (machineAfter start seen).opCount ≤ 201 ∧
      (machineAfter start seen).codesepStart = 3 ∧
      ¬ (evalStep (some nestingMax) env (machineAfter start seen) ⟨⟨opIf⟩, [], 4⟩
        ⟨script, 4, 4⟩).out.Panics := by
  rcases evalScript_limits script .p2sh .base TwoOfThree.checker ⟨[]⟩ .legacy
      (show seen <+: _ from take_prefix _ _) with
    ⟨_, _, hCount, _, hRange, hStart, hNext⟩
  have hLen : seen.length = 3 := by decide +kernel
  have hDepth : (machineAfter start seen).conditions.depth < nestingMax := by decide +kernel
  refine ⟨hLen, by decide +kernel, hRange,
    hCount (by decide), hStart.trans (by decide +kernel), ?_⟩
  refine hNext (by decide) (by decide) (by simp [ExecData.legacy]) _ _ ?_ fun _ => hDepth
  rw [hLen]
  rfl

end SeparatedSum

end Bitmigo
