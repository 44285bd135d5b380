import Bitmigo.Script.StepSafety

/-
  The nesting bound is the only assertion a script can trip, and exactly when it nests too deeply.

  Key definitions include:
    * `bounded`, the bound as a check after the step
    * `NestsWithin`, the unbounded run stays within the bound

  Key theorems include:
    * `evalStep_limit`, one step with and without the bound
    * `evalLoop_limit`, whole runs with and without it
    * `evalScript_safe` for legacy and witness v0 scripts
    * `evalScript_tapscript_panics_iff`

  Legacy and witness v0 scripts are stopped by the opcode limit long before the bound; a tapscript
  leaf has no such limit.
-/

namespace Bitmigo

open Result List

open Machine Result Traced

variable {K : Primitives} {m : Machine} {bound : Nat} {env : Env K} {script : Script} {op : Op}
variable {steps : List (Result ScriptError (Op × Reader))} {stack : Stack} {exec : ExecData}
variable {checker : TxSigChecker K} {reader : Reader} {sigVersion : SigVersion}
variable {x : Result ScriptError Machine}

--------
-- One Step
--------

/- The depth assertion, made after the step. -/
def bounded (bound : Nat) (m : Machine) : Result ScriptError Machine := do
  assert (m.conditions.depth ≤ bound)
  return m

theorem bounded_of_le (hDepth : m.conditions.depth ≤ bound) : bounded bound m = .ok m := by
  simp [bounded, hDepth]

theorem bounded_of_lt (hDepth : bound < m.conditions.depth) : bounded bound m = panicked := by
  simp [bounded, Nat.not_le.mpr hDepth]

/- The bound does not show where no result exceeds it. -/
theorem bind_bounded_of_safe {Q : Machine → Prop} (hSafe : x.Safe Q)
    (hDepth : ∀ next, Q next → next.conditions.depth ≤ bound) : x >>= bounded bound = x := by
  cases x with
  | error _ => rfl
  | ok next => exact bounded_of_le (hDepth next hSafe)

theorem branch_limit (bound : Nat) (env : Env K) (m : Machine) (opcode : UInt8) (executing : Bool) :
    m.branch (some bound) env opcode executing =
      m.branch none env opcode executing >>= bounded bound := by
  unfold branch
  rw [bind_assoc]
  congr 1
  funext ⟨value, stack⟩
  simp [ConditionStack.push, bounded]

theorem executeConditional_limit (byte : UInt8) (executing : Bool)
    (hDepth : m.conditions.depth ≤ bound) :
    m.executeConditional (some bound) env byte executing =
      m.executeConditional none env byte executing >>= bounded bound := by
  unfold executeConditional
  split
  · exact branch_limit bound env m byte executing
  split
  · refine (bind_bounded_of_safe (Q := fun next => next.conditions.depth ≤ bound) ?_
      (fun _ h => h)).symm
    refine safe_ensure_bind fun hOpen => ?_
    refine (toggleTop_safe hOpen).bind ?_
    intro next hNext
    exact Nat.le_trans (Nat.le_of_eq hNext) hDepth
  · refine (bind_bounded_of_safe (Q := fun next => next.conditions.depth ≤ bound) ?_
      (fun _ h => h)).symm
    refine safe_ensure_bind fun hOpen => ?_
    refine (pop_conditions_safe hOpen).bind ?_
    intro next hNext
    exact Nat.le_trans hNext hDepth

/- An opcode that leaves the nest alone does not meet the bound. -/
theorem bind_bounded_of_opStep (hSafe : x.Safe (OpStep env m))
    (hDepth : m.conditions.depth ≤ bound) : x >>= bounded bound = x :=
  bind_bounded_of_safe hSafe fun _ hStep =>
    hStep.conditions ▸ hDepth

theorem execute_limit (executing : Bool) (opcodeIndex : Nat) (hSafe : SigSafe env m)
    (hLen : m.stack.len < 2 ^ 63) (hStop : op.stop ≤ env.script.length)
    (hDepth : m.conditions.depth ≤ bound) :
    (m.execute (some bound) env op executing opcodeIndex).out =
      (m.execute none env op executing opcodeIndex).out >>= bounded bound := by
  unfold execute
  simp only [out_ite, out_lift]
  split
  · exact executeConditional_limit _ executing hDepth
  split
  · exact (bind_bounded_of_opStep (checksig_safe _ hSafe) hDepth).symm
  split
  · exact (bind_bounded_of_opStep (checksigadd_safe hSafe) hDepth).symm
  split
  · exact (bind_bounded_of_opStep (checkmultisig_safe _ hSafe) hDepth).symm
  · exact (bind_bounded_of_opStep (executePlain_safe opcodeIndex hLen hStop) hDepth).symm

theorem dispatch_limit (hSafe : SigSafe env m) (hLen : m.stack.len < 2 ^ 63)
    (hOp : OpOf env.script op reader) (hDepth : m.conditions.depth ≤ bound) :
    (dispatch (some bound) env m op reader).out =
      (dispatch none env m op reader).out >>= bounded bound := by
  have hSame := bounded_of_le hDepth
  unfold dispatch
  simp only [out_ite, out_bind, out_lift, out_pure]
  split
  · cases m.stack.push op.push with
    | error _ => rfl
    | ok stack => simp [bounded, hDepth]
  split
  · rw [bind_assoc]
    congr 1
    funext opcodeIndex
    exact execute_limit _ opcodeIndex hSafe hLen hOp.stop hDepth
  · simp [hSame]

/-
  One iteration with the bound is the unbounded iteration, then the bound. The two checks at its end
  may be swapped: an opcode that opens a conditional does not grow the stack, so the size check
  passes wherever the bound fails.
-/
theorem evalStep_limit (hInv : Inv env m) (hOp : OpOf env.script op reader)
    (hDepth : m.conditions.depth ≤ bound)
    (hRoom : m.stack.len + m.altstack.len ≤ maxStackSize ∨ m.conditions.depth < bound) :
    (evalStep (some bound) env m op reader).out =
      (evalStep none env m op reader).out >>= bounded bound := by
  unfold evalStep
  simp only [out_bind, out_lift, out_pure, bind_assoc]
  by_cases hSize : op.push.length ≤ maxScriptElementSize
  case neg => simp [hSize]
  simp only [hSize, ensure_true, ok_bind]
  have hCount := countOp_safe op hInv
  cases hCounted : countOp env m op with
  | error _ => rfl
  | ok counted =>
    rw [hCounted, safe_ok] at hCount
    rcases hCount with ⟨hEq, _, _, _⟩
    have hReady : SigReady env counted := by
      rw [hEq]
      exact ⟨hInv.ready.codesepStart, hInv.ready.tapscript, hInv.ready.validExec, hInv.ready.inputs⟩
    have hStack : counted.stack = m.stack := by rw [hEq]
    have hAlt : counted.altstack = m.altstack := by rw [hEq]
    have hConds : counted.conditions = m.conditions := by rw [hEq]
    have hLen : counted.stack.len < 2 ^ 63 := hStack ▸ hInv.stackLen
    simp only [ok_bind]
    congr 1
    funext _
    rw [dispatch_limit hReady.sigSafe hLen hOp (hConds ▸ hDepth), bind_assoc]
    have hDispatch := dispatch_none_safe hSize hReady.sigSafe hLen hOp
    cases hNext : (dispatch none env counted op reader).out with
    | error _ => rfl
    | ok next =>
      rw [hNext, safe_ok] at hDispatch
      simp only [ok_bind]
      by_cases hWithin : next.conditions.depth ≤ bound
      · rw [bounded_of_le hWithin, ok_bind]
      · rw [bounded_of_lt (Nat.not_le.mp hWithin)]
        have hFits : next.stack.len + next.altstack.len ≤
            maxStackSize := by
          rcases hDispatch with hStep | ⟨_, hNest⟩
          · exact absurd (hStep.conditions ▸ hConds ▸ hDepth) hWithin
          · have hAltNext : next.altstack = counted.altstack := by rw [hNest.same]
            have hShrinks := hNest.stack
            have hNestDepth := hNest.depth
            rw [hConds] at hNestDepth
            rw [hAltNext, hAlt]
            rw [hStack] at hShrinks
            omega
        simp only [hFits, ensure_true, ok_bind, panicked_bind]

--------
-- Whole Runs
--------

/- No prefix of the unbounded run opens more conditionals than the bound. -/
def NestsWithin (bound : Nat) (env : Env K) (steps : List (Result ScriptError (Op × Reader)))
    (m : Machine) : Prop :=
  ∀ count next,
    (evalLoop none env (steps.take count) m).out = .ok next →
      next.conditions.depth ≤ bound

theorem nestsWithin_cons {rest : List (Result ScriptError (Op × Reader))} {next : Machine}
    (hStep : (evalStep none env m op reader).out = .ok next) (hDepth : m.conditions.depth ≤ bound) :
    NestsWithin bound env (.ok (op, reader) :: rest) m ↔ NestsWithin bound env rest next := by
  have hTail (count : Nat) :
      (evalLoop none env ((.ok (op, reader) :: rest).take (count + 1)) m).out =
        (evalLoop none env (rest.take count) next).out := by
    simp [evalLoop, hStep]
  constructor
  · intro hNests count final hRun
    exact hNests (count + 1) final (hTail count ▸ hRun)
  · intro hNests count final hRun
    cases count with
    | zero =>
      simp only [take_zero, evalLoop, out_pure, Except.ok.injEq] at hRun
      exact hRun ▸ hDepth
    | succ count => exact hNests count final (hTail count ▸ hRun)

/- What the loop relies on of the opcodes it is given. -/
def StepsOf (script : Script) (steps : List (Result ScriptError (Op × Reader))) : Prop :=
  ∀ step ∈ steps, step.Safe fun result => OpOf script result.1 result.2

theorem stepsOf_steps (hLen : script.length < 2 ^ 32) : StepsOf script (Reader.steps script) := by
  intro step hStep
  refine (Reader.steps_safe hLen hStep).mono ?_
  rintro ⟨op, reader⟩ ⟨hStop, hRead, _⟩
  exact ⟨hStop, hRead⟩

/- The unbounded run keeps the invariant. -/
theorem evalLoop_none_safe (hSteps : StepsOf env.script steps) (hInv : Inv env m) :
    (evalLoop none env steps m).out.Safe (Inv env) := by
  induction steps generalizing m with
  | nil => exact hInv
  | cons step rest ih =>
    simp only [evalLoop, out_bind, out_lift]
    refine (hSteps step mem_cons_self).bind ?_
    rintro ⟨op, reader⟩ hOp
    refine (evalStep_none_safe hInv hOp).bind ?_
    intro next hNext
    exact ih (fun other hOther => hSteps other (mem_cons_of_mem _ hOther)) hNext

/- The empty prefix of a run is where it starts. -/
theorem nestsWithin_of_stops (hStops :
      ∀ count next, (evalLoop none env (steps.take (count + 1)) m).out ≠ .ok next ∨ next = m)
    (hDepth : m.conditions.depth ≤ bound) : NestsWithin bound env steps m := by
  intro count next hRun
  cases count with
  | zero =>
    simp only [take_zero, evalLoop, out_pure, Except.ok.injEq] at hRun
    exact hRun ▸ hDepth
  | succ count =>
    rcases hStops count next with hFails | hSame
    · exact absurd hRun hFails
    · exact hSame ▸ hDepth

/-
  A run whose unbounded counterpart stays within the bound does not see the bound; any other run
  panics.
-/
theorem evalLoop_limit (hRoom :
      ∀ m, Inv env m → m.stack.len + m.altstack.len ≤ maxStackSize ∨ m.conditions.depth < bound)
    (hSteps : StepsOf env.script steps) (hInv : Inv env m) (hDepth : m.conditions.depth ≤ bound) :
    (NestsWithin bound env steps m →
      (evalLoop (some bound) env steps m).out = (evalLoop none env steps m).out) ∧
    (¬ NestsWithin bound env steps m → (evalLoop (some bound) env steps m).out.Panics) := by
  induction steps generalizing m with
  | nil =>
    have hNests : NestsWithin bound env [] m := nestsWithin_of_stops (fun count next => by
          simp [evalLoop, Classical.em, or_comm, eq_comm])
        hDepth
    exact ⟨fun _ => by simp [evalLoop], fun hNot => absurd hNests hNot⟩
  | cons step rest ih =>
    have hStep := hSteps step mem_cons_self
    have hRest : StepsOf env.script rest :=
      fun other hOther =>
        hSteps other (mem_cons_of_mem _ hOther)
    cases step with
    | error halt =>
      have hNests : NestsWithin bound env (.error halt :: rest) m :=
        nestsWithin_of_stops (fun count next => by simp [evalLoop]) hDepth
      exact ⟨fun _ => by simp [evalLoop], fun hNot => absurd hNests hNot⟩
    | ok read =>
      rcases read with ⟨op, reader⟩
      have hLimit := evalStep_limit hInv hStep hDepth (hRoom m hInv)
      have hSafe := evalStep_none_safe hInv hStep
      simp only [evalLoop, out_bind, out_lift, ok_bind, hLimit]
      cases hNext : (evalStep none env m op reader).out with
      | error halt =>
        have hNests : NestsWithin bound env (.ok (op, reader) :: rest) m := nestsWithin_of_stops
            (fun count next => by
              simp [evalLoop, hNext]) hDepth
        exact ⟨fun _ => by simp, fun hNot => absurd hNests hNot⟩
      | ok next =>
        rw [hNext, safe_ok] at hSafe
        rw [nestsWithin_cons hNext hDepth]
        simp only [ok_bind]
        by_cases hWithin : next.conditions.depth ≤ bound
        · rw [bounded_of_le hWithin]
          exact ih hRest hSafe hWithin
        · rw [bounded_of_lt (Nat.not_le.mp hWithin)]
          have hStart : (evalLoop none env (rest.take 0) next).out = .ok next := by simp [evalLoop]
          exact ⟨fun hNests => absurd (hNests 0 next hStart) hWithin,
            fun _ => by simp [Result.Panics, panicked]⟩

/- The invariant leaves room below the bound of the code. -/
theorem room_of_inv (hInv : Inv env m) :
    m.stack.len + m.altstack.len ≤ maxStackSize ∨ m.conditions.depth < nestingMax := by
  have hOps : maxOpsPerScript = 201 := rfl
  have hNest : nestingMax = 10001 := rfl
  have hCount := hInv.opCount
  cases hVer : env.sigVersion with
  | tapscript => exact Or.inl (hInv.tapscriptStack hVer)
  | base | witnessV0 =>
    have hDepth := hInv.depth (by simp [countsOps, hVer])
    right
    omega

--------
-- Scripts
--------

/- What a script is run with. -/
structure StartsWith (script : Script) (stack : Stack) (sigVersion : SigVersion) (exec : ExecData)
    (checker : TxSigChecker K) : Prop where
  tapscript : exec.tapscript.isSome ↔ sigVersion = .tapscript
  validExec : ValidExec exec
  inputs : checker.tx.input.length ≤ 2 ^ 32
  stackLen : stack.len < 2 ^ 63
  tapscriptStack : sigVersion = .tapscript → stack.len ≤ maxStackSize
  -- The other versions check their script's size.
  tapscriptLength : sigVersion = .tapscript → script.length < 2 ^ 32

theorem inv_start (flags : ScriptFlags) (hStart : StartsWith script stack sigVersion exec checker) :
    Inv ⟨script, flags, sigVersion, checker⟩ (Machine.start stack exec) where
  ready :=
    { codesepStart := Nat.zero_le _
      tapscript := hStart.tapscript
      validExec := hStart.validExec
      inputs := hStart.inputs }
  stackLen := hStart.stackLen
  tapscriptStack := fun hVer => by
    simpa [Machine.start, Stack.new, Stack.len] using hStart.tapscriptStack hVer
  opCount := Nat.zero_le _
  depth := fun _ => Nat.le_refl _

/- The end of a script: what is asserted holds by then. -/
theorem evalScript_of_loop {flags : ScriptFlags}
    (hStart : StartsWith script stack sigVersion exec checker) (hLen : script.length < 2 ^ 32)
    (hNests : NestsWithin nestingMax ⟨script, flags, sigVersion, checker⟩
      (Reader.steps script) (Machine.start stack exec)) :
    (evalScript script stack flags sigVersion exec checker).out.Safe (fun result =>
      result.1.len < 2 ^ 63 ∧ (result.2.tapscript.isSome ↔ sigVersion = .tapscript)) := by
  have hOps : maxOpsPerScript ≤ opCountMax := by decide
  have hInv := inv_start flags hStart
  have hSteps := stepsOf_steps hLen
  have hLoop := (evalLoop_limit (fun _ => room_of_inv) hSteps hInv (Nat.zero_le _)).1 hNests
  unfold evalScript
  simp only [out_bind, out_lift, out_pure]
  refine safe_bind.mpr (safe_assert.mpr ⟨hStart.tapscript, ?_⟩)
  refine safe_ensure_bind fun _ => ?_
  rw [hLoop]
  refine (evalLoop_none_safe hSteps hInv).bind ?_
  intro m hEnd
  refine safe_bind.mpr (safe_assert.mpr ⟨Nat.le_trans hEnd.opCount hOps, ?_⟩)
  refine safe_ensure_bind fun _ => ?_
  exact ⟨hEnd.stackLen, hEnd.ready.tapscript⟩

/- The opcode limit keeps a run within the nesting bound. -/
theorem nestsWithin_of_countsOps (hVer : countsOps env.sigVersion)
    (hSteps : StepsOf env.script steps) (hInv : Inv env m) :
    NestsWithin nestingMax env steps m := by
  intro count next hRun
  have hPrefix : StepsOf env.script (steps.take count) :=
    fun step hStep => hSteps step (mem_of_mem_take hStep)
  have hNext := (evalLoop_none_safe hPrefix hInv).of_eq_ok hRun
  calc
    next.conditions.depth ≤ next.opCount := hNext.depth hVer
    _ ≤ maxOpsPerScript := hNext.opCount
    _ ≤ nestingMax := by decide

/- A legacy or witness v0 script never panics. -/
theorem evalScript_safe (flags : ScriptFlags)
    (hStart : StartsWith script stack sigVersion exec checker) (hVer : countsOps sigVersion) :
    (evalScript script stack flags sigVersion exec checker).out.Safe (fun result =>
      result.1.len < 2 ^ 63 ∧ (result.2.tapscript.isSome ↔ sigVersion = .tapscript)) := by
  by_cases hSize : script.length ≤ maxScriptSize
  · have hLen : script.length < 2 ^ 32 := Nat.lt_of_le_of_lt hSize (by decide)
    exact evalScript_of_loop hStart hLen
      (nestsWithin_of_countsOps hVer (stepsOf_steps hLen) (inv_start flags hStart))
  · unfold evalScript
    simp only [out_bind, out_lift, out_pure]
    refine safe_bind.mpr (safe_assert.mpr ⟨hStart.tapscript, ?_⟩)
    refine safe_ensure_bind fun hFits => ?_
    exact absurd (hFits hVer) hSize

/- A tapscript leaf panics exactly when it nests too deeply. -/
theorem evalScript_tapscript_panics_iff (flags : ScriptFlags)
    (hStart : StartsWith script stack .tapscript exec checker) :
    (evalScript script stack flags .tapscript exec checker).out.Panics ↔
      ¬ NestsWithin nestingMax ⟨script, flags, .tapscript, checker⟩
        (Reader.steps script) (Machine.start stack exec) := by
  have hLen := hStart.tapscriptLength rfl
  constructor
  · intro hPanics hNests
    exact (evalScript_of_loop hStart hLen hNests).not_panics hPanics
  · intro hNests
    have hLoop :=
      (evalLoop_limit (fun _ => room_of_inv) (stepsOf_steps hLen) (inv_start flags hStart)
        (Nat.zero_le _)).2 hNests
    have hTap : exec.tapscript.isSome = true := hStart.tapscript.mpr rfl
    unfold evalScript
    simp only [out_bind, out_lift, out_pure, hTap, countsOps, ne_eq,
      not_true_eq_false, decide_false, Bool.false_eq_true,
      false_implies, assert_true, ensure_true, ok_bind]
    exact bind_panics.mpr (Or.inl hLoop)

end Bitmigo
