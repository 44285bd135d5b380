import Bitmigo.Script.Nesting
import Bitmigo.Script.Verify

/-
  When verifying an input panics: never, but for a tapscript leaf that nests its conditionals too
  deeply.

  Key definitions include:
    * `LeafRuns`, the leaf a taproot script path executes

  Key theorems include:
    * `executeWitnessScript_panics_iff`
    * `verifyTaproot_panics_iff`
    * `verifyScript_panics_iff`
-/

namespace Bitmigo

open Machine Result Traced List FixedBytes Stack

variable {K : Primitives} {checker : TxSigChecker K} {stack : Stack} {witness : Witness}
variable {script scriptSig scriptPubkey : Script} {flags : ScriptFlags} {items : List Bytes}
variable {exec : ExecData} {annex : Option Bytes}
variable {program : Bytes} {steps : List (Result ScriptError (Op × Reader))} {outputKey : Hash32}
variable {result : Stack × ExecData}

--------
-- Script Shapes
--------

/- A witness program has the length its dispatch asserts. -/
theorem witnessProgram_safe (script : Script) :
    (witnessProgram script).Safe (fun found => ∀ version program, found = some (version, program) →
      2 ≤ program.length ∧ program.length ≤ 40) := by
  unfold witnessProgram
  refine Safe.ite (fun _ => by simp) fun hLen => ?_
  simp only [witnessProgramScriptLenMin, witnessProgramScriptLenMax, not_or, Nat.not_lt] at hLen
  split
  case h_2 => simp
  case h_1 versionByte pushLen program =>
    simp only [length_cons] at hLen
    split
    · simp
    · refine Safe.ite (fun _ => by simp) (fun hExact => ?_)
      simp only [length_cons, ne_eq, not_not] at hExact
      refine safe_bind.mpr (safe_assert.mpr ⟨by omega, ?_⟩)
      simp only [pure_eq_ok, safe_ok, Option.some.injEq, Prod.mk.injEq]
      rintro _ _ ⟨_, rfl⟩
      omega

theorem p2wpkhScript_safe (hLen : program.length = witnessV0KeyhashSize) :
    (p2wpkhScript program).Safe (fun _ => True) := by
  have hTwenty : program.length = 20 := hLen
  simp [p2wpkhScript, safe_bind, hLen]
  omega

theorem isPushOnlySteps_safe (hSteps : StepsOf script steps) :
    (isPushOnlySteps steps).Safe (fun _ => True) := by
  induction steps with
  | nil => trivial
  | cons step rest ih =>
    have hStep := hSteps step mem_cons_self
    have hRest := ih fun other hOther =>
      hSteps other (mem_cons_of_mem _ hOther)
    cases step with
    | error halt =>
      cases halt with
      | error e => trivial
      | panic => exact hStep.elim
    | ok read =>
      unfold isPushOnlySteps
      exact Safe.ite (fun _ => trivial) fun _ => hRest

theorem hasOpSuccessSteps_safe (hSteps : StepsOf script steps) :
    (hasOpSuccessSteps steps).Safe (fun _ => True) := by
  induction steps with
  | nil => trivial
  | cons step rest ih =>
    have hRest := ih fun other hOther =>
      hSteps other (mem_cons_of_mem _ hOther)
    unfold hasOpSuccessSteps
    refine (hSteps step mem_cons_self).bind ?_
    intro read _
    exact Safe.ite (fun _ => trivial) fun _ => hRest

--------
-- Witness Scripts
--------

theorem requireTop_safe (hOne : 1 ≤ stack.items.length) :
    (do
      let top ← stack.top 1
      Result.ensure ScriptError.evalFalse (castToBool top.val)).Safe (fun _ => True) := by
  rw [top_of_le stack (Nat.le_refl 1) hOne]
  simp

/- A witness v0 script never panics. -/
theorem executeWitnessScript_v0_safe (script : Script) (flags : ScriptFlags)
    (hInputs : checker.tx.input.length ≤ 2 ^ 32) (hItems : items.length < 2 ^ 63) :
    (executeWitnessScript items script flags .witnessV0
      .legacy checker).out.Safe (fun _ => True) := by
  unfold executeWitnessScript
  simp only [out_bind, out_lift, out_ite, out_pure, reduceCtorEq, ne_eq,
    not_false_eq_true, if_false, assert_true,
    ok_bind, pure_eq_ok, Bool.false_eq_true, false_implies, ensure_true]
  refine safe_ensure_bind fun hSizes => ?_
  refine (fromItems_safe hSizes).bind ?_
  intro stack hStack
  have hStart : StartsWith script stack .witnessV0 .legacy checker :=
    { tapscript := by simp [ExecData.legacy]
      validExec := by simp [ValidExec, ExecData.legacy]
      inputs := hInputs
      stackLen := by
        rwa [Stack.len, hStack]
      tapscriptStack := by simp
      tapscriptLength := by simp }
  refine (evalScript_safe flags hStart rfl).bind ?_
  rintro ⟨final, _⟩ _
  refine safe_ensure_bind fun hOne => ?_
  exact requireTop_safe (Nat.le_of_eq hOne.symm)

/-
  The stack a leaf starts with, when the leaf runs: there is no `OP_SUCCESS` in it and its items are
  within the limits.
-/
def LeafStarts (items : List Bytes) (script : Script) (stack : Stack) : Prop :=
  hasOpSuccess script = .ok false ∧
    items.length ≤ maxStackSize ∧
    (∀ item ∈ items, item.length ≤ maxScriptElementSize) ∧
    fromItems items = .ok stack

/- The unbounded run of a leaf stays within the bound. -/
def LeafNests (script : Script) (stack : Stack) (exec : TapscriptExec) (flags : ScriptFlags)
    (checker : TxSigChecker K) : Prop :=
  NestsWithin nestingMax ⟨script, flags, .tapscript, checker⟩
    (Reader.steps script)
    (Machine.start stack (.ofTapscript exec))

theorem startsWith_leaf {exec : TapscriptExec} (hStarts : LeafStarts items script stack)
    (hValid : ValidExec (.ofTapscript exec)) (hInputs : checker.tx.input.length ≤ 2 ^ 32)
    (hLength : script.length < 2 ^ 32) :
    StartsWith script stack .tapscript (.ofTapscript exec) checker := by
  rcases hStarts with ⟨_, hCount, hSizes, hStack⟩
  have hLen : stack.len = items.length := (fromItems_safe hSizes).of_eq_ok hStack
  have hMax : maxStackSize = 1000 := rfl
  exact
    { tapscript := by simp [ExecData.ofTapscript]
      validExec := hValid
      inputs := hInputs
      stackLen := by omega
      tapscriptStack := fun _ => by omega
      tapscriptLength := fun _ => hLength }

/- A tapscript leaf panics exactly when it nests too deeply. -/
theorem executeWitnessScript_panics_iff
    (items : List Bytes) (flags : ScriptFlags) {exec : TapscriptExec}
    (hValid : ValidExec (.ofTapscript exec)) (hInputs : checker.tx.input.length ≤ 2 ^ 32)
    (hLen : script.length < 2 ^ 32) :
    (executeWitnessScript items script flags .tapscript (.ofTapscript exec) checker).out.Panics ↔
      ∃ stack, LeafStarts items script stack ∧ ¬ LeafNests script stack exec flags checker := by
  have hScan : (hasOpSuccess script).Safe (fun _ => True) :=
    hasOpSuccessSteps_safe (stepsOf_steps hLen)
  have hRun (stack : Stack) (hStarts : LeafStarts items script stack) :=
    evalScript_tapscript_panics_iff flags (startsWith_leaf hStarts hValid hInputs hLen)
  unfold executeWitnessScript
  simp only [out_bind, out_lift, out_ite, out_pure, reduceCtorEq, ne_eq,
    not_false_eq_true, if_true, assert_true, ok_bind]
  rw [Safe.bind_panics_iff hScan]
  constructor
  · rintro ⟨succeeded, hSuccess, hPanics⟩
    cases succeeded with
    | true => cases hPanics
    | false =>
      simp only [Bool.false_eq_true, if_false, ensure_bind_panics, true_implies] at hPanics
      rcases hPanics with ⟨hCount, hSizes, hPanics⟩
      rcases ((fromItems_safe hSizes).bind_panics_iff).mp hPanics with
        ⟨stack, hStack, hPanics⟩
      have hStarts : LeafStarts items script stack := ⟨hSuccess, hCount, hSizes, hStack⟩
      refine ⟨stack, hStarts, (hRun stack hStarts).mp ?_⟩
      rcases bind_panics.mp hPanics with hEval | ⟨⟨final, _⟩, _, hEnd⟩
      · exact hEval
      · rw [ensure_bind_panics] at hEnd
        exact absurd hEnd.2 (requireTop_safe (Nat.le_of_eq hEnd.1.symm)).not_panics
  · rintro ⟨stack, hStarts, hDeep⟩
    have hEval := (hRun stack hStarts).mpr hDeep
    rcases hStarts with ⟨hSuccess, hCount, hSizes, hStack⟩
    refine ⟨false, hSuccess, ?_⟩
    simp only [Bool.false_eq_true, if_false, ensure_bind_panics, true_implies]
    refine ⟨hCount, hSizes, ?_⟩
    rw [hStack, ok_bind]
    exact bind_panics.mpr (Or.inl hEval)

--------
-- Taproot
--------

/- The annex that is split off starts with its tag. -/
theorem splitAnnex_annex {witness : List Bytes} (hSplit : splitAnnex witness = (items, annex)) :
    ∀ bytes ∈ annex, bytes.head? = some annexTag := by
  unfold splitAnnex at hSplit
  intro bytes hBytes
  split at hSplit
  · simp only [Prod.mk.injEq] at hSplit
    rw [← hSplit.2] at hBytes
    cases hBytes
  · split at hSplit
    case isTrue last _ hTag =>
      simp only [Prod.mk.injEq] at hSplit
      rw [← hSplit.2] at hBytes
      rw [← Option.some.inj hBytes]
      exact hTag.2
    case isFalse =>
      simp only [Prod.mk.injEq] at hSplit
      rw [← hSplit.2] at hBytes
      cases hBytes

/- What is left is part of the witness, and is not empty. -/
theorem splitAnnex_items {witness : List Bytes} (hWitness : witness ≠ [])
    (hSplit : splitAnnex witness = (items, annex)) :
    items ≠ [] ∧ ∀ item ∈ items, item ∈ witness := by
  unfold splitAnnex at hSplit
  split at hSplit
  · simp only [Prod.mk.injEq] at hSplit
    rw [← hSplit.1]
    exact ⟨hWitness, fun _ => id⟩
  · split at hSplit
    case isTrue hTwo =>
      simp only [Prod.mk.injEq] at hSplit
      rw [← hSplit.1]
      refine ⟨?_, fun _ hMem => dropLast_subset _ hMem⟩
      apply ne_nil_of_length_pos
      rw [length_dropLast]
      omega
    case isFalse =>
      simp only [Prod.mk.injEq] at hSplit
      rw [← hSplit.1]
      exact ⟨hWitness, fun _ => id⟩

/- How large a witness may be without a conversion failing. -/
def WitnessFits (K : Primitives) (witness : Witness) : Prop :=
  K.varIntSize witness.length +
    (witness.map fun item => K.varIntSize item.length + item.length).sum < 2 ^ 32

theorem length_lt_of_witnessFits (hFits : WitnessFits K witness) :
    witness.length < 2 ^ 32 ∧ ∀ item ∈ witness, item.length < 2 ^ 32 := by
  unfold WitnessFits at hFits
  have hItem : ∀ item ∈ witness, 1 ≤ K.varIntSize item.length + item.length :=
    fun item _ => Nat.le_add_right_of_le (one_le_varIntSize K item.length)
  have hCount : witness.length ≤
      (witness.map fun item => K.varIntSize item.length + item.length).sum := by
    have hSum := length_le_sum_of_one_le
      (witness.map fun item => K.varIntSize item.length + item.length) (by simpa using hItem)
    simpa using hSum
  refine ⟨by omega, ?_⟩
  intro item hMem
  have hLe : K.varIntSize item.length + item.length ≤
      (witness.map fun item => K.varIntSize item.length + item.length).sum :=
    le_sum_of_mem (mem_map_of_mem hMem)
  omega

/-
  The leaf of a script path carries a fresh budget and the annex, and its script is a witness item.
-/
theorem taprootLeaf_safe {witness : List Bytes} (outputKey : Hash32) (hFits : WitnessFits K witness)
    (hTwo : 2 ≤ items.length) (hItems : ∀ item ∈ items, item ∈ witness)
    (hAnnex : ∀ bytes ∈ annex, bytes.head? = some annexTag) :
    (taprootLeaf (K := K) witness items annex outputKey).Safe (fun leaf => ∀ stackItems script exec,
          leaf = some (stackItems, script, exec) →
            ValidExec (.ofTapscript exec) ∧ script.length < 2 ^ 32) := by
  have hControl : items.getLast? ≠ none := by
    rw [ne_eq, getLast?_eq_none_iff]
    exact ne_nil_of_length_pos (by omega)
  rcases Option.ne_none_iff_exists'.mp hControl with ⟨controlItem, hControlItem⟩
  have hScript : items.dropLast.getLast? ≠ none := by
    rw [ne_eq, getLast?_eq_none_iff]
    apply ne_nil_of_length_pos
    rw [length_dropLast]
    omega
  rcases Option.ne_none_iff_exists'.mp hScript with ⟨script, hScriptItem⟩
  have hMem : script ∈ witness :=
    hItems script (dropLast_subset _ (mem_of_getLast? hScriptItem))
  unfold taprootLeaf
  simp only [hControlItem, hScriptItem, expect_some, ok_bind]
  refine (ControlBlock.parse_safe controlItem).bind ?_
  intro control _
  refine (tapleafHash_safe K control.leafVersion_even script).bind ?_
  intro leafHash _
  refine (verifyTaprootCommitment_safe K control outputKey leafHash).bind ?_
  intro committed _
  refine safe_ensure_bind fun _ => ?_
  refine Safe.ite (fun _ => by simp) fun _ => ?_
  refine (validationWeight_safe K (Nat.lt_trans hFits (by decide))).bind ?_
  intro weight hWeight
  simp only [pure_eq_ok, safe_ok, Option.some.injEq, Prod.mk.injEq]
  rintro _ _ _ ⟨_, rfl, rfl⟩
  refine ⟨?_, (length_lt_of_witnessFits hFits).2 script hMem⟩
  intro tapscript hTap
  rw [← Option.some.inj hTap]
  exact ⟨hWeight, hAnnex⟩

/-
  A taproot spend executes the leaf `script` with the stack and the data given: it takes the script
  path, the leaf is committed to and is a tapscript, and it is run.
-/
def LeafRuns
    (K : Primitives) (witness : Witness) (outputKey : Hash32) (script : Script) (stack : Stack)
    (exec : TapscriptExec) : Prop :=
  2 ≤ (splitAnnex witness).1.length ∧
    ∃ items,
      taprootLeaf (K := K) witness (splitAnnex witness).1
          (splitAnnex witness).2 outputKey =
        .ok (some (items, script, exec)) ∧
      LeafStarts items script stack

/- The panics of a taproot spend are those of its leaf. -/
theorem verifyTaproot_panics_iff (outputKey : Hash32) (hFlag : flags.contains .taproot)
    (hInputs : checker.tx.input.length ≤ 2 ^ 32) (hFits : WitnessFits K witness) :
    (verifyTaproot witness outputKey flags checker).out.Panics ↔ ∃ script stack exec,
      LeafRuns K witness outputKey script stack exec ∧
        ¬ LeafNests script stack exec flags checker := by
  rcases hSplit : splitAnnex witness with ⟨items, annex⟩
  have hAnnex := splitAnnex_annex hSplit
  unfold verifyTaproot LeafRuns
  simp only [out_bind, out_lift, hFlag, hSplit, assert_true, ok_bind, ensure_bind_panics]
  rcases items with _ | ⟨signature, _ | ⟨second, rest⟩⟩
  case nil =>
    constructor
    · rintro ⟨hWitness, _⟩
      exact absurd rfl (splitAnnex_items hWitness hSplit).1
    · rintro ⟨_, _, _, ⟨hTwo, _⟩, _⟩
      simp at hTwo
  case cons.nil =>
    constructor
    · rintro ⟨_, hPanics⟩
      simp only [out_bind, out_call, out_lift, ok_bind] at hPanics
      exact absurd hPanics
        (checker.checkSchnorr_safe signature outputKey _ hInputs hAnnex).not_panics
    · rintro ⟨_, _, _, ⟨hTwo, _⟩, _⟩
      simp at hTwo
  case cons.cons =>
    simp only [out_bind, out_lift]
    have hTwo : 2 ≤ (signature :: second :: rest).length := by simp
    constructor
    · rintro ⟨hWitness, hPanics⟩
      have hLeaf := taprootLeaf_safe outputKey hFits hTwo
        (splitAnnex_items hWitness hSplit).2 hAnnex
      rcases hLeaf.bind_panics_iff.mp hPanics with ⟨_ | ⟨items, script, exec⟩, hOk, hPanics⟩
      · cases hPanics
      · rcases hLeaf.of_eq_ok hOk items script exec rfl with ⟨hValid, hLen⟩
        rcases (executeWitnessScript_panics_iff items flags hValid hInputs hLen).mp hPanics with
          ⟨stack, hStarts, hDeep⟩
        exact ⟨script, stack, exec, ⟨hTwo, items, hOk, hStarts⟩, hDeep⟩
    · rintro ⟨script, stack, exec, ⟨_, items, hOk, hStarts⟩, hDeep⟩
      have hWitness : witness ≠ [] := by
        rintro rfl
        simp [splitAnnex] at hSplit
      have hLeaf := taprootLeaf_safe outputKey hFits hTwo
        (splitAnnex_items hWitness hSplit).2 hAnnex
      rcases hLeaf.of_eq_ok hOk items script exec rfl with ⟨hValid, hLen⟩
      refine ⟨hWitness, ?_⟩
      rw [hOk, ok_bind]
      exact (executeWitnessScript_panics_iff items flags
        hValid hInputs hLen).mpr ⟨stack, hStarts, hDeep⟩

--------
-- Witness Programs
--------

/- Only a native taproot program can panic. -/
theorem verifyWitnessProgram_panics_iff (version : UInt8) (flags : ScriptFlags) (isP2sh : Bool)
    (hLow : 2 ≤ program.length) (hHigh : program.length ≤ 40)
    (hInputs : checker.tx.input.length ≤ 2 ^ 32) (hFits : WitnessFits K witness) :
    (verifyWitnessProgram witness version program flags checker isP2sh).out.Panics ↔
      version = 1 ∧ isP2sh = false ∧ flags.contains .taproot ∧
        ∃ outputKey : Hash32, outputKey.val = program ∧
          (verifyTaproot witness outputKey flags checker).out.Panics := by
  have hCount : witness.length < 2 ^ 63 :=
    Nat.lt_trans (length_lt_of_witnessFits hFits).1 (by decide)
  have hDropped : witness.dropLast.length < 2 ^ 63 := by
    rw [length_dropLast]
    omega
  unfold verifyWitnessProgram
  simp only [out_bind, out_lift, hLow, hHigh, assert_true, ok_bind, out_ite]
  by_cases hZero : version = 0
  · rw [if_pos hZero]
    constructor
    · intro hPanics
      refine absurd hPanics (Safe.not_panics (Q := fun _ => True) ?_)
      refine Safe.ite (fun _ => ?_) fun _ => ?_
      · refine safe_bind.mpr (safe_orFail.mpr ?_)
        intro script _
        refine safe_ensure_bind fun _ => ?_
        exact executeWitnessScript_v0_safe script flags hInputs hDropped
      refine Safe.ite (fun hKeyhash => ?_) fun _ => trivial
      refine safe_ensure_bind fun _ => ?_
      refine (p2wpkhScript_safe hKeyhash).bind ?_
      intro execScript _
      exact executeWitnessScript_v0_safe execScript flags hInputs hCount
    · rintro ⟨hOne, _⟩
      rw [hZero] at hOne
      exact absurd hOne (by decide)
  · rw [if_neg hZero]
    by_cases hOne : version = 1 ∧ (!isP2sh) = true
    · rw [if_pos hOne]
      rcases hOne with ⟨hVer, hNative⟩
      have hIsNative : isP2sh = false := by simpa using hNative
      cases hKey : ofBytes? witnessV1TaprootSize program with
      | none =>
        constructor
        · intro hPanics
          cases hPanics
        · rintro ⟨_, _, _, outputKey, rfl, _⟩
          have hSome := ofBytes?_val outputKey
          rw [show witnessV1TaprootSize = 32 from rfl, hSome] at hKey
          cases hKey
      | some outputKey =>
        have hProg := ofBytes?_eq_some.mp hKey
        rw [out_ite]
        by_cases hFlag : flags.contains .taproot = true
        · simp only [hFlag, Bool.not_true, Bool.false_eq_true, if_false]
          constructor
          · intro hPanics
            exact ⟨hVer, hIsNative, trivial, outputKey, hProg, hPanics⟩
          · rintro ⟨_, _, _, key, hSame, hPanics⟩
            have hEq : outputKey = key := Subtype.ext (hProg.trans hSame.symm)
            rwa [hEq]
        · simp only [hFlag, Bool.not_false, if_true, out_pure, Result.Panics, reduceCtorEq,
            Bool.false_eq_true, false_and, and_false]
    · rw [if_neg hOne]
      constructor
      · intro hPanics
        cases hPanics
      · rintro ⟨hVer, hNative, _⟩
        exact absurd ⟨hVer, by simp [hNative]⟩ hOne

/- The script of a taproot output. -/
def taprootScript (outputKey : Hash32) : Script :=
  op1 :: 0x20 :: outputKey.val

theorem witnessVersion?_eq_one {byte : UInt8} : witnessVersion? byte = some 1 ↔ byte = op1 := by
  constructor
  · intro hVer
    unfold witnessVersion? at hVer
    split at hVer
    · simp at hVer
    · split at hVer
      · simp only [Option.some.injEq] at hVer
        grind
      · cases hVer
  · rintro rfl
    rfl

/- The one 32-byte program of version one is taproot's. -/
theorem witnessProgram_eq_taproot_iff :
    witnessProgram script = .ok (some (1, outputKey.val)) ↔ script = taprootScript outputKey := by
  constructor
  · intro hFound
    unfold witnessProgram at hFound
    split at hFound
    · cases hFound
    · split at hFound
      case h_2 => cases hFound
      case h_1 versionByte pushLen program _ =>
        split at hFound
        case h_1 => cases hFound
        case h_2 version hVer =>
          split at hFound
          · cases hFound
          · rename_i hExact
            simp only [bind_eq_ok, assert_eq_ok, pure_inj,
              Option.some.injEq, Prod.mk.injEq] at hFound
            rcases hFound with ⟨_, hLen, rfl, hProg⟩
            rw [witnessVersion?_eq_one] at hVer
            rw [hProg, outputKey.property] at hLen
            have hPush : pushLen = 0x20 := UInt8.toNat_inj.mp hLen.symm
            rw [taprootScript, hVer, hPush, hProg]
  · rintro rfl
    have hLen := outputKey.property
    have hVer : witnessVersion? op1 = some 1 := rfl
    simp [witnessProgram, taprootScript, hLen, hVer,
      witnessProgramScriptLenMin, witnessProgramScriptLenMax]

/- A native witness program panics for a taproot output with an empty scriptSig whose leaf does. -/
theorem verifyNativeWitness_panics_iff (flags : ScriptFlags)
    (hInputs : checker.tx.input.length ≤ 2 ^ 32) (hFits : WitnessFits K witness) :
    (verifyNativeWitness scriptSig scriptPubkey witness flags checker).out.Panics ↔
      flags.contains .witness ∧ flags.contains .taproot ∧ scriptSig = [] ∧
        ∃ outputKey, scriptPubkey = taprootScript outputKey ∧
          (verifyTaproot witness outputKey flags checker).out.Panics := by
  have hProg := witnessProgram_safe scriptPubkey
  unfold verifyNativeWitness
  rw [out_ite]
  by_cases hFlag : flags.contains .witness = true
  case neg =>
    simp [hFlag, Result.Panics]
  simp only [hFlag, if_true, true_and, out_bind, out_lift]
  rw [hProg.bind_panics_iff]
  constructor
  · rintro ⟨_ | ⟨version, program⟩, hFound, hPanics⟩
    · cases hPanics
    · rcases hProg.of_eq_ok hFound version program rfl with ⟨hLow, hHigh⟩
      simp only [out_bind, out_lift, out_pure] at hPanics
      rw [ensure_bind_panics, bind_panics] at hPanics
      rcases hPanics with ⟨hSig, hVerify | ⟨_, _, hOk⟩⟩
      · rcases (verifyWitnessProgram_panics_iff version flags
            false hLow hHigh hInputs hFits).mp hVerify with
          ⟨rfl, _, hTaproot, outputKey, rfl, hKey⟩
        exact ⟨hTaproot, hSig, outputKey, witnessProgram_eq_taproot_iff.mp hFound, hKey⟩
      · cases hOk
  · rintro ⟨hTaproot, hSig, outputKey, hScript, hKey⟩
    have hFound := witnessProgram_eq_taproot_iff.mpr hScript
    rcases hProg.of_eq_ok hFound 1 outputKey.val rfl with ⟨hLow, hHigh⟩
    refine ⟨_, hFound, ?_⟩
    simp only [out_bind, out_lift, out_pure]
    rw [ensure_bind_panics, bind_panics]
    exact ⟨hSig, Or.inl ((verifyWitnessProgram_panics_iff 1 flags false hLow
        hHigh hInputs hFits).mpr ⟨rfl, rfl, hTaproot, outputKey, rfl, hKey⟩)⟩

--------
-- Taproot Outputs
--------

/- A taproot script is a one and a push of the output key. -/
theorem steps_taprootScript (outputKey : Hash32) :
    let script := taprootScript outputKey
    Reader.steps script = [.ok (⟨⟨op1⟩, [], 1⟩, ⟨script, 1, 1⟩),
        .ok (⟨⟨0x20⟩, outputKey.val, 34⟩, ⟨script, 34, 2⟩)] := by
  intro script
  have hKey := outputKey.property
  obtain ⟨hPush, hPushed⟩ := @isChunk_direct 0x20 outputKey.val (by decide) hKey
  have hFlat : [[op1], 0x20 :: outputKey.val].flatten = script := by simp [script, taprootScript]
  rw [← hFlat, Reader.steps_flatten _ (by simp)]
  · simp [opSteps, hPushed, hKey]
  · simp [hPush, isChunk_plain (show opPushdata4 < op1 by decide)]

theorem evalScript_nil (stack : Stack) (flags : ScriptFlags) (checker : TxSigChecker K) :
    (evalScript [] stack flags .base .legacy checker).out = .ok (stack, .legacy) := by
  have hSteps : Reader.steps [] = [] := Reader.stepsFrom_end rfl
  simp [evalScript, hSteps, evalLoop, Machine.start, ExecData.legacy, ConditionStack.new,
    ConditionStack.isEmpty, maxScriptSize]

/- An executed push only pushes. -/
theorem evalStep_push (limit : Option Nat) (env : Env K) (m : Machine) (op : Op) (reader : Reader)
    (hPush : op.opcode.isPush) (hSize : op.push.length ≤ maxScriptElementSize)
    (hTrue : m.conditions.allTrue) (hRoom : m.stack.len + 1 + m.altstack.len ≤ maxStackSize) :
    (evalStep limit env m op reader).out = .ok { m with
          stack := ⟨⟨op.push, hSize⟩ :: m.stack.items⟩ } := by
  have hUncounted : op.opcode.countsTowardOpLimit = false := by
    simp only [Opcode.isPush, Opcode.countsTowardOpLimit,
      decide_eq_true_eq, decide_eq_false_iff_not] at hPush ⊢
    grind
  have hEnabled : op.opcode.isDisabled = false := by
    simp only [Opcode.isPush, decide_eq_true_eq] at hPush
    simp only [Opcode.isDisabled, Bool.or_eq_false_iff,
      Bool.and_eq_false_iff, decide_eq_false_iff_not]
    grind
  have hCounted : countOp env m op = .ok m := by simp [countOp, hUncounted]
  have hDispatch : (dispatch limit env m op reader).out = .ok { m with
            stack := ⟨⟨op.push, hSize⟩ :: m.stack.items⟩ } := by
    simp [dispatch, hTrue, hPush, push_of_le hSize]
  have hFits :
      Stack.len ⟨⟨op.push, hSize⟩ :: m.stack.items⟩ + m.altstack.len ≤ maxStackSize := hRoom
  simp only [evalStep, out_bind, out_lift, out_pure, hSize, hCounted, hEnabled, hDispatch,
    hFits, Bool.false_eq_true, not_false_eq_true, ensure_true, ok_bind]

/- A taproot script leaves the output key on the stack. -/
theorem evalScript_taprootScript
    (outputKey : Hash32) (flags : ScriptFlags) (checker : TxSigChecker K) :
    ∃ key one : Element, key.val = outputKey.val ∧
      (evalScript (taprootScript outputKey) Stack.new flags
        .base .legacy checker).out = .ok (⟨[key, one]⟩, .legacy) := by
  have hFits : outputKey.val.length ≤ maxScriptElementSize := by
    rw [outputKey.property]
    decide
  have hLen : (taprootScript outputKey).length ≤ maxScriptSize := by
    simp [taprootScript, outputKey.property, maxScriptSize]
  refine ⟨⟨outputKey.val, hFits⟩, ⟨[1], by decide⟩, rfl, ?_⟩
  -- `OP_1` reads no data that depends on the key.
  have hOne : (evalStep (some nestingMax) ⟨taprootScript outputKey, flags, .base, checker⟩
        (Machine.start Stack.new .legacy) ⟨⟨op1⟩, [], 1⟩
        ⟨taprootScript outputKey, 1, 1⟩).out =
      .ok { Machine.start Stack.new .legacy with
          stack := ⟨[⟨[1], by decide⟩]⟩ } := rfl
  have hTwo := evalStep_push (some nestingMax) ⟨taprootScript outputKey, flags, .base, checker⟩
      { Machine.start Stack.new .legacy with
        stack := ⟨[⟨[1], by decide⟩]⟩ }
      ⟨⟨0x20⟩, outputKey.val, 34⟩
      ⟨taprootScript outputKey, 34, 2⟩ rfl hFits rfl
      (by decide)
  simp only [evalScript, steps_taprootScript, evalLoop,
    out_bind, out_lift, out_pure, hOne, hTwo, ok_bind]
  simp [hLen, ExecData.legacy, Machine.start, ConditionStack.new, ConditionStack.isEmpty]

--------
-- Pay to Script Hash
--------

theorem dispatch_hash160_fails
    {env : Env K} {m : Machine} {reader : Reader} (limit : Option Nat) (stop : Nat)
    (hTrue : m.conditions.allTrue) (hEmpty : m.stack.items = []) (hRead : 0 < reader.opsRead) :
    (dispatch limit env m ⟨⟨opHash160⟩, [], stop⟩
      reader).out = Result.fail .invalidStackOperation := by
  have hPush : (Opcode.mk opHash160).isPush = false := by decide
  have hExec (index : Nat) :
      (m.execute limit env ⟨⟨opHash160⟩, [], stop⟩ true index).out = m.hash K opHash160 := rfl
  simp [dispatch, hTrue, hPush, Reader.opcodeIndex, hRead, hExec, Machine.hash, require, hEmpty]

/- A script that starts with `HASH160` fails on an empty stack. -/
theorem evalScript_hash160_ne_ok {rest : Bytes} (hEmpty : stack.items = []) :
    (evalScript (opHash160 :: rest) stack flags .base exec checker).out ≠ .ok result := by
  intro hOk
  rcases Reader.steps_plain rest (show opPushdata4 < opHash160 by decide) with ⟨tail, hSteps⟩
  simp only [evalScript, out_bind, out_lift, out_pure, bind_eq_ok, hSteps, evalLoop,
    evalStep, Except.ok.injEq] at hOk
  rcases hOk with
    ⟨_, _, _, _, final, ⟨read, rfl, next, ⟨_, _, counted, hCount, _, _, m, hDispatch, _⟩, _⟩, _⟩
  have hCounted : counted.stack = stack ∧ counted.conditions = ConditionStack.new := by
    simp only [countOp] at hCount
    split at hCount
    · simp only [bind_eq_ok, pure_inj] at hCount
      rcases hCount with ⟨_, _, rfl⟩
      exact ⟨rfl, rfl⟩
    · cases hCount
      exact ⟨rfl, rfl⟩
  have hTrue : counted.conditions.allTrue := by
    rw [hCounted.2]
    rfl
  rw [dispatch_hash160_fails _ _ hTrue (hCounted.1 ▸ hEmpty) Nat.one_pos] at hDispatch
  exact fail_ne_ok _ _ hDispatch

/- A script that ran was within the size limit. -/
theorem length_le_of_evalScript
    (hOk : (evalScript script stack flags .base exec checker).out = .ok result) :
    script.length ≤ maxScriptSize := by
  simp only [evalScript, out_bind, out_lift, bind_eq_ok, ensure_eq_ok] at hOk
  rcases hOk with ⟨_, _, _, hSize, _⟩
  exact hSize rfl

theorem startsWith_base (script : Script) (hLegacy : exec.tapscript = none)
    (hInputs : checker.tx.input.length ≤ 2 ^ 32) (hStack : stack.len < 2 ^ 63) :
    StartsWith script stack .base exec checker where
  tapscript := by simp [hLegacy]
  validExec := by simp [ValidExec, hLegacy]
  inputs := hInputs
  stackLen := hStack
  tapscriptStack := by simp
  tapscriptLength := by simp

theorem requireTrue_safe (stack : Stack) : (requireTrue stack).Safe (fun _ => True) := by
  rcases stack with ⟨_ | ⟨top, rest⟩⟩
  · simp [requireTrue, Stack.isEmpty]
  · exact requireTop_safe (by simp)

theorem verifyRedeemScript_safe (scriptSig : Script) (redeemScript : Element) (flags : ScriptFlags)
    (hInputs : checker.tx.input.length ≤ 2 ^ 32) (hFits : WitnessFits K witness)
    (hStack : stack.len < 2 ^ 63) :
    (verifyRedeemScript scriptSig redeemScript.val stack
      witness flags checker).out.Safe (fun _ => True) := by
  unfold verifyRedeemScript
  simp only [out_bind, out_lift, out_ite, out_pure]
  refine (evalScript_safe flags (startsWith_base redeemScript.val rfl hInputs hStack) rfl).bind ?_
  rintro ⟨final, _⟩ _
  refine (requireTrue_safe final).bind ?_
  intro _ _
  refine Safe.ite (fun _ => trivial) fun _ => ?_
  refine (witnessProgram_safe redeemScript.val).bind ?_
  rintro (_ | ⟨version, program⟩) hProg
  · trivial
  · rcases hProg version program rfl with ⟨hLow, hHigh⟩
    simp only [out_bind, out_lift, out_pure]
    rcases Machine.element_pushEncoding redeemScript with ⟨push, hPush, _⟩
    rw [hPush, ok_bind]
    refine safe_ensure_bind fun _ => ?_
    have hVerify : (verifyWitnessProgram witness version program flags
        checker true).out.Safe (fun _ => True) := by
      rw [safe_true_iff,
        verifyWitnessProgram_panics_iff version flags true hLow hHigh hInputs hFits]
      simp
    exact hVerify.bind fun _ _ => trivial

theorem verifyP2sh_safe (hadWitness : Bool) (hInputs : checker.tx.input.length ≤ 2 ^ 32)
    (hFits : WitnessFits K witness) (hSig : scriptSig.length ≤ maxScriptSize)
    (hStack : stack.len < 2 ^ 63) (hNe : isPayToScriptHash scriptPubkey → stack.items ≠ []) :
    (verifyP2sh scriptSig scriptPubkey (if flags.contains .p2sh then some stack else none)
      witness flags checker hadWitness).out.Safe (fun _ => True) := by
  have hLen : scriptSig.length < 2 ^ 32 := Nat.lt_of_le_of_lt hSig (by decide)
  unfold verifyP2sh
  rw [out_ite]
  refine Safe.ite (fun hP2sh => ?_) fun _ => trivial
  rw [Bool.and_eq_true] at hP2sh
  simp only [out_bind, out_lift, hP2sh.1, if_true, expect_some, ok_bind]
  refine (isPushOnlySteps_safe (stepsOf_steps hLen)).bind ?_
  intro pushOnly _
  refine safe_ensure_bind fun _ => ?_
  rcases stack with ⟨_ | ⟨redeemScript, rest⟩⟩
  · exact absurd rfl (hNe hP2sh.2)
  · refine safe_bind.mpr (safe_assert.mpr ⟨by simp [Stack.isEmpty], ?_⟩)
    rw [pop_cons, ok_bind]
    refine verifyRedeemScript_safe scriptSig redeemScript flags hInputs hFits ?_
    simp only [Stack.len, length_cons] at hStack ⊢
    omega

/- A P2SH script starts with `HASH160`. -/
theorem isPayToScriptHash_head (hP2sh : isPayToScriptHash script) :
    ∃ rest, script = opHash160 :: rest := by
  simp only [isPayToScriptHash, Bool.and_eq_true, beq_iff_eq] at hP2sh
  rcases script with _ | ⟨first, rest⟩
  · simp at hP2sh
  · refine ⟨rest, ?_⟩
    have hFst : some first = some opHash160 := hP2sh.1.1.2
    rw [Option.some.inj hFst]

--------
-- The Verifier
--------

/-
  Verifying these scripts executes the leaf `script`: the output is a taproot output, spent with no
  scriptSig.
-/
def ExecutesLeaf
    (K : Primitives) (scriptSig scriptPubkey : Script) (witness : Witness) (flags : ScriptFlags)
    (script : Script) (stack : Stack) (exec : TapscriptExec) : Prop :=
  flags.contains .taproot ∧ scriptSig = [] ∧
    ∃ outputKey, scriptPubkey = taprootScript outputKey ∧
      castToBool outputKey.val ∧
      LeafRuns K witness outputKey script stack exec

/- What runs first leaves a true output key on the stack. -/
theorem castToBool_of_requireTrue {u : Unit}
    (hEval : (evalScript (taprootScript outputKey) Stack.new flags
      .base .legacy checker).out = .ok (stack, exec)) (hTrue : requireTrue stack = .ok u) :
    castToBool outputKey.val := by
  rcases evalScript_taprootScript outputKey flags checker with ⟨key, one, hKey, hOk⟩
  rw [hOk, Except.ok.injEq, Prod.mk.injEq] at hEval
  rw [← hEval.1] at hTrue
  rw [← hKey]
  simpa [requireTrue, Stack.isEmpty, Stack.top, indexAtDepth] using hTrue

/- Without a leaf that nests too deeply, verifying does not panic. -/
theorem verifyScript_safe (hFlags : flags.Consistent) (hInputs : checker.tx.input.length ≤ 2 ^ 32)
    (hFits : WitnessFits K witness) (hLeaf : ∀ script stack exec,
      ExecutesLeaf K scriptSig scriptPubkey witness flags script stack exec →
      LeafNests script stack exec flags checker) :
    (verifyScript scriptSig scriptPubkey witness flags checker).out.Safe (fun _ => True) := by
  unfold verifyScript
  simp only [out_bind, out_lift]
  refine safe_bind.mpr (safe_assert.mpr ⟨hFlags.1, ?_⟩)
  refine safe_bind.mpr (safe_assert.mpr ⟨hFlags.2, ?_⟩)
  refine (evalScript_safe flags (startsWith_base scriptSig rfl hInputs (by decide)) rfl).bind_eq ?_
  rintro ⟨stack, exec⟩ hSig ⟨hStack, hLegacy⟩
  have hLegacy : exec.tapscript = none := by simpa using hLegacy
  refine (evalScript_safe flags (startsWith_base scriptPubkey hLegacy hInputs hStack)
      rfl).bind_eq ?_
  rintro ⟨final, finalExec⟩ hPubkey _
  refine (requireTrue_safe final).bind_eq ?_
  intro _ hTrue _
  have hNative : (verifyNativeWitness scriptSig scriptPubkey witness
      flags checker).out.Safe (fun _ => True) := by
    rw [safe_true_iff, verifyNativeWitness_panics_iff flags hInputs hFits]
    rintro ⟨_, hTaproot, rfl, outputKey, rfl, hPanics⟩
    rw [evalScript_nil, Except.ok.injEq, Prod.mk.injEq] at hSig
    rw [← hSig.1, ← hSig.2] at hPubkey
    rcases (verifyTaproot_panics_iff outputKey hTaproot hInputs hFits).mp hPanics with
      ⟨script, leafStack, leafExec, hRuns, hDeep⟩
    exact hDeep (hLeaf script leafStack leafExec
      ⟨hTaproot, rfl, outputKey, rfl, castToBool_of_requireTrue hPubkey hTrue, hRuns⟩)
  refine hNative.bind ?_
  intro hadWitness _
  have hNe : isPayToScriptHash scriptPubkey → stack.items ≠ [] := by
    intro hP2sh hEmpty
    rcases isPayToScriptHash_head hP2sh with ⟨rest, rfl⟩
    exact evalScript_hash160_ne_ok hEmpty hPubkey
  refine (verifyP2sh_safe hadWitness hInputs hFits
    (length_le_of_evalScript hSig) hStack hNe).bind ?_
  intro _ _
  simp

/- Verifying panics exactly for a leaf that nests too deeply. -/
theorem verifyScript_panics_iff (hFlags : flags.Consistent)
    (hInputs : checker.tx.input.length ≤ 2 ^ 32) (hFits : WitnessFits K witness) :
    (verifyScript scriptSig scriptPubkey witness flags checker).out.Panics ↔ ∃ script stack exec,
      ExecutesLeaf K scriptSig scriptPubkey witness flags script stack exec ∧
      ¬ LeafNests script stack exec flags checker := by
  constructor
  · intro hPanics
    by_contra hNone
    have hLeaf : ∀ script stack exec,
        ExecutesLeaf K scriptSig scriptPubkey witness flags script stack exec →
        LeafNests script stack exec flags checker := by
      intro script stack exec hExecutes
      by_contra hDeep
      exact hNone ⟨script, stack, exec, hExecutes, hDeep⟩
    exact (verifyScript_safe hFlags hInputs hFits hLeaf).not_panics hPanics
  · rintro ⟨script, stack, exec, ⟨hTaproot, rfl, outputKey, rfl, hBool, hRuns⟩, hDeep⟩
    have hWitness := hFlags.2 hTaproot
    have hP2sh := hFlags.1 hWitness
    have hNative := (verifyNativeWitness_panics_iff flags hInputs hFits).mpr
        ⟨hWitness, hTaproot, rfl, outputKey, rfl,
          (verifyTaproot_panics_iff outputKey hTaproot hInputs
            hFits).mpr ⟨script, stack, exec, hRuns, hDeep⟩⟩
    rcases evalScript_taprootScript outputKey flags checker with ⟨key, one, hKey, hOk⟩
    have hTrue : requireTrue ⟨[key, one]⟩ = .ok () := by
      simpa [requireTrue, Stack.isEmpty, Stack.top, indexAtDepth, hKey] using hBool
    unfold verifyScript
    simp only [out_bind, out_lift, hP2sh, hWitness, implies_true, assert_true,
      ok_bind, evalScript_nil, hOk, hTrue]
    exact bind_panics.mpr (Or.inl hNative)

end Bitmigo
