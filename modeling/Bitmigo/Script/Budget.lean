import Bitmigo.Script.Multisig
import Bitmigo.Script.Visits

/-
  The signature budget of a tapscript leaf: every executed check of a signature that is not empty is
  charged, and nothing else is.

  Key definitions include:
    * `signedOps`, the charged opcodes of a run
    * `leafVisits`, the opcodes a leaf gets past

  Key theorems include:
    * `budget_of_visits`, what is left anywhere in a run
    * `schnorrCalls_evalLoop_le`, a check has been charged
    * `tapscript_budget`

  The budget starts from the size of the whole witness, so that size bounds the checks a spend can
  ask for.
-/

namespace Bitmigo

open Machine Result Traced List Crypto Stack Except

variable {K : Primitives} {flags : ScriptFlags} {script : Script}

variable {env : Env K}

--------
-- What Is Left
--------

/- The checks of a signature that is not empty. -/
def signedOps (seen : List Visit) : Nat :=
  seen.countP fun visit => visit.before.signs visit.op

@[simp] theorem signedOps_append (seen : List Visit) (visit : Visit) :
    signedOps (seen ++ [visit]) = signedOps seen +
      if visit.before.signs visit.op then 1 else 0 := by
  simp [signedOps, countP_append, countP_cons]

/- The budget that is left after these opcodes. -/
def TapscriptExec.after (exec : TapscriptExec) (seen : List Visit) : TapscriptExec :=
  { exec with
    validationWeightLeft := exec.validationWeightLeft - 50 * signedOps seen }

theorem TapscriptExec.after_append (exec : TapscriptExec) (seen : List Visit) (visit : Visit) :
    exec.after (seen ++ [visit]) = if visit.before.signs visit.op then
        (exec.after seen).charged true
      else
        exec.after seen := by
  have hPassed : validationWeightPerSigopPassed = 50 := rfl
  split
  case isTrue hSigns =>
    simp [after, charged, hSigns, hPassed]
    ring
  case isFalse hSigns =>
    simp [after, hSigns]

/-
  Wherever a tapscript gets, fifty have been taken for every signature so far, and the budget has
  not run out.
-/
theorem budget_of_visits
    {limit : Option Nat} {env : Env K} {steps : List (Result ScriptError (Op × Reader))}
    {start : Machine} {exec : TapscriptExec} {seen : List Visit}
    (hVer : env.sigVersion = .tapscript) (hExec : start.exec.tapscript = some exec)
    (hSeen : seen <+: visits limit env steps start) :
    (machineAfter start seen).exec.tapscript = some (exec.after seen) ∧
      (0 ≤ exec.validationWeightLeft → 0 ≤ (exec.after seen).validationWeightLeft) := by
  refine visits_induction (P := fun seen m => m.exec.tapscript = some (exec.after seen) ∧
        (0 ≤ exec.validationWeightLeft → 0 ≤ (exec.after seen).validationWeightLeft))
    ?_ ?_ hSeen
  · simpa [TapscriptExec.after, signedOps] using hExec
  · intro seen m op reader next hSeen _ hStep
    rcases hSeen with ⟨hLeft, hEnough⟩
    have hEffect := evalStep_effect hStep
    have hNext := hEffect.tapscript
    have hBudget := hEffect.budget hVer
    rw [chargedFor, hLeft] at hNext
    rw [TapscriptExec.after_append]
    by_cases hSigns : m.signs op = true
    · simp only [hVer, hSigns, and_self, if_true, Option.map_some] at hNext ⊢
      exact ⟨hNext, fun _ => hBudget hSigns _ hNext⟩
    · simp only [hSigns, Bool.false_eq_true, and_false, if_false] at hNext ⊢
      exact ⟨hNext, hEnough⟩

--------
-- The Checks Made
--------

/- The Schnorr checks a run makes, whatever its verdict. -/
def schnorrCalls {α : Type} (run : Run α) : Nat :=
  run.calls .schnorr

/- The check an opcode may make, if it has a signature. -/
def signatureCost (signature : Bytes) : Nat :=
  if signature.isEmpty then 0 else 1

namespace Machine

theorem schnorrCalls_evalChecksig_le (m : Machine) (signature pubkey : Bytes)
    (hVer : env.sigVersion = .tapscript) :
    schnorrCalls (m.evalChecksig env signature pubkey) ≤ signatureCost signature := by
  simp only [evalChecksig, hVer]
  unfold evalChecksigTapscript
  refine calls_lift_le fun exec _ => ?_
  refine calls_lift_le fun _ _ => ?_
  refine calls_lift_le fun _ _ => ?_
  refine calls_lift_le fun _ _ => ?_
  cases FixedBytes.ofBytes? 32 pubkey with
  | none => exact Nat.zero_le _
  | some key =>
    refine calls_ite_le (fun hSigned => ?_) fun _ => Nat.zero_le _
    have hOne : signatureCost signature = 1 := by simpa [signatureCost] using hSigned
    rw [hOne]
    refine calls_bind_le (n := 1) (k := 0) (calls_call_le _) ?_
    intro _ _
    exact calls_lift_le fun _ _ =>
      Nat.le_of_eq (calls_pure _)

/- The signature checked is the one the opcode finds. -/
theorem schnorrCalls_checksig_le (m : Machine) {byte : UInt8} {n : Nat}
    (hVer : env.sigVersion = .tapscript) (hCost : ∀ key signature rest,
      m.stack.items = key :: signature :: rest → signatureCost signature.val ≤ n) :
    schnorrCalls (m.checksig env byte) ≤ n := by
  unfold checksig
  refine calls_lift_le fun _ _ => ?_
  refine calls_lift_le fun first hKey => ?_
  refine calls_lift_le fun second hSig => ?_
  rcases first with ⟨key, below⟩
  rcases second with ⟨signature, rest⟩
  have hItems : m.stack.items = key :: signature :: rest.items := by
    rw [pop_eq_ok.mp hKey, pop_eq_ok.mp hSig]
  refine calls_bind_le (k := 0)
    (Nat.le_trans (m.schnorrCalls_evalChecksig_le signature.val key.val hVer)
      (hCost key signature rest.items hItems))
    (fun result _ => ?_)
  refine calls_lift_le fun _ _ => ?_
  refine calls_ite_le (fun _ => ?_) fun _ => Nat.zero_le _
  exact calls_lift_le fun _ _ =>
    calls_lift_le fun _ _ => Nat.zero_le _

theorem schnorrCalls_checksigadd_le (m : Machine) {n : Nat} (hVer : env.sigVersion = .tapscript)
    (hCost : ∀ key operand signature rest,
      m.stack.items = key :: operand :: signature :: rest → signatureCost signature.val ≤ n) :
    schnorrCalls (m.checksigadd env) ≤ n := by
  unfold checksigadd
  refine calls_lift_le fun _ _ => ?_
  refine calls_lift_le fun _ _ => ?_
  refine calls_lift_le fun first hKey => ?_
  refine calls_lift_le fun _ _ => ?_
  refine calls_lift_le fun _ _ => ?_
  refine calls_lift_le fun second hOperand => ?_
  refine calls_lift_le fun third hSig => ?_
  rcases first with ⟨key, below⟩
  rcases second with ⟨operand, lower⟩
  rcases third with ⟨signature, rest⟩
  have hItems : m.stack.items = key :: operand :: signature :: rest.items := by
    rw [pop_eq_ok.mp hKey, pop_eq_ok.mp hOperand, pop_eq_ok.mp hSig]
  refine calls_bind_le (k := 0)
    (Nat.le_trans (m.schnorrCalls_evalChecksig_le signature.val key.val hVer)
      (hCost key operand signature rest.items hItems))
    (fun result _ => ?_)
  exact calls_lift_le fun _ _ =>
    calls_lift_le fun _ _ =>
      calls_lift_le fun _ _ => Nat.zero_le _

theorem schnorrCalls_execute_le (limit : Option Nat) (m : Machine) (op : Op) (opcodeIndex : Nat)
    (hVer : env.sigVersion = .tapscript)
    (hExecuting : (m.conditions.allTrue || op.opcode.isConditional) = true) :
    schnorrCalls (m.execute limit env op m.conditions.allTrue opcodeIndex) ≤
      if m.signs op then 1 else 0 := by
  have hSigns {signature : Element} (hByte : op.opcode.isConditional = false)
      (hSig : m.signature op.opcode.byte = some signature.val) :
      signatureCost signature.val ≤ if m.signs op then 1 else 0 := by
    have hTrue : m.conditions.allTrue = true := by simpa [hByte] using hExecuting
    simp only [signs, hTrue, hSig, Bool.true_and, Option.any_some]
    cases hEmpty : signature.val.isEmpty <;> simp [signatureCost, hEmpty]
  unfold execute
  refine calls_ite_le (fun _ => Nat.zero_le _) fun _ => ?_
  refine calls_ite_le (fun hByte => ?_) fun _ => ?_
  · refine m.schnorrCalls_checksig_le hVer ?_
    intro key signature rest hItems
    refine hSigns ?_ (signature_of_depth 2 ?_ ?_)
    · rcases hByte with h | h <;> rw [Opcode.isConditional, h] <;> decide
    · simp [signatureDepth, hByte]
    · simp [hItems]
  refine calls_ite_le (fun hByte => ?_) fun _ => ?_
  · refine m.schnorrCalls_checksigadd_le hVer ?_
    intro key operand signature rest hItems
    refine hSigns ?_ (signature_of_depth 3 ?_ ?_)
    · rw [Opcode.isConditional, hByte]
      decide
    · rw [hByte]
      decide
    · simp [hItems]
  refine calls_ite_le (fun _ => ?_) fun _ => Nat.zero_le _
  refine calls_lift_le fun _ hNot => ?_
  exact absurd hVer (ensure_eq_ok.mp hNot)

end Machine

theorem schnorrCalls_evalStep_le (limit : Option Nat) (m : Machine) (op : Op) (reader : Reader)
    (hVer : env.sigVersion = .tapscript) :
    schnorrCalls (evalStep limit env m op reader) ≤ if m.signs op then 1 else 0 := by
  unfold evalStep
  refine calls_lift_le fun _ _ => ?_
  refine calls_lift_le fun counted hCount => ?_
  refine calls_lift_le fun _ _ => ?_
  have hSigns : counted.signs op = m.signs op := by
    rw [(countOp_uncounted hCount).1]
    rfl
  rw [← hSigns]
  refine calls_bind_le (k := 0) ?_ ?_
  · unfold dispatch
    refine calls_ite_le (fun _ => ?_) fun _ => ?_
    · exact calls_lift_le fun _ _ =>
        Nat.zero_le _
    refine calls_ite_le (fun hExecuting => ?_) fun _ => Nat.zero_le _
    refine calls_lift_le fun opcodeIndex _ => ?_
    exact counted.schnorrCalls_execute_le limit op opcodeIndex hVer hExecuting
  · intro next _
    exact calls_lift_le fun _ _ => Nat.zero_le _

/- A run that ends charged every check it made. -/
theorem schnorrCalls_evalLoop_le {limit : Option Nat}
    {steps : List (Result ScriptError (Op × Reader))} {m final : Machine}
    (hVer : env.sigVersion = .tapscript) (hLoop : (evalLoop limit env steps m).out = .ok final) :
    schnorrCalls (evalLoop limit env steps m) ≤ signedOps (visits limit env steps m) := by
  induction steps generalizing m with
  | nil => exact Nat.zero_le _
  | cons step rest ih =>
    simp only [evalLoop, out_bind, out_lift, bind_eq_ok] at hLoop
    rcases hLoop with ⟨⟨op, reader⟩, rfl, next, hStep, hRest⟩
    rw [visits_cons rest hStep, signedOps, countP_cons, Nat.add_comm]
    unfold evalLoop
    refine calls_lift_le fun read hRead => ?_
    cases hRead
    refine calls_bind_le (schnorrCalls_evalStep_le limit m op reader hVer) ?_
    intro other hOther
    rw [hStep] at hOther
    cases hOther
    exact ih hRest

--------
-- Script Path Spends
--------

/- The opcodes a tapscript leaf gets past. -/
def leafVisits (script : Script) (flags : ScriptFlags) (checker : TxSigChecker K) (stack : Stack)
    (exec : TapscriptExec) : List Visit :=
  visits (some nestingMax) ⟨script, flags, .tapscript, checker⟩
    (Reader.steps script)
    (Machine.start stack (.ofTapscript exec))

theorem validationWeight_eq_ok {witness : Witness} {weight : Int}
    (hWeight : validationWeight K witness = .ok weight) :
    ∃ size : Nat, witnessSerializedSize K witness = .ok size ∧ weight = 50 + size := by
  simp only [validationWeight, bind_eq_ok, pure_inj] at hWeight
  rcases hWeight with ⟨size, hSize, _, _, _, _, rfl⟩
  exact ⟨size, hSize, rfl⟩

/- The budget a leaf starts with. -/
theorem LeafRuns.validationWeight {witness : Witness} {outputKey : Hash32} {stack : Stack}
    {exec : TapscriptExec} (hLeaf : LeafRuns K witness outputKey script stack exec) :
    validationWeight K witness = .ok exec.validationWeightLeft := by
  rcases hLeaf with ⟨_, items, hTaproot, _⟩
  simp only [taprootLeaf, bind_eq_ok] at hTaproot
  rcases hTaproot with ⟨_, _, _, _, _, _, _, _, _, _, _, _, hTaproot⟩
  split at hTaproot
  · cases hTaproot
  · simp only [bind_eq_ok, pure_inj, Option.some.injEq, Prod.mk.injEq] at hTaproot
    rcases hTaproot with ⟨weight, hWeight, _, _, rfl⟩
    exact hWeight

/- The checks of a leaf that ends are those of its opcodes. -/
theorem schnorrCalls_evalScript_le {checker : TxSigChecker K} {stack : Stack} {exec : TapscriptExec}
    {result : Stack × ExecData} (hEval :
      (evalScript script stack flags .tapscript (.ofTapscript exec) checker).out = .ok result) :
    schnorrCalls (evalScript script stack flags .tapscript (.ofTapscript exec) checker) ≤
      signedOps (leafVisits script flags checker stack exec) := by
  simp only [evalScript, out_bind, out_lift, bind_eq_ok] at hEval
  rcases hEval with ⟨_, _, _, _, final, hLoop, _⟩
  exact calls_evalScript_le (schnorrCalls_evalLoop_le rfl hLoop)

theorem schnorrCalls_executeWitnessScript_le {items : List Bytes} {checker : TxSigChecker K}
    {stack : Stack} {exec : TapscriptExec} (hStarts : LeafStarts items script stack)
    (hAccepted : (executeWitnessScript items script flags .tapscript
        (.ofTapscript exec) checker).out = .ok ()) :
    schnorrCalls (executeWitnessScript items script flags .tapscript (.ofTapscript exec) checker) ≤
      signedOps (leafVisits script flags checker stack exec) := by
  rcases hStarts with ⟨hScan, _, _, hStack⟩
  have hEval : ∃ result, (evalScript script stack flags .tapscript
      (.ofTapscript exec) checker).out = .ok result := by
    simp only [executeWitnessScript, out_bind, out_lift, out_ite, if_true, hScan,
      hStack, ok_bind, Bool.false_eq_true, if_false, bind_eq_ok] at hAccepted
    rcases hAccepted with ⟨_, _, _, _, _, _, result, hEval, _⟩
    exact ⟨result, hEval⟩
  rcases hEval with ⟨result, hEval⟩
  refine calls_executeWitnessScript_le fun started hStarted => ?_
  rw [hStack, ok.injEq] at hStarted
  subst hStarted
  exact schnorrCalls_evalScript_le hEval

/- An accepted spend that ran its leaf did nothing else. -/
theorem schnorrCalls_verifyTaproot_le {witness : Witness} {outputKey : Hash32} {stack : Stack}
    {exec : TapscriptExec} {checker : TxSigChecker K}
    (hLeaf : LeafRuns K witness outputKey script stack exec)
    (hAccepted : (verifyTaproot witness outputKey flags checker).out = .ok ()) :
    schnorrCalls (verifyTaproot witness outputKey flags checker) ≤
      signedOps (leafVisits script flags checker stack exec) := by
  rcases hLeaf with ⟨hTwo, items, hTaproot, hStarts⟩
  unfold verifyTaproot at hAccepted ⊢
  rcases hSplit : splitAnnex witness with ⟨_ | ⟨signature, _ | ⟨second, rest⟩⟩, annex⟩
  · simp [hSplit] at hTwo
  · simp [hSplit] at hTwo
  rw [hSplit] at hTaproot hAccepted
  simp only [out_bind, out_lift, hTaproot, ok_bind, bind_eq_ok] at hAccepted
  rcases hAccepted with ⟨_, _, _, _, hAccepted⟩
  refine calls_lift_le fun _ _ => ?_
  refine calls_lift_le fun _ _ => ?_
  refine calls_lift_le fun leaf hFound => ?_
  rw [hTaproot, ok.injEq] at hFound
  subst hFound
  exact schnorrCalls_executeWitnessScript_le hStarts hAccepted

/-
  Wherever a tapscript run has got, its budget is the weight of its witness less fifty for every
  signature checked so far. An accepted spend that ran its leaf therefore checked no more signatures
  than its witness has room for, and made no Schnorr check besides.
-/
theorem tapscript_budget
    (witness : Witness) (script : Script) (flags : ScriptFlags) (checker : TxSigChecker K)
    (stack : Stack) (exec : TapscriptExec) :
    (∀ weight,
      validationWeight K witness = .ok weight →
      exec.validationWeightLeft = weight →
      ∀ seen,
        seen <+: leafVisits script flags checker stack exec →
          (machineAfter (Machine.start stack (.ofTapscript exec)) seen).exec.tapscript = some
              { exec with
                validationWeightLeft := weight - 50 * signedOps seen }) ∧
    (∀ outputKey,
      LeafRuns K witness outputKey script stack exec →
      (verifyTaproot witness outputKey flags checker).out = .ok () →
        validationWeight K witness = .ok exec.validationWeightLeft ∧
          ∃ size,
            witnessSerializedSize K witness = .ok size ∧
            50 * signedOps (leafVisits script flags checker stack exec) ≤ 50 + size ∧
            schnorrCalls (verifyTaproot witness outputKey flags checker) ≤
              signedOps (leafVisits script flags checker stack exec)) := by
  have hBudget (seen : List Visit) := @budget_of_visits K (some nestingMax)
      ⟨script, flags, .tapscript, checker⟩
      (Reader.steps script)
      (Machine.start stack (.ofTapscript exec)) exec seen rfl
      rfl
  constructor
  · rintro weight _ rfl seen hSeen
    exact (hBudget seen hSeen).1
  · intro outputKey hLeaf hAccepted
    have hWeight := hLeaf.validationWeight
    rcases validationWeight_eq_ok hWeight with ⟨size, hSize, hLeft⟩
    have hEnough := (hBudget _ (prefix_refl _)).2 (by omega)
    refine ⟨hWeight, size, hSize, ?_, schnorrCalls_verifyTaproot_le hLeaf hAccepted⟩
    simp only [TapscriptExec.after, hLeft] at hEnough
    unfold leafVisits
    omega

--------
-- A Signed Leaf
--------

namespace SignedLeaf

def leafKey : Hash32 := hash32 3

def internalKey : Hash32 := hash32 5

def outputKey : Hash32 := hash32 7

/- One signature for one key. -/
def leaf : Script := [0x20] ++ leafKey.val ++ [opChecksig]

def signature : Bytes := replicate 64 1

def controlBlock : Bytes := 0xc0 :: internalKey.val

def witness : Witness := [signature, leaf, controlBlock]

/- The output commits to the leaf, and the signature is good. -/
def crypto : Crypto :=
  { ofSha256 [] with
    isXOnlyKey := fun _ => true
    isScalar := fun _ => true
    tweakAddCheck := fun key other odd _ =>
      key = internalKey ∧ other = outputKey ∧ odd = false
    verifySchnorr := fun bytes _ key =>
      bytes.val = signature ∧ key = leafKey }

def checker : TxSigChecker crypto.primitives where
  tx := {
    version := 2
    lockTime := 0
    input := [⟨⟨FixedBytes.zero 32, 0⟩, [], 0xffffffff, witness⟩]
    output := [⟨0, [opReturn]⟩] }
  index := 0
  prevouts := [⟨1000, taprootScript outputKey⟩]
  precomputed := .blank (FixedBytes.zero 32)
  index_lt := by decide
  length_prevouts := rfl
  builtFor := ⟨rfl, rfl, rfl⟩

theorem length_signature_le :
    signature.length ≤ maxScriptElementSize := by decide

def stack : Stack := ⟨[⟨signature, length_signature_le⟩]⟩

def exec : TapscriptExec := ⟨FixedBytes.zero 32, none, 185⟩

theorem leafRuns : LeafRuns crypto.primitives witness outputKey leaf stack exec :=
  ⟨by decide, [signature], rfl, rfl, by decide, by decide, rfl⟩

/- The one check is charged, within the 135 bytes of witness. -/
theorem tapscript_budget_once :
    (verifyTaproot witness outputKey .mandatory checker).out = .ok () ∧
      signedOps (leafVisits leaf .mandatory checker stack exec) = 1 ∧
      (machineAfter (Machine.start stack (.ofTapscript exec))
          (leafVisits leaf .mandatory checker stack exec)).exec.tapscript =
        some { exec with validationWeightLeft := 135 } ∧
      schnorrCalls (verifyTaproot witness outputKey .mandatory checker) ≤ 1 := by
  have hAccepted : (verifyTaproot witness outputKey .mandatory checker).out = .ok () := by
    decide +kernel
  have hOnce : signedOps (leafVisits leaf .mandatory checker stack exec) = 1 := by decide +kernel
  rcases tapscript_budget witness leaf .mandatory checker stack exec with ⟨hBudget, hSpend⟩
  rcases hSpend outputKey leafRuns hAccepted with ⟨hWeight, size, hSize, hRoom, hCalls⟩
  have hLeft := hBudget _ hWeight rfl _ (prefix_refl _)
  rw [hOnce] at hLeft hCalls
  exact ⟨hAccepted, hOnce, hLeft, hCalls⟩

end SignedLeaf

end Bitmigo
