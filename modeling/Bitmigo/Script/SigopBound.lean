import Bitmigo.Script.Sigops

/-
  The static counts bound the ECDSA checks a run makes.

  Key definitions include:
    * `ecdsaCalls`, the ECDSA checks of a run
    * `Announced`, what the opcode before a `CHECKMULTISIG` tells about the stack

  Key theorems include:
    * `ecdsaCalls_evalStep_le`, one opcode against its cost
    * `ecdsaCalls_evalScript_le`, one script against its count

  Each opcode runs at most once, so a script makes at most the checks its opcodes cost. The accurate
  cost needs one invariant: when the branch around it is taken, a small integer just read is on top
  of the stack.
-/

namespace Bitmigo

open Result Traced Stack

variable {K : Primitives} {env : Env K} {m next : Machine} {op : Op}
variable {mode : SigOpMode} {count : Nat} {script : Script} {previous : Opcode} {limit : Option Nat}
variable {reader : Reader} {program : Bytes}
variable {bound : Nat} {steps : List (Result ScriptError (Op × Reader))} {flags : ScriptFlags}
variable {sigVersion : SigVersion} {exec : ExecData}

variable {checker : TxSigChecker K}

/- The ECDSA checks a run makes, whatever its verdict. -/
def ecdsaCalls {α : Type} (run : Run α) : Nat :=
  run.calls .ecdsa

--------
-- Signature Opcodes
--------

namespace Machine

section

variable (env : Env K)

theorem ecdsaCalls_checkEcdsa_le (signature pubkey : Bytes) (code : Script) :
    ecdsaCalls (checkEcdsa env signature pubkey code) ≤ 1 :=
  calls_bind_le (calls_call_le _) (fun _ _ => Nat.le_of_eq (calls_lift _))

theorem ecdsaCalls_evalChecksigPreTapscript_le (m : Machine) (signature pubkey : Bytes) :
    ecdsaCalls (m.evalChecksigPreTapscript env signature pubkey) ≤ 1 :=
  calls_lift_le fun _ _ =>
    calls_lift_le fun _ _ =>
      calls_lift_le fun _ _ =>
        ecdsaCalls_checkEcdsa_le env signature pubkey _

/- A tapscript check is a Schnorr check. -/
theorem ecdsaCalls_evalChecksigTapscript_le (m : Machine) (signature pubkey : Bytes) :
    ecdsaCalls (m.evalChecksigTapscript env signature pubkey) ≤ 0 := by
  unfold evalChecksigTapscript
  refine calls_lift_le fun exec _ => ?_
  refine calls_lift_le fun _ _ => ?_
  refine calls_lift_le fun _ _ => ?_
  refine calls_lift_le fun _ _ => ?_
  split
  · exact Nat.le_of_eq (calls_pure _)
  · refine calls_ite_le (fun _ => ?_) (fun _ => ?_)
    · refine calls_bind_le (n := 0) (k := 0) ?_ ?_
      · exact Nat.le_of_eq (calls_call_of_ne (by decide))
      · intro _ _
        exact calls_lift_le fun _ _ =>
          Nat.le_of_eq (calls_pure _)
    · exact Nat.le_of_eq (calls_pure _)

/- The ECDSA checks one `CHECKSIG` may make. -/
def checksigCost (sigVersion : SigVersion) : Nat :=
  if sigVersion = .tapscript then 0 else 1

theorem ecdsaCalls_evalChecksig_le (m : Machine) (signature pubkey : Bytes) :
    ecdsaCalls (m.evalChecksig env signature pubkey) ≤ checksigCost env.sigVersion := by
  have hPre :
      ecdsaCalls (do
        let success ← m.evalChecksigPreTapscript env signature pubkey
        return (success, m) : Run (Bool × Machine)) ≤ 1 :=
    calls_bind_le (ecdsaCalls_evalChecksigPreTapscript_le env m signature pubkey)
      (fun _ _ => Nat.le_of_eq (calls_pure _))
  unfold evalChecksig
  cases env.sigVersion with
  | base => exact hPre
  | witnessV0 => exact hPre
  | tapscript => exact ecdsaCalls_evalChecksigTapscript_le env m signature pubkey

theorem ecdsaCalls_checksig_le (m : Machine) (opcode : UInt8) :
    ecdsaCalls (m.checksig env opcode) ≤ checksigCost env.sigVersion := by
  unfold checksig
  refine calls_lift_le fun _ _ => ?_
  refine calls_lift_le fun first _ => ?_
  refine calls_lift_le fun second _ => ?_
  refine calls_bind_le (k := 0) (ecdsaCalls_evalChecksig_le env m _ _) fun result _ => ?_
  refine calls_lift_le fun _ _ => ?_
  refine calls_ite_le (fun _ => ?_) fun _ => ?_
  · exact calls_lift_le fun _ _ =>
      calls_lift_le fun _ _ =>
        Nat.le_of_eq (calls_pure _)
  · exact Nat.le_of_eq (calls_pure _)

/- `CHECKSIGADD` exists in tapscript only. -/
theorem ecdsaCalls_checksigadd_le (m : Machine) : ecdsaCalls (m.checksigadd env) ≤ 0 := by
  unfold checksigadd
  refine calls_lift_le fun _ hVer => ?_
  have hTap := ensure_eq_ok.mp hVer
  refine calls_lift_le fun _ _ => ?_
  refine calls_lift_le fun first _ => ?_
  refine calls_lift_le fun _ _ => ?_
  refine calls_lift_le fun _ _ => ?_
  refine calls_lift_le fun second _ => ?_
  refine calls_lift_le fun third _ => ?_
  refine calls_bind_le (n := 0) (k := 0) ?_ fun result _ => ?_
  · have hChecks := ecdsaCalls_evalChecksig_le env m third.1.val first.1.val
    rwa [checksigCost, if_pos hTap] at hChecks
  · exact calls_lift_le fun _ _ =>
      calls_lift_le fun _ _ =>
        calls_lift_le fun _ _ =>
          Nat.le_of_eq (calls_pure _)

/- Every iteration of the matching loop uses up one key. -/
theorem ecdsaCalls_checkmultisigVerify_le
    (m : Machine) (code : Script) {fuel ikey isig keysLeft sigsLeft : Nat}
    (hSigs : sigsLeft ≤ keysLeft) :
    ecdsaCalls (m.checkmultisigVerify env code fuel ikey isig keysLeft sigsLeft) ≤ keysLeft := by
  induction fuel generalizing ikey isig keysLeft sigsLeft with
  | zero =>
    unfold checkmultisigVerify
    refine calls_ite_le (fun _ => ?_) fun _ => ?_
    · exact Nat.zero_le _
    · exact Nat.zero_le _
  | succ fuel ih =>
    unfold checkmultisigVerify
    refine calls_ite_le (fun _ => Nat.zero_le _) fun hSome => ?_
    refine calls_lift_le fun signature _ => ?_
    refine calls_lift_le fun pubkey _ => ?_
    refine calls_lift_le fun _ _ => ?_
    have hOne : 1 + (keysLeft - 1) = keysLeft := by omega
    rw [← hOne]
    refine calls_bind_le (ecdsaCalls_checkEcdsa_le env _ _ code) fun ok _ => ?_
    refine calls_lift_le fun _ _ => ?_
    rw [hOne]
    refine calls_ite_le (fun _ => Nat.zero_le _) fun hEnough => ?_
    exact ih (Nat.le_of_not_lt hEnough)

end

/-
  The counts of a multisig that gets to its checks: the top of the stack is the key count, which
  bounds the rest.
-/
theorem multisigCounts_eq_ok {m' : Machine} {keyCount isig sigCount : Nat}
    (hCounts : m.multisigCounts = .ok (keyCount, m', isig, sigCount)) :
    sigCount ≤ keyCount ∧ keyCount ≤ maxPubkeysPerMultisig ∧ ∃ item num, m.stack.top 1 = .ok item ∧
      ScriptNum.decode item.val scriptnumSizeMax = .ok num ∧ keyCount = num.toClampedI32.toNat := by
  simp only [multisigCounts, countFrom, bind_eq_ok,
    ensure_eq_ok, assert_eq_ok, pure_inj, Prod.mk.injEq]
    at hCounts
  rcases hCounts with ⟨_, _, item, hItem, num, hNum, _, hKeys,
    _, ⟨_, _, rfl⟩, _, _, _, _, _, _, sigNum, _, _, hSigs, _, ⟨_, _, rfl⟩, rfl, _, _, rfl⟩
  refine ⟨?_, ?_, item, num, hItem, hNum, rfl⟩
  · omega
  · omega

theorem ecdsaCalls_checkmultisig_le (env : Env K) (m : Machine) (opcode : UInt8)
    (hKeys : ∀ keyCount m' isig sigCount,
      m.multisigCounts = .ok (keyCount, m', isig, sigCount) → keyCount ≤ bound) :
    ecdsaCalls (m.checkmultisig env opcode) ≤ bound := by
  unfold checkmultisig
  refine calls_lift_le fun _ _ => ?_
  refine calls_lift_le fun counts hCounts => ?_
  rcases counts with ⟨keyCount, counted, isig, sigCount⟩
  have hSigs := (multisigCounts_eq_ok hCounts).1
  refine calls_lift_le fun _ _ => ?_
  refine calls_lift_le fun code _ => ?_
  refine calls_bind_le (k := 0) ?_ fun _ _ => ?_
  · exact Nat.le_trans (ecdsaCalls_checkmultisigVerify_le env counted code hSigs)
      (hKeys _ _ _ _ hCounts)
  · exact Nat.le_of_eq (calls_lift _)

/- There is no `CHECKMULTISIG` in tapscript. -/
theorem ecdsaCalls_checkmultisig_tapscript (m : Machine) (opcode : UInt8)
    (hTap : env.sigVersion = .tapscript) : ecdsaCalls (m.checkmultisig env opcode) ≤ 0 := by
  unfold checkmultisig
  refine calls_lift_le fun _ hVer => ?_
  exact absurd hTap (ensure_eq_ok.mp hVer)

end Machine

--------
-- One Opcode
--------

/- Counting an opcode leaves the stack and the branches. -/
theorem countOp_eq_ok {counted : Machine} (hCount : countOp env m op = .ok counted) :
    counted.stack = m.stack ∧ counted.conditions = m.conditions := by
  unfold countOp at hCount
  split at hCount
  · simp only [bind_eq_ok, pure_inj] at hCount
    rcases hCount with ⟨_, _, rfl⟩
    exact ⟨rfl, rfl⟩
  · cases hCount
    exact ⟨rfl, rfl⟩

/- Only the signature opcodes make checks, and a `CHECKMULTISIG` only in a taken branch. -/
theorem ecdsaCalls_evalStep_le_of (limit : Option Nat) (reader : Reader)
    (hSig : op.opcode.byte = opChecksig ∨ op.opcode.byte = opChecksigverify →
      Machine.checksigCost env.sigVersion ≤ bound) (hMulti : op.opcode.byte = opCheckmultisig ∨
        op.opcode.byte = opCheckmultisigverify → m.conditions.allTrue →
      ∀ counted : Machine, counted.stack = m.stack →
        ecdsaCalls (counted.checkmultisig env op.opcode.byte) ≤ bound) :
    ecdsaCalls (evalStep limit env m op reader) ≤ bound := by
  unfold evalStep
  refine calls_lift_le fun _ _ => ?_
  refine calls_lift_le fun counted hCount => ?_
  rcases countOp_eq_ok hCount with ⟨hStack, hConds⟩
  refine calls_lift_le fun _ _ => ?_
  refine calls_bind_le (k := 0) ?_ fun _ _ => calls_lift_le fun _ _ => Nat.zero_le _
  unfold dispatch
  refine calls_ite_le (fun _ => ?_) fun _ => ?_
  · exact calls_lift_le fun _ _ => Nat.zero_le _
  refine calls_ite_le (fun hRuns => ?_) fun _ => Nat.zero_le _
  refine calls_lift_le fun _ _ => ?_
  unfold Machine.execute
  refine calls_ite_le (fun _ => Nat.zero_le _) fun hPlain => ?_
  refine calls_ite_le (fun hByte => ?_) fun _ => ?_
  · exact Nat.le_trans (Machine.ecdsaCalls_checksig_le env counted _) (hSig hByte)
  refine calls_ite_le (fun _ => ?_) fun _ => ?_
  · exact Nat.le_trans (Machine.ecdsaCalls_checksigadd_le env counted) (Nat.zero_le _)
  refine calls_ite_le (fun hByte => ?_) fun _ => Nat.zero_le _
  have hNotConditional : op.opcode.isConditional = false := by
    rcases hByte with hByte | hByte <;> simp [Opcode.isConditional, hByte] <;> decide
  rw [hNotConditional, Bool.or_false, hConds] at hRuns
  exact hMulti hByte hRuns counted hStack

/- A tapscript makes no ECDSA check. -/
theorem ecdsaCalls_evalStep_tapscript (limit : Option Nat) (m : Machine) (op : Op) (reader : Reader)
    (hTap : env.sigVersion = .tapscript) : ecdsaCalls (evalStep limit env m op reader) ≤ 0 := by
  apply ecdsaCalls_evalStep_le_of
  · intro _
    rw [Machine.checksigCost, if_pos hTap]
  · intro _ _ counted _
    exact Machine.ecdsaCalls_checkmultisig_tapscript counted _ hTap

/- In a taken branch, a small integer just read is the number on top of the stack. -/
def Announced (previous : Opcode) (m : Machine) : Prop :=
  m.conditions.allTrue →
    op1 ≤ previous.byte →
    previous.byte ≤ op16 →
    ∀ item num,
      m.stack.top 1 = .ok item →
      ScriptNum.decode item.val scriptnumSizeMax = .ok num →
        previous.smallInteger = .ok num.toClampedI32

/- One opcode makes at most the checks it costs. -/
theorem ecdsaCalls_evalStep_le (limit : Option Nat) (env : Env K) (reader : Reader) {cost : Nat}
    (hAnnounced : Announced previous m) (hCost : sigopCost mode previous op.opcode = .ok cost) :
    ecdsaCalls (evalStep limit env m op reader) ≤ cost := by
  unfold sigopCost at hCost
  apply ecdsaCalls_evalStep_le_of
  · intro hByte
    rw [if_pos hByte] at hCost
    cases hCost
    unfold Machine.checksigCost
    split <;> decide
  · intro hByte hTrue counted hStack
    have hOther : ¬ (op.opcode.byte = opChecksig ∨ op.opcode.byte = opChecksigverify) := by
      rcases hByte with hByte | hByte <;> rw [hByte] <;> decide
    rw [if_neg hOther, if_pos hByte] at hCost
    apply Machine.ecdsaCalls_checkmultisig_le
    intro keyCount counted' isig sigCount hCounts
    rcases Machine.multisigCounts_eq_ok hCounts with ⟨_, hMax, item, num, hItem, hNum, hKeys⟩
    split at hCost
    case isTrue hSmall =>
      rw [hStack] at hItem
      have hValue := hAnnounced hTrue hSmall.2.1 hSmall.2.2 item num hItem hNum
      simp only [hValue, ok_bind, bind_eq_ok, pure_inj] at hCost
      rcases hCost with ⟨_, _, _, _, _, _, rfl⟩
      exact Nat.le_of_eq hKeys
    case isFalse =>
      cases hCost
      exact hMax

/- The bytes a small integer opcode pushes. -/
def smallIntegerItem (opcode : Opcode) : Result ScriptError Bytes := do
  let value ← opcode.smallInteger
  let value ← ScriptNum.fromI64 value
  value.encode

/- Decoding a pushed small integer gives it back. -/
theorem decode_smallIntegerItem {opcode : Opcode} (hSmall : opcode.IsSmallInteger) :
    (do
      let item ← smallIntegerItem opcode
      let num ← ScriptNum.decode item scriptnumSizeMax
      return num.toClampedI32) = opcode.smallInteger := by
  have hAll : ∀ byte ∈ smallIntegerBytes, (do
          let item ← smallIntegerItem ⟨byte⟩
          let num ← ScriptNum.decode item scriptnumSizeMax
          return num.toClampedI32) = (Opcode.mk byte).smallInteger := by
    decide +kernel
  exact hAll opcode.byte (mem_smallIntegerBytes hSmall)

/- What a step that goes on did. -/
theorem evalStep_eq_ok (hStep : (evalStep limit env m op reader).out = .ok next) :
    ∃ counted, countOp env m op = .ok counted ∧
      (dispatch limit env counted op reader).out = .ok next ∧ op.opcode.isDisabled = false := by
  simp only [evalStep, out_bind, out_lift,
    out_pure, bind_eq_ok, ensure_eq_ok, Except.ok.injEq] at hStep
  rcases hStep with ⟨_, _, counted, hCount, _, hEnabled, after, hDispatch, _, _, rfl⟩
  exact ⟨counted, hCount, hDispatch, by simpa using hEnabled⟩

/- A small integer is pushed in a taken branch, else skipped. -/
theorem dispatch_smallInteger (hSmall : op.opcode.IsSmallInteger)
    (hNext : (dispatch limit env m op reader).out = .ok next) :
    (m.conditions.allTrue = false ∧ next = m) ∨ ∃ item, smallIntegerItem op.opcode = .ok item ∧
      m.stack.push item = .ok next.stack ∧ next.conditions = m.conditions := by
  have hPush : op.opcode.isPush = false := by
    simp only [Opcode.isPush, decide_eq_false_iff_not]
    grind
  have hConditional : op.opcode.isConditional = false := by
    simp only [Opcode.isConditional, Bool.and_eq_false_iff, decide_eq_false_iff_not]
    grind
  cases hTrue : m.conditions.allTrue with
  | false =>
    simp only [dispatch, hTrue, hConditional, Bool.false_and, Bool.or_self, Bool.false_eq_true,
      if_false, out_pure, Except.ok.injEq] at hNext
    exact .inl ⟨rfl, hNext.symm⟩
  | true =>
    refine .inr ?_
    simp only [dispatch, hTrue, hPush, Bool.and_false,
      Bool.false_eq_true, if_false, Bool.true_or, if_true, out_bind, out_lift, bind_eq_ok]
      at hNext
    rcases hNext with ⟨index, _, hNext⟩
    have hPlain : (m.execute limit env op true index).out = m.executePlain env op index := by
      unfold Machine.execute
      rw [if_neg (by grind), if_neg (by grind), if_neg (by grind), if_neg (by grind)]
      rfl
    rw [hPlain, Machine.executePlain, if_pos hSmall] at hNext
    simp only [bind_eq_ok, pure_inj] at hNext
    rcases hNext with ⟨value, hValue, num, hNum, item, hItem, stack, hStack, rfl⟩
    refine ⟨item, ?_, hStack, rfl⟩
    simp only [smallIntegerItem, hValue, hNum, hItem, ok_bind]

theorem announced_evalStep (hStep : (evalStep limit env m op reader).out = .ok next) :
    Announced op.opcode next := by
  intro hTrue hLow hHigh top num hTop hNum
  rcases evalStep_eq_ok hStep with ⟨counted, _, hDispatch, _⟩
  have hSmall : op.opcode.IsSmallInteger := .inr ⟨hLow, hHigh⟩
  rcases dispatch_smallInteger hSmall hDispatch with ⟨hFalse, rfl⟩ | ⟨item, hItem, hPush, _⟩
  · rw [hFalse] at hTrue
    cases hTrue
  · rcases push_eq_ok hPush with ⟨pushed, rfl, hItems⟩
    rw [top_one_of_items hItems] at hTop
    cases hTop
    rw [← decode_smallIntegerItem hSmall, hItem]
    simp only [ok_bind, hNum, pure_eq_ok]

--------
-- One Script
--------

/- The scan only adds. -/
theorem le_of_sigopCountSteps {total : Nat}
    (hTotal : sigopCountSteps mode steps count previous = .ok total) : count ≤ total := by
  induction steps generalizing count previous with
  | nil =>
    cases hTotal
    exact Nat.le_refl _
  | cons step rest ih =>
    cases step with
    | error halt =>
      cases halt with
      | panic => cases hTotal
      | error e =>
        cases hTotal
        exact Nat.le_refl _
    | ok read =>
      simp only [sigopCountSteps, bind_eq_ok] at hTotal
      rcases hTotal with ⟨cost, _, _, _, hRest⟩
      exact Nat.le_of_add_right_le (ih hRest)

/- The checks of a run are in the count of what it reads. -/
theorem ecdsaCalls_evalLoop_le (limit : Option Nat) {total : Nat}
    (hAnnounced : Announced previous m)
    (hTotal : sigopCountSteps mode steps count previous = .ok total) :
    ecdsaCalls (evalLoop limit env steps m) + count ≤ total := by
  induction steps generalizing m count previous with
  | nil =>
    cases hTotal
    exact Nat.le_of_eq (Nat.zero_add _)
  | cons step rest ih =>
    cases step with
    | error halt =>
      -- Both stop at a read that fails.
      cases halt with
      | panic => cases hTotal
      | error e =>
        cases hTotal
        exact Nat.le_of_eq (Nat.zero_add _)
    | ok read =>
      rcases read with ⟨op, reader⟩
      simp only [sigopCountSteps, bind_eq_ok] at hTotal
      rcases hTotal with ⟨cost, hCost, _, _, hRest⟩
      have hStep := ecdsaCalls_evalStep_le limit env reader hAnnounced hCost
      have hBind : ecdsaCalls (evalLoop limit env (.ok (op, reader) :: rest)
          m) ≤ cost + (total - (count + cost)) := by
        refine calls_lift_le fun read hRead => ?_
        cases hRead
        refine calls_bind_le hStep fun next hNext => ?_
        have hNextLe := ih (announced_evalStep hNext) hRest
        exact Nat.le_sub_of_add_le hNextLe
      have hMono := le_of_sigopCountSteps hRest
      omega

/- The calls of a script are those of its loop. -/
theorem calls_evalScript_le {stack : Stack} {c : SigCall}
    (hLoop : (evalLoop (some nestingMax) ⟨script, flags, sigVersion, checker⟩
      (Reader.steps script) (Machine.start stack exec)).calls c ≤ bound) :
    (evalScript script stack flags sigVersion exec checker).calls c ≤ bound := by
  unfold evalScript
  refine calls_lift_le fun _ _ => ?_
  refine calls_lift_le fun _ _ => ?_
  refine calls_bind_le (k := 0) hLoop fun _ _ => ?_
  exact calls_lift_le fun _ _ =>
    calls_lift_le fun _ _ => Nat.zero_le _

/- A script makes at most the checks it is counted for. -/
theorem ecdsaCalls_evalScript_le
    (stack : Stack) (flags : ScriptFlags) (sigVersion : SigVersion) (exec : ExecData)
    (checker : TxSigChecker K) (hCount : sigopCount script mode = .ok count) :
    ecdsaCalls (evalScript script stack flags sigVersion exec checker) ≤ count := by
  simp only [sigopCount, bind_eq_ok, pure_inj] at hCount
  rcases hCount with ⟨total, hTotal, _, _, rfl⟩
  have hAnnounced : Announced ⟨opInvalidopcode⟩ (Machine.start stack exec) :=
    fun _ _ hHigh => absurd hHigh (by decide)
  exact calls_evalScript_le (ecdsaCalls_evalLoop_le _ hAnnounced hTotal)

theorem ecdsaCalls_evalLoop_tapscript
    (limit : Option Nat) (steps : List (Result ScriptError (Op × Reader))) (m : Machine)
    (hTap : env.sigVersion = .tapscript) : ecdsaCalls (evalLoop limit env steps m) ≤ 0 := by
  induction steps generalizing m with
  | nil => exact Nat.le_refl 0
  | cons step rest ih =>
    refine calls_lift_le fun read _ => ?_
    exact calls_bind_le (n := 0) (k := 0)
      (ecdsaCalls_evalStep_tapscript limit m read.1 read.2 hTap) (fun next _ => ih next)

--------
-- Witness Programs
--------

/- A witness script makes the calls its script makes. -/
theorem calls_executeWitnessScript_le {items : List Bytes} {c : SigCall}
    (hScript : ∀ stack, fromItems items = .ok stack →
      (evalScript script stack flags sigVersion exec checker).calls c ≤ bound) :
    (executeWitnessScript items script flags sigVersion exec checker).calls c ≤ bound := by
  unfold executeWitnessScript
  refine calls_lift_le fun _ _ => ?_
  refine calls_lift_le fun succeeded _ => ?_
  refine calls_ite_le (fun _ => Nat.zero_le _) fun _ => ?_
  refine calls_lift_le fun _ _ => ?_
  refine calls_lift_le fun _ _ => ?_
  refine calls_lift_le fun stack hStack => ?_
  refine calls_bind_le (k := 0) (hScript stack hStack) fun _ _ => ?_
  exact calls_lift_le fun _ _ =>
    calls_lift_le fun _ _ => Nat.le_of_eq (calls_lift _)

theorem ecdsaCalls_verifyTaproot
    (witness : Witness) (outputKey : Hash32) (flags : ScriptFlags) (checker : TxSigChecker K) :
    ecdsaCalls (verifyTaproot witness outputKey flags checker) ≤ 0 := by
  unfold verifyTaproot
  refine calls_lift_le fun _ _ => ?_
  refine calls_lift_le fun _ _ => ?_
  split
  split
  · refine calls_bind_le (n := 0) (k := 0) ?_ ?_
    · exact Nat.le_of_eq (calls_call_of_ne (by decide))
    · exact fun _ _ => Nat.le_of_eq (calls_lift _)
  · refine calls_lift_le fun leaf _ => ?_
    split
    · exact Nat.le_refl 0
    · exact calls_executeWitnessScript_le fun stack _ =>
        calls_evalScript_le (ecdsaCalls_evalLoop_tapscript _ _ _ rfl)

theorem steps_p2wpkhScript (hProg : program.length = witnessV0KeyhashSize)
    (hScript : [opDup, opHash160, 0x14] ++ program ++ [opEqualverify, opChecksig] = script) :
    Reader.steps script = [.ok (⟨⟨opDup⟩, [], 1⟩, ⟨script, 1, 1⟩),
      .ok (⟨⟨opHash160⟩, [], 2⟩, ⟨script, 2, 2⟩), .ok (⟨⟨0x14⟩, program, 23⟩, ⟨script, 23, 3⟩),
      .ok (⟨⟨opEqualverify⟩, [], 24⟩, ⟨script, 24, 4⟩),
      .ok (⟨⟨opChecksig⟩, [], 25⟩, ⟨script, 25, 5⟩)] := by
  have hTwenty : program.length = 20 := hProg
  have hFlat : [[opDup], [opHash160], 0x14 :: program, [opEqualverify], [opChecksig]].flatten =
      script := by
    simp [← hScript]
  obtain ⟨hPush, hPushed⟩ := @isChunk_direct 0x14 program (by decide) hTwenty
  rw [← hFlat, Reader.steps_flatten _ (by simp)]
  · simp [opSteps, hPushed, hTwenty]
  · simp [hPush, isChunk_plain (show opPushdata4 < opDup by decide),
      isChunk_plain (show opPushdata4 < opHash160 by decide),
      isChunk_plain (show opPushdata4 < opEqualverify by decide),
      isChunk_plain (show opPushdata4 < opChecksig by decide)]

/- The script of a P2WPKH program has one `CHECKSIG`. -/
theorem sigopCount_p2wpkhScript (mode : SigOpMode) (hScript : p2wpkhScript program = .ok script) :
    sigopCount script mode = .ok 1 := by
  simp only [p2wpkhScript, bind_eq_ok, assert_eq_ok, pure_inj] at hScript
  rcases hScript with ⟨_, hProg, _, hLen, rfl⟩
  generalize hScript :
    [opDup, opHash160, 0x14] ++ program ++ [opEqualverify, opChecksig] = script at hLen ⊢
  rw [sigopCount, steps_p2wpkhScript hProg hScript, hLen]
  cases mode <;> rfl

theorem ecdsaCalls_verifyWitnessProgram_le
    {witness : Witness} {version : UInt8} (flags : ScriptFlags) (checker : TxSigChecker K)
    (isP2sh : Bool) (hCount : witnessProgramSigopCount version program witness = .ok count) :
    ecdsaCalls (verifyWitnessProgram witness version program flags checker isP2sh) ≤ count := by
  simp only [witnessProgramSigopCount, bind_eq_ok] at hCount
  rcases hCount with ⟨_, _, _, _, hCount⟩
  unfold verifyWitnessProgram
  refine calls_lift_le fun _ _ => ?_
  refine calls_lift_le fun _ _ => ?_
  refine calls_ite_le (fun hZero => ?_) fun _ => ?_
  · rw [if_neg (not_not.mpr hZero)] at hCount
    refine calls_ite_le (fun hScripthash => ?_) fun hOther => ?_
    · refine calls_lift_le fun script hLast => ?_
      have hNotKeyhash : program.length ≠ witnessV0KeyhashSize := by
        rw [hScripthash]
        decide
      rw [if_neg hNotKeyhash, if_pos hScripthash, orFail_eq_ok.mp hLast] at hCount
      refine calls_lift_le fun _ _ => ?_
      exact calls_executeWitnessScript_le fun stack _ =>
        ecdsaCalls_evalScript_le stack _ _ _ _ hCount
    · refine calls_ite_le (fun hKeyhash => ?_) (fun _ => Nat.zero_le _)
      rw [if_pos hKeyhash] at hCount
      cases hCount
      refine calls_lift_le fun _ _ => ?_
      refine calls_lift_le fun script hScript => ?_
      exact calls_executeWitnessScript_le fun stack _ =>
        ecdsaCalls_evalScript_le stack _ _ _ _ (sigopCount_p2wpkhScript .accurate hScript)
  · refine calls_ite_le (fun _ => ?_) (fun _ => Nat.zero_le _)
    split
    · exact Nat.zero_le _
    · refine calls_ite_le (fun _ => Nat.zero_le _) (fun _ => ?_)
      exact Nat.le_trans (ecdsaCalls_verifyTaproot witness _ flags checker) (Nat.zero_le _)

end Bitmigo
