import Bitmigo.Script.SigopBound

/-
  The ECDSA checks of a whole input are bounded by the four static counts.

  Key definitions include:
    * `Harmless`, a redeem script that makes no check
    * `Revealed`, what a push-only scriptSig leaves on top

  Key theorems include:
    * `evalLoop_pushOnly`, the redeem script that runs is the one `lastPush` finds, or a harmless
      one
    * `ecdsaCalls_verifyScript_le`
-/

namespace Bitmigo

open Result Traced Crypto Bool

variable {K : Primitives} {flags : ScriptFlags}
variable {scriptCount programCount : Nat} {limit : Option Nat} {m : Machine}
variable {stack : Stack} {next : Machine} {reader : Reader} {exec : ExecData} {witness : Witness}

variable {env : Env K}

--------
-- The Redeem Script
--------

/- A script that counts for nothing and is no program. -/
def Harmless (script : Script) : Prop :=
  sigopCount script .accurate = .ok 0 ∧ witnessProgram script = .ok none

/-
  The small integers leave one byte on the stack. As a script it is a truncated push or a disabled
  opcode.
-/
theorem harmless_smallIntegerItem {opcode : Opcode} {item : Bytes} (hSmall : opcode.IsSmallInteger)
    (hItem : smallIntegerItem opcode = .ok item) : Harmless item := by
  have hAll : ∀ byte ∈ smallIntegerBytes, (do
          let item ← smallIntegerItem ⟨byte⟩
          sigopCount item .accurate) = .ok 0 ∧
        (do
          let item ← smallIntegerItem ⟨byte⟩
          witnessProgram item) = .ok none := by
    decide +kernel
  have hByte := hAll opcode.byte (mem_smallIntegerBytes hSmall)
  simp only [hItem, ok_bind] at hByte
  exact hByte

/- The top of the stack is the last push, or harmless. -/
def Revealed (last : Bytes) (stack : Stack) : Prop :=
  ∀ top rest, stack.items = top :: rest → top.val = last ∨ Harmless top.val

theorem revealed_push {next : Stack} {item last : Bytes} (hPush : stack.push item = .ok next)
    (hItem : item = last ∨ Harmless item) : Revealed last next := by
  intro top rest hItems
  rcases Stack.push_eq_ok hPush with ⟨pushed, rfl, hNext⟩
  rw [hNext] at hItems
  cases hItems
  exact hItem

/- `OP_RESERVED` fails a script that runs it. -/
theorem dispatch_reserved_ne_ok {op : Op} (hTrue : m.conditions.allTrue)
    (hReserved : op.opcode.byte = opReserved) :
    (dispatch limit env m op reader).out ≠ .ok next := by
  intro hNext
  have hPush : op.opcode.isPush = false := by
    rw [Opcode.isPush, hReserved]
    decide
  simp only [dispatch, hTrue, hPush, Bool.and_false,
    false_eq_true, if_false, Bool.true_or, if_true, out_bind, out_lift, bind_eq_ok]
    at hNext
  rcases hNext with ⟨index, _, hNext⟩
  have hFail : (m.execute limit env op true index).out = Result.fail .badOpcode := by
    simp only [Machine.execute, Machine.executePlain, hReserved]
    rfl
  rw [hFail] at hNext
  cases hNext

/- One opcode of a push-only script. -/
theorem evalStep_pushOnly {op : Op} (hTrue : m.conditions.allTrue) (hByte : ¬ op16 < op.opcode.byte)
    (hStep : (evalStep limit env m op reader).out = .ok next) :
    next.conditions.allTrue ∧ Revealed op.push next.stack := by
  rcases evalStep_eq_ok hStep with ⟨counted, hCount, hNext, _⟩
  rcases countOp_eq_ok hCount with ⟨_, hConds⟩
  rw [← hConds] at hTrue
  by_cases hPush : op.opcode.isPush
  · simp only [dispatch, hTrue, hPush, Bool.and_self, if_true,
      out_bind, out_lift, out_pure, bind_eq_ok, Except.ok.injEq] at hNext
    rcases hNext with ⟨stack, hStack, rfl⟩
    exact ⟨hTrue, revealed_push hStack (.inl rfl)⟩
  · by_cases hSmall : op.opcode.IsSmallInteger
    · rcases dispatch_smallInteger hSmall hNext with ⟨hFalse, _⟩ | ⟨item, hItem, hStack, hSame⟩
      · rw [hFalse] at hTrue
        cases hTrue
      · rw [hSame]
        exact ⟨hTrue, revealed_push hStack (.inr (harmless_smallIntegerItem hSmall hItem))⟩
    · -- What is left is `OP_RESERVED`, which fails.
      have hReserved : op.opcode.byte = opReserved := by
        simp only [Opcode.isPush, decide_eq_true_eq] at hPush
        grind
      exact absurd hNext (dispatch_reserved_ne_ok hTrue hReserved)

/- What the scan finds is what the run leaves on top. -/
theorem evalLoop_pushOnly {steps : List (Result ScriptError (Op × Reader))} {final : Machine}
    {last : Bytes} (hPushOnly : isPushOnlySteps steps = .ok true) (hTrue : m.conditions.allTrue)
    (hRevealed : Revealed last m.stack) (hRun : (evalLoop limit env steps m).out = .ok final) :
    ∃ revealed, lastPushSteps steps last = .ok (some revealed) ∧ Revealed revealed final.stack := by
  induction steps generalizing m last with
  | nil =>
    cases hRun
    exact ⟨last, rfl, hRevealed⟩
  | cons step rest ih =>
    cases step with
    | error halt => cases halt <;> cases hPushOnly
    | ok read =>
      rcases read with ⟨op, reader⟩
      simp only [isPushOnlySteps] at hPushOnly
      split at hPushOnly
      case isTrue => cases hPushOnly
      case isFalse hByte =>
        simp only [evalLoop, out_bind, out_lift, ok_bind, bind_eq_ok] at hRun
        rcases hRun with ⟨next, hStep, hRun⟩
        rcases evalStep_pushOnly hTrue hByte hStep with ⟨hNext, hPushed⟩
        rcases ih hPushOnly hNext hPushed hRun with ⟨revealed, hLast, hFinal⟩
        refine ⟨revealed, ?_, hFinal⟩
        rwa [lastPushSteps, if_neg hByte]

/- The scriptSig of a P2SH input reveals its redeem script. -/
theorem evalScript_pushOnly {scriptSig : Script} {checker : TxSigChecker K}
    (hPushOnly : isPushOnly scriptSig = .ok true)
    (hRun : (evalScript scriptSig Stack.new flags .base .legacy checker).out = .ok (stack, exec)) :
    ∃ revealed, lastPush scriptSig = .ok (some revealed) ∧ Revealed revealed stack := by
  simp only [evalScript, out_bind, out_lift,
    out_pure, bind_eq_ok, Except.ok.injEq, Prod.mk.injEq] at hRun
  rcases hRun with ⟨_, _, _, _, final, hLoop, _, _, _, _, rfl, _⟩
  refine evalLoop_pushOnly hPushOnly rfl ?_ hLoop
  intro top rest hItems
  cases hItems

--------
-- The Input
--------

/- A witness program is not a P2SH script. -/
theorem isPayToScriptHash_of_witnessProgram {script : Script} {found : UInt8 × Bytes}
    (hProg : witnessProgram script = .ok (some found)) : isPayToScriptHash script = false := by
  by_contra hP2sh
  rcases isPayToScriptHash_head (by simpa using hP2sh) with ⟨rest, rfl⟩
  have hVer : witnessVersion? opHash160 = none := by decide
  unfold witnessProgram at hProg
  split at hProg
  · cases hProg
  · rcases rest with _ | ⟨pushLen, program⟩
    · cases hProg
    · simp only [hVer] at hProg
      cases hProg

theorem ecdsaCalls_verifyNativeWitness_le (scriptSig : Script) {scriptPubkey : Script}
    (checker : TxSigChecker K) {count : Nat}
    (hCount : witnessSigopCount scriptSig scriptPubkey witness flags = .ok count) :
    ecdsaCalls (verifyNativeWitness scriptSig scriptPubkey witness flags checker) ≤ count := by
  unfold verifyNativeWitness
  refine calls_ite_le (fun hFlag => ?_) fun _ => Nat.zero_le _
  simp only [witnessSigopCount, hFlag, Bool.not_true, false_eq_true, if_false, bind_eq_ok] at hCount
  rcases hCount with ⟨_, _, found, hFound, hCount⟩
  refine calls_lift_le fun program hProg => ?_
  rw [hFound] at hProg
  cases hProg
  split
  · exact Nat.zero_le _
  · refine calls_lift_le fun _ _ => ?_
    exact calls_bind_le (k := 0) (ecdsaCalls_verifyWitnessProgram_le flags checker false hCount)
      (fun _ _ => Nat.zero_le _)

theorem ecdsaCalls_verifyRedeemScript_le (scriptSig : Script) {redeemScript : Script}
    (stack : Stack) (checker : TxSigChecker K)
    (hScript : sigopCount redeemScript .accurate = .ok scriptCount)
    (hProg : flags.contains .witness → ∀ version program,
        witnessProgram redeemScript = .ok (some (version, program)) →
          witnessProgramSigopCount version program witness = .ok programCount) :
    ecdsaCalls (verifyRedeemScript scriptSig redeemScript stack witness
      flags checker) ≤ scriptCount + programCount := by
  unfold verifyRedeemScript
  refine calls_bind_le (ecdsaCalls_evalScript_le stack flags .base .legacy checker hScript)
    (fun result _ => ?_)
  refine calls_lift_le fun _ _ => ?_
  refine calls_ite_le (fun _ => Nat.zero_le _) fun hFlag => ?_
  simp only [not_eq_true', not_eq_false] at hFlag
  refine calls_lift_le fun found hFound => ?_
  split
  · exact Nat.zero_le _
  · refine calls_lift_le fun _ _ => ?_
    refine calls_lift_le fun _ _ => ?_
    exact calls_bind_le (k := 0)
      (ecdsaCalls_verifyWitnessProgram_le flags checker true (hProg hFlag _ _ hFound))
      (fun _ _ => Nat.zero_le _)

/- The counts of a P2SH input are those of what it reveals. -/
theorem p2sh_counts {scriptSig scriptPubkey revealed : Script}
    (hP2sh : isPayToScriptHash scriptPubkey) (hLast : lastPush scriptSig = .ok (some revealed))
    (hScript : p2shSigopCount scriptPubkey scriptSig = .ok scriptCount)
    (hProg : witnessSigopCount scriptSig scriptPubkey witness flags = .ok programCount) :
    sigopCount revealed .accurate = .ok scriptCount ∧ (flags.contains .witness → ∀ version program,
      witnessProgram revealed = .ok (some (version, program)) →
        witnessProgramSigopCount version program witness = .ok programCount) := by
  refine ⟨?_, ?_⟩
  · simp only [p2shSigopCount, hP2sh, Bool.not_true, false_eq_true, if_false, hLast, ok_bind]
      at hScript
    exact hScript
  · intro hFlag version program hFound
    simp only [witnessSigopCount, hFlag, Bool.not_true, false_eq_true, if_false, bind_eq_ok]
      at hProg
    rcases hProg with ⟨_, _, native, hNative, hProg⟩
    cases native with
    | some found =>
      rw [isPayToScriptHash_of_witnessProgram hNative] at hP2sh
      cases hP2sh
    | none =>
      simp only [wrappedWitnessSigopCount, hP2sh, if_true, hLast, hFound, ok_bind] at hProg
      exact hProg

section

variable {scriptSig scriptPubkey : Script} {checker : TxSigChecker K}
variable (hRun : (evalScript scriptSig Stack.new flags .base .legacy checker).out =
  .ok (stack, exec))
variable (hScript : p2shSigopCount scriptPubkey scriptSig = .ok scriptCount)
variable (hProg : witnessSigopCount scriptSig scriptPubkey witness flags = .ok programCount)

include hRun hScript hProg

theorem ecdsaCalls_verifyP2sh_le (hadWitness : Bool) (hP2sh : isPayToScriptHash scriptPubkey) :
    ecdsaCalls (verifyP2sh scriptSig scriptPubkey
        (if flags.contains .p2sh then some stack else none) witness flags checker hadWitness) ≤
      scriptCount + programCount := by
  unfold verifyP2sh
  refine calls_ite_le (fun hFlag => ?_) fun _ => Nat.zero_le _
  rw [and_eq_true] at hFlag
  rw [if_pos hFlag.1]
  refine calls_lift_le fun pushOnly hPushOnly => ?_
  refine calls_lift_le fun _ hTrue => ?_
  refine calls_lift_le fun copy hCopy => ?_
  cases hCopy
  refine calls_lift_le fun _ _ => ?_
  refine calls_lift_le fun popped hPop => ?_
  rw [ensure_eq_ok.mp hTrue] at hPushOnly
  rcases evalScript_pushOnly hPushOnly hRun with ⟨revealed, hLast, hRevealed⟩
  rcases stack with ⟨_ | ⟨top, rest⟩⟩
  · cases hPop
  cases hPop
  rcases hRevealed top rest rfl with hTop | hHarmless
  · rcases p2sh_counts hP2sh hLast hScript hProg with ⟨hCount, hWitness⟩
    rw [← hTop] at hCount hWitness
    exact ecdsaCalls_verifyRedeemScript_le scriptSig ⟨rest⟩ checker hCount hWitness
  · refine Nat.le_trans (m := 0 + 0)
      (ecdsaCalls_verifyRedeemScript_le scriptSig ⟨rest⟩ checker hHarmless.1 ?_) (Nat.zero_le _)
    intro _ version program hFound
    rw [hHarmless.2] at hFound
    cases hFound

/-
  What follows the two scripts: a native program, or a redeem script with the program it may be,
  never both.
-/
theorem ecdsaCalls_programs_le :
    ∃ native redeem, native + redeem ≤ scriptCount + programCount ∧
      ecdsaCalls (verifyNativeWitness scriptSig scriptPubkey witness flags checker) ≤ native ∧
      ∀ hadWitness, ecdsaCalls (verifyP2sh scriptSig scriptPubkey
        (if flags.contains .p2sh then some stack else none)
        witness flags checker hadWitness) ≤ redeem := by
  cases hP2sh : isPayToScriptHash scriptPubkey with
  | false =>
    refine ⟨programCount, 0, Nat.le_add_left _ _,
      ecdsaCalls_verifyNativeWitness_le scriptSig checker hProg, fun hadWitness => ?_⟩
    simp only [verifyP2sh, hP2sh, Bool.and_false, false_eq_true, if_false]
    exact Nat.le_refl 0
  | true =>
    refine ⟨0, scriptCount + programCount, Nat.le_of_eq (Nat.zero_add _), ?_, fun hadWitness =>
        ecdsaCalls_verifyP2sh_le hRun hScript hProg hadWitness hP2sh⟩
    unfold verifyNativeWitness
    refine calls_ite_le (fun _ => ?_) fun _ => Nat.le_refl 0
    refine calls_lift_le fun found hFound => ?_
    cases found with
    | none => exact Nat.le_refl 0
    | some found =>
      rw [isPayToScriptHash_of_witnessProgram hFound] at hP2sh
      cases hP2sh

end

/- The static counts bound the ECDSA checks of an input, whatever its verdict. -/
theorem ecdsaCalls_verifyScript_le
    (scriptSig scriptPubkey : Script) (witness : Witness) (flags : ScriptFlags)
    (checker : TxSigChecker K) (sigCount pubkeyCount p2shCount witnessCount : Nat)
    (hSig : sigopCount scriptSig .inaccurate = .ok sigCount)
    (hPubkey : sigopCount scriptPubkey .inaccurate = .ok pubkeyCount)
    (hP2sh : p2shSigopCount scriptPubkey scriptSig = .ok p2shCount)
    (hWitness : witnessSigopCount scriptSig scriptPubkey witness flags = .ok witnessCount) :
    ecdsaCalls (verifyScript scriptSig scriptPubkey witness flags checker) ≤
      sigCount + pubkeyCount + p2shCount + witnessCount := by
  rw [Nat.add_assoc, Nat.add_assoc]
  unfold verifyScript
  refine calls_lift_le fun _ _ => ?_
  refine calls_lift_le fun _ _ => ?_
  refine calls_bind_le (ecdsaCalls_evalScript_le _ _ _ _ _ hSig) fun first hRun => ?_
  refine calls_bind_le (ecdsaCalls_evalScript_le _ _ _ _ _ hPubkey) fun second _ => ?_
  refine calls_lift_le fun _ _ => ?_
  rcases ecdsaCalls_programs_le hRun hP2sh hWitness with ⟨native, redeem, hSum, hNative, hRedeem⟩
  refine Nat.le_trans ?_ hSum
  refine calls_bind_le hNative fun hadWitness _ => ?_
  exact calls_bind_le (k := 0) (hRedeem hadWitness) fun _ _ => Nat.le_of_eq (calls_lift _)

--------
-- A One-of-One Redeem Script
--------

namespace RedeemMultisig

/- `1 <0x05> 1 CHECKMULTISIG`, with a key that is no key. -/
def redeemScript : Script :=
  [op1, 0x01, 0x05, op1, opCheckmultisig]

/- The dummy element, one signature and the redeem script. -/
def scriptSig : Script :=
  [op0, 0x01, 0x30, 0x05] ++ redeemScript

def redeemSha : Hash32 := hash32
  0x84c4e399164e75471f98f357b1f1cbd7080deda71b6282c77e81511f11afcde6

def redeemHash : FixedBytes 20 :=
  ⟨[0xaf, 0xf9, 0x93, 0x4b, 0x18, 0xe4, 0xe6, 0x5e, 0x6d, 0x02,
    0xd3, 0xf9, 0xa7, 0x55, 0xfa, 0x07, 0x38, 0xa0, 0xc3, 0xac],
    rfl⟩

def scriptPubkey : Script :=
  [opHash160, 0x14] ++ redeemHash.val ++ [opEqual]

def tx : Transaction where
  version := 2
  lockTime := 0
  input := [⟨⟨⟨List.replicate 32 0x11, rfl⟩, 0⟩, scriptSig, 0xffffffff, []⟩]
  output := [⟨0, [opReturn]⟩]

def txHash : Hash32 := hash32
  0x67b50f88443fcde0a03d7750cee4a0054480c58e6f779896899d4374b8f60ed0

def txid : Hash32 := hash32
  0x6709d56d2ac347a6abffcd63d0416cec71bf58b70b817131b4181c3cf351d0b7

def crypto : Crypto :=
  { ofSha256 [
      (Encoding.txBase tx, txHash),
      (txHash.val, txid),
      (redeemScript, redeemSha)] with
    ripemd160 := fun bytes =>
      if bytes = redeemSha.val then redeemHash
      else FixedBytes.zero 20 }

def checker : TxSigChecker crypto.primitives where
  tx := tx
  index := 0
  prevouts := [⟨1000, scriptPubkey⟩]
  precomputed := .blank txid
  index_lt := by decide
  length_prevouts := rfl
  builtFor := ⟨rfl, rfl, rfl⟩

/- The redeem script makes the one check it is counted for. -/
theorem ecdsaCalls_verifyScript_eq :
    ecdsaCalls (verifyScript scriptSig scriptPubkey [] .p2sh checker) = 1 ∧
      ecdsaCalls (verifyScript scriptSig scriptPubkey [] .p2sh checker) ≤ 0 + 0 + 1 + 0 :=
  ⟨by decide,
    ecdsaCalls_verifyScript_le scriptSig scriptPubkey []
      .p2sh checker 0 0 1 0 (by decide) (by decide)
      (by decide) (by decide)⟩

end RedeemMultisig

end Bitmigo
