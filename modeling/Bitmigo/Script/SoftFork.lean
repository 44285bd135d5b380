import Bitmigo.Script.SigopVerify

/-
  Every flag is a soft fork: what verifies under more flags verifies under fewer.

  Key definitions include:
    * `Env.withFlags`, an execution under other flags

  Key theorems include:
    * `evalStep_refines`, one opcode under fewer flags
    * `evalScript_refines`, one script under fewer flags
    * `verifyScript_softFork`

  The run under the larger set is followed opcode by opcode. A flag only adds ways to fail, so
  wherever that run goes on, the run under the smaller set goes on to the same machine.
-/

namespace Bitmigo

open Result Traced

variable {K : Primitives} {op : Op} {opcodeIndex : Nat} {opcode : UInt8} {limit : Option Nat}
variable {script scriptSig : Script} {stack : Stack} {sigVersion : SigVersion} {exec : ExecData}
variable {witness : Witness} {hadWitness : Bool}

/- The same execution under other flags. -/
def Env.withFlags (env : Env K) (flags : ScriptFlags) : Env K :=
  { env with flags := flags }

--------
-- One Opcode
--------

section

variable {env : Env K} {flags : ScriptFlags}

theorem checkSignatureEncoding_refines {smaller larger : ScriptFlags} (signature : Bytes)
    (hSub : smaller.isSubsetOf larger) :
    (checkSignatureEncoding signature larger).Refines
      (checkSignatureEncoding signature smaller) := by
  unfold checkSignatureEncoding
  refine Refines.ite (fun _ => .refl _) fun _ => ?_
  by_cases hFlag : smaller.contains .dersig
  · rw [if_pos hFlag, if_pos (ScriptFlags.contains_of_isSubsetOf hSub hFlag)]
    exact .refl _
  · rw [if_neg hFlag]
    exact fun _ _ => rfl

namespace Machine

variable {m : Machine} (hSub : flags.isSubsetOf env.flags)

include hSub

/-
  A flag that only guards a check: without it the machine goes on unchanged, which is all the check
  allows.
-/
theorem refines_of_guard (flag : ScriptFlags) (check : Env K → Result ScriptError Machine)
    (hSame : flags.contains flag →
      env.flags.contains flag → check (env.withFlags flags) = check env)
    (hSkip : flags.contains flag = false → check (env.withFlags flags) = .ok m)
    (hOnly : ∀ next, check env = .ok next → next = m) :
    (check env).Refines (check (env.withFlags flags)) := by
  intro next hOk
  cases hFlag : flags.contains flag with
  | true =>
    rwa [hSame hFlag (ScriptFlags.contains_of_isSubsetOf hSub hFlag)]
  | false => rw [hSkip hFlag, hOnly next hOk]

theorem checkLocktime_refines :
    (m.checkLocktime env).Refines (m.checkLocktime (env.withFlags flags)) := by
  refine refines_of_guard hSub .checklocktimeverify (fun env => m.checkLocktime env) ?_ ?_
    (fun _ => (checkLocktime_safe env m).of_eq_ok)
  · intro hSmaller hLarger
    simp [checkLocktime, Env.withFlags, hSmaller, hLarger]
  · intro hSmaller
    simp [checkLocktime, Env.withFlags, hSmaller]

theorem checkSequence_refines :
    (m.checkSequence env).Refines (m.checkSequence (env.withFlags flags)) := by
  refine refines_of_guard hSub .checksequenceverify (fun env => m.checkSequence env) ?_ ?_
    (fun _ => (checkSequence_safe env m).of_eq_ok)
  · intro hSmaller hLarger
    simp [checkSequence, Env.withFlags, hSmaller, hLarger]
  · intro hSmaller
    simp [checkSequence, Env.withFlags, hSmaller]

theorem executePlain_refines :
    (m.executePlain env op opcodeIndex).Refines
      (m.executePlain (env.withFlags flags) op opcodeIndex) := by
  unfold executePlain
  refine .ite (fun _ => .refl _) fun _ => ?_
  refine .ite (fun _ => .refl _) fun _ => ?_
  refine .ite (fun _ => checkLocktime_refines hSub) fun _ => ?_
  refine .ite (fun _ => checkSequence_refines hSub) fun _ => ?_
  exact .refl _

theorem evalChecksig_refines {signature pubkey : Bytes} :
    (m.evalChecksig env signature pubkey).out.Refines
      (m.evalChecksig (env.withFlags flags) signature pubkey).out := by
  have hPre : (m.evalChecksigPreTapscript env signature pubkey).out.Refines
      (m.evalChecksigPreTapscript (env.withFlags flags) signature pubkey).out := by
    simp only [evalChecksigPreTapscript, out_bind, out_lift]
    refine .bind_right fun code _ => ?_
    refine .bind_right fun code _ => ?_
    refine .bind (checkSignatureEncoding_refines signature hSub) fun _ _ => ?_
    exact .refl _
  unfold evalChecksig
  have hVer : (env.withFlags flags).sigVersion = env.sigVersion := rfl
  rw [hVer]
  cases env.sigVersion with
  | base =>
    simp only [out_bind, out_pure]
    exact .bind hPre fun _ _ => .refl _
  | witnessV0 =>
    simp only [out_bind, out_pure]
    exact .bind hPre fun _ _ => .refl _
  | tapscript => exact .refl _

theorem checksig_refines :
    (m.checksig env opcode).out.Refines (m.checksig (env.withFlags flags) opcode).out := by
  simp only [checksig, out_bind, out_lift]
  refine .bind_right fun _ _ => ?_
  refine .bind_right fun first _ => ?_
  refine .bind_right fun second _ => ?_
  exact .bind (evalChecksig_refines hSub) fun _ _ => .refl _

theorem checksigadd_refines :
    (m.checksigadd env).out.Refines (m.checksigadd (env.withFlags flags)).out := by
  simp only [checksigadd, out_bind, out_lift]
  refine .bind_right fun _ _ => ?_
  refine .bind_right fun _ _ => ?_
  refine .bind_right fun first _ => ?_
  refine .bind_right fun _ _ => ?_
  refine .bind_right fun _ _ => ?_
  refine .bind_right fun second _ => ?_
  refine .bind_right fun third _ => ?_
  exact .bind (evalChecksig_refines hSub) fun _ _ => .refl _

theorem checkmultisigVerify_refines {code : Script} {fuel ikey isig keysLeft sigsLeft : Nat} :
    (m.checkmultisigVerify env code fuel ikey isig keysLeft sigsLeft).out.Refines
      (m.checkmultisigVerify (env.withFlags flags) code fuel ikey isig keysLeft sigsLeft).out := by
  induction fuel generalizing ikey isig keysLeft sigsLeft with
  | zero =>
    unfold checkmultisigVerify
    exact .refl _
  | succ fuel ih =>
    unfold checkmultisigVerify
    simp only [out_ite, out_bind, out_lift]
    refine .ite (fun _ => .refl _) fun _ => ?_
    refine .bind_right fun signature _ => ?_
    refine .bind_right fun pubkey _ => ?_
    refine .bind (checkSignatureEncoding_refines signature.val hSub) fun _ _ => ?_
    refine .bind_right fun ok _ => ?_
    refine .bind_right fun _ _ => ?_
    exact .ite (fun _ => .refl _) fun _ => ih

theorem multisigFinish_refines {i : Nat} {success : Bool} :
    (m.multisigFinish env opcode i success).Refines
      (m.multisigFinish (env.withFlags flags) opcode i success) := by
  unfold multisigFinish
  refine .bind_right fun _ _ => ?_
  refine .bind_right fun _ _ => ?_
  refine .bind_right fun dummy _ => ?_
  refine .bind (refines_ensure ?_) fun _ _ => .refl _
  rintro hAllowed ⟨hFlag, hDummy⟩
  exact hAllowed ⟨ScriptFlags.contains_of_isSubsetOf hSub hFlag, hDummy⟩

theorem checkmultisig_refines :
    (m.checkmultisig env opcode).out.Refines
      (m.checkmultisig (env.withFlags flags) opcode).out := by
  simp only [checkmultisig, out_bind, out_lift]
  refine .bind_right fun _ _ => ?_
  refine .bind_right fun counts _ => ?_
  refine .bind_right fun _ _ => ?_
  refine .bind_right fun code _ => ?_
  exact .bind (checkmultisigVerify_refines hSub) fun success _ => multisigFinish_refines hSub

theorem execute_refines {executing : Bool} :
    (m.execute limit env op executing opcodeIndex).out.Refines
      (m.execute limit (env.withFlags flags) op executing opcodeIndex).out := by
  simp only [execute, out_ite, out_lift]
  refine .ite (fun _ => .refl _) fun _ => ?_
  refine .ite (fun _ => checksig_refines hSub) fun _ => ?_
  refine .ite (fun _ => checksigadd_refines hSub) fun _ => ?_
  exact .ite (fun _ => checkmultisig_refines hSub) fun _ => executePlain_refines hSub

end Machine

variable (hSub : flags.isSubsetOf env.flags)

include hSub

/- One opcode under fewer flags. -/
theorem evalStep_refines {m : Machine} {reader : Reader} :
    (evalStep limit env m op reader).out.Refines
      (evalStep limit (env.withFlags flags) m op reader).out := by
  simp only [evalStep, dispatch, out_bind, out_lift, out_ite]
  refine .bind_right fun _ _ => ?_
  refine .bind_right fun counted _ => ?_
  refine .bind_right fun _ _ => ?_
  refine .bind ?_ fun _ _ => .refl _
  refine .ite (fun _ => .refl _) fun _ => ?_
  refine .ite (fun _ => ?_) fun _ => .refl _
  refine .bind_right fun index _ => ?_
  exact Machine.execute_refines hSub

theorem evalLoop_refines {limit : Option Nat} {steps : List (Result ScriptError (Op × Reader))}
    {m : Machine} :
    (evalLoop limit env steps m).out.Refines
      (evalLoop limit (env.withFlags flags) steps m).out := by
  induction steps generalizing m with
  | nil => exact .refl _
  | cons step rest ih =>
    simp only [evalLoop, out_bind, out_lift]
    refine .bind_right fun read _ => ?_
    exact .bind (evalStep_refines hSub) fun next _ => ih

end

--------
-- Scripts and Witness Programs
--------

section

variable {smaller larger : ScriptFlags} {checker : TxSigChecker K}
variable (hSub : smaller.isSubsetOf larger)

include hSub

/- One script under fewer flags. -/
theorem evalScript_refines :
    (evalScript script stack larger sigVersion exec checker).out.Refines
      (evalScript script stack smaller sigVersion exec checker).out := by
  simp only [evalScript, out_bind, out_lift]
  refine .bind_right fun _ _ => ?_
  refine .bind_right fun _ _ => ?_
  exact .bind (@evalLoop_refines K ⟨script, larger, sigVersion, checker⟩ smaller hSub _ _ _)
    (fun _ _ => .refl _)

theorem executeWitnessScript_refines {items : List Bytes} :
    (executeWitnessScript items script larger sigVersion exec checker).out.Refines
      (executeWitnessScript items script smaller sigVersion exec checker).out := by
  simp only [executeWitnessScript, out_bind, out_lift, out_ite]
  refine .bind_right fun _ _ => ?_
  refine .bind_right fun succeeded _ => ?_
  refine .ite (fun _ => .refl _) fun _ => ?_
  refine .bind_right fun _ _ => ?_
  refine .bind_right fun _ _ => ?_
  refine .bind_right fun stack _ => ?_
  exact .bind (evalScript_refines hSub) fun _ _ => .refl _

theorem verifyTaproot_refines {outputKey : Hash32} (hFlag : smaller.contains .taproot) :
    (verifyTaproot witness outputKey larger checker).out.Refines
      (verifyTaproot witness outputKey smaller checker).out := by
  have hLarger := ScriptFlags.contains_of_isSubsetOf hSub hFlag
  unfold verifyTaproot
  simp only [hFlag, hLarger, out_bind, out_lift]
  refine .bind_right fun _ _ => ?_
  refine .bind_right fun _ _ => ?_
  rcases splitAnnex witness with ⟨items, annex⟩
  rcases items with _ | ⟨first, _ | ⟨second, rest⟩⟩
  case cons.nil => exact .refl _
  all_goals
    simp only [out_bind, out_lift]
    refine .bind_right fun leaf _ => ?_
    rcases leaf with _ | ⟨items, script, exec⟩
    · exact .refl _
    · exact executeWitnessScript_refines hSub

theorem verifyWitnessProgram_refines {version : UInt8} {program : Bytes} {isP2sh : Bool} :
    (verifyWitnessProgram witness version program larger checker isP2sh).out.Refines
      (verifyWitnessProgram witness version program smaller checker isP2sh).out := by
  simp only [verifyWitnessProgram, out_bind, out_lift, out_ite]
  refine .bind_right fun _ _ => ?_
  refine .bind_right fun _ _ => ?_
  refine .ite (fun _ => ?_) fun _ => ?_
  · refine .ite (fun _ => ?_) (fun _ => ?_)
    · refine .bind_right fun script _ => ?_
      refine .bind_right fun _ _ => ?_
      exact executeWitnessScript_refines hSub
    · refine .ite (fun _ => ?_) (fun _ => .refl _)
      refine .bind_right fun _ _ => ?_
      refine .bind_right fun script _ => ?_
      exact executeWitnessScript_refines hSub
  · refine .ite (fun _ => ?_) (fun _ => .refl _)
    cases FixedBytes.ofBytes? witnessV1TaprootSize program with
    | none => exact .refl _
    | some outputKey =>
      by_cases hFlag : smaller.contains .taproot
      · have hLarger := ScriptFlags.contains_of_isSubsetOf hSub hFlag
        simp only [hFlag, hLarger]
        exact verifyTaproot_refines hSub hFlag
      · -- Without taproot the program succeeds unread.
        simp only [hFlag]
        exact fun _ _ => rfl

end

--------
-- The Verifier
--------

section

variable {smaller larger : ScriptFlags} {checker : TxSigChecker K}

section

variable (hSub : smaller.isSubsetOf larger)

include hSub

theorem verifyNativeWitness_refines {scriptPubkey : Script} (hFlag : smaller.contains .witness) :
    (verifyNativeWitness scriptSig scriptPubkey witness larger checker).out.Refines
      (verifyNativeWitness scriptSig scriptPubkey witness smaller checker).out := by
  have hLarger := ScriptFlags.contains_of_isSubsetOf hSub hFlag
  simp only [verifyNativeWitness, hFlag, hLarger, if_true, out_bind, out_lift]
  refine .bind_right fun found _ => ?_
  rcases found with _ | ⟨version, program⟩
  · exact .refl _
  · simp only [out_bind, out_lift]
    refine .bind_right fun _ _ => ?_
    exact .bind (verifyWitnessProgram_refines hSub) fun _ _ => .refl _

theorem verifyRedeemScript_refines {redeemScript : Script} (hFlag : smaller.contains .witness) :
    (verifyRedeemScript scriptSig redeemScript stack witness larger checker).out.Refines
      (verifyRedeemScript scriptSig redeemScript stack witness smaller checker).out := by
  have hLarger := ScriptFlags.contains_of_isSubsetOf hSub hFlag
  simp only [verifyRedeemScript, hFlag, hLarger, out_bind, out_lift, out_ite]
  refine .bind (evalScript_refines hSub) fun result _ => ?_
  refine .bind_right fun _ _ => ?_
  refine .ite (fun _ => .refl _) fun _ => ?_
  refine .bind_right fun found _ => ?_
  rcases found with _ | ⟨version, program⟩
  · exact .refl _
  · simp only [out_bind, out_lift]
    refine .bind_right fun _ _ => ?_
    refine .bind_right fun _ _ => ?_
    exact .bind (verifyWitnessProgram_refines hSub) fun _ _ => .refl _

/- Without the witness rules only the redeem script runs. -/
theorem verifyRedeemScript_of_not_witness {redeemScript : Script}
    (hFlag : smaller.contains .witness = false)
    (hOk : (verifyRedeemScript scriptSig redeemScript stack witness
      larger checker).out = .ok hadWitness) :
    (verifyRedeemScript scriptSig redeemScript stack witness smaller checker).out = .ok false := by
  simp only [verifyRedeemScript, out_bind, out_lift, bind_eq_ok] at hOk
  rcases hOk with ⟨result, hRun, _, hTrue, _⟩
  have hSmaller := evalScript_refines hSub result hRun
  simp only [verifyRedeemScript, out_bind, out_lift, hSmaller, ok_bind, hTrue, hFlag,
    Bool.not_false, if_true, out_pure]

theorem verifyP2sh_refines {scriptPubkey : Script} (hP2sh : smaller.contains .p2sh)
    (hFlag : smaller.contains .witness) :
    (verifyP2sh scriptSig scriptPubkey (some stack) witness larger checker hadWitness).out.Refines
      (verifyP2sh scriptSig scriptPubkey (some stack) witness smaller checker hadWitness).out := by
  have hLarger := ScriptFlags.contains_of_isSubsetOf hSub hP2sh
  simp only [verifyP2sh, hP2sh, hLarger, Bool.true_and, out_ite, out_bind, out_lift]
  refine .ite (fun _ => ?_) fun _ => .refl _
  refine .bind_right fun _ _ => ?_
  refine .bind_right fun _ _ => ?_
  refine .bind_right fun _ _ => ?_
  refine .bind_right fun _ _ => ?_
  refine .bind_right fun popped _ => ?_
  exact verifyRedeemScript_refines hSub hFlag

/- Without the witness rules the verdict is no witness. -/
theorem verifyP2sh_of_not_witness {scriptPubkey : Script} {before after : Bool}
    (hFlag : smaller.contains .witness = false) (hOk : (verifyP2sh scriptSig scriptPubkey
        (if larger.contains .p2sh then some stack else none)
        witness larger checker before).out = .ok after) :
    (verifyP2sh scriptSig scriptPubkey (if smaller.contains .p2sh then some stack else none)
      witness smaller checker false).out = .ok false := by
  cases hP2sh : smaller.contains .p2sh with
  | false => simp only [verifyP2sh, hP2sh, Bool.false_and, Bool.false_eq_true, if_false, out_pure]
  | true =>
    have hLarger := ScriptFlags.contains_of_isSubsetOf hSub hP2sh
    simp only [verifyP2sh, hP2sh, hLarger, Bool.true_and,
      if_true, out_ite, out_bind, out_lift] at hOk ⊢
    split at hOk
    case isFalse hOther =>
      rw [if_neg hOther]
      rfl
    case isTrue hShape =>
      simp only [bind_eq_ok] at hOk
      rcases hOk with ⟨pushOnly, hPushOnly, _, hEnsure, copy, hCopy, _, hNe, popped, hPop, hRedeem⟩
      have hSmaller := verifyRedeemScript_of_not_witness hSub hFlag hRedeem
      simp only [if_pos hShape, hPushOnly, ok_bind, hEnsure, hCopy, hNe, hPop]
      exact hSmaller

end

/-
  Every rule flag is a soft fork: a spend that is valid under a set of flags is valid under each
  smaller set.
-/
theorem verifyScript_softFork
    (scriptSig scriptPubkey : Script) (witness : Witness) (checker : TxSigChecker K)
    (smaller larger : ScriptFlags) (hSmaller : smaller.Consistent)
    (hSub : smaller.isSubsetOf larger)
    (hOk : (verifyScript scriptSig scriptPubkey witness larger checker).out = .ok ()) :
    (verifyScript scriptSig scriptPubkey witness smaller checker).out = .ok () := by
  simp only [verifyScript, out_bind, out_lift, bind_eq_ok, ensure_eq_ok] at hOk
  rcases hOk with ⟨_, _, _, _, ⟨stack, exec⟩, hSig,
    ⟨final, finalExec⟩, hPubkey, _, hTrue, native, hNative, after, hP2sh, hWitness⟩
  have hSigSmaller := evalScript_refines hSub _ hSig
  have hPubkeySmaller := evalScript_refines hSub _ hPubkey
  simp only [verifyScript, out_bind, out_lift, bind_eq_ok, ensure_eq_ok, assert_eq_ok]
  refine ⟨(), hSmaller.1, (), hSmaller.2, _, hSigSmaller, _, hPubkeySmaller, (), hTrue, ?_⟩
  cases hFlag : smaller.contains .witness with
  | false =>
    have hNone :
        (verifyNativeWitness scriptSig scriptPubkey witness smaller checker).out = .ok false := by
      simp [verifyNativeWitness, hFlag]
    exact ⟨false, hNone, false, verifyP2sh_of_not_witness hSub hFlag hP2sh, by simp⟩
  | true =>
    have hP2shFlag := hSmaller.1 hFlag
    have hLargerP2sh := ScriptFlags.contains_of_isSubsetOf hSub hP2shFlag
    have hLargerFlag := ScriptFlags.contains_of_isSubsetOf hSub hFlag
    rw [if_pos hLargerP2sh] at hP2sh
    rw [if_pos hP2shFlag]
    refine ⟨native, ?_, after, ?_, ?_⟩
    · exact verifyNativeWitness_refines hSub hFlag native hNative
    · exact verifyP2sh_refines hSub hP2shFlag hFlag after hP2sh
    · rintro ⟨_, hAfter, hItems⟩
      exact hWitness ⟨hLargerFlag, hAfter, hItems⟩

end

/-
  A sequence operand with its disable bit set passes where the opcode is checked, so it passes where
  it is not.
-/
theorem verifyScript_disabledSequence :
    (verifyScript [] [0x05, 0x00, 0x00, 0x00, 0x80, 0x00, opChecksequenceverify]
        [] .mandatory RedeemMultisig.checker).out = .ok () ∧
      (verifyScript [] [0x05, 0x00, 0x00, 0x00, 0x80, 0x00, opChecksequenceverify]
        [] .p2sh RedeemMultisig.checker).out = .ok () :=
  ⟨by decide,
    verifyScript_softFork [] _ [] RedeemMultisig.checker .p2sh
      .mandatory (by decide) (by decide) (by decide)⟩

end Bitmigo
