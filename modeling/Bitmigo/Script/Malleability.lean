import Bitmigo.Script.SigopVerify

/-
  A third party cannot change the scriptSig of a segwit spend.

  Key definitions include:
    * `Redeems`, the redeem script a scriptSig leaves on the stack
    * `SpendsProgram`, a spend of a witness program, native or wrapped in P2SH

  Key theorems include:
    * `evalScript_p2shScript`, what a P2SH output asks of the stack it runs on
    * `scriptSig_eq_of_verifyScript`
-/

namespace Bitmigo

open Result Traced List Stack Except Bool

variable {K : Primitives} {opcode : UInt8} {hash : FixedBytes 20} {program : UInt8 × Bytes}

/- What is popped was on top. -/
theorem items_of_pop {stack rest : Stack} {item : Element}
    (hPop : stack.pop = .ok (item, rest)) : stack.items = item :: rest.items := by
  unfold Stack.pop at hPop
  split at hPop
  · cases hPop
  · rename_i top below hItems
    cases hPop
    exact hItems

--------
-- The Three Opcodes of P2SH
--------

section

variable {limit : Option Nat} {env : Env K} {m next : Machine} {reader : Reader} {stop : Nat}

/- A step is the dispatch of its opcode, once counted. -/
theorem dispatch_of_evalStep {op : Op} (hStep : (evalStep limit env m op reader).out = .ok next) :
    ∃ counted, counted.stack = m.stack ∧ counted.conditions = m.conditions ∧
      (dispatch limit env counted op reader).out = .ok next := by
  rcases evalStep_eq_ok hStep with ⟨counted, hCount, hDispatch, _⟩
  rcases countOp_eq_ok hCount with ⟨hStack, hConds⟩
  exact ⟨counted, hStack, hConds, hDispatch⟩

theorem evalStep_direct_eq_ok {data : Bytes} (hTrue : m.conditions.allTrue)
    (hPush : (Opcode.mk opcode).isPush)
    (hStep : (evalStep limit env m ⟨⟨opcode⟩, data, stop⟩ reader).out = .ok next) :
    next.conditions = m.conditions ∧ ∃ top : Element, top.val = data ∧
      next.stack.items = top :: m.stack.items := by
  rcases dispatch_of_evalStep hStep with ⟨counted, hStack, hConds, hDispatch⟩
  simp only [dispatch, hConds, hTrue, hPush, Bool.and_self, if_true, out_bind, out_lift,
    out_pure, bind_eq_ok, ok.injEq]
    at hDispatch
  rcases hDispatch with ⟨stack, hPushed, rfl⟩
  rw [hStack] at hPushed
  exact ⟨rfl, push_eq_ok hPushed⟩

/- An opcode that is neither a push nor a conditional runs. -/
theorem execute_of_dispatch (hTrue : m.conditions.allTrue)
    (hPush : (Opcode.mk opcode).isPush = false)
    (hDispatch : (dispatch limit env m ⟨⟨opcode⟩, [], stop⟩ reader).out = .ok next) :
    ∃ index, (m.execute limit env ⟨⟨opcode⟩, [], stop⟩ true index).out = .ok next := by
  simp only [dispatch, hTrue, hPush, Bool.and_false,
    false_eq_true, if_false, Bool.true_or, if_true, out_bind, out_lift, bind_eq_ok]
    at hDispatch
  rcases hDispatch with ⟨index, _, hExec⟩
  exact ⟨index, hExec⟩

theorem evalStep_hash160_eq_ok (hTrue : m.conditions.allTrue)
    (hStep : (evalStep limit env m ⟨⟨opHash160⟩, [], stop⟩ reader).out = .ok next) :
    next.conditions = m.conditions ∧ ∃ (top digest : Element) (rest : List Element),
      m.stack.items = top :: rest ∧ digest.val = (K.hash160 top.val).val ∧
        next.stack.items = digest :: rest := by
  rcases dispatch_of_evalStep hStep with ⟨counted, hStack, hConds, hDispatch⟩
  rcases execute_of_dispatch (hConds ▸ hTrue) (by decide) hDispatch with ⟨index, hExec⟩
  have hHash : counted.hash K opHash160 = .ok next := hExec
  simp only [Machine.hash, bind_eq_ok, pure_inj] at hHash
  rcases hHash with ⟨_, _, ⟨top, rest⟩, hPop, bytes, hBytes, _, _, pushed, hPushed, rfl⟩
  have hDigest : (K.hash160 top.val).val = bytes := ok.inj hBytes
  rcases push_eq_ok hPushed with ⟨digest, hVal, hItems⟩
  refine ⟨hConds, top, digest, rest.items, ?_, ?_, hItems⟩
  · rw [← hStack]
    exact items_of_pop hPop
  · rw [hVal, hDigest]

theorem evalStep_equal_eq_ok {a b : Element} {rest : List Element} (hTrue : m.conditions.allTrue)
    (hItems : m.stack.items = a :: b :: rest)
    (hStep : (evalStep limit env m ⟨⟨opEqual⟩, [], stop⟩ reader).out = .ok next) :
    ∃ top : Element, top.val = boolItem (b.val == a.val) ∧ next.stack.items = top :: rest := by
  rcases dispatch_of_evalStep hStep with ⟨counted, hStack, hConds, hDispatch⟩
  rcases execute_of_dispatch (hConds ▸ hTrue) (by decide) hDispatch with ⟨index, hExec⟩
  have hEqual : counted.equal opEqual = .ok next := hExec
  have hSnd : (⟨b :: rest⟩ : Stack).pop = .ok (b, ⟨rest⟩) := rfl
  have hFst : counted.stack.pop = .ok (a, ⟨b :: rest⟩) := by rw [Stack.pop, hStack, hItems]
  rw [Machine.equal, require, hStack, hItems,
    ensure_of (by simp), ok_bind, ← hStack, hFst] at hEqual
  simp only [ok_bind, hSnd, pushBool_eq, show opEqual ≠ opEqualverify by decide, if_false,
    pure_inj] at hEqual
  subst hEqual
  exact ⟨_, rfl, rfl⟩

end

--------
-- P2SH Outputs
--------

/- The script that pays to this hash. -/
def p2shScript (hash : FixedBytes 20) : Script :=
  [opHash160, 0x14] ++ hash.val ++ [opEqual]

/- Nothing else is a P2SH script. -/
theorem exists_p2shScript {script : Script} (hP2sh : isPayToScriptHash script) :
    ∃ hash, script = p2shScript hash := by
  simp only [isPayToScriptHash, and_eq_true, beq_iff_eq, decide_eq_true_eq] at hP2sh
  rcases hP2sh with ⟨⟨⟨hLen, hFst⟩, hSnd⟩, hLast⟩
  rcases script with _ | ⟨first, _ | ⟨second, rest⟩⟩
  · simp at hLen
  · simp at hLen
  · have hRest : rest.length = 21 := by simpa using hLen
    have hNe : rest ≠ [] := by
      rintro rfl
      simp at hRest
    have hInit : rest.dropLast.length = 20 := by simp [hRest]
    have hEnd : rest.getLast hNe = opEqual := by
      rw [getLast?_cons, getLast?_cons, getLast?_eq_some_getLast hNe] at hLast
      simpa using hLast
    refine ⟨⟨rest.dropLast, hInit⟩, ?_⟩
    have hHash : first = opHash160 := Option.some.inj hFst
    have hPush : second = 0x14 := Option.some.inj hSnd
    rw [p2shScript, ← hEnd, append_assoc, dropLast_append_getLast hNe, hHash, hPush]
    rfl

theorem steps_p2shScript (hash : FixedBytes 20) :
    Reader.steps (p2shScript hash) = [.ok (⟨⟨opHash160⟩, [], 1⟩, ⟨p2shScript hash, 1, 1⟩),
      .ok (⟨⟨0x14⟩, hash.val, 22⟩, ⟨p2shScript hash, 22, 2⟩),
      .ok (⟨⟨opEqual⟩, [], 23⟩, ⟨p2shScript hash, 23, 3⟩)] := by
  have hTwenty : hash.val.length = 20 := hash.property
  obtain ⟨hPush, hPushed⟩ := @isChunk_direct 0x14 hash.val (by decide) hTwenty
  have hFlat : [[opHash160], 0x14 :: hash.val, [opEqual]].flatten = p2shScript hash := by
    simp [p2shScript]
  rw [← hFlat, Reader.steps_flatten _ (by simp)]
  · simp [opSteps, hPushed, hTwenty]
  · simp [hPush, isChunk_plain (show opPushdata4 < opHash160 by decide),
      isChunk_plain (show opPushdata4 < opEqual by decide)]

/- A P2SH output that leaves true on the stack ran on a stack whose top has the hash it names. -/
theorem evalScript_p2shScript {stack final : Stack} {flags : ScriptFlags} {exec after : ExecData}
    {checker : TxSigChecker K}
    (hEval : (evalScript (p2shScript hash) stack flags .base exec checker).out = .ok (final, after))
    (hTrue : requireTrue final = .ok ()) :
    ∃ (redeem : Element) (rest : List Element),
      stack.items = redeem :: rest ∧ K.hash160 redeem.val = hash := by
  simp only [evalScript, steps_p2shScript, evalLoop,
    out_bind, out_lift, out_pure, ok_bind, bind_eq_ok, ok.injEq, Prod.mk.injEq] at hEval
  rcases hEval with
    ⟨_, _, _, _, m, ⟨hashed, hHash, pushed, hPush, compared, hEqual, rfl⟩, _, _, _, _, rfl, _⟩
  have hStart : (Machine.start stack exec).conditions.allTrue := rfl
  rcases evalStep_hash160_eq_ok hStart hHash with
    ⟨hSame, redeem, digest, rest, hItems, hDigest, hHashed⟩
  rw [← hSame] at hStart
  rcases evalStep_direct_eq_ok hStart (by decide) hPush with ⟨hSame', top, hTop, hPushed⟩
  rw [← hSame'] at hStart
  rw [hHashed] at hPushed
  rcases evalStep_equal_eq_ok hStart hPushed hEqual with ⟨flag, hFlag, hCompared⟩
  refine ⟨redeem, rest, hItems, ?_⟩
  -- The comparison is true only of equal hashes.
  rw [hDigest, hTop] at hFlag
  by_contra hNe
  have hFalse : ((K.hash160 redeem.val).val == hash.val) = false := by
    simpa [Subtype.ext_iff] using hNe
  rw [hFalse] at hFlag
  have hEmpty : compared.stack.isEmpty = false := by simp [Stack.isEmpty, hCompared]
  simp only [requireTrue, hEmpty, false_eq_true,
    if_false, top_one_of_items hCompared, hFlag, ok_bind] at hTrue
  exact absurd hTrue (by decide)

--------
-- Spends
--------

/- The redeem script a scriptSig leaves on top of the stack. -/
def Redeems
    (scriptSig : Script) (flags : ScriptFlags) (checker : TxSigChecker K) (redeem : Element) :
    Prop :=
  ∃ (stack : Stack) (exec : ExecData) (rest : List Element),
    (evalScript scriptSig Stack.new flags .base .legacy checker).out = .ok (stack, exec) ∧
      stack.items = redeem :: rest

/- A spend of a witness program, native or in P2SH. -/
def SpendsProgram
    (scriptSig scriptPubkey : Script) (flags : ScriptFlags) (checker : TxSigChecker K) :
    Prop :=
  (∃ program, witnessProgram scriptPubkey = .ok (some program)) ∨
    isPayToScriptHash scriptPubkey ∧
      ∃ redeem program,
        Redeems scriptSig flags checker redeem ∧ witnessProgram redeem.val = .ok (some program)

/- The redeem script a scriptSig leaves is one. -/
theorem Redeems.unique
    {scriptSig : Script} {flags : ScriptFlags} {checker : TxSigChecker K} {redeem redeem' : Element}
    (hRedeem : Redeems scriptSig flags checker redeem)
    (hRedeem' : Redeems scriptSig flags checker redeem') : redeem = redeem' := by
  rcases hRedeem with ⟨stack, exec, rest, hEval, hItems⟩
  rcases hRedeem' with ⟨stack', exec', rest', hEval', hItems'⟩
  rw [hEval] at hEval'
  cases hEval'
  rw [hItems] at hItems'
  exact (List.cons.inj hItems').1

section

variable {scriptSig scriptPubkey : Script} {witness : Witness}
variable {flags : ScriptFlags} {checker : TxSigChecker K}

/- A native witness program is spent with no scriptSig. -/
theorem scriptSig_of_native (hFlag : flags.contains .witness)
    (hProg : witnessProgram scriptPubkey = .ok (some program))
    (hOk : (verifyScript scriptSig scriptPubkey witness flags checker).out = .ok ()) :
    scriptSig = [] := by
  simp only [verifyScript, out_bind, out_lift, bind_eq_ok] at hOk
  rcases hOk with ⟨_, _, _, _, _, _, _, _, _, _, native, hNative, _⟩
  simp only [verifyNativeWitness, hFlag, if_true,
    out_bind, out_lift, hProg, ok_bind, bind_eq_ok, ensure_eq_ok]
    at hNative
  rcases hNative with ⟨_, hEmpty, _⟩
  exact hEmpty

/- What a successful spend of a P2SH output has shown. -/
theorem redeems_of_p2sh (hP2sh : flags.contains .p2sh)
    (hShape : isPayToScriptHash (p2shScript hash))
    (hOk : (verifyScript scriptSig (p2shScript hash) witness flags checker).out = .ok ()) :
    ∃ (redeem : Element) (stack : Stack) (isProgram : Bool),
      Redeems scriptSig flags checker redeem ∧ K.hash160 redeem.val = hash ∧
        (verifyRedeemScript scriptSig redeem.val stack witness
          flags checker).out = .ok isProgram := by
  simp only [verifyScript, out_bind, out_lift, bind_eq_ok] at hOk
  rcases hOk with
    ⟨_, _, _, _, ⟨stack, exec⟩, hSig, ⟨final, after⟩, hPubkey,
      _, hTrue, native, _, isProgram, hAfter, _⟩
  rcases evalScript_p2shScript hPubkey hTrue with ⟨redeem, rest, hItems, hHash⟩
  refine ⟨redeem, ⟨rest⟩, isProgram, ⟨stack, exec, rest, hSig, hItems⟩, hHash, ?_⟩
  simp only [verifyP2sh, hP2sh, hShape, Bool.and_self,
    if_true, out_bind, out_lift, expect_some, ok_bind, bind_eq_ok]
    at hAfter
  rcases hAfter with ⟨_, _, _, _, _, _, ⟨top, below⟩, hPop, hRedeem⟩
  have hTop := items_of_pop hPop
  rw [hItems] at hTop
  rcases List.cons.inj hTop with ⟨rfl, rfl⟩
  exact hRedeem

/- A wrapped witness program is spent with one push of it. -/
theorem scriptSig_of_wrapped {redeem : Script} {stack : Stack} {isProgram : Bool}
    (hFlag : flags.contains .witness) (hProg : witnessProgram redeem = .ok (some program))
    (hOk : (verifyRedeemScript scriptSig redeem stack witness flags checker).out = .ok isProgram) :
    pushEncoding redeem = .ok scriptSig := by
  simp only [verifyRedeemScript, out_bind, out_lift, bind_eq_ok, hFlag, Bool.not_true,
    false_eq_true, if_false, hProg, ok_bind, ensure_eq_ok] at hOk
  rcases hOk with ⟨_, _, _, _, push, hPush, _, rfl, _⟩
  exact hPush

end

/-
  Two successful spends of one segwit output have the same scriptSig, unless their redeem scripts
  collide.
-/
theorem scriptSig_eq_of_verifyScript
    {scriptPubkey scriptSig scriptSig' : Script} {witness witness' : Witness}
    {flags flags' : ScriptFlags} {checker checker' : TxSigChecker K}
    (hFlags : flags.contains .p2sh ∧ flags.contains .witness)
    (hFlags' : flags'.contains .p2sh ∧ flags'.contains .witness)
    (hOk : (verifyScript scriptSig scriptPubkey witness flags checker).out = .ok ())
    (hOk' : (verifyScript scriptSig' scriptPubkey witness' flags' checker').out = .ok ())
    (hSpends : SpendsProgram scriptSig scriptPubkey flags checker)
    (hHash : ∀ redeem redeem',
        Redeems scriptSig flags checker redeem →
          Redeems scriptSig' flags' checker' redeem' →
          K.hash160 redeem.val = K.hash160 redeem'.val → redeem = redeem') :
    scriptSig = scriptSig' := by
  rcases hSpends with ⟨program, hProg⟩ | ⟨hShape, redeem, program, hRedeem, hProg⟩
  · rw [scriptSig_of_native hFlags.2 hProg hOk, scriptSig_of_native hFlags'.2 hProg hOk']
  · rcases exists_p2shScript hShape with ⟨hash, rfl⟩
    rcases redeems_of_p2sh hFlags.1 hShape hOk with ⟨top, stack, isProgram, hTop, hHashTop, hVerify⟩
    rcases redeems_of_p2sh hFlags'.1 hShape hOk' with
      ⟨top', stack', isProgram', hTop', hHashTop', hVerify'⟩
    have hSame : top = top' := hHash top top' hTop hTop' (hHashTop.trans hHashTop'.symm)
    rw [Redeems.unique hRedeem hTop] at hProg
    have hPush := scriptSig_of_wrapped hFlags.2 hProg hVerify
    rw [hSame] at hPush hProg
    have hPush' := scriptSig_of_wrapped hFlags'.2 hProg hVerify'
    exact ok.inj (hPush.symm.trans hPush')

--------
-- A Wrapped Program
--------

namespace WrappedProgram

/- A version 2 program, which any witness satisfies. -/
def redeemScript : Element :=
  ⟨[0x52, 0x02, 0xaa, 0xbb], by decide⟩

def scriptPubkey : Script :=
  p2shScript (RedeemMultisig.crypto.primitives.hash160 redeemScript.val)

/- Two spends that differ in their witnesses. -/
def bare : Script × Witness :=
  (0x04 :: redeemScript.val, [])

def stuffed : Script × Witness :=
  ([0x04, 0x52, 0x02, 0xaa, 0xbb], [[0x01]])

/- The spend is accepted. -/
def Verifies (spend : Script × Witness) : Prop :=
  (verifyScript spend.1 scriptPubkey spend.2 .mandatory RedeemMultisig.checker).out = .ok ()

instance (spend : Script × Witness) : Decidable (Verifies spend) :=
  inferInstanceAs (Decidable (_ = _))

theorem redeems : Redeems bare.1 .mandatory RedeemMultisig.checker redeemScript :=
  ⟨_, _, [], rfl, rfl⟩

theorem scriptSig_eq_of_verifyScript_witness :
    Verifies bare ∧ Verifies stuffed ∧ bare ≠ stuffed ∧
      SpendsProgram bare.1 scriptPubkey .mandatory RedeemMultisig.checker ∧
      bare.1 = stuffed.1 := by
  have hSpends : SpendsProgram bare.1 scriptPubkey .mandatory RedeemMultisig.checker :=
    Or.inr ⟨by decide +kernel, redeemScript, (2, [0xaa, 0xbb]), redeems, by decide +kernel⟩
  have hFst : Verifies bare := by decide +kernel
  have hSnd : Verifies stuffed := by decide +kernel
  exact ⟨hFst, hSnd, by decide, hSpends, scriptSig_eq_of_verifyScript (by decide) (by decide)
      hFst hSnd hSpends
      (fun _ _ hRedeem hRedeem' _ => hRedeem.unique hRedeem')⟩

end WrappedProgram

end Bitmigo
