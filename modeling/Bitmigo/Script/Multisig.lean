import Bitmigo.Lib.Matching
import Bitmigo.Script.Interpreter

/-
  What a multisig decides.

  Key definitions include:
    * `Machine.accepts`, the pairs the checker accepts

  Key theorems include:
    * `Machine.checkmultisigVerify_eq`, the loop is the greedy matching of signatures with keys
    * `Machine.checkmultisigVerify_congr`, it reads the operands and nothing else
    * `checkmultisigVerify_exact`, it accepts if there is a matching at all
-/

namespace Bitmigo

open Traced Stack

variable {code : Script}

namespace Machine

variable {K : Primitives}

/- The checker accepts the signature for the key. -/
def accepts (env : Env K) (code : Script) (signature key : Element) : Bool :=
  env.checker.checkEcdsa signature.val key.val code env.sigVersion = .ok true

/-
  The loop matches greedily. Every iteration uses up a key, and it stops once there are fewer keys
  than signatures.
-/
theorem checkmultisigVerify_eq {env : Env K} {m : Machine} {fuel ikey isig keysLeft sigsLeft : Nat}
    (hVer : env.sigVersion ≠ .tapscript) (hFuel : keysLeft ≤ fuel) (hSigs : sigsLeft ≤ keysLeft)
    (hKeyLow : 1 ≤ ikey) (hSigLow : 1 ≤ isig)
    (hKeyHigh : ikey + keysLeft ≤ m.stack.items.length + 1)
    (hSigHigh : isig + sigsLeft ≤ m.stack.items.length + 1)
    (hEncoded : ∀ signature ∈ m.stack.operands isig sigsLeft,
        checkSignatureEncoding signature.val env.flags = .ok ()) :
    (m.checkmultisigVerify env code fuel ikey isig keysLeft sigsLeft).out =
      .ok (Matching.greedy (accepts env code) (m.stack.operands isig sigsLeft)
        (m.stack.operands ikey keysLeft)) := by
  induction fuel generalizing ikey isig keysLeft sigsLeft with
  | zero =>
    have hNone : sigsLeft = 0 := by omega
    subst hNone
    rw [checkmultisigVerify, if_pos rfl]
    simp [operands, Matching.greedy]
  | succ fuel ih =>
    cases sigsLeft with
    | zero =>
      rw [checkmultisigVerify, if_pos rfl]
      simp [operands, Matching.greedy]
    | succ sigs =>
      obtain ⟨keys, rfl⟩ : ∃ keys, keysLeft = keys + 1 := ⟨keysLeft - 1, by omega⟩
      rcases operands_cons hSigLow (by omega : isig ≤ m.stack.items.length) sigs with
        ⟨signature, hSig, hSigCons⟩
      rcases operands_cons hKeyLow (by omega : ikey ≤ m.stack.items.length) keys with
        ⟨key, hKey, hKeyCons⟩
      rw [hSigCons] at hEncoded
      rcases List.forall_mem_cons.mp hEncoded with ⟨hHead, hRest⟩
      rcases env.checker.checkEcdsa_returns signature.val key.val code hVer with ⟨ok, hOk⟩
      rw [checkmultisigVerify, if_neg (Nat.succ_ne_zero _)]
      simp only [checkEcdsa, out_bind, out_lift, out_call, out_ite,
        out_pure, Result.ok_bind, hSig, hKey, hHead, hOk]
      have hAccepts : accepts env code signature key = ok := by simp [accepts, hOk]
      rw [Result.assert_of (by omega), Result.ok_bind,
        hSigCons, hKeyCons, Matching.greedy, hAccepts]
      cases ok with
      | true =>
        simp only [if_true, Nat.add_sub_cancel]
        rw [if_neg (by omega),
          ih (by omega) (by omega) (by omega) (by omega) (by omega) (by omega) hRest]
      | false =>
        simp only [Bool.false_eq_true, if_false, Nat.add_sub_cancel]
        by_cases hShort : keys < sigs + 1
        · -- too few keys are left for any matching
          have hFalse : Matching.greedy (accepts env code)
              (signature :: m.stack.operands (isig + 1) sigs)
              (m.stack.operands (ikey + 1) keys) = false := by
            rw [Bool.eq_false_iff]
            intro hGreedy
            have hLe := Matching.length_le_of_greedy hGreedy
            rw [List.length_cons, length_operands (by omega) (by omega),
              length_operands (by omega) (by omega)]
              at hLe
            omega
          rw [if_pos hShort, hFalse]
        · rw [if_neg hShort, ih (by omega) (by omega) (by omega) hSigLow (by omega) (by omega)
              (by rwa [hSigCons]), hSigCons]

/- Two machines whose stacks agree where the operands stand run the loop alike, calls included. -/
theorem checkmultisigVerify_congr {env : Env K} {m n : Machine}
    {fuel ikey isig keysLeft sigsLeft : Nat} (hSigs : sigsLeft ≤ keysLeft)
    (hKeySame : ∀ i < keysLeft, m.stack.top (ikey + i) = n.stack.top (ikey + i))
    (hSigSame : ∀ i < sigsLeft, m.stack.top (isig + i) = n.stack.top (isig + i)) :
    m.checkmultisigVerify env code fuel ikey isig keysLeft sigsLeft =
      n.checkmultisigVerify env code fuel ikey isig keysLeft sigsLeft := by
  induction fuel generalizing ikey isig keysLeft sigsLeft with
  | zero => rfl
  | succ fuel ih =>
    rw [checkmultisigVerify, checkmultisigVerify]
    by_cases hNone : sigsLeft = 0
    · rw [if_pos hNone, if_pos hNone]
    rw [if_neg hNone, if_neg hNone,
      show m.stack.top isig = n.stack.top isig from hSigSame 0 (by omega),
      show m.stack.top ikey = n.stack.top ikey from hKeySame 0 (by omega)]
    have hKeyLater :
        ∀ i < keysLeft - 1, m.stack.top (ikey + 1 + i) = n.stack.top (ikey + 1 + i) := by
      intro i hi
      rw [Nat.add_assoc, Nat.add_comm 1 i]
      exact hKeySame (i + 1) (by omega)
    congr 1
    funext signature
    congr 1
    funext key
    congr 1
    funext _
    congr 1
    funext ok
    dsimp only
    congr 1
    funext _
    by_cases hShort : keysLeft - 1 < (if ok = true then sigsLeft - 1 else sigsLeft)
    · rw [if_pos hShort, if_pos hShort]
    · rw [if_neg hShort, if_neg hShort]
      refine ih (by omega) hKeyLater ?_
      intro i hi
      cases ok with
      | true =>
        simp only [if_true] at hi ⊢
        rw [Nat.add_assoc, Nat.add_comm 1 i]
        exact hSigSame (i + 1) (by omega)
      | false => exact hSigSame i hi

end Machine

/-
  The loop accepts exactly if the signatures can be matched with keys in their order, and sees
  nothing of the stack but the operands its caller has made sure of.
-/
theorem checkmultisigVerify_exact {K : Primitives} {env : Env K} {m : Machine} (code : Script)
    {ikey isig keyCount sigCount required : Nat} (hVer : env.sigVersion ≠ .tapscript)
    (hKeys : keyCount ≤ maxPubkeysPerMultisig) (hSigs : sigCount ≤ keyCount) (hKeyLow : 1 ≤ ikey)
    (hSigLow : 1 ≤ isig) (hKeyHigh : ikey + keyCount ≤ required + 1)
    (hSigHigh : isig + sigCount ≤ required + 1) (hRequired : required ≤ m.stack.items.length)
    (hEncoded : ∀ signature ∈ m.stack.operands isig sigCount,
        checkSignatureEncoding signature.val env.flags = .ok ()) :
    ∃ ok,
      (m.checkmultisigVerify env code maxPubkeysPerMultisig
          ikey isig keyCount sigCount).out = .ok ok ∧
        (ok = true ↔
          ∃ f : Fin sigCount → Fin keyCount,
            StrictMono f ∧
              ∀ i : Fin sigCount, ∃ signature key,
                m.stack.top (isig + i) = .ok signature ∧
                  m.stack.top (ikey + f i) = .ok key ∧
                  env.checker.checkEcdsa signature.val key.val code env.sigVersion = .ok true) ∧
        Machine.checkmultisigVerify env
            { m with stack := ⟨m.stack.items.take required⟩ }
            code maxPubkeysPerMultisig ikey isig keyCount
            sigCount =
          m.checkmultisigVerify env code maxPubkeysPerMultisig ikey isig keyCount sigCount := by
  have hKeyStack : ikey + keyCount ≤ m.stack.items.length + 1 := by omega
  have hSigStack : isig + sigCount ≤ m.stack.items.length + 1 := by omega
  refine ⟨_, Machine.checkmultisigVerify_eq hVer hKeys hSigs
    hKeyLow hSigLow hKeyStack hSigStack hEncoded, ?_, ?_⟩
  · have hSigTop := fun i =>
      top_eq_operand (i := i) hSigLow hSigStack
    have hKeyTop := fun i =>
      top_eq_operand (i := i) hKeyLow hKeyStack
    have hSigLength := length_operands hSigLow hSigStack
    have hKeyLength := length_operands hKeyLow hKeyStack
    rw [Matching.greedy_iff, Matching.sublistForall₂_iff_strictMono]
    clear hKeys hSigs hKeyHigh hSigHigh hKeyStack hSigStack hEncoded
    generalize m.stack.operands isig sigCount = signatures at hSigTop hSigLength ⊢
    generalize m.stack.operands ikey keyCount = keys at hKeyTop hKeyLength ⊢
    subst hSigLength hKeyLength
    refine exists_congr fun f => and_congr_right fun _ =>
      forall_congr' fun i => ?_
    rw [hSigTop i i.isLt, hKeyTop (f i) (f i).isLt]
    simp [Machine.accepts]
  · have hTake : ∀ depth, 1 ≤ depth → depth ≤ required →
          Stack.top ⟨m.stack.items.take required⟩ depth = m.stack.top depth := by
      intro depth hLow hHigh
      rw [top_of_le _ hLow (by
          rw [List.length_take]; omega),
        top_of_le m.stack hLow (by omega)]
      simp
    refine Machine.checkmultisigVerify_congr hSigs ?_ ?_
    · intro i hi
      exact hTake (ikey + i) (by omega) (by omega)
    · intro i hi
      exact hTake (isig + i) (by omega) (by omega)

--------
-- Two of Three
--------

namespace TwoOfThree

/- A signature is good for the key with the same bytes. -/
def crypto : Crypto :=
  { Crypto.ofSha256 [] with
    isPublicKey := fun _ => true
    isEcdsaSignature := fun _ => true
    verifyEcdsa := fun _ signature key => signature = key }

def tx : Transaction where
  version := 2
  lockTime := 0
  input := [⟨⟨FixedBytes.zero 32, 0⟩, [], 0xffffffff, []⟩]
  output := [⟨0, [opReturn]⟩]

def checker : TxSigChecker crypto.primitives where
  tx := tx
  index := 0
  prevouts := [⟨1000, []⟩]
  precomputed := .blank (FixedBytes.zero 32)
  index_lt := by decide
  length_prevouts := rfl
  builtFor := ⟨rfl, rfl, rfl⟩

def env : Env crypto.primitives where
  script := []
  flags := .p2sh
  sigVersion := .base
  checker := checker

/- The keys 7, 8 and 9, signatures for the last two of them and the dummy element. -/
def machine : Machine :=
  .start ⟨[⟨[3], by decide⟩, ⟨[7], by decide⟩, ⟨[8], by decide⟩, ⟨[9], by decide⟩,
      ⟨[2], by decide⟩, ⟨[8, 1], by decide⟩, ⟨[9, 1], by decide⟩, ⟨[], by decide⟩]⟩
    .legacy

/- The first key is passed over. -/
theorem checkmultisigVerify_exact_last :
    (machine.checkmultisigVerify env [] maxPubkeysPerMultisig 2 6 3 2).out = .ok true ∧
      ∃ f : Fin 2 → Fin 3,
        StrictMono f ∧
          ∀ i : Fin 2, ∃ signature key,
            machine.stack.top (6 + i) = .ok signature ∧
              machine.stack.top (2 + f i) = .ok key ∧
              checker.checkEcdsa signature.val key.val [] .base = .ok true := by
  have hOut :
      (machine.checkmultisigVerify env [] maxPubkeysPerMultisig 2 6 3 2).out = .ok true := by
    decide +kernel
  rcases @checkmultisigVerify_exact _ env machine [] 2 6 3 2 8
      (by decide) (by decide) (by decide) (by decide)
      (by decide) (by decide) (by decide) (by decide)
      (by decide) with
    ⟨ok, hOk, hMatching, _⟩
  rw [hOut] at hOk
  cases hOk
  exact ⟨hOut, hMatching.mp rfl⟩

end TwoOfThree

end Bitmigo
