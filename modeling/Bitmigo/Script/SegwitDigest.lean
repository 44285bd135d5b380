import Bitmigo.Script.Precomputed

/-
  What a segwit v0 signature commits to.

  Key definitions include:
    * `SegwitCall`, a call of `segwit_v0_sighash` with the precompute of its own transaction
    * `SegwitCall.message`, the string that is hashed
    * `SegwitCall.Agrees`, what BIP143 says two signatures over one digest agree on

  Key theorems include:
    * `SegwitCall.digest_eq_ok`
    * `SegwitCall.message_inj`
    * `segwitV0Sighash_commits`
-/

namespace Bitmigo

open Result List Crypto

variable (K : Primitives)

--------
-- Calls
--------

/- The mode bits of a hash type, which never conflict. -/
def hashMode (hashType : UInt32) : EcdsaHashMode where
  anyoneCanPay := hashType &&& sighashAnyonecanpay.toUInt32 != 0
  single := hashType &&& legacyOutputMask == sighashSingle.toUInt32
  none := hashType &&& legacyOutputMask == sighashNone.toUInt32

theorem fromHashType_eq (hashType : UInt32) :
    EcdsaHashMode.fromHashType hashType = .ok (hashMode hashType) := by
  rcases EcdsaHashMode.fromHashType_returns hashType with ⟨mode, hMode⟩
  have hParts := hMode
  simp only [EcdsaHashMode.fromHashType, bind_eq_ok, pure_inj] at hParts
  rcases hParts with ⟨_, _, rfl⟩
  exact hMode

/- The arguments of a call, and of its precompute. -/
structure SegwitCall where
  tx : Transaction
  prevouts : List TxOut
  index : Nat
  scriptCode : Script
  amount : UInt64
  hashType : UInt32

namespace SegwitCall

def digest (call : SegwitCall) : Result ScriptError Hash32 := do
  let precomputed ← TxPrecomputed.new K call.tx call.prevouts
  segwitV0Sighash K call.tx call.index call.scriptCode call.amount call.hashType precomputed

def mode (call : SegwitCall) : EcdsaHashMode :=
  hashMode call.hashType

def hashPrevouts (call : SegwitCall) : Hash32 :=
  if call.mode.anyoneCanPay then
    FixedBytes.zero 32
  else
    K.sha256d (outpointBytes K call.tx)

def hashSequence (call : SegwitCall) : Hash32 :=
  if call.mode.anyoneCanPay ∨ call.mode.single ∨
      call.mode.none then
    FixedBytes.zero 32
  else
    K.sha256d (sequenceBytes K call.tx)

def hashOutputs (call : SegwitCall) : Hash32 :=
  if call.mode.single then
    match call.tx.output[call.index]? with
    | some output => K.sha256d (K.encodeTxOut output)
    | none => FixedBytes.zero 32
  else if call.mode.none then
    FixedBytes.zero 32
  else
    K.sha256d (outputBytes K call.tx)

/- The string the digest hashes, given the signed input. -/
def message (call : SegwitCall) (input : TxIn) : Bytes :=
  K.encodeVersion call.tx.version ++
    ((call.hashPrevouts K).val ++ ((call.hashSequence K).val ++
    (K.encodeOutPoint input.previousOutput ++ (K.encodeScript call.scriptCode ++
    (K.encodeAmount call.amount ++ (K.encodeSequence input.sequence ++ ((call.hashOutputs K).val ++
    (K.encodeLockTime call.tx.lockTime ++ K.encodeU32 call.hashType))))))))

/- The strings that are hashed first. -/
def written (call : SegwitCall) : List Bytes :=
  [outpointBytes K call.tx, sequenceBytes K call.tx, outputBytes K call.tx] ++
  call.tx.output[call.index]?.toList.map K.encodeTxOut ++
  call.tx.input[call.index]?.toList.map (call.message K)

/- Every string the call hashes: each of them twice. -/
def hashed (call : SegwitCall) : List Bytes :=
  call.written K ++ (call.written K).map fun bytes => (K.sha256 bytes).val

variable {call : SegwitCall}

theorem segwitHashOutputs_eq {precomputed : TxPrecomputed}
    (hHashes : precomputed.Hashes K call.tx call.prevouts) :
    segwitHashOutputs K call.tx call.index call.mode precomputed = .ok (call.hashOutputs K) := by
  unfold segwitHashOutputs hashOutputs
  rw [hHashes.hashOutputs]
  split
  · cases call.tx.output[call.index]? with
    | none => rfl
    | some output =>
      simp [sha256dEach, sha256Each_of_ne_nil, K.encodeTxOut_ne_nil, sha256Once, Primitives.sha256d]
  · split <;> rfl

/- A call that returns hashes its message. -/
theorem digest_eq_ok {digest : Hash32} (hDigest : call.digest K = .ok digest) :
    ∃ input, call.tx.input[call.index]? = some input ∧
      digest = K.sha256d (call.message K input) := by
  simp only [SegwitCall.digest, bind_eq_ok] at hDigest
  rcases hDigest with ⟨precomputed, hNew, hDigest⟩
  have hHashes := TxPrecomputed.new_eq_ok K hNew
  simp only [segwitV0Sighash, fromHashType_eq,
    bind_eq_ok, ok_bind, assert_eq_ok, expect_eq_ok] at hDigest
  rcases hDigest with ⟨_, _, _, _, hDigest⟩
  rw [show hashMode call.hashType = call.mode from rfl, segwitHashOutputs_eq K hHashes] at hDigest
  simp only [Except.ok.injEq, exists_eq_left', encode_of_ne_nil (K.encodeVersion_ne_nil _),
    encode_of_ne_nil (K.encodeOutPoint_ne_nil _), encode_of_ne_nil (K.encodeScript_ne_nil _),
    encode_of_ne_nil (K.encodeAmount_ne_nil _), encode_of_ne_nil (K.encodeSequence_ne_nil _),
    encode_of_ne_nil (K.encodeLockTime_ne_nil _),
    encode_of_ne_nil (K.encodeU32_ne_nil _), pure_eq_ok] at hDigest
  rcases hDigest with ⟨input, hInput, hDigest⟩
  refine ⟨input, hInput, hDigest.symm.trans ?_⟩
  rw [hHashes.hashPrevouts, hHashes.hashSequence]
  simp only [message, hashPrevouts, hashSequence, append_assoc]

--------
-- Commitments
--------

/- What two calls with one digest have in common. -/
structure Agrees (first second : SegwitCall) : Prop where
  hashType : first.hashType = second.hashType
  version : first.tx.version = second.tx.version
  lockTime : first.tx.lockTime = second.tx.lockTime
  own : ∃ input ∈ first.tx.input[first.index]?,
      ∃ input' ∈ second.tx.input[second.index]?,
        input.previousOutput = input'.previousOutput ∧ input.sequence = input'.sequence
  scriptCode : first.scriptCode = second.scriptCode
  amount : first.amount = second.amount
  outpoints : first.mode.anyoneCanPay = false →
      first.tx.input.map (·.previousOutput) = second.tx.input.map (·.previousOutput)
  sequences : first.mode.anyoneCanPay = false →
      first.mode.none = false → first.mode.single = false →
        first.tx.input.map (·.sequence) = second.tx.input.map (·.sequence)
  outputs : first.mode.none = false → first.mode.single = false →
      first.tx.output = second.tx.output
  -- Both have an output there, the same one, or neither.
  single : first.mode.single = true →
      first.tx.output[first.index]? = second.tx.output[second.index]?

/- No two strings hashed by the calls have one hash. -/
def NoCollision (first second : SegwitCall) : Prop :=
  Set.InjOn K.sha256 { bytes | bytes ∈ first.hashed K ++ second.hashed K }

/- The encodings tell the calls' scripts and outputs apart. -/
def Delimited (first second : SegwitCall) : Prop :=
  K.Delimits
    { script | script = first.scriptCode ∨ script = second.scriptCode }
    { output | output ∈ first.tx.output ∨ output ∈ second.tx.output }
    ∅

variable {K} {first second : SegwitCall}

/- Neither do double hashes collide. -/
theorem NoCollision.sha256d_inj (hHash : NoCollision K first second) {a b : Bytes}
    (hA : a ∈ first.written K) (hB : b ∈ second.written K) (hEq : K.sha256d a = K.sha256d b) :
    a = b := by
  have hOuter : (K.sha256 a).val = (K.sha256 b).val := by
    refine hHash ?_ ?_ hEq
    · exact mem_append_left _ (mem_append_right _ (mem_map_of_mem hA))
    · exact mem_append_right _ (mem_append_right _ (mem_map_of_mem hB))
  refine hHash ?_ ?_ (Subtype.ext hOuter)
  · exact mem_append_left _ (mem_append_left _ hA)
  · exact mem_append_right _ (mem_append_left _ hB)

/- The fields of a message are read off it one by one. -/
theorem message_inj (hDelim : Delimited K first second) {input input' : TxIn}
    (hEq : first.message K input = second.message K input') :
    first.tx.version = second.tx.version ∧ first.hashPrevouts K = second.hashPrevouts K ∧
      first.hashSequence K = second.hashSequence K ∧ input.previousOutput = input'.previousOutput ∧
      first.scriptCode = second.scriptCode ∧ first.amount = second.amount ∧
      input.sequence = input'.sequence ∧ first.hashOutputs K = second.hashOutputs K ∧
      first.tx.lockTime = second.tx.lockTime ∧ first.hashType = second.hashType := by
  unfold message at hEq
  rcases hDelim.version _ trivial _ trivial _ _ hEq with ⟨hVer, hEq⟩
  rcases FixedBytes.append_inj hEq with ⟨hPrevouts, hEq⟩
  rcases FixedBytes.append_inj hEq with ⟨hSequences, hEq⟩
  rcases hDelim.outPoint _ trivial _ trivial _ _ hEq with ⟨hOutPoint, hEq⟩
  rcases hDelim.script _ (Or.inl rfl) _ (Or.inr rfl) _ _ hEq with ⟨hScript, hEq⟩
  rcases hDelim.amount _ trivial _ trivial _ _ hEq with ⟨hAmount, hEq⟩
  rcases hDelim.sequence _ trivial _ trivial _ _ hEq with ⟨hSequence, hEq⟩
  rcases FixedBytes.append_inj hEq with ⟨hOutputs, hEq⟩
  rcases hDelim.lockTime _ trivial _ trivial _ _ hEq with ⟨hLockTime, hEq⟩
  have hHashType := hDelim.u32.injOn trivial trivial hEq
  exact ⟨hVer, hPrevouts, hSequences, hOutPoint, hScript,
    hAmount, hSequence, hOutputs, hLockTime, hHashType⟩

theorem mem_written_output {output : TxOut} (hOutput : call.tx.output[call.index]? = some output) :
    K.encodeTxOut output ∈ call.written K := by
  simp [written, hOutput]

theorem mem_written_message {input : TxIn} (hInput : call.tx.input[call.index]? = some input) :
    call.message K input ∈ call.written K := by
  simp [written, hInput]

section

variable (hHash : NoCollision K first second) (hDelim : Delimited K first second)
variable (hMode : first.mode = second.mode)

include hHash hDelim hMode

theorem outpoints_agree (hEq : first.hashPrevouts K = second.hashPrevouts K)
    (hAnyone : first.mode.anyoneCanPay = false) :
    first.tx.input.map (·.previousOutput) = second.tx.input.map (·.previousOutput) := by
  simp only [hashPrevouts, ← hMode, hAnyone, Bool.false_eq_true, if_false] at hEq
  refine outpoints_eq hDelim (hHash.sha256d_inj ?_ ?_ hEq)
  · simp [written]
  · simp [written]

theorem sequences_agree (hEq : first.hashSequence K = second.hashSequence K)
    (hAnyone : first.mode.anyoneCanPay = false) (hNone : first.mode.none = false)
    (hSingle : first.mode.single = false) :
    first.tx.input.map (·.sequence) = second.tx.input.map (·.sequence) := by
  simp only [hashSequence, ← hMode, hAnyone, hNone, hSingle,
    Bool.false_eq_true, or_self, if_false] at hEq
  refine sequences_eq hDelim (hHash.sha256d_inj ?_ ?_ hEq)
  · simp [written]
  · simp [written]

theorem outputs_agree (hEq : first.hashOutputs K = second.hashOutputs K)
    (hNone : first.mode.none = false) (hSingle : first.mode.single = false) :
    first.tx.output = second.tx.output := by
  simp only [hashOutputs, ← hMode, hNone, hSingle, Bool.false_eq_true, if_false] at hEq
  refine outputs_eq hDelim (fun _ => Or.inl) (fun _ => Or.inr) (hHash.sha256d_inj ?_ ?_ hEq)
  · simp [written]
  · simp [written]

end

/- A missing output hashes to zero, which nothing else does. -/
theorem single_agree (hHash : NoCollision K first second)
    (hZero : ∀ bytes, K.sha256d bytes ≠ FixedBytes.zero 32) (hDelim : Delimited K first second)
    (hMode : first.mode = second.mode) (hEq : first.hashOutputs K = second.hashOutputs K)
    (hSingle : first.mode.single = true) :
    first.tx.output[first.index]? = second.tx.output[second.index]? := by
  simp only [hashOutputs, ← hMode, hSingle, if_true] at hEq
  cases hFst : first.tx.output[first.index]? with
  | none =>
    cases hSnd : second.tx.output[second.index]? with
    | none => rfl
    | some output =>
      simp only [hFst, hSnd] at hEq
      exact absurd hEq.symm (hZero _)
  | some output =>
    cases hSnd : second.tx.output[second.index]? with
    | none =>
      simp only [hFst, hSnd] at hEq
      exact absurd hEq (hZero _)
    | some output' =>
      simp only [hFst, hSnd] at hEq
      have hBytes := hHash.sha256d_inj (mem_written_output hFst) (mem_written_output hSnd) hEq
      rw [hDelim.txOut.injOn (Or.inl (mem_of_getElem? hFst)) (Or.inr (mem_of_getElem? hSnd)) hBytes]

end SegwitCall

/- Two v0 signatures over one digest agree on everything BIP143 says they commit to. -/
theorem segwitV0Sighash_commits {K : Primitives} {first second : SegwitCall} {digest : Hash32}
    (hFst : first.digest K = .ok digest) (hSnd : second.digest K = .ok digest)
    (hHash : SegwitCall.NoCollision K first second)
    (hZero : ∀ bytes, K.sha256d bytes ≠ FixedBytes.zero 32)
    (hDelim : SegwitCall.Delimited K first second) :
    first.Agrees second := by
  rcases SegwitCall.digest_eq_ok K hFst with ⟨input, hInput, hDigest⟩
  rcases SegwitCall.digest_eq_ok K hSnd with ⟨input', hInput', hDigest'⟩
  have hMessage := hHash.sha256d_inj (SegwitCall.mem_written_message hInput)
    (SegwitCall.mem_written_message hInput')
    (hDigest.symm.trans hDigest')
  rcases SegwitCall.message_inj hDelim hMessage with
    ⟨hVer, hPrevouts, hSequences, hOutPoint, hScript,
      hAmount, hSequence, hOutputs, hLockTime, hHashType⟩
  have hMode : first.mode = second.mode := by rw [SegwitCall.mode, SegwitCall.mode, hHashType]
  exact {
    hashType := hHashType
    version := hVer
    lockTime := hLockTime
    own := ⟨input, hInput, input', hInput', hOutPoint, hSequence⟩
    scriptCode := hScript
    amount := hAmount
    outpoints := SegwitCall.outpoints_agree hHash hDelim hMode hPrevouts
    sequences := SegwitCall.sequences_agree hHash hDelim hMode hSequences
    outputs := SegwitCall.outputs_agree hHash hDelim hMode hOutputs
    single := SegwitCall.single_agree hHash hZero hDelim hMode hOutputs }

--------
-- Two Spends
--------

namespace SharedInput

/- The first input and another, signed `SINGLE`. -/
def call (other : Nat) : SegwitCall where
  tx := sharing other
  prevouts := [⟨50, [0x00]⟩, ⟨0, []⟩]
  index := 0
  scriptCode := [0x51, 0xac]
  amount := 50
  hashType := 0x83

def digest : Hash32 :=
  residue (residue ((call 8).message residues.primitives (spend 7))).val

theorem digest_call (other : Nat) (hOther : other = 8 ∨ other = 9) :
    (call other).digest residues.primitives = .ok digest := by
  rcases hOther with rfl | rfl <;> decide +kernel

theorem noCollision : SegwitCall.NoCollision residues.primitives (call 8) (call 9) := by
  have hInj : ∀ a ∈ (call 8).hashed residues.primitives ++ (call 9).hashed residues.primitives,
      ∀ b ∈ (call 8).hashed residues.primitives ++ (call 9).hashed residues.primitives,
        residue a = residue b → a = b := by
    decide +kernel
  intro a hA b hB hEq
  exact hInj a hA b hB hEq

theorem delimited : SegwitCall.Delimited residues.primitives (call 8) (call 9) := by
  refine delimits _ ?_ ?_ ?_
  · rintro script (rfl | rfl) <;> decide
  · rintro output (hOutput | hOutput)
    · exact (show ∀ output ∈ (call 8).tx.output, output.scriptPubkey.length < 2 ^ 64 by decide)
        output hOutput
    · exact (show ∀ output ∈ (call 9).tx.output, output.scriptPubkey.length < 2 ^ 64 by decide)
        output hOutput
  · intro n hN
    exact absurd hN (Set.notMem_empty n)

theorem segwitV0Sighash_commits_single :
    (call 8).digest residues.primitives = .ok digest ∧
      (call 9).digest residues.primitives = .ok digest ∧
      (call 8).tx.output ≠ (call 9).tx.output ∧
      (call 8).Agrees (call 9) :=
  ⟨digest_call 8 (Or.inl rfl), digest_call 9 (Or.inr rfl),
    by decide,
    segwitV0Sighash_commits (digest_call 8 (Or.inl rfl)) (digest_call 9 (Or.inr rfl)) noCollision
      (fun _ => residue_ne_zero _) delimited⟩

end SharedInput

end Bitmigo
