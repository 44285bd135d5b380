import Bitmigo.Script.Precomputed

/-
  What a taproot signature commits to.

  Key definitions include:
    * `TaprootCall`, a call of `taproot_sighash` with the precompute of its own transaction
    * `TaprootCall.message`, the string that is hashed
    * `TaprootCall.Agrees`, what BIP341 says two signatures over one digest agree on

  Key theorems include:
    * `TaprootCall.digest_eq_ok`
    * `TaprootCall.common_inj`
    * `taprootSighash_commits`

  The layout of the message depends on the hash type, the spend and the annex. The hash type and the
  spend type stand before the parts they govern, so the message is read off from the front.
-/

namespace Bitmigo

open Result List Crypto Except

variable (K : Primitives)

--------
-- Calls
--------

/- The arguments of a call, and of its precompute. -/
structure TaprootCall where
  tx : Transaction
  index : Nat
  prevouts : List TxOut
  hashType : UInt8
  spend : TaprootSpend
  annex : Option Bytes

namespace TaprootCall

variable {call : TaprootCall} {written : Bytes}

def digest (call : TaprootCall) : Result ScriptError Hash32 := do
  let precomputed ← TxPrecomputed.new K call.tx call.prevouts
  taprootSighash K call.tx call.index call.prevouts call.hashType call.spend call.annex precomputed

def outputType (call : TaprootCall) : UInt8 :=
  taprootOutputType call.hashType

def anyoneCanPay (call : TaprootCall) : Bool :=
  call.hashType &&& sighashAnyonecanpay != 0

/- The hashes over all inputs. -/
def common (call : TaprootCall) : Bytes :=
  if call.anyoneCanPay then
    []
  else
    (K.sha256 (outpointBytes K call.tx)).val ++
      ((K.sha256 (amountBytes K call.prevouts)).val ++
      ((K.sha256 (scriptBytes K call.prevouts)).val ++ (K.sha256 (sequenceBytes K call.tx)).val))

/- The hash over all outputs. -/
def outputs (call : TaprootCall) : Bytes :=
  if call.outputType = sighashAll then
    (K.sha256 (outputBytes K call.tx)).val
  else
    []

/- The signed input in full, or its index. -/
def inputData (call : TaprootCall) (input : TxIn) (prevout : TxOut) : Bytes :=
  if call.anyoneCanPay then
    K.encodeOutPoint input.previousOutput ++
      (K.encodeTxOut prevout ++ K.encodeSequence input.sequence)
  else
    K.encodeU32 (UInt32.ofNat call.index)

def annexString (annex : Bytes) : Bytes :=
  K.encodeVarInt annex.length ++ annex

def annexHash (call : TaprootCall) : Bytes :=
  match call.annex with
  | none => []
  | some annex => (K.sha256 (annexString K annex)).val

/- The hash of the output at the signed index. -/
def single (call : TaprootCall) : Bytes :=
  if call.outputType = sighashSingle then
    match call.tx.output[call.index]? with
    | some output => (K.sha256 (K.encodeTxOut output)).val
    | none => []
  else
    []

def leaf (call : TaprootCall) : Bytes :=
  match call.spend with
  | .keyPath => []
  | .tapscript leafHash codesepPos =>
    leafHash.val ++ keyVersion0 :: K.encodeU32 codesepPos

/- The string the digest hashes, given the signed input. -/
def message (call : TaprootCall) (input : TxIn) (prevout : TxOut) : Bytes :=
  taprootEpoch :: call.hashType ::
    (K.encodeVersion call.tx.version ++ (K.encodeLockTime call.tx.lockTime ++ (call.common K ++
    (call.outputs K ++ (spendType call.spend call.annex :: (call.inputData K input prevout ++
    (call.annexHash K ++ (call.single K ++ call.leaf K))))))))

/- The strings hashed with plain SHA-256. -/
def hashed (call : TaprootCall) : List Bytes :=
  [outpointBytes K call.tx, amountBytes K call.prevouts,
    scriptBytes K call.prevouts, sequenceBytes K call.tx, outputBytes K call.tx] ++
  call.annex.toList.map (annexString K) ++
  call.tx.output[call.index]?.toList.map K.encodeTxOut

/- The message, if there is an input to sign. -/
def messages (call : TaprootCall) : List Bytes :=
  match call.tx.input[call.index]?, call.prevouts[call.index]? with
  | some input, some prevout => [call.message K input prevout]
  | _, _ => []

--------
-- What a Call Hashes
--------

theorem annexHash_eq_ok
    (hWritten :
      (match call.annex with
        | none => pure []
        | some annex => do
            let len ← encode (K.encodeVarInt annex.length)
            pure (K.sha256 (len ++ annex)).val :
        Result ScriptError Bytes) = .ok written) :
    written = call.annexHash K := by
  unfold annexHash annexString
  cases hAnnex : call.annex with
  | none =>
    simp only [hAnnex, pure_inj] at hWritten
    exact hWritten.symm
  | some annex =>
    simp only [hAnnex, ok_bind, pure_eq_ok, encode_of_ne_nil (K.encodeVarInt_ne_nil _),
      ok.injEq] at hWritten
    exact hWritten.symm

theorem taprootEncodeInput_eq_ok {input : TxIn} {prevout : TxOut}
    (hInput : call.tx.input[call.index]? = some input)
    (hPrevout : call.prevouts[call.index]? = some prevout)
    (hWritten : taprootEncodeInput K call.tx call.index call.prevouts
      call.anyoneCanPay call.spend call.annex = .ok written) :
    (call.anyoneCanPay = false → call.index < 2 ^ 32) ∧ written = spendType call.spend call.annex ::
        (call.inputData K input prevout ++ call.annexHash K) := by
  simp only [taprootEncodeInput, hInput, hPrevout, bind_eq_ok, assert_eq_ok,
    pure_eq_ok, ok.injEq] at hWritten
  rcases hWritten with ⟨_, _, data, hData, annexHash, hAnnex, rfl⟩
  rw [annexHash_eq_ok K hAnnex]
  cases hAnyone : call.anyoneCanPay with
  | true =>
    simp only [hAnyone, if_true, expect_some, ok_bind, ok.injEq,
      encode_of_ne_nil (K.encodeOutPoint_ne_nil _), encode_of_ne_nil (K.encodeTxOut_ne_nil _),
      encode_of_ne_nil (K.encodeSequence_ne_nil _)] at hData
    subst hData
    simp [inputData, hAnyone]
  | false =>
    simp only [hAnyone, Bool.false_eq_true, if_false,
      bind_eq_ok, assert_eq_ok, encode_of_ne_nil (K.encodeU32_ne_nil _), ok.injEq] at hData
    rcases hData with ⟨_, hIndex, rfl⟩
    exact ⟨fun _ => hIndex, by simp [inputData, hAnyone]⟩

theorem taprootEncodeLeaf_eq (call : TaprootCall) :
    taprootEncodeLeaf K call.spend = .ok (call.leaf K) := by
  unfold taprootEncodeLeaf leaf
  cases call.spend with
  | keyPath => rfl
  | tapscript leafHash codesepPos => simp [encode_of_ne_nil (K.encodeU32_ne_nil _)]

/- What holds of a call that returns. -/
structure Signs (call : TaprootCall) (digest : Hash32) (input : TxIn) (prevout : TxOut) :
    Prop where
  input_eq : call.tx.input[call.index]? = some input
  prevout_eq : call.prevouts[call.index]? = some prevout
  length_eq : call.prevouts.length = call.tx.input.length
  index_lt : call.anyoneCanPay = false → call.index < 2 ^ 32
  output_lt : call.outputType = sighashSingle → call.index < call.tx.output.length
  digest_eq : digest = K.tapSighash (call.message K input prevout)

theorem single_eq_ok
    (hWritten :
      (if call.outputType = sighashSingle then do
          let output ← expect call.tx.output[call.index]?
          let digest ← sha256Each K [K.encodeTxOut output]
          return digest.val
        else
          pure [] :
        Result ScriptError Bytes) = .ok written) :
    written = call.single K := by
  unfold single
  split at hWritten
  case isTrue hSingle =>
    rw [if_pos hSingle]
    simp only [bind_eq_ok, expect_eq_ok, pure_inj] at hWritten
    rcases hWritten with ⟨output, hOutput, digest, hDigest, rfl⟩
    rw [sha256Each_of_ne_nil K (by
      simpa using K.encodeTxOut_ne_nil output)] at hDigest
    simp only [flatten_cons, flatten_nil, append_nil, ok.injEq] at hDigest
    simp only [hOutput, ← hDigest]
  case isFalse hSingle =>
    rw [if_neg hSingle]
    exact (ok.inj hWritten).symm

theorem digest_eq_ok {digest : Hash32} (hDigest : call.digest K = .ok digest) :
    ∃ input prevout, call.Signs K digest input prevout := by
  simp only [TaprootCall.digest, bind_eq_ok] at hDigest
  rcases hDigest with ⟨precomputed, hNew, hDigest⟩
  have hHashes := TxPrecomputed.new_eq_ok K hNew
  simp only [taprootSighash, bind_eq_ok, assert_eq_ok, ensure_eq_ok,
    encode_of_ne_nil (K.encodeVersion_ne_nil _), encode_of_ne_nil (K.encodeLockTime_ne_nil _),
    ok_bind, taprootEncodeLeaf_eq, pure_inj] at hDigest
  rcases hDigest with
    ⟨_, hIndex, _, hLen, _, _, _, _, _, _, _, hSingle, data, hData, single, hWritten, rfl⟩
  have hPrevout : call.index < call.prevouts.length := by omega
  have hInputAt := getElem?_eq_getElem hIndex
  have hPrevoutAt := getElem?_eq_getElem hPrevout
  rcases taprootEncodeInput_eq_ok K hInputAt hPrevoutAt hData with ⟨hFits, rfl⟩
  refine ⟨_, _, {
    input_eq := hInputAt
    prevout_eq := hPrevoutAt
    length_eq := hLen
    index_lt := hFits
    output_lt := ?_
    digest_eq := ?_ }⟩
  · intro hType
    by_contra hShort
    exact hSingle ⟨hType, by omega⟩
  · rw [single_eq_ok K hWritten, hHashes.shaPrevouts, hHashes.shaAmounts, hHashes.shaScriptpubkeys,
      hHashes.shaSequences, hHashes.shaOutputs]
    simp only [message, common, outputs, append_assoc, cons_append, nil_append]
    rfl

--------
-- Commitments
--------

/- What two calls with one digest have in common. -/
structure Agrees (first second : TaprootCall) : Prop where
  hashType : first.hashType = second.hashType
  version : first.tx.version = second.tx.version
  lockTime : first.tx.lockTime = second.tx.lockTime
  annex : first.annex = second.annex
  spend : first.spend = second.spend
  index : first.anyoneCanPay = false → first.index = second.index
  outpoints : first.anyoneCanPay = false →
      first.tx.input.map (·.previousOutput) = second.tx.input.map (·.previousOutput)
  sequences : first.anyoneCanPay = false →
      first.tx.input.map (·.sequence) = second.tx.input.map (·.sequence)
  amounts : first.anyoneCanPay = false →
      first.prevouts.map (·.value) = second.prevouts.map (·.value)
  scripts : first.anyoneCanPay = false →
      first.prevouts.map (·.scriptPubkey) = second.prevouts.map (·.scriptPubkey)
  own : first.anyoneCanPay = true →
      ∃ input ∈ first.tx.input[first.index]?,
        ∃ input' ∈ second.tx.input[second.index]?,
          input.previousOutput = input'.previousOutput ∧ input.sequence = input'.sequence
  prevout : first.anyoneCanPay = true →
      ∃ prevout ∈ first.prevouts[first.index]?, prevout ∈ second.prevouts[second.index]?
  outputs : first.outputType = sighashAll →
      first.tx.output = second.tx.output
  single : first.outputType = sighashSingle →
      ∃ output ∈ first.tx.output[first.index]?, output ∈ second.tx.output[second.index]?

/- No two strings hashed by the calls have one hash. -/
structure NoCollision (first second : TaprootCall) : Prop where
  sha256 : Set.InjOn K.sha256 { bytes | bytes ∈ first.hashed K ++ second.hashed K }
  tapSighash : Set.InjOn K.tapSighash { bytes | bytes ∈ first.messages K ++ second.messages K }

/- The encodings tell the calls' scripts, outputs and annexes apart. -/
def Delimited (first second : TaprootCall) : Prop :=
  K.Delimits
    { script |
      script ∈ first.prevouts.map (·.scriptPubkey) ∨ script ∈ second.prevouts.map (·.scriptPubkey) }
    { output |
      output ∈ first.tx.output ++ first.prevouts ∨ output ∈ second.tx.output ++ second.prevouts }
    { size | ∃ annex, (first.annex = some annex ∨ second.annex = some annex) ∧ size = annex.length }

section

variable {K} {first second : TaprootCall} {rest rest' : Bytes}
variable {digest : Hash32} {input input' : TxIn} {prevout prevout' : TxOut}

theorem NoCollision.sha256_inj (hHash : NoCollision K first second) {a b : Bytes}
    (hA : a ∈ first.hashed K) (hB : b ∈ second.hashed K) (hEq : K.sha256 a = K.sha256 b) : a = b :=
  hHash.sha256 (mem_append_left _ hA) (mem_append_right _ hB) hEq

theorem NoCollision.message_eq (hHash : NoCollision K first second)
    (hFst : first.Signs K digest input prevout) (hSnd : second.Signs K digest input' prevout') :
    first.message K input prevout = second.message K input' prevout' := by
  refine hHash.tapSighash (mem_append_left _ ?_) (mem_append_right _ ?_)
    (hFst.digest_eq.symm.trans hSnd.digest_eq)
  · simp [messages, hFst.input_eq, hFst.prevout_eq]
  · simp [messages, hSnd.input_eq, hSnd.prevout_eq]

/- The hashes over all inputs stand in both or in neither. -/
theorem common_inj (hType : first.hashType = second.hashType)
    (hEq : first.common K ++ rest = second.common K ++ rest') :
    rest = rest' ∧ (first.anyoneCanPay = false → K.sha256 (outpointBytes K first.tx) =
        K.sha256 (outpointBytes K second.tx) ∧
      K.sha256 (amountBytes K first.prevouts) = K.sha256 (amountBytes K second.prevouts) ∧
      K.sha256 (scriptBytes K first.prevouts) = K.sha256 (scriptBytes K second.prevouts) ∧
      K.sha256 (sequenceBytes K first.tx) = K.sha256 (sequenceBytes K second.tx)) := by
  have hSame : second.anyoneCanPay = first.anyoneCanPay := by rw [anyoneCanPay, anyoneCanPay, hType]
  simp only [common, hSame] at hEq
  cases hAnyone : first.anyoneCanPay with
  | true =>
    simp only [hAnyone, if_true, nil_append] at hEq
    exact ⟨hEq, by simp⟩
  | false =>
    simp only [hAnyone, Bool.false_eq_true, if_false, append_assoc] at hEq
    rcases FixedBytes.append_inj hEq with ⟨hOutpoints, hEq⟩
    rcases FixedBytes.append_inj hEq with ⟨hAmounts, hEq⟩
    rcases FixedBytes.append_inj hEq with ⟨hScripts, hEq⟩
    rcases FixedBytes.append_inj hEq with ⟨hSequences, hEq⟩
    exact ⟨hEq, fun _ => ⟨hOutpoints, hAmounts, hScripts, hSequences⟩⟩

theorem outputs_inj (hType : first.hashType = second.hashType)
    (hEq : first.outputs K ++ rest = second.outputs K ++ rest') :
    rest = rest' ∧ (first.outputType = sighashAll →
      K.sha256 (outputBytes K first.tx) = K.sha256 (outputBytes K second.tx)) := by
  have hSame : second.outputType = first.outputType := by rw [outputType, outputType, hType]
  simp only [outputs, hSame] at hEq
  by_cases hAll : first.outputType = sighashAll
  · simp only [hAll, if_true] at hEq
    rcases FixedBytes.append_inj hEq with ⟨hOutputs, hEq⟩
    exact ⟨hEq, fun _ => hOutputs⟩
  · simp only [hAll, if_false, nil_append] at hEq
    exact ⟨hEq, fun hAll' => absurd hAll' hAll⟩

theorem inputData_inj (hDelim : Delimited K first second)
    (hType : first.hashType = second.hashType) (hFst : first.Signs K digest input prevout)
    (hSnd : second.Signs K digest input' prevout')
    (hEq : first.inputData K input prevout ++ rest = second.inputData K input' prevout' ++ rest') :
    rest = rest' ∧ (first.anyoneCanPay = false → first.index = second.index) ∧
      (first.anyoneCanPay = true → input.previousOutput = input'.previousOutput ∧
        input.sequence = input'.sequence ∧ prevout = prevout') := by
  have hSame : second.anyoneCanPay = first.anyoneCanPay := by rw [anyoneCanPay, anyoneCanPay, hType]
  simp only [inputData, hSame] at hEq
  cases hAnyone : first.anyoneCanPay with
  | true =>
    simp only [hAnyone, if_true, append_assoc] at hEq
    rcases hDelim.outPoint _ trivial _ trivial _ _ hEq with ⟨hOutPoint, hEq⟩
    rcases hDelim.txOut _ (Or.inl (mem_append_right _ (mem_of_getElem? hFst.prevout_eq))) _
      (Or.inr (mem_append_right _ (mem_of_getElem? hSnd.prevout_eq))) _ _ hEq
      with ⟨hPrevout, hEq⟩
    rcases hDelim.sequence _ trivial _ trivial _ _ hEq with ⟨hSequence, hEq⟩
    exact ⟨hEq, by simp, fun _ => ⟨hOutPoint, hSequence, hPrevout⟩⟩
  | false =>
    simp only [hAnyone, Bool.false_eq_true, if_false] at hEq
    rcases hDelim.u32 _ trivial _ trivial _ _ hEq with ⟨hIndex, hEq⟩
    refine ⟨hEq, fun _ => ?_, by simp⟩
    have hNat := congrArg UInt32.toNat hIndex
    have hLt := hFst.index_lt hAnyone
    have hLt' := hSnd.index_lt (hSame.trans hAnyone)
    simp only [UInt32.toNat_ofNat'] at hNat
    omega

/- The spend type tells the shapes of spend and annex. -/
theorem spendType_inj {spend spend' : TaprootSpend} {annex annex' : Option Bytes}
    (hEq : spendType spend annex = spendType spend' annex') :
    (spend = .keyPath ↔ spend' = .keyPath) ∧ annex.isSome = annex'.isSome := by
  cases spend <;> cases spend' <;> cases annex <;> cases annex' <;> simp [spendType] at hEq ⊢ <;>
    exact absurd hEq (by decide)

theorem annexHash_inj (hHash : NoCollision K first second) (hDelim : Delimited K first second)
    (hSome : first.annex.isSome = second.annex.isSome)
    (hEq : first.annexHash K ++ rest = second.annexHash K ++ rest') :
    rest = rest' ∧ first.annex = second.annex := by
  unfold annexHash at hEq
  cases hFst : first.annex with
  | none =>
    cases hSnd : second.annex with
    | some annex => simp [hFst, hSnd] at hSome
    | none =>
      simp only [hFst, hSnd, nil_append] at hEq
      exact ⟨hEq, rfl⟩
  | some annex =>
    cases hSnd : second.annex with
    | none => simp [hFst, hSnd] at hSome
    | some annex' =>
      simp only [hFst, hSnd] at hEq
      rcases FixedBytes.append_inj hEq with ⟨hSha, hRest⟩
      have hString := hHash.sha256_inj (by simp [hashed, hFst]) (by simp [hashed, hSnd]) hSha
      rcases hDelim.varInt _ ⟨annex, Or.inl hFst, rfl⟩ _ ⟨annex', Or.inr hSnd, rfl⟩ _ _ hString with
        ⟨_, rfl⟩
      exact ⟨hRest, rfl⟩

theorem mem_hashed_output {output : TxOut} (hOutput : call.tx.output[call.index]? = some output) :
    K.encodeTxOut output ∈ call.hashed K := by
  simp [hashed, hOutput]

theorem single_inj (hHash : NoCollision K first second) (hDelim : Delimited K first second)
    (hType : first.hashType = second.hashType) (hFst : first.Signs K digest input prevout)
    (hSnd : second.Signs K digest input' prevout')
    (hEq : first.single K ++ rest = second.single K ++ rest') :
    rest = rest' ∧ (first.outputType = sighashSingle →
      ∃ output ∈ first.tx.output[first.index]?, output ∈ second.tx.output[second.index]?) := by
  have hSame : second.outputType = first.outputType := by rw [outputType, outputType, hType]
  by_cases hSingle : first.outputType = sighashSingle
  · have hOutput := getElem?_eq_getElem (hFst.output_lt hSingle)
    have hOutput' := getElem?_eq_getElem (hSnd.output_lt (hSame.trans hSingle))
    simp only [single, hSame, hSingle, if_true, hOutput, hOutput'] at hEq
    rcases FixedBytes.append_inj hEq with ⟨hSha, hEq⟩
    have hBytes := hHash.sha256_inj (mem_hashed_output hOutput) (mem_hashed_output hOutput') hSha
    have hOutputs := hDelim.txOut.injOn (Or.inl (mem_append_left _ (mem_of_getElem? hOutput)))
      (Or.inr (mem_append_left _ (mem_of_getElem? hOutput'))) hBytes
    refine ⟨hEq, fun _ => ⟨_, hOutput, ?_⟩⟩
    rwa [hOutputs]
  · simp only [single, hSame, hSingle, if_false, nil_append] at hEq
    exact ⟨hEq, fun hSingle' => absurd hSingle' hSingle⟩

theorem leaf_inj (hDelim : Delimited K first second)
    (hKeyPath : first.spend = .keyPath ↔ second.spend = .keyPath)
    (hEq : first.leaf K = second.leaf K) : first.spend = second.spend := by
  unfold leaf at hEq
  cases hFst : first.spend with
  | keyPath => exact (hKeyPath.mp hFst).symm
  | tapscript leafHash codesepPos =>
    cases hSnd : second.spend with
    | keyPath => simp [hFst, hSnd] at hKeyPath
    | tapscript leafHash' codesepPos' =>
      simp only [hFst, hSnd] at hEq
      rcases FixedBytes.append_inj hEq with ⟨hLeaf, hEq⟩
      have hPosition := hDelim.u32.injOn trivial trivial (List.cons.inj hEq).2
      rw [hLeaf, hPosition]

end

end TaprootCall

open TaprootCall

/- Two taproot signatures over one digest agree on everything BIP341 says they commit to. -/
theorem taprootSighash_commits {K : Primitives} {first second : TaprootCall} {digest : Hash32}
    (hFst : first.digest K = .ok digest) (hSnd : second.digest K = .ok digest)
    (hHash : NoCollision K first second)
    (hDelim : Delimited K first second) :
    first.Agrees second := by
  rcases digest_eq_ok K hFst with ⟨input, prevout, hSigns⟩
  rcases digest_eq_ok K hSnd with ⟨input', prevout', hSigns'⟩
  have hEq := hHash.message_eq hSigns hSigns'
  unfold message at hEq
  -- The message is read off from the front.
  rcases List.cons.inj (List.cons.inj hEq).2 with ⟨hType, hEq⟩
  rcases hDelim.version _ trivial _ trivial _ _ hEq with ⟨hVer, hEq⟩
  rcases hDelim.lockTime _ trivial _ trivial _ _ hEq with ⟨hLockTime, hEq⟩
  rcases common_inj hType hEq with ⟨hEq, hCommon⟩
  rcases outputs_inj hType hEq with ⟨hEq, hOutputs⟩
  rcases List.cons.inj hEq with ⟨hSpendType, hEq⟩
  rcases spendType_inj hSpendType with ⟨hKeyPath, hSome⟩
  rcases inputData_inj hDelim hType hSigns hSigns' hEq with ⟨hEq, hIndex, hOwn⟩
  rcases annexHash_inj hHash hDelim hSome hEq with ⟨hEq, hAnnex⟩
  rcases single_inj hHash hDelim hType hSigns hSigns' hEq with ⟨hEq, hSingle⟩
  have hSpend := leaf_inj hDelim hKeyPath hEq
  exact {
    hashType := hType
    version := hVer
    lockTime := hLockTime
    annex := hAnnex
    spend := hSpend
    index := hIndex
    outpoints := fun hAnyone =>
      outpoints_eq hDelim (hHash.sha256_inj (by simp [hashed])
        (by simp [hashed]) (hCommon hAnyone).1)
    sequences := fun hAnyone =>
      sequences_eq hDelim (hHash.sha256_inj (by simp [hashed])
        (by simp [hashed])
        (hCommon hAnyone).2.2.2)
    amounts := fun hAnyone =>
      amounts_eq hDelim (hHash.sha256_inj (by simp [hashed])
        (by simp [hashed])
        (hCommon hAnyone).2.1)
    scripts := fun hAnyone =>
      scripts_eq hDelim (fun _ => Or.inl) (fun _ => Or.inr) (hHash.sha256_inj
          (by simp [hashed]) (by simp [hashed])
          (hCommon hAnyone).2.2.1)
    own := fun hAnyone =>
      ⟨input, hSigns.input_eq, input', hSigns'.input_eq, (hOwn hAnyone).1, (hOwn hAnyone).2.1⟩
    prevout := fun hAnyone =>
      ⟨prevout, hSigns.prevout_eq, (hOwn hAnyone).2.2 ▸ hSigns'.prevout_eq⟩
    outputs := fun hAll =>
      outputs_eq hDelim (fun _ hMem => Or.inl (mem_append_left _ hMem))
        (fun _ hMem => Or.inr (mem_append_left _ hMem))
        (hHash.sha256_inj (by simp [hashed])
          (by simp [hashed]) (hOutputs hAll))
    single := hSingle }

--------
-- Two Leaf Spends
--------

namespace SharedLeaf

/- A leaf spend with an annex, signed `SINGLE`. -/
def call (other : Nat) : TaprootCall where
  tx := sharing other
  index := 0
  prevouts := [⟨50, [0x51]⟩, ⟨0, []⟩]
  hashType := 0x83
  spend := .tapscript (hash32 3) 0xffffffff
  annex := some [0x50, 0x01]

def digest : Hash32 :=
  residue ((call 8).message residues.primitives (Crypto.spend 7) ⟨50, [0x51]⟩)

theorem digest_call (other : Nat) (hOther : other = 8 ∨ other = 9) :
    (call other).digest residues.primitives = .ok digest := by
  rcases hOther with rfl | rfl <;> decide +kernel

theorem noCollision : NoCollision residues.primitives (call 8) (call 9) := by
  have hSha : ∀ a ∈ (call 8).hashed residues.primitives ++ (call 9).hashed residues.primitives,
      ∀ b ∈ (call 8).hashed residues.primitives ++ (call 9).hashed residues.primitives,
        residue a = residue b → a = b := by
    decide +kernel
  have hTap : ∀ a ∈ (call 8).messages residues.primitives ++ (call 9).messages residues.primitives,
      ∀ b ∈ (call 8).messages residues.primitives ++ (call 9).messages residues.primitives,
        residue a = residue b → a = b := by
    decide +kernel
  constructor
  · intro a hA b hB hEq
    exact hSha a hA b hB hEq
  · intro a hA b hB hEq
    exact hTap a hA b hB hEq

theorem delimited : Delimited residues.primitives (call 8) (call 9) := by
  have hOutputs (other : Nat) (hOther : other = 8 ∨ other = 9) :
      ∀ output ∈ (call other).tx.output ++ (call other).prevouts,
        output.scriptPubkey.length < 2 ^ 64 := by
    rcases hOther with rfl | rfl <;> decide
  refine delimits _ ?_ ?_ ?_
  · rintro script (hScript | hScript)
    · rcases mem_map.mp hScript with ⟨output, hOutput, rfl⟩
      exact hOutputs 8 (Or.inl rfl) output (mem_append_right _ hOutput)
    · rcases mem_map.mp hScript with ⟨output, hOutput, rfl⟩
      exact hOutputs 9 (Or.inr rfl) output (mem_append_right _ hOutput)
  · rintro output (hOutput | hOutput)
    · exact hOutputs 8 (Or.inl rfl) output hOutput
    · exact hOutputs 9 (Or.inr rfl) output hOutput
  · rintro size ⟨annex, hAnnex | hAnnex, rfl⟩
    · cases hAnnex
      decide
    · cases hAnnex
      decide

theorem taprootSighash_commits_single :
    (call 8).digest residues.primitives = .ok digest ∧
      (call 9).digest residues.primitives = .ok digest ∧
      (call 8).tx.output ≠ (call 9).tx.output ∧
      (call 8).Agrees (call 9) :=
  ⟨digest_call 8 (Or.inl rfl), digest_call 9 (Or.inr rfl),
    by decide,
    taprootSighash_commits (digest_call 8 (Or.inl rfl))
      (digest_call 9 (Or.inr rfl)) noCollision delimited⟩

end SharedLeaf

end Bitmigo
