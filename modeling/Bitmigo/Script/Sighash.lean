import Bitmigo.Bitcoin.Primitives
import Bitmigo.Script.Reader

/-
  The digests a signature commits to: legacy, BIP143 and BIP341.

  Key definitions include:
    * `TxPrecomputed`
    * `legacySighash`
    * `segwitV0Sighash`
    * `taprootSighash`

  A hash engine is the list of bytes written to it. The `_returns` and `_safe` lemmas say that no
  digest of a transaction with an input at the signed index trips an assertion.
-/

namespace Bitmigo

open Result List

variable (K : Primitives) {tx : Transaction} {index : Nat}
variable {values : List Bytes} {prevouts : List TxOut} {annex : Option Bytes}

def sighashDefault : UInt8 := 0x00
def sighashAll : UInt8 := 0x01
def sighashNone : UInt8 := 0x02
def sighashSingle : UInt8 := 0x03
def sighashAnyonecanpay : UInt8 := 0x80
def annexTag : UInt8 := 0x50
def legacyOutputMask : UInt32 := 0x1f
def taprootOutputMask : UInt8 := 0x03
def taprootEpoch : UInt8 := 0x00
def keyVersion0 : UInt8 := 0x00

/- The constant a mismatched legacy `SINGLE` hashes to. -/
def uint256One : Hash32 :=
  ⟨1 :: replicate 31 0, by simp⟩

--------
-- Writing to an Engine
--------

/- One encoded value: an encoding writes something. -/
def encode (written : Bytes) : Result ScriptError Bytes := do
  assert (0 < written.length)
  return written

theorem encode_of_ne_nil {written : Bytes} (hWritten : written ≠ []) :
    encode written = .ok written := by
  have hLen : 0 < written.length := length_pos_iff.mpr hWritten
  simp [encode, assert, hLen]

/- The encodings of a list of values, one after the other. -/
def encodeEach (values : List Bytes) : Result ScriptError Bytes := do
  let written ← values.mapM encode
  return written.flatten

theorem encodeEach_of_ne_nil (hValues : ∀ value ∈ values, value ≠ []) :
    encodeEach values = .ok values.flatten := by
  have hMap : values.mapM encode = .ok values := by
    induction values with
    | nil => rfl
    | cons value rest ih =>
      have hRest := ih (fun other hOther => hValues other (mem_cons_of_mem _ hOther))
      simp [mapM_cons, hRest, encode_of_ne_nil (hValues value mem_cons_self)]
  simp [encodeEach, hMap]

/- Single SHA-256 over the encodings of some values. -/
def sha256Each (values : List Bytes) : Result ScriptError Hash32 := do
  let written ← encodeEach values
  return K.sha256 written

theorem sha256Each_of_ne_nil (hValues : ∀ value ∈ values, value ≠ []) :
    sha256Each K values = .ok (K.sha256 values.flatten) := by
  simp [sha256Each, encodeEach_of_ne_nil hValues]

def sha256Once (digest : Hash32) : Hash32 :=
  K.sha256 digest.val

/- Double SHA-256 over the encodings of some values. -/
def sha256dEach (values : List Bytes) : Result ScriptError Hash32 := do
  let digest ← sha256Each K values
  return sha256Once K digest

--------
-- The Precompute
--------

/- What every signature hash of a transaction shares. -/
structure TxPrecomputed where
  txid : Txid
  inputCount : Nat
  outputCount : Nat
  hashPrevouts : Hash32
  hashSequence : Hash32
  hashOutputs : Hash32
  shaPrevouts : Hash32
  shaAmounts : Hash32
  shaScriptpubkeys : Hash32
  shaSequences : Hash32
  shaOutputs : Hash32
  deriving DecidableEq

variable {precomputed : TxPrecomputed}

namespace TxPrecomputed

/- One input and one output; the digests, which a legacy check does not read, are left zero. -/
def blank (txid : Txid) : TxPrecomputed :=
  let zero := FixedBytes.zero 32
  ⟨txid, 1, 1, zero, zero, zero, zero, zero, zero, zero, zero⟩

/- Hash `tx` and the outputs it spends, one per input. -/
def new (tx : Transaction) (prevouts : List TxOut) : Result ScriptError TxPrecomputed := do
  assert (tx.input ≠ [])
  assert (prevouts.length = tx.input.length)
  let shaPrevouts ← sha256Each K (tx.input.map (K.encodeOutPoint ·.previousOutput))
  let shaSequences ← sha256Each K (tx.input.map (K.encodeSequence ·.sequence))
  let shaOutputs ← sha256Each K (tx.output.map K.encodeTxOut)
  let shaAmounts ← sha256Each K (prevouts.map (K.encodeAmount ·.value))
  let shaScriptpubkeys ← sha256Each K (prevouts.map (K.encodeScript ·.scriptPubkey))
  return {
    txid := K.computeTxid tx
    inputCount := tx.input.length
    outputCount := tx.output.length
    hashPrevouts := sha256Once K shaPrevouts
    hashSequence := sha256Once K shaSequences
    hashOutputs := sha256Once K shaOutputs
    shaPrevouts := shaPrevouts
    shaAmounts := shaAmounts
    shaScriptpubkeys := shaScriptpubkeys
    shaSequences := shaSequences
    shaOutputs := shaOutputs }

/- What `assert_built_for` demands, the debug-build check of the transaction id included. -/
def BuiltFor (precomputed : TxPrecomputed) (tx : Transaction) : Prop :=
  tx.input.length = precomputed.inputCount ∧
    tx.output.length = precomputed.outputCount ∧
    K.computeTxid tx = precomputed.txid

instance
    (precomputed : TxPrecomputed) (tx : Transaction) :
    Decidable (BuiltFor K precomputed tx) := by
  unfold BuiltFor
  infer_instance

theorem new_safe (hInput : tx.input ≠ []) (hPrevouts : prevouts.length = tx.input.length) :
    (new K tx prevouts).Safe (fun precomputed => precomputed.BuiltFor K tx) := by
  have hEach {α : Type} (items : List α) (f : α → Bytes) (hF : ∀ a, f a ≠ []) :
      sha256Each K (items.map f) = .ok (K.sha256 (items.map f).flatten) := by
    apply sha256Each_of_ne_nil
    intro value hValue
    rcases mem_map.mp hValue with ⟨a, _, rfl⟩
    exact hF a
  simp only [new, safe_bind, safe_assert]
  refine ⟨hInput, hPrevouts, ?_⟩
  rw [hEach _ _ (fun _ => K.encodeOutPoint_ne_nil _),
    hEach _ _ (fun _ => K.encodeSequence_ne_nil _), hEach _ _ (fun _ => K.encodeTxOut_ne_nil _),
    hEach _ _ (fun _ => K.encodeAmount_ne_nil _), hEach _ _ (fun _ => K.encodeScript_ne_nil _)]
  exact ⟨rfl, rfl, rfl⟩

end TxPrecomputed

--------
-- Legacy
--------

/- The mode bits of a legacy or v0 hash type. -/
structure EcdsaHashMode where
  anyoneCanPay : Bool
  single : Bool
  none : Bool

def EcdsaHashMode.fromHashType (hashType : UInt32) : Result ScriptError EcdsaHashMode := do
  let outputMode := hashType &&& legacyOutputMask
  let mode : EcdsaHashMode := {
    anyoneCanPay := hashType &&& sighashAnyonecanpay.toUInt32 != 0
    single := outputMode == sighashSingle.toUInt32
    none := outputMode == sighashNone.toUInt32 }
  assert (¬ (mode.single ∧ mode.none))
  return mode

theorem EcdsaHashMode.fromHashType_returns (hashType : UInt32) :
    ∃ mode, fromHashType hashType = .ok mode := by
  rw [fromHashType]
  dsimp only
  rw [assert_of, ok_bind]
  · exact ⟨_, rfl⟩
  · simp only [beq_iff_eq]
    rintro ⟨hSingle, hNone⟩
    rw [hSingle] at hNone
    exact absurd hNone (by decide)

/- How many separators the script holds up to a failed read. -/
def countSeparators (bytes : Script) (fuel position count : Nat) : Result ScriptError Nat :=
  match fuel with
  | 0 => .ok count
  | fuel + 1 =>
    if position < bytes.length then do
      match ← readOp bytes position with
      | .op opcode next => do
          assert (position < next)
          countSeparators bytes fuel next
            (if opcode = opCodeseparator then
              count + 1
            else
              count)
      | .truncated _ => return count
    else
      .ok count

/-
  The bytes between separators, up to where the last read stopped: what was written, where the open
  segment starts and where the walk ended.
-/
def writeSegments (bytes : Script) (fuel segmentStart position : Nat) (written : Bytes) :
    Result ScriptError (Bytes × Nat × Nat) :=
  match fuel with
  | 0 => .ok (written, segmentStart, position)
  | fuel + 1 =>
    if position < bytes.length then do
      match ← readOp bytes position with
      | .op opcode next => do
          assert (position < next)
          if opcode = opCodeseparator then do
            let segment ← expect (getRange? bytes segmentStart (next - 1))
            writeSegments bytes fuel next next (written ++ segment)
          else
            writeSegments bytes fuel segmentStart next written
      | .truncated next =>
        return (written, segmentStart, next)
    else
      .ok (written, segmentStart, position)

/- The `scriptCode` of the legacy digest, without separators. -/
def legacyEncodeScriptCode (scriptCode : Script) : Result ScriptError Bytes := do
  let separatorCount ← countSeparators scriptCode scriptCode.length 0 0
  assert (separatorCount ≤ scriptCode.length)
  let len ← encode (K.encodeVarInt (scriptCode.length - separatorCount))
  let (written, segmentStart, position) ← writeSegments scriptCode scriptCode.length 0 0 []
  if segmentStart ≠ scriptCode.length then do
    assert (segmentStart ≤ position)
    let segment ← expect (getRange? scriptCode segmentStart position)
    return len ++ written ++ segment
  else
    return len ++ written

/- One input of the legacy preimage. -/
def legacyEncodeInput
    (tx : Transaction) (signedIndex inputIndex : Nat) (scriptCode : Script) (mode : EcdsaHashMode) :
    Result ScriptError Bytes := do
  let input ← expect tx.input[inputIndex]?
  let previousOutput ← encode (K.encodeOutPoint input.previousOutput)
  let script ←
    (if inputIndex = signedIndex then
      legacyEncodeScriptCode K scriptCode
    else
      encode (K.encodeVarInt 0))
  let sequence ←
    (if inputIndex ≠ signedIndex ∧ (mode.single ∨ mode.none)
    then
      encode (K.encodeU32 0)
    else
      encode (K.encodeSequence input.sequence))
  return previousOutput ++ script ++ sequence

/- The inputs the legacy digest covers, with their count. -/
def legacyEncodeInputs
    (tx : Transaction) (index : Nat) (scriptCode : Script) (mode : EcdsaHashMode) :
    Result ScriptError Bytes :=
  if mode.anyoneCanPay then do
    let count ← encode (K.encodeVarInt 1)
    let input ← legacyEncodeInput K tx index index scriptCode mode
    return count ++ input
  else do
    let count ← encode (K.encodeVarInt tx.input.length)
    let inputs ←
      (List.range tx.input.length).mapM fun inputIndex =>
        legacyEncodeInput K tx index inputIndex scriptCode mode
    return count ++ inputs.flatten

/- How many outputs the legacy digest covers. -/
def legacyOutputCount (tx : Transaction) (index : Nat) (mode : EcdsaHashMode) : Nat :=
  if mode.none then 0
  else if mode.single then index + 1
  else tx.output.length

/- The covered outputs, nulled where `SINGLE` says so. -/
def legacyOutputs (tx : Transaction) (index outputCount : Nat) (mode : EcdsaHashMode) :
    List TxOut :=
  (tx.output.take outputCount).mapIdx fun outputIndex output =>
    if mode.single ∧ outputIndex ≠ index then
      TxOut.null
    else
      output

/- The pre-segwit digest. -/
def legacySighash (tx : Transaction) (index : Nat) (scriptCode : Script) (hashType : UInt32) :
    Result ScriptError Hash32 := do
  assert (index < tx.input.length)
  let mode ← EcdsaHashMode.fromHashType hashType
  if mode.single ∧ tx.output.length ≤ index then
    return uint256One
  else do
    let version ← encode (K.encodeVersion tx.version)
    let inputs ← legacyEncodeInputs K tx index scriptCode mode
    let outputCount := legacyOutputCount tx index mode
    assert (outputCount ≤ tx.output.length)
    let count ← encode (K.encodeVarInt outputCount)
    let outputs ← encodeEach ((legacyOutputs tx index outputCount mode).map K.encodeTxOut)
    let lockTime ← encode (K.encodeLockTime tx.lockTime)
    let hashTypeBytes ← encode (K.encodeU32 hashType)
    return K.sha256d (version ++ inputs ++ count ++ outputs ++ lockTime ++ hashTypeBytes)

--------
-- Segwit v0
--------

/- What the v0 digest commits to of the outputs. -/
def segwitHashOutputs
    (tx : Transaction) (index : Nat) (mode : EcdsaHashMode) (precomputed : TxPrecomputed) :
    Result ScriptError Hash32 :=
  if mode.single then
    match tx.output[index]? with
    | some output => sha256dEach K [K.encodeTxOut output]
    | none => .ok (FixedBytes.zero 32)
  else if mode.none then
    .ok (FixedBytes.zero 32)
  else
    .ok precomputed.hashOutputs

/- The BIP143 digest. -/
def segwitV0Sighash
    (tx : Transaction) (index : Nat) (scriptCode : Script) (amount : UInt64) (hashType : UInt32)
    (precomputed : TxPrecomputed) :
    Result ScriptError Hash32 := do
  assert (index < tx.input.length)
  assert (precomputed.BuiltFor K tx)
  let mode ← EcdsaHashMode.fromHashType hashType
  let hashPrevouts :=
    if mode.anyoneCanPay then
      FixedBytes.zero 32
    else
      precomputed.hashPrevouts
  let hashSequence :=
    if mode.anyoneCanPay ∨ mode.single ∨ mode.none then
      FixedBytes.zero 32
    else
      precomputed.hashSequence
  let hashOutputs ← segwitHashOutputs K tx index mode precomputed
  let input ← expect tx.input[index]?
  let version ← encode (K.encodeVersion tx.version)
  let previousOutput ← encode (K.encodeOutPoint input.previousOutput)
  let script ← encode (K.encodeScript scriptCode)
  let value ← encode (K.encodeAmount amount)
  let sequence ← encode (K.encodeSequence input.sequence)
  let lockTime ← encode (K.encodeLockTime tx.lockTime)
  let hashTypeBytes ← encode (K.encodeU32 hashType)
  return K.sha256d
    (version ++ hashPrevouts.val ++ hashSequence.val ++
      previousOutput ++ script ++ value ++ sequence ++
      hashOutputs.val ++ lockTime ++ hashTypeBytes)

theorem segwitHashOutputs_returns
    (tx : Transaction) (index : Nat) (mode : EcdsaHashMode) (precomputed : TxPrecomputed) :
    ∃ hash, segwitHashOutputs K tx index mode precomputed = .ok hash := by
  unfold segwitHashOutputs
  split
  · split
    · simp [sha256dEach, sha256Each_of_ne_nil, K.encodeTxOut_ne_nil]
    · exact ⟨_, rfl⟩
  · split <;> exact ⟨_, rfl⟩

/- The v0 digest of an input the transaction has. -/
theorem segwitV0Sighash_returns (hIndex : index < tx.input.length)
    (hBuilt : precomputed.BuiltFor K tx) (scriptCode : Script) (amount : UInt64)
    (hashType : UInt32) :
    ∃ digest, segwitV0Sighash K tx index scriptCode amount hashType precomputed = .ok digest := by
  rcases EcdsaHashMode.fromHashType_returns hashType with ⟨mode, hMode⟩
  rcases segwitHashOutputs_returns K tx index mode precomputed with ⟨hashOutputs, hOutputs⟩
  rw [segwitV0Sighash, assert_of hIndex, ok_bind, assert_of hBuilt, ok_bind, hMode, ok_bind]
  dsimp only
  rw [hOutputs, ok_bind]
  simp [getElem?_eq_getElem hIndex, encode_of_ne_nil, K.encodeVersion_ne_nil,
    K.encodeOutPoint_ne_nil, K.encodeScript_ne_nil, K.encodeAmount_ne_nil, K.encodeSequence_ne_nil,
    K.encodeLockTime_ne_nil, K.encodeU32_ne_nil]

--------
-- Taproot
--------

/- Which taproot spend a Schnorr signature belongs to. -/
inductive TaprootSpend where
  | keyPath
  | tapscript (leafHash : Hash32) (codesepPos : UInt32)
  deriving DecidableEq

variable {spend : TaprootSpend}

/- BIP341's `ext_flag` and the annex bit. -/
def spendType (spend : TaprootSpend) (annex : Option Bytes) : UInt8 :=
  let extFlag : UInt8 :=
    match spend with
    | .keyPath => 0
    | .tapscript .. => 1
  (extFlag <<< 1) ||| (if annex.isSome then 1 else 0)

/- The part of the BIP341 message about the signed input. -/
def taprootEncodeInput
    (tx : Transaction) (index : Nat) (prevouts : List TxOut) (anyoneCanPay : Bool)
    (spend : TaprootSpend) (annex : Option Bytes) :
    Result ScriptError Bytes := do
  assert (spendType spend annex ≤ 3)
  let data ←
    (if anyoneCanPay then do
      let input ← expect tx.input[index]?
      let prevout ← expect prevouts[index]?
      let previousOutput ← encode (K.encodeOutPoint input.previousOutput)
      let output ← encode (K.encodeTxOut prevout)
      let sequence ← encode (K.encodeSequence input.sequence)
      return previousOutput ++ output ++ sequence
    else do
      -- The input index is converted to a `u32`.
      assert (index < 2 ^ 32)
      encode (K.encodeU32 (UInt32.ofNat index)))
  let annexHash ←
    (match annex with
    | none => pure []
    | some annex => do
        let len ← encode (K.encodeVarInt annex.length)
        pure (K.sha256 (len ++ annex)).val)
  return [spendType spend annex] ++ data ++ annexHash

/- The BIP342 extension of the message. -/
def taprootEncodeLeaf (spend : TaprootSpend) : Result ScriptError Bytes :=
  match spend with
  | .keyPath => .ok []
  | .tapscript leafHash codesepPos => do
      let position ← encode (K.encodeU32 codesepPos)
      return leafHash.val ++ [keyVersion0] ++ position

/- The output mode of a taproot hash type. -/
def taprootOutputType (hashType : UInt8) : UInt8 :=
  if hashType = sighashDefault then
    sighashAll
  else
    hashType &&& taprootOutputMask

/- The seven hash types BIP341 defines. -/
def IsDefinedHashType (hashType : UInt8) : Prop :=
  hashType ≤ sighashSingle ∨ (0x81 ≤ hashType ∧ hashType ≤ 0x83)

instance (hashType : UInt8) :
    Decidable (IsDefinedHashType hashType) := by
  unfold IsDefinedHashType
  infer_instance

/- The BIP341 digest. -/
def taprootSighash (tx : Transaction) (index : Nat) (prevouts : List TxOut) (hashType : UInt8)
    (spend : TaprootSpend) (annex : Option Bytes) (precomputed : TxPrecomputed) :
    Result ScriptError Hash32 := do
  assert (index < tx.input.length)
  assert (prevouts.length = tx.input.length)
  assert (precomputed.BuiltFor K tx)
  assert (∀ bytes ∈ annex, bytes.head? = some annexTag)
  ensure .schnorrSigHashtype (IsDefinedHashType hashType)
  let outputType := taprootOutputType hashType
  let anyoneCanPay := hashType &&& sighashAnyonecanpay != 0
  ensure .schnorrSigHashtype (¬ (outputType = sighashSingle ∧ tx.output.length ≤ index))
  let version ← encode (K.encodeVersion tx.version)
  let lockTime ← encode (K.encodeLockTime tx.lockTime)
  let common :=
    if anyoneCanPay then
      []
    else
      precomputed.shaPrevouts.val ++
        precomputed.shaAmounts.val ++
        precomputed.shaScriptpubkeys.val ++
        precomputed.shaSequences.val
  let outputs :=
    if outputType = sighashAll then
      precomputed.shaOutputs.val
    else
      []
  let input ← taprootEncodeInput K tx index prevouts anyoneCanPay spend annex
  let single ←
    (if outputType = sighashSingle then do
      let output ← expect tx.output[index]?
      let digest ← sha256Each K [K.encodeTxOut output]
      return digest.val
    else
      pure [])
  let leaf ← taprootEncodeLeaf K spend
  return K.tapSighash
    ([taprootEpoch, hashType] ++ version ++ lockTime ++
      common ++ outputs ++ input ++ single ++ leaf)

theorem spendType_le (spend : TaprootSpend) (annex : Option Bytes) : spendType spend annex ≤ 3 := by
  cases spend <;> cases annex <;> simp only [spendType, Option.isSome] <;> decide

theorem taprootEncodeInput_safe {anyoneCanPay : Bool} (hIndex : index < tx.input.length)
    (hPrevouts : prevouts.length = tx.input.length) (hInputs : tx.input.length ≤ 2 ^ 32) :
    (taprootEncodeInput K tx index prevouts anyoneCanPay spend annex).Safe (fun _ => True) := by
  have hPrevout : index < prevouts.length := by omega
  unfold taprootEncodeInput
  rw [assert_of (spendType_le spend annex), ok_bind]
  refine Safe.bind (Q := fun _ => True) ?_ ?_
  · split
    · simp [getElem?_eq_getElem hIndex, getElem?_eq_getElem hPrevout,
        encode_of_ne_nil, K.encodeOutPoint_ne_nil, K.encodeTxOut_ne_nil, K.encodeSequence_ne_nil]
    · have hFits : index < 2 ^ 32 := by omega
      simp only [safe_bind, safe_assert, hFits,
        encode_of_ne_nil (K.encodeU32_ne_nil _), safe_ok, and_self]
  · intro data _
    cases annex with
    | none => trivial
    | some annex => simp [encode_of_ne_nil (K.encodeVarInt_ne_nil _)]

theorem taprootSighash_safe {hashType : UInt8} (hIndex : index < tx.input.length)
    (hPrevouts : prevouts.length = tx.input.length) (hBuilt : precomputed.BuiltFor K tx)
    (hInputs : tx.input.length ≤ 2 ^ 32) (hAnnex : ∀ bytes ∈ annex, bytes.head? = some annexTag) :
    (taprootSighash K tx index prevouts hashType spend annex precomputed).Safe (fun _ => True) := by
  simp only [taprootSighash, safe_bind, safe_assert, safe_ensure]
  refine ⟨hIndex, hPrevouts, hBuilt, hAnnex, ?_⟩
  intro _ hSingle
  simp only [encode_of_ne_nil (K.encodeVersion_ne_nil _),
    encode_of_ne_nil (K.encodeLockTime_ne_nil _), safe_ok]
  refine (taprootEncodeInput_safe K hIndex hPrevouts hInputs).mono ?_
  intro input _
  have hLeaf : (taprootEncodeLeaf K spend).Safe (fun _ => True) := by
    cases spend with
    | keyPath => trivial
    | tapscript leafHash codesepPos =>
      simp [taprootEncodeLeaf, encode_of_ne_nil (K.encodeU32_ne_nil _)]
  split
  case isTrue hType =>
    have hOutput : index < tx.output.length := by
      by_contra hShort
      exact hSingle ⟨hType, by omega⟩
    simp only [getElem?_eq_getElem hOutput, safe_bind, safe_expect]
    refine ⟨_, rfl, ?_⟩
    rw [sha256Each_of_ne_nil K (by
      simpa using K.encodeTxOut_ne_nil _)]
    exact hLeaf.mono fun _ _ => trivial
  case isFalse =>
    exact hLeaf.mono fun _ _ => trivial

end Bitmigo
