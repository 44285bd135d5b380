import Bitmigo.Tx.Check

/-
  When verifying an input of a transaction panics.

  Key definitions include:
    * `FitsBlock`, a transaction within the block weight
    * `LeafWithinBound`, the leaf an input executes nests no deeper than the interpreter asserts
    * `nestedIfs`, a leaf of conditionals only

  Key theorems include:
    * `verifyInput_not_panics_iff`
    * `not_leafNests_nestedIfs`, enough `OP_IF`s in a leaf are too many
-/

namespace Bitmigo

open Machine Result Traced List Crypto Encoding

variable {K : Primitives} {count : Nat}

/- The weight of a transaction is within that of a block. -/
def FitsBlock (K : Primitives) (tx : Transaction) : Prop :=
  3 * (K.serializeTxBase tx).length + (K.serializeTx tx).length ≤ maxBlockWeight

theorem FitsBlock.inputs {tx : Transaction} (hFits : FitsBlock K tx) :
    tx.input.length ≤ 2 ^ 32 := by
  have hInputs := K.length_input_le tx
  unfold FitsBlock maxBlockWeight at hFits
  omega

theorem FitsBlock.witness {tx : Transaction} {input : TxIn} (hFits : FitsBlock K tx)
    (hInput : input ∈ tx.input) : WitnessFits K input.witness := by
  have hWitness := K.length_witness_le tx input hInput
  unfold FitsBlock maxBlockWeight at hFits
  unfold WitnessFits Primitives.varIntSize
  omega

/-
  If verifying the input executes a tapscript leaf, then the run of that leaf without the depth
  assertion never has more than `nestingMax` open conditionals.
-/
def LeafWithinBound (K : Primitives) (tx : Transaction) (index : Nat) (prevouts : List TxOut)
    (precomputed : TxPrecomputed) (flags : ScriptFlags) : Prop :=
  ∀ checker input prevout script stack exec,
    TxSigChecker.new K tx index prevouts precomputed = .ok checker →
    tx.input[index]? = some input →
    prevouts[index]? = some prevout →
    ExecutesLeaf K input.scriptSig prevout.scriptPubkey
        input.witness flags script stack exec →
      LeafNests script stack exec flags checker

/- Verifying an input is verifying its scripts. -/
theorem verifyInput_out_eq
    {tx : Transaction} {index : Nat} {prevouts : List TxOut} {precomputed : TxPrecomputed}
    (flags : ScriptFlags) (hIndex : index < tx.input.length)
    (hPrevouts : prevouts.length = tx.input.length)
    (hPrecomputed : TxPrecomputed.new K tx prevouts = .ok precomputed) :
    ∃ checker input prevout, TxSigChecker.new K tx index prevouts precomputed = .ok checker ∧
      tx.input[index]? = some input ∧ prevouts[index]? = some prevout ∧ checker.tx = tx ∧
      (verifyInput K tx index prevouts precomputed flags).out =
      (verifyScript input.scriptSig prevout.scriptPubkey input.witness flags checker).out := by
  have hPrevout : index < prevouts.length := by omega
  have hInput := getElem?_eq_getElem hIndex
  have hSpent := getElem?_eq_getElem hPrevout
  have hBuilt := (TxPrecomputed.new_safe K (ne_nil_of_length_pos (by omega))
    hPrevouts).of_eq_ok hPrecomputed
  rcases hChecker : TxSigChecker.new K tx index prevouts precomputed with halt | checker
  · simp [TxSigChecker.new, hIndex, hPrevouts, hBuilt] at hChecker
  have hTx : checker.tx = tx := (TxSigChecker.new_safe hIndex hPrevouts hBuilt).of_eq_ok hChecker
  refine ⟨checker, _, _, rfl, hInput, hSpent, hTx, ?_⟩
  simp only [verifyInput, out_bind, out_lift, hIndex, hPrevouts, hInput, hSpent, hChecker,
    assert_true, expect_some, ok_bind]

/- Verifying an input panics exactly for such a leaf. -/
theorem verifyInput_not_panics_iff
    {tx : Transaction} {index : Nat} {prevouts : List TxOut} {precomputed : TxPrecomputed}
    {flags : ScriptFlags} (hIndex : index < tx.input.length)
    (hPrevouts : prevouts.length = tx.input.length)
    (hPrecomputed : TxPrecomputed.new K tx prevouts = .ok precomputed) (hFlags : flags.Consistent)
    (hFits : FitsBlock K tx) :
    ¬ (verifyInput K tx index prevouts precomputed flags).out.Panics ↔
      LeafWithinBound K tx index prevouts precomputed flags := by
  rcases verifyInput_out_eq flags hIndex hPrevouts hPrecomputed with
    ⟨checker, input, prevout, hChecker, hInput, hPrevout, hTx, hOut⟩
  have hInputs : checker.tx.input.length ≤ 2 ^ 32 := hTx ▸ hFits.inputs
  have hWitness := hFits.witness (mem_of_getElem? hInput)
  rw [hOut, verifyScript_panics_iff hFlags hInputs hWitness]
  constructor
  · intro hNone other otherInput otherPrevout script stack
      exec hOther hSameInput hSamePrevout hExecutes
    rw [hChecker, Except.ok.injEq] at hOther
    rw [hInput, Option.some.injEq] at hSameInput
    rw [hPrevout, Option.some.injEq] at hSamePrevout
    subst hOther hSameInput hSamePrevout
    by_contra hDeep
    exact hNone ⟨script, stack, exec, hExecutes, hDeep⟩
  · rintro hBound ⟨script, stack, exec, hExecutes, hDeep⟩
    exact hDeep (hBound checker input prevout script stack exec hChecker hInput hPrevout hExecutes)

/- A leaf with no stack items of its own. -/
theorem taprootLeaf_of_commitment
    {witness : Witness} {script : Script} {controlItem : Bytes} {control : ControlBlock}
    {annex : Option Bytes} {outputKey leafHash : Hash32} {weight : Int}
    (hParse : ControlBlock.parse controlItem = .ok control)
    (hVer : control.leafVersion = taprootLeafTapscript)
    (hHash : tapleafHash K taprootLeafTapscript script = .ok leafHash)
    (hCommitted : verifyTaprootCommitment K control outputKey leafHash = .ok true)
    (hWeight : validationWeight K witness = .ok weight) :
    taprootLeaf (K := K) witness [script, controlItem] annex outputKey =
      .ok (some ([], script, ⟨leafHash, annex, weight⟩)) := by
  simp [taprootLeaf, hParse, hVer, hHash, hCommitted, hWeight]

--------
-- A Leaf of Conditionals
--------

/- A false, and then nothing but `OP_IF`. -/
def nestedIfs (count : Nat) : Script :=
  op0 :: replicate count opIf

theorem length_nestedIfs (count : Nat) : (nestedIfs count).length = count + 1 := by
  simp [nestedIfs]

/- In an unexecuted branch, `OP_IF` only opens a level. -/
theorem evalStep_unexecuted_if {env : Env K} {m : Machine} (reader : Reader) (stop : Nat)
    (hVer : env.sigVersion = .tapscript) (hFalse : m.conditions.allTrue = false)
    (hRoom : m.stack.len + m.altstack.len ≤ maxStackSize) (hRead : 0 < reader.opsRead) :
    (evalStep none env m ⟨⟨opIf⟩, [], stop⟩ reader).out = .ok { m with
          conditions := m.conditions.opened false } := by
  have hCounted : countOp env m ⟨⟨opIf⟩, [], stop⟩ = .ok m := by simp [countOp, countsOps, hVer]
  have hExec (index : Nat) :
      (m.execute none env ⟨⟨opIf⟩, [], stop⟩ false index).out = m.branch none env opIf false := rfl
  have hConditional : (Opcode.mk opIf).isConditional = true := by decide
  have hEnabled : (Opcode.mk opIf).isDisabled = false := by decide
  have hDispatch : (dispatch none env m ⟨⟨opIf⟩, [], stop⟩ reader).out = .ok { m with
            conditions := m.conditions.opened false } := by
    simp [dispatch, hFalse, hConditional,
      Reader.opcodeIndex, hRead, hExec, branch, ConditionStack.push]
  simp [evalStep, hCounted, hEnabled, hDispatch, hRoom]

theorem allTrue_opened_false (conditions : ConditionStack) :
    (conditions.opened false).allTrue = false := by
  cases hFst : conditions.firstFalse <;> simp [ConditionStack.opened, ConditionStack.allTrue, hFst]

theorem steps_nestedIfs (hLen : count + 1 < 2 ^ 32) :
    Reader.steps (nestedIfs count) =
      opSteps (nestedIfs count) 0 0 ([op0] :: replicate count [opIf]) := by
  have hFlat : ([op0] :: replicate count [opIf]).flatten = nestedIfs count := by
    simp [nestedIfs]
  have hOps : ∀ op ∈ [op0] :: replicate count [opIf], opLexer.IsChunk op := by
    refine forall_mem_cons.mpr ⟨rfl, fun op hOp => ?_⟩
    rw [eq_of_mem_replicate hOp]
    rfl
  rw [← hFlat, Reader.steps_flatten hOps (by simpa)]

/- A run of `OP_IF`s in an unexecuted branch opens as many. -/
theorem evalLoop_unexecuted_ifs
    (env : Env K) (m : Machine) (script : Script) (position index count : Nat)
    (hVer : env.sigVersion = .tapscript) (hFalse : m.conditions.allTrue = false)
    (hRoom : m.stack.len + m.altstack.len ≤ maxStackSize) :
    ∃ next, (evalLoop none env (opSteps script position index (replicate count [opIf])) m).out =
        .ok next ∧ next.conditions.depth = m.conditions.depth + count := by
  induction count generalizing m position index with
  | zero => exact ⟨m, by simp [evalLoop, opSteps], rfl⟩
  | succ count ih =>
    have hStep := evalStep_unexecuted_if ⟨script, position + 1, index + 1⟩ (position + 1)
      hVer hFalse hRoom (Nat.succ_pos _)
    rcases ih { m with
          conditions := m.conditions.opened false }
        (position + 1) (index + 1) (allTrue_opened_false _) hRoom with
      ⟨next, hRun, hDepth⟩
    refine ⟨next, ?_, ?_⟩
    · simp only [replicate_succ, opSteps, length_singleton, headD_cons,
        pushed_singleton, evalLoop, out_bind, out_lift, ok_bind, hStep]
      exact hRun
    · rw [hDepth]
      simp only [ConditionStack.opened]
      omega

/-
  The first `OP_IF` takes the false branch; the rest of the leaf is one run of unexecuted `OP_IF`s.
-/
theorem not_leafNests_nestedIfs {exec : TapscriptExec} {flags : ScriptFlags}
    {checker : TxSigChecker K} (hMany : nestingMax < count) (hLen : count + 1 < 2 ^ 32) :
    ¬ LeafNests (nestedIfs count) ⟨[]⟩ exec flags checker := by
  rcases count with _ | count
  · simp at hMany
  intro hNests
  have hSteps := steps_nestedIfs hLen
  generalize nestedIfs (count + 1) = script at hNests hSteps
  let env : Env K := ⟨script, flags, .tapscript, checker⟩
  -- The machine after `OP_0`, and after `OP_0 OP_IF`.
  let start := Machine.start ⟨[]⟩ (.ofTapscript exec)
  let zeroed : Machine := { start with stack := ⟨[⟨[], by decide⟩]⟩ }
  let opened : Machine :=
    { start with
      conditions := ConditionStack.new.opened false }
  have hPush : (evalStep none env start ⟨⟨op0⟩, [], 1⟩ ⟨script, 1, 1⟩).out = .ok zeroed := rfl
  have hOpen : (evalStep none env zeroed ⟨⟨opIf⟩, [], 2⟩ ⟨script, 2, 2⟩).out = .ok opened := rfl
  rcases evalLoop_unexecuted_ifs env opened script 2 2 count rfl rfl (Nat.zero_le _) with
    ⟨next, hRun, hDepth⟩
  have hDeep := hNests (Reader.steps script).length next (by
    rw [take_length, hSteps]
    simp only [replicate_succ, opSteps, length_singleton, headD_cons,
      pushed_singleton, evalLoop, out_bind, out_lift, ok_bind]
    rw [hPush, ok_bind, hOpen, ok_bind]
    exact hRun)
  rw [hDepth] at hDeep
  have hOne : opened.conditions.depth = 1 := rfl
  omega

/- There is no `OP_SUCCESS` in a run of `OP_IF`s. -/
theorem hasOpSuccess_nestedIfs (hLen : count + 1 < 2 ^ 32) :
    hasOpSuccess (nestedIfs count) = .ok false := by
  have hIfs (script : Script) (position index left : Nat) :
      hasOpSuccessSteps (opSteps script position index (replicate left [opIf])) = .ok false := by
    induction left generalizing position index with
    | zero => rfl
    | succ left ih => exact ih _ _
  rw [hasOpSuccess, steps_nestedIfs hLen]
  exact hIfs _ _ _ _

--------
-- An Input That Panics
--------

namespace DeepLeaf

/- `OP_0`, then one `OP_IF` more than the bound allows. -/
def leaf : Script := nestedIfs 10002

/- A point whose discrete logarithm nobody knows. -/
def internalKey : Hash32 := hash32
  0x50929b74c1a04954b78b4b6035e97a5e078a5a0f28ec96d547bfee9ace803ac0

/- What the leaf hash is taken of. -/
def leafPreimage : Bytes :=
  [0xc0] ++ Encoding.compactSize leaf.length ++ leaf

def leafHash : Hash32 := hash32
  0x54d9c28c427e39ce268c5af1aad8387a4343ee1aaf784abb9339c195c1c3b07e

def tweak : Hash32 := hash32
  0xa775e6f8608f089f95185f5b56a9cc5d4e0d679a09e3e511028fa9f51740e914

def outputKey : Hash32 := hash32
  0x40ec0dd9f28a47ace240be2890aa953e9b3f9f18b125d5684efb57c009d0c677

def controlBlock : Bytes := 0xc0 :: internalKey.val

theorem length_txid :
    (replicate 32 (0x11 : UInt8)).length = 32 := rfl

def input : TxIn where
  previousOutput := ⟨⟨replicate 32 0x11, length_txid⟩, 0⟩
  scriptSig := []
  sequence := 0xffffffff
  witness := [leaf, controlBlock]

def tx : Transaction where
  version := 2
  lockTime := 0
  input := [input]
  output := [⟨0, [opReturn]⟩]

def prevout : TxOut where
  value := 1000
  scriptPubkey := taprootScript outputKey

/- The digests of the transaction and of what it spends. -/
def digests : TxPrecomputed where
  txid := hash32 0x65694f08d355ea5c9b0d6faadc754ab4a3a5fd897bc802a5cb9081d79269f0f8
  inputCount := 1
  outputCount := 1
  hashPrevouts := hash32 0x55e107cafb9fb7b336f385783df483239dabc2fceb8d5843986bc75c6877b271
  hashSequence := hash32 0x3bb13029ce7b1f559ef5e747fcac439f1455a2ec7c5f09b72290795e70665044
  hashOutputs := hash32 0x0e8538c66c434675836e2198aceb9a0bb62f3778a505eba907d843d312712b6d
  shaPrevouts := hash32 0x075fce99a18c5a946572efe571afdbc79505361d2e43f8ed10b9b4c47f64538e
  shaAmounts := hash32 0x921ac7f259f864606624eb7fc29124712ff65b425e9500a35dd32b71ddb9332c
  shaScriptpubkeys := hash32
    0x9433064e47d9a321948d017b9b3d8eca15265245053804bad275968832391cb4
  shaSequences := hash32 0xad95131bc0b799c0b1af477fb14fcf26a6a9f76079e48bf090acb7e8367bfd0e
  shaOutputs := hash32 0xcd496407aff71ffb5742f4f51efeac926c9f84eb51c391b5f2049bd74d9b4a02

/- The first of the two hashes of the transaction id. -/
def txHash : Hash32 := hash32
  0xc778aa2eea2d1bae5438843c1d5b1ab71dca718ae97751ae59ff3b558beb9a22

/- The values of the hash functions and of the commitment check on this input. -/
def crypto : Crypto :=
  { ofSha256 [
      (txBase tx, txHash),
      (txHash.val, digests.txid),
      (Encoding.outPoint input.previousOutput, digests.shaPrevouts),
      (digests.shaPrevouts.val, digests.hashPrevouts),
      (Encoding.u32 input.sequence, digests.shaSequences),
      (digests.shaSequences.val, digests.hashSequence),
      (Encoding.txOut ⟨0, [opReturn]⟩, digests.shaOutputs),
      (digests.shaOutputs.val, digests.hashOutputs),
      (Encoding.amount prevout.value, digests.shaAmounts),
      (Encoding.script prevout.scriptPubkey, digests.shaScriptpubkeys)] with
    tapLeafHash := ofValue leafPreimage leafHash
    tapTweakHash := ofTable [(internalKey.val ++ leafHash.val, tweak)]
    isXOnlyKey := fun key =>
      key = internalKey ∨ key = outputKey
    isScalar := fun scalar => scalar = tweak
    tweakAddCheck := fun key other odd scalar =>
      key = internalKey ∧ other = outputKey ∧ odd = false ∧ scalar = tweak }

theorem precomputed_eq : TxPrecomputed.new crypto.primitives tx [prevout] = .ok digests :=
  rfl

theorem length_leaf : leaf.length = 10003 :=
  length_nestedIfs 10002

theorem length_witness : (Encoding.witness input.witness).length = 10041 := by
  have hControl : controlBlock.length = 33 := rfl
  rw [Encoding.length_witness]
  simp only [input, map_cons, map_nil, sum_cons, sum_nil, length_leaf, hControl]
  rfl

theorem fitsBlock : FitsBlock crypto.primitives tx := by
  have hBase : (txBase tx).length = 61 := rfl
  have hTx := length_tx_le tx
  have hInputs : tx.input = [input] := rfl
  simp only [hInputs, map_cons, map_nil, sum_cons, sum_nil, length_witness, hBase] at hTx
  unfold FitsBlock maxBlockWeight
  rw [primitives_serializeTx, primitives_serializeTxBase, hBase]
  omega

def control : ControlBlock where
  leafVersion := 0xc0
  outputParityOdd := false
  internalKey := internalKey
  path := []
  leafVersion_even := by decide
  path_whole := by decide
  path_le := by decide

theorem parse_controlBlock :
    ControlBlock.parse controlBlock = .ok control := rfl

theorem tapleafHash_leaf : tapleafHash crypto.primitives 0xc0 leaf = .ok leafHash := by
  have hEven : (0xc0 : UInt8) &&& 1 = 0 := by decide
  have hTable : crypto.tapLeafHash = ofValue leafPreimage leafHash := rfl
  have hHash := ofValue_self leafPreimage leafHash
  rw [← hTable] at hHash
  unfold leafPreimage at hHash
  simp only [tapleafHash, hEven, assert_true,
    ok_bind, primitives_encodeVarInt, primitives_tapLeafHash,
    encode_of_ne_nil (compactSize_ne_nil _), hHash, pure_eq_ok]

theorem commitment_holds :
    verifyTaprootCommitment crypto.primitives control outputKey leafHash = .ok true := rfl

theorem validationWeight_witness :
    validationWeight crypto.primitives input.witness = .ok 10091 := by
  have hSize := length_witness
  rw [Encoding.length_witness] at hSize
  simp only [validationWeight, witnessSerializedSize,
    Primitives.varIntSize, primitives_encodeVarInt, hSize]
  rfl

/- The leaf is committed to, and starts with an empty stack. -/
theorem executesLeaf :
    ExecutesLeaf crypto.primitives input.scriptSig
      prevout.scriptPubkey input.witness .mandatory leaf ⟨[]⟩ ⟨leafHash, none, 10091⟩ := by
  have hSplit : splitAnnex input.witness = ([leaf, controlBlock], none) := rfl
  refine ⟨by decide, rfl, outputKey, rfl, by decide, ?_⟩
  unfold LeafRuns
  rw [hSplit]
  exact ⟨Nat.le_refl 2, [], taprootLeaf_of_commitment parse_controlBlock rfl
      tapleafHash_leaf commitment_holds
      validationWeight_witness,
    hasOpSuccess_nestedIfs (by decide), by decide, by simp,
    rfl⟩

/- One more `OP_IF` than the bound, and verifying panics. -/
theorem verifyInput_panics :
    TxPrecomputed.new crypto.primitives tx [prevout] = .ok digests ∧
      ScriptFlags.mandatory.Consistent ∧
      FitsBlock crypto.primitives tx ∧
      (verifyInput crypto.primitives tx 0 [prevout] digests .mandatory).out.Panics := by
  refine ⟨precomputed_eq, by decide, fitsBlock, ?_⟩
  rcases verifyInput_out_eq .mandatory (show 0 < tx.input.length by decide) rfl precomputed_eq with
    ⟨checker, other, spent, _, hInput, hPrevout, hTx, hOut⟩
  have hInput : input = other := Option.some.inj hInput
  have hPrevout : prevout = spent := Option.some.inj hPrevout
  subst hInput hPrevout
  have hInputs : checker.tx.input.length ≤ 2 ^ 32 := hTx ▸ fitsBlock.inputs
  rw [hOut, verifyScript_panics_iff (by decide) hInputs (fitsBlock.witness mem_cons_self)]
  exact ⟨leaf, ⟨[]⟩, _, executesLeaf, not_leafNests_nestedIfs (by decide) (by decide)⟩

theorem verifyInput_not_panics_iff_input :
    FitsBlock crypto.primitives tx ∧
      (¬ (verifyInput crypto.primitives tx 0 [prevout] digests .mandatory).out.Panics ↔
        LeafWithinBound crypto.primitives tx 0 [prevout] digests .mandatory) :=
  ⟨fitsBlock, verifyInput_not_panics_iff (by decide) rfl precomputed_eq (by decide) fitsBlock⟩

end DeepLeaf

end Bitmigo
