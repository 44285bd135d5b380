import Bitmigo.Block.Signet

/-
  A signet signature does not sign itself.

  Key definitions include:
    * `PushesSection`, an operation that carries a signature
    * `clearOp`, the walk of the clearing on one operation
    * `SignAlike`, blocks that differ only where they may

  Key theorems include:
    * `clearSteps_stepsFrom`, clearing goes operation by operation
    * `Surrounds.replacement_eq`, what is cleared does not depend on the section
    * `toSpend_eq`

  A section is replaced by its header, and everything else is written back from what it pushes, in
  both blocks alike.
-/

namespace Bitmigo

open Result List

variable {ε : Type} {op : Bytes} {cleared : Cleared} {found : Bool} {next : Cleared × Bool}

--------
-- Operations
--------

/- The operation pushes the header and something after it. -/
def PushesSection (op : Bytes) : Prop :=
  signetHeader.length < (pushed op).length ∧ signetHeader <+: pushed op

instance (op : Bytes) : Decidable (PushesSection op) :=
  inferInstanceAs (Decidable (_ ∧ _))

--------
-- Clearing One Operation
--------

/- The walk on one operation. -/
def clearOp (state : Cleared × Bool) (op : Bytes) : Result ε (Cleared × Bool) :=
  clearSteps [.ok (⟨⟨op.headD 0⟩, pushed op, 0⟩, Reader.new [])] state.1 state.2

/- Only the opcode and the data of a step count. -/
theorem clearSteps_cons
    (stop : Nat) (reader : Reader) (rest : List (Result ScriptError (Op × Reader)))
    (state : Cleared × Bool) :
    (clearSteps (.ok (⟨⟨op.headD 0⟩, pushed op, stop⟩, reader) :: rest) state.1 state.2 :
      Result ε (Cleared × Bool)) =
      clearOp state op >>= fun next => clearSteps rest next.1 next.2 := by
  rw [clearOp, clearSteps, clearSteps]
  split_ifs
  · simp [clearSteps]
  · cases (expectOk (pushEncoding signetHeader) : Result ε Bytes) <;> simp [clearSteps]
  · cases (expectOk (pushEncoding (pushed op)) : Result ε Bytes) <;> simp [clearSteps]

/- The clearing of a script goes operation by operation, if the reader does not run out of numbers
  for them. -/
theorem clearSteps_stepsFrom
    {ops : List Bytes} {front : Bytes} {fuel count : Nat} {state out : Cleared × Bool}
    (hOps : ∀ op ∈ ops, opLexer.IsChunk op) (hFuel : ops.length ≤ fuel)
    (hClear : clearSteps (Reader.stepsFrom fuel ⟨front ++ ops.flatten, front.length, count⟩)
      state.1 state.2 = (.ok out : Result ε (Cleared × Bool))) :
    ops.foldlM clearOp state = (.ok out : Result ε (Cleared × Bool)) := by
  induction ops generalizing front fuel count state with
  | nil =>
    rwa [Reader.stepsFrom_end (by simp)] at hClear
  | cons op ops ih =>
    rcases forall_mem_cons.mp hOps with ⟨hOp, hOps⟩
    rcases fuel with _ | fuel
    · simp at hFuel
    have hNext := Reader.nextOp_of_isChunk hOp front ops.flatten count
    rw [flatten_cons] at hClear
    by_cases hCount : count + 1 < 2 ^ 32
    · rw [assert_of hCount, ok_bind] at hNext
      rw [Reader.stepsFrom_of_nextOp fuel hNext, clearSteps_cons] at hClear
      rcases bind_eq_ok.mp hClear with ⟨next, hHead, hLater⟩
      rw [foldlM_cons, hHead, ok_bind]
      rw [← append_assoc] at hLater
      exact ih hOps (Nat.le_of_succ_le_succ hFuel) hLater
    · rw [assert, if_neg hCount] at hNext
      rw [Reader.stepsFrom, hNext] at hClear
      cases hClear

/- A section is replaced by its header. -/
theorem clearOp_section (hSection : PushesSection op) (cleared : Cleared) :
    ∃ solution, clearOp (cleared, false) op = (.ok (⟨cleared.replacement ++ 4 :: signetHeader,
      solution⟩, true) : Result ε (Cleared × Bool)) := by
  have hNe : pushed op ≠ [] := ne_nil_of_length_pos (by have := hSection.1; omega)
  have hIs : signetHeader.isPrefixOf (pushed op) = true := isPrefixOf_iff_prefix.mpr hSection.2
  refine ⟨cleared.solution ++ (pushed op).drop signetHeader.length, ?_⟩
  rw [clearOp, clearSteps]
  simp only [if_neg hNe, hIs, hSection.1, and_self, if_true]
  rfl

/- Any other operation leaves the section to be found. -/
theorem found_of_clearOp (hSection : ¬ PushesSection op)
    (hClear : clearOp (cleared, false) op = (.ok next : Result ε (Cleared × Bool))) :
    next.2 = false := by
  have hOther : ¬ (false = false ∧ signetHeader.length < (pushed op).length ∧
      signetHeader.isPrefixOf (pushed op) = true) := by
    rintro ⟨_, hLong, hIs⟩
    exact hSection ⟨hLong, isPrefixOf_iff_prefix.mp hIs⟩
  rw [clearOp, clearSteps, if_neg hOther] at hClear
  split_ifs at hClear
  · cases hClear
    rfl
  · rcases bind_eq_ok.mp hClear with ⟨_, _, hNext⟩
    cases hNext
    rfl

theorem found_of_foldlM {ops : List Bytes} (hQuiet : ∀ op ∈ ops, ¬ PushesSection op)
    (hClear : ops.foldlM clearOp (cleared, false) = (.ok next : Result ε (Cleared × Bool))) :
    next.2 = false := by
  induction ops generalizing cleared with
  | nil =>
    cases hClear
    rfl
  | cons op ops ih =>
    rcases forall_mem_cons.mp hQuiet with ⟨hOp, hOps⟩
    rw [foldlM_cons] at hClear
    rcases bind_eq_ok.mp hClear with ⟨⟨after, seen⟩, hHead, hLater⟩
    obtain rfl : seen = false := found_of_clearOp hOp hHead
    exact ih hOps hLater

/- After the section, what is written depends on the operations only. -/
theorem foldlM_clearOp_found (ops : List Bytes) :
    ∃ added : Result ε Bytes, ∀ cleared : Cleared,
      ops.foldlM clearOp (cleared, true) = added >>= fun bytes =>
        .ok (⟨cleared.replacement ++ bytes, cleared.solution⟩, true) := by
  induction ops with
  | nil => exact ⟨.ok [], fun cleared => by simp⟩
  | cons op ops ih =>
    rcases ih with ⟨added, hLater⟩
    have hHead : ∃ first : Result ε Bytes, ∀ cleared : Cleared,
        clearOp (cleared, true) op = first >>= fun bytes =>
          .ok (⟨cleared.replacement ++ bytes, cleared.solution⟩, true) := by
      by_cases hEmpty : pushed op = []
      · exact ⟨.ok [op.headD 0], fun _ => by simp [clearOp, clearSteps, hEmpty]⟩
      · exact ⟨expectOk (pushEncoding (pushed op)), fun _ => by
          simp [clearOp, clearSteps, hEmpty]⟩
    rcases hHead with ⟨first, hFst⟩
    refine ⟨first >>= fun bytes => added >>= fun more => .ok (bytes ++ more), fun cleared => ?_⟩
    rw [foldlM_cons, hFst]
    cases first with
    | error halt => rfl
    | ok bytes =>
      rw [ok_bind, ok_bind, hLater]
      cases added <;> simp

--------
-- Two Sections
--------

/- The commitment's script around its section. -/
structure Surrounds (before after : Script) : Prop where
  size : witnessCommitmentSizeMin ≤ before.length
  header : witnessCommitmentHeader <+: before
  before_complete : truncatedTail before = []
  quiet : ∀ op ∈ operations before, ¬ PushesSection op
  after_complete : truncatedTail after = []

variable {before after : Script}

theorem flatten_operations {script : Script} (hComplete : truncatedTail script = []) :
    (operations script).flatten = script := by
  have hFlat := opLexer.flatten_chunks script
  rwa [show opLexer.rest script = [] from hComplete, append_nil] at hFlat

theorem Surrounds.isWitnessCommitment (hAround : Surrounds before after)
    (value : UInt64) (more : Script) : isWitnessCommitment ⟨value, before ++ more⟩ = true := by
  have hSize := hAround.size
  have hStart := isPrefixOf_iff_prefix.mpr (hAround.header.trans (prefix_append _ more))
  simp only [Bitmigo.isWitnessCommitment, length_append, hStart, and_true, decide_eq_true_eq]
  omega

/- The run over the whole script finds the section. -/
theorem Surrounds.cleared_eq (hAround : Surrounds before after) (hOp : opLexer.IsChunk op)
    (hSection : PushesSection op) {found : Option Cleared}
    (hClear : fetchAndClearCommitmentSection (before ++ (op ++ after)) =
      (.ok found : Result ε (Option Cleared))) :
    ∃ front back solution, (operations before).foldlM clearOp (⟨[], []⟩, false) =
        (.ok (front, false) : Result ε (Cleared × Bool)) ∧
      (∀ cleared, (operations after).foldlM clearOp (cleared, true) =
        (.ok (⟨cleared.replacement ++ back, cleared.solution⟩, true) : Result ε (Cleared × Bool))) ∧
      found = some ⟨front.replacement ++ 4 :: signetHeader ++ back, solution⟩ := by
  have hFlat : before ++ (op ++ after) = (operations before ++ op :: operations after).flatten := by
    rw [flatten_append, flatten_cons, flatten_operations hAround.before_complete,
      flatten_operations hAround.after_complete]
  have hOps : ∀ other ∈ operations before ++ op :: operations after, opLexer.IsChunk other := by
    intro other hOther
    rcases mem_append.mp hOther with hOther | hOther
    · exact Lexer.isChunk_of_mem hOther
    · rcases mem_cons.mp hOther with rfl | hOther
      · exact hOp
      · exact Lexer.isChunk_of_mem hOther
  rw [fetchAndClearCommitmentSection, hFlat] at hClear
  rcases bind_eq_ok.mp hClear with ⟨⟨cleared, seen⟩, hRun, hFound⟩
  have hCount := Lexer.length_le_of_chunks hOps []
  rw [append_nil] at hCount
  have hFold := @clearSteps_stepsFrom ε _ [] _ 0 (⟨[], []⟩, false) _ hOps
    (Nat.le_succ_of_le hCount) hRun
  rw [foldlM_append] at hFold
  rcases bind_eq_ok.mp hFold with ⟨⟨front, early⟩, hFront, hFold⟩
  obtain rfl : early = false := found_of_foldlM hAround.quiet hFront
  rcases clearOp_section (ε := ε) hSection front with ⟨solution, hHeader⟩
  rw [foldlM_cons, hHeader, ok_bind] at hFold
  rcases foldlM_clearOp_found (ε := ε) (operations after) with ⟨added, hAdded⟩
  rw [hAdded] at hFold
  rcases bind_eq_ok.mp hFold with ⟨back, rfl, hLast⟩
  cases hLast
  refine ⟨front, back, solution, hFront, hAdded, ?_⟩
  simpa using hFound.symm

/- What is cleared does not depend on the section. -/
theorem Surrounds.replacement_eq {other : Bytes} {first second : Option Cleared}
    (hAround : Surrounds before after) (hOp : opLexer.IsChunk op) (hSection : PushesSection op)
    (hOther : opLexer.IsChunk other) (hOtherSection : PushesSection other)
    (hFst : fetchAndClearCommitmentSection (before ++ (op ++ after)) =
      (.ok first : Result ε (Option Cleared)))
    (hSnd : fetchAndClearCommitmentSection (before ++ (other ++ after)) =
      (.ok second : Result ε (Option Cleared))) :
    ∃ replacement solution solution',
      first = some ⟨replacement, solution⟩ ∧ second = some ⟨replacement, solution'⟩ := by
  rcases hAround.cleared_eq hOp hSection hFst with ⟨front, back, solution, hFront, hBack, hSome⟩
  rcases hAround.cleared_eq hOther hOtherSection hSnd with
    ⟨front', back', solution', hFront', hBack', hSome'⟩
  cases hFront.symm.trans hFront'
  have hSame := (hBack front).symm.trans (hBack' front)
  simp only [Except.ok.injEq, Prod.mk.injEq, Cleared.mk.injEq, append_cancel_left_eq,
    and_true] at hSame
  rw [hSame] at hSome
  exact ⟨_, solution, solution', hSome, hSome'⟩

--------
-- Two Blocks
--------

/- Which output is the commitment depends on how each looks. -/
theorem lastCommitment_congr {first second : List TxOut} {index : Nat} {found : Option Nat}
    (hLook : first.map isWitnessCommitment = second.map isWitnessCommitment) :
    lastCommitment first index found = lastCommitment second index found := by
  induction first generalizing second index found with
  | nil => rw [map_eq_nil_iff.mp hLook.symm]
  | cons output rest ih =>
    rcases second with _ | ⟨other, others⟩
    · cases hLook
    · rw [map_cons, map_cons, List.cons.injEq] at hLook
      rw [lastCommitment, lastCommitment, hLook.1, ih hLook.2]

/-
  Two coinbases that agree but for their witnesses and the section, an operation of each, of the
  commitment.
-/
structure CoinbasesAlike (first second : Transaction)
    (before op other after : Script) : Prop where
  version : first.version = second.version
  lockTime : first.lockTime = second.lockTime
  input : first.withoutWitness.input = second.withoutWitness.input
  exists_output : ∃ front value back,
    witnessCommitmentIndex first = some front.length ∧
    first.output = front ++ ⟨value, before ++ (op ++ after)⟩ :: back ∧
    second.output = front ++ ⟨value, before ++ (other ++ after)⟩ :: back

/- Two blocks that differ only in the root, the bits and the nonce of the header and in such
  coinbases. -/
structure SignAlike (first second : Block)
    (before op other after : Script) : Prop where
  version : first.header.version = second.header.version
  prevBlockhash : first.header.prevBlockhash = second.header.prevBlockhash
  time : first.header.time = second.header.time
  exists_txdata : ∃ coinbase coinbase' rest,
    first.txdata = coinbase :: rest ∧ second.txdata = coinbase' :: rest ∧
    CoinbasesAlike coinbase coinbase' before op other after

section

variable {K : Primitives} {coinbase coinbase' : Transaction} {other : Script}
variable {block first second : Block} {challenge : Script}

/- A returned spend is of the cleared coinbase's block data. -/
theorem exists_of_signetTxs_eq_ok
    {rest : List Transaction} {front back : List TxOut} {output : TxOut} {txs : SignetTxs}
    (hTxdata : block.txdata = coinbase :: rest)
    (hIndex : witnessCommitmentIndex coinbase = some front.length)
    (hOutput : coinbase.output = front ++ output :: back)
    (hTxs : signetTxs K block challenge = .ok txs) :
    ∃ found data, fetchAndClearCommitmentSection output.scriptPubkey =
        (.ok found : Result SignetError (Option Cleared)) ∧
      (∀ cleared, found = some cleared → blockData K block.header
        (withOutputScript coinbase front.length cleared.replacement) block =
          (.ok data : Result SignetError Bytes)) ∧
      toSpendTx challenge data = (.ok txs.toSpend : Result SignetError Transaction) := by
  have hAt : coinbase.output[front.length]? = some output := by simp [hOutput]
  simp only [signetTxs, hTxdata, head?_cons, hIndex, hAt, orFail, expect_some, ok_bind] at hTxs
  rcases bind_eq_ok.mp hTxs with ⟨found, hFound, hTxs⟩
  rcases bind_eq_ok.mp hTxs with ⟨data, hData, hTxs⟩
  rcases bind_eq_ok.mp hTxs with ⟨toSpend, hSpend, hTxs⟩
  rcases bind_eq_ok.mp hTxs with ⟨solution, _, hTxs⟩
  cases hTxs
  refine ⟨found, data, hFound, ?_, hSpend⟩
  rintro cleared rfl
  exact hData

/- The cleared coinbases have one id. -/
theorem CoinbasesAlike.computeTxid_eq
    (hBase : ∀ tx, K.serializeTxBase tx = K.serializeTxBase tx.withoutWitness)
    (hAlike : CoinbasesAlike coinbase coinbase' before op other after)
    {front back : List TxOut} {value : UInt64}
    (hFst : coinbase.output = front ++ ⟨value, before ++ (op ++ after)⟩ :: back)
    (hSnd : coinbase'.output = front ++ ⟨value, before ++ (other ++ after)⟩ :: back)
    (replacement : Script) :
    K.computeTxid (withOutputScript coinbase front.length replacement) =
      K.computeTxid (withOutputScript coinbase' front.length replacement) := by
  have hInput := hAlike.input
  have hStripped : (withOutputScript coinbase front.length replacement).withoutWitness =
      (withOutputScript coinbase' front.length replacement).withoutWitness := by
    simp only [Transaction.withoutWitness] at hInput
    simp [Transaction.withoutWitness, withOutputScript, hAlike.version, hAlike.lockTime, hInput,
      hFst, hSnd, modify_eq_take_drop]
  rw [Primitives.computeTxid, Primitives.computeTxid, hBase, hStripped, ← hBase]

/-
  Two blocks that differ only in the section, and in what the signature is not over, ask for a
  signature of the same transaction.
-/
theorem toSpend_eq {txs others : SignetTxs}
    (hBase : ∀ tx, K.serializeTxBase tx = K.serializeTxBase tx.withoutWitness)
    (hAlike : SignAlike first second before op other after) (hAround : Surrounds before after)
    (hOp : opLexer.IsChunk op) (hSection : PushesSection op) (hOther : opLexer.IsChunk other)
    (hOtherSection : PushesSection other) (hFst : signetTxs K first challenge = .ok txs)
    (hSnd : signetTxs K second challenge = .ok others) :
    txs.toSpend = others.toSpend := by
  obtain ⟨coinbase, coinbase', rest, hTxdata, hTxdata', hCoinbases⟩ := hAlike.exists_txdata
  obtain ⟨front, value, back, hIndex, hOutput, hOutput'⟩ := hCoinbases.exists_output
  have hIndex' : witnessCommitmentIndex coinbase' = some front.length := by
    rw [← hIndex, witnessCommitmentIndex, witnessCommitmentIndex]
    apply lastCommitment_congr
    simp only [hOutput, hOutput', map_append, map_cons, hAround.isWitnessCommitment]
  rcases exists_of_signetTxs_eq_ok hTxdata hIndex hOutput hFst with
    ⟨found, data, hFound, hData, hSpend⟩
  rcases exists_of_signetTxs_eq_ok hTxdata' hIndex' hOutput' hSnd with
    ⟨found', data', hFound', hData', hSpend'⟩
  obtain ⟨replacement, solution, solution', hSome, hSome'⟩ :=
    hAround.replacement_eq hOp hSection hOther hOtherSection hFound hFound'
  have hTxid := hCoinbases.computeTxid_eq hBase hOutput hOutput' replacement
  have hSame := hData _ hSome
  have hSame' := hData' _ hSome'
  simp only [blockData, modifiedMerkleRoot, hTxdata, hAlike.version, hAlike.prevBlockhash,
    hAlike.time, hTxid] at hSame
  simp only [blockData, modifiedMerkleRoot, hTxdata'] at hSame'
  rw [length_cons] at hSame hSame'
  cases hSame.symm.trans hSame'
  exact Except.ok.inj (hSpend.symm.trans hSpend')

end

--------
-- An Example
--------

namespace TwoSections

/- A commitment to nothing. -/
def commitmentPush : Script := witnessCommitmentHeader ++ replicate 32 0

/- An empty solution, and one that pushes `OP_1` in a longer push. -/
def shortSection : Script := 6 :: (signetHeader ++ [0, 0])
def longSection : Script := opPushdata1 :: 7 :: (signetHeader ++ [1, 0x51, 0])

def block (pushOp : Script) (bits : UInt32) : Block where
  header := {
    version := 4
    prevBlockhash := FixedBytes.zero 32
    merkleRoot := FixedBytes.zero 32
    time := 1296688603
    bits := bits
    nonce := 2 }
  txdata := [{
    version := 2
    lockTime := 0
    input := [⟨OutPoint.null, [0x51, 0x51], 0xffffffff, []⟩]
    output := [⟨0, commitmentPush ++ (pushOp ++ [0x51])⟩] }]

def crypto : Crypto := Crypto.ofSha256 []

theorem signAlike :
    SignAlike (block shortSection 1) (block longSection 2) commitmentPush
      shortSection longSection [0x51] :=
  ⟨rfl, rfl, rfl, _, _, [], rfl, rfl, rfl, rfl, rfl, [], 0, [], by decide, rfl, rfl⟩

theorem surrounds : Surrounds commitmentPush [0x51] where
  size := by decide
  header := by decide
  before_complete := by decide +kernel
  quiet := by decide +kernel
  after_complete := by decide +kernel

theorem serializeTxBase_eq (tx : Transaction) :
    crypto.primitives.serializeTxBase tx = crypto.primitives.serializeTxBase tx.withoutWitness := by
  simp only [Crypto.primitives_serializeTxBase, Encoding.txBase, Encoding.txBody,
    Transaction.withoutWitness, length_map, map_map]
  rfl

theorem toSpend_eq_short :
    ∃ txs others, signetTxs crypto.primitives (block shortSection 1) [0x51] = .ok txs ∧
      signetTxs crypto.primitives (block longSection 2) [0x51] = .ok others ∧
      txs.toSpend = others.toSpend := by
  have hFst : ∃ txs, signetTxs crypto.primitives (block shortSection 1) [0x51] = .ok txs :=
    ⟨_, rfl⟩
  have hSnd : ∃ txs, signetTxs crypto.primitives (block longSection 2) [0x51] = .ok txs :=
    ⟨_, rfl⟩
  obtain ⟨txs, hFst⟩ := hFst
  obtain ⟨others, hSnd⟩ := hSnd
  exact ⟨txs, others, hFst, hSnd, toSpend_eq serializeTxBase_eq signAlike surrounds rfl
    (by decide) rfl (by decide) hFst hSnd⟩

end TwoSections

end Bitmigo
