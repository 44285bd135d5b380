import Bitmigo.Bitcoin.Delimited
import Bitmigo.Block.Check

/-
  The header commits to the whole block.

  Key definitions include:
    * `hashedStrings`, what is hashed to check a block

  Key theorems include:
    * `txdata_eq_of_header_eq`, two blocks under one header that pass the checks carry the same
      transactions, witnesses included

  The transaction ids are pinned by the merkle root: the mutation check excludes a repeated tail,
  and a leaf that is a node of the other tree would hash 64 bytes. The witnesses are pinned by the
  commitment in the coinbase, or are absent.
-/

namespace Bitmigo

open Result List Crypto

variable {K : Primitives} {tx : Transaction} {preimage reserved : Bytes} {root : Hash32}

--------
-- What Is Hashed
--------

/- The witness root and the reserved value, in a row. -/
def commitmentPreimages (K : Primitives) (block : Block) : List Bytes :=
  match block.txdata.head?.bind reservedValue, (witnessRoot K block : Result BlockError Hash32) with
  | some reserved, .ok root => [root.val ++ reserved]
  | _, _ => []

/-
  The strings hashed to check a block: its transactions with and without witnesses, the nodes of the
  two trees, and the commitment.
-/
def hashedStrings (K : Primitives) (block : Block) : List Bytes :=
  block.txdata.map K.serializeTxBase ++
    block.txdata.map K.serializeTx ++
    merklePreimages K (merkleLevelsMax + 1) (block.txdata.map K.computeTxid) ++
    merklePreimages K (merkleLevelsMax + 1) (witnessLeaves K block) ++
    commitmentPreimages K block

section

variable {block : Block}

theorem serializeTxBase_mem (hTx : tx ∈ block.txdata) :
    K.serializeTxBase tx ∈ hashedStrings K block := by
  simp only [hashedStrings, mem_append, mem_map]
  exact .inl (.inl (.inl (.inl ⟨tx, hTx, rfl⟩)))

theorem serializeTx_mem (hTx : tx ∈ block.txdata) : K.serializeTx tx ∈ hashedStrings K block := by
  simp only [hashedStrings, mem_append, mem_map]
  exact .inl (.inl (.inl (.inr ⟨tx, hTx, rfl⟩)))

theorem txidPreimage_mem
    (hMem : preimage ∈ merklePreimages K (merkleLevelsMax + 1) (block.txdata.map K.computeTxid)) :
    preimage ∈ hashedStrings K block := by
  simp only [hashedStrings, mem_append]
  exact .inl (.inl (.inr hMem))

theorem wtxidPreimage_mem
    (hMem : preimage ∈ merklePreimages K (merkleLevelsMax + 1) (witnessLeaves K block)) :
    preimage ∈ hashedStrings K block := by
  simp only [hashedStrings, mem_append]
  exact .inl (.inr hMem)

theorem commitmentPreimage_mem {coinbase : Transaction} (hHead : block.txdata.head? = some coinbase)
    (hReserved : reservedValue coinbase = some reserved)
    (hRoot : (witnessRoot K block : Result BlockError Hash32) = .ok root) :
    root.val ++ reserved ∈ hashedStrings K block := by
  simp only [hashedStrings, mem_append]
  refine .inr ?_
  simp [commitmentPreimages, hHead, hReserved, hRoot]

end

--------
-- Witnesses
--------

theorem withoutWitness_eq_self (hEmpty : ∀ input ∈ tx.input, input.witness = []) :
    tx.withoutWitness = tx := by
  have hMap : tx.input.map (fun input =>
        { input with witness := [] }) = tx.input := by
    conv_rhs => rw [← map_id tx.input]
    apply map_congr_left
    intro input hInput
    rw [← hEmpty input hInput]
    rfl
  simp only [Transaction.withoutWitness, hMap]

/- The input of a coinbase with a reserved value. -/
theorem exists_input_of_reservedValue (hCoinbase : tx.isCoinbase)
    (hReserved : reservedValue tx = some reserved) :
    ∃ input, tx.input = [input] ∧ input.witness = [reserved] ∧
      reserved.length = witnessReservedValueSize := by
  have hOutpoints : tx.input.map (·.previousOutput) = [OutPoint.null] := by
    simpa [Transaction.isCoinbase] using hCoinbase
  rcases hInput : tx.input with _ | ⟨input, rest⟩
  · simp [hInput] at hOutpoints
  have hRest : rest = [] := by
    simp only [hInput, map_cons, List.cons.injEq, map_eq_nil_iff] at hOutpoints
    exact hOutpoints.2
  subst hRest
  rcases input with ⟨outpoint, script, sequence, witness⟩
  simp only [reservedValue, hInput, head?_cons] at hReserved
  rcases witness with _ | ⟨item, _ | ⟨other, more⟩⟩
  · cases hReserved
  · simp only [Option.ite_none_right_eq_some, Option.some.injEq] at hReserved
    rcases hReserved with ⟨hLen, rfl⟩
    exact ⟨_, rfl, rfl, hLen⟩
  · cases hReserved

/- A coinbase is what its witness adds to the rest. -/
theorem coinbase_eq {first second : Transaction} (hFst : first.isCoinbase)
    (hSnd : second.isCoinbase) (hReservedFirst : reservedValue first = some reserved)
    (hReservedSecond : reservedValue second = some reserved)
    (hStripped : first.withoutWitness = second.withoutWitness) : first = second := by
  rcases exists_input_of_reservedValue hFst hReservedFirst with ⟨a, hInputFirst, hWitnessFirst, _⟩
  rcases exists_input_of_reservedValue hSnd hReservedSecond
    with ⟨b, hInputSecond, hWitnessSecond, _⟩
  rcases first with ⟨version, lockTime, inputs, outputs⟩
  rcases second with ⟨version', lockTime', inputs', outputs'⟩
  rcases a with ⟨outpoint, script, sequence, witness⟩
  rcases b with ⟨outpoint', script', sequence', witness'⟩
  dsimp only at hInputFirst hWitnessFirst
  dsimp only at hInputSecond hWitnessSecond
  subst hWitnessFirst
  subst hWitnessSecond
  subst hInputFirst
  subst hInputSecond
  simpa [Transaction.withoutWitness] using hStripped

/- What a passed commitment check computed. -/
theorem checkCommitment_eq_ok {block : Block} {coinbase : Transaction} {position : Nat}
    (hCheck : checkCommitment K block coinbase position = .ok ()) :
    ∃ reserved root output committed, reservedValue coinbase = some reserved ∧
      (witnessRoot K block : Result BlockError Hash32) = .ok root ∧
      coinbase.output[position]? = some output ∧
      getRange? output.scriptPubkey witnessCommitmentHeader.length
        witnessCommitmentSizeMin = some committed ∧
      committed = (K.sha256d (root.val ++ reserved)).val := by
  simp only [checkCommitment, bind_eq_ok, assert_eq_ok, orFail_eq_ok,
    expect_eq_ok, ensure_eq_ok] at hCheck
  rcases hCheck with
    ⟨_, _, reserved, hReserved, root, hRoot, output, hOutput, committed, hCommitted, hMatch⟩
  exact ⟨reserved, root, output, committed, hReserved, hRoot, hOutput, hCommitted, hMatch⟩

theorem witnessRoot_eq_ok {block : Block}
    (hRoot : (witnessRoot K block : Result BlockError Hash32) = .ok root) :
    ∃ found, (merkleRoot K (witnessLeaves K block) : Result BlockError MerkleRoot) = .ok found ∧
      found.root = root ∧ (witnessLeaves K block).length = block.txdata.length := by
  simp only [witnessRoot, bind_eq_ok, assert_eq_ok, pure_inj] at hRoot
  rcases hRoot with ⟨_, _, _, hLen, found, hFound, rfl⟩
  exact ⟨found, hFound, rfl, hLen⟩

--------
-- Two Blocks Under One Header
--------

/-
  What collision resistance and the encodings are asked for: no collision among the strings hashed
  for the two blocks, and no two of their transactions with one serialization.
-/
structure Distinguishes (K : Primitives)
    (first second : Block) : Prop where
  hash :
    Set.InjOn K.sha256d { bytes | bytes ∈ hashedStrings K first ∨ bytes ∈ hashedStrings K second }
  base : ∀ tx ∈ first.txdata, ∀ other ∈ second.txdata,
      K.serializeTxBase tx = K.serializeTxBase other → tx.withoutWitness = other.withoutWitness
  full : ∀ tx ∈ first.txdata, ∀ other ∈ second.txdata,
      K.serializeTx tx = K.serializeTx other → tx = other

section

variable {first second : Block}

/- No leaf is a node: it would hash 64 bytes. -/
theorem not_isNode_txid {S : Set Bytes} (hInj : Set.InjOn K.sha256d S) {block : Block}
    (hMem : ∀ tx ∈ block.txdata, K.serializeTxBase tx ∈ S)
    (hSizes : ∀ tx ∈ block.txdata, baseSize K tx ≠ 64) (hNe : block.txdata ≠ []) :
    ¬ ∀ leaf ∈ block.txdata.map K.computeTxid, IsNode K S leaf := by
  intro hNodes
  rcases exists_mem_of_ne_nil _ hNe with ⟨tx, hTx⟩
  rcases hNodes _ (mem_map_of_mem hTx) with ⟨preimage, hPreimage, hLen, hHash⟩
  have hBytes := hInj (hMem tx hTx) hPreimage hHash
  exact hSizes tx hTx (by rw [baseSize, hBytes, hLen])

/- The merkle root pins the transactions up to witnesses. -/
theorem withoutWitness_eq_of_merkleRoot (hDistinct : Distinguishes K first second)
    {params : ChainParams} (hFst : CheckedBlock K first params)
    (hSnd : CheckedBlock K second params) (hHeader : first.header = second.header)
    (hSizesFirst : ∀ tx ∈ first.txdata, baseSize K tx ≠ 64)
    (hSizesSecond : ∀ tx ∈ second.txdata, baseSize K tx ≠ 64) :
    first.txdata.map Transaction.withoutWitness = second.txdata.map Transaction.withoutWitness := by
  rcases hFst.merkle with ⟨found, hFound, hRoot, hMutated⟩
  rcases hSnd.merkle with ⟨found', hFound', hRoot', hMutated'⟩
  have hNe {block : Block} (hChecked : CheckedBlock K block params) : block.txdata ≠ [] := by
    rcases hChecked.coinbase with ⟨_, _, hTxdata, _⟩
    simp [hTxdata]
  have hTxids : first.txdata.map K.computeTxid = second.txdata.map K.computeTxid := by
    rcases leaves_eq_of_merkleRoot hDistinct.hash hFound
        hFound' (fun _ hMem => .inl (txidPreimage_mem hMem))
        (fun _ hMem => .inr (txidPreimage_mem hMem)) (by simpa using hNe hFst)
        (by simpa using hNe hSnd) hMutated hMutated'
        (by rw [hRoot, hRoot', hHeader]) with
      hEq | hNodes | hNodes
    · exact hEq
    · exact (not_isNode_txid hDistinct.hash (fun tx hTx => .inl (serializeTxBase_mem hTx))
        hSizesFirst (hNe hFst) hNodes).elim
    · exact (not_isNode_txid hDistinct.hash (fun tx hTx => .inr (serializeTxBase_mem hTx))
        hSizesSecond (hNe hSnd) hNodes).elim
  apply Merkle.map_eq_map_of_map_eq _ hTxids
  intro tx hTx other hOther hTxid
  exact hDistinct.base tx hTx other hOther
    (hDistinct.hash (.inl (serializeTxBase_mem hTx)) (.inr (serializeTxBase_mem hOther)) hTxid)

/- A commitment pins the witnesses. -/
theorem txdata_eq_of_commitment (hDistinct : Distinguishes K first second)
    {coinbase coinbase' : Transaction} {rest rest' : List Transaction} {position : Nat}
    (hFst : first.txdata = coinbase :: rest) (hSnd : second.txdata = coinbase' :: rest')
    (hCoinbase : coinbase.isCoinbase) (hCoinbase' : coinbase'.isCoinbase)
    (hStripped : coinbase.withoutWitness = coinbase'.withoutWitness)
    (hLen : rest.length = rest'.length)
    (hCheck : checkCommitment K first coinbase position = .ok ())
    (hCheck' : checkCommitment K second coinbase' position = .ok ()) :
    first.txdata = second.txdata := by
  rcases checkCommitment_eq_ok hCheck with
    ⟨reserved, root, output, committed, hReserved, hRoot, hOutput, hCommitted, hMatch⟩
  rcases checkCommitment_eq_ok hCheck' with
    ⟨reserved', root', output', committed', hReserved', hRoot', hOutput', hCommitted', hMatch'⟩
  have hOutputs : coinbase.output = coinbase'.output := by
    simpa [Transaction.withoutWitness] using congrArg Transaction.output hStripped
  rw [hOutputs, hOutput', Option.some.injEq] at hOutput
  rw [← hOutput, hCommitted', Option.some.injEq] at hCommitted
  have hPreimages : root.val ++ reserved = root'.val ++ reserved' := by
    apply hDistinct.hash (.inl (commitmentPreimage_mem (by rw [hFst]; rfl) hReserved hRoot))
      (.inr (commitmentPreimage_mem (by rw [hSnd]; rfl) hReserved' hRoot'))
    apply Subtype.ext
    rw [← hMatch, ← hMatch', hCommitted]
  rcases List.append_inj hPreimages (by rw [root.property, root'.property]) with ⟨hRoots, rfl⟩
  have hCoinbases : coinbase = coinbase' :=
    coinbase_eq hCoinbase hCoinbase' hReserved hReserved' hStripped
  rcases witnessRoot_eq_ok hRoot with ⟨found, hFound, rfl, hCount⟩
  rcases witnessRoot_eq_ok hRoot' with ⟨found', hFound', rfl, hCount'⟩
  have hLeaves : witnessLeaves K first = witnessLeaves K second := by
    apply leaves_eq_of_merkleRoot_of_length hDistinct.hash hFound hFound'
      (fun _ hMem => .inl (wtxidPreimage_mem hMem)) (fun _ hMem => .inr (wtxidPreimage_mem hMem))
    · simp [witnessLeaves]
    · simp [hCount, hCount', hFst, hSnd, hLen]
    · exact Subtype.ext hRoots
  have hRests : rest = rest' := by
    simp only [witnessLeaves, hFst, hSnd, drop_succ_cons, drop_zero, List.cons.injEq,
      true_and] at hLeaves
    apply Merkle.eq_of_map_eq _ hLeaves
    intro tx hTx other hOther hWtxid
    have hTx' : tx ∈ first.txdata := by
      rw [hFst]
      exact mem_cons_of_mem _ hTx
    have hOther' : other ∈ second.txdata := by
      rw [hSnd]
      exact mem_cons_of_mem _ hOther
    exact hDistinct.full tx hTx' other hOther'
      (hDistinct.hash (.inl (serializeTx_mem hTx')) (.inr (serializeTx_mem hOther')) hWtxid)
  rw [hFst, hSnd, hCoinbases, hRests]

/- Without witnesses there is nothing left to pin. -/
theorem txdata_eq_of_noWitness (hStripped :
      first.txdata.map Transaction.withoutWitness = second.txdata.map Transaction.withoutWitness)
    (hFst : checkNoWitness first.txdata 0 = .ok ())
    (hSnd : checkNoWitness second.txdata 0 = .ok ()) : first.txdata = second.txdata := by
  have hSelf {txs : List Transaction} (hCheck : checkNoWitness txs 0 = .ok ()) :
      txs.map Transaction.withoutWitness = txs := by
    rw [checkNoWitness_eq_ok] at hCheck
    conv_rhs => rw [← map_id txs]
    exact map_congr_left fun tx hTx =>
      withoutWitness_eq_self (hCheck tx hTx)
  rw [← hSelf hFst, ← hSelf hSnd, hStripped]

/-
  Two blocks with one header that pass both receipt stages under one context with segwit active are
  one block.
-/
theorem txdata_eq_of_header_eq {params : ChainParams} {context : Context}
    (hSegwit : context.rules.segwitActive = true) (hCheckFirst : checkBlock K first params = .ok ())
    (hCheckSecond : checkBlock K second params = .ok ())
    (hAcceptFirst : acceptBlock K first context = .ok ())
    (hAcceptSecond : acceptBlock K second context = .ok ()) (hHeader : first.header = second.header)
    (hSizesFirst : ∀ tx ∈ first.txdata, baseSize K tx ≠ 64)
    (hSizesSecond : ∀ tx ∈ second.txdata, baseSize K tx ≠ 64)
    (hDistinct : Distinguishes K first second) :
    first.txdata = second.txdata := by
  have hFst := checkBlock_eq_ok hCheckFirst
  have hSnd := checkBlock_eq_ok hCheckSecond
  have hStripped :=
    withoutWitness_eq_of_merkleRoot hDistinct hFst hSnd hHeader hSizesFirst hSizesSecond
  rcases hFst.coinbase with ⟨coinbase, rest, hTxdata, hCoinbase, _⟩
  rcases hSnd.coinbase with ⟨coinbase', rest', hTxdata', hCoinbase', _⟩
  have hWitness := (acceptBlock_eq_ok hAcceptFirst).witness
  have hWitness' := (acceptBlock_eq_ok hAcceptSecond).witness
  simp only [checkWitnessMalleation, hSegwit, hTxdata, head?_cons, expect_some, ok_bind]
    at hWitness
  simp only [checkWitnessMalleation, hSegwit, hTxdata', head?_cons, expect_some, ok_bind]
    at hWitness'
  have hParts := hStripped
  simp only [hTxdata, hTxdata', map_cons, List.cons.injEq] at hParts
  have hIndex : witnessCommitmentIndex coinbase = witnessCommitmentIndex coinbase' := by
    have hOutputs : coinbase.output = coinbase'.output := by
      simpa [Transaction.withoutWitness] using congrArg Transaction.output hParts.1
    rw [witnessCommitmentIndex, witnessCommitmentIndex, hOutputs]
  rw [hIndex] at hWitness
  cases hPosition : witnessCommitmentIndex coinbase' with
  | none =>
    rw [hPosition] at hWitness hWitness'
    exact txdata_eq_of_noWitness hStripped (hTxdata ▸ hWitness) (hTxdata' ▸ hWitness')
  | some position =>
    rw [hPosition] at hWitness hWitness'
    have hLen : rest.length = rest'.length := by simpa using congrArg List.length hParts.2
    exact txdata_eq_of_commitment hDistinct hTxdata hTxdata'
      hCoinbase hCoinbase' hParts.1 hLen hWitness
      hWitness'

end

/- A block under the rules of regtest, with a commitment to the witness of a payment in it. -/
namespace CommittedBlock

def hashes : Primitives := residues.primitives

def payment (n : Nat) (witness : Witness) : Transaction :=
  { sharing n with input := [{ spend n with witness }] }

def plain : Transaction := payment 8 []

def signed : Transaction := payment 9 [[0x01], [0x02, 0x03]]

/- The root over three leaves, the last of them hashed with itself. -/
def rootOver (first second third : Hash32) : Hash32 :=
  let node (left right : Hash32) := hashes.sha256d (left.val ++ right.val)
  node (node first second) (node third third)

def commitment : Hash32 := hashes.sha256d
  ((rootOver (FixedBytes.zero 32) (hashes.computeWtxid plain) (hashes.computeWtxid signed)).val ++
    (FixedBytes.zero 32).val)

def coinbase : Transaction where
  version := 2
  lockTime := 0
  input := [{
    previousOutput := OutPoint.null
    scriptSig := [0x51, 0x51]
    sequence := 0xffffffff
    witness := [(FixedBytes.zero 32).val] }]
  output := [
    { value := 5000000000, scriptPubkey := [0x51] },
    { value := 0
      scriptPubkey := witnessCommitmentHeader ++ commitment.val }]

def block : Block where
  header := {
    version := 4
    prevBlockhash := hash32 1
    merkleRoot := rootOver (hashes.computeTxid coinbase) (hashes.computeTxid plain)
      (hashes.computeTxid signed)
    time := 1296688603
    bits := 0x207fffff
    nonce := 2 }
  txdata := [coinbase, plain, signed]

def params : ChainParams :=
  ChainParams.regtestTable hashes
    { bip34 := none, bip66 := none, bip65 := none, csv := none
      segwit := none, bip94 := false }

theorem height_le : 1 ≤ 0x7fffffff := by decide

def context : Context where
  height := ⟨1, height_le⟩
  medianTimePast := 1296688602
  previousTime := 1296688602
  requiredBits := 0x207fffff
  rules :=
    { scriptFlags := .mandatory
      versionFloor := 4
      bip34Active := true
      csvActive := true
      segwitActive := true
      bip30 := .enforce
      subsidy := 5000000000 }
  height_pos := by decide

theorem checkBlock_block : checkBlock hashes block params = .ok () := by
  decide +kernel

theorem acceptBlock_block : acceptBlock hashes block context = .ok () := by
  decide +kernel

theorem distinguishes : Distinguishes hashes block block := by
  have hInj : ∀ bytes ∈ hashedStrings hashes block,
      ∀ other ∈ hashedStrings hashes block,
        hashes.sha256d bytes = hashes.sha256d other → bytes = other := by
    decide +kernel
  refine ⟨?_, by decide +kernel, by decide +kernel⟩
  intro bytes hBytes other hOther hHash
  exact hInj bytes (or_self_iff.mp hBytes) other (or_self_iff.mp hOther) hHash

theorem sizes_block : ∀ tx ∈ block.txdata, baseSize hashes tx ≠ 64 := by
  decide +kernel

/- The premises hold of a block with three transactions and a committed witness. -/
theorem txdata_eq_of_header_eq_block :
    checkBlock hashes block params = .ok () ∧
      acceptBlock hashes block context = .ok () ∧
      Distinguishes hashes block block ∧
      block.txdata = block.txdata :=
  ⟨checkBlock_block, acceptBlock_block, distinguishes, txdata_eq_of_header_eq
      (show context.rules.segwitActive = true from rfl)
      checkBlock_block checkBlock_block acceptBlock_block
      acceptBlock_block rfl sizes_block sizes_block
      distinguishes⟩

end CommittedBlock

end Bitmigo
