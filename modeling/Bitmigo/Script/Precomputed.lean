import Bitmigo.Bitcoin.Delimited
import Bitmigo.Script.Sighash

/-
  What the shared hashes of a transaction are hashes of, and what can be read back from the strings.

  Key definitions include:
    * `outpointBytes`, `sequenceBytes`, `outputBytes`, `amountBytes` and `scriptBytes`
    * `TxPrecomputed.Hashes`

  Key theorems include:
    * `TxPrecomputed.new_eq_ok`
    * `outpoints_eq`, `sequences_eq`, `outputs_eq`, `amounts_eq` and `scripts_eq`
-/

namespace Bitmigo

open Result

variable (K : Primitives)

--------
-- The Strings
--------

def outpointBytes (tx : Transaction) : Bytes :=
  ((tx.input.map (·.previousOutput)).map K.encodeOutPoint).flatten

def sequenceBytes (tx : Transaction) : Bytes :=
  ((tx.input.map (·.sequence)).map K.encodeSequence).flatten

def outputBytes (tx : Transaction) : Bytes :=
  (tx.output.map K.encodeTxOut).flatten

def amountBytes (prevouts : List TxOut) : Bytes :=
  ((prevouts.map (·.value)).map K.encodeAmount).flatten

def scriptBytes (prevouts : List TxOut) : Bytes :=
  ((prevouts.map (·.scriptPubkey)).map K.encodeScript).flatten

/- The precompute holds the hashes of those strings. -/
structure TxPrecomputed.Hashes
    (precomputed : TxPrecomputed) (tx : Transaction) (prevouts : List TxOut) :
    Prop where
  length_eq : prevouts.length = tx.input.length
  hashPrevouts : precomputed.hashPrevouts = K.sha256d (outpointBytes K tx)
  hashSequence : precomputed.hashSequence = K.sha256d (sequenceBytes K tx)
  hashOutputs : precomputed.hashOutputs = K.sha256d (outputBytes K tx)
  shaPrevouts : precomputed.shaPrevouts = K.sha256 (outpointBytes K tx)
  shaAmounts : precomputed.shaAmounts = K.sha256 (amountBytes K prevouts)
  shaScriptpubkeys : precomputed.shaScriptpubkeys = K.sha256 (scriptBytes K prevouts)
  shaSequences : precomputed.shaSequences = K.sha256 (sequenceBytes K tx)
  shaOutputs : precomputed.shaOutputs = K.sha256 (outputBytes K tx)

theorem sha256Each_map {α : Type} (values : List α) {code : α → Bytes} (hCode : ∀ a, code a ≠ []) :
    sha256Each K (values.map code) = .ok (K.sha256 (values.map code).flatten) := by
  apply sha256Each_of_ne_nil
  intro value hValue
  rcases List.mem_map.mp hValue with ⟨a, _, rfl⟩
  exact hCode a

theorem TxPrecomputed.new_eq_ok
    {tx : Transaction} {prevouts : List TxOut} {precomputed : TxPrecomputed}
    (hNew : new K tx prevouts = .ok precomputed) : precomputed.Hashes K tx prevouts := by
  simp only [new, bind_eq_ok, assert_eq_ok, sha256Each_map K _ (fun _ => K.encodeOutPoint_ne_nil _),
    sha256Each_map K _ (fun _ => K.encodeSequence_ne_nil _),
    sha256Each_map K _ (fun _ => K.encodeTxOut_ne_nil _),
    sha256Each_map K _ (fun _ => K.encodeAmount_ne_nil _),
    sha256Each_map K _ (fun _ => K.encodeScript_ne_nil _), ok_bind, pure_inj]
    at hNew
  rcases hNew with ⟨_, _, _, hLen, rfl⟩
  constructor <;> simp [hLen, sha256Once, Primitives.sha256d,
      outpointBytes, sequenceBytes, outputBytes, amountBytes,
      scriptBytes, List.map_map, Function.comp_def]

--------
-- Reading Them Back
--------

section

variable {K} {scripts : Set Script} {outputs : Set TxOut} {sizes : Set Nat}
variable {tx tx' : Transaction} {prevouts prevouts' : List TxOut}

section

variable (hDelimits : K.Delimits scripts outputs sizes)

include hDelimits

theorem outpoints_eq (hEq : outpointBytes K tx = outpointBytes K tx') :
    tx.input.map (·.previousOutput) = tx'.input.map (·.previousOutput) :=
  hDelimits.outPoint.flatten_inj K.encodeOutPoint_ne_nil
    (fun _ _ => trivial) (fun _ _ => trivial) hEq

theorem sequences_eq (hEq : sequenceBytes K tx = sequenceBytes K tx') :
    tx.input.map (·.sequence) = tx'.input.map (·.sequence) :=
  hDelimits.sequence.flatten_inj K.encodeSequence_ne_nil
    (fun _ _ => trivial) (fun _ _ => trivial) hEq

theorem outputs_eq (hMem : ∀ output ∈ tx.output, output ∈ outputs)
    (hMem' : ∀ output ∈ tx'.output, output ∈ outputs) (hEq : outputBytes K tx = outputBytes K tx') :
    tx.output = tx'.output :=
  hDelimits.txOut.flatten_inj K.encodeTxOut_ne_nil hMem hMem' hEq

theorem amounts_eq (hEq : amountBytes K prevouts = amountBytes K prevouts') :
    prevouts.map (·.value) = prevouts'.map (·.value) :=
  hDelimits.amount.flatten_inj K.encodeAmount_ne_nil (fun _ _ => trivial) (fun _ _ => trivial) hEq

theorem scripts_eq (hMem : ∀ script ∈ prevouts.map (·.scriptPubkey), script ∈ scripts)
    (hMem' : ∀ script ∈ prevouts'.map (·.scriptPubkey), script ∈ scripts)
    (hEq : scriptBytes K prevouts = scriptBytes K prevouts') :
    prevouts.map (·.scriptPubkey) = prevouts'.map (·.scriptPubkey) :=
  hDelimits.script.flatten_inj K.encodeScript_ne_nil hMem hMem' hEq

end

end

end Bitmigo
