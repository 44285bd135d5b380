import Bitmigo.Bitcoin.Types
import Mathlib.Algebra.GroupWithZero.Nat
import Mathlib.Algebra.Order.BigOperators.Group.List

/-
  What the node takes from the crates it is built on: the hash functions, libsecp256k1 and the
  consensus encodings of the `bitcoin` crate.

  Key definitions include:
    * `Primitives`
    * `Primitives.sha256d` and `Primitives.hash160`
    * `Primitives.computeTxid`, `Primitives.computeWtxid` and `Primitives.blockHash`

  None of this code is part of the repository, so it is a parameter of the whole development. The
  fields that are propositions state the documented facts the node's own assertions lean on.
-/

namespace Bitmigo

/- The functions of the crates below the node. -/
structure Primitives where
  -- Hash functions.
  sha256 : Bytes → Hash32
  sha1 : Bytes → FixedBytes 20
  ripemd160 : Bytes → FixedBytes 20
  -- SHA256 under the tags of BIP340, BIP341 and BIP342.
  tapLeafHash : Bytes → Hash32
  tapNodeHash : Bytes → Hash32
  tapTweakHash : Bytes → Hash32
  tapSighash : Bytes → Hash32
  -- libsecp256k1.
  PublicKey : Type
  EcdsaSignature : Type
  XOnlyPublicKey : Type
  SchnorrSignature : Type
  Scalar : Type
  publicKeyFromSlice : Bytes → Option PublicKey
  ecdsaFromDerLax : Bytes → Option EcdsaSignature
  normalizeS : EcdsaSignature → EcdsaSignature
  verifyEcdsa : Hash32 → EcdsaSignature → PublicKey → Bool
  xOnlyFromSlice : Hash32 → Option XOnlyPublicKey
  schnorrFromSlice : FixedBytes 64 → Option SchnorrSignature
  verifySchnorr : SchnorrSignature → Hash32 → XOnlyPublicKey → Bool
  scalarFromBeBytes : Hash32 → Option Scalar
  tweakAddCheck : XOnlyPublicKey → XOnlyPublicKey → Bool → Scalar → Bool
  -- Consensus encodings.
  encodeVersion : Int32 → Bytes
  encodeVarInt : Nat → Bytes
  encodeOutPoint : OutPoint → Bytes
  encodeSequence : UInt32 → Bytes
  encodeAmount : UInt64 → Bytes
  encodeScript : Script → Bytes
  encodeTxOut : TxOut → Bytes
  encodeLockTime : UInt32 → Bytes
  encodeU32 : UInt32 → Bytes
  serializeHeader : Header → Bytes
  deserializeHeader : Bytes → Option Header
  serializeTx : Transaction → Bytes
  serializeTxBase : Transaction → Bytes
  -- The tabled genesis blocks.
  genesisBlock : Network → Block
  -- Any 64 bytes are a Schnorr signature.
  schnorrFromSlice_isSome : ∀ bytes, (schnorrFromSlice bytes).isSome
  -- Every encoding writes something.
  encodeVersion_ne_nil : ∀ v, encodeVersion v ≠ []
  encodeVarInt_ne_nil : ∀ n, encodeVarInt n ≠ []
  encodeOutPoint_ne_nil : ∀ o, encodeOutPoint o ≠ []
  encodeSequence_ne_nil : ∀ s, encodeSequence s ≠ []
  encodeAmount_ne_nil : ∀ a, encodeAmount a ≠ []
  encodeScript_ne_nil : ∀ s, encodeScript s ≠ []
  encodeTxOut_ne_nil : ∀ o, encodeTxOut o ≠ []
  encodeLockTime_ne_nil : ∀ t, encodeLockTime t ≠ []
  encodeU32_ne_nil : ∀ n, encodeU32 n ≠ []
  -- A compact size takes at most nine bytes.
  length_encodeVarInt_le : ∀ n, (encodeVarInt n).length ≤ 9
  -- A serialization holds every input, and with the
  -- witnesses every item of them and its size.
  length_input_le : ∀ tx, tx.input.length ≤ (serializeTxBase tx).length
  length_witness_le : ∀ tx, ∀ input ∈ tx.input,
      (encodeVarInt input.witness.length).length +
        (input.witness.map fun item => (encodeVarInt item.length).length + item.length).sum ≤
      (serializeTx tx).length
  -- A header is eighty bytes and decodes to itself.
  length_serializeHeader : ∀ h, (serializeHeader h).length = 80
  deserialize_serializeHeader : ∀ h, deserializeHeader (serializeHeader h) = some h

namespace Primitives

variable (K : Primitives)

/- Double SHA-256. -/
def sha256d (bytes : Bytes) : Hash32 :=
  K.sha256 (K.sha256 bytes).val

/- RIPEMD-160 of SHA-256. -/
def hash160 (bytes : Bytes) : FixedBytes 20 :=
  K.ripemd160 (K.sha256 bytes).val

/- `Transaction::compute_txid`: no witness is hashed. -/
def computeTxid (tx : Transaction) : Txid :=
  K.sha256d (K.serializeTxBase tx)

/- `Transaction::compute_wtxid`: the witnesses are hashed. -/
def computeWtxid (tx : Transaction) : Hash32 :=
  K.sha256d (K.serializeTx tx)

/- `Header::block_hash`. -/
def blockHash (header : Header) : BlockHash :=
  K.sha256d (K.serializeHeader header)

/- `VarInt::size`: how many bytes the compact size takes. -/
def varIntSize (n : Nat) : Nat :=
  (K.encodeVarInt n).length

end Primitives

end Bitmigo
