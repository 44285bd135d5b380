import Bitmigo.Bitcoin.Primitives
import Bitmigo.Lib.LittleEndian

/-
  The consensus encodings written out.

  Key definitions include:
    * `Encoding.compactSize`
    * `Encoding.header`, `Encoding.txBase` and `Encoding.tx`
    * `Crypto`, hash functions and signature checks
    * `Crypto.primitives`

  With any `Crypto` they make a `Primitives`, so the facts stated of the crates below the node hold
  of something.
-/

namespace Bitmigo

open List LittleEndian

--------
-- Encodings
--------

namespace Encoding

/- A compact size: one byte, or a marker and two, four or eight. -/
def compactSize (n : Nat) : Bytes :=
  if n < 0xfd then LittleEndian.encode 1 n
  else if n < 0x10000 then 0xfd :: LittleEndian.encode 2 n
  else if n < 0x100000000 then
    0xfe :: LittleEndian.encode 4 n
  else 0xff :: LittleEndian.encode 8 n

def u32 (n : UInt32) : Bytes :=
  LittleEndian.encode 4 n.toNat

def i32 (n : Int32) : Bytes :=
  u32 n.toUInt32

def amount (n : UInt64) : Bytes :=
  LittleEndian.encode 8 n.toNat

def outPoint (o : OutPoint) : Bytes :=
  o.txid.val ++ u32 o.vout

def script (s : Script) : Bytes :=
  compactSize s.length ++ s

def txOut (o : TxOut) : Bytes :=
  amount o.value ++ script o.scriptPubkey

def txIn (input : TxIn) : Bytes :=
  outPoint input.previousOutput ++ script input.scriptSig ++ u32 input.sequence

def witness (items : Witness) : Bytes :=
  compactSize items.length ++ (items.map script).flatten

/- The inputs and the outputs, each list with its length. -/
def txBody (t : Transaction) : Bytes :=
  compactSize t.input.length ++ (t.input.map txIn).flatten ++
    compactSize t.output.length ++
    (t.output.map txOut).flatten

/- The serialization without witnesses. -/
def txBase (t : Transaction) : Bytes :=
  i32 t.version ++ txBody t ++ u32 t.lockTime

/- The serialization with the witnesses, if there are any. -/
def tx (t : Transaction) : Bytes :=
  if t.input.all (·.witness.isEmpty) then
    txBase t
  else
    i32 t.version ++ [0x00, 0x01] ++ txBody t ++
      (t.input.map (witness ·.witness)).flatten ++
      u32 t.lockTime

def header (h : Header) : Bytes :=
  i32 h.version ++ h.prevBlockhash.val ++ h.merkleRoot.val ++
    u32 h.time ++ u32 h.bits ++ u32 h.nonce

/- Four bytes at an offset, as a number. -/
def u32At (bytes : Bytes) (offset : Nat) : UInt32 :=
  UInt32.ofNat (LittleEndian.decode ((bytes.drop offset).take 4))

def parseHeader (bytes : Bytes) : Option Header :=
  if h : bytes.length = 80 then
    some {
      version := (u32At bytes 0).toInt32
      prevBlockhash := ⟨(bytes.drop 4).take 32, by simp [h]⟩
      merkleRoot := ⟨(bytes.drop 36).take 32, by simp [h]⟩
      time := u32At bytes 68
      bits := u32At bytes 72
      nonce := u32At bytes 76 }
  else
    none

--------
-- Sizes
--------

theorem compactSize_ne_nil (n : Nat) : compactSize n ≠ [] := by
  unfold compactSize LittleEndian.encode
  split
  · simp
  · split
    · simp
    · split <;> simp

theorem length_compactSize_le (n : Nat) : (compactSize n).length ≤ 9 := by
  unfold compactSize
  split
  · simp
  · split
    · simp
    · split <;> simp

@[simp] theorem length_u32 (n : UInt32) : (u32 n).length = 4 := by
  simp [u32]

@[simp] theorem length_i32 (n : Int32) : (i32 n).length = 4 := by
  simp [i32]

theorem length_script (s : Script) :
    (script s).length = (compactSize s.length).length + s.length := by
  simp [script]

theorem length_input_le (t : Transaction) : t.input.length ≤ (txBase t).length := by
  have hEach : ∀ input ∈ t.input, 1 ≤ (txIn input).length := by
    intro input _
    simp [txIn]
    omega
  have hSum : t.input.length ≤ ((t.input.map txIn).map List.length).sum := by
    have hOne := length_le_sum_of_one_le ((t.input.map txIn).map List.length) (by simpa using hEach)
    simpa using hOne
  simp only [txBase, txBody, length_append, length_flatten]
  omega

theorem length_witness (items : Witness) :
    (witness items).length = (compactSize items.length).length +
      (items.map fun item => (compactSize item.length).length + item.length).sum := by
  simp only [witness, length_append, length_flatten, map_map]
  congr 2
  apply map_congr_left
  intro item _
  exact length_script item

theorem length_witness_le (t : Transaction) (input : TxIn) (hInput : input ∈ t.input) :
    (witness input.witness).length ≤ (tx t).length := by
  unfold tx
  split
  case isTrue hAll =>
    have hEmpty : input.witness = [] := by
      have := all_eq_true.mp hAll input hInput
      simpa using this
    have hOne : (compactSize 0).length = 1 := rfl
    simp [hEmpty, witness, txBase, hOne]
    omega
  case isFalse =>
    have hLe :
        (witness input.witness).length ≤ ((t.input.map (witness ·.witness)).map List.length).sum :=
      le_sum_of_mem (mem_map_of_mem (mem_map_of_mem hInput))
    simp only [length_append, length_flatten]
    omega

/- The witnesses add themselves, a marker and a flag. -/
theorem length_tx_le (t : Transaction) :
    (tx t).length ≤ (txBase t).length + 2 +
      (t.input.map fun input => (witness input.witness).length).sum := by
  unfold tx
  split
  · omega
  · simp only [txBase, length_append, length_flatten, map_map, length_cons,
      length_nil, Function.comp_def]
    omega

--------
-- Headers
--------

theorem length_header (h : Header) : (header h).length = 80 := by
  simp [header]

theorem decode_u32 (n : UInt32) : UInt32.ofNat (LittleEndian.decode (u32 n)) = n := by
  rw [u32, decode_encode_of_lt n.toNat_lt]
  simp

/- A field written after `front` is read at its length. -/
theorem u32At_append (front back : Bytes) (n : UInt32) (offset : Nat)
    (hOffset : front.length = offset) : u32At (front ++ u32 n ++ back) offset = n := by
  have hTake : ((front ++ u32 n ++ back).drop offset).take 4 = u32 n := by
    subst hOffset
    simp [append_assoc]
  rw [u32At, hTake, decode_u32]

/- So is a hash. -/
theorem take_drop_append (front back : Bytes) (hash : Hash32) (offset : Nat)
    (hOffset : front.length = offset) :
    ((front ++ hash.val ++ back).drop offset).take 32 = hash.val := by
  have hLen := hash.property
  subst hOffset
  simp [append_assoc, hLen]

theorem parseHeader_header (h : Header) : parseHeader (header h) = some h := by
  have hVer : u32At (header h) 0 = h.version.toUInt32 := u32At_append [] _ _ 0 rfl
  have hTime : u32At (header h) 68 = h.time := by
    refine Eq.trans ?_ (u32At_append
      (i32 h.version ++ h.prevBlockhash.val ++ h.merkleRoot.val) (u32 h.bits ++ u32 h.nonce) h.time
      68 (by simp))
    simp [header, append_assoc]
  have hBits : u32At (header h) 72 = h.bits := by
    refine Eq.trans ?_ (u32At_append
      (i32 h.version ++ h.prevBlockhash.val ++ h.merkleRoot.val ++ u32 h.time) (u32 h.nonce) h.bits
      72 (by simp))
    simp [header, append_assoc]
  have hNonce : u32At (header h) 76 = h.nonce := by
    refine Eq.trans ?_ (u32At_append
      (i32 h.version ++ h.prevBlockhash.val ++ h.merkleRoot.val ++ u32 h.time ++ u32 h.bits) []
      h.nonce 76 (by simp))
    simp [header, append_assoc]
  have hPrevTaken : ((header h).drop 4).take 32 = h.prevBlockhash.val := by
    refine Eq.trans ?_ (take_drop_append (i32 h.version)
      (h.merkleRoot.val ++ u32 h.time ++ u32 h.bits ++ u32 h.nonce) h.prevBlockhash 4 (by simp))
    simp [header, append_assoc]
  have hRootTaken : ((header h).drop 36).take 32 = h.merkleRoot.val := by
    refine Eq.trans ?_ (take_drop_append (i32 h.version ++ h.prevBlockhash.val)
      (u32 h.time ++ u32 h.bits ++ u32 h.nonce)
      h.merkleRoot 36 (by simp))
    simp [header, append_assoc]
  unfold parseHeader
  rw [dif_pos (length_header h)]
  simp only [hVer, hTime, hBits, hNonce, hPrevTaken, hRootTaken, Subtype.coe_eta]
  rfl

end Encoding

--------
-- An Instance
--------

/-
  Hash functions and signature checks. Keys, signatures and scalars are the bytes they are parsed
  from.
-/
structure Crypto where
  sha256 : Bytes → Hash32
  sha1 : Bytes → FixedBytes 20
  ripemd160 : Bytes → FixedBytes 20
  tapLeafHash : Bytes → Hash32
  tapNodeHash : Bytes → Hash32
  tapTweakHash : Bytes → Hash32
  tapSighash : Bytes → Hash32
  isPublicKey : Bytes → Bool
  isEcdsaSignature : Bytes → Bool
  normalizeS : Bytes → Bytes
  verifyEcdsa : Hash32 → Bytes → Bytes → Bool
  isXOnlyKey : Hash32 → Bool
  verifySchnorr : FixedBytes 64 → Hash32 → Hash32 → Bool
  isScalar : Hash32 → Bool
  tweakAddCheck : Hash32 → Hash32 → Bool → Hash32 → Bool

namespace Crypto

/- The 32 bytes of a number, most significant first. -/
def hash32 (n : Nat) : Hash32 :=
  ⟨(LittleEndian.encode 32 n).reverse, length_reverse_encode n⟩

/- A hash function given by its values on some inputs. -/
def ofTable (table : List (Bytes × Hash32)) (bytes : Bytes) : Hash32 :=
  (table.lookup bytes).getD (FixedBytes.zero 32)

/- A hash function given by its value on one input. -/
def ofValue (input : Bytes) (digest : Hash32) (bytes : Bytes) : Hash32 :=
  if bytes = input then digest else FixedBytes.zero 32

theorem ofValue_self (input : Bytes) (digest : Hash32) : ofValue input digest input = digest := by
  simp [ofValue]

/-
  A hash function given by its values, with the rest of the crates silent: nothing parses and
  nothing verifies.
-/
def ofSha256 (table : List (Bytes × Hash32)) : Crypto where
  sha256 := ofTable table
  sha1 := fun _ => FixedBytes.zero 20
  ripemd160 := fun _ => FixedBytes.zero 20
  tapLeafHash := fun _ => FixedBytes.zero 32
  tapNodeHash := fun _ => FixedBytes.zero 32
  tapTweakHash := fun _ => FixedBytes.zero 32
  tapSighash := fun _ => FixedBytes.zero 32
  isPublicKey := fun _ => false
  isEcdsaSignature := fun _ => false
  normalizeS := id
  verifyEcdsa := fun _ _ _ => false
  isXOnlyKey := fun _ => false
  verifySchnorr := fun _ _ _ => false
  isScalar := fun _ => false
  tweakAddCheck := fun _ _ _ _ => false

/- The first coinbase, the same on every network. -/
def genesisCoinbase : Transaction where
  version := 1
  lockTime := 0
  input := [{
    previousOutput := ⟨FixedBytes.zero 32, 0xffffffff⟩
    scriptSig :=
      (LittleEndian.encode 77
        0x04ffff001d0104455468652054696d65732030332f4a616e2f32303039204368616e63656c6c6f72206f6e206272696e6b206f66207365636f6e64206261696c6f757420666f722062616e6b73).reverse
    sequence := 0xffffffff
    witness := [] }]
  output := [{
    value := 5000000000
    scriptPubkey :=
      [0x41] ++ (LittleEndian.encode 65
        0x04678afdb0fe5548271967f1a67130b7105cd6a828e03909a67962e0ea1f61deb649f6bc3f4cef38c4f35504e51ec112de5c384df7ba0b8d578a4c702b6bf11d5f).reverse ++ [0xac] }]

/- The header of a first block. -/
def genesisHeader (time bits nonce : UInt32) : Header where
  version := 1
  prevBlockhash := FixedBytes.zero 32
  merkleRoot := hash32 0x3ba3edfd7a7b12b27ac72c3e67768f617fc81bc3888a51323a9fb8aa4b1e5e4a
  time := time
  bits := bits
  nonce := nonce

def genesisBlock (network : Network) : Block where
  header :=
    match network with
    | .bitcoin =>
      genesisHeader 1231006505 0x1d00ffff 2083236893
    | .signet => genesisHeader 1598918400 0x1e0377ae 52613770
    | .regtest => genesisHeader 1296688602 0x207fffff 2
  txdata := [genesisCoinbase]

/- The crates below the node, over these functions. -/
def primitives (c : Crypto) : Primitives where
  sha256 := c.sha256
  sha1 := c.sha1
  ripemd160 := c.ripemd160
  tapLeafHash := c.tapLeafHash
  tapNodeHash := c.tapNodeHash
  tapTweakHash := c.tapTweakHash
  tapSighash := c.tapSighash
  PublicKey := Bytes
  EcdsaSignature := Bytes
  XOnlyPublicKey := Hash32
  SchnorrSignature := FixedBytes 64
  Scalar := Hash32
  publicKeyFromSlice := Option.guard c.isPublicKey
  ecdsaFromDerLax := Option.guard c.isEcdsaSignature
  normalizeS := c.normalizeS
  verifyEcdsa := c.verifyEcdsa
  xOnlyFromSlice := Option.guard c.isXOnlyKey
  schnorrFromSlice := some
  verifySchnorr := c.verifySchnorr
  scalarFromBeBytes := Option.guard c.isScalar
  tweakAddCheck := c.tweakAddCheck
  encodeVersion := Encoding.i32
  encodeVarInt := Encoding.compactSize
  encodeOutPoint := Encoding.outPoint
  encodeSequence := Encoding.u32
  encodeAmount := Encoding.amount
  encodeScript := Encoding.script
  encodeTxOut := Encoding.txOut
  encodeLockTime := Encoding.u32
  encodeU32 := Encoding.u32
  serializeHeader := Encoding.header
  deserializeHeader := Encoding.parseHeader
  serializeTx := Encoding.tx
  serializeTxBase := Encoding.txBase
  genesisBlock := genesisBlock
  schnorrFromSlice_isSome := fun _ => rfl
  encodeVersion_ne_nil := fun _ => by
    simp [Encoding.i32, Encoding.u32, LittleEndian.encode]
  encodeVarInt_ne_nil := Encoding.compactSize_ne_nil
  encodeOutPoint_ne_nil := fun _ => by
    simp [Encoding.outPoint, Encoding.u32, LittleEndian.encode]
  encodeSequence_ne_nil := fun _ => by
    simp [Encoding.u32, LittleEndian.encode]
  encodeAmount_ne_nil := fun _ => by
    simp [Encoding.amount, LittleEndian.encode]
  encodeScript_ne_nil := fun _ => by
    simp [Encoding.script, Encoding.compactSize_ne_nil]
  encodeTxOut_ne_nil := fun _ => by
    simp [Encoding.txOut, Encoding.amount, LittleEndian.encode]
  encodeLockTime_ne_nil := fun _ => by
    simp [Encoding.u32, LittleEndian.encode]
  encodeU32_ne_nil := fun _ => by
    simp [Encoding.u32, LittleEndian.encode]
  length_encodeVarInt_le := Encoding.length_compactSize_le
  length_input_le := Encoding.length_input_le
  length_witness_le := fun t input hInput => by
    rw [← Encoding.length_witness]
    exact Encoding.length_witness_le t input hInput
  length_serializeHeader := Encoding.length_header
  deserialize_serializeHeader := Encoding.parseHeader_header

@[simp] theorem primitives_serializeTx (c : Crypto) (t : Transaction) :
    c.primitives.serializeTx t = Encoding.tx t := rfl

@[simp] theorem primitives_serializeTxBase (c : Crypto) (t : Transaction) :
    c.primitives.serializeTxBase t = Encoding.txBase t := rfl

@[simp] theorem primitives_tapLeafHash (c : Crypto) :
    c.primitives.tapLeafHash = c.tapLeafHash := rfl

@[simp] theorem primitives_encodeVarInt (c : Crypto) (n : Nat) :
    c.primitives.encodeVarInt n = Encoding.compactSize n := rfl

end Crypto

end Bitmigo
