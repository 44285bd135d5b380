import Bitmigo.Bitcoin.Encoding
import Bitmigo.Lib.SelfDelimiting

/-
  Which values the consensus encodings tell apart.

  Key definitions include:
    * `Primitives.Delimits`

  Key theorems include:
    * `Crypto.delimits`, the encodings written out are self-delimiting
    * `Crypto.residue_ne_zero`, a hash for fixed inputs that is never zero

  A script is written after its size, and a size is a `u64`, so the facts about scripts and outputs
  are about given ones: the ones a development speaks of.
-/

namespace Bitmigo

open List LittleEndian

variable {n : Nat}

/- The encodings are injective and self-delimiting, on these scripts, outputs and sizes. -/
structure Primitives.Delimits
    (K : Primitives) (scripts : Set Script) (outputs : Set TxOut) (sizes : Set Nat) :
    Prop where
  version : SelfDelimitingOn K.encodeVersion Set.univ
  outPoint : SelfDelimitingOn K.encodeOutPoint Set.univ
  sequence : SelfDelimitingOn K.encodeSequence Set.univ
  amount : SelfDelimitingOn K.encodeAmount Set.univ
  lockTime : SelfDelimitingOn K.encodeLockTime Set.univ
  u32 : SelfDelimitingOn K.encodeU32 Set.univ
  script : SelfDelimitingOn K.encodeScript scripts
  txOut : SelfDelimitingOn K.encodeTxOut outputs
  varInt : SelfDelimitingOn K.encodeVarInt sizes

/- A fixed-size string is read off the front. -/
theorem FixedBytes.append_inj {a b : FixedBytes n} {rest rest' : Bytes}
    (hEq : a.val ++ rest = b.val ++ rest') : a = b ∧ rest = rest' := by
  have hLen : a.val.length = b.val.length := by simp
  rcases List.append_inj hEq hLen with ⟨hVal, hRest⟩
  exact ⟨Subtype.ext hVal, hRest⟩

theorem FixedBytes.pair_inj {m : Nat} {a c : FixedBytes n} {b d : FixedBytes m}
    (hEq : a.val ++ b.val = c.val ++ d.val) : a = c ∧ b = d := by
  rcases FixedBytes.append_inj hEq with ⟨hFst, hSnd⟩
  exact ⟨hFst, Subtype.ext hSnd⟩

--------
-- The Encodings Written Out
--------

namespace Encoding

/- Words of `len` bytes for the numbers that fit. -/
theorem selfDelimiting_littleEndian (len : Nat) :
    SelfDelimitingOn (LittleEndian.encode len) { n | n < 256 ^ len } := by
  refine SelfDelimitingOn.of_length (n := len) ?_ ?_
  · intro n _
    exact length_encode len n
  · intro n hN m hM hEq
    rw [← decode_encode_of_lt hN, hEq, decode_encode_of_lt hM]

theorem selfDelimiting_u32 : SelfDelimitingOn u32 Set.univ := by
  intro a _ b _ rest rest' hEq
  rcases selfDelimiting_littleEndian 4 a.toNat a.toNat_lt
    b.toNat b.toNat_lt rest rest' hEq with ⟨hNat, hRest⟩
  exact ⟨UInt32.toNat_inj.mp hNat, hRest⟩

theorem selfDelimiting_i32 : SelfDelimitingOn i32 Set.univ := by
  intro a _ b _ rest rest' hEq
  rcases selfDelimiting_u32 _ trivial _ trivial rest rest' hEq with ⟨hUnsigned, hRest⟩
  refine ⟨?_, hRest⟩
  rw [← a.toInt32_toUInt32, hUnsigned, b.toInt32_toUInt32]

theorem selfDelimiting_amount : SelfDelimitingOn amount Set.univ := by
  intro a _ b _ rest rest' hEq
  rcases selfDelimiting_littleEndian 8 a.toNat a.toNat_lt
    b.toNat b.toNat_lt rest rest' hEq with ⟨hNat, hRest⟩
  exact ⟨UInt64.toNat_inj.mp hNat, hRest⟩

theorem selfDelimiting_outPoint : SelfDelimitingOn outPoint Set.univ := by
  intro a _ b _ rest rest' hEq
  simp only [outPoint, append_assoc] at hEq
  rcases FixedBytes.append_inj hEq with ⟨hTxid, hEq'⟩
  rcases selfDelimiting_u32 _ trivial _ trivial rest rest' hEq' with ⟨hVout, hRest⟩
  refine ⟨?_, hRest⟩
  cases a
  cases b
  simp_all

/- The first byte of a compact size. -/
def compactLead (n : Nat) : UInt8 :=
  if n < 0xfd then UInt8.ofNat n
  else if n < 0x10000 then 0xfd
  else if n < 0x100000000 then 0xfe
  else 0xff

/- How many bytes follow it. -/
def compactWidth (lead : UInt8) : Nat :=
  if lead = 0xfd then 2
  else if lead = 0xfe then 4
  else if lead = 0xff then 8
  else 0

/- The number a first byte and the bytes after it stand for. -/
def compactValue (lead : UInt8) (bytes : Bytes) : Nat :=
  if compactWidth lead = 0 then
    lead.toNat
  else
    LittleEndian.decode bytes

theorem compactWidth_ofNat (hSmall : n < 0xfd) :
    compactWidth (UInt8.ofNat n) = 0 ∧ (UInt8.ofNat n).toNat = n := by
  have hToNat : (UInt8.ofNat n).toNat = n := by
    rw [UInt8.toNat_ofNat']
    omega
  have hNe (marker : UInt8) (hMarker : 0xfd ≤ marker.toNat) : UInt8.ofNat n ≠ marker := by
    rintro rfl
    omega
  refine ⟨?_, hToNat⟩
  rw [compactWidth, if_neg (hNe 0xfd (by decide)),
    if_neg (hNe 0xfe (by decide)), if_neg (hNe 0xff (by decide))]

/- What a compact size is made of, and that it is read back. -/
theorem compactSize_eq (hN : n < 2 ^ 64) :
    let lead := compactLead n
    let bytes := LittleEndian.encode (compactWidth lead) n
    compactSize n = lead :: bytes ∧ compactValue lead bytes = n := by
  dsimp only
  unfold compactSize compactLead
  split
  case isTrue hSmall =>
    rcases compactWidth_ofNat hSmall with ⟨hWidth, hToNat⟩
    rw [compactValue, hWidth, if_pos rfl]
    exact ⟨rfl, hToNat⟩
  case isFalse =>
    split
    case isTrue hTwo =>
      exact ⟨rfl, @LittleEndian.decode_encode_of_lt 2 n hTwo⟩
    case isFalse =>
      split
      case isTrue hFour =>
        exact ⟨rfl, @LittleEndian.decode_encode_of_lt 4 n hFour⟩
      case isFalse =>
        exact ⟨rfl, @LittleEndian.decode_encode_of_lt 8 n hN⟩

theorem selfDelimiting_compactSize : SelfDelimitingOn compactSize { n | n < 2 ^ 64 } := by
  intro a hA b hB rest rest' hEq
  rcases compactSize_eq hA with ⟨hFormA, hValueA⟩
  rcases compactSize_eq hB with ⟨hFormB, hValueB⟩
  rw [hFormA, hFormB, cons_append, cons_append, List.cons.injEq] at hEq
  rcases hEq with ⟨hLead, hEq⟩
  have hLen : (LittleEndian.encode (compactWidth (compactLead a)) a).length =
      (LittleEndian.encode (compactWidth (compactLead b)) b).length := by
    rw [length_encode, length_encode, hLead]
  rcases List.append_inj hEq hLen with ⟨hBytes, hRest⟩
  refine ⟨?_, hRest⟩
  rw [← hValueA, hBytes, hLead, hValueB]

theorem selfDelimiting_script : SelfDelimitingOn script { s | s.length < 2 ^ 64 } :=
  selfDelimiting_compactSize.prefixed

theorem selfDelimiting_txOut : SelfDelimitingOn txOut { o | o.scriptPubkey.length < 2 ^ 64 } := by
  have hBoth := SelfDelimitingOn.append TxOut.value TxOut.scriptPubkey selfDelimiting_amount
    selfDelimiting_script (by
      intro c d hValue hScript
      cases c
      cases d
      simp_all)
  refine hBoth.mono ?_
  intro o hO
  exact ⟨trivial, hO⟩

end Encoding

/- The facts hold of the encodings written out. -/
theorem Crypto.delimits (c : Crypto) {scripts : Set Script} {outputs : Set TxOut} {sizes : Set Nat}
    (hScripts : ∀ s ∈ scripts, s.length < 2 ^ 64)
    (hOutputs : ∀ o ∈ outputs, o.scriptPubkey.length < 2 ^ 64) (hSizes : ∀ n ∈ sizes, n < 2 ^ 64) :
    c.primitives.Delimits scripts outputs sizes where
  version := Encoding.selfDelimiting_i32
  outPoint := Encoding.selfDelimiting_outPoint
  sequence := Encoding.selfDelimiting_u32
  amount := Encoding.selfDelimiting_amount
  lockTime := Encoding.selfDelimiting_u32
  u32 := Encoding.selfDelimiting_u32
  script := Encoding.selfDelimiting_script.mono hScripts
  txOut := Encoding.selfDelimiting_txOut.mono hOutputs
  varInt := Encoding.selfDelimiting_compactSize.mono hSizes

--------
-- Residues
--------

namespace Crypto

def residueModulus : Nat := 2 ^ 255 - 19

/- A stand-in for a hash function: one more than the residue of the bytes as a number. -/
def residue (bytes : Bytes) : Hash32 :=
  hash32 (LittleEndian.decode (bytes ++ [1]) % residueModulus + 1)

theorem residue_ne_zero (bytes : Bytes) : residue bytes ≠ FixedBytes.zero 32 := by
  intro hZero
  have hLt : LittleEndian.decode (bytes ++ [1]) % residueModulus < residueModulus :=
    Nat.mod_lt _ (by decide)
  have hFits : LittleEndian.decode (bytes ++ [1]) % residueModulus + 1 < 256 ^ 32 := by
    have hModulus : residueModulus < 256 ^ 32 := by decide
    omega
  have hBytes := congrArg reverse (congrArg Subtype.val hZero)
  have hDecoded := congrArg LittleEndian.decode hBytes
  simp only [residue, hash32, reverse_reverse] at hDecoded
  rw [decode_encode_of_lt hFits] at hDecoded
  have hNone : LittleEndian.decode (FixedBytes.zero 32).val.reverse = 0 := by decide
  omega

/- Every hash is the residue; nothing else parses. -/
def residues : Crypto :=
  { ofSha256 [] with
    sha256 := residue
    tapLeafHash := fun bytes => residue (0 :: bytes)
    tapNodeHash := fun bytes => residue (1 :: bytes)
    tapTweakHash := residue
    tapSighash := residue }

/- An input of the transaction with this number. -/
def spend (n : Nat) : TxIn where
  previousOutput := ⟨hash32 n, 0⟩
  scriptSig := []
  sequence := 5
  witness := []

/- Transactions that share their first input and their first output. -/
def sharing (other : Nat) : Transaction where
  version := 2
  lockTime := 0
  input := [spend 7, spend other]
  output := [⟨40, [0x51]⟩, ⟨9, [UInt8.ofNat other]⟩]

end Crypto

end Bitmigo
