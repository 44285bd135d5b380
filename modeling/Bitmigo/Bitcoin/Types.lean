import Mathlib.Data.List.Basic

/-
  The data every part of the node shares: byte strings, fixed-size hashes, transactions, headers and
  blocks, with the integer widths the source gives them.

  Key definitions include:
    * `Bytes` and `FixedBytes`
    * `OutPoint`, `TxIn`, `TxOut` and `Transaction`
    * `Header` and `Block`
-/

namespace Bitmigo

--------
-- Bytes
--------

/- A byte string: `Vec<u8>` or `&[u8]`. -/
abbrev Bytes := List UInt8

/- A byte array of a fixed size: `[u8; n]`. -/
abbrev FixedBytes (n : Nat) :=
  { bytes : Bytes // bytes.length = n }

/- A 32-byte digest, in the order the hash function emits. -/
abbrev Hash32 := FixedBytes 32

namespace FixedBytes

variable {n : Nat}

/- The array of zeros. -/
def zero (n : Nat) : FixedBytes n :=
  ⟨List.replicate n 0, by simp⟩

/- The array with these bytes, if there are `n` of them. -/
def ofBytes? (n : Nat) (bytes : Bytes) : Option (FixedBytes n) :=
  if h : bytes.length = n then some ⟨bytes, h⟩ else none

@[simp] theorem length_val (b : FixedBytes n) : b.val.length = n :=
  b.property

@[simp] theorem ofBytes?_val (b : FixedBytes n) : ofBytes? n b.val = some b := by
  simp [ofBytes?]

theorem ofBytes?_eq_some {bytes : Bytes} {b : FixedBytes n} :
    ofBytes? n bytes = some b ↔ b.val = bytes := by
  unfold ofBytes?
  split
  · simp [Subtype.ext_iff, eq_comm]
  · rename_i hLen
    simp only [reduceCtorEq, false_iff]
    rintro rfl
    exact hLen b.property

end FixedBytes

/- `bytes.get(start..stop)`: nothing when out of range. -/
def getRange? (bytes : Bytes) (start stop : Nat) : Option Bytes :=
  if start ≤ stop ∧ stop ≤ bytes.length then
    some ((bytes.take stop).drop start)
  else
    none

theorem getRange?_eq_some {bytes range : Bytes} {start stop : Nat} :
    getRange? bytes start stop = some range ↔
      start ≤ stop ∧ stop ≤ bytes.length ∧ (bytes.take stop).drop start = range := by
  unfold getRange?
  split
  · rename_i hInside
    simp [hInside]
  · rename_i hOutside
    simp only [reduceCtorEq, false_iff]
    rintro ⟨hStart, hStop, _⟩
    exact hOutside ⟨hStart, hStop⟩

/- The range between two of the parts of some bytes. -/
theorem getRange?_append (front range back : Bytes) :
    getRange? (front ++ range ++ back) front.length (front ++ range).length = some range := by
  rw [getRange?_eq_some]
  refine ⟨by simp, by simp, ?_⟩
  rw [List.take_left, List.drop_left]

theorem length_of_getRange? {bytes range : Bytes} {start stop : Nat}
    (hRange : getRange? bytes start stop = some range) : range.length = stop - start := by
  rcases getRange?_eq_some.mp hRange with ⟨_, hStop, rfl⟩
  simp [Nat.min_eq_left hStop]

--------
-- Transactions
--------

/- A transaction id: the hash of the serialization. -/
abbrev Txid := Hash32

/- A reference to one output of one transaction. -/
structure OutPoint where
  txid : Txid
  vout : UInt32
  deriving DecidableEq

/- A script, as bytes. -/
abbrev Script := Bytes

/- The witness items of one input. -/
abbrev Witness := List Bytes

structure TxIn where
  previousOutput : OutPoint
  scriptSig : Script
  sequence : UInt32
  witness : Witness
  deriving DecidableEq

structure TxOut where
  value : UInt64
  scriptPubkey : Script
  deriving DecidableEq

structure Transaction where
  version : Int32
  lockTime : UInt32
  input : List TxIn
  output : List TxOut
  deriving DecidableEq

/- The outpoint a coinbase spends. -/
def OutPoint.null : OutPoint where
  txid := FixedBytes.zero 32
  vout := 0xffffffff

/- One input, which spends the null outpoint. -/
def Transaction.isCoinbase (tx : Transaction) : Bool :=
  tx.input.map (·.previousOutput) = [OutPoint.null]

/- The transaction as its id hashes it. -/
def Transaction.withoutWitness (tx : Transaction) : Transaction :=
  { tx with
    input := tx.input.map fun input =>
      { input with witness := [] } }

/- `TxOut::NULL`: value minus one and an empty script. -/
def TxOut.null : TxOut where
  value := 0xffffffffffffffff
  scriptPubkey := []

--------
-- Blocks
--------

/- A block hash: the hash of the 80-byte header. -/
abbrev BlockHash := Hash32

structure Header where
  version : Int32
  prevBlockhash : BlockHash
  merkleRoot : Hash32
  time : UInt32
  bits : UInt32
  nonce : UInt32
  deriving DecidableEq

structure Block where
  header : Header
  txdata : List Transaction
  deriving DecidableEq

/- The networks the node has parameters for. -/
inductive Network where
  | bitcoin
  | signet
  | regtest
  deriving DecidableEq

end Bitmigo
