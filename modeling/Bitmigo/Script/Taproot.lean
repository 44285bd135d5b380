import Bitmigo.Script.Sighash

/-
  The taproot commitment: what a control block says, and whether the output key agrees with it.

  Key definitions include:
    * `ControlBlock` and `ControlBlock.parse`
    * `tapleafHash`, `taprootMerkleRoot` and `tapTweak`
    * `verifyTaprootCommitment`
    * `validationWeight`

  The parser admits whole path nodes only, at most 128 of them, and masks the parity bit out of the
  leaf version; a `ControlBlock` carries those facts.
-/

namespace Bitmigo

open Result

variable (K : Primitives)

def taprootControlBaseSize : Nat := 33
def taprootControlNodeSize : Nat := 32
def taprootControlMaxNodeCount : Nat := 128
def taprootControlMaxSize : Nat :=
  taprootControlBaseSize + taprootControlNodeSize * taprootControlMaxNodeCount
def taprootLeafMask : UInt8 := 0xfe
def taprootLeafTapscript : UInt8 := 0xc0
def validationWeightOffset : Int := 50

--------
-- Control Blocks
--------

/- The control block of a script-path spend. -/
structure ControlBlock where
  leafVersion : UInt8
  outputParityOdd : Bool
  internalKey : Hash32
  path : Bytes
  leafVersion_even : leafVersion &&& 1 = 0
  path_whole : path.length % taprootControlNodeSize = 0
  path_le : path.length ≤ taprootControlNodeSize * taprootControlMaxNodeCount

theorem leafVersion_masked (first : UInt8) : (first &&& taprootLeafMask) &&& 1 = 0 := by
  rw [UInt8.and_assoc]
  exact UInt8.and_zero

/- Parse a control block of `33 + 32 m` bytes, `m ≤ 128`. -/
def ControlBlock.parse (bytes : Bytes) : Result ScriptError ControlBlock :=
  if hSize :
      taprootControlBaseSize ≤ bytes.length ∧
        bytes.length ≤ taprootControlMaxSize ∧
        (bytes.length - taprootControlBaseSize) % taprootControlNodeSize = 0 then
    match bytes with
    | [] => panicked
    | first :: rest =>
      if hKey : 32 ≤ rest.length then
        .ok {
          leafVersion := first &&& taprootLeafMask
          outputParityOdd := first &&& 1 == 1
          internalKey := ⟨rest.take 32, by simp [hKey]⟩
          path := rest.drop 32
          leafVersion_even := leafVersion_masked first
          path_whole := by
            have := hSize.2.2
            simpa [taprootControlBaseSize] using this
          path_le := by
            have := hSize.2.1
            simp [taprootControlMaxSize, taprootControlBaseSize] at this ⊢
            omega }
      else
        panicked
  else
    Result.fail .taprootWrongControlSize

theorem ControlBlock.parse_safe (bytes : Bytes) : (parse bytes).Safe (fun _ => True) := by
  unfold parse
  split
  case isTrue hSize =>
    cases bytes with
    | nil => simp [taprootControlBaseSize] at hSize
    | cons first rest =>
      have hKey : 32 ≤ rest.length := by
        have := hSize.1
        simp [taprootControlBaseSize] at this
        omega
      simp [hKey]
  case isFalse => trivial

/- How many nodes the path has. -/
def ControlBlock.pathLen (control : ControlBlock) : Result ScriptError Nat := do
  assert (control.path.length % taprootControlNodeSize = 0)
  return control.path.length / taprootControlNodeSize

--------
-- The Commitment
--------

/- The tagged hash of a leaf. -/
def tapleafHash (leafVersion : UInt8) (script : Script) : Result ScriptError Hash32 := do
  assert (leafVersion &&& 1 = 0)
  let len ← encode (K.encodeVarInt script.length)
  return K.tapLeafHash ([leafVersion] ++ len ++ script)

/- The first `count` nodes of a path. -/
def pathNodes (count : Nat) (path : Bytes) : List Hash32 :=
  match count with
  | 0 => []
  | count + 1 =>
    match FixedBytes.ofBytes? 32 (path.take 32) with
    | none => []
    | some node => node :: pathNodes count (path.drop 32)

/- The hash of two nodes, the smaller first. -/
def tapBranch (node sibling : Hash32) : Hash32 :=
  if node.val < sibling.val then
    K.tapNodeHash (node.val ++ sibling.val)
  else
    K.tapNodeHash (sibling.val ++ node.val)

/- The root of the tree, from the leaf upward. -/
def taprootMerkleRoot (control : ControlBlock) (leafHash : Hash32) : Result ScriptError Hash32 := do
  let pathLen ← control.pathLen
  assert (pathLen ≤ taprootControlMaxNodeCount)
  let nodeCount := control.path.length / taprootControlNodeSize
  assert (control.path.drop (taprootControlNodeSize * nodeCount) = [])
  return (pathNodes nodeCount control.path).foldl (tapBranch K) leafHash

def tapTweak (internalKey merkleRoot : Hash32) : Hash32 :=
  K.tapTweakHash (internalKey.val ++ merkleRoot.val)

/- Is the output key the internal key tweaked by the root? -/
def verifyTaprootCommitment (control : ControlBlock) (outputKey leafHash : Hash32) :
    Result ScriptError Bool :=
  match K.xOnlyFromSlice control.internalKey with
  | none => .ok false
  | some internalKey =>
    match K.xOnlyFromSlice outputKey with
    | none => .ok false
    | some outputKey => do
        let merkleRoot ← taprootMerkleRoot K control leafHash
        match K.scalarFromBeBytes (tapTweak K control.internalKey merkleRoot) with
        | none => return false
        | some tweak =>
          return K.tweakAddCheck internalKey outputKey control.outputParityOdd tweak

theorem tapleafHash_safe {leafVersion : UInt8} (hEven : leafVersion &&& 1 = 0) (script : Script) :
    (tapleafHash K leafVersion script).Safe (fun _ => True) := by
  simp [tapleafHash, hEven, encode_of_ne_nil (K.encodeVarInt_ne_nil _)]

theorem taprootMerkleRoot_safe (control : ControlBlock) (leafHash : Hash32) :
    (taprootMerkleRoot K control leafHash).Safe (fun _ => True) := by
  have hWhole := control.path_whole
  have hLe := control.path_le
  simp only [taprootMerkleRoot, ControlBlock.pathLen,
    safe_bind, safe_assert, control.path_whole, true_and, pure_eq_ok,
    safe_ok, List.drop_eq_nil_iff, and_true]
  simp only [taprootControlNodeSize, taprootControlMaxNodeCount] at *
  omega

theorem verifyTaprootCommitment_safe (control : ControlBlock) (outputKey leafHash : Hash32) :
    (verifyTaprootCommitment K control outputKey leafHash).Safe (fun _ => True) := by
  unfold verifyTaprootCommitment
  split
  · trivial
  · split
    · trivial
    · refine (taprootMerkleRoot_safe K control leafHash).bind ?_
      intro merkleRoot _
      split <;> trivial

--------
-- The Sigop Budget
--------

/- The serialized size of a witness. -/
def witnessSerializedSize (witness : Witness) : Result ScriptError Nat := do
  let size := K.varIntSize witness.length +
    (witness.map fun item => K.varIntSize item.length + item.length).sum
  assert (1 ≤ size)
  return size

/- The budget a tapscript starts with. -/
def validationWeight (witness : Witness) : Result ScriptError Int := do
  let size ← witnessSerializedSize K witness
  -- The size is converted to an `i64`.
  assert (size < 2 ^ 63)
  assert (1 ≤ size)
  return validationWeightOffset + size

theorem one_le_varIntSize (n : Nat) : 1 ≤ K.varIntSize n :=
  List.length_pos_iff.mpr (K.encodeVarInt_ne_nil n)

theorem validationWeight_safe {witness : Witness}
    (hSize : K.varIntSize witness.length + (witness.map fun item =>
      K.varIntSize item.length + item.length).sum < 2 ^ 63) :
    (validationWeight K witness).Safe (fun weight => 0 ≤ weight) := by
  have hOne := one_le_varIntSize K witness.length
  simp only [validationWeight, witnessSerializedSize,
    safe_bind, safe_assert, pure_eq_ok, safe_ok, validationWeightOffset]
  omega

end Bitmigo
