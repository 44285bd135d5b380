import Bitmigo.Bitcoin.Delimited
import Bitmigo.Lib.LeafTree
import Bitmigo.Script.Taproot

/-
  Which scripts a taproot output can be spent with: the leaves of the tree it commits to, and no
  others.

  Key definitions include:
    * `TapLeaf` and `tapRoot`, the tree as BIP341 hashes it
    * `controlBytes`, the control block of an occurrence of a leaf
    * `TapTree.NoCollision`

  Key theorems include:
    * `parse_controlBytes`
    * `taprootMerkleRoot_eq`
    * `tapTree_proves_leaves`
-/

namespace Bitmigo

open Result List FixedBytes Crypto

variable (K : Primitives) {version : UInt8}

--------
-- The Tree
--------

/- A script under an even leaf version. -/
structure TapLeaf where
  version : UInt8
  script : Script
  version_even : version &&& 1 = 0

/- The string a leaf is hashed from. -/
def leafString (version : UInt8) (script : Script) : Bytes :=
  version :: (K.encodeVarInt script.length ++ script)

def TapLeaf.hash (leaf : TapLeaf) : Hash32 :=
  K.tapLeafHash (leafString K leaf.version leaf.script)

/- Two digests in ascending order. -/
def ascending (a b : Hash32) : Bytes :=
  if a.val ≤ b.val then a.val ++ b.val else b.val ++ a.val

def branchHash (a b : Hash32) : Hash32 :=
  K.tapNodeHash (ascending a b)

/- The root of a tree of leaves. -/
def tapRoot (tree : LeafTree TapLeaf) : Hash32 :=
  tree.root (TapLeaf.hash K) (branchHash K)

/- An occurrence of a leaf and the siblings above it. -/
def TapOpens (tree : LeafTree TapLeaf) (leaf : TapLeaf) (siblings : List Hash32) : Prop :=
  LeafTree.Opens (TapLeaf.hash K) (branchHash K) tree leaf siblings

theorem ascending_comm (a b : Hash32) : ascending a b = ascending b a := by
  unfold ascending
  by_cases hLe : a.val ≤ b.val
  · by_cases hGe : b.val ≤ a.val
    · rw [if_pos hLe, if_pos hGe, List.le_antisymm hLe hGe]
    · rw [if_pos hLe, if_neg hGe]
  · have hGe : b.val ≤ a.val := List.le_of_lt (not_not.mp hLe)
    rw [if_neg hLe, if_pos hGe]

/- Both digests are read off, up to their order. -/
theorem ascending_inj {a b c d : Hash32} (hEq : ascending a b = ascending c d) :
    (a = c ∧ b = d) ∨ (a = d ∧ b = c) := by
  unfold ascending at hEq
  split at hEq <;> split at hEq
  · exact Or.inl (pair_inj hEq)
  · exact Or.inr (pair_inj hEq)
  · rcases pair_inj hEq with ⟨hB, hA⟩
    exact Or.inr ⟨hA, hB⟩
  · rcases pair_inj hEq with ⟨hB, hA⟩
    exact Or.inl ⟨hA, hB⟩

theorem tapBranch_eq (a b : Hash32) : tapBranch K a b = branchHash K a b := by
  unfold tapBranch branchHash
  split
  case isTrue hLt =>
    rw [ascending, if_pos (List.le_of_lt hLt)]
  case isFalse hGe =>
    have hLe : b.val ≤ a.val := hGe
    rw [ascending_comm, ascending, if_pos hLe]

--------
-- Control Blocks
--------

/- The nodes of the path. -/
def ControlBlock.siblings (control : ControlBlock) : List Hash32 :=
  pathNodes (control.path.length / taprootControlNodeSize) control.path

/- The bytes of a control block for these siblings. -/
def controlBytes
    (version : UInt8) (parityOdd : Bool) (internalKey : Hash32) (siblings : List Hash32) :
    Bytes :=
  (version ||| if parityOdd then 1 else 0) :: (internalKey.val ++ (siblings.map (·.val)).flatten)

/- The root a control block leads to. -/
theorem taprootMerkleRoot_eq (control : ControlBlock) (leafHash : Hash32) :
    taprootMerkleRoot K control leafHash =
      .ok (control.siblings.foldl (branchHash K) leafHash) := by
  have hSafe := taprootMerkleRoot_safe K control leafHash
  have hBranch : tapBranch K = branchHash K := by
    funext a b
    exact tapBranch_eq K a b
  simp only [taprootMerkleRoot, ControlBlock.pathLen, safe_bind, safe_assert] at hSafe
  rcases hSafe with ⟨hWhole, hCount, hRest, _⟩
  rw [taprootMerkleRoot, ControlBlock.pathLen, assert_of hWhole, ok_bind,
    pure_eq_ok, ok_bind, assert_of hCount, ok_bind]
  dsimp only
  rw [assert_of hRest, ok_bind, hBranch]
  rfl

theorem pathNodes_flatten (siblings : List Hash32) :
    pathNodes siblings.length (siblings.map (·.val)).flatten = siblings := by
  induction siblings with
  | nil => rfl
  | cons sibling siblings ih =>
    have hTake : (sibling.val ++ (siblings.map (·.val)).flatten).take 32 = sibling.val := by
      rw [take_append_of_le_length (by simp)]
      exact take_of_length_le (by simp)
    have hDrop :
        (sibling.val ++ (siblings.map (·.val)).flatten).drop 32 = (siblings.map (·.val)).flatten :=
      drop_left' sibling.property
    simp only [map_cons, flatten_cons, length_cons, pathNodes, hTake, hDrop, ofBytes?_val, ih]

theorem length_flatten_siblings (siblings : List Hash32) :
    (siblings.map (·.val)).flatten.length = taprootControlNodeSize * siblings.length := by
  induction siblings with
  | nil => rfl
  | cons sibling siblings ih =>
    simp only [map_cons, flatten_cons, length_append, length_val, ih,
      length_cons, taprootControlNodeSize]
    omega

/- The parity bit is masked out of an even version. -/
theorem masked_version (hEven : version &&& 1 = 0) (parityOdd : Bool) :
    (version ||| if parityOdd then 1 else 0) &&& taprootLeafMask = version := by
  have hAll : ∀ n : Fin 256, ∀ odd : Bool, UInt8.ofFin n &&& 1 = 0 →
      (UInt8.ofFin n ||| if odd then 1 else 0) &&& taprootLeafMask = UInt8.ofFin n := by
    decide +kernel
  exact hAll version.toFin parityOdd hEven

/- What a block of whole nodes parses to. -/
theorem ControlBlock.parse_nodes (first : UInt8) {rest : Bytes} {count : Nat}
    (hRest : rest.length = 32 + taprootControlNodeSize * count)
    (hCount : count ≤ taprootControlMaxNodeCount) :
    ∃ control, parse (first :: rest) = .ok control ∧
      control.leafVersion = first &&& taprootLeafMask ∧ control.internalKey.val = rest.take 32 ∧
      control.path = rest.drop 32 := by
  have hSize : taprootControlBaseSize ≤ (first :: rest).length ∧
      (first :: rest).length ≤ taprootControlMaxSize ∧
      ((first :: rest).length - taprootControlBaseSize) % taprootControlNodeSize = 0 := by
    simp only [length_cons, hRest, taprootControlMaxSize,
      taprootControlBaseSize, taprootControlNodeSize, taprootControlMaxNodeCount] at *
    omega
  have hKey : 32 ≤ rest.length := by omega
  unfold parse
  rw [dif_pos hSize]
  dsimp only
  rw [dif_pos hKey]
  exact ⟨_, rfl, rfl, rfl, rfl⟩

/- The control block of up to 128 siblings is well formed. -/
theorem parse_controlBytes (hEven : version &&& 1 = 0)
    (parityOdd : Bool) (internalKey : Hash32) {siblings : List Hash32}
    (hLen : siblings.length ≤ taprootControlMaxNodeCount) :
    ∃ control,
      ControlBlock.parse (controlBytes version parityOdd internalKey siblings) = .ok control ∧
        control.leafVersion = version ∧ control.internalKey = internalKey ∧
        control.siblings = siblings := by
  have hPath := length_flatten_siblings siblings
  have hRest : (internalKey.val ++
      (siblings.map (·.val)).flatten).length = 32 + taprootControlNodeSize * siblings.length := by
    rw [length_append, internalKey.property, hPath]
  rcases ControlBlock.parse_nodes (version ||| if parityOdd then 1 else 0) hRest hLen
    with ⟨control, hParse, hVer, hKey, hNodes⟩
  rw [masked_version hEven parityOdd] at hVer
  rw [take_left' internalKey.property] at hKey
  rw [drop_left' internalKey.property] at hNodes
  refine ⟨control, hParse, hVer, Subtype.ext hKey, ?_⟩
  have hCount : control.path.length / taprootControlNodeSize = siblings.length := by
    rw [hNodes, hPath]
    exact Nat.mul_div_cancel_left _ (by decide)
  rw [ControlBlock.siblings, hCount, hNodes, pathNodes_flatten]

--------
-- Only the Leaves
--------

/- The strings of the tree's leaves and of the claimed one. -/
def leafStrings (tree : LeafTree TapLeaf) (version : UInt8) (script : Script) : List Bytes :=
  leafString K version script ::
    tree.leaves.map fun leaf =>
      leafString K leaf.version leaf.script

/- The pairs hashed in the tree and on the claimed path. -/
def branchPairs
    (tree : LeafTree TapLeaf) (version : UInt8) (script : Script) (siblings : List Hash32) :
    List (Hash32 × Hash32) :=
  tree.pairs (TapLeaf.hash K) (branchHash K) ++
    LeafTree.climbPairs (branchHash K) (K.tapLeafHash (leafString K version script)) siblings

/-
  Among the strings hashed for the tree and for the claim, no two leaves and no two branches have
  one hash, and no leaf and branch do; and the sizes of the scripts are told apart.
-/
structure TapTree.NoCollision
    (tree : LeafTree TapLeaf) (version : UInt8) (script : Script) (siblings : List Hash32) :
    Prop where
  size : SelfDelimitingOn K.encodeVarInt
      { n | n = script.length ∨ ∃ leaf ∈ tree.leaves, n = leaf.script.length }
  leaf : Set.InjOn K.tapLeafHash { bytes | bytes ∈ leafStrings K tree version script }
  branch : Set.InjOn K.tapNodeHash
      { bytes | ∃ p ∈ branchPairs K tree version script siblings, bytes = ascending p.1 p.2 }
  apart : ∀ bytes ∈ leafStrings K tree version script,
      ∀ p ∈ branchPairs K tree version script siblings,
        K.tapLeafHash bytes ≠ K.tapNodeHash (ascending p.1 p.2)

theorem leafString_inj {sizes : Set Nat} (hSize : SelfDelimitingOn K.encodeVarInt sizes)
    {version' : UInt8} {script script' : Script} (hScript : script.length ∈ sizes)
    (hScript' : script'.length ∈ sizes)
    (hEq : leafString K version script = leafString K version' script') :
    version = version' ∧ script = script' := by
  rcases List.cons.inj hEq with ⟨hVer, hRest⟩
  rcases hSize.prefixed script hScript script' hScript' [] []
    (by simpa using hRest) with ⟨hScripts, _⟩
  exact ⟨hVer, hScripts⟩

theorem tapleafHash_eq_ok {script : Script} {leafHash : Hash32}
    (hHash : tapleafHash K version script = .ok leafHash) :
    version &&& 1 = 0 ∧ leafHash = K.tapLeafHash (leafString K version script) := by
  simp only [tapleafHash, bind_eq_ok, assert_eq_ok, encode_of_ne_nil (K.encodeVarInt_ne_nil _),
    ok_bind, pure_inj]
    at hHash
  rcases hHash with ⟨_, hEven, rfl⟩
  exact ⟨hEven, rfl⟩

theorem TapTree.NoCollision.distinguishes
    {K : Primitives} {tree : LeafTree TapLeaf} {leaf : TapLeaf} {siblings : List Hash32}
    (hApart : TapTree.NoCollision K tree leaf.version leaf.script siblings) :
    LeafTree.Distinguishes (TapLeaf.hash K) (branchHash K)
      { other | other = leaf ∨ other ∈ tree.leaves }
      { p | p ∈ branchPairs K tree leaf.version leaf.script siblings } := by
  have hMem (other : TapLeaf) (hOther : other = leaf ∨ other ∈ tree.leaves) :
      leafString K other.version other.script ∈ leafStrings K tree leaf.version leaf.script := by
    rcases hOther with rfl | hOther
    · exact mem_cons_self
    · exact mem_cons_of_mem _ (mem_map_of_mem hOther)
  have hSized (other : TapLeaf) (hOther : other = leaf ∨ other ∈ tree.leaves) :
      other.script.length = leaf.script.length ∨
        ∃ found ∈ tree.leaves, other.script.length = found.script.length := by
    rcases hOther with rfl | hOther
    · exact Or.inl rfl
    · exact Or.inr ⟨other, hOther, rfl⟩
  constructor
  case leaf =>
    intro a hA b hB hEq
    rcases leafString_inj K hApart.size (hSized a hA) (hSized b hB)
      (hApart.leaf (hMem a hA) (hMem b hB) hEq) with
      ⟨hVer, hScript⟩
    cases a
    cases b
    simp_all
  case node =>
    rintro ⟨a, b⟩ hP ⟨c, d⟩ hQ hEq
    have hString := hApart.branch ⟨_, hP, rfl⟩ ⟨_, hQ, rfl⟩ hEq
    rcases ascending_inj hString with ⟨rfl, rfl⟩ | ⟨rfl, rfl⟩
    · exact Or.inl rfl
    · exact Or.inr rfl
  case apart =>
    intro a hA p hP
    exact hApart.apart _ (hMem a hA) p hP

/-
  Every occurrence of a leaf is proved by its control block, and a control block that leads to the
  root is that of an occurrence of a leaf.
-/
theorem tapTree_proves_leaves {tree : LeafTree TapLeaf}
    (hDepth : tree.depth ≤ taprootControlMaxNodeCount) :
    (∀ leaf ∈ tree.leaves, ∃ siblings, TapOpens K tree leaf siblings) ∧
    (∀ leaf siblings, TapOpens K tree leaf siblings →
      ∀ parityOdd internalKey, ∃ control leafHash,
        ControlBlock.parse
            (controlBytes leaf.version parityOdd internalKey siblings) = .ok control ∧
          control.leafVersion = leaf.version ∧
          tapleafHash K leaf.version leaf.script = .ok leafHash ∧
          taprootMerkleRoot K control leafHash = .ok (tapRoot K tree)) ∧
    (∀ version script bytes control leafHash,
      ControlBlock.parse bytes = .ok control →
        tapleafHash K version script = .ok leafHash →
        taprootMerkleRoot K control leafHash = .ok (tapRoot K tree) →
        TapTree.NoCollision K tree version script control.siblings →
        ∃ leaf : TapLeaf,
          leaf.version = version ∧ leaf.script = script ∧
            TapOpens K tree leaf control.siblings) := by
  refine ⟨?_, ?_, ?_⟩
  · intro leaf hLeaf
    exact LeafTree.exists_opens hLeaf
  · intro leaf siblings hOpens parityOdd internalKey
    have hLen := Nat.le_trans hOpens.length_le hDepth
    rcases parse_controlBytes leaf.version_even parityOdd internalKey hLen with
      ⟨control, hParse, hVer, _, hSiblings⟩
    refine ⟨control, leaf.hash K, hParse, hVer, ?_, ?_⟩
    · rw [tapleafHash, assert_of leaf.version_even, ok_bind,
        encode_of_ne_nil (K.encodeVarInt_ne_nil _)]
      rfl
    · have hComm (a b : Hash32) : branchHash K a b = branchHash K b a := by
        rw [branchHash, branchHash, ascending_comm]
      rw [taprootMerkleRoot_eq, hSiblings, hOpens.climb_eq hComm]
      rfl
  · intro version script bytes control leafHash _ hHash hRoot hApart
    rcases tapleafHash_eq_ok K hHash with ⟨hEven, rfl⟩
    rw [taprootMerkleRoot_eq] at hRoot
    refine ⟨⟨version, script, hEven⟩, rfl, rfl, ?_⟩
    have hDistinct := @TapTree.NoCollision.distinguishes K tree
      ⟨version, script, hEven⟩ control.siblings hApart
    exact LeafTree.opens_of_climb_eq hDistinct (Or.inl rfl) (fun other hOther => Or.inr hOther)
      (fun p hP => mem_append_left _ hP) (fun p hP => mem_append_right _ hP)
      (Except.ok.inj hRoot)

--------
-- Three Leaves
--------

namespace ThreeLeaves

/- The tapscript leaf with this one opcode. -/
def leaf (opcode : UInt8) : TapLeaf where
  version := taprootLeafTapscript
  script := [opcode]
  version_even := by decide

/- One leaf beside a branch of two. -/
def tree : LeafTree TapLeaf :=
  .node (.leaf (leaf 0x51)) (.node (.leaf (leaf 0x52)) (.leaf (leaf 0x53)))

/- The siblings of the middle leaf. -/
def siblings : List Hash32 :=
  [(leaf 0x53).hash residues.primitives, (leaf 0x51).hash residues.primitives]

theorem noCollision :
    TapTree.NoCollision residues.primitives tree taprootLeafTapscript [0x52] siblings := by
  have hLeaf : ∀ a ∈ leafStrings residues.primitives tree taprootLeafTapscript [0x52],
      ∀ b ∈ leafStrings residues.primitives tree taprootLeafTapscript [0x52],
        residues.tapLeafHash a = residues.tapLeafHash b → a = b := by
    decide +kernel
  have hBranch : ∀ p ∈ branchPairs residues.primitives tree taprootLeafTapscript [0x52] siblings,
      ∀ q ∈ branchPairs residues.primitives tree taprootLeafTapscript [0x52] siblings,
        residues.tapNodeHash (ascending p.1 p.2) = residues.tapNodeHash (ascending q.1 q.2) →
          ascending p.1 p.2 = ascending q.1 q.2 := by
    decide +kernel
  have hApart : ∀ a ∈ leafStrings residues.primitives tree taprootLeafTapscript [0x52],
      ∀ p ∈ branchPairs residues.primitives tree taprootLeafTapscript [0x52] siblings,
        residues.tapLeafHash a ≠ residues.tapNodeHash (ascending p.1 p.2) := by
    decide +kernel
  have hSizes : ∀ found ∈ tree.leaves, found.script.length < 2 ^ 64 := by
    intro found hFound
    simp only [tree, LeafTree.leaves, mem_append, mem_singleton] at hFound
    rcases hFound with rfl | rfl | rfl <;> decide
  constructor
  case size =>
    refine Encoding.selfDelimiting_compactSize.mono ?_
    rintro n (rfl | ⟨found, hFound, rfl⟩)
    · decide
    · exact hSizes found hFound
  case leaf => exact fun a hA b hB hEq => hLeaf a hA b hB hEq
  case branch =>
    rintro _ ⟨p, hP, rfl⟩ _ ⟨q, hQ, rfl⟩ hEq
    exact hBranch p hP q hQ hEq
  case apart => exact fun a hA p hP => hApart a hA p hP

theorem tapTree_proves_leaves_middle :
    ∃ control leafHash,
      ControlBlock.parse
          (controlBytes taprootLeafTapscript true (hash32 5) siblings) = .ok control ∧
        tapleafHash residues.primitives taprootLeafTapscript [0x52] = .ok leafHash ∧
        taprootMerkleRoot residues.primitives control
          leafHash = .ok (tapRoot residues.primitives tree) ∧
        TapOpens residues.primitives tree (leaf 0x52) control.siblings := by
  have hDepth : tree.depth ≤ taprootControlMaxNodeCount := by decide
  rcases parse_controlBytes (show taprootLeafTapscript &&& 1 = 0 by decide) true (hash32 5)
    (show siblings.length ≤ taprootControlMaxNodeCount by
      decide) with ⟨control, hParse, _, _, hSiblings⟩
  have hHash : tapleafHash residues.primitives
        taprootLeafTapscript [0x52] = .ok ((leaf 0x52).hash residues.primitives) := by
    decide +kernel
  have hRoot : taprootMerkleRoot residues.primitives control
        ((leaf 0x52).hash residues.primitives) =
          .ok (tapRoot residues.primitives tree) := by
    rw [taprootMerkleRoot_eq, hSiblings]
    decide +kernel
  rcases (tapTree_proves_leaves residues.primitives
    hDepth).2.2 taprootLeafTapscript [0x52] _ control _ hParse
    hHash hRoot (hSiblings ▸ noCollision) with
    ⟨found, hVer, hScript, hOpens⟩
  refine ⟨control, _, hParse, hHash, hRoot, ?_⟩
  cases found
  cases hVer
  cases hScript
  exact hOpens

end ThreeLeaves

end Bitmigo
