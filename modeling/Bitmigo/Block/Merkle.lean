import Bitmigo.Bitcoin.Encoding
import Bitmigo.Lib.Merkle
import Bitmigo.Lib.Outcome

/-
  The block merkle tree, with its mutation detector.

  Key definitions include:
    * `MerkleRoot` and `merkleRoot`
    * `merklePreimages`, the strings a tree hashes

  Key theorems include:
    * `merkleRoot_eq_ok`, a root is the single entry of some level above the leaves
    * `leaves_eq_of_merkleRoot`, leaves under one root and without mutation are equal, or those of
      one tree are nodes of the other
    * `merkleRoot_detects`, the mutation detector misses no forged list and refuses no honest one
-/

namespace Bitmigo

open Result List Crypto Merkle

variable {ε : Type}

/- A tree over `u32::MAX` leaves has this many levels. -/
def merkleLevelsMax : Nat := 32

structure MerkleRoot where
  root : Hash32
  mutated : Bool

variable {found : MerkleRoot}

variable (K : Primitives)

/- The hash of two siblings, one after the other. -/
def merkleNode (left right : Hash32) : Hash32 :=
  K.sha256d (left.val ++ right.val)

/- The pairs are checked before an odd tail is repeated. -/
def merkleLoop (rounds : Nat) (level : List Hash32) (mutated : Bool) :
    Result ε (List Hash32 × Bool) :=
  match rounds with
  | 0 => .ok (level, mutated)
  | rounds + 1 =>
    if level.length ≤ 1 then
      .ok (level, mutated)
    else do
      let twin :=
        (Merkle.pairs level).any fun pair =>
          pair.1 = pair.2
      let padded := Merkle.padded level
      assert (padded.length % 2 = 0)
      let parents := Merkle.parents (merkleNode K) level
      assert (parents.length * 2 = padded.length)
      merkleLoop rounds parents (mutated || twin)

/- The root, or all zeros for no leaves. -/
def merkleRoot (leaves : List Hash32) : Result ε MerkleRoot := do
  let (level, mutated) ← merkleLoop K (merkleLevelsMax + 1) leaves false
  assert (level.length ≤ 1)
  assert (leaves.length ≤ 1 → mutated = false)
  return { root := level.head?.getD (FixedBytes.zero 32)
           mutated := mutated }

--------
-- The Levels of a Tree
--------

variable {K} {leaves : List Hash32}

/- The leaves reach a level of at most one entry in `height` steps and not before. -/
structure Rises (K : Primitives) (leaves : List Hash32)
    (height : Nat) : Prop where
  short : ((Merkle.parents (merkleNode K))^[height] leaves).length ≤ 1
  long : ∀ index < height, 1 < ((Merkle.parents (merkleNode K))^[index] leaves).length

variable {level : List Hash32}

/- The detector of one level. -/
theorem twin_eq_false_iff :
    ((Merkle.pairs level).any fun pair => pair.1 = pair.2) = false ↔ NoTwin level := by
  simp only [any_eq_false, decide_eq_true_eq, NoTwin, ne_eq]

/- What the loop leaves behind. -/
theorem merkleLoop_eq_ok {rounds : Nat} {before after : Bool} (hLoop :
      (merkleLoop K rounds leaves before : Result ε (List Hash32 × Bool)) = .ok (level, after))
    (hShort : level.length ≤ 1) :
    ∃ height ≤ rounds, Rises K leaves height ∧
        level = (Merkle.parents (merkleNode K))^[height] leaves ∧ (after = false ↔ before = false ∧
          ∀ index < height, NoTwin ((Merkle.parents (merkleNode K))^[index] leaves)) := by
  induction rounds generalizing leaves before with
  | zero =>
    cases hLoop
    exact ⟨0, Nat.le_refl _, ⟨hShort, by simp⟩, rfl, by simp⟩
  | succ rounds ih =>
    unfold merkleLoop at hLoop
    by_cases hDone : leaves.length ≤ 1
    · rw [if_pos hDone] at hLoop
      cases hLoop
      exact ⟨0, Nat.zero_le _, ⟨hDone, by simp⟩, rfl, by simp⟩
    rw [if_neg hDone] at hLoop
    simp only [bind_eq_ok, assert_eq_ok] at hLoop
    rcases hLoop with ⟨_, _, _, _, hLoop⟩
    rcases ih hLoop with ⟨height, hLe, hRises, rfl, hTwins⟩
    refine ⟨height + 1, Nat.succ_le_succ hLe, ⟨hRises.short, ?_⟩, rfl, ?_⟩
    · intro index hIndex
      cases index with
      | zero => exact Nat.not_le.mp hDone
      | succ index => exact hRises.long index (by omega)
    · rw [hTwins, Bool.or_eq_false_iff, twin_eq_false_iff, Nat.forall_lt_succ_left']
      exact and_assoc

theorem merkleRoot_eq_ok (hRoot : (merkleRoot K leaves : Result ε MerkleRoot) = .ok found) :
    ∃ height ≤ merkleLevelsMax + 1, Rises K leaves height ∧ found.root =
        ((Merkle.parents (merkleNode K))^[height] leaves).head?.getD (FixedBytes.zero 32) ∧
      (found.mutated = false ↔
        ∀ index < height, NoTwin ((Merkle.parents (merkleNode K))^[index] leaves)) := by
  simp only [merkleRoot, bind_eq_ok, assert_eq_ok, pure_inj] at hRoot
  rcases hRoot with ⟨⟨level, mutated⟩, hLoop, _, hShort, _, _, rfl⟩
  rcases merkleLoop_eq_ok hLoop hShort with ⟨height, hLe, hRises, rfl, hTwins⟩
  exact ⟨height, hLe, hRises, rfl, by simpa using hTwins⟩

/- From leaves that exist, the top is exactly the root. -/
theorem Rises.top_eq {height : Nat} (hRises : Rises K leaves height) (hNe : leaves ≠ []) :
    (Merkle.parents (merkleNode K))^[height] leaves =
      [((Merkle.parents (merkleNode K))^[height] leaves).head?.getD (FixedBytes.zero 32)] := by
  have hPos : ∀ count, 0 < ((Merkle.parents (merkleNode K))^[count] leaves).length := by
    intro count
    induction count with
    | zero => exact length_pos_iff.mpr hNe
    | succ count ih =>
      rw [Function.iterate_succ_apply', length_parents]
      omega
  have hShort := hRises.short
  have hTop := hPos height
  generalize (Merkle.parents (merkleNode K))^[height] leaves = top at *
  rcases top with _ | ⟨root, _ | ⟨other, rest⟩⟩
  · simp at hTop
  · rfl
  · simp at hShort

--------
-- What a Tree Hashes
--------

/- The strings the nodes above the leaves are hashes of. -/
def merklePreimages (K : Primitives) (rounds : Nat) (level : List Hash32) : List Bytes :=
  match rounds with
  | 0 => []
  | rounds + 1 =>
    if level.length ≤ 1 then
      []
    else
      (Merkle.pairs (Merkle.padded level)).map
          (fun pair => pair.1.val ++ pair.2.val) ++
        merklePreimages K rounds (Merkle.parents (merkleNode K) level)

theorem mem_merklePreimages {rounds height : Nat} (hRises : Rises K leaves height)
    (hRounds : height ≤ rounds) :
    UsedBelow (merkleNode K)
      (fun pair => pair.1.val ++ pair.2.val ∈ merklePreimages K rounds leaves) height leaves := by
  induction rounds generalizing leaves height with
  | zero =>
    intro index hIndex
    omega
  | succ rounds ih =>
    intro index hIndex pair hPair
    have hLong : 1 < leaves.length := hRises.long 0 (Nat.zero_lt_of_lt hIndex)
    rw [merklePreimages, if_neg (Nat.not_le.mpr hLong), mem_append]
    cases index with
    | zero => exact .inl (mem_map.mpr ⟨pair, hPair, rfl⟩)
    | succ index =>
      rcases height with _ | height
      · omega
      have hAbove : Rises K (Merkle.parents (merkleNode K) leaves) height :=
        ⟨hRises.short, fun lower hLower => hRises.long (lower + 1) (by omega)⟩
      exact .inr (ih hAbove (by omega) index (by omega) pair hPair)

/- Siblings are determined by the string they hash as. -/
theorem merkleNode_injOn {S : Set Bytes} (hInj : Set.InjOn K.sha256d S) :
    InjOn (merkleNode K) fun pair => pair.1.val ++ pair.2.val ∈ S := by
  rintro ⟨a, b⟩ ⟨c, d⟩ hLeft hRight hNode
  have hBytes := hInj hLeft hRight hNode
  rcases List.append_inj hBytes (by rw [a.property, c.property]) with ⟨hFst, hSnd⟩
  exact Prod.ext (Subtype.ext hFst) (Subtype.ext hSnd)

/- A node is the hash of 64 bytes. -/
def IsNode (K : Primitives) (S : Set Bytes) (hash : Hash32) : Prop :=
  ∃ preimage ∈ S, preimage.length = 64 ∧ hash = K.sha256d preimage

theorem isNode_of_mem_parents {S : Set Bytes}
    (hUsed : ∀ pair ∈ Merkle.pairs (Merkle.padded level), pair.1.val ++ pair.2.val ∈ S)
    {hash : Hash32} (hMem : hash ∈ Merkle.parents (merkleNode K) level) : IsNode K S hash := by
  rcases mem_map.mp hMem with ⟨pair, hPair, rfl⟩
  exact ⟨_, hUsed pair hPair, by
    rw [length_append, pair.1.property, pair.2.property], rfl⟩

section

variable {S : Set Bytes} {first second : List Hash32} {firstRoot secondRoot : MerkleRoot}

/-
  The shorter of two trees without mutation is the top of the taller one: its leaves are the other's
  leaves, or nodes.
-/
theorem leaves_eq_or_isNode (hInj : Set.InjOn K.sha256d S) {shortHeight tallHeight : Nat}
    (hHeight : shortHeight ≤ tallHeight) (hUsedFirst :
      UsedBelow (merkleNode K) (fun pair => pair.1.val ++ pair.2.val ∈ S) shortHeight first)
    (hUsedSecond :
      UsedBelow (merkleNode K) (fun pair => pair.1.val ++ pair.2.val ∈ S) tallHeight second)
    (hTwinFirst :
      ∀ index < shortHeight, NoTwin ((Merkle.parents (merkleNode K))^[index] first)) (hTwinSecond :
      ∀ index < tallHeight, NoTwin ((Merkle.parents (merkleNode K))^[index] second))
    (hTop : (Merkle.parents (merkleNode K))^[shortHeight] first =
        (Merkle.parents (merkleNode K))^[tallHeight] second) :
    first = second ∨ ∀ leaf ∈ first, IsNode K S leaf := by
  rcases Nat.exists_eq_add_of_le hHeight with ⟨gap, rfl⟩
  rw [Function.iterate_add_apply] at hTop
  have hBase : first = (Merkle.parents (merkleNode K))^[gap] second := by
    apply iterate_inj (merkleNode_injOn hInj) hUsedFirst _ hTwinFirst _ hTop
    · intro index hIndex
      rw [← Function.iterate_add_apply]
      exact hUsedSecond (index + gap) (by omega)
    · intro index hIndex
      rw [← Function.iterate_add_apply]
      exact hTwinSecond (index + gap) (by omega)
  cases gap with
  | zero => exact .inl hBase
  | succ gap =>
    refine .inr fun leaf hLeaf => ?_
    rw [hBase, Function.iterate_succ_apply'] at hLeaf
    exact isNode_of_mem_parents (hUsedSecond gap (by omega)) hLeaf

section

variable (hInj : Set.InjOn K.sha256d S)
variable (hFst : (merkleRoot K first : Result ε MerkleRoot) = .ok firstRoot)
variable (hSnd : (merkleRoot K second : Result ε MerkleRoot) = .ok secondRoot)
variable (hPreFirst : ∀ preimage ∈ merklePreimages K (merkleLevelsMax + 1) first, preimage ∈ S)
variable (hPreSecond : ∀ preimage ∈ merklePreimages K (merkleLevelsMax + 1) second, preimage ∈ S)

include hInj hFst hSnd hPreFirst hPreSecond

theorem leaves_eq_of_merkleRoot (hNonemptyFirst : first ≠ []) (hNonemptySecond : second ≠ [])
    (hMutatedFirst : firstRoot.mutated = false) (hMutatedSecond : secondRoot.mutated = false)
    (hRoot : firstRoot.root = secondRoot.root) :
    first = second ∨ (∀ leaf ∈ first, IsNode K S leaf) ∨ ∀ leaf ∈ second, IsNode K S leaf := by
  rcases merkleRoot_eq_ok hFst with ⟨firstHeight, hLeFirst, hRisesFirst, hTopFirst, hTwinFirst⟩
  rcases merkleRoot_eq_ok hSnd with
    ⟨secondHeight, hLeSecond, hRisesSecond, hTopSecond, hTwinSecond⟩
  have hUsedFirst : UsedBelow (merkleNode K) (fun pair => pair.1.val ++ pair.2.val ∈ S)
      firstHeight first :=
    fun index hIndex pair hPair =>
      hPreFirst _ (mem_merklePreimages hRisesFirst hLeFirst index hIndex pair hPair)
  have hUsedSecond : UsedBelow (merkleNode K) (fun pair => pair.1.val ++ pair.2.val ∈ S)
      secondHeight second :=
    fun index hIndex pair hPair =>
      hPreSecond _ (mem_merklePreimages hRisesSecond hLeSecond index hIndex pair hPair)
  have hTop : (Merkle.parents (merkleNode K))^[firstHeight] first =
      (Merkle.parents (merkleNode K))^[secondHeight] second := by
    rw [hRisesFirst.top_eq hNonemptyFirst,
      hRisesSecond.top_eq hNonemptySecond, ← hTopFirst, ← hTopSecond, hRoot]
  rcases Nat.le_total firstHeight secondHeight with hLe | hLe
  · exact (leaves_eq_or_isNode hInj hLe hUsedFirst hUsedSecond (hTwinFirst.mp hMutatedFirst)
      (hTwinSecond.mp hMutatedSecond)
      hTop).imp_right .inl
  · exact (leaves_eq_or_isNode hInj hLe hUsedSecond hUsedFirst (hTwinSecond.mp hMutatedSecond)
      (hTwinFirst.mp hMutatedFirst)
      hTop.symm).imp Eq.symm .inr

/- Trees of equal count need no mutation check. -/
theorem leaves_eq_of_merkleRoot_of_length (hNe : first ≠ [])
    (hLen : first.length = second.length) (hRoot : firstRoot.root = secondRoot.root) :
    first = second := by
  rcases merkleRoot_eq_ok hFst with ⟨height, hLeFirst, hRisesFirst, hTopFirst, _⟩
  rcases merkleRoot_eq_ok hSnd with ⟨other, hLeSecond, hRisesSecond, hTopSecond, _⟩
  have hSame : height = other := by
    have hSizes := Merkle.length_iterate (merkleNode K) hLen
    rcases Nat.lt_trichotomy height other with hLt | hEq | hGt
    · have hLong := hRisesSecond.long height hLt
      have hShort := hRisesFirst.short
      rw [hSizes] at hShort
      omega
    · exact hEq
    · have hLong := hRisesFirst.long other hGt
      have hShort := hRisesSecond.short
      rw [← hSizes] at hShort
      omega
  subst hSame
  have hNonemptySecond : second ≠ [] := by
    rw [← length_pos_iff] at hNe ⊢
    omega
  apply iterate_inj_of_length (merkleNode_injOn hInj) hLen
  · exact fun index hIndex pair hPair =>
      hPreFirst _ (mem_merklePreimages hRisesFirst hLeFirst index hIndex pair hPair)
  · exact fun index hIndex pair hPair =>
      hPreSecond _ (mem_merklePreimages hRisesSecond hLeSecond index hIndex pair hPair)
  · rw [hRisesFirst.top_eq hNe,
      hRisesSecond.top_eq hNonemptySecond, ← hTopFirst, ← hTopSecond, hRoot]

end

end

--------
-- The Detector
--------

/- Halving brings every level of this size down to one entry. -/
theorem merkleLoop_returns (K : Primitives) (rounds : Nat) (before : Bool)
    (hSize : leaves.length ≤ 2 ^ rounds) :
    ∃ level after,
      (merkleLoop K rounds leaves before : Result ε (List Hash32 × Bool)) = .ok (level, after) ∧
        level.length ≤ 1 ∧ (leaves.length ≤ 1 → after = before) := by
  induction rounds generalizing leaves before with
  | zero => exact ⟨leaves, before, rfl, hSize, fun _ => rfl⟩
  | succ rounds ih =>
    unfold merkleLoop
    by_cases hDone : leaves.length ≤ 1
    · rw [if_pos hDone]
      exact ⟨leaves, before, rfl, hDone, fun _ => rfl⟩
    have hEven : (Merkle.padded leaves).length % 2 = 0 := by
      rw [length_padded]
      omega
    have hDouble :
        (Merkle.parents (merkleNode K) leaves).length * 2 = (Merkle.padded leaves).length := by
      rw [length_padded, length_parents]
    have hHalf : (Merkle.parents (merkleNode K) leaves).length ≤ 2 ^ rounds := by
      rw [length_parents]
      rw [Nat.pow_succ] at hSize
      omega
    rw [if_neg hDone]
    dsimp only
    rw [assert_of hEven, ok_bind, assert_of hDouble, ok_bind]
    rcases ih (before || (Merkle.pairs leaves).any fun pair =>
          pair.1 = pair.2) hHalf with
      ⟨level, after, hLoop, hShort, _⟩
    exact ⟨level, after, hLoop, hShort, fun hOne => absurd hOne hDone⟩

theorem merkleRoot_returns (K : Primitives) (hFew : leaves.length < 2 ^ 32) :
    ∃ found, (merkleRoot K leaves : Result ε MerkleRoot) = .ok found := by
  rcases merkleLoop_returns (ε := ε) K (merkleLevelsMax + 1) false
      (Nat.le_of_lt (Nat.lt_trans hFew (by decide))) with
    ⟨level, after, hLoop, hShort, hOne⟩
  rw [merkleRoot, hLoop, ok_bind]
  dsimp only
  rw [assert_of hShort, ok_bind, assert_of hOne, ok_bind]
  exact ⟨_, rfl⟩

/- Distinct leaves are never called mutated. -/
theorem mutated_eq_false_of_nodup (hInj :
      Set.InjOn K.sha256d {preimage | preimage ∈ merklePreimages K (merkleLevelsMax + 1) leaves})
    (hRoot : (merkleRoot K leaves : Result ε MerkleRoot) = .ok found) (hNodup : leaves.Nodup) :
    found.mutated = false := by
  rcases merkleRoot_eq_ok hRoot with ⟨height, hLe, hRises, _, hTwins⟩
  rw [hTwins]
  intro index hIndex
  exact noTwin_of_nodup
    (nodup_iterate (merkleNode_injOn hInj) (mem_merklePreimages hRises hLe) hNodup hIndex.le)

/- The 64-byte strings two trees hash. -/
def treeStrings (K : Primitives) (first second : List Hash32) : Set Bytes :=
  {preimage |
    preimage ∈ merklePreimages K (merkleLevelsMax + 1) first ∨
      preimage ∈ merklePreimages K (merkleLevelsMax + 1) second}

/-
  Without a collision among the strings hashed, and without a leaf that is itself such a hash, the
  detector catches one of any two lists that share a root, and spares every list of distinct leaves.
-/
theorem merkleRoot_detects (first second : List Hash32) (hFewFirst : first.length < 2 ^ 32)
    (hFewSecond : second.length < 2 ^ 32) (hInj : Set.InjOn K.sha256d (treeStrings K first second))
    (hLeaves : ∀ leaf ∈ first ++ second, ¬ IsNode K (treeStrings K first second) leaf) :
    ∃ firstRoot secondRoot,
      (merkleRoot K first : Result ε MerkleRoot) =
          .ok firstRoot ∧
        (merkleRoot K second : Result ε MerkleRoot) = .ok secondRoot ∧
        (first ≠ [] → second ≠ [] → first ≠ second →
          firstRoot.root = secondRoot.root → firstRoot.mutated = true ∨ secondRoot.mutated = true) ∧
        (first.Nodup → firstRoot.mutated = false) ∧
        (second.Nodup → secondRoot.mutated = false) := by
  rcases merkleRoot_returns (ε := ε) K hFewFirst with ⟨firstRoot, hFst⟩
  rcases merkleRoot_returns (ε := ε) K hFewSecond with ⟨secondRoot, hSnd⟩
  refine ⟨firstRoot, secondRoot, hFst, hSnd, ?_, ?_, ?_⟩
  · intro hSome hOther hDifferent hRoot
    by_contra hSpared
    rw [not_or, Bool.not_eq_true, Bool.not_eq_true] at hSpared
    rcases leaves_eq_of_merkleRoot hInj hFst hSnd
        (fun _ => Or.inl) (fun _ => Or.inr) hSome hOther
        hSpared.1 hSpared.2 hRoot with hEq | hNodes | hNodes
    · exact hDifferent hEq
    · rcases exists_mem_of_ne_nil first hSome with ⟨leaf, hLeaf⟩
      exact hLeaves leaf (mem_append_left _ hLeaf) (hNodes leaf hLeaf)
    · rcases exists_mem_of_ne_nil second hOther with ⟨leaf, hLeaf⟩
      exact hLeaves leaf (mem_append_right _ hLeaf) (hNodes leaf hLeaf)
  · exact mutated_eq_false_of_nodup (hInj.mono fun _ => Or.inl) hFst
  · exact mutated_eq_false_of_nodup (hInj.mono fun _ => Or.inr) hSnd

/- Three leaves, and the same with the last one repeated. -/
namespace RepeatedTail

def honest : List Hash32 :=
  [hash32 1, hash32 2, hash32 3]

def forged : List Hash32 :=
  honest ++ [hash32 3]

/- The first of the two hashes of each string. -/
def leftInner : Hash32 := hash32
  0xd6ba9329f8932c12192b37849f772104d20048f76434a3290512d9d814e4116f

def left : Hash32 := hash32
  0x9b1eb2a9e9a81cbbad8edffa901e93fd94f4405e63b61647cf9d3e602b1fb7b0

def rightInner : Hash32 := hash32
  0x452f39d208ea3109263f39468c30bc67a042be9c9fbbd2b63ba26347124e2796

def right : Hash32 := hash32
  0x02e5fd62a41076dca2a4b074080bfcf043b36f358108bfb9b31328d16eaf30bd

def rootInner : Hash32 := hash32
  0x196d6cfdd632acc37ddb16649c04caa1d9f72789319f2ea74dbbb8dc5fcde864

/- The values of the hash function on these trees. -/
def crypto : Crypto := ofSha256 [((hash32 1).val ++ (hash32 2).val, leftInner),
  (leftInner.val, left),
  ((hash32 3).val ++ (hash32 3).val, rightInner),
  (rightInner.val, right),
  (left.val ++ right.val, rootInner),
  (rootInner.val, hash32 0x0de7d95afed92f912d7004de0371e290261027e3ec5ef7846a535881454e5c36)]

/- The strings both lists hash. -/
def strings : List Bytes := [(hash32 1).val ++ (hash32 2).val,
  (hash32 3).val ++ (hash32 3).val,
  left.val ++ right.val]

theorem treeStrings_eq :
    treeStrings crypto.primitives honest forged = {preimage | preimage ∈ strings} := by
  have hHonest : merklePreimages crypto.primitives (merkleLevelsMax + 1) honest = strings := by
    decide +kernel
  have hForged : merklePreimages crypto.primitives (merkleLevelsMax + 1) forged = strings := by
    decide +kernel
  unfold treeStrings
  rw [hHonest, hForged]
  simp only [or_self]

theorem injOn :
    Set.InjOn crypto.primitives.sha256d (treeStrings crypto.primitives honest forged) := by
  have hApart : ∀ bytes ∈ strings, ∀ other ∈ strings,
      crypto.primitives.sha256d bytes = crypto.primitives.sha256d other → bytes = other := by
    decide +kernel
  rwa [treeStrings_eq]

theorem not_isNode :
    ∀ leaf ∈ honest ++ forged,
      ¬ IsNode crypto.primitives (treeStrings crypto.primitives honest forged) leaf := by
  have hApart :
      ∀ leaf ∈ honest ++ forged, ∀ bytes ∈ strings, leaf ≠ crypto.primitives.sha256d bytes := by
    decide +kernel
  rw [treeStrings_eq]
  rintro leaf hLeaf ⟨bytes, hBytes, _, hEq⟩
  exact hApart leaf hLeaf bytes hBytes hEq

theorem roots_eq :
    (merkleRoot crypto.primitives honest : Result Empty MerkleRoot).map MerkleRoot.root =
      (merkleRoot crypto.primitives forged).map MerkleRoot.root := by
  decide +kernel

/- The premises hold of two lists that share their root. -/
theorem merkleRoot_detects_forged :
    ∃ honestRoot forgedRoot,
      (merkleRoot crypto.primitives honest : Result Empty MerkleRoot) = .ok honestRoot ∧
        (merkleRoot crypto.primitives forged : Result Empty MerkleRoot) = .ok forgedRoot ∧
        honestRoot.root = forgedRoot.root ∧
        honestRoot.mutated = false ∧
        forgedRoot.mutated = true := by
  rcases merkleRoot_detects (ε := Empty) honest forged (by decide) (by decide) injOn not_isNode with
    ⟨honestRoot, forgedRoot, hHonest, hForged, hCaught, hSpared, _⟩
  have hRoots : honestRoot.root = forgedRoot.root := by
    have hEq := roots_eq
    rw [hHonest, hForged] at hEq
    exact Except.ok.inj hEq
  have hClean : honestRoot.mutated = false := hSpared (by decide +kernel)
  refine ⟨honestRoot, forgedRoot, hHonest, hForged, hRoots, hClean, ?_⟩
  rcases hCaught (by decide) (by decide) (by decide +kernel) hRoots with hFst | hSnd
  · rw [hClean] at hFst
    cases hFst
  · exact hSnd

end RepeatedTail

end Bitmigo
