import Mathlib.Data.List.Basic
import Mathlib.Data.Set.Basic

/-
  Hash trees whose inner nodes forget the order of their children, and paths of sibling digests.

  Key definitions include:
    * `LeafTree` and `LeafTree.root`
    * `LeafTree.Opens`, a leaf with the siblings above it
    * `LeafTree.Distinguishes`, no collision among given leaves and pairs

  Key theorems include:
    * `LeafTree.Opens.climb_eq`, an opened leaf climbs to the root
    * `LeafTree.opens_of_climb_eq`, nothing else does
-/

open List

/- A binary tree with values at its leaves. -/
inductive LeafTree (α : Type*) where
  | leaf (a : α)
  | node (left right : LeafTree α)

namespace LeafTree

variable {α δ : Type*}

/- The most inner nodes above a leaf. -/
def depth : LeafTree α → Nat
  | leaf _ => 0
  | node left right => max left.depth right.depth + 1

def leaves : LeafTree α → List α
  | leaf a => [a]
  | node left right => left.leaves ++ right.leaves

variable (hashLeaf : α → δ) (hashNode : δ → δ → δ)

def root : LeafTree α → δ
  | leaf a => hashLeaf a
  | node left right => hashNode left.root right.root

/- The digests under each inner node. -/
def pairs : LeafTree α → List (δ × δ)
  | leaf _ => []
  | node left right =>
    (left.root hashLeaf hashNode, right.root hashLeaf hashNode) :: (left.pairs ++ right.pairs)

/- An occurrence of a leaf, with the digests of the siblings from the leaf to the root. -/
inductive Opens : LeafTree α → α → List δ → Prop where
  | leaf (a : α) : Opens (leaf a) a []
  | left {left right : LeafTree α} {a : α} {path : List δ} (hOpens : Opens left a path) :
      Opens (node left right) a (path ++ [right.root hashLeaf hashNode])
  | right {left right : LeafTree α} {a : α} {path : List δ} (hOpens : Opens right a path) :
      Opens (node left right) a (path ++ [left.root hashLeaf hashNode])

/- The pairs hashed on the way up a path. -/
def climbPairs (digest : δ) :
    List δ → List (δ × δ)
  | [] => []
  | sibling :: path =>
    (digest, sibling) :: climbPairs (hashNode digest sibling) path

variable {hashLeaf hashNode} {tree : LeafTree α} {a : α} {path : List δ}

/- Every leaf has an occurrence. -/
theorem exists_opens (hA : a ∈ tree.leaves) : ∃ path, Opens hashLeaf hashNode tree a path := by
  induction tree with
  | leaf b =>
    rw [mem_singleton.mp hA]
    exact ⟨[], Opens.leaf b⟩
  | node left right ihLeft ihRight =>
    rcases mem_append.mp hA with hLeft | hRight
    · rcases ihLeft hLeft with ⟨path, hOpens⟩
      exact ⟨_, Opens.left hOpens⟩
    · rcases ihRight hRight with ⟨path, hOpens⟩
      exact ⟨_, Opens.right hOpens⟩

theorem Opens.length_le (hOpens : Opens hashLeaf hashNode tree a path) :
    path.length ≤ tree.depth := by
  induction hOpens with
  | leaf a => exact Nat.le_refl 0
  | left _ ih | right _ ih =>
    simp only [length_append, length_singleton, depth]
    omega

/- Climbing from a leaf past its siblings ends at the root. -/
theorem Opens.climb_eq (hComm : ∀ a b, hashNode a b = hashNode b a)
    (hOpens : Opens hashLeaf hashNode tree a path) :
    path.foldl hashNode (hashLeaf a) = tree.root hashLeaf hashNode := by
  induction hOpens with
  | leaf a => rfl
  | left _ ih => simp [ih, root]
  | right _ ih => simp [ih, root, hComm]

--------
-- Only Leaves Climb to the Root
--------

/- The digests of these leaves and of these pairs are all apart, but for the order in a pair. -/
structure Distinguishes
    (hashLeaf : α → δ) (hashNode : δ → δ → δ) (leaves : Set α) (pairs : Set (δ × δ)) :
    Prop where
  leaf : Set.InjOn hashLeaf leaves
  node : ∀ p ∈ pairs, ∀ q ∈ pairs, hashNode p.1 p.2 = hashNode q.1 q.2 → p = q ∨ p = q.swap
  apart : ∀ a ∈ leaves, ∀ p ∈ pairs, hashLeaf a ≠ hashNode p.1 p.2

theorem climbPairs_concat (digest sibling : δ) (path : List δ) :
    climbPairs hashNode digest (path ++ [sibling]) =
      climbPairs hashNode digest path ++ [(path.foldl hashNode digest, sibling)] := by
  induction path generalizing digest with
  | nil => rfl
  | cons first path ih => simp [climbPairs, ih]

theorem opens_of_climb_eq {leaves : Set α} {pairs : Set (δ × δ)}
    (hApart : Distinguishes hashLeaf hashNode leaves pairs) (hA : a ∈ leaves)
    (hLeaves : ∀ b ∈ tree.leaves, b ∈ leaves)
    (hPairs : ∀ p ∈ tree.pairs hashLeaf hashNode, p ∈ pairs)
    (hClimb : ∀ p ∈ climbPairs hashNode (hashLeaf a) path, p ∈ pairs)
    (hRoot : path.foldl hashNode (hashLeaf a) = tree.root hashLeaf hashNode) :
    Opens hashLeaf hashNode tree a path := by
  -- On the tree; the last sibling stands at its root.
  induction tree generalizing path with
  | leaf b =>
    have hB : b ∈ leaves := hLeaves b (mem_singleton_self b)
    rcases eq_nil_or_concat path with
      rfl | ⟨path, sibling, rfl⟩
    · rw [hApart.leaf hA hB hRoot]
      exact Opens.leaf b
    · rw [concat_eq_append] at hRoot hClimb
      rw [climbPairs_concat] at hClimb
      rw [foldl_append] at hRoot
      have hLast := hClimb _ (mem_append_right _ (mem_singleton_self _))
      exact absurd hRoot.symm (hApart.apart b hB _ hLast)
  | node left right ihLeft ihRight =>
    have hTop := hPairs _ mem_cons_self
    rcases eq_nil_or_concat path with
      rfl | ⟨path, sibling, rfl⟩
    · exact absurd hRoot (hApart.apart a hA _ hTop)
    · rw [concat_eq_append] at hRoot hClimb ⊢
      rw [climbPairs_concat] at hClimb
      rw [foldl_append] at hRoot
      have hLast := hClimb _ (mem_append_right _ (mem_singleton_self _))
      have hBelow : ∀ p ∈ climbPairs hashNode (hashLeaf a) path, p ∈ pairs :=
        fun p hP => hClimb p (mem_append_left _ hP)
      rcases hApart.node _ hLast _ hTop hRoot with hSame | hSwapped
      · rcases Prod.mk.inj hSame with ⟨hLeft, rfl⟩
        refine Opens.left (ihLeft ?_ ?_ hBelow hLeft)
        · exact fun b hB =>
            hLeaves b (mem_append_left _ hB)
        · exact fun p hP => hPairs p (mem_cons_of_mem _ (mem_append_left _ hP))
      · rcases Prod.mk.inj hSwapped with ⟨hRight, rfl⟩
        refine Opens.right (ihRight ?_ ?_ hBelow hRight)
        · exact fun b hB =>
            hLeaves b (mem_append_right _ hB)
        · exact fun p hP => hPairs p (mem_cons_of_mem _ (mem_append_right _ hP))

end LeafTree
