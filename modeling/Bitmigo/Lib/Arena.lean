import Mathlib.Data.List.Infix
import Mathlib.Logic.Relation

/-
  Trees in an arena: every node is a position that holds a label and the position of its parent.

  Key definitions include:
    * `Arena.View`, what the arena shows of a position
    * `Arena.Grown`, a parent comes before its children
    * `Arena.Lineage`, the labels from a node to the root
    * `Arena.Ancestor`
    * `Arena.upTo`, the part of a lineage up to a height

  Key theorems include:
    * `Arena.Grown.exists_lineage` and `Arena.Lineage.unique`, every node has one lineage
    * `Arena.Lineage.injective`, and no two nodes share one
    * `Arena.Lineage.ancestor_iff`, ancestors are suffixes
    * `Arena.Lineage.mono`, growing changes no lineage

  A lineage starts at its node, so the part above an ancestor comes first and a suffix of a lineage
  is a lineage.
-/

open List

namespace Arena

variable {α : Type}

variable {other : List α}

/- What is stored at a position. -/
abbrev View (α : Type) := Nat → Option (α × Option Nat)

/- Only the first node is a root, and parents come first. -/
structure Grown (view : View α) : Prop where
  root : ∀ {n a}, view n = some (a, none) → n = 0
  parent : ∀ {n a p}, view n = some (a, some p) → p < n ∧ (view p).isSome

/- No label is stored twice. -/
def Distinct (view : View α) : Prop :=
  ∀ {m n a o p}, view m = some (a, o) → view n = some (a, p) → m = n

/- The labels from a node to its root. -/
inductive Lineage (view : View α) : Nat → List α → Prop where
  | root {n : Nat} {a : α} (hNode : view n = some (a, none)) : Lineage view n [a]
  | child {n p : Nat} {a : α} {chain : List α} (hNode : view n = some (a, some p))
      (hPar : Lineage view p chain) :
      Lineage view n (a :: chain)

/- `p` is the parent of `n`. -/
def IsParent (view : View α) (p n : Nat) : Prop :=
  ∃ a, view n = some (a, some p)

/- A node, its parent, the parent's parent and so on. -/
def Ancestor (view : View α) : Nat → Nat → Prop :=
  Relation.ReflTransGen (IsParent view)

variable {view : View α} {n a height p : Nat} {chain part : List α} {after : View α}

--------
-- One Lineage per Node
--------

theorem Lineage.ne_nil (hLine : Lineage view n chain) : chain ≠ [] := by
  cases hLine <;> exact cons_ne_nil _ _

theorem Lineage.view_head {a : α} {rest : List α} (hLine : Lineage view n (a :: rest)) :
    ∃ parent, view n = some (a, parent) := by
  cases hLine with
  | root hNode | child hNode _ => exact ⟨_, hNode⟩

/- What the parent's lineage is. -/
theorem Lineage.tail {a : α} (hLine : Lineage view n chain) (hNode : view n = some (a, some p)) :
    ∃ rest, chain = a :: rest ∧ Lineage view p rest := by
  cases hLine with
  | root hRoot => simp [hRoot] at hNode
  | child hChild hPar =>
    rw [hChild] at hNode
    cases hNode
    exact ⟨_, rfl, hPar⟩

theorem Lineage.unique (hLine : Lineage view n chain) (hOther : Lineage view n other) :
    chain = other := by
  induction hLine generalizing other with
  | root hNode =>
    cases hOther with
    | root hRoot =>
      rw [hNode] at hRoot
      cases hRoot
      rfl
    | child hChild _ => simp [hNode] at hChild
  | child hNode hPar ih =>
    rcases hOther.tail hNode with ⟨rest, rfl, hRest⟩
    rw [ih hRest]

theorem Grown.exists_lineage (hGrown : Grown view) (hNode : (view n).isSome) :
    ∃ chain, Lineage view n chain := by
  induction n using Nat.strong_induction_on with
  | _ n ih =>
    rcases Option.isSome_iff_exists.mp hNode with ⟨⟨a, parent⟩, hView⟩
    cases parent with
    | none => exact ⟨[a], .root hView⟩
    | some p =>
      rcases hGrown.parent hView with ⟨hLt, hSome⟩
      rcases ih p hLt hSome with ⟨chain, hChain⟩
      exact ⟨a :: chain, .child hView hChain⟩

/- A parent's position is smaller, so a lineage is short. -/
theorem Grown.length_le (hGrown : Grown view) (hLine : Lineage view n chain) :
    chain.length ≤ n + 1 := by
  induction hLine with
  | root _ => simp
  | child hNode _ ih =>
    have hLt := (hGrown.parent hNode).1
    rw [length_cons]
    omega

theorem Lineage.injective (hDistinct : Distinct view) {m : Nat} (hLine : Lineage view m chain)
    (hOther : Lineage view n chain) : m = n := by
  rcases exists_cons_of_ne_nil hLine.ne_nil with ⟨a, rest, rfl⟩
  rcases hLine.view_head with ⟨_, hNode⟩
  rcases hOther.view_head with ⟨_, hNode'⟩
  exact hDistinct hNode hNode'

/- Every lineage ends at the root. -/
theorem Grown.root_suffix (hGrown : Grown view) (hLine : Lineage view n chain) :
    ∃ a, Lineage view 0 [a] ∧ [a] <:+ chain := by
  induction hLine with
  | @root n a hNode =>
    cases hGrown.root hNode
    exact ⟨a, .root hNode, suffix_refl _⟩
  | child _ _ ih =>
    rcases ih with ⟨a, hRoot, hSuf⟩
    exact ⟨a, hRoot, hSuf.trans (suffix_cons _ _)⟩

theorem Grown.root_shared {m : Nat} (hGrown : Grown view) (hLine : Lineage view m chain)
    (hOther : Lineage view n other) : ∃ a, [a] <:+ chain ∧ [a] <:+ other := by
  rcases hGrown.root_suffix hLine with ⟨a, hRoot, hSuf⟩
  rcases hGrown.root_suffix hOther with ⟨b, hRoot', hSuf'⟩
  cases hRoot.unique hRoot'
  exact ⟨a, hSuf, hSuf'⟩

--------
-- Ancestors
--------

theorem Lineage.of_suffix (hLine : Lineage view n chain) (hSuf : part <:+ chain)
    (hNe : part ≠ []) : ∃ a, Lineage view a part ∧ Ancestor view a n := by
  induction hLine with
  | @root n a hNode =>
    rcases suffix_cons_iff.mp hSuf with rfl | hNil
    · exact ⟨n, .root hNode, .refl⟩
    · exact absurd (suffix_nil.mp hNil) hNe
  | @child n p a chain hNode hPar ih =>
    rcases suffix_cons_iff.mp hSuf with rfl | hRest
    · exact ⟨n, .child hNode hPar, .refl⟩
    · rcases ih hRest with ⟨b, hPart, hAnc⟩
      exact ⟨b, hPart, hAnc.tail ⟨a, hNode⟩⟩

theorem Lineage.suffix_of_ancestor (hPart : Lineage view a part) (hLine : Lineage view n chain)
    (hAnc : Ancestor view a n) : part <:+ chain := by
  induction hAnc generalizing chain with
  | refl => rw [hPart.unique hLine]
  | tail _ hPar ih =>
    rcases hPar with ⟨b, hNode⟩
    rcases hLine.tail hNode with ⟨rest, rfl, hRest⟩
    exact (ih hRest).trans (suffix_cons _ _)

theorem Lineage.ancestor_iff (hDistinct : Distinct view) (hPart : Lineage view a part)
    (hLine : Lineage view n chain) : Ancestor view a n ↔ part <:+ chain := by
  constructor
  · exact hPart.suffix_of_ancestor hLine
  · intro hSuf
    rcases hLine.of_suffix hSuf hPart.ne_nil with ⟨b, hSame, hAnc⟩
    rwa [hPart.injective hDistinct hSame]

theorem Ancestor.isSome (hGrown : Grown view) (hAnc : Ancestor view a n)
    (hNode : (view n).isSome) : (view a).isSome := by
  induction hAnc with
  | refl => exact hNode
  | tail _ hPar ih =>
    rcases hPar with ⟨b, hView⟩
    exact ih (hGrown.parent hView).2

theorem Ancestor.le (hGrown : Grown view) (hAnc : Ancestor view a n) : a ≤ n := by
  induction hAnc with
  | refl => exact Nat.le_refl _
  | tail _ hPar ih =>
    rcases hPar with ⟨_, hView⟩
    have hLt := (hGrown.parent hView).1
    omega

/- The ancestors of a child. -/
theorem IsParent.ancestor_iff (hPar : IsParent view p n) :
    Ancestor view a n ↔ a = n ∨ Ancestor view a p := by
  constructor
  · intro hAnc
    rcases Relation.ReflTransGen.cases_tail hAnc with
      rfl | ⟨q, hRest, _, hNode⟩
    · exact .inl rfl
    · rcases hPar with ⟨_, hNode'⟩
      rw [hNode] at hNode'
      cases hNode'
      exact .inr hRest
  · rintro (rfl | hAnc)
    · exact .refl
    · exact hAnc.tail hPar

/- Two ancestors of one node are on one branch. -/
theorem Ancestor.total {b : Nat} (hLeft : Ancestor view a n) (hRight : Ancestor view b n) :
    Ancestor view a b ∨ Ancestor view b a := by
  have hUnique : Relator.RightUnique (Function.swap (IsParent view)) := by
    rintro n p q ⟨_, hNode⟩ ⟨_, hOther⟩
    rw [hNode] at hOther
    cases hOther
    rfl
  rcases Relation.ReflTransGen.total_of_right_unique hUnique (Relation.reflTransGen_swap.mpr hLeft)
      (Relation.reflTransGen_swap.mpr hRight) with
    hBelow | hAbove
  · exact .inr (Relation.reflTransGen_swap.mp hBelow)
  · exact .inl (Relation.reflTransGen_swap.mp hAbove)

theorem Ancestor.antisymm (hGrown : Grown view) {b : Nat} (hLeft : Ancestor view a b)
    (hRight : Ancestor view b a) : a = b :=
  Nat.le_antisymm (hLeft.le hGrown) (hRight.le hGrown)

/- Above a proper ancestor there is the node's parent. -/
theorem Ancestor.exists_parent (hPar : IsParent view p a) (hAnc : Ancestor view a n) :
    ∃ q, IsParent view q n ∧ Ancestor view p q := by
  rcases Relation.ReflTransGen.cases_tail hAnc with
    rfl | ⟨q, hRest, hLast⟩
  · exact ⟨p, hPar, .refl⟩
  · exact ⟨q, hLast, .head hPar hRest⟩

/- The lowest ancestor that has a property. -/
theorem Lineage.exists_lowest {P : Nat → Prop} (hLine : Lineage view n chain) (hn : P n) :
    ∃ a, Ancestor view a n ∧ P a ∧ ∀ p, IsParent view p a → ¬ P p := by
  induction hLine with
  | @root n a hNode =>
    refine ⟨n, .refl, hn, ?_⟩
    rintro p ⟨b, hPar⟩
    simp [hNode] at hPar
  | @child n p a chain hNode hPar ih =>
    by_cases hp : P p
    · rcases ih hp with ⟨b, hAnc, hb, hLowest⟩
      exact ⟨b, hAnc.tail ⟨a, hNode⟩, hb, hLowest⟩
    · refine ⟨n, .refl, hn, ?_⟩
      rintro q ⟨b, hOther⟩
      rw [hNode] at hOther
      cases hOther
      exact hp

--------
-- Heights
--------

/- The part of a lineage from a height down. -/
def upTo (height : Nat) (chain : List α) : List α :=
  chain.drop (chain.length - (height + 1))

theorem upTo_suffix (height : Nat) (chain : List α) : upTo height chain <:+ chain :=
  drop_suffix _ _

theorem length_upTo (hHeight : height < chain.length) :
    (upTo height chain).length = height + 1 := by
  rw [upTo, length_drop]
  omega

theorem upTo_ne_nil (hHeight : height < chain.length) : upTo height chain ≠ [] := by
  rw [← length_pos_iff, length_upTo hHeight]
  omega

/- A suffix is known by its length. -/
theorem eq_upTo_of_suffix (hSuf : part <:+ chain) (hLen : part.length = height + 1) :
    part = upTo height chain := by
  rw [upTo, ← hLen]
  exact suffix_iff_eq_drop.mp hSuf

theorem upTo_of_length (hLen : chain.length = height + 1) : upTo height chain = chain :=
  (eq_upTo_of_suffix (suffix_refl _) hLen).symm

theorem upTo_of_suffix (hSuf : part <:+ chain) (hHeight : height < part.length) :
    upTo height part = upTo height chain :=
  eq_upTo_of_suffix ((upTo_suffix _ _).trans hSuf) (length_upTo hHeight)

theorem Lineage.exists_upTo (hLine : Lineage view n chain) (hHeight : height < chain.length) :
    ∃ a, Lineage view a (upTo height chain) ∧ Ancestor view a n :=
  hLine.of_suffix (upTo_suffix _ _) (upTo_ne_nil hHeight)

--------
-- Growing
--------

/- Everything shown before is still shown. -/
def Extends (view after : View α) : Prop :=
  ∀ {n x}, view n = some x → after n = some x

theorem Lineage.mono (hExtends : Extends view after) (hLine : Lineage view n chain) :
    Lineage after n chain := by
  induction hLine with
  | root hNode => exact .root (hExtends hNode)
  | child hNode _ ih => exact .child (hExtends hNode) ih

/- The lineage of an old node is the old one. -/
theorem Grown.lineage_of_extends (hGrown : Grown view) (hExtends : Extends view after)
    (hNode : (view n).isSome) (hLine : Lineage after n chain) : Lineage view n chain := by
  rcases hGrown.exists_lineage hNode with ⟨old, hOld⟩
  rwa [(hOld.mono hExtends).unique hLine] at hOld

/- The ancestors of an old node are the old ones. -/
theorem Grown.ancestor_of_extends (hGrown : Grown view) (hExtends : Extends view after)
    (hNode : (view n).isSome) : Ancestor after a n ↔ Ancestor view a n := by
  constructor
  · intro hAnc
    induction hAnc with
    | refl => exact .refl
    | tail _ hPar ih =>
      rcases hPar with ⟨b, hView⟩
      rcases Option.isSome_iff_exists.mp hNode with ⟨x, hx⟩
      have hSame := hExtends hx
      rw [hView, Option.some.injEq] at hSame
      rw [← hSame] at hx
      exact (ih (hGrown.parent hx).2).tail ⟨b, hx⟩
  · intro hAnc
    refine Relation.ReflTransGen.mono ?_ _ _ hAnc
    rintro p m ⟨b, hView⟩
    exact ⟨b, hExtends hView⟩

end Arena
