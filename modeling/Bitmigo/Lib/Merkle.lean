import Mathlib.Data.List.Nodup
import Mathlib.Logic.Function.Iterate

/-
  Binary hash trees over a list of leaves, built a level at a time, with the last entry of an odd
  level hashed with itself.

  Key definitions include:
    * `Merkle.pairs`, `Merkle.padded` and `Merkle.parents`
    * `Merkle.NoTwin`, a level without equal siblings

  Key theorems include:
    * `Merkle.iterate_inj`, a level determines the leaves below it when no level has twins
    * `Merkle.iterate_inj_of_length`, or when the leaf counts agree
    * `Merkle.nodup_iterate`, above distinct leaves every level is distinct

  The node function is arbitrary. What it is asked for is injectivity on the pairs that occur, given
  as a predicate on pairs.
-/

open List Nat

namespace Merkle

variable {α : Type} {first second : List α}

variable {leaves level : List α}

--------
-- Lists Under a Map
--------

/- Lists with one image agree on what the image determines. -/
theorem map_eq_map_of_map_eq {β γ : Type} {f : α → β} {g : α → γ}
    (hDetermines : ∀ a ∈ first, ∀ b ∈ second, f a = f b → g a = g b)
    (hMap : first.map f = second.map f) : first.map g = second.map g := by
  induction first generalizing second with
  | nil =>
    cases second with
    | nil => rfl
    | cons b bs => cases hMap
  | cons a as ih =>
    cases second with
    | nil => cases hMap
    | cons b bs =>
      simp only [map_cons, List.cons.injEq] at hMap ⊢
      exact ⟨hDetermines a mem_cons_self b mem_cons_self hMap.1, ih (fun x hx y hy =>
          hDetermines x (mem_cons_of_mem _ hx) y (mem_cons_of_mem _ hy)) hMap.2⟩

theorem eq_of_map_eq {β : Type} {f : α → β}
    (hInj : ∀ a ∈ first, ∀ b ∈ second, f a = f b → a = b) (hMap : first.map f = second.map f) :
    first = second := by
  have hId := map_eq_map_of_map_eq (g := id) hInj hMap
  simpa using hId

--------
-- Levels
--------

/- Neighbours two by two; an odd last entry is left out. -/
def pairs : List α → List (α × α)
  | left :: right :: rest => (left, right) :: pairs rest
  | _ => []

/- An odd level repeats its last entry. -/
def padded (level : List α) : List α :=
  if level.length % 2 = 1 then
    level ++ level.getLast?.toList
  else
    level

/- The level above. -/
def parents (node : α → α → α) (level : List α) : List α :=
  (pairs (padded level)).map fun pair =>
    node pair.1 pair.2

/- No two siblings of the level are equal. -/
def NoTwin (level : List α) : Prop :=
  ∀ pair ∈ pairs level, pair.1 ≠ pair.2

theorem length_pairs (level : List α) : (pairs level).length = level.length / 2 := by
  induction level using pairs.induct with
  | case1 left right rest ih =>
    simp only [pairs, length_cons, ih]
    omega
  | case2 level hShort =>
    rcases level with _ | ⟨a, _ | ⟨b, rest⟩⟩
    · simp [pairs]
    · simp [pairs]
    · exact absurd rfl (hShort a b rest)

theorem length_padded (level : List α) : (padded level).length = (level.length + 1) / 2 * 2 := by
  unfold padded
  split
  · rename_i hOdd
    have hLast : level.getLast?.toList.length = 1 := by
      cases hGet : level.getLast? with
      | none =>
        rw [getLast?_eq_none_iff] at hGet
        simp [hGet] at hOdd
      | some last => rfl
    rw [length_append, hLast]
    omega
  · omega

@[simp] theorem length_parents (node : α → α → α) (level : List α) :
    (parents node level).length = (level.length + 1) / 2 := by
  rw [parents, length_map, length_pairs, length_padded]
  omega

/- A level of even length is the list of its pairs. -/
theorem pairs_inj (hFst : first.length % 2 = 0) (hSnd : second.length % 2 = 0)
    (hPairs : pairs first = pairs second) : first = second := by
  induction first using pairs.induct generalizing second with
  | case1 left right rest ih =>
    rcases second with _ | ⟨a, _ | ⟨b, others⟩⟩
    · cases hPairs
    · cases hPairs
    · simp only [pairs, List.cons.injEq, Prod.mk.injEq] at hPairs
      rcases hPairs with ⟨⟨rfl, rfl⟩, hRest⟩
      simp only [length_cons] at hFst hSnd
      rw [ih (by omega) (by omega) hRest]
  | case2 first hShort =>
    have hNil : ∀ level : List α, level.length % 2 = 0 → pairs level = [] → level = [] := by
      intro level hEven hEmpty
      rcases level with _ | ⟨a, _ | ⟨b, rest⟩⟩
      · rfl
      · simp at hEven
      · simp [pairs] at hEmpty
    have hEmpty : pairs first = [] := by
      rcases first with _ | ⟨a, _ | ⟨b, rest⟩⟩
      · rfl
      · rfl
      · exact absurd rfl (hShort a b rest)
    rw [hNil first hFst hEmpty, hNil second hSnd (hPairs ▸ hEmpty)]

/- The last pair of a level that ends in a repetition. -/
theorem mem_pairs_of_twin {front : List α} {last : α} (hEven : front.length % 2 = 0) :
    (last, last) ∈ pairs (front ++ [last, last]) := by
  induction front using pairs.induct with
  | case1 left right rest ih =>
    simp only [length_cons] at hEven
    exact mem_cons_of_mem _ (ih (by omega))
  | case2 front hShort =>
    rcases front with _ | ⟨a, _ | ⟨b, rest⟩⟩
    · exact mem_cons_self
    · simp at hEven
    · exact absurd rfl (hShort a b rest)

/- A level without twins is not the padding of another. -/
theorem padded_ne_of_noTwin {odd even : List α} (hOdd : odd.length % 2 = 1)
    (hEven : even.length % 2 = 0) (hTwin : NoTwin even) : padded odd ≠ padded even := by
  intro hEq
  have hNe : odd ≠ [] := by
    rintro rfl
    simp at hOdd
  rcases eq_nil_or_concat odd with hNil | ⟨front, last, rfl⟩
  · exact hNe hNil
  rw [concat_eq_append] at hOdd hEq
  have hPad : padded (front ++ [last]) = front ++ [last, last] := by
    rw [padded, if_pos hOdd]
    simp
  have hSame : padded even = even := by rw [padded, if_neg (by omega)]
  rw [hPad, hSame] at hEq
  have hFront : front.length % 2 = 0 := by
    simp only [length_append, length_singleton] at hOdd
    omega
  exact hTwin (last, last) (hEq ▸ mem_pairs_of_twin hFront) rfl

--------
-- A Level Determines the One Below
--------

section

variable {node : α → α → α} {Used : α × α → Prop} {first second : List α} {count : Nat}

/- The node function has no collision among these pairs. -/
def InjOn (node : α → α → α) (Used : α × α → Prop) : Prop :=
  ∀ p q, Used p → Used q → node p.1 p.2 = node q.1 q.2 → p = q

theorem padded_eq_of_parents_eq (hInj : InjOn node Used)
    (hFst : ∀ pair ∈ pairs (padded first), Used pair)
    (hSnd : ∀ pair ∈ pairs (padded second), Used pair)
    (hParents : parents node first = parents node second) : padded first = padded second :=
  pairs_inj (by rw [length_padded]; omega) (by rw [length_padded]; omega)
    (eq_of_map_eq (fun p hp q hq => hInj p q (hFst p hp) (hSnd q hq)) hParents)

/- Padding of one parity is undone. -/
theorem eq_of_padded_eq (hParity : first.length % 2 = second.length % 2)
    (hPadded : padded first = padded second) : first = second := by
  have hLen := congrArg List.length hPadded
  simp only [length_padded] at hLen
  unfold padded at hPadded
  by_cases hOdd : first.length % 2 = 1
  · rw [if_pos hOdd, if_pos (hParity ▸ hOdd)] at hPadded
    exact (List.append_inj hPadded (by omega)).1
  · rwa [if_neg hOdd, if_neg (hParity ▸ hOdd)] at hPadded

theorem parents_inj (hInj : InjOn node Used) (hFst : ∀ pair ∈ pairs (padded first), Used pair)
    (hSnd : ∀ pair ∈ pairs (padded second), Used pair) (hTwinFirst : NoTwin first)
    (hTwinSecond : NoTwin second) (hParents : parents node first = parents node second) :
    first = second := by
  have hPadded := padded_eq_of_parents_eq hInj hFst hSnd hParents
  rcases mod_two_eq_zero_or_one first.length with
    hA | hA <;>
    rcases mod_two_eq_zero_or_one second.length with hB | hB
  · exact eq_of_padded_eq (hA.trans hB.symm) hPadded
  · exact absurd hPadded.symm (padded_ne_of_noTwin hB hA hTwinFirst)
  · exact absurd hPadded (padded_ne_of_noTwin hA hB hTwinSecond)
  · exact eq_of_padded_eq (hA.trans hB.symm) hPadded

/- Every pair below the top of `count` levels. -/
def UsedBelow (node : α → α → α) (Used : α × α → Prop) (count : Nat) (leaves : List α) : Prop :=
  ∀ index < count, ∀ pair ∈ pairs (padded ((parents node)^[index] leaves)), Used pair

theorem UsedBelow.parents (hUsed : UsedBelow node Used (count + 1) leaves) :
    UsedBelow node Used count (parents node leaves) := by
  intro index hIndex
  exact hUsed (index + 1) (by omega)

/- Without twins, the leaves are determined. -/
theorem iterate_inj (hInj : InjOn node Used) (hFst : UsedBelow node Used count first)
    (hSnd : UsedBelow node Used count second)
    (hTwinFirst : ∀ index < count, NoTwin ((parents node)^[index] first))
    (hTwinSecond : ∀ index < count, NoTwin ((parents node)^[index] second))
    (hTop : (parents node)^[count] first = (parents node)^[count] second) : first = second := by
  induction count generalizing first second with
  | zero => exact hTop
  | succ count ih =>
    apply parents_inj hInj (hFst 0 (succ_pos _)) (hSnd 0 (succ_pos _))
      (hTwinFirst 0 (succ_pos _)) (hTwinSecond 0 (succ_pos _))
    exact ih hFst.parents hSnd.parents (fun index hIndex => hTwinFirst (index + 1) (by omega))
      (fun index hIndex => hTwinSecond (index + 1) (by omega)) hTop

/- Of equal count, the leaves are determined. -/
theorem iterate_inj_of_length (hInj : InjOn node Used) (hLen : first.length = second.length)
    (hFst : UsedBelow node Used count first) (hSnd : UsedBelow node Used count second)
    (hTop : (parents node)^[count] first = (parents node)^[count] second) : first = second := by
  induction count generalizing first second with
  | zero => exact hTop
  | succ count ih =>
    have hParents := ih (by simp [hLen]) hFst.parents hSnd.parents hTop
    apply eq_of_padded_eq (by rw [hLen])
    exact padded_eq_of_parents_eq hInj (hFst 0 (succ_pos _)) (hSnd 0 (succ_pos _)) hParents

end

--------
-- Distinct Leaves
--------

theorem noTwin_of_nodup (hNodup : level.Nodup) : NoTwin level := by
  induction level using pairs.induct with
  | case1 left right rest ih =>
    intro pair hPair
    rw [nodup_cons, nodup_cons] at hNodup
    rcases mem_cons.mp hPair with rfl | hRest
    · intro hEq
      exact hNodup.1 (mem_cons.mpr (.inl hEq))
    · exact ih hNodup.2.2 pair hRest
  | case2 level hShort =>
    intro pair hPair
    rcases level with _ | ⟨a, _ | ⟨b, rest⟩⟩
    · cases hPair
    · cases hPair
    · exact absurd rfl (hShort a b rest)

theorem padded_cons_cons (left right : α) (rest : List α) :
    padded (left :: right :: rest) = left :: right :: padded rest := by
  have hParity : (left :: right :: rest).length % 2 = rest.length % 2 := by
    simp only [length_cons]
    omega
  unfold padded
  rw [hParity]
  split
  · rename_i hOdd
    cases rest with
    | nil => simp at hOdd
    | cons next others => rfl
  · rfl

/- The left siblings of a level are entries of it, in order. -/
theorem lefts_sublist (level : List α) : ((pairs (padded level)).map Prod.fst).Sublist level := by
  induction level using pairs.induct with
  | case1 left right rest ih =>
    rw [padded_cons_cons]
    exact (ih.cons right).cons_cons left
  | case2 level hShort =>
    rcases level with _ | ⟨a, _ | ⟨b, rest⟩⟩
    · exact Sublist.refl _
    · exact Sublist.refl _
    · exact absurd rfl (hShort a b rest)

theorem nodup_parents {node : α → α → α} {Used : α × α → Prop} (hInj : InjOn node Used)
    (hUsed : ∀ pair ∈ pairs (padded level), Used pair) (hNodup : level.Nodup) :
    (parents node level).Nodup := by
  have hPairs : (pairs (padded level)).Nodup :=
    Nodup.of_map _ (hNodup.sublist (lefts_sublist level))
  refine hPairs.map_on ?_
  intro p hp q hq hEq
  exact hInj p q (hUsed p hp) (hUsed q hq) hEq

theorem nodup_iterate {node : α → α → α} {Used : α × α → Prop} (hInj : InjOn node Used)
    {count : Nat} (hUsed : UsedBelow node Used count leaves) (hNodup : leaves.Nodup) {index : Nat}
    (hIndex : index ≤ count) : ((parents node)^[index] leaves).Nodup := by
  induction index with
  | zero => exact hNodup
  | succ index ih =>
    rw [Function.iterate_succ_apply']
    exact nodup_parents hInj (hUsed index hIndex) (ih (le_of_succ_le hIndex))

/- The size of a level depends on the leaf count only. -/
theorem length_iterate (node : α → α → α) (hLen : first.length = second.length) (count : Nat) :
    ((parents node)^[count] first).length = ((parents node)^[count] second).length := by
  induction count generalizing first second with
  | zero => exact hLen
  | succ count ih => exact ih (by simp [hLen])

end Merkle
