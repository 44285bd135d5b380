import Mathlib.Data.List.NodupEquivFin

/-
  Matching the members of one list, in order, with members of another.

  Key definitions include:
    * `Matching.greedy`, each member takes the first that accepts it

  Key theorems include:
    * `Matching.greedy_iff`, the greedy choice misses no matching
    * `Matching.sublistForall₂_iff_strictMono`, a matching as a map of positions
-/

open List

namespace Matching

variable {α β : Type}

variable {R : α → β → Prop}

/- Each member takes the first later one that accepts it. -/
def greedy (accepts : α → β → Bool) :
    List α → List β → Bool
  | [], _ => true
  | _ :: _, [] => false
  | x :: xs, y :: ys =>
    if accepts x y then
      greedy accepts xs ys
    else
      greedy accepts (x :: xs) ys

variable {accepts : α → β → Bool} {xs : List α} {ys : List β}

/- A matching of a list is a matching of its tail. -/
theorem tail_of_sublistForall₂ {x : α} (hMatch : SublistForall₂ R (x :: xs) ys) :
    SublistForall₂ R xs ys := by
  induction ys with
  | nil => cases hMatch
  | cons y ys ih =>
    cases hMatch with
    | cons _ hRest => exact .cons_right hRest
    | cons_right hRest => exact .cons_right (ih hRest)

/-
  The greedy choice misses no matching: what a matching gives the first member later, it can have at
  once.
-/
theorem greedy_iff :
    greedy accepts xs ys = true ↔ SublistForall₂ (fun x y => accepts x y = true) xs ys := by
  induction ys generalizing xs with
  | nil =>
    cases xs with
    | nil => exact iff_of_true rfl .nil
    | cons x xs =>
      refine iff_of_false (by simp [greedy]) ?_
      intro hMatch
      cases hMatch
  | cons y ys ih =>
    cases xs with
    | nil => exact iff_of_true (by simp [greedy]) .nil
    | cons x xs =>
      rw [greedy]
      split_ifs with hAccepts
      · rw [ih]
        constructor
        · exact .cons hAccepts
        · intro hMatch
          cases hMatch with
          | cons _ hRest => exact hRest
          | cons_right hRest => exact tail_of_sublistForall₂ hRest
      · rw [ih]
        constructor
        · exact .cons_right
        · intro hMatch
          cases hMatch with
          | cons hHead _ => exact absurd hHead hAccepts
          | cons_right hRest => exact hRest

/- There are no more matched than to match with. -/
theorem length_le_of_greedy (hGreedy : greedy accepts xs ys = true) : xs.length ≤ ys.length := by
  rcases sublistForall₂_iff.mp (greedy_iff.mp hGreedy) with ⟨zs, hAll, hSub⟩
  rw [hAll.length_eq]
  exact hSub.length_le

/- A matching as a map of positions that keeps their order. -/
theorem sublistForall₂_iff_strictMono :
    SublistForall₂ R xs ys ↔
      ∃ f : Fin xs.length → Fin ys.length, StrictMono f ∧ ∀ i, R xs[i] ys[f i] := by
  rw [sublistForall₂_iff]
  constructor
  · rintro ⟨zs, hAll, hSub⟩
    rcases sublist_iff_exists_fin_orderEmbedding_get_eq.mp hSub with ⟨g, hGet⟩
    have hLen := hAll.length_eq
    refine ⟨fun i => g (i.cast hLen), ?_, ?_⟩
    · intro i j hLt
      exact g.strictMono hLt
    · intro i
      have hAt := (forall₂_iff_get.mp hAll).2 i.val i.isLt (hLen ▸ i.isLt)
      have hSame := hGet (i.cast hLen)
      simp only [get_eq_getElem, Fin.val_cast] at hAt hSame
      rwa [hSame] at hAt
  · rintro ⟨f, hMono, hAll⟩
    refine ⟨ofFn fun i => ys[f i], ?_, ?_⟩
    · rw [forall₂_iff_get]
      refine ⟨by simp, ?_⟩
      intro i hLeft hRight
      simpa using hAll ⟨i, hLeft⟩
    · rw [sublist_iff_exists_fin_orderEmbedding_get_eq]
      refine ⟨OrderEmbedding.ofStrictMono (fun i => f (i.cast (by simp))) ?_, ?_⟩
      · intro i j hLt
        exact hMono hLt
      · intro i
        rw [get_ofFn]
        rfl

end Matching
