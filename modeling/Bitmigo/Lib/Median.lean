import Mathlib.Data.List.GetD
import Mathlib.Data.List.Sort

/-
  The middle of a sorted window, and what happens to it when the window moves.

  Key definitions include:
    * `Median.middle`

  Key theorems include:
    * `Median.le_getElem_iff`, a sorted list and its ranks
    * `Median.le_middle_iff`, the middle by counting
    * `Median.middle_le_cons`, a window that takes in a value above its middle, and gets no shorter,
      does not lower it
-/

open List

namespace Median

variable {α : Type} [LE α] [LT α]

variable [DecidableLT α] [Std.IsLinearOrder α] [Std.LawfulOrderLT α] {xs : List α}

/-
  What stands at a rank is at least the bound exactly if not more values than the rank are below it.
-/
theorem le_getElem_iff (hSorted : xs.Pairwise (· ≤ ·)) {rank : Nat} (hRank : rank < xs.length)
    (bound : α) : bound ≤ xs[rank] ↔ xs.countP (· < bound) ≤ rank := by
  induction xs generalizing rank with
  | nil => simp at hRank
  | cons x xs ih =>
    rcases pairwise_cons.mp hSorted with ⟨hHead, hTail⟩
    -- nothing is below the bound once the head is not
    have hNone : bound ≤ x → xs.countP (· < bound) = 0 := by
      intro hLe
      simp only [countP_eq_zero, decide_eq_true_eq, Std.not_lt]
      intro y hy
      exact Std.le_trans hLe (hHead y hy)
    rw [countP_cons]
    by_cases hLt : x < bound
    · cases rank with
      | zero => simp [hLt, Std.not_le.mpr hLt]
      | succ rank =>
        have hRest : rank < xs.length := by simpa using hRank
        simp [hLt, ih hTail hRest]
    · have hLe := Std.not_lt.mp hLt
      have hAt : bound ≤ (x :: xs)[rank] := by
        rcases mem_cons.mp (getElem_mem hRank) with hEq | hMem
        · rwa [hEq]
        · exact Std.le_trans hLe (hHead _ hMem)
      simp [hAt, hNone hLe, hLt]

variable [DecidableLE α]

/- The sorted values at half their number. -/
def middle (default : α) (xs : List α) : α :=
  (xs.insertionSort (· ≤ ·)).getD (xs.length / 2) default

theorem le_middle_iff (hNe : xs ≠ []) (default bound : α) :
    bound ≤ middle default xs ↔ xs.countP (· < bound) ≤ xs.length / 2 := by
  have hPos := length_pos_iff.mpr hNe
  have hRank : xs.length / 2 < (xs.insertionSort (· ≤ ·)).length := by
    rw [length_insertionSort]
    omega
  rw [middle, getD_eq_getElem _ _ hRank, le_getElem_iff (pairwise_insertionSort _ _) hRank,
    (perm_insertionSort (· ≤ ·) xs).countP_eq]

/-
  The values below the old middle are at most half of the old window, and the new value is not one
  of them.
-/
theorem middle_le_cons {kept : List α} {x : α} (hNe : xs ≠ []) (hKept : kept.Sublist xs)
    (hLen : xs.length ≤ (x :: kept).length) {default : α} (hAbove : middle default xs < x) :
    middle default xs ≤ middle default (x :: kept) := by
  have hOld := (le_middle_iff hNe default _).mp (Std.le_refl _)
  have hSub := hKept.countP_le (p := (· < middle default xs))
  rw [le_middle_iff (cons_ne_nil _ _), countP_cons_of_neg (by
      simpa using Std.not_lt.mpr (Std.le_of_lt hAbove))]
  omega

end Median
