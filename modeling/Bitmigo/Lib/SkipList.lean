import Mathlib.Data.Nat.Bitwise
import Mathlib.Tactic.Ring

/-
  A deterministic skip list over heights: every height has one pointer further down, found by
  clearing low bits.

  Key definitions include:
    * `SkipList.landing`, where the pointer of a height leads
    * `SkipList.hop`, one step of the walk to a target: the pointer, or one down
    * `SkipList.potential`

  Key theorems include:
    * `SkipList.hop_spec`, a step stays above the target and lowers the potential
    * `SkipList.potential_le`, the potential of a walk below `2 ^ n` is quadratic in `n`
    * `SkipList.hop_iterate`, the walk gets to its target

  Compare the height reached with the target, bit by bit. Above the highest bit where they differ
  nothing changes. Below it every pointer clears set bits, and when none are left that highest bit
  is cleared too.
-/

open Nat

namespace SkipList

variable {t w n : Nat}

--------
-- Pointers
--------

/- The number without its lowest set bit. -/
def clearLowest (n : Nat) : Nat :=
  n &&& (n - 1)

/- Where the pointer of a height leads. -/
def landing (height : Nat) : Nat :=
  if height < 2 then
    0
  else if height % 2 = 0 then
    clearLowest height
  else
    clearLowest (clearLowest (height - 1)) + 1

/-
  The pointer is followed to the target, or to above it unless the pointer one down leads further
  without passing it.
-/
def Takes (height target : Nat) : Prop :=
  landing height = target ∨
    (target < landing height ∧
      ¬ (landing (height - 1) < landing height - 2 ∧ target ≤ landing (height - 1)))

instance (height target : Nat) :
    Decidable (Takes height target) :=
  inferInstanceAs (Decidable (_ ∨ _))

/- One step of the walk. -/
def hop (height target : Nat) : Nat :=
  if Takes height target then landing height else height - 1

--------
-- Clearing Bits
--------

theorem clearLowest_two_mul (n : Nat) : clearLowest (2 * n) = 2 * clearLowest n := by
  rcases Nat.eq_zero_or_pos n with rfl | hPos
  · rfl
  · have hPred : 2 * n - 1 = 2 * (n - 1) + 1 := by omega
    unfold clearLowest
    apply eq_of_testBit_eq
    intro bit
    cases bit with
    | zero => simp [testBit_zero, hPred]
    | succ bit =>
      rw [testBit_and, testBit_succ, testBit_succ, testBit_succ, hPred]
      have hHalf : (2 * (n - 1) + 1) / 2 = n - 1 := by omega
      rw [hHalf, Nat.mul_div_cancel_left _ (by decide),
        Nat.mul_div_cancel_left _ (by decide), testBit_and]

theorem clearLowest_two_mul_add_one (n : Nat) : clearLowest (2 * n + 1) = 2 * n := by
  unfold clearLowest
  rw [Nat.add_sub_cancel]
  apply eq_of_testBit_eq
  intro bit
  cases bit with
  | zero => simp [testBit_zero]
  | succ bit =>
    rw [testBit_and, testBit_succ, testBit_succ]
    have hHalf : (2 * n + 1) / 2 = n := by omega
    rw [hHalf, Nat.mul_div_cancel_left _ (by decide), Bool.and_self]

theorem clearLowest_zero : clearLowest 0 = 0 := rfl

theorem clearLowest_lt (hPos : 0 < n) : clearLowest n < n := by
  have hLe : clearLowest n ≤ n - 1 := and_le_right
  omega

theorem clearLowest_le (n : Nat) : clearLowest n ≤ n :=
  and_le_left

--------
-- Where Two Numbers Differ
--------

/- The place of the highest bit where two numbers differ. -/
def level (w t : Nat) : Nat :=
  if w / 2 = t / 2 then
    0
  else
    level (w / 2) (t / 2) + 1
termination_by w + t
decreasing_by omega

/- The set bits of the first number below that place. -/
def ones (w t : Nat) : Nat :=
  if w / 2 = t / 2 then
    0
  else
    ones (w / 2) (t / 2) + w % 2
termination_by w + t
decreasing_by omega

theorem level_of_eq (hHalf : w / 2 = t / 2) : level w t = 0 := by
  rw [level, if_pos hHalf]

theorem level_of_ne (hHalf : w / 2 ≠ t / 2) : level w t = level (w / 2) (t / 2) + 1 := by
  rw [level, if_neg hHalf]

theorem ones_of_eq (hHalf : w / 2 = t / 2) : ones w t = 0 := by
  rw [ones, if_pos hHalf]

theorem ones_of_ne (hHalf : w / 2 ≠ t / 2) : ones w t = ones (w / 2) (t / 2) + w % 2 := by
  rw [ones, if_neg hHalf]

theorem ones_le_level (w t : Nat) : ones w t ≤ level w t := by
  induction w, t using level.induct with
  | case1 w t hHalf =>
    rw [ones_of_eq hHalf]
    exact Nat.zero_le _
  | case2 w t hHalf ih =>
    rw [ones_of_ne hHalf, level_of_ne hHalf]
    omega

theorem level_lt (hw : w < 2 ^ (n + 1)) (ht : t < 2 ^ (n + 1)) : level w t ≤ n := by
  induction w, t using level.induct generalizing n with
  | case1 w t hHalf =>
    rw [level_of_eq hHalf]
    exact Nat.zero_le _
  | case2 w t hHalf ih =>
    rw [level_of_ne hHalf]
    cases n with
    | zero => omega
    | succ n =>
      rw [Nat.pow_succ] at hw ht
      exact succ_le_succ (ih (by omega) (by omega))

/- One bit more below the place where they differ. -/
theorem level_two_mul_add {bit : Nat} (hBit : bit < 2) (hHalf : n ≠ t / 2) :
    level (2 * n + bit) t = level n (t / 2) + 1 ∧ ones (2 * n + bit) t = ones n (t / 2) + bit := by
  have hFst : (2 * n + bit) / 2 = n := by omega
  have hLast : (2 * n + bit) % 2 = bit := by omega
  constructor
  · rw [level_of_ne (by rwa [hFst]), hFst]
  · rw [ones_of_ne (by rwa [hFst]), hFst, hLast]

/- The lowest bit of the first number, above the second. -/
theorem level_pred_of_odd (hAbove : t < 2 * n) :
    level (2 * n + 1) t = level (2 * n) t ∧ ones (2 * n + 1) t = ones (2 * n) t + 1 := by
  have hHalf : n ≠ t / 2 := by omega
  have hOdd := level_two_mul_add (show 1 < 2 by decide) hHalf
  have hEven := level_two_mul_add (show 0 < 2 by decide) hHalf
  rw [Nat.add_zero] at hEven
  omega

/- Clearing a bit and staying above clears one below. -/
theorem level_clearLowest (hAbove : t < clearLowest w) :
    level (clearLowest w) t = level w t ∧ ones (clearLowest w) t + 1 = ones w t := by
  induction w using Nat.strong_induction_on generalizing t with
  | _ w ih =>
    rcases even_or_odd' w with ⟨n, rfl | rfl⟩
    · rw [clearLowest_two_mul] at hAbove ⊢
      have hPos : 0 < n := by
        by_contra hZero
        have hn : n = 0 := by omega
        subst hn
        simp [clearLowest_zero] at hAbove
      have hLt := clearLowest_lt hPos
      have hBelow : t / 2 < clearLowest n := by omega
      rcases ih n (by omega) hBelow with ⟨hLevel, hOnes⟩
      have hFst := level_two_mul_add (show 0 < 2 by decide) (Nat.ne_of_gt hBelow)
      have hSnd := level_two_mul_add (show 0 < 2 by decide) (Nat.ne_of_gt (Nat.lt_trans hBelow hLt))
      rw [Nat.add_zero] at hFst hSnd
      omega
    · rw [clearLowest_two_mul_add_one] at hAbove ⊢
      rcases level_pred_of_odd hAbove with ⟨hLevel, hOnes⟩
      exact ⟨hLevel.symm, hOnes.symm⟩

/- Where clearing a bit passes the target, one down agrees with it in one more place. -/
theorem level_pred_lt (hPasses : clearLowest w ≤ t) (hAbove : t < w) :
    w - 1 = t ∨ level (w - 1) t < level w t := by
  induction w using Nat.strong_induction_on generalizing t with
  | _ w ih =>
    rcases even_or_odd' w with ⟨n, rfl | rfl⟩
    · rw [clearLowest_two_mul] at hPasses
      have hBelow : clearLowest n ≤ t / 2 := by omega
      have hHalf : t / 2 < n := by omega
      have hPred : (2 * n - 1) / 2 = n - 1 := by omega
      have hEven : 2 * n / 2 = n := by omega
      rw [level_of_ne (show 2 * n / 2 ≠ t / 2 by omega), hEven]
      by_cases hSame : n - 1 = t / 2
      · right
        rw [level_of_eq (by omega)]
        exact succ_pos _
      · right
        rw [level_of_ne (show (2 * n - 1) / 2 ≠ t / 2 by
          omega), hPred]
        rcases ih n (by omega) hBelow hHalf with hEq | hLt
        · exact absurd hEq hSame
        · exact succ_lt_succ hLt
    · rw [clearLowest_two_mul_add_one] at hPasses
      left
      omega

--------
-- Steps
--------

/-
  Bounds the steps left of a walk. The last term pays for the step down from an even height to an
  odd one whose pointer is the better one.
-/
def potential (w t : Nat) : Nat :=
  if w = t then
    0
  else
    level w t ^ 2 + 2 * ones w t + 1 + (if w % 2 = 1 ∧ t ≤ landing w then 0 else 3)

theorem potential_self (t : Nat) : potential t t = 0 := by
  simp [potential]

theorem potential_le (hw : w < 2 ^ (n + 1)) (ht : t < 2 ^ (n + 1)) :
    potential w t ≤ n ^ 2 + 2 * n + 4 := by
  have hLevel := level_lt hw ht
  have hOnes := ones_le_level w t
  have hSquare : level w t ^ 2 ≤ n ^ 2 := Nat.pow_le_pow_left hLevel 2
  unfold potential
  split
  · omega
  · split <;> omega

theorem landing_even (hPos : 0 < n) : landing (2 * n) = 2 * clearLowest n := by
  rw [landing, if_neg (by omega), if_pos (by omega), clearLowest_two_mul]

theorem landing_odd (hPos : 0 < n) : landing (2 * n + 1) = 2 * clearLowest (clearLowest n) + 1 := by
  rw [landing, if_neg (by omega), if_neg (by omega),
    Nat.add_sub_cancel, clearLowest_two_mul, clearLowest_two_mul]

theorem landing_lt {height : Nat} (hPos : 0 < height) : landing height < height := by
  rcases even_or_odd' height with ⟨n, rfl | rfl⟩
  · have hLt := clearLowest_lt (show 0 < n by omega)
    rw [landing_even (by omega)]
    omega
  · rcases Nat.eq_zero_or_pos n with rfl | hn
    · decide
    · have hLt := clearLowest_lt hn
      have hLe := clearLowest_le (clearLowest n)
      rw [landing_odd hn]
      omega

theorem potential_of_ne (hNe : w ≠ t) :
    potential w t =
      level w t ^ 2 + 2 * ones w t + 1 + (if w % 2 = 1 ∧ t ≤ landing w then 0 else 3) := by
  rw [potential, if_neg hNe]

theorem potential_le_of_level (w t : Nat) : potential w t ≤ level w t ^ 2 + 2 * ones w t + 4 := by
  unfold potential
  split
  · omega
  · split <;> omega

theorem potential_pos (hNe : w ≠ t) : 0 < potential w t := by
  rw [potential_of_ne hNe]
  omega

/- One place more in common pays for every bit below it. -/
theorem potential_lt_of_level_lt {v : Nat} (hNe : w ≠ t) (hPlain : ¬ (w % 2 = 1 ∧ t ≤ landing w))
    (hLevel : level v t < level w t) : potential v t < potential w t := by
  have hLe := potential_le_of_level v t
  have hOnes := ones_le_level v t
  have hSquare : (level v t + 1) ^ 2 ≤ level w t ^ 2 := Nat.pow_le_pow_left hLevel 2
  have hExpand : (level v t + 1) ^ 2 = level v t ^ 2 + 2 * level v t + 1 := by ring
  rw [potential_of_ne hNe, if_neg hPlain]
  omega

section

variable {n t : Nat}

/- Following the pointer of an even height. -/
theorem potential_landing_even (hAbove : t < landing (2 * n)) (hPos : 0 < n) :
    potential (landing (2 * n)) t < potential (2 * n) t := by
  have hLt := landing_lt (show 0 < 2 * n by omega)
  rw [landing_even hPos] at hAbove hLt ⊢
  rw [← clearLowest_two_mul] at hAbove hLt ⊢
  rcases level_clearLowest hAbove with ⟨hLevel, hOnes⟩
  have hLe := potential_le_of_level (clearLowest (2 * n)) t
  rw [potential_of_ne (show 2 * n ≠ t by omega), if_neg (by omega)]
  rw [hLevel] at hLe
  omega

/- Where the pointer one down is better, the height is not a
  multiple of eight, and one down has one bit more at most. -/
theorem level_pred_of_better (hPos : 0 < n) (hBetter : landing (2 * n - 1) < landing (2 * n) - 2)
    (hTarget : t ≤ landing (2 * n - 1)) :
    level (2 * n - 1) t = level (2 * n) t ∧ ones (2 * n - 1) t ≤ ones (2 * n) t + 1 := by
  rw [landing_even hPos] at hBetter
  rcases even_or_odd' n with ⟨m, rfl | rfl⟩
  · rcases even_or_odd' m with ⟨j, rfl | rfl⟩
    · -- a multiple of eight
      have hOdd : 2 * (2 * (2 * j)) - 1 = 2 * (2 * (2 * (j - 1) + 1) + 1) + 1 := by omega
      have hLt := clearLowest_lt (show 0 < j by omega)
      rw [hOdd, landing_odd (by omega), clearLowest_two_mul_add_one, clearLowest_two_mul,
        clearLowest_two_mul_add_one, clearLowest_two_mul, clearLowest_two_mul] at hBetter
      omega
    · rw [clearLowest_two_mul, clearLowest_two_mul_add_one] at hBetter
      have hOdd : 2 * (2 * (2 * j + 1)) - 1 = 2 * (2 * (2 * j) + 1) + 1 := by omega
      have hEighth : j ≠ t / 2 / 2 / 2 := by omega
      have hFour := level_two_mul_add (show 1 < 2 by decide) hEighth
      have hTwo := level_two_mul_add (show 0 < 2 by decide) (show 2 * j + 1 ≠ t / 2 / 2 by omega)
      have hOne := level_two_mul_add (show 0 < 2 by decide) (show 2 * (2 * j + 1) ≠ t / 2 by omega)
      have hFour' := level_two_mul_add (show 0 < 2 by decide) hEighth
      have hTwo' := level_two_mul_add (show 1 < 2 by decide) (show 2 * j ≠ t / 2 / 2 by omega)
      have hOne' := level_two_mul_add (show 1 < 2 by decide) (show 2 * (2 * j) + 1 ≠ t / 2 by omega)
      simp only [Nat.add_zero] at hTwo hOne hFour'
      rw [hOdd]
      omega
  · rw [clearLowest_two_mul_add_one] at hBetter
    have hOdd : 2 * (2 * m + 1) - 1 = 2 * (2 * m) + 1 := by omega
    have hFourth : m ≠ t / 2 / 2 := by omega
    have hTwo := level_two_mul_add (show 1 < 2 by decide) hFourth
    have hOne := level_two_mul_add (show 0 < 2 by decide) (show 2 * m + 1 ≠ t / 2 by omega)
    have hTwo' := level_two_mul_add (show 0 < 2 by decide) hFourth
    have hOne' := level_two_mul_add (show 1 < 2 by decide) (show 2 * m ≠ t / 2 by omega)
    simp only [Nat.add_zero] at hOne hTwo'
    rw [hOdd]
    omega

/- One down from an even height. -/
theorem potential_pred_even (hAbove : t < 2 * n) (hTakes : ¬ Takes (2 * n) t) :
    potential (2 * n - 1) t < potential (2 * n) t := by
  have hPos : 0 < n := by omega
  by_cases hPred : 2 * n - 1 = t
  · rw [hPred, potential_self]
    exact potential_pos (by omega)
  · simp only [Takes, not_or] at hTakes
    rcases Nat.lt_trichotomy t (landing (2 * n)) with hBelow | hEq | hPasses
    · -- the pointer one down is the better one
      rcases Decidable.not_not.1 (fun hWorse => hTakes.2 ⟨hBelow, hWorse⟩) with ⟨hBetter, hTarget⟩
      rcases level_pred_of_better hPos hBetter hTarget with ⟨hLevel, hOnes⟩
      rw [potential_of_ne hPred, if_pos ⟨by omega, hTarget⟩,
        potential_of_ne (by omega), if_neg (by omega), hLevel]
      omega
    · exact absurd hEq.symm hTakes.1
    · -- the pointer passes the target
      rw [landing_even hPos, ← clearLowest_two_mul] at hPasses
      rcases level_pred_lt (Nat.le_of_lt hPasses) hAbove with hEq | hLevel
      · exact absurd hEq hPred
      · exact potential_lt_of_level_lt (by omega) (by omega) hLevel

end

section

variable {n t : Nat}

/- Following the pointer of an odd height. -/
theorem potential_landing_odd (hPos : 0 < n) (hAbove : t < landing (2 * n + 1)) :
    potential (landing (2 * n + 1)) t < potential (2 * n + 1) t := by
  have hBonus : (2 * n + 1) % 2 = 1 ∧ t ≤ landing (2 * n + 1) := ⟨by omega, Nat.le_of_lt hAbove⟩
  have hLt := landing_lt (show 0 < 2 * n + 1 by omega)
  rw [potential_of_ne (show 2 * n + 1 ≠ t by omega), if_pos hBonus]
  rw [landing_odd hPos] at hAbove ⊢
  have hSnd := clearLowest_le (clearLowest n)
  have hFst := clearLowest_lt hPos
  by_cases hStrict : t < 2 * clearLowest (clearLowest n)
  · -- two set bits are cleared
    have hTwice := hStrict
    rw [← clearLowest_two_mul, ← clearLowest_two_mul] at hTwice
    have hOnce : t < clearLowest (2 * n) := by
      rw [clearLowest_two_mul]
      omega
    have hClearTwice := level_clearLowest hTwice
    have hClearOnce := level_clearLowest hOnce
    rw [clearLowest_two_mul, clearLowest_two_mul] at hClearTwice
    rw [clearLowest_two_mul] at hClearOnce
    have hAfter := level_pred_of_odd hStrict
    have hBefore := level_pred_of_odd (show t < 2 * n by omega)
    have hLe := potential_le_of_level (2 * clearLowest (clearLowest n) + 1) t
    have hLevel : level (2 * clearLowest (clearLowest n) + 1) t = level (2 * n + 1) t := by omega
    rw [hLevel] at hLe
    omega
  · -- the pointer leads to just above the target
    have hHalf : (2 * clearLowest (clearLowest n) + 1) / 2 = t / 2 := by omega
    have hLe := potential_le_of_level (2 * clearLowest (clearLowest n) + 1) t
    rw [level_of_eq hHalf, ones_of_eq hHalf] at hLe
    have hBefore := level_pred_of_odd (show t < 2 * n by omega)
    have hOnes := ones_le_level (2 * n) t
    rcases Nat.eq_zero_or_pos (clearLowest n) with hZero | hMore
    · -- the target is zero, and the next pointer leads there
      have hNext : potential (2 * clearLowest (clearLowest n) + 1) t = 1 := by
        have hNear : t ≤ landing (2 * clearLowest (clearLowest n) + 1) := by omega
        rw [potential_of_ne (by omega),
          if_pos ⟨by omega, hNear⟩, level_of_eq hHalf, ones_of_eq hHalf]
        rfl
      have hLevel := level_of_ne (show 2 * n / 2 ≠ t / 2 by omega)
      have hSquare : 1 ≤ level (2 * n + 1) t ^ 2 := one_le_pow _ _ (by omega)
      omega
    · have hOnce : t < clearLowest (2 * n) := by
        have hLess := clearLowest_lt hMore
        rw [clearLowest_two_mul]
        omega
      have hCleared := level_clearLowest hOnce
      have hSquare : 1 ≤ level (2 * n + 1) t ^ 2 := one_le_pow _ _ (by omega)
      omega

/- One down from an odd height. -/
theorem potential_pred_odd (hAbove : t < 2 * n + 1) (hPasses : landing (2 * n + 1) < t) :
    potential (2 * n) t < potential (2 * n + 1) t := by
  by_cases hPred : 2 * n = t
  · rw [hPred, potential_self]
    exact potential_pos (by omega)
  · have hBefore := level_pred_of_odd (show t < 2 * n by omega)
    rw [potential_of_ne hPred, if_neg (by omega),
      potential_of_ne (by omega), if_neg (by omega), hBefore.1, hBefore.2]
    omega

/- The pointer of an odd height is never the worse one. -/
theorem takes_odd (hPos : 0 < n) (hAbove : t < landing (2 * n + 1)) : Takes (2 * n + 1) t := by
  refine .inr ⟨hAbove, ?_⟩
  rintro ⟨hBetter, _⟩
  have hLe := clearLowest_le (clearLowest n)
  rw [Nat.add_sub_cancel, landing_even hPos, landing_odd hPos] at hBetter
  omega

end

theorem potential_hop_lt (hAbove : t < w) : potential (hop w t) t < potential w t := by
  unfold hop
  by_cases hEq : landing w = t
  · rw [if_pos (.inl hEq), hEq, potential_self]
    exact potential_pos (by omega)
  · rcases even_or_odd' w with ⟨n, rfl | rfl⟩
    · split
      · rename_i hTakes
        have hBelow := (hTakes.resolve_left hEq).1
        exact potential_landing_even hBelow (by omega)
      · rename_i hTakes
        exact potential_pred_even hAbove hTakes
    · rcases Nat.eq_zero_or_pos n with rfl | hPos
      · have hTarget : t = 0 := by omega
        exact absurd hTarget.symm hEq
      · rcases Nat.lt_or_gt_of_ne hEq with hPasses | hBelow
        · have hTakes : ¬ Takes (2 * n + 1) t := by
            rintro (hSame | ⟨hBelow, _⟩) <;> omega
          rw [if_neg hTakes]
          exact potential_pred_odd hAbove hPasses
        · rw [if_pos (takes_odd hPos hBelow)]
          exact potential_landing_odd hPos hBelow

/- A step stays above the target and lowers the potential. -/
theorem hop_spec (hAbove : t < w) :
    t ≤ hop w t ∧ hop w t < w ∧ potential (hop w t) t < potential w t := by
  refine ⟨?_, ?_, potential_hop_lt hAbove⟩
  · unfold hop
    split
    · rename_i hTakes
      rcases hTakes with hEq | hBelow <;> omega
    · omega
  · have hLt := landing_lt (show 0 < w by omega)
    unfold hop
    split <;> omega

/- The walk gets to its target. -/
theorem hop_iterate (hTarget : t ≤ w) : ∃ steps ≤ potential w t, (hop · t)^[steps] w = t := by
  induction w using Nat.strong_induction_on with
  | _ w ih =>
    rcases Nat.eq_or_lt_of_le hTarget with rfl | hAbove
    · exact ⟨0, Nat.zero_le _, rfl⟩
    · rcases hop_spec hAbove with ⟨hStays, hLower, hLess⟩
      rcases ih _ hLower hStays with ⟨steps, hSteps, hEnd⟩
      exact ⟨steps + 1, by omega, hEnd⟩

end SkipList
