import Bitmigo.Lib.Outcome
import Mathlib.Tactic.Linarith
import Mathlib.Tactic.LinearCombination
import Mathlib.Tactic.Ring

/-
  Positional arithmetic on fixed-length lists of limbs.

  Key definitions include:
    * `Limbs.value`, the number a list of limbs stands for
    * `Limbs.scanUp`, a loop from the least significant limb
    * `Limbs.scanDown`, a loop from the most significant limb

  Key theorems include:
    * `Limbs.lt_iff_value_lt`, the lexicographic order is the numeric one
    * `Limbs.scanUp_spec` and `Limbs.scanDown_spec`, the loop rules for carries and for remainders

  The most significant limb is the head. A loop threads a carry or a remainder through the limbs,
  and its rule turns the equation of one step into the equation of the whole number.
-/

open List

namespace Limbs

open Result

--------
-- Values
--------

/- The number with these limbs in base `base`. -/
def value (base : Nat) : List Nat → Nat
  | [] => 0
  | limb :: rest =>
    limb * base ^ rest.length + value base rest

@[simp] theorem value_nil (base : Nat) :
    value base [] = 0 := rfl

@[simp] theorem value_cons (base limb : Nat) (rest : List Nat) :
    value base (limb :: rest) = limb * base ^ rest.length + value base rest := rfl

variable {base : Nat}

theorem value_lt {limbs : List Nat} (hLimbs : ∀ limb ∈ limbs, limb < base) :
    value base limbs < base ^ limbs.length := by
  induction limbs with
  | nil => simp
  | cons limb rest ih =>
    have hHead := hLimbs limb mem_cons_self
    have hRest := ih fun other hOther =>
      hLimbs other (mem_cons_of_mem _ hOther)
    rw [value_cons, length_cons, Nat.pow_succ]
    calc limb * base ^ rest.length + value base rest
        < limb * base ^ rest.length + base ^ rest.length := by omega
      _ = (limb + 1) * base ^ rest.length := by ring
      _ ≤ base * base ^ rest.length := Nat.mul_le_mul_right _ hHead
      _ = base ^ rest.length * base := Nat.mul_comm _ _

section

variable {left right : List Nat} (hLen : left.length = right.length)
variable (hLeft : ∀ limb ∈ left, limb < base) (hRight : ∀ limb ∈ right, limb < base)

include hLen hLeft hRight

/- The limbs of a number are determined by it. -/
theorem value_inj (hValue : value base left = value base right) : left = right := by
  induction left generalizing right with
  | nil => exact (length_eq_zero_iff.mp hLen.symm).symm
  | cons a as ih =>
    rcases right with _ | ⟨b, bs⟩
    · cases hLen
    have hLens : as.length = bs.length := by simpa using hLen
    rw [forall_mem_cons] at hLeft hRight
    have hLowLeft := value_lt hLeft.2
    have hLowRight := value_lt hRight.2
    rw [value_cons, value_cons, hLens] at hValue
    rw [hLens] at hLowLeft
    have hHead : a = b := by
      have hPos : 0 < base ^ bs.length := by omega
      have hDiv := congrArg (· / base ^ bs.length) hValue
      simp only [Nat.mul_comm _ (base ^ bs.length), Nat.mul_add_div hPos, Nat.div_eq_of_lt hLowLeft,
        Nat.div_eq_of_lt hLowRight, Nat.add_zero] at hDiv
      exact hDiv
    subst hHead
    rw [ih hLens hLeft.2 hRight.2 (Nat.add_left_cancel hValue)]

/- The lexicographic order of limbs is the numeric order. -/
theorem lt_iff_value_lt : left < right ↔ value base left < value base right := by
  induction left generalizing right with
  | nil =>
    rw [length_eq_zero_iff.mp hLen.symm]
    simp
  | cons a as ih =>
    rcases right with _ | ⟨b, bs⟩
    · cases hLen
    have hLens : as.length = bs.length := by simpa using hLen
    rw [forall_mem_cons] at hLeft hRight
    have hLowLeft := value_lt hLeft.2
    have hLowRight := value_lt hRight.2
    have hRest := ih hLens hLeft.2 hRight.2
    rw [hLens] at hLowLeft
    rw [cons_lt_cons_iff, hRest, value_cons, value_cons, hLens]
    rcases Nat.lt_trichotomy a b with hLt | rfl | hGt
    · have hStep : (a + 1) * base ^ bs.length ≤ b * base ^ bs.length := Nat.mul_le_mul_right _ hLt
      rw [Nat.add_mul, Nat.one_mul] at hStep
      exact ⟨fun _ => by omega, fun _ => .inl hLt⟩
    · simp
    · have hStep : (b + 1) * base ^ bs.length ≤ a * base ^ bs.length := Nat.mul_le_mul_right _ hGt
      rw [Nat.add_mul, Nat.one_mul] at hStep
      constructor
      · rintro (hLt | ⟨hEq, _⟩) <;> omega
      · intro hLt
        omega

end

--------
-- Loops
--------

section

variable {ε α β κ : Type}

/- Build limbs from the least significant, with a carry. -/
def scanUp (step : α → κ → Result ε (β × κ)) (digits : List α) (carry : κ) :
    Result ε ({ limbs : List β // limbs.length = digits.length } × κ) :=
  match digits with
  | [] => .ok (⟨[], rfl⟩, carry)
  | digit :: rest => do
      let (limbs, carry) ← scanUp step rest carry
      let (limb, carry) ← step digit carry
      return (⟨limb :: limbs.val, by
        simp [limbs.property]⟩, carry)

/- Build limbs from the most significant, with a remainder. -/
def scanDown (step : α → κ → Result ε (β × κ)) (digits : List α) (remainder : κ) :
    Result ε ({ limbs : List β // limbs.length = digits.length } × κ) :=
  match digits with
  | [] => .ok (⟨[], rfl⟩, remainder)
  | digit :: rest => do
      let (limb, remainder) ← step digit remainder
      let (limbs, remainder) ← scanDown step rest remainder
      return (⟨limb :: limbs.val, by
        simp [limbs.property]⟩, remainder)

/- The signed number with these digits. -/
def signedValue (base : Nat) : List Int → Int
  | [] => 0
  | digit :: rest =>
    digit * (base : Int) ^ rest.length + signedValue base rest

/-
  The rule of a carry loop. Each step splits its digit and the carry it is given into a limb and the
  next carry; the limbs then split the whole number.
-/
theorem scanUp_spec
    {base : Nat} {step : α → κ → Result ε (β × κ)} (toNat : β → Nat) (digit : α → Int)
    (weight : κ → Int) (I : κ → Prop) {digits : List α} {carry : κ} (hCarry : I carry)
    (hStep : ∀ a ∈ digits, ∀ c, I c → ∃ limb next, step a c = .ok (limb, next) ∧ I next ∧
          (toNat limb : Int) + base * weight next = digit a + weight c) :
    ∃ limbs last, scanUp step digits carry = .ok (limbs, last) ∧ I last ∧
      (value base (limbs.val.map toNat) : Int) + (base : Int) ^ digits.length * weight last =
        signedValue base (digits.map digit) + weight carry := by
  induction digits with
  | nil =>
    exact ⟨⟨[], rfl⟩, carry, rfl, hCarry, by
      simp [signedValue]⟩
  | cons a rest ih =>
    rcases ih fun b hB =>
        hStep b (mem_cons_of_mem _ hB) with
      ⟨limbs, middle, hScan, hMiddle, hValue⟩
    rcases hStep a mem_cons_self middle hMiddle with ⟨limb, last, hLast, hInv, hEq⟩
    refine ⟨⟨limb :: limbs.val, by simp [limbs.property]⟩, last, ?_, hInv, ?_⟩
    · simp only [scanUp, hScan, hLast, ok_bind, pure_eq_ok]
    · simp only [value_cons, map_cons, signedValue, length_cons, length_map, limbs.property]
      push_cast
      linear_combination hValue + (base : Int) ^ rest.length * hEq

/-
  The rule of a division loop. Each step divides the remainder it is given, followed by its digit;
  the limbs are then the quotient of the whole number.
-/
theorem scanDown_spec
    {base divisor : Nat} {step : α → Nat → Result ε (β × Nat)} (toNat : β → Nat) (digit : α → Nat)
    {digits : List α} {remainder : Nat} (hRem : remainder < divisor)
    (hStep : ∀ a ∈ digits, ∀ r, r < divisor → ∃ limb next,
        step a r = .ok (limb, next) ∧ next < divisor ∧
          divisor * toNat limb + next = r * base + digit a) :
    ∃ limbs last, scanDown step digits remainder = .ok (limbs, last) ∧ last < divisor ∧
      divisor * value base (limbs.val.map toNat) + last =
        remainder * base ^ digits.length + value base (digits.map digit) := by
  induction digits generalizing remainder with
  | nil => exact ⟨⟨[], rfl⟩, remainder, rfl, hRem, by simp⟩
  | cons a rest ih =>
    rcases hStep a mem_cons_self remainder hRem with ⟨limb, middle, hFst, hMiddle, hEq⟩
    rcases ih hMiddle fun b hB =>
        hStep b (mem_cons_of_mem _ hB) with
      ⟨limbs, last, hScan, hLast, hValue⟩
    refine ⟨⟨limb :: limbs.val, by simp [limbs.property]⟩, last, ?_, hLast, ?_⟩
    · simp only [scanDown, hScan, hFst, ok_bind, pure_eq_ok]
    · simp only [map_cons, value_cons, length_map, limbs.property, length_cons, Nat.pow_succ]
      calc divisor *
            (toNat limb * base ^ rest.length + value base (limbs.val.map toNat)) + last
          = divisor * toNat limb * base ^ rest.length +
              (divisor * value base (limbs.val.map toNat) + last) := by
            ring
        _ = (divisor * toNat limb + middle) * base ^ rest.length + value base (rest.map digit) := by
            rw [hValue]
            ring
        _ = _ := by
            rw [hEq]
            ring

end

end Limbs
