import Mathlib.Tactic.Ring

/-
  Walking back with a step that is one for a while and then doubles.

  Key definitions include:
    * `Backoff.step` and `Backoff.depth`, the step after so many stops and how far back the next
      stop is
    * `Backoff.reach`, the first stop at or past a distance

  Key theorems include:
    * `Backoff.depth_reach_of_le`, near distances are met exactly
    * `Backoff.depth_reach_le`, and no distance is overshot by more than itself
    * `Backoff.reach_le`, the stops are logarithmically many
-/

namespace Backoff

variable (plain : Nat)

/- The step taken from the stop with this number. -/
def step (stop : Nat) : Nat :=
  2 ^ (stop - plain)

/- How far back the stop with this number is. -/
def depth : Nat → Nat
  | 0 => 0
  | stop + 1 => depth stop + step plain stop

theorem step_pos (stop : Nat) : 0 < step plain stop :=
  Nat.two_pow_pos _

theorem step_succ (stop : Nat) :
    step plain (stop + 1) = if plain ≤ stop then
        2 * step plain stop
      else
        step plain stop := by
  unfold step
  split
  case isTrue hPlain =>
    rw [Nat.succ_sub hPlain, Nat.pow_succ, Nat.mul_comm]
  case isFalse hPlain =>
    have hZero : stop + 1 - plain = 0 := by omega
    have hZero' : stop - plain = 0 := by omega
    rw [hZero, hZero']

theorem depth_strictMono : StrictMono (depth plain) := by
  refine strictMono_nat_of_lt_succ ?_
  intro stop
  have hStep := step_pos plain stop
  rw [depth]
  omega

variable {stop : Nat}

/- One step at a time at first. -/
theorem depth_of_le (hStop : stop ≤ plain + 1) : depth plain stop = stop := by
  induction stop with
  | zero => rfl
  | succ stop ih =>
    have hZero : stop - plain = 0 := by omega
    rw [depth, ih (by omega), step, hZero, Nat.pow_zero]

theorem depth_add (doublings : Nat) :
    depth plain (plain + doublings) + 1 = plain + 2 ^ doublings := by
  induction doublings with
  | zero => rw [Nat.add_zero, depth_of_le plain (by omega), Nat.pow_zero]
  | succ doublings ih =>
    have hStep : step plain (plain + doublings) = 2 ^ doublings := by
      rw [step, Nat.add_sub_cancel_left]
    rw [← Nat.add_assoc, depth, hStep, Nat.pow_succ]
    omega

/- A step is at most one longer than the way behind it. -/
theorem step_le (stop : Nat) : step plain stop ≤ depth plain stop + 1 := by
  rcases Nat.le_total stop plain with hStop | hStop
  · have hZero : stop - plain = 0 := by omega
    rw [step, hZero]
    omega
  · rcases Nat.exists_eq_add_of_le hStop with ⟨doublings, rfl⟩
    rw [depth_add, step, Nat.add_sub_cancel_left]
    omega

--------
-- Reaching a Distance
--------

theorem exists_le_depth (distance : Nat) : ∃ stop, distance ≤ depth plain stop := by
  refine ⟨distance, ?_⟩
  induction distance with
  | zero => exact Nat.zero_le _
  | succ stop ih =>
    have hStep := step_pos plain stop
    rw [depth]
    omega

/- The first stop at or past a distance. -/
def reach (distance : Nat) : Nat :=
  Nat.find (exists_le_depth plain distance)

theorem le_depth_reach (distance : Nat) : distance ≤ depth plain (reach plain distance) :=
  Nat.find_spec (exists_le_depth plain distance)

variable {distance : Nat}

theorem reach_le_iff : reach plain distance ≤ stop ↔ distance ≤ depth plain stop := by
  constructor
  · intro hReach
    exact (le_depth_reach plain distance).trans ((depth_strictMono plain).monotone hReach)
  · intro hDistance
    exact Nat.find_min' (exists_le_depth plain distance) hDistance

theorem lt_reach_iff : stop < reach plain distance ↔ depth plain stop < distance := by
  rw [← Nat.not_le, reach_le_iff, Nat.not_le]

theorem depth_reach_of_le (hNear : distance ≤ plain + 1) :
    depth plain (reach plain distance) = distance := by
  have hAt := depth_of_le plain hNear
  have hLe : reach plain distance ≤ distance := (reach_le_iff plain).mpr (Nat.le_of_eq hAt.symm)
  refine Nat.le_antisymm ?_ (le_depth_reach plain distance)
  calc
    depth plain (reach plain distance) ≤ depth plain distance :=
      (depth_strictMono plain).monotone hLe
    _ = distance := hAt

theorem depth_reach_le (distance : Nat) : depth plain (reach plain distance) ≤ 2 * distance := by
  cases hReach : reach plain distance with
  | zero => exact Nat.zero_le _
  | succ stop =>
    have hBefore : depth plain stop < distance := (lt_reach_iff plain).mp (by omega)
    have hStep := step_le plain stop
    rw [depth]
    omega

theorem reach_le (hPlain : 0 < plain) {doublings : Nat} (hDistance : distance ≤ 2 ^ doublings) :
    reach plain distance ≤ plain + doublings := by
  have hDepth := depth_add plain doublings
  rw [reach_le_iff]
  omega

end Backoff
