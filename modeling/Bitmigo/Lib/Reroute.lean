import Bitmigo.Lib.Arena
import Mathlib.Data.List.Forall2

/-
  Moving from one chain to another: down to the last element they share, then up.

  Key definitions include:
    * `Reroute.IsFork`, the longest common suffix
    * `Reroute.moves`, the moves, while the way up is ready
    * `Reroute.descent`, how far down the fork is
    * `Reroute.distance`, how many moves are left

  Key theorems include:
    * `Reroute.isFork_drop`, the fork is found by descending
    * `Reroute.progress`, when the way up is open every move is one closer

  A chain starts at its end, as a lineage does.
-/

open List

namespace Reroute

open Arena (upTo)

variable {α : Type} {goal here fork rest : List α} {a : α} {ready : List α → Bool}

/- The longest common suffix of two chains. -/
structure IsFork (here goal fork : List α) : Prop where
  left : fork <:+ here
  right : fork <:+ goal
  deepest : ∀ {other}, other <:+ here → other <:+ goal → other <:+ fork

theorem IsFork.unique {other : List α} (hFork : IsFork here goal fork)
    (hOther : IsFork here goal other) : fork = other := by
  have hLeft := hOther.deepest hFork.left hFork.right
  have hRight := hFork.deepest hOther.left hOther.right
  exact hLeft.eq_of_length (Nat.le_antisymm hLeft.length_le hRight.length_le)

theorem IsFork.refl (here : List α) : IsFork here here here :=
  ⟨suffix_refl _, suffix_refl _, fun hOther _ => hOther⟩

/- What two chains of one length share is below their ends. -/
theorem IsFork.cons {b : α} (hNe : a :: here ≠ b :: goal) (hLen : here.length = goal.length)
    (hFork : IsFork here goal fork) : IsFork (a :: here) (b :: goal) fork where
  left := hFork.left.trans (suffix_cons _ _)
  right := hFork.right.trans (suffix_cons _ _)
  deepest := by
    intro other hHere hGoal
    have hSame : (a :: here).length = (b :: goal).length := by
      rw [length_cons, length_cons, hLen]
    rcases suffix_cons_iff.mp hHere with rfl | hHere
    · exact absurd (hGoal.eq_of_length hSame) hNe
    rcases suffix_cons_iff.mp hGoal with rfl | hGoal
    · have hLe := hHere.length_le
      rw [length_cons] at hLe
      omega
    · exact hFork.deepest hHere hGoal

/- The longer of two chains may be cut down first. -/
theorem IsFork.of_upTo {height : Nat} (hHere : height < here.length) (hGoal : height < goal.length)
    (hLow : min here.length goal.length ≤ height + 1)
    (hFork : IsFork (upTo height here) (upTo height goal) fork) : IsFork here goal fork where
  left := hFork.left.trans (Arena.upTo_suffix _ _)
  right := hFork.right.trans (Arena.upTo_suffix _ _)
  deepest := by
    intro other hLeft hRight
    have hLeftLe := hLeft.length_le
    have hRightLe := hRight.length_le
    have hLen : other.length ≤ height + 1 := by omega
    refine hFork.deepest ?_ ?_
    · refine suffix_of_suffix_length_le hLeft (Arena.upTo_suffix _ _) ?_
      rwa [Arena.length_upTo hHere]
    · refine suffix_of_suffix_length_le hRight (Arena.upTo_suffix _ _) ?_
      rwa [Arena.length_upTo hGoal]

/- One element comes off, or one goes on. -/
inductive Move (α : Type) where
  | down (chain : List α)
  | up (chain : List α)

/- The chain after a move. -/
def Move.after : Move α → List α
  | .down chain => chain.tail
  | .up chain => chain

/- What carries out a list of moves carries out each. -/
theorem exists_move {β : Type} {carries : β → Move α → Prop} {steps : List β} {ways : List (Move α)}
    (hCarries : Forall₂ carries steps ways) {step : β} (hStep : step ∈ steps) :
    ∃ way ∈ ways, carries step way := by
  induction hCarries with
  | nil => cases hStep
  | @cons first way _ _ hFst _ ih =>
    rcases mem_cons.mp hStep with rfl | hRest
    · exact ⟨way, mem_cons_self, hFst⟩
    · rcases ih hRest with ⟨other, hOther, hCarry⟩
      exact ⟨other, mem_cons_of_mem _ hOther, hCarry⟩

/- Where moves lead. -/
def arrive (here : List α) (ways : List (Move α)) : List α :=
  ways.foldl (fun _ way => way.after) here

@[simp] theorem arrive_cons (here : List α) (way : Move α) (ways : List (Move α)) :
    arrive here (way :: ways) = arrive way.after ways := rfl

def Move.isDown : Move α → Bool
  | .down _ => true
  | .up _ => false

/- The way up is ready wherever it is not yet made. -/
def Open (ready : List α → Bool) (goal here : List α) : Prop :=
  ∀ chain, chain <:+ goal → ¬ chain <:+ here → ready chain = true

theorem Open.up (hOpen : Open ready goal here) (hSuf : here <:+ goal)
    (hLess : here.length < goal.length) : Open ready goal (upTo here.length goal) := by
  intro chain hGoal hNot
  refine hOpen chain hGoal ?_
  intro hHere
  refine hNot (hHere.trans ?_)
  refine suffix_of_suffix_length_le hSuf (Arena.upTo_suffix _ _) ?_
  rw [Arena.length_upTo hLess]
  omega

theorem Open.down (hOpen : Open ready goal (a :: rest)) (hNot : ¬ a :: rest <:+ goal) :
    Open ready goal rest := by
  intro chain hGoal hRest
  refine hOpen chain hGoal ?_
  intro hHere
  rcases suffix_cons_iff.mp hHere with rfl | hBelow
  · exact hNot hGoal
  · exact hRest hBelow

variable [DecidableEq α]

/- The next moves, as far as the way up is ready. -/
def moves (ready : List α → Bool) (goal : List α) :
    Nat → List α → List (Move α)
  | 0, _ => []
  | count + 1, here =>
    if here <:+ goal then
      if here.length < goal.length ∧
          ready (upTo here.length goal) then
        .up (upTo here.length goal) :: moves ready goal count (upTo here.length goal)
      else
        []
    else
      .down here :: moves ready goal count here.tail

/- A way that leads up only never goes down. -/
theorem moves_of_suffix {count : Nat} (hSuf : here <:+ goal) :
    ∀ move ∈ moves ready goal count here, ∃ chain, move = .up chain := by
  induction count generalizing here with
  | zero => simp [moves]
  | succ count ih =>
    rw [moves, if_pos hSuf]
    split
    · intro move hMove
      rcases mem_cons.mp hMove with rfl | hRest
      · exact ⟨_, rfl⟩
      · exact ih (Arena.upTo_suffix _ _) move hRest
    · simp

/- How many elements are above the fork. -/
def descent (goal : List α) : List α → Nat
  | [] => 0
  | a :: rest =>
    if a :: rest <:+ goal then 0
    else descent goal rest + 1

theorem descent_of_suffix (hSuf : here <:+ goal) : descent goal here = 0 := by
  cases here with
  | nil => rfl
  | cons a rest => exact if_pos hSuf

theorem descent_of_not_suffix (hNot : ¬ a :: rest <:+ goal) :
    descent goal (a :: rest) = descent goal rest + 1 :=
  if_neg hNot

/- The fork is found by descending. -/
theorem isFork_drop (goal here : List α) : IsFork here goal (here.drop (descent goal here)) := by
  induction here with
  | nil => exact ⟨suffix_refl _, nil_suffix, fun hOther _ => hOther⟩
  | cons a rest ih =>
    by_cases hSuf : a :: rest <:+ goal
    · rw [descent_of_suffix hSuf]
      exact ⟨suffix_refl _, hSuf, fun hOther _ => hOther⟩
    · rw [descent_of_not_suffix hSuf, drop_succ_cons]
      refine ⟨ih.left.trans (suffix_cons _ _), ih.right, ?_⟩
      intro other hLeft hRight
      rcases suffix_cons_iff.mp hLeft with rfl | hRest
      · exact absurd hRight hSuf
      · exact ih.deepest hRest hRight

theorem descent_le (goal here : List α) : descent goal here ≤ here.length := by
  induction here with
  | nil => exact Nat.le_refl _
  | cons a rest ih =>
    unfold descent
    split <;> rw [length_cons] <;> omega

--------
-- Progress
--------

/- How many moves are left. -/
def distance (goal here : List α) : Nat :=
  descent goal here + (goal.length + descent goal here - here.length)

theorem distance_eq_zero : distance goal here = 0 ↔ here = goal := by
  constructor
  · intro hZero
    have hDescent : descent goal here = 0 := by
      unfold distance at hZero
      omega
    have hFork := isFork_drop goal here
    rw [hDescent, drop_zero] at hFork
    refine hFork.right.eq_of_length ?_
    have hLe := hFork.right.length_le
    unfold distance at hZero
    omega
  · rintro rfl
    rw [distance, descent_of_suffix (suffix_refl _)]
    omega

/- One up. -/
theorem distance_up (hSuf : here <:+ goal) (hLess : here.length < goal.length) :
    distance goal (upTo here.length goal) + 1 = distance goal here := by
  rw [distance, distance, descent_of_suffix hSuf,
    descent_of_suffix (Arena.upTo_suffix _ _), Arena.length_upTo hLess]
  omega

/- One down. -/
theorem distance_down (hNot : ¬ a :: rest <:+ goal) :
    distance goal rest + 1 = distance goal (a :: rest) := by
  rw [distance, distance, descent_of_not_suffix hNot, length_cons]
  omega

/- What the next moves achieve. -/
structure Progress (ready : List α → Bool) (goal here : List α) (count : Nat)
    (ways : List (Move α)) : Prop where
  length : ways.length = min count (distance goal here)
  left : distance goal (arrive here ways) = distance goal here - count
  downs : descent goal (arrive here ways) + ways.countP (·.isDown) = descent goal here
  way : Open ready goal (arrive here ways)

/- When the way up is open every move is one closer. -/
theorem progress (hOpen : Open ready goal here) (count : Nat) :
    Progress ready goal here count (moves ready goal count here) := by
  induction count generalizing here with
  | zero => exact ⟨(Nat.zero_min _).symm, rfl, rfl, hOpen⟩
  | succ count ih =>
    by_cases hSuf : here <:+ goal
    · rw [moves, if_pos hSuf]
      by_cases hLess : here.length < goal.length
      · have hReady : ready (upTo here.length goal) = true := by
          refine hOpen _ (Arena.upTo_suffix _ _) ?_
          intro hBack
          have hLe := hBack.length_le
          rw [Arena.length_upTo hLess] at hLe
          omega
        rw [if_pos ⟨hLess, hReady⟩]
        have hNext := ih (hOpen.up hSuf hLess)
        have hCloser := distance_up hSuf hLess
        refine ⟨?_, ?_, ?_, hNext.way⟩
        · rw [length_cons, hNext.length]
          omega
        · rw [arrive_cons, Move.after, hNext.left]
          omega
        · have hDowns := hNext.downs
          rw [descent_of_suffix (Arena.upTo_suffix _ _)] at hDowns
          rwa [descent_of_suffix hSuf]
      · -- the goal is reached
        rw [if_neg (fun hBoth => hLess hBoth.1)]
        have hGoal : here = goal := by
          refine hSuf.eq_of_length ?_
          have hLe := hSuf.length_le
          omega
        have hZero := distance_eq_zero.mpr hGoal
        refine ⟨?_, ?_, rfl, hOpen⟩
        · rw [hZero, Nat.min_zero]
          rfl
        · show distance goal here = _
          rw [hZero, Nat.zero_sub]
    · rw [moves, if_neg hSuf]
      cases here with
      | nil => exact absurd nil_suffix hSuf
      | cons a rest =>
        have hNext := ih (hOpen.down hSuf)
        have hCloser := distance_down hSuf
        refine ⟨?_, ?_, ?_, hNext.way⟩
        · rw [length_cons, tail_cons, hNext.length]
          omega
        · rw [arrive_cons, Move.after, tail_cons, hNext.left]
          omega
        · have hDowns := hNext.downs
          rw [descent_of_not_suffix hSuf, ← hDowns, tail_cons, countP_cons_of_pos rfl]
          rfl

end Reroute
