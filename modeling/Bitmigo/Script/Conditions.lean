import Bitmigo.Script.Interpreter

/-
  The nest of conditionals against a plain vector of booleans.

  Key definitions include:
    * `ConditionStack.Move`, the operations of the source
    * `ConditionStack.Represents`, what the depth and the outermost false are of

  Key theorems include:
    * `ConditionStack.Represents.move`, one operation
    * `ConditionStack.run_agrees`, every sequence of them
-/

namespace Bitmigo

open List Option

namespace ConditionStack

open Result

inductive Move where
  | push (value : Bool)
  | toggleTop
  | pop
  deriving DecidableEq

def Move.apply (conditions : ConditionStack) :
    Move → Result ScriptError ConditionStack
  | .push value => conditions.push (some nestingMax) value
  | .toggleTop => conditions.toggleTop
  | .pop => conditions.pop

/- A sequence of operations on the empty stack. -/
def run (moves : List Move) : Result ScriptError ConditionStack :=
  moves.foldlM Move.apply new

/-
  The same on a vector, its last element first. Nothing stands for a pop or a toggle of the empty
  vector, and for one that nests too deeply.
-/
def Move.onVector (bools : List Bool) : Move → Option (List Bool)
  | .push value =>
    if bools.length < nestingMax then
      some (value :: bools)
    else
      none
  | .toggleTop =>
    match bools with
    | [] => none
    | top :: rest => some ((!top) :: rest)
  | .pop =>
    match bools with
    | [] => none
    | _ :: rest => some rest

def vectorOf (moves : List Move) : Option (List Bool) :=
  moves.foldlM Move.onVector []

/- How far from the outermost element the first false is. -/
def outermostFalse : List Bool → Option Nat
  | [] => none
  | top :: rest =>
    (outermostFalse rest).or (if top then none else some rest.length)

structure Represents (conditions : ConditionStack)
    (bools : List Bool) : Prop where
  depth : conditions.depth = bools.length
  firstFalse : conditions.firstFalse = outermostFalse bools

variable {conditions : ConditionStack} {bools next : List Bool}

theorem outermostFalse_lt {first : Nat} (hFst : outermostFalse bools = some first) :
    first < bools.length := by
  induction bools with
  | nil => cases hFst
  | cons top rest ih =>
    rw [outermostFalse, or_eq_some_iff] at hFst
    rw [length_cons]
    rcases hFst with hRest | ⟨_, hTop⟩
    · exact Nat.lt_succ_of_lt (ih hRest)
    · cases top with
      | true => cases hTop
      | false =>
        cases hTop
        exact Nat.lt_succ_self _

theorem outermostFalse_eq_none : outermostFalse bools = none ↔ bools.all id = true := by
  induction bools with
  | nil => simp [outermostFalse]
  | cons top rest ih => cases top <;> simp [outermostFalse, ih]

/- One operation. -/
theorem Represents.move (hBools : conditions.Represents bools) {move : Move}
    (hMove : move.onVector bools = some next) :
    ∃ after, move.apply conditions = .ok after ∧ after.Represents next := by
  rcases hBools with ⟨hDepth, hFst⟩
  cases move with
  | push value =>
    simp only [Move.onVector, ite_none_right_eq_some, Option.some.injEq] at hMove
    rcases hMove with ⟨hRoom, rfl⟩
    refine ⟨conditions.opened value, ?_, ?_, ?_⟩
    · have hDeep : conditions.depth + 1 ≤ nestingMax := by
        rwa [hDepth]
      simp only [Move.apply, ConditionStack.push, opened, mem_def, Option.some.injEq,
        forall_eq', hDeep, assert_true]
      rfl
    · simp only [opened, hDepth, length_cons]
    · simp only [opened, hFst, hDepth, outermostFalse]
      cases outermostFalse bools <;> cases value <;> rfl
  | toggleTop =>
    rcases bools with _ | ⟨top, rest⟩
    · cases hMove
    cases hMove
    have hPos : 0 < conditions.depth := by simp [hDepth]
    refine ⟨_, dif_pos hPos, hDepth, ?_⟩
    simp only [hFst, hDepth, outermostFalse, length_cons, Nat.add_sub_cancel]
    cases hRest : outermostFalse rest with
    | none => cases top <;> simp
    | some first =>
      -- a false below the top is not at the top
      simp [(outermostFalse_lt hRest).ne]
  | pop =>
    rcases bools with _ | ⟨top, rest⟩
    · cases hMove
    cases hMove
    have hPos : 0 < conditions.depth := by simp [hDepth]
    refine ⟨conditions.closed, ?_, ?_, ?_⟩
    · simp [Move.apply, ConditionStack.pop, hPos]
    · simp only [closed, hDepth, length_cons, Nat.add_sub_cancel]
    · simp only [closed, hFst, hDepth, outermostFalse, length_cons, Nat.add_sub_cancel]
      cases hRest : outermostFalse next with
      | none => cases top <;> simp
      | some first => simp [(outermostFalse_lt hRest).ne]

/- A whole sequence. -/
theorem Represents.moves (hBools : conditions.Represents bools) {moves : List Move}
    (hMoves : moves.foldlM Move.onVector bools = some next) :
    ∃ after, moves.foldlM Move.apply conditions = .ok after ∧ after.Represents next := by
  induction moves generalizing conditions bools with
  | nil =>
    cases hMoves
    exact ⟨conditions, rfl, hBools⟩
  | cons move rest ih =>
    rw [foldlM_cons, bind_eq_bind, bind_eq_some_iff] at hMoves
    rcases hMoves with ⟨middle, hMove, hRest⟩
    rcases hBools.move hMove with ⟨after, hApply, hAfter⟩
    rcases ih hAfter hRest with ⟨last, hLast, hNext⟩
    refine ⟨last, ?_, hNext⟩
    rw [foldlM_cons, hApply, ok_bind, hLast]

/-
  After every operation of a sequence that never pops or toggles the empty vector and never nests
  too deeply, the two questions have the answers of the vector.
-/
theorem run_agrees (moves : List Move) (hMoves : (vectorOf moves).isSome) (seen : List Move)
    (hSeen : seen <+: moves) :
    ∃ conditions bools,
      run seen = .ok conditions ∧
        vectorOf seen = some bools ∧
        conditions.isEmpty = bools.isEmpty ∧
        conditions.allTrue = bools.all id := by
  rcases hSeen with ⟨rest, rfl⟩
  rcases isSome_iff_exists.mp hMoves with ⟨final, hFinal⟩
  rw [vectorOf, foldlM_append, bind_eq_bind, bind_eq_some_iff] at hFinal
  rcases hFinal with ⟨bools, hBools, _⟩
  rcases @Represents.moves new [] bools ⟨rfl, rfl⟩ seen
    hBools with ⟨conditions, hRun, hDepth, hFst⟩
  refine ⟨conditions, bools, hRun, hBools, ?_, ?_⟩
  · rw [isEmpty, hDepth]
    cases bools <;> rfl
  · rw [allTrue, hFst, Bool.eq_iff_iff, isNone_iff_eq_none]
    exact outermostFalse_eq_none

/- An `OP_ELSE` inside a branch that is not taken. -/
theorem run_agrees_nested :
    ∃ conditions bools,
      run [.push false, .push true, .toggleTop, .pop] = .ok conditions ∧
        vectorOf [.push false, .push true, .toggleTop, .pop] = some bools ∧
        conditions.isEmpty = bools.isEmpty ∧
        conditions.allTrue = bools.all id :=
  run_agrees [.push false, .push true, .toggleTop, .pop, .toggleTop]
    (by decide) _ ⟨[.toggleTop], rfl⟩

end ConditionStack

end Bitmigo
