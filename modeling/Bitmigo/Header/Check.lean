import Bitmigo.Header.Retarget
import Bitmigo.Params.Rules

/-
  The two header stages of the validation pipeline.

  Key definitions include:
    * `Context`, what the chain contributes to a verdict
    * `HeaderError`
    * `checkHeader` and `acceptHeader`

  Key theorems include:
    * `checkHeader_eq_ok`, what a checked header promises
    * `acceptHeader_not_panics`
-/

namespace Bitmigo

open Result

variable {ε : Type} {K : Primitives} {params : ChainParams}

/- How far a period may open before its predecessor. -/
def maxTimewarp : Int := 600

/- How far ahead of the clock a header may be. -/
def maxFutureBlockTime : Int := 2 * 60 * 60

/- The facts every contextual stage reads. -/
structure Context where
  height : Height
  medianTimePast : BlockTime
  previousTime : BlockTime
  requiredBits : UInt32
  rules : Rules
  -- there is no context for genesis
  height_pos : Height.genesis < height

def Context.new (height : Height) (medianTimePast previousTime : BlockTime) (requiredBits : UInt32)
    (rules : Rules) : Result ε Context :=
  if h : Height.genesis < height then
    .ok { height, medianTimePast, previousTime, requiredBits, rules, height_pos := h }
  else
    panicked

/- Why a header was refused. -/
inductive HeaderError where
  | invalidTarget (reason : TargetError)
  | highHash
  | badDiffBits (required : UInt32)
  | timeTooOld (medianTimePast : BlockTime)
  | timewarp (previousTime : BlockTime)
  | badVersion (version floor : Int)
  deriving DecidableEq

/- The proof of work against the header's own `nBits`. -/
def checkHeader (K : Primitives) (header : Header) (params : ChainParams) :
    Result HeaderError Unit := do
  let target ← mapError HeaderError.invalidTarget (decodeTarget header.bits params.powLimit)
  ensure .highHash (hashMeetsTarget (K.blockHash header) target)

/- Does the header open a period too early? -/
def isTimewarp (header : Header) (params : ChainParams) (context : Context) : Result ε Bool := do
  if params.enforceBip94 then do
    let interval ← params.difficultyAdjustmentInterval
    let isBoundary ← context.height.isRetargetBoundary interval
    let elapsed ← BlockTime.timespanSince header.time context.previousTime
    return isBoundary ∧ elapsed < -maxTimewarp
  else
    return false

/- The contextual rules, minus the clock's. -/
def acceptHeader (header : Header) (params : ChainParams) (context : Context) :
    Result HeaderError Unit := do
  ensure (.badDiffBits context.requiredBits) (header.bits = context.requiredBits)
  ensure (.timeTooOld context.medianTimePast) (context.medianTimePast < header.time)
  let timewarp ← isTimewarp header params context
  ensure (.timewarp context.previousTime) (timewarp = false)
  let version := header.version.toInt
  let floor := context.rules.versionFloor
  ensure (.badVersion version floor) (floor ≤ version)

--------
-- What the Stages Promise
--------

theorem checkHeader_not_panics (K : Primitives) (header : Header) (params : ChainParams) :
    (checkHeader K header params).Safe fun _ => True := by
  apply Safe.bind (Q := fun _ => True)
  · rw [safe_mapError]
    exact decodeTarget_not_panics _ _
  · intro target _
    simp

/- A checked header names a target and meets it. -/
theorem checkHeader_eq_ok {header : Header} :
    checkHeader K header params = .ok () ↔ ∃ target,
      decodeTarget header.bits params.powLimit = .ok target ∧
        hashMeetsTarget (K.blockHash header) target := by
  simp only [checkHeader, bind_eq_ok, mapError_eq_ok, ensure_eq_ok]

theorem ChainParams.Tabled.acceptHeader_not_panics (hTab : params.Tabled K) (header : Header)
    (context : Context) : (acceptHeader header params context).Safe fun _ => True := by
  have hInterval : 0 < params.intervalOf := Nat.lt_trans Nat.zero_lt_one params.intervalOf_pos
  have hTimewarp :
      (isTimewarp header params context : Result HeaderError Bool).Safe fun _ => True := by
    unfold isTimewarp
    split
    · rw [hTab.interval, ok_bind, Height.isRetargetBoundary_eq hInterval,
        ok_bind, BlockTime.timespanSince_eq, ok_bind]
      trivial
    · trivial
  unfold acceptHeader
  refine Safe.bind (Q := fun _ => True) (by simp) ?_
  intro _ _
  refine Safe.bind (Q := fun _ => True) (by simp) ?_
  intro _ _
  refine Safe.bind hTimewarp ?_
  intro _ _
  refine Safe.bind (Q := fun _ => True) (by simp) ?_
  intro _ _
  simp

end Bitmigo
