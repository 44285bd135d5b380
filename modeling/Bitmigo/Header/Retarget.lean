import Bitmigo.Params.Chain
import Mathlib.Data.List.Induction
import Mathlib.Data.List.Sort

/-
  The next block's required `nBits` and the median time past.

  Key definitions include:
    * `HeaderFacts`, what the rules read of a stored header
    * `medianTimePast`
    * `nextRequiredBits`
    * `IsPeriod`, the slice the rules are given

  Key theorems include:
    * `medianTimePast_returns`
    * `lastAboveLimit_walks`, where the walk back inside a period ends
    * `nextRequiredBits_returns`, on a period whose targets are at least four no assertion fails
-/

namespace Bitmigo

open Result List U256 Nat

variable {ε : Type} {params : ChainParams} {K : Primitives}

/- How many timestamps the median is taken over. -/
def medianTimeSpan : Nat := 11

structure HeaderFacts where
  height : Height
  bits : UInt32
  time : BlockTime

def HeaderFacts.fromHeader (height : Height) (header : Header) : HeaderFacts where
  height := height
  bits := header.bits
  time := header.time

/- Sort and take the middle, rounding down. -/
def medianTimePast (times : List BlockTime) : Result ε BlockTime := do
  assert (times ≠ [])
  assert (times.length ≤ medianTimeSpan)
  let window := times.insertionSort (· ≤ ·)
  expect window[times.length / 2]?

/- Every height is the one after the height before. -/
def checkConsecutive : List HeaderFacts → Result ε Unit
  | earlier :: later :: rest => do
      let next ← earlier.height.next
      assert (next = later.height)
      checkConsecutive (later :: rest)
  | _ => .ok ()

/- The last header of a period, checked to be one. -/
def checkPeriod (period : List HeaderFacts) (interval : Nat) : Result ε HeaderFacts := do
  assert (period ≠ [])
  assert (period.length ≤ interval)
  let first ← expect period.head?
  let isBoundary ← first.height.isRetargetBoundary interval
  assert isBoundary
  let previous ← expect period.getLast?
  let expectedLen := previous.height.val % interval + 1
  assert (period.length = expectedLen)
  checkConsecutive period
  return previous

/- The nearest header going back that is at a boundary or was not mined at the limit. -/
def lastAboveLimit (interval : Nat) (powLimitBits : UInt32) :
    List HeaderFacts → Result ε UInt32
  | [] => panicked
  | facts :: earlier => do
      let isBoundary ← facts.height.isRetargetBoundary interval
      if isBoundary ∨ facts.bits ≠ powLimitBits then
        return facts.bits
      else
        lastAboveLimit interval powLimitBits earlier

/- A late block may be mined at the limit. -/
def minDifficultyBits (params : ChainParams) (period : List HeaderFacts) (newBlockTime : BlockTime)
    (powLimitBits : UInt32) :
    Result ε UInt32 := do
  let previous ← expect period.getLast?
  let elapsed ← BlockTime.timespanSince newBlockTime previous.time
  if 2 * params.powTargetSpacing < elapsed then
    return powLimitBits
  else do
    let interval ← params.difficultyAdjustmentInterval
    lastAboveLimit interval powLimitBits period.reverse

/- The parameters the retarget reads. -/
structure Retarget where
  powLimit : Target
  targetTimespan : Int
  noRetargeting : Bool
  enforceBip94 : Bool

/- `u64::try_from(value).expect("positive")`. -/
def toU64 (value : Int) : Result ε UInt64 := do
  assert (0 ≤ value ∧ value < 2 ^ 64)
  return UInt64.ofNat value.toNat

namespace Retarget

/- The largest product must not wrap. -/
def assertMultiplyFits (rules : Retarget) : Result ε Unit := do
  assert (0 < rules.targetTimespan)
  if rules.noRetargeting then
    return ()
  else do
    let largest ← toU64 (4 * rules.targetTimespan)
    let limit := fromBeBytes rules.powLimit
    let product ← limit.checkedMulU64 largest
    assert product.isSome

def of (params : ChainParams) : Result ε Retarget := do
  let retarget : Retarget :=
    { powLimit := params.powLimit
      targetTimespan := params.powTargetTimespan
      noRetargeting := params.noRetargeting
      enforceBip94 := params.enforceBip94 }
  retarget.assertMultiplyFits
  return retarget

end Retarget

/- `i64::clamp`, which panics on an empty range. -/
def clamp (value low high : Int) : Result ε Int := do
  assert (low ≤ high)
  return max low (min value high)

/- The scaled target of the period, capped at the limit. -/
def calculateNextBits (rules : Retarget) (previous first : HeaderFacts) : Result ε UInt32 := do
  if rules.noRetargeting then
    return previous.bits
  else do
    assert (first.height < previous.height)
    let targetTimespan := rules.targetTimespan
    let elapsed ← BlockTime.timespanSince previous.time first.time
    let actualTimespan ← clamp elapsed (targetTimespan.tdiv 4) (targetTimespan * 4)
    assert (0 < actualTimespan)
    let base :=
      if rules.enforceBip94 then first.bits else previous.bits
    let base ← expectOk (decodeTarget base rules.powLimit)
    let factor ← toU64 actualTimespan
    let product ← (fromBeBytes base).checkedMulU64 factor
    let product ← expect product
    let divisor ← toU64 targetTimespan
    let scaled ← product.divU64 divisor
    let limit := fromBeBytes rules.powLimit
    let capped := if limit.lt scaled then limit else scaled
    let next ← encodeTarget capped.toBeBytes
    let _ ← expectOk (decodeTarget next rules.powLimit)
    return next

/- The `nBits` of the block after the period's last. -/
def nextRequiredBits (params : ChainParams) (period : List HeaderFacts) (newBlockTime : BlockTime) :
    Result ε UInt32 := do
  let interval ← params.difficultyAdjustmentInterval
  let previous ← checkPeriod period interval
  let powLimitBits ← encodeTarget params.powLimit
  let next ← previous.height.next
  let isBoundary ← next.isRetargetBoundary interval
  if isBoundary = false then
    if params.allowMinDifficulty then
      minDifficultyBits params period newBlockTime powLimitBits
    else
      return previous.bits
  else do
    assert (period.length = interval)
    let first ← expect period.head?
    let retarget ← Retarget.of params
    calculateNextBits retarget previous first

--------
-- The Median
--------

/- The median of the timestamps, over the numbers. -/
def medianOf (times : List BlockTime) : BlockTime :=
  (times.insertionSort (· ≤ ·)).getD (times.length / 2) 0

theorem medianTimePast_returns {times : List BlockTime} (hNe : times ≠ [])
    (hLen : times.length ≤ medianTimeSpan) :
    (medianTimePast times : Result ε BlockTime) = .ok (medianOf times) := by
  have hMiddle : times.length / 2 < (times.insertionSort (· ≤ ·)).length := by
    rw [length_insertionSort]
    have hPos := length_pos_iff.mpr hNe
    omega
  simp only [medianTimePast, medianOf, hNe, hLen, ne_eq, not_false_eq_true, assert_true,
    ok_bind, getElem?_eq_getElem hMiddle, expect_some, getD_eq_getElem _ _ hMiddle]

--------
-- Periods
--------

/- The headers from a boundary on, at consecutive heights, at most one interval of them. -/
structure IsPeriod (interval : Nat) (period : List HeaderFacts)
    (start : Nat) : Prop where
  nonempty : period ≠ []
  length_le : period.length ≤ interval
  boundary : start % interval = 0
  heights : period.map (fun facts => facts.height.val) = range' start period.length

namespace IsPeriod

variable {interval start : Nat} {period : List HeaderFacts} {previous : HeaderFacts}

theorem height_getElem (hPeriod : IsPeriod interval period start)
    {index : Nat} {facts : HeaderFacts} (hFacts : period[index]? = some facts) :
    facts.height.val = start + index := by
  have hMap := congrArg (·[index]?) hPeriod.heights
  rcases List.getElem?_eq_some_iff.mp hFacts with ⟨hIndex, rfl⟩
  simpa [hIndex] using hMap

theorem checkConsecutive_eq {facts : List HeaderFacts}
    (hHeights : facts.map (fun fact => fact.height.val) = range' start facts.length) :
    (checkConsecutive facts : Result ε Unit) = .ok () := by
  induction facts generalizing start with
  | nil => rfl
  | cons earlier rest ih =>
    cases rest with
    | nil => rfl
    | cons later rest =>
      simp only [map_cons, length_cons, range'_succ, List.cons.injEq] at hHeights
      have hNext : (earlier.height.next : Result ε Height) = .ok later.height := by
        rw [Height.next_eq_ok]
        omega
      simp only [checkConsecutive, hNext, ok_bind, assert_true]
      have hRest : (later :: rest).map (fun fact => fact.height.val) =
          range' (start + 1) (later :: rest).length := by
        simp only [map_cons, length_cons, range'_succ, List.cons.injEq]
        exact hHeights.2
      exact ih hRest

section

variable (hPeriod : IsPeriod interval period start) (hLast : period.getLast? = some previous)

include hPeriod hLast

theorem last_height : previous.height.val + 1 = start + period.length := by
  rw [getLast?_eq_getElem?] at hLast
  have hHeight := hPeriod.height_getElem hLast
  have hPos := length_pos_iff.mpr hPeriod.nonempty
  omega

theorem checkPeriod_eq : (checkPeriod period interval : Result ε HeaderFacts) = .ok previous := by
  have hPos := length_pos_iff.mpr hPeriod.nonempty
  have hInterval : 0 < interval := Nat.lt_of_lt_of_le hPos hPeriod.length_le
  rcases exists_cons_of_ne_nil hPeriod.nonempty with ⟨first, rest, rfl⟩
  have hFst : first.height.val % interval = 0 := by
    have hHead : (first :: rest)[0]? = some first := rfl
    rw [hPeriod.height_getElem hHead]
    exact hPeriod.boundary
  have hExpected : (first :: rest).length = previous.height.val % interval + 1 := by
    have hHeight := hPeriod.last_height hLast
    have hLen := hPeriod.length_le
    have hPrevious : previous.height.val = start + ((first :: rest).length - 1) := by omega
    rw [hPrevious, add_mod, hPeriod.boundary, Nat.zero_add, mod_mod, mod_eq_of_lt (by omega)]
    omega
  simp only [checkPeriod, hPeriod.length_le, ne_eq, reduceCtorEq, not_false_eq_true, assert_true,
    ok_bind, head?_cons, expect_some, Height.isRetargetBoundary_eq hInterval, hFst,
    decide_true, hLast, ← hExpected, checkConsecutive_eq hPeriod.heights, pure_eq_ok]

/- The next block opens a period exactly when this one is complete. -/
theorem boundary_iff : (previous.height.val + 1) % interval = 0 ↔ period.length = interval := by
  have hLen := hPeriod.length_le
  have hPos := length_pos_iff.mpr hPeriod.nonempty
  rw [hPeriod.last_height hLast, add_mod, hPeriod.boundary, Nat.zero_add, mod_mod]
  constructor
  · intro hZero
    exact Nat.le_antisymm hLen (le_of_dvd hPos (dvd_of_mod_eq_zero hZero))
  · intro hComplete
    rw [hComplete, mod_self]

end

end IsPeriod

/-
  The walk back from the last header: past every header that is inside the period and was mined at
  the limit, to the first that is not.
-/
structure WalksBackTo
    (interval : Nat) (powLimitBits : UInt32) (period : List HeaderFacts) (facts : HeaderFacts)
    (passed : List HeaderFacts) : Prop where
  here : ∃ earlier, period = earlier ++ facts :: passed
  stops : facts.height.val % interval = 0 ∨ facts.bits ≠ powLimitBits
  passes : ∀ other ∈ passed, other.height.val % interval ≠ 0 ∧ other.bits = powLimitBits

/- The walk ends where there is a boundary to end at. -/
theorem lastAboveLimit_walks {interval : Nat} (hInterval : 0 < interval)
    (powLimitBits : UInt32) {period : List HeaderFacts}
    (hBoundary : ∃ fact ∈ period, fact.height.val % interval = 0) :
    ∃ facts passed,
      (lastAboveLimit interval powLimitBits period.reverse : Result ε UInt32) = .ok facts.bits ∧
        WalksBackTo interval powLimitBits period facts passed := by
  induction period using reverseRecOn with
  | nil => simp at hBoundary
  | append_singleton earlier fact ih =>
    rw [reverse_append, reverse_singleton, singleton_append, lastAboveLimit,
      Height.isRetargetBoundary_eq hInterval, ok_bind]
    by_cases hStop : fact.height.val % interval = 0 ∨ fact.bits ≠ powLimitBits
    · rw [if_pos (by simpa using hStop)]
      exact ⟨fact, [], rfl, ⟨earlier, rfl⟩, hStop, by simp⟩
    · rw [if_neg (by simpa using hStop)]
      rw [not_or, not_not] at hStop
      have hEarlier : ∃ other ∈ earlier, other.height.val % interval = 0 := by
        rcases hBoundary with ⟨other, hMem, hZero⟩
        rcases mem_append.mp hMem with hMem | hMem
        · exact ⟨other, hMem, hZero⟩
        · rw [mem_singleton.mp hMem] at hZero
          exact absurd hZero hStop.1
      rcases ih hEarlier with ⟨facts, passed, hBits, ⟨front, hFront⟩, hEnds, hPasses⟩
      refine ⟨facts, passed ++ [fact], hBits, ⟨front, by simp [hFront]⟩, hEnds, ?_⟩
      intro other hOther
      rcases mem_append.mp hOther with hOther | hOther
      · exact hPasses other hOther
      · rwa [mem_singleton.mp hOther]

--------
-- The Retarget
--------

theorem toU64_eq {value : Int} (hLow : 0 ≤ value) (hHigh : value < 2 ^ 64) :
    (toU64 value : Result ε UInt64) = .ok (UInt64.ofNat value.toNat) := by
  rw [toU64, assert_of ⟨hLow, hHigh⟩]
  rfl

theorem toNat_ofInt {value : Int} (hHigh : value < 2 ^ 64) :
    (UInt64.ofNat value.toNat).toNat = value.toNat := by
  rw [UInt64.toNat_ofNat', mod_eq_of_lt (by omega)]

/-
  What a retarget needs of a chain: a positive timespan that divides by four, and room for the
  largest product.
-/
structure Retarget.Fits (rules : Retarget) : Prop where
  pos : 0 < rules.targetTimespan
  four : 4 ∣ rules.targetTimespan
  small : rules.targetTimespan < 2 ^ 32
  room : beNat rules.powLimit * (4 * rules.targetTimespan).toNat < 2 ^ 256

/- The timespan the target is scaled by. -/
def Retarget.actualTimespan (rules : Retarget) (previous first : HeaderFacts) : Int :=
  max (rules.targetTimespan.tdiv 4)
    (min (previous.time.toNat - first.time.toNat) (rules.targetTimespan * 4))

/- The next target over the numbers. -/
def Retarget.nextTarget (rules : Retarget) (previous first : HeaderFacts) (target : Nat) : Nat :=
  min (beNat rules.powLimit)
    (target * (rules.actualTimespan previous first).toNat / rules.targetTimespan.toNat)

namespace Retarget

variable {rules : Retarget} {previous first : HeaderFacts}

theorem Fits.quarter_le (hFits : rules.Fits) :
    rules.targetTimespan = 4 * rules.targetTimespan.tdiv 4 := by
  rcases hFits.four with ⟨quarter, hQuarter⟩
  rw [hQuarter, Int.mul_tdiv_cancel_left _ (by decide)]

theorem Fits.actualTimespan_bounds (hFits : rules.Fits) (previous first : HeaderFacts) :
    rules.targetTimespan.tdiv 4 ≤ rules.actualTimespan previous first ∧
      rules.actualTimespan previous first ≤ rules.targetTimespan * 4 := by
  have hQuarter := hFits.quarter_le
  have hPos := hFits.pos
  unfold actualTimespan
  omega

/- A target of at least four never scales to zero. -/
theorem Fits.nextTarget_pos (hFits : rules.Fits) {target : Nat} (hFour : 4 ≤ target)
    (hLimit : target ≤ beNat rules.powLimit) : 0 < rules.nextTarget previous first target := by
  have hPos := hFits.pos
  have hQuarter := hFits.quarter_le
  have hBounds := hFits.actualTimespan_bounds previous first
  apply Nat.lt_min.mpr
  refine ⟨by omega, Nat.div_pos ?_ (by omega)⟩
  calc rules.targetTimespan.toNat
      = 4 * (rules.targetTimespan.tdiv 4).toNat := by omega
    _ ≤ target * (rules.actualTimespan previous first).toNat := Nat.mul_le_mul hFour (by omega)

theorem Fits.product_lt (hFits : rules.Fits) {target : Nat}
    (hLimit : target ≤ beNat rules.powLimit) :
    target * (rules.actualTimespan previous first).toNat < 2 ^ 256 := by
  have hBounds := hFits.actualTimespan_bounds previous first
  refine Nat.lt_of_le_of_lt ?_ hFits.room
  exact Nat.mul_le_mul hLimit (by omega)

/- A retarget scales, caps and encodes, and the encoding decodes under the same limit. -/
theorem Fits.calculateNextBits_spec (hFits : rules.Fits)
    (hRetargeting : rules.noRetargeting = false) (hHeights : first.height < previous.height)
    {base : Target} (hBase : decodeTarget (if rules.enforceBip94 then first.bits
        else previous.bits) rules.powLimit = .ok base) (hFour : 4 ≤ beNat base) :
    ∃ bits, (calculateNextBits rules previous first : Result ε UInt32) = .ok bits ∧
      (encodeTarget (targetOfNat (rules.nextTarget previous first (beNat base))) :
        Result ε UInt32) = .ok bits ∧
      Encodes bits (rules.nextTarget previous first (beNat base)) := by
  have hPos := hFits.pos
  have hSmall := hFits.small
  have hQuarter := hFits.quarter_le
  have hBounds := hFits.actualTimespan_bounds previous first
  rcases decodeTarget_eq_ok.mp hBase with ⟨_, _, hLimit, hTarget⟩
  have hBaseNat : beNat base ≤ beNat rules.powLimit := by
    have hLt := beNat_lt rules.powLimit
    rwa [hTarget, beNat_targetOfNat (by omega)]
  have hProduct : beNat base * (rules.actualTimespan previous first).toNat < 2 ^ 256 :=
    hFits.product_lt hBaseNat
  have hNext := @Fits.nextTarget_pos rules previous first hFits _ hFour hBaseNat
  -- the limbs compute the capped quotient of the numbers
  have hCapped :
      (if (fromBeBytes rules.powLimit).lt (U256.ofNat (beNat base *
            (rules.actualTimespan previous first).toNat / rules.targetTimespan.toNat)) then
        fromBeBytes rules.powLimit
      else
        U256.ofNat (beNat base *
          (rules.actualTimespan previous first).toNat / rules.targetTimespan.toNat)).toBeBytes =
        targetOfNat (rules.nextTarget previous first (beNat base)) := by
    have hQuot := Nat.lt_of_le_of_lt (Nat.div_le_self _ rules.targetTimespan.toNat) hProduct
    unfold nextTarget targetOfNat
    congr 1
    apply eq_ofNat
    split
    · rename_i hLt
      rw [lt_iff, toNat_fromBeBytes, toNat_ofNat_of_lt hQuot] at hLt
      rw [toNat_fromBeBytes, Nat.min_eq_left hLt.le]
    · rename_i hNotLt
      rw [lt_iff, toNat_fromBeBytes, toNat_ofNat_of_lt hQuot, Nat.not_lt] at hNotLt
      rw [toNat_ofNat_of_lt hQuot, Nat.min_eq_right hNotLt]
  have hNextFits : rules.nextTarget previous first (beNat base) < 2 ^ 256 :=
    Nat.lt_of_le_of_lt (Nat.min_le_left _ _) (beNat_lt rules.powLimit)
  rcases encodeTarget_spec (ε := ε)
      (targetOfNat (rules.nextTarget previous first (beNat base))) with
    ⟨bits, hBits, hEncodes⟩
  rw [beNat_targetOfNat hNextFits] at hEncodes
  have hDecodes := hEncodes.decodeTarget hNext (Nat.min_le_left _ _)
  have hClamp : (clamp (previous.time.toNat - first.time.toNat) (rules.targetTimespan.tdiv 4)
        (rules.targetTimespan * 4) : Result ε Int) = .ok (rules.actualTimespan previous first) := by
    rw [clamp, assert_of (by omega)]
    rfl
  have hDivisor : 0 < (UInt64.ofNat rules.targetTimespan.toNat).toNat := by
    rw [toNat_ofInt (by omega)]
    omega
  refine ⟨bits, ?_, hBits, hEncodes⟩
  rw [calculateNextBits, hRetargeting, if_neg (by decide), assert_of hHeights, ok_bind]
  dsimp only
  rw [BlockTime.timespanSince_eq, ok_bind, hClamp,
    ok_bind, assert_of (by omega), ok_bind, hBase, expectOk_ok, ok_bind,
    toU64_eq (by omega) (by omega), ok_bind, checkedMulU64_eq, toNat_fromBeBytes,
    toNat_ofInt (by omega), if_pos hProduct, ok_bind, expect_some, ok_bind,
    toU64_eq (by omega) (by omega), ok_bind, divU64_eq _ hDivisor,
    toNat_ofNat_of_lt hProduct, toNat_ofInt (by omega),
    ok_bind, hCapped, hBits, ok_bind, hDecodes, expectOk_ok, ok_bind, pure_eq_ok]

end Retarget

--------
-- Tabled Chains
--------

/- The parameters `Retarget.of` copies. -/
def Retarget.ofParams (params : ChainParams) : Retarget where
  powLimit := params.powLimit
  targetTimespan := params.powTargetTimespan
  noRetargeting := params.noRetargeting
  enforceBip94 := params.enforceBip94

theorem Retarget.of_eq (hPos : 0 < params.powTargetTimespan)
    (hFits : params.noRetargeting = false → (Retarget.ofParams params).Fits) :
    (Retarget.of params : Result ε Retarget) = .ok (Retarget.ofParams params) := by
  have hAssert : ((Retarget.ofParams params).assertMultiplyFits : Result ε Unit) = .ok () := by
    rw [assertMultiplyFits, assert_of (show 0 < (ofParams params).targetTimespan from hPos),
      ok_bind]
    split
    · rfl
    · rename_i hRetargeting
      have hFits := hFits (Bool.not_eq_true _ ▸ hRetargeting)
      have hSmall := hFits.small
      have hPos := hFits.pos
      rw [toU64_eq (by omega) (by omega), ok_bind]
      dsimp only
      rw [checkedMulU64_eq, toNat_fromBeBytes, toNat_ofInt (by omega), if_pos hFits.room, ok_bind]
      rfl
  change (((Retarget.ofParams params).assertMultiplyFits : Result ε Unit) >>= fun _ => _) = _
  rw [hAssert]
  rfl

/- Where difficulty moves at all, the products fit. -/
theorem ChainParams.Tabled.fits (hTab : params.Tabled K)
    (hRetargeting : params.noRetargeting = false) :
    (Retarget.ofParams params).Fits ∧ params.enforceBip94 = false := by
  have hFits {limit : Nat} (hLimit : limit < 2 ^ 256) (hRoom : limit * 4838400 < 2 ^ 256) :
      (⟨hexBytes limit, 1209600, false, false⟩ : Retarget).Fits :=
    ⟨show (0 : Int) < 1209600 by decide, show (4 : Int) ∣ 1209600 by decide,
      show (1209600 : Int) < 2 ^ 32 by decide, by
      rw [beNat_hexBytes hLimit]
      exact hRoom⟩
  rcases hTab.cases with rfl | ⟨_, rfl⟩ | ⟨_, rfl⟩
  · exact ⟨hFits (by decide) (by decide), rfl⟩
  · exact ⟨hFits (by decide) (by decide), rfl⟩
  · cases hRetargeting

theorem ChainParams.Tabled.timespan_pos (hTab : params.Tabled K) :
    0 < params.powTargetTimespan := by
  rcases hTab.cases with rfl | ⟨_, rfl⟩ | ⟨_, rfl⟩
  · exact show (0 : Int) < 1209600 by decide
  · exact show (0 : Int) < 1209600 by decide
  · exact show (0 : Int) < 86400 by decide

--------
-- Inside a Period and at Its End
--------

namespace IsPeriod

variable {params : ChainParams} {interval start : Nat} {period : List HeaderFacts}
variable {first previous : HeaderFacts}

section

variable (hPeriod : IsPeriod interval period start)
variable (hInterval : (params.difficultyAdjustmentInterval : Result ε Nat) = .ok interval)

include hPeriod hInterval

/- A complete period is retargeted. -/
theorem nextRequiredBits_boundary (hFst : period.head? = some first)
    (hLast : period.getLast? = some previous) (hHeight : previous.height.val < 0x7fffffff)
    (hComplete : period.length = interval) (newBlockTime : BlockTime) :
    (nextRequiredBits params period newBlockTime : Result ε UInt32) =
      Retarget.of params >>= fun retarget => calculateNextBits retarget previous first := by
  have hPos : 0 < interval := hComplete ▸ length_pos_iff.mpr hPeriod.nonempty
  have hNext : (previous.height.next : Result ε Height) = .ok ⟨previous.height.val + 1, hHeight⟩ :=
    Height.next_eq_ok.mpr rfl
  rcases encodeTarget_spec (ε := ε) params.powLimit with ⟨limitBits, hLimitBits, _⟩
  rw [nextRequiredBits, hInterval, ok_bind, hPeriod.checkPeriod_eq hLast, ok_bind, hLimitBits,
    ok_bind, hNext, ok_bind, Height.isRetargetBoundary_eq hPos, ok_bind,
    if_neg (by simp [(hPeriod.boundary_iff hLast).mpr hComplete]),
    assert_of hComplete, ok_bind, hFst, expect_some, ok_bind]

/- Inside a period only the testnet rule moves the bits. -/
theorem nextRequiredBits_within (hLast : period.getLast? = some previous)
    (hHeight : previous.height.val < 0x7fffffff) (hOpen : period.length ≠ interval)
    {limitBits : UInt32}
    (hLimitBits : (encodeTarget params.powLimit : Result ε UInt32) = .ok limitBits)
    (newBlockTime : BlockTime) :
    (nextRequiredBits params period newBlockTime : Result ε UInt32) =
      if params.allowMinDifficulty then
        minDifficultyBits params period newBlockTime limitBits
      else
        .ok previous.bits := by
  have hPos : 0 < interval :=
    Nat.lt_of_lt_of_le (length_pos_iff.mpr hPeriod.nonempty) hPeriod.length_le
  have hNext : (previous.height.next : Result ε Height) = .ok ⟨previous.height.val + 1, hHeight⟩ :=
    Height.next_eq_ok.mpr rfl
  have hInside : (previous.height.val + 1) % interval ≠ 0 :=
    (hPeriod.boundary_iff hLast).not.mpr hOpen
  rw [nextRequiredBits, hInterval, ok_bind, hPeriod.checkPeriod_eq hLast, ok_bind, hLimitBits,
    ok_bind, hNext, ok_bind, Height.isRetargetBoundary_eq hPos, ok_bind, if_pos (by simp [hInside])]
  rfl

/- A late block is given the limit; any other block the bits the walk back ends at. -/
theorem minDifficultyBits_walks (hLast : period.getLast? = some previous)
    (newBlockTime : BlockTime) (limitBits : UInt32) :
    ∃ facts passed, WalksBackTo interval limitBits period facts passed ∧
        (minDifficultyBits params period newBlockTime limitBits : Result ε UInt32) =
          .ok (if 2 * params.powTargetSpacing <
              (newBlockTime.toNat : Int) - previous.time.toNat then
            limitBits
          else
            facts.bits) := by
  have hPos : 0 < interval :=
    Nat.lt_of_lt_of_le (length_pos_iff.mpr hPeriod.nonempty) hPeriod.length_le
  have hStart : ∃ fact ∈ period, fact.height.val % interval = 0 := by
    rcases exists_cons_of_ne_nil hPeriod.nonempty with ⟨first, rest, hCons⟩
    have hHead : period[0]? = some first := by rw [hCons]; rfl
    refine ⟨first, mem_of_getElem? hHead, ?_⟩
    rw [hPeriod.height_getElem hHead]
    exact hPeriod.boundary
  rcases lastAboveLimit_walks (ε := ε) hPos limitBits hStart with ⟨facts, passed, hBits, hWalk⟩
  refine ⟨facts, passed, hWalk, ?_⟩
  rw [minDifficultyBits, hLast, expect_some, ok_bind, BlockTime.timespanSince_eq, ok_bind]
  split
  · rfl
  · rw [hInterval, ok_bind, hBits]

end

end IsPeriod

/-
  What follows a period. The retarget reads the last header's target, which must be at least four to
  scale to something above zero.
-/
theorem ChainParams.Tabled.nextRequiredBits_returns (hTab : params.Tabled K)
    {period : List HeaderFacts} {start : Nat} {previous : HeaderFacts}
    (hPeriod : IsPeriod params.intervalOf period start) (hLast : period.getLast? = some previous)
    (hHeight : previous.height.val < 0x7fffffff) (hTarget : params.noRetargeting = false →
      period.length = params.intervalOf →
        ∃ target, decodeTarget previous.bits params.powLimit = .ok target ∧ 4 ≤ beNat target)
    (newBlockTime : BlockTime) :
    ∃ bits, (nextRequiredBits params period newBlockTime : Result ε UInt32) = .ok bits := by
  by_cases hComplete : period.length = params.intervalOf
  · rcases exists_cons_of_ne_nil hPeriod.nonempty with ⟨first, rest, hCons⟩
    have hHead : period[0]? = some first := by rw [hCons]; rfl
    have hFst := hPeriod.height_getElem hHead
    have hLastHeight := hPeriod.last_height hLast
    rw [hPeriod.nextRequiredBits_boundary hTab.interval (head?_eq_getElem? ▸ hHead) hLast hHeight
        hComplete,
      Retarget.of_eq hTab.timespan_pos fun hRetargeting => (hTab.fits hRetargeting).1,
      ok_bind]
    cases hRetargeting : params.noRetargeting with
    | true => exact ⟨previous.bits, if_pos hRetargeting⟩
    | false =>
      rcases hTab.fits hRetargeting with ⟨hFits, hBip94⟩
      rcases hTarget hRetargeting hComplete with ⟨target, hDecode, hFour⟩
      rcases hFits.calculateNextBits_spec (ε := ε) hRetargeting
          (show first.height < previous.height by
            have hOne := params.intervalOf_pos
            show first.height.val < previous.height.val
            omega)
          (by
            rw [show (Retarget.ofParams params).enforceBip94 = false from hBip94]
            exact hDecode) hFour with
        ⟨bits, hBits, _⟩
      exact ⟨bits, hBits⟩
  · rcases encodeTarget_spec (ε := ε) params.powLimit with ⟨limitBits, hLimitBits, _⟩
    rw [hPeriod.nextRequiredBits_within hTab.interval hLast hHeight hComplete hLimitBits]
    split
    · rcases hPeriod.minDifficultyBits_walks (ε := ε)
          hTab.interval hLast newBlockTime limitBits with
        ⟨facts, passed, _, hBits⟩
      exact ⟨_, hBits⟩
    · exact ⟨_, rfl⟩

end Bitmigo
