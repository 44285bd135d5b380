import Bitmigo.Bitcoin.Encoding
import Bitmigo.Header.Retarget

/-
  The difficulty rule as arithmetic over the natural numbers.

  Key theorems include:
    * `nextRequiredBits_exact`, what a block must carry after a complete period and inside one
-/

namespace Bitmigo

open Result List Crypto U256

variable {ε : Type}

theorem Retarget.Fits.nextTarget_le {rules : Retarget} (hFits : rules.Fits)
    (previous first : HeaderFacts) (target : Nat) :
    rules.nextTarget previous first target ≤ 4 * target := by
  have hPos := hFits.pos
  have hBounds := hFits.actualTimespan_bounds previous first
  refine (Nat.min_le_right _ _).trans ?_
  rw [Nat.div_le_iff_le_mul_add_pred (by omega)]
  refine Nat.le_add_right_of_le ?_
  calc target * (rules.actualTimespan previous first).toNat
      ≤ target * (4 * rules.targetTimespan.toNat) := Nat.mul_le_mul_left _ (by omega)
    _ = rules.targetTimespan.toNat * (4 * target) := by
        ring

/- No period ends at the last height there is. -/
theorem ChainParams.height_lt_of_boundary (params : ChainParams) {height : Height}
    (hBoundary : (height.val + 1) % params.intervalOf = 0) : height.val < 0x7fffffff := by
  unfold intervalOf at hBoundary
  split at hBoundary <;> omega

/-
  On every tabled chain, with BIP94 on or off. After a complete period the base target is scaled by
  the clamped timespan, exactly, and the result decodes; inside a period of a minimum-difficulty
  chain the bits are the limit's for a late block, and else those of the nearest header that is at a
  boundary or was not mined at the limit.
-/
theorem nextRequiredBits_exact {K : Primitives} {table : ChainParams} (hTab : table.Tabled K)
    (bip94 : Bool) {period : List HeaderFacts} {start : Nat} {first previous : HeaderFacts}
    (hPeriod : IsPeriod table.intervalOf period start) (hFst : period.head? = some first)
    (hLast : period.getLast? = some previous) (newBlockTime : BlockTime) :
    let params := { table with enforceBip94 := bip94 }
    let rules := Retarget.ofParams params
    (params.noRetargeting = false →
      period.length = params.intervalOf →
      ∀ base : Target,
        decodeTarget (if bip94 then first.bits else previous.bits) params.powLimit = .ok base →
        4 ≤ beNat base →
          ∃ bits next,
            (nextRequiredBits params period newBlockTime : Result ε UInt32) = .ok bits ∧
              (encodeTarget (targetOfNat (rules.nextTarget previous first (beNat base))) :
                Result ε UInt32) = .ok bits ∧
              rules.nextTarget previous first (beNat base) ≤ 4 * beNat base ∧
              decodeTarget bits params.powLimit = .ok next) ∧
      (params.allowMinDifficulty = true →
        ∀ after : Height,
          (previous.height.next : Result ε Height) = .ok after →
          after.val % params.intervalOf ≠ 0 →
            ∃ limitBits facts passed,
              (encodeTarget params.powLimit : Result ε UInt32) = .ok limitBits ∧
                WalksBackTo params.intervalOf limitBits period facts passed ∧
                (nextRequiredBits params period newBlockTime : Result ε UInt32) =
                  .ok (if 2 * params.powTargetSpacing <
                      (newBlockTime.toNat : Int) - previous.time.toNat then
                    limitBits
                  else
                    facts.bits)) := by
  intro params rules
  have hInterval : (params.difficultyAdjustmentInterval : Result ε Nat) = .ok table.intervalOf :=
    hTab.interval
  constructor
  · intro hRetargeting hComplete base hBase hFour
    have hFits : rules.Fits := by
      rcases hTab.fits hRetargeting with ⟨hFits, _⟩
      exact ⟨hFits.pos, hFits.four, hFits.small, hFits.room⟩
    have hRules : (Retarget.of params : Result ε Retarget) = .ok rules :=
      Retarget.of_eq (show 0 < params.powTargetTimespan from hTab.timespan_pos) fun _ => hFits
    have hHeight : previous.height.val < 0x7fffffff :=
      table.height_lt_of_boundary ((hPeriod.boundary_iff hLast).mpr hComplete)
    have hOne := table.intervalOf_pos
    have hFirstHeight := hPeriod.height_getElem (head?_eq_getElem? ▸ hFst)
    have hLastHeight := hPeriod.last_height hLast
    have hHeights : first.height < previous.height := by
      show first.height.val < previous.height.val
      have hLen : period.length = table.intervalOf := hComplete
      omega
    rcases hFits.calculateNextBits_spec (ε := ε) hRetargeting hHeights hBase hFour with
      ⟨bits, hBits, hEncoded, hEncodes⟩
    have hLimit : beNat base ≤ beNat rules.powLimit := by
      rcases decodeTarget_eq_ok.mp hBase with ⟨_, _, hLimit, hTarget⟩
      have hLt := beNat_lt params.powLimit
      rwa [hTarget, beNat_targetOfNat (by omega)]
    refine ⟨bits, _, ?_, hEncoded, hFits.nextTarget_le previous first _,
      hEncodes.decodeTarget (hFits.nextTarget_pos hFour hLimit) (Nat.min_le_left _ _)⟩
    rw [hPeriod.nextRequiredBits_boundary hInterval hFst hLast hHeight hComplete, hRules, ok_bind]
    exact hBits
  · intro hMinimum after hAfter hInside
    rw [Height.next_eq_ok] at hAfter
    have hHeight : previous.height.val < 0x7fffffff := by omega
    have hOpen : period.length ≠ table.intervalOf :=
      (hPeriod.boundary_iff hLast).not.mp (hAfter ▸ hInside)
    rcases encodeTarget_spec (ε := ε) params.powLimit with ⟨limitBits, hLimitBits, _⟩
    rcases hPeriod.minDifficultyBits_walks (ε := ε) hInterval hLast newBlockTime limitBits with
      ⟨facts, passed, hWalk, hBits⟩
    refine ⟨limitBits, facts, passed, hLimitBits, hWalk, ?_⟩
    rw [hPeriod.nextRequiredBits_within hInterval hLast
      hHeight hOpen hLimitBits, if_pos hMinimum, hBits]

/- The first two weeks of the main chain, and of regtest. -/
namespace FirstPeriod

variable {count : Nat}

def mainnetInner : Hash32 := hash32
  0xaf42031e805ff493a07341e2f74ff58149d22ab9ba19f61343e2c86c71c5d66d

def regtestInner : Hash32 := hash32
  0x6d70f6956fb70359ed8346c65ef450be459cada75445e4363575a54e47ca417d

/- The values of the hash function on the first headers. -/
def crypto : Crypto := ofSha256 [
  (Encoding.header (Crypto.genesisBlock .bitcoin).header, mainnetInner),
  (mainnetInner.val, hash32
    0x6fe28c0ab6f1b372c1a6a246ae63f74f931e8365e15a089c68d6190000000000),
  (Encoding.header (Crypto.genesisBlock .regtest).header, regtestInner),
  (regtestInner.val, hash32
    0x06226e46111a0b59caaf126043eb5bbf28c34f3a5e332a1fc7b2b73cf188910f)]

def mainnet : ChainParams :=
  ChainParams.mainnetTable crypto.primitives

def regtest : ChainParams :=
  ChainParams.regtestTable crypto.primitives default

theorem tabled_mainnet : mainnet.Tabled crypto.primitives := by
  have hInvariants : (mainnet.assertInvariants crypto.primitives
      (hashBytes 0x000000000019d6689c085ae165831e934ff763ae46a2a6c172b3f1b60a8ce26f) :
      Result Empty Unit) = .ok () := by
    decide +kernel
  refine .mainnet ?_
  rw [ChainParams.mainnet]
  show (mainnet.assertInvariants crypto.primitives _ >>= _) = _
  rw [hInvariants, ok_bind, pure_eq_ok]
  rfl

theorem tabled_regtest : regtest.Tabled crypto.primitives :=
  ChainParams.tabled_of_isOk (by decide +kernel)

/- A header of the period: a second after the first one. -/
def factsAt (index : Nat) : HeaderFacts where
  height := ⟨min index 0x7fffffff, Nat.min_le_right _ _⟩
  bits := 0x1d00ffff
  time := if index = 0 then 1231006505 else 1231006506

/- Headers from the first one on, within a second. -/
def period (count : Nat) : List HeaderFacts :=
  (List.range count).map factsAt

theorem isPeriod {interval : Nat} (hSome : 0 < count) (hCount : count ≤ interval)
    (hSmall : count ≤ 0x7fffffff) : IsPeriod interval (period count) 0 where
  nonempty := by
    rwa [← length_pos_iff, period, length_map, length_range]
  length_le := by
    rwa [period, length_map, length_range]
  boundary := Nat.zero_mod interval
  heights := by
    rw [period, length_map, length_range, map_map, ← range_eq_range']
    refine (map_congr_left ?_).trans (map_id _)
    intro index hIndex
    have hBelow := mem_range.mp hIndex
    show min index 0x7fffffff = index
    omega

theorem head_period (hSome : 0 < count) : (period count).head? = some (factsAt 0) := by
  rw [period, head?_map, head?_range, if_neg (by omega)]
  rfl

theorem getLast_period (hSome : 0 < count) :
    (period count).getLast? = some (factsAt (count - 1)) := by
  rw [period, getLast?_map, getLast?_range, if_neg (by omega)]
  rfl

/- What the first headers say decodes. -/
def base : Target := targetOfNat (0xffff * 2 ^ 208)

theorem decodeTarget_base : decodeTarget 0x1d00ffff mainnet.powLimit = .ok base := by
  decide +kernel

theorem four_le_base : 4 ≤ beNat base := by
  decide +kernel

theorem encodeTarget_quarter :
    (encodeTarget (targetOfNat
        ((Retarget.ofParams mainnet).nextTarget (factsAt 2015) (factsAt 0) (beNat base))) :
      Result Empty UInt32) = .ok 0x1c3fffc0 := by
  decide +kernel

/-
  A period mined in a second makes the next one four times harder; two blocks into a period of
  regtest, the bits stay what the second block had.
-/
theorem nextRequiredBits_exact_quick :
    (∃ next,
      (nextRequiredBits mainnet (period 2016) 1231006507 : Result Empty UInt32) = .ok 0x1c3fffc0 ∧
        decodeTarget 0x1c3fffc0 mainnet.powLimit = .ok next) ∧
      ∃ limitBits facts passed,
        WalksBackTo 144 limitBits (period 2) facts passed ∧
          (nextRequiredBits regtest (period 2) 1231006507 :
              Result Empty UInt32) = .ok facts.bits := by
  constructor
  · rcases (nextRequiredBits_exact (ε := Empty) tabled_mainnet false
        (isPeriod (by decide) (show 2016 ≤ mainnet.intervalOf from Nat.le_refl _) (by decide))
        (head_period (by decide)) (getLast_period (by decide))
        1231006507).1 rfl
        (by rw [period, length_map, length_range]
            rfl)
        base decodeTarget_base four_le_base with
      ⟨bits, next, hBits, hEncoded, _, hNext⟩
    have hSame : bits = 0x1c3fffc0 := Except.ok.inj (hEncoded.symm.trans encodeTarget_quarter)
    rw [hSame] at hBits hNext
    exact ⟨next, hBits, hNext⟩
  · rcases (nextRequiredBits_exact (ε := Empty) tabled_regtest false
        (isPeriod (by decide) (show 2 ≤ regtest.intervalOf by decide) (by decide))
        (head_period (by decide)) (getLast_period (by decide))
        1231006507).2 rfl ⟨2, by decide⟩
        (Height.next_eq_ok.mpr rfl) (by decide) with
      ⟨limitBits, facts, passed, _, hWalk, hBits⟩
    exact ⟨limitBits, facts, passed, hWalk, hBits⟩

end FirstPeriod

end Bitmigo
