import Bitmigo.Bitcoin.Primitives
import Bitmigo.Header.Target
import Bitmigo.Script.Opcode

/-
  Per-chain constants.

  Key definitions include:
    * `Height` and `BlockTime`
    * `ChainParams`, with its constructors `mainnet`, `signet` and `regtest`
    * `ChainParams.Tabled`, the parameters a node can have

  Key theorems include:
    * `ChainParams.Tabled.cases`, the tables behind them
    * `ChainParams.Tabled.interval`, the length of a difficulty period
-/

namespace Bitmigo

open Result LittleEndian Except

variable {ε : Type} {K : Primitives}

--------
-- Heights and Times
--------

/- A block height, bounded by `i32::MAX`. -/
abbrev Height := { height : Nat // height ≤ 0x7fffffff }

namespace Height

def genesis : Height := ⟨0, by decide⟩
def max : Height := ⟨0x7fffffff, Nat.le_refl _⟩

def new (height : Nat) : Result ε Height :=
  if h : height ≤ 0x7fffffff then .ok ⟨height, h⟩
  else panicked

/- The height of the block after this one. -/
def next (height : Height) : Result ε Height :=
  if h : height.val < 0x7fffffff then
    .ok ⟨height.val + 1, h⟩
  else
    panicked

/- Does a block at this height start a difficulty period? -/
def isRetargetBoundary (height : Height) (interval : Nat) : Result ε Bool := do
  assert (0 < interval)
  return height.val % interval = 0

theorem next_eq_ok {height after : Height} :
    (height.next : Result ε Height) = .ok after ↔ after.val = height.val + 1 := by
  unfold next
  split
  · rw [ok.injEq, Subtype.ext_iff]
    exact eq_comm
  · simp only [panicked_ne_ok, false_iff]
    omega

theorem isRetargetBoundary_eq {height : Height} {interval : Nat} (hInterval : 0 < interval) :
    (height.isRetargetBoundary interval : Result ε Bool) = .ok (height.val % interval = 0) := by
  simp [isRetargetBoundary, hInterval]

end Height

/- A header timestamp in seconds. -/
abbrev BlockTime := UInt32

/- Seconds from `earlier`; timestamps are not monotonic. -/
def BlockTime.timespanSince (time earlier : BlockTime) : Result ε Int := do
  let timespan : Int := time.toNat - earlier.toNat
  assert (timespan.natAbs < 2 ^ 32)
  return timespan

@[simp] theorem BlockTime.timespanSince_eq (time earlier : BlockTime) :
    (BlockTime.timespanSince time earlier : Result ε Int) = .ok (time.toNat - earlier.toNat) := by
  have hTime := time.toNat_lt
  have hEarlier := earlier.toNat_lt
  have hFits : ((time.toNat : Int) - earlier.toNat).natAbs < 2 ^ 32 := by omega
  simp only [BlockTime.timespanSince, hFits, assert_true, ok_bind, pure_eq_ok]

--------
-- Parameters
--------

/- The chains the node knows. -/
inductive Chain where
  | mainnet
  | signet
  | regtest
  deriving DecidableEq

/- Whether a block must carry a signature. -/
inductive BlockChallenge where
  | none
  | signet (challenge : Script)
  deriving DecidableEq

/- BIP34's height and, where there is one, its block. -/
structure Bip34 where
  height : Height
  hash : Option Hash32

/- The heights at which each deployment switches on. -/
structure BuriedHeights where
  bip34 : Bip34
  bip66 : Height
  bip65 : Height
  csv : Height
  segwit : Height

/- A block whose flags replace the always-on set. -/
structure ScriptFlagException where
  hash : Hash32
  flags : ScriptFlags

/- A block exempt from the BIP30 scan. -/
structure Bip30RepeatException where
  height : Height
  hash : Hash32

/- Everything validation reads about a chain. -/
structure ChainParams where
  chain : Chain
  genesis : Block
  powLimit : Target
  powTargetTimespan : Int
  powTargetSpacing : Int
  noRetargeting : Bool
  allowMinDifficulty : Bool
  enforceBip94 : Bool
  halvingInterval : Nat
  buried : BuriedHeights
  scriptFlagExceptions : List ScriptFlagException
  bip30RepeatExceptions : List Bip30RepeatException
  blockChallenge : BlockChallenge

variable {params : ChainParams}

/- Bytes written as one number, in the order written. -/
def hexBytes (n : Nat) : FixedBytes 32 :=
  ⟨(LittleEndian.encode 32 n).reverse, length_reverse_encode n⟩

theorem beNat_hexBytes {n : Nat} (hn : n < 2 ^ 256) : U256.beNat (hexBytes n) = n := by
  rw [U256.beNat, hexBytes, List.reverse_reverse, decode_encode_of_lt hn]

/- A block hash as it is displayed, in memory order. -/
def hashBytes (n : Nat) : Hash32 :=
  ⟨LittleEndian.encode 32 n, by simp⟩

def scriptFlagExceptionsMax : Nat := 2
def bip30RepeatExceptionsMax : Nat := 2

/- The flags of every block without an exception. -/
def alwaysOnScriptFlags : ScriptFlags :=
  (ScriptFlags.p2sh.union .witness).union .taproot

/- The activation knobs of regtest. -/
structure RegtestOverrides where
  bip34 : Option Height
  bip66 : Option Height
  bip65 : Option Height
  csv : Option Height
  segwit : Option Height
  bip94 : Bool
  deriving Inhabited

namespace ChainParams

/- What every constructor establishes. -/
def assertInvariants (K : Primitives) (params : ChainParams) (genesisHash : Hash32) :
    Result ε Unit := do
  assert (K.blockHash params.genesis.header = genesisHash)
  assert (params.genesis.txdata.length = 1)
  assert (0 < U256.beNat params.powLimit)
  assert (0 < params.powTargetSpacing)
  assert (params.powTargetSpacing ≤ params.powTargetTimespan)
  assert (params.powTargetTimespan.tmod params.powTargetSpacing = 0)
  assert (0 < params.halvingInterval)
  assert (params.scriptFlagExceptions.length ≤ scriptFlagExceptionsMax)
  assert
    (∀ exception ∈ params.scriptFlagExceptions, exception.flags.isSubsetOf alwaysOnScriptFlags)
  assert (params.bip30RepeatExceptions.length ≤ bip30RepeatExceptionsMax)
  assert (params.chain ≠ .mainnet → params.buried.bip34.hash.isNone)
  match params.blockChallenge with
  | .none => assert (params.chain ≠ .signet)
  | .signet challenge => do
      assert (params.chain = .signet)
      assert (challenge ≠ [])

/- Two blocks verified under fewer flags. -/
def mainnetScriptFlagExceptions : List ScriptFlagException :=
  [{ hash := hashBytes
      0x00000000000002dc756eebf4f49723ed8d30cc28a5f108eb94b1ba88ac4f9c22
     flags := .none },
   { hash := hashBytes
      0x0000000000000000000f14c35b2d841e986ab5441de8c585d5ffe55ea1e395ad
     flags := ScriptFlags.p2sh.union .witness }]

/- The two blocks whose coinbases repeat earlier ones. -/
def mainnetBip30RepeatExceptions : List Bip30RepeatException :=
  [{ height := ⟨91842, by decide⟩
     hash := hashBytes 0x00000000000a4d0a398161ffc163c503763b1f4360639393e0e4c8e300e0caec },
   { height := ⟨91880, by decide⟩
     hash := hashBytes 0x00000000000743f190a18c5577a3c2d2a1f610ae9601ac046a38084ccb7cd721 }]

def mainnetTable (K : Primitives) : ChainParams where
  chain := .mainnet
  genesis := K.genesisBlock .bitcoin
  powLimit := hexBytes 0x00000000ffff0000000000000000000000000000000000000000000000000000
  powTargetTimespan := 14 * 24 * 60 * 60
  powTargetSpacing := 10 * 60
  noRetargeting := false
  allowMinDifficulty := false
  enforceBip94 := false
  halvingInterval := 210000
  buried :=
    { bip34 :=
        { height := ⟨227931, by decide⟩
          hash := some (hashBytes
            0x000000000000024b89b42a942fe0d9fea3bb44ab7bd1b19115dd6a759c0808b8) }
      bip66 := ⟨363725, by decide⟩
      bip65 := ⟨388381, by decide⟩
      csv := ⟨419328, by decide⟩
      segwit := ⟨481824, by decide⟩ }
  scriptFlagExceptions := mainnetScriptFlagExceptions
  bip30RepeatExceptions := mainnetBip30RepeatExceptions
  blockChallenge := .none

def mainnet (K : Primitives) : Result ε ChainParams := do
  let params := mainnetTable K
  params.assertInvariants K (hashBytes
    0x000000000019d6689c085ae165831e934ff763ae46a2a6c172b3f1b60a8ce26f)
  return params

def signetTable (K : Primitives) (challenge : Script) : ChainParams where
  chain := .signet
  genesis := K.genesisBlock .signet
  powLimit := hexBytes 0x00000377ae000000000000000000000000000000000000000000000000000000
  powTargetTimespan := 14 * 24 * 60 * 60
  powTargetSpacing := 10 * 60
  noRetargeting := false
  allowMinDifficulty := false
  enforceBip94 := false
  halvingInterval := 210000
  buried :=
    { bip34 := { height := ⟨1, by decide⟩, hash := none }
      bip66 := ⟨1, by decide⟩
      bip65 := ⟨1, by decide⟩
      csv := ⟨1, by decide⟩
      segwit := ⟨1, by decide⟩ }
  scriptFlagExceptions := []
  bip30RepeatExceptions := []
  blockChallenge := .signet challenge

def signet (K : Primitives) (challenge : Script) : Result ε ChainParams := do
  let params := signetTable K challenge
  params.assertInvariants K (hashBytes
    0x00000008819873e925422c1ff0f99f7cc9bbb232af63a077a480a3633bee1ef6)
  return params

def regtestTable (K : Primitives) (overrides : RegtestOverrides) : ChainParams where
  chain := .regtest
  genesis := K.genesisBlock .regtest
  powLimit := hexBytes 0x7fffffffffffffffffffffffffffffffffffffffffffffffffffffffffffffff
  powTargetTimespan := 24 * 60 * 60
  powTargetSpacing := 10 * 60
  noRetargeting := true
  allowMinDifficulty := true
  enforceBip94 := overrides.bip94
  halvingInterval := 150
  buried :=
    { bip34 :=
        { height := overrides.bip34.getD ⟨1, by decide⟩
          hash := none }
      bip66 := overrides.bip66.getD ⟨1, by decide⟩
      bip65 := overrides.bip65.getD ⟨1, by decide⟩
      csv := overrides.csv.getD ⟨1, by decide⟩
      segwit := overrides.segwit.getD Height.genesis }
  scriptFlagExceptions := []
  bip30RepeatExceptions := []
  blockChallenge := .none

def regtest (K : Primitives) (overrides : RegtestOverrides) : Result ε ChainParams := do
  let params := regtestTable K overrides
  params.assertInvariants K (hashBytes
    0x0f9188f13cb7b2c71f2a335e3a4fc328bf5beb436012afca590b1a11466e2206)
  return params

/- The parameters the constructors give out. -/
inductive Tabled (K : Primitives) : ChainParams → Prop where
  | mainnet {params : ChainParams} (h : (mainnet K : Result Empty ChainParams) = .ok params) :
      Tabled K params
  | signet {params : ChainParams} (challenge : Script)
      (h : (signet K challenge : Result Empty ChainParams) = .ok params) :
      Tabled K params
  | regtest {params : ChainParams} (overrides : RegtestOverrides)
      (h : (regtest K overrides : Result Empty ChainParams) = .ok params) :
      Tabled K params

theorem tabled_of_isOk {overrides : RegtestOverrides}
    (hOk : (regtest K overrides : Result Empty ChainParams).isOk) :
    (regtestTable K overrides).Tabled K := by
  refine .regtest overrides ?_
  rw [regtest] at hOk ⊢
  cases hInvariants : ((regtestTable K overrides).assertInvariants K _ : Result Empty Unit) with
  | error halt =>
    rw [hInvariants] at hOk
    cases hOk
  | ok _ => rfl

/- Blocks per difficulty period. -/
def difficultyAdjustmentInterval (params : ChainParams) : Result ε Nat := do
  let interval := params.powTargetTimespan.tdiv params.powTargetSpacing
  assert (0 ≤ interval ∧ interval < 2 ^ 32)
  assert (0 < interval)
  return interval.toNat

def genesisHash (K : Primitives) (params : ChainParams) : BlockHash :=
  K.blockHash params.genesis.header

/- A constructor gives out its table. -/
theorem Tabled.cases (hTab : Tabled K params) :
    params = mainnetTable K ∨ (∃ challenge, params = signetTable K challenge) ∨
      ∃ overrides, params = regtestTable K overrides := by
  cases hTab with
  | mainnet h =>
    simp only [ChainParams.mainnet, bind_eq_ok, pure_inj] at h
    rcases h with ⟨_, _, rfl⟩
    exact .inl rfl
  | signet challenge h =>
    simp only [ChainParams.signet, bind_eq_ok, pure_inj] at h
    rcases h with ⟨_, _, rfl⟩
    exact .inr (.inl ⟨challenge, rfl⟩)
  | regtest overrides h =>
    simp only [ChainParams.regtest, bind_eq_ok, pure_inj] at h
    rcases h with ⟨_, _, rfl⟩
    exact .inr (.inr ⟨overrides, rfl⟩)

/- Two weeks of blocks, or a day of them on regtest. -/
def intervalOf (params : ChainParams) : Nat :=
  if params.chain = .regtest then 144 else 2016

theorem intervalOf_pos (params : ChainParams) : 1 < params.intervalOf := by
  unfold intervalOf
  split <;> decide

theorem Tabled.interval (hTab : Tabled K params) :
    (params.difficultyAdjustmentInterval : Result ε Nat) = .ok params.intervalOf := by
  rcases hTab.cases with rfl | ⟨_, rfl⟩ | ⟨_, rfl⟩ <;> rfl

end ChainParams

end Bitmigo
