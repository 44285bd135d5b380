import Bitmigo.Params.Chain

/-
  The rules in force for one block.

  Key definitions include:
    * `Rules` and `Bip30`
    * `blockSubsidy`
    * `ChainParams.rulesAt`

  Key theorems include:
    * `ChainParams.Tabled.rulesAt_returns`, the rules of any block of a tabled chain can be computed
-/

namespace Bitmigo

open Result List

variable {ε : Type}

/- The BIP30 scan resumes at this height. -/
def bip34ImpliesBip30Limit : Height := ⟨1983702, by decide⟩

/- Satoshis per bitcoin. -/
def coin : Nat := 100000000

/- The subsidy is zero from here on. -/
def halvingsMax : Nat := 64

/- What the coins path does about repeated outputs. -/
inductive Bip30 where
  | enforce
  | skip
  | overwrite
  deriving DecidableEq

/- The rules in force for one block. -/
structure Rules where
  scriptFlags : ScriptFlags
  versionFloor : Int
  bip34Active : Bool
  csvActive : Bool
  segwitActive : Bool
  bip30 : Bip30
  subsidy : Nat

/- 50 bitcoin, halved once per interval. -/
def blockSubsidy (height : Height) (halvingInterval : Nat) : Result ε Nat := do
  assert (0 < halvingInterval)
  let halvings := height.val / halvingInterval
  if halvingsMax ≤ halvings then
    return 0
  else do
    let subsidy := (50 * coin) >>> halvings
    assert (subsidy ≤ 50 * coin)
    return subsidy

namespace ChainParams

variable {K : Primitives} {params : ChainParams}

/- The exception entry for this hash, and how many matched. -/
def scanExceptions (hash : BlockHash) (exceptions : List ScriptFlagException) : ScriptFlags × Nat :=
  exceptions.foldl
    (fun (base, matched) exception =>
      if exception.hash = hash then
        (exception.flags, matched + 1)
      else
        (base, matched))
    (alwaysOnScriptFlags, 0)

def scriptFlagsBase (params : ChainParams) (hash : BlockHash) : Result ε ScriptFlags := do
  let (base, matched) := scanExceptions hash params.scriptFlagExceptions
  assert (matched ≤ 1)
  return base

/- The buried deployments add their flags. -/
def withFlag (flags flag : ScriptFlags) (active : Bool) : ScriptFlags :=
  if active then flags.union flag else flags

/- Each deployment raises the floor on its own height. -/
def versionFloorAt (params : ChainParams) (height : Height) : Result ε Int := do
  let floor : Int := 1
  let floor :=
    if params.buried.bip34.height ≤ height then 2 else floor
  let floor := if params.buried.bip66 ≤ height then 3 else floor
  let floor := if params.buried.bip65 ≤ height then 4 else floor
  assert (1 ≤ floor)
  assert (floor ≤ 4)
  return floor

def bip30At
    (params : ChainParams) (height : Height) (hash : BlockHash) (bip34Ancestor : Option BlockHash) :
    Result ε Bip30 := do
  let isRepeatException :=
    params.bip30RepeatExceptions.any fun exception =>
      exception.height = height ∧ exception.hash = hash
  let bip34BlockIsAncestor : Bool :=
    match params.buried.bip34.hash, bip34Ancestor with
    | some expected, some actual => expected = actual
    | _, _ => false
  assert (bip34BlockIsAncestor → params.buried.bip34.height < height)
  if isRepeatException then do
    assert (bip34BlockIsAncestor = false)
    assert (height < bip34ImpliesBip30Limit)
    return .overwrite
  else if bip34BlockIsAncestor ∧
      height < bip34ImpliesBip30Limit then
    return .skip
  else
    return .enforce

/- The rules for the block `hash` at `height`. -/
def rulesAt
    (params : ChainParams) (height : Height) (hash : BlockHash) (bip34Ancestor : Option BlockHash) :
    Result ε Rules := do
  assert (bip34Ancestor.isSome → params.buried.bip34.height < height)
  let buried := params.buried
  let flags ← params.scriptFlagsBase hash
  let flags := withFlag flags .dersig (buried.bip66 ≤ height)
  let flags := withFlag flags .checklocktimeverify (buried.bip65 ≤ height)
  let flags := withFlag flags .checksequenceverify (buried.csv ≤ height)
  let flags := withFlag flags .nulldummy (buried.segwit ≤ height)
  let versionFloor ← params.versionFloorAt height
  let bip30 ← params.bip30At height hash bip34Ancestor
  let subsidy ← blockSubsidy height params.halvingInterval
  let rules : Rules :=
    { scriptFlags := flags
      versionFloor := versionFloor
      bip34Active := buried.bip34.height ≤ height
      csvActive := buried.csv ≤ height
      segwitActive := buried.segwit ≤ height
      bip30 := bip30
      subsidy := subsidy }
  assert (rules.scriptFlags.contains .nulldummy = rules.segwitActive)
  assert (rules.scriptFlags.contains .checksequenceverify = rules.csvActive)
  assert (rules.bip34Active → 2 ≤ rules.versionFloor)
  assert (rules.scriptFlags.isSubsetOf .mandatory)
  return rules

--------
-- The Rules Can Be Computed
--------

theorem blockSubsidy_eq (height : Height) {halvingInterval : Nat}
    (hInterval : 0 < halvingInterval) :
    (blockSubsidy height halvingInterval : Result ε Nat) =
      .ok (if halvingsMax ≤ height.val / halvingInterval then 0
        else (50 * coin) >>> (height.val / halvingInterval)) := by
  have hLe : (50 * coin) >>> (height.val / halvingInterval) ≤ 50 * coin := by
    rw [Nat.shiftRight_eq_div_pow]
    exact Nat.div_le_self _ _
  simp only [blockSubsidy, hInterval, assert_true, ok_bind]
  split
  · rfl
  · simp only [hLe, assert_true, ok_bind, pure_eq_ok]

/- The base flags of a tabled chain. -/
theorem scriptFlagsBase_returns (hTab : Tabled K params) (hash : BlockHash) :
    ∃ base, (params.scriptFlagsBase hash : Result ε ScriptFlags) = .ok base ∧
      (base = alwaysOnScriptFlags ∨ base = .none ∨ base = ScriptFlags.p2sh.union .witness) := by
  rcases hTab.cases with rfl | ⟨_, rfl⟩ | ⟨_, rfl⟩
  · have hDistinct : ∀ first ∈ mainnetScriptFlagExceptions.head?,
        ∀ second ∈ mainnetScriptFlagExceptions.tail.head?, first.hash ≠ second.hash := by
      simp only [mainnetScriptFlagExceptions, head?_cons,
        Option.mem_some_iff, forall_eq', tail_cons]
      decide
    simp only [mainnetScriptFlagExceptions, head?_cons, Option.mem_some_iff, forall_eq', tail_cons]
      at hDistinct
    simp only [scriptFlagsBase, mainnetTable, mainnetScriptFlagExceptions, scanExceptions,
      foldl_cons, foldl_nil]
    split_ifs with hSnd hFst hFst
    · exact absurd (hFst.trans hSnd.symm) hDistinct
    · exact ⟨_, rfl, .inr (.inr rfl)⟩
    · exact ⟨_, rfl, .inr (.inl rfl)⟩
    · exact ⟨_, rfl, .inl rfl⟩
  · exact ⟨_, rfl, .inl rfl⟩
  · exact ⟨_, rfl, .inl rfl⟩

/- The flags agree with the switches they come from. -/
theorem withFlag_consistent {base : ScriptFlags}
    (hBase : base = alwaysOnScriptFlags ∨ base = .none ∨ base = ScriptFlags.p2sh.union .witness)
    (bip66 bip65 csv segwit : Bool) :
    let flags :=
      withFlag (withFlag (withFlag (withFlag base .dersig bip66)
        .checklocktimeverify bip65) .checksequenceverify csv)
        .nulldummy segwit
    flags.contains .nulldummy = segwit ∧ flags.contains .checksequenceverify = csv ∧
      flags.isSubsetOf .mandatory := by
  rcases hBase with rfl | rfl | rfl <;> revert bip66 bip65 csv segwit <;> decide

theorem versionFloorAt_returns (params : ChainParams) (height : Height) :
    ∃ floor, (params.versionFloorAt height : Result ε Int) = .ok floor ∧
      (params.buried.bip34.height ≤ height → 2 ≤ floor) := by
  unfold versionFloorAt
  split_ifs <;> refine ⟨_, rfl, ?_⟩ <;> simp_all

/- Both repeats are below BIP34 and below the limit. -/
theorem repeat_below (hTab : Tabled K params) :
    ∀ exception ∈ params.bip30RepeatExceptions, exception.height < params.buried.bip34.height ∧
      exception.height < bip34ImpliesBip30Limit := by
  rcases hTab.cases with rfl | ⟨_, rfl⟩ | ⟨_, rfl⟩
  · intro exception hMem
    simp only [mainnetTable, mainnetBip30RepeatExceptions, mem_cons, not_mem_nil, or_false] at hMem
    rcases hMem with rfl | rfl
    · exact ⟨show 91842 < 227931 by decide, by decide⟩
    · exact ⟨show 91880 < 227931 by decide, by decide⟩
  · exact fun _ hMem => (not_mem_nil hMem).elim
  · exact fun _ hMem => (not_mem_nil hMem).elim

section

variable (hTab : Tabled K params) {height : Height} (hash : BlockHash)
variable {bip34Ancestor : Option BlockHash}
variable (hAnc : bip34Ancestor.isSome → params.buried.bip34.height < height)

include hTab hAnc

theorem bip30At_returns :
    ∃ bip30, (params.bip30At height hash bip34Ancestor : Result ε Bip30) = .ok bip30 := by
  unfold bip30At
  generalize hIs :
    (match params.buried.bip34.hash, bip34Ancestor with
      | some expected, some actual => decide (expected = actual)
      | _, _ => false) = isAncestor
  have hAbove : isAncestor → params.buried.bip34.height < height := by
    intro hTrue
    subst hTrue
    apply hAnc
    cases bip34Ancestor with
    | none => simp at hIs
    | some actual => rfl
  dsimp only
  rw [assert_of hAbove, ok_bind]
  by_cases hRepeat : params.bip30RepeatExceptions.any fun exception =>
        exception.height = height ∧ exception.hash = hash
  · rw [if_pos hRepeat]
    simp only [any_eq_true, decide_eq_true_eq] at hRepeat
    rcases hRepeat with ⟨exception, hMem, rfl, _⟩
    rcases repeat_below hTab exception hMem with ⟨hBelow, hLimit⟩
    have hNot : isAncestor = false := by
      rw [← Bool.not_eq_true]
      exact fun hTrue => lt_asymm (hAbove hTrue) hBelow
    exact ⟨.overwrite, by simp [hNot, hLimit]⟩
  · rw [if_neg hRepeat]
    split
    · exact ⟨.skip, rfl⟩
    · exact ⟨.enforce, rfl⟩

/- The rules of a block, and what each switch says about its height. -/
theorem Tabled.rulesAt_returns :
    ∃ rules, (params.rulesAt height hash bip34Ancestor : Result ε Rules) = .ok rules := by
  have hHalving : 0 < params.halvingInterval := by
    rcases hTab.cases with rfl | ⟨_, rfl⟩ | ⟨_, rfl⟩
    · exact show 0 < 210000 by decide
    · exact show 0 < 210000 by decide
    · exact show 0 < 150 by decide
  rcases scriptFlagsBase_returns (ε := ε) hTab hash with ⟨base, hBase, hKind⟩
  rcases versionFloorAt_returns (ε := ε) params height with ⟨floor, hFloor, hTwo⟩
  rcases bip30At_returns (ε := ε) hTab hash hAnc with ⟨bip30, hBip30⟩
  rcases withFlag_consistent hKind (params.buried.bip66 ≤ height) (params.buried.bip65 ≤ height)
      (params.buried.csv ≤ height)
      (params.buried.segwit ≤ height) with
    ⟨hNulldummy, hCsv, hMandatory⟩
  simp only [rulesAt, assert_true, ok_bind, hBase, hFloor, hBip30, blockSubsidy_eq height hHalving,
    hNulldummy, hCsv, hMandatory, decide_eq_true_eq, pure_eq_ok]
  rw [assert_of hAnc, ok_bind, assert_of hTwo, ok_bind]
  exact ⟨_, rfl⟩

end

end ChainParams

end Bitmigo
