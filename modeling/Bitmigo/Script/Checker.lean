import Bitmigo.Script.ScriptCode

/-
  The questions a script asks about the transaction that spends it.

  Key definitions include:
    * `TxSigChecker` and its `checkEcdsa`, `checkSchnorr`, `checkLocktime` and `checkSequence`

  A checker is built by asserting that it matches its transaction, so a `TxSigChecker` carries those
  facts.
-/

namespace Bitmigo

open Result

def locktimeThreshold : Int := 500000000
def sequenceFinal : UInt32 := 0xffffffff
def sequenceLocktimeDisableFlag : Nat := 1 <<< 31
def sequenceLocktimeTypeFlag : Nat := 1 <<< 22
def sequenceLocktimeMask : Nat := 0x0000ffff
def scriptnumLocktimeMax : Int := 2 ^ 39 - 1
def schnorrSignatureLen : Nat := 64

--------
-- The Checker
--------

/- A transaction, the input in question and what it spends. -/
structure TxSigChecker (K : Primitives) where
  tx : Transaction
  index : Nat
  prevouts : List TxOut
  precomputed : TxPrecomputed
  index_lt : index < tx.input.length
  length_prevouts : prevouts.length = tx.input.length
  builtFor : precomputed.BuiltFor K tx

namespace TxSigChecker

variable {K : Primitives}

def new (K : Primitives) (tx : Transaction) (index : Nat) (prevouts : List TxOut)
    (precomputed : TxPrecomputed) : Result ScriptError (TxSigChecker K) :=
  if h :
      index < tx.input.length ∧ prevouts.length = tx.input.length ∧ precomputed.BuiltFor K tx then
    .ok ⟨tx, index, prevouts, precomputed, h.1, h.2.1, h.2.2⟩
  else
    panicked

/- Lax DER, normalised S, then libsecp256k1. -/
def ecdsaVerify (K : Primitives) (signature : Bytes) (pubkey : K.PublicKey)
    (digest : Hash32) : Bool :=
  match K.ecdsaFromDerLax signature with
  | none => false
  | some signature =>
    K.verifyEcdsa digest (K.normalizeS signature) pubkey

/- An ECDSA signature with its trailing hash type byte. -/
def checkEcdsa (checker : TxSigChecker K) (signature pubkey : Bytes) (scriptCode : Script)
    (sigVersion : SigVersion) : Result ScriptError Bool :=
  match signature.getLast? with
  | none => .ok false
  | some hashType =>
    match K.publicKeyFromSlice pubkey with
    | none => .ok false
    | some pubkey => do
        let digest ←
          (match sigVersion with
          | .base =>
            legacySighash K checker.tx checker.index scriptCode hashType.toUInt32
          | .witnessV0 => do
              let prevout ← expect checker.prevouts[checker.index]?
              segwitV0Sighash K checker.tx checker.index
                scriptCode prevout.value hashType.toUInt32
                checker.precomputed
          | .tapscript => panicked)
        return ecdsaVerify K signature.dropLast pubkey digest

def schnorrVerify (K : Primitives) (signature : FixedBytes 64) (pubkey digest : Hash32) :
    Result ScriptError Bool :=
  match K.xOnlyFromSlice pubkey with
  | none => .ok false
  | some pubkey => do
      let signature ← expect (K.schnorrFromSlice signature)
      return K.verifySchnorr signature digest pubkey

/- The hash type a Schnorr signature carries, by its length. -/
def schnorrHashType (signature : Bytes) : Result ScriptError UInt8 :=
  if signature.length = schnorrSignatureLen then
    .ok sighashDefault
  else if signature.length = schnorrSignatureLen + 1 then do
    let hashType ← orFail .schnorrSigSize signature.getLast?
    ensure .schnorrSigHashtype (hashType ≠ sighashDefault)
    return hashType
  else
    Result.fail .schnorrSigSize

/- A 64- or 65-byte Schnorr signature under a 32-byte key. -/
def checkSchnorr
    (checker : TxSigChecker K) (signature : Bytes) (pubkey : Hash32) (spend : TaprootSpend)
    (annex : Option Bytes) :
    Result ScriptError Unit := do
  let hashType ← schnorrHashType signature
  let body ← orFail .schnorrSigSize
    (FixedBytes.ofBytes? 64 (signature.take schnorrSignatureLen))
  let digest ← taprootSighash K checker.tx checker.index
    checker.prevouts hashType spend annex checker.precomputed
  let valid ← schnorrVerify K body pubkey digest
  ensure .schnorrSig valid

/- Does the transaction's lock time satisfy the operand? -/
def checkLocktime (checker : TxSigChecker K) (lockTime : Int) : Result ScriptError Bool := do
  assert (0 ≤ lockTime)
  assert (lockTime ≤ scriptnumLocktimeMax)
  let txLockTime : Int := checker.tx.lockTime.toNat
  let sameKind : Bool :=
    decide (txLockTime < locktimeThreshold) ==
      decide (lockTime < locktimeThreshold)
  if !sameKind then
    return false
  else if txLockTime < lockTime then
    return false
  else do
    let input ← expect checker.tx.input[checker.index]?
    return input.sequence ≠ sequenceFinal

/- Does the input's sequence satisfy the operand? -/
def checkSequence (checker : TxSigChecker K) (sequence : Int) : Result ScriptError Bool := do
  assert (0 ≤ sequence)
  assert (sequence ≤ scriptnumLocktimeMax)
  let input ← expect checker.tx.input[checker.index]?
  let txSequence := input.sequence.toNat
  if checker.tx.version.toUInt32 < 2 then
    return false
  else if txSequence &&& sequenceLocktimeDisableFlag ≠ 0 then
    return false
  else
    let mask := sequenceLocktimeTypeFlag ||| sequenceLocktimeMask
    let txSequenceMasked := txSequence &&& mask
    let sequenceMasked := sequence.toNat &&& mask
    let sameKind : Bool :=
      decide (txSequenceMasked < sequenceLocktimeTypeFlag) ==
        decide (sequenceMasked < sequenceLocktimeTypeFlag)
    if !sameKind then
      return false
    else if txSequenceMasked < sequenceMasked then
      return false
    else
      return true

--------
-- Checks Do Not Panic
--------

theorem new_safe
    {tx : Transaction} {index : Nat} {prevouts : List TxOut} {precomputed : TxPrecomputed}
    (hIndex : index < tx.input.length) (hPrevouts : prevouts.length = tx.input.length)
    (hBuilt : precomputed.BuiltFor K tx) :
    (new K tx index prevouts precomputed).Safe (fun checker => checker.tx = tx) := by
  simp [new, hIndex, hPrevouts, hBuilt]

theorem checkEcdsa_returns
    (checker : TxSigChecker K) (signature pubkey : Bytes) (scriptCode : Script)
    {sigVersion : SigVersion} (hVer : sigVersion ≠ .tapscript) :
    ∃ ok, checker.checkEcdsa signature pubkey scriptCode sigVersion = .ok ok := by
  unfold checkEcdsa
  split
  · exact ⟨_, rfl⟩
  rename_i hashType _
  split
  · exact ⟨_, rfl⟩
  cases sigVersion with
  | base =>
    rcases legacySighash_returns K checker.index_lt scriptCode hashType.toUInt32 with
      ⟨digest, hDigest⟩
    dsimp only
    rw [hDigest]
    exact ⟨_, rfl⟩
  | witnessV0 =>
    have hPrevout : checker.index < checker.prevouts.length := by
      rw [checker.length_prevouts]
      exact checker.index_lt
    rcases segwitV0Sighash_returns K checker.index_lt checker.builtFor scriptCode
        checker.prevouts[checker.index].value
        hashType.toUInt32 with
      ⟨digest, hDigest⟩
    dsimp only
    rw [List.getElem?_eq_getElem hPrevout, expect_some, ok_bind, hDigest]
    exact ⟨_, rfl⟩
  | tapscript => exact absurd rfl hVer

theorem schnorrVerify_safe (signature : FixedBytes 64) (pubkey digest : Hash32) :
    (schnorrVerify K signature pubkey digest).Safe (fun _ => True) := by
  unfold schnorrVerify
  split
  · trivial
  · rcases Option.isSome_iff_exists.mp (K.schnorrFromSlice_isSome signature) with ⟨parsed, hParsed⟩
    simp [hParsed, expect]

theorem schnorrHashType_safe (signature : Bytes) :
    (schnorrHashType signature).Safe (fun _ => True) := by
  unfold schnorrHashType
  split
  · trivial
  · split
    · simp [safe_bind]
    · trivial

theorem checkSchnorr_safe
    (checker : TxSigChecker K) (signature : Bytes) (pubkey : Hash32) (spend : TaprootSpend)
    {annex : Option Bytes} (hInputs : checker.tx.input.length ≤ 2 ^ 32)
    (hAnnex : ∀ bytes ∈ annex, bytes.head? = some annexTag) :
    (checker.checkSchnorr signature pubkey spend annex).Safe (fun _ => True) := by
  unfold checkSchnorr
  refine (schnorrHashType_safe signature).bind ?_
  intro hashType _
  simp only [safe_bind, safe_orFail]
  intro body _
  refine (taprootSighash_safe K checker.index_lt
    checker.length_prevouts checker.builtFor hInputs hAnnex).mono ?_
  intro digest _
  refine (schnorrVerify_safe body pubkey digest).mono ?_
  intro valid _
  simp

theorem checkLocktime_safe (checker : TxSigChecker K) {lockTime : Int} (hLow : 0 ≤ lockTime)
    (hHigh : lockTime ≤ scriptnumLocktimeMax) :
    (checker.checkLocktime lockTime).Safe (fun _ => True) := by
  simp only [checkLocktime, safe_bind, safe_assert, hLow, hHigh, true_and,
    safe_ite, pure_eq_ok, safe_ok, safe_expect, List.getElem?_eq_getElem checker.index_lt]
  exact ⟨fun _ => trivial, fun _ => ⟨fun _ => trivial, fun _ => ⟨_, rfl, trivial⟩⟩⟩

theorem checkSequence_safe (checker : TxSigChecker K) {sequence : Int} (hLow : 0 ≤ sequence)
    (hHigh : sequence ≤ scriptnumLocktimeMax) :
    (checker.checkSequence sequence).Safe (fun _ => True) := by
  simp only [checkSequence, safe_bind, safe_assert, hLow, hHigh, true_and,
    safe_ite, pure_eq_ok, safe_ok, safe_expect, List.getElem?_eq_getElem checker.index_lt,
    implies_true, and_self, and_true]
  exact ⟨_, rfl⟩

end TxSigChecker

end Bitmigo
