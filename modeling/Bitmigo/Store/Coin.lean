import Bitmigo.Store.Varint
import Bitmigo.Tx.Check

/-
  How a coin is written down: amounts without their trailing zeros, and scripts by their templates.

  Key definitions include:
    * `compressAmount` and `decompressAmount`
    * `putScript` and `readScript`
    * `putCoin` and `readCoin`
    * `ScriptWord` and `CoinWord`, the bytes a reader accepts

  Key theorems include:
    * `decompress_compressAmount`
    * `readCoin_eq_ok` and `putCoin_eq_ok`
    * `readCoin_panics`, the reader does not check a height before it wraps it

  A script may be written in more than one accepted form: the writer takes a template where one
  fits, the reader also takes the raw form.
-/

namespace Bitmigo

open Result List StoreReader

variable {ε : Type} (A : Arith) {bytes rest : Bytes} {value : Nat}

--------
-- Amounts
--------

/- Up to nine trailing zeros are stripped and counted. -/
def stripZeros : Nat → Nat → Nat → Option (Nat × Nat)
  | 0, _, _ => none
  | fuel + 1, left, exponent =>
    if left % 10 = 0 ∧ exponent < 9 then do
      let next ← A.add exponent 1
      stripZeros fuel (left / 10) next
    else
      some (left, exponent)

/- `1 + (n * 9 + d - 1) * 10 + e`; `none` is a panic. -/
def compressAmount (value : Nat) : Option Nat :=
  if value = 0 then some 0
  else do
    let (left, exponent) ← stripZeros A 10 value 0
    if exponent < 9 then
      let digit := left % 10
      guard (1 ≤ digit ∧ digit ≤ 9)
      let scaled ← A.mul (left / 10) 9
      let scaled ← A.add scaled digit
      let scaled ← A.sub scaled 1
      let scaled ← A.mul scaled 10
      let scaled ← A.add scaled exponent
      A.add scaled 1
    else
      let scaled ← A.sub left 1
      let scaled ← A.mul scaled 10
      let scaled ← A.add scaled 9
      A.add scaled 1

/- The result of a checked step on `u64`s. -/
def checkedU64 (n : Nat) : Option Nat :=
  if n < 2 ^ 64 then some n else none

/- `checked_mul(10)`, as often as the exponent says. -/
def scaleUp : Nat → Nat → Option Nat
  | 0, value => some value
  | exponent + 1, value => do
      let next ← checkedU64 (value * 10)
      scaleUp exponent next

def decompressAmount (encoded : Nat) : Result DecodeError Nat :=
  if encoded = 0 then return 0
  else do
    let exponent := (encoded - 1) % 10
    let left := (encoded - 1) / 10
    let value ← orFail (.tooLong encoded maxMoney)
      (if exponent < 9 then do
        let shifted ← checkedU64 (left / 9 * 10)
        checkedU64 (shifted + (left % 9 + 1))
      else
        checkedU64 (left + 1))
    let value ← orFail (.tooLong encoded maxMoney) (scaleUp exponent value)
    ensure (.tooLong value maxMoney) (value ≤ maxMoney)
    return value

theorem stripZeros_eq {fuel left exponent : Nat} (hPos : 0 < left) (hExponent : exponent ≤ 9)
    (hFuel : 9 < fuel + exponent) :
    ∃ mantissa zeros, stripZeros A fuel left exponent = some (mantissa, zeros) ∧
      0 < mantissa ∧ zeros ≤ 9 ∧ (zeros < 9 → mantissa % 10 ≠ 0) ∧
      left * 10 ^ exponent = mantissa * 10 ^ zeros := by
  induction fuel generalizing left exponent with
  | zero => omega
  | succ fuel ih =>
    rw [stripZeros]
    split
    case isTrue hZero =>
      rw [A.add_exact _ _ (by omega)]
      rcases @ih (left / 10) (exponent + 1) (by omega) hZero.2 (by omega) with
        ⟨mantissa, zeros, hStrip, hSome, hZeros, hLast, hValue⟩
      refine ⟨mantissa, zeros, hStrip, hSome, hZeros, hLast, ?_⟩
      rw [← hValue, Nat.pow_succ', ← Nat.mul_assoc, Nat.div_mul_cancel (by omega)]
    case isFalse hStop =>
      exact ⟨left, exponent, rfl, hPos, hExponent, by omega, rfl⟩

theorem scaleUp_eq {exponent : Nat} (hFits : value * 10 ^ exponent < 2 ^ 64) :
    scaleUp exponent value = some (value * 10 ^ exponent) := by
  induction exponent generalizing value with
  | zero => simp [scaleUp]
  | succ exponent ih =>
    rw [Nat.pow_succ', ← Nat.mul_assoc] at hFits ⊢
    have hNext : value * 10 < 2 ^ 64 :=
      (Nat.le_mul_of_pos_right _ (Nat.pow_pos (by decide))).trans_lt hFits
    rw [scaleUp, checkedU64, if_pos hNext]
    exact ih hFits

/- What decompression makes of a mantissa and its zeros. -/
theorem decompressAmount_eq {encoded mantissa zeros : Nat} (hEncoded : encoded ≠ 0)
    (hZeros : (encoded - 1) % 10 = zeros)
    (hMantissa :
      if zeros < 9 then
        (encoded - 1) / 10 / 9 * 10 + ((encoded - 1) / 10 % 9 + 1) = mantissa
      else (encoded - 1) / 10 + 1 = mantissa)
    (hMoney : mantissa * 10 ^ zeros ≤ maxMoney) :
    decompressAmount encoded = .ok (mantissa * 10 ^ zeros) := by
  have hFits : mantissa * 10 ^ zeros < 2 ^ 64 := hMoney.trans_lt (by decide)
  have hShort : mantissa < 2 ^ 64 :=
    (Nat.le_mul_of_pos_right _ (Nat.pow_pos (by decide))).trans_lt hFits
  have hRead :
      (if zeros < 9 then do
        let shifted ← checkedU64 ((encoded - 1) / 10 / 9 * 10)
        checkedU64 (shifted + ((encoded - 1) / 10 % 9 + 1))
      else
        checkedU64 ((encoded - 1) / 10 + 1)) = some mantissa := by
    split at hMantissa
    case isTrue hFew =>
      have hPart : (encoded - 1) / 10 / 9 * 10 < 2 ^ 64 := by omega
      simp only [hFew, if_true, checkedU64, hPart, Option.bind_eq_bind, Option.bind_some,
        hMantissa, hShort]
    case isFalse hMany =>
      simp only [hMany, if_false, checkedU64, hMantissa, hShort, if_true]
  simp only [decompressAmount, hEncoded, if_false, hZeros, hRead, scaleUp_eq hFits, hMoney,
    orFail, ok_bind, ensure_true, pure_eq_ok]

/- No step of the compression saturates on an amount, and it is undone. -/
theorem decompress_compressAmount (hMoney : value ≤ maxMoney) :
    ∃ encoded < 2 ^ 64, compressAmount A value = some encoded ∧
      decompressAmount encoded = .ok value := by
  rcases Nat.eq_zero_or_pos value with rfl | hPos
  · exact ⟨0, by decide, rfl, rfl⟩
  rcases stripZeros_eq A hPos (Nat.zero_le 9) (by decide : 9 < 10 + 0) with
    ⟨mantissa, zeros, hStrip, hSome, hZeros, hLast, hValue⟩
  rw [Nat.pow_zero, Nat.mul_one] at hValue
  have hMax : maxMoney = 2100000000000000 := rfl
  have hLe : mantissa ≤ value := by
    rw [hValue]
    exact Nat.le_mul_of_pos_right _ (Nat.pow_pos (by decide))
  have hTop : mantissa ≤ 2100000000000000 := by omega
  rw [compressAmount, if_neg (Nat.ne_of_gt hPos), hStrip]
  rw [hValue] at hMoney ⊢
  clear hValue hLe hPos hMax
  by_cases hFew : zeros < 9
  · have hDigit := hLast hFew
    obtain ⟨high, digit, rfl, hLow, hHigh⟩ :
        ∃ high digit, mantissa = high * 10 + digit ∧ (1 ≤ digit ∧ digit ≤ 9) ∧ high < 2 ^ 60 :=
      ⟨mantissa / 10, mantissa % 10, by omega, by omega, by omega⟩
    have hMod : (high * 10 + digit) % 10 = digit := by omega
    have hDiv : (high * 10 + digit) / 10 = high := by omega
    refine ⟨(high * 9 + digit - 1) * 10 + zeros + 1, by omega, ?_,
      decompressAmount_eq (by omega) (by omega) ?_ hMoney⟩
    · simp only [Option.bind_eq_bind, Option.bind_some, hFew, if_true, hMod, hDiv, hLow, guard,
        A.mul_exact high 9 (by omega), A.add_exact (high * 9) digit (by omega),
        A.sub_exact (high * 9 + digit) 1 (by omega),
        A.mul_exact (high * 9 + digit - 1) 10 (by omega),
        A.add_exact ((high * 9 + digit - 1) * 10) zeros (by omega),
        A.add_exact ((high * 9 + digit - 1) * 10 + zeros) 1 (by omega), and_self, pure]
    · rw [if_pos hFew]
      omega
  · refine ⟨(mantissa - 1) * 10 + 9 + 1, by omega, ?_,
      decompressAmount_eq (by omega) (by omega) ?_ hMoney⟩
    · simp only [Option.bind_eq_bind, Option.bind_some, hFew, if_false,
        A.sub_exact mantissa 1 hSome, A.mul_exact (mantissa - 1) 10 (by omega),
        A.add_exact ((mantissa - 1) * 10) 9 (by omega),
        A.add_exact ((mantissa - 1) * 10 + 9) 1 (by omega)]
    · rw [if_neg hFew]
      omega

theorem decompressAmount_le {encoded : Nat} (hValue : decompressAmount encoded = .ok value) :
    value ≤ maxMoney := by
  unfold decompressAmount at hValue
  split at hValue
  · cases hValue
    exact Nat.zero_le _
  · simp only [bind_eq_ok, ensure_eq_ok] at hValue
    rcases hValue with ⟨_, _, last, _, _, hMoney, hSame⟩
    cases hSame
    exact hMoney

--------
-- Scripts
--------

/- Templates below this select a form; from it up they are this and the raw length. -/
def specialScripts : Nat := 6

/- What is between a beginning and an end of a script of this length. -/
def templateHash (front back : Bytes) (length : Nat) (script : Script) : Option Bytes :=
  if script.length ≠ length then none
  else if front.isPrefixOf script ∧ back.isSuffixOf script then
    getRange? script front.length (length - back.length)
  else none

/- `76 a9 14 <20 bytes> 88 ac`, and the twenty bytes. -/
def p2pkhHash : Script → Option Bytes :=
  templateHash [0x76, 0xa9, 0x14] [0x88, 0xac] 25

/- `a9 14 <20 bytes> 87`, and the twenty bytes. -/
def p2shHash : Script → Option Bytes :=
  templateHash [0xa9, 0x14] [0x87] 23

/- `21 <02|03> <32 bytes> ac`: the parity byte and the key. -/
def p2pkCompressed (script : Script) : Option (UInt8 × Bytes) :=
  if script.length ≠ 35 then none
  else if script.head? ≠ some 0x21 ∨ script.getLast? ≠ some 0xac then none
  else do
    let parity ← script[1]?
    if parity ≠ 2 ∧ parity ≠ 3 then none
    else do
      let key ← getRange? script 2 34
      return (parity, key)

def putScript (script : Script) : Result ε Bytes := do
  assert (script.length ≤ maxScriptSize)
  match p2pkhHash script, p2shHash script, p2pkCompressed script with
  | some key, _, _ => return (← putVarint A 0) ++ key
  | none, some script, _ => return (← putVarint A 1) ++ script
  | none, none, some (parity, key) => return (← putVarint A parity.toNat) ++ key
  | none, none, none =>
    let template ← expect (A.add script.length specialScripts)
    return (← putVarint A template) ++ script

def readScript : StoreReader Script := do
  let template ← varint A
  if template = 0 then
    let hash ← StoreReader.take 20
    return [0x76, 0xa9, 0x14] ++ hash ++ [0x88, 0xac]
  else if template = 1 then
    let hash ← StoreReader.take 20
    return [0xa9, 0x14] ++ hash ++ [0x87]
  else if template = 2 ∨ template = 3 then
    let key ← StoreReader.take 32
    return [0x21, UInt8.ofNat template] ++ key ++ [0xac]
  else if template = 4 ∨ template = 5 then
    Program.fail (.badTag 4)
  else
    let length := template - specialScripts
    if maxScriptSize < length then
      Program.fail (.tooLong length maxScriptSize)
    else
      StoreReader.take length

/- A script and the bytes one of the templates gives it. -/
inductive ScriptWord : Script → Bytes → Prop where
  | p2pkh (hash : Bytes) (hLen : hash.length = 20) :
      ScriptWord ([0x76, 0xa9, 0x14] ++ hash ++ [0x88, 0xac]) (varintBytes 0 ++ hash)
  | p2sh (hash : Bytes) (hLen : hash.length = 20) :
      ScriptWord ([0xa9, 0x14] ++ hash ++ [0x87]) (varintBytes 1 ++ hash)
  | p2pk (parity : Nat) (key : Bytes) (hParity : parity = 2 ∨ parity = 3)
      (hLen : key.length = 32) :
      ScriptWord ([0x21, UInt8.ofNat parity] ++ key ++ [0xac]) (varintBytes parity ++ key)
  | raw (script : Script) (hLen : script.length ≤ maxScriptSize) :
      ScriptWord script (varintBytes (script.length + specialScripts) ++ script)

variable {script : Script}

theorem ScriptWord.length_le {word : Bytes} (hWord : ScriptWord script word) :
    script.length ≤ maxScriptSize := by
  cases hWord with
  | raw _ hLen => exact hLen
  | _ => simp [*, maxScriptSize]

theorem readScript_eq_ok :
    readScript A bytes = (.ok script, rest) ↔
      ∃ word, ScriptWord script word ∧ bytes = word ++ rest := by
  rw [readScript, Program.bind_eq_ok]
  constructor
  · rintro ⟨template, _, hTemplate, hRead⟩
    rcases (varint_eq_ok A).mp hTemplate with ⟨_, rfl⟩
    split_ifs at hRead with h0 h1 h2 h4
    · simp only [Program.bind_eq_ok, take_eq_ok, Program.pure_eq_ok] at hRead
      rcases hRead with ⟨hash, _, ⟨hLen, rfl⟩, rfl, rfl⟩
      exact ⟨_, .p2pkh hash hLen, by simp [h0]⟩
    · simp only [Program.bind_eq_ok, take_eq_ok, Program.pure_eq_ok] at hRead
      rcases hRead with ⟨hash, _, ⟨hLen, rfl⟩, rfl, rfl⟩
      exact ⟨_, .p2sh hash hLen, by simp [h1]⟩
    · simp only [Program.bind_eq_ok, take_eq_ok, Program.pure_eq_ok] at hRead
      rcases hRead with ⟨key, _, ⟨hLen, rfl⟩, rfl, rfl⟩
      exact ⟨_, .p2pk template key h2 hLen, by simp⟩
    · exact absurd hRead Program.fail_ne_ok
    · dsimp only at hRead
      split_ifs at hRead with hLong
      · exact absurd hRead Program.fail_ne_ok
      rcases take_eq_ok.mp hRead with ⟨hLen, rfl⟩
      have hSame : script.length + specialScripts = template := by
        rw [specialScripts] at hLen ⊢
        omega
      exact ⟨_, .raw script (by omega), by simp [hSame]⟩
  · rintro ⟨word, hWord, rfl⟩
    cases hWord with
    | p2pkh hash hLen =>
      refine ⟨0, hash ++ rest, (varint_eq_ok A).mpr ⟨by decide, by simp⟩, ?_⟩
      rw [if_pos rfl, Program.bind_of_ok (StoreReader.take_append hLen rest)]
      rfl
    | p2sh hash hLen =>
      refine ⟨1, hash ++ rest, (varint_eq_ok A).mpr ⟨by decide, by simp⟩, ?_⟩
      rw [if_neg (by decide), if_pos rfl, Program.bind_of_ok (StoreReader.take_append hLen rest)]
      rfl
    | p2pk parity key hParity hLen =>
      refine ⟨parity, key ++ rest, (varint_eq_ok A).mpr ⟨by omega, by simp⟩, ?_⟩
      rw [if_neg (by omega), if_neg (by omega), if_pos hParity,
        Program.bind_of_ok (StoreReader.take_append hLen rest)]
      rfl
    | raw _ hLen =>
      have hMax : maxScriptSize = 10000 := rfl
      have hSpecial : specialScripts = 6 := rfl
      refine ⟨script.length + specialScripts, script ++ rest,
        (varint_eq_ok A).mpr ⟨by omega, by simp⟩, ?_⟩
      rw [if_neg (by omega), if_neg (by omega), if_neg (by omega), if_neg (by omega),
        if_neg (by omega)]
      exact StoreReader.take_append (by omega) rest

/- A script between a beginning and an end is those and the range between them. -/
theorem eq_of_template {front back script range : Bytes} (hFront : front <+: script)
    (hBack : back <:+ script)
    (hRange : getRange? script front.length (script.length - back.length) = some range)
    (hLen : front.length + back.length ≤ script.length) : script = front ++ range ++ back := by
  rcases hFront with ⟨tail, rfl⟩
  rw [length_append] at hLen
  rcases suffix_of_suffix_length_le hBack (suffix_append front tail) (by omega) with
    ⟨middle, rfl⟩
  have hMiddle := getRange?_append front middle back
  rw [← append_assoc] at hRange ⊢
  rw [@List.length_append _ (front ++ middle), Nat.add_sub_cancel, hMiddle] at hRange
  rw [Option.some.inj hRange]

theorem templateHash_eq_some {front back script hash : Bytes} {length : Nat}
    (hRoom : front.length + back.length ≤ length)
    (hHash : templateHash front back length script = some hash) :
    script = front ++ hash ++ back ∧ hash.length = length - back.length - front.length := by
  unfold templateHash at hHash
  split_ifs at hHash with hLen hEnds
  rw [not_not] at hLen
  subst hLen
  exact ⟨eq_of_template (List.isPrefixOf_iff_prefix.mp hEnds.1)
    (isSuffixOf_iff_suffix.mp hEnds.2) hHash hRoom, length_of_getRange? hHash⟩

theorem p2pkCompressed_eq_some {script key : Bytes} {parity : UInt8}
    (hKey : p2pkCompressed script = some (parity, key)) :
    script = [0x21, parity] ++ key ++ [0xac] ∧ (parity = 2 ∨ parity = 3) ∧ key.length = 32 := by
  unfold p2pkCompressed at hKey
  split_ifs at hKey with hLen hEnds
  rw [not_not] at hLen
  simp only [not_or, not_not] at hEnds
  simp only [Option.bind_eq_bind, Option.bind_eq_some_iff] at hKey
  rcases hKey with ⟨first, hFst, hKey⟩
  split_ifs at hKey with hParity
  rcases Option.bind_eq_some_iff.mp hKey with ⟨range, hRange, hSame⟩
  cases hSame
  have hFront : [0x21, parity] <+: script := by
    rcases script with _ | ⟨a, _ | ⟨b, tail⟩⟩
    · cases hFst
    · cases hFst
    · cases hFst
      cases hEnds.1
      exact ⟨tail, rfl⟩
  have hBack : [0xac] <:+ script := by
    rcases getLast?_eq_some_iff.mp hEnds.2 with ⟨front, rfl⟩
    exact suffix_append _ _
  refine ⟨eq_of_template hFront hBack ?_ ?_, by grind, length_of_getRange? hRange⟩
  · rwa [hLen]
  · simp [hLen]

theorem putScript_eq_ok (hLen : script.length ≤ maxScriptSize) :
    ∃ word, (putScript A script : Result ε Bytes) = .ok word ∧ ScriptWord script word := by
  rw [putScript, assert_of hLen, ok_bind]
  cases hPkh : p2pkhHash script with
  | some hash =>
    rcases templateHash_eq_some (by decide) hPkh with ⟨hScript, hHash⟩
    refine ⟨varintBytes 0 ++ hash, ?_, hScript ▸ .p2pkh hash hHash⟩
    simp [putVarint_eq A (by decide : 0 < 2 ^ 64)]
  | none =>
    cases hSh : p2shHash script with
    | some hash =>
      rcases templateHash_eq_some (by decide) hSh with ⟨hScript, hHash⟩
      refine ⟨varintBytes 1 ++ hash, ?_, hScript ▸ .p2sh hash hHash⟩
      simp [putVarint_eq A (by decide : 1 < 2 ^ 64)]
    | none =>
      cases hPk : p2pkCompressed script with
      | some pair =>
        rcases pair with ⟨parity, key⟩
        rcases p2pkCompressed_eq_some hPk with ⟨hScript, hParity, hKey⟩
        have hNat : parity.toNat = 2 ∨ parity.toNat = 3 :=
          hParity.imp (congrArg UInt8.toNat) (congrArg UInt8.toNat)
        have hWord := ScriptWord.p2pk parity.toNat key hNat hKey
        rw [UInt8.ofNat_toNat, ← hScript] at hWord
        refine ⟨varintBytes parity.toNat ++ key, ?_, hWord⟩
        simp [putVarint_eq A (by omega : parity.toNat < 2 ^ 64)]
      | none =>
        have hFits : script.length + specialScripts < 2 ^ 64 :=
          (Nat.add_le_add_right hLen specialScripts).trans_lt (by decide)
        refine ⟨_, ?_, .raw script hLen⟩
        simp [A.add_exact _ _ hFits, putVarint_eq A hFits]

--------
-- Coins
--------

/- A coin as the disk holds it. -/
structure StoredCoin where
  height : Height
  coinbase : Bool
  output : TxOut
  deriving DecidableEq

variable {coin : StoredCoin}

/- What the bytes of a coin say; any `u32` is a height here. -/
structure CoinFields where
  height : Nat
  coinbase : Bool
  output : TxOut

def StoredCoin.fields (coin : StoredCoin) : CoinFields :=
  ⟨coin.height.val, coin.coinbase, coin.output⟩

def putCoin (coin : StoredCoin) : Result ε Bytes := do
  let doubled ← expect (A.mul coin.height.val 2)
  let code ← expect (A.add doubled coin.coinbase.toNat)
  assert (code >>> 1 = coin.height.val)
  let code ← putVarint A code
  let amount ← expect (compressAmount A coin.output.value.toNat)
  let amount ← putVarint A amount
  let script ← putScript A coin.output.scriptPubkey
  return code ++ (amount ++ script)

/- The part of the reader before the height is wrapped. -/
def readFields : StoreReader CoinFields := do
  let code ← varint A
  let coinbase := code &&& 1 == 1
  let height := code >>> 1
  if 2 ^ 32 ≤ height then
    Program.fail (.tooLong height (2 ^ 32 - 1))
  else do
    let amount ← varint A
    let value ← Program.lift (decompressAmount amount)
    let scriptPubkey ← readScript A
    return { height, coinbase, output := { value := UInt64.ofNat value, scriptPubkey } }

def readCoin : StoreReader StoredCoin := do
  let fields ← readFields A
  let height ← Program.lift (Height.new fields.height)
  return { height, coinbase := fields.coinbase, output := fields.output }

/- A coin's fields and bytes the reader accepts for them. -/
def CoinWord (fields : CoinFields) (word : Bytes) : Prop :=
  fields.height < 2 ^ 32 ∧ ∃ amount script, amount < 2 ^ 64 ∧
    decompressAmount amount = .ok fields.output.value.toNat ∧
    ScriptWord fields.output.scriptPubkey script ∧
    word = varintBytes (2 * fields.height + fields.coinbase.toNat) ++ (varintBytes amount ++ script)

/- Amounts and scripts of coins are within the bounds. -/
theorem CoinWord.bounded {fields : CoinFields} {word : Bytes} (hWord : CoinWord fields word) :
    fields.output.value.toNat ≤ maxMoney ∧ fields.output.scriptPubkey.length ≤ maxScriptSize := by
  rcases hWord with ⟨_, _, _, _, hAmount, hScript, _⟩
  exact ⟨decompressAmount_le hAmount, hScript.length_le⟩

/- The height and the flag of a code. -/
theorem code_eq_iff {code height : Nat} {coinbase : Bool} :
    code = 2 * height + coinbase.toNat ↔ height = code >>> 1 ∧ coinbase = (code &&& 1 == 1) := by
  rw [Nat.shiftRight_eq_div_pow, Nat.and_one_is_mod]
  rcases Nat.mod_two_eq_zero_or_one code with hMod | hMod <;> cases coinbase <;>
    simp [hMod] <;> omega

theorem readFields_eq_ok {fields : CoinFields} :
    readFields A bytes = (.ok fields, rest) ↔
      ∃ word, CoinWord fields word ∧ bytes = word ++ rest := by
  rw [readFields, Program.bind_eq_ok]
  constructor
  · rintro ⟨code, _, hCode, hRead⟩
    rcases (varint_eq_ok A).mp hCode with ⟨_, rfl⟩
    split_ifs at hRead with hTall
    · exact absurd hRead Program.fail_ne_ok
    simp only [Program.bind_eq_ok, varint_eq_ok, Program.lift_eq_ok,
      readScript_eq_ok, Program.pure_eq_ok] at hRead
    rcases hRead with ⟨amount, _, ⟨hAmount, rfl⟩, value, _, ⟨hValue, rfl⟩, script, _,
      ⟨word, hWord, rfl⟩, rfl, rfl⟩
    have hMoney : value < 2 ^ 64 := (decompressAmount_le hValue).trans_lt (by decide)
    refine ⟨_, ⟨Nat.not_le.mp hTall, amount, word, hAmount, ?_, hWord, rfl⟩, ?_⟩
    · rw [hValue, UInt64.toNat_ofNat', Nat.mod_eq_of_lt hMoney]
    · rw [← code_eq_iff.mpr ⟨rfl, rfl⟩, append_assoc, append_assoc]
  · rintro ⟨_, ⟨hHeight, amount, script, hAmount, hValue, hScript, rfl⟩, rfl⟩
    obtain ⟨hSame, hCoinbase⟩ :=
      code_eq_iff.mp (Eq.refl (2 * fields.height + fields.coinbase.toNat))
    refine ⟨2 * fields.height + fields.coinbase.toNat, varintBytes amount ++ (script ++ rest),
      (varint_eq_ok A).mpr ⟨by omega, by simp⟩, ?_⟩
    rw [← hSame, ← hCoinbase, if_neg (Nat.not_le.mpr hHeight)]
    simp only [Program.bind_eq_ok, varint_eq_ok, Program.lift_eq_ok,
      readScript_eq_ok, Program.pure_eq_ok]
    exact ⟨amount, _, ⟨hAmount, rfl⟩, _, _, ⟨hValue, rfl⟩, _, _, ⟨script, hScript, rfl⟩,
      by simp, rfl⟩

theorem readScript_neverPanics : (readScript A).NeverPanics := by
  have hTake (count : Nat) (f : Bytes → Script) :
      ((StoreReader.take count >>= fun taken => pure (f taken)) : StoreReader Script).NeverPanics :=
    (take_neverPanics count).bind fun _ => Program.neverPanics_pure _
  refine (varintFrom_neverPanics A 10 0).bind fun template => ?_
  refine .ite (hTake 20 _) (.ite (hTake 20 _) (.ite (hTake 32 _) (.ite ?_ (.ite ?_ ?_))))
  · exact Program.neverPanics_fail _
  · exact Program.neverPanics_fail _
  · exact take_neverPanics _

theorem readFields_neverPanics : (readFields A).NeverPanics := by
  have hAmount (amount : Nat) : ¬ (decompressAmount amount).Panics := by
    rw [← safe_true_iff]
    unfold decompressAmount
    simp [safe_ite, safe_bind]
  refine (varintFrom_neverPanics A 10 0).bind fun code => ?_
  refine .ite (Program.neverPanics_fail _) ?_
  refine (varintFrom_neverPanics A 10 0).bind fun amount => ?_
  refine (Program.neverPanics_lift (hAmount amount)).bind fun value => ?_
  exact (readScript_neverPanics A).bind fun _ => Program.neverPanics_pure _

/- A coin is read from any of its words. -/
theorem readCoin_eq_ok :
    readCoin A bytes = (.ok coin, rest) ↔
      ∃ word, CoinWord coin.fields word ∧ bytes = word ++ rest := by
  rw [readCoin, Program.bind_eq_ok]
  constructor
  · rintro ⟨fields, _, hFields, hRead⟩
    simp only [Program.bind_eq_ok, Program.lift_eq_ok, Program.pure_eq_ok, Height.new] at hRead
    rcases hRead with ⟨height, _, ⟨hHeight, rfl⟩, rfl, rfl⟩
    split at hHeight
    · cases hHeight
      exact (readFields_eq_ok A).mp hFields
    · cases hHeight
  · intro hWord
    refine ⟨coin.fields, rest, (readFields_eq_ok A).mpr hWord, ?_⟩
    have hHeight : (Height.new coin.fields.height : Result DecodeError Height) =
        .ok coin.height := dif_pos coin.height.property
    rw [hHeight, Program.lift_ok_bind]
    rfl

/- The reader panics on a coin whose height is above `i32::MAX`. -/
theorem readCoin_panics :
    (readCoin A bytes).1.Panics ↔ ∃ fields word rest, CoinWord fields word ∧
      0x7fffffff < fields.height ∧ bytes = word ++ rest := by
  rw [readCoin, Program.bind_panics, or_iff_right (readFields_neverPanics A bytes)]
  constructor
  · rintro ⟨fields, rest, hFields, hPanics⟩
    rcases (readFields_eq_ok A).mp hFields with ⟨word, hWord, rfl⟩
    refine ⟨fields, word, rest, hWord, ?_, rfl⟩
    by_contra hLow
    rw [Height.new, dif_pos (Nat.not_lt.mp hLow)] at hPanics
    cases hPanics
  · rintro ⟨fields, word, rest, hWord, hTall, rfl⟩
    refine ⟨fields, rest, (readFields_eq_ok A).mpr ⟨word, hWord, rfl⟩, ?_⟩
    rw [Height.new, dif_neg (Nat.not_le.mpr hTall)]
    rfl

/- The writer gives one of the coin's words. -/
theorem putCoin_eq_ok (hMoney : coin.output.value.toNat ≤ maxMoney)
    (hLen : coin.output.scriptPubkey.length ≤ maxScriptSize) :
    ∃ word, (putCoin A coin : Result ε Bytes) = .ok word ∧ CoinWord coin.fields word := by
  have hHeight := coin.height.property
  rcases decompress_compressAmount A hMoney with ⟨amount, hAmount, hCompress, hUndo⟩
  rcases putScript_eq_ok (ε := ε) A hLen with ⟨script, hScript, hWord⟩
  obtain ⟨hSame, -⟩ := code_eq_iff.mp (Eq.refl (2 * coin.height.val + coin.coinbase.toNat))
  refine ⟨_, ?_, ⟨by simp only [StoredCoin.fields]; omega, amount, script, hAmount, hUndo,
    hWord, rfl⟩⟩
  rw [putCoin, A.mul_exact _ _ (by omega), Nat.mul_comm]
  simp only [expect_some, ok_bind, A.add_exact _ _ (by omega :
    2 * coin.height.val + coin.coinbase.toNat < 2 ^ 64), ← hSame, assert_true,
    putVarint_eq A (by omega : 2 * coin.height.val + coin.coinbase.toNat < 2 ^ 64), hCompress,
    putVarint_eq A hAmount, hScript]
  rfl

end Bitmigo
