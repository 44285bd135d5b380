import Bitmigo.Script.Opcode
import Bitmigo.Lib.LittleEndian
import Mathlib.Tactic.Linarith

/-
  Script numbers and the truth value of a stack element.

  Key definitions include:
    * `ScriptNum`, an `i64`
    * `ScriptNum.decode` and `ScriptNum.encode`
    * `castToBool`

  Key theorems include:
    * `ScriptNum.decode_eq_ok` and `ScriptNum.encode_eq`, both in terms of the signed number the
      bytes stand for
    * `ScriptNum.decode_safe` and `ScriptNum.encode_safe`, which keep the interpreter's arithmetic
      inside its checked operations
    * `castToBool_iff`
    * `scriptNum_exact`
-/

namespace Bitmigo

open Result List LittleEndian Nat

variable {magnitude sizeMax : Nat} {bytes : Bytes}

def scriptnumSizeMax : Nat := 4
def scriptnumLocktimeSizeMax : Nat := 5

def i64Min : Int := -9223372036854775808
def i64Max : Int := 9223372036854775807

/- A script number: any value of an `i64`. -/
structure ScriptNum where
  value : Int
  fits : i64Min ≤ value ∧ value ≤ i64Max

variable {num : ScriptNum}

namespace ScriptNum

instance : DecidableEq ScriptNum := fun left right =>
  decidable_of_iff (left.value = right.value) (by
    cases left
    cases right
    simp)

def zero : ScriptNum := ⟨0, by decide⟩
def one : ScriptNum := ⟨1, by decide⟩

--------
-- Decoding
--------

/- `magnitude |= byte << (8 * index)` over the bytes from `index` on. -/
def magnitudeFrom (index magnitude : Nat) :
    Bytes → Nat
  | [] => magnitude
  | byte :: rest =>
    magnitudeFrom (index + 1) (magnitude ||| byte.toNat <<< (8 * index)) rest

/- `magnitude & !sign_bit` in 64 bits. -/
def clearSign (magnitude signBit : Nat) : Nat :=
  magnitude &&& ((2 ^ 64 - 1) ^^^ signBit)

/- Decode a little-endian sign-magnitude number of at most `sizeMax` bytes. -/
def decode (bytes : Bytes) (sizeMax : Nat) : Result ScriptError ScriptNum := do
  assert (sizeMax ≤ scriptnumLocktimeSizeMax)
  ensure .scriptnum (bytes.length ≤ sizeMax)
  match bytes.getLast? with
  | none => return zero
  | some last =>
    let magnitude := magnitudeFrom 0 0 bytes
    let signBit := 0x80 <<< (8 * (bytes.length - 1))
    let value : Int :=
      if last &&& 0x80 ≠ 0 then
        -(clearSign magnitude signBit : Int)
      else
        magnitude
    if h : value.natAbs < 2 ^ 39 then
      return ⟨value, by unfold i64Min i64Max; omega⟩
    else
      panicked

theorem magnitudeFrom_eq {index : Nat} (bytes : Bytes) (hMagnitude : magnitude < 2 ^ (8 * index)) :
    magnitudeFrom index magnitude bytes =
      magnitude + 2 ^ (8 * index) * LittleEndian.decode bytes := by
  induction bytes generalizing index magnitude with
  | nil => simp [magnitudeFrom, LittleEndian.decode]
  | cons byte rest ih =>
    have hByte : byte.toNat < 2 ^ 8 := byte.toNat_lt
    have hOr :
        magnitude ||| byte.toNat <<< (8 * index) = byte.toNat * 2 ^ (8 * index) + magnitude := by
      rw [Nat.or_comm, ← shiftLeft_add_eq_or_of_lt hMagnitude, shiftLeft_eq]
    have hPow : 2 ^ (8 * (index + 1)) = 2 ^ (8 * index) * 256 := by rw [Nat.mul_add, Nat.pow_add]
    have hBound : magnitude ||| byte.toNat <<< (8 * index) < 2 ^ (8 * (index + 1)) := by
      rw [hOr, hPow]
      nlinarith
    rw [magnitudeFrom, ih hBound, hOr, hPow, LittleEndian.decode]
    ring

/- The top bit of what has only one bit more. -/
theorem clearSign_eq {rest bit : Nat} (hRest : rest < 2 ^ bit) (hBit : bit < 64) :
    clearSign (2 ^ bit + rest) (2 ^ bit) = rest := by
  apply eq_of_testBit_eq
  intro index
  unfold clearSign
  rw [testBit_and, testBit_xor, testBit_two_pow_sub_one, testBit_two_pow]
  rcases Nat.lt_trichotomy index bit with hBelow | rfl | hAbove
  · simp [testBit_two_pow_add_gt hBelow, Nat.lt_trans hBelow hBit, Nat.ne_of_gt hBelow]
  · simp [hBit, testBit_lt_two_pow hRest]
  · have hPow : 2 ^ (bit + 1) ≤ 2 ^ index := Nat.pow_le_pow_right (by decide) hAbove
    rw [Nat.pow_succ] at hPow
    simp [testBit_lt_two_pow (show 2 ^ bit + rest < 2 ^ index by omega),
      testBit_lt_two_pow (show rest < 2 ^ index by omega)]

/- The two signs of the source against the signed number. -/
theorem signed_concat {front : Bytes} {last : UInt8}
    (hLen : (front ++ [last]).length ≤ scriptnumLocktimeSizeMax) :
    (if last &&& 0x80 ≠ 0 then
        -(clearSign (magnitudeFrom 0 0 (front ++ [last]))
          (0x80 <<< (8 * ((front ++ [last]).length - 1))) : Int)
      else
        (magnitudeFrom 0 0 (front ++ [last]) : Int)) =
      signed (front ++ [last]) := by
  have hMagnitude :
      magnitudeFrom 0 0 (front ++ [last]) = LittleEndian.decode (front ++ [last]) := by
    rw [magnitudeFrom_eq _ (by simp), Nat.zero_add, Nat.mul_zero, Nat.pow_zero, Nat.one_mul]
  have hTop : 0x80 <<< (8 * ((front ++ [last]).length - 1)) =
      LittleEndian.signBit (front ++ [last]).length := by
    rw [length_append, length_singleton, signBit_succ, shiftLeft_eq,
      Nat.add_sub_cancel, Nat.pow_mul]
  have hWidth := decode_lt_signBit (front ++ [last])
  simp only [hMagnitude, hTop, sign_ne_zero_iff, ← signBit_le_decode_iff front last, signed]
  generalize LittleEndian.decode (front ++ [last]) = magnitude at hWidth
  by_cases hSign : magnitude < LittleEndian.signBit (front ++ [last]).length
  · rw [if_neg (Nat.not_le.mpr hSign), if_pos hSign]
  · rcases Nat.exists_eq_add_of_le (Nat.not_lt.mp hSign) with ⟨rest, rfl⟩
    have hBit : 8 * (front ++ [last]).length - 1 < 64 := by
      simp only [scriptnumLocktimeSizeMax] at hLen
      omega
    rw [if_pos (Nat.not_lt.mp hSign), if_neg hSign, LittleEndian.signBit,
      clearSign_eq (by rw [LittleEndian.signBit] at hWidth; omega) hBit]
    omega

/- Decoding gives the signed number of what is short enough. -/
theorem decode_eq (hSize : sizeMax ≤ scriptnumLocktimeSizeMax) (hLen : bytes.length ≤ sizeMax) :
    ∃ num, decode bytes sizeMax = .ok num ∧ num.value = signed bytes := by
  rcases eq_nil_or_concat' bytes with rfl | ⟨front, last, rfl⟩
  · exact ⟨zero, by simp [decode, hSize], rfl⟩
  have hBound : (signed (front ++ [last])).natAbs < 2 ^ 39 := by
    refine Nat.lt_of_lt_of_le (natAbs_signed_lt _) ?_
    refine Nat.pow_le_pow_right (by decide) ?_
    simp only [scriptnumLocktimeSizeMax] at hSize
    omega
  refine ⟨⟨signed (front ++ [last]), by unfold i64Min i64Max; omega⟩, ?_, rfl⟩
  simp only [decode, hSize, hLen, assert_true, ensure_true, ok_bind,
    getLast?_concat, signed_concat (hLen.trans hSize)]
  rw [dif_pos hBound]
  rfl

theorem decode_eq_ok (hSize : sizeMax ≤ scriptnumLocktimeSizeMax) :
    decode bytes sizeMax = .ok num ↔ bytes.length ≤ sizeMax ∧ num.value = signed bytes := by
  by_cases hLen : bytes.length ≤ sizeMax
  · rcases decode_eq hSize hLen with ⟨found, hFound, hValue⟩
    rw [hFound, ← hValue, Except.ok.injEq]
    cases num
    cases found
    simp [hLen, eq_comm]
  · simp [decode, hSize, hLen]

/- An operand has a bit for its sign, the rest for its value. -/
theorem decode_width (bytes : Bytes) (hSize : sizeMax ≤ scriptnumLocktimeSizeMax) :
    (decode bytes sizeMax).Safe (fun num => num.value.natAbs < 2 ^ (8 * sizeMax - 1)) := by
  by_cases hLen : bytes.length ≤ sizeMax
  · rcases decode_eq hSize hLen with ⟨num, hNum, hValue⟩
    rw [hNum, safe_ok, hValue]
    exact Nat.lt_of_lt_of_le (natAbs_signed_lt bytes) (signBit_le_signBit hLen)
  · simp [decode, hSize, hLen]

/- An operand that decodes is below `2 ^ 39` in magnitude. -/
theorem decode_safe (bytes : Bytes) (hSize : sizeMax ≤ scriptnumLocktimeSizeMax) :
    (decode bytes sizeMax).Safe (fun num => num.value.natAbs < 2 ^ 39) := by
  have hMax : scriptnumLocktimeSizeMax = 5 := rfl
  refine (decode_width bytes hSize).mono ?_
  intro num hNum
  exact Nat.lt_of_lt_of_le hNum (Nat.pow_le_pow_right (by decide) (by omega))

--------
-- Construction and Arithmetic
--------

/- A value known to be small. -/
def fromI64 (value : Int) : Result ScriptError ScriptNum :=
  if h : value.natAbs < 2 ^ 40 then
    .ok ⟨value, by unfold i64Min i64Max; omega⟩
  else
    panicked

/- An `i64`, or the panic of a checked operation. -/
def checked (value : Int) : Result ScriptError ScriptNum :=
  if h : i64Min ≤ value ∧ value ≤ i64Max then
    .ok ⟨value, h⟩
  else
    panicked

def fromUsize (value : Nat) : Result ScriptError ScriptNum :=
  checked value

def fromBool (value : Bool) : ScriptNum :=
  if value then one else zero

/- The value clamped to an `i32`. -/
def toClampedI32 (num : ScriptNum) : Int :=
  if -2 ^ 31 ≤ num.value ∧ num.value < 2 ^ 31 then
    num.value
  else if num.value < 0 then
    -2 ^ 31
  else
    2 ^ 31 - 1

def add (left right : ScriptNum) : Result ScriptError ScriptNum :=
  checked (left.value + right.value)

def sub (left right : ScriptNum) : Result ScriptError ScriptNum :=
  checked (left.value - right.value)

def neg (num : ScriptNum) : Result ScriptError ScriptNum :=
  checked (-num.value)

def abs (num : ScriptNum) : Result ScriptError ScriptNum :=
  if num.value < 0 then num.neg else .ok num

def isZero (num : ScriptNum) : Bool :=
  num.value = 0

theorem checked_safe {value : Int} (hValue : value.natAbs < 2 ^ 63) :
    (checked value).Safe (fun num => num.value = value) := by
  have hFits : i64Min ≤ value ∧ value ≤ i64Max := by
    unfold i64Min i64Max
    omega
  unfold checked
  rw [dif_pos hFits]
  rfl

theorem add_safe {left right : ScriptNum} (hLeft : left.value.natAbs < 2 ^ 62)
    (hRight : right.value.natAbs < 2 ^ 62) :
    (left.add right).Safe (fun num => num.value = left.value + right.value) :=
  checked_safe (by omega)

theorem sub_safe {left right : ScriptNum} (hLeft : left.value.natAbs < 2 ^ 62)
    (hRight : right.value.natAbs < 2 ^ 62) :
    (left.sub right).Safe (fun num => num.value = left.value - right.value) :=
  checked_safe (by omega)

theorem neg_safe (hNum : num.value.natAbs < 2 ^ 62) :
    num.neg.Safe (fun neg => neg.value = -num.value) :=
  checked_safe (by omega)

theorem natAbs_fromBool_le (value : Bool) : (fromBool value).value.natAbs ≤ 1 := by
  cases value <;> decide

theorem fromUsize_safe {value : Nat} (hValue : value < 2 ^ 63) :
    (fromUsize value).Safe (fun num => num.value = value) :=
  checked_safe (by omega)

theorem fromI64_safe {value : Int} (hValue : value.natAbs < 2 ^ 40) :
    (fromI64 value).Safe (fun num => num.value = value) := by
  unfold fromI64
  rw [dif_pos hValue]
  rfl

--------
-- Encoding
--------

/- The bytes of a `u64`, low byte first, at most eight. -/
def magnitudeBytes (fuel magnitude : Nat) : Bytes :=
  match fuel with
  | 0 => []
  | fuel + 1 =>
    if magnitude = 0 then
      []
    else
      UInt8.ofNat (magnitude &&& 0xff) :: magnitudeBytes fuel (magnitude >>> 8)

/-
  The sign goes into the top bit of the last byte, or into a byte of its own when the magnitude has
  taken that bit.
-/
def withSign (bytes : Bytes) (last : UInt8) (negative : Bool) : Bytes :=
  if last &&& 0x80 ≠ 0 then
    bytes ++ [if negative then 0x80 else 0x00]
  else if negative then
    bytes.dropLast ++ [last ||| 0x80]
  else
    bytes

/- The shortest sign-magnitude encoding. -/
def encode (num : ScriptNum) : Result ScriptError Bytes :=
  if num.value = 0 then
    .ok []
  else do
    let magnitude := magnitudeBytes 8 num.value.natAbs
    let last ← expect magnitude.getLast?
    let bytes := withSign magnitude last (num.value < 0)
    assert (bytes.length ≤ 9)
    return bytes

theorem length_withSign_le (bytes : Bytes) (last : UInt8) (negative : Bool) :
    (withSign bytes last negative).length ≤ bytes.length + 1 := by
  unfold withSign
  split
  · simp
  · split
    · simp
    · omega

theorem length_magnitudeBytes_le (fuel magnitude : Nat) :
    (magnitudeBytes fuel magnitude).length ≤ fuel := by
  induction fuel generalizing magnitude with
  | zero => simp [magnitudeBytes]
  | succ fuel ih =>
    unfold magnitudeBytes
    split
    · simp
    · have := ih (magnitude >>> 8)
      simp
      omega

theorem decode_magnitudeBytes {fuel : Nat} (hFuel : magnitude < 256 ^ fuel) :
    LittleEndian.decode (magnitudeBytes fuel magnitude) = magnitude := by
  induction fuel generalizing magnitude with
  | zero => simp_all [magnitudeBytes, LittleEndian.decode]
  | succ fuel ih =>
    unfold magnitudeBytes
    split
    · simp_all [LittleEndian.decode]
    · have hHigh : magnitude >>> 8 = magnitude / 256 := shiftRight_eq_div_pow magnitude 8
      have hLow : magnitude &&& 0xff = magnitude % 256 := and_two_pow_sub_one_eq_mod _ 8
      rw [LittleEndian.decode, hHigh, hLow, ih (by rw [Nat.pow_succ] at hFuel; omega),
        UInt8.toNat_ofNat']
      omega

/- No byte is spent on leading zeros. -/
theorem pow_length_magnitudeBytes_le {fuel magnitude : Nat} (hPos : 0 < magnitude) :
    256 ^ (magnitudeBytes fuel magnitude).length ≤ 256 * magnitude := by
  induction fuel generalizing magnitude with
  | zero =>
    simp only [magnitudeBytes, length_nil, Nat.pow_zero]
    omega
  | succ fuel ih =>
    have hHigh : magnitude >>> 8 = magnitude / 256 := shiftRight_eq_div_pow magnitude 8
    rw [magnitudeBytes, if_neg (Nat.ne_of_gt hPos), length_cons, Nat.pow_succ, hHigh]
    rcases Nat.eq_zero_or_pos (magnitude / 256) with hZero | hRest
    · rw [hZero]
      cases fuel with
      | zero | succ => simp [magnitudeBytes]; omega
    · have := ih hRest
      omega

/-
  The sign put on the bytes of a magnitude. Without leading zeros in it, no shorter form has room
  for the magnitude.
-/
theorem signed_withSign {front : Bytes} {last : UInt8} (negative : Bool)
    (hMagnitude : LittleEndian.decode (front ++ [last]) = magnitude)
    (hLeading : 256 ^ front.length ≤ magnitude) :
    signed (withSign (front ++ [last]) last negative) =
        (if negative then -(magnitude : Int) else magnitude) ∧
      ∀ len < (withSign (front ++ [last]) last negative).length,
        LittleEndian.signBit len ≤ magnitude := by
  have hLength : (front ++ [last]).length = front.length + 1 := length_append
  have hTop := signBit_le_decode_iff front last
  simp only [withSign, sign_ne_zero_iff]
  by_cases hSign : 0x80 ≤ last
  · -- the top bit is taken: the sign has a byte of its own
    rw [if_pos hSign]
    refine ⟨by rw [LittleEndian.signed_concat, hMagnitude], ?_⟩
    intro len hLen
    rw [length_append, length_singleton] at hLen
    exact (signBit_le_signBit (le_of_lt_succ hLen)).trans (hMagnitude ▸ hTop.mpr hSign)
  · -- it is free, and the sign goes there
    rw [if_neg hSign]
    have hFree : magnitude < LittleEndian.signBit (front ++ [last]).length :=
      hMagnitude ▸ Nat.not_le.mp (mt hTop.mp hSign)
    have hLast : (front ++ [last ||| 0x80]).length = (front ++ [last]).length := by simp
    have hRoom : ∀ len < (front ++ [last]).length, LittleEndian.signBit len ≤ magnitude := by
      intro len hLen
      have hPow := Nat.pow_le_pow_right (show 0 < 256 by decide) (le_of_lt_succ (hLength ▸ hLen))
      exact (signBit_le_pow len).trans (hPow.trans hLeading)
    cases negative with
    | true =>
      rw [if_pos rfl, dropLast_concat]
      refine ⟨signed_of_eq_add ?_, by rwa [hLast]⟩
      rw [← hMagnitude, decode_concat, decode_concat, hLast, hLength,
        signBit_succ, toNat_or_sign (UInt8.not_le.mp hSign)]
      ring
    | false =>
      refine ⟨?_, hRoom⟩
      rw [← hMagnitude] at hFree ⊢
      exact signed_of_lt hFree

/-
  Every script number encodes, in at most nine bytes. They are its signed form, and no shorter form
  has room for it.
-/
theorem encode_eq (num : ScriptNum) :
    ∃ bytes, num.encode = .ok bytes ∧ bytes.length ≤ 9 ∧ signed bytes = num.value ∧
      ∀ len < bytes.length, LittleEndian.signBit len ≤ num.value.natAbs := by
  unfold encode
  split
  case isTrue hZero =>
    refine ⟨[], rfl, Nat.zero_le _, hZero.symm, ?_⟩
    intro len hLen
    exact absurd hLen (Nat.not_lt_zero len)
  case isFalse hNe =>
    have hFits : num.value.natAbs < 256 ^ 8 := by
      have := num.fits
      unfold i64Min i64Max at this
      omega
    have hLength := length_magnitudeBytes_le 8 num.value.natAbs
    have hDecode := decode_magnitudeBytes hFits
    have hLeading := @pow_length_magnitudeBytes_le 8 _ (Int.natAbs_pos.mpr hNe)
    generalize magnitudeBytes 8 num.value.natAbs = bytes at hLength hDecode hLeading ⊢
    rcases eq_nil_or_concat' bytes with rfl | ⟨front, last, rfl⟩
    · exact absurd (Int.natAbs_eq_zero.mp hDecode.symm) hNe
    rw [length_append, length_singleton, Nat.pow_succ, Nat.mul_comm] at hLeading
    rcases signed_withSign (num.value < 0) hDecode (by omega) with ⟨hSigned, hRoom⟩
    have hSign := length_withSign_le (front ++ [last]) last (num.value < 0)
    have hShort : (withSign (front ++ [last]) last (num.value < 0)).length ≤ 9 := by omega
    refine ⟨_, ?_, hShort, ?_, hRoom⟩
    · simp only [getLast?_concat, expect_some, ok_bind, assert_of hShort]
      rfl
    · rw [hSigned]
      by_cases hNegative : num.value < 0
      · rw [if_pos (decide_eq_true hNegative)]
        omega
      · rw [if_neg (by simpa using hNegative)]
        omega

theorem encode_safe (num : ScriptNum) : num.encode.Safe (fun bytes => bytes.length ≤ 9) := by
  rcases num.encode_eq with ⟨bytes, hEncode, hLen, _⟩
  rwa [hEncode, safe_ok]

/- Every other form with the value is longer. -/
theorem length_lt_of_signed_eq {other : Bytes} (hBytes : signed bytes = num.value)
    (hRoom : ∀ len < bytes.length, LittleEndian.signBit len ≤ num.value.natAbs)
    (hOther : signed other = num.value) (hNe : other ≠ bytes) : bytes.length < other.length := by
  have hFits := natAbs_signed_lt other
  rw [hOther] at hFits
  have hLe : bytes.length ≤ other.length := by
    by_contra hShort
    exact absurd (hRoom _ (Nat.not_le.mp hShort)) (Nat.not_le.mpr hFits)
  refine Nat.lt_of_le_of_ne hLe ?_
  intro hEq
  apply hNe
  by_cases hZero : num.value = 0
  · have hNil : bytes.length = 0 := by
      by_contra hPos
      have hBit := hRoom 0 (Nat.pos_of_ne_zero hPos)
      rw [hZero] at hBit
      exact absurd hBit (by decide)
    rw [length_eq_zero_iff.mp hNil]
    exact length_eq_zero_iff.mp (hEq ▸ hNil)
  · exact eq_of_signed_eq hEq.symm (hOther.trans hBytes.symm) (hOther ▸ hZero)

end ScriptNum

--------
-- Truth
--------

/- False is any run of zeros, with an optional sign bit. -/
def castToBool : Bytes → Bool
  | [] => false
  | byte :: rest =>
    if byte ≠ 0 then
      !(rest.isEmpty && byte == 0x80)
    else
      castToBool rest

/- The first byte that is not zero decides. -/
theorem castToBool_iff (bytes : Bytes) : castToBool bytes = true ↔ signed bytes ≠ 0 := by
  induction bytes with
  | nil => decide
  | cons byte rest ih =>
    have hByte : byte.toNat < 256 := byte.toNat_lt
    have hZero : byte = 0 ↔ byte.toNat = 0 := UInt8.toNat_inj.symm
    rw [ne_eq, signed_eq_zero_iff] at ih ⊢
    rw [length_cons, signBit_succ, LittleEndian.decode, castToBool]
    cases rest with
    | nil =>
      have hSign : byte = 0x80 ↔ byte.toNat = 128 := UInt8.toNat_inj.symm
      simp [castToBool, LittleEndian.decode, hZero, hSign]
    | cons next rest =>
      rw [length_cons, signBit_succ] at ih
      rw [length_cons, Nat.pow_succ]
      by_cases hFst : byte = 0
      · rw [if_neg (not_not.mpr hFst), ih]
        rw [hZero] at hFst
        omega
      · rw [if_pos hFst]
        rw [hZero] at hFst
        simp only [isEmpty_cons, Bool.false_and, Bool.not_false, true_iff]
        omega

/-
  A number is read back from its encoding, which is the shortest of its forms; and an element is
  true when the number it stands for is not zero.
-/
theorem scriptNum_exact :
    (∀ num : ScriptNum, num.value.natAbs < 2 ^ 39 →
      ∃ bytes, num.encode = .ok bytes ∧
        ScriptNum.decode bytes scriptnumLocktimeSizeMax = .ok num ∧
        ∀ other, other ≠ bytes →
          ScriptNum.decode other scriptnumLocktimeSizeMax = .ok num →
          bytes.length < other.length) ∧
    (∀ bytes, castToBool bytes = true ↔ signed bytes ≠ 0) ∧
    ∀ bytes : Bytes, bytes.length ≤ scriptnumLocktimeSizeMax →
      ∃ num, ScriptNum.decode bytes scriptnumLocktimeSizeMax = .ok num ∧
        (castToBool bytes = true ↔ num.value ≠ 0) := by
  have hSize := Nat.le_refl scriptnumLocktimeSizeMax
  refine ⟨?_, castToBool_iff, ?_⟩
  · intro num hNum
    rcases num.encode_eq with ⟨bytes, hEncode, _, hSigned, hRoom⟩
    have hLen : bytes.length ≤ scriptnumLocktimeSizeMax := by
      by_contra hLong
      exact absurd (hRoom _ (Nat.not_le.mp hLong)) (Nat.not_le.mpr hNum)
    refine ⟨bytes, hEncode, (ScriptNum.decode_eq_ok hSize).mpr ⟨hLen, hSigned.symm⟩, ?_⟩
    intro other hNe hOther
    rcases (ScriptNum.decode_eq_ok hSize).mp hOther with ⟨_, hValue⟩
    exact ScriptNum.length_lt_of_signed_eq hSigned hRoom hValue.symm hNe
  · intro bytes hLen
    rcases ScriptNum.decode_eq hSize hLen with ⟨num, hNum, hValue⟩
    exact ⟨num, hNum, hValue ▸ castToBool_iff bytes⟩

end Bitmigo
