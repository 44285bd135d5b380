import Mathlib.Data.Nat.Bitwise
import Mathlib.Tactic.Ring

/-
  Natural numbers as little-endian byte strings.

  Key definitions include:
    * `LittleEndian.encode`
    * `LittleEndian.decode`
    * `LittleEndian.signed`, the top bit as a sign

  `decode_encode` is the round trip modulo the width, and `encode_decode` the round trip on byte
  strings. A signed number is below its sign bit (`natAbs_signed_lt`), and unless it is zero it has
  one form of each length (`eq_of_signed_eq`).
-/

open List Nat

namespace LittleEndian

variable {bytes : List UInt8}

/- `len` bytes of `value`, least significant first. -/
def encode (len value : Nat) : List UInt8 :=
  match len with
  | 0 => []
  | len + 1 => UInt8.ofNat value :: encode len (value / 256)

/- The number whose little-endian bytes these are. -/
def decode (bytes : List UInt8) : Nat :=
  match bytes with
  | [] => 0
  | byte :: rest => byte.toNat + 256 * decode rest

@[simp] theorem length_encode (len value : Nat) : (encode len value).length = len := by
  induction len generalizing value with
  | zero => rfl
  | succ len ih => simp [encode, ih]

theorem length_reverse_encode (value : Nat) : (encode 32 value).reverse.length = 32 := by
  rw [length_reverse, length_encode]

/- The high bit of a byte is its upper half. -/
theorem sign_ne_zero_iff (byte : UInt8) : byte &&& 0x80 ≠ 0 ↔ 0x80 ≤ byte := by
  have hAnd : (byte &&& 0x80).toNat = byte.toNat &&& 2 ^ 7 := by simp
  have hTest : byte.toNat.testBit 7 = true ↔ 128 ≤ byte.toNat := by
    have hByte := byte.toNat_lt
    rw [testBit_eq_decide_div_mod_eq, decide_eq_true_eq]
    omega
  rw [ne_eq, ← UInt8.toNat_inj, hAnd, and_two_pow, UInt8.le_iff_toNat_le]
  cases hBit : byte.toNat.testBit 7 with
  | true | false => simpa [hBit] using hTest

/- Setting the high bit of a byte that does not have it. -/
theorem toNat_or_sign {byte : UInt8} (hByte : byte < 0x80) :
    (byte ||| 0x80).toNat = byte.toNat + 128 := by
  have hLow : byte.toNat < 2 ^ 7 := UInt8.lt_iff_toNat_lt.mp hByte
  rw [UInt8.toNat_or, Nat.or_comm, Nat.add_comm]
  exact (two_pow_add_eq_or_of_lt hLow 1).symm

theorem decode_lt (bytes : List UInt8) : decode bytes < 256 ^ bytes.length := by
  induction bytes with
  | nil => simp [decode]
  | cons byte rest ih =>
    have hByte : byte.toNat < 256 := byte.toNat_lt
    simp only [decode, length_cons, Nat.pow_succ]
    omega

theorem decode_append (front back : List UInt8) :
    decode (front ++ back) = decode front + 256 ^ front.length * decode back := by
  induction front with
  | nil => simp [decode]
  | cons byte rest ih =>
    simp only [cons_append, decode, ih, length_cons, Nat.pow_succ]
    ring

theorem decode_concat (front : List UInt8) (last : UInt8) :
    decode (front ++ [last]) = decode front + 256 ^ front.length * last.toNat := by
  rw [decode_append]
  rfl

theorem decode_encode (len value : Nat) : decode (encode len value) = value % 256 ^ len := by
  induction len generalizing value with
  | zero => simp [encode, decode, mod_one]
  | succ len ih =>
    have hPow : 256 ^ (len + 1) = 256 * 256 ^ len := by rw [Nat.pow_succ, Nat.mul_comm]
    simp only [encode, decode, ih, UInt8.toNat_ofNat']
    rw [hPow, mod_mul]

/- A value below the width's bound survives the round trip. -/
theorem decode_encode_of_lt {len value : Nat} (hValue : value < 256 ^ len) :
    decode (encode len value) = value := by
  rw [decode_encode, mod_eq_of_lt hValue]

theorem encode_decode (bytes : List UInt8) : encode bytes.length (decode bytes) = bytes := by
  induction bytes with
  | nil => rfl
  | cons byte rest ih =>
    have hByte : byte.toNat < 256 := byte.toNat_lt
    have hLow : UInt8.ofNat (byte.toNat + 256 * decode rest) = byte := by
      apply UInt8.toNat_inj.mp
      rw [UInt8.toNat_ofNat']
      omega
    have hHigh : (byte.toNat + 256 * decode rest) / 256 = decode rest := by omega
    simp only [length_cons, decode, encode, hLow, hHigh, ih]

--------
-- Sign and Magnitude
--------

/- The value of the top bit of `len` bytes. -/
def signBit (len : Nat) : Nat :=
  2 ^ (8 * len - 1)

/- The integer whose magnitude the bytes are but for the top bit, which is its sign. -/
def signed (bytes : List UInt8) : Int :=
  if decode bytes < signBit bytes.length then
    decode bytes
  else
    signBit bytes.length - decode bytes

theorem signBit_succ (len : Nat) : signBit (len + 1) = 128 * 256 ^ len := by
  rw [signBit, show 8 * (len + 1) - 1 = 7 + 8 * len by omega, Nat.pow_add, Nat.pow_mul]

theorem signBit_le_signBit {len other : Nat} (hLe : len ≤ other) : signBit len ≤ signBit other :=
  Nat.pow_le_pow_right (by decide) (by omega)

theorem signBit_le_pow (len : Nat) : signBit len ≤ 256 ^ len := by
  rw [signBit, show 256 = 2 ^ 8 from rfl, ← Nat.pow_mul]
  exact Nat.pow_le_pow_right (by decide) (by omega)

theorem decode_lt_signBit (bytes : List UInt8) : decode bytes < 2 * signBit bytes.length := by
  have hDecode := decode_lt bytes
  cases bytes with
  | nil => exact Nat.lt_trans hDecode (by decide)
  | cons =>
    rw [length_cons, Nat.pow_succ] at hDecode
    rw [length_cons, signBit_succ]
    omega

/- The top bit is that of the last byte. -/
theorem signBit_le_decode_iff (front : List UInt8) (last : UInt8) :
    signBit (front ++ [last]).length ≤ decode (front ++ [last]) ↔ 0x80 ≤ last := by
  have hFront := decode_lt front
  rw [length_append, length_singleton, signBit_succ, decode_concat,
    UInt8.le_iff_toNat_le, Nat.mul_comm 128]
  constructor
  · intro hLe
    by_contra hLast
    have hBelow := Nat.mul_le_mul_left (256 ^ front.length) (Nat.not_le.mp hLast)
    rw [mul_succ] at hBelow
    exact absurd (hBelow.trans hLe) (by omega)
  · intro hLast
    exact le_add_left_of_le (Nat.mul_le_mul_left _ hLast)

theorem signed_of_lt (hBelow : decode bytes < signBit bytes.length) : signed bytes = decode bytes :=
  if_pos hBelow

theorem signed_of_eq_add {rest : Nat} (hDecode : decode bytes = rest + signBit bytes.length) :
    signed bytes = -rest := by
  rw [signed, if_neg (by omega)]
  omega

/- A sign in a byte of its own. -/
theorem signed_concat (bytes : List UInt8) (negative : Bool) :
    signed (bytes ++ [if negative then 0x80 else 0x00]) =
      if negative then -(decode bytes : Int) else decode bytes := by
  have hLen (last : UInt8) : signBit (bytes ++ [last]).length = 256 ^ bytes.length * 128 := by
    rw [length_append, length_singleton, signBit_succ, Nat.mul_comm]
  have hDecode := decode_lt bytes
  cases negative with
  | true =>
    refine signed_of_eq_add ?_
    rw [hLen, decode_concat]
    rfl
  | false =>
    have hSame : decode (bytes ++ [0x00]) = decode bytes := decode_concat bytes 0x00
    refine (signed_of_lt ?_).trans (congrArg _ hSame)
    rw [hLen, show decode (bytes ++ [if false = true then 0x80 else 0x00]) = _ from hSame]
    omega

theorem natAbs_signed_lt (bytes : List UInt8) : (signed bytes).natAbs < signBit bytes.length := by
  have hDecode := decode_lt_signBit bytes
  unfold signed
  split <;> omega

theorem signed_eq_zero_iff (bytes : List UInt8) :
    signed bytes = 0 ↔ decode bytes = 0 ∨ decode bytes = signBit bytes.length := by
  unfold signed
  split <;> omega

/- Only zero has two forms of one length. -/
theorem eq_of_signed_eq {left right : List UInt8} (hLen : left.length = right.length)
    (hSigned : signed left = signed right) (hNonzero : signed left ≠ 0) : left = right := by
  have hDecode : decode left = decode right := by
    unfold signed at hSigned hNonzero
    rw [hLen] at hSigned hNonzero
    split at hSigned <;> split at hSigned <;> omega
  rw [← encode_decode left, hLen, hDecode, encode_decode]

end LittleEndian
