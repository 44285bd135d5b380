import Bitmigo.Header.Uint

/-
  The compact target encoding, the work a block proves and the proof-of-work comparison.

  Key definitions include:
    * `Target` and `Work`
    * `decodeTarget` and `encodeTarget`
    * `blockWork`
    * `compactNat`, the number an encoding names

  Key theorems include:
    * `decodeTarget_eq`, decoding names that number or the reason it is refused
    * `encodeTarget_spec`, encoding rounds down to the precision of its size byte
    * `encodeTarget_canonical`, its size is the least one
    * `blockWork_eq`, the work is the exact quotient
    * `blockWork_exact`, the same over every encoding, in terms of the number it names
    * `compactTarget_exact`, the codec as a rounding
-/

namespace Bitmigo

open Result U256

variable {ε : Type} {bits : UInt32} {compact size n value : Nat}

--------
-- Targets and Work
--------

/- A proof-of-work target, big-endian. -/
abbrev Target := FixedBytes 32

/- An amount of proof of work, big-endian. -/
abbrev Work := FixedBytes 32

/- Why `nBits` does not name a target the chain accepts. -/
inductive TargetError where
  | negative
  | overflow
  | zero
  | abovePowLimit
  deriving DecidableEq

/- The mantissa's sign bit. -/
def signBit : Nat := 0x00800000

/- The mantissa without its sign bit. -/
def mantissaMask : Nat := 0x007fffff

/- `SetCompact`'s outputs before the value is formed. -/
structure Compact where
  size : Nat
  word : Nat
  negative : Bool
  overflow : Bool

/- A short mantissa is shifted before the flags are read. -/
def split (bits : UInt32) : Compact :=
  let size := bits.toNat >>> 24
  let word := bits.toNat &&& mantissaMask
  let word :=
    if size ≤ 3 then word >>> (8 * (3 - size)) else word
  { size
    word
    negative := word ≠ 0 ∧ bits.toNat &&& signBit ≠ 0
    overflow := word ≠ 0 ∧ (34 < size ∨ (0xff < word ∧ 33 < size) ∨ (0xffff < word ∧ 32 < size)) }

/- The value of a compact that does not overflow. -/
def expand (compact : Compact) : Result ε U256 := do
  assert (compact.overflow = false)
  let word := fromU64 (UInt64.ofNat compact.word)
  if compact.word = 0 then
    return U256.zero
  else if compact.size ≤ 3 then
    return word
  else do
    let shift := 8 * (compact.size - 3)
    assert (shift ≤ 248)
    word.shl shift

/- The low 24 bits below the size byte, before the sign. -/
def compressWord (value : U256) (size : Nat) : Result ε Nat :=
  if size ≤ 3 then
    return (value.lowU64.toNat <<< (8 * (3 - size))) % 2 ^ 64
  else do
    let shifted ← value.shr (8 * (size - 3))
    return shifted.lowU64.toNat

/-
  The canonical `nBits` of a value. A mantissa with the sign bit set is written one byte shorter and
  one size larger.
-/
def compress (value : U256) : Result ε UInt32 := do
  let size := (value.bits + 7) / 8
  let compact ← compressWord value size
  assert (compact ≤ 0x00ffffff)
  let (compact, size) :=
    if compact &&& signBit ≠ 0 then
      (compact >>> 8, size + 1)
    else
      (compact, size)
  assert (compact &&& ((2 ^ 64 - 1) ^^^ mantissaMask) = 0)
  assert (size < 256)
  assert (compact < 2 ^ 32)
  return UInt32.ofNat (compact ||| size <<< 24)

def decodeTarget (bits : UInt32) (powLimit : Target) : Result TargetError Target := do
  let compact := split bits
  ensure .negative (compact.negative = false)
  ensure .overflow (compact.overflow = false)
  let value ← expand compact
  ensure .zero (value.isZero = false)
  let limit := fromBeBytes powLimit
  ensure .abovePowLimit (limit.lt value = false)
  let target := value.toBeBytes
  assert (0 < beNat target)
  assert (beNat target ≤ beNat powLimit)
  return target

def encodeTarget (target : Target) : Result ε UInt32 := do
  let encoded ← compress (fromBeBytes target)
  assert ((split encoded).word ≤ mantissaMask)
  return encoded

/- `(~target / (target + 1)) + 1`, zero without a target. -/
def blockWork (bits : UInt32) : Result ε Work := do
  let compact := split bits
  if compact.negative ∨ compact.overflow then
    return FixedBytes.zero 32
  else do
    let target ← expand compact
    if target.isZero then
      return FixedBytes.zero 32
    else do
      let plusOne ← expect (← target.checkedAdd .one)
      let quotient ← target.not.div plusOne
      let work ← expect (← quotient.checkedAdd .one)
      assert (work.isZero = false)
      return work.toBeBytes

/- The hash is read as a little-endian number. -/
def hashMeetsTarget (hash : BlockHash) (target : Target) : Bool :=
  (fromBeBytes target).lt (fromLeBytes hash) = false

--------
-- The Number an Encoding Names
--------

/- The size byte. -/
def compactSize (bits : UInt32) : Nat :=
  bits.toNat / 2 ^ 24

/- The mantissa scaled by its size: shifted right below three bytes, left above. -/
def compactNat (bits : UInt32) : Nat :=
  bits.toNat % 2 ^ 23 * 256 ^ (compactSize bits - 3) / 256 ^ (3 - compactSize bits)

theorem two_pow_eight_mul (n : Nat) : 2 ^ (8 * n) = 256 ^ n := by
  rw [Nat.pow_mul]

theorem split_size (bits : UInt32) : (split bits).size = compactSize bits := by
  simp only [split, compactSize, Nat.shiftRight_eq_div_pow]

theorem split_word (bits : UInt32) :
    (split bits).word = bits.toNat % 2 ^ 23 / 256 ^ (3 - compactSize bits) := by
  have hMask : mantissaMask = 2 ^ 23 - 1 := rfl
  rw [← split_size]
  simp only [split, hMask, Nat.and_two_pow_sub_one_eq_mod]
  split
  · rw [Nat.shiftRight_eq_div_pow, two_pow_eight_mul]
  · rename_i hLarge
    rw [Nat.sub_eq_zero_of_le (by omega), Nat.pow_zero, Nat.div_one]

theorem split_word_lt (bits : UInt32) : (split bits).word < 2 ^ 23 := by
  rw [split_word]
  exact Nat.lt_of_le_of_lt (Nat.div_le_self _ _) (Nat.mod_lt _ (by decide))

theorem compactNat_eq (bits : UInt32) :
    compactNat bits = (split bits).word * 256 ^ (compactSize bits - 3) := by
  rw [split_word, compactNat]
  rcases Nat.le_total (compactSize bits) 3 with hSmall | hLarge
  · simp [Nat.sub_eq_zero_of_le hSmall]
  · simp [Nat.sub_eq_zero_of_le hLarge]

theorem compactNat_eq_zero : compactNat bits = 0 ↔ (split bits).word = 0 := by
  rw [compactNat_eq, Nat.mul_eq_zero]
  have hPos : 256 ^ (compactSize bits - 3) ≠ 0 := by simp
  simp only [hPos, or_false]

/- A power of 256 times a word, against the width. -/
theorem mul_pow_lt_iff {word width count : Nat} (hLe : count ≤ width) :
    word * 256 ^ count < 2 ^ (8 * width) ↔ word < 256 ^ (width - count) := by
  have hSplit : 2 ^ (8 * width) = 256 ^ (width - count) * 256 ^ count := by
    rw [two_pow_eight_mul, ← Nat.pow_add, Nat.sub_add_cancel hLe]
  rw [hSplit]
  exact Nat.mul_lt_mul_right (Nat.pow_pos (by decide))

/- The overflow flag is set exactly past 256 bits. -/
theorem split_overflow (bits : UInt32) :
    (split bits).overflow = true ↔ 2 ^ 256 ≤ compactNat bits := by
  have hFlag : (split bits).overflow = true ↔ (split bits).word ≠ 0 ∧ (34 < (split bits).size ∨
      (0xff < (split bits).word ∧ 33 < (split bits).size) ∨
      (0xffff < (split bits).word ∧ 32 < (split bits).size)) := by
    simp [split]
  have hWord := split_word_lt bits
  rw [hFlag, split_size, compactNat_eq, ← Nat.not_lt]
  generalize (split bits).word = word at *
  by_cases hSize : compactSize bits ≤ 35
  · rw [show 256 = 8 * 32 from rfl, mul_pow_lt_iff (by omega : compactSize bits - 3 ≤ 32)]
    rcases Nat.lt_or_ge (compactSize bits) 33 with hLow | hHigh
    · have hPow : 256 ^ 3 ≤ 256 ^ (32 - (compactSize bits - 3)) :=
        Nat.pow_le_pow_right (by decide) (by omega)
      omega
    · have hCases : compactSize bits = 33 ∨ compactSize bits = 34 ∨ compactSize bits = 35 := by
        omega
      rcases hCases with hEq | hEq | hEq <;> simp [hEq] <;> omega
  · have hPow : 256 ^ 33 ≤ 256 ^ (compactSize bits - 3) :=
      Nat.pow_le_pow_right (by decide) (by omega)
    have hMul (hPos : word ≠ 0) := Nat.mul_le_mul (Nat.one_le_iff_ne_zero.mpr hPos) hPow
    constructor
    · rintro ⟨hPos, _⟩ hLt
      have hBig := hMul hPos
      omega
    · intro hLarge
      refine ⟨?_, .inl (by omega)⟩
      rintro rfl
      simp at hLarge

theorem expand_eq (hFits : compactNat bits < 2 ^ 256) :
    (expand (split bits) : Result ε U256) = .ok (U256.ofNat (compactNat bits)) := by
  have hFlag : (split bits).overflow = false := by
    rw [← Bool.not_eq_true, split_overflow]
    omega
  have hWord := split_word_lt bits
  have hFromWord : (fromU64 (UInt64.ofNat (split bits).word)).toNat = (split bits).word := by
    rw [toNat_fromU64, UInt64.toNat_ofNat', Nat.mod_eq_of_lt (by omega)]
  simp only [expand, hFlag, assert_true, ok_bind]
  by_cases hZero : (split bits).word = 0
  · rw [if_pos hZero, compactNat_eq_zero.mpr hZero]
    rfl
  rw [if_neg hZero]
  by_cases hSmall : (split bits).size ≤ 3
  · rw [if_pos hSmall]
    rw [split_size] at hSmall
    congr 1
    apply eq_ofNat
    rw [hFromWord, compactNat_eq, Nat.sub_eq_zero_of_le hSmall, Nat.pow_zero, Nat.mul_one]
  · rw [if_neg hSmall]
    rw [split_size] at hSmall ⊢
    have hSize : compactSize bits ≤ 34 := by
      by_contra hLarge
      have hOver : (split bits).overflow = true := by
        have hBig : 34 < (split bits).size := by
          rw [split_size]
          omega
        simp only [split] at hZero hBig ⊢
        simp [hZero, hBig]
      rw [hFlag] at hOver
      cases hOver
    have hShift : 8 * (compactSize bits - 3) ≤ 248 := by omega
    simp only [hShift, assert_true, ok_bind]
    rw [shl_eq _ (by omega), hFromWord, two_pow_eight_mul, ← compactNat_eq]

--------
-- Decoding and Work
--------

/- The bytes of a number as a target or as work. -/
def targetOfNat (n : Nat) : FixedBytes 32 :=
  (U256.ofNat n).toBeBytes

theorem beNat_targetOfNat (hn : n < 2 ^ 256) : beNat (targetOfNat n) = n := by
  rw [targetOfNat, beNat_toBeBytes, toNat_ofNat_of_lt hn]

/- Core's four range checks, in the order of the source. -/
theorem decodeTarget_eq (bits : UInt32) (powLimit : Target) :
    decodeTarget bits powLimit = if (split bits).negative then
        Result.fail .negative
      else if 2 ^ 256 ≤ compactNat bits then
        Result.fail .overflow
      else if compactNat bits = 0 then
        Result.fail .zero
      else if beNat powLimit < compactNat bits then
        Result.fail .abovePowLimit
      else
        .ok (targetOfNat (compactNat bits)) := by
  unfold decodeTarget
  by_cases hNegative : (split bits).negative = true
  · simp [hNegative]
  rw [if_neg hNegative]
  simp only [Bool.not_eq_true] at hNegative
  simp only [hNegative, ensure_true, ok_bind]
  by_cases hOver : 2 ^ 256 ≤ compactNat bits
  · rw [if_pos hOver]
    simp [(split_overflow bits).mpr hOver]
  have hFits : compactNat bits < 2 ^ 256 := Nat.not_le.mp hOver
  have hFlag : (split bits).overflow = false := by
    rwa [← Bool.not_eq_true, split_overflow]
  have hValue := toNat_ofNat_of_lt hFits
  rw [if_neg hOver]
  simp only [hFlag, ensure_true, ok_bind, expand_eq hFits]
  by_cases hZero : compactNat bits = 0
  · have hIsZero : (U256.ofNat (compactNat bits)).isZero = true := by
      rw [isZero_iff, hValue, hZero]
    rw [if_pos hZero]
    simp [hIsZero]
  have hIsZero : (U256.ofNat (compactNat bits)).isZero = false := by
    rwa [← Bool.not_eq_true, isZero_iff, hValue]
  rw [if_neg hZero]
  simp only [hIsZero, ensure_true, ok_bind]
  by_cases hAbove : beNat powLimit < compactNat bits
  · have hLt : (fromBeBytes powLimit).lt (U256.ofNat (compactNat bits)) = true := by
      rwa [lt_iff, hValue, toNat_fromBeBytes]
    simp [hLt, hAbove]
  have hLe : compactNat bits ≤ beNat powLimit := Nat.not_lt.mp hAbove
  have hLt : (fromBeBytes powLimit).lt (U256.ofNat (compactNat bits)) = false := by
    rwa [lt_eq_false_iff, hValue, toNat_fromBeBytes]
  have hPos : 0 < compactNat bits := Nat.pos_of_ne_zero hZero
  rw [if_neg hAbove]
  simp only [hLt, ensure_true, ok_bind, beNat_toBeBytes, hValue, hPos, hLe,
    assert_true, pure_eq_ok, targetOfNat]

theorem decodeTarget_eq_ok {powLimit target : Target} :
    decodeTarget bits powLimit = .ok target ↔ (split bits).negative = false ∧ 0 < compactNat bits ∧
      compactNat bits ≤ beNat powLimit ∧ target = targetOfNat (compactNat bits) := by
  have hLimit := beNat_lt powLimit
  rw [decodeTarget_eq]
  cases hNegative : (split bits).negative with
  | true => simp
  | false =>
    simp only [Bool.false_eq_true, if_false, true_and]
    by_cases hOver : 2 ^ 256 ≤ compactNat bits
    · rw [if_pos hOver]
      simp only [fail_ne_ok, false_iff]
      omega
    rw [if_neg hOver]
    by_cases hZero : compactNat bits = 0
    · simp [hZero]
    rw [if_neg hZero]
    by_cases hAbove : beNat powLimit < compactNat bits
    · rw [if_pos hAbove]
      simp only [fail_ne_ok, false_iff]
      omega
    · rw [if_neg hAbove]
      simp only [Except.ok.injEq]
      constructor
      · rintro rfl
        exact ⟨by omega, by omega, rfl⟩
      · rintro ⟨_, _, rfl⟩
        rfl

theorem decodeTarget_not_panics (bits : UInt32) (powLimit : Target) :
    (decodeTarget bits powLimit).Safe fun _ => True := by
  rw [decodeTarget_eq]
  split_ifs <;> trivial

/- What an encoding is worth. -/
def workNat (bits : UInt32) : Nat :=
  if (split bits).negative ∨ 2 ^ 256 ≤ compactNat bits ∨
      compactNat bits = 0 then
    0
  else
    2 ^ 256 / (compactNat bits + 1)

theorem workNat_lt (bits : UInt32) : workNat bits < 2 ^ 256 := by
  unfold workNat
  split
  · decide
  · rename_i hValid
    exact Nat.div_lt_self (by decide) (by omega)

theorem workNat_pos (hNegative : (split bits).negative = false) (hPos : 0 < compactNat bits)
    (hFits : compactNat bits < 2 ^ 256) : 0 < workNat bits := by
  rw [workNat, if_neg (by simp [hNegative]; omega)]
  exact Nat.div_pos (by omega) (by omega)

/- The larger the target, the less work. -/
theorem workNat_le {least : Nat} (hLeast : least ≤ compactNat bits) :
    workNat bits ≤ 2 ^ 256 / (least + 1) := by
  unfold workNat
  split
  · exact Nat.zero_le _
  · exact Nat.div_le_div_left (by omega) (by omega)

/- The complement divided by the successor, plus one, is the quotient of the whole range. -/
theorem complement_div {t : Nat} (hFits : t < 2 ^ 256) :
    (2 ^ 256 - 1 - t) / (t + 1) + 1 = 2 ^ 256 / (t + 1) := by
  rw [Nat.div_eq_sub_div (a := 2 ^ 256) (by omega) (by omega)]
  congr 2
  omega

/- A target that fits is no more than 2^256 - 2. -/
theorem compactNat_succ_lt (hFits : compactNat bits < 2 ^ 256) : compactNat bits + 1 < 2 ^ 256 := by
  have hWord := split_word_lt bits
  rw [compactNat_eq] at hFits ⊢
  generalize compactSize bits - 3 = shift at hFits ⊢
  cases shift with
  | zero =>
    rw [Nat.pow_zero, Nat.mul_one]
    omega
  | succ count =>
    rw [Nat.pow_succ] at hFits ⊢
    have hMul : (split bits).word * (256 ^ count * 256) = (split bits).word * 256 ^ count * 256 :=
      (Nat.mul_assoc ..).symm
    omega

theorem blockWork_eq (bits : UInt32) :
    (blockWork bits : Result ε Work) = .ok (targetOfNat (workNat bits)) := by
  have hNone : FixedBytes.zero 32 = targetOfNat 0 := by decide
  unfold blockWork workNat
  by_cases hFlags : (split bits).negative = true ∨ (split bits).overflow = true
  · rw [if_pos hFlags, if_pos, hNone]
    · rfl
    · exact hFlags.imp_right fun hFlag =>
        .inl ((split_overflow bits).mp hFlag)
  rw [not_or, split_overflow] at hFlags
  have hFits : compactNat bits < 2 ^ 256 := Nat.not_le.mp hFlags.2
  have hValue := toNat_ofNat_of_lt hFits
  rw [if_neg (by simpa [split_overflow] using hFlags)]
  simp only [expand_eq hFits, ok_bind]
  by_cases hZero : compactNat bits = 0
  · rw [if_pos (by rw [isZero_iff, hValue, hZero]), if_pos (.inr (.inr hZero)), hNone]
    rfl
  rw [if_neg (by rw [isZero_iff, hValue]; exact hZero), if_neg (by
      rintro (hNegative | hOver | hEq)
      · exact hFlags.1 hNegative
      · exact hFlags.2 hOver
      · exact hZero hEq)]
  have hPlus := compactNat_succ_lt hFits
  have hPlusValue := toNat_ofNat_of_lt hPlus
  have hQuot := Nat.div_le_self (2 ^ 256 - 1 - compactNat bits) (compactNat bits + 1)
  have hQuotientValue :
      (U256.ofNat ((2 ^ 256 - 1 - compactNat bits) / (compactNat bits + 1))).toNat =
        (2 ^ 256 - 1 - compactNat bits) / (compactNat bits + 1) :=
    toNat_ofNat_of_lt (by omega)
  have hSum : (2 ^ 256 - 1 - compactNat bits) / (compactNat bits + 1) + 1 < 2 ^ 256 := by omega
  have hWork : (U256.ofNat ((2 ^ 256 - 1 - compactNat bits) /
      (compactNat bits + 1) + 1)).isZero = false := by
    rw [← Bool.not_eq_true, isZero_iff, toNat_ofNat_of_lt hSum]
    omega
  rw [checkedAdd_eq, hValue, toNat_one,
    if_pos hPlus, ok_bind, expect_some, ok_bind, div_eq _ (by omega),
    toNat_not, hValue, hPlusValue, ok_bind, checkedAdd_eq, hQuotientValue, toNat_one,
    if_pos hSum, ok_bind, expect_some, ok_bind, hWork]
  simp only [assert_true, ok_bind, pure_eq_ok, ← complement_div hFits, targetOfNat]

--------
-- Encoding
--------

/- The low word of a value that fits it. -/
theorem toNat_lowU64 {a : U256} (hFits : a.toNat < 2 ^ 64) : a.lowU64.toNat = a.toNat := by
  have hLow := a.source_eq (show 0 < 4 by decide)
  rwa [Nat.mul_zero, Nat.pow_zero, Nat.div_one, Nat.mod_eq_of_lt hFits] at hLow

/- A set bit above which a number has no bits. -/
theorem and_signBit (hn : n < 2 ^ 24) : n &&& signBit ≠ 0 ↔ 2 ^ 23 ≤ n := by
  have hBit : signBit = 2 ^ 23 := rfl
  rw [hBit, Nat.and_two_pow, Nat.testBit_eq_decide_div_mod_eq]
  have hDiv : n / 2 ^ 23 % 2 = 1 ↔ 2 ^ 23 ≤ n := by omega
  simp only [hDiv]
  simp

/- A mantissa has nothing outside its mask. -/
theorem and_not_mantissaMask (hn : n < 2 ^ 23) : n &&& ((2 ^ 64 - 1) ^^^ mantissaMask) = 0 := by
  have hMask : (2 ^ 64 - 1) ^^^ mantissaMask = 2 ^ 23 * (2 ^ 41 - 1) := by decide
  rw [hMask]
  apply Nat.eq_of_testBit_eq
  intro index
  rw [Nat.testBit_and, Nat.testBit_two_pow_mul]
  by_cases hHigh : 23 ≤ index
  · have hPow : 2 ^ 23 ≤ 2 ^ index := Nat.pow_le_pow_right (by decide) hHigh
    rw [Nat.testBit_lt_two_pow (by omega)]
    simp
  · simp [hHigh]

/- The mantissa of a value at a size, rounded down. -/
def mantissa (value size : Nat) : Nat :=
  value * 256 ^ (3 - size) / 256 ^ (size - 3)

/- The mantissa before the sign is looked at. -/
theorem compressWord_eq (value : U256) :
    (compressWord value ((value.bits + 7) / 8) : Result ε Nat) =
      .ok (mantissa value.toNat ((value.bits + 7) / 8)) ∧
      mantissa value.toNat ((value.bits + 7) / 8) < 2 ^ 24 := by
  have hSize := Nat.lt_size_self value.toNat
  have hWidth : value.toNat.size ≤ 256 := Nat.size_le.mpr value.toNat_lt
  rw [bits_eq]
  generalize hCount : (value.toNat.size + 7) / 8 = count
  have hValue : value.toNat < 256 ^ count := by
    rw [← two_pow_eight_mul]
    exact Nat.lt_of_lt_of_le hSize (Nat.pow_le_pow_right (by decide) (by omega))
  unfold compressWord mantissa
  by_cases hSmall : count ≤ 3
  · have hWord : value.toNat * 256 ^ (3 - count) < 2 ^ 24 := by
      rwa [show 24 = 8 * 3 from rfl, mul_pow_lt_iff (Nat.sub_le 3 count), Nat.sub_sub_self hSmall]
    have hFits : value.toNat < 2 ^ 64 := by
      have hPow : 256 ^ count ≤ 256 ^ 3 := Nat.pow_le_pow_right (by decide) hSmall
      omega
    rw [if_pos hSmall, Nat.sub_eq_zero_of_le hSmall, Nat.pow_zero, Nat.div_one, toNat_lowU64 hFits,
      Nat.shiftLeft_eq, two_pow_eight_mul, Nat.mod_eq_of_lt (by omega)]
    exact ⟨rfl, hWord⟩
  · have hWord : value.toNat / 256 ^ (count - 3) < 2 ^ 24 := by
      rw [Nat.div_lt_iff_lt_mul (Nat.pow_pos (by decide)),
        show 2 ^ 24 = 256 ^ 3 from rfl, ← Nat.pow_add]
      have hAdd : 3 + (count - 3) = count := by omega
      rwa [hAdd]
    have hShifted : (U256.ofNat (value.toNat / 2 ^ (8 * (count - 3)))).toNat =
        value.toNat / 256 ^ (count - 3) := by
      rw [two_pow_eight_mul]
      exact toNat_ofNat_of_lt (Nat.lt_trans hWord (by decide))
    have hNone : 3 - count = 0 := by omega
    rw [if_neg hSmall, hNone, Nat.pow_zero, Nat.mul_one, shr_eq value (by omega), ok_bind,
      toNat_lowU64 (by omega), hShifted]
    exact ⟨rfl, hWord⟩

/- A size byte over a mantissa without its sign bit. -/
theorem toNat_packed (hCompact : compact < 2 ^ 23) (hSize : size < 256) :
    (UInt32.ofNat (compact ||| size <<< 24)).toNat = size * 2 ^ 24 + compact := by
  rw [UInt32.toNat_ofNat', Nat.or_comm, Nat.shiftLeft_eq,
    Nat.mul_comm, ← Nat.two_pow_add_eq_or_of_lt (by omega)]
  omega

theorem compactSize_packed (hCompact : compact < 2 ^ 23) (hSize : size < 256) :
    compactSize (UInt32.ofNat (compact ||| size <<< 24)) = size := by
  rw [compactSize, toNat_packed hCompact hSize]
  omega

/- What is left of a value at a precision. -/
def roundDown (value size : Nat) : Nat :=
  value / 256 ^ (size - 3) * 256 ^ (size - 3)

/- The mantissa of a value, scaled back. -/
theorem scale_mantissa (value size : Nat) :
    mantissa value size * 256 ^ (size - 3) / 256 ^ (3 - size) = roundDown value size := by
  unfold mantissa roundDown
  rcases Nat.le_total size 3 with hSmall | hLarge
  · simp [Nat.sub_eq_zero_of_le hSmall]
  · simp [Nat.sub_eq_zero_of_le hLarge]

/- A mantissa that gives a byte to its sign. -/
theorem mantissa_succ (value size : Nat) :
    mantissa value (size + 1) = mantissa value size / 256 := by
  unfold mantissa
  rcases Nat.lt_or_ge size 3 with hSmall | hLarge
  · have hUnder : 3 - size = 3 - (size + 1) + 1 := by omega
    have hOver : size - 3 = 0 ∧ size + 1 - 3 = 0 := by omega
    rw [hUnder, hOver.1, hOver.2, Nat.pow_succ, ← Nat.mul_assoc,
      Nat.pow_zero, Nat.div_one, Nat.div_one, Nat.mul_div_cancel _ (by decide)]
  · have hUnder : 3 - size = 0 ∧ 3 - (size + 1) = 0 := by omega
    have hOver : size + 1 - 3 = size - 3 + 1 := by omega
    rw [hUnder.1, hUnder.2, hOver, Nat.div_div_eq_div_mul, Nat.pow_succ]

/- The sign bit is free below half of what the size holds. -/
theorem mantissa_lt_iff (hSize : 0 < size) :
    mantissa value size < 2 ^ 23 ↔ value < 2 ^ (8 * size - 1) := by
  unfold mantissa
  rcases Nat.lt_or_ge size 3 with hSmall | hLarge
  · obtain rfl | rfl : size = 1 ∨ size = 2 := by omega
    · simp
      omega
    · simp
      omega
  · have hPow : 2 ^ 23 * 256 ^ (size - 3) = 2 ^ (8 * size - 1) := by
      rw [← two_pow_eight_mul, ← Nat.pow_add]
      congr 1
      omega
    rw [Nat.sub_eq_zero_of_le hLarge, Nat.pow_zero, Nat.mul_one,
      Nat.div_lt_iff_lt_mul (Nat.pow_pos (by decide)), hPow]

/- The sign counts for a mantissa that is left only. -/
theorem split_negative (bits : UInt32) :
    (split bits).negative = true ↔ bits.toNat / 2 ^ 23 % 2 = 1 ∧ compactNat bits ≠ 0 := by
  have hFlag :
      (split bits).negative = true ↔ (split bits).word ≠ 0 ∧ bits.toNat &&& signBit ≠ 0 := by
    simp [split]
  have hBit : bits.toNat &&& signBit ≠ 0 ↔ bits.toNat / 2 ^ 23 % 2 = 1 := by
    rw [show signBit = 2 ^ 23 from rfl, Nat.and_two_pow, Nat.testBit_eq_decide_div_mod_eq]
    simp
  rw [hFlag, hBit, ne_eq, ← compactNat_eq_zero, and_comm]

/- An encoding names the value rounded down to its precision, which is no coarser than the value. -/
structure Encodes (bits : UInt32)
    (value : Nat) : Prop where
  positive : (split bits).negative = false
  rounded : compactNat bits = roundDown value (compactSize bits)
  precise : 0 < value → 256 ^ (compactSize bits - 3) ≤ value

theorem Encodes.le (hEncodes : Encodes bits value) : compactNat bits ≤ value := by
  rw [hEncodes.rounded]
  exact Nat.div_mul_le_self _ _

theorem Encodes.pos (hEncodes : Encodes bits value) (hPos : 0 < value) : 0 < compactNat bits := by
  rw [hEncodes.rounded]
  exact Nat.mul_pos (Nat.div_pos (hEncodes.precise hPos) (Nat.pow_pos (by decide)))
    (Nat.pow_pos (by decide))

/-
  The size is the least that leaves the sign bit free, and the mantissa is the value's at that size.
-/
structure Canonical (bits : UInt32)
    (value : Nat) : Prop where
  mantissa_eq : bits.toNat % 2 ^ 24 = mantissa value (compactSize bits)
  value_lt : value < 2 ^ (8 * compactSize bits - 1)
  le_value : 0 < compactSize bits → 2 ^ (8 * compactSize bits - 9) ≤ value

theorem Canonical.mantissa_lt (hCanon : Canonical bits value) : bits.toNat % 2 ^ 24 < 2 ^ 23 := by
  rw [hCanon.mantissa_eq]
  rcases Nat.eq_zero_or_pos (compactSize bits) with hNone | hSome
  · have hLt := hCanon.value_lt
    rw [hNone] at hLt ⊢
    obtain rfl : value = 0 := by omega
    simp [mantissa]
  · exact (mantissa_lt_iff hSome).mpr hCanon.value_lt

theorem Canonical.size_pos (hCanon : Canonical bits value) (hPos : 0 < value) :
    0 < compactSize bits := by
  have hLt := hCanon.value_lt
  by_contra hNone
  rw [Nat.eq_zero_of_not_pos hNone] at hLt
  omega

theorem Canonical.encodes (hCanon : Canonical bits value) : Encodes bits value where
  positive := by
    have hLt := hCanon.mantissa_lt
    rw [← Bool.not_eq_true, split_negative]
    omega
  rounded := by
    have hLt := hCanon.mantissa_lt
    have hLow : bits.toNat % 2 ^ 23 = bits.toNat % 2 ^ 24 := by omega
    rw [compactNat, hLow, hCanon.mantissa_eq, scale_mantissa]
  precise := by
    intro hPos
    rw [← two_pow_eight_mul]
    exact (Nat.pow_le_pow_right (by decide) (by omega)).trans
      (hCanon.le_value (hCanon.size_pos hPos))

/- A size byte over the value's mantissa is canonical. -/
theorem canonical_packed (hSize : size < 256) (hMantissa : mantissa value size < 2 ^ 23)
    (hLt : value < 2 ^ (8 * size - 1)) (hLe : 0 < size → 2 ^ (8 * size - 9) ≤ value) :
    Canonical (UInt32.ofNat (mantissa value size ||| size <<< 24)) value := by
  have hPacked := compactSize_packed hMantissa hSize
  refine ⟨?_, by rwa [hPacked], by rwa [hPacked]⟩
  rw [hPacked, toNat_packed hMantissa hSize]
  omega

theorem compress_canonical (value : U256) :
    ∃ bits, (compress value : Result ε UInt32) = .ok bits ∧ Canonical bits value.toNat := by
  rcases compressWord_eq (ε := ε) value with ⟨hWord, hLt⟩
  have hWidth : value.toNat.size ≤ 256 := Nat.size_le.mpr value.toNat_lt
  have hBytes : (value.bits + 7) / 8 ≤ 32 := by
    rw [bits_eq]
    omega
  -- a value reaches the byte below its size
  have hTop (hSome : 0 < (value.bits + 7) / 8) :
      2 ^ (8 * ((value.bits + 7) / 8 - 1)) ≤ value.toNat := by
    rw [bits_eq] at hSome ⊢
    exact Nat.lt_size.mp (by omega)
  have hZero (hNone : (value.bits + 7) / 8 = 0) : value.toNat = 0 := by
    rw [bits_eq] at hNone
    exact Nat.size_eq_zero.mp (by omega)
  unfold compress
  dsimp only
  generalize (value.bits + 7) / 8 = size at *
  rw [hWord, ok_bind]
  have hMax : mantissa value.toNat size ≤ 0x00ffffff := by omega
  simp only [hMax, assert_true, ok_bind, and_signBit hLt]
  by_cases hSign : 2 ^ 23 ≤ mantissa value.toNat size
  · have hSome : 0 < size := by
      rcases Nat.eq_zero_or_pos size with rfl | hSome
      · rw [hZero rfl] at hSign
        simp [mantissa] at hSign
      · exact hSome
    have hShort : mantissa value.toNat (size + 1) < 2 ^ 23 := by
      rw [mantissa_succ]
      omega
    have hSize : size + 1 < 256 := by omega
    rw [if_pos hSign, Nat.shiftRight_eq_div_pow, ← mantissa_succ]
    refine ⟨_, ?_, canonical_packed hSize hShort
      ((mantissa_lt_iff (Nat.succ_pos size)).mp hShort) fun _ => ?_⟩
    · simp only [and_not_mantissaMask hShort, hSize,
        hShort.trans (by decide : 2 ^ 23 < 2 ^ 32), assert_true, ok_bind, pure_eq_ok]
    · have hLow := mt (mantissa_lt_iff hSome).mpr (Nat.not_lt.mpr hSign)
      exact Nat.not_lt.mp hLow
  · have hShort := Nat.not_le.mp hSign
    have hSize : size < 256 := by omega
    rw [if_neg hSign]
    refine ⟨_, ?_, canonical_packed hSize hShort ?_ fun hSome => ?_⟩
    · simp only [and_not_mantissaMask hShort, hSize,
        hShort.trans (by decide : 2 ^ 23 < 2 ^ 32), assert_true, ok_bind, pure_eq_ok]
    · rcases Nat.eq_zero_or_pos size with hNone | hSome
      · rw [hZero hNone]
        exact Nat.two_pow_pos _
      · exact (mantissa_lt_iff hSome).mp hShort
    · exact (Nat.pow_le_pow_right (by decide) (by omega)).trans (hTop hSome)

theorem encodeTarget_canonical (target : Target) :
    ∃ bits, (encodeTarget target : Result ε UInt32) = .ok bits ∧ Canonical bits (beNat target) := by
  rcases compress_canonical (ε := ε) (fromBeBytes target) with ⟨bits, hBits, hCanon⟩
  have hWord : (split bits).word ≤ mantissaMask := Nat.le_of_lt_succ (split_word_lt bits)
  rw [toNat_fromBeBytes] at hCanon
  exact ⟨bits, by
    simp only [encodeTarget, hBits, hWord, ok_bind, assert_true, pure_eq_ok], hCanon⟩

theorem encodeTarget_spec (target : Target) :
    ∃ bits, (encodeTarget target : Result ε UInt32) = .ok bits ∧ Encodes bits (beNat target) := by
  rcases encodeTarget_canonical (ε := ε) target with ⟨bits, hBits, hCanon⟩
  exact ⟨bits, hBits, hCanon.encodes⟩

/- A positive target below the limit decodes again. -/
theorem Encodes.decodeTarget {powLimit : Target} (hEncodes : Encodes bits value) (hPos : 0 < value)
    (hLimit : value ≤ beNat powLimit) :
    Bitmigo.decodeTarget bits powLimit = .ok (targetOfNat (compactNat bits)) :=
  decodeTarget_eq_ok.mpr ⟨hEncodes.positive, hEncodes.pos hPos, hEncodes.le.trans hLimit, rfl⟩

--------
-- The Work of Every Encoding
--------

/- The encoding is negative, needs more than 256 bits or names zero. -/
def NamesNoTarget (bits : UInt32) : Prop :=
  (bits.toNat / 2 ^ 23 % 2 = 1 ∧ compactNat bits ≠ 0) ∨
    2 ^ 256 ≤ compactNat bits ∨ compactNat bits = 0

theorem workNat_of_namesNoTarget (hNone : NamesNoTarget bits) : workNat bits = 0 := by
  rw [NamesNoTarget, ← split_negative] at hNone
  rw [workNat, if_pos hNone]

theorem workNat_of_target (hSome : ¬ NamesNoTarget bits) :
    workNat bits = 2 ^ 256 / (compactNat bits + 1) := by
  rw [NamesNoTarget, ← split_negative] at hSome
  rw [workNat, if_neg hSome]

theorem workNat_eq_zero : workNat bits = 0 ↔ NamesNoTarget bits := by
  refine ⟨fun hZero => ?_, workNat_of_namesNoTarget⟩
  by_contra hSome
  have hFits : compactNat bits < 2 ^ 256 := Nat.not_le.mp fun hLarge => hSome (.inr (.inl hLarge))
  rw [workNat_of_target hSome, Nat.div_eq_zero_iff] at hZero
  omega

/-
  The work of an encoding is the exact quotient of the whole range by the successor of the number it
  names, and nothing where it names no target; a larger target is no more work.
-/
theorem blockWork_exact (bits : UInt32) :
    ∃ work : Work,
      (blockWork bits : Result ε Work) = .ok work ∧
        (beNat work = 0 ↔ NamesNoTarget bits) ∧
        (¬ NamesNoTarget bits → beNat work = 2 ^ 256 / (compactNat bits + 1)) ∧
        ∀ (other : UInt32) (otherWork : Work),
          (blockWork other : Result ε Work) = .ok otherWork →
          ¬ NamesNoTarget bits →
          ¬ NamesNoTarget other →
          compactNat bits < compactNat other → beNat otherWork ≤ beNat work := by
  refine ⟨targetOfNat (workNat bits), blockWork_eq bits, ?_⟩
  rw [beNat_targetOfNat (workNat_lt bits)]
  refine ⟨workNat_eq_zero, workNat_of_target, ?_⟩
  intro other otherWork hOther hBits _ hLess
  rw [blockWork_eq, Except.ok.injEq] at hOther
  rw [← hOther, beNat_targetOfNat (workNat_lt other), workNat_of_target hBits]
  exact workNat_le hLess.le

--------
-- Rounding
--------

/- A larger value has a larger size, or the same and a larger mantissa. -/
theorem Canonical.mono {other : UInt32} {larger : Nat} (hValue : Canonical bits value)
    (hLarger : Canonical other larger) (hLe : value ≤ larger) : bits.toNat ≤ other.toNat := by
  have hMantissa := hValue.mantissa_eq
  have hOther := hLarger.mantissa_eq
  have hSizes : compactSize bits ≤ compactSize other := by
    rcases Nat.eq_zero_or_pos (compactSize bits) with hNone | hSome
    · omega
    · have hPow : 2 ^ (8 * compactSize bits - 9) < 2 ^ (8 * compactSize other - 1) :=
        (hValue.le_value hSome).trans_lt (hLe.trans_lt hLarger.value_lt)
      have hExponents := (Nat.pow_lt_pow_iff_right (by decide)).mp hPow
      omega
  rcases Nat.eq_or_lt_of_le hSizes with hEq | hLt
  · have hWords : mantissa value (compactSize bits) ≤ mantissa larger (compactSize bits) :=
      Nat.div_le_div_right (Nat.mul_le_mul_right _ hLe)
    rw [← hEq] at hOther
    unfold compactSize at hEq
    omega
  · unfold compactSize at hLt
    omega

/- What an encoding names is encoded without a loss. -/
theorem Canonical.exact {other : UInt32} (hCanon : Canonical bits (compactNat other))
    (hPos : 0 < compactNat other) : compactNat bits = compactNat other := by
  have hLeast := hCanon.le_value (hCanon.size_pos hPos)
  rw [hCanon.encodes.rounded, roundDown]
  apply Nat.div_mul_cancel
  rw [compactNat_eq] at hLeast ⊢
  have hBound : (split other).word * 256 ^ (compactSize other - 3) <
      2 ^ (23 + 8 * (compactSize other - 3)) := by
    rw [Nat.pow_add, two_pow_eight_mul]
    exact Nat.mul_lt_mul_of_pos_right (split_word_lt other) (Nat.pow_pos (by decide))
  have hSizes := (Nat.pow_lt_pow_iff_right (by decide)).mp (hLeast.trans_lt hBound)
  exact (Nat.pow_dvd_pow 256 (by omega)).trans (Nat.dvd_mul_left _ _)

/-
  The compact form rounds down within its precision and keeps the order; what decodes is encoded
  exactly, and what does not is refused for its sign, its size or the limit.
-/
theorem compactTarget_exact :
    (∀ target : Target, ∃ bits,
      (encodeTarget target : Result ε UInt32) = .ok bits ∧
        (0 < beNat target → ∃ decoded,
          decodeTarget bits (targetOfNat (2 ^ 256 - 1)) = .ok decoded ∧
            beNat decoded ≤ beNat target ∧
            beNat target - beNat decoded < 256 ^ (compactSize bits - 3))) ∧
    (∀ (low high : Target) (lowBits highBits : UInt32),
      (encodeTarget low : Result ε UInt32) = .ok lowBits →
      (encodeTarget high : Result ε UInt32) = .ok highBits →
      beNat low ≤ beNat high → lowBits.toNat ≤ highBits.toNat) ∧
    (∀ (bits : UInt32) (powLimit target : Target),
      decodeTarget bits powLimit = .ok target →
        ∃ again, (encodeTarget target : Result ε UInt32) = .ok again ∧
          decodeTarget again powLimit = .ok target) ∧
    ∀ (bits : UInt32) (powLimit : Target),
      (∃ error, decodeTarget bits powLimit = Result.fail error) ↔
        NamesNoTarget bits ∨ beNat powLimit < compactNat bits := by
  have hFull (target : Target) : beNat target ≤ beNat (targetOfNat (2 ^ 256 - 1)) := by
    rw [beNat_targetOfNat (by decide)]
    exact Nat.le_sub_one_of_lt (beNat_lt target)
  refine ⟨fun target => ?_, ?_, ?_, ?_⟩
  · rcases encodeTarget_spec (ε := ε) target with ⟨bits, hBits, hEncodes⟩
    refine ⟨bits, hBits, fun hPos => ?_⟩
    have hLe := hEncodes.le
    refine ⟨_, hEncodes.decodeTarget hPos (hFull target), ?_⟩
    rw [beNat_targetOfNat (hLe.trans_lt (beNat_lt target))]
    refine ⟨hLe, ?_⟩
    have hMod := Nat.div_add_mod' (beNat target) (256 ^ (compactSize bits - 3))
    rw [hEncodes.rounded, roundDown]
    omega
  · intro low high lowBits highBits hLow hHigh hLe
    rcases encodeTarget_canonical (ε := ε) low with ⟨_, hFst, hBelow⟩
    rcases encodeTarget_canonical (ε := ε) high with ⟨_, hSnd, hAbove⟩
    cases hFst.symm.trans hLow
    cases hSnd.symm.trans hHigh
    exact hBelow.mono hAbove hLe
  · intro bits powLimit target hDecode
    rcases decodeTarget_eq_ok.mp hDecode with ⟨_, hPos, hLimit, rfl⟩
    have hFits := hLimit.trans_lt (beNat_lt powLimit)
    rcases encodeTarget_canonical (ε := ε) (targetOfNat (compactNat bits))
      with ⟨again, hAgain, hCanon⟩
    rw [beNat_targetOfNat hFits] at hCanon
    refine ⟨again, hAgain, ?_⟩
    rw [hCanon.encodes.decodeTarget hPos hLimit, hCanon.exact hPos]
  · intro bits powLimit
    rw [NamesNoTarget, ← split_negative, decodeTarget_eq]
    split_ifs with hNegative hOver hZero hAbove
    · exact iff_of_true ⟨_, rfl⟩ (.inl (.inl hNegative))
    · exact iff_of_true ⟨_, rfl⟩ (.inl (.inr (.inl hOver)))
    · exact iff_of_true ⟨_, rfl⟩ (.inl (.inr (.inr hZero)))
    · exact iff_of_true ⟨_, rfl⟩ (.inr hAbove)
    · simp only [not_or.mpr ⟨not_or.mpr ⟨hNegative, not_or.mpr ⟨hOver, hZero⟩⟩, hAbove⟩, iff_false]
      rintro ⟨error, ⟨⟩⟩

end Bitmigo
