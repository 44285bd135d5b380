import Bitmigo.Bitcoin.Types
import Bitmigo.Lib.Limbs
import Bitmigo.Lib.LittleEndian
import Mathlib.Data.Nat.Size
import Mathlib.Tactic.IntervalCases

/-
  The 256-bit integer the target rules compute in.

  Key definitions include:
    * `U256`, four 64-bit limbs, most significant first
    * `U256.toNat` and `U256.ofNat`
    * the operations of the source: `bits`, `shl`, `shr`, `not`, `checkedAdd`, `sub`,
      `checkedMulU64`, `divU64` and `div`

  Key theorems include one for each operation: it does not panic on what its callers give it, and it
  agrees with the natural numbers. `U256.operations_exact` has them all.
-/

namespace Bitmigo

open Result List LittleEndian Nat Bool

variable {divisor : UInt64}

/- Four limbs, most significant first. -/
abbrev U256 := { limbs : List UInt64 // limbs.length = 4 }

namespace U256

variable {ε : Type} {n r : Nat} {a : U256}

/- The values of one limb. -/
abbrev limbBase : Nat := 2 ^ 64

def zero : U256 := ⟨[0, 0, 0, 0], rfl⟩
def one : U256 := ⟨[0, 0, 0, 1], rfl⟩
def width : Nat := 256

def fromU64 (value : UInt64) : U256 :=
  ⟨[0, 0, 0, value], rfl⟩

/- `u64::from_be_bytes` of the eight bytes from `start`. -/
def limbAt (bytes : Bytes) (start : Nat) : UInt64 :=
  UInt64.ofNat (LittleEndian.decode ((bytes.drop start).take 8).reverse)

def fromBeBytes (bytes : FixedBytes 32) : U256 :=
  ⟨[limbAt bytes.val 0, limbAt bytes.val 8, limbAt bytes.val 16, limbAt bytes.val 24], rfl⟩

def fromLeBytes (bytes : FixedBytes 32) : U256 :=
  fromBeBytes ⟨bytes.val.reverse, by simp [bytes.property]⟩

/- `u64::to_be_bytes`. -/
def limbBytes (limb : UInt64) : Bytes :=
  (LittleEndian.encode 8 limb.toNat).reverse

def toBeBytes (a : U256) : FixedBytes 32 :=
  ⟨a.val.flatMap limbBytes, by
    simp [limbBytes, a.property]⟩

def isZero (a : U256) : Bool :=
  a = zero

/- The derived order compares the limbs lexicographically. -/
def lt (a b : U256) : Bool :=
  a.val.map UInt64.toNat < b.val.map UInt64.toNat

/- `u64::leading_zeros`. -/
def leadingZeros (limb : UInt64) : Nat :=
  if limb = 0 then 64 else 63 - log2 limb.toNat

/- The loop of `bits`: the first limb that is not zero. -/
def bitsFrom : List UInt64 → Nat
  | [] => 0
  | limb :: rest =>
    if limb ≠ 0 then
      rest.length * 64 + (64 - leadingZeros limb)
    else
      bitsFrom rest

/- One more than the position of the highest set bit. -/
def bits (a : U256) : Nat :=
  bitsFrom a.val

/- The limb at `index`, zero outside. -/
def source (a : U256) (index : Nat) : UInt64 :=
  (a.val[index]?).getD 0

def lowU64 (a : U256) : UInt64 :=
  a.source 3

/- One limb of a left shift. -/
def shlLimb (a : U256) (shift index : Nat) : UInt64 :=
  let limbShift := shift / 64
  let bitShift := shift % 64
  let high := a.source (index + limbShift)
  let low := a.source (index + limbShift + 1)
  if bitShift = 0 then
    high
  else
    (high <<< UInt64.ofNat bitShift) ||| (low >>> UInt64.ofNat (64 - bitShift))

/- Bits shifted past the top are lost. -/
def shl (a : U256) (shift : Nat) : Result ε U256 := do
  assert (shift < width)
  return ⟨(List.range 4).map (a.shlLimb shift), by simp⟩

/- The limb `back` places before `index`, zero outside. -/
def sourceBefore (a : U256) (index back : Nat) : UInt64 :=
  if back ≤ index then a.source (index - back) else 0

/- One limb of a right shift. -/
def shrLimb (a : U256) (shift index : Nat) : UInt64 :=
  let limbShift := shift / 64
  let bitShift := shift % 64
  let low := a.sourceBefore index limbShift
  let high := a.sourceBefore index (limbShift + 1)
  if bitShift = 0 then
    low
  else
    (low >>> UInt64.ofNat bitShift) ||| (high <<< UInt64.ofNat (64 - bitShift))

def shr (a : U256) (shift : Nat) : Result ε U256 := do
  assert (shift < width)
  return ⟨(List.range 4).map (a.shrLimb shift), by simp⟩

def not (a : U256) : U256 :=
  ⟨a.val.map (fun limb => ~~~limb), by simp [a.property]⟩

/- `u64::overflowing_add`. -/
def overflowingAdd (a b : UInt64) : UInt64 × Bool :=
  (a + b, limbBase ≤ a.toNat + b.toNat)

/- `u64::overflowing_sub`. -/
def overflowingSub (a b : UInt64) : UInt64 × Bool :=
  (a - b, a.toNat < b.toNat)

def addStep (digits : UInt64 × UInt64) (carry : Bool) : Result ε (UInt64 × Bool) :=
  let (sum, overflowA) := overflowingAdd digits.1 digits.2
  let (sum, overflowB) := overflowingAdd sum carry.toUInt64
  .ok (sum, overflowA || overflowB)

/- Nothing past the width. -/
def checkedAdd (a b : U256) : Result ε (Option U256) := do
  let (limbs, carry) ← Limbs.scanUp addStep (a.val.zip b.val) false
  if carry then
    return none
  else
    return some ⟨limbs.val, by
      simp [limbs.property, a.property, b.property]⟩

def subStep (digits : UInt64 × UInt64) (borrow : Bool) : Result ε (UInt64 × Bool) :=
  let (difference, underflowA) := overflowingSub digits.1 digits.2
  let (difference, underflowB) := overflowingSub difference borrow.toUInt64
  .ok (difference, underflowA || underflowB)

/- The caller guarantees that `b` is not above `a`. -/
def sub (a b : U256) : Result ε U256 := do
  assert (a.lt b = false)
  let (limbs, borrow) ← Limbs.scanUp subStep (a.val.zip b.val) false
  assert (borrow = false)
  return ⟨limbs.val, by
    simp [limbs.property, a.property, b.property]⟩

/- The product is a `u128`, and must not wrap. -/
def mulStep (factor : UInt64) (a : UInt64) (carry : Nat) : Result ε (UInt64 × Nat) := do
  let product := a.toNat * factor.toNat + carry
  assert (product < 2 ^ 128)
  return (UInt64.ofNat (product &&& (limbBase - 1)), product >>> 64)

/- Nothing past the width. -/
def checkedMulU64 (a : U256) (factor : UInt64) : Result ε (Option U256) := do
  let (limbs, carry) ← Limbs.scanUp (mulStep factor) a.val 0
  if carry ≠ 0 then
    return none
  else
    return some ⟨limbs.val, by
      simp [limbs.property, a.property]⟩

/- The quotient of a step is converted back to a `u64`. -/
def divStep (divisor : UInt64) (a : UInt64) (remainder : Nat) : Result ε (UInt64 × Nat) := do
  let current := remainder <<< 64 ||| a.toNat
  assert (current < 2 ^ 128)
  let quotient := current / divisor.toNat
  assert (quotient < limbBase)
  return (UInt64.ofNat quotient, current % divisor.toNat)

def divU64 (a : U256) (divisor : UInt64) : Result ε U256 := do
  assert (0 < divisor)
  let (limbs, _) ← Limbs.scanDown (divStep divisor) a.val 0
  return ⟨limbs.val, by simp [limbs.property, a.property]⟩

def setBit (a : U256) (bit : Nat) : Result ε U256 := do
  assert (bit < width)
  let index := 3 - bit / 64
  let limb := a.source index
  return ⟨a.val.set index (limb ||| ((1 : UInt64) <<< UInt64.ofNat (bit % 64))), by
      simp [a.property]⟩

/-
  Shift and subtract, from the highest position the divisor fits under: the remainder and the
  quotient after the positions below `count`.
-/
def divLoop (divisor : U256) (count : Nat) (remainder quotient : U256) : Result ε (U256 × U256) :=
  match count with
  | 0 => .ok (remainder, quotient)
  | shift + 1 => do
      let shifted ← divisor.shl shift
      if remainder.lt shifted = false then do
        let remainder ← remainder.sub shifted
        let quotient ← quotient.setBit shift
        divLoop divisor shift remainder quotient
      else
        divLoop divisor shift remainder quotient

def div (a divisor : U256) : Result ε U256 := do
  assert (divisor.isZero = false)
  let dividendBits := a.bits
  let divisorBits := divisor.bits
  if dividendBits < divisorBits then
    return zero
  else do
    let (remainder, quotient) ← divLoop divisor (dividendBits - divisorBits + 1) a zero
    assert (remainder.lt divisor)
    return quotient

--------
-- Values
--------

/- The number these limbs stand for. -/
def toNat (a : U256) : Nat :=
  Limbs.value limbBase (a.val.map UInt64.toNat)

/- The low 256 bits of a number. -/
def ofNat (n : Nat) : U256 :=
  ⟨[UInt64.ofNat (n / 2 ^ 192), UInt64.ofNat (n / 2 ^ 128),
    UInt64.ofNat (n / 2 ^ 64), UInt64.ofNat n], rfl⟩

/- The four limbs by name. -/
theorem exists_limbs (a : U256) : ∃ w x y z, a = ⟨[w, x, y, z], rfl⟩ := by
  rcases a with ⟨limbs, hLen⟩
  rcases limbs with _ | ⟨w, _ | ⟨x, _ | ⟨y, _ | ⟨z, rest⟩⟩⟩⟩
  case cons.cons.cons.cons =>
    rcases rest with _ | ⟨v, rest⟩
    · exact ⟨w, x, y, z, rfl⟩
    · simp at hLen
  all_goals cases hLen

theorem toNat_mk (w x y z : UInt64) (hLen : [w, x, y, z].length = 4) :
    toNat ⟨[w, x, y, z], hLen⟩ =
      w.toNat * 2 ^ 192 + x.toNat * 2 ^ 128 + y.toNat * 2 ^ 64 + z.toNat := by
  have hTwo : limbBase ^ 2 = 2 ^ 128 := by decide
  have hThree : limbBase ^ 3 = 2 ^ 192 := by decide
  simp [toNat, hTwo, hThree]
  rw [show limbBase = 2 ^ 64 from rfl]
  omega

theorem limbs_lt (limbs : List UInt64) : ∀ limb ∈ limbs.map UInt64.toNat, limb < limbBase := by
  intro limb hLimb
  rcases mem_map.mp hLimb with ⟨word, _, rfl⟩
  exact word.toNat_lt

theorem toNat_lt (a : U256) : a.toNat < 2 ^ 256 := by
  have hLt := Limbs.value_lt (limbs_lt a.val)
  rw [length_map, a.property] at hLt
  exact hLt

theorem toNat_injective {b : U256} (hValue : a.toNat = b.toNat) : a = b := by
  have hMap := Limbs.value_inj (by simp [a.property, b.property]) (limbs_lt a.val) (limbs_lt b.val)
    hValue
  apply Subtype.ext
  exact map_injective_iff.mpr (fun _ _ => UInt64.toNat_inj.mp) hMap

@[simp] theorem toNat_ofNat (n : Nat) : (ofNat n).toNat = n % 2 ^ 256 := by
  rw [ofNat, toNat_mk]
  simp only [UInt64.toNat_ofNat']
  omega

theorem toNat_ofNat_of_lt (hFits : n < 2 ^ 256) : (ofNat n).toNat = n := by
  rw [toNat_ofNat, mod_eq_of_lt hFits]

@[simp] theorem ofNat_toNat (a : U256) : ofNat a.toNat = a :=
  toNat_injective (toNat_ofNat_of_lt a.toNat_lt)

/- Two numbers below the width with one image are equal. -/
theorem eq_ofNat (hValue : a.toNat = n) : a = ofNat n := by
  rw [← hValue, ofNat_toNat]

@[simp] theorem toNat_zero : zero.toNat = 0 := by decide

@[simp] theorem toNat_one : one.toNat = 1 := by decide

@[simp] theorem toNat_fromU64 (value : UInt64) : (fromU64 value).toNat = value.toNat := by
  simp [fromU64, toNat_mk]

theorem isZero_iff (a : U256) : a.isZero ↔ a.toNat = 0 := by
  rw [isZero, decide_eq_true_eq]
  constructor
  · rintro rfl
    exact toNat_zero
  · intro hZero
    exact toNat_injective (hZero.trans toNat_zero.symm)

/- The derived order is the numeric one. -/
theorem lt_iff (a b : U256) : a.lt b ↔ a.toNat < b.toNat := by
  rw [lt, decide_eq_true_eq]
  exact Limbs.lt_iff_value_lt (by simp [a.property, b.property]) (limbs_lt a.val) (limbs_lt b.val)

theorem lt_eq_false_iff (a b : U256) : a.lt b = false ↔ b.toNat ≤ a.toNat := by
  rw [← Nat.not_lt, ← lt_iff, not_eq_true]

theorem toNat_not (a : U256) : a.not.toNat = 2 ^ 256 - 1 - a.toNat := by
  rcases exists_limbs a with ⟨w, x, y, z, rfl⟩
  have hW := w.toNat_lt
  have hX := x.toNat_lt
  have hY := y.toNat_lt
  have hZ := z.toNat_lt
  simp only [not, map_cons, map_nil, toNat_mk, UInt64.toNat_not, UInt64.size]
  omega

--------
-- Shifts
--------

/- Shifting a limb moves its high part into the next one. -/
theorem limb_shift (v : Nat) (hShift : r ≤ 64) :
    v * 2 ^ r = 2 ^ 64 * (v / 2 ^ (64 - r)) + v * 2 ^ r % 2 ^ 64 := by
  have hDiv : v * 2 ^ r / 2 ^ 64 = v / 2 ^ (64 - r) := by
    rw [← Nat.pow_sub_mul_pow 2 hShift]
    exact Nat.mul_div_mul_right _ _ (Nat.two_pow_pos r)
  rw [← hDiv]
  exact (div_add_mod _ _).symm

theorem toNat_shlWord (high low : UInt64) (hPos : r ≠ 0) (hShift : r < 64) :
    ((high <<< UInt64.ofNat r) ||| (low >>> UInt64.ofNat (64 - r))).toNat =
      high.toNat * 2 ^ r % 2 ^ 64 + low.toNat / 2 ^ (64 - r) := by
  have hLow := low.toNat_lt
  have hSplit := (Nat.pow_sub_mul_pow 2 hShift.le).symm
  have hSmall : low.toNat / 2 ^ (64 - r) < 2 ^ r := by
    rwa [Nat.div_lt_iff_lt_mul (Nat.two_pow_pos _), Nat.mul_comm, ← hSplit]
  have hMultiple : high.toNat * 2 ^ r % 2 ^ 64 = 2 ^ r * (high.toNat % 2 ^ (64 - r)) := by
    rw [hSplit, mul_mod_mul_right, Nat.mul_comm]
  rw [UInt64.toNat_or, UInt64.toNat_shiftLeft,
    UInt64.toNat_shiftRight, UInt64.toNat_ofNat', UInt64.toNat_ofNat']
  have hModLeft : r % 2 ^ 64 % 64 = r := by omega
  have hModRight : (64 - r) % 2 ^ 64 % 64 = 64 - r := by omega
  rw [hModLeft, hModRight, shiftLeft_eq, shiftRight_eq_div_pow, hMultiple,
    two_pow_add_eq_or_of_lt hSmall]

theorem toNat_shlLimb (a : U256) (shift index : Nat) :
    (a.shlLimb shift index).toNat = (a.source (index + shift / 64)).toNat *
        2 ^ (shift % 64) % 2 ^ 64 +
      (a.source (index + shift / 64 + 1)).toNat / 2 ^ (64 - shift % 64) := by
  have hShift : shift % 64 < 64 := mod_lt _ (by decide)
  unfold shlLimb
  dsimp only
  split
  case isTrue hZero =>
    have hHigh := (a.source (index + shift / 64)).toNat_lt
    have hLow := (a.source (index + shift / 64 + 1)).toNat_lt
    rw [hZero, Nat.pow_zero, Nat.mul_one, mod_eq_of_lt hHigh, Nat.sub_zero,
      div_eq_of_lt hLow, Nat.add_zero]
  case isFalse hPos => exact toNat_shlWord _ _ hPos hShift

theorem source_mk (w x y z : UInt64) (hLen : [w, x, y, z].length = 4) (index : Nat) :
    source ⟨[w, x, y, z], hLen⟩ index = match index with
      | 0 => w
      | 1 => x
      | 2 => y
      | 3 => z
      | _ => 0 := by
  rcases index with _ | _ | _ | _ | index <;> rfl

variable {shift : Nat}

theorem toNat_shl (a : U256) (hShift : shift < 256) :
    toNat ⟨(List.range 4).map (a.shlLimb shift), by simp⟩ = a.toNat * 2 ^ shift % 2 ^ 256 := by
  rcases exists_limbs a with ⟨w, x, y, z, rfl⟩
  have hR : shift % 64 < 64 := mod_lt _ (by decide)
  have hX := limb_shift x.toNat hR.le
  have hY := limb_shift y.toNat hR.le
  have hZ := limb_shift z.toNat hR.le
  have hZero : (0 : UInt64).toNat = 0 := rfl
  have hLt := fun index =>
    (shlLimb ⟨[w, x, y, z], rfl⟩ shift index).toNat_lt
  have hLt0 := hLt 0
  have hLt1 := hLt 1
  have hLt2 := hLt 2
  have hLt3 := hLt 3
  have hPow : (2 : Nat) ^ shift = 2 ^ (shift % 64) * 2 ^ (64 * (shift / 64)) := by
    rw [← Nat.pow_add]
    congr 1
    omega
  have hRange : List.range 4 = [0, 1, 2, 3] := rfl
  simp only [hRange, map_cons, map_nil, toNat_mk]
  simp only [toNat_shlLimb] at hLt0 hLt1 hLt2 hLt3 ⊢
  have hValue :
      (w.toNat * 2 ^ 192 + x.toNat * 2 ^ 128 + y.toNat * 2 ^ 64 + z.toNat) * 2 ^ (shift % 64) =
        w.toNat * 2 ^ (shift % 64) * 2 ^ 192 + x.toNat * 2 ^ (shift % 64) * 2 ^ 128 +
          y.toNat * 2 ^ (shift % 64) * 2 ^ 64 + z.toNat * 2 ^ (shift % 64) := by
    ring
  rw [hPow, ← Nat.mul_assoc, hValue]
  have hQ : shift / 64 < 4 := by omega
  generalize shift % 64 = r at *
  generalize shift / 64 = q at *
  interval_cases q
  all_goals
    simp only [source_mk, Nat.zero_add, reduceAdd,
      reduceMul, hZero, Nat.zero_mul, Nat.zero_div, zero_mod] at hLt0 hLt1 hLt2 hLt3 ⊢
    generalize w.toNat * 2 ^ r = pw at *
    generalize x.toNat * 2 ^ r = px at *
    generalize y.toNat * 2 ^ r = py at *
    generalize z.toNat * 2 ^ r = pz at *
    clear hValue hPow hLt
    omega

theorem toNat_shrLimb (a : U256) (shift index : Nat) :
    (a.shrLimb shift index).toNat = (a.sourceBefore index (shift / 64)).toNat / 2 ^ (shift % 64) +
      (a.sourceBefore index (shift / 64 + 1)).toNat * 2 ^ (64 - shift % 64) % 2 ^ 64 := by
  have hShift : shift % 64 < 64 := mod_lt _ (by decide)
  unfold shrLimb
  dsimp only
  split
  case isTrue hZero =>
    rw [hZero, Nat.pow_zero, Nat.div_one, Nat.sub_zero, mul_mod_left, Nat.add_zero]
  case isFalse hPos =>
    have hBack : 64 - (64 - shift % 64) = shift % 64 := by omega
    have hWord := toNat_shlWord (a.sourceBefore index (shift / 64 + 1))
      (a.sourceBefore index (shift / 64)) (r := 64 - shift % 64) (by omega) (by omega)
    rw [hBack] at hWord
    rw [UInt64.or_comm, hWord, Nat.add_comm]

/- The two parts of a shifted limb fit one limb. -/
theorem shrWord_lt (high low : UInt64) (hShift : r < 64) :
    low.toNat / 2 ^ r + high.toNat * 2 ^ (64 - r) % 2 ^ 64 < 2 ^ 64 := by
  have hLimb := toNat_shrLimb ⟨[0, 0, high, low], rfl⟩ r 3
  rw [div_eq_of_lt hShift, mod_eq_of_lt hShift] at hLimb
  have hLt := (shrLimb ⟨[0, 0, high, low], rfl⟩ r 3).toNat_lt
  rwa [hLimb] at hLt

theorem toNat_shr (a : U256) (hShift : shift < 256) :
    toNat ⟨(List.range 4).map (a.shrLimb shift), by simp⟩ = a.toNat / 2 ^ shift := by
  rcases exists_limbs a with ⟨w, x, y, z, rfl⟩
  have hR : shift % 64 < 64 := mod_lt _ (by decide)
  have hBack : 64 - (64 - shift % 64) = shift % 64 := by omega
  have hSplit (v : Nat) := limb_shift v (sub_le 64 (shift % 64))
  rw [hBack] at hSplit
  have hW := hSplit w.toNat
  have hX := hSplit x.toNat
  have hY := hSplit y.toNat
  have hZ := hSplit z.toNat
  have hWX := shrWord_lt w x hR
  have hXY := shrWord_lt x y hR
  have hYZ := shrWord_lt y z hR
  have hZero : (0 : UInt64).toNat = 0 := rfl
  have hPow : (2 : Nat) ^ shift * 2 ^ (64 - shift % 64) = 2 ^ (64 * (shift / 64 + 1)) := by
    rw [← Nat.pow_add]
    congr 1
    omega
  have hRange : List.range 4 = [0, 1, 2, 3] := rfl
  have hValue :
      (w.toNat * 2 ^ 192 + x.toNat * 2 ^ 128 + y.toNat * 2 ^ 64 + z.toNat) * 2 ^ (64 - shift % 64) =
        w.toNat * 2 ^ (64 - shift % 64) * 2 ^ 192 + x.toNat * 2 ^ (64 - shift % 64) * 2 ^ 128 +
          y.toNat * 2 ^ (64 - shift % 64) * 2 ^ 64 + z.toNat * 2 ^ (64 - shift % 64) := by
    ring
  simp only [hRange, map_cons, map_nil, toNat_mk, toNat_shrLimb]
  have hDiv := Nat.mul_div_mul_right
    (w.toNat * 2 ^ 192 + x.toNat * 2 ^ 128 + y.toNat * 2 ^ 64 + z.toNat) (2 ^ shift)
    (Nat.two_pow_pos (64 - shift % 64))
  rw [← hDiv, hPow, hValue]
  have hQ : shift / 64 < 4 := by omega
  generalize shift % 64 = r at *
  generalize shift / 64 = q at *
  clear hValue hPow hSplit hDiv hBack
  interval_cases q
  all_goals
    simp only [sourceBefore, source_mk, reduceAdd,
      reduceMul, reduceSub, reduceLeDiff, if_true, if_false, hZero, Nat.zero_mul,
      Nat.zero_div, zero_mod, Nat.le_refl, Nat.zero_le, Nat.sub_zero]
    generalize w.toNat * 2 ^ (64 - r) = pw at *
    generalize x.toNat * 2 ^ (64 - r) = px at *
    generalize y.toNat * 2 ^ (64 - r) = py at *
    generalize z.toNat * 2 ^ (64 - r) = pz at *
    omega

theorem shl_eq (a : U256) (hShift : shift < 256) :
    (a.shl shift : Result ε U256) = .ok (ofNat (a.toNat * 2 ^ shift)) := by
  have hLt : shift < width := hShift
  simp only [shl, hLt, assert_true, ok_bind, pure_eq_ok]
  congr 1
  apply toNat_injective
  rw [toNat_shl a hShift, toNat_ofNat]

theorem shr_eq (a : U256) (hShift : shift < 256) :
    (a.shr shift : Result ε U256) = .ok (ofNat (a.toNat / 2 ^ shift)) := by
  have hLt : shift < width := hShift
  simp only [shr, hLt, assert_true, ok_bind, pure_eq_ok]
  congr 1
  exact eq_ofNat (toNat_shr a hShift)

--------
-- Sums, Differences, Products and Quotients
--------

theorem addStep_spec (digits : UInt64 × UInt64) (carry : Bool) :
    ∃ sum next, (addStep digits carry : Result ε (UInt64 × Bool)) = .ok (sum, next) ∧
      (sum.toNat : Int) + limbBase * (next.toNat : Int) =
        (digits.1.toNat + digits.2.toNat : Int) + carry.toNat := by
  refine ⟨_, _, rfl, ?_⟩
  have hA := digits.1.toNat_lt
  have hB := digits.2.toNat_lt
  have hCarry : carry.toUInt64.toNat = carry.toNat := by
    cases carry <;> rfl
  have hOne : carry.toNat ≤ 1 := by
    cases carry <;> decide
  simp only [UInt64.toNat_add, hCarry, limbBase]
  by_cases hFst : 2 ^ 64 ≤ digits.1.toNat + digits.2.toNat <;>
    by_cases hSnd : 2 ^ 64 ≤ (digits.1.toNat + digits.2.toNat) % 2 ^ 64 + carry.toNat <;>
    simp only [hFst, hSnd, decide_true, decide_false,
      Bool.or_true, Bool.or_false, toNat_true, toNat_false] <;>
    omega

theorem subStep_spec (digits : UInt64 × UInt64) (borrow : Bool) :
    ∃ difference next, (subStep digits borrow : Result ε (UInt64 × Bool)) = .ok (difference, next) ∧
      (difference.toNat : Int) + limbBase * (-(next.toNat : Int)) =
        (digits.1.toNat - digits.2.toNat : Int) + -(borrow.toNat : Int) := by
  refine ⟨_, _, rfl, ?_⟩
  have hA := digits.1.toNat_lt
  have hB := digits.2.toNat_lt
  have hBorrow : borrow.toUInt64.toNat = borrow.toNat := by
    cases borrow <;> rfl
  have hOne : borrow.toNat ≤ 1 := by
    cases borrow <;> decide
  simp only [UInt64.toNat_sub, hBorrow, limbBase]
  by_cases hFst : digits.1.toNat < digits.2.toNat <;>
    by_cases hSnd : (2 ^ 64 - digits.2.toNat + digits.1.toNat) % 2 ^ 64 < borrow.toNat <;>
    simp only [hFst, hSnd, decide_true, decide_false,
      Bool.or_true, Bool.or_false, toNat_true, toNat_false] <;>
    omega

/- The digits of a sum and of a difference add up. -/
theorem signedValue_zip (a b : U256) (sign : Int) :
    Limbs.signedValue limbBase
      ((a.val.zip b.val).map fun digits => (digits.1.toNat : Int) + sign * digits.2.toNat) =
      (a.toNat : Int) + sign * b.toNat := by
  rcases exists_limbs a with ⟨w, x, y, z, rfl⟩
  rcases exists_limbs b with ⟨w', x', y', z', rfl⟩
  simp only [zip_cons_cons, zip_nil_left, map_cons, map_nil, Limbs.signedValue,
    length_cons, length_nil, toNat_mk, limbBase]
  push_cast
  ring

/- What a carry loop over the limbs leaves. -/
theorem toNat_scan
    {limbs : { limbs : List UInt64 // limbs.length = n }} {carry total : Int} (hn : n = 4)
    (hLen : limbs.val.length = 4) (hValue : (Limbs.value limbBase (limbs.val.map UInt64.toNat) :
      Int) + (limbBase : Int) ^ n * carry = total) :
    (toNat ⟨limbs.val, hLen⟩ : Int) + 2 ^ 256 * carry = total := by
  subst hn
  rw [← hValue]
  norm_num [toNat, limbBase]

theorem checkedAdd_eq (a b : U256) :
    (a.checkedAdd b : Result ε (Option U256)) = .ok (if a.toNat + b.toNat < 2 ^ 256 then
        some (ofNat (a.toNat + b.toNat)) else none) := by
  have hDigits : (a.val.zip b.val).length = 4 := by simp [a.property, b.property]
  rcases @Limbs.scanUp_spec ε _ _ _ limbBase addStep UInt64.toNat
      (fun digits => digits.1.toNat + 1 * digits.2.toNat) (fun carry => carry.toNat) (fun _ => True)
      (a.val.zip b.val) false trivial (by
        intro digits _ carry _
        rcases addStep_spec digits carry with ⟨sum, next, hStep, hEq⟩
        exact ⟨sum, next, hStep, trivial, by
          rw [hEq]; ring⟩) with
    ⟨limbs, last, hScan, _, hValue⟩
  rw [signedValue_zip] at hValue
  have hLen := limbs.property.trans hDigits
  have hSum := toNat_scan hDigits hLen hValue
  have hLt := toNat_lt ⟨limbs.val, hLen⟩
  simp only [checkedAdd, hScan, ok_bind]
  cases last with
  | true =>
    rw [if_pos rfl, if_neg (by simp at hSum; omega)]
    rfl
  | false =>
    have hEq : a.toNat + b.toNat = toNat ⟨limbs.val, hLen⟩ := by
      simp at hSum
      omega
    rw [if_neg (by decide), if_pos (hEq ▸ hLt), hEq, ofNat_toNat]
    rfl

theorem sub_eq {b : U256} (hLe : b.toNat ≤ a.toNat) :
    (a.sub b : Result ε U256) = .ok (ofNat (a.toNat - b.toNat)) := by
  have hDigits : (a.val.zip b.val).length = 4 := by simp [a.property, b.property]
  rcases @Limbs.scanUp_spec ε _ _ _ limbBase subStep UInt64.toNat
      (fun digits => digits.1.toNat + -1 * digits.2.toNat)
      (fun borrow => -borrow.toNat) (fun _ => True)
      (a.val.zip b.val) false trivial (by
        intro digits _ borrow _
        rcases subStep_spec digits borrow with ⟨difference, next, hStep, hEq⟩
        exact ⟨difference, next, hStep, trivial, by
          rw [hEq]; ring⟩) with
    ⟨limbs, last, hScan, _, hValue⟩
  rw [signedValue_zip] at hValue
  have hLen := limbs.property.trans hDigits
  have hDifference := toNat_scan hDigits hLen hValue
  have hLt := toNat_lt ⟨limbs.val, hLen⟩
  have hNoBorrow : last = false := by
    cases last with
    | false => rfl
    | true =>
      simp at hDifference
      omega
  subst hNoBorrow
  have hEq : a.toNat - b.toNat = toNat ⟨limbs.val, hLen⟩ := by
    simp at hDifference
    omega
  simp only [sub, (lt_eq_false_iff a b).mpr hLe,
    assert_true, hScan, ok_bind, pure_eq_ok, hEq, ofNat_toNat]

/- A carry below the base keeps the product in 128 bits. -/
theorem mulStep_spec (factor a : UInt64) {carry : Nat} (hCarry : carry < limbBase) :
    ∃ limb next, (mulStep factor a carry : Result ε (UInt64 × Nat)) = .ok (limb, next) ∧
      next < limbBase ∧ limb.toNat + limbBase * next = a.toNat * factor.toNat + carry := by
  have hProduct : a.toNat * factor.toNat + carry < 2 ^ 128 := by
    have hMul : a.toNat * factor.toNat ≤ (2 ^ 64 - 1) * (2 ^ 64 - 1) :=
      Nat.mul_le_mul (le_pred_of_lt a.toNat_lt) (le_pred_of_lt factor.toNat_lt)
    unfold limbBase at hCarry
    omega
  refine ⟨UInt64.ofNat ((a.toNat * factor.toNat + carry) &&& (limbBase - 1)),
    (a.toNat * factor.toNat + carry) >>> 64, ?_, ?_, ?_⟩
  · simp only [mulStep, hProduct, assert_true, ok_bind, pure_eq_ok]
  · rw [shiftRight_eq_div_pow]
    unfold limbBase
    omega
  · rw [shiftRight_eq_div_pow, limbBase, and_two_pow_sub_one_eq_mod, UInt64.toNat_ofNat']
    omega

theorem signedValue_mul (a : U256) (factor : Nat) :
    Limbs.signedValue limbBase (a.val.map fun limb => ((limb.toNat * factor : Nat) : Int)) =
      ((a.toNat * factor : Nat) : Int) := by
  rcases exists_limbs a with ⟨w, x, y, z, rfl⟩
  simp only [map_cons, map_nil, Limbs.signedValue, length_cons, length_nil, toNat_mk, limbBase]
  push_cast
  ring

theorem checkedMulU64_eq (a : U256) (factor : UInt64) :
    (a.checkedMulU64 factor : Result ε (Option U256)) =
      .ok (if a.toNat * factor.toNat < 2 ^ 256 then
        some (ofNat (a.toNat * factor.toNat)) else none) := by
  rcases @Limbs.scanUp_spec ε _ _ _ limbBase (mulStep factor) UInt64.toNat
      (fun limb => ((limb.toNat * factor.toNat : Nat) : Int))
      (fun carry => carry) (fun carry => carry < limbBase)
      a.val 0 (by decide) (by
        intro limb _ carry hCarry
        rcases mulStep_spec factor limb hCarry with ⟨low, next, hStep, hNext, hEq⟩
        exact ⟨low, next, hStep, hNext, by
          exact_mod_cast hEq⟩) with
    ⟨limbs, last, hScan, _, hValue⟩
  rw [signedValue_mul] at hValue
  have hLen := limbs.property.trans a.property
  have hProduct := toNat_scan a.property hLen hValue
  have hLt := toNat_lt ⟨limbs.val, hLen⟩
  simp only [checkedMulU64, hScan, ok_bind]
  by_cases hLast : last = 0
  · have hEq : a.toNat * factor.toNat = toNat ⟨limbs.val, hLen⟩ := by
      rw [hLast] at hProduct
      omega
    rw [if_neg (by simp [hLast]), if_pos (hEq ▸ hLt), hEq, ofNat_toNat]
    rfl
  · rw [if_pos hLast, if_neg (by omega)]
    rfl

theorem divStep_spec (a : UInt64) {remainder : Nat} (hRem : remainder < divisor.toNat) :
    ∃ limb next, (divStep divisor a remainder : Result ε (UInt64 × Nat)) = .ok (limb, next) ∧
      next < divisor.toNat ∧
      divisor.toNat * limb.toNat + next = remainder * limbBase + a.toNat := by
  have hDivisor := divisor.toNat_lt
  have hA := a.toNat_lt
  have hOr : remainder <<< 64 ||| a.toNat = remainder * limbBase + a.toNat := by
    rw [shiftLeft_eq, Nat.mul_comm, ← two_pow_add_eq_or_of_lt hA]
  have hCurrent : remainder * limbBase + a.toNat < 2 ^ 128 := by
    unfold limbBase
    omega
  have hQuot : (remainder * limbBase + a.toNat) / divisor.toNat < limbBase := by
    rw [Nat.div_lt_iff_lt_mul (by omega)]
    calc remainder * limbBase + a.toNat
        < (remainder + 1) * limbBase := by
          unfold limbBase
          omega
      _ ≤ limbBase * divisor.toNat := by
          rw [Nat.mul_comm]
          exact Nat.mul_le_mul_left _ hRem
  refine ⟨UInt64.ofNat ((remainder * limbBase + a.toNat) / divisor.toNat),
    (remainder * limbBase + a.toNat) % divisor.toNat, ?_, mod_lt _ (by omega), ?_⟩
  · simp only [divStep, hOr, hCurrent, hQuot, assert_true, ok_bind, pure_eq_ok]
  · rw [UInt64.toNat_ofNat', mod_eq_of_lt hQuot]
    exact div_add_mod _ _

theorem divU64_eq (a : U256) (hDivisor : 0 < divisor.toNat) :
    (a.divU64 divisor : Result ε U256) = .ok (ofNat (a.toNat / divisor.toNat)) := by
  rcases @Limbs.scanDown_spec ε _ _ limbBase divisor.toNat
      (divStep divisor) UInt64.toNat UInt64.toNat a.val 0
      hDivisor (fun limb _ _ hRem => divStep_spec limb hRem) with
    ⟨limbs, last, hScan, hLast, hValue⟩
  have hLen := limbs.property.trans a.property
  have hQuot : a.toNat / divisor.toNat = toNat ⟨limbs.val, hLen⟩ := by
    rw [Nat.zero_mul, Nat.zero_add] at hValue
    exact (Nat.div_mod_unique hDivisor).mpr ⟨by rw [Nat.add_comm]; exact hValue, hLast⟩ |>.1
  have hPos : (0 : UInt64) < divisor := hDivisor
  simp only [divU64, hPos, assert_true, hScan, ok_bind, pure_eq_ok, hQuot, ofNat_toNat]

--------
-- The Long Division
--------

/- The bits of a word that is not zero, above low limbs. -/
theorem size_limb {limb low count : Nat} (hLimb : limb ≠ 0) (hLow : low < 2 ^ count) :
    Nat.size (limb * 2 ^ count + low) = count + limb.log2 + 1 := by
  have hLower := log2_self_le hLimb
  have hUpper : limb + 1 ≤ 2 ^ (limb.log2 + 1) := lt_log2_self
  apply Nat.le_antisymm
  · rw [size_le]
    calc limb * 2 ^ count + low
        < (limb + 1) * 2 ^ count := by
          rw [Nat.add_mul, Nat.one_mul]
          omega
      _ ≤ 2 ^ (limb.log2 + 1) * 2 ^ count := Nat.mul_le_mul_right _ hUpper
      _ = 2 ^ (count + limb.log2 + 1) := by
          rw [← Nat.pow_add]
          congr 1
          omega
  · rw [succ_le_iff, lt_size]
    calc 2 ^ (count + limb.log2)
        = 2 ^ limb.log2 * 2 ^ count := by
          rw [← Nat.pow_add, Nat.add_comm]
      _ ≤ limb * 2 ^ count := Nat.mul_le_mul_right _ hLower
      _ ≤ limb * 2 ^ count + low := Nat.le_add_right _ _

theorem bitsFrom_eq (limbs : List UInt64) :
    bitsFrom limbs = Nat.size (Limbs.value limbBase (limbs.map UInt64.toNat)) := by
  induction limbs with
  | nil => rfl
  | cons limb rest ih =>
    rw [bitsFrom, map_cons, Limbs.value_cons, length_map, ← Nat.pow_mul]
    by_cases hZero : limb = 0
    · simp [hZero, ih]
    have hLimb : limb.toNat ≠ 0 := fun hEq =>
      hZero (UInt64.toNat_inj.mp hEq)
    have hLow : Limbs.value limbBase (rest.map UInt64.toNat) < 2 ^ (64 * rest.length) := by
      have hLt := Limbs.value_lt (limbs_lt rest)
      rwa [length_map, ← Nat.pow_mul] at hLt
    have hLog : limb.toNat.log2 < 64 := (log2_lt hLimb).mpr limb.toNat_lt
    rw [if_pos hZero, size_limb hLimb hLow, leadingZeros, if_neg hZero]
    omega

theorem bits_eq (a : U256) : a.bits = a.toNat.size :=
  bitsFrom_eq a.val

/- The limb that holds a bit, and what replacing it does. -/
theorem source_eq (a : U256) {back : Nat} (hBack : back < 4) :
    (a.source (3 - back)).toNat = a.toNat / 2 ^ (64 * back) % 2 ^ 64 := by
  rcases exists_limbs a with ⟨w, x, y, z, rfl⟩
  have hW := w.toNat_lt
  have hX := x.toNat_lt
  have hY := y.toNat_lt
  have hZ := z.toNat_lt
  rw [toNat_mk, source_mk]
  interval_cases back <;> simp <;> omega

theorem toNat_set (a : U256) {back : Nat} (hBack : back < 4) (limb : UInt64)
    (hLen : (a.val.set (3 - back) limb).length = 4) :
    toNat ⟨a.val.set (3 - back) limb, hLen⟩ + (a.source (3 - back)).toNat * 2 ^ (64 * back) =
      a.toNat + limb.toNat * 2 ^ (64 * back) := by
  rcases exists_limbs a with ⟨w, x, y, z, rfl⟩
  rw [toNat_mk, source_mk]
  interval_cases back <;> simp only [reduceSub, set_cons_zero, set_cons_succ, toNat_mk] <;> omega

/- A word whose low bits are zero gains the bit. -/
theorem toNat_or_bit (limb : UInt64) {bit : Nat} (hBit : bit < 64)
    (hLow : 2 ^ (bit + 1) ∣ limb.toNat) :
    (limb ||| ((1 : UInt64) <<< UInt64.ofNat bit)).toNat = limb.toNat + 2 ^ bit := by
  have hShift : ((1 : UInt64) <<< UInt64.ofNat bit).toNat = 2 ^ bit := by
    have hPow : 2 ^ bit < 2 ^ 64 := Nat.pow_lt_pow_right (by decide) hBit
    rw [UInt64.toNat_shiftLeft, UInt64.toNat_ofNat', mod_eq_of_lt (by omega : bit < 2 ^ 64),
      mod_eq_of_lt hBit, shiftLeft_eq]
    simpa using mod_eq_of_lt hPow
  rcases hLow with ⟨high, hHigh⟩
  rw [UInt64.toNat_or, hShift, hHigh,
    two_pow_add_eq_or_of_lt (Nat.pow_lt_pow_right (by decide) (lt_succ_self bit))]

theorem setBit_eq (a : U256) {bit : Nat} (hBit : bit < 256) (hLow : 2 ^ (bit + 1) ∣ a.toNat) :
    (a.setBit bit : Result ε U256) = .ok (ofNat (a.toNat + 2 ^ bit)) := by
  have hWidth : bit < width := hBit
  have hBack : bit / 64 < 4 := by omega
  have hInner : bit % 64 < 64 := mod_lt _ (by decide)
  have hSplit : 64 * (bit / 64) + (bit % 64 + 1) = bit + 1 := by omega
  have hLimb : 2 ^ (bit % 64 + 1) ∣ (a.source (3 - bit / 64)).toNat := by
    rw [source_eq a hBack]
    have hPow : 2 ^ (bit % 64 + 1) ∣ 2 ^ 64 := Nat.pow_dvd_pow 2 hInner
    rw [dvd_mod_iff hPow]
    apply dvd_div_of_mul_dvd
    rwa [← Nat.pow_add, hSplit]
  have hSet := toNat_set a hBack
    (a.source (3 - bit / 64) ||| ((1 : UInt64) <<< UInt64.ofNat (bit % 64)))
    (by simp [a.property])
  rw [toNat_or_bit _ hInner hLimb, Nat.add_mul, ← Nat.pow_add] at hSet
  have hBitEq : bit % 64 + 64 * (bit / 64) = bit := by omega
  rw [hBitEq] at hSet
  simp only [setBit, hWidth, assert_true, ok_bind, pure_eq_ok]
  congr 1
  apply eq_ofNat
  omega

/-
  One position of the long division: the remainder stays below the divisor at that position, and the
  quotient keeps the lower positions free.
-/
theorem divLoop_spec {dividend count : Nat} (divisor : U256) {remainder quotient : U256}
    (hCount : count ≤ 256) (hFits : ∀ shift < count, divisor.toNat * 2 ^ shift < 2 ^ 256)
    (hRem : remainder.toNat < divisor.toNat * 2 ^ count) (hFree : 2 ^ count ∣ quotient.toNat)
    (hEq : quotient.toNat * divisor.toNat + remainder.toNat = dividend)
    (hDividend : dividend < 2 ^ 256) :
    ∃ last result,
      (divLoop divisor count remainder quotient : Result ε (U256 × U256)) = .ok (last, result) ∧
        last.toNat < divisor.toNat ∧ result.toNat * divisor.toNat + last.toNat = dividend := by
  induction count generalizing remainder quotient with
  | zero =>
    exact ⟨remainder, quotient, rfl, by
      simpa using hRem, hEq⟩
  | succ shift ih =>
    have hShift : shift < 256 := hCount
    have hShifted : (ofNat (divisor.toNat * 2 ^ shift)).toNat = divisor.toNat * 2 ^ shift :=
      toNat_ofNat_of_lt (hFits shift (lt_succ_self _))
    have hFits' : ∀ lower < shift, divisor.toNat * 2 ^ lower < 2 ^ 256 :=
      fun lower hLower => hFits lower (by omega)
    have hFree' : 2 ^ shift ∣ quotient.toNat := (Nat.pow_dvd_pow 2 (le_succ _)).trans hFree
    simp only [divLoop, shl_eq divisor hShift, ok_bind]
    by_cases hLess : remainder.toNat < divisor.toNat * 2 ^ shift
    · have hLt : remainder.lt (ofNat (divisor.toNat * 2 ^ shift)) = true := by
        rwa [lt_iff, hShifted]
      rw [if_neg (by simp [hLt])]
      exact ih (by omega) hFits' hLess hFree' hEq
    · have hLe : (ofNat (divisor.toNat * 2 ^ shift)).toNat ≤ remainder.toNat := by
        rw [hShifted]
        exact Nat.not_lt.mp hLess
      rw [if_pos ((lt_eq_false_iff _ _).mpr hLe), sub_eq hLe, ok_bind,
        setBit_eq quotient hShift hFree, ok_bind, hShifted]
      rw [hShifted] at hLe
      have hRest : (ofNat (remainder.toNat - divisor.toNat * 2 ^ shift)).toNat =
          remainder.toNat - divisor.toNat * 2 ^ shift :=
        toNat_ofNat_of_lt (Nat.lt_of_le_of_lt (sub_le _ _) remainder.toNat_lt)
      have hPos : 0 < divisor.toNat := by
        rcases Nat.eq_zero_or_pos divisor.toNat with hZero | hPos
        · simp [hZero] at hRem
        · exact hPos
      have hNext : (quotient.toNat + 2 ^ shift) * divisor.toNat +
            (remainder.toNat - divisor.toNat * 2 ^ shift) =
          dividend := by
        rw [Nat.add_mul, Nat.mul_comm (2 ^ shift)]
        omega
      have hQuot : (ofNat (quotient.toNat + 2 ^ shift)).toNat = quotient.toNat + 2 ^ shift := by
        apply toNat_ofNat_of_lt
        have hMul := Nat.le_mul_of_pos_right (quotient.toNat + 2 ^ shift) hPos
        omega
      apply ih (by omega) hFits'
      · rw [hRest]
        rw [Nat.pow_succ] at hRem
        have hDouble : divisor.toNat * (2 ^ shift * 2) =
            divisor.toNat * 2 ^ shift + divisor.toNat * 2 ^ shift := by
          ring
        omega
      · rw [hQuot]
        exact Nat.dvd_add hFree' (Nat.dvd_refl _)
      · rwa [hQuot, hRest]

theorem div_eq (a : U256) {divisor : U256} (hDivisor : 0 < divisor.toNat) :
    (a.div divisor : Result ε U256) = .ok (ofNat (a.toNat / divisor.toNat)) := by
  have hZero : divisor.isZero = false := by
    rw [← not_eq_true, isZero_iff]
    omega
  have hSize := lt_size_self a.toNat
  have hTop : 2 ^ (divisor.toNat.size - 1) ≤ divisor.toNat :=
    lt_size.mp (sub_lt (Nat.size_pos.mpr hDivisor) Nat.one_pos)
  simp only [div, hZero, assert_true, ok_bind, bits_eq]
  by_cases hLess : a.toNat.size < divisor.toNat.size
  · have hLt : a.toNat < divisor.toNat := by
      calc a.toNat < 2 ^ a.toNat.size := hSize
        _ ≤ 2 ^ (divisor.toNat.size - 1) := Nat.pow_le_pow_right (by decide) (by omega)
        _ ≤ divisor.toNat := hTop
    rw [if_pos hLess, div_eq_of_lt hLt]
    rfl
  · have hWidth : a.toNat.size ≤ 256 := size_le.mpr a.toNat_lt
    have hPos : 0 < divisor.toNat.size := Nat.size_pos.mpr hDivisor
    rw [if_neg hLess]
    -- the divisor, moved under the dividend's top bit, is at
    -- most as wide as the dividend
    rcases @divLoop_spec ε a.toNat (a.toNat.size - divisor.toNat.size + 1) divisor a zero
        (by omega) (by
          intro shift hShift
          calc divisor.toNat * 2 ^ shift
              < 2 ^ divisor.toNat.size * 2 ^ shift :=
                Nat.mul_lt_mul_of_pos_right (lt_size_self _) (Nat.two_pow_pos _)
            _ = 2 ^ (divisor.toNat.size + shift) := (Nat.pow_add ..).symm
            _ ≤ 2 ^ 256 := Nat.pow_le_pow_right (by decide) (by omega))
        (by
          calc a.toNat < 2 ^ a.toNat.size := hSize
            _ = 2 ^ (divisor.toNat.size - 1) * 2 ^ (a.toNat.size - divisor.toNat.size + 1) := by
                rw [← Nat.pow_add]
                congr 1
                omega
            _ ≤ divisor.toNat * 2 ^ (a.toNat.size - divisor.toNat.size + 1) :=
                Nat.mul_le_mul_right _ hTop)
        (by simp) (by simp) a.toNat_lt with
      ⟨last, result, hLoop, hLast, hEq⟩
    have hQuot : a.toNat / divisor.toNat = result.toNat := by
      rw [← hEq, Nat.mul_comm, mul_add_div hDivisor, div_eq_of_lt hLast, Nat.add_zero]
    have hDone : last.lt divisor = true := (lt_iff _ _).mpr hLast
    simp only [hLoop, ok_bind, hDone, assert_true, pure_eq_ok, hQuot, ofNat_toNat]

--------
-- All of It
--------

/- It returns, and what it returns stands for this number. -/
def Gives (x : Result Empty U256) (n : Nat) : Prop :=
  ∃ c, x = .ok c ∧ c.toNat = n

/- The same of a checked operation, which stays below the width. -/
def GivesBelow (x : Result Empty (Option U256)) (n : Nat) : Prop :=
  if n < 2 ^ 256 then ∃ c, x = .ok (some c) ∧ c.toNat = n
  else x = .ok none

theorem gives_ofNat (hFits : n < 2 ^ 256) : Gives (.ok (ofNat n)) n :=
  ⟨_, rfl, toNat_ofNat_of_lt hFits⟩

theorem givesBelow_ofNat (n : Nat) :
    GivesBelow (.ok (if n < 2 ^ 256 then some (ofNat n) else none)) n := by
  unfold GivesBelow
  split
  case isTrue hFits => exact ⟨_, rfl, toNat_ofNat_of_lt hFits⟩
  case isFalse => rfl

/- The operations are those of the natural numbers. -/
theorem operations_exact (a b : U256) (factor divisor : UInt64) (shift : Nat) :
    a.bits = a.toNat.size ∧
      (shift < 256 →
        Gives (a.shl shift) (a.toNat * 2 ^ shift % 2 ^ 256) ∧
          Gives (a.shr shift) (a.toNat / 2 ^ shift)) ∧
      GivesBelow (a.checkedAdd b) (a.toNat + b.toNat) ∧
      GivesBelow (a.checkedMulU64 factor) (a.toNat * factor.toNat) ∧
      (b.toNat ≤ a.toNat → Gives (a.sub b) (a.toNat - b.toNat)) ∧
      (0 < divisor → Gives (a.divU64 divisor) (a.toNat / divisor.toNat)) ∧
      (0 < b.toNat → Gives (a.div b) (a.toNat / b.toNat)) ∧
      (a.lt b ↔ a.toNat < b.toNat) := by
  have hBelow {n : Nat} (hLe : n ≤ a.toNat) : Gives (.ok (ofNat n)) n :=
    gives_ofNat (hLe.trans_lt a.toNat_lt)
  refine ⟨a.bits_eq, ?_, ?_, ?_, ?_, ?_, ?_, a.lt_iff b⟩
  · intro hShift
    rw [shl_eq a hShift, shr_eq a hShift]
    exact ⟨⟨_, rfl, toNat_ofNat _⟩, hBelow (Nat.div_le_self _ _)⟩
  · rw [checkedAdd_eq]
    exact givesBelow_ofNat _
  · rw [checkedMulU64_eq]
    exact givesBelow_ofNat _
  · intro hLe
    rw [sub_eq hLe]
    exact hBelow (sub_le _ _)
  · intro hPos
    rw [divU64_eq a hPos]
    exact hBelow (Nat.div_le_self _ _)
  · intro hPos
    rw [div_eq a hPos]
    exact hBelow (Nat.div_le_self _ _)

--------
-- Bytes
--------

/- The number of a big-endian string. -/
def beNat (bytes : FixedBytes 32) : Nat :=
  LittleEndian.decode bytes.val.reverse

theorem beNat_lt (bytes : FixedBytes 32) : beNat bytes < 2 ^ 256 := by
  have hLt := decode_lt bytes.val.reverse
  rwa [length_reverse, bytes.property] at hLt

theorem beNat_injective {a b : FixedBytes 32} (hValue : beNat a = beNat b) : a = b := by
  have hA := encode_decode a.val.reverse
  have hB := encode_decode b.val.reverse
  rw [length_reverse, a.property] at hA
  rw [length_reverse, b.property] at hB
  have hReverse : a.val.reverse = b.val.reverse := by
    rw [← hA, ← hB]
    exact congrArg _ hValue
  exact Subtype.ext (reverse_injective hReverse)

theorem toNat_limbAt (bytes : Bytes) (start : Nat) :
    (limbAt bytes start).toNat = LittleEndian.decode ((bytes.drop start).take 8).reverse := by
  have hLt := decode_lt ((bytes.drop start).take 8).reverse
  have hLen : ((bytes.drop start).take 8).reverse.length ≤ 8 := by simp
  have hPow := Nat.pow_le_pow_right (show 0 < 256 by decide) hLen
  rw [limbAt, UInt64.toNat_ofNat', mod_eq_of_lt]
  exact Nat.lt_of_lt_of_le hLt hPow

theorem toNat_fromBeBytes (bytes : FixedBytes 32) : (fromBeBytes bytes).toNat = beNat bytes := by
  rcases bytes with ⟨bytes, hLen⟩
  have hSplit : bytes = (bytes.drop 0).take 8 ++ ((bytes.drop 8).take 8 ++
      ((bytes.drop 16).take 8 ++ (bytes.drop 24).take 8)) := by
    have hLast : (bytes.drop 24).take 8 = bytes.drop 24 :=
      take_of_length_le (by simp [hLen])
    have hJoin (n : Nat) : (bytes.drop n).take 8 ++ bytes.drop (n + 8) = bytes.drop n := by
      rw [← drop_drop, take_append_drop]
    rw [hLast, hJoin 16, hJoin 8, hJoin 0, drop_zero]
  rw [fromBeBytes, toNat_mk, beNat]
  simp only [toNat_limbAt]
  conv_rhs => rw [hSplit]
  simp only [reverse_append, decode_append,
    append_assoc, length_reverse, length_take, length_drop, hLen]
  norm_num
  ring

theorem decode_limbBytes (limb : UInt64) :
    LittleEndian.decode (limbBytes limb).reverse = limb.toNat := by
  rw [limbBytes, reverse_reverse, decode_encode_of_lt]
  exact limb.toNat_lt

theorem beNat_toBeBytes (a : U256) : beNat a.toBeBytes = a.toNat := by
  rcases exists_limbs a with ⟨w, x, y, z, rfl⟩
  have hLen (limb : UInt64) : (limbBytes limb).length = 8 := by simp [limbBytes]
  simp only [beNat, toBeBytes, flatMap_cons, flatMap_nil, append_nil, reverse_append,
    decode_append, append_assoc,
    length_reverse, hLen, decode_limbBytes, toNat_mk]
  norm_num
  ring

end U256

end Bitmigo
