import Bitmigo.Store.Reader

/-
  The variable-length integers of the store.

  Key definitions include:
    * `Arith`, the steps a saturating computation takes
    * `StoreReader.varint` and `putVarint`
    * `varintBytes`, the bytes of a value

  Key theorems include:
    * `putVarint_eq`
    * `StoreReader.varint_eq_ok`
    * `varint_exact`

  Each group that another one follows stands for one more than its seven bits, so no value has two
  encodings. The reader goes through the groups from the most significant one and the writer from
  the least significant one.
-/

namespace Bitmigo

open Result List Nat

--------
-- Saturating Steps
--------

/- Steps on `u64`s that are exact where their result fits; `none` is a panic. -/
structure Arith where
  add : Nat → Nat → Option Nat
  sub : Nat → Nat → Option Nat
  mul : Nat → Nat → Option Nat
  add_exact : ∀ a b, a + b < 2 ^ 64 → add a b = some (a + b)
  sub_exact : ∀ a b, b ≤ a → sub a b = some (a - b)
  mul_exact : ∀ a b, a * b < 2 ^ 64 → mul a b = some (a * b)

/- The steps of the code: `saturating_add` and the like. -/
def Arith.saturating : Arith where
  add a b := some (min (a + b) (2 ^ 64 - 1))
  sub a b := some (a - b)
  mul a b := some (min (a * b) (2 ^ 64 - 1))
  add_exact a b hFits := by rw [Nat.min_eq_left (by omega)]
  sub_exact _ _ _ := rfl
  mul_exact a b hFits := by rw [Nat.min_eq_left (by omega)]

/- The same steps, with a panic where one would saturate. -/
def Arith.strict : Arith where
  add a b := if a + b < 2 ^ 64 then some (a + b) else none
  sub a b := if b ≤ a then some (a - b) else none
  mul a b := if a * b < 2 ^ 64 then some (a * b) else none
  add_exact _ _ hFits := if_pos hFits
  sub_exact _ _ hFits := if_pos hFits
  mul_exact _ _ hFits := if_pos hFits

--------
-- Reading and Writing
--------

/- The turns of the reader's loop that are left. -/
def StoreReader.varintFrom (A : Arith) :
    Nat → Nat → StoreReader Nat
  | 0, _ => Program.fail .badVarint
  | turns + 1, value => do
      let byte ← u8
      if (2 ^ 64 - 1) >>> 7 < value then
        Program.fail .badVarint
      else
        let value := value <<< 7 ||| (byte &&& 0x7f).toNat
        if byte &&& 0x80 = 0 then
          return value
        else if value = 2 ^ 64 - 1 then
          Program.fail .badVarint
        else do
          let next ← Program.lift (expect (A.add value 1))
          varintFrom A turns next

/- The next varint. -/
def StoreReader.varint (A : Arith) : StoreReader Nat :=
  varintFrom A 10 0

/-
  The writer's loop: the last group's place and the groups, most significant first. A group past the
  tenth has no slot.
-/
def groupsFrom {ε : Type} (A : Arith) :
    Nat → Nat → Nat → Bytes → Result ε (Nat × Bytes)
  | 0, _, _, _ => panicked
  | fuel + 1, length, left, groups => do
      let flag : UInt8 := if length = 0 then 0x00 else 0x80
      let group := UInt8.ofNat (left &&& 0x7f)
      let groups :=
        if length < 10 then (group ||| flag) :: groups else groups
      if left ≤ 0x7f then
        return (length, groups)
      else
        let next ← expect (A.sub (left >>> 7) 1)
        groupsFrom A fuel (length + 1) next groups

/- The encoding of `value`; the loop halves what is left. -/
def putVarint {ε : Type} (A : Arith) (value : Nat) : Result ε Bytes := do
  let (length, groups) ← groupsFrom A 64 0 value []
  assert (length < 10)
  return groups

--------
-- The Bytes of a Value
--------

/- The groups that stand for `n` before a last group. -/
def leadingGroups (n : Nat) : Bytes :=
  if n = 0 then []
  else
    leadingGroups ((n - 1) / 128) ++ [UInt8.ofNat (128 + (n - 1) % 128)]
termination_by n
decreasing_by omega

/- The bytes of a value. -/
def varintBytes (value : Nat) : Bytes :=
  leadingGroups (value / 128) ++ [UInt8.ofNat (value % 128)]

theorem leadingGroups_succ (n : Nat) :
    leadingGroups (n + 1) = leadingGroups (n / 128) ++ [UInt8.ofNat (128 + n % 128)] := by
  rw [leadingGroups, if_neg (succ_ne_zero n), Nat.add_sub_cancel]

theorem length_leadingGroups_le {k n : Nat} (hFits : n < 2 ^ (7 * k)) :
    (leadingGroups n).length ≤ k := by
  induction k generalizing n with
  | zero =>
    obtain rfl : n = 0 := by omega
    simp [leadingGroups]
  | succ k ih =>
    cases n with
    | zero => simp [leadingGroups]
    | succ n =>
      have hPow : 2 ^ (7 * (k + 1)) = 2 ^ (7 * k) * 128 := by rw [Nat.mul_add, Nat.pow_add]
      rw [leadingGroups_succ, length_append]
      exact succ_le_succ (ih (by omega))

/- What some leading groups make of the value before them. -/
def leadingValue (value : Nat) (groups : Bytes) : Nat :=
  groups.foldl (fun value byte => value * 128 + (byte.toNat - 127)) value

theorem leadingValue_cons (value : Nat) (byte : UInt8) (groups : Bytes) :
    leadingValue value (byte :: groups) =
      leadingValue (value * 128 + (byte.toNat - 127)) groups := by
  rw [leadingValue, foldl_cons, leadingValue]

theorem le_leadingValue (value : Nat) (groups : Bytes) : value ≤ leadingValue value groups := by
  induction groups generalizing value with
  | nil => exact le_rfl
  | cons byte rest ih =>
    have hRest := ih (value * 128 + (byte.toNat - 127))
    rw [leadingValue_cons]
    omega

/- Groups with the high bit are those of the number they stand for, and of no other. -/
theorem eq_leadingGroups_iff {n : Nat} {groups : Bytes} :
    groups = leadingGroups n ↔ (∀ byte ∈ groups, 128 ≤ byte.toNat) ∧ leadingValue 0 groups = n := by
  induction groups using reverseRecOn generalizing n with
  | nil =>
    cases n with
    | zero => simp [leadingGroups, leadingValue]
    | succ n => simp [leadingGroups_succ, leadingValue]
  | append_singleton front byte ih =>
    have hByte := byte.toNat_lt
    have hValue :
        leadingValue 0 (front ++ [byte]) = leadingValue 0 front * 128 + (byte.toNat - 127) := by
      rw [leadingValue, foldl_append]
      rfl
    rw [hValue]
    cases n with
    | zero =>
      have hNil : front ++ [byte] ≠ leadingGroups 0 := by simp [leadingGroups]
      simp only [hNil, false_iff]
      rintro ⟨hHigh, hZero⟩
      have hLast := hHigh byte (by simp)
      omega
    | succ n =>
      have hLast :
          byte = UInt8.ofNat (128 + n % 128) ↔ 128 ≤ byte.toNat ∧ byte.toNat = 128 + n % 128 := by
        rw [← UInt8.toNat_inj, UInt8.toNat_ofNat']
        omega
      rw [leadingGroups_succ, append_singleton_inj, ih, hLast]
      simp only [mem_append, mem_singleton, or_imp, forall_and, forall_eq]
      constructor
      · rintro ⟨⟨hFront, hRest⟩, hHigh, hGroup⟩
        exact ⟨⟨hFront, hHigh⟩, by omega⟩
      · rintro ⟨⟨hFront, hHigh⟩, hWhole⟩
        exact ⟨⟨hFront, by omega⟩, hHigh, by omega⟩

--------
-- The Writer
--------

section

variable {ε : Type} (A : Arith)

/- The low seven bits under a flag. -/
theorem group_or (left : Nat) :
    UInt8.ofNat (left &&& 0x7f) ||| 0x80 = UInt8.ofNat (128 + left % 128) := by
  have hMask : left &&& 0x7f = left % 128 := and_two_pow_sub_one_eq_mod left 7
  have hLow : left % 128 < 2 ^ 7 := mod_lt _ (by decide)
  have hOr : 128 + left % 128 = 2 ^ 7 * 1 ||| left % 128 := two_pow_add_eq_or_of_lt hLow 1
  rw [hMask, hOr, Nat.or_comm]
  exact (UInt8.ofNat_or _ _).symm

/- Past the last group, the loop writes the leading ones. -/
theorem groupsFrom_eq {fuel length left : Nat} (groups : Bytes) (hStart : 0 < length)
    (hFuel : (leadingGroups (left + 1)).length ≤ fuel)
    (hRoom : length + (leadingGroups (left + 1)).length ≤ 10) :
    ∃ last < 10, (groupsFrom A fuel length left groups : Result ε (Nat × Bytes)) =
      .ok (last, leadingGroups (left + 1) ++ groups) := by
  induction fuel generalizing length left groups with
  | zero => simp [leadingGroups_succ] at hFuel
  | succ fuel ih =>
    rw [leadingGroups_succ, length_append, length_singleton] at hFuel hRoom
    have hFst : length ≠ 0 := by omega
    have hSlot : length < 10 := by omega
    have hShift : left >>> 7 = left / 128 := shiftRight_eq_div_pow left 7
    simp only [groupsFrom, hFst, hSlot, if_false, if_true, group_or]
    rw [leadingGroups_succ]
    by_cases hLast : left ≤ 0x7f
    · rw [if_pos hLast, div_eq_of_lt (by omega)]
      exact ⟨length, hSlot, by simp [leadingGroups]⟩
    · have hMore : left / 128 - 1 + 1 = left / 128 := by omega
      rw [← hMore] at hFuel hRoom ⊢
      obtain ⟨last, hPlace, hRun⟩ := @ih (length + 1) (left / 128 - 1)
        (UInt8.ofNat (128 + left % 128) :: groups) (succ_pos length) (by omega) (by omega)
      refine ⟨last, hPlace, ?_⟩
      rw [if_neg hLast, hShift, A.sub_exact _ _ (by omega)]
      simpa [expect] using hRun

/- The writer gives the bytes of every `u64`. -/
theorem putVarint_eq {value : Nat} (hFits : value < 2 ^ 64) :
    putVarint A value = (.ok (varintBytes value) : Result ε Bytes) := by
  have hLen : (leadingGroups (value / 128)).length ≤ 9 := length_leadingGroups_le (by omega)
  have hMask : value &&& 0x7f = value % 128 := and_two_pow_sub_one_eq_mod value 7
  have hShift : value >>> 7 = value / 128 := shiftRight_eq_div_pow value 7
  have hLow : ∀ n, UInt8.ofNat n ||| 0x00 = UInt8.ofNat n := fun n => UInt8.or_zero
  rw [putVarint, varintBytes, groupsFrom]
  simp only [if_true, zero_lt_succ, hMask, hLow, hShift]
  by_cases hOne : value ≤ 0x7f
  · rw [if_pos hOne, div_eq_of_lt (by omega)]
    simp [leadingGroups, assert]
  · have hMore : value / 128 - 1 + 1 = value / 128 := by omega
    rw [← hMore] at hLen
    have hFuel : (leadingGroups (value / 128 - 1 + 1)).length ≤ 63 := by omega
    obtain ⟨last, hPlace, hRun⟩ := groupsFrom_eq (ε := ε) A
      [UInt8.ofNat (value % 128)] Nat.one_pos hFuel (by omega)
    rw [hMore] at hRun
    rw [if_neg hOne, A.sub_exact _ _ (by omega)]
    simp [expect, hRun, Result.assert_of hPlace]

end

--------
-- The Reader
--------

namespace StoreReader

variable (A : Arith)

theorem varintFrom_cons (turns value : Nat) (byte : UInt8) (back : Bytes) :
    varintFrom A (turns + 1) value (byte :: back) =
      if 2 ^ 57 ≤ value then (Result.fail .badVarint, back)
      else if byte.toNat < 128 then
        (.ok (value * 128 + byte.toNat), back)
      else if value * 128 + (byte.toNat - 128) = 2 ^ 64 - 1 then
        (Result.fail .badVarint, back)
      else
        varintFrom A turns (value * 128 + (byte.toNat - 127)) back := by
  have hByte : byte.toNat < 256 := byte.toNat_lt
  have hMask : (byte &&& 0x7f).toNat = byte.toNat % 128 := by
    rw [UInt8.toNat_and]
    exact and_two_pow_sub_one_eq_mod byte.toNat 7
  have hOr : value <<< 7 ||| byte.toNat % 128 = value * 128 + byte.toNat % 128 := by
    rw [← shiftLeft_add_eq_or_of_lt (mod_lt _ (by decide)), shiftLeft_eq]
  have hSign : byte &&& 0x80 = 0 ↔ byte.toNat < 128 := by
    rw [← not_iff_not, ← ne_eq, LittleEndian.sign_ne_zero_iff, UInt8.le_iff_toNat_le, Nat.not_lt]
    rfl
  rw [varintFrom, Program.bind_of_ok (u8_cons byte back)]
  simp only [hMask, hOr, hSign]
  by_cases hHigh : 2 ^ 57 ≤ value
  · rw [if_pos (by omega), if_pos hHigh]
    rfl
  · rw [if_neg (by omega), if_neg hHigh]
    by_cases hLast : byte.toNat < 128
    · rw [if_pos hLast, if_pos hLast, mod_eq_of_lt hLast]
      rfl
    · have hRest : byte.toNat % 128 = byte.toNat - 128 := by omega
      rw [if_neg hLast, if_neg hLast, hRest]
      by_cases hTop : value * 128 + (byte.toNat - 128) = 2 ^ 64 - 1
      · rw [if_pos hTop, if_pos hTop]
        rfl
      · rw [if_neg hTop, if_neg hTop, A.add_exact _ _ (by omega)]
        exact congrArg (varintFrom A turns · back) (by omega)

/- No step saturates, so it does not matter how one would. -/
theorem varintFrom_eq_strict (turns value : Nat) (bytes : Bytes) :
    varintFrom A turns value bytes = varintFrom .strict turns value bytes := by
  induction turns generalizing value bytes with
  | zero => rfl
  | succ turns ih =>
    cases bytes with
    | nil => rfl
    | cons byte back => rw [varintFrom_cons, varintFrom_cons, ih]

/- What the turns that are left make of the bytes. -/
theorem varintFrom_eq_ok {turns value n : Nat} {bytes rest : Bytes} :
    varintFrom A turns value bytes = (.ok n, rest) ↔ ∃ groups last, bytes = groups ++ last :: rest ∧
      (∀ byte ∈ groups, 128 ≤ byte.toNat) ∧ last.toNat < 128 ∧
      groups.length < turns ∧ n < 2 ^ 64 ∧ n = leadingValue value groups * 128 + last.toNat := by
  induction turns generalizing value bytes with
  | zero => simp [varintFrom]
  | succ turns ih =>
    cases bytes with
    | nil =>
      constructor
      · intro hRun
        cases hRun
      · rintro ⟨groups, last, hBytes, _⟩
        simp at hBytes
    | cons byte back =>
      rw [varintFrom_cons]
      constructor
      · intro hRun
        split_ifs at hRun with hHigh hLast hTop
        · cases hRun
        · cases hRun
          exact ⟨[], byte, rfl, by simp, hLast, by simp, by omega, rfl⟩
        · cases hRun
        · rcases ih.mp hRun with ⟨groups, last, rfl, hGroups, hEnd, hTurns, hFits, rfl⟩
          refine ⟨byte :: groups, last, rfl, ?_, hEnd,
            succ_lt_succ hTurns, hFits, by rw [leadingValue_cons]⟩
          exact forall_mem_cons.mpr ⟨by omega, hGroups⟩
      · rintro ⟨groups, last, hBytes, hGroups, hEnd, hTurns, hFits, hSum⟩
        cases groups with
        | nil =>
          cases hBytes
          rw [leadingValue, foldl_nil] at hSum
          rw [if_neg (by omega), if_pos hEnd, hSum]
        | cons first groups =>
          cases hBytes
          have hFst := hGroups byte (by simp)
          have hLeast := le_leadingValue (value * 128 + (byte.toNat - 127)) groups
          rw [leadingValue_cons] at hSum
          rw [if_neg (by omega), if_neg (by omega), if_neg (by omega)]
          refine ih.mpr ⟨groups, last, rfl, ?_, hEnd, lt_of_succ_lt_succ hTurns, hFits, hSum⟩
          exact fun b hMem => hGroups b (mem_cons_of_mem _ hMem)

/- The reader accepts the bytes of a `u64`, and nothing else. -/
theorem varint_eq_ok {n : Nat} {bytes rest : Bytes} :
    varint A bytes = (.ok n, rest) ↔ n < 2 ^ 64 ∧ bytes = varintBytes n ++ rest := by
  rw [varint, varintFrom_eq_ok]
  constructor
  · rintro ⟨groups, last, rfl, hGroups, hEnd, -, hFits, rfl⟩
    have hFront : groups = leadingGroups (leadingValue 0 groups) :=
      eq_leadingGroups_iff.mpr ⟨hGroups, rfl⟩
    refine ⟨hFits, ?_⟩
    rw [varintBytes, mul_add_mod', mod_eq_of_lt hEnd,
      UInt8.ofNat_toNat, Nat.add_comm, add_mul_div_right _ _ (by decide),
      div_eq_of_lt hEnd, Nat.zero_add, ← hFront]
    simp
  · rintro ⟨hFits, rfl⟩
    rcases eq_leadingGroups_iff.mp (Eq.refl (leadingGroups (n / 128))) with ⟨hGroups, hValue⟩
    have hLen : (leadingGroups (n / 128)).length ≤ 9 := length_leadingGroups_le (by omega)
    have hLast : (UInt8.ofNat (n % 128)).toNat = n % 128 := by
      rw [UInt8.toNat_ofNat']
      omega
    refine ⟨leadingGroups (n / 128), UInt8.ofNat (n % 128), ?_, hGroups,
      by omega, by omega, hFits, by omega⟩
    rw [varintBytes, append_assoc]
    rfl

/- No step of the reader panics. -/
theorem varintFrom_neverPanics (turns value : Nat) : (varintFrom A turns value).NeverPanics := by
  intro bytes
  induction turns generalizing value bytes with
  | zero => rintro ⟨⟩
  | succ turns ih =>
    cases bytes with
    | nil => rintro ⟨⟩
    | cons byte back =>
      rw [varintFrom_cons]
      split_ifs
      · rintro ⟨⟩
      · rintro ⟨⟩
      · rintro ⟨⟩
      · exact ih _ back

end StoreReader

--------
-- One Encoding for Each Value
--------

/-
  Whatever the saturating steps do where they would saturate: the writer writes every `u64`, and the
  reader reads back what it wrote, accepts nothing else and never panics.
-/
theorem varint_exact (A : Arith) :
    (∀ value < 2 ^ 64, ∃ bytes,
      putVarint (ε := Empty) A value = .ok bytes ∧
        ∀ rest, StoreReader.varint A (bytes ++ rest) = (.ok value, rest)) ∧
    (∀ bytes value rest, StoreReader.varint A bytes = (.ok value, rest) →
      value < 2 ^ 64 ∧ ∃ taken, bytes = taken ++ rest ∧
        putVarint (ε := Empty) A value = .ok taken) ∧
    (∀ value < 2 ^ 64, ∃! bytes, StoreReader.varint A bytes = (.ok value, [])) ∧
    (∀ bytes, ¬ Result.Panics (StoreReader.varint A bytes).1) ∧
    ∀ bytes, StoreReader.varint A bytes = StoreReader.varint .strict bytes := by
  refine ⟨?_, ?_, ?_, StoreReader.varintFrom_neverPanics A 10 0,
    StoreReader.varintFrom_eq_strict A 10 0⟩
  · intro value hFits
    refine ⟨varintBytes value, putVarint_eq A hFits, ?_⟩
    intro rest
    exact (StoreReader.varint_eq_ok A).mpr ⟨hFits, rfl⟩
  · intro bytes value rest hRead
    rcases (StoreReader.varint_eq_ok A).mp hRead with ⟨hFits, hBytes⟩
    exact ⟨hFits, varintBytes value, hBytes, putVarint_eq A hFits⟩
  · intro value hFits
    refine ⟨varintBytes value, ?_, ?_⟩
    · exact (StoreReader.varint_eq_ok A).mpr ⟨hFits, by simp⟩
    · intro bytes hRead
      simpa using ((StoreReader.varint_eq_ok A).mp hRead).2

end Bitmigo
