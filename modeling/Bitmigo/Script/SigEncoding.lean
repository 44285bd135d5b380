import Bitmigo.Script.Safety

/-
  The strict encoding of a signature (BIP66) as a grammar.

  Key definitions include:
    * `StrictInteger`, a positive number without padding
    * `derBytes`, two numbers and a hash type with their frame
    * `StrictDer`

  Key theorems include:
    * `isValidSignatureEncoding_cut`, the checks of the code on a string cut where its length bytes
      say
    * `isValidSignatureEncoding_exact`, the checks accept exactly the strings of the grammar

  The code compares lengths and offsets and parses nothing. Once the two length bytes add up to the
  length, the string is cut at them, and every later check reads one of the pieces.
-/

namespace Bitmigo

open Result List

variable {sig r s : Bytes} {hashType : UInt8}

--------
-- The Grammar
--------

/-
  A number of a signature: its first byte has no sign, and is zero only where the next byte would
  have one.
-/
structure StrictInteger (number : Bytes) : Prop where
  nonempty : number ≠ []
  positive : ∀ first ∈ number.head?, first < 0x80
  unpadded : number.head? = some 0x00 → number.length = 1 ∨ ∃ second ∈ number[1]?, 0x80 ≤ second

/- The seven bytes of a frame around two numbers. -/
def framed (compound total typeR lenR : UInt8) (r : Bytes) (typeS lenS : UInt8) (s : Bytes)
    (hashType : UInt8) :
    Bytes :=
  compound :: total :: typeR :: lenR :: (r ++ typeS :: lenS :: (s ++ [hashType]))

def derBytes (r s : Bytes) (hashType : UInt8) : Bytes :=
  framed 0x30 (UInt8.ofNat (r.length + s.length + 4)) 0x02
    (UInt8.ofNat r.length) r 0x02 (UInt8.ofNat s.length) s
    hashType

structure StrictDer (sig r s : Bytes)
    (hashType : UInt8) : Prop where
  bytes : sig = derBytes r s hashType
  length : sig.length ≤ 73
  first : StrictInteger r
  second : StrictInteger s

/- The tests of the source on a number and what follows it. -/
theorem strictInteger_cons {first next : UInt8} {rest after : Bytes}
    (hNext : (rest ++ after)[0]? = some next) :
    StrictInteger (first :: rest) ↔ first &&& 0x80 = 0 ∧
      ¬ (1 < (first :: rest).length ∧ first = 0x00 ∧ next &&& 0x80 = 0) := by
  have hSign (byte : UInt8) : byte &&& 0x80 = 0 ↔ byte < 0x80 := by
    rw [← not_iff_not, ← ne_eq, LittleEndian.sign_ne_zero_iff, UInt8.not_lt]
  rw [hSign, hSign]
  constructor
  · intro hStrict
    refine ⟨hStrict.positive first rfl, ?_⟩
    rintro ⟨hLong, rfl, hLow⟩
    rcases hStrict.unpadded rfl with hOne | ⟨second, hMem, hHigh⟩
    · omega
    · rcases rest with _ | ⟨byte, tail⟩
      · simp at hLong
      · cases hMem
        cases hNext
        exact absurd hLow (UInt8.not_lt.mpr hHigh)
  · rintro ⟨hLow, hPadded⟩
    refine ⟨by simp, ?_, ?_⟩
    · rintro _ ⟨⟩
      exact hLow
    · intro hZero
      rcases rest with _ | ⟨byte, tail⟩
      · exact .inl rfl
      · cases hNext
        refine .inr ⟨next, rfl, ?_⟩
        rw [← UInt8.not_lt]
        intro hByte
        exact hPadded ⟨by simp, Option.some.inj hZero, hByte⟩

--------
-- A Framed String
--------

section

variable {compound total typeR lenR typeS lenS hashType : UInt8} {r s sig : Bytes}

theorem length_framed :
    (framed compound total typeR lenR r typeS lenS s
      hashType).length = r.length + s.length + 7 := by
  simp only [framed, length_cons, length_append, length_nil]
  omega

section

variable (hSig : sig = framed compound total typeR lenR r typeS lenS s hashType)

include hSig

/- What stands from the first number on. -/
theorem framed_front (index : Nat) :
    sig[index + 4]? = (r ++ typeS :: lenS :: (s ++ [hashType]))[index]? := by
  rw [hSig]
  rfl

/- What stands from the second number on. -/
theorem framed_back (index : Nat) : sig[r.length + 6 + index]? = (s ++ [hashType])[index]? := by
  rw [show r.length + 6 + index = r.length + (index + 2) + 4 by omega, framed_front hSig]
  simp [getElem?_append_right]

theorem framed_typeS : sig[r.length + 4]? = some typeS := by
  rw [framed_front hSig]
  simp

theorem framed_lenS : sig[5 + r.length]? = some lenS := by
  rw [show 5 + r.length = r.length + 1 + 4 by omega, framed_front hSig]
  simp

end

theorem sigAt_eq {index : Nat} {byte : UInt8} (hByte : sig[index]? = some byte) :
    sigAt sig index = .ok byte := by
  rw [sigAt, hByte, expect_some]

/- A string whose length bytes add up is framed. -/
theorem exists_framed {sizeR sizeS : Nat} (hTotal : sizeR + sizeS + 7 = sig.length) :
    ∃ compound total typeR lenR r typeS lenS s hashType,
      sig = framed compound total typeR lenR r typeS lenS s hashType ∧
        r.length = sizeR ∧ s.length = sizeS := by
  rcases sig with _ | ⟨a0, _ | ⟨a1, _ | ⟨a2, _ | ⟨a3, rest⟩⟩⟩⟩
  case cons.cons.cons.cons =>
    simp only [length_cons] at hTotal
    rcases hBack : rest.drop sizeR with _ | ⟨x, _ | ⟨y, back⟩⟩
    all_goals
      have hLen := congrArg List.length hBack
      simp only [length_drop, length_cons, length_nil] at hLen
    · omega
    · omega
    rcases eq_nil_or_concat back with hNil | ⟨s, t, hEnd⟩
    · rw [hNil, length_nil] at hLen
      omega
    refine ⟨a0, a1, a2, a3, rest.take sizeR, x, y, s, t, ?_, ?_, ?_⟩
    · rw [framed, ← concat_eq_append, ← hEnd, ← hBack, take_append_drop]
    · rw [length_take]
      omega
    · rw [hEnd, length_concat] at hLen
      omega
  all_goals
    simp only [length_cons, length_nil] at hTotal
    omega

/- What the checks say of a string cut at its lengths. -/
theorem isValidSignatureEncoding_cut
    (hSig : sig = framed compound total typeR lenR r typeS lenS s hashType)
    (hR : lenR.toNat = r.length) (hS : lenS.toNat = s.length) (hMin : 9 ≤ sig.length)
    (hMax : sig.length ≤ 73) :
    isValidSignatureEncoding sig = .ok true ↔ compound = 0x30 ∧
      total.toNat = r.length + s.length + 4 ∧ typeR = 0x02 ∧ StrictInteger r ∧ typeS = 0x02 ∧
      StrictInteger s := by
  have hFront := framed_front hSig
  have hBack := framed_back hSig
  have hTypeS := framed_typeS hSig
  have hLenS := framed_lenS hSig
  have hLen : sig.length = r.length + s.length + 7 := by rw [hSig, length_framed]
  unfold isValidSignatureEncoding
  rw [if_neg (by omega), sigAt_eq (show sig[0]? = some compound by
      rw [hSig]; rfl),
    sigAt_eq (show sig[1]? = some total by rw [hSig]; rfl),
    sigAt_eq (show sig[2]? = some typeR by rw [hSig]; rfl),
    sigAt_eq (show sig[3]? = some lenR by rw [hSig]; rfl)]
  simp only [ok_bind, hR]
  clear hSig
  by_cases hHead : compound ≠ 0x30 ∨ total.toNat ≠ sig.length - 3
  · rw [if_pos hHead]
    refine iff_of_false (by simp) ?_
    rintro ⟨hCompound, hTotal, _⟩
    rcases hHead with hHead | hHead
    · exact hHead hCompound
    · omega
  rw [if_neg hHead, if_neg (by omega), sigAt_eq hLenS]
  rw [not_or, not_not, not_not] at hHead
  have hTotal : total.toNat = r.length + s.length + 4 := by omega
  simp only [ok_bind, hS, hHead.1, hTotal, true_and]
  rw [if_neg (by omega)]
  -- the first number
  rcases r with _ | ⟨first, rest⟩
  · rw [sigAt_eq (show sig[4]? = some typeS from hTypeS)]
    simp only [ok_bind, length_nil, true_or, or_true, if_true]
    refine iff_of_false (by simp) ?_
    rintro ⟨_, hStrict, _⟩
    exact hStrict.nonempty rfl
  rw [sigAt_eq (show sig[4]? = some first from hFront 0)]
  rcases hNext : (rest ++ typeS :: lenS :: (s ++ [hashType]))[0]? with _ | next
  · simp at hNext
  rw [sigAt_eq (show sig[5]? = some next from
    (hFront 1).trans hNext), sigAt_eq hTypeS, strictInteger_cons hNext]
  simp only [ok_bind]
  by_cases hType : typeR ≠ 0x02 ∨ (first :: rest).length = 0 ∨ first &&& 0x80 ≠ 0
  · rw [if_pos hType]
    refine iff_of_false (by simp) ?_
    rintro ⟨hTwo, ⟨hPositive, _⟩, _⟩
    simp [hTwo, hPositive] at hType
  rw [if_neg hType]
  simp only [not_or, not_not] at hType
  simp only [hType, true_and]
  by_cases hPad : 1 < (first :: rest).length ∧ first = 0x00 ∧ next &&& 0x80 = 0
  · rw [if_pos hPad]
    refine iff_of_false (by simp) ?_
    rintro ⟨hUnpadded, _⟩
    exact hUnpadded hPad
  rw [if_neg hPad]
  simp only [hPad, not_false_eq_true, true_and]
  -- the second number
  rcases s with _ | ⟨sFirst, sRest⟩
  · rw [if_pos (.inr rfl)]
    refine iff_of_false (by simp) ?_
    rintro ⟨_, hStrict⟩
    exact hStrict.nonempty rfl
  rcases hAfter : (sRest ++ [hashType])[0]? with _ | sNext
  · simp at hAfter
  rw [sigAt_eq (show sig[(first :: rest).length + 6]? = some sFirst from hBack 0),
    sigAt_eq (show sig[(first :: rest).length + 7]? = some sNext from (hBack 1).trans hAfter),
    strictInteger_cons hAfter]
  clear hFront hBack
  simp only [ok_bind]
  split_ifs <;> simp_all

end

--------
-- Exactness
--------

/- The lengths an accepted string must have passed. -/
theorem lengths_of_isValid (hValid : isValidSignatureEncoding sig = .ok true) :
    9 ≤ sig.length ∧ sig.length ≤ 73 ∧ ∃ lenR lenS, sig[3]? = some lenR ∧
      sig[5 + lenR.toNat]? = some lenS ∧ lenR.toNat + lenS.toNat + 7 = sig.length := by
  unfold isValidSignatureEncoding at hValid
  split at hValid
  · cases hValid
  rename_i hSize
  simp only [bind_eq_ok, sigAt, expect_eq_ok] at hValid
  rcases hValid with ⟨_, _, _, _, hValid⟩
  split at hValid
  · cases hValid
  simp only [bind_eq_ok, expect_eq_ok] at hValid
  rcases hValid with ⟨lenR, hLenR, hValid⟩
  split at hValid
  · cases hValid
  simp only [bind_eq_ok, expect_eq_ok] at hValid
  rcases hValid with ⟨lenS, hLenS, hValid⟩
  split at hValid
  · cases hValid
  rename_i hTotal
  exact ⟨by omega, by omega, lenR, lenS, hLenR, hLenS, not_not.mp hTotal⟩

theorem toNat_ofNat_of_le {size : Nat} (hSize : size ≤ 73) : (UInt8.ofNat size).toNat = size := by
  rw [UInt8.toNat_ofNat', Nat.mod_eq_of_lt (by omega)]

theorem StrictDer.isValid (hDer : StrictDer sig r s hashType) :
    isValidSignatureEncoding sig = .ok true := by
  have hMax := hDer.length
  have hLen : sig.length = r.length + s.length + 7 := by rw [hDer.bytes, derBytes, length_framed]
  have hR := length_pos_iff.mpr hDer.first.nonempty
  have hS := length_pos_iff.mpr hDer.second.nonempty
  refine (isValidSignatureEncoding_cut hDer.bytes (toNat_ofNat_of_le (by omega))
    (toNat_ofNat_of_le (by omega)) (by omega) hMax).mpr ?_
  exact ⟨rfl, toNat_ofNat_of_le (by omega), rfl, hDer.first, rfl, hDer.second⟩

theorem exists_strictDer (hValid : isValidSignatureEncoding sig = .ok true) :
    ∃ r s hashType, StrictDer sig r s hashType := by
  rcases lengths_of_isValid hValid with ⟨hMin, hMax, sizeR, sizeS, hLenR, hLenS, hTotal⟩
  rcases exists_framed hTotal with
    ⟨compound, total, typeR, lenR, r, typeS, lenS, s, hashType, hSig, hR, hS⟩
  have hSameR : lenR = sizeR := by
    rw [hSig] at hLenR
    exact Option.some.inj hLenR
  have hSameS : lenS = sizeS := by
    rw [← hR, framed_lenS hSig] at hLenS
    exact Option.some.inj hLenS
  subst hSameR hSameS
  rcases (isValidSignatureEncoding_cut hSig hR.symm hS.symm hMin hMax).mp hValid with
    ⟨rfl, hSum, rfl, hFst, rfl, hSnd⟩
  refine ⟨r, s, hashType, ?_, hMax, hFst, hSnd⟩
  rw [hSig, derBytes, hR, hS, UInt8.ofNat_toNat,
    UInt8.ofNat_toNat, ← hR, ← hS, ← hSum, UInt8.ofNat_toNat]

/- The length bytes tell the two numbers apart. -/
theorem StrictDer.unique {r' s' : Bytes} {hashType' : UInt8} (hDer : StrictDer sig r s hashType)
    (hOther : StrictDer sig r' s' hashType') : r = r' ∧ s = s' ∧ hashType = hashType' := by
  have hMax := hDer.length
  have hLength : sig.length = r.length + s.length + 7 := by rw [hDer.bytes, derBytes, length_framed]
  have hLength' : sig.length = r'.length + s'.length + 7 := by
    rw [hOther.bytes, derBytes, length_framed]
  have hBytes := hDer.bytes.symm.trans hOther.bytes
  simp only [derBytes, framed, List.cons.injEq] at hBytes
  rcases hBytes with ⟨_, _, _, hLen, hBytes⟩
  have hSizes : r.length = r'.length := by
    have hNat := congrArg UInt8.toNat hLen
    rwa [toNat_ofNat_of_le (by omega), toNat_ofNat_of_le (by omega)] at hNat
  rcases List.append_inj hBytes hSizes with ⟨hR, hRest⟩
  simp only [List.cons.injEq, true_and] at hRest
  rcases List.append_inj hRest.2 (by omega) with ⟨hS, hType⟩
  exact ⟨hR, hS, (List.cons.inj hType).1⟩

/-
  The checks read inside the string, accept exactly the strings of the grammar, and such a string
  has one reading.
-/
theorem isValidSignatureEncoding_exact (sig : Bytes) :
    ∃ valid,
      isValidSignatureEncoding sig = .ok valid ∧
        (valid = true ↔ ∃ r s hashType, StrictDer sig r s hashType) ∧
        ∀ r s hashType r' s' hashType',
          StrictDer sig r s hashType →
          StrictDer sig r' s' hashType' → r = r' ∧ s = s' ∧ hashType = hashType' := by
  rcases isValidSignatureEncoding_returns sig with ⟨valid, hRet⟩
  refine ⟨valid, hRet, ⟨?_, ?_⟩, ?_⟩
  · rintro rfl
    exact exists_strictDer hRet
  · rintro ⟨r, s, hashType, hDer⟩
    exact Except.ok.inj (hRet.symm.trans hDer.isValid)
  · intro r s hashType r' s' hashType' hDer hOther
    exact hDer.unique hOther

end Bitmigo
