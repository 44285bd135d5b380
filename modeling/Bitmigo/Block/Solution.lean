import Bitmigo.Bitcoin.Delimited
import Bitmigo.Block.Signet

/-
  The solution a signet block carries: a script and a witness stack, in one serialization only.

  Key theorems include:
    * `readCompactSize_eq_ok`, sizes in their shortest form
    * `readItems_eq_ok`
    * `parseSolution_exact`

  Each reader is described by the bytes it accepts: an encoding, and whatever follows it.
-/

namespace Bitmigo

open Result List LittleEndian Except

open Result Encoding

variable {bytes rest : Bytes} {n : Nat}

--------
-- Sizes
--------

theorem takeBytes_eq_ok {taken : Bytes} :
    takeBytes bytes n = .ok (taken, rest) ↔ taken.length = n ∧ bytes = taken ++ rest := by
  simp only [takeBytes, bind_eq_ok, ensure_eq_ok, pure_inj, Prod.mk.injEq]
  constructor
  · rintro ⟨_, hCount, rfl, rfl⟩
    exact ⟨length_take_of_le hCount, (take_append_drop _ _).symm⟩
  · rintro ⟨rfl, rfl⟩
    exact ⟨(), by simp, by simp, by simp⟩

/- A number of a marker's width is at least what the marker is
  for, or a shorter form has room for it. -/
theorem compactLead_eq_iff (hWide : n < 256 ^ 8) :
    (compactLead n = 0xfd ↔ 0xfd ≤ n ∧ n < 256 ^ 2) ∧
      (compactLead n = 0xfe ↔ 256 ^ 2 ≤ n ∧ n < 256 ^ 4) ∧
      (compactLead n = 0xff ↔ 256 ^ 4 ≤ n) := by
  unfold compactLead
  split_ifs with hOne hTwo hFour
  · have hNe (marker : UInt8) (hMarker : 0xfd ≤ marker.toNat) : UInt8.ofNat n ≠ marker := by
      rintro rfl
      rw [UInt8.toNat_ofNat'] at hMarker
      omega
    simp only [hNe 0xfd (by decide), hNe 0xfe (by decide), hNe 0xff (by decide), false_iff]
    omega
  · simp
    omega
  · simp
    omega
  · simp
    omega

/-
  A size is read off its first byte and the bytes that one announces, if it would have been written
  with that byte.
-/
theorem readCompactSize_cons (lead : UInt8) (bytes : Bytes) :
    readCompactSize (lead :: bytes) = (do
      let (encoded, rest) ← takeBytes bytes (compactWidth lead)
      let value := compactValue lead encoded
      ensure .malformedSolution (compactLead value = lead)
      ensure .malformedSolution (value ≤ maxSerializedSize)
      return (value, rest)) := by
  have hFst : takeBytes (lead :: bytes) 1 = .ok ([lead], bytes) := takeBytes_eq_ok.mpr ⟨rfl, rfl⟩
  rw [readCompactSize, hFst]
  simp only [ok_bind, head?_cons, expect_some]
  by_cases hSmall : lead ≤ 252
  · have hNat : lead.toNat < 0xfd := Nat.lt_succ_of_le hSmall
    have hLead : compactLead lead.toNat = lead := by
      rw [compactLead, if_pos hNat, UInt8.ofNat_toNat]
    have hWidth : compactWidth lead = 0 := by
      have hNone := compactWidth_ofNat hNat
      rw [UInt8.ofNat_toNat] at hNone
      exact hNone.1
    have hNothing : takeBytes bytes 0 = .ok ([], bytes) := takeBytes_eq_ok.mpr ⟨rfl, rfl⟩
    simp [hSmall, hWidth, hNothing, compactValue, hLead]
  · -- the marker's width and its least value
    have hMarker {size least : Nat} (hWidth : compactWidth lead = size) (hWide : size ≠ 0)
        (hLeast : ∀ value < 256 ^ size, least ≤ value ↔ compactLead value = lead) :
        ((do
          let (encoded, bytes) ← takeBytes bytes size
          let value := LittleEndian.decode encoded
          ensure .malformedSolution (least ≤ value)
          return (value, bytes)) >>= fun read => do
            ensure .malformedSolution (read.1 ≤ maxSerializedSize)
            return (read.1, read.2)) = (do
          let (encoded, rest) ← takeBytes bytes (compactWidth lead)
          let value := compactValue lead encoded
          ensure .malformedSolution (compactLead value = lead)
          ensure .malformedSolution (value ≤ maxSerializedSize)
          return (value, rest)) := by
      rw [hWidth]
      rcases hTake : takeBytes bytes size with _ | ⟨encoded, rest⟩
      · rfl
      · have hFits := decode_lt encoded
        rw [(takeBytes_eq_ok.mp hTake).1] at hFits
        simp [compactValue, hWidth, hWide, hLeast _ hFits]
    have hLarge : lead = 253 ∨ lead = 254 ∨ lead = 255 := by
      have hNat := lead.toNat_lt
      rw [UInt8.le_iff_toNat_le] at hSmall
      simp only [← UInt8.toNat_inj, UInt8.reduceToNat] at hSmall ⊢
      omega
    rcases hLarge with rfl | rfl | rfl
    · refine hMarker rfl (by decide) fun value hFits => ?_
      rw [(compactLead_eq_iff (hFits.trans (by decide))).1]
      exact (and_iff_left hFits).symm
    · refine hMarker rfl (by decide) fun value hFits => ?_
      rw [(compactLead_eq_iff (hFits.trans (by decide))).2.1]
      exact (and_iff_left hFits).symm
    · refine hMarker rfl (by decide) fun value hFits => ?_
      exact (compactLead_eq_iff hFits).2.2.symm

theorem readCompactSize_eq_ok :
    readCompactSize bytes = .ok (n, rest) ↔
      n ≤ maxSerializedSize ∧ bytes = Encoding.compactSize n ++ rest := by
  constructor
  · intro hRead
    cases bytes with
    | nil => cases hRead
    | cons lead bytes =>
      simp only [readCompactSize_cons, bind_eq_ok, ensure_eq_ok,
        pure_inj, Prod.mk.injEq, Prod.exists, takeBytes_eq_ok] at hRead
      rcases hRead with ⟨encoded, rest, ⟨hLen, rfl⟩, _, hLead, _, hMax, hValue, rfl⟩
      rw [hValue] at hLead hMax
      have hWide : n < 2 ^ 64 := hMax.trans_lt (by decide)
      refine ⟨hMax, ?_⟩
      rw [(compactSize_eq hWide).1, hLead, cons_append, List.cons.injEq, append_left_inj, ← hLen]
      refine ⟨rfl, ?_⟩
      by_cases hNone : compactWidth lead = 0
      · rw [hNone, length_eq_zero_iff] at hLen
        rw [hLen]
        rfl
      · rw [compactValue, if_neg hNone] at hValue
        rw [← hValue, encode_decode]
  · rintro ⟨hMax, rfl⟩
    have hWide : n < 2 ^ 64 := hMax.trans_lt (by decide)
    rcases compactSize_eq hWide with ⟨hForm, hValue⟩
    have hTake := takeBytes_eq_ok.mpr
      ⟨length_encode (compactWidth (compactLead n)) n, (rfl : _ ++ rest = _)⟩
    rw [hForm, cons_append, readCompactSize_cons, hTake]
    simp [hValue, hMax]

theorem readCompactSize_safe (bytes : Bytes) : (readCompactSize bytes).Safe fun _ => True := by
  cases bytes with
  | nil => trivial
  | cons lead bytes =>
    rw [readCompactSize_cons]
    simp [takeBytes, safe_bind]

--------
-- Strings of Bytes
--------

theorem readBytes_eq_ok {item : Bytes} :
    readBytes bytes = .ok (item, rest) ↔
      item.length ≤ maxSerializedSize ∧ bytes = script item ++ rest := by
  simp only [readBytes, bind_eq_ok, Prod.exists, readCompactSize_eq_ok,
    takeBytes_eq_ok, script, append_assoc]
  constructor
  · rintro ⟨_, _, ⟨hMax, rfl⟩, rfl, rfl⟩
    exact ⟨hMax, rfl⟩
  · rintro ⟨hMax, rfl⟩
    exact ⟨_, _, ⟨hMax, rfl⟩, rfl, rfl⟩

theorem readBytes_safe (bytes : Bytes) : (readBytes bytes).Safe fun _ => True := by
  refine (readCompactSize_safe bytes).bind fun _ _ => ?_
  simp [takeBytes, safe_bind]

theorem readItems_eq_ok {items : List Bytes} :
    readItems n bytes = .ok (items, rest) ↔
      items.length = n ∧ (∀ item ∈ items, item.length ≤ maxSerializedSize) ∧
        bytes = (items.map script).flatten ++ rest := by
  induction n generalizing bytes items rest with
  | zero =>
    simp only [readItems, ok.injEq, Prod.mk.injEq, length_eq_zero_iff]
    constructor
    · rintro ⟨rfl, rfl⟩
      simp
    · rintro ⟨rfl, _, rfl⟩
      simp
  | succ n ih =>
    simp only [readItems, bind_eq_ok, Prod.exists, readBytes_eq_ok, ih, pure_inj, Prod.mk.injEq]
    constructor
    · rintro ⟨item, _, ⟨hItem, rfl⟩, others, _, ⟨rfl, hOthers, rfl⟩, rfl, rfl⟩
      exact ⟨rfl, forall_mem_cons.mpr ⟨hItem, hOthers⟩, by simp⟩
    · rintro ⟨hLen, hItems, rfl⟩
      cases items with
      | nil => cases hLen
      | cons item others =>
        rcases forall_mem_cons.mp hItems with ⟨hItem, hOthers⟩
        exact ⟨item, _, ⟨hItem, by simp⟩, others, rest, ⟨Nat.succ.inj hLen, hOthers, rfl⟩, rfl, rfl⟩

theorem readItems_safe (count : Nat) (bytes : Bytes) :
    (readItems count bytes).Safe fun read => read.1.length = count := by
  induction count generalizing bytes with
  | zero => rfl
  | succ count ih =>
    refine (readBytes_safe bytes).bind fun read _ => ?_
    refine (ih read.2).bind fun others hLen => ?_
    exact congrArg Nat.succ hLen

--------
-- Solutions in One Form
--------

/- A script and a stack whose sizes a reader accepts. -/
def Sendable (scriptSig : Script) (items : Witness) : Prop :=
  scriptSig.length ≤ maxSerializedSize ∧
    items.length ≤ maxSerializedSize ∧
    ∀ item ∈ items, item.length ≤ maxSerializedSize

/- Each item takes at least the byte of its size. -/
theorem length_le_items (items : Witness) : items.length ≤ ((items.map script).flatten).length := by
  rw [length_flatten, map_map]
  refine le_of_eq_of_le (length_map _).symm (length_le_sum_of_one_le _ fun size hSize => ?_)
  rcases mem_map.mp hSize with ⟨item, _, rfl⟩
  have hSome := length_pos_iff.mpr (compactSize_ne_nil item.length)
  simp only [Function.comp_apply, script, length_append]
  omega

theorem parseSolution_eq_ok {scriptSig : Script} {items : Witness} :
    parseSolution bytes = .ok (scriptSig, items) ↔
      Sendable scriptSig items ∧ bytes = script scriptSig ++ witness items := by
  simp only [parseSolution, bind_eq_ok, Prod.exists, readBytes_eq_ok,
    readCompactSize_eq_ok, readItems_eq_ok, ensure_eq_ok, assert_eq_ok,
    pure_inj, Prod.mk.injEq, witness]
  constructor
  · rintro ⟨_, _, ⟨hScript, rfl⟩, _, _, ⟨hCount, rfl⟩, _, _, _, left,
      ⟨rfl, hItems, rfl⟩, _, _, _, hNone, rfl, rfl⟩
    rw [length_eq_zero_iff] at hNone
    exact ⟨⟨hScript, hCount, hItems⟩, by rw [hNone, append_nil]⟩
  · rintro ⟨⟨hScript, hCount, hItems⟩, rfl⟩
    exact ⟨_, _, ⟨hScript, rfl⟩, _, _, ⟨hCount, rfl⟩, (),
      length_le_items items, _, [], ⟨rfl, hItems, by simp⟩, (), rfl, (),
      rfl, rfl, rfl⟩

theorem parseSolution_safe (bytes : Bytes) : (parseSolution bytes).Safe fun _ => True := by
  refine (readBytes_safe bytes).bind fun read _ => ?_
  refine (readCompactSize_safe read.2).bind fun counted _ => ?_
  refine safe_ensure_bind fun _ => ?_
  refine (readItems_safe counted.1 counted.2).bind fun items hLen => ?_
  simp [safe_bind, hLen]

/-
  The parser panics on no bytes, accepts exactly the serialization of a script and a stack whose
  sizes it allows, reads back what was serialized, and accepts each pair in one form only.
-/
theorem parseSolution_exact :
    (∀ bytes, ¬ (parseSolution bytes).Panics) ∧
    (∀ bytes scriptSig items,
      parseSolution bytes = .ok (scriptSig, items) ↔
        Sendable scriptSig items ∧
          bytes = Encoding.compactSize scriptSig.length ++ scriptSig ++
            (Encoding.compactSize items.length ++ items.flatMap fun item =>
              Encoding.compactSize item.length ++ item)) ∧
    ∀ first second parsed,
      parseSolution first = .ok parsed →
      parseSolution second = .ok parsed → first = second := by
  refine ⟨fun bytes => (parseSolution_safe bytes).not_panics, ?_, ?_⟩
  · intro bytes scriptSig items
    exact parseSolution_eq_ok
  · rintro first second ⟨scriptSig, items⟩ hFst hSnd
    rw [(parseSolution_eq_ok.mp hFst).2, (parseSolution_eq_ok.mp hSnd).2]

end Bitmigo
