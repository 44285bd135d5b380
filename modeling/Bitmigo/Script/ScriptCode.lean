import Bitmigo.Bitcoin.Encoding
import Bitmigo.Script.Parse
import Bitmigo.Script.Sighash

/-
  The script code a legacy digest commits to.

  Key definitions include:
    * `cutTail`, what is read of a truncated push

  Key theorems include:
    * `countSeparators_eq` and `writeSegments_eq`, both walks over the bytes in terms of operations
    * `legacySighash_returns`, no digest trips an assertion
    * `legacyEncodeScriptCode_exact`, what is written, and that the separators of a whole script do
      not matter
-/

namespace Bitmigo

open Result List

--------
-- Separators
--------

/- The operation that is one separator. -/
def separator : Bytes := [opCodeseparator]

/- The bytes of a truncated push up to the reported cursor. -/
def cutTail (tail : Bytes) : Bytes :=
  match readOp tail 0 with
  | .ok (.truncated next) => tail.take next
  | _ => []

/- An operation is a separator if its opcode is. -/
theorem eq_separator_iff {op : Bytes} {byte : UInt8} (hOp : opLexer.IsChunk op)
    (hByte : op.head? = some byte) : byte = opCodeseparator ↔ op = separator := by
  constructor
  · rintro rfl
    rcases exists_of_opWidth hOp with ⟨opcode, body, rfl, hRead, _⟩
    rw [head?_cons, Option.some.injEq] at hByte
    subst hByte
    rcases (headRead_eq_op.mp hRead).2 with ⟨_, hLen⟩ | ⟨hPush, _⟩
    · rw [length_cons, Nat.add_eq_right, length_eq_zero_iff] at hLen
      rw [hLen, separator]
    · exact absurd (by decide) hPush
  · rintro rfl
    exact (Option.some.inj hByte).symm

variable {tail : Bytes} {ops : List Bytes} {tx : Transaction}

/- The first walk counts the operations that are separators. -/
theorem countSeparators_eq (hTail : opLexer.IsRest tail) (hOps : ∀ op ∈ ops, opLexer.IsChunk op)
    {fuel : Nat} (hFuel : ops.length ≤ fuel) (front : Bytes) (count : Nat) :
    countSeparators (front ++ (ops.flatten ++ tail)) fuel front.length count =
      .ok (count + ops.count separator) := by
  induction ops generalizing fuel front count with
  | nil =>
    rw [flatten_nil, nil_append]
    cases fuel with
    | zero => rfl
    | succ fuel =>
      rw [countSeparators]
      by_cases hNe : tail = []
      · rw [hNe, if_neg (by simp)]
        simp
      · rcases readOp_of_isRest hTail hNe front with ⟨next, _, _, hInside, hRead⟩
        rw [if_pos hInside, hRead, ok_bind]
        simp
  | cons op ops ih =>
    rcases forall_mem_cons.mp hOps with ⟨hOp, hRest⟩
    cases fuel with
    | zero => simp at hFuel
    | succ fuel =>
      rcases readOp_of_isChunk hOp front (ops.flatten ++ tail) with
        ⟨byte, hByte, hForward, hInside, hRead⟩
      rw [length_cons] at hFuel
      rw [flatten_cons, append_assoc, countSeparators, if_pos (by omega), hRead, ok_bind]
      dsimp only
      rw [assert_of hForward, ok_bind, ← append_assoc front,
        ih hRest (by omega : ops.length ≤ fuel), count_cons]
      simp only [eq_separator_iff hOp hByte, beq_iff_eq]
      split_ifs
      · rw [Nat.add_right_comm, Nat.add_assoc]
      · rfl

/-
  What the second walk has written and the segment it leaves open are the operations that are no
  separators, and the bytes read of the tail.
-/
theorem writeSegments_eq (hTail : opLexer.IsRest tail) (hOps : ∀ op ∈ ops, opLexer.IsChunk op)
    {fuel : Nat} (hFuel : ops.length + tail.length ≤ fuel) {script front segment : Bytes}
    (hScript : script = front ++ segment ++ (ops.flatten ++ tail)) (written : Bytes) :
    ∃ done start stop, writeSegments script fuel front.length (front ++ segment).length written =
        .ok (done, start, stop) ∧ start ≤ stop ∧ stop ≤ script.length ∧
      done ++ (script.take stop).drop start =
        written ++ segment ++ ((ops.filter (· ≠ separator)).flatten ++ cutTail tail) := by
  induction ops generalizing fuel front segment written with
  | nil =>
    rw [flatten_nil, nil_append] at hScript
    by_cases hNe : tail = []
    · -- the walk is at the end of the script
      subst hNe
      rw [append_nil] at hScript
      refine ⟨written, front.length, (front ++ segment).length, ?_, by simp, by rw [hScript], ?_⟩
      · cases fuel with
        | zero => rfl
        | succ fuel => rw [writeSegments, if_neg (by rw [hScript]; omega)]
      · rw [hScript, take_length, drop_left]
        rw [show cutTail [] = [] from rfl]
        simp
    · -- the tail is read up to the reported cursor
      have hPos := length_pos_iff.mpr hNe
      rcases readOp_of_isRest hTail hNe (front ++ segment) with ⟨next, hCut, hNext, hInside, hRead⟩
      rw [← hScript] at hInside hRead
      cases fuel with
      | zero => omega
      | succ fuel =>
        refine ⟨written, front.length, (front ++ segment).length + next, ?_, ?_, ?_, ?_⟩
        · rw [writeSegments, if_pos hInside, hRead]
          rfl
        · rw [length_append]
          omega
        · have hTotal : script.length = (front ++ segment).length + tail.length := by
            rw [hScript, length_append]
          omega
        · rw [hScript, take_length_add_append, append_assoc front, drop_left, cutTail, hCut]
          simp
  | cons op ops ih =>
    rcases forall_mem_cons.mp hOps with ⟨hOp, hRest⟩
    rw [flatten_cons, append_assoc op] at hScript
    rcases readOp_of_isChunk hOp (front ++ segment) (ops.flatten ++ tail) with
      ⟨byte, hByte, hForward, hInside, hRead⟩
    rw [← hScript] at hInside hRead
    cases fuel with
    | zero => simp at hFuel
    | succ fuel =>
      have hLeft : ops.length + tail.length ≤ fuel := by
        rw [length_cons] at hFuel
        omega
      rw [writeSegments, if_pos (by omega), hRead, ok_bind]
      dsimp only
      rw [assert_of hForward, ok_bind]
      by_cases hSep : op = separator
      · -- the open segment is written
        have hSegment :
            getRange? script front.length ((front ++ segment ++ op).length - 1) = some segment := by
          have hStop : (front ++ segment ++ op).length - 1 = (front ++ segment).length := by
            rw [hSep, length_append]
            rfl
          rw [hScript, hStop, getRange?_append]
        rw [if_pos ((eq_separator_iff hOp hByte).mpr hSep), hSegment, expect_some, ok_bind]
        rcases ih hRest hLeft (show script =
                front ++ segment ++ op ++ [] ++ (ops.flatten ++ tail) by
              rw [hScript]; simp)
            (written ++ segment) with
          ⟨done, start, stop, hLoop, hOrder, hEnd, hDone⟩
        rw [append_nil] at hLoop hDone
        refine ⟨done, start, stop, hLoop, hOrder, hEnd, ?_⟩
        rw [hDone, filter_cons_of_neg (by simpa using hSep)]
      · -- the operation joins the open segment
        rw [if_neg (fun hEq => hSep ((eq_separator_iff hOp hByte).mp hEq))]
        rcases ih hRest hLeft (show script = front ++ (segment ++ op) ++ (ops.flatten ++ tail) by
              rw [hScript]; simp)
            written with
          ⟨done, start, stop, hLoop, hOrder, hEnd, hDone⟩
        rw [← append_assoc] at hLoop
        refine ⟨done, start, stop, hLoop, hOrder, hEnd, ?_⟩
        rw [hDone, filter_cons_of_pos (by simpa using hSep), flatten_cons]
        simp only [append_assoc]

--------
-- What the Digest Sees
--------

/- Both walks see the same operations. -/
theorem legacyEncodeScriptCode_eq (K : Primitives) (code : Script) :
    legacyEncodeScriptCode K code = .ok
      (K.encodeVarInt (code.length - (operations code).count separator) ++
        (((operations code).filter (· ≠ separator)).flatten ++ cutTail (truncatedTail code))) := by
  have hScript : (operations code).flatten ++ truncatedTail code = code :=
    opLexer.flatten_chunks code
  have hOps : ∀ op ∈ operations code, opLexer.IsChunk op :=
    fun _ hMem => opLexer.isChunk_of_mem hMem
  have hTail := opLexer.isRest_rest code
  have hFuel : (operations code).length + (truncatedTail code).length ≤ code.length := by
    have hLe := Lexer.length_le_of_chunks hOps []
    have hTotal := congrArg List.length hScript
    rw [append_nil] at hLe
    rw [length_append] at hTotal
    omega
  have hCount := countSeparators_eq hTail hOps
    (by omega : (operations code).length ≤ code.length) [] 0
  rw [nil_append, hScript, length_nil, Nat.zero_add] at hCount
  have hLe : (operations code).count separator ≤ code.length := by
    have := count_le_length (a := separator) (l := operations code)
    omega
  rcases writeSegments_eq hTail hOps hFuel (show code = [] ++ [] ++ _ from hScript.symm) [] with
    ⟨done, start, stop, hWalk, hOrder, hEnd, hDone⟩
  rw [nil_append, length_nil] at hWalk
  rw [nil_append, nil_append] at hDone
  rw [legacyEncodeScriptCode, hCount, ok_bind, assert_of hLe, ok_bind,
    encode_of_ne_nil (K.encodeVarInt_ne_nil _), ok_bind, hWalk, ok_bind]
  dsimp only
  by_cases hOpen : start = code.length
  · -- nothing is left after the last separator
    have hNone : (code.take stop).drop start = [] := by
      rw [drop_eq_nil_iff, length_take]
      omega
    rw [hNone, append_nil] at hDone
    rw [if_neg (not_not_intro hOpen), ← hDone]
    rfl
  · have hRange := getRange?_eq_some.mpr ⟨hOrder, hEnd, rfl⟩
    rw [if_pos hOpen, assert_of hOrder, ok_bind,
      hRange, expect_some, ok_bind, ← hDone, append_assoc]
    rfl

/- One input of the preimage is written. -/
theorem legacyEncodeInput_returns (K : Primitives) {inputIndex : Nat}
    (hInput : inputIndex < tx.input.length)
    (signedIndex : Nat) (code : Script) (mode : EcdsaHashMode) :
    ∃ written, legacyEncodeInput K tx signedIndex inputIndex code mode = .ok written := by
  have hScript : ∃ script, (if inputIndex = signedIndex then
            legacyEncodeScriptCode K code
          else
            encode (K.encodeVarInt 0)) = .ok script :=
    exists_ok_ite (fun _ => ⟨_, legacyEncodeScriptCode_eq K code⟩)
      (fun _ => ⟨_, encode_of_ne_nil (K.encodeVarInt_ne_nil 0)⟩)
  rcases hScript with ⟨script, hScript⟩
  rw [legacyEncodeInput, getElem?_eq_getElem hInput,
    expect_some, ok_bind, encode_of_ne_nil (K.encodeOutPoint_ne_nil _),
    ok_bind, hScript, ok_bind, encode_of_ne_nil (K.encodeU32_ne_nil _),
    encode_of_ne_nil (K.encodeSequence_ne_nil _)]
  split_ifs <;> exact ⟨_, rfl⟩

theorem legacyEncodeInputs_returns (K : Primitives) {index : Nat} (hIndex : index < tx.input.length)
    (code : Script) (mode : EcdsaHashMode) :
    ∃ written, legacyEncodeInputs K tx index code mode = .ok written := by
  rw [legacyEncodeInputs, encode_of_ne_nil (K.encodeVarInt_ne_nil _),
    encode_of_ne_nil (K.encodeVarInt_ne_nil _)]
  refine exists_ok_ite (fun _ => ?_) fun _ => ?_
  · rcases legacyEncodeInput_returns K hIndex index code mode with ⟨input, hInput⟩
    rw [ok_bind, hInput]
    exact ⟨_, rfl⟩
  · have hEach : ∀ inputIndex ∈ List.range tx.input.length,
        ∃ written, legacyEncodeInput K tx index inputIndex code mode = .ok written := by
      intro inputIndex hMem
      exact legacyEncodeInput_returns K (mem_range.mp hMem) index code mode
    rcases exists_ok_mapM hEach with ⟨inputs, hInputs⟩
    rw [ok_bind, hInputs]
    exact ⟨_, rfl⟩

/- The legacy digest of an input the transaction has. -/
theorem legacySighash_returns (K : Primitives) {index : Nat} (hIndex : index < tx.input.length)
    (code : Script) (hashType : UInt32) :
    ∃ digest, legacySighash K tx index code hashType = .ok digest := by
  rcases EcdsaHashMode.fromHashType_returns hashType with ⟨mode, hMode⟩
  rw [legacySighash, assert_of hIndex, ok_bind, hMode, ok_bind]
  refine exists_ok_ite (fun _ => ⟨_, rfl⟩) fun hSingle => ?_
  have hOutputs : legacyOutputCount tx index mode ≤ tx.output.length := by
    unfold legacyOutputCount
    split_ifs with hNone hIsSingle
    · omega
    · by_contra hShort
      exact hSingle ⟨hIsSingle, by omega⟩
    · omega
  have hEncoded :
      ∀ value ∈ (legacyOutputs tx index (legacyOutputCount tx index mode) mode).map K.encodeTxOut,
        value ≠ [] := by
    intro value hValue
    rcases mem_map.mp hValue with ⟨output, _, rfl⟩
    exact K.encodeTxOut_ne_nil output
  rcases legacyEncodeInputs_returns K hIndex code mode with ⟨inputs, hInputs⟩
  rw [encode_of_ne_nil (K.encodeVersion_ne_nil _), ok_bind, hInputs, ok_bind]
  dsimp only
  rw [assert_of hOutputs, ok_bind, encode_of_ne_nil (K.encodeVarInt_ne_nil _), ok_bind,
    encodeEach_of_ne_nil hEncoded, ok_bind, encode_of_ne_nil (K.encodeLockTime_ne_nil _), ok_bind,
    encode_of_ne_nil (K.encodeU32_ne_nil _), ok_bind]
  exact ⟨_, rfl⟩

/- The digest sees the code only as it is written. -/
theorem legacySighash_congr {K : Primitives} {code other : Script}
    (hSame : legacyEncodeScriptCode K code = legacyEncodeScriptCode K other)
    (tx : Transaction) (index : Nat) (hashType : UInt32) :
    legacySighash K tx index code hashType = legacySighash K tx index other hashType := by
  simp only [legacySighash, legacyEncodeInputs, legacyEncodeInput, hSame]

/-
  What is written of a script code: its length without the separators, the operations that are none,
  and of a truncated push the bytes up to the cursor. So the separators of a code without a
  truncated push do not matter to the digest.
-/
theorem legacyEncodeScriptCode_exact (K : Primitives) (code : Script) :
    legacyEncodeScriptCode K code = .ok
          (K.encodeVarInt (code.length - (operations code).count separator) ++
            (((operations code).filter (· ≠ separator)).flatten ++ cutTail (truncatedTail code))) ∧
      (truncatedTail code = [] →
        ∀ (tx : Transaction) (index : Nat) (hashType : UInt32),
          legacySighash K tx index code hashType = legacySighash K tx index
              ((operations code).filter (· ≠ separator)).flatten hashType) := by
  refine ⟨legacyEncodeScriptCode_eq K code, ?_⟩
  intro hWhole tx index hashType
  have hKept :
      ((operations code).filter (· ≠ separator)).flatten = opLexer.keep (· ≠ separator) code := by
    rw [Lexer.keep, show opLexer.rest code = [] from hWhole, append_nil]
  have hParse : operations (opLexer.keep (· ≠ separator) code) =
          (operations code).filter (· ≠ separator) ∧
        truncatedTail (opLexer.keep (· ≠ separator) code) = truncatedTail code :=
    opLexer.chunks_keep _ code
  -- what is left has no separators and is as long as written
  have hNone : ((operations code).filter (· ≠ separator)).count separator = 0 := by
    simp [count_eq_zero]
  have hLen : code.length - (operations code).count separator =
        (opLexer.keep (· ≠ separator) code).length := by
    have hAll := opLexer.length_keep_ne separator code
    rw [show separator.length = 1 from rfl, Nat.mul_one] at hAll
    exact Nat.sub_eq_of_eq_add hAll.symm
  apply legacySighash_congr
  rw [hKept, legacyEncodeScriptCode_eq, legacyEncodeScriptCode_eq, hParse.1, hParse.2, hNone,
    hLen, filter_filter]
  simp only [Bool.and_self, Nat.sub_zero]

/- Two separators, and the byte of one inside a push. -/
theorem legacyEncodeScriptCode_exact_pushed :
    truncatedTail [0x51, 0xab, 1, 0xab, 0xab, 0xac] = [] ∧
      ∀ (tx : Transaction) (index : Nat) (hashType : UInt32),
        legacySighash (Crypto.ofSha256 []).primitives tx index
            [0x51, 0xab, 1, 0xab, 0xab, 0xac] hashType =
          legacySighash (Crypto.ofSha256 []).primitives tx index
            [0x51, 1, 0xab, 0xac] hashType := by
  have hWhole : truncatedTail [0x51, 0xab, 1, 0xab, 0xab, 0xac] = [] := by decide +kernel
  have hLeft : ((operations [0x51, 0xab, 1, 0xab, 0xab, 0xac]).filter
        (· ≠ separator)).flatten = [0x51, 1, 0xab, 0xac] := by
    decide +kernel
  refine ⟨hWhole, ?_⟩
  intro tx index hashType
  rw [← hLeft]
  exact (legacyEncodeScriptCode_exact _ _).2 hWhole tx index hashType

end Bitmigo
