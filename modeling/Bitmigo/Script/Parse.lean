import Bitmigo.Lib.Lexer
import Bitmigo.Script.Reader

/-
  A script as the operations it is read as.

  Key definitions include:
    * `headRead`, one read in terms of the bytes from the cursor on
    * `opLexer`, with the operations of a script and the tail no operation can be read from

  Key theorems include:
    * `readOp_append`, a read sees only what is ahead of it
    * `isChunk_pushEncoding`, an encoded push is one operation
    * `Reader.steps_flatten`, the reads of whole operations
-/

namespace Bitmigo

open Result List LittleEndian

variable {opcode : UInt8} {body script data : Bytes} {next : Nat}

--------
-- One Read
--------

/- What a push says about the length of its data. -/
def pushLen (opcode : UInt8) (body : Bytes) : Nat :=
  if sizeFieldLen opcode = 0 then
    opcode.toNat
  else
    LittleEndian.decode (body.take (sizeFieldLen opcode))

/- One read, with the cursor counted from where it starts. -/
def headRead (opcode : UInt8) (body : Bytes) : OpRead :=
  if opPushdata4 < opcode then
    .op opcode 1
  else if body.length < sizeFieldLen opcode then
    .truncated 1
  else if body.length <
      sizeFieldLen opcode + pushLen opcode body then
    .truncated (1 + sizeFieldLen opcode)
  else
    .op opcode (1 + sizeFieldLen opcode + pushLen opcode body)

/- The same read further on. -/
def OpRead.shift (offset : Nat) : OpRead → OpRead
  | .op opcode next => .op opcode (offset + next)
  | .truncated next => .truncated (offset + next)

theorem dataLen_eq (opcode : UInt8) (hLen : sizeFieldLen opcode ≤ body.length) :
    dataLen opcode (body.take (sizeFieldLen opcode)) = .ok (pushLen opcode body) := by
  have hTake : (body.take (sizeFieldLen opcode)).length = sizeFieldLen opcode := by
    rw [length_take, Nat.min_eq_left hLen]
  have hCases := sizeFieldLen_cases opcode
  unfold pushLen
  generalize body.take (sizeFieldLen opcode) = field at hTake ⊢
  rcases field with
    _ | ⟨a, _ | ⟨b, _ | ⟨c, _ | ⟨d, _ | ⟨e, rest⟩⟩⟩⟩⟩ <;>
    simp only [length_nil, length_cons] at hTake <;>
    simp only [dataLen, ← hTake] <;>
    first | rfl | omega

/- A read sees only what is ahead of it. -/
theorem readOp_append (front : Bytes) (opcode : UInt8) (body : Bytes) :
    readOp (front ++ opcode :: body) front.length =
      .ok ((headRead opcode body).shift front.length) := by
  have hInside : front.length < (front ++ opcode :: body).length := by simp
  have hByte : (front ++ opcode :: body)[front.length]? = some opcode := by simp
  unfold readOp headRead
  rw [assert_of hInside, ok_bind, hByte, expect_some, ok_bind]
  by_cases hPlain : opPushdata4 < opcode
  · rw [if_pos hPlain, if_pos hPlain]
    rfl
  rw [if_neg hPlain, if_neg hPlain]
  by_cases hShort : body.length < sizeFieldLen opcode
  · have hNone : getRange? (front ++ opcode :: body) (front.length + 1)
        (front.length + 1 + sizeFieldLen opcode) = none := by
      unfold getRange?
      rw [if_neg]
      simp only [length_append, length_cons]
      omega
    rw [hNone, if_pos hShort]
    rfl
  have hField : getRange? (front ++ opcode :: body) (front.length + 1)
      (front.length + 1 + sizeFieldLen opcode) = some (body.take (sizeFieldLen opcode)) := by
    rw [getRange?_eq_some]
    refine ⟨by omega, ?_, ?_⟩
    · simp only [length_append, length_cons]
      omega
    · rw [drop_take, Nat.add_sub_cancel_left,
        show front ++ opcode :: body = (front ++ [opcode]) ++ body by simp,
        show front.length + 1 = (front ++ [opcode]).length by simp,
        drop_left]
  have hNext : front.length + 1 + sizeFieldLen opcode ≤ (front ++ opcode :: body).length := by
    simp only [length_append, length_cons]
    omega
  rw [hField, if_neg hShort]
  dsimp only
  rw [dataLen_eq opcode (Nat.not_lt.mp hShort), ok_bind, assert_of hNext, ok_bind]
  have hRoom : (front ++ opcode :: body).length - (front.length + 1 + sizeFieldLen opcode) <
      pushLen opcode body ↔ body.length < sizeFieldLen opcode + pushLen opcode body := by
    simp only [length_append, length_cons]
    omega
  by_cases hCut : body.length < sizeFieldLen opcode + pushLen opcode body
  · rw [if_pos (hRoom.mpr hCut), if_pos hCut, OpRead.shift, Nat.add_assoc]
    rfl
  · have hStop : front.length + 1 + sizeFieldLen opcode + pushLen opcode body ≤
        (front ++ opcode :: body).length := by
      simp only [length_append, length_cons]
      omega
    rw [if_neg (fun h => hCut (hRoom.mp h)), if_neg hCut, assert_of hStop, ok_bind, OpRead.shift,
      Nat.add_assoc front.length, Nat.add_assoc front.length]
    rfl

--------
-- Operations
--------

theorem readOp_cons (opcode : UInt8) (body : Bytes) :
    readOp (opcode :: body) 0 = .ok (headRead opcode body) := by
  have hRead := readOp_append [] opcode body
  rw [nil_append, length_nil] at hRead
  rw [hRead]
  cases headRead opcode body <;> simp only [OpRead.shift, Nat.zero_add]

theorem headRead_eq_op {byte : UInt8} :
    headRead opcode body = .op byte next ↔ byte = opcode ∧ ((opPushdata4 < opcode ∧ next = 1) ∨
      (¬ opPushdata4 < opcode ∧ sizeFieldLen opcode + pushLen opcode body ≤ body.length ∧
        next = 1 + sizeFieldLen opcode + pushLen opcode body)) := by
  unfold headRead
  split_ifs with hPlain hShort hCut
  · simp [hPlain, eq_comm]
  · simp only [hPlain, not_false_eq_true, true_and, false_and, false_or, false_iff]
    omega
  · simp only [hPlain, not_false_eq_true, true_and, false_and, false_or, false_iff]
    omega
  · simp only [OpRead.op.injEq, hPlain, not_false_eq_true,
      true_and, false_and, false_or, Nat.not_lt.mp hCut, eq_comm]

/- Only the size field decides how long the data is. -/
theorem pushLen_congr {other : Bytes}
    (hField : body.take (sizeFieldLen opcode) = other.take (sizeFieldLen opcode)) :
    pushLen opcode body = pushLen opcode other := by
  rw [pushLen, pushLen, hField]

/- An operation is read the same before anything else. -/
theorem headRead_take_append {byte : UInt8} (hRead : headRead opcode body = .op byte next)
    (rest : Bytes) : headRead opcode (body.take (next - 1) ++ rest) = .op byte next := by
  rw [headRead_eq_op] at hRead ⊢
  rcases hRead with ⟨hByte, ⟨hPlain, hNext⟩ | ⟨hPush, hFits, hNext⟩⟩
  · exact ⟨hByte, .inl ⟨hPlain, hNext⟩⟩
  · have hLen : pushLen opcode (body.take (next - 1) ++ rest) = pushLen opcode body := by
      apply pushLen_congr
      rw [take_append_of_le_length (by rw [length_take]; omega),
        take_take, Nat.min_eq_left (by omega)]
    refine ⟨hByte, .inr ⟨hPush, ?_, ?_⟩⟩
    · rw [hLen, length_append, length_take]
      omega
    · rw [hLen, hNext]

/- The length of the operation a script starts with. -/
def opWidth (script : Bytes) : Option Nat :=
  match readOp script 0 with
  | .ok (.op _ next) => some next
  | _ => none

theorem opWidth_cons :
    opWidth (opcode :: body) = some next ↔ headRead opcode body = .op opcode next := by
  rw [opWidth, readOp_cons]
  cases hRead : headRead opcode body with
  | op byte stop =>
    rcases (headRead_eq_op.mp hRead).1 with rfl
    simp
  | truncated stop => simp

section

variable (hWidth : opWidth script = some next)

include hWidth

theorem exists_of_opWidth :
    ∃ opcode body, script = opcode :: body ∧ headRead opcode body = .op opcode next ∧
      0 < next ∧ next ≤ script.length := by
  cases script with
  | nil => cases hWidth
  | cons opcode body =>
    have hRead := opWidth_cons.mp hWidth
    refine ⟨opcode, body, rfl, hRead, ?_⟩
    rcases (headRead_eq_op.mp hRead).2 with ⟨_, hNext⟩ | ⟨_, hFits, hNext⟩
    · simp [hNext]
    · rw [length_cons]
      omega

theorem opWidth_pos : 0 < next := by
  rcases exists_of_opWidth hWidth with ⟨_, _, _, _, hPos, _⟩
  exact hPos

theorem opWidth_le : next ≤ script.length := by
  rcases exists_of_opWidth hWidth with ⟨_, _, _, _, _, hLe⟩
  exact hLe

theorem opWidth_stable (rest : Bytes) : opWidth (script.take next ++ rest) = some next := by
  rcases exists_of_opWidth hWidth with ⟨opcode, body, rfl, hRead, hPos, _⟩
  obtain ⟨count, rfl⟩ : ∃ count, next = count + 1 := ⟨next - 1, by omega⟩
  rw [take_succ_cons, cons_append, opWidth_cons]
  exact headRead_take_append hRead rest

end

/- Scripts are read one operation at a time. -/
def opLexer : Lexer UInt8 where
  width := opWidth
  width_pos := opWidth_pos
  width_le := opWidth_le
  stable := opWidth_stable

/- The operations of a script, in order. -/
abbrev operations (script : Bytes) : List Bytes :=
  opLexer.chunks script

/- What is left of a script that ends in a truncated push. -/
abbrev truncatedTail (script : Bytes) : Bytes :=
  opLexer.rest script

/- A read where an operation starts. -/
theorem readOp_of_isChunk {op : Bytes} (hOp : opLexer.IsChunk op) (front rest : Bytes) :
    ∃ byte, op.head? = some byte ∧ front.length < (front ++ op).length ∧
      (front ++ op).length ≤ (front ++ (op ++ rest)).length ∧
      readOp (front ++ (op ++ rest)) front.length = .ok (.op byte (front ++ op).length) := by
  have hWidth := hOp.width_append rest
  rcases exists_of_opWidth hOp with ⟨opcode, body, rfl, _⟩
  rw [cons_append] at hWidth
  refine ⟨opcode, rfl, by simp, by simp, ?_⟩
  rw [cons_append, readOp_append, opWidth_cons.mp hWidth, OpRead.shift, length_append]

/- A read where none does. -/
theorem readOp_of_isRest {tail : Bytes} (hTail : opLexer.IsRest tail) (hNe : tail ≠ [])
    (front : Bytes) :
    ∃ next, readOp tail 0 = .ok (.truncated next) ∧ next ≤ tail.length ∧
      front.length < (front ++ tail).length ∧
      readOp (front ++ tail) front.length = .ok (.truncated (front.length + next)) := by
  cases tail with
  | nil => exact absurd rfl hNe
  | cons opcode body =>
    have hInside := readOp_safe (length_pos_iff.mpr hNe)
    rw [readOp_cons] at hInside
    rw [readOp_cons, readOp_append]
    cases hRead : headRead opcode body with
    | op byte next =>
      have hWidth : opWidth (opcode :: body) = none := hTail
      rcases (headRead_eq_op.mp hRead).1 with rfl
      rw [opWidth_cons.mpr hRead] at hWidth
      cases hWidth
    | truncated next =>
      rw [hRead] at hInside
      exact ⟨next, rfl, hInside.2, by simp, rfl⟩

theorem isChunk_plain (hPlain : opPushdata4 < opcode) : opLexer.IsChunk [opcode] :=
  opWidth_cons.mpr (headRead_eq_op.mpr ⟨rfl, .inl ⟨hPlain, rfl⟩⟩)

/- A push is the opcode, its size field and the data. -/
theorem isChunk_push {field : Bytes} (hPush : ¬ opPushdata4 < opcode)
    (hField : sizeFieldLen opcode = field.length) (hLen : pushLen opcode field = data.length) :
    opLexer.IsChunk (opcode :: (field ++ data)) := by
  have hSame : pushLen opcode (field ++ data) = data.length := by
    rw [← hLen]
    apply pushLen_congr
    rw [hField, take_left, take_length]
  refine opWidth_cons.mpr (headRead_eq_op.mpr ⟨rfl, .inr ⟨hPush, ?_, ?_⟩⟩)
  · rw [hSame, hField, length_append]
  · rw [hSame, hField, length_cons, length_append]
    omega

/- A push whose size field holds the length of the data. -/
theorem isChunk_sized (hPush : ¬ opPushdata4 < opcode) (hField : sizeFieldLen opcode ≠ 0)
    (hLen : data.length < 256 ^ sizeFieldLen opcode) :
    opLexer.IsChunk
      (opcode :: (LittleEndian.encode (sizeFieldLen opcode) data.length ++ data)) := by
  refine isChunk_push hPush (length_encode _ _).symm ?_
  rw [pushLen, if_neg hField, take_of_length_le (by simp), decode_encode_of_lt hLen]

/- An encoded push is one operation. -/
theorem isChunk_pushEncoding (hLen : data.length < 2 ^ 32) :
    ∃ pattern, pushEncoding data = .ok pattern ∧ opLexer.IsChunk pattern := by
  unfold pushEncoding
  split_ifs with hDirect hOne hTwo
  · have hMax : opPushdata1.toNat = 76 := rfl
    have hByte : (UInt8.ofNat data.length).toNat = data.length := by
      rw [UInt8.toNat_ofNat', Nat.mod_eq_of_lt (by omega)]
    have hBelow : UInt8.ofNat data.length < opPushdata1 := by rwa [UInt8.lt_iff_toNat_lt, hByte]
    have hNone : sizeFieldLen (UInt8.ofNat data.length) = 0 := by
      unfold sizeFieldLen
      grind
    refine ⟨UInt8.ofNat data.length :: ([] ++ data), by simp, isChunk_push ?_ hNone ?_⟩
    · grind
    · rw [pushLen, if_pos hNone, hByte]
  · exact ⟨opPushdata1 ::
      (LittleEndian.encode 1 data.length ++ data), by simp [LittleEndian.encode],
      isChunk_sized (by decide) (by decide) hOne⟩
  · exact ⟨opPushdata2 :: (LittleEndian.encode 2 data.length ++ data), by simp,
      isChunk_sized (by decide) (by decide) hTwo⟩
  · rw [assert_of hLen]
    exact ⟨opPushdata4 :: (LittleEndian.encode 4 data.length ++ data), by simp,
      isChunk_sized (by decide) (by decide) hLen⟩

--------
-- Scripts of Whole Operations
--------

/- The data an operation pushes. -/
def pushed : Bytes → Bytes
  | [] => []
  | opcode :: body =>
    if opcode ≤ opPushdata4 then body.drop (sizeFieldLen opcode) else []

@[simp] theorem pushed_singleton (opcode : UInt8) : pushed [opcode] = [] := by
  simp [pushed]

/- A direct push of as many bytes as its opcode says. -/
theorem isChunk_direct (hDirect : opcode < opPushdata1) (hLen : data.length = opcode.toNat) :
    opLexer.IsChunk (opcode :: data) ∧ pushed (opcode :: data) = data := by
  have hPush : opcode ≤ opPushdata4 := by grind
  have hField : sizeFieldLen opcode = 0 := by
    unfold sizeFieldLen
    grind
  refine ⟨@isChunk_push opcode data [] (UInt8.not_lt.mpr hPush) hField ?_, ?_⟩
  · rw [pushLen, if_pos hField, hLen]
  · rw [pushed, if_pos hPush, hField, drop_zero]

/- What the reader gives where an operation starts. -/
theorem Reader.nextOp_of_isChunk {op : Bytes} (hOp : opLexer.IsChunk op)
    (front rest : Bytes) (count : Nat) :
    (⟨front ++ (op ++ rest), front.length, count⟩ : Reader).nextOp = (do
      assert (count + 1 < 2 ^ 32)
      return (some (.ok ⟨⟨op.headD 0⟩, pushed op, (front ++ op).length⟩),
        ⟨front ++ (op ++ rest), (front ++ op).length, count + 1⟩)) := by
  rcases readOp_of_isChunk hOp front rest with ⟨byte, hHead, hForward, hInside, hRead⟩
  rcases exists_of_opWidth hOp with ⟨opcode, body, rfl, hWidth, _⟩
  obtain rfl : opcode = byte := by simpa using hHead
  have hPush : (if (Opcode.mk opcode).isPush then
        pushData (front ++ (opcode :: body ++ rest)) front.length (front ++ opcode :: body).length
      else pure []) = .ok (pushed (opcode :: body)) := by
    by_cases hIs : opcode ≤ opPushdata4
    · rcases (headRead_eq_op.mp hWidth).2 with ⟨hPlain, _⟩ | ⟨_, hFits, _⟩
      · exact absurd hIs (UInt8.not_le.mpr hPlain)
      have hRange : getRange? (front ++ (opcode :: body ++ rest))
          (front.length + 1 + sizeFieldLen opcode) (front ++ opcode :: body).length =
            some (body.drop (sizeFieldLen opcode)) := by
        rw [getRange?_eq_some]
        refine ⟨by simp; omega, hInside, ?_⟩
        rw [← append_assoc, take_left, Nat.add_assoc, drop_append,
          drop_of_length_le (by omega), Nat.add_sub_cancel_left, Nat.add_comm 1]
        rfl
      have hLen : front.length + 1 + sizeFieldLen opcode ≤ (front ++ opcode :: body).length := by
        simp
        omega
      have hIsPush : (Opcode.mk opcode).isPush = true := decide_eq_true hIs
      rw [if_pos hIsPush, pushed, if_pos hIs, pushData]
      simp only [show (front ++ (opcode :: body ++ rest))[front.length]? = some opcode by simp,
        expect_some, ok_bind, assert_of hLen, hRange]
    · simp [Opcode.isPush, pushed, hIs]
  rw [nextOp, if_neg (by simp)]
  simp only [hRead, ok_bind, assert_of hForward, assert_of hInside]
  rw [hPush]
  rfl

theorem Reader.steps_plain (rest : Bytes) (hPlain : opPushdata4 < opcode) :
    ∃ tail, steps (opcode :: rest) = .ok (⟨⟨opcode⟩, [], 1⟩, ⟨opcode :: rest, 1, 1⟩) :: tail := by
  have hNext := nextOp_of_isChunk (isChunk_plain hPlain) [] rest 0
  rw [assert_of (by decide), ok_bind, pushed_singleton] at hNext
  exact ⟨_, stepsFrom_of_nextOp _ hNext⟩

/- The reads of whole operations, from a position on. -/
def opSteps (script : Script) : Nat → Nat → List Bytes → List (Result ScriptError (Op × Reader))
  | _, _, [] => []
  | position, count, op :: ops =>
    let next : Reader := ⟨script, position + op.length, count + 1⟩
    .ok (⟨⟨op.headD 0⟩, pushed op, next.position⟩, next) ::
      opSteps script next.position next.opsRead ops

theorem Reader.stepsFrom_flatten {ops : List Bytes} {front : Bytes} {fuel count : Nat}
    (hOps : ∀ op ∈ ops, opLexer.IsChunk op) (hFuel : ops.length ≤ fuel)
    (hCount : count + ops.length < 2 ^ 32) :
    stepsFrom fuel ⟨front ++ ops.flatten, front.length, count⟩ =
      opSteps (front ++ ops.flatten) front.length count ops := by
  induction ops generalizing front fuel count with
  | nil => exact stepsFrom_end (by simp)
  | cons op ops ih =>
    rcases forall_mem_cons.mp hOps with ⟨hOp, hOps⟩
    rw [length_cons] at hFuel hCount
    obtain ⟨fuel, rfl⟩ : ∃ left, fuel = left + 1 := ⟨fuel - 1, by omega⟩
    have hNext := nextOp_of_isChunk hOp front ops.flatten count
    rw [assert_of (by omega), ok_bind] at hNext
    have hLater := @ih (front ++ op) fuel (count + 1) hOps (by omega) (by omega)
    rw [append_assoc, length_append] at hLater
    rw [flatten_cons, stepsFrom_of_nextOp fuel hNext, length_append, hLater]
    rfl

theorem Reader.steps_flatten {ops : List Bytes} (hOps : ∀ op ∈ ops, opLexer.IsChunk op)
    (hLen : ops.length < 2 ^ 32) : steps ops.flatten = opSteps ops.flatten 0 0 ops := by
  have hFuel := Lexer.length_le_of_chunks hOps []
  rw [append_nil] at hFuel
  exact @stepsFrom_flatten ops [] _ 0 hOps (Nat.le_succ_of_le hFuel) (by omega)

end Bitmigo
