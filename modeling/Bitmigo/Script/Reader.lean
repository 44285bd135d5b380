import Bitmigo.Script.Opcode
import Bitmigo.Lib.LittleEndian

/-
  Reading a script one opcode at a time.

  Key definitions include:
    * `readOp`, the raw step with its cursor
    * `Reader` and `Reader.nextOp`
    * `Reader.steps`, what a loop over a reader sees
    * `pushEncoding`

  `readOp_safe` says where the cursor can land, and `Reader.steps_safe` that reading a script
  shorter than `2 ^ 32` bytes never panics.
-/

namespace Bitmigo

open Result List

--------
-- One Read
--------

/- What one read found, with the cursor after it. -/
inductive OpRead where
  | op (opcode : UInt8) (next : Nat)
  | truncated (next : Nat)
  deriving DecidableEq

/- How many size bytes follow a push opcode. -/
def sizeFieldLen (opcode : UInt8) : Nat :=
  if opcode = opPushdata1 then 1
  else if opcode = opPushdata2 then 2
  else if opcode = opPushdata4 then 4
  else 0

/- The push size: the opcode itself for a direct push, else its little-endian size field. -/
def dataLen (opcode : UInt8) (sizeField : Bytes) : Result ScriptError Nat :=
  match sizeField with
  | [] => .ok opcode.toNat
  | [_] => .ok (LittleEndian.decode sizeField)
  | [_, _] => .ok (LittleEndian.decode sizeField)
  | [_, _, _, _] => .ok (LittleEndian.decode sizeField)
  | _ => panicked

/- Read the opcode at `position`. -/
def readOp (script : Script) (position : Nat) : Result ScriptError OpRead := do
  assert (position < script.length)
  let opcode ← expect script[position]?
  let next := position + 1
  if opPushdata4 < opcode then
    return .op opcode next
  else
    match getRange? script next (next + sizeFieldLen opcode) with
    | none => return .truncated next
    | some sizeField => do
        let len ← dataLen opcode sizeField
        let next := next + sizeFieldLen opcode
        assert (next ≤ script.length)
        if script.length - next < len then
          return .truncated next
        else
          let next := next + len
          assert (next ≤ script.length)
          return .op opcode next

/-
  What a read from `position` may report: the opcode is the byte there, and the cursor moves forward
  inside the script, past the size field of a push.
-/
def OpRead.Follows (read : OpRead) (script : Script) (position : Nat) : Prop :=
  match read with
  | .op opcode next =>
    script[position]? = some opcode ∧
      position < next ∧ next ≤ script.length ∧
      (opcode ≤ opPushdata4 → position + 1 + sizeFieldLen opcode ≤ next)
  | .truncated next =>
    position < next ∧ next ≤ script.length

theorem sizeFieldLen_cases (opcode : UInt8) :
    sizeFieldLen opcode = 0 ∨ sizeFieldLen opcode = 1 ∨
      sizeFieldLen opcode = 2 ∨ sizeFieldLen opcode = 4 := by
  unfold sizeFieldLen
  split
  · simp
  · split
    · simp
    · split <;> simp

theorem dataLen_isOk (opcode : UInt8) {sizeField : Bytes}
    (hLen : sizeField.length = sizeFieldLen opcode) :
    ∃ len, dataLen opcode sizeField = .ok len := by
  rcases sizeField with _ | ⟨a, _ | ⟨b, _ | ⟨c, _ | ⟨d, _ | ⟨e, rest⟩⟩⟩⟩⟩
  case nil => exact ⟨_, rfl⟩
  case cons.nil => exact ⟨_, rfl⟩
  case cons.cons.nil => exact ⟨_, rfl⟩
  case cons.cons.cons.nil =>
    have := sizeFieldLen_cases opcode
    simp at hLen
    omega
  case cons.cons.cons.cons.nil => exact ⟨_, rfl⟩
  case cons.cons.cons.cons.cons =>
    have := sizeFieldLen_cases opcode
    simp at hLen
    omega

/- A read inside the script does not panic and moves forward. -/
theorem readOp_safe {script : Script} {position : Nat} (hPosition : position < script.length) :
    (readOp script position).Safe (fun read => read.Follows script position) := by
  have hByte : script[position]? = some script[position] := getElem?_eq_getElem hPosition
  simp only [readOp, safe_bind, safe_assert, safe_expect, hByte, hPosition, true_and]
  refine ⟨_, rfl, ?_⟩
  split
  case isTrue hPlain =>
    refine ⟨hByte, by omega, by omega, ?_⟩
    intro hPush
    exact absurd hPush (UInt8.not_le.mpr hPlain)
  case isFalse hPush =>
    split
    case h_1 hNone =>
      exact ⟨by omega, by omega⟩
    case h_2 sizeField hSome =>
      rcases getRange?_eq_some.mp hSome with ⟨_, hInside, _⟩
      have hLength := length_of_getRange? hSome
      rcases dataLen_isOk script[position] (by simpa using hLength) with ⟨len, hLen⟩
      simp only [hLen, ok_bind, safe_bind, safe_assert]
      refine ⟨hInside, ?_⟩
      split
      case isTrue hShort =>
        exact ⟨by omega, hInside⟩
      case isFalse hFits =>
        simp only [safe_bind, safe_assert]
        refine ⟨by omega, hByte, by omega, by omega, ?_⟩
        intro _
        omega

--------
-- The Reader
--------

/- One opcode with its push data and the cursor after it. -/
structure Op where
  opcode : Opcode
  push : Bytes
  stop : Nat
  deriving DecidableEq

/- A cursor over a script that counts the opcodes read. -/
structure Reader where
  script : Script
  position : Nat
  opsRead : Nat
  deriving DecidableEq

variable {step : Result ScriptError (Op × Reader)}

/- The data of the push at `start`, which ends at `next`. -/
def pushData (script : Script) (start next : Nat) : Result ScriptError Bytes := do
  let opcode ← expect script[start]?
  let dataStart := start + 1 + sizeFieldLen opcode
  assert (dataStart ≤ next)
  expect (getRange? script dataStart next)

namespace Reader

variable {reader next : Reader} {script : Script} {fuel : Nat} {op : Op} {byte : UInt8}

def new (script : Script) : Reader where
  script := script
  position := 0
  opsRead := 0

/- Read the next opcode: nothing at the end of the script, `BadOpcode` at a truncated push. -/
def nextOp (reader : Reader) : Result ScriptError (Option (Except ScriptError Op) × Reader) :=
  if reader.script.length ≤ reader.position then do
    assert (reader.position = reader.script.length)
    return (none, reader)
  else do
    let start := reader.position
    match ← readOp reader.script start with
    | .op opcode next => do
        assert (start < next)
        assert (next ≤ reader.script.length)
        -- `ops_read` is a `u32`.
        assert (reader.opsRead + 1 < 2 ^ 32)
        let opcode : Opcode := ⟨opcode⟩
        let push ←
          (if opcode.isPush then
            pushData reader.script start next
          else
            pure [])
        let reader :=
          { reader with
            position := next
            opsRead := reader.opsRead + 1 }
        return (some (.ok ⟨opcode, push, next⟩), reader)
    | .truncated next =>
      let reader := { reader with position := next }
      return (some (.error .badOpcode), reader)

/- The index of the opcode last read. -/
def opcodeIndex (reader : Reader) : Result ScriptError Nat := do
  assert (0 < reader.opsRead)
  return reader.opsRead - 1

/-
  The reads of a loop over the reader, up to the end of the script or the first read that is not an
  opcode: no loop of the source reads on after a failed read. Every read consumes a byte, so a fuel
  above what is left of the script is never used up.
-/
def stepsFrom (fuel : Nat) (reader : Reader) : List (Result ScriptError (Op × Reader)) :=
  match fuel with
  | 0 => []
  | fuel + 1 =>
    match reader.nextOp with
    | .error halt => [.error halt]
    | .ok (none, _) => []
    | .ok (some (.error e), _) => [Result.fail e]
    | .ok (some (.ok op), reader) =>
      .ok (op, reader) :: stepsFrom fuel reader

/- The reads of a loop over a whole script. -/
def steps (script : Script) : List (Result ScriptError (Op × Reader)) :=
  stepsFrom (script.length + 1) (new script)

--------
-- Where Reads Land
--------

/- The cursor is inside the script and read a byte per opcode. -/
def Valid (reader : Reader) : Prop :=
  reader.position ≤ reader.script.length ∧ reader.opsRead ≤ reader.position

/- `next` is the reader after it read `op`. -/
structure Reads (reader : Reader) (op : Op)
    (next : Reader) : Prop where
  byte : reader.script[reader.position]? = some op.opcode.byte
  script : next.script = reader.script
  forward : reader.position < next.position
  valid : next.Valid
  stop : op.stop = next.position
  opsRead : next.opsRead = reader.opsRead + 1
  push : op.opcode.isPush = false → op.push = []

theorem valid_new (script : Script) : (new script).Valid := by
  simp [Valid, new]

theorem pushData_safe {start next : Nat} {opcode : UInt8} (hByte : script[start]? = some opcode)
    (hData : start + 1 + sizeFieldLen opcode ≤ next) (hNext : next ≤ script.length) :
    (pushData script start next).Safe (fun _ => True) := by
  simp [pushData, hByte, hData, getRange?, hNext]

/-
  A read from a valid reader does not panic: it ends the script, fails with `BadOpcode`, or yields
  the opcode under the cursor.
-/
theorem nextOp_safe (hValid : reader.Valid) (hLen : reader.script.length < 2 ^ 32) :
    reader.nextOp.Safe (fun result =>
      match result with
      | (none, _) =>
        reader.position = reader.script.length
      | (some (.error e), _) => e = .badOpcode
      | (some (.ok op), next) => reader.Reads op next) := by
  rcases hValid with ⟨hPosition, hOps⟩
  unfold nextOp
  split
  case isTrue hEnd =>
    have hEq : reader.position = reader.script.length := by omega
    simp [hEq]
  case isFalse hInside =>
    refine (readOp_safe (by omega)).bind ?_
    intro read hFollows
    cases read with
    | truncated next => simp
    | op opcode next =>
      rcases hFollows with ⟨hByte, hForward, hNext, hPush⟩
      have hPushSafe :
          (if (Opcode.mk opcode).isPush then
              pushData reader.script reader.position next
            else pure [] : Result ScriptError Bytes).Safe
            (fun push => (Opcode.mk opcode).isPush = false → push = []) := by
        split
        case isTrue hIsPush =>
          refine (pushData_safe hByte (hPush ?_) hNext).mono ?_
          · simpa [Opcode.isPush] using hIsPush
          · simp [hIsPush]
        case isFalse hNotPush => simp
      simp only [safe_bind, safe_assert]
      refine ⟨hForward, hNext, by omega, ?_⟩
      refine hPushSafe.mono ?_
      intro push hEmpty
      exact
        { byte := hByte
          script := rfl
          forward := hForward
          valid := ⟨hNext, by simp; omega⟩
          stop := rfl
          opsRead := rfl
          push := hEmpty }

/-
  Every read of a loop over a script shorter than `2 ^ 32` bytes is free of panics, and ends inside
  the script.
-/
theorem stepsFrom_safe (hValid : reader.Valid) (hLen : reader.script.length < 2 ^ 32)
    (hStep : step ∈ stepsFrom fuel reader) :
    step.Safe (fun result => result.1.stop ≤ reader.script.length ∧ 0 < result.2.opsRead ∧
      (result.1.opcode.isPush = false → result.1.push = [])) := by
  induction fuel generalizing reader with
  | zero => simp [stepsFrom] at hStep
  | succ fuel ih =>
    have hNext := nextOp_safe hValid hLen
    unfold stepsFrom at hStep
    split at hStep
    case h_1 halt hHalt =>
      rw [hHalt, safe_error] at hNext
      rw [mem_singleton] at hStep
      subst hStep
      simpa using hNext
    case h_2 => simp at hStep
    case h_3 e _ _ =>
      rw [mem_singleton] at hStep
      subst hStep
      simp
    case h_4 op next hRead =>
      rw [hRead] at hNext
      have hReads : reader.Reads op next := hNext
      rcases mem_cons.mp hStep with rfl | hLater
      · have hInside := hReads.valid.1
        rw [hReads.script] at hInside
        exact ⟨by rw [hReads.stop]; exact hInside, by rw [hReads.opsRead]; omega, hReads.push⟩
      · have hSafe := ih hReads.valid (by rw [hReads.script]; exact hLen) hLater
        rwa [hReads.script] at hSafe

/- What a read that yields an opcode leaves. -/
theorem nextOp_eq_ok (hNext : reader.nextOp = .ok (some (.ok op), next)) :
    next.script = reader.script ∧ next.opsRead = reader.opsRead + 1 ∧
      op.stop ≤ reader.script.length := by
  unfold nextOp at hNext
  refine of_ite_eq_ok hNext (fun _ hNext => ?_) fun _ hNext => ?_
  · simp [bind_eq_ok] at hNext
  rcases bind_eq_ok.mp hNext with ⟨read, _, hNext⟩
  cases read with
  | truncated after => simp at hNext
  | op opcode after =>
    simp only [bind_eq_ok, assert_eq_ok, pure_eq_ok, Except.ok.injEq, Prod.mk.injEq,
      Option.some.injEq] at hNext
    rcases hNext with ⟨_, _, _, hInside, _, _, push, _, rfl, rfl⟩
    exact ⟨rfl, rfl, hInside⟩

/- The same of every opcode a loop sees, however long. -/
theorem stop_le_of_mem_stepsFrom (hStep : .ok (op, next) ∈ stepsFrom fuel reader) :
    op.stop ≤ reader.script.length ∧ 0 < next.opsRead := by
  induction fuel generalizing reader with
  | zero => simp [stepsFrom] at hStep
  | succ fuel ih =>
    unfold stepsFrom at hStep
    split at hStep
    case h_1 => simp at hStep
    case h_2 => simp at hStep
    case h_3 => simp [Result.fail] at hStep
    case h_4 first after hRead =>
      rcases nextOp_eq_ok hRead with ⟨hScript, hCount, hStop⟩
      rcases mem_cons.mp hStep with hFst | hLater
      · cases hFst
        exact ⟨hStop, by omega⟩
      · rw [← hScript]
        exact ih hLater

theorem steps_safe (hLen : script.length < 2 ^ 32) (hStep : step ∈ steps script) :
    step.Safe (fun result => result.1.stop ≤ script.length ∧ 0 < result.2.opsRead ∧
      (result.1.opcode.isPush = false → result.1.push = [])) :=
  stepsFrom_safe (valid_new script) hLen hStep

theorem stepsFrom_of_nextOp (fuel : Nat) (hNext : reader.nextOp = .ok (some (.ok op), next)) :
    stepsFrom (fuel + 1) reader = .ok (op, next) :: stepsFrom fuel next := by
  rw [stepsFrom, hNext]

theorem stepsFrom_end (hEnd : reader.position = reader.script.length) :
    stepsFrom fuel reader = [] := by
  cases fuel with
  | zero => rfl
  | succ fuel =>
    have hNext : reader.nextOp = .ok (none, reader) := by simp [nextOp, hEnd]
    rw [stepsFrom, hNext]

end Reader

--------
-- Push Encoding
--------

/- The shortest script that pushes `data`. -/
def pushEncoding (data : Bytes) : Result ScriptError Bytes := do
  let opcode ←
    (if data.length < opPushdata1.toNat then
      pure [UInt8.ofNat data.length]
    else if data.length < 2 ^ 8 then
      pure [opPushdata1, UInt8.ofNat data.length]
    else if data.length < 2 ^ 16 then
      pure (opPushdata2 :: LittleEndian.encode 2 data.length)
    else do
      assert (data.length < 2 ^ 32)
      pure (opPushdata4 :: LittleEndian.encode 4 data.length))
  let script := opcode ++ data
  assert (data.length < script.length)
  return script

end Bitmigo
