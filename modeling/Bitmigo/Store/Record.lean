import Bitmigo.Chain.Tree
import Bitmigo.Store.Reader

/-
  One record of the block index: a header and what is known about the block behind it.

  Key definitions include:
    * `Persisted` and `Persisted.of`
    * `Persisted.encode` and `Persisted.decode`
    * `putRecord`
    * `Read1` and `readRecord`

  Key theorems include:
    * `Persisted.decode_encode`
    * `readRecord_put`, a whole record is read back

  `len(u32 LE) ‖ header(80) ‖ tag(1) ‖ fields ‖ checksum(4)`.
-/

namespace Bitmigo

open Result List StoreReader

--------
-- Statuses
--------

def Stage.tag : Stage → UInt8
  | .acceptHeader => 1
  | .checkBlock => 2
  | .acceptBlock => 3
  | .confirm => 4
  | .connect => 5

/- The stage a byte names, or nothing. -/
def Stage.ofTag (tag : UInt8) : Option Stage :=
  if tag = 1 then some .acceptHeader
  else if tag = 2 then some .checkBlock
  else if tag = 3 then some .acceptBlock
  else if tag = 4 then some .confirm
  else if tag = 5 then some .connect
  else none

/- What one record says about the block behind its header. -/
inductive Persisted where
  | accepted
  | checked (location : BlockLocation)
  | connected (location : BlockLocation) (undo : UndoLocation)
  | refused (stage : Stage)
  deriving DecidableEq

namespace Persisted

/- What the tree is holding, or nothing for genesis. -/
def of : HeaderStatus → Option Persisted
  | .genesis => none
  -- both verdicts are derived again by a replay
  | .headerAccepted | .invalidAncestor _
  | .invalid (.acceptHeader _) => some .accepted
  | .blockChecked location => some (.checked location)
  | .connected location undo =>
    some (.connected location undo)
  | .invalid invalidity => some (.refused invalidity.stage)

/- Where the record says the block's bytes are. -/
def location : Persisted → Option BlockLocation
  | .checked location | .connected location _ =>
    some location
  | .accepted | .refused _ => none

def putLocation (file offset len : UInt32) : Bytes :=
  Encoding.u32 file ++ Encoding.u32 offset ++ Encoding.u32 len

/- The tag byte and the fields behind it. -/
def encode : Persisted → Bytes
  | .accepted => [0]
  | .checked location =>
    1 :: putLocation location.file location.offset location.len
  | .connected location undo =>
    2 :: (putLocation location.file location.offset
      location.len ++ putLocation undo.file undo.offset undo.len)
  | .refused stage => [3, stage.tag]

def triple : StoreReader (UInt32 × UInt32 × UInt32) := do
  let file ← u32Le
  let offset ← u32Le
  let len ← u32Le
  return (file, offset, len)

def blockLocation : StoreReader BlockLocation := do
  let (file, offset, len) ← triple
  return { file, offset, len }

/- Read one back. -/
def decode : StoreReader Persisted := do
  let tag ← u8
  if tag = 0 then
    return .accepted
  else if tag = 1 then do
    let location ← blockLocation
    return .checked location
  else if tag = 2 then do
    let location ← blockLocation
    let (file, offset, len) ← triple
    return .connected location { file, offset, len }
  else if tag = 3 then do
    let tag ← u8
    let stage ← Program.lift (orFail (.badTag tag) (Stage.ofTag tag))
    return .refused stage
  else
    Program.fail (.badTag tag)

end Persisted

--------
-- Records
--------

/- A block header on the wire. -/
def blockHeaderBytes : Nat := 80

/- The largest a record can be: the header, the tag, two locations and the checksum. -/
def maxRecordBytes : Nat := blockHeaderBytes + 1 + 24 + 4

section

variable (K : Primitives)

/- Four bytes of `SHA256d`. -/
def checksum (payload : Bytes) : Bytes :=
  (K.sha256d payload).val.take 4

/- The header and the status of one record. -/
def payloadOf (header : Header) (status : Persisted) : Bytes :=
  K.serializeHeader header ++ status.encode

/- The length, the payload and its checksum. -/
def frameOf (payload : Bytes) : Bytes :=
  Encoding.u32 (clampU32 payload.length) ++ payload ++ checksum K payload

/- The bytes of one record. -/
def putRecord (header : Header) (status : Persisted) : Result Empty Bytes := do
  assert ((K.serializeHeader header).length = blockHeaderBytes)
  let payload := payloadOf K header status
  assert ((clampU32 payload.length).toNat < maxRecordBytes)
  return frameOf K payload

/- What came of trying to read one more record. -/
inductive Read1 where
  | record (header : Header) (status : Persisted)
  | finished
  | torn (bytes : Nat)

/- The header and the status inside one record's payload. -/
def parseRecord : StoreReader (Header × Persisted) := do
  let bytes ← StoreReader.take blockHeaderBytes
  let header ← Program.lift
    (orFail (.truncated blockHeaderBytes bytes.length) (K.deserializeHeader bytes))
  let status ← Persisted.decode
  StoreReader.finish
  return (header, status)

/- Read one record, or say why there was not one; and what of the file is left. -/
def readRecord (file : Bytes) : Result IoError (Read1 × Bytes) :=
  if file.length < 4 then
    .ok (.finished, [])
  else
    let declared := LittleEndian.decode (file.take 4)
    let rest := file.drop 4
    if maxRecordBytes ≤ declared then
      .ok (.torn declared, rest)
    else if rest.length < declared + 4 then
      .ok (.torn declared, [])
    else
      let payload := rest.take declared
      let four := (rest.drop declared).take 4
      let left := rest.drop (declared + 4)
      if four = checksum K payload then
        match (parseRecord K).read payload with
        | .ok (header, status) =>
          .ok (.record header status, left)
        | .error (.error e) => Result.fail (.decode e)
        | .error .panic => panicked
      else
        .ok (.torn declared, left)

end

--------
-- Round Trips
--------

theorem Stage.ofTag_tag (stage : Stage) : Stage.ofTag stage.tag = some stage := by
  cases stage <;> rfl

namespace Persisted

theorem length_putLocation (file offset len : UInt32) :
    (putLocation file offset len).length = 12 := by
  simp [putLocation]

theorem length_encode_le (status : Persisted) : status.encode.length ≤ 25 := by
  cases status <;> simp [encode, length_putLocation]

theorem triple_append (file offset len : UInt32) (back : Bytes) :
    triple (putLocation file offset len ++ back) = (.ok (file, offset, len), back) := by
  rw [triple, putLocation, append_assoc, append_assoc, Program.bind_of_ok (u32Le_append _ _),
    Program.bind_of_ok (u32Le_append _ _),
    Program.bind_of_ok (u32Le_append _ _)]
  rfl

theorem blockLocation_append (location : BlockLocation) (back : Bytes) :
    blockLocation (putLocation location.file location.offset location.len ++ back) =
      (.ok location, back) := by
  rw [blockLocation, Program.bind_of_ok (triple_append _ _ _ _)]
  rfl

/- A status is read back, and what follows it is left. -/
theorem decode_encode (status : Persisted) (back : Bytes) :
    decode (status.encode ++ back) = (.ok status, back) := by
  cases status with
  | accepted => rfl
  | checked location =>
    rw [encode, cons_append, decode, Program.bind_of_ok (u8_cons _ _),
      if_neg (by decide), if_pos rfl, Program.bind_of_ok (blockLocation_append _ _)]
    rfl
  | connected location undo =>
    rw [encode, cons_append, append_assoc, decode, Program.bind_of_ok (u8_cons _ _),
      if_neg (by decide), if_neg (by decide), if_pos rfl,
      Program.bind_of_ok (blockLocation_append _ _), Program.bind_of_ok (triple_append _ _ _ _)]
    rfl
  | refused stage =>
    rw [encode, cons_append, decode, Program.bind_of_ok (u8_cons _ _),
      if_neg (by decide), if_neg (by decide), if_neg (by decide), if_pos rfl, cons_append,
      Program.bind_of_ok (u8_cons _ _), Stage.ofTag_tag]
    rfl

end Persisted

section

variable {K : Primitives}

theorem length_checksum (payload : Bytes) : (checksum K payload).length = 4 := by
  rw [checksum, length_take, FixedBytes.length_val]
  rfl

section

variable (header : Header) (status : Persisted)

/- A payload is its header, its tag and at most two locations. -/
theorem length_payloadOf_le : (payloadOf K header status).length ≤ 105 := by
  have hStat := status.length_encode_le
  rw [payloadOf, length_append, K.length_serializeHeader]
  omega

theorem toNat_clamp_payload :
    (clampU32 (payloadOf K header status).length).toNat = (payloadOf K header status).length := by
  have hLen := length_payloadOf_le (K := K) header status
  rw [toNat_clampU32]
  omega

/- The encoder's own assertions hold. -/
theorem putRecord_eq : putRecord K header status = .ok (frameOf K (payloadOf K header status)) := by
  have hLen := length_payloadOf_le (K := K) header status
  have hHeader : (K.serializeHeader header).length = blockHeaderBytes :=
    K.length_serializeHeader header
  have hBound : (clampU32 (payloadOf K header status).length).toNat < maxRecordBytes := by
    rw [toNat_clamp_payload]
    exact Nat.lt_of_le_of_lt hLen (by decide)
  rw [putRecord, Result.assert_of hHeader, Result.ok_bind]
  dsimp only
  rw [Result.assert_of hBound]
  rfl

theorem parseRecord_payloadOf :
    parseRecord K (payloadOf K header status) = (.ok (header, status), []) := by
  have hStat := status.decode_encode []
  rw [append_nil] at hStat
  have hHeader : (K.serializeHeader header).length = blockHeaderBytes :=
    K.length_serializeHeader header
  rw [parseRecord, payloadOf, Program.bind_of_ok (StoreReader.take_append hHeader _),
    K.deserialize_serializeHeader header]
  show (Program.lift (.ok header) >>= _) _ = _
  rw [Program.lift_ok_bind, Program.bind_of_ok hStat]
  rfl

end

theorem decode_u32_toNat (n : UInt32) : LittleEndian.decode (Encoding.u32 n) = n.toNat := by
  have hLt : n.toNat < 256 ^ 4 := n.toNat_lt
  rw [Encoding.u32, LittleEndian.decode_encode_of_lt hLt]

/- A whole record is read back, and what follows it is left. -/
theorem readRecord_put (header : Header) (status : Persisted) (rest : Bytes) :
    readRecord K (frameOf K (payloadOf K header status) ++ rest) =
      .ok (.record header status, rest) := by
  have hLen := length_payloadOf_le (K := K) header status
  have hParse := parseRecord_payloadOf (K := K) header status
  have hClamp := toNat_clamp_payload (K := K) header status
  generalize payloadOf K header status = payload at *
  have hFour : (Encoding.u32 (clampU32 payload.length)).length = 4 := Encoding.length_u32 _
  have hSum := length_checksum (K := K) payload
  have hFile : frameOf K payload ++ rest =
      Encoding.u32 (clampU32 payload.length) ++ (payload ++ (checksum K payload ++ rest)) := by
    simp [frameOf]
  have hTake : (frameOf K payload ++ rest).take 4 = Encoding.u32 (clampU32 payload.length) := by
    rw [hFile, ← hFour, take_left]
  have hDrop : (frameOf K payload ++ rest).drop 4 = payload ++ (checksum K payload ++ rest) := by
    rw [hFile, ← hFour, drop_left]
  have hLeft : (payload ++ (checksum K payload ++ rest)).drop (payload.length + 4) = rest := by
    rw [← hSum, ← append_assoc, ← length_append, drop_left]
  have hRead : (parseRecord K).read payload = .ok (header, status) := by
    rw [StoreReader.read, hParse]
  rw [readRecord, hTake, hDrop, decode_u32_toNat, hClamp]
  dsimp only
  rw [if_neg, if_neg, if_neg, take_left, drop_left, if_pos, hRead, hLeft]
  · rw [← hSum, take_left]
  · simp only [length_append, hSum]
    omega
  · rw [maxRecordBytes, blockHeaderBytes]
    omega
  · simp only [hFile, length_append, hFour]
    omega

end

end Bitmigo
