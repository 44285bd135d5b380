import Bitmigo.Bitcoin.Types
import Bitmigo.Lib.Framing
import Bitmigo.Lib.LittleEndian
import Bitmigo.Lib.Program

/-
  Framing: messages off a socket that gives its bytes in pieces.

  Key definitions include:
    * `Framer` and `Framer.read`
    * `Wire.framing`, what the bytes of a stream mean
    * `Framer.Holds`, the bytes of an unfinished frame

  Key theorems include:
    * `Framer.Holds.read_bytes`, a call that receives bytes does what the front of the frame says
    * `Framer.Holds.read_eq`, and one that times out changes nothing
-/

namespace Bitmigo

open Result List FixedBytes

variable {magic : FixedBytes 4}

--------
-- Messages and Errors
--------

def headerBytes : Nat := 24

theorem headerBytes_pos : 0 < headerBytes := by decide

def maxMessageLen : Nat := 4000000

def maxInvItems : Nat := 50000

/- The most entries a locator received may have. -/
def maxLocatorItems : Nat := 101

/- The most headers one answer may carry. -/
def maxHeadersItems : Nat := 2000

def maxAddrItems : Nat := 1000

/- What an inventory names: a kind and a hash. -/
structure Inventory where
  kind : UInt32
  hash : Hash32
  deriving DecidableEq

/- A decoded message, with the lists that are counted. -/
inductive NetworkMessage where
  | inv (items : List Inventory)
  | getData (items : List Inventory)
  | notFound (items : List Inventory)
  | getHeaders (locatorHashes : List BlockHash) (stopHash : BlockHash)
  | getBlocks (locatorHashes : List BlockHash) (stopHash : BlockHash)
  | headers (headers : List Header)
  | addr (addresses : List Bytes)
  | addrV2 (addresses : List Bytes)
  | other (command payload : Bytes)

/- Why a frame was refused. -/
inductive WireError where
  | wrongMagic (seen : FixedBytes 4)
  | badCommand
  | tooLong (declared : Nat)
  | overCap (declared cap : Nat)
  | malformed
  | tooManyItems (seen allowed : Nat)
  | stalled
  deriving DecidableEq

/- What one call produced. -/
inductive Frame where
  | message (message : NetworkMessage) (length : Nat)
  | idle
  | eof

/- Why a read gave nothing. -/
inductive ErrorKind where
  | wouldBlock
  | timedOut
  | interrupted
  | other
  deriving DecidableEq

/- A timeout is a tick, not an error. -/
def ErrorKind.isTick : ErrorKind → Bool
  | wouldBlock | timedOut | interrupted => true
  | other => false

/- What a read of the socket gave. -/
inductive Reading where
  | bytes (data : Bytes)
  | failed (kind : ErrorKind)

--------
-- The Framer
--------

/- The counts the decoder leaves to its caller. -/
def countsOf : NetworkMessage → Option (Nat × Nat)
  | .inv items | .getData items | .notFound items =>
    some (items.length, maxInvItems)
  | .getHeaders locatorHashes _ | .getBlocks locatorHashes _ =>
    some (locatorHashes.length, maxLocatorItems)
  | .headers headers => some (headers.length, maxHeadersItems)
  | .addr addresses | .addrV2 addresses =>
    some (addresses.length, maxAddrItems)
  | .other _ _ => none

def checkCounts (message : NetworkMessage) : Result WireError Unit :=
  match countsOf message with
  | none => return ()
  | some (seen, allowed) =>
    ensure (.tooManyItems seen allowed) (seen ≤ allowed)

/- Printable up to the first zero, and then only zeros. -/
def isMessageTypeValidFrom : Bool → Bytes → Bool
  | _, [] => true
  | true, byte :: rest =>
    if byte ≠ 0 then false
    else isMessageTypeValidFrom true rest
  | false, byte :: rest =>
    if byte = 0 then isMessageTypeValidFrom true rest
    else if ¬ (0x20 ≤ byte ∧ byte ≤ 0x7e) then false
    else isMessageTypeValidFrom false rest

def isMessageTypeValid (command : Bytes) : Bool :=
  isMessageTypeValidFrom false command

/- One peer's read side. -/
structure Framer where
  magic : FixedBytes 4
  buffer : Bytes
  got : Nat
  declared : Option Nat
  started : Option Nat
  deadline : Nat

namespace Framer

def new (magic : FixedBytes 4) (initialBytes deadline : Nat) : Result Empty Framer := do
  assert (headerBytes ≤ initialBytes)
  assert (deadline ≠ 0)
  return {
    magic
    buffer := replicate initialBytes 0
    got := 0
    declared := none
    started := none
    deadline
  }

/- Forget a half-read message and keep the buffer. -/
def reset (framer : Framer) : Framer :=
  { framer with got := 0, declared := none, started := none }

/- How far into the buffer the next read may fill. -/
def want (framer : Framer) : Nat :=
  match framer.declared with
  | none => headerBytes
  | some declared => headerBytes + declared

/- Magic, message type and length, in this order. -/
def parseHeader (framer : Framer) (cap : Nat) : Result WireError Nat := do
  let header ← orFail .malformed (getRange? framer.buffer 0 headerBytes)
  let magic ← orFail .malformed ((getRange? header 0 4).bind (ofBytes? 4))
  ensure (.wrongMagic magic) (magic = framer.magic)
  let command ← orFail .malformed (getRange? header 4 16)
  ensure .badCommand (isMessageTypeValid command)
  let length ← orFail .malformed ((getRange? header 16 20).bind (ofBytes? 4))
  let declared := LittleEndian.decode length.val
  ensure (.tooLong declared) (declared ≤ maxMessageLen)
  ensure (.overCap declared cap) (declared ≤ cap)
  return declared

/- Decode the frame in the buffer and start the next one. -/
def finish (deserialize : Bytes → Option NetworkMessage) (declared : Nat) :
    Program Framer WireError Frame := do
  let framer ← Program.get
  let wireLen := headerBytes + declared
  let frame ← Program.lift (orFail .malformed (getRange? framer.buffer 0 wireLen))
  let message ← Program.lift (orFail .malformed (deserialize frame))
  Program.modify reset
  Program.lift (checkCounts message)
  return .message message wireLen

/- A message that is all here is decoded. -/
def conclude (deserialize : Bytes → Option NetworkMessage) (declared : Nat) :
    Program Framer WireError Frame := do
  let framer ← Program.get
  if headerBytes + declared ≤ framer.got then
    finish deserialize declared
  else
    return .idle

/- Make room for a payload, and never give room back. -/
def announce (declared : Nat) (framer : Framer) : Framer :=
  { framer with
    declared := some declared
    buffer := framer.buffer ++ replicate (headerBytes + declared - framer.buffer.length) 0 }

/- What the bytes that just arrived amount to. -/
def settle (deserialize : Bytes → Option NetworkMessage) (cap : Nat) :
    Program Framer WireError Frame := do
  let framer ← Program.get
  match framer.declared with
  | some declared => conclude deserialize declared
  | none =>
    if framer.got < headerBytes then
      return .idle
    else do
      let declared ← Program.lift (framer.parseHeader cap)
      Program.modify (announce declared)
      conclude deserialize declared

/- A read that gave nothing. -/
def afterIdle (framer : Framer) (kind : ErrorKind) (now : Nat) : Result WireError Frame :=
  if kind.isTick then
    match framer.started with
    | some started =>
      if framer.deadline < now - started then
        Result.fail .stalled
      else
        return .idle
    | none => return .idle
  else
    return .eof

/- The bytes that were read, where the frame goes on. -/
def fill (data : Bytes) (now : Nat) (framer : Framer) : Framer :=
  { framer with
    buffer := framer.buffer.take framer.got ++ data ++ framer.buffer.drop (framer.got + data.length)
    started := framer.started.or (some now)
    got := framer.got + data.length }

/-
  Read once, and return a message if that completed one. The socket is told how much room there is.
-/
def read (deserialize : Bytes → Option NetworkMessage) (socket : Nat → Reading) (now cap : Nat) :
    Program Framer WireError Frame := do
  Program.assert (cap ≤ maxMessageLen)
  let framer ← Program.get
  let want := framer.want
  Program.assert (framer.got < want)
  Program.assert (want ≤ framer.buffer.length)
  match getRange? framer.buffer framer.got want with
  | none => Program.fail .malformed
  | some room =>
    match socket room.length with
    | .failed kind => Program.lift (framer.afterIdle kind now)
    | .bytes data =>
      if data = [] then
        return .eof
      else do
        Program.modify (fill data now)
        settle deserialize cap

end Framer

--------
-- What a Stream Means
--------

namespace Wire

/- The payload length of a header, or what is wrong with it. -/
def headerSize (magic : FixedBytes 4) (cap : Nat) (header : Bytes) : Except WireError Nat :=
  match ofBytes? 4 (header.take 4) with
  | none => .error .malformed
  | some seen =>
    let declared := LittleEndian.decode ((header.take 20).drop 16)
    if seen ≠ magic then
      .error (.wrongMagic seen)
    else if ¬ isMessageTypeValid ((header.take 16).drop 4) then
      .error .badCommand
    else if maxMessageLen < declared then
      .error (.tooLong declared)
    else if cap < declared then
      .error (.overCap declared cap)
    else
      .ok declared

/- The message of a whole frame, or what is wrong with it. -/
def decodeFrame (deserialize : Bytes → Option NetworkMessage) (frame : Bytes) :
    Except WireError NetworkMessage :=
  match deserialize frame with
  | none => .error .malformed
  | some message =>
    match countsOf message with
    | none => .ok message
    | some (seen, allowed) =>
      if allowed < seen then
        .error (.tooManyItems seen allowed)
      else
        .ok message

/- The frames of a connection. -/
def framing (deserialize : Bytes → Option NetworkMessage) (magic : FixedBytes 4) (cap : Nat) :
    Framing UInt8 WireError NetworkMessage where
  header := headerBytes
  header_pos := headerBytes_pos
  size := headerSize magic cap
  decode := decodeFrame deserialize

theorem front_of_size
    {deserialize : Bytes → Option NetworkMessage} {magic : FixedBytes 4} {cap declared : Nat}
    {bytes : Bytes} (hLen : headerBytes ≤ bytes.length)
    (hSize : headerSize magic cap (bytes.take headerBytes) = .ok declared) :
    (framing deserialize magic cap).front bytes = if bytes.length < headerBytes + declared then
        .more
      else
        match decodeFrame deserialize (bytes.take (headerBytes + declared)) with
        | .error error => .refused error
        | .ok message =>
          .message message (headerBytes + declared) := by
  have hFront := @Framing.front_of_size _ _ _ (framing deserialize magic cap) bytes declared hLen
    hSize
  rw [hFront]
  dsimp only [framing]
  cases decodeFrame deserialize (bytes.take (headerBytes + declared)) <;> rfl

/- A declared length is within the cap. -/
theorem headerSize_le {cap declared : Nat} {header : Bytes}
    (hSize : headerSize magic cap header = .ok declared) : declared ≤ cap := by
  unfold headerSize at hSize
  split at hSize
  case h_1 => cases hSize
  dsimp only at hSize
  split at hSize
  case isTrue => cases hSize
  split at hSize
  case isTrue => cases hSize
  split at hSize
  case isTrue => cases hSize
  split at hSize
  case isTrue => cases hSize
  case isFalse hCap =>
    cases hSize
    exact Nat.not_lt.mp hCap

end Wire

--------
-- The Parts of a Call
--------

namespace Framer

variable {deserialize : Bytes → Option NetworkMessage} {framer : Framer} {cap declared : Nat}

/- The header is read as a stream's first bytes are. -/
theorem parseHeader_eq (hLen : headerBytes ≤ framer.buffer.length) :
    framer.parseHeader cap =
      Result.ofExcept (Wire.headerSize framer.magic cap (framer.buffer.take headerBytes)) := by
  have hHeader : getRange? framer.buffer 0 headerBytes = some (framer.buffer.take headerBytes) :=
    getRange?_eq_some.mpr ⟨Nat.zero_le _, hLen, drop_zero⟩
  have hSize : (framer.buffer.take headerBytes).length = 24 := length_take_of_le hLen
  generalize framer.buffer.take headerBytes = header at hHeader hSize
  have hMagic : getRange? header 0 4 = some (header.take 4) :=
    getRange?_eq_some.mpr ⟨by decide, by omega, drop_zero⟩
  have hCommand : getRange? header 4 16 = some ((header.take 16).drop 4) :=
    getRange?_eq_some.mpr ⟨by decide, by omega, rfl⟩
  have hLengthBytes : getRange? header 16 20 = some ((header.take 20).drop 16) :=
    getRange?_eq_some.mpr ⟨by decide, by omega, rfl⟩
  have hFour : ((header.take 20).drop 16).length = 4 := by
    rw [length_drop, length_take]
    omega
  have hSeen : (header.take 4).length = 4 := by
    rw [length_take]
    omega
  rw [parseHeader, hHeader, Wire.headerSize]
  simp only [orFail, ok_bind, hMagic, hCommand,
    hLengthBytes, Option.bind_some, ofBytes?, dif_pos hFour, dif_pos hSeen]
  generalize LittleEndian.decode ((header.take 20).drop 16) = size
  by_cases hSame : (⟨header.take 4, hSeen⟩ : FixedBytes 4) = framer.magic
  · by_cases hValid : isMessageTypeValid ((header.take 16).drop 4) = true
    · by_cases hLong : size ≤ maxMessageLen
      · by_cases hCap : size ≤ cap
        · simp [ensure, Result.ofExcept, hSame, hValid, hLong, hCap, Nat.not_lt.mpr]
        · simp [ensure, Result.ofExcept, hSame, hValid,
            hLong, hCap, Nat.not_lt.mpr, Nat.lt_of_not_le]
      · simp [ensure, Result.ofExcept, hSame, hValid, hLong, Nat.lt_of_not_le]
    · simp [ensure, Result.ofExcept, hSame, hValid]
  · simp [ensure, Result.ofExcept, hSame]

/- A whole frame is decoded, and the next one starts. -/
theorem finish_eq (hLen : headerBytes + declared ≤ framer.buffer.length) :
    ∃ after, finish deserialize declared framer = (Result.ofExcept ((Wire.decodeFrame deserialize
            (framer.buffer.take (headerBytes + declared))).map
            (Frame.message · (headerBytes + declared))), after) ∧
      (after = framer ∨ after = framer.reset) ∧ ∀ message,
        Wire.decodeFrame deserialize (framer.buffer.take (headerBytes + declared)) =
          .ok message → after = framer.reset := by
  have hFrame : getRange? framer.buffer 0 (headerBytes + declared) =
      some (framer.buffer.take (headerBytes + declared)) :=
    getRange?_eq_some.mpr ⟨Nat.zero_le _, hLen, drop_zero⟩
  generalize framer.buffer.take (headerBytes + declared) = frame at hFrame
  rw [finish, Program.get_bind, hFrame, Wire.decodeFrame]
  dsimp only [orFail]
  rw [Program.lift_ok_bind]
  cases deserialize frame with
  | none =>
    refine ⟨framer, rfl, .inl rfl, ?_⟩
    intro message hMessage
    cases hMessage
  | some message =>
    refine ⟨framer.reset, ?_, .inr rfl, fun _ _ => rfl⟩
    dsimp only
    rw [Program.lift_ok_bind, Program.modify_bind, checkCounts]
    cases hCounts : countsOf message with
    | none => rfl
    | some counts =>
      rcases counts with ⟨seen, allowed⟩
      dsimp only
      by_cases hMany : seen ≤ allowed
      · rw [ensure_of hMany, if_neg (Nat.not_lt.mpr hMany)]
        rfl
      · rw [ensure, if_neg hMany, if_pos (Nat.lt_of_not_le hMany)]
        rfl

--------
-- The Bytes of an Unfinished Frame
--------

/- How much of a frame has arrived, and what is known of it. -/
def Part (framer : Framer) (cap : Nat) (pending : Bytes) : Prop :=
  match framer.declared with
  | none => pending.length < headerBytes
  | some declared =>
    headerBytes ≤ pending.length ∧
      Wire.headerSize framer.magic cap (pending.take headerBytes) = .ok declared ∧
      pending.length < headerBytes + declared

/- The framer holds the bytes of an unfinished frame. -/
structure Holds (framer : Framer) (cap bound : Nat)
    (pending : Bytes) : Prop where
  held : framer.buffer.take framer.got = pending
  got : framer.got = pending.length
  room : framer.want ≤ framer.buffer.length
  bounded : framer.buffer.length ≤ bound
  part : framer.Part cap pending

variable {bound : Nat} {pending data : Bytes}

theorem Part.lt_want (hPart : framer.Part cap pending) : pending.length < framer.want := by
  unfold Part at hPart
  unfold want
  split at hPart
  case h_1 => exact hPart
  case h_2 => exact hPart.2.2

/- Nothing is decided about an unfinished frame. -/
theorem Part.front (hPart : framer.Part cap pending) :
    (Wire.framing deserialize framer.magic cap).front pending = .more := by
  unfold Part at hPart
  split at hPart
  case h_1 => exact Framing.front_of_lt hPart
  case h_2 =>
    rw [Framing.front_of_size hPart.1 hPart.2.1]
    exact if_pos hPart.2.2

theorem fill_take {now : Nat} (hGot : framer.got ≤ framer.buffer.length) :
    (framer.fill data now).buffer.take (framer.fill data now).got =
      framer.buffer.take framer.got ++ data := by
  have hLen : (framer.buffer.take framer.got ++ data).length = framer.got + data.length := by
    rw [length_append, length_take_of_le hGot]
  exact take_left' hLen

theorem length_fill {now : Nat} (hRoom : framer.got + data.length ≤ framer.buffer.length) :
    (framer.fill data now).buffer.length = framer.buffer.length := by
  simp only [fill, length_append, length_take, length_drop]
  omega

/- What a call does once the frame's bytes are in the buffer: what their front says. -/
structure Answers (deserialize : Bytes → Option NetworkMessage) (cap bound : Nat) (filled : Framer)
    (bytes : Bytes)
    (out : Result WireError Frame × Framer) : Prop where
  magic : out.2.magic = filled.magic
  deadline : out.2.deadline = filled.deadline
  bounded : out.2.buffer.length ≤ bound
  answer :
    match (Wire.framing deserialize filled.magic cap).front bytes with
    | .more =>
      out.1 = .ok .idle ∧ out.2.Holds cap bound bytes ∧ out.2.started = filled.started
    | .refused error => out.1 = Result.fail error
    | .message message length =>
      length = bytes.length ∧
        out.1 = .ok (.message message length) ∧
        out.2.Holds cap bound [] ∧ out.2.started = none

theorem holds_reset (hRoom : headerBytes ≤ framer.buffer.length)
    (hBound : framer.buffer.length ≤ bound) : framer.reset.Holds cap bound [] where
  held := take_zero
  got := rfl
  room := hRoom
  bounded := hBound
  part := headerBytes_pos

/- A frame that is not whole waits for more. -/
theorem Holds.answers (hHolds : framer.Holds cap bound pending) :
    framer.Answers deserialize cap bound pending (.ok .idle, framer) where
  magic := rfl
  deadline := rfl
  bounded := hHolds.bounded
  answer := by
    rw [hHolds.part.front]
    exact ⟨rfl, hHolds, rfl⟩

theorem conclude_answers {bytes : Bytes} (hHeld : framer.buffer.take framer.got = bytes)
    (hGot : framer.got = bytes.length) (hDeclared : framer.declared = some declared)
    (hLow : headerBytes ≤ bytes.length) (hHigh : bytes.length ≤ headerBytes + declared)
    (hSize : Wire.headerSize framer.magic cap (bytes.take headerBytes) = .ok declared)
    (hRoom : headerBytes + declared ≤ framer.buffer.length)
    (hBound : framer.buffer.length ≤ bound) :
    framer.Answers deserialize cap bound bytes (conclude deserialize declared framer) := by
  have hFront := @Wire.front_of_size deserialize _ _ _ _ hLow hSize
  rw [conclude, Program.get_bind]
  by_cases hWhole : headerBytes + declared ≤ framer.got
  · rw [if_pos hWhole]
    have hLen : bytes.length = headerBytes + declared := by omega
    have hFrame : framer.buffer.take (headerBytes + declared) = bytes := by
      rw [← hLen, ← hGot, hHeld]
    rcases @finish_eq deserialize _ _ hRoom with ⟨after, hFinish, hAfter, hReset⟩
    rw [hFrame] at hFinish hReset
    have hAll : bytes.take (headerBytes + declared) = bytes :=
      take_of_length_le (Nat.le_of_eq hLen)
    have hKept : after.magic = framer.magic ∧ after.deadline = framer.deadline ∧
        after.buffer = framer.buffer := by
      rcases hAfter with rfl | rfl <;> exact ⟨rfl, rfl, rfl⟩
    rw [hFinish]
    refine ⟨hKept.1, hKept.2.1, ?_, ?_⟩
    · rwa [hKept.2.2]
    · dsimp only
      rw [hFront, if_neg (Nat.not_lt.mpr hLen.ge), hAll]
      cases hDecode : Wire.decodeFrame deserialize bytes with
      | error error => rfl
      | ok message =>
        cases hReset message hDecode
        exact ⟨hLen.symm, rfl, holds_reset (by omega) hBound, rfl⟩
  · rw [if_neg hWhole]
    refine Holds.answers ⟨hHeld, hGot, ?_, hBound, ?_⟩
    · rwa [want, hDeclared]
    · rw [Part, hDeclared]
      exact ⟨hLow, hSize, by omega⟩

/- What arrived is a header, a whole message, or neither. -/
theorem settle_answers {bytes : Bytes} (hHeld : framer.buffer.take framer.got = bytes)
    (hGot : framer.got = bytes.length) (hHigh : bytes.length ≤ framer.want)
    (hRoom : framer.want ≤ framer.buffer.length) (hBound : framer.buffer.length ≤ bound)
    (hCap : headerBytes + cap ≤ bound) (hPart : ∀ declared, framer.declared = some declared →
      headerBytes ≤ bytes.length ∧
        Wire.headerSize framer.magic cap (bytes.take headerBytes) = .ok declared) :
    framer.Answers deserialize cap bound bytes (settle deserialize cap framer) := by
  rw [settle, Program.get_bind]
  cases hDeclared : framer.declared with
  | some declared =>
    rw [want, hDeclared] at hHigh hRoom
    rcases hPart declared hDeclared with ⟨hLow, hSize⟩
    exact conclude_answers hHeld hGot hDeclared hLow hHigh hSize hRoom hBound
  | none =>
    rw [want, hDeclared] at hHigh hRoom
    dsimp only at hHigh hRoom ⊢
    by_cases hShort : framer.got < headerBytes
    · rw [if_pos hShort]
      rw [hGot] at hShort
      refine Holds.answers ⟨hHeld, hGot, ?_, hBound, ?_⟩
      · rwa [want, hDeclared]
      · rwa [Part, hDeclared]
    · rw [if_neg hShort, parseHeader_eq hRoom]
      have hAt : framer.got = headerBytes := by omega
      have hLen : bytes.length = headerBytes := by omega
      have hHeader : framer.buffer.take headerBytes = bytes.take headerBytes := by
        rw [take_of_length_le hLen.le, ← hHeld, hAt]
      rw [hHeader]
      cases hSize : Wire.headerSize framer.magic cap (bytes.take headerBytes) with
      | error error =>
        refine ⟨rfl, rfl, hBound, ?_⟩
        rw [Framing.front_of_refused hLen.ge hSize]
        rfl
      | ok declared =>
        have hLe := Wire.headerSize_le hSize
        have hGrown : (announce declared framer).buffer.length =
            framer.buffer.length + (headerBytes + declared - framer.buffer.length) := by
          rw [announce, length_append, length_replicate]
        have hTake : (announce declared framer).buffer.take framer.got = bytes := by
          rw [announce, take_append_of_le_length (by omega), hHeld]
        show framer.Answers deserialize cap bound bytes
          (conclude deserialize declared (announce declared framer))
        have hAnswers := @conclude_answers deserialize (announce declared framer) cap declared bound
            bytes hTake hGot rfl hLen.ge (by omega)
            hSize (by omega) (by omega)
        exact ⟨hAnswers.magic, hAnswers.deadline, hAnswers.bounded, hAnswers.answer⟩

/- No assertion fails, and the socket is asked for the rest. -/
theorem Holds.read_eq (hHolds : framer.Holds cap bound pending) (hCap : cap ≤ maxMessageLen)
    (socket : Nat → Reading) (now : Nat) :
    read deserialize socket now cap framer = match socket (framer.want - pending.length) with
      | .failed kind => (framer.afterIdle kind now, framer)
      | .bytes data =>
        if data = [] then
          (.ok .eof, framer)
        else
          settle deserialize cap (framer.fill data now) := by
  have hLt := hHolds.part.lt_want
  rw [← hHolds.got] at hLt
  have hRange : getRange? framer.buffer framer.got framer.want =
      some ((framer.buffer.take framer.want).drop framer.got) :=
    getRange?_eq_some.mpr ⟨hLt.le, hHolds.room, rfl⟩
  have hLen :
      ((framer.buffer.take framer.want).drop framer.got).length = framer.want - pending.length := by
    rw [length_drop, length_take_of_le hHolds.room, hHolds.got]
  rw [read, Program.assert_bind hCap, Program.get_bind,
    Program.assert_bind hLt, Program.assert_bind hHolds.room, hRange]
  dsimp only
  rw [hLen]
  cases socket (framer.want - pending.length) with
  | failed kind => rfl
  | bytes data =>
    dsimp only
    split <;> rfl

/- A call that receives bytes does what their front says. -/
theorem Holds.read_bytes (hHolds : framer.Holds cap bound pending) (hCap : cap ≤ maxMessageLen)
    (hBound : headerBytes + cap ≤ bound) {socket : Nat → Reading} (now : Nat)
    (hSocket : socket (framer.want - pending.length) = .bytes data) (hSome : data ≠ [])
    (hFits : data.length ≤ framer.want - pending.length) :
    (framer.fill data now).Answers deserialize cap bound (pending ++ data)
      (read deserialize socket now cap framer) := by
  have hLt := hHolds.part.lt_want
  have hRoom := hHolds.room
  have hGot := hHolds.got
  rw [hHolds.read_eq hCap, hSocket]
  dsimp only
  rw [if_neg hSome]
  have hLen := @length_fill framer data now (by omega)
  have hTake := @fill_take framer data now (by omega)
  rw [hHolds.held] at hTake
  refine settle_answers hTake ?_ ?_ ?_ ?_ hBound ?_
  · show framer.got + data.length = _
    rw [hGot, length_append]
  · show _ ≤ framer.want
    rw [length_append]
    omega
  · rwa [hLen]
  · rw [hLen]
    exact hHolds.bounded
  · intro declared hDeclared
    have hPart := hHolds.part
    rw [Part, show framer.declared = some declared from hDeclared] at hPart
    refine ⟨?_, ?_⟩
    · rw [length_append]
      omega
    · rw [take_append_of_le_length hPart.1]
      exact hPart.2.1

/- A new framer holds nothing. -/
theorem new_eq_ok {initialBytes deadline : Nat}
    (hNew : new magic initialBytes deadline = .ok framer) (cap : Nat) :
    framer.Holds cap (max initialBytes (headerBytes + cap)) [] ∧
      framer.magic = magic ∧ framer.deadline = deadline ∧ framer.started = none := by
  simp only [new, bind_eq_ok, assert_eq_ok, pure_inj] at hNew
  rcases hNew with ⟨_, hInitial, _, _, rfl⟩
  refine ⟨⟨take_zero, rfl, ?_, ?_, headerBytes_pos⟩, rfl, rfl, rfl⟩
  · show headerBytes ≤ (replicate initialBytes _).length
    rwa [length_replicate]
  · show (replicate initialBytes _).length ≤ _
    rw [length_replicate]
    exact Nat.le_max_left _ _

end Framer

end Bitmigo
