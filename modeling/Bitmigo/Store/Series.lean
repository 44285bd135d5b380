import Bitmigo.Store.Reader

/-
  One append-only series of flat files, and the two halves that use it.

  Key definitions include:
    * `SeriesWriter` and `SeriesReader`
    * `SeriesWriter.append`, `SeriesWriter.place` and `SeriesWriter.sync`
    * `SeriesReader.read`

  A record is a frame (the magic and the length of the body), the body, and for a checksummed series
  a trailer. The location of a record names its body.
-/

namespace Bitmigo

open Result StoreReader Device

/- `magic(4) ‖ len(u32 LE)`, in front of every body. -/
def frameBytes : UInt32 := 8

/- When a record would take a file past this, the series rolls to the next one. -/
def maxFileBytes : UInt32 := 128 * 1024 * 1024

/- Where a record's body ended up. -/
structure Placed where
  file : UInt32
  offset : UInt32
  len : UInt32
  deriving DecidableEq

/- Five digits, or as many as the number has. -/
def fileNumber (number : UInt32) : List Char :=
  let digits := Nat.toDigits 10 number.toNat
  List.replicate (5 - digits.length) '0' ++ digits

/- The name of one file of a series. -/
def fileName (stem : List Char) (number : UInt32) : FileName :=
  stem ++ fileNumber number ++ ['.', 'd', 'a', 't']

/- `blkNNNNN.dat`: raw blocks, exactly as they arrived. -/
def blockStem : List Char := ['b', 'l', 'k']

/- `undoNNNNN.dat`: one record per connected block. -/
def undoStem : List Char := ['u', 'n', 'd', 'o']

theorem length_blockRecordMagic :
    ([0x42, 0x4d, 0x47, 0x42] : Bytes).length = 4 := rfl

theorem length_undoRecordMagic :
    ([0x42, 0x4d, 0x47, 0x55] : Bytes).length = 4 := rfl

/- "BMGB", at the head of every block record. -/
def blockRecordMagic : FixedBytes 4 :=
  ⟨[0x42, 0x4d, 0x47, 0x42], length_blockRecordMagic⟩

/- "BMGU", at the head of every undo record. -/
def undoRecordMagic : FixedBytes 4 :=
  ⟨[0x42, 0x4d, 0x47, 0x55], length_undoRecordMagic⟩

/- The largest block record: `MAX_BLOCK_WEIGHT`. -/
def maxBlockRecordBytes : UInt32 := 4000000

/- The checksum after an undo record. -/
def undoTrailerBytes : UInt32 := 32

/- The single writer of one series. -/
structure SeriesWriter where
  -- the prefix of its file names
  stem : List Char
  magic : FixedBytes 4
  trailerBytes : UInt32
  maxRecord : UInt32
  maxFile : UInt32
  file : UInt32
  offset : UInt32
  handle : Nat
  unsynced : Bool

/- Read access to a series. -/
structure SeriesReader where
  stem : List Char
  magic : FixedBytes 4
  trailerBytes : UInt32
  maxRecord : UInt32

/- A series as its writer sees it. -/
structure Series where
  device : Device FileName
  writer : SeriesWriter

/- The bytes of one record. -/
def recordBytes (magic : FixedBytes 4) (body : Bytes) (trailer : Option Hash32) : Bytes :=
  magic.val ++ Encoding.u32 (clampU32 body.length) ++ body ++ (trailer.map (·.val)).getD []

--------
-- Opening
--------

/- `str::parse::<u32>`, on a text too short to overflow. -/
def parseNumber (text : List Char) : Option Nat :=
  let digits :=
    if text.head? = some '+' then text.tail else text
  if digits ≠ [] ∧ digits.all Char.isDigit then
    some (digits.foldl (fun n c => 10 * n + (c.toNat - '0'.toNat)) 0)
  else
    none

/- The number in the name of a file of the series. -/
def numberOf (stem : List Char) (name : FileName) : Option Nat := do
  let rest ← stem.isPrefixOf? name
  let digits ← ['.', 'd', 'a', 't'].isSuffixOf? rest
  if digits.length = 5 then parseNumber digits else none

/- The highest-numbered file of a series, or zero. -/
def highest (stem : List Char) (d : Directory FileName) : UInt32 :=
  let numbers := d.entries.filterMap fun entry =>
    numberOf stem entry.1
  UInt32.ofNat (numbers.foldl max 0)

/-
  Open a series: the writer's cursor at the end of the highest-numbered file, and a reader over all
  of them.
-/
def openWithBound
    (stem : List Char) (magic : FixedBytes 4) (trailerBytes maxRecord maxFile : UInt32) :
    Program (Device FileName) StoreStop (SeriesWriter × SeriesReader) := do
  Program.assert (trailerBytes = 0 ∨ trailerBytes = 32)
  Program.assert (0 < maxFile ∧ maxFile ≤ maxFileBytes)
  let device ← Program.get
  let file := highest stem device.directory
  let name := fileName stem file
  let handle ← openAppend name
  let size ← Device.length handle
  let offset ← Program.lift
    (if size < 2 ^ 32 then .ok (UInt32.ofNat size)
      else Result.fail (.own (.longerThanOffset name)))
  return (
    { stem, magic, trailerBytes, maxRecord, maxFile, file
      offset, handle
      unsynced := false },
    { stem, magic, trailerBytes, maxRecord })

/- The series at the bound the store uses. -/
def openSeries (stem : List Char) (magic : FixedBytes 4) (trailerBytes maxRecord : UInt32) :
    Program (Device FileName) StoreStop (SeriesWriter × SeriesReader) :=
  openWithBound stem magic trailerBytes maxRecord maxFileBytes

--------
-- Writing
--------

namespace Series

/- A call on the device below the writer. -/
def onDevice {α : Type} (p : Program (Device FileName) StoreStop α) : Program Series StoreStop α :=
  Program.within (·.device) (fun series device => { series with device := device }) p

/- Assign to fields of the writer. -/
def update (f : SeriesWriter → SeriesWriter) : Program Series StoreStop Unit :=
  Program.modify fun series =>
    { series with writer := f series.writer }

end Series

namespace SeriesWriter

open Series

/- Make everything appended so far durable. -/
def sync : Program Series StoreStop Unit := do
  let series ← Program.get
  if series.writer.unsynced then do
    onDevice (syncAll series.writer.handle)
    update fun writer => { writer with unsynced := false }
  else
    return ()

/-
  Move to the next file when this record would take the current one past the threshold. An empty
  file takes any record, however large.
-/
def place (record : UInt32) : Program Series StoreStop Unit := do
  let series ← Program.get
  let writer := series.writer
  if writer.offset = 0 ∨
      saturatingAdd writer.offset record ≤ writer.maxFile then
    return ()
  else do
    sync
    let next ← Program.lift
      (if writer.file.toNat + 1 < 2 ^ 32 then
        .ok (writer.file + 1)
      else Result.fail (.own .seriesFull))
    let handle ← onDevice (createNew (fileName writer.stem next))
    update fun writer => { writer with handle := handle }
    onDevice syncDirectory
    update fun writer =>
      { writer with file := next, offset := 0 }

/- Append one record and say where its body is. -/
def append (body : Bytes) (trailer : Option Hash32) : Program Series StoreStop Placed := do
  let series ← Program.get
  let trailerBytes := series.writer.trailerBytes
  Program.assert ((if trailer.isSome then 32 else 0) = trailerBytes)
  let len := clampU32 body.length
  Program.assert (len ≤ series.writer.maxRecord)
  let record := saturatingAdd (saturatingAdd frameBytes len) trailerBytes
  place record
  let series ← Program.get
  let writer := series.writer
  onDevice (writeAll writer.handle (recordBytes writer.magic body trailer))
  update fun writer => { writer with unsynced := true }
  let start := writer.offset
  let finish := saturatingAdd start record
  update fun writer => { writer with offset := finish }
  Program.assert (start < finish)
  return {
    file := writer.file
    offset := saturatingAdd start frameBytes
    len := len }

end SeriesWriter

--------
-- Reading
--------

/- `read_exact_at`. -/
def readExactAt (contents : Bytes) (start count : Nat) : Result IoError Bytes :=
  let bytes := (contents.drop start).take count
  if bytes.length = count then .ok bytes
  else Result.fail .unexpectedEof

namespace SeriesReader

/- Check the frame and hand back what is behind it. -/
def split (reader : SeriesReader) (len : UInt32) : Program Bytes IoError (Bytes × Hash32) := do
  let seen ← Program.mapError .decode (take 4)
  Program.lift (ensure (.decode (.badMagic seen)) (seen = reader.magic.val))
  let declared ← Program.mapError .decode u32Le
  Program.lift (ensure (.wrongLength declared len) (declared = len))
  let body ← Program.mapError .decode (take len.toNat)
  let trailer ←
    (if reader.trailerBytes = 0 then
      return FixedBytes.zero 32
    else Program.mapError .decode StoreReader.hash)
  Program.mapError .decode StoreReader.finish
  return (body, trailer)

/- One record's body, and its trailer when there is one. -/
def read (reader : SeriesReader) (d : Directory FileName) (file offset len : UInt32) :
    Result IoError (Bytes × Hash32) := do
  ensure (.decode (.tooLong len.toNat reader.maxRecord.toNat)) (len ≤ reader.maxRecord)
  ensure .bodyInsideFrame (frameBytes ≤ offset)
  let start := offset - frameBytes
  let whole := saturatingAdd (saturatingAdd frameBytes len) reader.trailerBytes
  let name := fileName reader.stem file
  let contents ← orFail (.notFound name) (d.contents name)
  let bytes ← readExactAt contents start.toNat whole.toNat
  (reader.split len bytes).1

end SeriesReader

end Bitmigo
