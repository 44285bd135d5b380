import Bitmigo.Store.Series

/-
  Appends to a series whose calls may fail, and what its reader makes of the locations they return.

  Key definitions include:
    * `Series.InStep`, the cursor is where the next write goes
    * `Filed`, a record is where its location says
    * `SeriesRun`, appends that succeed or fail

  Key theorems include:
    * `SeriesWriter.keeps_append`, no append takes a byte away
    * `SeriesWriter.append_filed`
    * `Filed.read_eq`
    * `filed_append_reads_back`

  A writer keeps its cursor, its file number and its handle in three fields. An append that starts
  with the three in step files its record where it says, and no later append, failed or not, moves
  it.
-/

namespace Bitmigo

open Result List StoreReader Directory Device Option

variable {record : UInt32}

--------
-- Cursors
--------

/- The reader that is opened together with a writer. -/
def SeriesWriter.reader (writer : SeriesWriter) : SeriesReader where
  stem := writer.stem
  magic := writer.magic
  trailerBytes := writer.trailerBytes
  maxRecord := writer.maxRecord

namespace Series

/- The handle is open on the file the cursor names, and the cursor is at the end of it. -/
def InStep (series : Series) : Prop :=
  let writer := series.writer
  let directory := series.device.directory
  directory.find (fileName writer.stem writer.file) =
      some writer.handle ∧
    directory.inodes[writer.handle]?.map (·.bytes.length) = some writer.offset.toNat

/- The directory once the writer has synced. -/
def flushed (s : Series) : Directory FileName :=
  if s.writer.unsynced then
    s.device.directory.flush s.writer.handle
  else s.device.directory

@[simp] theorem find_flushed (s : Series) (name : FileName) :
    s.flushed.find name = s.device.directory.find name := by
  unfold flushed
  split <;> rfl

@[simp] theorem durable_flushed (s : Series) : s.flushed.durable = s.device.directory.durable := by
  unfold flushed
  split <;> rfl

/- A sync changes the length of no file. -/
theorem length_flushed (s : Series) (handle : Nat) :
    s.flushed.inodes[handle]?.map (·.bytes.length) =
      s.device.directory.inodes[handle]?.map (·.bytes.length) := by
  unfold flushed
  split
  · simp only [flush, modifyInode, getElem?_modify]
    cases s.device.directory.inodes[handle]? with
    | none => rfl
    | some inode =>
      simp only [Option.map_eq_map, map_some]
      split <;> rfl
  · rfl

theorem grows_flushed (s : Series) : s.device.directory.Grows s.flushed := by
  unfold flushed
  split
  · exact grows_flush _ _
  · exact Directory.Grows.refl _

/- What any call of the writer leaves: a directory that has only grown, and the same series. -/
structure Continues (s t : Series) : Prop where
  grows : s.device.Grows t.device
  reader : t.writer.reader = s.writer.reader
  maxFile : t.writer.maxFile = s.writer.maxFile

theorem Continues.refl (s : Series) : s.Continues s :=
  ⟨Device.Grows.refl _, rfl, rfl⟩

theorem Continues.trans (s t u : Series) (hFst : s.Continues t) (hNext : t.Continues u) :
    s.Continues u :=
  ⟨Device.Grows.trans _ _ _ hFst.grows hNext.grows,
    hNext.reader.trans hFst.reader, hNext.maxFile.trans hFst.maxFile⟩

theorem keeps_bind
    {α β : Type} {p : Program Series StoreStop α} {f : α → Program Series StoreStop β}
    (hFst : p.Keeps Continues) (hNext : ∀ a, (f a).Keeps Continues) : (p >>= f).Keeps Continues :=
  Program.Keeps.bind Continues.trans hFst hNext

theorem keeps_onDevice {α : Type} {p : Program (Device FileName) StoreStop α}
    (hPart : p.Keeps Device.Grows) : (onDevice p).Keeps Continues :=
  hPart.within fun _ _ hGrows => ⟨hGrows, rfl, rfl⟩

theorem keeps_update {f : SeriesWriter → SeriesWriter}
    (hReader : ∀ writer, (f writer).reader = writer.reader)
    (hMaxFile : ∀ writer, (f writer).maxFile = writer.maxFile) : (update f).Keeps Continues :=
  Program.keeps_modify fun s =>
    ⟨Device.Grows.refl _, hReader s.writer, hMaxFile s.writer⟩

end Series

--------
-- No Append Takes a Byte Away
--------

namespace SeriesWriter

open Series

theorem keeps_sync : sync.Keeps Continues := by
  refine keeps_bind (Program.keeps_get Continues.refl) fun series => ?_
  refine Program.Keeps.ite ?_ (Program.keeps_pure Continues.refl ())
  exact keeps_bind (keeps_onDevice (keeps_syncAll _)) fun _ =>
      keeps_update (fun _ => rfl) (fun _ => rfl)

theorem keeps_place (record : UInt32) : (place record).Keeps Continues := by
  refine keeps_bind (Program.keeps_get Continues.refl) fun series => ?_
  refine Program.Keeps.ite (Program.keeps_pure Continues.refl ()) ?_
  refine keeps_bind keeps_sync fun _ => ?_
  refine keeps_bind (Program.keeps_lift Continues.refl _) fun next => ?_
  refine keeps_bind (keeps_onDevice (keeps_createNew _)) fun handle => ?_
  refine keeps_bind (keeps_update (fun _ => rfl) (fun _ => rfl)) fun _ => ?_
  exact keeps_bind (keeps_onDevice keeps_syncDirectory) fun _ =>
      keeps_update (fun _ => rfl) (fun _ => rfl)

theorem keeps_append (body : Bytes) (trailer : Option Hash32) :
    (append body trailer).Keeps Continues := by
  refine keeps_bind (Program.keeps_get Continues.refl) fun series => ?_
  refine keeps_bind (Program.keeps_lift Continues.refl _) fun _ => ?_
  refine keeps_bind (Program.keeps_lift Continues.refl _) fun _ => ?_
  refine keeps_bind (keeps_place _) fun _ => ?_
  refine keeps_bind (Program.keeps_get Continues.refl) fun placed => ?_
  refine keeps_bind (keeps_onDevice (keeps_writeAll _ _)) fun _ => ?_
  refine keeps_bind (keeps_update (fun _ => rfl) (fun _ => rfl)) fun _ => ?_
  refine keeps_bind (keeps_update (fun _ => rfl) (fun _ => rfl)) fun _ => ?_
  exact keeps_bind (Program.keeps_lift Continues.refl _) fun _ =>
      Program.keeps_pure Continues.refl _

--------
-- Filed Records
--------

variable {s t : Series} {u : Unit}

theorem sync_eq_ok (hSync : sync s = (.ok u, t)) :
    t.writer = { s.writer with unsynced := false } ∧ t.device.directory = s.flushed := by
  rw [sync, Program.get_bind] at hSync
  unfold flushed
  by_cases hUnsynced : s.writer.unsynced
  · rw [if_pos hUnsynced] at hSync ⊢
    simp only [onDevice, update, Program.bind_eq_ok,
      Program.within_eq, Program.modify_eq_ok] at hSync
    rcases hSync with ⟨_, _, ⟨device, hDevice, rfl⟩, rfl⟩
    exact ⟨rfl, directory_of_syncAll_eq_ok hDevice⟩
  · rw [if_neg hUnsynced] at hSync ⊢
    rw [Program.pure_eq_ok] at hSync
    rw [hSync.2]
    rw [Bool.not_eq_true] at hUnsynced
    refine ⟨?_, rfl⟩
    rw [← hUnsynced]

/- What moving on to the next file leaves. -/
structure Rolled (s t : Series) : Prop where
  file : s.writer.file.toNat + 1 < 2 ^ 32
  free : s.device.directory.find (fileName s.writer.stem (s.writer.file + 1)) = none
  writer : t.writer =
      { s.writer with
        unsynced := false
        handle := s.flushed.inodes.length
        file := s.writer.file + 1
        offset := 0 }
  directory :
    t.device.directory = (s.flushed.make (fileName s.writer.stem (s.writer.file + 1))).flushEntries

/- The length `append` asks room for. -/
def recordLen (writer : SeriesWriter) (body : Bytes) : UInt32 :=
  saturatingAdd (saturatingAdd frameBytes (clampU32 body.length)) writer.trailerBytes

/- A record that fits into the current file, or starts it. -/
abbrev HasRoom (record : UInt32) (s : Series) : Prop :=
  s.writer.offset = 0 ∨ saturatingAdd s.writer.offset record ≤ s.writer.maxFile

/- Everything placing a record can do. -/
theorem place_eq_ok (hPlace : place record s = (.ok u, t)) :
    (HasRoom record s ∧ t = s) ∨ (¬ HasRoom record s ∧ Rolled s t) := by
  rw [place, Program.get_bind] at hPlace
  by_cases hRoom : HasRoom record s
  · rw [if_pos hRoom, Program.pure_eq_ok] at hPlace
    exact .inl ⟨hRoom, hPlace.2⟩
  · refine .inr ⟨hRoom, ?_⟩
    rw [if_neg hRoom] at hPlace
    simp only [onDevice, update, Program.bind_eq_ok, Program.within_eq, Program.modify_eq_ok,
      Program.lift_eq_ok] at hPlace
    rcases hPlace with
      ⟨_, _, hSync, next, synced, ⟨hNext, rfl⟩, handle, _,
        ⟨made, hMade, rfl⟩, _, _, rfl, _, _, ⟨flushed, hFlushed, rfl⟩, rfl⟩
    rcases sync_eq_ok hSync with ⟨hWriter, hDir⟩
    rcases of_createNew_eq_ok hMade with ⟨hFree, rfl, hMake⟩
    have hFlush := directory_of_syncDirectory_eq_ok hFlushed
    split at hNext
    · rename_i hFile
      cases hNext
      rw [hDir] at hFree hMake
      refine ⟨hFile, ?_, ?_, ?_⟩
      · rwa [← find_flushed]
      · show SeriesWriter.mk .. = _
        rw [hWriter, hDir]
      · show flushed.directory = _
        rw [hFlush]
        exact congrArg flushEntries hMake
    · cases hNext

/- What a writer that is placed for a record looks like. -/
structure PlacedFor (record : UInt32)
    (s : Series) : Prop where
  inStep : s.InStep
  room : s.writer.offset = 0 ∨ saturatingAdd s.writer.offset record ≤ s.writer.maxFile

theorem Rolled.inStep (hRolled : Rolled s t) : t.InStep := by
  unfold InStep
  rw [hRolled.writer, hRolled.directory]
  refine ⟨?_, ?_⟩
  · rw [find_flushEntries, find_make, if_pos rfl]
  · simp [flushEntries, make]

/- Only a writer that stays in its file has to be in step. -/
theorem place_placedFor (hStep : HasRoom record s → s.InStep)
    (hPlace : place record s = (.ok u, t)) : PlacedFor record t := by
  rcases place_eq_ok hPlace with ⟨hRoom, rfl⟩ | ⟨_, hRolled⟩
  · exact ⟨hStep hRoom, hRoom⟩
  · refine ⟨hRolled.inStep, .inl ?_⟩
    rw [hRolled.writer]

end SeriesWriter

/- How many bytes a record takes. -/
def recordSize (reader : SeriesReader) (body : Bytes) : Nat :=
  frameBytes.toNat + body.length + reader.trailerBytes.toNat

/-
  A location that fits a record: it is inside the bounds its series gives, and in the width of its
  fields.
-/
structure Sized (reader : SeriesReader) (placed : Placed) (body : Bytes)
    (trailer : Option Hash32) : Prop where
  checksummed : (if trailer.isSome then 32 else 0) = reader.trailerBytes
  size : recordSize reader body < 2 ^ 32
  len : placed.len.toNat = body.length
  bounded : placed.len ≤ reader.maxRecord
  offset : frameBytes ≤ placed.offset

/- Where the record of a location starts. -/
def Placed.start (placed : Placed) : Nat :=
  (placed.offset - frameBytes).toNat

variable {placed : Placed}

theorem Placed.toNat_sub_start (hOffset : frameBytes ≤ placed.offset) :
    placed.start = placed.offset.toNat - frameBytes.toNat :=
  UInt32.toNat_sub_of_le _ _ hOffset

/- A record is where its location says. -/
structure Filed (reader : SeriesReader) (d : Directory FileName) (placed : Placed) (body : Bytes)
    (trailer : Option Hash32) : Prop where
  sized : Sized reader placed body trailer
  contents : ∃ handle inode,
      d.find (fileName reader.stem placed.file) = some handle ∧
        d.inodes[handle]? = some inode ∧
        recordBytes reader.magic body trailer <+: inode.bytes.drop placed.start

variable {reader : SeriesReader} {body : Bytes} {trailer : Option Hash32}

theorem Filed.grows {d e : Directory FileName} (hFiled : Filed reader d placed body trailer)
    (hGrows : d.Grows e) : Filed reader e placed body trailer := by
  rcases hFiled.contents with ⟨handle, inode, hFind, hInode, hRecord⟩
  rcases hGrows.inode handle inode hInode with ⟨later, hLater, hBytes, _⟩
  exact ⟨hFiled.sized, handle, later,
    hGrows.find _ handle hFind, hLater, hRecord.trans (hBytes.drop placed.start)⟩

theorem length_recordBytes (hSized : Sized reader placed body trailer) :
    (recordBytes reader.magic body trailer).length = recordSize reader body := by
  have hTrailer := hSized.checksummed
  rw [recordSize, ← hTrailer]
  cases trailer with
  | none | some digest =>
    simp [recordBytes, frameBytes]
    omega

namespace SeriesWriter

open Series

/- What an append that returned did. -/
structure Appended (body : Bytes) (trailer : Option Hash32) (s t : Series)
    (placed : Placed) : Prop where
  intro ::
  checksummed : (if trailer.isSome then 32 else 0) = s.writer.trailerBytes
  bounded : clampU32 body.length ≤ s.writer.maxRecord
  written :
    let record :=
      saturatingAdd (saturatingAdd frameBytes (clampU32 body.length)) s.writer.trailerBytes
    ∃ mid,
      place record s = (.ok (), mid) ∧
      t.device.directory =
        mid.device.directory.extend mid.writer.handle (recordBytes mid.writer.magic body trailer) ∧
      t.writer =
        { mid.writer with
          unsynced := true
          offset := saturatingAdd mid.writer.offset record } ∧
      placed =
        { file := mid.writer.file
          offset := saturatingAdd mid.writer.offset frameBytes
          len := clampU32 body.length }

variable {s : Series}

theorem append_appended {t : Series} (hAppend : append body trailer s = (.ok placed, t)) :
    Appended body trailer s t placed := by
  rw [append, Program.get_bind] at hAppend
  simp only [onDevice, update, Program.bind_eq_ok, Program.assert_eq_ok, Program.within_eq,
    Program.get_bind, Program.modify_bind, Program.pure_eq_ok] at hAppend
  rcases hAppend with
    ⟨_, _, ⟨hTrailer, rfl⟩, _, start, ⟨hBounded, rfl⟩, _,
      mid, hPlace, _, _, ⟨device, hWrite, rfl⟩, _, _, ⟨_, rfl⟩, rfl, rfl⟩
  exact ⟨hTrailer, hBounded, mid, hPlace, directory_of_writeAll_eq_ok hWrite, rfl, rfl⟩

/- The size a writer computes is the size of the record. -/
theorem toNat_record {reader : SeriesReader} {body : Bytes}
    (hSize : recordSize reader body < 2 ^ 32) :
    (clampU32 body.length).toNat = body.length ∧
      (saturatingAdd (saturatingAdd frameBytes (clampU32 body.length))
        reader.trailerBytes).toNat = recordSize reader body := by
  have hFrame : frameBytes.toNat = 8 := rfl
  rw [recordSize, hFrame] at hSize
  rw [toNat_saturatingAdd, toNat_saturatingAdd, toNat_clampU32, recordSize, hFrame]
  omega

theorem frameBytes_le_recordSize {reader : SeriesReader} {body : Bytes} :
    frameBytes.toNat ≤ recordSize reader body := by
  rw [recordSize, Nat.add_assoc]
  exact Nat.le_add_right _ _

/- The body is behind the frame. -/
theorem offset_of_start {start : UInt32} (hLt : start.toNat + frameBytes.toNat < 2 ^ 32) :
    (saturatingAdd start frameBytes).toNat = start.toNat + frameBytes.toNat ∧
      frameBytes ≤ saturatingAdd start frameBytes := by
  have hBody : (saturatingAdd start frameBytes).toNat = start.toNat + frameBytes.toNat := by
    rw [toNat_saturatingAdd]
    omega
  refine ⟨hBody, ?_⟩
  rw [UInt32.le_iff_toNat_le, hBody]
  exact Nat.le_add_left _ _

/- Where there is room, the cursor does not saturate. -/
theorem PlacedFor.lt (hPlaced : PlacedFor record s) (hMaxFile : s.writer.maxFile ≤ maxFileBytes) :
    s.writer.offset.toNat + record.toNat < 2 ^ 32 := by
  have hRecord := record.toNat_lt
  rcases hPlaced.room with hZero | hRoom
  · rwa [hZero, UInt32.toNat_zero, Nat.zero_add]
  · have hLe := UInt32.le_iff_toNat_le.mp (UInt32.le_trans hRoom hMaxFile)
    have hMax : maxFileBytes.toNat = 134217728 := rfl
    rw [toNat_saturatingAdd, hMax] at hLe
    omega

/- An append that is in step where it writes files its record, and leaves the cursor in step. -/
theorem append_filed {t : Series} (hStep : HasRoom (recordLen s.writer body) s → s.InStep)
    (hMaxFile : s.writer.maxFile ≤ maxFileBytes) (hSize : recordSize s.writer.reader body < 2 ^ 32)
    (hAppend : append body trailer s = (.ok placed, t)) :
    Filed s.writer.reader t.device.directory placed body trailer ∧ t.InStep := by
  rcases append_appended hAppend with ⟨hTrailer, hBounded, mid, hPlace, hWrite, hWriter, rfl⟩
  have hContinues : s.Continues mid := (keeps_place _).of_eq hPlace
  have hReader : mid.writer.reader = s.writer.reader := hContinues.reader
  have hStem : mid.writer.stem = s.writer.reader.stem := congrArg SeriesReader.stem hReader
  have hMagic : mid.writer.magic = s.writer.reader.magic := congrArg SeriesReader.magic hReader
  have hPlaced := place_placedFor hStep hPlace
  rcases toNat_record hSize with ⟨hLen, hRecord⟩
  have hLt := hPlaced.lt (hContinues.maxFile ▸ hMaxFile)
  rcases hPlaced.inStep with ⟨hFind, hEnd⟩
  rcases map_eq_some_iff.mp hEnd with ⟨inode, hInode, hOffset⟩
  have hLater : t.device.directory.inodes[mid.writer.handle]? = some { inode with
          bytes := inode.bytes ++ recordBytes s.writer.reader.magic body trailer } := by
    rw [hWrite, getElem?_extend, hInode, hMagic]
    rfl
  rw [show (s.writer.recordLen body).toNat = _ from hRecord] at hLt
  rcases offset_of_start
      (Nat.lt_of_le_of_lt (Nat.add_le_add_left frameBytes_le_recordSize _) hLt) with
    ⟨hBody, hInside⟩
  have hSized : Sized s.writer.reader ⟨mid.writer.file,
      saturatingAdd mid.writer.offset frameBytes, clampU32 body.length⟩ body trailer :=
    ⟨hTrailer, hSize, hLen, hBounded, hInside⟩
  constructor
  · refine ⟨hSized, mid.writer.handle, _, ?_, hLater, ?_⟩
    · rwa [hWrite, find_extend, ← hStem]
    · rw [Placed.toNat_sub_start hInside]
      show _ <+: (inode.bytes ++ _).drop
        ((saturatingAdd mid.writer.offset frameBytes).toNat - frameBytes.toNat)
      rw [hBody, Nat.add_sub_cancel, ← hOffset, drop_left]
  · unfold InStep
    rw [hWriter]
    refine ⟨?_, ?_⟩
    · rwa [hWrite]
    · show t.device.directory.inodes[mid.writer.handle]?.map
        _ = some (saturatingAdd mid.writer.offset (saturatingAdd
            (saturatingAdd frameBytes (clampU32 body.length))
            s.writer.reader.trailerBytes)).toNat
      rw [hLater, toNat_saturatingAdd, hRecord, map_some, length_append, hOffset,
        length_recordBytes hSized]
      congr 1
      omega

end SeriesWriter

--------
-- Reading Back
--------

/- A location's length is the one its record declares. -/
theorem Sized.len_eq (hSized : Sized reader placed body trailer) :
    placed.len = clampU32 body.length := by
  rw [← UInt32.toNat_inj, hSized.len, (SeriesWriter.toNat_record hSized.size).1]

/- The frame of a whole record is as it was written. -/
theorem SeriesReader.split_recordBytes (hSized : Sized reader placed body trailer) :
    reader.split placed.len (recordBytes reader.magic body trailer) =
      (.ok (body, trailer.getD (FixedBytes.zero 32)), []) := by
  rw [split, recordBytes, append_assoc, append_assoc, Program.bind_of_ok
      (Program.mapError_of_ok (StoreReader.take_append reader.magic.property _) _)]
  rw [ensure_of rfl, Program.lift_ok_bind,
    Program.bind_of_ok (Program.mapError_of_ok (u32Le_append _ _) _),
    ensure_of hSized.len_eq.symm,
    Program.lift_ok_bind, Program.bind_of_ok
      (Program.mapError_of_ok (StoreReader.take_append hSized.len.symm _) _)]
  have hChecksummed := hSized.checksummed
  cases trailer with
  | none =>
    have hNone : reader.trailerBytes = 0 := hChecksummed.symm
    rw [if_pos hNone]
    rfl
  | some digest =>
    have hSome : reader.trailerBytes = 32 := hChecksummed.symm
    have hHash := hash_append digest []
    rw [append_nil] at hHash
    rw [if_neg (by rw [hSome]; decide), map_some, getD_some,
      Program.bind_of_ok (Program.mapError_of_ok hHash _)]
    rfl

/- A filed record is read back whole. -/
theorem Filed.read_eq {d : Directory FileName} (hFiled : Filed reader d placed body trailer) :
    reader.read d placed.file placed.offset placed.len =
      .ok (body, trailer.getD (FixedBytes.zero 32)) := by
  rcases hFiled with ⟨hSized, handle, inode, hFind, hInode, rest, hRecord⟩
  have hContents := contents_eq_some hFind hInode
  have hExact : readExactAt inode.bytes placed.start (recordSize reader body) =
      .ok (recordBytes reader.magic body trailer) := by
    rw [readExactAt, ← hRecord, ← length_recordBytes hSized, take_left]
    exact if_pos rfl
  rw [SeriesReader.read, ensure_of hSized.bounded, ok_bind, ensure_of hSized.offset, ok_bind]
  dsimp only
  rw [hContents]
  have hLen := (SeriesWriter.toNat_record hSized.size).2
  rw [← hSized.len_eq] at hLen
  show (readExactAt inode.bytes placed.start _ >>= _) = _
  rw [hLen, hExact, ok_bind, SeriesReader.split_recordBytes hSized]

--------
-- Runs of Appends
--------

/- The series with the next calls going as the list says. -/
def Series.facing (series : Series) (fates : List CallFate) : Series :=
  { series with
    device := { series.device with fates := fates } }

/- The series some appends lead to: each returned a location or an error of a call or of its own. -/
inductive SeriesRun (first : Series) : Series → Prop where
  | start : SeriesRun first first
  | filed {s t : Series} {body : Bytes} {trailer : Option Hash32} {fates : List CallFate}
      {placed : Placed} (before : SeriesRun first s)
      (step : SeriesWriter.append body trailer (s.facing fates) = (.ok placed, t)) :
      SeriesRun first t
  | failed {s t : Series} {body : Bytes} {trailer : Option Hash32} {fates : List CallFate}
      {stop : StoreStop} (before : SeriesRun first s) (alive : stop ≠ .crashed)
      (step : SeriesWriter.append body trailer (s.facing fates) = (Result.fail stop, t)) :
      SeriesRun first t

/- A write that fails with some of its bytes in the file. -/
theorem SeriesRun.torn {first s t : Series} (body : Bytes) (kept : Nat)
    (hBefore : SeriesRun first s) (hStep : SeriesWriter.append body none (s.facing [.fails kept]) =
      (Result.fail (.system .deviceError), t)) : SeriesRun first t :=
  .failed hBefore (by simp) hStep

theorem Series.continues_facing (s : Series) (fates : List CallFate) :
    s.Continues (s.facing fates) :=
  ⟨Device.Grows.refl _, rfl, rfl⟩

/- No append of a run takes a byte away. -/
theorem SeriesRun.continues {first s : Series} (hRun : SeriesRun first s) : first.Continues s := by
  induction hRun with
  | start => exact Series.Continues.refl first
  | @filed s t _ _ fates _ _ hStep ih | @failed s t _ _ fates _ _ _ hStep ih =>
    have hAppend : (s.facing fates).Continues t := (SeriesWriter.keeps_append _ _).of_eq hStep
    exact ih.trans _ _ _ ((s.continues_facing fates).trans _ _ _ hAppend)

/- The series keeps what it was opened with. -/
structure OpenedAs
    (stem : List Char) (magic : FixedBytes 4) (trailerBytes maxRecord maxFile : UInt32)
    (writer : SeriesWriter) : Prop where
  reader : writer.reader = ⟨stem, magic, trailerBytes, maxRecord⟩
  maxFile : writer.maxFile = maxFile

/- Everything opening a series can do. -/
structure SeriesOpened
    (stem : List Char) (magic : FixedBytes 4) (trailerBytes maxRecord maxFile : UInt32)
    (device opened : Device FileName) (writer : SeriesWriter)
    (reader : SeriesReader) : Prop where
  checksummed : trailerBytes = 0 ∨ trailerBytes = 32
  maxFile_pos : 0 < maxFile
  maxFile_le : maxFile ≤ maxFileBytes
  openedAs : OpenedAs stem magic trailerBytes maxRecord maxFile writer
  file : writer.file = highest stem device.directory
  unsynced : writer.unsynced = false
  reader_eq : reader = writer.reader
  inStep : (⟨opened, writer⟩ : Series).InStep
  directory : opened.directory = device.directory ∨
      device.directory.find (fileName stem writer.file) = none ∧
        opened.directory = device.directory.make (fileName stem writer.file)
  fates : opened.fates = device.fates.tail.tail

theorem openWithBound_opened
    {stem : List Char} {magic : FixedBytes 4} {trailerBytes maxRecord maxFile : UInt32}
    {device opened : Device FileName} {writer : SeriesWriter}
    (hOpen : openWithBound stem magic trailerBytes maxRecord maxFile
      device = (.ok (writer, reader), opened)) :
    SeriesOpened stem magic trailerBytes maxRecord maxFile device opened writer reader := by
  simp only [openWithBound, Program.bind_eq_ok, Program.assert_eq_ok, Program.get_bind,
    Program.lift_eq_ok, Program.pure_eq_ok, Prod.mk.injEq] at hOpen
  rcases hOpen with
    ⟨_, _, ⟨hTrailer, rfl⟩, _, start, ⟨⟨hMaxFilePos, hMaxFile⟩, rfl⟩, handle, named, hHandle,
      size, sized, hLen, offset, _, ⟨hOffset, rfl⟩, ⟨rfl, rfl⟩, rfl⟩
  rcases of_length_eq_ok hLen with ⟨hSame, hSize⟩
  have hFind := of_openAppend_eq_ok hHandle
  have hDir := directory_of_openAppend_eq_ok hHandle
  rw [← hSame] at hFind hSize hDir
  rcases exists_inode hFind with ⟨inode, hInode⟩
  rw [hInode] at hSize
  refine ⟨hTrailer, hMaxFilePos, hMaxFile, ⟨rfl, rfl⟩, rfl, rfl, rfl, ⟨hFind, ?_⟩, hDir, ?_⟩
  · show (inodes _)[handle]?.map _ = some offset.toNat
    rw [hInode, map_some]
    split at hOffset
    · rename_i hLt
      cases hOffset
      rw [UInt32.toNat_ofNat', Nat.mod_eq_of_lt hLt, hSize]
      rfl
    · cases hOffset
  · rw [fates_of_callAtomic hLen, fates_of_callAtomic hHandle]

/-
  In every run of appends, whatever failed before, an append that starts with the cursor in step, or
  moves on to the next file, returns a location from which its body and trailer are read back, then
  and after every later append.
-/
theorem filed_append_reads_back
    {stem : List Char} {magic : FixedBytes 4} {trailerBytes maxRecord maxFile : UInt32}
    {device opened : Device FileName} {writer : SeriesWriter} {reader : SeriesReader}
    {s t u : Series} {body : Bytes} {trailer : Option Hash32} {fates : List CallFate}
    {placed : Placed}
    (hOpen : openWithBound stem magic trailerBytes maxRecord maxFile
        device = (.ok (writer, reader), opened))
    (hRun : SeriesRun ⟨opened, writer⟩ s)
    (hStep : SeriesWriter.HasRoom (s.writer.recordLen body) s → s.InStep)
    (hSize : recordSize reader body < 2 ^ 32)
    (hAppend : SeriesWriter.append body trailer (s.facing fates) = (.ok placed, t))
    (hLater : SeriesRun t u) :
    reader.read u.device.directory placed.file placed.offset placed.len =
      .ok (body, trailer.getD (FixedBytes.zero 32)) := by
  have hOpened := openWithBound_opened hOpen
  have hSame := hOpened.reader_eq
  subst hSame
  have hBefore := hRun.continues
  have hReader : (s.facing fates).writer.reader = writer.reader := hBefore.reader
  have hMax : (s.facing fates).writer.maxFile ≤ maxFileBytes := by
    show s.writer.maxFile ≤ maxFileBytes
    rw [hBefore.maxFile, hOpened.openedAs.maxFile]
    exact hOpened.maxFile_le
  rw [← hReader] at hSize ⊢
  have hFiled := (SeriesWriter.append_filed (s := s.facing fates) hStep hMax hSize hAppend).1
  exact (hFiled.grows hLater.continues.grows).read_eq

/-
  Files of twenty bytes: a write that fails before its first byte, a record, a write that is torn, a
  record that moves on to the next file, and another torn write. Both records are read back.
-/
theorem appends_between_failures_read_back :
    ∃ writer reader opened s t u v w placed rolled,
      openWithBound blockStem blockRecordMagic 0 maxBlockRecordBytes 20 ⟨Directory.empty, []⟩ =
        (.ok (writer, reader), opened) ∧
      SeriesWriter.append [0] none (Series.facing ⟨opened, writer⟩ [.fails 0]) =
        (Result.fail (.system .deviceError), s) ∧
      SeriesWriter.append [1] none (s.facing []) = (.ok placed, t) ∧
      SeriesWriter.append [5] none (t.facing [.fails 1]) =
        (Result.fail (.system .deviceError), u) ∧
      SeriesWriter.append [2, 2, 2, 2] none (u.facing []) = (.ok rolled, v) ∧
      SeriesWriter.append [3] none (v.facing [.fails 1]) =
        (Result.fail (.system .deviceError), w) ∧
      reader.read w.device.directory placed.file placed.offset placed.len =
        .ok ([1], FixedBytes.zero 32) ∧
      reader.read w.device.directory rolled.file rolled.offset rolled.len =
        .ok ([2, 2, 2, 2], FixedBytes.zero 32) := by
  refine ⟨_, _, _, _, _, _, _, _, _, _, rfl, rfl, rfl, rfl, rfl, rfl, ?_, ?_⟩
  · exact @filed_append_reads_back blockStem blockRecordMagic 0 maxBlockRecordBytes 20
      ⟨Directory.empty, []⟩ _ _ _ _ _ _ [1] none [] _ rfl (.torn [0] 0 .start rfl)
      (fun _ => ⟨rfl, rfl⟩) (by decide) rfl
      (.torn [3] 1 (@SeriesRun.filed _ _ _ [2, 2, 2, 2] none [] _ (.torn [5] 1 .start rfl) rfl) rfl)
  · exact @filed_append_reads_back blockStem blockRecordMagic 0 maxBlockRecordBytes 20
      ⟨Directory.empty, []⟩ _ _ _ _ _ _ [2, 2, 2, 2] none [] _ rfl
      (.torn [5] 1 (@SeriesRun.filed _ _ _ [1] none [] _ (.torn [0] 0 .start rfl) rfl) rfl)
      (fun hRoom => absurd hRoom (by decide)) (by decide) rfl (.torn [3] 1 .start rfl)

/-
  A write that fails after one byte leaves the cursor behind the end of its file, and the next
  record is filed one byte past where its location says.
-/
theorem append_after_half_write_misreads :
    ∃ writer reader opened s t placed,
      openSeries blockStem blockRecordMagic 0 maxBlockRecordBytes ⟨Directory.empty, []⟩ =
        (.ok (writer, reader), opened) ∧
      SeriesRun ⟨opened, writer⟩ s ∧
      SeriesWriter.append [2] none (s.facing []) = (.ok placed, t) ∧
      reader.read t.device.directory placed.file placed.offset placed.len ≠
        .ok ([2], FixedBytes.zero 32) := by
  refine ⟨_, _, _, _, _, _, rfl, .torn [1] 1 .start rfl, rfl, ?_⟩
  decide

end Bitmigo
