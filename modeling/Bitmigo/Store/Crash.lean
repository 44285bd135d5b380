import Bitmigo.Store.Commit
import Bitmigo.Store.Layout
import Bitmigo.Store.Rewrite

/-
  The order of the store's writes, and what a crash at any point leaves of the blocks that the
  journal names.

  Key definitions include:
    * `Series.Guards`, what a writer keeps of its records
    * `StoreRun`, sessions of the store and crashes
    * `StoreState.EntryDurable`, the block file has its name
    * `StoreState.Settled`, and the journal ends with a whole record

  Key theorems include:
    * `Series.Guards.append` and `Series.Guards.sync`
    * `StoreRun.safe` and `StoreRun.logged`
    * `named_blocks_read_back`
-/

namespace Bitmigo

open Result List Directory Option

variable {reader : SeriesReader} {stored : Stored}
variable {d : Directory FileName} {u : Unit} {tree : HeaderTree} {nodes : List NodeId}
variable {location : BlockLocation} {state : StoreState}

--------
-- What a Writer Guards
--------

namespace Stored

variable (reader : SeriesReader) (stored : Stored)

/- The file a record is in. -/
def fileName : FileName :=
  Bitmigo.fileName reader.stem stored.placed.file

/- Its bytes, from the frame to the trailer. -/
def bytes : Bytes :=
  recordBytes reader.magic stored.body stored.trailer

/- The record is in its file. -/
def FiledIn (d : Directory FileName) : Prop :=
  Filed reader d stored.placed stored.body stored.trailer

/- A sync has covered it. -/
def SyncedIn (d : Directory FileName) : Prop :=
  d.Synced (stored.fileName reader) stored.placed.start (stored.bytes reader)

/- No crash takes it away. -/
def AnchoredIn (d : Directory FileName) : Prop :=
  d.Anchored (stored.fileName reader) stored.placed.start (stored.bytes reader)

end Stored

theorem Stored.FiledIn.written (hFiled : stored.FiledIn reader d) :
    d.Written (stored.fileName reader) stored.placed.start (stored.bytes reader) :=
  ⟨hFiled.contents⟩

/- What is anchored is filed, wherever it was. -/
theorem Stored.AnchoredIn.filed {d e : Directory FileName} (hAnchored : stored.AnchoredIn reader e)
    (hFiled : stored.FiledIn reader d) : stored.FiledIn reader e :=
  ⟨hFiled.sized, hAnchored.written.exists_inode⟩

/- A filed record ends before the cursor of its file. -/
theorem Stored.FiledIn.finish_le {s : Series} (hFiled : stored.FiledIn reader s.device.directory)
    (hStep : s.InStep) (hReader : s.writer.reader = reader)
    (hFile : stored.placed.file = s.writer.file) :
    stored.placed.start + recordSize reader stored.body ≤ s.writer.offset.toNat := by
  rcases hStep with ⟨hFind, hEnd⟩
  rcases hFiled.contents with ⟨handle, inode, hName, hInode, hRecord⟩
  have hStem : s.writer.stem = reader.stem := congrArg SeriesReader.stem hReader
  rw [hFile, ← hStem, hFind] at hName
  cases hName
  rw [hInode, map_some, Option.some.injEq] at hEnd
  have hLen := hRecord.length_le
  have hSize := length_recordBytes hFiled.sized
  have hFrame : frameBytes.toNat = 8 := rfl
  rw [length_drop] at hLen
  rw [recordSize] at hSize ⊢
  omega

/-
  What a writer guards of the records it was asked to write: they are all filed, those of earlier
  files are safe from a crash, and when there is nothing to sync the others have been synced.
-/
structure Series.Guards (s : Series)
    (records : List Stored) : Prop where
  inStep : s.InStep
  maxFile_le : s.writer.maxFile ≤ maxFileBytes
  filed : ∀ stored ∈ records, stored.FiledIn s.writer.reader s.device.directory
  earlier : ∀ stored ∈ records,
      stored.placed.file ≠ s.writer.file → stored.AnchoredIn s.writer.reader s.device.directory
  clean : s.writer.unsynced = false →
      ∀ stored ∈ records, stored.SyncedIn s.writer.reader s.device.directory

namespace Series.Guards

open SeriesWriter

variable {s t : Series} {records : List Stored}

section

variable (hGuards : s.Guards records)

include hGuards

/- After a sync everything has been synced. -/
theorem syncedIn_flushed (hMem : stored ∈ records) : stored.SyncedIn s.writer.reader s.flushed := by
  have hFiled := hGuards.filed stored hMem
  unfold flushed
  by_cases hUnsynced : s.writer.unsynced
  · rw [if_pos hUnsynced]
    by_cases hFile : stored.placed.file = s.writer.file
    · refine hFiled.written.flush ?_
      rw [Stored.fileName, hFile]
      exact hGuards.inStep.1
    · exact (hGuards.earlier stored hMem hFile).synced.grows (grows_flush _ _)
  · rw [if_neg hUnsynced]
    rw [Bool.not_eq_true] at hUnsynced
    exact hGuards.clean hUnsynced stored hMem

theorem sync (hSync : SeriesWriter.sync s = (.ok u, t)) :
    t.Guards records ∧ ∀ stored ∈ records, stored.SyncedIn t.writer.reader t.device.directory := by
  rcases sync_eq_ok hSync with ⟨hWriter, hDir⟩
  have hReader : t.writer.reader = s.writer.reader := by
    rw [hWriter]
    rfl
  have hSynced : ∀ stored ∈ records, stored.SyncedIn t.writer.reader t.device.directory := by
    intro stored hMem
    rw [hReader, hDir]
    exact hGuards.syncedIn_flushed hMem
  have hGrows := s.grows_flushed
  rw [← hDir] at hGrows
  refine ⟨⟨⟨?_, ?_⟩, ?_, ?_, ?_, fun _ => hSynced⟩, hSynced⟩
  · rw [hWriter, hDir, find_flushed]
    exact hGuards.inStep.1
  · rw [hWriter, hDir, length_flushed]
    exact hGuards.inStep.2
  · rw [hWriter]
    exact hGuards.maxFile_le
  · intro stored hMem
    rw [hReader]
    exact (hGuards.filed stored hMem).grows hGrows
  · intro stored hMem hFile
    rw [hWriter] at hFile
    rw [hReader]
    exact (hGuards.earlier stored hMem hFile).grows hGrows

/- A record is placed with everything before it safe. -/
theorem place {record : UInt32} (hPlace : SeriesWriter.place record s = (.ok u, t))
    (hMem : stored ∈ records) (hFile : stored.placed.file ≠ t.writer.file) :
    stored.AnchoredIn s.writer.reader t.device.directory := by
  rcases place_eq_ok hPlace with ⟨_, rfl⟩ | ⟨_, hRolled⟩
  · exact hGuards.earlier stored hMem hFile
  · -- the file was synced, and then the directory
    have hFree := hRolled.free
    rw [← find_flushed] at hFree
    have hSynced := (hGuards.syncedIn_flushed hMem).grows
      ((grows_make hFree).trans (grows_flushEntries _))
    rw [← hRolled.directory] at hSynced
    refine hSynced.anchored ?_
    rw [hRolled.directory]
    rfl

theorem append {body : Bytes} {trailer : Option Hash32} {placed : Placed}
    (hSize : recordSize s.writer.reader body < 2 ^ 32)
    (hAppend : SeriesWriter.append body trailer s = (.ok placed, t)) :
    t.Guards (⟨placed, body, trailer⟩ :: records) := by
  have hContinues : s.Continues t := (keeps_append _ _).of_eq hAppend
  rcases append_filed (fun _ => hGuards.inStep) hGuards.maxFile_le hSize hAppend with
    ⟨hFiled, hStep⟩
  rcases append_appended hAppend with ⟨_, _, mid, hPlace, hDir, hWriter, rfl⟩
  refine ⟨hStep, ?_, ?_, ?_, ?_⟩
  · rw [hContinues.maxFile]
    exact hGuards.maxFile_le
  · rw [hContinues.reader, forall_mem_cons]
    refine ⟨hFiled, fun stored hMem => ?_⟩
    exact (hGuards.filed stored hMem).grows hContinues.grows
  · rw [hContinues.reader, hWriter, forall_mem_cons]
    refine ⟨fun hOther => absurd rfl hOther, ?_⟩
    intro stored hMem hFile
    rw [hDir]
    exact (hGuards.place hPlace hMem hFile).grows (grows_extend _ _ _)
  · rw [hWriter]
    intro hClean
    cases hClean

/- A record is put behind those there are. -/
theorem not_behind {body : Bytes} {trailer : Option Hash32} {placed : Placed}
    (hSize : recordSize s.writer.reader body < 2 ^ 32)
    (hAppend : SeriesWriter.append body trailer s = (.ok placed, t)) (stored : Stored)
    (hMem : stored ∈ records) : stored.placed ≠ placed := by
  intro hSame
  have hCursor := (cursor_append hGuards.inStep hGuards.maxFile_le hSize hAppend).1
  rcases append_appended hAppend with ⟨_, _, mid, hPlace, _, _, hPlaced⟩
  have hContinues : s.Continues mid := (keeps_place _).of_eq hPlace
  have hMid := cursor_place hGuards.maxFile_le hPlace
  rw [show s.writer.trailerBytes =
    s.writer.reader.trailerBytes from rfl, (toNat_record hSize).2] at hMid
  have hStart : placed.start = mid.writer.offset.toNat := by
    have hOffset := congrArg Extent.start hCursor
    rwa [← hMid] at hOffset
  have hFiled : stored.FiledIn s.writer.reader mid.device.directory :=
    (hGuards.filed stored hMem).grows hContinues.grows
  have hEnd := hFiled.finish_le (place_placedFor (fun _ => hGuards.inStep) hPlace).inStep
    hContinues.reader (by rw [hSame, hPlaced])
  rw [hSame, hStart, recordSize] at hEnd
  have hFrame : frameBytes.toNat = 8 := rfl
  omega

end

end Series.Guards

--------
-- Opening the Store
--------

theorem keeps_openWithBound
    (stem : List Char) (magic : FixedBytes 4) (trailerBytes maxRecord maxFile : UInt32) :
    (openWithBound stem magic trailerBytes maxRecord maxFile).Keeps Device.Grows := by
  have hBind {α β : Type}
      {p : Program (Device FileName) StoreStop α} {f : α → Program (Device FileName) StoreStop β}
      (hFst : p.Keeps Device.Grows) (hNext : ∀ a, (f a).Keeps Device.Grows) :
      (p >>= f).Keeps Device.Grows :=
    Program.Keeps.bind Device.Grows.trans hFst hNext
  refine hBind (Program.keeps_lift Device.Grows.refl _) fun _ => ?_
  refine hBind (Program.keeps_lift Device.Grows.refl _) fun _ => ?_
  refine hBind (Program.keeps_get Device.Grows.refl) fun device => ?_
  refine hBind (Device.keeps_openAppend _) fun handle => ?_
  refine hBind (Device.keeps_length _) fun size => ?_
  refine hBind (Program.keeps_lift Device.Grows.refl _) fun offset => ?_
  exact Program.keeps_pure Device.Grows.refl _

/- The blocks of a disk only grow. -/
def Disk.BlocksGrow (a b : Disk) : Prop :=
  a.blocks.Grows b.blocks

theorem Disk.BlocksGrow.refl (a : Disk) : a.BlocksGrow a :=
  Directory.Grows.refl _

theorem Disk.BlocksGrow.trans (a b c : Disk) (hFst : a.BlocksGrow b) (hNext : b.BlocksGrow c) :
    a.BlocksGrow c :=
  Directory.Grows.trans hFst hNext

theorem Store.openIn_ends {K : Primitives} {genesis : BlockHash} {encoded : List IndexRecord}
    {disk : Disk} (hEvery : disk.index.Every (Journaled K encoded)) :
    (openIn genesis).Ends (fun out t => Logged K encoded t.index (some out.1.index.handle))
      (fun t => t.index.Every (Journaled K encoded)) disk := by
  refine .bind (.within ⟨fun _ _ _ => ?_, fun _ _ _ => hEvery⟩)
  refine .bind (.within ⟨fun _ _ _ => ?_, fun _ _ _ => hEvery⟩)
  exact .bind (.within ((Journal.openIn_ends hEvery).mono fun _ _ hOpened => .of_eq rfl hOpened))

theorem Store.keeps_openIn (genesis : BlockHash) : (openIn genesis).Keeps Disk.BlocksGrow := by
  have hBlocks {α : Type}
      {p : Program (Device FileName) StoreStop α} (hPart : p.Keeps Device.Grows) :
      (Disk.onBlocks p).Keeps Disk.BlocksGrow :=
    hPart.within fun _ _ hGrows => hGrows
  have hIndex {α : Type} {p : Program (Device FileName) StoreStop α} :
      (Disk.onIndex p).Keeps Disk.BlocksGrow :=
    fun disk => Disk.BlocksGrow.refl disk
  refine Program.Keeps.bind Disk.BlocksGrow.trans
    (hBlocks (keeps_openWithBound _ _ _ _ _)) fun _ => ?_
  refine Program.Keeps.bind Disk.BlocksGrow.trans
    (hBlocks (keeps_openWithBound _ _ _ _ _)) fun _ => ?_
  refine Program.Keeps.bind Disk.BlocksGrow.trans hIndex fun _ => ?_
  exact Program.keeps_pure Disk.BlocksGrow.refl _

/- The reader of the block series. -/
def blockReader : SeriesReader where
  stem := blockStem
  magic := blockRecordMagic
  trailerBytes := 0
  maxRecord := maxBlockRecordBytes

/- A cursor in step stays so when another file is made. -/
theorem Series.InStep.of_opened
    {s : Series} {stem : List Char} {magic : FixedBytes 4} {trailerBytes maxRecord maxFile : UInt32}
    {opened : Device FileName} {writer : SeriesWriter} (hStep : s.InStep) (hOpened :
      SeriesOpened stem magic trailerBytes maxRecord maxFile s.device opened writer reader) :
    (⟨opened, s.writer⟩ : Series).InStep := by
  rcases hStep with ⟨hFind, hEnd⟩
  rcases hOpened.directory with hSame | ⟨hFree, hMade⟩
  · refine ⟨?_, ?_⟩
    · rwa [hSame]
    · rwa [hSame]
  · refine ⟨?_, ?_⟩
    · rw [hMade]
      exact (grows_make hFree).find _ _ hFind
    · rcases exists_inode hFind with ⟨inode, hInode⟩
      have hLt := (List.getElem?_eq_some_iff.mp hInode).1
      rw [hMade]
      show (_ ++ _)[s.writer.handle]?.map _ = _
      rwa [getElem?_append_left hLt]

/- What the writer of the blocks is when a store opens. -/
structure OpenedStore (after : Disk) (store : ChainStore)
    (reader : SeriesReader) : Prop where
  inStep : (StoreState.series ⟨after, store⟩).InStep
  maxFile_le : store.blocks.maxFile ≤ maxFileBytes
  unsynced : store.blocks.unsynced = false
  writer_eq : store.blocks.reader = blockReader
  reader_eq : reader = blockReader

theorem Store.openIn_opened {genesis : BlockHash} {disk after : Disk} {store : ChainStore}
    (hOpen : openIn genesis disk = (.ok (store, reader), after)) :
    OpenedStore after store reader := by
  simp only [openIn, Disk.onBlocks, Disk.onIndex, Program.bind_eq_ok, Program.within_eq,
    Program.pure_eq_ok, Prod.mk.injEq] at hOpen
  rcases hOpen with
    ⟨⟨blocks, reader⟩, _, ⟨opened, hBlocks, rfl⟩, ⟨undo, _⟩, _,
      ⟨second, hUndo, rfl⟩, journal, _, ⟨index, _, rfl⟩, ⟨rfl, rfl⟩, rfl⟩
  have hOpened := openWithBound_opened hBlocks
  have hMaxFile := hOpened.openedAs.maxFile
  have hReader := hOpened.openedAs.reader
  have hStep := hOpened.inStep.of_opened (openWithBound_opened hUndo)
  exact ⟨hStep, hMaxFile ▸ hOpened.maxFile_le,
    hOpened.unsynced, hReader, hOpened.reader_eq.trans hReader⟩

--------
-- Sessions and Crashes
--------

def BlockLocation.placed (location : BlockLocation) : Placed where
  file := location.file
  offset := location.offset
  len := location.len

/- The tree has only locations of written blocks. -/
def HeaderTree.Knows (tree : HeaderTree) (written : List Stored) : Prop :=
  ∀ entry ∈ tree.entries, ∀ location,
    entry.status.location = some location → ∃ stored ∈ written, stored.placed = location.placed

/- One of the records names the block. -/
def Stored.NamedBy (encoded : List IndexRecord) (stored : Stored) : Prop :=
  ∃ record ∈ encoded, record.2.location.map BlockLocation.placed = some stored.placed

instance
    (encoded : List IndexRecord) (stored : Stored) :
    Decidable (stored.NamedBy encoded) :=
  inferInstanceAs (Decidable (∃ record ∈ encoded, _ = _))

/- The disk with the next calls going as the list says. -/
def Disk.facing (disk : Disk) (fates : List CallFate) : Disk :=
  { disk with fates := fates }

/- The records of all entries, which a rewrite writes. -/
def HeaderTree.records (tree : HeaderTree) : List IndexRecord :=
  recordsFor tree (List.range tree.len)

/-
  Sessions of the store on an index that starts empty, what `writeBlock` returned in them and the
  records that commits may have put into the journal.

  The tree of a session is filled by its other calls, and a commit may find any locations in it that
  were returned in this session or named by the journal. A session ends at any point, within a call
  too, and what it returned and did not commit is forgotten. Between two sessions the machine may
  crash. No call fails, and every commit starts from a store that is admitted.
-/
inductive StoreRun (K : Primitives) (genesis : BlockHash) (admits : StoreState → Prop) :
    Disk → Option ChainStore → List Stored → List IndexRecord → Prop where
  | start (blocks : Directory FileName) :
      StoreRun K genesis admits ⟨blocks, Directory.empty, []⟩ none [] []
  | opened {disk after : Disk} {written : List Stored} {encoded : List IndexRecord}
      {fates : List CallFate} {store : ChainStore} {reader : SeriesReader}
      (before : StoreRun K genesis admits disk none written encoded)
      (step : Store.openIn genesis (disk.facing fates) = (.ok (store, reader), after)) :
      StoreRun K genesis admits after (some store) written encoded
  | wrote {disk : Disk} {store : ChainStore} {written : List Stored} {encoded : List IndexRecord}
      {fates : List CallFate} {bytes : Bytes} {location : BlockLocation} {after : StoreState}
      (before : StoreRun K genesis admits disk (some store) written encoded)
      (step : ChainStore.writeBlock bytes ⟨disk.facing fates, store⟩ = (.ok location, after)) :
      StoreRun K genesis admits after.disk (some after.store)
        (⟨location.placed, bytes, none⟩ :: written) encoded
  | committed {disk : Disk} {store : ChainStore} {written : List Stored}
      {encoded : List IndexRecord} {fates : List CallFate} {tree : HeaderTree}
      {out : Nat × HeaderTree} {after : StoreState}
      (before : StoreRun K genesis admits disk (some store) written encoded)
      (knows : tree.Knows written) (admitted : admits ⟨disk, store⟩)
      (step : ChainStore.commit K tree ⟨disk.facing fates, store⟩ = (.ok out, after)) :
      StoreRun K genesis admits after.disk (some after.store)
        written (if tree.dirty.isEmpty then encoded else tree.records ++ encoded)
  -- a session ends between two calls
  | ended {disk : Disk} {store : ChainStore} {written : List Stored} {encoded : List IndexRecord}
      (before : StoreRun K genesis admits disk (some store) written encoded) :
      StoreRun K genesis admits disk none (written.filter (·.NamedBy encoded)) encoded
  -- or within one
  | openedHalf {disk after : Disk} {written : List Stored} {encoded : List IndexRecord}
      {fates : List CallFate} (before : StoreRun K genesis admits disk none written encoded)
      (step : Store.openIn genesis (disk.facing fates) = (Result.fail .crashed, after)) :
      StoreRun K genesis admits after none written encoded
  | wroteHalf {disk : Disk} {store : ChainStore} {written : List Stored}
      {encoded : List IndexRecord} {fates : List CallFate} {bytes : Bytes} {after : StoreState}
      (before : StoreRun K genesis admits disk (some store) written encoded)
      (step :
        ChainStore.writeBlock bytes ⟨disk.facing fates, store⟩ = (Result.fail .crashed, after)) :
      StoreRun K genesis admits after.disk none (written.filter (·.NamedBy encoded)) encoded
  | committedHalf {disk : Disk} {store : ChainStore} {written : List Stored}
      {encoded : List IndexRecord} {fates : List CallFate} {tree : HeaderTree}
      {synced after : StoreState}
      (before : StoreRun K genesis admits disk (some store) written encoded)
      (knows : tree.Knows written) (admitted : admits ⟨disk, store⟩)
      (sync : StoreState.onSeries SeriesWriter.sync ⟨disk.facing fates, store⟩ = (.ok (), synced))
      (step : StoreState.onJournal (Journal.append K tree.dirty tree) synced =
          (Result.fail .crashed, after)) :
      StoreRun K genesis admits after.disk none
        (written.filter (·.NamedBy (tree.records ++ encoded))) (tree.records ++ encoded)
  -- the machine crashes
  | crashed {disk after : Disk} {written : List Stored} {encoded : List IndexRecord}
      (before : StoreRun K genesis admits disk none written encoded)
      (blocks : disk.blocks.Survives after.blocks) (index : disk.index.Survives after.index) :
      StoreRun K genesis admits after none written encoded

/- The block file has its name in the directory for good. -/
def StoreState.EntryDurable (state : StoreState) : Prop :=
  state.disk.blocks.NameDurable (fileName blockStem state.store.blocks.file)

instance (state : StoreState) : Decidable state.EntryDurable :=
  inferInstanceAs (Decidable (NameDurable _ _))

/- And the journal ends with a whole record. -/
structure StoreState.Settled (K : Primitives) (genesis : BlockHash) (state : StoreState) :
    Prop where
  entryDurable : state.EntryDurable
  endsWhole : state.journal.EndsWhole K genesis

--------
-- What Every Session Keeps
--------

/-
  Every record in the journal names a block that was written, and no crash takes such a block away.
-/
structure Safe (disk : Disk) (store : Option ChainStore) (written : List Stored)
    (encoded : List IndexRecord) : Prop where
  written_of_encoded : ∀ record ∈ encoded, ∀ location,
      record.2.location = some location → ∃ stored ∈ written, stored.placed = location.placed
  filed : ∀ stored ∈ written, stored.FiledIn blockReader disk.blocks ∧ stored.trailer = none
  anchored : ∀ stored ∈ written, stored.NamedBy encoded → stored.AnchoredIn blockReader disk.blocks
  -- between sessions there is nothing else
  closed : store = none → ∀ stored ∈ written, stored.NamedBy encoded
  guards : ∀ writer, store = some writer →
      (StoreState.series ⟨disk, writer⟩).Guards written ∧ writer.blocks.reader = blockReader

/- A record's location is the one the tree has. -/
theorem Persisted.location_of {status : HeaderStatus} {persisted : Persisted}
    (hOf : Persisted.of status = some persisted) : status.location = persisted.location := by
  cases status with
  | genesis => cases hOf
  | headerAccepted | blockChecked location | connected location undo | invalidAncestor culprit =>
    cases hOf; rfl
  | invalid invalidity => cases invalidity <;> cases hOf <;> rfl

theorem exists_entry_of_mem_recordsFor {record : IndexRecord}
    (hMem : record ∈ recordsFor tree nodes) :
    ∃ entry ∈ tree.entries, Persisted.of entry.status = some record.2 := by
  rcases mem_filterMap.mp hMem with ⟨node, _, hRecord⟩
  simp only [bind_eq_bind, bind_eq_some_iff, Option.pure_def, Option.some.injEq] at hRecord
  rcases hRecord with ⟨entry, hEntry, status, hStat, rfl⟩
  exact ⟨entry, mem_of_getElem? hEntry, hStat⟩

namespace ChainStore

/- A block is written by an append to its series. -/
theorem writeBlock_eq_ok {bytes : Bytes} {next : StoreState}
    (hWrite : writeBlock bytes state = (.ok location, next)) :
    ∃ placed, SeriesWriter.append bytes none state.series = (.ok placed, next.series) ∧
      location.placed = placed := by
  simp only [writeBlock, StoreState.onSeries,
    Program.bind_eq_ok, Program.within_eq, Program.pure_eq_ok] at hWrite
  rcases hWrite with ⟨placed, _, ⟨series, hAppend, rfl⟩, rfl, rfl⟩
  exact ⟨placed, hAppend, rfl⟩

/- The bound on a block keeps its record below 2^32. -/
theorem recordSize_lt {bytes : Bytes} {placed : Placed} {s t : Series}
    (hReader : s.writer.reader = blockReader)
    (hAppend : SeriesWriter.append bytes none s = (.ok placed, t)) :
    recordSize s.writer.reader bytes < 2 ^ 32 := by
  have hBody := (SeriesWriter.append_appended hAppend).bounded
  have hMaxRecord : s.writer.maxRecord = maxBlockRecordBytes :=
    congrArg SeriesReader.maxRecord hReader
  have hMax : maxBlockRecordBytes.toNat = 4000000 := rfl
  have hFrame : frameBytes.toNat = 8 := rfl
  rw [hMaxRecord, UInt32.le_iff_toNat_le, toNat_clampU32] at hBody
  rw [hReader, recordSize]
  show _ + (0 : UInt32).toNat < _
  rw [UInt32.toNat_zero]
  omega

end ChainStore

namespace Safe

variable {disk after : Disk} {store : ChainStore} {written : List Stored}
variable {encoded : List IndexRecord} {fates : List CallFate} {next : StoreState}

/- What is left when a session ends. -/
theorem ended {before : Option ChainStore} (hSafe : Safe disk before written encoded)
    (hGrows : disk.blocks.Grows after.blocks) :
    Safe after none (written.filter (·.NamedBy encoded)) encoded := by
  refine ⟨?_, ?_, ?_, ?_, fun _ hNone => by cases hNone⟩
  · intro record hRecord location hLoc
    rcases hSafe.written_of_encoded record hRecord location hLoc with ⟨stored, hMem, hPlaced⟩
    refine ⟨stored, mem_filter.mpr ⟨hMem, ?_⟩, hPlaced⟩
    rw [decide_eq_true_eq]
    refine ⟨record, hRecord, ?_⟩
    rw [hLoc, hPlaced]
    rfl
  · intro stored hMem
    rcases hSafe.filed stored (mem_filter.mp hMem).1 with ⟨hFiled, hNone⟩
    exact ⟨hFiled.grows hGrows, hNone⟩
  · intro stored hMem hNamed
    exact (hSafe.anchored stored (mem_filter.mp hMem).1 hNamed).grows hGrows
  · intro _ stored hMem
    exact of_decide_eq_true (mem_filter.mp hMem).2

/- A disk that grows between sessions. -/
theorem grown (hSafe : Safe disk none written encoded) (hGrows : disk.blocks.Grows after.blocks) :
    Safe after none written encoded := by
  have hEnded := hSafe.ended hGrows
  rw [filter_eq_self.mpr] at hEnded
  · exact hEnded
  · intro stored hMem
    exact decide_eq_true (hSafe.closed rfl stored hMem)

theorem crashed (hSafe : Safe disk none written encoded)
    (hBlocks : disk.blocks.Survives after.blocks) : Safe after none written encoded := by
  have hAnchored : ∀ stored ∈ written, stored.AnchoredIn blockReader after.blocks := by
    intro stored hMem
    exact (hSafe.anchored stored hMem (hSafe.closed rfl stored hMem)).survives hBlocks
  refine ⟨hSafe.written_of_encoded, ?_,
    fun stored hMem _ => hAnchored stored hMem, hSafe.closed, fun _ hNone => by cases hNone⟩
  intro stored hMem
  rcases hSafe.filed stored hMem with ⟨hFiled, hNone⟩
  exact ⟨(hAnchored stored hMem).filed hFiled, hNone⟩

theorem opened {genesis : BlockHash} (hSafe : Safe disk none written encoded)
    (hOpen : Store.openIn genesis (disk.facing fates) = (.ok (store, reader), after)) :
    Safe after (some store) written encoded := by
  have hGrows : (disk.facing fates).BlocksGrow after := (Store.keeps_openIn genesis).of_eq hOpen
  have hOpened := Store.openIn_opened hOpen
  have hFiled :
      ∀ stored ∈ written, stored.FiledIn blockReader after.blocks ∧ stored.trailer = none := by
    intro stored hMem
    rcases hSafe.filed stored hMem with ⟨hFiled, hNone⟩
    exact ⟨hFiled.grows hGrows, hNone⟩
  have hAnchored : ∀ stored ∈ written, stored.AnchoredIn blockReader after.blocks := by
    intro stored hMem
    exact (hSafe.anchored stored hMem (hSafe.closed rfl stored hMem)).grows hGrows
  refine ⟨hSafe.written_of_encoded, hFiled,
    fun stored hMem _ => hAnchored stored hMem, fun hNone => (by cases hNone), ?_⟩
  intro writer hWriter
  cases hWriter
  refine ⟨⟨hOpened.inStep, hOpened.maxFile_le, ?_, ?_, ?_⟩, hOpened.writer_eq⟩
  · intro stored hMem
    show stored.FiledIn store.blocks.reader _
    rw [hOpened.writer_eq]
    exact (hFiled stored hMem).1
  · intro stored hMem _
    show stored.AnchoredIn store.blocks.reader _
    rw [hOpened.writer_eq]
    exact hAnchored stored hMem
  · intro _ stored hMem
    show stored.SyncedIn store.blocks.reader _
    rw [hOpened.writer_eq]
    exact (hAnchored stored hMem).synced

section

variable (hSafe : Safe disk (some store) written encoded)

include hSafe

/- Fates to come do not change what a writer guards. -/
theorem guards_facing (fates : List CallFate) :
    (StoreState.series ⟨disk.facing fates, store⟩).Guards written ∧
      store.blocks.reader = blockReader := by
  rcases hSafe.guards store rfl with ⟨hGuards, hReader⟩
  exact ⟨⟨hGuards.inStep, hGuards.maxFile_le, hGuards.filed,
    hGuards.earlier, hGuards.clean⟩, hReader⟩

/- A new block is not where one is that the journal names. -/
theorem not_namedBy {s : Series} {body : Bytes} {placed : Placed} {t : Series}
    (hGuards : s.Guards written) (hSize : recordSize s.writer.reader body < 2 ^ 32)
    (hAppend : SeriesWriter.append body none s = (.ok placed, t)) :
    ¬ (Stored.mk placed body none).NamedBy encoded := by
  rintro ⟨record, hRecord, hNames⟩
  rcases map_eq_some_iff.mp hNames with ⟨location, hLoc, hPlaced⟩
  rcases hSafe.written_of_encoded record hRecord location hLoc with ⟨stored, hMem, hSame⟩
  have hBehind := hGuards.not_behind hSize hAppend stored hMem
  exact hBehind (hSame.trans hPlaced)

theorem wrote {bytes : Bytes}
    (hWrite : ChainStore.writeBlock bytes ⟨disk.facing fates, store⟩ = (.ok location, next)) :
    Safe next.disk (some next.store) (⟨location.placed, bytes, none⟩ :: written) encoded := by
  rcases hSafe.guards_facing fates with ⟨hGuards, hReader⟩
  rcases ChainStore.writeBlock_eq_ok hWrite with ⟨placed, hAppend, hPlaced⟩
  rw [hPlaced]
  have hSize := ChainStore.recordSize_lt hReader hAppend
  have hContinues := (SeriesWriter.keeps_append _ _).of_eq hAppend
  have hNext := hGuards.append hSize hAppend
  have hSame : next.store.blocks.reader = blockReader := hContinues.reader.trans hReader
  have hGrows : disk.blocks.Grows next.disk.blocks := hContinues.grows
  refine ⟨?_, ?_, ?_, fun hNone => (by cases hNone), ?_⟩
  · intro record hRecord location hLoc
    rcases hSafe.written_of_encoded record hRecord location hLoc with ⟨stored, hMem, hPlaced⟩
    exact ⟨stored, mem_cons_of_mem _ hMem, hPlaced⟩
  · rw [forall_mem_cons]
    constructor
    · have hFiled := hNext.filed _ mem_cons_self
      rw [show next.series.writer.reader = blockReader from hSame] at hFiled
      exact ⟨hFiled, rfl⟩
    · intro stored hMem
      rcases hSafe.filed stored hMem with ⟨hFiled, hNone⟩
      exact ⟨hFiled.grows hGrows, hNone⟩
  · rw [forall_mem_cons]
    constructor
    · intro hNamed
      exact absurd hNamed (hSafe.not_namedBy hGuards hSize hAppend)
    · intro stored hMem hNamed
      exact (hSafe.anchored stored hMem hNamed).grows hGrows
  · intro writer hWriter
    cases hWriter
    exact ⟨hNext, hSame⟩

/- After a sync every written block is safe from a crash. -/
theorem synced (hDurable : StoreState.EntryDurable ⟨disk, store⟩)
    (hSync : StoreState.onSeries SeriesWriter.sync ⟨disk.facing fates, store⟩ = (.ok u, next)) :
    Safe next.disk (some next.store) written encoded ∧
      ∀ stored ∈ written, stored.AnchoredIn blockReader next.disk.blocks := by
  rcases hSafe.guards_facing fates with ⟨hGuards, hReader⟩
  rw [StoreState.onSeries, Program.within_eq] at hSync
  rcases hSync with ⟨series, hSync, rfl⟩
  rcases SeriesWriter.sync_eq_ok hSync with ⟨hWriter, hDir⟩
  rcases hGuards.sync hSync with ⟨hNext, hSynced⟩
  have hSame : series.writer.reader = blockReader := by
    rwa [hWriter]
  have hGrows : disk.blocks.Grows series.device.directory := by
    rw [hDir]
    exact Series.grows_flushed (StoreState.series ⟨disk.facing fates, store⟩)
  have hAnchored : ∀ stored ∈ written, stored.AnchoredIn blockReader series.device.directory := by
    intro stored hMem
    rw [← hSame]
    by_cases hFile : stored.placed.file = series.writer.file
    · refine (hSynced stored hMem).anchored ?_
      rw [hWriter] at hFile
      rwa [Stored.fileName, hFile, hSame, hDir,
        NameDurable, Series.durable_flushed, Series.find_flushed]
    · exact hNext.earlier stored hMem hFile
  refine ⟨⟨hSafe.written_of_encoded, ?_,
    fun stored hMem _ => hAnchored stored hMem, fun hNone => (by cases hNone), ?_⟩, hAnchored⟩
  · intro stored hMem
    rcases hSafe.filed stored hMem with ⟨hFiled, hNone⟩
    exact ⟨hFiled.grows hGrows, hNone⟩
  · intro writer hWriter
    cases hWriter
    exact ⟨hNext, hSame⟩

/- Records of blocks that are safe from a crash. -/
theorem named (hAnchored : ∀ stored ∈ written, stored.AnchoredIn blockReader disk.blocks)
    (hKnows : tree.Knows written) : Safe disk (some store) written (tree.records ++ encoded) := by
  refine ⟨?_, hSafe.filed,
    fun stored hMem _ => hAnchored stored hMem, fun hNone => (by cases hNone), hSafe.guards⟩
  intro record hRecord location hLoc
  rcases mem_append.mp hRecord with hNew | hOld
  · rcases exists_entry_of_mem_recordsFor hNew with ⟨entry, hEntry, hStat⟩
    refine hKnows entry hEntry location ?_
    rwa [Persisted.location_of hStat]
  · exact hSafe.written_of_encoded record hOld location hLoc

end

/- The journal's calls leave the blocks. -/
theorem onJournal {α : Type} {p : Program Index StoreStop α} {out : Result StoreStop α}
    (hSafe : Safe state.disk (some state.store) written encoded)
    (hCall : StoreState.onJournal p state = (out, next)) :
    Safe next.disk (some next.store) written encoded := by
  rw [StoreState.onJournal, Program.within] at hCall
  cases hCall
  refine ⟨hSafe.written_of_encoded, hSafe.filed, hSafe.anchored, fun hNone => (by cases hNone), ?_⟩
  intro writer hWriter
  cases hWriter
  rcases hSafe.guards state.store rfl with ⟨hGuards, hReader⟩
  exact ⟨⟨hGuards.inStep, hGuards.maxFile_le, hGuards.filed,
    hGuards.earlier, hGuards.clean⟩, hReader⟩

theorem committed {K : Primitives} {out : Nat × HeaderTree}
    (hSafe : Safe disk (some store) written encoded) (hKnows : tree.Knows written)
    (hDurable : StoreState.EntryDurable ⟨disk, store⟩)
    (hCommit : ChainStore.commit K tree ⟨disk.facing fates, store⟩ = (.ok out, next)) :
    Safe next.disk (some next.store) written
      (if tree.dirty.isEmpty then encoded else tree.records ++ encoded) := by
  rw [ChainStore.commit] at hCommit
  split at hCommit
  · rename_i hEmpty
    rw [Program.pure_eq_ok] at hCommit
    rw [if_pos hEmpty, hCommit.2]
    refine ⟨hSafe.written_of_encoded, hSafe.filed,
      hSafe.anchored, fun hNone => (by cases hNone), ?_⟩
    intro writer hWriter
    cases hWriter
    exact hSafe.guards_facing fates
  · rename_i hDirty
    simp only [Program.bind_eq_ok, Program.lift_eq_ok, Program.pure_eq_ok] at hCommit
    rcases hCommit with
      ⟨_, synced, hSync, _, _, hJournal, _, _, ⟨_, rfl⟩, _, rfl⟩
    rw [if_neg hDirty]
    rcases hSafe.synced hDurable hSync with ⟨hSynced, hAnchored⟩
    exact (hSynced.named hAnchored hKnows).onJournal hJournal

end Safe

/- A block that is half written leaves the others. -/
theorem ChainStore.keeps_writeBlock {bytes : Bytes} {out : Result StoreStop BlockLocation}
    {next : StoreState} (hWrite : writeBlock bytes state = (out, next)) :
    state.disk.blocks.Grows next.disk.blocks := by
  have hAppend : (StoreState.onSeries
      (SeriesWriter.append bytes none)).Keeps fun a b => a.disk.blocks.Grows b.disk.blocks :=
    (SeriesWriter.keeps_append bytes none).within fun _ _ hContinues => hContinues.grows
  rcases Program.bind_cases hWrite with ⟨_, hFst, _⟩ | ⟨placed, mid, hFst, hReturn⟩
  · exact hAppend.of_eq hFst
  · cases hReturn
    exact hAppend.of_eq hFst

section

variable {K : Primitives} {genesis : BlockHash} {disk after : Disk} {written : List Stored}
variable {encoded : List IndexRecord}

section

variable (genesis) (hEnds : state.journal.EndsWhole K genesis)
variable (hLogged : Logged K encoded state.disk.index (some state.store.index.handle))

include hLogged

theorem ChainStore.writeBlock_ends {bytes : Bytes} :
    (writeBlock bytes).Ends (fun _ t => Logged K encoded t.disk.index (some t.store.index.handle))
      (fun t => t.disk.index.Every (Journaled K encoded)) state :=
  .bind (.within ⟨fun _ _ _ => .of_eq rfl hLogged, fun _ _ _ => hLogged.every⟩)

include hEnds

theorem StoreState.append_ends :
    (onJournal (Journal.append K tree.dirty tree)).Ends
      (fun _ t => Logged K (tree.records ++ encoded) t.disk.index (some t.store.index.handle))
      (fun t => t.disk.index.Every (Journaled K (tree.records ++ encoded))) state := by
  refine .within (Journal.append_ends ?_ hEnds ⟨?_, hLogged.opened⟩)
  · intro nodes
    exact subset_append_of_subset_left encoded (recordsFor_subset tree nodes)
  · intro inode hInode
    exact (hLogged.every inode hInode).mono

theorem ChainStore.commit_ends :
    (commit K tree).Ends
      (fun _ t => Logged K (if tree.dirty.isEmpty then encoded else tree.records ++ encoded)
        t.disk.index (some t.store.index.handle))
      (fun t => t.disk.index.Every (Journaled K (tree.records ++ encoded))) state := by
  unfold commit
  split
  · exact .of_eq rfl hLogged
  · refine .bind (.within ⟨fun _ _ _ => ?_, fun _ _ _ inode hInode => ?_⟩)
    · refine .bind ((StoreState.append_ends genesis ?_ ?_).mono fun _ _ hAfter => ?_)
      · exact hEnds
      · exact hLogged
      · exact .bind (Program.ends_lift hAfter.every fun _ _ => .of_eq rfl hAfter)
    · exact (hLogged.every inode hInode).mono

end

theorem StoreRun.safe {store : Option ChainStore}
    (hRun : StoreRun K genesis (StoreState.Settled K genesis) disk store written encoded) :
    Safe disk store written encoded := by
  induction hRun with
  | start blocks =>
    exact ⟨forall_mem_nil _, forall_mem_nil _,
      forall_mem_nil _, fun _ => forall_mem_nil _, fun _ hNone => (by cases hNone)⟩
  | opened _ hOpen ih => exact ih.opened hOpen
  | wrote _ hWrite ih => exact ih.wrote hWrite
  | committed _ hKnows hSettled hCommit ih => exact ih.committed hKnows hSettled.1 hCommit
  | ended _ ih => exact ih.ended (Directory.Grows.refl _)
  | @openedHalf disk after _ _ fates _ hOpen ih =>
    have hGrows : (disk.facing fates).BlocksGrow after := (Store.keeps_openIn genesis).of_eq hOpen
    exact ih.grown hGrows
  | wroteHalf _ hWrite ih => exact ih.ended (ChainStore.keeps_writeBlock hWrite)
  | committedHalf _ hKnows hSettled hSync hJournal ih =>
    rcases ih.synced hSettled.1 hSync with ⟨hSynced, hAnchored⟩
    exact ((hSynced.named hAnchored hKnows).onJournal hJournal).ended (Directory.Grows.refl _)
  | crashed _ hBlocks _ ih => exact ih.crashed hBlocks

/- Every step leaves in the index only what commits have put there. -/
theorem StoreRun.logged {store : Option ChainStore}
    (hRun : StoreRun K genesis (StoreState.Settled K genesis) disk store written encoded) :
    Logged K encoded disk.index (store.map (·.index.handle)) := by
  induction hRun with
  | start blocks => exact ⟨forall_mem_nil _, fun hNone => by cases hNone⟩
  | opened _ hOpen ih =>
    refine (Store.openIn_ends ?_).returns _ _ hOpen
    exact ih.every
  | wrote _ hWrite ih => exact (ChainStore.writeBlock_ends ih).returns _ _ hWrite
  | committed _ _ hSettled hCommit ih =>
    refine (ChainStore.commit_ends genesis ?_ ?_).returns _ _ hCommit
    · exact hSettled.endsWhole
    · exact ih
  | ended _ ih => exact ⟨ih.every, fun hNone => by cases hNone⟩
  | openedHalf _ hOpen ih =>
    refine ⟨(Store.openIn_ends ?_).stops _ _ hOpen, fun hNone => by cases hNone⟩
    exact ih.every
  | wroteHalf _ hWrite ih =>
    exact ⟨(ChainStore.writeBlock_ends ih).stops _ _ hWrite, fun hNone => by cases hNone⟩
  | committedHalf _ _ hSettled hSync hJournal ih =>
    rcases Program.within_eq.mp hSync with ⟨series, _, rfl⟩
    refine ⟨(StoreState.append_ends genesis ?_ ?_).stops _ _ hJournal, fun hNone => by cases hNone⟩
    · exact hSettled.endsWhole
    · exact ih
  | crashed _ _ hIndex ih =>
    exact ⟨ih.every.survives hIndex fun _ kept hBytes => hBytes.take kept,
      fun hNone => by cases hNone⟩

/-
  In every run whose commits all start with the name of the block file durable and the journal at
  the end of a whole record, a store that opens after any crash reads every block that a record in
  the journal names, just as it was written.
-/
theorem named_blocks_read_back
    {fates : List CallFate} {store : ChainStore} {reader : SeriesReader} {file : Bytes}
    {record : IndexRecord} {location : BlockLocation}
    (hRun : StoreRun K genesis (StoreState.Settled K genesis) disk none written encoded)
    (hOpen : Store.openIn genesis (disk.facing fates) = (.ok (store, reader), after))
    (hFile : disk.index.contents journalFile = some file)
    (hRecord : record ∈ recordsIn K (file.drop fileHeaderBytes))
    (hLoc : record.2.location = some location) :
    (∃ stored ∈ written,
        stored.placed = location.placed) ∧
      ∀ stored ∈ written,
        stored.placed = location.placed →
          reader.read after.blocks location.file location.offset location.len =
            .ok (stored.body, FixedBytes.zero 32) := by
  have hSafe := (hRun.opened hOpen).safe
  rcases mem_inodes_of_contents hFile with ⟨inode, hInode, rfl⟩
  have hEncoded := (hRun.logged.every inode hInode).recordsIn_subset hRecord
  refine ⟨hSafe.written_of_encoded record hEncoded location hLoc, ?_⟩
  intro stored hMem hPlaced
  rcases hSafe.filed stored hMem with ⟨hFiled, hNone⟩
  have hRead := hFiled.read_eq
  rw [hNone, hPlaced] at hRead
  rwa [(Store.openIn_opened hOpen).reader_eq]

end

--------
-- A Block File That Is Lost
--------

/-
  One block is written and committed, and the machine crashes before its file has a durable name.
-/
namespace LostFile

open SmallChain (left genesisHash crypto)

/- The entries that are not durable are lost. -/
def lose (d : Directory FileName) : Directory FileName where
  inodes := d.inodes
  entries := []
  durable := []
  named := forall_mem_nil _

theorem survives_lose (hNone : d.durable = []) : d.Survives (lose d) where
  find := by
    intro name
    rw [hNone]
    exact .inr rfl
  durable := hNone.symm
  inode := fun handle inode hInode =>
    (Survives.refl d).inode handle inode hInode
  length := rfl

/- One block in its file, named by a record. -/
structure Committed where
  tree : HeaderTree
  location : BlockLocation
  wrote : StoreState
  last : StoreState

/- A session that writes one block and commits it. -/
def commitOne (blocks : Directory FileName) : Result StoreStop Committed := do
  let tree ← Result.lift (HeaderTree.withCap crypto.primitives SmallChain.params 8)
  let grown ← Result.lift
    (tree.play crypto.primitives SmallChain.params
      [.accept left SmallChain.now])
  let ((store, _), disk) ← Program.returned
    (Store.openIn genesisHash (Disk.facing ⟨blocks, Directory.empty, []⟩ []))
  let (location, wrote) ← Program.returned (ChainStore.writeBlock [7] ⟨disk.facing [], store⟩)
  let checked ← Result.lift (grown.blockChecked 1 location)
  let (_, last) ← Program.returned
    (ChainStore.commit crypto.primitives checked ⟨wrote.disk.facing [], wrote.store⟩)
  return ⟨checked, location, wrote, last⟩

/- The tree and the journal have the block. -/
def Committed.Shows (one : Committed) : Prop :=
  one.tree.entries.map (·.status.location) =
      [none, some one.location] ∧
    one.tree.records = [(left, .checked one.location)] ∧ ¬ one.tree.dirty.isEmpty

instance (one : Committed) : Decidable one.Shows :=
  inferInstanceAs (Decidable (_ ∧ _ ∧ _))

/- The block is all the tree knows. -/
theorem knows_of_locations
    (hLocations : tree.entries.map (·.status.location) = [none, some location]) :
    tree.Knows [⟨location.placed, [7], none⟩] := by
  intro entry hEntry found hFound
  have hMem : some found ∈ tree.entries.map (·.status.location) :=
    mem_map.mpr ⟨entry, hEntry, hFound⟩
  rw [hLocations] at hMem
  simp only [mem_cons, reduceCtorEq, Option.some.injEq, not_mem_nil, or_false, false_or] at hMem
  exact ⟨_, mem_cons_self, by rw [hMem]⟩

theorem run_of_commitOne
    (admits : StoreState → Prop) {blocks : Directory FileName} {one : Committed}
    (hOne : commitOne blocks = .ok one) (hShows : one.Shows) (hAdmits : admits one.wrote) :
    StoreRun crypto.primitives genesisHash admits one.last.disk
      (some one.last.store) [⟨one.location.placed, [7], none⟩] [(left, .checked one.location)] := by
  simp only [commitOne, bind_eq_ok, pure_eq_ok, Prod.exists, Program.returned_eq_ok] at hOne
  rcases hOne with
    ⟨_, _, grown, _, store, _, disk, hOpen, location, wrote,
      hWrite, checked, _, _, _, last, hCommit, hOne⟩
  cases hOne
  rcases hShows with ⟨hLocations, hRecords, hDirty⟩
  have hRun := StoreRun.committed
    (.wrote (.opened (.start _) hOpen) hWrite) (knows_of_locations hLocations) hAdmits hCommit
  rwa [if_neg hDirty, append_nil, hRecords] at hRun

/- The records of the journal of a disk. -/
def journalRecords (disk : Disk) : List IndexRecord :=
  ((disk.index.contents journalFile).map fun file =>
    recordsIn crypto.primitives (file.drop fileHeaderBytes)).getD []

/- The disk after the crash. -/
def crashed (one : Committed) : Disk :=
  ⟨lose one.last.disk.blocks, one.last.disk.index, []⟩

/- The next store finds the record and not the block. -/
def history : Result StoreStop Bool := do
  let one ← commitOne Directory.empty
  let ((_, reader), reopened) ← Program.returned
    (Store.openIn genesisHash ((crashed one).facing []))
  return decide
    (one.Shows ∧ one.last.disk.blocks.durable = [] ∧
      journalRecords (crashed one) = [(left, .checked one.location)] ∧
      (reader.read reopened.blocks one.location.file
        one.location.offset one.location.len).toOption = none)

theorem history_returns : history = .ok true := by
  decide +kernel

theorem named_block_lost :
    ∃ disk written location store reader after,
      StoreRun crypto.primitives genesisHash (fun _ => True) disk none
          written [(left, .checked location)] ∧
        Store.openIn genesisHash (disk.facing []) = (.ok (store, reader), after) ∧
        journalRecords disk = [(left, .checked location)] ∧
        (reader.read after.blocks location.file location.offset location.len).toOption = none := by
  have hRet := history_returns
  simp only [history, bind_eq_ok, pure_inj, decide_eq_true_eq, Prod.exists,
    Program.returned_eq_ok] at hRet
  rcases hRet with ⟨one, hOne, store, reader, after, hOpen, hShows, hDurable, hRecords, hLost⟩
  have hRun := run_of_commitOne (fun _ => True) hOne hShows trivial
  exact ⟨crashed one, _, one.location, store, reader, after,
    .crashed (.ended hRun) (survives_lose hDurable) (Survives.refl _),
    hOpen, hRecords, hLost⟩

/- A directory with a block file whose name is durable. -/
def named : Directory FileName :=
  (Directory.empty.make (fileName blockStem 0)).flushEntries

/- There a second commit is cut within its record. -/
def kept : Result StoreStop Bool := do
  let one ← commitOne named
  let (_, synced) ← Program.returned
    (StoreState.onSeries SeriesWriter.sync ⟨one.last.disk.facing [.crashes 10], one.last.store⟩)
  let (halt, torn) ← Program.stopped (StoreState.onJournal
    (Journal.append crypto.primitives one.tree.dirty one.tree) synced)
  let ((_, _), _) ← Program.returned (Store.openIn genesisHash (torn.disk.facing []))
  return decide
    (one.Shows ∧ (one.wrote.EntryDurable ∧ TornTail.FileIs one.wrote.journal []) ∧
      (one.last.EntryDurable ∧ TornTail.FileIs one.last.journal
        (frames crypto.primitives [(left, .checked one.location)])) ∧
      halt = .error .crashed ∧
      journalRecords torn.disk = [(left, .checked one.location)])

theorem kept_returns : kept = .ok true := by
  decide +kernel

theorem exists_file {disk : Disk} {record : IndexRecord}
    (hRecords : journalRecords disk = [record]) :
    ∃ file, disk.index.contents journalFile = some file ∧
      record ∈ recordsIn crypto.primitives (file.drop fileHeaderBytes) := by
  unfold journalRecords at hRecords
  cases hFile : disk.index.contents journalFile with
  | none =>
    rw [hFile] at hRecords
    cases hRecords
  | some file =>
    rw [hFile] at hRecords
    exact ⟨file, rfl, mem_of_mem_head? (congrArg head? hRecords)⟩

/- The block of the whole record is read back, with the torn one behind it. -/
theorem named_block_reads_back :
    ∃ disk written encoded location store reader after file,
      StoreRun crypto.primitives genesisHash
          (StoreState.Settled crypto.primitives genesisHash) disk none written
          encoded ∧
        Store.openIn genesisHash (disk.facing []) = (.ok (store, reader), after) ∧
        disk.index.contents journalFile = some file ∧
        (left, .checked location) ∈
          recordsIn crypto.primitives (file.drop fileHeaderBytes) ∧
        ∃ stored ∈ written,
          reader.read after.blocks location.file location.offset location.len =
            .ok (stored.body, FixedBytes.zero 32) := by
  have hRet := kept_returns
  simp only [kept, bind_eq_ok, pure_inj, decide_eq_true_eq, Prod.exists,
    Program.returned_eq_ok, Program.stopped_eq_ok] at hRet
  rcases hRet with ⟨one, hOne, _, synced, hSync, halt, torn, hCut, store, reader, after, hOpen,
    hShows, ⟨hDurable, hEmpty⟩, ⟨hStill, hWhole⟩, rfl, hRecords⟩
  have hRun := run_of_commitOne
    (StoreState.Settled crypto.primitives genesisHash) hOne hShows ⟨hDurable, [], hEmpty⟩
  have hTorn := StoreRun.committedHalf hRun (knows_of_locations hShows.1)
    ⟨hStill, _, hWhole⟩ hSync hCut
  have hCrash := hTorn.crashed (Survives.refl _) (Survives.refl _)
  rcases exists_file hRecords with ⟨file, hFile, hMem⟩
  have hRead := named_blocks_read_back hCrash hOpen hFile hMem rfl
  rcases hRead.1 with ⟨stored, hStored, hPlaced⟩
  exact ⟨torn.disk, _, _, one.location, store, reader, after, file, hCrash, hOpen, hFile, hMem,
    stored, hStored, hRead.2 stored hStored hPlaced⟩

end LostFile

end Bitmigo
