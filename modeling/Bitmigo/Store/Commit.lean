import Bitmigo.Store.Journal
import Bitmigo.Store.Series
import Bitmigo.Store.Undo

/-
  The block store: the append-only bytes, and the index that names them.

  Key definitions include:
    * `Disk`, the two directories of the store
    * `ChainStore` and `StoreState`
    * `Store.openIn`
    * `ChainStore.writeBlock` and `ChainStore.commit`

  A commit makes the block bytes durable before it appends the records that name them.
-/

namespace Bitmigo

/- The directories of the store, and how the next calls to them go. -/
structure Disk where
  blocks : Directory FileName
  index : Directory FileName
  fates : List CallFate

/- The chain thread's half: the block series' single writer, and the index. -/
structure ChainStore where
  blocks : SeriesWriter
  index : Journal

/- The chain thread's half on its disk. -/
structure StoreState where
  disk : Disk
  store : ChainStore

namespace Disk

/- A call on the directory of the blocks. -/
def onBlocks {α : Type} (p : Program (Device FileName) StoreStop α) : Program Disk StoreStop α :=
  Program.within (fun disk => ⟨disk.blocks, disk.fates⟩)
    (fun disk device =>
      { disk with
        blocks := device.directory
        fates := device.fates }) p

/- A call on the directory of the index. -/
def onIndex {α : Type} (p : Program (Device FileName) StoreStop α) : Program Disk StoreStop α :=
  Program.within (fun disk => ⟨disk.index, disk.fates⟩)
    (fun disk device =>
      { disk with
        index := device.directory
        fates := device.fates }) p

end Disk

namespace StoreState

/- The block series. -/
def series (state : StoreState) : Series :=
  ⟨⟨state.disk.blocks, state.disk.fates⟩, state.store.blocks⟩

/- The journal. -/
def journal (state : StoreState) : Index :=
  ⟨⟨state.disk.index, state.disk.fates⟩, state.store.index⟩

/- A method of the block series. -/
def onSeries {α : Type} (p : Program Series StoreStop α) : Program StoreState StoreStop α :=
  Program.within series
    (fun state series =>
      { disk :=
          { state.disk with
            blocks := series.device.directory
            fates := series.device.fates }
        store := { state.store with blocks := series.writer } })
    p

/- A method of the journal. -/
def onJournal {α : Type} (p : Program Index StoreStop α) : Program StoreState StoreStop α :=
  Program.within journal
    (fun state index =>
      { disk :=
          { state.disk with
            index := index.device.directory
            fates := index.device.fates }
        store := { state.store with index := index.journal } })
    p

end StoreState

namespace Store

/- Open, or create, everything under a data directory. -/
def openIn (genesis : BlockHash) : Program Disk StoreStop (ChainStore × SeriesReader) := do
  let (blocks, reader) ← Disk.onBlocks (openSeries blockStem blockRecordMagic 0 maxBlockRecordBytes)
  let _ ← Disk.onBlocks (openSeries undoStem undoRecordMagic undoTrailerBytes
    UndoRecord.maxUndoRecordBytes)
  let journal ← Disk.onIndex (Journal.openIn genesis)
  return ({ blocks := blocks, index := journal }, reader)

end Store

namespace ChainStore

open StoreState

/- Write one block's raw bytes, exactly as they arrived. -/
def writeBlock (bytes : Bytes) : Program StoreState StoreStop BlockLocation := do
  let placed ← onSeries (SeriesWriter.append bytes none)
  return {
    file := placed.file
    offset := placed.offset
    len := placed.len }

/- Make the block bytes the index will name durable, then name them. -/
def commit (K : Primitives) (tree : HeaderTree) : Program StoreState StoreStop (Nat × HeaderTree) :=
  if tree.dirty.isEmpty then
    return (0, tree)
  else do
    onSeries SeriesWriter.sync
    let written ← onJournal (Journal.append K tree.dirty tree)
    let tree ← Program.lift (Result.lift tree.clearDirty)
    return (written, tree)

end ChainStore

end Bitmigo
