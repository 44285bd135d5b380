import Bitmigo.Store.Record

/-
  The block index: an append-only journal, rewritten whole.

  Key definitions include:
    * `Journal` and `Index`
    * `Journal.openIn`, `Journal.append` and `Journal.rewrite`
    * `Journal.load`, with its `replay`, `applyStatuses` and `connectToMarker`

  The file is `magic(8) ‖ version(u32 LE) ‖ genesis hash(32)` and then records. A load replays the
  headers, gives back the block locations and the verdicts, and connects the chain as far as the
  coin store's marker.
-/

namespace Bitmigo

open Result StoreReader Device

--------
-- The File
--------

/- `journal.dat`. -/
def journalFile : FileName :=
  ['j', 'o', 'u', 'r', 'n', 'a', 'l', '.', 'd', 'a', 't']

/- Where a rewrite is built before it is renamed. -/
def journalTemp : FileName :=
  ['j', 'o', 'u', 'r', 'n', 'a', 'l', '.', 't', 'm', 'p']

/- "bmgoIDX" and a byte of version. -/
def journalMagic : Bytes :=
  [0x62, 0x6d, 0x67, 0x6f, 0x49, 0x44, 0x58, 0x01]

def journalVersion : UInt32 := 1

def fileHeaderBytes : Nat := 8 + 4 + 32

/- Below this many live entries a rewrite is not worth it. -/
def minLiveRecords : Nat := 1024

/- How much a rewrite holds back before it writes. -/
def rewriteBuffer : Nat := 1024 * 1024

/- The bytes at the head of the file. -/
def fileHeader (genesis : BlockHash) : Bytes :=
  journalMagic ++ Encoding.u32 journalVersion ++ genesis.val

/- Refuse a journal that is not this format, this version, or this chain's. -/
def verifyHeader (genesis : BlockHash) : Program Bytes IoError Unit := do
  let magic ← Program.mapError .decode (take journalMagic.length)
  Program.lift (ensure .notAnIndex (magic = journalMagic))
  let version ← Program.mapError .decode u32Le
  Program.lift (ensure (.indexVersion version) (version = journalVersion))
  let seen ← Program.mapError .decode StoreReader.hash
  Program.lift (ensure (.indexChain seen genesis) (seen = genesis))

/- `verify_file_header`, on the bytes of the file. -/
def verifyFileHeader (genesis : BlockHash) (file : Bytes) : Result IoError Unit := do
  ensure .noIndexHeader (fileHeaderBytes ≤ file.length)
  (verifyHeader genesis (file.take fileHeaderBytes)).1

/- The journal: its open file, and how many records it is thought to have. -/
structure Journal where
  handle : Nat
  records : Nat

/- The journal and the directory it is in. -/
structure Index where
  device : Device FileName
  journal : Journal

namespace Index

/- A call on the device below the journal. -/
def onDevice {α : Type} (p : Program (Device FileName) StoreStop α) : Program Index StoreStop α :=
  Program.within (·.device) (fun index device => { index with device := device }) p

/- Assign to fields of the journal. -/
def update (f : Journal → Journal) : Program Index StoreStop Unit :=
  Program.modify fun index =>
    { index with journal := f index.journal }

end Index

/- The errors of the store, where calls can stop too. -/
def ofIo {α : Type} (x : Result IoError α) : Result StoreStop α :=
  mapError .own x

--------
-- Writing
--------

namespace Journal

open Index

variable (K : Primitives)

/- Open the journal, creating it with its file header when there is none. -/
def openIn (genesis : BlockHash) : Program (Device FileName) StoreStop Journal := do
  let device ← Program.get
  match device.directory.contents journalFile with
  | some file =>
    Program.lift (ofIo (verifyFileHeader genesis file))
  | none => do
      let handle ← create journalFile
      writeAll handle (fileHeader genesis)
      syncAll handle
      syncDirectory
  let handle ← openExisting journalFile
  return { handle := handle, records := 0 }

/- The record of one entry, unless it is derived from the chain parameters. -/
def recordOf (tree : HeaderTree) (node : NodeId) : Result Empty (Option Bytes) := do
  let entry ← tree.entry node
  match Persisted.of entry.status with
  | none => return none
  | some status => do
      let bytes ← putRecord K entry.header status
      return some bytes

/- The records of a list of entries, and how many. -/
def batchOf (tree : HeaderTree) (nodes : List NodeId) : Result Empty (Bytes × Nat) :=
  nodes.foldlM (fun batch node => do
    match ← recordOf K tree node with
    | none => return batch
    | some bytes => return (batch.1 ++ bytes, batch.2 + 1))
    ([], 0)

/- One entry of a rewrite: the buffer is written out when it is large enough. -/
def rewriteNode (tree : HeaderTree) (handle : Nat) (buffer : Bytes × Nat) (node : NodeId) :
    Program Index StoreStop (Bytes × Nat) := do
  match ← Program.lift (Result.lift (recordOf K tree node)) with
  | none => return buffer
  | some record => do
      let bytes := buffer.1 ++ record
      let written := buffer.2 + 1
      if rewriteBuffer ≤ bytes.length then do
        onDevice (writeAll handle bytes)
        return ([], written)
      else
        return (bytes, written)

/- Write every entry to a temporary file, and rename it over the journal. -/
def rewrite (tree : HeaderTree) : Program Index StoreStop Unit := do
  let genesis ← Program.lift (Result.lift (tree.entry NodeId.genesis))
  let handle ← onDevice (create journalTemp)
  let (bytes, written) ←
    (List.range tree.len).foldlM (rewriteNode K tree handle) (fileHeader genesis.hash, 0)
  onDevice (writeAll handle bytes)
  onDevice (syncAll handle)
  onDevice (renameFile journalTemp journalFile)
  onDevice syncDirectory
  let handle ← onDevice (openExisting journalFile)
  update fun _ => { handle := handle, records := written }

/- Rewrite once the journal has grown past twice what is live in it. -/
def rewriteIfStale (tree : HeaderTree) : Program Index StoreStop Unit := do
  let index ← Program.get
  if index.journal.records ≤
      max tree.len minLiveRecords * 2 then
    return ()
  else
    rewrite K tree

/- Append the entries that have changed, and make them durable. -/
def append (dirty : List NodeId) (tree : HeaderTree) : Program Index StoreStop Nat := do
  let (bytes, written) ← Program.lift (Result.lift (batchOf K tree dirty))
  if written = 0 then
    return 0
  else do
    let index ← Program.get
    onDevice (writeAll index.journal.handle bytes)
    onDevice (syncAll index.journal.handle)
    update fun journal =>
      { journal with records := journal.records + written }
    rewriteIfStale K tree
    return written

end Journal

--------
-- Loading
--------

/- What a load found. -/
structure Loaded where
  records : Nat
  headers : Nat
  connected : Nat
  torn : Nat
  rejected : Nat
  deriving DecidableEq

/- The last status the journal gave each entry. -/
abbrev Statuses := List (Option Persisted)

/- What the journal last said about one entry. -/
def statusOf (statuses : Statuses) (node : NodeId) : Option Persisted :=
  (statuses[node]?).join

namespace Journal

/- A replay on its way. -/
structure Replay where
  tree : HeaderTree
  statuses : Statuses
  report : Loaded

def Replay.start (tree : HeaderTree) : Replay :=
  ⟨tree, [], ⟨0, 0, 0, 0, 0⟩⟩

section

variable (K : Primitives) (params : ChainParams) (now : BlockTime)

/- Put a header back into the tree, and say where the tree kept it. -/
def accepted (tree : HeaderTree) (header : Header) : Result Empty (Option NodeId × HeaderTree) := do
  let (outcome, tree) ← settle (tree.accept K header params now)
  match outcome with
  | .ok (.first node _) | .ok (.duplicate node) =>
    return (some node, tree)
  | .error (.invalid node _)
  | .error (.invalidAncestor node _) =>
    return (some node, tree)
  | .error (.checkHeader _) | .error (.unknownParent _)
  | .error (.tooFarInFuture _ _) | .error .treeFull =>
    return (none, tree)

/- Keep the last status of an entry. -/
def keepStatus (statuses : Statuses) (node : NodeId) (status : Persisted) : Statuses :=
  let room := statuses ++ List.replicate (node + 1 - statuses.length) none
  room.set node (some status)

/- Read every record, until one is torn or is not taken back;
  the fuel is more than the records there can be. -/
def replayFrom :
    Nat → Bytes → Replay → Result IoError Replay
  | 0, _, _ => panicked
  | fuel + 1, file, replay => do
      let (next, rest) ← readRecord K file
      match next with
      | .finished => return replay
      | .torn bytes =>
        return { replay with
          report := { replay.report with torn := bytes } }
      | .record header status => do
          let report :=
            { replay.report with
              records := replay.report.records + 1 }
          let (node, tree) ← Result.lift (accepted K params now replay.tree header)
          match node with
          | none =>
            return {
              tree := tree
              statuses := replay.statuses
              report :=
                { report with
                  rejected := report.rejected + 1 } }
          | some node =>
            replayFrom fuel rest {
              tree := tree
              statuses := keepStatus replay.statuses node status
              report := report }

/- The whole file, past its header. -/
def replay (tree : HeaderTree) (file : Bytes) : Result IoError Replay := do
  ensure .unexpectedEof (fileHeaderBytes ≤ file.length)
  let records := file.drop fileHeaderBytes
  let replay ← replayFrom K params now (records.length + 1) records (.start tree)
  assert (replay.statuses.length ≤ replay.tree.len)
  return replay

end

/- Give one entry what the journal recorded for it. -/
def applyStatus (statuses : Statuses) (tree : HeaderTree) (node : NodeId) :
    Result Empty HeaderTree :=
  match statusOf statuses node with
  | none => return tree
  | some status => do
      let entry ← tree.entry node
      -- the verdict the replay derived again wins
      if entry.status.isTerminal ∨ entry.status = .genesis then
        return tree
      else
        match status with
        | .accepted => return tree
        | .checked location | .connected location _ =>
          tree.blockChecked node location
        | .refused stage =>
          tree.invalidate node (.reloaded stage)

/- Give every entry the block data and the verdict the journal recorded for it. -/
def applyStatuses (statuses : Statuses) (tree : HeaderTree) : Result Empty HeaderTree :=
  (List.range tree.len).foldlM (applyStatus statuses) tree

/- The nodes from one down to genesis, which is left out. -/
def pathDown (tree : HeaderTree) :
    Nat → NodeId → Result Empty (List NodeId)
  | 0, _ => panicked
  | fuel + 1, walk =>
    if walk = NodeId.genesis then
      return []
    else do
      let entry ← tree.entry walk
      match entry.parent with
      | none => return [walk]
      | some parent => do
          let below ← pathDown tree fuel parent
          return walk :: below

/- Connect one block on the way to the marker. -/
def connectAt (statuses : Statuses) (tree : HeaderTree) (node : NodeId) :
    Result IoError HeaderTree := do
  let entry ← Result.lift (tree.entry node)
  match statusOf statuses node with
  | some (.connected _ undo) =>
    Result.lift (tree.connected node undo)
  | some .accepted | some (.checked _) | some (.refused _)
  | none => Result.fail (.noUndoRecord entry.hash)

/- Connect the active chain from genesis up to the marker, and no further. -/
def connectToMarker (statuses : Statuses) (tree : HeaderTree) (marker : BlockHash) :
    Result IoError (Nat × HeaderTree) := do
  let target ← orFail (.unknownMarker marker) (tree.nodeOf marker)
  let walked ← Result.lift (pathDown tree (tree.len + 1) target)
  let path := walked.reverse
  let tree ← path.foldlM (connectAt statuses) tree
  return (path.length, tree)

/- What a load does once it has replayed the file; the records are counted by then. -/
def conclude (marker : BlockHash) (replay : Replay) :
    Program Index StoreStop (Loaded × HeaderTree) := do
  Index.update fun journal =>
    { journal with records := replay.report.records }
  let tree ← Program.lift (Result.lift (applyStatuses replay.statuses replay.tree))
  let (connected, tree) ← Program.lift (ofIo (connectToMarker replay.statuses tree marker))
  let report :=
    { replay.report with
      connected := connected
      headers := tree.len }
  let tree ← Program.lift (Result.lift tree.clearDirty)
  return (report, tree)

/- Replay the journal into the tree, and connect the chain as far as the marker. -/
def load (K : Primitives) (params : ChainParams) (now : BlockTime) (marker : BlockHash)
    (tree : HeaderTree) :
    Program Index StoreStop (Loaded × HeaderTree) := do
  let index ← Program.get
  let file ← Program.lift
    (orFail (.own (.notFound journalFile)) (index.device.directory.contents journalFile))
  let replay ← Program.lift (ofIo (replay K params now tree file))
  conclude marker replay

end Journal

end Bitmigo
