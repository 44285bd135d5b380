import Bitmigo.Chain.Context
import Bitmigo.Store.Journal

/-
  Batches appended to the journal, some of them cut short, and what the next load reads of them.

  Key definitions include:
    * `recordsIn`, the records a load reads, and `readUntil`, which also says what ended them
    * `Torn`, what a cut may leave of a record
    * `JournalRun`, sessions that open, load and append

  Key theorems include:
    * `readRecord_cut`, a record that is cut short is torn
    * `recordsIn_frames`, whole records are read past a torn tail that follows them
    * `cut_reads_before`, a journal cut anywhere reads the records before the cut
    * `batches_read_back`, what was appended is read by the next load
    * `load_eq`, a load replays the records it reads
-/

namespace Bitmigo

open Result List Crypto Directory Device

variable {index after : Index}
variable {out : Result StoreStop Unit} {marker : BlockHash} {device : Device FileName}
variable {journal : Journal}

/- What one record carries. -/
abbrev IndexRecord := Header × Persisted

--------
-- Reading Records
--------

section

variable (K : Primitives)

/- The bytes of one record. -/
def recordFrame (record : IndexRecord) : Bytes :=
  frameOf K (payloadOf K record.1 record.2)

/- The bytes of records one after another. -/
def frames (records : List IndexRecord) : Bytes :=
  records.flatMap (recordFrame K)

/- The records of a file, up to the first that is torn, and what ended them. -/
def readUntil : Nat → Bytes → List IndexRecord × Result IoError Read1
  | 0, _ => ([], panicked)
  | fuel + 1, file =>
    match readRecord K file with
    | .ok (.record header status, rest) =>
      let (records, last) := readUntil fuel rest
      ((header, status) :: records, last)
    | .ok (last, _) => ([], .ok last)
    | .error stop => ([], .error stop)

/- The records a load reads behind the file's header. -/
def recordsIn (file : Bytes) : List IndexRecord :=
  (readUntil K (file.length + 1) file).1

/- Part of a record, and not all of it. -/
def Torn (bytes : Bytes) : Prop :=
  bytes = [] ∨ ∃ record missing, missing ≠ [] ∧ bytes ++ missing = recordFrame K record

end

section

variable {K : Primitives} {records : List IndexRecord} {bytes : Bytes}

@[simp] theorem frames_nil : frames K [] = [] := rfl

@[simp] theorem frames_cons (record : IndexRecord) (records : List IndexRecord) :
    frames K (record :: records) = recordFrame K record ++ frames K records := rfl

@[simp] theorem frames_append (first next : List IndexRecord) :
    frames K (first ++ next) = frames K first ++ frames K next :=
  flatMap_append

theorem torn_nil : Torn K [] := .inl rfl

theorem length_recordFrame (record : IndexRecord) :
    (recordFrame K record).length = 4 + (payloadOf K record.1 record.2).length + 4 := by
  simp [recordFrame, frameOf, length_checksum, Nat.add_assoc]

/- A record that is cut short is not read. -/
theorem readRecord_cut {record : IndexRecord} {missing : Bytes} (hMissing : missing ≠ [])
    (hCut : bytes ++ missing = recordFrame K record) :
    ∃ next rest, readRecord K bytes = .ok (next, rest) ∧
      ∀ header status, next ≠ .record header status := by
  have hLen := congrArg List.length hCut
  rw [length_append, length_recordFrame] at hLen
  have hPos := length_pos_iff.mpr hMissing
  unfold readRecord
  by_cases hShort : bytes.length < 4
  · rw [if_pos hShort]
    exact ⟨_, _, rfl, fun _ _ => by simp⟩
  · have hFront : (bytes ++ missing).take 4 = bytes.take 4 :=
      take_append_of_le_length (Nat.not_lt.mp hShort)
    have hTake : bytes.take 4 = Encoding.u32 (clampU32 (payloadOf K record.1 record.2).length) := by
      rw [← hFront, hCut, recordFrame, frameOf, append_assoc]
      exact take_left' (Encoding.length_u32 _)
    rw [if_neg hShort, hTake, decode_u32_toNat, toNat_clamp_payload]
    dsimp only
    by_cases hLarge : maxRecordBytes ≤ (payloadOf K record.1 record.2).length
    · rw [if_pos hLarge]
      exact ⟨_, _, rfl, fun _ _ => by simp⟩
    · rw [if_neg hLarge, if_pos (by
        rw [length_drop]
        omega)]
      exact ⟨_, _, rfl, fun _ _ => by simp⟩

/- Whole records are read, and nothing of what is torn. -/
theorem readUntil_frames {fuel : Nat} (hTorn : Torn K bytes) (hFuel : records.length < fuel) :
    ∃ last, readUntil K fuel (frames K records ++ bytes) = (records, .ok last) ∧
      ∀ header status, last ≠ .record header status := by
  induction records generalizing fuel with
  | nil =>
    cases fuel with
    | zero => cases hFuel
    | succ fuel =>
      rw [frames_nil, nil_append, readUntil]
      rcases hTorn with rfl | ⟨record, missing, hMissing, hCut⟩
      · exact ⟨.finished, rfl, by simp⟩
      · rcases readRecord_cut hMissing hCut with ⟨last, rest, hRead, hLast⟩
        rw [hRead]
        cases last with
        | record header status => exact absurd rfl (hLast header status)
        | finished | torn declared => exact ⟨_, rfl, hLast⟩
  | cons record records ih =>
    cases fuel with
    | zero => cases hFuel
    | succ fuel =>
      rcases ih (Nat.lt_of_succ_lt_succ hFuel) with ⟨last, hRead, hLast⟩
      refine ⟨last, ?_, hLast⟩
      rw [frames_cons, append_assoc, readUntil, recordFrame, readRecord_put]
      dsimp only
      rw [hRead]

theorem length_le_frames (records : List IndexRecord) :
    records.length ≤ (frames K records).length := by
  induction records with
  | nil => exact Nat.le_refl _
  | cons record records ih =>
    rw [frames_cons, length_append, length_recordFrame, length_cons]
    omega

theorem length_lt_frames (bytes : Bytes) :
    records.length < (frames K records ++ bytes).length + 1 := by
  have hLen := length_le_frames (K := K) records
  rw [length_append]
  omega

theorem recordsIn_frames (hTorn : Torn K bytes) :
    recordsIn K (frames K records ++ bytes) = records := by
  rcases readUntil_frames hTorn (length_lt_frames bytes) with ⟨last, hRead, _⟩
  rw [recordsIn, hRead]

/- A cut leaves the records before it and part of the next. -/
theorem take_frames (records : List IndexRecord) (kept : Nat) :
    ∃ n torn, (frames K records).take kept = frames K (records.take n) ++ torn ∧ Torn K torn ∧
      (frames K (records.take n)).length ≤ kept ∧
      (n < records.length → kept < (frames K (records.take (n + 1))).length) := by
  induction records generalizing kept with
  | nil => exact ⟨0, [], take_nil, torn_nil, by simp, by simp⟩
  | cons record records ih =>
    rw [frames_cons]
    by_cases hCut : kept < (recordFrame K record).length
    · refine ⟨0, (recordFrame K record).take kept, ?_,
        .inr ⟨record, (recordFrame K record).drop kept, ?_,
          take_append_drop _ _⟩, by simp, fun _ => by simpa⟩
      · rw [take_append_of_le_length hCut.le]
        rfl
      · rw [← length_pos_iff, length_drop]
        omega
    · rcases ih (kept - (recordFrame K record).length) with ⟨n, torn, hTake, hTorn, hBefore, hNext⟩
      refine ⟨n + 1, torn, ?_, hTorn, ?_, fun hMore => ?_⟩
      · rw [List.take_append, take_of_length_le (Nat.not_lt.mp hCut), hTake,
          take_succ_cons, frames_cons, append_assoc]
      · rw [take_succ_cons, frames_cons, length_append]
        omega
      · have hLater := hNext (Nat.lt_of_succ_lt_succ hMore)
        rw [take_succ_cons, frames_cons, length_append]
        omega

/- What is read of the beginning of some records is among them. -/
theorem recordsIn_subset (hPrefix : bytes <+: frames K records) : recordsIn K bytes ⊆ records := by
  rw [prefix_iff_eq_take] at hPrefix
  rcases take_frames (K := K) records bytes.length with ⟨n, torn, hTake, hTorn, _⟩
  rw [hPrefix, hTake, recordsIn_frames hTorn]
  exact take_subset n records

theorem mapM_putRecord (records : List IndexRecord) :
    records.mapM (fun record => putRecord K record.1 record.2) =
      .ok (records.map (recordFrame K)) := by
  induction records with
  | nil => rfl
  | cons record records ih =>
    rw [mapM_cons, putRecord_eq, ih]
    rfl

end

/-
  Wherever the bytes of some records are cut, what is read of them is the records before the cut,
  and then the file ends or a record is torn.
-/
theorem cut_reads_before (K : Primitives) (records : List IndexRecord) :
    ∃ parts,
      records.mapM (fun record => putRecord K record.1 record.2) = .ok parts ∧
      ∀ kept fuel, records.length < fuel → ∃ n last,
        readUntil K fuel (parts.flatten.take kept) = (records.take n, .ok last) ∧
        (∀ header status, last ≠ .record header status) ∧
        (parts.take n).flatten.length ≤ kept ∧
        (n < records.length → kept < (parts.take (n + 1)).flatten.length) := by
  refine ⟨_, mapM_putRecord records, fun kept fuel hFuel => ?_⟩
  rcases take_frames (K := K) records kept with ⟨n, torn, hTake, hTorn, hBefore, hNext⟩
  have hShort : (records.take n).length < fuel := (length_take_le' n records).trans_lt hFuel
  rcases readUntil_frames hTorn hShort with ⟨last, hRead, hLast⟩
  refine ⟨n, last, ?_, hLast, ?_, ?_⟩
  · rw [← hRead, ← hTake]
    rfl
  · rwa [← map_take]
  · rwa [← map_take]

--------
-- Batches
--------

/- The records of a batch: one for each entry but genesis. -/
def recordsFor (tree : HeaderTree) (nodes : List NodeId) : List IndexRecord :=
  nodes.filterMap fun node => do
    let entry ← tree.entries[node]?
    let status ← Persisted.of entry.status
    return (entry.header, status)

namespace Journal

variable {K : Primitives} {tree : HeaderTree}

/- The record of one node, in the batch of the others. -/
theorem recordOf_eq_ok {node : NodeId} {record : Option Bytes}
    (hRecord : recordOf K tree node = .ok record) :
    record.toList.flatten = frames K (recordsFor tree [node]) ∧
      record.toList.length = (recordsFor tree [node]).length := by
  rw [recordOf] at hRecord
  rcases bind_eq_ok.mp hRecord with ⟨entry, hEntry, hRest⟩
  rw [HeaderTree.entry, expect_eq_ok] at hEntry
  cases hStat : Persisted.of entry.status with
  | none =>
    rw [hStat] at hRest
    cases hRest
    simp [recordsFor, hEntry, hStat]
  | some status =>
    rw [hStat] at hRest
    dsimp only at hRest
    rw [putRecord_eq] at hRest
    cases hRest
    simp [recordsFor, hEntry, hStat, recordFrame]

theorem batchOf_eq_ok {nodes : List NodeId} {bytes : Bytes} {written : Nat}
    (hBatch : batchOf K tree nodes = .ok (bytes, written)) :
    bytes = frames K (recordsFor tree nodes) ∧ written = (recordsFor tree nodes).length := by
  induction nodes using reverseRecOn generalizing bytes written with
  | nil =>
    cases hBatch
    exact ⟨rfl, rfl⟩
  | append_singleton nodes node ih =>
    rw [batchOf, foldlM_append] at hBatch
    rcases bind_eq_ok.mp hBatch with ⟨⟨front, count⟩, hFront, hLast⟩
    rcases ih hFront with ⟨rfl, rfl⟩
    rw [foldlM_cons] at hLast
    simp only [foldlM_nil, bind_eq_ok] at hLast
    rcases hLast with ⟨_, ⟨record, hRecord, hLast⟩, hSame⟩
    cases hSame
    rcases recordOf_eq_ok hRecord with ⟨hBytes, hCount⟩
    rw [show recordsFor tree (nodes ++ [node]) = recordsFor tree nodes ++ recordsFor tree [node]
      from filterMap_append, frames_append, length_append, ← hBytes, ← hCount]
    cases record with
    | none | some bytes =>
      cases hLast
      simp

end Journal

--------
-- What an Append Leaves
--------

/- The journal is open on its file, and the file is this. -/
def Index.Holds (index : Index) (file : Bytes) : Prop :=
  index.device.directory.Opens journalFile index.journal.handle file

namespace Journal

open Index

variable {K : Primitives} {tree : HeaderTree} {dirty : List NodeId} {index after : Index}
variable {file : Bytes}

/- No rewrite is due after this batch. -/
def Young (index : Index) (tree : HeaderTree) (dirty : List NodeId) : Prop :=
  index.journal.records + (recordsFor tree dirty).length ≤ max tree.len minLiveRecords * 2

instance
    (index : Index) (tree : HeaderTree) (dirty : List NodeId) :
    Decidable (Young index tree dirty) :=
  inferInstanceAs (Decidable (_ ≤ _))

theorem rewriteIfStale_of_le (hLe : index.journal.records ≤ max tree.len minLiveRecords * 2) :
    rewriteIfStale K tree index = (.ok (), index) := by
  rw [rewriteIfStale, Program.get_bind, if_pos hLe]
  rfl

/- An append adds its batch to the file, or some bytes of it if it does not return. -/
theorem append_holds (hHolds : index.Holds file) (hYoung : Young index tree dirty) :
    (append K dirty tree).Ends (fun _ t => t.Holds (file ++ frames K (recordsFor tree dirty)))
      (fun t => ∃ kept, t.Holds (file ++ (frames K (recordsFor tree dirty)).take kept)) index := by
  have hNothing : ∃ kept, index.Holds (file ++ (frames K (recordsFor tree dirty)).take kept) := by
    refine ⟨0, ?_⟩
    rwa [take_zero, append_nil]
  refine .bind (Program.ends_lift hNothing fun batch hBatch => ?_)
  rcases batch with ⟨bytes, written⟩
  rcases batchOf_eq_ok (lift_eq_ok.mp hBatch) with ⟨rfl, rfl⟩
  dsimp only
  split
  · rename_i hNone
    rw [length_eq_zero_iff.mp hNone, frames_nil, append_nil]
    exact .of_eq rfl hHolds
  -- the write, the sync, and a rewrite that is not due
  have hWhole := hHolds.extend (frames K (recordsFor tree dirty))
  have hAll : (file ++ frames K (recordsFor tree dirty)) = file ++
      (frames K (recordsFor tree dirty)).take (frames K (recordsFor tree dirty)).length := by
    rw [take_length]
  refine .bind (.of_eq rfl (.bind (.within (ends_call (I := fun d => ∃ kept, d.Opens journalFile
    index.journal.handle (file ++ (frames K (recordsFor tree dirty)).take kept)) ?_ ?_ ?_))))
  · exact fun kept => ⟨kept, hHolds.extend _⟩
  · exact ⟨_, hAll ▸ hWhole⟩
  intro _ wrote hWrote hPart
  have hWrote : wrote.directory.Opens journalFile index.journal.handle
    (file ++ frames K (recordsFor tree dirty)) := (Prod.mk.inj hWrote).2 ▸ hWhole
  refine .bind (.within (ends_callAtomic (I := fun d => ∃ kept, d.Opens journalFile
    index.journal.handle (file ++ (frames K (recordsFor tree dirty)).take kept)) hPart ?_ ?_))
  · exact ⟨_, hAll ▸ hWrote.flush _⟩
  intro _ synced hSynced _
  refine .bind (.of_eq rfl (.bind (.of_eq (rewriteIfStale_of_le hYoung) (.of_eq rfl ?_))))
  show synced.directory.Opens _ _ _
  rw [← (Prod.mk.inj hSynced).2]
  exact hWrote.flush _

/- A load leaves the device, and the journal open on its file. -/
theorem load_holds {params : ChainParams} {now : BlockTime}
    {out : Result StoreStop (Loaded × HeaderTree)} (hHolds : index.Holds file)
    (hLoad : load K params now marker tree index = (out, after)) : after.Holds file := by
  have hEnds : (load K params now marker tree).Ends (fun _ t => t.Holds file) (·.Holds file)
      index := by
    refine .bind (.of_eq rfl ?_)
    refine .bind (Program.ends_lift hHolds fun _ _ => ?_)
    refine .bind (Program.ends_lift hHolds fun _ _ => ?_)
    refine .bind (.of_eq rfl ?_)
    refine .bind (Program.ends_lift hHolds fun _ _ => ?_)
    refine .bind (Program.ends_lift hHolds fun _ _ => ?_)
    refine .bind (Program.ends_lift hHolds fun _ _ => ?_)
    exact .of_eq rfl hHolds
  cases out with
  | ok _ => exact hEnds.returns _ _ hLoad
  | error _ => exact hEnds.stops _ _ hLoad

/- A file that is there is opened as it is. -/
theorem openIn_of_some {genesis : BlockHash} {opened : Device FileName}
    (hContents : device.directory.contents journalFile = some file)
    (hOpen : openIn genesis device = (.ok journal, opened)) :
    Index.Holds ⟨opened, journal⟩ file := by
  rw [openIn, Program.get_bind, hContents] at hOpen
  simp only [Program.bind_eq_ok, Program.lift_eq_ok, Program.pure_eq_ok] at hOpen
  rcases hOpen with ⟨_, _, ⟨_, rfl⟩, handle, made, hHandle, rfl, rfl⟩
  rcases of_openExisting_eq_ok hHandle with ⟨hFind, hSame⟩
  refine ⟨?_, ?_⟩
  · rwa [hSame]
  · rwa [hSame]

/- A file that is not there is made, with its header. -/
theorem openIn_of_none {genesis : BlockHash} {opened : Device FileName}
    (hContents : device.directory.contents journalFile = none)
    (hOpen : openIn genesis device = (.ok journal, opened)) :
    Index.Holds ⟨opened, journal⟩ (fileHeader genesis) := by
  rw [openIn, Program.get_bind, hContents] at hOpen
  simp only [Program.bind_eq_ok, Program.pure_eq_ok] at hOpen
  rcases hOpen with
    ⟨handle, made, hMade, _, wrote, hWrote, _, synced, hSynced,
      _, named, hNamed, again, reopened, hAgain, rfl, rfl⟩
  rcases of_create_eq_ok hMade with ⟨hFind, hInode⟩
  have hHeader := (Opens.mk hFind (contents_eq_some hFind hInode)).extend (fileHeader genesis)
  rw [← directory_of_writeAll_eq_ok hWrote, nil_append] at hHeader
  have hFlushed : opened.directory = (wrote.directory.flush handle).flushEntries := by
    rw [(of_openExisting_eq_ok hAgain).2, directory_of_syncDirectory_eq_ok hNamed,
      directory_of_syncAll_eq_ok hSynced]
  refine ⟨?_, ?_⟩
  · rw [(of_openExisting_eq_ok hAgain).2]
    exact (of_openExisting_eq_ok hAgain).1
  · rw [hFlushed]
    exact (hHeader.flush handle).contents

end Journal

--------
-- Sessions
--------

/- The journal with the next calls going as the list says. -/
def Index.facing (index : Index) (fates : List CallFate) : Index :=
  { index with
    device := { index.device with fates := fates } }

/-
  Sessions that open the journal, load it and append to it, and the records of the batches that
  succeeded. A batch whose append does not return was cut: by a crash, and the next session opens
  the journal again, or by a failed write. Every append starts from a journal that is admitted.
-/
inductive JournalRun (K : Primitives) (genesis : BlockHash) (admits : Index → Prop) :
    Index → List IndexRecord → Prop where
  | created {device opened : Device FileName} {journal : Journal}
      (absent : device.directory.contents journalFile = none)
      (step : Journal.openIn genesis device = (.ok journal, opened)) :
      JournalRun K genesis admits ⟨opened, journal⟩ []
  | reopened {index : Index} {records : List IndexRecord} {fates : List CallFate}
      {opened : Device FileName} {journal : Journal}
      (before : JournalRun K genesis admits index records)
      (step : Journal.openIn genesis (index.facing fates).device = (.ok journal, opened)) :
      JournalRun K genesis admits ⟨opened, journal⟩ records
  | loaded {index after : Index} {records : List IndexRecord} {params : ChainParams}
      {now : BlockTime} {marker : BlockHash} {tree : HeaderTree}
      {out : Result StoreStop (Loaded × HeaderTree)}
      (before : JournalRun K genesis admits index records)
      (step : Journal.load K params now marker tree index = (out, after)) :
      JournalRun K genesis admits after records
  | appended {index after : Index} {records : List IndexRecord} {fates : List CallFate}
      {tree : HeaderTree} {dirty : List NodeId} {written : Nat}
      (before : JournalRun K genesis admits index records) (admitted : admits index)
      (young : Journal.Young index tree dirty)
      (step : Journal.append K dirty tree (index.facing fates) = (.ok written, after)) :
      JournalRun K genesis admits after (records ++ recordsFor tree dirty)
  | cut {index after : Index} {records : List IndexRecord} {fates : List CallFate}
      {tree : HeaderTree} {dirty : List NodeId} {halt : Halt StoreStop}
      (before : JournalRun K genesis admits index records) (admitted : admits index)
      (young : Journal.Young index tree dirty)
      (step : Journal.append K dirty tree (index.facing fates) = (.error halt, after)) :
      JournalRun K genesis admits after records

/- The journal ends with a whole record. -/
def Index.EndsWhole (K : Primitives) (genesis : BlockHash) (index : Index) : Prop :=
  ∃ whole, index.device.directory.contents journalFile = some (fileHeader genesis ++ frames K whole)

section

variable {K : Primitives} {genesis : BlockHash} {index after : Index} {records : List IndexRecord}
variable {tree : HeaderTree} {params : ChainParams} {now : BlockTime} {file : Bytes}

/-
  The journal has the records of the batches that succeeded, among others perhaps, and at most its
  last one is torn.
-/
def Keeps (K : Primitives) (genesis : BlockHash) (index : Index)
    (records : List IndexRecord) : Prop :=
  ∃ whole torn,
    index.Holds
        (fileHeader genesis ++ (frames K whole ++ torn)) ∧
      Torn K torn ∧ records.Sublist whole

/- Whole records have nothing torn behind them. -/
theorem frames_append_torn {whole others : List IndexRecord} {torn : Bytes} (hTorn : Torn K torn)
    (hSame : frames K whole ++ torn = frames K others) : whole = others ∧ torn = [] := by
  have hWhole : recordsIn K (frames K others) = whole := by
    rw [← hSame]
    exact recordsIn_frames hTorn
  rw [← append_nil (frames K others), recordsIn_frames torn_nil] at hWhole
  subst hWhole
  exact ⟨rfl, append_right_eq_self.mp hSame⟩

/- A batch behind whole records, or what is left of it. -/
theorem Keeps.append {fates : List CallFate} {dirty : List NodeId}
    (hKeeps : Keeps K genesis index records) (hEnds : index.EndsWhole K genesis)
    (hYoung : Journal.Young index tree dirty) :
    (Journal.append K dirty tree).Ends
      (fun _ t => Keeps K genesis t (records ++ recordsFor tree dirty))
      (fun t => Keeps K genesis t records) (index.facing fates) := by
  rcases hKeeps with ⟨whole, torn, hHolds, hTorn, hRecords⟩
  rcases hEnds with ⟨others, hContents⟩
  rw [hHolds.contents, Option.some.injEq] at hContents
  rcases frames_append_torn hTorn (append_cancel_left hContents) with ⟨rfl, rfl⟩
  rw [append_nil] at hHolds
  have hAppend : (Journal.append K dirty tree).Ends _ _ (index.facing fates) :=
    Journal.append_holds hHolds hYoung
  refine ⟨fun written t hRun => ?_, fun halt t hRun => ?_⟩
  · have hAfter := hAppend.returns written t hRun
    rw [append_assoc, ← frames_append, ← append_nil (frames K _)] at hAfter
    exact ⟨_, [], hAfter, torn_nil, hRecords.append (Sublist.refl _)⟩
  · rcases hAppend.stops halt t hRun with ⟨kept, hAfter⟩
    rcases take_frames (K := K) (recordsFor tree dirty) kept with ⟨n, rest, hTake, hRest, _⟩
    rw [append_assoc, hTake, ← append_assoc, ← append_assoc, append_assoc (fileHeader genesis),
      ← frames_append, append_assoc] at hAfter
    exact ⟨_, rest, hAfter, hRest, hRecords.trans (sublist_append_left _ _)⟩

theorem JournalRun.keeps (hRun : JournalRun K genesis (Index.EndsWhole K genesis) index records) :
    Keeps K genesis index records := by
  induction hRun with
  | created hAbsent hOpen =>
    refine ⟨[], [], ?_, torn_nil, Sublist.refl _⟩
    rw [frames_nil, append_nil, append_nil]
    exact Journal.openIn_of_none hAbsent hOpen
  | @reopened index _ fates _ _ _ hOpen ih =>
    rcases ih with ⟨whole, torn, hHolds, hTorn, hRecords⟩
    have hContents : (index.facing fates).device.directory.contents journalFile = some _ :=
      hHolds.contents
    exact ⟨whole, torn, Journal.openIn_of_some hContents hOpen, hTorn, hRecords⟩
  | loaded _ hLoad ih =>
    rcases ih with ⟨whole, torn, hHolds, hTorn, hRecords⟩
    exact ⟨whole, torn, Journal.load_holds hHolds hLoad, hTorn, hRecords⟩
  | appended _ hEnds hYoung hAppend ih => exact (ih.append hEnds hYoung).returns _ _ hAppend
  | cut _ hEnds hYoung hAppend ih => exact (ih.append hEnds hYoung).stops _ _ hAppend

theorem length_fileHeader (genesis : BlockHash) :
    (fileHeader genesis).length = fileHeaderBytes := by
  simp [fileHeader, journalMagic, fileHeaderBytes]

namespace Journal

section

variable (K : Primitives) (params : ChainParams) (now : BlockTime)

/- Replay records that have been read, up to the first that is not taken back. -/
def replayRecords (last : Read1) : List IndexRecord → Replay → Result IoError Replay
  | [], replay =>
    match last with
    | .torn bytes => return { replay with report.torn := bytes }
    | _ => return replay
  | (header, status) :: rest, replay => do
      let report := { replay.report with records := replay.report.records + 1 }
      let (node, tree) ← Result.lift (accepted K params now replay.tree header)
      match node with
      | none =>
        return {
          tree := tree
          statuses := replay.statuses
          report := { report with rejected := report.rejected + 1 } }
      | some node =>
        replayRecords last rest {
          tree := tree
          statuses := keepStatus replay.statuses node status
          report := report }

/- A load of records that have been read. -/
def loadRecords (marker : BlockHash) (tree : HeaderTree) (last : Read1)
    (records : List IndexRecord) : Program Index StoreStop (Loaded × HeaderTree) := do
  let replay ← Program.lift (ofIo (do
    let replay ← replayRecords K params now last records (.start tree)
    assert (replay.statuses.length ≤ replay.tree.len)
    return replay))
  conclude marker replay

/- The tree takes every header, one after another. -/
def takenBack : HeaderTree → List IndexRecord → Bool
  | _, [] => true
  | tree, record :: rest =>
    match accepted K params now tree record.1 with
    | .ok (some _, after) => takenBack after rest
    | _ => false

end

/- The loop reads one record at a time; it may as well read them all first. -/
theorem replayFrom_eq {fuel : Nat} {first : Replay} {last : Read1}
    (hRead : readUntil K fuel file = (records, .ok last)) :
    replayFrom K params now fuel file first = replayRecords K params now last records first := by
  induction fuel generalizing file records first with
  | zero => cases hRead
  | succ fuel ih =>
    rw [readUntil] at hRead
    rw [replayFrom]
    generalize readRecord K file = next at hRead ⊢
    rcases next with halt | ⟨⟨header, status⟩ | _ | _, rest⟩
    · cases hRead
    · rcases hRest : readUntil K fuel rest with ⟨others, ended⟩
      simp only [hRest, Prod.mk.injEq] at hRead
      rcases hRead with ⟨rfl, rfl⟩
      rw [ok_bind, replayRecords]
      refine congrArg (_ >>= ·) (funext fun next => ?_)
      rcases next with ⟨_ | node, tree⟩
      · rfl
      · exact ih hRest
    · cases hRead
      rfl
    · cases hRead
      rfl

theorem replayRecords_of_takenBack (first : Replay) {last : Read1}
    (hTaken : takenBack K params now first.tree records) :
    ∃ replay, replayRecords K params now last records first = .ok replay ∧
      replay.report.records = first.report.records + records.length ∧
      replay.report.rejected = first.report.rejected := by
  induction records generalizing first with
  | nil => cases last <;> exact ⟨_, rfl, rfl, rfl⟩
  | cons record rest ih =>
    rw [takenBack] at hTaken
    rw [replayRecords]
    split at hTaken
    · rename_i node after hAccepted
      rw [hAccepted]
      rcases ih ⟨after, _, _⟩ hTaken with ⟨replay, hReplay, hCount, hRejected⟩
      refine ⟨replay, hReplay, hCount.trans ?_, hRejected⟩
      rw [length_cons]
      exact Nat.add_right_comm _ _ _
    · cases hTaken

/- The load of a file is the load of its records. -/
theorem load_eq {last : Read1} (hHolds : index.Holds (fileHeader genesis ++ file))
    (hRead : readUntil K (file.length + 1) file = (records, .ok last)) :
    load K params now marker tree index =
      loadRecords K params now marker tree last records index := by
  have hLong : fileHeaderBytes ≤ (fileHeader genesis ++ file).length := by
    rw [length_append, length_fileHeader]
    exact Nat.le_add_right _ _
  have hReplay : replay K params now tree (fileHeader genesis ++ file) = (do
      let replay ← replayRecords K params now last records (.start tree)
      assert (replay.statuses.length ≤ replay.tree.len)
      return replay) := by
    rw [replay, ensure_of hLong, drop_left' (length_fileHeader genesis), ok_bind]
    dsimp only
    rw [replayFrom_eq hRead]
  rw [load, Program.get_bind, hHolds.contents, loadRecords, ← hReplay]
  rfl

end Journal

/-
  In every history whose appends all start where the journal ends with a whole record, the next load
  replays in order a list that has the records of every batch that succeeded, up to the first whose
  header the tree does not take back. When it takes back all of them, it reads all of them.
-/
theorem batches_read_back (hRun : JournalRun K genesis (Index.EndsWhole K genesis) index records) :
    ∃ file last,
      index.device.directory.contents journalFile = some (fileHeader genesis ++ file) ∧
        records.Sublist (recordsIn K file) ∧
        ∀ params now marker tree,
          Journal.load K params now marker tree index =
              Journal.loadRecords K params now marker tree last (recordsIn K file) index ∧
            (Journal.takenBack K params now tree (recordsIn K file) → ∃ replay,
              Journal.replayRecords K params now last (recordsIn K file) (.start tree) =
                  .ok replay ∧
                replay.report.records = (recordsIn K file).length ∧
                replay.report.rejected = 0) := by
  rcases hRun.keeps with ⟨whole, torn, hHolds, hTorn, hRecords⟩
  rcases readUntil_frames hTorn (length_lt_frames torn) with ⟨last, hRead, _⟩
  refine ⟨_, last, hHolds.contents, ?_, fun params now marker tree => ⟨?_, fun hTaken => ?_⟩⟩
  · rwa [recordsIn_frames hTorn]
  · rw [recordsIn_frames hTorn]
    exact Journal.load_eq hHolds hRead
  · rcases Journal.replayRecords_of_takenBack (.start tree) hTaken with
      ⟨replay, hReplay, hCount, hRejected⟩
    exact ⟨replay, hReplay, hCount.trans (Nat.zero_add _), hRejected⟩

end

--------
-- A Tail That Is Torn
--------

/-
  A journal to which a batch of two headers is appended, which a crash cuts, and in the next session
  one of the two again. A cut between the two records is harmless, and one inside the first is not.
-/
namespace TornTail

open SmallChain (left right genesisHash now)

/- The records of the two, before their blocks have arrived. -/
def leftRecord : IndexRecord := (left, .accepted)

def rightRecord : IndexRecord := (right, .accepted)

def leftPayload : Bytes :=
  Encoding.header left ++ [0]

def leftInner : Hash32 := hash32
  0x795c02e402eccd45d2c9fd74c1ceb983c5892a7afd4d3844c9e20e391186a85a

def rightInner : Hash32 := hash32
  0x384927570ae8ada1826ed0bdf639e276509ac8e3d8f42ff803aa03fe49075a06

/- What is read where the torn record declares a payload. -/
def mixedPayload : Bytes :=
  leftPayload.take 6 ++ (Encoding.u32 81 ++ leftPayload.take 71)

def mixedInner : Hash32 := hash32
  0xf3e6502f0cc40274376e4b9a3791b4fea4267a6ed1cf784e4f8017eb1489fef6

/- The values of the hash function on these. -/
def crypto : Crypto := ofSha256 (SmallChain.table ++ [
  (leftPayload, leftInner),
  (leftInner.val, hash32 0x62a04ed96557fac339ed81d9b4336770c55ea6d1ff6ec25c2d4b886931e5314a),
  (Encoding.header right ++ [0], rightInner),
  (rightInner.val, hash32 0x961f05fba1b1ee8367f0423fe8777af71980630720e897b870f95f6e89278a23),
  (mixedPayload, mixedInner),
  (mixedInner.val, hash32 0x3c8bc56be0290d9e5ffd2348f124cb407a2124ae5e7fac50ce3127bb2f5a751b)])

def params : ChainParams :=
  ChainParams.regtestTable crypto.primitives default

/- The next load of a journal. -/
def loadAgain (tree : HeaderTree) (device : Device FileName) (journal : Journal) :
    Result StoreStop Index := do
  let (_, index) ← Program.returned
    (Journal.load crypto.primitives params now genesisHash tree ⟨device, journal⟩)
  return index

/- What the history shows: a tree without the headers and one with them, and three journals. -/
structure Shown where
  tree : HeaderTree
  grown : HeaderTree
  first : Index
  second : Index
  last : Index

/- A crash keeps some bytes of the first batch, and the next session appends another. -/
def history (kept : Nat) (dirty : List NodeId) : Result StoreStop Shown := do
  let tree ← Result.lift (HeaderTree.withCap crypto.primitives params 8)
  let grown ← Result.lift
    (tree.play crypto.primitives params [.accept left now, .accept right now])
  let (journal, device) ← Program.returned (Journal.openIn genesisHash ⟨Directory.empty, []⟩)
  let first ← loadAgain tree device journal
  let (_, cut) ← Program.stopped
    (Journal.append crypto.primitives [1, 2] grown (first.facing [.crashes kept]))
  let (journal, device) ← Program.returned (Journal.openIn genesisHash (cut.facing []).device)
  let second ← loadAgain tree device journal
  let (_, last) ← Program.returned (Journal.append crypto.primitives dirty grown (second.facing []))
  return { tree, grown, first, second, last }

theorem load_of_loadAgain {tree : HeaderTree} (hLoad : loadAgain tree device journal = .ok index) :
    ∃ out, Journal.load crypto.primitives params now genesisHash tree ⟨device, journal⟩ =
      (.ok out, index) := by
  simp only [loadAgain, bind_eq_ok, pure_eq_ok, Prod.exists, Program.returned_eq_ok] at hLoad
  rcases hLoad with ⟨report, loaded, _, hLoad, hIndex⟩
  cases hIndex
  exact ⟨_, hLoad⟩

theorem run_of_history {kept : Nat} {dirty : List NodeId} {shown : Shown} {admits : Index → Prop}
    (hHistory : history kept dirty = .ok shown)
    (hYoung : Journal.Young shown.first shown.grown [1, 2] ∧
      Journal.Young shown.second shown.grown dirty)
    (hFst : admits shown.first) (hSnd : admits shown.second) :
    JournalRun crypto.primitives genesisHash admits shown.last (recordsFor shown.grown dirty) := by
  simp only [history, bind_eq_ok, pure_eq_ok, Prod.exists, Program.returned_eq_ok,
    Program.stopped_eq_ok] at hHistory
  rcases hHistory with
    ⟨tree, _, grown, _, journal, device, hOpen, first, hLoad,
      halt, cut, hCut, journal, device, hReopen, second, hReload, written, last, hLast, hShown⟩
  cases hShown
  rcases load_of_loadAgain hLoad with ⟨_, hLoad⟩
  rcases load_of_loadAgain hReload with ⟨_, hReload⟩
  rw [← nil_append (recordsFor _ _)]
  refine .appended (.loaded (.reopened ?_ hReopen) hReload) hSnd hYoung.2 hLast
  exact .cut (.loaded (.created rfl hOpen) hLoad) hFst hYoung.1 hCut

/- The journal is its header and these bytes. -/
def FileIs (index : Index) (bytes : Bytes) : Prop :=
  index.device.directory.contents journalFile = some (fileHeader genesisHash ++ bytes)

instance (index : Index) (bytes : Bytes) : Decidable (FileIs index bytes) :=
  inferInstanceAs (Decidable (_ = _))

/- A record behind what is left of one. -/
def tornBytes : Bytes :=
  (recordFrame crypto.primitives leftRecord).take 10 ++ recordFrame crypto.primitives leftRecord

theorem torn_returns :
    (do
      let shown ← history 10 [1]
      return decide ((Journal.Young shown.first shown.grown [1, 2] ∧
          Journal.Young shown.second shown.grown [1]) ∧
        recordsFor shown.grown [1] = [leftRecord] ∧ FileIs shown.last tornBytes)) = .ok true := by
  decide +kernel

theorem recordsIn_tornBytes : recordsIn crypto.primitives tornBytes = [] := by
  decide +kernel

/- The second batch succeeds, and no load reads it. -/
theorem append_after_torn_lost :
    ∃ index file,
      JournalRun crypto.primitives genesisHash (fun _ => True) index [leftRecord] ∧
        index.device.directory.contents journalFile = some (fileHeader genesisHash ++ file) ∧
        recordsIn crypto.primitives file = [] := by
  have hRet := torn_returns
  simp only [bind_eq_ok, pure_inj, decide_eq_true_eq] at hRet
  rcases hRet with ⟨shown, hHistory, hYoung, hRecords, hFile⟩
  refine ⟨shown.last, tornBytes, ?_, hFile, recordsIn_tornBytes⟩
  rw [← hRecords]
  exact run_of_history hHistory hYoung trivial trivial

theorem whole_returns :
    (do
      let shown ← history 89 [2]
      return decide ((Journal.Young shown.first shown.grown [1, 2] ∧
          Journal.Young shown.second shown.grown [2]) ∧
        recordsFor shown.grown [2] = [rightRecord] ∧
        FileIs shown.first (frames crypto.primitives []) ∧
        FileIs shown.second (frames crypto.primitives [leftRecord]) ∧
        FileIs shown.last (frames crypto.primitives [leftRecord, rightRecord]) ∧
        Journal.takenBack crypto.primitives params now shown.tree [leftRecord, rightRecord])) =
      .ok true := by
  decide +kernel

/- The cut leaves the first record, the second session adds the other, and a load reads both. -/
theorem batches_read_back_cut :
    ∃ index file tree last replay,
      JournalRun crypto.primitives genesisHash (Index.EndsWhole crypto.primitives genesisHash)
          index [rightRecord] ∧
        index.device.directory.contents journalFile = some (fileHeader genesisHash ++ file) ∧
        recordsIn crypto.primitives file = [leftRecord, rightRecord] ∧
        Journal.replayRecords crypto.primitives params now last [leftRecord, rightRecord]
          (.start tree) = .ok replay ∧
        replay.report.records = 2 ∧ replay.report.rejected = 0 := by
  have hRet := whole_returns
  simp only [bind_eq_ok, pure_inj, decide_eq_true_eq] at hRet
  rcases hRet with ⟨shown, hHistory, hYoung, hRecords, hFst, hSnd, hLast, hTaken⟩
  have hRun : JournalRun crypto.primitives genesisHash
      (Index.EndsWhole crypto.primitives genesisHash) shown.last [rightRecord] := by
    rw [← hRecords]
    exact run_of_history hHistory hYoung ⟨_, hFst⟩ ⟨_, hSnd⟩
  rcases batches_read_back hRun with ⟨file, last, hContents, _, hLoads⟩
  have hFile : file = frames crypto.primitives [leftRecord, rightRecord] ++ [] := by
    rw [append_nil]
    exact append_cancel_left (Option.some.inj (hContents.symm.trans hLast))
  have hRead : recordsIn crypto.primitives file = [leftRecord, rightRecord] := by
    rw [hFile]
    exact recordsIn_frames torn_nil
  rw [hRead] at hLoads
  rcases (hLoads params now genesisHash shown.tree).2 hTaken with ⟨replay, hReplay, hShows⟩
  exact ⟨shown.last, file, shown.tree, last, replay, hRun, hContents, hRead, hReplay, hShows⟩

end TornTail

end Bitmigo
