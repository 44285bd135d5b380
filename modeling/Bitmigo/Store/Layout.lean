import Bitmigo.Lib.Segments
import Bitmigo.Store.Append
import Mathlib.Data.List.Fold
import Mathlib.Data.List.MinMax

/-
  Where the records of a series are, over any history of appends and reopens in which no call fails.

  Key definitions include:
    * `Stored`, a record and its location
    * `SeriesLog`, the appends and reopens so far
    * `Laid`, what they leave

  Key theorems include:
    * `numberOf_fileName`, names give their numbers back
    * `Laid.append` and `Laid.openWithBound_eq`
    * `series_layout`
-/

namespace Bitmigo

open List Device Nat

variable {stem : List Char} {number : UInt32} {d : Directory FileName}
variable {device : Device FileName} {record : UInt32} {u : Unit}

--------
-- Names and Numbers
--------

/- Names have five digits below this many files. -/
def seriesFiles : Nat := 100000

theorem toNat_next (hLt : number.toNat + 1 < 2 ^ 32) : (number + 1).toNat = number.toNat + 1 := by
  rw [UInt32.toNat_add]
  exact mod_eq_of_lt hLt

theorem length_fileNumber (hLt : number.toNat < seriesFiles) : (fileNumber number).length = 5 := by
  have hDigits : (toDigits 10 number.toNat).length ≤ 5 :=
    (length_toDigits_le_iff (by decide) (by decide)).mpr hLt
  simp only [fileNumber, length_append, length_replicate]
  omega

theorem isDigit_of_mem_fileNumber {c : Char} (hMem : c ∈ fileNumber number) : c.isDigit = true := by
  rcases mem_append.mp hMem with hZero | hDigit
  · rw [eq_of_mem_replicate hZero]
    rfl
  · exact isDigit_of_mem_toDigits (by decide) (by decide) hDigit

theorem fileNumber_ne_nil (number : UInt32) : fileNumber number ≠ [] := by
  unfold fileNumber
  simp [toDigits_ne_nil]

theorem parseNumber_fileNumber (number : UInt32) :
    parseNumber (fileNumber number) = some number.toNat := by
  have hHead : (fileNumber number).head? ≠ some '+' := by
    intro hPlus
    have hDigit := isDigit_of_mem_fileNumber (mem_of_mem_head? hPlus)
    cases hDigit
  have hAll : (fileNumber number).all Char.isDigit := by
    rw [all_eq_true]
    exact fun c => isDigit_of_mem_fileNumber
  rw [parseNumber, if_neg hHead, if_pos ⟨fileNumber_ne_nil number, hAll⟩]
  show some (ofDigitChars 10 (fileNumber number) 0) = _
  rw [fileNumber, ofDigitChars_append, ofDigitChars_replicate_zero, Nat.mul_zero,
    ofDigitChars_ten_toDigits]

/- A name has the number it was made from. -/
theorem numberOf_fileName (stem : List Char) (hLt : number.toNat < seriesFiles) :
    numberOf stem (fileName stem number) = some number.toNat := by
  have hPrefix :
      stem.isPrefixOf? (fileName stem number) = some (fileNumber number ++ ['.', 'd', 'a', 't']) :=
    isPrefixOf?_eq_some_iff_append_eq.mpr (append_assoc _ _ _).symm
  have hSuf : ['.', 'd', 'a', 't'].isSuffixOf? (fileNumber number ++ ['.', 'd', 'a', 't']) =
      some (fileNumber number) :=
    isSuffixOf?_eq_some_iff_append_eq.mpr rfl
  rw [numberOf, hPrefix]
  show (do
    let digits ← ['.', 'd', 'a', 't'].isSuffixOf? _
    if digits.length = 5 then parseNumber digits
    else none) = _
  rw [hSuf]
  show (if (fileNumber number).length = 5 then _ else _) = _
  rw [if_pos (length_fileNumber hLt), parseNumber_fileNumber]

/- Digits after a number below a power of ten. -/
theorem ofDigitChars_lt {digits : List Char} (hDigits : digits.all Char.isDigit) :
    ofDigitChars 10 digits 0 < 10 ^ digits.length := by
  induction digits using reverseRecOn with
  | nil => decide
  | append_singleton digits c ih =>
    rw [all_append, Bool.and_eq_true] at hDigits
    have hLower := ih hDigits.1
    have hDigit : c.toNat - '0'.toNat < 10 := by
      have hLast := hDigits.2
      simp [Char.isDigit] at hLast
      have hUpper : c.toNat ≤ 57 := hLast.2
      have hZero : '0'.toNat = 48 := rfl
      omega
    rw [ofDigitChars_append, length_append, length_singleton, Nat.pow_succ]
    show 10 * _ + (c.toNat - '0'.toNat) < _
    omega

theorem parseNumber_lt {text : List Char} {number : Nat}
    (hNumber : parseNumber text = some number) : number < 10 ^ text.length := by
  unfold parseNumber at hNumber
  generalize hRead : (if text.head? = some '+' then text.tail else text) = digits at hNumber
  have hLen : digits.length ≤ text.length := by
    rw [← hRead]
    split
    · rw [length_tail]
      exact sub_le _ _
    · exact Nat.le_refl _
  dsimp only at hNumber
  split at hNumber
  · rename_i hDigits
    cases hNumber
    exact Nat.lt_of_lt_of_le (ofDigitChars_lt hDigits.2) (Nat.pow_le_pow_right (by decide) hLen)
  · cases hNumber

theorem numberOf_lt {name : FileName} {number : Nat} (hNumber : numberOf stem name = some number) :
    number < seriesFiles := by
  simp only [numberOf, Option.bind_eq_bind, Option.bind_eq_some_iff] at hNumber
  rcases hNumber with ⟨rest, _, digits, _, hDigits⟩
  split at hDigits
  · rename_i hLen
    have hLt := parseNumber_lt hDigits
    rwa [hLen] at hLt
  · cases hDigits

/- The numbers a directory has for a series. -/
def Numbered (stem : List Char) (d : Directory FileName) (number : Nat) : Prop :=
  ∃ entry ∈ d.entries, numberOf stem entry.1 = some number

theorem Numbered.lt {number : Nat} (hNumbered : Numbered stem d number) : number < seriesFiles := by
  rcases hNumbered with ⟨_, _, hNumber⟩
  exact numberOf_lt hNumber

theorem toNat_highest (stem : List Char) (d : Directory FileName) :
    (highest stem d).toNat =
      (d.entries.filterMap fun entry => numberOf stem entry.1).foldr max 0 := by
  have hBound : (d.entries.filterMap fun entry => numberOf stem entry.1).foldr max 0 ≤
      seriesFiles := by
    refine max_le_of_forall_le _ seriesFiles ?_
    intro number hNumber
    have hNumbered : Numbered stem d number := mem_filterMap.mp hNumber
    exact hNumbered.lt.le
  have hFiles : seriesFiles = 100000 := rfl
  rw [highest, foldl_eq_foldr, UInt32.toNat_ofNat']
  exact mod_eq_of_lt (by omega)

/- No number is above the highest. -/
theorem Numbered.le_highest {number : Nat} (hNumbered : Numbered stem d number) :
    number ≤ (highest stem d).toNat := by
  rw [toNat_highest]
  exact le_max_of_le (mem_filterMap.mpr hNumbered) (Nat.le_refl _)

theorem highest_le {bound : Nat} (hBound : ∀ number, Numbered stem d number → number ≤ bound) :
    (highest stem d).toNat ≤ bound := by
  rw [toNat_highest]
  refine max_le_of_forall_le _ bound ?_
  intro number hNumber
  exact hBound number (mem_filterMap.mp hNumber)

/- A file of the series is among its numbers. -/
theorem numbered_of_find {handle : Nat} (hLt : number.toNat < seriesFiles)
    (hFind : d.find (fileName stem number) = some handle) : Numbered stem d number.toNat :=
  ⟨_, Directory.mem_entries_of_find hFind, numberOf_fileName stem hLt⟩

theorem numbered_flushed {s : Series} {number : Nat} :
    Numbered stem s.flushed number ↔ Numbered stem s.device.directory number := by
  unfold Series.flushed
  split <;> rfl

/- The numbers after a file of the series is made. -/
theorem numbered_make {made : UInt32} {number : Nat} (hLt : made.toNat < seriesFiles)
    (hNumbered : Numbered stem (d.make (fileName stem made)) number) :
    number = made.toNat ∨ Numbered stem d number := by
  rcases hNumbered with ⟨entry, hEntry, hNumber⟩
  rcases mem_cons.mp hEntry with rfl | hOld
  · rw [numberOf_fileName stem hLt] at hNumber
    exact .inl (Option.some.inj hNumber).symm
  · exact .inr ⟨entry, hOld, hNumber⟩

--------
-- Calls That Complete
--------

theorem Series.onDevice_of_ok {α : Type} {p : Program (Device FileName) StoreStop α} {a : α}
    {s : Series} (hPart : p s.device = (.ok a, device)) :
    onDevice p s = (.ok a, { s with device := device }) :=
  Program.within_eq.mpr ⟨device, hPart, rfl⟩

namespace SeriesWriter

open Series

variable {s : Series}

theorem sync_calm (hCalm : s.device.fates = []) :
    sync s = (.ok (), ⟨⟨s.flushed, []⟩, { s.writer with unsynced := false }⟩) := by
  rcases s with ⟨⟨d, fates⟩, writer⟩
  cases hCalm
  rw [sync, Program.get_bind]
  cases hUnsynced : writer.unsynced with
  | true =>
    simp [flushed, hUnsynced]
    rfl
  | false =>
    simp [flushed, hUnsynced]
    rw [← hUnsynced]

theorem place_of_room (hRoom : HasRoom record s) : place record s = (.ok (), s) := by
  rw [place, Program.get_bind, if_pos hRoom]
  rfl

/- The next file is made if it is not there. -/
theorem place_of_full (hCalm : s.device.fates = []) (hFull : ¬ HasRoom record s)
    (hFile : s.writer.file.toNat + 1 < 2 ^ 32)
    (hFree : s.device.directory.find (fileName s.writer.stem (s.writer.file + 1)) = none) :
    ∃ t, place record s = (.ok (), t) ∧ t.device.fates = [] := by
  rw [← find_flushed] at hFree
  have hMade := onDevice_of_ok (s := ⟨⟨s.flushed, []⟩, { s.writer with unsynced := false }⟩)
    (createNew_calm hFree)
  rw [place, Program.get_bind, if_neg hFull, Program.bind_of_ok (sync_calm hCalm), if_pos hFile,
    Program.lift_ok_bind, Program.bind_of_ok hMade]
  exact ⟨_, rfl, rfl⟩

/- The bytes a record asks for a place with. -/
abbrev asked (s : Series) (body : Bytes) : UInt32 :=
  saturatingAdd (saturatingAdd frameBytes (clampU32 body.length)) s.writer.trailerBytes

/- A record is written once it has its place. -/
theorem append_of_place {body : Bytes} {trailer : Option Hash32} {mid : Series}
    (hTrailer : (if trailer.isSome then 32 else 0) = s.writer.trailerBytes)
    (hBody : clampU32 body.length ≤ s.writer.maxRecord)
    (hPlace : place (asked s body) s = (.ok (), mid)) (hCalm : mid.device.fates = [])
    (hMoves : mid.writer.offset < saturatingAdd mid.writer.offset (asked s body)) :
    ∃ placed t, append body trailer s = (.ok placed, t) ∧ t.device.fates = [] := by
  rcases mid with ⟨⟨d, fates⟩, writer⟩
  cases hCalm
  rw [append, Program.get_bind, Program.assert_bind hTrailer,
    Program.assert_bind hBody, Program.bind_of_ok hPlace,
    Program.get_bind, Program.bind_of_ok (onDevice_of_ok (writeAll_calm _ _ _))]
  refine ⟨_, _, Program.assert_bind hMoves _ _, rfl⟩

end SeriesWriter

--------
-- Cursors and Extents
--------

/- The file being filled, and how far. -/
def Series.cursor (s : Series) : Cursor :=
  ⟨s.writer.file.toNat, s.writer.offset.toNat⟩

/- One appended record, and where it was put. -/
structure Stored where
  placed : Placed
  body : Bytes
  trailer : Option Hash32
  deriving DecidableEq

/- Its bytes, from the frame to the trailer. -/
def Stored.extent (reader : SeriesReader) (stored : Stored) : Extent :=
  ⟨stored.placed.file.toNat, stored.placed.start, recordSize reader stored.body⟩

namespace SeriesWriter

open Series

variable {s : Series}

/- The bound of a file is too low to saturate. -/
theorem hasRoom_iff (hMaxFile : s.writer.maxFile ≤ maxFileBytes) :
    HasRoom record s ↔
      s.cursor.offset = 0 ∨ s.cursor.offset + record.toNat ≤ s.writer.maxFile.toNat := by
  have hMax : maxFileBytes.toNat = 134217728 := rfl
  have hLe := UInt32.le_iff_toNat_le.mp hMaxFile
  rw [HasRoom, ← UInt32.toNat_inj, UInt32.le_iff_toNat_le, toNat_saturatingAdd]
  refine or_congr Iff.rfl ?_
  show _ ↔ s.writer.offset.toNat + _ ≤ _
  omega

theorem cursor_place {mid : Series} (hMaxFile : s.writer.maxFile ≤ maxFileBytes)
    (hPlace : place record s = (.ok u, mid)) :
    mid.cursor = s.cursor.place s.writer.maxFile.toNat record.toNat := by
  rw [Cursor.place]
  rcases place_eq_ok hPlace with ⟨hRoom, rfl⟩ | ⟨hFull, hRolled⟩
  · rw [if_pos ((hasRoom_iff hMaxFile).mp hRoom)]
  · rw [if_neg (mt (hasRoom_iff hMaxFile).mpr hFull), cursor, hRolled.writer]
    exact congrArg (Cursor.mk · 0) (toNat_next hRolled.file)

/- An append puts its record where the cursor says. -/
theorem cursor_append {body : Bytes} {trailer : Option Hash32} {t : Series} {placed : Placed}
    (hStep : s.InStep) (hMaxFile : s.writer.maxFile ≤ maxFileBytes)
    (hSize : recordSize s.writer.reader body < 2 ^ 32)
    (hAppend : append body trailer s = (.ok placed, t)) :
    let size := recordSize s.writer.reader body
    let cursor := s.cursor.place s.writer.maxFile.toNat size
    (Stored.mk placed body trailer).extent s.writer.reader = cursor.extent size ∧
      t.cursor = cursor.advance size := by
  rcases append_appended hAppend with ⟨_, _, mid, hPlace, _, hWriter, rfl⟩
  have hRecord := (toNat_record hSize).2
  have hCursor := cursor_place hMaxFile hPlace
  have hContinues : s.Continues mid := (keeps_place _).of_eq hPlace
  have hLt := (place_placedFor (fun _ => hStep) hPlace).lt (hContinues.maxFile ▸ hMaxFile)
  rw [show s.writer.trailerBytes = s.writer.reader.trailerBytes from rfl, hRecord] at hLt hCursor
  rcases offset_of_start
      (Nat.lt_of_le_of_lt (Nat.add_le_add_left frameBytes_le_recordSize _) hLt) with
    ⟨hOffset, hInside⟩
  intro size cursor
  rw [show cursor = mid.cursor from hCursor.symm]
  constructor
  · show Extent.mk mid.writer.file.toNat (Placed.start _) _ =
      Extent.mk mid.writer.file.toNat mid.writer.offset.toNat _
    rw [Placed.toNat_sub_start hInside]
    show Extent.mk _ ((saturatingAdd _ _).toNat - _) _ = _
    rw [hOffset, Nat.add_sub_cancel]
  · rw [Series.cursor, hWriter]
    show Cursor.mk mid.writer.file.toNat
      (saturatingAdd mid.writer.offset _).toNat = Cursor.mk mid.writer.file.toNat _
    rw [toNat_saturatingAdd, show s.writer.trailerBytes =
      s.writer.reader.trailerBytes from rfl, hRecord, Nat.min_eq_left (le_sub_one_of_lt hLt)]
    rfl

end SeriesWriter

--------
-- Laid Out Series
--------

/-
  What appends and reopens leave when no call fails: every record is where it was put, the cursor is
  at the end of the file with the highest number, and everything is behind it.
-/
structure Laid (s : Series) (records : List Stored) : Prop where
  -- no call fails
  calm : s.device.fates = []
  -- the bounds of the series
  checksummed : s.writer.trailerBytes = 0 ∨ s.writer.trailerBytes = 32
  maxFile_pos : 0 < s.writer.maxFile
  maxFile_le : s.writer.maxFile ≤ maxFileBytes
  size : frameBytes.toNat + s.writer.maxRecord.toNat + s.writer.trailerBytes.toNat < 2 ^ 32
  -- the cursor
  inStep : s.InStep
  below : s.writer.file.toNat < seriesFiles
  top : ∀ number, Numbered s.writer.stem s.device.directory number → number ≤ s.writer.file.toNat
  -- the records
  filed : ∀ stored ∈ records,
      Filed s.writer.reader s.device.directory stored.placed stored.body stored.trailer
  packed : Packed s.writer.maxFile.toNat s.cursor (records.map (·.extent s.writer.reader))

namespace Laid

open SeriesWriter

variable {s t : Series} {records : List Stored} {body : Bytes} {trailer : Option Hash32}
variable {placed : Placed} {mid : Series}

section

variable (hLaid : Laid s records)

include hLaid

theorem length_le (hBody : clampU32 body.length ≤ s.writer.maxRecord) :
    body.length ≤ s.writer.maxRecord.toNat := by
  have hSize := hLaid.size
  have hFrame : frameBytes.toNat = 8 := rfl
  rw [UInt32.le_iff_toNat_le, toNat_clampU32] at hBody
  omega

theorem recordSize_lt (hBody : body.length ≤ s.writer.maxRecord.toNat) :
    recordSize s.writer.reader body < 2 ^ 32 := by
  have hSize := hLaid.size
  rw [recordSize]
  show _ + s.writer.trailerBytes.toNat < _
  omega

/- The next file is not there yet. -/
theorem next_free (hNext : s.writer.file.toNat + 1 < seriesFiles) :
    s.writer.file.toNat + 1 < 2 ^ 32 ∧
      s.device.directory.find (fileName s.writer.stem (s.writer.file + 1)) = none := by
  have hFiles : seriesFiles = 100000 := rfl
  have hFile : s.writer.file.toNat + 1 < 2 ^ 32 := by omega
  have hNumber := toNat_next hFile
  refine ⟨hFile, ?_⟩
  cases hFind : s.device.directory.find (fileName s.writer.stem (s.writer.file + 1)) with
  | none => rfl
  | some handle =>
    have hLe := hLaid.top _ (numbered_of_find (by omega) hFind)
    omega

/- A record has its place after calls that complete. -/
theorem calm_place (hPlace : place record s = (.ok u, mid)) : mid.device.fates = [] := by
  rcases place_eq_ok hPlace with ⟨_, rfl⟩ | ⟨hFull, hRolled⟩
  · exact hLaid.calm
  · rcases place_of_full hLaid.calm hFull hRolled.file hRolled.free with ⟨_, hSame, hCalm⟩
    rw [hPlace] at hSame
    rwa [(Prod.mk.inj hSame).2]

/- The file a record is placed in has the highest number. -/
theorem top_place (hPlace : place record s = (.ok u, mid))
    (hFiles : mid.writer.file.toNat < seriesFiles) {number : Nat}
    (hNumbered : Numbered mid.writer.stem mid.device.directory number) :
    number ≤ mid.writer.file.toNat := by
  rcases place_eq_ok hPlace with ⟨_, rfl⟩ | ⟨_, hRolled⟩
  · exact hLaid.top number hNumbered
  · rw [hRolled.writer, hRolled.directory] at hNumbered
    rw [hRolled.writer] at hFiles ⊢
    have hMade : Numbered s.writer.stem
          (s.flushed.make (fileName s.writer.stem (s.writer.file + 1)))
          number := hNumbered
    rcases numbered_make hFiles hMade with hSame | hOld
    · exact hSame.le
    · have hLe := hLaid.top number (numbered_flushed.mp hOld)
      refine hLe.trans ?_
      show _ ≤ (s.writer.file + 1).toNat
      rw [toNat_next hRolled.file]
      exact Nat.le_add_right _ _

/- A record that has its place is appended. -/
theorem append_of_place (hTrailer : (if trailer.isSome then 32 else 0) = s.writer.trailerBytes)
    (hBody : clampU32 body.length ≤ s.writer.maxRecord) (hPlace : place (asked s body) s = (.ok (), mid)) :
    ∃ placed t, append body trailer s = (.ok placed, t) ∧ t.device.fates = [] := by
  refine SeriesWriter.append_of_place hTrailer hBody hPlace (hLaid.calm_place hPlace) ?_
  have hSize := hLaid.recordSize_lt (hLaid.length_le hBody)
  have hRecord : (asked s body).toNat = recordSize s.writer.reader body := (toNat_record hSize).2
  have hContinues : s.Continues mid := (keeps_place _).of_eq hPlace
  have hLt := (place_placedFor (fun _ => hLaid.inStep) hPlace).lt
    (hContinues.maxFile ▸ hLaid.maxFile_le)
  have hFrame := @frameBytes_le_recordSize s.writer.reader body
  have hPos : 0 < frameBytes.toNat := by decide
  rw [UInt32.lt_iff_toNat_lt, toNat_saturatingAdd]
  omega

/- Below the limit on files an append returns. -/
theorem append_returns (hNext : s.writer.file.toNat + 1 < seriesFiles)
    (hTrailer : (if trailer.isSome then 32 else 0) = s.writer.trailerBytes)
    (hBody : body.length ≤ s.writer.maxRecord.toNat) :
    ∃ placed t, SeriesWriter.append body trailer s = (.ok placed, t) := by
  have hClamped : clampU32 body.length ≤ s.writer.maxRecord := by
    rw [UInt32.le_iff_toNat_le, toNat_clampU32]
    exact (Nat.min_le_left _ _).trans hBody
  have hPlace : ∃ mid, place (asked s body) s = (.ok (), mid) := by
    by_cases hRoom : HasRoom (asked s body) s
    · exact ⟨s, place_of_room hRoom⟩
    · rcases hLaid.next_free hNext with ⟨hFile, hFree⟩
      rcases place_of_full hLaid.calm hRoom hFile hFree with ⟨mid, hMid, _⟩
      exact ⟨mid, hMid⟩
  rcases hPlace with ⟨mid, hMid⟩
  rcases hLaid.append_of_place hTrailer hClamped hMid with ⟨placed, t, hAppend, _⟩
  exact ⟨placed, t, hAppend⟩

theorem append (hAppend : SeriesWriter.append body trailer s = (.ok placed, t))
    (hFiles : t.writer.file.toNat < seriesFiles) : Laid t (⟨placed, body, trailer⟩ :: records) := by
  have hContinues : s.Continues t := (keeps_append _ _).of_eq hAppend
  have hReader := hContinues.reader
  have hMaxFile := hContinues.maxFile
  have hTrailerBytes : t.writer.trailerBytes = s.writer.trailerBytes :=
    congrArg SeriesReader.trailerBytes hReader
  have hMaxRecord : t.writer.maxRecord = s.writer.maxRecord :=
    congrArg SeriesReader.maxRecord hReader
  rcases append_appended hAppend with ⟨hTrailer, hBody, mid, hPlace, hDir, hWriter, _⟩
  have hSize := hLaid.recordSize_lt (hLaid.length_le hBody)
  rcases append_filed (fun _ => hLaid.inStep) hLaid.maxFile_le hSize hAppend with ⟨hFiled, hStep⟩
  have hCursor := cursor_append hLaid.inStep hLaid.maxFile_le hSize hAppend
  refine ⟨?_, ?_, ?_, ?_, ?_, hStep, hFiles, ?_, ?_, ?_⟩
  · rcases hLaid.append_of_place hTrailer hBody hPlace with ⟨_, _, hSame, hCalm⟩
    rw [hAppend] at hSame
    rwa [(Prod.mk.inj hSame).2]
  · rw [hTrailerBytes]
    exact hLaid.checksummed
  · rw [hMaxFile]
    exact hLaid.maxFile_pos
  · rw [hMaxFile]
    exact hLaid.maxFile_le
  · rw [hMaxRecord, hTrailerBytes]
    exact hLaid.size
  · intro number hNumbered
    rw [hWriter] at hFiles hNumbered ⊢
    rw [hDir] at hNumbered
    exact hLaid.top_place hPlace hFiles hNumbered
  · rw [hReader, forall_mem_cons]
    refine ⟨hFiled, fun stored hMem => ?_⟩
    exact (hLaid.filed stored hMem).grows hContinues.grows
  · rw [hReader, hMaxFile, map_cons, hCursor.1, hCursor.2]
    refine hLaid.packed.push ?_
    exact Nat.lt_of_lt_of_le (by decide) frameBytes_le_recordSize

/- A reopened series is the one that was closed. -/
theorem openWithBound_eq :
    openWithBound s.writer.stem s.writer.magic s.writer.trailerBytes s.writer.maxRecord
        s.writer.maxFile s.device =
      (.ok ({ s.writer with unsynced := false }, s.writer.reader), s.device) := by
  rcases s with ⟨⟨d, fates⟩, writer⟩
  have hCalm : fates = [] := hLaid.calm
  cases hCalm
  rcases hLaid.inStep with ⟨hFind, hEnd⟩
  have hHighest : highest writer.stem d = writer.file := by
    rw [← UInt32.toNat_inj]
    exact Nat.le_antisymm (highest_le hLaid.top) (numbered_of_find hLaid.below hFind).le_highest
  dsimp only at hFind hEnd
  rw [openWithBound, Program.assert_bind hLaid.checksummed,
    Program.assert_bind ⟨hLaid.maxFile_pos, hLaid.maxFile_le⟩, Program.get_bind, hHighest,
    Program.bind_of_ok (openAppend_calm hFind), Program.bind_of_ok (length_calm hEnd),
    if_pos (UInt32.toNat_lt _), Program.lift_ok_bind, UInt32.ofNat_toNat]
  rfl

theorem reopen : Laid ⟨s.device, { s.writer with unsynced := false }⟩ records :=
  ⟨hLaid.calm, hLaid.checksummed, hLaid.maxFile_pos,
    hLaid.maxFile_le, hLaid.size, hLaid.inStep, hLaid.below, hLaid.top, hLaid.filed, hLaid.packed⟩

end

end Laid

/- What opening a series on a device that works leaves. -/
theorem laid_of_openWithBound {magic : FixedBytes 4} {trailerBytes maxRecord maxFile : UInt32}
    {opened : Device FileName} {writer : SeriesWriter} {reader : SeriesReader}
    (hCalm : device.fates = [])
    (hSize : frameBytes.toNat + maxRecord.toNat + trailerBytes.toNat < 2 ^ 32)
    (hOpen : openWithBound stem magic trailerBytes maxRecord maxFile
      device = (.ok (writer, reader), opened)) :
    Laid ⟨opened, writer⟩ [] ∧ OpenedAs stem magic trailerBytes maxRecord maxFile writer := by
  have hOpened := openWithBound_opened hOpen
  have hAs := hOpened.openedAs
  have hBelow : writer.file.toNat < seriesFiles := by
    rw [hOpened.file]
    exact Nat.lt_of_le_of_lt (highest_le fun _ hNumbered => le_pred_of_lt hNumbered.lt) (by decide)
  have hTop : ∀ number, Numbered stem opened.directory number → number ≤ writer.file.toNat := by
    intro number hNumbered
    rcases hOpened.directory with hOld | ⟨_, hMade⟩
    · rw [hOld] at hNumbered
      rw [hOpened.file]
      exact hNumbered.le_highest
    · rw [hMade] at hNumbered
      rcases numbered_make hBelow hNumbered with hNew | hOld
      · exact hNew.le
      · rw [hOpened.file]
        exact hOld.le_highest
  have hFates : opened.fates = [] := by
    rw [hOpened.fates, hCalm]
    rfl
  refine ⟨?_, hAs⟩
  have hTrailer := hOpened.checksummed
  rcases hAs with ⟨hReader, rfl⟩
  cases hReader
  exact ⟨hFates, hTrailer, hOpened.maxFile_pos,
    hOpened.maxFile_le, hSize, hOpened.inStep, hBelow, hTop, forall_mem_nil _, packed_nil _ _⟩

--------
-- Histories
--------

/-
  The appends so far, the last one first, of a series that is opened, appended to, closed and opened
  again, on a device whose calls do not fail.
-/
inductive SeriesLog
    (stem : List Char) (magic : FixedBytes 4) (trailerBytes maxRecord maxFile : UInt32) :
    Series → List Stored → Prop where
  | start {device opened : Device FileName} {writer : SeriesWriter} {reader : SeriesReader}
      (calm : device.fates = [])
      (step : openWithBound stem magic trailerBytes maxRecord
          maxFile device = (.ok (writer, reader), opened)) :
      SeriesLog stem magic trailerBytes maxRecord maxFile ⟨opened, writer⟩ []
  | append {s t : Series} {records : List Stored} {body : Bytes} {trailer : Option Hash32}
      {placed : Placed} (before : SeriesLog stem magic trailerBytes maxRecord maxFile s records)
      (step : SeriesWriter.append body trailer s = (.ok placed, t))
      (below : t.writer.file.toNat < seriesFiles) :
      SeriesLog stem magic trailerBytes maxRecord maxFile t (⟨placed, body, trailer⟩ :: records)
  | reopen {s : Series} {records : List Stored} {opened : Device FileName} {writer : SeriesWriter}
      {reader : SeriesReader}
      (before : SeriesLog stem magic trailerBytes maxRecord maxFile s records)
      (step : openWithBound stem magic trailerBytes maxRecord
          maxFile s.device = (.ok (writer, reader), opened)) :
      SeriesLog stem magic trailerBytes maxRecord maxFile ⟨opened, writer⟩ records

section

variable {stem : List Char} {magic : FixedBytes 4} {trailerBytes maxRecord maxFile : UInt32}
variable {s : Series} {records : List Stored}

/- A reopened series has its cursor where it was. -/
theorem Laid.reopen_eq (hLaid : Laid s records)
    (hAs : OpenedAs stem magic trailerBytes maxRecord maxFile s.writer) :
    openWithBound stem magic trailerBytes maxRecord maxFile s.device =
      (.ok ({ s.writer with unsynced := false },
        ⟨stem, magic, trailerBytes, maxRecord⟩), s.device) := by
  have hOpen := hLaid.openWithBound_eq
  rcases hAs with ⟨hReader, rfl⟩
  cases hReader
  exact hOpen

theorem SeriesLog.laid (hSize : frameBytes.toNat + maxRecord.toNat + trailerBytes.toNat < 2 ^ 32)
    (hLog : SeriesLog stem magic trailerBytes maxRecord maxFile s records) :
    Laid s records ∧ OpenedAs stem magic trailerBytes maxRecord maxFile s.writer := by
  induction hLog with
  | start hCalm hOpen => exact laid_of_openWithBound hCalm hSize hOpen
  | append _ hAppend hBelow ih =>
    rcases ih with ⟨hLaid, hAs⟩
    have hContinues := (SeriesWriter.keeps_append _ _).of_eq hAppend
    exact ⟨hLaid.append hAppend hBelow,
      hContinues.reader.trans hAs.reader, hContinues.maxFile.trans hAs.maxFile⟩
  | reopen _ hOpen ih =>
    rcases ih with ⟨hLaid, hAs⟩
    rw [hLaid.reopen_eq hAs] at hOpen
    cases hOpen
    exact ⟨hLaid.reopen, hAs.reader, hAs.maxFile⟩

/- A record past the bound is the only one of its file. -/
theorem Laid.alone (hLaid : Laid s records) {stored : Stored} (hMem : stored ∈ records)
    (hPast : s.writer.maxFile.toNat < (stored.extent s.writer.reader).finish) :
    stored.placed.offset = frameBytes ∧
      records.filter (·.placed.file = stored.placed.file) = [stored] := by
  rcases hLaid.packed.alone _ (mem_map_of_mem hMem) hPast with ⟨hStart, hAlone⟩
  have hInside := (hLaid.filed stored hMem).sized.offset
  constructor
  · have hStart : stored.placed.start = 0 := hStart
    rw [Placed.toNat_sub_start hInside] at hStart
    have hLe := UInt32.le_iff_toNat_le.mp hInside
    rw [← UInt32.toNat_inj]
    omega
  · rw [filter_map, map_eq_singleton_iff] at hAlone
    rcases hAlone with ⟨only, hOnly, _⟩
    have hFilter : records.filter (·.placed.file = stored.placed.file) = [only] := by
      rw [← hOnly]
      refine filter_congr ?_
      intro other _
      simp [Stored.extent, UInt32.toNat_inj]
    have hSelf : stored ∈ records.filter (·.placed.file = stored.placed.file) :=
      mem_filter.mpr ⟨hMem, decide_eq_true rfl⟩
    rw [hFilter, mem_singleton] at hSelf
    rw [hFilter, hSelf]

/-
  In every history every location is read back, no record is over another, one past the bound of a
  file is alone in it, the cursor is at the end of its file and a reopen finds it there; and below
  the limit on files the next append returns.
-/
theorem series_layout (hSize : frameBytes.toNat + maxRecord.toNat + trailerBytes.toNat < 2 ^ 32)
    (hLog : SeriesLog stem magic trailerBytes maxRecord maxFile s records) :
    let reader : SeriesReader := ⟨stem, magic, trailerBytes, maxRecord⟩
    (∀ stored ∈ records,
      reader.read s.device.directory stored.placed.file stored.placed.offset stored.placed.len =
        .ok (stored.body, stored.trailer.getD (FixedBytes.zero 32))) ∧
    (records.map (·.extent reader)).Pairwise Extent.Apart ∧
    (∀ stored ∈ records,
      maxFile.toNat < (stored.extent reader).finish →
        stored.placed.offset = frameBytes ∧
          records.filter (·.placed.file = stored.placed.file) = [stored]) ∧
    (s.device.directory.contents (fileName stem s.writer.file)).map List.length =
      some s.writer.offset.toNat ∧
    (∃ writer,
      openWithBound stem magic trailerBytes maxRecord maxFile
          s.device = (.ok (writer, reader), s.device) ∧
        writer.file = s.writer.file ∧
        writer.offset = s.writer.offset) ∧
    (∀ body trailer,
      s.writer.file.toNat + 1 < seriesFiles →
      body.length ≤ maxRecord.toNat →
      (if trailer.isSome then 32 else 0) = trailerBytes →
        ∃ placed t, SeriesWriter.append body trailer s = (.ok placed, t)) := by
  intro reader
  rcases hLog.laid hSize with ⟨hLaid, hAs⟩
  have hReopen := hLaid.reopen_eq hAs
  rcases hAs with ⟨hReader, rfl⟩
  cases hReader
  refine ⟨?_, hLaid.packed.apart, fun stored hMem hPast =>
    hLaid.alone hMem hPast, ?_, ⟨_, hReopen, rfl, rfl⟩, ?_⟩
  · intro stored hMem
    exact (hLaid.filed stored hMem).read_eq
  · rcases hLaid.inStep with ⟨hFind, hEnd⟩
    rcases Option.map_eq_some_iff.mp hEnd with ⟨inode, hInode, hLen⟩
    rw [Directory.contents_eq_some hFind hInode]
    exact congrArg some hLen
  · intro body trailer hNext hBody hTrailer
    exact hLaid.append_returns hNext hTrailer hBody

end

/- A record past the bound, one after it and a reopen: the two are in different files. -/
theorem series_layout_two_files :
    ∃ s first second,
      SeriesLog blockStem blockRecordMagic 0 16 16 s [second, first] ∧
        first.placed = ⟨0, 8, 10⟩ ∧
        second.placed = ⟨1, 8, 1⟩ ∧
        s.cursor = ⟨1, 9⟩ ∧
        (⟨blockStem, blockRecordMagic, 0, 16⟩ : SeriesReader).read s.device.directory 0 8 10 =
          .ok (replicate 10 7, FixedBytes.zero 32) := by
  have hLog := @SeriesLog.reopen blockStem blockRecordMagic 0 16 16 _ _ _ _ _
    (@SeriesLog.append _ _ _ _ _ _ _ _ [9] none _ (@SeriesLog.append _ _ _ _ _ _ _ _
        (replicate 10 7) none _
        (@SeriesLog.start _ _ _ _ _ ⟨Directory.empty, []⟩ _ _ _ rfl rfl) rfl (by decide))
      rfl (by decide)) rfl
  exact ⟨_, _, _, hLog, rfl, rfl, rfl,
    (series_layout (by decide) hLog).1 _ (mem_cons_of_mem _ mem_cons_self)⟩

end Bitmigo
