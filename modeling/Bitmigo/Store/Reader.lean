import Bitmigo.Bitcoin.Encoding
import Bitmigo.Lib.Disk

/-
  Reading bytes back off a disk that may have been cut in half, and the errors of everything below
  the store.

  Key definitions include:
    * `DecodeError` and `IoError`
    * `StoreReader`, a cursor over bytes in memory
    * `saturatingAdd`, sums in the width of a location

  A field written at the front of the bytes is read back, and the cursor is left at what follows it.
-/

namespace Bitmigo

--------
-- Errors
--------

/- Why a decode did not produce a value. -/
inductive DecodeError where
  | truncated (wanted left : Nat)
  | trailing (left : Nat)
  | badMagic (seen : Bytes)
  | badChecksum
  | badVarint
  | tooLong (declared limit : Nat)
  | notAscending (input : UInt32)
  | badTag (tag : UInt8)
  deriving DecidableEq

/- The name of a file in its directory. -/
abbrev FileName := List Char

/- The `io::Error`s of the store's own. -/
inductive IoError where
  -- `InvalidData`, with the error of the decoder
  | decode (error : DecodeError)
  -- "{name} is longer than a u32 offset"
  | longerThanOffset (name : FileName)
  -- "the series is at 2^32 files"
  | seriesFull
  -- "a location names a body, which never starts inside the
  -- frame"
  | bodyInsideFrame
  -- "the record here is {declared} bytes, not {len}"
  | wrongLength (declared len : UInt32)
  -- the file could not be opened
  | notFound (name : FileName)
  -- the file ended before the bytes asked for
  | unexpectedEof
  -- "{path} has no index header: {error}"
  | noIndexHeader
  -- "{path} is not a bitmigo block index"
  | notAnIndex
  -- "block index version {version}, and this bitmigo writes
  -- {JOURNAL_VERSION}"
  | indexVersion (version : UInt32)
  -- "this block index is {seen}'s chain, not {genesis}'s"
  | indexChain (seen genesis : BlockHash)
  -- "the coin store is at {marker}, which the block index
  -- does not have"
  | unknownMarker (marker : BlockHash)
  -- "{hash} is below the coin store's marker with no undo
  -- record"
  | noUndoRecord (hash : BlockHash)
  deriving DecidableEq

/- Why a call on the store stopped. -/
abbrev StoreStop := Stop IoError

--------
-- Sums
--------

/- `u32::saturating_add`. -/
def saturatingAdd (a b : UInt32) : UInt32 :=
  UInt32.ofNat (min (a.toNat + b.toNat) (2 ^ 32 - 1))

/- `u32::try_from(n).unwrap_or(u32::MAX)`. -/
def clampU32 (n : Nat) : UInt32 :=
  UInt32.ofNat (min n (2 ^ 32 - 1))

theorem toNat_saturatingAdd (a b : UInt32) :
    (saturatingAdd a b).toNat = min (a.toNat + b.toNat) (2 ^ 32 - 1) := by
  rw [saturatingAdd, UInt32.toNat_ofNat']
  omega

theorem toNat_clampU32 (n : Nat) : (clampU32 n).toNat = min n (2 ^ 32 - 1) := by
  rw [clampU32, UInt32.toNat_ofNat']
  omega

--------
-- Readers
--------

/- A program that reads from the front of some bytes. -/
abbrev StoreReader (α : Type) := Program Bytes DecodeError α

namespace StoreReader

/- The next `count` bytes. -/
def take (count : Nat) : StoreReader Bytes :=
  fun bytes =>
    if count ≤ bytes.length then
      (.ok (bytes.take count), bytes.drop count)
    else
      (Result.fail (.truncated count bytes.length), bytes)

/- The next byte. -/
def u8 : StoreReader UInt8 := do
  let taken ← take 1
  Program.lift (Result.orFail .badVarint taken.head?)

/- The next four bytes, little-endian. -/
def u32Le : StoreReader UInt32 := do
  let taken ← take 4
  return UInt32.ofNat (LittleEndian.decode taken)

/- The next thirty-two bytes. -/
def hash : StoreReader Hash32 := do
  let taken ← take 32
  Program.lift (Result.orFail (.truncated 32 0) (FixedBytes.ofBytes? 32 taken))

/- Nothing may follow the record. -/
def finish : StoreReader Unit :=
  fun bytes =>
    if bytes.isEmpty then (.ok (), bytes)
    else (Result.fail (.trailing bytes.length), bytes)

/- What a reader makes of some bytes. -/
def read {α : Type} (p : StoreReader α) (bytes : Bytes) : Result DecodeError α :=
  (p bytes).1

--------
-- Round Trips
--------

theorem take_eq_ok {bytes front back : Bytes} {count : Nat} :
    take count bytes = (.ok front, back) ↔ front.length = count ∧ bytes = front ++ back := by
  unfold take
  split
  case isTrue hRoom =>
    rw [Prod.mk.injEq, Except.ok.injEq]
    constructor
    · rintro ⟨rfl, rfl⟩
      exact ⟨List.length_take_of_le hRoom, (List.take_append_drop _ _).symm⟩
    · rintro ⟨rfl, rfl⟩
      simp
  case isFalse hShort =>
    simp only [Prod.mk.injEq, Result.fail_ne_ok, false_and, false_iff]
    rintro ⟨rfl, rfl⟩
    simp at hShort

theorem take_append {front : Bytes} {count : Nat} (hCount : front.length = count) (back : Bytes) :
    take count (front ++ back) = (.ok front, back) :=
  take_eq_ok.mpr ⟨hCount, rfl⟩

theorem take_neverPanics (count : Nat) : (take count).NeverPanics := by
  intro bytes
  unfold take
  split <;> rintro ⟨⟩

theorem u8_cons (byte : UInt8) (back : Bytes) : u8 (byte :: back) = (.ok byte, back) := by
  have hTake : take 1 (byte :: back) = (.ok [byte], back) := @take_append [byte] 1 rfl back
  rw [u8, Program.bind_of_ok hTake]
  rfl

theorem u32Le_eq_ok {bytes back : Bytes} {n : UInt32} :
    u32Le bytes = (.ok n, back) ↔ bytes = Encoding.u32 n ++ back := by
  simp only [u32Le, Program.bind_eq_ok, Program.pure_eq_ok, take_eq_ok]
  constructor
  · rintro ⟨front, _, ⟨hFour, rfl⟩, rfl, rfl⟩
    have hBound : LittleEndian.decode front < 2 ^ 32 := by
      simpa [hFour] using LittleEndian.decode_lt front
    rw [Encoding.u32, UInt32.toNat_ofNat_of_lt' hBound, ← hFour, LittleEndian.encode_decode]
  · rintro rfl
    exact ⟨_, _, ⟨Encoding.length_u32 n, rfl⟩, (Encoding.decode_u32 n).symm, rfl⟩

theorem u32Le_append (n : UInt32) (back : Bytes) : u32Le (Encoding.u32 n ++ back) = (.ok n, back) :=
  u32Le_eq_ok.mpr rfl

theorem u32Le_neverPanics : u32Le.NeverPanics :=
  .bind (take_neverPanics 4) fun _ => Program.neverPanics_pure _

theorem hash_eq_ok {bytes back : Bytes} {digest : Hash32} :
    hash bytes = (.ok digest, back) ↔ bytes = digest.val ++ back := by
  simp only [hash, Program.bind_eq_ok, Program.lift_eq_ok, take_eq_ok, Result.orFail_eq_ok,
    FixedBytes.ofBytes?_eq_some]
  constructor
  · rintro ⟨_, _, ⟨_, rfl⟩, rfl, rfl⟩
    rfl
  · rintro rfl
    exact ⟨_, _, ⟨digest.property, rfl⟩, rfl, rfl⟩

theorem hash_neverPanics : hash.NeverPanics :=
  .bind (take_neverPanics 32) fun _ =>
    Program.neverPanics_lift (Result.safe_true_iff.mp (by simp))

theorem hash_append (digest : Hash32) (back : Bytes) :
    hash (digest.val ++ back) = (.ok digest, back) :=
  hash_eq_ok.mpr rfl

end StoreReader

end Bitmigo
