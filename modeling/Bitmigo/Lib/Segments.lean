import Mathlib.Data.List.Basic

/-
  Files filled one after another, each up to a bound that a single record may exceed.

  Key definitions include:
    * `Cursor` and `Cursor.place`, where the next record goes
    * `Extent`, where a record is
    * `Packed`, extents that some placements have left

  Key theorems include:
    * `Packed.push`, placing one more record
-/

open List

/- The file being filled, and how far. -/
structure Cursor where
  file : Nat
  offset : Nat
  deriving DecidableEq

/- Some bytes of a file. -/
structure Extent where
  file : Nat
  start : Nat
  size : Nat
  deriving DecidableEq

def Extent.finish (extent : Extent) : Nat :=
  extent.start + extent.size

/- Two extents have no byte in common. -/
def Extent.Apart (a b : Extent) : Prop :=
  a.file = b.file → a.finish ≤ b.start ∨ b.finish ≤ a.start

namespace Cursor

/-
  A record goes into the next file when it would take this one past the limit, unless this one is
  empty.
-/
def place (limit size : Nat) (cursor : Cursor) : Cursor :=
  if cursor.offset = 0 ∨ cursor.offset + size ≤ limit then
    cursor
  else
    ⟨cursor.file + 1, 0⟩

/- The bytes a record placed here takes. -/
def extent (cursor : Cursor) (size : Nat) : Extent :=
  ⟨cursor.file, cursor.offset, size⟩

/- The cursor behind them. -/
def advance (cursor : Cursor) (size : Nat) : Cursor :=
  ⟨cursor.file, cursor.offset + size⟩

/- Everything placing a record can do. -/
theorem place_cases (limit size : Nat) (cursor : Cursor) :
    (cursor.place limit size = cursor ∧ (cursor.offset = 0 ∨ cursor.offset + size ≤ limit)) ∨
      (cursor.place limit size = ⟨cursor.file + 1, 0⟩ ∧ limit < cursor.offset + size) := by
  unfold place
  by_cases hRoom : cursor.offset = 0 ∨ cursor.offset + size ≤ limit
  · exact .inl ⟨if_pos hRoom, hRoom⟩
  · rw [not_or, Nat.not_le] at hRoom
    rw [if_neg (by omega)]
    exact .inr ⟨rfl, hRoom.2⟩

end Cursor

/- Extents behind a cursor, none of them over another. -/
structure Packed (limit : Nat) (cursor : Cursor)
    (extents : List Extent) : Prop where
  file_le : ∀ e ∈ extents, e.file ≤ cursor.file
  finish_le : ∀ e ∈ extents, e.file = cursor.file → e.finish ≤ cursor.offset
  size_pos : ∀ e ∈ extents, 0 < e.size
  apart : extents.Pairwise Extent.Apart
  -- one past the limit has its file to itself
  alone : ∀ e ∈ extents, limit < e.finish → e.start = 0 ∧ extents.filter (·.file = e.file) = [e]

theorem packed_nil (limit : Nat) (cursor : Cursor) : Packed limit cursor [] where
  file_le := forall_mem_nil _
  finish_le := forall_mem_nil _
  size_pos := forall_mem_nil _
  apart := List.Pairwise.nil
  alone := forall_mem_nil _

section

variable {limit size : Nat} {cursor : Cursor} {extents : List Extent}

/- Where a record is placed, everything is behind it. -/
theorem Packed.behind_place (hPacked : Packed limit cursor extents) {e : Extent}
    (hMem : e ∈ extents) :
    e.file ≤ (cursor.place limit size).file ∧
      (e.file = (cursor.place limit size).file → e.finish ≤ (cursor.place limit size).offset) := by
  have hFile := hPacked.file_le e hMem
  rcases cursor.place_cases limit size with ⟨hPlace, _⟩ | ⟨hPlace, _⟩
  · rw [hPlace]
    exact ⟨hFile, hPacked.finish_le e hMem⟩
  · rw [hPlace]
    refine ⟨Nat.le_succ_of_le hFile, fun hSame => ?_⟩
    exact absurd hSame (Nat.ne_of_lt (Nat.lt_succ_of_le hFile))

/- No record follows one that is past the limit. -/
theorem Packed.file_ne_place (hPacked : Packed limit cursor extents) {e : Extent}
    (hMem : e ∈ extents) (hPast : limit < e.finish) : (cursor.place limit size).file ≠ e.file := by
  intro hSame
  have hFile := hPacked.file_le e hMem
  have hFinish := hPacked.finish_le e hMem
  rcases cursor.place_cases limit size with ⟨hPlace, hRoom⟩ | ⟨hPlace, _⟩
  · rw [hPlace] at hSame
    have hBehind := hFinish hSame.symm
    omega
  · rw [hPlace] at hSame
    have hNext : cursor.file + 1 = e.file := hSame
    omega

/- A record past the limit is put into an empty file. -/
theorem Packed.empty_of_past (hPast : limit < (cursor.place limit size).offset + size) :
    (cursor.place limit size).offset = 0 := by
  rcases cursor.place_cases limit size with ⟨hPlace, hRoom⟩ | ⟨hPlace, _⟩
  · rw [hPlace] at hPast ⊢
    omega
  · rw [hPlace]

theorem Packed.push (hPacked : Packed limit cursor extents) (hSize : 0 < size) :
    Packed limit ((cursor.place limit size).advance size)
      ((cursor.place limit size).extent size :: extents) := by
  have hBehind := fun e hMem =>
    @Packed.behind_place limit size _ _ hPacked e hMem
  refine ⟨?_, ?_, ?_, ?_, ?_⟩
  · rw [forall_mem_cons]
    exact ⟨Nat.le_refl _, fun e hMem => (hBehind e hMem).1⟩
  · rw [forall_mem_cons]
    refine ⟨fun _ => Nat.le_refl _, fun e hMem hSame => ?_⟩
    exact Nat.le_trans ((hBehind e hMem).2 hSame) (Nat.le_add_right _ _)
  · rw [forall_mem_cons]
    exact ⟨hSize, hPacked.size_pos⟩
  · rw [pairwise_cons]
    refine ⟨fun e hMem hSame => .inr ?_, hPacked.apart⟩
    exact (hBehind e hMem).2 hSame.symm
  · rw [forall_mem_cons]
    constructor
    · intro hPast
      -- the file is empty, so no other extent is in it
      have hEmpty := Packed.empty_of_past hPast
      refine ⟨hEmpty, ?_⟩
      rw [filter_cons_of_pos (by simp), filter_eq_nil_iff.mpr]
      intro e hMem
      rw [decide_eq_true_eq]
      intro hSame
      have hFinish := (hBehind e hMem).2 hSame
      have hPos := hPacked.size_pos e hMem
      rw [hEmpty, Extent.finish] at hFinish
      omega
    · intro e hMem hPast
      rcases hPacked.alone e hMem hPast with ⟨hStart, hAlone⟩
      refine ⟨hStart, ?_⟩
      rw [filter_cons_of_neg, hAlone]
      rw [decide_eq_true_eq]
      exact hPacked.file_ne_place hMem hPast

end
