import Mathlib.Data.List.Basic

/-
  Lists read one self-delimiting chunk at a time.

  Key definitions include:
    * `Lexer`, where the first chunk of a list ends
    * `Lexer.chunks` and `Lexer.rest`
    * `Lexer.keep`, a list without some of its chunks

  Key theorems include:
    * `Lexer.flatten_chunks`, nothing is lost
    * `Lexer.chunks_unique`, there is one way to read a list
    * `Lexer.IsChunk.starts_iff`, where the next chunk starts only that chunk can match
    * `Lexer.chunks_keep`, dropping chunks does not change how the others are read
    * `Lexer.length_keep_ne`, how much shorter the list gets
-/

open List

/-
  Where the first chunk of a list ends, if there is one. The chunk alone decides, not what follows
  it.
-/
structure Lexer (α : Type) where
  width : List α → Option Nat
  width_pos : ∀ {xs : List α} {n : Nat}, width xs = some n → 0 < n
  width_le : ∀ {xs : List α} {n : Nat}, width xs = some n → n ≤ xs.length
  stable : ∀ {xs : List α} {n : Nat}, width xs = some n → ∀ ys, width (xs.take n ++ ys) = some n

namespace Lexer

variable {α : Type} (L : Lexer α)

/- The list is read as one chunk. -/
def IsChunk (chunk : List α) : Prop :=
  L.width chunk = some chunk.length

/- Nothing can be read. -/
def IsRest (xs : List α) : Prop :=
  L.width xs = none

/- The chunks of a list and what is left of it. -/
def split (fuel : Nat) (xs : List α) : List (List α) × List α :=
  match fuel with
  | 0 => ([], xs)
  | fuel + 1 =>
    match L.width xs with
    | none => ([], xs)
    | some n =>
      let (chunks, rest) := split fuel (xs.drop n)
      (xs.take n :: chunks, rest)

def chunks (xs : List α) : List (List α) :=
  (L.split xs.length xs).1

def rest (xs : List α) : List α :=
  (L.split xs.length xs).2

/- The list without the chunks that fail a test. -/
def keep (p : List α → Bool) (xs : List α) : List α :=
  ((L.chunks xs).filter p).flatten ++ L.rest xs

variable {L} {xs chunk : List α} {cs : List (List α)}

--------
-- One Chunk
--------

theorem isRest_nil : L.IsRest [] := by
  rw [IsRest, Option.eq_none_iff_forall_ne_some]
  intro n hWidth
  have hPos := L.width_pos hWidth
  have hLe := L.width_le hWidth
  rw [length_nil] at hLe
  omega

theorem isChunk_take {n : Nat} (hWidth : L.width xs = some n) : L.IsChunk (xs.take n) := by
  have hStable := L.stable hWidth []
  rw [append_nil] at hStable
  rw [IsChunk, hStable, length_take, Nat.min_eq_left (L.width_le hWidth)]

theorem IsChunk.ne_nil (hChunk : L.IsChunk chunk) : chunk ≠ [] :=
  length_pos_iff.mp (L.width_pos hChunk)

theorem IsChunk.width_append (hChunk : L.IsChunk chunk) (ys : List α) :
    L.width (chunk ++ ys) = some chunk.length := by
  have hStable := L.stable hChunk ys
  rwa [take_length] at hStable

/- Where a chunk starts, no other chunk does. -/
theorem IsChunk.starts_iff {other ys : List α} (hChunk : L.IsChunk chunk)
    (hOther : L.IsChunk other) : other <+: chunk ++ ys ↔ other = chunk := by
  constructor
  · rintro ⟨zs, hEq⟩
    have hWidth := hOther.width_append zs
    rw [hEq, hChunk.width_append, Option.some.injEq] at hWidth
    exact (List.append_inj hEq hWidth.symm).1
  · rintro rfl
    exact prefix_append _ _

theorem IsRest.not_starts {rest : List α} (hRest : L.IsRest rest) (hChunk : L.IsChunk chunk) :
    ¬ chunk <+: rest := by
  rintro ⟨zs, rfl⟩
  rw [IsRest, hChunk.width_append] at hRest
  cases hRest

--------
-- All Chunks
--------

/- Reading chunks and a rest gives them back. -/
theorem split_flatten {r : List α} (hChunks : ∀ c ∈ cs, L.IsChunk c) (hRest : L.IsRest r)
    {fuel : Nat} (hFuel : cs.length ≤ fuel) : L.split fuel (cs.flatten ++ r) = (cs, r) := by
  induction cs generalizing fuel with
  | nil =>
    cases fuel with
    | zero => rfl
    | succ fuel => rw [flatten_nil, nil_append, split, hRest]
  | cons c cs ih =>
    rcases forall_mem_cons.mp hChunks with ⟨hHead, hTail⟩
    cases fuel with
    | zero => simp at hFuel
    | succ fuel =>
      rw [length_cons] at hFuel
      rw [flatten_cons, append_assoc, split, hHead.width_append]
      dsimp only
      rw [drop_left, take_left, ih hTail (by omega)]

theorem length_le_of_chunks (hChunks : ∀ c ∈ cs, L.IsChunk c) (r : List α) :
    cs.length ≤ (cs.flatten ++ r).length := by
  induction cs with
  | nil => simp
  | cons c cs ih =>
    rcases forall_mem_cons.mp hChunks with ⟨hHead, hTail⟩
    have hPos := length_pos_iff.mpr hHead.ne_nil
    have hRest := ih hTail
    simp only [flatten_cons, append_assoc, length_append, length_cons] at hRest ⊢
    omega

/- There is one way to read a list. -/
theorem chunks_unique {r : List α} (hChunks : ∀ c ∈ cs, L.IsChunk c) (hRest : L.IsRest r) :
    L.chunks (cs.flatten ++ r) = cs ∧ L.rest (cs.flatten ++ r) = r := by
  have hSplit := split_flatten hChunks hRest (length_le_of_chunks hChunks r)
  rw [chunks, rest, hSplit]
  exact ⟨rfl, rfl⟩

/- By induction on the fuel, which the list's length bounds. -/
theorem split_spec {fuel : Nat} (hFuel : xs.length ≤ fuel) :
    (L.split fuel xs).1.flatten ++ (L.split fuel xs).2 = xs ∧
      (∀ c ∈ (L.split fuel xs).1, L.IsChunk c) ∧ L.IsRest (L.split fuel xs).2 := by
  induction fuel generalizing xs with
  | zero =>
    have hNil : xs = [] := by
      rw [← length_eq_zero_iff]
      omega
    subst hNil
    simp [split, isRest_nil]
  | succ fuel ih =>
    cases hWidth : L.width xs with
    | none =>
      rw [split, hWidth]
      exact ⟨rfl, by simp, hWidth⟩
    | some n =>
      have hPos := L.width_pos hWidth
      have hDrop : (xs.drop n).length ≤ fuel := by
        rw [length_drop]
        omega
      rcases ih hDrop with ⟨hFlat, hChunks, hRest⟩
      rw [split, hWidth]
      dsimp only
      refine ⟨?_, ?_, hRest⟩
      · rw [flatten_cons, append_assoc, hFlat, take_append_drop]
      · exact forall_mem_cons.mpr ⟨isChunk_take hWidth, hChunks⟩

theorem flatten_chunks (xs : List α) : (L.chunks xs).flatten ++ L.rest xs = xs :=
  (split_spec (Nat.le_refl _)).1

theorem isChunk_of_mem {c : List α} (hMem : c ∈ L.chunks xs) : L.IsChunk c :=
  (split_spec (Nat.le_refl _)).2.1 c hMem

theorem isRest_rest (xs : List α) : L.IsRest (L.rest xs) :=
  (split_spec (Nat.le_refl _)).2.2

--------
-- Dropping Chunks
--------

theorem chunks_keep (p : List α → Bool) (xs : List α) :
    L.chunks (L.keep p xs) = (L.chunks xs).filter p ∧ L.rest (L.keep p xs) = L.rest xs :=
  chunks_unique (fun _ hMem => isChunk_of_mem (mem_filter.mp hMem).1) (isRest_rest xs)

theorem keep_keep (p q : List α → Bool) (xs : List α) :
    L.keep p (L.keep q xs) = L.keep (fun c => p c && q c) xs := by
  rcases chunks_keep q xs with ⟨hChunks, hRest⟩
  rw [keep, hChunks, hRest, filter_filter, keep]

/- Each copy of a chunk that is dropped takes its length. -/
theorem length_keep_ne [DecidableEq α] (c xs : List α) :
    (L.keep (· ≠ c) xs).length + (L.chunks xs).count c * c.length = xs.length := by
  have hFlat : ∀ cs : List (List α),
      (cs.filter (· ≠ c)).flatten.length + cs.count c * c.length = cs.flatten.length := by
    intro cs
    induction cs with
    | nil => simp
    | cons d cs ih =>
      by_cases hEq : d = c
      · subst hEq
        rw [filter_cons_of_neg (by simp), count_cons_self, Nat.add_mul, flatten_cons, length_append]
        omega
      · rw [filter_cons_of_pos (by simpa), count_cons_of_ne hEq, flatten_cons,
          flatten_cons, length_append, length_append]
        omega
  have hAll := congrArg List.length (L.flatten_chunks xs)
  have hChunks := hFlat (L.chunks xs)
  rw [length_append] at hAll
  rw [keep, length_append]
  omega

/- A list none of whose chunks is dropped is kept as it is. -/
theorem keep_eq_self {p : List α → Bool} (hAll : ∀ c ∈ L.chunks xs, p c = true) :
    L.keep p xs = xs := by
  rw [keep, filter_eq_self.mpr hAll, flatten_chunks]

end Lexer
