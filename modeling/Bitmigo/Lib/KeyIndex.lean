import Mathlib.Data.List.Destutter
import Mathlib.Data.List.Sort

/-
  An index of the first place of each key: the keys of a list with their places, sorted, one entry
  kept for each key.

  Key definitions include:
    * `KeyIndex.Sorts`, the orders that sort by key and then by place

  Key theorems include:
    * `KeyIndex.map_find?_index`, a search of the index finds the first place of a key in the list
-/

open List

namespace KeyIndex

variable {κ ω : Type} [LinearOrder ω]

/- Sorts by a key, through an order on it, then by place. -/
def Sorts (g : κ → ω) (r : κ × Nat → κ × Nat → Prop) : Prop :=
  Function.Injective g ∧ ∀ a b, r a b ↔ g a.1 < g b.1 ∨ a.1 = b.1 ∧ a.2 ≤ b.2

/- Dropping repeats keeps the first entry of every key. -/
theorem find?_destutter {α : Type} [DecidableEq κ] (f : α → κ) (k : κ) (l : List α) :
    (l.destutter fun a b => f a ≠ f b).find? (fun e => f e = k) = l.find? fun e => f e = k := by
  cases l with
  | nil => rfl
  | cons a l =>
    rw [destutter_cons']
    induction l generalizing a with
    | nil => rfl
    | cons b l ih =>
      by_cases hSame : f a = f b
      · rw [destutter'_cons_neg _ (by simpa using hSame), ih a]
        simp only [find?_cons, hSame]
        by_cases hKey : f b = k
        · simp [hKey]
        · simp [hKey]
      · rw [destutter'_cons_pos _ (by simpa using hSame), find?_cons, ih b]
        rfl

section

variable {g : κ → ω} {r : κ × Nat → κ × Nat → Prop}

theorem Sorts.total (hSorts : Sorts g r) : Std.Total r := by
  constructor
  intro a b
  rw [hSorts.2, hSorts.2]
  rcases lt_trichotomy (g a.1) (g b.1) with hLt | hEq | hGt
  · exact .inl (.inl hLt)
  · have hKey := hSorts.1 hEq
    rcases Nat.le_total a.2 b.2 with hLe | hLe
    · exact .inl (.inr ⟨hKey, hLe⟩)
    · exact .inr (.inr ⟨hKey.symm, hLe⟩)
  · exact .inr (.inl hGt)

theorem Sorts.trans (hSorts : Sorts g r) : IsTrans (κ × Nat) r := by
  constructor
  intro a b c hFst hSnd
  rw [hSorts.2] at hFst hSnd ⊢
  rcases hFst with hFst | ⟨hKey, hPlace⟩
  · rcases hSnd with hSnd | ⟨hKey', _⟩
    · exact .inl (hFst.trans hSnd)
    · exact .inl (hKey' ▸ hFst)
  · rcases hSnd with hSnd | ⟨hKey', hPlace'⟩
    · exact .inl (hKey ▸ hSnd)
    · exact .inr ⟨hKey.trans hKey', hPlace.trans hPlace'⟩

/- The entry found has the least place of its key. -/
theorem le_of_find?_eq_some [DecidableEq κ] (hSorts : Sorts g r) {l : List (κ × Nat)}
    (hSorted : l.Pairwise r) {k : κ} {e other : κ × Nat}
    (hFind : l.find? (fun e => e.1 = k) = some e) (hOther : other ∈ l) (hKey : other.1 = k) :
    e.2 ≤ other.2 := by
  rw [find?_eq_some_iff_append] at hFind
  rcases hFind with ⟨hFound, before, after, rfl, hBefore⟩
  have hFound : e.1 = k := by simpa using hFound
  rcases mem_append.mp hOther with hIn | hIn
  · exact absurd hKey (by simpa using hBefore other hIn)
  · rcases mem_cons.mp hIn with rfl | hAfter
    · exact Nat.le_refl _
    · have hRel := (pairwise_cons.mp (pairwise_append.mp hSorted).2.1).1 other hAfter
      rcases (hSorts.2 _ _).mp hRel with hLt | ⟨_, hLe⟩
      · rw [hFound, hKey] at hLt
        exact absurd hLt (lt_irrefl _)
      · exact hLe

/- A search finds the first place of the key. -/
theorem map_find?_index [DecidableEq κ] [DecidableRel r] (hSorts : Sorts g r)
    (keys : List κ) (k : κ) :
    (((keys.zipIdx.insertionSort r).destutter
        fun a b => a.1 ≠ b.1).find? (fun e => e.1 = k)).map (·.2) =
      keys.findIdx? fun key => key = k := by
  have := hSorts.total
  have := hSorts.trans
  have hSorted := pairwise_insertionSort r keys.zipIdx
  have hMem : ∀ e, e ∈ keys.zipIdx.insertionSort r ↔ keys[e.2]? = some e.1 := by
    intro e
    rw [mem_insertionSort, mem_zipIdx_iff_getElem?]
  rw [find?_destutter Prod.fst k]
  cases hFind : (keys.zipIdx.insertionSort r).find? fun e => e.1 = k with
  | none =>
    rw [find?_eq_none] at hFind
    symm
    rw [Option.map_none, findIdx?_eq_none_iff]
    intro key hKey
    rcases getElem?_of_mem hKey with ⟨place, hPlace⟩
    simpa using hFind (key, place) ((hMem _).mpr hPlace)
  | some e =>
    have hFound : e.1 = k := by simpa using find?_some hFind
    have hPlace := (hMem e).mp (mem_of_find?_eq_some hFind)
    rcases List.getElem?_eq_some_iff.mp hPlace with ⟨hLen, hGet⟩
    symm
    rw [Option.map_some, findIdx?_eq_some_iff_getElem]
    refine ⟨hLen, by simp [hGet, hFound], ?_⟩
    intro place hBefore
    have hBound : place < keys.length := Nat.lt_trans hBefore hLen
    intro hKey
    have hOther := (hMem (keys[place], place)).mpr (getElem?_eq_getElem hBound)
    have hLe := le_of_find?_eq_some hSorts hSorted hFind hOther (by simpa using hKey)
    exact absurd hBefore (Nat.not_lt.mpr hLe)

end

end KeyIndex
