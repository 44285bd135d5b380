import Mathlib.Algebra.BigOperators.Group.Finset.Basic
import Mathlib.Algebra.GroupWithZero.Nat
import Mathlib.Data.Finmap

/-
  Finite maps changed by lists: a list of keys is erased, a list of values that carry their keys is
  inserted.

  Key definitions include:
    * `KeyedMap`
    * `KeyedMap.eraseAll` and `KeyedMap.insertAll`
    * `KeyedMap.Keyed`
    * `KeyedMap.total`

  Key theorems include:
    * `KeyedMap.eraseAll_insertAll_comm_iff`, the two changes commute exactly when no key is in both
    * `KeyedMap.total_eraseAll` and `KeyedMap.total_insertAll_le`, what they do to a sum
-/

open List Finmap

/- A finite map with one type of values. -/
abbrev KeyedMap (κ α : Type) := Finmap fun _ : κ => α

namespace KeyedMap

variable {κ α : Type} [DecidableEq κ] {key : α → κ} {values : List α} {m : KeyedMap κ α} {k : κ}

--------
-- Changes
--------

/- Erase every key of a list. -/
def eraseAll (keys : List κ) (m : KeyedMap κ α) : KeyedMap κ α :=
  match keys with
  | [] => m
  | k :: rest => eraseAll rest (m.erase k)

/- Insert every value of a list at its key. -/
def insertAll (key : α → κ) (values : List α) (m : KeyedMap κ α) : KeyedMap κ α :=
  match values with
  | [] => m
  | v :: rest => insertAll key rest (m.insert (key v) v)

theorem lookup_eraseAll (keys : List κ) (m : KeyedMap κ α) (k : κ) :
    (eraseAll keys m).lookup k = if k ∈ keys then none else m.lookup k := by
  induction keys generalizing m with
  | nil => simp [eraseAll]
  | cons first rest ih =>
    rw [eraseAll, ih]
    by_cases hRest : k ∈ rest
    · simp [hRest]
    · by_cases hFst : k = first
      · subst hFst
        simp [hRest]
      · simp [hRest, hFst, lookup_erase_ne]

theorem lookup_insertAll_of_notMem (m : KeyedMap κ α) (hMem : k ∉ values.map key) :
    (insertAll key values m).lookup k = m.lookup k := by
  induction values generalizing m with
  | nil => rfl
  | cons v rest ih =>
    rw [map_cons, mem_cons, not_or] at hMem
    rw [insertAll, ih _ hMem.2, lookup_insert_of_ne m hMem.1]

/- At a key that is inserted the map before says nothing. -/
theorem lookup_insertAll_congr (m m' : KeyedMap κ α) (hMem : k ∈ values.map key) :
    (insertAll key values m).lookup k = (insertAll key values m').lookup k ∧
      ((insertAll key values m).lookup k).isSome := by
  induction values generalizing m m' with
  | nil => cases hMem
  | cons v rest ih =>
    rw [insertAll, insertAll]
    by_cases hRest : k ∈ rest.map key
    · exact ih _ _ hRest
    · have hKey : k = key v := by simpa [hRest] using hMem
      rw [lookup_insertAll_of_notMem _ hRest, lookup_insertAll_of_notMem _ hRest, hKey,
        lookup_insert, lookup_insert]
      exact ⟨rfl, rfl⟩

/- The order matters exactly where a key is in both lists. -/
theorem eraseAll_insertAll_comm_iff
    (key : α → κ) (keys : List κ) (values : List α) (m : KeyedMap κ α) :
    eraseAll keys (insertAll key values m) = insertAll key values (eraseAll keys m) ↔
      ∀ v ∈ values, key v ∉ keys := by
  constructor
  · intro hEq v hValue hKey
    have hInserted :=
      (lookup_insertAll_congr (eraseAll keys m) m (mem_map_of_mem (f := key) hValue)).2
    rw [← hEq, lookup_eraseAll, if_pos hKey] at hInserted
    cases hInserted
  · intro hDisjoint
    apply ext_lookup
    intro k
    rw [lookup_eraseAll]
    by_cases hValues : k ∈ values.map key
    · have hKeys : k ∉ keys := by
        rcases mem_map.mp hValues with ⟨v, hValue, rfl⟩
        exact hDisjoint v hValue
      rw [if_neg hKeys]
      exact (lookup_insertAll_congr _ _ hValues).1
    · rw [lookup_insertAll_of_notMem _ hValues,
        lookup_insertAll_of_notMem _ hValues, lookup_eraseAll]

/- Values that are there already change nothing. -/
theorem insertAll_of_lookup (hThere : ∀ v ∈ values, m.lookup (key v) = some v) :
    insertAll key values m = m := by
  induction values with
  | nil => rfl
  | cons v rest ih =>
    have hSame : m.insert (key v) v = m := by
      apply ext_lookup
      intro k
      by_cases hKey : k = key v
      · rw [hKey, lookup_insert, hThere v mem_cons_self]
      · rw [lookup_insert_of_ne m hKey]
    rw [insertAll, hSame]
    exact ih fun other hOther => hThere other (mem_cons_of_mem _ hOther)

/- Values put in the place of others, and the others back, if what they displace is among those. -/
theorem swap_swap {others : List α} (hThere : ∀ v ∈ values, m.lookup (key v) = some v)
    (hOthers : ∀ v ∈ others, m.lookup (key v) ≠ none → key v ∈ values.map key) :
    insertAll key values (eraseAll (others.map key)
      (insertAll key others (eraseAll (values.map key) m))) = m := by
  apply ext_lookup
  intro k
  by_cases hValues : k ∈ values.map key
  · rw [(lookup_insertAll_congr _ m hValues).1, insertAll_of_lookup hThere]
  · rw [lookup_insertAll_of_notMem _ hValues, lookup_eraseAll]
    by_cases hKeys : k ∈ others.map key
    · rw [if_pos hKeys]
      rcases mem_map.mp hKeys with ⟨v, hMem, rfl⟩
      exact (not_not.mp (mt (hOthers v hMem) hValues)).symm
    · rw [if_neg hKeys, lookup_insertAll_of_notMem _ hKeys, lookup_eraseAll, if_neg hValues]

/- Every value is at its own key. -/
def Keyed (key : α → κ) (m : KeyedMap κ α) : Prop :=
  ∀ k v, m.lookup k = some v → key v = k

theorem Keyed.eraseAll (hKeyed : Keyed key m) (keys : List κ) : Keyed key (eraseAll keys m) := by
  intro k v hLookup
  rw [lookup_eraseAll] at hLookup
  split at hLookup
  · cases hLookup
  · exact hKeyed k v hLookup

theorem Keyed.insertAll (hKeyed : Keyed key m) (values : List α) :
    Keyed key (insertAll key values m) := by
  induction values generalizing m with
  | nil => exact hKeyed
  | cons v rest ih =>
    apply ih
    intro k other hLookup
    by_cases hKey : k = key v
    · subst hKey
      rw [lookup_insert] at hLookup
      rw [Option.some.inj hLookup]
    · rw [lookup_insert_of_ne m hKey] at hLookup
      exact hKeyed k other hLookup

--------
-- Sums
--------

/- The sum of a function over the values. -/
def total (f : α → Nat) (m : KeyedMap κ α) : Nat :=
  ∑ k ∈ m.keys, (m.lookup k).elim 0 f

@[simp] theorem total_empty (f : α → Nat) : total f (∅ : KeyedMap κ α) = 0 := by
  simp [total]

theorem total_erase {f : α → Nat} {v : α} (hLookup : m.lookup k = some v) :
    total f (m.erase k) + f v = total f m := by
  have hKeys : k ∈ m.keys := Finmap.mem_keys.mpr (mem_of_lookup_eq_some hLookup)
  have hSame : total f (m.erase k) = ∑ other ∈ m.keys.erase k, (m.lookup other).elim 0 f := by
    rw [total, keys_erase]
    apply Finset.sum_congr rfl
    intro other hOther
    rw [lookup_erase_ne (Finset.ne_of_mem_erase hOther)]
  rw [hSame, total, ← Finset.sum_erase_add _ _ hKeys, hLookup]
  rfl

theorem total_erase_le (f : α → Nat) (m : KeyedMap κ α) (k : κ) :
    total f (m.erase k) ≤ total f m := by
  cases hLookup : m.lookup k with
  | some v =>
    rw [← total_erase hLookup]
    exact Nat.le_add_right _ _
  | none =>
    have hErase : m.erase k = m := by
      apply ext_lookup
      intro other
      by_cases hOther : other = k
      · rw [hOther, hLookup, lookup_erase]
      · rw [lookup_erase_ne hOther]
    rw [hErase]

theorem total_insert_le (f : α → Nat) (m : KeyedMap κ α) (k : κ) (v : α) :
    total f (m.insert k v) ≤ total f m + f v := by
  have hErase : (m.insert k v).erase k = m.erase k := by
    apply ext_lookup
    intro other
    by_cases hOther : other = k
    · rw [hOther, lookup_erase, lookup_erase]
    · rw [lookup_erase_ne hOther, lookup_erase_ne hOther, lookup_insert_of_ne m hOther]
  rw [← total_erase (lookup_insert m), hErase]
  exact Nat.add_le_add_right (total_erase_le f m k) _

theorem total_insertAll_le (f : α → Nat) (key : α → κ) (values : List α) (m : KeyedMap κ α) :
    total f (insertAll key values m) ≤ total f m + (values.map f).sum := by
  induction values generalizing m with
  | nil => exact Nat.le_refl _
  | cons v rest ih =>
    have hRest := ih (m.insert (key v) v)
    have hFst := total_insert_le f m (key v) v
    rw [insertAll, map_cons, sum_cons]
    omega

theorem total_eraseAll_le (f : α → Nat) (keys : List κ) (m : KeyedMap κ α) :
    total f (eraseAll keys m) ≤ total f m := by
  induction keys generalizing m with
  | nil => exact Nat.le_refl _
  | cons k rest ih => exact Nat.le_trans (ih (m.erase k)) (total_erase_le f m k)

theorem eraseAll_append (first second : List κ) (m : KeyedMap κ α) :
    eraseAll (first ++ second) m = eraseAll second (eraseAll first m) := by
  induction first generalizing m with
  | nil => rfl
  | cons k rest ih => exact ih (m.erase k)

/- Values that are there, at distinct keys, are lost whole. -/
theorem total_eraseAll {f : α → Nat} (hNodup : (values.map key).Nodup)
    (hLookup : ∀ v ∈ values, m.lookup (key v) = some v) :
    total f (eraseAll (values.map key) m) + (values.map f).sum = total f m := by
  induction values generalizing m with
  | nil => rfl
  | cons v rest ih =>
    rw [map_cons, nodup_cons] at hNodup
    have hFst : total f (m.erase (key v)) + f v = _ := total_erase (hLookup v mem_cons_self)
    have hRest : ∀ other ∈ rest, (m.erase (key v)).lookup (key other) = some other := by
      intro other hOther
      have hNe : key other ≠ key v := fun hEq =>
        hNodup.1 (hEq ▸ mem_map_of_mem hOther)
      rw [lookup_erase_ne hNe]
      exact hLookup other (mem_cons_of_mem _ hOther)
    have hSum := ih hNodup.2 hRest
    rw [map_cons, map_cons, sum_cons, eraseAll]
    omega

end KeyedMap
