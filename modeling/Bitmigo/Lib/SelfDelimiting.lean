import Mathlib.Data.List.Basic
import Mathlib.Data.Set.Basic

/-
  Codes whose words can be read off the front of a string.

  Key definitions include:
    * `SelfDelimitingOn`

  Key theorems include:
    * `SelfDelimitingOn.flatten_inj`, words written one after the other
    * `SelfDelimitingOn.append`, a word made of two
    * `SelfDelimitingOn.prefixed`, a size and that many letters
-/

open List

variable {α β γ σ : Type*}

/-
  The code is injective on these values, and no word of it is the beginning of another: what follows
  a word starts in one place only.
-/
def SelfDelimitingOn (code : α → List σ) (values : Set α) : Prop :=
  ∀ a ∈ values, ∀ b ∈ values, ∀ rest rest', code a ++ rest = code b ++ rest' → a = b ∧ rest = rest'

namespace SelfDelimitingOn

variable {code : α → List σ} {values : Set α}

theorem mono {fewer : Set α} (hCode : SelfDelimitingOn code values) (hFewer : fewer ⊆ values) :
    SelfDelimitingOn code fewer := by
  intro a hA b hB
  exact hCode a (hFewer hA) b (hFewer hB)

theorem injOn (hCode : SelfDelimitingOn code values) {a b : α} (hA : a ∈ values) (hB : b ∈ values)
    (hEq : code a = code b) : a = b := by
  have hAppend : code a ++ [] = code b ++ [] := by rw [hEq]
  exact (hCode a hA b hB [] [] hAppend).1

/- A list is read off the words of its elements. -/
theorem flatten_inj (hCode : SelfDelimitingOn code values) (hNe : ∀ a, code a ≠ [])
    {as bs : List α} (hAs : ∀ a ∈ as, a ∈ values) (hBs : ∀ b ∈ bs, b ∈ values)
    (hEq : (as.map code).flatten = (bs.map code).flatten) : as = bs := by
  induction as generalizing bs with
  | nil =>
    cases bs with
    | nil => rfl
    | cons b bs => simp [hNe b] at hEq
  | cons a as ih =>
    cases bs with
    | nil => simp [hNe a] at hEq
    | cons b bs =>
      simp only [map_cons, flatten_cons] at hEq
      rcases hCode a (hAs a mem_cons_self) b (hBs b mem_cons_self) _ _ hEq with
        ⟨rfl, hRest⟩
      have hTail : as = bs := ih (fun other hOther => hAs other (mem_cons_of_mem _ hOther))
        (fun other hOther => hBs other (mem_cons_of_mem _ hOther))
        hRest
      rw [hTail]

/- An injective code of one length is self-delimiting. -/
theorem of_length {n : Nat} (hLen : ∀ a ∈ values, (code a).length = n)
    (hInj : Set.InjOn code values) : SelfDelimitingOn code values := by
  intro a hA b hB rest rest' hEq
  have hSame : (code a).length = (code b).length := by rw [hLen a hA, hLen b hB]
  rcases List.append_inj hEq hSame with ⟨hWord, hRest⟩
  exact ⟨hInj hA hB hWord, hRest⟩

/- Two words, one after the other. -/
theorem append {code' : β → List σ} {values' : Set β} (first : γ → α) (second : γ → β)
    (hCode : SelfDelimitingOn code values) (hCode' : SelfDelimitingOn code' values')
    (hPair : ∀ c d, first c = first d → second c = second d → c = d) :
    SelfDelimitingOn (fun c => code (first c) ++ code' (second c))
      { c | first c ∈ values ∧ second c ∈ values' } := by
  rintro c ⟨hC, hC'⟩ d ⟨hD, hD'⟩ rest rest' hEq
  simp only [append_assoc] at hEq
  rcases hCode _ hC _ hD _ _ hEq with ⟨hFst, hEq'⟩
  rcases hCode' _ hC' _ hD' _ _ hEq' with ⟨hSnd, hRest⟩
  exact ⟨hPair c d hFst hSnd, hRest⟩

/- A string after the word for its length. -/
theorem prefixed {size : Nat → List σ} {lengths : Set Nat} (hSize : SelfDelimitingOn size lengths) :
    SelfDelimitingOn (fun string : List σ => size string.length ++ string)
      { string | string.length ∈ lengths } := by
  intro s hS t hT rest rest' hEq
  simp only [append_assoc] at hEq
  rcases hSize _ hS _ hT _ _ hEq with ⟨hLen, hEq'⟩
  exact List.append_inj hEq' hLen

end SelfDelimitingOn
