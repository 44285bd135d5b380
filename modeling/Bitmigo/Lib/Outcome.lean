import Mathlib.Init

/-
  Outcomes of code that can return, report an error or panic, and computations that record the calls
  they make.

  Key definitions include:
    * `Halt` and `Result`
    * `Result.Safe`
    * `Traced`

  A failed assertion, a failed `expect` and an overflowing checked operation are all `Halt.panic`.
  `Result.Safe x Q` is the partial-correctness triple of this outcome: `x` does not panic, and what
  it returns satisfies `Q`. `Traced` adds to a result the list of calls made on the way to it, which
  is kept when the result is a failure.
-/

open List

--------
-- Results
--------

/- Why a computation stopped: it reported an error, or it panicked. -/
inductive Halt (ε : Type) where
  | error (e : ε)
  | panic
  deriving DecidableEq, Repr

/- The outcome of fallible code. -/
abbrev Result (ε α : Type) := Except (Halt ε) α

namespace Result

variable {δ ε α β : Type} {x y : Result ε α} {f g : α → Result ε β} {e : ε}
variable {Q : α → Prop} {o : Option α} {a : α} {items : List α} {p : Prop}

variable {R : β → Prop}

/- Report an error. -/
def fail (e : ε) : Result ε α :=
  .error (.error e)

/- A failed assertion. -/
def panicked : Result ε α :=
  .error .panic

/- Report `e` unless the condition holds. -/
def ensure (e : ε) (p : Prop) [Decidable p] : Result ε Unit :=
  if p then .ok () else fail e

/- Panic unless the condition holds. -/
def assert (p : Prop) [Decidable p] : Result ε Unit :=
  if p then .ok () else panicked

/- The value of an option, or a panic. -/
def expect : Option α → Result ε α
  | some a => .ok a
  | none => panicked

/- The value of an option, or the error `e`. -/
def orFail (e : ε) : Option α → Result ε α
  | some a => .ok a
  | none => fail e

/- `map_err`: the same outcome, its error translated. -/
def mapError (f : δ → ε) : Result δ α → Result ε α
  | .ok a => .ok a
  | .error (.error e) => fail (f e)
  | .error .panic => panicked

/- The value of a result, where an error is a panic. -/
def expectOk : Result δ α → Result ε α
  | .ok a => .ok a
  | .error _ => panicked

/- A computation that reports no error, where one may. -/
def lift : Result Empty α → Result ε α :=
  mapError Empty.elim

/- An outcome that is not a panic. -/
def ofExcept : Except ε α → Result ε α
  | .ok a => .ok a
  | .error e => fail e

/- The outcome of a stateful call, whose errors carry the state too. -/
def settle {σ : Type} :
    Result (ε × σ) (α × σ) → Result Empty (Except ε α × σ)
  | .ok (a, state) => .ok (.ok a, state)
  | .error (.error (e, state)) => .ok (.error e, state)
  | .error .panic => panicked

/- Did the computation panic? -/
def Panics (x : Result ε α) : Prop :=
  x = .error .panic

/- The computation does not panic, and what it returns satisfies `Q`. -/
def Safe (x : Result ε α) (Q : α → Prop) : Prop :=
  match x with
  | .ok a => Q a
  | .error (.error _) => True
  | .error .panic => False

--------
-- Binding
--------

@[simp] theorem ok_bind (a : α) (f : α → Result ε β) :
    ((Except.ok a : Result ε α) >>= f) = f a := rfl

@[simp] theorem error_bind (h : Halt ε) (f : α → Result ε β) :
    ((Except.error h : Result ε α) >>= f) = .error h := rfl

@[simp] theorem fail_bind (e : ε) (f : α → Result ε β) :
    ((fail e : Result ε α) >>= f) = fail e := rfl

@[simp] theorem panicked_bind (f : α → Result ε β) :
    ((panicked : Result ε α) >>= f) = panicked := rfl

@[simp] theorem pure_eq_ok (a : α) :
    (pure a : Result ε α) = .ok a := rfl

theorem pure_inj {a b : α} : (pure a : Result ε α) = .ok b ↔ a = b := by
  rw [pure_eq_ok, Except.ok.injEq]

@[simp] theorem fail_ne_ok (e : ε) (a : α) : (fail e : Result ε α) ≠ .ok a := by
  simp [fail]

@[simp] theorem panicked_ne_ok (a : α) : (panicked : Result ε α) ≠ .ok a := by
  simp [panicked]

/- A bind returns exactly when both parts return. -/
theorem bind_eq_ok {b : β} : (x >>= f) = .ok b ↔ ∃ a, x = .ok a ∧ f a = .ok b := by
  cases x with
  | ok a | error h => simp

/-
  A bind panics when its first part does, or when its second part does on what the first returned.
-/
theorem bind_panics : (x >>= f).Panics ↔ x.Panics ∨ ∃ a, x = .ok a ∧ (f a).Panics := by
  cases x with
  | ok a | error h => simp [Panics]

@[simp] theorem ensure_true (e : ε) [Decidable True] : ensure e True = .ok () := by
  simp [ensure]

@[simp] theorem ensure_false (e : ε) [Decidable False] : ensure e False = fail e := by
  simp [ensure]

@[simp] theorem assert_true [Decidable True] : (assert True : Result ε Unit) = .ok () := by
  simp [assert]

@[simp] theorem assert_false [Decidable False] : (assert False : Result ε Unit) = panicked := by
  simp [assert]

theorem assert_of [Decidable p] (hHolds : p) : (assert p : Result ε Unit) = .ok () :=
  if_pos hHolds

theorem ensure_of [Decidable p] (hHolds : p) : ensure e p = .ok () :=
  if_pos hHolds

@[simp] theorem expect_some (a : α) :
    (expect (some a) : Result ε α) = .ok a := rfl

@[simp] theorem expect_none :
    (expect none : Result ε α) = panicked := rfl

@[simp] theorem ensure_eq_ok [Decidable p] {u : Unit} : ensure e p = .ok u ↔ p := by
  unfold ensure fail
  split <;> simp_all

@[simp] theorem assert_eq_ok [Decidable p] {u : Unit} : (assert p : Result ε Unit) = .ok u ↔ p := by
  unfold assert panicked
  split <;> simp_all

@[simp] theorem expect_eq_ok : (expect o : Result ε α) = .ok a ↔ o = some a := by
  cases o <;> simp [expect]

@[simp] theorem mapError_eq_ok {f : δ → ε} {x : Result δ α} : mapError f x = .ok a ↔ x = .ok a := by
  rcases x with (_ | _) | _ <;> simp [mapError]

@[simp] theorem lift_ok (a : α) :
    (lift (Except.ok a : Result Empty α) : Result ε α) = .ok a := rfl

@[simp] theorem lift_eq_ok {x : Result Empty α} : (lift x : Result ε α) = .ok a ↔ x = .ok a :=
  mapError_eq_ok

variable {σ : Type}

@[simp] theorem settle_ok (a : α) (state : σ) :
    settle (.ok (a, state) : Result (ε × σ) (α × σ)) = .ok (.ok a, state) := rfl

theorem settle_eq_ok {x : Result (ε × σ) (α × σ)} {state : σ} :
    settle x = .ok (.ok a, state) ↔ x = .ok (a, state) := by
  rcases x with (_ | ⟨_, _⟩) | ⟨_, _⟩ <;> simp [settle, panicked]

@[simp] theorem expectOk_ok (a : α) :
    (expectOk (Except.ok a : Result δ α) : Result ε α) = .ok a := rfl

@[simp] theorem orFail_eq_ok : orFail e o = .ok a ↔ o = some a := by
  cases o <;> simp [orFail]

--------
-- Safe Computations
--------

@[simp] theorem safe_ok :
    Safe (.ok a : Result ε α) Q ↔ Q a := Iff.rfl

@[simp] theorem safe_fail :
    Safe (fail e : Result ε α) Q := trivial

@[simp] theorem safe_error {h : Halt ε} : Safe (.error h : Result ε α) Q ↔ h ≠ .panic := by
  cases h <;> simp [Safe]

@[simp] theorem not_safe_panicked :
    ¬ Safe (panicked : Result ε α) Q := id

@[simp] theorem safe_assert [Decidable p] {Q : Unit → Prop} :
    Safe (assert p : Result ε Unit) Q ↔ p ∧ Q () := by
  unfold assert
  split <;> simp_all

@[simp] theorem safe_ensure [Decidable p] {Q : Unit → Prop} : Safe (ensure e p) Q ↔ (p → Q ()) := by
  unfold ensure
  split <;> simp_all

@[simp] theorem safe_expect : Safe (expect o : Result ε α) Q ↔ ∃ a, o = some a ∧ Q a := by
  cases o <;> simp [expect]

@[simp] theorem safe_orFail : Safe (orFail e o) Q ↔ ∀ a, o = some a → Q a := by
  cases o <;> simp [orFail]

@[simp] theorem safe_mapError {f : δ → ε} {x : Result δ α} : Safe (mapError f x) Q ↔ Safe x Q := by
  rcases x with (_ | _) | _ <;> simp [mapError, Safe, fail, panicked]

theorem safe_ite [Decidable p] :
    Safe (if p then x else y) Q ↔ (p → Safe x Q) ∧ (¬ p → Safe y Q) := by
  split <;> simp_all

/- A branch is safe when each arm is safe under its condition. -/
theorem Safe.ite [Decidable p] (hThen : p → x.Safe Q) (hElse : ¬ p → y.Safe Q) :
    Safe (if p then x else y) Q :=
  safe_ite.mpr ⟨hThen, hElse⟩

/- What a choice returned, one of its branches returned. -/
theorem of_ite_eq_ok {Q : Prop} [Decidable p] (hEq : (if p then x else y) = .ok a)
    (hThen : p → x = .ok a → Q) (hElse : ¬ p → y = .ok a → Q) :
    Q := by
  by_cases hHolds : p
  · exact hThen hHolds (by rwa [if_pos hHolds] at hEq)
  · exact hElse hHolds (by rwa [if_neg hHolds] at hEq)

/- A branch returns when each arm does under its condition. -/
theorem exists_ok_ite [Decidable p] (hThen : p → ∃ a, x = .ok a) (hElse : ¬ p → ∃ a, y = .ok a) :
    ∃ a, (if p then x else y) = .ok a := by
  split
  · exact hThen ‹_›
  · exact hElse ‹_›

/- A bind is safe when its second part is safe after its first. -/
theorem safe_bind {Q : β → Prop} : Safe (x >>= f) Q ↔ Safe x (fun a => Safe (f a) Q) := by
  cases x with
  | ok a => simp
  | error h => cases h <;> simp [Safe]

/- What follows a check may rely on it. -/
theorem safe_ensure_bind [Decidable p] {f : Unit → Result ε β} {Q : β → Prop}
    (hNext : p → (f ()).Safe Q) : (ensure e p >>= f).Safe Q :=
  safe_bind.mpr (safe_ensure.mpr hNext)

theorem Safe.mono {R : α → Prop} (hSafe : x.Safe Q) (hImp : ∀ a, Q a → R a) : x.Safe R := by
  cases x with
  | ok a => exact hImp a hSafe
  | error h => cases h <;> simp_all [Safe]

theorem Safe.bind (hSafe : x.Safe Q) (hNext : ∀ a, Q a → (f a).Safe R) : (x >>= f).Safe R :=
  safe_bind.mpr (hSafe.mono hNext)

/- The continuation may use where its argument came from. -/
theorem Safe.bind_eq (hSafe : x.Safe Q) (hNext : ∀ a, x = .ok a → Q a → (f a).Safe R) :
    (x >>= f).Safe R := by
  cases x with
  | ok a => exact hNext a rfl hSafe
  | error h => cases h <;> simp_all [Safe]

/- A map over a list is safe when each of its steps is. -/
theorem safe_mapM {Q : β → Prop} (hItems : ∀ item ∈ items, (f item).Safe Q) :
    (items.mapM f).Safe
      (fun results => results.length = items.length ∧ ∀ result ∈ results, Q result) := by
  induction items with
  | nil => simp
  | cons item rest ih =>
    rw [mapM_cons]
    refine (hItems item mem_cons_self).bind ?_
    intro first hFst
    refine Safe.bind (ih fun other hOther => hItems other (mem_cons_of_mem _ hOther)) ?_
    rintro others ⟨hLen, hOthers⟩
    simp [hLen, hFst]
    exact hOthers

/- A map over a list returns when each of its steps does. -/
theorem exists_ok_mapM (hItems : ∀ item ∈ items, ∃ b, f item = .ok b) :
    ∃ results, items.mapM f = .ok results := by
  induction items with
  | nil => exact ⟨[], rfl⟩
  | cons item rest ih =>
    rcases forall_mem_cons.mp hItems with ⟨⟨first, hFst⟩, hRest⟩
    rcases ih hRest with ⟨others, hOthers⟩
    rw [mapM_cons, hFst, ok_bind, hOthers, ok_bind]
    exact ⟨first :: others, rfl⟩

/- A fold is safe when each of its steps keeps the invariant. -/
theorem safe_foldlM {f : β → α → Result ε β} {init : β} {I : β → Prop} (hInit : I init)
    (hStep : ∀ item ∈ items, ∀ acc, I acc → (f acc item).Safe I) :
    (items.foldlM f init).Safe I := by
  induction items generalizing init with
  | nil => simpa using hInit
  | cons item rest ih =>
    rw [foldlM_cons]
    refine (hStep item mem_cons_self init hInit).bind ?_
    intro acc hAcc
    exact ih hAcc fun other hOther =>
      hStep other (mem_cons_of_mem _ hOther)

/- A safe computation satisfies its postcondition when it returns. -/
theorem Safe.of_eq_ok (hSafe : x.Safe Q) (hOk : x = .ok a) : Q a := by
  subst hOk
  exact hSafe

theorem Safe.not_panics (hSafe : x.Safe Q) : ¬ x.Panics := by
  intro hPanic
  rwa [hPanic] at hSafe

/- Not panicking is safety with nothing promised of the value. -/
theorem safe_true_iff : x.Safe (fun _ => True) ↔ ¬ x.Panics := by
  cases x with
  | ok a => simp [Panics]
  | error h => cases h <;> simp [Safe, Panics]

/- After a safe computation, only what follows can panic. -/
theorem Safe.bind_panics_iff (hSafe : x.Safe Q) :
    (x >>= f).Panics ↔ ∃ a, x = .ok a ∧ (f a).Panics := by
  rw [bind_panics]
  exact or_iff_right hSafe.not_panics

theorem ensure_bind_panics [Decidable p] {f : Unit → Result ε α} :
    (ensure e p >>= f).Panics ↔ p ∧ (f ()).Panics := by
  by_cases hHolds : p <;> simp [hHolds, Panics, fail]

--------
-- More Permissive Computations
--------

/- Whatever `x` returns, `y` returns too. -/
def Refines (x y : Result ε α) : Prop :=
  ∀ a, x = .ok a → y = .ok a

theorem Refines.refl (x : Result ε α) : x.Refines x :=
  fun _ => id

theorem Refines.bind (hFst : x.Refines y) (hNext : ∀ a, x = .ok a → (f a).Refines (g a)) :
    (x >>= f).Refines (y >>= g) := by
  intro b hOk
  rcases bind_eq_ok.mp hOk with ⟨a, hX, hF⟩
  exact bind_eq_ok.mpr ⟨a, hFst a hX, hNext a hX b hF⟩

/- The computations may differ after a common start. -/
theorem Refines.bind_right (hNext : ∀ a, x = .ok a → (f a).Refines (g a)) :
    (x >>= f).Refines (x >>= g) :=
  (Refines.refl x).bind hNext

theorem Refines.ite [Decidable p] {x' y' : Result ε α} (hThen : p → x.Refines x')
    (hElse : ¬ p → y.Refines y') : Refines (if p then x else y) (if p then x' else y') := by
  by_cases hHolds : p
  · simpa only [if_pos hHolds] using hThen hHolds
  · simpa only [if_neg hHolds] using hElse hHolds

/- A check that asks for less. -/
theorem refines_ensure {q : Prop} [Decidable p] [Decidable q] (hImp : p → q) :
    (ensure e p).Refines (ensure e q) := by
  intro u hOk
  exact ensure_eq_ok.mpr (hImp (ensure_eq_ok.mp hOk))

/- A postcondition may be assumed to come with the equation that produced the value. -/
theorem safe_iff_forall_ok : x.Safe Q ↔ ¬ x.Panics ∧ ∀ a, x = .ok a → Q a := by
  cases x with
  | ok a => simp [Panics]
  | error h => cases h <;> simp [Safe, Panics]

end Result

--------
-- Traced Computations
--------

/- A result together with the calls made on the way to it, in order. -/
structure Traced (τ ε α : Type) where
  out : Result ε α
  trace : List τ

namespace Traced

variable {τ ε α β : Type} {x : Traced τ ε α} {f : α → Traced τ ε β}

instance : Monad (Traced τ ε) where
  pure a := ⟨.ok a, []⟩
  bind x f :=
    match x.out with
    | .ok a => ⟨(f a).out, x.trace ++ (f a).trace⟩
    | .error h => ⟨.error h, x.trace⟩

/- A result that makes no call. -/
instance : MonadLift (Except (Halt ε)) (Traced τ ε) where
  monadLift x := ⟨x, []⟩

/- Record one call. -/
def call (c : τ) : Traced τ ε Unit :=
  ⟨.ok (), [c]⟩

@[simp] theorem out_pure (a : α) :
    (pure a : Traced τ ε α).out = .ok a := rfl

@[simp] theorem trace_pure (a : α) :
    (pure a : Traced τ ε α).trace = [] := rfl

@[simp] theorem out_lift (x : Result ε α) :
    (liftM x : Traced τ ε α).out = x := rfl

@[simp] theorem trace_lift (x : Result ε α) :
    (liftM x : Traced τ ε α).trace = [] := rfl

@[simp] theorem out_call (c : τ) :
    (call c : Traced τ ε Unit).out = .ok () := rfl

@[simp] theorem trace_call (c : τ) :
    (call c : Traced τ ε Unit).trace = [c] := rfl

/- The result of a traced computation does not see the trace. -/
@[simp] theorem out_bind (x : Traced τ ε α) (f : α → Traced τ ε β) :
    (x >>= f).out = x.out >>= fun a => (f a).out := by
  show (match x.out with
    | .ok a => (⟨(f a).out, x.trace ++ (f a).trace⟩ : Traced τ ε β)
    | .error h => ⟨.error h, x.trace⟩).out = _
  cases x.out <;> rfl

@[simp] theorem out_ite {p : Prop} [Decidable p] (x y : Traced τ ε α) :
    (if p then x else y).out = if p then x.out else y.out := by
  split <;> rfl

theorem trace_bind :
    (x >>= f).trace = match x.out with
      | .ok a => x.trace ++ (f a).trace
      | .error _ => x.trace := by
  rcases x with ⟨_ | _, _⟩ <;> rfl

theorem trace_bind_ok {a : α} (hOk : x.out = .ok a) : (x >>= f).trace = x.trace ++ (f a).trace := by
  rw [trace_bind, hOk]

theorem trace_bind_error {h : Halt ε} (hError : x.out = .error h) : (x >>= f).trace = x.trace := by
  rw [trace_bind, hError]

--------
-- Counting Calls
--------

section

variable [DecidableEq τ] {c : τ} {k : Nat} {x : Traced τ ε α} {f : α → Traced τ ε β}

/- How often a computation makes the call `c`. -/
def calls (c : τ) (x : Traced τ ε α) : Nat :=
  x.trace.count c

@[simp] theorem calls_pure (a : α) :
    (pure a : Traced τ ε α).calls c = 0 := rfl

@[simp] theorem calls_lift (x : Result ε α) :
    (liftM x : Traced τ ε α).calls c = 0 := rfl

theorem calls_call_le (d : τ) : (call d : Traced τ ε Unit).calls c ≤ 1 := by
  simpa [calls] using count_le_length (a := c) (l := [d])

theorem calls_call_of_ne {d : τ} (hNe : d ≠ c) : (call d : Traced τ ε Unit).calls c = 0 := by
  simp [calls, hNe]

/- The calls of a bind are those of its two parts. -/
theorem calls_bind_le {n : Nat} (hFst : x.calls c ≤ n)
    (hNext : ∀ a, x.out = .ok a → (f a).calls c ≤ k) : (x >>= f).calls c ≤ n + k := by
  cases hOut : x.out with
  | error h =>
    rw [calls, trace_bind_error hOut]
    exact Nat.le_add_right_of_le hFst
  | ok a =>
    rw [calls, trace_bind_ok hOut, count_append]
    exact Nat.add_le_add hFst (hNext a hOut)

/- A lifted result adds no call. -/
theorem calls_lift_le {x : Result ε α} (hNext : ∀ a, x = .ok a → (f a).calls c ≤ k) :
    (liftM x >>= f : Traced τ ε β).calls c ≤ k := by
  have hBind := calls_bind_le (c := c) (Nat.le_of_eq (calls_lift x)) hNext
  rwa [Nat.zero_add] at hBind

theorem calls_ite_le {p : Prop} [Decidable p] {y : Traced τ ε α} (hThen : p → x.calls c ≤ k)
    (hElse : ¬ p → y.calls c ≤ k) : (if p then x else y).calls c ≤ k := by
  by_cases hHolds : p
  · rw [if_pos hHolds]
    exact hThen hHolds
  · rw [if_neg hHolds]
    exact hElse hHolds

end

end Traced
