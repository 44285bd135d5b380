import Bitmigo.Lib.Outcome

/-
  Programs over a state: they return, report an error or panic, and leave a state behind in each
  case.

  Key definitions include:
    * `Program`
    * `Program.within`, a program on a part of the state
    * `Program.Keeps`
    * `Program.Ends`, what a program leaves when it returns and when it stops

  Key theorems include:
    * `Program.bind_eq_ok`, what a sequence that returns did
    * `Program.Keeps.bind`, what every step keeps is kept
    * `Program.Ends.bind` and `Program.ends_foldlM`

  What a failed program changed before it failed stays changed, so a method that stops halfway
  through leaves its object half updated.
-/

/- A computation on a state. -/
def Program (σ ε α : Type) := σ → Result ε α × σ

namespace Program

variable {σ τ ε α β : Type}

variable {x : Result ε α × σ} {p q : Program σ ε α} {a : α} {s t : σ} {f : σ → σ}
variable {view : τ → σ} {update : τ → σ → τ}

instance : Monad (Program σ ε) where
  pure a := fun state => (.ok a, state)
  bind p f := fun state =>
    match p state with
    | (.ok a, next) => f a next
    | (.error h, next) => (.error h, next)

/- The state. -/
def get : Program σ ε σ :=
  fun state => (.ok state, state)

/- Change the state. -/
def modify (f : σ → σ) : Program σ ε Unit :=
  fun state => (.ok (), f state)

/- An outcome that leaves the state alone. -/
def lift (x : Result ε α) : Program σ ε α :=
  fun state => (x, state)

/- Report an error. -/
def fail (e : ε) : Program σ ε α :=
  lift (Result.fail e)

/- Panic unless the condition holds. -/
def assert (p : Prop) [Decidable p] : Program σ ε Unit :=
  lift (Result.assert p)

/- The same program, its errors translated. -/
def mapError {δ : Type} (f : δ → ε) (p : Program σ δ α) : Program σ ε α :=
  fun state =>
    let (out, next) := p state
    (out.mapError f, next)

/- A program on the part of the state that `view` shows. -/
def within (view : τ → σ) (update : τ → σ → τ) (p : Program σ ε α) : Program τ ε α :=
  fun state =>
    let (out, part) := p (view state)
    (out, update state part)

--------
-- Programs That Return
--------

@[simp] theorem pure_eq_ok {b : α} {s t : σ} :
    (pure a : Program σ ε α) s = (.ok b, t) ↔ b = a ∧ t = s := by
  show ((.ok a, s) : Result ε α × σ) = (.ok b, t) ↔ _
  rw [Prod.mk.injEq, Except.ok.injEq]
  exact and_congr eq_comm eq_comm

theorem bind_apply (p : Program σ ε α) (f : α → Program σ ε β) (s : σ) :
    (p >>= f) s = match p s with
    | (.ok a, next) => f a next
    | (.error h, next) => (.error h, next) := rfl

/- A sequence returns exactly when both parts return. -/
theorem bind_eq_ok {f : α → Program σ ε β} {b : β} {s t : σ} :
    (p >>= f) s = (.ok b, t) ↔ ∃ a u, p s = (.ok a, u) ∧ f a u = (.ok b, t) := by
  rw [bind_apply]
  rcases p s with ⟨_ | a, next⟩
  · simp
  · constructor
    · intro hNext
      exact ⟨a, next, rfl, hNext⟩
    · rintro ⟨_, _, ⟨⟩, hNext⟩
      exact hNext

/- A sequence goes on from where its first part ends. -/
theorem bind_of_ok (hFst : p s = (.ok a, t)) (f : α → Program σ ε β) : (p >>= f) s = f a t := by
  rw [bind_apply, hFst]

/- A sequence stops in its first part or in the second. -/
theorem bind_cases {f : α → Program σ ε β} {out : Result ε β} (hBind : (p >>= f) s = (out, t)) :
    (∃ h, p s = (.error h, t) ∧ out = .error h) ∨ ∃ a u, p s = (.ok a, u) ∧ f a u = (out, t) := by
  rw [bind_apply] at hBind
  rcases hFst : p s with ⟨h | a, next⟩
  · rw [hFst] at hBind
    cases hBind
    exact .inl ⟨h, rfl, rfl⟩
  · rw [hFst] at hBind
    exact .inr ⟨a, next, rfl, hBind⟩

/- No state makes the program panic. -/
def NeverPanics (p : Program σ ε α) : Prop :=
  ∀ s, ¬ (p s).1.Panics

/- A sequence panics in its first part or in the second. -/
theorem bind_panics {f : α → Program σ ε β} :
    ((p >>= f) s).1.Panics ↔ (p s).1.Panics ∨ ∃ a t, p s = (.ok a, t) ∧ (f a t).1.Panics := by
  rw [bind_apply]
  rcases p s with ⟨_ | a, next⟩
  · simp [Result.Panics]
  · simp [Result.Panics, and_assoc]

theorem neverPanics_lift {x : Result ε α} (hCalm : ¬ x.Panics) :
    (lift x : Program σ ε α).NeverPanics :=
  fun _ => hCalm

theorem neverPanics_pure (a : α) : (pure a : Program σ ε α).NeverPanics := by
  rintro _ ⟨⟩

theorem neverPanics_fail (e : ε) : (fail e : Program σ ε α).NeverPanics := by
  rintro _ ⟨⟩

theorem NeverPanics.bind {f : α → Program σ ε β} (hFst : p.NeverPanics)
    (hNext : ∀ a, (f a).NeverPanics) : (p >>= f).NeverPanics := by
  intro s hPanics
  rcases bind_panics.mp hPanics with hStart | ⟨a, t, _, hLater⟩
  · exact hFst s hStart
  · exact hNext a t hLater

theorem NeverPanics.ite {c : Prop} [Decidable c] (hThen : p.NeverPanics) (hElse : q.NeverPanics) :
    (if c then p else q).NeverPanics := by
  split
  · exact hThen
  · exact hElse

@[simp] theorem get_bind (f : σ → Program σ ε α) (s : σ) :
    (get >>= f) s = f s s := rfl

@[simp] theorem lift_ok_bind (a : α) (f : α → Program σ ε β) (s : σ) :
    (lift (.ok a) >>= f) s = f a s := rfl

theorem assert_bind {p : Prop} [Decidable p] (hHolds : p) (f : Unit → Program σ ε α) (s : σ) :
    (assert p >>= f) s = f () s := by
  rw [assert, Result.assert_of hHolds]
  rfl

@[simp] theorem modify_bind (g : σ → σ) (f : Unit → Program σ ε α) (s : σ) :
    (modify g >>= f) s = f () (g s) := rfl

@[simp] theorem modify_eq_ok {u : Unit} :
    (modify f : Program σ ε Unit) s = (.ok u, t) ↔ t = f s := by
  rw [modify, Prod.mk.injEq, eq_self, true_and]
  exact eq_comm

@[simp] theorem lift_eq_ok {x : Result ε α} {s t : σ} :
    (lift x : Program σ ε α) s = (.ok a, t) ↔ x = .ok a ∧ t = s := by
  rw [lift, Prod.mk.injEq]
  exact and_congr_right fun _ => eq_comm

@[simp] theorem fail_ne_ok {e : ε} {s t : σ} : (fail e : Program σ ε α) s ≠ (.ok a, t) := by
  simp [fail]

@[simp] theorem assert_eq_ok {p : Prop} [Decidable p] {u : Unit} {s t : σ} :
    (assert p : Program σ ε Unit) s = (.ok u, t) ↔ p ∧ t = s := by
  simp [assert]

theorem mapError_of_ok {δ : Type} {p : Program σ δ α} (hOk : p s = (.ok a, t)) (f : δ → ε) :
    mapError f p s = (.ok a, t) := by
  rw [mapError, hOk]
  rfl

theorem within_eq {out : Result ε α} {s t : τ} :
    within view update p s = (out, t) ↔ ∃ part, p (view s) = (out, part) ∧ t = update s part := by
  rw [within]
  rcases p (view s) with ⟨out, part⟩
  simp only [Prod.mk.injEq]
  constructor
  · rintro ⟨rfl, rfl⟩
    exact ⟨part, ⟨rfl, rfl⟩, rfl⟩
  · rintro ⟨_, ⟨rfl, rfl⟩, rfl⟩
    exact ⟨rfl, rfl⟩

/- What a program gave, if it returned, and where it ended. -/
def returned : Result ε α × σ → Result ε (α × σ)
  | (.ok a, s) => .ok (a, s)
  | (.error h, _) => .error h

/- Why a program stopped, if it did, and where. -/
def stopped : Result ε α × σ → Result ε (Halt ε × σ)
  | (.ok _, _) => Result.panicked
  | (.error h, s) => .ok (h, s)

theorem returned_eq_ok {s : σ} : returned x = .ok (a, s) ↔ x = (.ok a, s) := by
  rcases x with ⟨_ | b, t⟩ <;> simp [returned]

theorem stopped_eq_ok {h : Halt ε} {s : σ} : stopped x = .ok (h, s) ↔ x = (.error h, s) := by
  rcases x with ⟨_ | b, t⟩ <;> simp [stopped]

--------
-- What Every Step Keeps
--------

/-
  However the program ends, the state it leaves stands in the relation to the one it started from.
-/
def Keeps (R : σ → σ → Prop) (p : Program σ ε α) : Prop :=
  ∀ s, R s (p s).2

variable {R : σ → σ → Prop}

theorem Keeps.of_eq {out : Result ε α} (hKeeps : p.Keeps R) (hRun : p s = (out, t)) : R s t := by
  have hStep := hKeeps s
  rwa [hRun] at hStep

section

variable (hRefl : ∀ s, R s s)

include hRefl

theorem keeps_lift (x : Result ε α) : (lift x : Program σ ε α).Keeps R :=
  hRefl

theorem keeps_pure (a : α) : (pure a : Program σ ε α).Keeps R :=
  hRefl

theorem keeps_get : (get : Program σ ε σ).Keeps R :=
  hRefl

end

theorem keeps_modify (hStep : ∀ s, R s (f s)) : (modify f : Program σ ε Unit).Keeps R :=
  hStep

theorem Keeps.bind {f : α → Program σ ε β} (hTrans : ∀ s t u, R s t → R t u → R s u)
    (hFst : p.Keeps R) (hNext : ∀ a, (f a).Keeps R) : (p >>= f).Keeps R := by
  intro s
  have hStart := hFst s
  rw [bind_apply]
  generalize p s = out at hStart
  rcases out with ⟨_ | a, next⟩
  · exact hStart
  · exact hTrans s next _ hStart (hNext a next)

theorem Keeps.ite {c : Prop} [Decidable c] (hThen : p.Keeps R) (hElse : q.Keeps R) :
    (if c then p else q).Keeps R := by
  by_cases hHolds : c
  · rwa [if_pos hHolds]
  · rwa [if_neg hHolds]

/- A part that keeps its relation keeps the whole's. -/
theorem Keeps.within {S : τ → τ → Prop} (hPart : p.Keeps R)
    (hWhole : ∀ s part, R (view s) part → S s (update s part)) :
    (within view update p).Keeps S := by
  intro s
  exact hWhole s _ (hPart (view s))

--------
-- What a Program Leaves
--------

/-
  What holds of the result and of the state left behind when the program returns, and what of the
  state alone when it stops on its way.
-/
structure Ends (p : Program σ ε α) (Q : α → σ → Prop) (I : σ → Prop) (s : σ) : Prop where
  returns : ∀ a t, p s = (.ok a, t) → Q a t
  stops : ∀ h t, p s = (.error h, t) → I t

variable {Q : α → σ → Prop} {I : σ → Prop}

theorem Ends.of_eq (hRun : p s = (.ok a, t)) (hDone : Q a t) : p.Ends Q I s where
  returns := by
    intro b u hOther
    cases hRun.symm.trans hOther
    exact hDone
  stops := by
    intro h u hOther
    cases hRun.symm.trans hOther

theorem Ends.mono {R : α → σ → Prop} (hEnds : p.Ends Q I s) (hImp : ∀ a t, Q a t → R a t) :
    p.Ends R I s :=
  ⟨fun a t hRun => hImp a t (hEnds.returns a t hRun), hEnds.stops⟩

theorem ends_lift {x : Result ε α} (hStop : I s) (hNext : ∀ a, x = .ok a → Q a s) :
    (lift x).Ends Q I s where
  returns := by
    intro a t hLift
    rcases lift_eq_ok.mp hLift with ⟨hOk, rfl⟩
    exact hNext a hOk
  stops := by
    rintro _ _ ⟨⟩
    exact hStop

theorem Ends.bind {f : α → Program σ ε β} {Q : β → σ → Prop}
    (hFst : p.Ends (fun a t => (f a).Ends Q I t) I s) : (p >>= f).Ends Q I s where
  returns := by
    intro b t hBind
    rcases bind_eq_ok.mp hBind with ⟨a, u, hStart, hRest⟩
    exact (hFst.returns a u hStart).returns b t hRest
  stops := by
    intro h t hBind
    rcases bind_cases hBind with ⟨halt, hStart, _⟩ | ⟨a, u, hStart, hRest⟩
    · exact hFst.stops halt t hStart
    · exact (hFst.returns a u hStart).stops h t hRest

theorem Ends.within {I : τ → Prop} {Q : α → τ → Prop} {s : τ}
    (hPart : p.Ends (fun a part => Q a (update s part)) (fun part => I (update s part)) (view s)) :
    (within view update p).Ends Q I s where
  returns := by
    intro a t hRun
    rcases within_eq.mp hRun with ⟨part, hStep, rfl⟩
    exact hPart.returns a part hStep
  stops := by
    intro h t hRun
    rcases within_eq.mp hRun with ⟨part, hStep, rfl⟩
    exact hPart.stops h part hStep

/- What a loop has done of its list. -/
theorem ends_foldlM {γ : Type} {f : β → γ → Program σ ε β} {J : List γ → β → σ → Prop}
    (hStep : ∀ done x b t, J done b t → (f b x).Ends (J (done ++ [x])) I t) (xs done : List γ)
    {b : β} (hDone : J done b s) : (xs.foldlM f b).Ends (J (done ++ xs)) I s := by
  induction xs generalizing done b s with
  | nil =>
    rw [List.append_nil]
    exact .of_eq rfl hDone
  | cons x xs ih =>
    refine .bind ((hStep done x b s hDone).mono fun a t hNext => ?_)
    rw [List.append_cons]
    exact ih _ hNext

end Program
