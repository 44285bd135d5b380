import Mathlib.Init

/-
  Streams of frames: a header of fixed length that says how long the payload is, and the payload.

  Key definitions include:
    * `Framing`
    * `Framing.front`, what the front of a stream holds
    * `Framing.parse`, the messages of a whole stream

  Key theorems include:
    * `Framing.front_append`, what is decided stays decided when more arrives
    * `Framing.parse_of_message`, a stream is its first message and the messages of the rest

  A parser that sees a stream a piece at a time holds the bytes of an unfinished frame, and
  `Framing.front` is all it has to know about them.
-/

open List

/- How frames are read: their sizes and their contents. -/
structure Framing (β ε μ : Type) where
  header : Nat
  header_pos : 0 < header
  size : List β → Except ε Nat
  decode : List β → Except ε μ

namespace Framing

/- What the front of a stream holds. -/
inductive Front (ε μ : Type) where
  | more
  | refused (error : ε)
  | message (message : μ) (length : Nat)
  deriving DecidableEq

variable {β ε μ : Type}

/- The first frame of a stream, if it is all there. -/
def front (F : Framing β ε μ) (stream : List β) : Front ε μ :=
  if stream.length < F.header then
    .more
  else
    match F.size (stream.take F.header) with
    | .error error => .refused error
    | .ok size =>
      if stream.length < F.header + size then
        .more
      else
        match F.decode (stream.take (F.header + size)) with
        | .error error => .refused error
        | .ok message => .message message (F.header + size)

/- The messages of a stream, and what it is refused for. -/
def parseFrom (F : Framing β ε μ) :
    Nat → List β → List (μ × Nat) × Option ε
  | 0, _ => ([], none)
  | fuel + 1, stream =>
    match F.front stream with
    | .more => ([], none)
    | .refused error => ([], some error)
    | .message message length =>
      let (messages, error) := F.parseFrom fuel (stream.drop length)
      ((message, length) :: messages, error)

/- A frame is not empty, so there are no more than bytes. -/
def parse (F : Framing β ε μ) (stream : List β) : List (μ × Nat) × Option ε :=
  F.parseFrom stream.length stream

variable {F : Framing β ε μ} {stream : List β} {message : μ} {length : Nat} {error : ε}

--------
-- The Front
--------

theorem front_of_lt (hShort : stream.length < F.header) : F.front stream = .more :=
  if_pos hShort

theorem front_of_refused (hLen : F.header ≤ stream.length)
    (hSize : F.size (stream.take F.header) = .error error) : F.front stream = .refused error := by
  rw [front, if_neg (Nat.not_lt.mpr hLen), hSize]

theorem front_of_size {size : Nat} (hLen : F.header ≤ stream.length)
    (hSize : F.size (stream.take F.header) = .ok size) :
    F.front stream = if stream.length < F.header + size then
        .more
      else
        match F.decode (stream.take (F.header + size)) with
        | .error error => .refused error
        | .ok message =>
          .message message (F.header + size) := by
  rw [front, if_neg (Nat.not_lt.mpr hLen), hSize]

/- A whole message is as long as it says. -/
theorem length_of_front (hFront : F.front stream = .message message length) :
    0 < length ∧ length ≤ stream.length := by
  unfold front at hFront
  split at hFront
  case isTrue => cases hFront
  case isFalse hLong =>
  split at hFront
  case h_1 => cases hFront
  case h_2 size _ =>
  split at hFront
  case isTrue => cases hFront
  case isFalse hWhole =>
  split at hFront
  case h_1 => cases hFront
  case h_2 =>
    cases hFront
    have hPos := F.header_pos
    omega

/- What is decided stays decided when more arrives. -/
theorem front_append (hDecided : F.front stream ≠ .more) (rest : List β) :
    F.front (stream ++ rest) = F.front stream := by
  have hLong : F.header ≤ stream.length := by
    refine Nat.not_lt.mp ?_
    intro hShort
    exact hDecided (front_of_lt hShort)
  have hAll : F.header ≤ (stream ++ rest).length := by
    rw [length_append]
    omega
  have hTake : (stream ++ rest).take F.header = stream.take F.header :=
    take_append_of_le_length hLong
  cases hSize : F.size (stream.take F.header) with
  | error error => rw [front_of_refused hLong hSize, front_of_refused hAll (hTake ▸ hSize)]
  | ok size =>
    rw [front_of_size hLong hSize] at hDecided ⊢
    have hWhole : ¬ stream.length < F.header + size := by
      intro hPart
      exact hDecided (if_pos hPart)
    have hMore : ¬ (stream ++ rest).length < F.header + size := by
      rw [length_append]
      omega
    rw [front_of_size hAll (hTake ▸ hSize), if_neg hWhole, if_neg hMore,
      take_append_of_le_length (Nat.not_lt.mp hWhole)]

--------
-- Whole Streams
--------

/- Fuel for the bytes there are is enough. -/
theorem parseFrom_eq {fuel other : Nat} (hFuel : stream.length ≤ fuel)
    (hOther : stream.length ≤ other) : F.parseFrom fuel stream = F.parseFrom other stream := by
  have hNil : F.front [] = .more := front_of_lt F.header_pos
  induction fuel generalizing other stream with
  | zero =>
    have hEmpty : stream = [] := length_eq_zero_iff.mp (Nat.le_zero.mp hFuel)
    subst hEmpty
    cases other with
    | zero => rfl
    | succ other => rw [parseFrom, parseFrom, hNil]
  | succ fuel ih =>
    cases other with
    | zero =>
      have hEmpty : stream = [] := length_eq_zero_iff.mp (Nat.le_zero.mp hOther)
      subst hEmpty
      rw [parseFrom, parseFrom, hNil]
    | succ other =>
      rw [parseFrom, parseFrom]
      cases hFront : F.front stream with
      | more | refused error => rfl
      | message message length =>
        have hPos := length_of_front hFront
        have hDrop := @List.length_drop β length stream
        dsimp only
        rw [ih (by omega) (show (stream.drop length).length ≤ other by
            omega)]

theorem parse_eq (stream : List β) :
    F.parse stream = match F.front stream with
      | .more => ([], none)
      | .refused error => ([], some error)
      | .message message length =>
        ((message, length) :: (F.parse (stream.drop length)).1,
          (F.parse (stream.drop length)).2) := by
  have hFuel : F.parse stream = F.parseFrom (stream.length + 1) stream :=
    parseFrom_eq (Nat.le_refl _) (Nat.le_succ _)
  rw [hFuel, parseFrom]
  cases hFront : F.front stream with
  | more | refused error => rfl
  | message message length =>
    have hRest : F.parseFrom stream.length (stream.drop length) = F.parse (stream.drop length) :=
      parseFrom_eq (by rw [length_drop]; omega) (Nat.le_refl _)
    dsimp only
    rw [hRest]

/- A stream that ends inside a frame has no message. -/
theorem parse_of_more (hFront : F.front stream = .more) : F.parse stream = ([], none) := by
  rw [parse_eq, hFront]

/- A stream is refused for what its front is refused for. -/
theorem parse_of_refused (hFront : F.front stream = .refused error) (rest : List β) :
    F.parse (stream ++ rest) = ([], some error) := by
  have hDecided : F.front stream ≠ .more := by simp [hFront]
  have hSame := front_append hDecided rest
  rw [parse_eq, hSame, hFront]

/- A stream is its first message and those of the rest. -/
theorem parse_of_message (hFront : F.front stream = .message message stream.length)
    (rest : List β) :
    F.parse (stream ++ rest) =
      ((message, stream.length) :: (F.parse rest).1, (F.parse rest).2) := by
  have hDecided : F.front stream ≠ .more := by simp [hFront]
  have hSame := front_append hDecided rest
  rw [parse_eq, hSame, hFront]
  dsimp only
  rw [drop_left]

end Framing
