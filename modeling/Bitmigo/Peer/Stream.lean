import Bitmigo.Peer.Wire
import Mathlib.Data.List.Induction

/-
  A peer's stream, read to its end: however it is cut, its messages are those of the plain parser.

  Key definitions include:
    * `Arrival`, what one read of the socket meets
    * `Link` and `Link.drive`, a connection and the calls on it
    * `Link.Punctual`, no call comes after the deadline
    * `Link.Began`, when a message's first byte arrived

  Key theorems include:
    * `Link.Open.step`, everything a call can do
    * `stream_framed`, the messages, the error and the buffer of any way to read a stream
    * `late_read_iff`, when a late call ends a message that it leaves unfinished
-/

namespace Bitmigo

open List

--------
-- Calls on a Connection
--------

/- What a read of the socket meets, and when: some bytes that are ready, or a timeout. -/
inductive Arrival where
  | data (now ready : Nat) (hReady : 0 < ready)
  | tick (now : Nat) (kind : ErrorKind) (hTick : kind.isTick = true)

variable {before : List Arrival}

namespace Arrival

def now : Arrival → Nat
  | data now _ _ => now
  | tick now _ _ => now

def isData : Arrival → Bool
  | data _ _ _ => true
  | tick _ _ _ => false

/- How many bytes a read with this room takes at most. -/
def taken (room : Nat) : Arrival → Nat
  | data _ ready _ => min ready room
  | tick _ _ _ => 0

/- What the read gives, of the bytes not yet read. -/
def reading (arrival : Arrival) (unread : Bytes) (room : Nat) : Reading :=
  match arrival with
  | data _ _ _ => .bytes (unread.take (arrival.taken room))
  | tick _ kind _ => .failed kind

end Arrival

/- How the calls on a connection ended. -/
inductive Ending where
  | eof
  | refused (error : WireError)
  | panicked
  deriving DecidableEq

/- A framer, the bytes it has not read, and what it gave. -/
structure Link where
  framer : Framer
  unread : Bytes
  messages : List (NetworkMessage × Nat)
  ending : Option Ending

namespace Link

def start (framer : Framer) (stream : Bytes) : Link where
  framer := framer
  unread := stream
  messages := []
  ending := none

/- The room the next read has. -/
def room (link : Link) : Nat :=
  link.framer.want - link.framer.got

/- What the next call returns, and the framer it leaves. -/
def read
    (deserialize : Bytes → Option NetworkMessage) (cap : Nat) (link : Link) (arrival : Arrival) :
    Result WireError Frame × Framer :=
  Framer.read deserialize (arrival.reading link.unread) arrival.now cap link.framer

/- What is left and what was given after a call. -/
def record (link : Link) (arrival : Arrival) (framer : Framer)
    (out : Result WireError Frame) : Link :=
  let after :=
    { link with
      framer
      unread := link.unread.drop (arrival.taken link.room) }
  match out with
  | .ok (.message message length) =>
    { after with
      messages := link.messages ++ [(message, length)] }
  | .ok .idle => after
  | .ok .eof => { after with ending := some .eof }
  | .error (.error error) =>
    { after with ending := some (.refused error) }
  | .error .panic => { after with ending := some .panicked }

/- One call, unless the calls have ended. -/
def call (deserialize : Bytes → Option NetworkMessage) (cap : Nat) (link : Link)
    (arrival : Arrival) : Link :=
  if link.ending.isSome then
    link
  else
    let (out, framer) := link.read deserialize cap arrival
    link.record arrival framer out

/- One call after another. -/
def drive (deserialize : Bytes → Option NetworkMessage) (cap : Nat) (link : Link)
    (arrivals : List Arrival) : Link :=
  arrivals.foldl (call deserialize cap) link

/- The deadline of the message in progress has not passed. -/
def InTime (link : Link) (arrival : Arrival) : Prop :=
  ∀ started, link.framer.started = some started → arrival.now - started ≤ link.framer.deadline

/- No call comes after the deadline. -/
def Punctual (deserialize : Bytes → Option NetworkMessage) (cap : Nat) (link : Link)
    (arrivals : List Arrival) : Prop :=
  ∀ before arrival after,
    arrivals = before ++ arrival :: after → (link.drive deserialize cap before).InTime arrival

variable {deserialize : Bytes → Option NetworkMessage} {cap bound : Nat} {link : Link}
variable {pending : Bytes} {arrival : Arrival}

theorem drive_concat (before : List Arrival) (arrival : Arrival) :
    link.drive deserialize cap (before ++ [arrival]) =
      (link.drive deserialize cap before).call deserialize cap arrival := by
  simp [drive]

theorem Punctual.init (hTime : link.Punctual deserialize cap (before ++ [arrival])) :
    link.Punctual deserialize cap before := by
  rintro first middle rest rfl
  refine hTime first middle (rest ++ [arrival]) ?_
  simp

theorem Punctual.last (hTime : link.Punctual deserialize cap (before ++ [arrival])) :
    (link.drive deserialize cap before).InTime arrival :=
  hTime before arrival [] rfl

--------
-- What a Call Can Do
--------

/- The calls go on, and the framer holds part of a frame. -/
structure Open (cap bound : Nat) (link : Link)
    (pending : Bytes) : Prop where
  ending : link.ending = none
  holds : link.framer.Holds cap bound pending

/- Everything a call can do to an open connection. -/
inductive Stepped
    (deserialize : Bytes → Option NetworkMessage) (cap bound : Nat) (link : Link) (pending : Bytes)
    (arrival : Arrival) : Link → Prop where
  | waited (hTick : arrival.isData = false) (hTime : link.InTime arrival) :
      Stepped deserialize cap bound link pending arrival link
  | stalled (hTick : arrival.isData = false) (hLate : ¬ link.InTime arrival) :
      Stepped deserialize cap bound link pending arrival
        { link with ending := some (.refused .stalled) }
  | closed (hData : arrival.isData = true) (hNone : link.unread = []) :
      Stepped deserialize cap bound link pending arrival { link with ending := some .eof }
  | grew {data rest : Bytes} {framer : Framer} (hData : arrival.isData = true)
      (hUnread : link.unread = data ++ rest) (hSome : data ≠ [])
      (hFront : (Wire.framing deserialize link.framer.magic cap).front (pending ++ data) = .more)
      (hMagic : framer.magic = link.framer.magic)
      (hDeadline : framer.deadline = link.framer.deadline)
      (hStarted : framer.started = link.framer.started.or (some arrival.now))
      (hHolds : framer.Holds cap bound (pending ++ data)) :
      Stepped deserialize cap bound link pending arrival { link with framer, unread := rest }
  | refused {data rest : Bytes} {framer : Framer} {error : WireError}
      (hData : arrival.isData = true) (hUnread : link.unread = data ++ rest)
      (hFront :
        (Wire.framing deserialize link.framer.magic cap).front (pending ++ data) = .refused error)
      (hBounded : framer.buffer.length ≤ bound) :
      Stepped deserialize cap bound link pending arrival
        { link with
          framer
          unread := rest
          ending := some (.refused error) }
  | finished {data rest : Bytes} {framer : Framer} {message : NetworkMessage}
      (hData : arrival.isData = true) (hUnread : link.unread = data ++ rest) (hSome : data ≠ [])
      (hFront : (Wire.framing deserialize link.framer.magic cap).front
          (pending ++ data) = .message message (pending ++ data).length)
      (hMagic : framer.magic = link.framer.magic)
      (hDeadline : framer.deadline = link.framer.deadline) (hStarted : framer.started = none)
      (hHolds : framer.Holds cap bound []) :
      Stepped deserialize cap bound link pending arrival
        { link with
          framer
          unread := rest
          messages := link.messages ++ [(message, (pending ++ data).length)] }

section

variable (hOpen : link.Open cap bound pending)

include hOpen

/- A call on an open connection, by what `read` returned. -/
theorem Open.call_eq {out : Result WireError Frame} {framer : Framer}
    (hRead : link.read deserialize cap arrival = (out, framer)) :
    link.call deserialize cap arrival = link.record arrival framer out := by
  have hGoes : ¬ link.ending.isSome = true := by
    rw [hOpen.ending]
    exact Bool.false_ne_true
  rw [call, if_neg hGoes, hRead]

theorem Open.room_eq : link.room = link.framer.want - pending.length := by
  rw [room, hOpen.holds.got]

/- A timeout changes nothing, or ends the calls. -/
theorem Open.step_tick (hCap : cap ≤ maxMessageLen) (now : Nat) (kind : ErrorKind)
    (hTick : kind.isTick = true) :
    Stepped deserialize cap bound link pending (.tick now kind hTick)
      (link.call deserialize cap (.tick now kind hTick)) := by
  have hRead : link.read deserialize cap (.tick now kind hTick) =
      (link.framer.afterIdle kind now, link.framer) :=
    hOpen.holds.read_eq hCap _ now
  rw [Framer.afterIdle, if_pos hTick] at hRead
  cases hStarted : link.framer.started with
  | none =>
    rw [hStarted] at hRead
    rw [hOpen.call_eq hRead]
    refine .waited rfl ?_
    intro started hSome
    rw [hStarted] at hSome
    cases hSome
  | some started =>
    rw [hStarted] at hRead
    dsimp only at hRead
    by_cases hLate : link.framer.deadline < now - started
    · rw [if_pos hLate] at hRead
      rw [hOpen.call_eq hRead]
      refine .stalled rfl ?_
      intro hTime
      exact Nat.not_le.mpr hLate (hTime started hStarted)
    · rw [if_neg hLate] at hRead
      rw [hOpen.call_eq hRead]
      refine .waited rfl ?_
      intro other hOther
      rw [hStarted, Option.some.injEq] at hOther
      subst hOther
      exact Nat.not_lt.mp hLate

/- A read gives bytes while there are any. -/
theorem Open.read_data (hCap : cap ≤ maxMessageLen) (hBound : headerBytes + cap ≤ bound)
    (hUnread : link.unread ≠ []) (now ready : Nat) (hReady : 0 < ready) :
    link.unread.take (min ready link.room) ≠ [] ∧
      (link.framer.fill (link.unread.take (min ready link.room)) now).Answers deserialize cap bound
        (pending ++ link.unread.take (min ready link.room))
        (link.read deserialize cap (.data now ready hReady)) := by
  have hRoom := hOpen.room_eq
  have hLt := hOpen.holds.part.lt_want
  have hTaken : 0 < min ready link.room := by omega
  have hSome : link.unread.take (min ready link.room) ≠ [] := by
    rw [Ne, take_eq_nil_iff, not_or]
    exact ⟨hTaken.ne', hUnread⟩
  have hFits :
      (link.unread.take (min ready link.room)).length ≤ link.framer.want - pending.length := by
    rw [length_take]
    omega
  have hSocket : (Arrival.data now ready hReady).reading link.unread
        (link.framer.want - pending.length) = .bytes (link.unread.take (min ready link.room)) := by
    rw [hRoom]
    rfl
  exact ⟨hSome, hOpen.holds.read_bytes hCap hBound now hSocket hSome hFits⟩

/- What a read that gives bytes returns. -/
theorem Open.out_data (hCap : cap ≤ maxMessageLen) (hBound : headerBytes + cap ≤ bound)
    (hUnread : link.unread ≠ []) {now ready : Nat} {hReady : 0 < ready} :
    (link.read deserialize cap (.data now ready hReady)).1 =
      match (Wire.framing deserialize link.framer.magic
          cap).front (pending ++ link.unread.take (min ready link.room)) with
      | .more => .ok .idle
      | .refused error => Result.fail error
      | .message message length =>
        .ok (.message message length) := by
  rcases @Open.read_data deserialize _ _ _ _ hOpen hCap hBound hUnread now ready hReady with
    ⟨_, hAnswers⟩
  have hAnswer := hAnswers.answer
  dsimp only [Framer.fill] at hAnswer
  generalize (Wire.framing deserialize link.framer.magic
    cap).front (pending ++ link.unread.take (min ready link.room)) = front
    at hAnswer ⊢
  cases front with
  | more => exact hAnswer.1
  | refused error => exact hAnswer
  | message message length => exact hAnswer.2.1

/- Bytes are a part of a frame, or the end of one. -/
theorem Open.step_data (hCap : cap ≤ maxMessageLen) (hBound : headerBytes + cap ≤ bound)
    (now ready : Nat) (hReady : 0 < ready) :
    Stepped deserialize cap bound link pending (.data now ready hReady)
      (link.call deserialize cap (.data now ready hReady)) := by
  by_cases hNone : link.unread = []
  · have hRead : link.read deserialize cap (.data now ready hReady) = (.ok .eof, link.framer) := by
      rw [read, hOpen.holds.read_eq hCap, Arrival.reading, hNone, take_nil]
      rfl
    have hSame : link.record (.data now ready hReady) link.framer (.ok .eof) =
          { link with ending := some .eof } := by
      rw [record, hNone, drop_nil, ← hNone]
    rw [hOpen.call_eq hRead, hSame]
    exact .closed rfl hNone
  · have hSplit := (take_append_drop (min ready link.room) link.unread).symm
    rcases @Open.read_data deserialize _ _ _ _ hOpen hCap hBound hNone now ready hReady with
      ⟨hSome, hAnswers⟩
    have hAnswer := hAnswers.answer
    rcases hRead : link.read deserialize cap (.data now ready hReady) with ⟨out, framer⟩
    rw [hOpen.call_eq hRead]
    rw [hRead] at hAnswers hAnswer
    dsimp only at hAnswer
    split at hAnswer
    case h_1 hFront =>
      rcases hAnswer with ⟨rfl, hHolds, hStarted⟩
      exact .grew rfl hSplit hSome hFront hAnswers.magic hAnswers.deadline hStarted hHolds
    case h_2 hFront =>
      subst hAnswer
      exact .refused rfl hSplit hFront hAnswers.bounded
    case h_3 hFront =>
      rcases hAnswer with ⟨rfl, rfl, hHolds, hStarted⟩
      exact .finished rfl hSplit hSome hFront hAnswers.magic hAnswers.deadline hStarted hHolds

theorem Open.step (hCap : cap ≤ maxMessageLen) (hBound : headerBytes + cap ≤ bound)
    (arrival : Arrival) :
    Stepped deserialize cap bound link pending arrival (link.call deserialize cap arrival) := by
  cases arrival with
  | data now ready hReady => exact hOpen.step_data hCap hBound now ready hReady
  | tick now kind hTick => exact hOpen.step_tick hCap now kind hTick

end

/- Nothing is called once the calls have ended. -/
theorem call_of_ended {ending : Ending} (hEnding : link.ending = some ending) :
    link.call deserialize cap arrival = link := by
  rw [call, hEnding]
  rfl

--------
-- Following the Plain Parser
--------

/-
  What has been given and what is left are the messages of the stream. Every read that gave bytes
  gave at least one.
-/
def Tracks (deserialize : Bytes → Option NetworkMessage) (magic : FixedBytes 4) (stream : Bytes)
    (cap bound spent : Nat) (link : Link) : Prop :=
  let F := Wire.framing deserialize magic cap
  match link.ending with
  | none =>
    ∃ pending,
      link.framer.Holds cap bound pending ∧
        link.framer.magic = magic ∧
        spent + link.unread.length ≤ stream.length ∧
        F.parse stream =
          (link.messages ++ (F.parse (pending ++ link.unread)).1,
            (F.parse (pending ++ link.unread)).2)
  | some .eof => F.parse stream = (link.messages, none)
  | some (.refused error) =>
    F.parse stream = (link.messages, some error)
  | some .panicked => False

structure Follows
    (deserialize : Bytes → Option NetworkMessage) (magic : FixedBytes 4) (stream : Bytes)
    (cap bound spent : Nat)
    (link : Link) : Prop where
  bounded : link.framer.buffer.length ≤ bound
  tracks : link.Tracks deserialize magic stream cap bound spent

variable {magic : FixedBytes 4} {stream : Bytes} {spent : Nat}

/- What an open connection does in time follows the parser. -/
theorem Stepped.follows {after : Link} (hEnding : link.ending = none)
    (hHolds : link.framer.Holds cap bound pending)
    (hSpent : spent + link.unread.length ≤ stream.length)
    (hParse : (Wire.framing deserialize link.framer.magic cap).parse stream = (link.messages ++
          ((Wire.framing deserialize link.framer.magic cap).parse (pending ++ link.unread)).1,
        ((Wire.framing deserialize link.framer.magic cap).parse (pending ++ link.unread)).2))
    (hTime : link.InTime arrival)
    (hStep : Stepped deserialize cap bound link pending arrival after) :
    after.Follows deserialize link.framer.magic stream cap
      bound (spent + if arrival.isData then 1 else 0) := by
  cases hStep with
  | waited hTick =>
    refine ⟨hHolds.bounded, ?_⟩
    rw [Tracks, hEnding]
    rw [hTick, if_neg Bool.false_ne_true]
    exact ⟨pending, hHolds, rfl, hSpent, hParse⟩
  | stalled _ hLate => exact absurd hTime hLate
  | closed _ hNone =>
    refine ⟨hHolds.bounded, ?_⟩
    rwa [hNone, append_nil, Framing.parse_of_more hHolds.part.front, append_nil] at hParse
  | @grew data rest framer hData hUnread hSome _ hMagic _ _ hGrown =>
      refine ⟨hGrown.bounded, ?_⟩
      have hPos := length_pos_iff.mpr hSome
      rw [hUnread, length_append] at hSpent
      rw [hUnread, ← append_assoc] at hParse
      rw [Tracks, hData, if_pos rfl]
      dsimp only
      rw [hEnding]
      exact ⟨pending ++ data, hGrown, hMagic, by omega, hParse⟩
  | refused hData hUnread hFront hBounded =>
    refine ⟨hBounded, ?_⟩
    rwa [hUnread, ← append_assoc, Framing.parse_of_refused hFront, append_nil] at hParse
  | @finished data rest framer message hData hUnread hSome hFront hMagic _ _ hFresh =>
      refine ⟨hFresh.bounded, ?_⟩
      have hPos := length_pos_iff.mpr hSome
      rw [hUnread, length_append] at hSpent
      rw [hUnread, ← append_assoc, Framing.parse_of_message hFront] at hParse
      rw [Tracks, hData, if_pos rfl]
      dsimp only
      rw [hEnding]
      refine ⟨[], hFresh, hMagic, by omega, ?_⟩
      rwa [nil_append, append_assoc]

/- One call in time follows the parser. -/
theorem Follows.call (hCap : cap ≤ maxMessageLen) (hBound : headerBytes + cap ≤ bound)
    (hFollows : link.Follows deserialize magic stream cap bound spent)
    (hTime : link.InTime arrival) :
    (link.call deserialize cap arrival).Follows deserialize magic stream cap bound
      (spent + if arrival.isData then 1 else 0) := by
  have hTracks := hFollows.tracks
  unfold Tracks at hTracks
  cases hEnding : link.ending with
  | some ending =>
    rw [call_of_ended hEnding]
    refine ⟨hFollows.bounded, ?_⟩
    unfold Tracks
    rw [hEnding] at hTracks ⊢
    cases ending <;> exact hTracks
  | none =>
    rw [hEnding] at hTracks
    rcases hTracks with ⟨pending, hHolds, rfl, hSpent, hParse⟩
    have hOpen : link.Open cap bound pending := ⟨hEnding, hHolds⟩
    exact (hOpen.step hCap hBound arrival).follows hEnding hHolds hSpent hParse hTime

/- Calls in time follow the parser. -/
theorem Follows.drive (hCap : cap ≤ maxMessageLen) (hBound : headerBytes + cap ≤ bound)
    (hFollows : link.Follows deserialize magic stream cap bound 0) {arrivals : List Arrival}
    (hTime : link.Punctual deserialize cap arrivals) :
    (link.drive deserialize cap arrivals).Follows deserialize magic stream cap bound
      (arrivals.countP Arrival.isData) := by
  induction arrivals using reverseRecOn with
  | nil => exact hFollows
  | append_singleton before arrival ih =>
    rw [drive_concat, countP_append, countP_singleton]
    exact (ih hTime.init).call hCap hBound hTime.last

/- What the calls end with, for what the parser found. -/
def endingOf : Option WireError → Ending
  | none => .eof
  | some error => .refused error

end Link

/-
  However a stream is cut, and whatever timeouts come between its pieces, the calls give the
  messages of the plain parser and end as it does; no assertion fails, and the buffer stays within
  the cap.
-/
theorem stream_framed {deserialize : Bytes → Option NetworkMessage} {magic : FixedBytes 4}
    {initialBytes deadline cap : Nat} {framer : Framer} (hCap : cap ≤ maxMessageLen)
    (hNew : Framer.new magic initialBytes deadline = .ok framer)
    (stream : Bytes) {arrivals : List Arrival}
    (hTime : (Link.start framer stream).Punctual deserialize cap arrivals) :
    let F := Wire.framing deserialize magic cap
    let link := (Link.start framer stream).drive deserialize cap arrivals
    link.ending ≠ some .panicked ∧
      link.framer.buffer.length ≤ max initialBytes (headerBytes + cap) ∧
      (∀ ending, link.ending = some ending →
        link.messages = (F.parse stream).1 ∧ ending = Link.endingOf (F.parse stream).2) ∧
      (stream.length < arrivals.countP Arrival.isData → link.ending.isSome) := by
  intro F link
  rcases Framer.new_eq_ok hNew cap with ⟨hHolds, hMagic, _, _⟩
  have hStart : (Link.start framer stream).Follows deserialize magic
        stream cap (max initialBytes (headerBytes + cap)) 0 :=
    ⟨hHolds.bounded, [], hHolds, hMagic, Nat.le_of_eq (Nat.zero_add _), rfl⟩
  have hFollows := hStart.drive hCap (Nat.le_max_right _ _) hTime
  have hTracks := hFollows.tracks
  unfold Link.Tracks at hTracks
  refine ⟨?_, hFollows.bounded, ?_, ?_⟩
  · intro hPanicked
    rwa [hPanicked] at hTracks
  · intro ending hEnding
    rw [hEnding] at hTracks
    cases ending with
    | eof =>
      rw [show F.parse stream = (link.messages, none) from hTracks]
      exact ⟨rfl, rfl⟩
    | refused error =>
      rw [show F.parse stream = (link.messages, some error) from hTracks]
      exact ⟨rfl, rfl⟩
    | panicked => exact hTracks.elim
  · intro hEnough
    cases hEnding : ((Link.start framer stream).drive deserialize cap arrivals).ending with
    | some ending => rfl
    | none =>
      rw [hEnding] at hTracks
      rcases hTracks with ⟨_, _, _, hSpent, _⟩
      omega

--------
-- The Deadline
--------

namespace Link

variable {deserialize : Bytes → Option NetworkMessage} {cap bound deadline : Nat}
variable {magic : FixedBytes 4} {link : Link} {arrival : Arrival}

/- An open connection times the message it has begun. -/
def Times (magic : FixedBytes 4) (cap bound deadline : Nat) (link : Link) : Prop :=
  link.ending = none →
    link.framer.magic = magic ∧
      link.framer.deadline = deadline ∧
      ∃ pending, link.framer.Holds cap bound pending ∧ (pending = [] → link.framer.started = none)

theorem Times.call (hCap : cap ≤ maxMessageLen) (hBound : headerBytes + cap ≤ bound)
    (hTimes : link.Times magic cap bound deadline) :
    (link.call deserialize cap arrival).Times magic cap bound deadline := by
  intro hAfter
  cases hEnding : link.ending with
  | some ending =>
    rw [call_of_ended hEnding, hEnding] at hAfter
    cases hAfter
  | none =>
    rcases hTimes hEnding with ⟨hMagic, hDeadline, pending, hHolds, hStarted⟩
    have hStep := @Open.step deserialize _ _ _ _ ⟨hEnding, hHolds⟩ hCap hBound arrival
    generalize link.call deserialize cap arrival = after at hStep hAfter
    cases hStep with
    | waited => exact ⟨hMagic, hDeadline, pending, hHolds, hStarted⟩
    | stalled | closed => cases hAfter
    | grew _ _ hSome _ hSame hKept _ hGrown =>
      refine ⟨hSame.trans hMagic, hKept.trans hDeadline, _, hGrown, ?_⟩
      intro hNone
      exact absurd (append_eq_nil_iff.mp hNone).2 hSome
    | refused => cases hAfter
    | finished _ _ _ _ hSame hKept hReset hFresh =>
      exact ⟨hSame.trans hMagic, hKept.trans hDeadline, [], hFresh, fun _ => hReset⟩

theorem Times.drive (hCap : cap ≤ maxMessageLen) (hBound : headerBytes + cap ≤ bound)
    (hTimes : link.Times magic cap bound deadline) (arrivals : List Arrival) :
    (link.drive deserialize cap arrivals).Times magic cap bound deadline := by
  induction arrivals using reverseRecOn with
  | nil => exact hTimes
  | append_singleton before arrival ih =>
    rw [drive_concat]
    exact ih.call hCap hBound

/- A connection that is open was open before. -/
theorem ending_of_call (hAfter : (link.call deserialize cap arrival).ending = none) :
    link.ending = none := by
  cases hEnding : link.ending with
  | none => rfl
  | some ending =>
    rw [call_of_ended hEnding, hEnding] at hAfter
    cases hAfter

/-
  The first byte of the message in progress arrived with `first`: nothing of it was there before,
  and something has been there ever since.
-/
structure Began
    (deserialize : Bytes → Option NetworkMessage) (cap : Nat) (link : Link) (before : List Arrival)
    (first : Arrival)
    (between : List Arrival) : Prop where
  fresh : (link.drive deserialize cap before).framer.got = 0
  ongoing : ∀ part rest, between = part ++ rest →
      0 < (link.drive deserialize cap (before ++ first :: part)).framer.got

section

variable (hCap : cap ≤ maxMessageLen) (hBound : headerBytes + cap ≤ bound)
variable (hTimes : link.Times magic cap bound deadline)

include hCap hBound hTimes

/-
  A call that leaves a message in progress received bytes of it, and starts its clock if they are
  the first, or nothing.
-/
theorem Times.call_going (hGoing : 0 < (link.call deserialize cap arrival).framer.got)
    (hAfter : (link.call deserialize cap arrival).ending = none) :
    link.call deserialize cap arrival = link ∨ (link.call deserialize cap arrival).framer.started =
      link.framer.started.or (some arrival.now) := by
  have hEnding := ending_of_call hAfter
  rcases hTimes hEnding with ⟨_, _, pending, hHolds, _⟩
  have hStep := @Open.step deserialize _ _ _ _ ⟨hEnding, hHolds⟩ hCap hBound arrival
  generalize link.call deserialize cap arrival = after at hStep hAfter hGoing ⊢
  cases hStep with
  | waited => exact .inl rfl
  | stalled | closed => cases hAfter
  | grew _ _ _ _ _ _ hNow _ => exact .inr hNow
  | refused => cases hAfter
  | finished _ _ _ _ _ _ _ hDone => exact absurd hDone.got (Nat.ne_of_gt hGoing)

/- The clock starts with the first byte. -/
theorem Times.started_first (hFresh : link.framer.got = 0)
    (hGoing : 0 < (link.call deserialize cap arrival).framer.got)
    (hAfter : (link.call deserialize cap arrival).ending = none) :
    (link.call deserialize cap arrival).framer.started = some arrival.now := by
  rcases hTimes (ending_of_call hAfter) with ⟨_, _, pending, hHolds, hStarted⟩
  have hEmpty : pending = [] := by
    rw [hHolds.got] at hFresh
    exact length_eq_zero_iff.mp hFresh
  rcases hTimes.call_going hCap hBound hGoing hAfter with hSame | hNow
  · rw [hSame, hFresh] at hGoing
    cases hGoing
  · rw [hNow, hStarted hEmpty, Option.none_or]

/- And it is not started again. -/
theorem Times.started_kept {started : Nat} (hStarted : link.framer.started = some started)
    (hGoing : 0 < (link.call deserialize cap arrival).framer.got)
    (hAfter : (link.call deserialize cap arrival).ending = none) :
    (link.call deserialize cap arrival).framer.started = some started := by
  rcases hTimes.call_going hCap hBound hGoing hAfter with hSame | hNow
  · rw [hSame, hStarted]
  · rw [hNow, hStarted, Option.some_or]

theorem Began.started {between : List Arrival} {first : Arrival}
    (hBegan : link.Began deserialize cap before first between)
    (hOpen : (link.drive deserialize cap (before ++ first :: between)).ending = none) :
    (link.drive deserialize cap (before ++ first :: between)).framer.started = some first.now := by
  induction between using reverseRecOn with
  | nil =>
    have hGoing := hBegan.ongoing [] [] rfl
    rw [drive_concat] at hOpen hGoing ⊢
    exact (hTimes.drive hCap hBound before).started_first hCap hBound hBegan.fresh hGoing hOpen
  | append_singleton part arrival ih =>
    have hGoing := hBegan.ongoing (part ++ [arrival]) [] (append_nil _).symm
    have hJoin :
        before ++ first :: (part ++ [arrival]) = (before ++ first :: part) ++ [arrival] := by
      simp
    rw [hJoin, drive_concat] at hOpen hGoing ⊢
    have hEarlier : link.Began deserialize cap before first part := by
      refine ⟨hBegan.fresh, ?_⟩
      rintro start rest rfl
      exact hBegan.ongoing start (rest ++ [arrival]) (append_assoc _ _ _)
    exact (hTimes.drive hCap hBound _).started_kept hCap
      hBound (ih hEarlier (ending_of_call hOpen)) hGoing
      hOpen

end

end Link

/- A call that leaves the message it works on unfinished. -/
def Unfinished (out : Result WireError Frame) : Prop :=
  out = .ok .idle ∨ out = Result.fail .stalled

/- The bytes a call receives complete the message, or show that it is to be refused. -/
def Decides (deserialize : Bytes → Option NetworkMessage) (cap : Nat) (link : Link)
    (arrival : Arrival) : Prop :=
  (Wire.framing deserialize link.framer.magic cap).front
    (link.framer.buffer.take link.framer.got ++ link.unread.take (arrival.taken link.room)) ≠ .more

/-
  A call after the deadline ends a message that it leaves unfinished exactly when it receives no
  bytes, or none are missing after those it receives.
-/
theorem late_read_iff {deserialize : Bytes → Option NetworkMessage} {magic : FixedBytes 4}
    {initialBytes deadline cap : Nat} {framer : Framer} {stream : Bytes}
    {before between : List Arrival} {first late : Arrival} {link : Link}
    (hCap : cap ≤ maxMessageLen) (hNew : Framer.new magic initialBytes deadline = .ok framer)
    (hBegan : (Link.start framer stream).Began deserialize cap before first between)
    (hLink : (Link.start framer stream).drive deserialize cap (before ++ first :: between) = link)
    (hOpen : link.ending = none) (hGives : late.isData = true → link.unread ≠ [])
    (hLate : deadline < late.now - first.now) :
    (Unfinished (link.read deserialize cap late).1 →
        (link.read deserialize cap late).1 = Result.fail .stalled) ↔
      (late.isData = false ∨ Decides deserialize cap link late) := by
  rcases Framer.new_eq_ok hNew cap with ⟨hFresh, hMagic, hDeadline, hUnstarted⟩
  have hBound : headerBytes + cap ≤ max initialBytes (headerBytes + cap) := Nat.le_max_right _ _
  have hTimes :
      (Link.start framer stream).Times magic cap (max initialBytes (headerBytes + cap)) deadline :=
    fun _ => ⟨hMagic, hDeadline, [], hFresh, fun _ => hUnstarted⟩
  have hDriven := @Link.Times.drive deserialize _ _ _ _ _ hCap
    hBound hTimes (before ++ first :: between)
  have hStarted := hBegan.started hCap hBound hTimes (by rw [hLink]; exact hOpen)
  rw [hLink] at hDriven hStarted
  rcases hDriven hOpen with ⟨_, hKept, pending, hHolds, _⟩
  have hGoing : link.Open cap _ pending := ⟨hOpen, hHolds⟩
  cases late with
  | tick now kind hTick =>
    have hRead : link.read deserialize cap (.tick now kind hTick) =
          (link.framer.afterIdle kind now, link.framer) :=
      hHolds.read_eq hCap _ now
    rw [hRead, Framer.afterIdle, if_pos hTick, hStarted]
    dsimp only
    rw [hKept, if_pos (show deadline < now - first.now from hLate)]
    exact ⟨fun _ => .inl rfl, fun _ _ => rfl⟩
  | data now ready hReady =>
    rw [hGoing.out_data hCap hBound (hGives rfl), Decides, hHolds.held]
    show _ ↔ (true = false ∨
      (Wire.framing deserialize link.framer.magic cap).front
        (pending ++ link.unread.take (min ready link.room)) ≠ .more)
    cases (Wire.framing deserialize link.framer.magic
        cap).front (pending ++ link.unread.take (min ready link.room)) with
    | more =>
      -- more is missing, and the call says nothing of it
      refine ⟨fun hStalled => ?_, ?_⟩
      · cases hStalled (.inl rfl)
      · rintro (hTick | hMore)
        · cases hTick
        · exact absurd rfl hMore
    | refused error =>
      refine ⟨fun _ => .inr (by simp), ?_⟩
      rintro _ (hIdle | hStalled)
      · cases hIdle
      · exact hStalled
    | message message length =>
      refine ⟨fun _ => .inr (by simp), ?_⟩
      rintro _ (hIdle | hStalled)
      · cases hIdle
      · cases hStalled

--------
-- A Peer That Sends a Byte at a Time
--------

namespace SlowPeer

def magic : FixedBytes 4 := ⟨[1, 2, 3, 4], rfl⟩

/- No frame of these examples is complete. -/
def deserialize (_ : Bytes) : Option NetworkMessage := none

/- A framer with a deadline of five. -/
def framer : Framer where
  magic := magic
  buffer := replicate headerBytes 0
  got := 0
  declared := none
  started := none
  deadline := 5

theorem framer_new :
    Framer.new magic headerBytes 5 = .ok framer := rfl

/- The peer sends two bytes. -/
def link : Link := Link.start framer [1, 2]

/- One byte, at the given time. -/
def byteAt (now : Nat) : Arrival :=
  .data now 1 Nat.one_pos

/- The connection after the first byte, at time zero. -/
def begun : Link := link.drive deserialize 0 [byteAt 0]

theorem link_began : link.Began deserialize 0 [] (byteAt 0) [] := by
  refine ⟨rfl, ?_⟩
  rintro part rest hParts
  rw [(nil_eq_append_iff.mp hParts).1]
  decide +kernel

/- A clock that stands still passes no deadline. -/
theorem punctual_of_still {deserialize : Bytes → Option NetworkMessage} {cap : Nat} {link : Link}
    {arrivals : List Arrival} (hStill : ∀ arrival ∈ arrivals, arrival.now = 0) :
    link.Punctual deserialize cap arrivals := by
  rintro before arrival after rfl started _
  rw [hStill arrival (by simp), Nat.zero_sub]
  exact Nat.zero_le _

/- A frame with a payload of three bytes, and the message in it. -/
def command : Bytes := [0x70, 0x69, 0x6e, 0x67] ++ replicate 8 0

def frame : Bytes := magic.val ++ command ++ [3, 0, 0, 0] ++ replicate 4 0 ++ [7, 8, 9]

def unframe (frame : Bytes) : Option NetworkMessage :=
  some (.other ((frame.take 16).drop 4) (frame.drop headerBytes))

/- The frame is cut inside its header and inside its payload, with a pause at each cut. -/
def cut : Link := (Link.start framer frame).drive unframe 8
  [.data 0 10 (Nat.succ_pos 9), .tick 0 .wouldBlock rfl, .data 0 50 (Nat.succ_pos 49), byteAt 0,
    .tick 0 .timedOut rfl, .data 0 2 Nat.two_pos, byteAt 0]

/- The frame arrives whole, and then the stream ends. -/
theorem stream_framed_cut :
    cut.messages = [(.other command [7, 8, 9], 27)] ∧
      cut.ending = some .eof ∧
      cut.messages =
        ((Wire.framing unframe magic 8).parse frame).1 :=
  ⟨rfl, rfl, ((stream_framed (by decide) framer_new frame
    (punctual_of_still (by simp [Arrival.now, byteAt]))).2.2.1 .eof rfl).1⟩

/-
  A second byte, after the deadline: the call received it, the message is not finished, and yet the
  read is idle.
-/
theorem late_read_idle :
    link.Began deserialize 0 [] (byteAt 0) [] ∧
      begun.ending = none ∧
      framer.deadline < (byteAt 10).now - (byteAt 0).now ∧
      (begun.read deserialize 0 (byteAt 10)).1 = .ok .idle :=
  ⟨link_began, rfl, by decide, rfl⟩

/- A timeout at the same time ends the connection. -/
theorem late_read_stalled :
    (begun.read deserialize 0
      (.tick 10 .timedOut rfl)).1 = Result.fail .stalled :=
  (late_read_iff (Nat.zero_le _) framer_new link_began rfl (by decide +kernel)
    (fun hData => absurd hData (by decide))
    (by decide)).mpr (.inl rfl) (.inr rfl)

end SlowPeer

end Bitmigo
