import Bitmigo.Download.Window

/-
  Messages that wait longer than their connection lasts.

  Key definitions include:
    * `PeerRow`, `Schedule` and `ChainThread`, what the chain thread keeps
    * `ChainThread.record`, the handling of one message
    * `NodeState.Step`, connections, what they send and the chain thread
    * `Harmless`, a message that tells the row it is matched to nothing

  Key theorems include:
    * `rows_of_harmless`, what a departed connection sent leaves every row and every connection as
      they were, as long as it is harmless when it is handled

  A row is matched to the connection that is in the slot when a message is handled, not to the one
  that sent it.
-/

namespace Bitmigo

open Result List

--------
-- Rows and Connections
--------

/- Nanoseconds of the monotonic clock. -/
abbrev Instant := Nat

def headersResponseTime : Nat := 120 * 10 ^ 9

def headersTimeoutBase : Nat := 15 * 60 * 10 ^ 9

def headersTimeoutPerHeader : Nat := 10 ^ 6

def stallingTimeoutDefault : Nat := 2 * 10 ^ 9

def maxDeliveredBlocks : Nat := 1024 + peerSlots * maxBlocksInFlight

/- What the schedule knows about one connection. -/
structure PeerRow extends PeerDownload where
  connection : Option Instant
  downloadingSince : Option Instant
  stallingSince : Option Instant
  getheadersAt : Option Instant
  syncStarted : Bool
  syncDeadline : Option Instant
  sendheadersSent : Bool

/- Everything is forgotten but which connection this is. -/
def PeerRow.reset (connection : Option Instant) : PeerRow where
  bestKnown := none
  lastCommon := none
  connection := connection
  downloadingSince := none
  stallingSince := none
  getheadersAt := none
  syncStarted := false
  syncDeadline := none
  sendheadersSent := false

structure Asked extends InFlight where
  requestedAt : Instant

structure Schedule where
  peers : SlotIndex → PeerRow
  inFlight : List (BlockHash × Asked)
  delivered : Finset BlockHash
  stalling : Nat
  spacing : Nat

inductive Disconnect where
  | invalidHeader (error : HeaderError)
  | outboxFull

/-
  What is in a slot. The code tells connections apart by `since`, which two of them may share, and
  not by `id`.
-/
structure Connection where
  id : Nat
  since : Instant
  outbox : List NetworkMessage
  ended : Option Disconnect

abbrev Slots := SlotIndex → Option Connection

/- What the chain thread does to a connection. -/
inductive ConnectionEffect where
  | send (message : NetworkMessage)
  | disconnect (reason : Disconnect)

/- The first reason a connection ends for stays. -/
def Connection.disconnect (reason : Disconnect) (connection : Connection) : Connection :=
  { connection with ended := connection.ended.or (some reason) }

/- An outbox that is full ends its connection. -/
def Connection.undergo (fits : Connection → NetworkMessage → Bool) (connection : Connection) :
    ConnectionEffect → Connection
  | .send message =>
    if fits connection message then
      { connection with outbox := connection.outbox ++ [message] }
    else
      connection.disconnect .outboxFull
  | .disconnect reason => connection.disconnect reason

def Slots.undergo (fits : Connection → NetworkMessage → Bool) (slots : Slots)
    (effect : SlotIndex × ConnectionEffect) : Slots :=
  Function.update slots effect.1 ((slots effect.1).map (·.undergo fits effect.2))

/- The chain thread's own state, and what it has done. -/
structure ChainThread where
  tree : HeaderTree
  schedule : Schedule
  effects : List (SlotIndex × ConnectionEffect)

--------
-- The Handling of a Message
--------

/- `MSG_BLOCK`, `MSG_WITNESS_BLOCK` or `MSG_CMPCT_BLOCK`. -/
def Inventory.namesBlock (item : Inventory) : Bool :=
  item.kind = 2 || item.kind = 0x40000002 || item.kind = 4

/- What a reader hands over, tagged with its slot. -/
inductive Payload where
  | headers (headers : List Header)
  | inv (items : List Inventory)
  | block (hash : BlockHash)

/- What the clocks show while a message is handled. -/
structure Readings where
  now : Instant
  time : BlockTime
  later : BlockTime

def Schedule.forget (schedule : Schedule) (index : SlotIndex) (since : Option Instant) :
    Schedule :=
  { schedule with
    peers := Function.update schedule.peers index (.reset since)
    inFlight := schedule.inFlight.filter fun held => held.2.peer ≠ index }

def Schedule.oldestRequest (schedule : Schedule) (index : SlotIndex) : Option Instant :=
  ((schedule.inFlight.filter fun held => held.2.peer = index).map (·.2.requestedAt)).min?

def Accepted.node : Accepted → NodeId
  | .first node _ => node
  | .duplicate node => node

/- What the peer that sent a header answers for. -/
def AcceptError.peerFault : AcceptError → Option HeaderError
  | .checkHeader error => some error
  | .invalid _ (.acceptHeader error) => some error
  | _ => none

def AcceptError.isUnknownParent : AcceptError → Bool
  | .unknownParent _ => true
  | _ => false

structure HeadersReceived where
  count : Nat
  last : Option NodeId
  unconnecting : Bool

theorem length_allZeros : (replicate 32 (0 : UInt8)).length = 32 :=
  length_replicate

def allZeros : BlockHash :=
  ⟨replicate 32 0, length_allZeros⟩

namespace ChainThread

variable (K : Primitives) (params : ChainParams) (slots : Slots) (clock : Readings)

/- Every look at a row matches it to what is in the slot. -/
def matched (index : SlotIndex) (chain : ChainThread) : ChainThread :=
  let since := (slots index).map (·.since)
  if (chain.schedule.peers index).connection = since then
    chain
  else
    { chain with schedule := chain.schedule.forget index since }

def row (index : SlotIndex) (chain : ChainThread) : PeerRow :=
  (chain.matched slots index).schedule.peers index

def setRow (index : SlotIndex) (change : PeerRow → PeerRow) (chain : ChainThread) : ChainThread :=
  let chain := chain.matched slots index
  { chain with
    schedule.peers :=
      Function.update chain.schedule.peers index (change (chain.schedule.peers index)) }

def act (index : SlotIndex) (effect : ConnectionEffect) (chain : ChainThread) : ChainThread :=
  { chain with effects := chain.effects ++ [(index, effect)] }

/- Ask for headers, unless an answer is still awaited. -/
def sendGetheaders (index : SlotIndex) (start : NodeId) (chain : ChainThread) :
    Result Empty (Bool × ChainThread) :=
  let chain := chain.matched slots index
  if (chain.row slots index).getheadersAt.any (clock.now - · < headersResponseTime) then
    return (false, chain)
  else if (slots index).isNone then
    return (false, chain)
  else do
    let locator ← chain.tree.locator start
    assert (locator ≠ [] ∧ locator.length ≤ maxLocatorEntries)
    let request := .getHeaders locator allZeros
    return (true, (chain.act index (.send request)).setRow slots index fun row =>
      { row with getheadersAt := some clock.now })

/- How long a peer has to answer. -/
def headersDeadline (chain : ChainThread) : Result Empty Nat := do
  let best ← chain.tree.entry chain.tree.bestHeader
  assert (chain.schedule.spacing ≠ 0)
  let behind := clock.later.toNat - best.header.time.toNat
  return headersTimeoutBase +
    headersTimeoutPerHeader * min (behind / max chain.schedule.spacing 1) (2 ^ 32 - 1)

def noteBestKnown (peer : SlotIndex) (node : NodeId) (chain : ChainThread) :
    Result Empty ChainThread := do
  let entry ← chain.tree.entry node
  match (chain.row slots peer).bestKnown with
  | none => return chain.setRow slots peer fun row => { row with bestKnown := some node }
  | some known => do
      let other ← chain.tree.entry known
      return chain.setRow slots peer fun row =>
        if U256.beNat other.chainwork < U256.beNat entry.chainwork then
          { row with bestKnown := some node }
        else
          row

/- Headers enter the tree up to the first that does not. -/
def headersReceived (peer : SlotIndex) (count : Nat) :
    List Header → Option NodeId → ChainThread → Result Empty (HeadersReceived × ChainThread)
  | [], last, chain => return ({ count, last, unconnecting := false }, chain)
  | header :: rest, last, chain => do
      let (outcome, tree) ← settle (chain.tree.accept K header params clock.time)
      let chain := { chain with tree }
      match outcome with
      | .ok accepted => chain.headersReceived peer count rest (some accepted.node)
      | .error error =>
        let unconnecting := last.isNone && error.isUnknownParent
        match error.peerFault, slots peer with
        | some fault, some _ =>
          return ({ count, last, unconnecting },
            chain.act peer (.disconnect (.invalidHeader fault)))
        | _, _ => return ({ count, last, unconnecting }, chain)

def headersAnswered (peer : SlotIndex) (received : HeadersReceived) (chain : ChainThread) :
    Result Empty ChainThread := do
  assert (received.count ≤ maxHeadersItems)
  if received.unconnecting then do
    let (_, chain) ← chain.sendGetheaders slots clock peer chain.tree.bestHeader
    return chain
  else
    let chain := chain.setRow slots peer fun row => { row with getheadersAt := none }
    match received.last with
    | none => return chain.setRow slots peer fun row => { row with syncDeadline := none }
    | some last => do
        let chain ← chain.noteBestKnown slots peer last
        if received.count < maxHeadersItems then
          return chain.setRow slots peer fun row => { row with syncDeadline := none }
        else do
          let (_, chain) ← chain.sendGetheaders slots clock peer last
          if (chain.row slots peer).syncStarted then do
            let allowed ← chain.headersDeadline clock
            return chain.setRow slots peer fun row =>
              { row with syncDeadline := some (clock.now + allowed) }
          else
            return chain.matched slots peer

/- The known hashes of an inventory, and whether all are. -/
def announcedItems (peer : SlotIndex) :
    List Inventory → Bool → ChainThread → Result Empty (Bool × ChainThread)
  | [], unknown, chain => return (unknown, chain)
  | item :: rest, unknown, chain =>
    if item.namesBlock then
      match chain.tree.nodeOf item.hash with
      | some node => do
          let chain ← chain.noteBestKnown slots peer node
          chain.announcedItems peer rest unknown
      | none => chain.announcedItems peer rest true
    else
      chain.announcedItems peer rest unknown

def announced (peer : SlotIndex) (items : List Inventory) (chain : ChainThread) :
    Result Empty ChainThread := do
  assert (items.length ≤ maxInvItems)
  let (unknown, chain) ← chain.announcedItems slots peer items false
  if unknown then do
    let (_, chain) ← chain.sendGetheaders slots clock peer chain.tree.bestHeader
    return chain
  else
    return chain

/- The stalling window shrinks, in whole milliseconds. -/
def decay (stalling : Nat) : Nat :=
  max (min (min (stalling / 10 ^ 6) (2 ^ 32 - 1) * 85) (2 ^ 32 - 1) / 100 * 10 ^ 6)
    stallingTimeoutDefault

def blockReceived (peer : SlotIndex) (hash : BlockHash) (chain : ChainThread) :
    Result Empty ChainThread :=
  match chain.schedule.inFlight.find? (·.1 = hash) with
  | none => return chain
  | some (_, held) => do
      assert (held.peer = peer)
      let schedule :=
        { chain.schedule with
          inFlight := chain.schedule.inFlight.filter (·.1 ≠ hash)
          delivered := insert hash chain.schedule.delivered
          stalling := decay chain.schedule.stalling }
      assert (schedule.delivered.card ≤ maxDeliveredBlocks)
      let next := schedule.oldestRequest peer
      return { chain with schedule }.setRow slots peer fun row =>
        { row with
          stallingSince := none
          downloadingSince :=
            if next.isNone then none
            else if next.all (held.requestedAt ≤ ·) then some clock.now
            else row.downloadingSince }

def record (peer : SlotIndex) (payload : Payload) (chain : ChainThread) :
    Result Empty ChainThread :=
  match payload with
  | .headers headers => do
      assert (headers.length ≤ maxHeadersItems)
      let (received, chain) ←
        chain.headersReceived K params slots clock peer headers.length headers none
      chain.headersAnswered slots clock peer received
  | .inv items => chain.announced slots clock peer items
  | .block hash => chain.blockReceived slots clock peer hash

variable {K params slots clock} {peer : SlotIndex} {chain done : ChainThread}

theorem row_eq (index : SlotIndex) :
    chain.row slots index =
      if (chain.schedule.peers index).connection = (slots index).map (·.since) then
        chain.schedule.peers index
      else
        .reset ((slots index).map (·.since)) := by
  rw [row, matched]
  split
  · rfl
  · exact Function.update_self ..

theorem peers_matched (index : SlotIndex) :
    (chain.matched slots index).schedule.peers =
      Function.update chain.schedule.peers index (chain.row slots index) := by
  rw [row, matched]
  split
  · exact (Function.update_eq_self ..).symm
  · simp [Schedule.forget]

theorem effects_setRow (change : PeerRow → PeerRow) :
    (chain.setRow slots peer change).effects = chain.effects := by
  rw [setRow, matched]
  split <;> rfl

/- A row that is written back is the row that was there. -/
theorem row_setRow (change : PeerRow → PeerRow)
    (hSame : change (chain.row slots peer) = chain.row slots peer) (index : SlotIndex) :
    (chain.setRow slots peer change).row slots index = chain.row slots index := by
  have hPeers : (chain.setRow slots peer change).schedule.peers =
      Function.update chain.schedule.peers peer (chain.row slots peer) := by
    simp [setRow, peers_matched, hSame]
  have hConnection : (chain.row slots peer).connection = (slots peer).map (·.since) := by
    rw [row_eq]
    split
    · assumption
    · rfl
  rw [row_eq, hPeers]
  by_cases hSlot : index = peer
  · subst hSlot
    rw [Function.update_self, if_pos hConnection]
  · rw [Function.update_of_ne hSlot, ← row_eq]

/- What changes no row of the message's slot. -/
def Harmless (row : PeerRow) (inFlight : List (BlockHash × Asked)) : Payload → Prop
  | .headers headers => headers = [] ∧ row.getheadersAt = none ∧ row.syncDeadline = none
  | .inv items => ∀ item ∈ items, item.namesBlock = false
  | .block hash => ∀ held ∈ inFlight, held.1 ≠ hash

theorem announcedItems_of_unnamed {items : List Inventory} {unknown : Bool}
    (hUnnamed : ∀ item ∈ items, item.namesBlock = false) :
    chain.announcedItems slots peer items unknown = .ok (unknown, chain) := by
  induction items with
  | nil => rfl
  | cons item rest ih =>
    rw [forall_mem_cons] at hUnnamed
    rw [announcedItems, hUnnamed.1, if_neg Bool.false_ne_true, ih hUnnamed.2]

theorem blockReceived_of_absent {hash : BlockHash}
    (hAbsent : ∀ held ∈ chain.schedule.inFlight, held.1 ≠ hash) :
    chain.blockReceived slots clock peer hash = .ok chain := by
  rw [blockReceived, find?_eq_none.mpr fun held hHeld => by simpa using hAbsent held hHeld]
  rfl

/- The rows are as they were, and nothing is done to a connection. -/
theorem record_of_harmless {payload : Payload}
    (hHarmless : Harmless (chain.row slots peer) chain.schedule.inFlight payload)
    (hDone : chain.record K params slots clock peer payload = .ok done) :
    (∀ index, done.row slots index = chain.row slots index) ∧ done.effects = chain.effects := by
  cases payload with
  | headers headers =>
    rcases hHarmless with ⟨rfl, hAsked, hDeadline⟩
    have hRecord : chain.record K params slots clock peer (.headers []) =
        .ok ((chain.setRow slots peer fun row => { row with getheadersAt := none }).setRow slots
          peer fun row => { row with syncDeadline := none }) := rfl
    have hFst := row_setRow (fun row => { row with getheadersAt := none }) (by rw [← hAsked])
    have hSnd := row_setRow (fun row => { row with syncDeadline := none })
      (by rw [hFst, ← hDeadline])
    cases hRecord.symm.trans hDone
    exact ⟨fun index => (hSnd index).trans (hFst index), by simp only [effects_setRow]⟩
  | inv items =>
    simp only [record, announced, announcedItems_of_unnamed hHarmless, bind_eq_ok, ok_bind] at hDone
    rcases hDone with ⟨_, _, hDone⟩
    cases hDone
    exact ⟨fun _ => rfl, rfl⟩
  | block hash =>
    cases (blockReceived_of_absent hHarmless).symm.trans hDone
    exact ⟨fun _ => rfl, rfl⟩

end ChainThread

--------
-- The Node
--------

/- A message, its tag and the connection that sent it. -/
structure PeerMessage where
  peer : SlotIndex
  sender : Nat
  payload : Payload

/- `next` counts the connections made. -/
structure NodeState where
  tree : HeaderTree
  schedule : Schedule
  slots : Slots
  queue : List PeerMessage
  next : Nat

def Schedule.new (spacing : Nat) : Schedule where
  peers := fun _ => .reset none
  inFlight := []
  delivered := ∅
  stalling := stallingTimeoutDefault
  spacing := max spacing 1

namespace NodeState

variable (K : Primitives) (params : ChainParams) (fits : Connection → NetworkMessage → Bool)

def start (tree : HeaderTree) (spacing : Nat) : NodeState where
  tree := tree
  schedule := .new spacing
  slots := fun _ => none
  queue := []
  next := 0

def row (s : NodeState) (index : SlotIndex) : PeerRow :=
  ChainThread.row s.slots index ⟨s.tree, s.schedule, []⟩

def ids (s : NodeState) (index : SlotIndex) : Option Nat :=
  (s.slots index).map (·.id)

/- The chain thread takes the first message. -/
def Handles (message : PeerMessage) (s after : NodeState) : Prop :=
  ∃ rest clock done, s.queue = message :: rest ∧
    ChainThread.record K params s.slots clock message.peer message.payload
      ⟨s.tree, s.schedule, []⟩ = .ok done ∧
    after =
      { s with
        tree := done.tree
        schedule := done.schedule
        slots := done.effects.foldl (Slots.undergo fits) s.slots
        queue := rest }

/-
  What can happen next. Slots are emptied and filled at any time, and whatever else the chain thread
  does between two messages moves no connection.
-/
inductive Step : NodeState → NodeState → Prop where
  | forward {s : NodeState} {index : SlotIndex} {connection : Connection} (payload : Payload)
      (hSlot : s.slots index = some connection) :
      Step s { s with queue := s.queue ++ [⟨index, connection.id, payload⟩] }
  | leave {s : NodeState} (index : SlotIndex) :
      Step s { s with slots := Function.update s.slots index none }
  | enter {s : NodeState} {index : SlotIndex} (since : Instant) (hVacant : s.slots index = none) :
      Step s
        { s with
          slots := Function.update s.slots index (some ⟨s.next, since, [], none⟩)
          next := s.next + 1 }
  | pass {s : NodeState} (tree : HeaderTree) (schedule : Schedule) (slots : Slots)
      (hSlots : ∀ index, (slots index).map (·.id) = s.ids index) :
      Step s { s with tree, schedule, slots }
  | handle {s after : NodeState} {message : PeerMessage}
      (hHandles : Handles K params fits message s after) :
      Step s after

/- No message waits that a later connection than the one in its slot sent. -/
structure Ordered (s : NodeState) : Prop where
  ids_lt : ∀ index, ∀ id ∈ s.ids index, id < s.next
  sender_lt : ∀ message ∈ s.queue, message.sender < s.next
  sender_le : ∀ message ∈ s.queue, ∀ id ∈ s.ids message.peer, message.sender ≤ id

variable {K params fits}

/- A connection stays the same connection. -/
theorem ids_undergo (effects : List (SlotIndex × ConnectionEffect)) (slots : Slots)
    (index : SlotIndex) :
    (effects.foldl (Slots.undergo fits) slots index).map (·.id) = (slots index).map (·.id) := by
  induction effects generalizing slots with
  | nil => rfl
  | cons effect rest ih =>
    rw [foldl_cons, ih, Slots.undergo]
    by_cases hSlot : index = effect.1
    · subst hSlot
      rw [Function.update_self, Option.map_map]
      congr 1
      funext connection
      rcases effect with ⟨_, _ | _⟩
      · simp only [Function.comp, Connection.undergo]
        split <;> rfl
      · rfl
    · rw [Function.update_of_ne hSlot]

/- Connections that go and messages that are taken leave the rest in order. -/
theorem Ordered.of_subset {s after : NodeState} (hOrdered : s.Ordered)
    (hIds : ∀ index, ∀ id ∈ after.ids index, id ∈ s.ids index) (hQueue : after.queue ⊆ s.queue)
    (hNext : after.next = s.next) : after.Ordered where
  ids_lt index id hId := hNext ▸ hOrdered.ids_lt index id (hIds index id hId)
  sender_lt message hMem := hNext ▸ hOrdered.sender_lt message (hQueue hMem)
  sender_le message hMem id hId := hOrdered.sender_le message (hQueue hMem) id (hIds _ id hId)

theorem Ordered.step {s after : NodeState} (hOrdered : s.Ordered)
    (hStep : Step K params fits s after) : after.Ordered := by
  cases hStep with
  | forward payload hSlot =>
    have hId : _ ∈ s.ids _ := Option.mem_map_of_mem (·.id) hSlot
    refine ⟨hOrdered.ids_lt, ?_, ?_⟩
    · exact forall_mem_append.mpr
        ⟨hOrdered.sender_lt, forall_mem_singleton.mpr (hOrdered.ids_lt _ _ hId)⟩
    · refine forall_mem_append.mpr
        ⟨hOrdered.sender_le, forall_mem_singleton.mpr fun id hOwn => ?_⟩
      exact (Option.mem_unique hId hOwn).le
  | leave index =>
    refine hOrdered.of_subset (fun other id hId => ?_) (Subset.refl _) rfl
    by_cases hSlot : other = index
    · simp [ids, hSlot] at hId
    · simpa [ids, hSlot] using hId
  | @enter index since hVacant =>
    have hEntered (other : SlotIndex) (id : Nat) (hId : id ∈ ids { s with
            slots := Function.update s.slots index (some ⟨s.next, since, [], none⟩)
            next := s.next + 1 } other) :
        id = s.next ∨ id ∈ s.ids other := by
      by_cases hSlot : other = index
      · left
        simpa [ids, hSlot, eq_comm] using hId
      · right
        simpa [ids, hSlot] using hId
    have hSenders := hOrdered.sender_lt
    refine ⟨fun other id hId => ?_,
      fun message hMessage => Nat.lt_succ_of_lt (hSenders message hMessage),
      fun message hMessage id hId => ?_⟩
    · rcases hEntered other id hId with rfl | hOld
      · exact Nat.lt_succ_self _
      · exact Nat.lt_succ_of_lt (hOrdered.ids_lt other id hOld)
    · rcases hEntered _ id hId with rfl | hOld
      · exact (hSenders message hMessage).le
      · exact hOrdered.sender_le message hMessage id hOld
  | pass tree schedule slots hSlots =>
    exact hOrdered.of_subset (fun index id hId => hSlots index ▸ hId) (Subset.refl _) rfl
  | handle hHandles =>
    rcases hHandles with ⟨rest, clock, done, hFst, _, rfl⟩
    refine hOrdered.of_subset (fun index id hId => ?_) (fun message hMem => ?_) rfl
    · rwa [ids, ids_undergo] at hId
    · rw [hFst]
      exact mem_cons_of_mem _ hMem

theorem ordered_of_run {tree : HeaderTree} {spacing : Nat} {s : NodeState}
    (hRun : Relation.ReflTransGen (Step K params fits) (start tree spacing) s) : s.Ordered := by
  induction hRun with
  | refl => exact ⟨by rintro _ _ ⟨⟩, by rintro _ ⟨⟩, by rintro _ ⟨⟩⟩
  | tail _ hStep ih => exact ih.step hStep

/- The connection in the slot came after the one the message is from. -/
theorem rows_of_harmless {tree : HeaderTree} {spacing : Nat} {s after : NodeState}
    {message : PeerMessage} {connection : Connection}
    (hRun : Relation.ReflTransGen (Step K params fits) (start tree spacing) s)
    (hHandles : Handles K params fits message s after)
    (hSlot : s.slots message.peer = some connection) (hOther : connection.id ≠ message.sender)
    (hHarmless :
      ChainThread.Harmless (s.row message.peer) s.schedule.inFlight message.payload) :
    message.sender < connection.id ∧ (∀ index, after.row index = s.row index) ∧
      after.slots = s.slots := by
  rcases hHandles with ⟨rest, clock, done, hQueue, hDone, rfl⟩
  have hEarlier := (ordered_of_run hRun).sender_le message (hQueue ▸ mem_cons_self)
    connection.id (Option.mem_map_of_mem (·.id) hSlot)
  rcases ChainThread.record_of_harmless hHarmless hDone with ⟨hRows, hEffects⟩
  have hSlots : done.effects.foldl (Slots.undergo fits) s.slots = s.slots := by
    rw [hEffects]
    rfl
  refine ⟨lt_of_le_of_ne hEarlier hOther.symm, fun index => ?_, hSlots⟩
  rw [row, row, ← hRows index]
  simp only [hSlots, ChainThread.row_eq]

end NodeState

namespace SmallChain

theorem peerSlots_pos : 0 < peerSlots := by
  decide

def slot : SlotIndex :=
  ⟨0, peerSlots_pos⟩

def firstIn : Slots :=
  Function.update (fun _ => none) slot (some ⟨0, 1, [], none⟩)

/- It has left, and a second one is in its slot. -/
def replaced : Slots :=
  Function.update (Function.update firstIn slot none) slot (some ⟨1, 2, [], none⟩)

def announcement : Payload :=
  .inv [{ kind := 2, hash := genesisHash }]

/- What the first one sent. -/
def sent (payload : Payload) : PeerMessage where
  peer := slot
  sender := 0
  payload := payload

def readings : Readings where
  now := 3
  time := now
  later := now

/- The node when it is handled. -/
def stale (tree : HeaderTree) (payload : Payload) : NodeState where
  tree := tree
  schedule := .new 600
  slots := replaced
  queue := [sent payload]
  next := 2

def handled (done : ChainThread) : NodeState where
  tree := done.tree
  schedule := done.schedule
  slots := done.effects.foldl (Slots.undergo fun _ _ => true) replaced
  queue := []
  next := 2

theorem handled_returns :
    (do
      let tree ← HeaderTree.withCap crypto.primitives params 8
      let done ← ChainThread.record crypto.primitives params replaced readings slot
        announcement ⟨tree, .new 600, []⟩
      return ((handled done).row slot).bestKnown) =
    (.ok (some 0) : Result Empty (Option NodeId)) := by
  decide +kernel

/- It enters, sends something and leaves; another enters. -/
theorem run_replaced (tree : HeaderTree) (payload : Payload) :
    Relation.ReflTransGen (NodeState.Step crypto.primitives params fun _ _ => true)
      (NodeState.start tree 600) (stale tree payload) := by
  refine .head (b := { NodeState.start tree 600 with slots := firstIn, next := 1 })
    (.enter 1 rfl) ?_
  refine .head (b := { stale tree payload with slots := firstIn, next := 1 })
    (@NodeState.Step.forward _ _ _ _ slot ⟨0, 1, [], none⟩ _ rfl) ?_
  refine .head
    (b := { stale tree payload with slots := Function.update firstIn slot none, next := 1 })
    (.leave slot) ?_
  exact .single (.enter 2 rfl)

/- The second one has been asked for a block and for headers. -/
def busy : Schedule :=
  { Schedule.new 600 with
    peers := fun _ => { PeerRow.reset (some 2) with bestKnown := some 0, getheadersAt := some 2 }
    inFlight := [(rightHash, { peer := slot, requestedAt := 2 })] }

theorem genesis_absent : ∀ held ∈ busy.inFlight, held.1 ≠ genesisHash := by
  decide +kernel

/- A block of the first one comes late, and was not asked for. -/
theorem late_block_changes_no_row :
    ∃ tree s after, Relation.ReflTransGen
        (NodeState.Step crypto.primitives params fun _ _ => true) (NodeState.start tree 600) s ∧
      NodeState.Handles crypto.primitives params (fun _ _ => true) (sent (.block genesisHash)) s
        after ∧
      (s.row slot).getheadersAt = some 2 ∧ (sent (.block genesisHash)).sender < 1 ∧
      (∀ index, after.row index = s.row index) ∧ after.slots = s.slots := by
  have hRet := handled_returns
  simp only [bind_eq_ok] at hRet
  rcases hRet with ⟨tree, _, _⟩
  have hRun := (run_replaced tree (.block genesisHash)).tail
    (.pass tree busy replaced fun _ => rfl)
  have hDone : ChainThread.blockReceived replaced readings slot genesisHash ⟨tree, busy, []⟩ =
      .ok ⟨tree, busy, []⟩ :=
    ChainThread.blockReceived_of_absent genesis_absent
  have hHandles : NodeState.Handles crypto.primitives params (fun _ _ => true)
      (sent (.block genesisHash)) { stale tree (.block genesisHash) with schedule := busy }
      { stale tree (.block genesisHash) with schedule := busy, queue := [] } :=
    ⟨[], readings, ⟨tree, busy, []⟩, rfl, hDone, rfl⟩
  exact ⟨tree, _, _, hRun, hHandles, rfl, NodeState.rows_of_harmless hRun hHandles rfl (by decide)
    genesis_absent⟩

theorem stale_inv_changes_row :
    ∃ tree s after, Relation.ReflTransGen
        (NodeState.Step crypto.primitives params fun _ _ => true) (NodeState.start tree 600) s ∧
      NodeState.Handles crypto.primitives params (fun _ _ => true) (sent announcement) s after ∧
      s.ids slot = some 1 ∧ (sent announcement).sender = 0 ∧
      (s.row slot).bestKnown = none ∧ (after.row slot).bestKnown = some 0 := by
  have hRet := handled_returns
  simp only [bind_eq_ok, pure_inj] at hRet
  rcases hRet with ⟨tree, _, done, hDone, hKnown⟩
  exact ⟨tree, stale tree announcement, handled done, run_replaced tree announcement,
    ⟨[], readings, done, rfl, hDone, rfl⟩, rfl, rfl, rfl, hKnown⟩

end SmallChain

end Bitmigo
