/-
# The two loops on the shared memory

`runUdp` once more, now access by access: each thread stands in front of its next access to the
shared memory, and what it loads may be out of date. The receive loops and the matching loop
say which accesses a thread makes and in which order. They keep to the rules on which the
sharing rests: a thread uses a slot only while it is in its hand, begins no call inside another
one and pushes what it holds. So no access is ever held back by those rules, and what was shown
of the memory holds of `runUdp`.

The stop flag is loaded relaxed, so a thread may go on for any time after it was set. Which
packets the feed carries is a parameter, so that an assumption on the feed can be made where
it is needed.
-/

import Orderbook.Feed.MemorySafety

namespace Orderbook

open Orderbook.Math

/-- The threads of `runUdp` and what they share. -/
structure WeakPipeline where
  memory : UdpMemory
  stop : Bool := false
  network : NetworkPc := .setUp
  feed : FeedState := {}
  matching : MatchingPc := .popping 0

def WeakPipeline.initial (numSlots capacity : ℕ) : WeakPipeline where
  memory := .initial numSlots capacity

/-- What the network thread does by itself, and what it reads from the stop flag. -/
inductive LocalStep (port : UInt16) (carried : List UInt8 → Prop) (stop : Bool) :
    NetworkPc → FeedState → NetworkPc → FeedState → Prop
  | setUp (useXdp : Bool) (feed : FeedState) :
      LocalStep port carried stop .setUp feed (.testing useXdp) feed
  | setUpFailed (feed : FeedState) : LocalStep port carried stop .setUp feed .finished feed
  | stopped (useXdp : Bool) (feed : FeedState) (hstop : stop = true) :
      LocalStep port carried stop (.testing useXdp) feed .finished feed
  | loop (useXdp : Bool) (feed : FeedState) :
      LocalStep port carried stop (.testing useXdp) feed
        (if useXdp then .peeking else .acquiring) feed
  | drain (recv : RecvResult) (feed : FeedState) :
      LocalStep port carried stop .draining feed (.testing false) (feed.drain recv)
  | interrupted (slotIdx : UInt32) (feed : FeedState) :
      LocalStep port carried stop (.receiving slotIdx) feed
        (.releasing slotIdx (.again .socket)) feed
  | recvFailed (slotIdx : UInt32) (feed : FeedState) :
      LocalStep port carried stop (.receiving slotIdx) feed (.releasing slotIdx .leave) feed
  | peek (tWire : UInt64) (frames : List (List UInt8)) (feed : FeedState)
      (hbatch : frames.length ≤ kBatchSize) :
      LocalStep port carried stop .peeking feed (.scanning tWire frames) feed
  | batchDone (tWire : UInt64) (feed : FeedState) :
      LocalStep port carried stop (.scanning tWire []) feed (.testing true) feed
  | skip (tWire : UInt64) (frame : List UInt8) (frames : List (List UInt8)) (feed : FeedState)
      (hnone : moldPacket port frame = none) :
      LocalStep port carried stop (.scanning tWire (frame :: frames)) feed
        (.scanning tWire frames) feed
  | scan (tWire : UInt64) (frame : List UInt8) (frames : List (List UInt8))
      (moldPkt : List UInt8) (feed feed' : FeedState) (verdict : Verdict)
      (hsome : moldPacket port frame = some moldPkt)
      (hcarried : carried moldPkt)
      (htrack : (feed.countReceived moldPkt.length).track (parseMoldHeader (.ofList moldPkt)) =
        (feed', verdict)) :
      LocalStep port carried stop (.scanning tWire (frame :: frames)) feed
        (afterScan moldPkt tWire frames verdict) feed'
  | waitStopped (tWire : UInt64) (feed : FeedState) (hstop : stop = true) :
      LocalStep port carried stop (.waiting tWire) feed .finished feed
  | waitOn (tWire : UInt64) (feed : FeedState) :
      LocalStep port carried stop (.waiting tWire) feed (.sealing tWire) feed

/-- Where an access of `acquire` leaves the network thread. -/
def NetworkPc.afterAcquire (pc : NetworkPc) (feed : FeedState) :
    Option UdpEvent → NetworkPc × FeedState
  | some (.acquired idx) =>
      match pc with
      | .claiming moldPkt tWire frames => (.copying idx moldPkt tWire frames, feed)
      | _ => (.receiving idx, feed)
  | some .exhausted =>
      match pc with
      | .claiming _ tWire frames => (.scanning tWire frames, feed.countDropped)
      | _ => (.draining, feed)
  | _ => (pc, feed)

/-- Where an access of the push of a packet leaves the network thread. -/
def afterPush (ref : PacketRef) (resume : Resume) (feed : FeedState) :
    Option UdpEvent → NetworkPc × FeedState
  | some (.pushed _ _) => (resume.pc, feed)
  | some (.refused _) => (.releasing ref.poolIdx (.again resume), feed.countDropped)
  | _ => (.pushing ref resume, feed)

/-- Where an access of the push of the sentinel leaves the network thread. -/
def afterSeal (tWire : UInt64) (feed : FeedState) : Option UdpEvent → NetworkPc × FeedState
  | some (.pushed ref _) => (.finished, { feed with sentinel := some ref })
  | some (.refused _) => (.waiting tWire, feed)
  | _ => (.sealing tWire, feed)

/-- Where an access of `release` leaves the network thread. -/
def afterRelease (slotIdx : UInt32) (next : AfterRelease) : Option UdpEvent → NetworkPc
  | some (.released _ _) => next.pc
  | _ => .releasing slotIdx next

/-- Where an access of `pop` leaves the matching thread. -/
def afterPop (spinBudget : ℕ) : Option UdpEvent → MatchingPc
  | some (.popped ref) => if ref.poolIdx = kPoolInvalid then .stopping else .walking ref
  | some .empty => if spinBudget + 1 ≥ 1024 then .checking else .popping (spinBudget + 1)
  | _ => .popping spinBudget

/-- Where an access of `release` leaves the matching thread. -/
def afterReturn (slotIdx : UInt32) : Option UdpEvent → MatchingPc
  | some (.released _ _) => .popping 0
  | _ => .releasing slotIdx

/-- The accesses of the network thread. -/
inductive NetworkAccess (carried : List UInt8 → Prop) (pipe : WeakPipeline) :
    WeakPipeline → Option UdpEvent → Prop
  | acquire (age : ℕ) (spurious : Bool) (memory : UdpMemory) (event : Option UdpEvent)
      (hpc : pipe.network.Acquires)
      (hturn : pipe.memory.step (.acquire age spurious) = some (memory, event)) :
      NetworkAccess carried pipe
        { pipe with
          memory
          network := (pipe.network.afterAcquire pipe.feed event).1
          feed := (pipe.network.afterAcquire pipe.feed event).2 } event
  | short (slotIdx : UInt32) (payload : List UInt8) (memory : UdpMemory)
      (event : Option UdpEvent) (hpc : pipe.network = .receiving slotIdx)
      (hshort : (received payload).length < kMoldHeaderBytes)
      (hturn : pipe.memory.step (.fill fun slot => slot.overwrite (received payload)) =
        some (memory, event)) :
      NetworkAccess carried pipe
        { pipe with memory, network := .releasing slotIdx (.again .socket) } event
  | receive (slotIdx : UInt32) (payload : List UInt8) (tWire : UInt64) (memory : UdpMemory)
      (event : Option UdpEvent) (feed : FeedState) (verdict : Verdict)
      (hpc : pipe.network = .receiving slotIdx)
      (hlong : ¬ (received payload).length < kMoldHeaderBytes)
      (hcarried : carried payload)
      (htrack : (pipe.feed.countReceived (received payload).length).track
        (parseMoldHeader (.ofList (received payload))) = (feed, verdict))
      (hturn : pipe.memory.step (.fill fun slot => slot.fill (received payload)) =
        some (memory, event)) :
      NetworkAccess carried pipe
        { pipe with memory, feed, network := afterReceive slotIdx tWire verdict } event
  | copy (slotIdx : UInt32) (moldPkt : List UInt8) (tWire : UInt64)
      (frames : List (List UInt8)) (memory : UdpMemory) (event : Option UdpEvent)
      (hpc : pipe.network = .copying slotIdx moldPkt tWire frames)
      (hturn : pipe.memory.step (.fill fun slot => slot.fill (received moldPkt)) =
        some (memory, event)) :
      NetworkAccess carried pipe
        { pipe with memory, network := .pushing ⟨slotIdx, tWire⟩ (.batch tWire frames) } event
  | push (ref : PacketRef) (resume : Resume) (age : ℕ) (memory : UdpMemory)
      (event : Option UdpEvent) (hpc : pipe.network = .pushing ref resume)
      (hturn : pipe.memory.step (.push ref age) = some (memory, event)) :
      NetworkAccess carried pipe
        { pipe with
          memory
          network := (afterPush ref resume pipe.feed event).1
          feed := (afterPush ref resume pipe.feed event).2 } event
  | sentinel (tWire : UInt64) (age : ℕ) (memory : UdpMemory) (event : Option UdpEvent)
      (hpc : pipe.network = .sealing tWire)
      (hturn : pipe.memory.step (.push ⟨kPoolInvalid, tWire⟩ age) = some (memory, event)) :
      NetworkAccess carried pipe
        { pipe with
          memory
          network := (afterSeal tWire pipe.feed event).1
          feed := (afterSeal tWire pipe.feed event).2 } event
  | release (slotIdx : UInt32) (next : AfterRelease) (age : ℕ) (spurious : Bool)
      (memory : UdpMemory) (event : Option UdpEvent)
      (hpc : pipe.network = .releasing slotIdx next)
      (hturn : pipe.memory.step (.release .network age spurious) = some (memory, event)) :
      NetworkAccess carried pipe
        { pipe with memory, network := afterRelease slotIdx next event } event

/-- The accesses of the matching thread. -/
inductive MatchingAccess (pipe : WeakPipeline) : WeakPipeline → Option UdpEvent → Prop
  | pop (spinBudget age : ℕ) (memory : UdpMemory) (event : Option UdpEvent)
      (hpc : pipe.matching = .popping spinBudget)
      (hturn : pipe.memory.step (.pop age) = some (memory, event)) :
      MatchingAccess pipe { pipe with memory, matching := afterPop spinBudget event } event
  | walk (ref : PacketRef) (memory : UdpMemory) (event : Option UdpEvent)
      (hpc : pipe.matching = .walking ref)
      (hturn : pipe.memory.step .read = some (memory, event)) :
      MatchingAccess pipe { pipe with memory, matching := .releasing ref.poolIdx } event
  | release (slotIdx : UInt32) (age : ℕ) (spurious : Bool) (memory : UdpMemory)
      (event : Option UdpEvent) (hpc : pipe.matching = .releasing slotIdx)
      (hturn : pipe.memory.step (.release .matching age spurious) = some (memory, event)) :
      MatchingAccess pipe { pipe with memory, matching := afterReturn slotIdx event } event

/-- A step of `runUdp`: an access of a thread, or something that it does by itself. -/
inductive WeakStep (port : UInt16) (carried : List UInt8 → Prop) (pipe : WeakPipeline) :
    WeakPipeline → Option UdpEvent → Prop
  | network {next : WeakPipeline} {event : Option UdpEvent}
      (haccess : NetworkAccess carried pipe next event) : WeakStep port carried pipe next event
  | matching {next : WeakPipeline} {event : Option UdpEvent}
      (haccess : MatchingAccess pipe next event) : WeakStep port carried pipe next event
  | alone (network : NetworkPc) (feed : FeedState)
      (hlocal : LocalStep port carried pipe.stop pipe.network pipe.feed network feed) :
      WeakStep port carried pipe { pipe with network, feed } none
  | goOn (hpc : pipe.matching = .checking) :
      WeakStep port carried pipe { pipe with matching := .popping 0 } none
  | giveUp (hpc : pipe.matching = .checking) (hstop : pipe.stop = true) :
      WeakStep port carried pipe { pipe with matching := .stopping } none
  | stop (hpc : pipe.matching = .stopping) :
      WeakStep port carried pipe { pipe with stop := true, matching := .joining } none
  | join (hpc : pipe.matching = .joining) (hfinished : pipe.network = .finished) :
      WeakStep port carried pipe { pipe with matching := .done } none

/-- The states that `runUdp` reaches, and what the calls answered. -/
inductive WeakReached (port : UInt16) (carried : List UInt8 → Prop) (numSlots capacity : ℕ) :
    WeakPipeline → List UdpEvent → Prop
  | start : WeakReached port carried numSlots capacity (.initial numSlots capacity) []
  | step {pipe next : WeakPipeline} {events : List UdpEvent} {event : Option UdpEvent}
      (earlier : WeakReached port carried numSlots capacity pipe events)
      (here : WeakStep port carried pipe next event) :
      WeakReached port carried numSlots capacity next (events ++ event.toList)

/-! ## Runs that can be computed -/

/-- What is chosen in a step of a session on the socket: which thread makes its next access,
which store a load looks back to, and what arrives. -/
inductive SocketMove
  | setUp
  | network (age : ℕ)
  | receive (payload : List UInt8) (tWire : UInt64)
  | matching (age : ℕ)

/-- The step that is chosen, if the thread stands in front of it. -/
def WeakPipeline.advance (pipe : WeakPipeline) :
    SocketMove → Option (WeakPipeline × Option UdpEvent)
  | .setUp =>
      match pipe.network with
      | .setUp => some ({ pipe with network := .testing false }, none)
      | _ => none
  | .network age =>
      match pipe.network with
      | .testing useXdp =>
          some ({ pipe with network := if useXdp then .peeking else .acquiring }, none)
      | .acquiring =>
          (pipe.memory.step (.acquire age false)).map fun (memory, event) =>
            ({ pipe with
                memory
                network := (pipe.network.afterAcquire pipe.feed event).1
                feed := (pipe.network.afterAcquire pipe.feed event).2 }, event)
      | .pushing ref resume =>
          (pipe.memory.step (.push ref age)).map fun (memory, event) =>
            ({ pipe with
                memory
                network := (afterPush ref resume pipe.feed event).1
                feed := (afterPush ref resume pipe.feed event).2 }, event)
      | .sealing tWire =>
          (pipe.memory.step (.push ⟨kPoolInvalid, tWire⟩ age)).map fun (memory, event) =>
            ({ pipe with
                memory
                network := (afterSeal tWire pipe.feed event).1
                feed := (afterSeal tWire pipe.feed event).2 }, event)
      | .releasing slotIdx next =>
          (pipe.memory.step (.release .network age false)).map fun (memory, event) =>
            ({ pipe with memory, network := afterRelease slotIdx next event }, event)
      | _ => none
  | .receive payload tWire =>
      match pipe.network with
      | .receiving slotIdx =>
          if (received payload).length < kMoldHeaderBytes then none
          else
            (pipe.memory.step (.fill fun slot => slot.fill (received payload))).map
              fun (memory, event) =>
                let tracked := (pipe.feed.countReceived (received payload).length).track
                  (parseMoldHeader (.ofList (received payload)))
                ({ pipe with
                    memory
                    feed := tracked.1
                    network := afterReceive slotIdx tWire tracked.2 }, event)
      | _ => none
  | .matching age =>
      match pipe.matching with
      | .popping spinBudget =>
          (pipe.memory.step (.pop age)).map fun (memory, event) =>
            ({ pipe with memory, matching := afterPop spinBudget event }, event)
      | .walking ref =>
          (pipe.memory.step .read).map fun (memory, event) =>
            ({ pipe with memory, matching := .releasing ref.poolIdx }, event)
      | .releasing slotIdx =>
          (pipe.memory.step (.release .matching age false)).map fun (memory, event) =>
            ({ pipe with memory, matching := afterReturn slotIdx event }, event)
      | _ => none

/-- What arrives with a move. -/
def SocketMove.payload? : SocketMove → Option (List UInt8)
  | receive payload _ => some payload
  | _ => none

/-- How far the load of a move looks back. -/
def SocketMove.age : SocketMove → ℕ
  | .network age | .matching age => age
  | .setUp | .receive _ _ => 0

/-- What holds of everything that arrives with some moves. -/
theorem SocketMove.forall_payload_cons {carried : List UInt8 → Prop} {move : SocketMove}
    {moves : List SocketMove}
    (hcarried : ∀ payload ∈ (move :: moves).filterMap SocketMove.payload?, carried payload) :
    (∀ payload, move.payload? = some payload → carried payload) ∧
      ∀ payload ∈ moves.filterMap SocketMove.payload?, carried payload := by
  constructor
  · intro payload hpayload
    refine hcarried payload ?_
    rw [List.filterMap_cons_some hpayload]
    exact List.mem_cons_self
  · intro payload hpayload
    refine hcarried payload ?_
    rw [← List.singleton_append, List.filterMap_append]
    exact List.mem_append_right _ hpayload

theorem WeakStep.of_advance {port : UInt16} {carried : List UInt8 → Prop}
    {pipe next : WeakPipeline} {event : Option UdpEvent} {move : SocketMove}
    (hcarried : ∀ payload, move.payload? = some payload → carried payload)
    (hadvance : pipe.advance move = some (next, event)) :
    WeakStep port carried pipe next event := by
  cases move with
  | setUp =>
      dsimp only [WeakPipeline.advance] at hadvance
      split at hadvance
      case h_1 hpc =>
        cases hadvance
        exact .alone _ _ (hpc ▸ .setUp false _)
      case h_2 => cases hadvance
  | network age =>
      dsimp only [WeakPipeline.advance] at hadvance
      split at hadvance
      case h_1 useXdp hpc =>
        cases hadvance
        exact .alone _ _ (hpc ▸ .loop useXdp _)
      case h_2 hpc =>
        obtain ⟨⟨memory, answer⟩, hturn, hnext⟩ := Option.map_eq_some_iff.mp hadvance
        cases hnext
        exact .network (.acquire age false memory answer (by rw [hpc]; trivial) hturn)
      case h_3 ref resume hpc =>
        obtain ⟨⟨memory, answer⟩, hturn, hnext⟩ := Option.map_eq_some_iff.mp hadvance
        cases hnext
        exact .network (.push ref resume age memory answer hpc hturn)
      case h_4 tWire hpc =>
        obtain ⟨⟨memory, answer⟩, hturn, hnext⟩ := Option.map_eq_some_iff.mp hadvance
        cases hnext
        exact .network (.sentinel tWire age memory answer hpc hturn)
      case h_5 slotIdx after hpc =>
        obtain ⟨⟨memory, answer⟩, hturn, hnext⟩ := Option.map_eq_some_iff.mp hadvance
        cases hnext
        exact .network (.release slotIdx after age false memory answer hpc hturn)
      case h_6 => cases hadvance
  | receive payload tWire =>
      dsimp only [WeakPipeline.advance] at hadvance
      split at hadvance
      case h_1 slotIdx hpc =>
        split at hadvance
        case isTrue => cases hadvance
        case isFalse hlong =>
          obtain ⟨⟨memory, answer⟩, hturn, hnext⟩ := Option.map_eq_some_iff.mp hadvance
          cases hnext
          exact .network (.receive slotIdx payload tWire memory answer _ _ hpc hlong
            (hcarried payload rfl) rfl hturn)
      case h_2 => cases hadvance
  | matching age =>
      dsimp only [WeakPipeline.advance] at hadvance
      split at hadvance
      case h_1 spinBudget hpc =>
        obtain ⟨⟨memory, answer⟩, hturn, hnext⟩ := Option.map_eq_some_iff.mp hadvance
        cases hnext
        exact .matching (.pop spinBudget age memory answer hpc hturn)
      case h_2 ref hpc =>
        obtain ⟨⟨memory, answer⟩, hturn, hnext⟩ := Option.map_eq_some_iff.mp hadvance
        cases hnext
        exact .matching (.walk ref memory answer hpc hturn)
      case h_3 slotIdx hpc =>
        obtain ⟨⟨memory, answer⟩, hturn, hnext⟩ := Option.map_eq_some_iff.mp hadvance
        cases hnext
        exact .matching (.release slotIdx age false memory answer hpc hturn)
      case h_4 => cases hadvance

/-- The steps that are chosen, one after the other. -/
def WeakPipeline.run :
    WeakPipeline → List UdpEvent → List SocketMove → Option (WeakPipeline × List UdpEvent)
  | pipe, events, [] => some (pipe, events)
  | pipe, events, move :: moves =>
      (pipe.advance move).bind fun (next, event) => next.run (events ++ event.toList) moves

/-- What can be computed is reached. -/
theorem WeakReached.run {port : UInt16} {carried : List UInt8 → Prop} {numSlots capacity : ℕ}
    {moves : List SocketMove} (hcarried : ∀ payload ∈ moves.filterMap SocketMove.payload?,
      carried payload)
    {pipe last : WeakPipeline} {events final : List UdpEvent}
    (hreached : WeakReached port carried numSlots capacity pipe events)
    (hrun : pipe.run events moves = some (last, final)) :
    WeakReached port carried numSlots capacity last final := by
  induction moves generalizing pipe events with
  | nil =>
      cases hrun
      exact hreached
  | cons move moves ih =>
      obtain ⟨hhere, hmore⟩ := SocketMove.forall_payload_cons hcarried
      obtain ⟨⟨next, event⟩, hadvance, hlater⟩ := Option.bind_eq_some_iff.mp hrun
      exact ih hmore (hreached.step (.of_advance hhere hadvance)) hlater

/-- The threads without what they know of each other. -/
def WeakPipeline.forget (pipe : WeakPipeline) : WeakPipeline :=
  { pipe with memory := pipe.memory.forget }

/-- A move that loads what was stored last goes as it does where nothing is known. -/
theorem WeakPipeline.advance_forget {pipe : WeakPipeline} (hsound : pipe.memory.clocks.Sound)
    {move : SocketMove} (hage : move.age = 0) :
    (pipe.forget.advance move).map (Prod.map forget id) =
      (pipe.advance move).map (Prod.map forget id) := by
  have hturn : ∀ {turn : UdpTurn}, turn.age = 0 →
      ∀ {build build' : UdpMemory × Option UdpEvent → WeakPipeline × Option UdpEvent},
        (∀ result, Prod.map forget id (build result) =
          build' (Prod.map UdpMemory.forget id result)) →
        (∀ result, Prod.map forget id (build' result) =
          build' (Prod.map UdpMemory.forget id result)) →
        ((pipe.memory.forget.step turn).map build').map (Prod.map forget id) =
          ((pipe.memory.step turn).map build).map (Prod.map forget id) := by
    intro turn hage build build' hbuild hbuild'
    have hsame := congrArg (Option.map build') (UdpMemory.step_forget hsound hage)
    rw [Option.map_map, Option.map_map] at hsame ⊢
    simp only [Function.comp_def, hbuild, hbuild']
    exact hsame
  obtain ⟨memory, stop, network, feed, matching⟩ := pipe
  cases move with
  | setUp => cases network <;> rfl
  | network age =>
      obtain rfl : age = 0 := hage
      cases network <;> first
        | rfl
        | exact hturn rfl (fun _ => rfl) fun _ => rfl
  | receive payload tWire =>
      cases network with
      | receiving slotIdx =>
          dsimp only [advance, forget]
          split
          · rfl
          · exact hturn rfl (fun _ => rfl) fun _ => rfl
      | _ => rfl
  | matching age =>
      obtain rfl : age = 0 := hage
      cases matching <;> first
        | rfl
        | exact hturn rfl (fun _ => rfl) fun _ => rfl

/-- The steps that are chosen, where every load reads what was stored last. -/
def WeakPipeline.runLatest :
    WeakPipeline → List UdpEvent → List SocketMove → Option (WeakPipeline × List UdpEvent)
  | pipe, events, [] => some (pipe, events)
  | pipe, events, move :: moves =>
      (pipe.advance move).bind fun (next, event) =>
        next.forget.runLatest (events ++ event.toList) moves

/-- A packet with one message of one byte. -/
def onePacket (number : UInt8) : List UInt8 :=
  [0, 0, 0, 0, 0, 0, 0, 0, 0, 0, 0, 0, 0, 0, 0, 0, 0, number, 0, 1, 0, 1, 83]

/-- The socket loop takes a slot and receives a packet into it. -/
def receiveMoves (payload : List UInt8) (tWire : UInt64) : List SocketMove :=
  List.replicate 4 (.network 0) ++ [.receive payload tWire]

/-- The socket loop takes a slot, receives a packet into it and pushes it. -/
def pushMoves (payload : List UInt8) (tWire : UInt64) : List SocketMove :=
  receiveMoves payload tWire ++ List.replicate 4 (.network 0)

namespace UdpMemory

/-- The matching thread is left where it stands, with its packet. -/
structure LeavesMatching (memory next : UdpMemory) : Prop where
  hand : next.hand .matching = memory.hand .matching
  pc : next.pool.pc .matching = memory.pool.pc .matching
  slot : ∀ idx, memory.hand .matching = some idx → next.slots idx = memory.slots idx

/-- The network thread is left where it stands, with its packet. -/
structure LeavesNetwork (memory next : UdpMemory) : Prop where
  hand : next.hand .network = memory.hand .network
  pc : next.pool.pc .network = memory.pool.pc .network
  pusher : next.ring.pusher = memory.ring.pusher
  slots : next.slots = memory.slots

/-- What an access of `acquire` leaves. -/
inductive AcquireTurn (next : UdpMemory) : Option UdpEvent → Prop
  | silent (hand : next.hand .network = none) (slot : (next.pool.pc .network).slot = []) :
      AcquireTurn next none
  | exhausted (hand : next.hand .network = none) (idle : next.pool.pc .network = .idle) :
      AcquireTurn next (some .exhausted)
  | acquired (idx : UInt32) (hand : next.hand .network = some idx)
      (idle : next.pool.pc .network = .idle) : AcquireTurn next (some (.acquired idx))

/-- What an access of the push of `ref` leaves. -/
inductive PushTurn (memory : UdpMemory) (ref : PacketRef) (next : UdpMemory) :
    Option UdpEvent → Prop
  | silent (hand : next.hand .network = memory.hand .network)
      (busy : next.ring.pusher.value = some ref) : PushTurn memory ref next none
  | pushed (hand : next.hand .network = none) (idle : next.ring.pusher = .idle) :
      PushTurn memory ref next (some (.pushed ref (memory.slots ref.poolIdx)))
  | refused (hand : next.hand .network = memory.hand .network)
      (idle : next.ring.pusher = .idle) : PushTurn memory ref next (some (.refused ref))

/-- What an access of the release of `idx` leaves. -/
inductive ReleaseTurn (thread : UdpThread) (idx : UInt32) (next : UdpMemory) :
    Option UdpEvent → Prop
  | silent (hand : next.hand thread = some idx) (slot : (next.pool.pc thread).slot = [idx]) :
      ReleaseTurn thread idx next none
  | released (hand : next.hand thread = none) (idle : next.pool.pc thread = .idle) :
      ReleaseTurn thread idx next (some (.released thread idx))

/-- What an access of `pop` leaves. -/
inductive PopTurn (next : UdpMemory) : Option UdpEvent → Prop
  | silent (hand : next.hand .matching = none) : PopTurn next none
  | empty (hand : next.hand .matching = none) : PopTurn next (some .empty)
  | popped (ref : PacketRef) (hand : next.hand .matching = ref.slot) :
      PopTurn next (some (.popped ref))

variable {bits numSlots : ℕ} {memory next : UdpMemory} {sent : List (PacketRef × BufferSlot)}
  {free : List UInt32} {event : Option UdpEvent}

/-- The pool leaves the ring, the slots and what is not its thread's. -/
theorem afterPool_frame (memory : UdpMemory) (thread : UdpThread)
    (result : Clocks UdpThread UdpAtomic UdpCell × WeakPool UdpThread × Option PoolEvent) :
    (memory.afterPool thread result).1.ring = memory.ring ∧
      (memory.afterPool thread result).1.slots = memory.slots ∧
      (memory.afterPool thread result).1.pool = result.2.1 ∧
      ∀ other, other ≠ thread →
        (memory.afterPool thread result).1.hand other = memory.hand other := by
  obtain ⟨clocks, pool, answer⟩ := result
  have hother := fun (other : UdpThread) (hne : other ≠ thread) (slot : Option UInt32) =>
    hand_setHand_of_ne hne { memory with clocks, pool } slot
  cases answer with
  | none => exact ⟨rfl, rfl, rfl, fun _ _ => rfl⟩
  | some answer =>
      cases answer with
      | acquired idx => exact ⟨rfl, rfl, rfl, fun other hne => hother other hne _⟩
      | exhausted => exact ⟨rfl, rfl, rfl, fun _ _ => rfl⟩
      | released idx => exact ⟨rfl, rfl, rfl, fun other hne => hother other hne _⟩

/-- The ring leaves the pool and the slots. -/
theorem afterRing_frame (memory : UdpMemory)
    (result : Clocks UdpThread UdpAtomic UdpCell × WeakRing PacketRef ×
      Option (QueueEvent PacketRef)) :
    (memory.afterRing result).1.ring = result.2.1 ∧
      (memory.afterRing result).1.slots = memory.slots ∧
      (memory.afterRing result).1.pool = memory.pool := by
  obtain ⟨clocks, ring, answer⟩ := result
  cases answer with
  | none => exact ⟨rfl, rfl, rfl⟩
  | some answer => cases answer <;> exact ⟨rfl, rfl, rfl⟩

namespace Keeps

theorem acquireTurn (hkeeps : memory.Keeps bits numSlots sent free) {age : ℕ} {spurious : Bool}
    (hturn : memory.step (.acquire age spurious) = some (next, event)) :
    AcquireTurn next event ∧ next.ring.pusher = .idle ∧ memory.LeavesMatching next ∧
      next.slots = memory.slots := by
  obtain ⟨⟨hhand, hidle⟩, hturn⟩ := Option.ite_none_right_eq_some.mp hturn
  obtain ⟨⟨clocks, pool, answer⟩, hacquire, hresult⟩ := Option.map_eq_some_iff.mp hturn
  have hstep := WeakPool.acquireStep_of_acquire hacquire
  obtain ⟨hring, hslots, hpool, hother⟩ :=
    memory.afterPool_frame .network (clocks, pool, answer)
  have hfst : (memory.afterPool .network (clocks, pool, answer)).1 = next := by rw [hresult]
  have hsnd : (memory.afterPool .network (clocks, pool, answer)).2 = event := by rw [hresult]
  rw [hfst] at hring hslots hpool hother
  dsimp only at hpool
  have hpc : next.pool.pc .matching = memory.pool.pc .matching := by
    rw [hpool]
    exact hstep.pc_of_ne UdpThread.noConfusion
  refine ⟨?_, by rw [hring, hidle], ⟨hother _ UdpThread.noConfusion, hpc,
    fun _ _ => by rw [hslots]⟩, hslots⟩
  cases hkeeps.stack.acquire hstep with
  | silent =>
      subst hsnd hfst
      exact .silent hhand hstep.slot_eq_nil
  | exhausted _ _ _ _ idle =>
      subst hsnd hfst
      exact .exhausted hhand idle
  | acquired idx _ _ _ _ _ idle =>
      subst hsnd hfst
      exact .acquired idx (hand_setHand_self ..) idle

theorem releaseTurn (hkeeps : memory.Keeps bits numSlots sent free) (hslots : numSlots < 2 ^ 32)
    {thread : UdpThread} {age : ℕ} {spurious : Bool}
    (hturn : memory.step (.release thread age spurious) = some (next, event)) :
    ∃ idx, memory.hand thread = some idx ∧ ReleaseTurn thread idx next event ∧
      (thread = .network → next.ring.pusher = .idle ∧ memory.LeavesMatching next ∧
        next.slots = memory.slots) ∧
      (thread = .matching → memory.LeavesNetwork next) := by
  obtain ⟨idx, hhand, hturn⟩ := Option.bind_eq_some_iff.mp hturn
  obtain ⟨hidle, hturn⟩ := Option.ite_none_right_eq_some.mp hturn
  obtain ⟨⟨clocks, pool, answer⟩, hrelease, hresult⟩ := Option.map_eq_some_iff.mp hturn
  have hown : ∀ other ∈ (memory.pool.pc thread).slot, other = idx := by
    intro other hother
    have hsame := hkeeps.returning thread other hother
    rw [hhand] at hsame
    exact (Option.some.inj hsame).symm
  have hstep := WeakPool.releaseStep_of_release hown hrelease
  obtain ⟨hring, hslot, hpool, hother⟩ := memory.afterPool_frame thread (clocks, pool, answer)
  have hfst : (memory.afterPool thread (clocks, pool, answer)).1 = next := by rw [hresult]
  have hsnd : (memory.afterPool thread (clocks, pool, answer)).2 = event := by rw [hresult]
  rw [hfst] at hring hslot hpool hother
  dsimp only at hpool
  have hpc : ∀ other, other ≠ thread → next.pool.pc other = memory.pool.pc other := by
    intro other hne
    rw [hpool]
    exact hstep.pc_of_ne hne
  refine ⟨idx, hhand, ?_, ?_, ?_⟩
  · cases hkeeps.releaseMove hslots hhand hstep with
    | silent _ keeps =>
        subst hsnd hfst
        exact .silent hhand keeps
    | released _ _ idle =>
        subst hsnd hfst
        exact .released (hand_setHand_self ..) idle
  · rintro rfl
    exact ⟨by rw [hring, hidle rfl], ⟨hother _ UdpThread.noConfusion,
      hpc _ UdpThread.noConfusion, fun _ _ => by rw [hslot]⟩, hslot⟩
  · rintro rfl
    exact ⟨hother _ UdpThread.noConfusion, hpc _ UdpThread.noConfusion, by rw [hring], hslot⟩

theorem pushTurn (hkeeps : memory.Keeps bits numSlots sent free) {ref : PacketRef} {age : ℕ}
    (hbusy : ∀ value, memory.ring.pusher.value = some value → value = ref)
    (hturn : memory.step (.push ref age) = some (next, event)) :
    PushTurn memory ref next event ∧ ref.slot = memory.hand .network ∧
      next.pool.pc .network = .idle ∧ memory.LeavesMatching next ∧
      next.slots = memory.slots := by
  obtain ⟨hguard, hturn⟩ := Option.ite_none_right_eq_some.mp hturn
  have hresult := Option.some.inj hturn
  have hmove := hkeeps.channel.push ref age
  have hvalue : memory.ring.pusher.value.getD ref = ref := by
    cases hpusher : memory.ring.pusher.value with
    | none => rfl
    | some value => exact hbusy value hpusher
  have hslot : ref.slot = memory.hand .network ∧ memory.pool.pc .network = .idle := by
    cases hpusher : memory.ring.pusher.value with
    | none => exact hguard (Pusher.eq_idle_of_value hpusher)
    | some value =>
        obtain rfl := hbusy value hpusher
        exact hkeeps.pushing value hpusher
  obtain ⟨_, hslots, hpool⟩ :=
    memory.afterRing_frame (memory.ring.push udpRing memory.clocks ref age)
  rw [hvalue] at hmove
  rw [hresult] at hslots hpool
  generalize memory.ring.push udpRing memory.clocks ref age = result at hmove hresult
  obtain ⟨clocks, ring, answer⟩ := result
  dsimp only at hmove hslots hpool
  have hleaves : next.hand .matching = memory.hand .matching → memory.LeavesMatching next :=
    fun hhand => ⟨hhand, by rw [hpool], fun _ _ => by rw [hslots]⟩
  have hpc : next.pool.pc .network = .idle := by rw [hpool, hslot.2]
  cases hmove with
  | silent _ busy _ =>
      cases hresult
      exact ⟨.silent rfl busy, hslot.1, hpc, hleaves rfl, hslots⟩
  | pushed _ idle _ _ =>
      cases hresult
      exact ⟨.pushed (hand_setHand_self ..) idle, hslot.1, hpc,
        hleaves (hand_setHand_network_matching ..), hslots⟩
  | refused _ idle _ _ _ _ _ =>
      cases hresult
      exact ⟨.refused rfl idle, hslot.1, hpc, hleaves rfl, hslots⟩

theorem popTurn (hkeeps : memory.Keeps bits numSlots sent free) {age : ℕ}
    (hturn : memory.step (.pop age) = some (next, event)) :
    PopTurn next event ∧ next.pool.pc .matching = memory.pool.pc .matching ∧
      memory.LeavesNetwork next := by
  obtain ⟨hhand, hturn⟩ := Option.ite_none_right_eq_some.mp hturn
  have hresult := Option.some.inj hturn
  have hmove := hkeeps.channel.pop age
  have hpusher := memory.ring.pusher_pop udpRing memory.clocks age
  obtain ⟨hring, hslots, hpool⟩ :=
    memory.afterRing_frame (memory.ring.pop udpRing memory.clocks age)
  rw [hresult] at hring hslots hpool
  dsimp only at hring hslots hpool
  have hleaves : next.hand .network = memory.hand .network → memory.LeavesNetwork next :=
    fun hhand => ⟨hhand, by rw [hpool], by rw [hring, hpusher], hslots⟩
  generalize memory.ring.pop udpRing memory.clocks age = result at hmove hresult
  obtain ⟨clocks, ring, answer⟩ := result
  dsimp only at hmove
  have hpc : next.pool.pc .matching = memory.pool.pc .matching := by rw [hpool]
  cases hmove with
  | silent =>
      cases hresult
      exact ⟨.silent hhand, hpc, hleaves rfl⟩
  | popped out =>
      cases hresult
      exact ⟨.popped out (hand_setHand_self ..), hpc,
        hleaves (hand_setHand_matching_network ..)⟩
  | empty =>
      cases hresult
      exact ⟨.empty hhand, hpc, hleaves rfl⟩

theorem fillTurn (hkeeps : memory.Keeps bits numSlots sent free) (hslots : numSlots < 2 ^ 32)
    {write : BufferSlot → BufferSlot} (hturn : memory.step (.fill write) = some (next, event)) :
    ∃ idx, memory.hand .network = some idx ∧ next.hand .network = some idx ∧
      next.ring.pusher = .idle ∧ next.pool.pc .network = .idle ∧ event = none ∧
      next.slots idx = write (memory.slots idx) ∧ memory.LeavesMatching next := by
  obtain ⟨idx, hhand, hturn⟩ := Option.bind_eq_some_iff.mp hturn
  obtain ⟨⟨hpusher, hpc⟩, hturn⟩ := Option.ite_none_right_eq_some.mp hturn
  cases hturn
  refine ⟨idx, hhand, hhand, hpusher, hpc, rfl, Function.update_self .., rfl, rfl, ?_⟩
  intro other hother
  have hne : other ≠ idx := fun hsame =>
    (hkeeps.hand_apart hslots hhand).2 .matching UdpThread.noConfusion (hsame ▸ hother)
  exact Function.update_of_ne hne ..

end Keeps

theorem readTurn (hturn : memory.step .read = some (next, event)) :
    ∃ idx, memory.hand .matching = some idx ∧ event = some (.read (memory.slots idx)) ∧
      next.hand .matching = some idx ∧ next.pool.pc .matching = .idle ∧
      memory.LeavesNetwork next := by
  obtain ⟨idx, hhand, hturn⟩ := Option.bind_eq_some_iff.mp hturn
  obtain ⟨hpc, hturn⟩ := Option.ite_none_right_eq_some.mp hturn
  cases hturn
  exact ⟨idx, hhand, rfl, hhand, hpc, rfl, rfl, rfl, rfl⟩

end UdpMemory

/-- What the network thread is about to push. -/
def NetworkPc.sends : NetworkPc → Option PacketRef
  | pushing ref _ => some ref
  | sealing tWire => some ⟨kPoolInvalid, tWire⟩
  | _ => none

/-- The network thread is about to release a slot. -/
def NetworkPc.Releases : NetworkPc → Prop
  | releasing _ _ => True
  | _ => False

/-- The matching thread is about to release a slot. -/
def MatchingPc.Releases : MatchingPc → Prop
  | releasing _ => True
  | _ => False

/-- The memory is where the network thread has left it: its slot is in its hand, and the call
that is under way is the one in front of which it stands. -/
structure NetworkPc.Stands (pc : NetworkPc) (memory : UdpMemory) : Prop where
  hand : memory.hand .network = pc.hand
  pushing : ∀ ref, memory.ring.pusher.value = some ref → pc.sends = some ref
  calls : memory.pool.pc .network ≠ .idle →
    pc.Acquires ∧ (memory.pool.pc .network).slot = [] ∨
      pc.Releases ∧ (memory.pool.pc .network).slot ≠ []

/-- The same for the matching thread. -/
structure MatchingPc.Stands (pc : MatchingPc) (memory : UdpMemory) : Prop where
  hand : memory.hand .matching = pc.hand
  calls : memory.pool.pc .matching ≠ .idle →
    pc.Releases ∧ (memory.pool.pc .matching).slot ≠ []

theorem NetworkPc.hand_of_acquires {pc : NetworkPc} (hacquires : pc.Acquires) :
    pc.hand = none := by
  cases pc with
  | acquiring => rfl
  | claiming => rfl
  | _ => exact hacquires.elim

theorem NetworkPc.sends_of_acquires {pc : NetworkPc} (hacquires : pc.Acquires) :
    pc.sends = none := by
  cases pc with
  | acquiring => rfl
  | claiming => rfl
  | _ => exact hacquires.elim

namespace NetworkPc.Stands

variable {pc : NetworkPc} {memory next : UdpMemory}

theorem pusher_idle (hstands : pc.Stands memory) (hsends : pc.sends = none) :
    memory.ring.pusher = .idle := by
  cases hvalue : memory.ring.pusher.value with
  | none => exact Pusher.eq_idle_of_value hvalue
  | some ref =>
      have hpushing := hstands.pushing ref hvalue
      rw [hsends] at hpushing
      cases hpushing

theorem pool_idle (hstands : pc.Stands memory) (hacquires : ¬ pc.Acquires)
    (hreleases : ¬ pc.Releases) : memory.pool.pc .network = .idle := by
  by_contra hbusy
  rcases hstands.calls hbusy with ⟨hcall, _⟩ | ⟨hcall, _⟩
  · exact hacquires hcall
  · exact hreleases hcall

/-- Between two calls only the hand counts. -/
theorem of_idle (hhand : memory.hand .network = pc.hand) (hpusher : memory.ring.pusher = .idle)
    (hpool : memory.pool.pc .network = .idle) : pc.Stands memory where
  hand := hhand
  pushing ref hvalue := by
    rw [hpusher] at hvalue
    cases hvalue
  calls hbusy := (hbusy hpool).elim

/-- In the middle of a push the reference counts too. -/
theorem of_busy {ref : PacketRef} (hhand : memory.hand .network = pc.hand)
    (hbusy : memory.ring.pusher.value = some ref) (hsends : pc.sends = some ref)
    (hpool : memory.pool.pc .network = .idle) : pc.Stands memory where
  hand := hhand
  pushing value hvalue := by
    rw [hsends, ← hbusy, hvalue]
  calls hcall := (hcall hpool).elim

/-- What the network thread pushes is what it stands in front of. -/
theorem pushTurn {bits numSlots : ℕ} {sent : List (PacketRef × BufferSlot)} {free : List UInt32}
    {event : Option UdpEvent} {ref : PacketRef} {age : ℕ} (hstands : pc.Stands memory)
    (hkeeps : memory.Keeps bits numSlots sent free) (hsends : pc.sends = some ref)
    (hturn : memory.step (.push ref age) = some (next, event)) :
    UdpMemory.PushTurn memory ref next event ∧ next.pool.pc .network = .idle ∧
      memory.LeavesMatching next ∧ next.slots = memory.slots := by
  have hbusy : ∀ value, memory.ring.pusher.value = some value → value = ref := by
    intro value hvalue
    have hsame := hstands.pushing value hvalue
    rw [hsends] at hsame
    exact (Option.some.inj hsame).symm
  obtain ⟨hpush, _, hrest⟩ := hkeeps.pushTurn hbusy hturn
  exact ⟨hpush, hrest⟩

theorem leave (hstands : pc.Stands memory) (hleaves : memory.LeavesNetwork next) :
    pc.Stands next where
  hand := hleaves.hand.trans hstands.hand
  pushing := by
    rw [hleaves.pusher]
    exact hstands.pushing
  calls := by
    rw [hleaves.pc]
    exact hstands.calls

end NetworkPc.Stands

theorem MatchingPc.Stands.leave {pc : MatchingPc} {memory next : UdpMemory}
    (hstands : pc.Stands memory) (hleaves : memory.LeavesMatching next) : pc.Stands next where
  hand := hleaves.hand.trans hstands.hand
  calls := by
    rw [hleaves.pc]
    exact hstands.calls

theorem MatchingPc.Stands.of_idle {pc : MatchingPc} {memory : UdpMemory}
    (hhand : memory.hand .matching = pc.hand) (hpool : memory.pool.pc .matching = .idle) :
    pc.Stands memory where
  hand := hhand
  calls hbusy := (hbusy hpool).elim

theorem MatchingPc.Stands.pool_idle {pc : MatchingPc} {memory : UdpMemory}
    (hstands : pc.Stands memory) (hreleases : ¬ pc.Releases) :
    memory.pool.pc .matching = .idle := by
  by_contra hbusy
  exact hreleases (hstands.calls hbusy).1

/-- What a thread does by itself it does between two calls, and its slot stays in its hand. -/
theorem LocalStep.between {port : UInt16} {carried : List UInt8 → Prop} {stop : Bool}
    {pc pc' : NetworkPc} {feed feed' : FeedState}
    (hlocal : LocalStep port carried stop pc feed pc' feed') :
    pc.sends = none ∧ ¬ pc.Acquires ∧ ¬ pc.Releases ∧ pc'.hand = pc.hand := by
  cases hlocal with
  | loop useXdp => cases useXdp <;> exact ⟨rfl, id, id, rfl⟩
  | scan tWire frame frames moldPkt _ _ verdict =>
      cases verdict <;> exact ⟨rfl, id, id, rfl⟩
  | _ => exact ⟨rfl, id, id, rfl⟩

theorem LocalStep.ne_draining {port : UInt16} {carried : List UInt8 → Prop} {stop : Bool}
    {pc pc' : NetworkPc} {feed feed' : FeedState}
    (hlocal : LocalStep port carried stop pc feed pc' feed') : pc' ≠ .draining := by
  cases hlocal with
  | loop useXdp => cases useXdp <;> exact NetworkPc.noConfusion
  | scan tWire frame frames moldPkt _ _ verdict => cases verdict <;> exact NetworkPc.noConfusion
  | _ => exact NetworkPc.noConfusion

namespace WeakPipeline

variable {bits numSlots : ℕ} {carried : List UInt8 → Prop} {pipe next : WeakPipeline}
  {event : Option UdpEvent} {sent : List (PacketRef × BufferSlot)} {free : List UInt32}

/-- Both threads stand where the memory says. -/
structure Follows (pipe : WeakPipeline) : Prop where
  network : pipe.network.Stands pipe.memory
  matching : pipe.matching.Stands pipe.memory

theorem follows_initial (numSlots capacity : ℕ) : (initial numSlots capacity).Follows where
  network := .of_idle rfl rfl rfl
  matching := .of_idle rfl rfl

theorem Follows.network_access (hfollows : pipe.Follows) (hslots : numSlots < 2 ^ 32)
    (hkeeps : pipe.memory.Keeps bits numSlots sent free)
    (haccess : NetworkAccess carried pipe next event) :
    next.network.Stands next.memory ∧ pipe.memory.LeavesMatching next.memory := by
  cases haccess with
  | acquire age spurious memory _ hpc hturn =>
      obtain ⟨hacquire, hpusher, hleaves, _⟩ := hkeeps.acquireTurn hturn
      refine ⟨?_, hleaves⟩
      dsimp only
      cases hacquire with
      | silent hand slot =>
          refine ⟨hand.trans (NetworkPc.hand_of_acquires hpc).symm, fun ref hvalue => ?_,
            fun _ => .inl ⟨hpc, slot⟩⟩
          rw [hpusher] at hvalue
          cases hvalue
      | exhausted hand idle =>
          refine .of_idle (hand.trans ?_) hpusher idle
          cases hnetwork : pipe.network <;> rfl
      | acquired idx hand idle =>
          refine .of_idle (hand.trans ?_) hpusher idle
          cases hnetwork : pipe.network <;> rfl
  | short slotIdx payload memory _ hpc hshort hturn =>
      obtain ⟨idx, hold, hhand, hpusher, hpool, _, _, hleaves⟩ := hkeeps.fillTurn hslots hturn
      refine ⟨.of_idle ?_ hpusher hpool, hleaves⟩
      rw [hhand, ← hold, hfollows.network.hand, hpc]
      rfl
  | receive slotIdx payload tWire memory _ feed verdict hpc hlong hcarried htrack hturn =>
      obtain ⟨idx, hold, hhand, hpusher, hpool, _, _, hleaves⟩ := hkeeps.fillTurn hslots hturn
      refine ⟨.of_idle ?_ hpusher hpool, hleaves⟩
      rw [hhand, ← hold, hfollows.network.hand, hpc]
      cases verdict <;> rfl
  | copy slotIdx moldPkt tWire frames memory _ hpc hturn =>
      obtain ⟨idx, hold, hhand, hpusher, hpool, _, _, hleaves⟩ := hkeeps.fillTurn hslots hturn
      refine ⟨.of_idle ?_ hpusher hpool, hleaves⟩
      rw [hhand, ← hold, hfollows.network.hand, hpc]
      rfl
  | push ref resume age memory _ hpc hturn =>
      obtain ⟨hpush, hpool, hleaves, _⟩ :=
        hfollows.network.pushTurn hkeeps (by rw [hpc]; rfl) hturn
      have hhand := hfollows.network.hand
      rw [hpc] at hhand
      refine ⟨?_, hleaves⟩
      cases hpush with
      | silent hand busy => exact .of_busy (hand.trans hhand) busy rfl hpool
      | pushed hand idle => exact .of_idle (hand.trans resume.hand_pc.symm) idle hpool
      | refused hand idle => exact .of_idle (hand.trans hhand) idle hpool
  | sentinel tWire age memory _ hpc hturn =>
      obtain ⟨hpush, hpool, hleaves, _⟩ :=
        hfollows.network.pushTurn hkeeps (by rw [hpc]; rfl) hturn
      have hhand := hfollows.network.hand
      rw [hpc] at hhand
      refine ⟨?_, hleaves⟩
      cases hpush with
      | silent hand busy => exact .of_busy (hand.trans hhand) busy rfl hpool
      | pushed hand idle => exact .of_idle hand idle hpool
      | refused hand idle => exact .of_idle (hand.trans hhand) idle hpool
  | release slotIdx after age spurious memory _ hpc hturn =>
      obtain ⟨idx, hhand, hrelease, hnetwork, _⟩ := hkeeps.releaseTurn hslots hturn
      obtain ⟨hpusher, hleaves, _⟩ := hnetwork rfl
      have hsame := hfollows.network.hand
      rw [hpc, hhand] at hsame
      refine ⟨?_, hleaves⟩
      cases hrelease with
      | silent hand slot =>
          refine ⟨hand.trans hsame, fun ref hvalue => ?_, fun _ => .inr ⟨trivial, ?_⟩⟩
          · change memory.ring.pusher.value = some ref at hvalue
            rw [hpusher] at hvalue
            cases hvalue
          · change (memory.pool.pc .network).slot ≠ []
            rw [slot]
            exact List.cons_ne_nil _ _
      | released hand idle => exact .of_idle (hand.trans after.hand_pc.symm) hpusher idle

theorem Follows.matching_access (hfollows : pipe.Follows) (hslots : numSlots < 2 ^ 32)
    (hkeeps : pipe.memory.Keeps bits numSlots sent free)
    (haccess : MatchingAccess pipe next event) :
    next.matching.Stands next.memory ∧ pipe.memory.LeavesNetwork next.memory := by
  cases haccess with
  | pop spinBudget age memory _ hpc hturn =>
      obtain ⟨hpop, hsame, hleaves⟩ := hkeeps.popTurn hturn
      have hpool := hsame.trans (hfollows.matching.pool_idle (by rw [hpc]; exact id))
      refine ⟨?_, hleaves⟩
      cases hpop with
      | silent hand => exact .of_idle hand hpool
      | empty hand =>
          refine .of_idle (hand.trans ?_) hpool
          dsimp only [afterPop]
          split <;> rfl
      | popped ref hand =>
          refine .of_idle (hand.trans ?_) hpool
          dsimp only [afterPop, PacketRef.slot]
          split <;> rfl
  | walk ref memory _ hpc hturn =>
      obtain ⟨idx, hold, _, hhand, hpool, hleaves⟩ := UdpMemory.readTurn hturn
      refine ⟨.of_idle ?_ hpool, hleaves⟩
      rw [hhand, ← hold, hfollows.matching.hand, hpc]
      rfl
  | release slotIdx age spurious memory _ hpc hturn =>
      obtain ⟨idx, hhand, hrelease, _, hmatching⟩ := hkeeps.releaseTurn hslots hturn
      have hsame := hfollows.matching.hand
      rw [hpc, hhand] at hsame
      refine ⟨?_, hmatching rfl⟩
      cases hrelease with
      | silent hand slot =>
          refine ⟨hand.trans hsame, fun _ => ⟨trivial, ?_⟩⟩
          change (memory.pool.pc .matching).slot ≠ []
          rw [slot]
          exact List.cons_ne_nil _ _
      | released hand idle => exact .of_idle hand idle

/-- Every step leaves the threads where the memory says. -/
theorem Follows.step {port : UInt16} (hfollows : pipe.Follows) (hslots : numSlots < 2 ^ 32)
    (hkeeps : pipe.memory.Keeps bits numSlots sent free)
    (hstep : WeakStep port carried pipe next event) : next.Follows := by
  have hquiet : ∀ {pc pc' : MatchingPc}, pipe.matching = pc → ¬ pc.Releases →
      pc'.hand = pc.hand → pc'.Stands pipe.memory := by
    rintro _ pc' rfl hreleases hhand
    exact .of_idle (hfollows.matching.hand.trans hhand.symm)
      (hfollows.matching.pool_idle hreleases)
  cases hstep with
  | network haccess =>
      obtain ⟨hnetwork, hleaves⟩ := hfollows.network_access hslots hkeeps haccess
      have hsame : next.matching = pipe.matching := by cases haccess <;> rfl
      exact ⟨hnetwork, hsame ▸ hfollows.matching.leave hleaves⟩
  | matching haccess =>
      obtain ⟨hmatching, hleaves⟩ := hfollows.matching_access hslots hkeeps haccess
      have hsame : next.network = pipe.network := by cases haccess <;> rfl
      exact ⟨hsame ▸ hfollows.network.leave hleaves, hmatching⟩
  | alone network feed hlocal =>
      obtain ⟨hsends, hacquires, hreleases, hhand⟩ := hlocal.between
      exact ⟨.of_idle (hfollows.network.hand.trans hhand.symm)
        (hfollows.network.pusher_idle hsends)
        (hfollows.network.pool_idle hacquires hreleases), hfollows.matching⟩
  | goOn hpc => exact ⟨hfollows.network, hquiet hpc id rfl⟩
  | giveUp hpc hstop => exact ⟨hfollows.network, hquiet hpc id rfl⟩
  | stop hpc => exact ⟨hfollows.network, hquiet hpc id rfl⟩
  | join hpc hfinished => exact ⟨hfollows.network, hquiet hpc id rfl⟩

/-- No access is held back: whatever a thread stands in front of it may do, with any load. -/
structure Unhindered (pipe : WeakPipeline) : Prop where
  acquire : pipe.network.Acquires → ∀ age spurious,
    pipe.memory.step (.acquire age spurious) ≠ none
  receive : ∀ slotIdx write, pipe.network = .receiving slotIdx →
    pipe.memory.step (.fill write) ≠ none
  copy : ∀ slotIdx moldPkt tWire frames write,
    pipe.network = .copying slotIdx moldPkt tWire frames → pipe.memory.step (.fill write) ≠ none
  push : ∀ ref age, pipe.network.sends = some ref → pipe.memory.step (.push ref age) ≠ none
  release : pipe.network.Releases → ∀ age spurious,
    pipe.memory.step (.release .network age spurious) ≠ none
  pop : ∀ spinBudget age, pipe.matching = .popping spinBudget →
    pipe.memory.step (.pop age) ≠ none
  walk : ∀ ref, pipe.matching = .walking ref → pipe.memory.step .read ≠ none
  giveBack : pipe.matching.Releases → ∀ age spurious,
    pipe.memory.step (.release .matching age spurious) ≠ none

/-- The slot that the network thread is about to push is a slot. -/
theorem Follows.slot_of_sends (hfollows : pipe.Follows) (hslots : numSlots < 2 ^ 32)
    (hkeeps : pipe.memory.Keeps bits numSlots sent free) {ref : PacketRef}
    (hsends : pipe.network.sends = some ref) : ref.slot = pipe.memory.hand .network := by
  have hhand := hfollows.network.hand
  cases hpc : pipe.network with
  | pushing other resume =>
      rw [hpc] at hsends hhand
      obtain rfl : other = ref := Option.some.inj hsends
      have hvalid : other.poolIdx ≠ kPoolInvalid :=
        hkeeps.valid hslots (Custody.mem_tokens.mpr (.inr (.inl hhand)))
      rw [hhand]
      exact if_neg hvalid
  | sealing tWire =>
      rw [hpc] at hsends hhand
      obtain rfl := Option.some.inj hsends
      rw [hhand]
      rfl
  | _ =>
      rw [hpc] at hsends
      cases hsends

theorem Follows.unhindered (hfollows : pipe.Follows) (hslots : numSlots < 2 ^ 32)
    (hkeeps : pipe.memory.Keeps bits numSlots sent free) : pipe.Unhindered := by
  have hnetwork := hfollows.network
  have hfill : ∀ {slotIdx : UInt32} (write : BufferSlot → BufferSlot),
      pipe.network.hand = some slotIdx → pipe.network.sends = none → ¬ pipe.network.Acquires →
        ¬ pipe.network.Releases → pipe.memory.step (.fill write) ≠ none := by
    intro slotIdx write hhand hsends hacquires hreleases
    dsimp only [UdpMemory.step]
    rw [hnetwork.hand, hhand, Option.bind_some, if_pos ⟨hnetwork.pusher_idle hsends,
      hnetwork.pool_idle hacquires hreleases⟩]
    exact Option.some_ne_none _
  constructor
  · intro hacquires age spurious
    dsimp only [UdpMemory.step]
    have hguard : pipe.memory.hand .network = none ∧ pipe.memory.ring.pusher = .idle :=
      ⟨hnetwork.hand.trans (NetworkPc.hand_of_acquires hacquires),
        hnetwork.pusher_idle (NetworkPc.sends_of_acquires hacquires)⟩
    rw [if_pos hguard, Ne, Option.map_eq_none_iff]
    refine WeakPool.acquire_ne_none ?_ age spurious
    by_contra hslot
    obtain ⟨idx, hidx⟩ := List.exists_mem_of_ne_nil _ hslot
    have hheld := hkeeps.returning .network idx hidx
    rw [hguard.1] at hheld
    cases hheld
  · intro slotIdx write hpc
    exact hfill write (by rw [hpc]; rfl) (by rw [hpc]; rfl) (by rw [hpc]; exact id)
      (by rw [hpc]; exact id)
  · intro slotIdx moldPkt tWire frames write hpc
    exact hfill write (by rw [hpc]; rfl) (by rw [hpc]; rfl) (by rw [hpc]; exact id)
      (by rw [hpc]; exact id)
  · intro ref age hsends
    dsimp only [UdpMemory.step]
    rw [if_pos]
    · exact Option.some_ne_none _
    · intro _
      refine ⟨hfollows.slot_of_sends hslots hkeeps hsends, hnetwork.pool_idle ?_ ?_⟩
      · intro hacquires
        rw [NetworkPc.sends_of_acquires hacquires] at hsends
        cases hsends
      · intro hreleases
        cases hpc : pipe.network with
        | releasing slotIdx after =>
            rw [hpc] at hsends
            cases hsends
        | _ =>
            rw [hpc] at hreleases
            exact hreleases
  · intro hreleases age spurious
    cases hpc : pipe.network with
    | releasing slotIdx after =>
        have hhand := hnetwork.hand
        rw [hpc] at hhand
        dsimp only [UdpMemory.step]
        rw [show pipe.memory.hand .network = some slotIdx from hhand, Option.bind_some,
          if_pos fun _ => hnetwork.pusher_idle (by rw [hpc]; rfl), Ne, Option.map_eq_none_iff]
        refine WeakPool.release_ne_none (fun hbusy => ?_) slotIdx age spurious
        rcases hnetwork.calls hbusy with ⟨hacquires, _⟩ | ⟨_, hslot⟩
        · rw [hpc] at hacquires
          exact hacquires.elim
        · exact hslot
    | _ =>
        rw [hpc] at hreleases
        exact hreleases.elim
  · intro spinBudget age hpc
    have hhand := hfollows.matching.hand
    rw [hpc] at hhand
    dsimp only [UdpMemory.step]
    rw [if_pos (show pipe.memory.hand .matching = none from hhand)]
    exact Option.some_ne_none _
  · intro ref hpc
    have hhand := hfollows.matching.hand
    rw [hpc] at hhand
    dsimp only [UdpMemory.step]
    rw [show pipe.memory.hand .matching = some ref.poolIdx from hhand, Option.bind_some,
      if_pos (hfollows.matching.pool_idle (by rw [hpc]; exact id))]
    exact Option.some_ne_none _
  · intro hreleases age spurious
    cases hpc : pipe.matching with
    | releasing slotIdx =>
        have hhand := hfollows.matching.hand
        rw [hpc] at hhand
        dsimp only [UdpMemory.step]
        rw [show pipe.memory.hand .matching = some slotIdx from hhand, Option.bind_some,
          if_pos (nomatch ·), Ne, Option.map_eq_none_iff]
        exact WeakPool.release_ne_none (fun hbusy => (hfollows.matching.calls hbusy).2) slotIdx
          age spurious
    | _ =>
        rw [hpc] at hreleases
        exact hreleases.elim

end WeakPipeline

/-! ## Runs -/

section Runs

variable {port : UInt16} {carried : List UInt8 → Prop} {pipe next : WeakPipeline}
  {event : Option UdpEvent}

/-- A step is a turn on the memory, or it leaves the memory. -/
theorem WeakStep.turn (hstep : WeakStep port carried pipe next event) :
    next.memory = pipe.memory ∧ event = none ∨
      ∃ turn, pipe.memory.step turn = some (next.memory, event) := by
  cases hstep with
  | network haccess => cases haccess <;> exact .inr ⟨_, by assumption⟩
  | matching haccess => cases haccess <;> exact .inr ⟨_, by assumption⟩
  | _ => exact .inl ⟨rfl, rfl⟩

/-- The network thread gets to the throwaway buffer only when it found no slot. -/
theorem WeakStep.of_draining (hstep : WeakStep port carried pipe next event)
    (hpc : next.network = .draining) : pipe.network = .draining ∨ event = some .exhausted := by
  have hresume : ∀ resume : Resume, resume.pc ≠ .draining := by
    intro resume
    cases resume <;> exact NetworkPc.noConfusion
  cases hstep with
  | network haccess =>
      cases haccess with
      | acquire age spurious memory _ hacquires hturn =>
          dsimp only at hpc
          unfold NetworkPc.afterAcquire at hpc
          split at hpc
          · split at hpc <;> cases hpc
          · exact .inr rfl
          · exact .inl hpc
      | short => cases hpc
      | receive slotIdx payload tWire memory _ feed verdict => cases verdict <;> cases hpc
      | copy => cases hpc
      | push ref resume =>
          dsimp only at hpc
          unfold afterPush at hpc
          split at hpc
          · exact (hresume resume hpc).elim
          · cases hpc
          · cases hpc
      | sentinel =>
          dsimp only at hpc
          unfold afterSeal at hpc
          split at hpc <;> cases hpc
      | release slotIdx after =>
          dsimp only at hpc
          unfold afterRelease at hpc
          split at hpc
          · cases after with
            | again resume => exact (hresume resume hpc).elim
            | leave => cases hpc
            | endSession => cases hpc
          · cases hpc
  | matching haccess => cases haccess <;> exact .inl hpc
  | alone network feed hlocal => exact (hlocal.ne_draining hpc).elim
  | _ => exact .inl hpc

variable {bits numSlots : ℕ} {events : List UdpEvent}

namespace WeakReached

/-- A run of the loops is a run of the memory, and the threads stand where it says. -/
theorem reached (hsome : 0 < numSlots) (hslots : numSlots < 2 ^ 32)
    (hreached : WeakReached port carried numSlots (2 ^ bits) pipe events) :
    UdpReached numSlots (2 ^ bits) pipe.memory events ∧ pipe.Follows := by
  induction hreached with
  | start => exact ⟨.start, WeakPipeline.follows_initial numSlots (2 ^ bits)⟩
  | step earlier here ih =>
      obtain ⟨hmemory, hfollows⟩ := ih
      obtain ⟨free, hkeeps⟩ := (hmemory.kept hsome hslots).keeps
      refine ⟨?_, hfollows.step hslots hkeeps here⟩
      rcases here.turn with ⟨hsame, rfl⟩ | ⟨turn, hturn⟩
      · rw [hsame, Option.toList_none, List.append_nil]
        exact hmemory
      · exact hmemory.step turn hturn

theorem exhausted_of_draining {capacity : ℕ}
    (hreached : WeakReached port carried numSlots capacity pipe events)
    (hpc : pipe.network = .draining) : .exhausted ∈ events := by
  induction hreached with
  | start => cases hpc
  | step earlier here ih =>
      rcases here.of_draining hpc with hbefore | rfl
      · exact List.mem_append_left _ (ih hbefore)
      · exact List.mem_append_right _ (List.mem_singleton.mpr rfl)

end WeakReached

end Runs

/-- What can be computed on what was stored last is reached. -/
theorem WeakReached.runLatest {port : UInt16} {carried : List UInt8 → Prop} {bits numSlots : ℕ}
    (hsome : 0 < numSlots) (hslots : numSlots < 2 ^ 32) {moves : List SocketMove}
    (hcarried : ∀ payload ∈ moves.filterMap SocketMove.payload?, carried payload)
    (hages : ∀ move ∈ moves, move.age = 0)
    {pipe last : WeakPipeline} {events final : List UdpEvent}
    (hreached : WeakReached port carried numSlots (2 ^ bits) pipe events)
    (hrun : pipe.forget.runLatest events moves = some (last, final)) :
    ∃ reached, WeakReached port carried numSlots (2 ^ bits) reached final ∧
      reached.forget = last := by
  induction moves generalizing pipe events with
  | nil =>
      cases hrun
      exact ⟨pipe, hreached, rfl⟩
  | cons move moves ih =>
      obtain ⟨hage, hages⟩ := List.forall_mem_cons.mp hages
      obtain ⟨hhere, hmore⟩ := SocketMove.forall_payload_cons hcarried
      obtain ⟨⟨next, event⟩, hadvance, hlater⟩ := Option.bind_eq_some_iff.mp hrun
      obtain ⟨free, hkeeps⟩ := ((hreached.reached hsome hslots).1.kept hsome hslots).keeps
      have hsame := WeakPipeline.advance_forget hkeeps.channel.sound hage
      rw [hadvance] at hsame
      obtain ⟨⟨here, answer⟩, hstep, hforget⟩ := Option.map_eq_some_iff.mp hsame.symm
      obtain ⟨hnext, rfl⟩ := Prod.mk.inj hforget
      exact ih hmore hages (hreached.step (.of_advance hhere hstep)) (by rwa [hnext])
/-- In every run of `runUdp`, with whatever arrives, whatever the loads read and however the
threads interleave: the threads share their memory safely, and no access that one of them
stands in front of is held back by the rules on which this rests. -/
theorem weakPipeline_safelyShared {port : UInt16} {carried : List UInt8 → Prop}
    {numSlots capacity : ℕ} {ring : SpscRing PacketRef} (hsome : 0 < numSlots)
    (hslots : numSlots < 2 ^ 32) (hcreate : SpscRing.create capacity = some ring)
    {pipe : WeakPipeline} {events : List UdpEvent}
    (hreached : WeakReached port carried numSlots capacity pipe events) :
    SafelyShared numSlots capacity pipe.memory events ∧ pipe.Unhindered := by
  obtain ⟨⟨bits, rfl⟩, _⟩ := SpscRing.create_eq_some_iff.mp hcreate
  obtain ⟨hmemory, hfollows⟩ := hreached.reached hsome hslots
  obtain ⟨free, hkeeps⟩ := (hmemory.kept hsome hslots).keeps
  exact ⟨hmemory.safelyShared hsome hslots hcreate, hfollows.unhindered hslots hkeeps⟩

/-- Two packets are pushed, the matching thread walks the first of them, and the socket loop has
taken a third slot. -/
def sharingMoves : List SocketMove :=
  [.setUp] ++ pushMoves (onePacket 1) 5 ++ pushMoves (onePacket 2) 6 ++
    List.replicate 5 (.matching 0) ++ List.replicate 4 (.network 0)

theorem weakPipeline_safelyShared_sharing : ∃ (pipe : WeakPipeline) (events : List UdpEvent),
    pipe.network = .receiving 2 ∧ pipe.matching = .releasing 0 ∧
      takenRefs events = [⟨0, 5⟩] ∧ (sentPackets events).map Prod.fst = [⟨0, 5⟩, ⟨1, 6⟩] ∧
      SafelyShared 4 4 pipe.memory events ∧ pipe.Unhindered := by
  have hrun : (((WeakPipeline.initial 4 4).run [] sharingMoves).map fun result =>
      (result.1.network, result.1.matching, takenRefs result.2,
        (sentPackets result.2).map Prod.fst)) =
        some (.receiving 2, .releasing 0, [⟨0, 5⟩], [⟨0, 5⟩, ⟨1, 6⟩]) := by
    decide +kernel
  obtain ⟨⟨pipe, events⟩, hlast, hfacts⟩ := Option.map_eq_some_iff.mp hrun
  simp only [Prod.mk.injEq] at hfacts
  obtain ⟨hnetwork, hmatching, htaken, hsent⟩ := hfacts
  have hreached : WeakReached 0 (fun _ => True) 4 4 pipe events :=
    WeakReached.start.run (fun _ _ => trivial) hlast
  exact ⟨pipe, events, hnetwork, hmatching, htaken, hsent,
    weakPipeline_safelyShared (by decide) (by decide)
      (SpscRing.create_eq_some_iff.mpr ⟨⟨2, rfl⟩, rfl⟩) hreached⟩

/-- With more slots than cells in the ring the network thread never misses a slot and so never
throws a packet away for want of one, although it may not see what was given back. -/
theorem weakPipeline_never_exhausted {port : UInt16} {carried : List UInt8 → Prop}
    {numSlots capacity : ℕ} {ring : SpscRing PacketRef} (hslots : numSlots < 2 ^ 32)
    (hcreate : SpscRing.create capacity = some ring) (hroom : capacity < numSlots)
    {pipe : WeakPipeline} {events : List UdpEvent}
    (hreached : WeakReached port carried numSlots capacity pipe events) :
    .exhausted ∉ events ∧ pipe.network ≠ .draining := by
  have hnever : .exhausted ∉ events := by
    obtain ⟨⟨bits, rfl⟩, _⟩ := SpscRing.create_eq_some_iff.mp hcreate
    obtain ⟨hmemory, _⟩ := hreached.reached (Nat.zero_lt_of_lt hroom) hslots
    exact hmemory.not_exhausted hslots hcreate hroom
  exact ⟨hnever, fun hpc => hnever (hreached.exhausted_of_draining hpc)⟩

/-- A packet goes through the ring and its slot is given back, but the socket loop still reads the
head from before: its exchange fails, and it tries again. -/
def staleHeadMoves : List SocketMove :=
  [.setUp] ++ pushMoves (onePacket 1) 5 ++ List.replicate 8 (.matching 0) ++
    [.network 0, .network 1] ++ List.replicate 4 (.network 0)

theorem weakPipeline_never_exhausted_staleHead :
    ∃ (pipe : WeakPipeline) (events : List UdpEvent),
      (WeakPipeline.initial 3 2).run [] staleHeadMoves = some (pipe, events) ∧
      takenRefs events = [⟨0, 5⟩] ∧ pipe.matching = .popping 0 ∧ pipe.network = .receiving 0 ∧
      .exhausted ∉ events ∧ pipe.network ≠ .draining := by
  have hrun : (((WeakPipeline.initial 3 2).run [] staleHeadMoves).map fun result =>
      (takenRefs result.2, result.1.matching, result.1.network)) =
        some ([⟨0, 5⟩], .popping 0, .receiving 0) := by
    decide +kernel
  obtain ⟨⟨pipe, events⟩, hlast, hfacts⟩ := Option.map_eq_some_iff.mp hrun
  simp only [Prod.mk.injEq] at hfacts
  obtain ⟨htaken, hmatching, hnetwork⟩ := hfacts
  have hreached : WeakReached 0 (fun _ => True) 3 2 pipe events :=
    WeakReached.start.run (fun _ _ => trivial) hlast
  exact ⟨pipe, events, hlast, htaken, hmatching, hnetwork,
    weakPipeline_never_exhausted (by decide) (SpscRing.create_eq_some_iff.mpr ⟨⟨1, rfl⟩, rfl⟩)
      (by decide) hreached⟩

end Orderbook
