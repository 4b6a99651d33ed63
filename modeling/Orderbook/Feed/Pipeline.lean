/-
# The two threads

`runUdp` starts a network thread on one of the two receive loops and runs the
matching loop itself. The threads share the packet pool, the ring and the stop flag.
Here each thread is a program counter that stands in front of its next access to
what is shared, and a step of the system is one access by one of them. What a thread
does on its own in between, such as parsing a header it has just received, belongs
to the step before.

What comes from outside is left open: whether the set-up calls succeed, which
datagrams and frames arrive, when a call is interrupted and when it fails. The set-up
calls and a failing receive are kept apart from the other steps, since they are what
ends the network thread early.

An acquire, a release, a push and a pop are one step each. For the ring this is what
the accesses of its two ends amount to.
-/

import Mathlib.Logic.Relation
import Orderbook.Feed.PacketPool
import Orderbook.Math.Queue

namespace Orderbook

open Orderbook.Math

def kBatchSize : ℕ := 64

/-- Where the network thread goes on when it is done with a packet: at the top of
the socket loop, or with the frames that are left of a batch. -/
inductive Resume
  | socket
  | batch (tWire : UInt64) (frames : List (List UInt8))
  deriving DecidableEq, Repr

/-- What follows the release of a slot. -/
inductive AfterRelease
  | again (resume : Resume)
  | leave
  | endSession (tWire : UInt64)
  deriving DecidableEq, Repr

/-- Where the network thread stands. -/
inductive NetworkPc
  /-- In front of the set-up calls. -/
  | setUp
  /-- In front of the test of the stop flag at the top of a receive loop. -/
  | testing (useXdp : Bool)
  /-- In front of `acquire` in the socket loop. -/
  | acquiring
  /-- In front of `recv` into the throwaway buffer. -/
  | draining
  /-- In front of `recv` into a slot. -/
  | receiving (slotIdx : UInt32)
  /-- In front of the peek into the frame ring. -/
  | peeking
  /-- In front of the next frame of a batch. -/
  | scanning (tWire : UInt64) (frames : List (List UInt8))
  /-- In front of `acquire` for a packet that passed the sequence check. -/
  | claiming (moldPkt : List UInt8) (tWire : UInt64) (frames : List (List UInt8))
  /-- In front of the copy of a packet into a slot. -/
  | copying (slotIdx : UInt32) (moldPkt : List UInt8) (tWire : UInt64)
      (frames : List (List UInt8))
  /-- In front of the push of a packet. -/
  | pushing (ref : PacketRef) (resume : Resume)
  /-- In front of `release`. -/
  | releasing (slotIdx : UInt32) (next : AfterRelease)
  /-- In front of the push of the sentinel. -/
  | sealing (tWire : UInt64)
  /-- In front of the test of the stop flag after the ring refused the sentinel. -/
  | waiting (tWire : UInt64)
  /-- The thread has returned. -/
  | finished
  deriving DecidableEq, Repr

def Resume.pc : Resume → NetworkPc
  | socket => .testing false
  | batch tWire frames => .scanning tWire frames

def AfterRelease.pc : AfterRelease → NetworkPc
  | again resume => resume.pc
  | leave => .finished
  | endSession tWire => .sealing tWire

/-- The slot in the hand of the network thread. -/
def NetworkPc.hand : NetworkPc → Option UInt32
  | receiving slotIdx => some slotIdx
  | copying slotIdx _ _ _ => some slotIdx
  | pushing ref _ => some ref.poolIdx
  | releasing slotIdx _ => some slotIdx
  | _ => none

/-- What the socket loop does with a packet in a slot. -/
def afterReceive (slotIdx : UInt32) (tWire : UInt64) : Verdict → NetworkPc
  | .endOfSession => .releasing slotIdx (.endSession tWire)
  | .heartbeat => .releasing slotIdx (.again .socket)
  | .duplicate => .releasing slotIdx (.again .socket)
  | .accepted => .pushing ⟨slotIdx, tWire⟩ .socket

/-- What the frame loop does with a packet in a frame. -/
def afterScan (moldPkt : List UInt8) (tWire : UInt64) (frames : List (List UInt8)) :
    Verdict → NetworkPc
  | .endOfSession => .sealing tWire
  | .heartbeat => .scanning tWire frames
  | .duplicate => .scanning tWire frames
  | .accepted => .claiming moldPkt tWire frames

/-- What is counted of a datagram that goes into the throwaway buffer. -/
def FeedState.drain (state : FeedState) : RecvResult → FeedState
  | .failed _ => state
  | .datagram payload =>
      let n := (received payload).length
      if n = 0 then state else (state.countReceived n).countDropped

/-- Bytes written to the start of a slot. -/
def BufferSlot.overwrite (slot : BufferSlot) (bytes : List UInt8) : BufferSlot :=
  { slot with data := slot.data.store 0 bytes }

/-- A packet put into a slot, with its length. -/
def BufferSlot.fill (slot : BufferSlot) (bytes : List UInt8) : BufferSlot :=
  { slot.overwrite bytes with length := UInt16.ofNat bytes.length }

/-- Where the matching thread stands. -/
inductive MatchingPc
  /-- In front of a pop. -/
  | popping (spinBudget : ℕ)
  /-- In front of the test of the stop flag after a row of empty pops. -/
  | checking
  /-- At work on the messages of a packet. -/
  | walking (ref : PacketRef)
  /-- In front of `release`. -/
  | releasing (slotIdx : UInt32)
  /-- Out of the loop, in front of the store to the stop flag. -/
  | stopping
  /-- In front of the join. -/
  | joining
  | done
  deriving DecidableEq, Repr

/-- The slot in the hand of the matching thread. -/
def MatchingPc.hand : MatchingPc → Option UInt32
  | walking ref => some ref.poolIdx
  | releasing slotIdx => some slotIdx
  | _ => none

/-- The matching thread is in its pop loop. -/
def MatchingPc.InPopLoop : MatchingPc → Prop
  | popping _ => True
  | checking => True
  | _ => False

/-! ## The system -/

/-- What the threads share, and where they stand. -/
structure Pipeline where
  pool : PacketPool
  ring : List PacketRef := []
  stop : Bool := false
  network : NetworkPc := .setUp
  feed : FeedState := {}
  matching : MatchingPc := .popping 0

def Pipeline.initial (numSlots : ℕ) : Pipeline where
  pool := .create numSlots

/-- The steps of the network thread in which nothing fails. -/
inductive NetworkStep (port : UInt16) (room : ℕ) : Pipeline → Pipeline → Prop
  | setUp (pipe : Pipeline) (useXdp : Bool) (hpc : pipe.network = .setUp) :
      NetworkStep port room pipe { pipe with network := .testing useXdp }
  | stopped (pipe : Pipeline) (useXdp : Bool) (hpc : pipe.network = .testing useXdp)
      (hstop : pipe.stop = true) :
      NetworkStep port room pipe { pipe with network := .finished }
  | loop (pipe : Pipeline) (useXdp : Bool) (hpc : pipe.network = .testing useXdp)
      (hstop : pipe.stop = false) :
      NetworkStep port room pipe
        { pipe with network := if useXdp then .peeking else .acquiring }
  | acquire (pipe : Pipeline) (hpc : pipe.network = .acquiring) :
      NetworkStep port room pipe
        { pipe with
          pool := pipe.pool.acquire.2
          network :=
            if pipe.pool.acquire.1 = kPoolInvalid then .draining
            else .receiving pipe.pool.acquire.1 }
  | drain (pipe : Pipeline) (recv : RecvResult) (hpc : pipe.network = .draining) :
      NetworkStep port room pipe
        { pipe with feed := pipe.feed.drain recv, network := .testing false }
  | interrupted (pipe : Pipeline) (slotIdx : UInt32) (hpc : pipe.network = .receiving slotIdx) :
      NetworkStep port room pipe { pipe with network := .releasing slotIdx (.again .socket) }
  | short (pipe : Pipeline) (slotIdx : UInt32) (payload : List UInt8)
      (hpc : pipe.network = .receiving slotIdx)
      (hshort : (received payload).length < kMoldHeaderBytes) :
      NetworkStep port room pipe
        { pipe with
          pool := pipe.pool.modify slotIdx fun slot => slot.overwrite (received payload)
          network := .releasing slotIdx (.again .socket) }
  | receive (pipe : Pipeline) (slotIdx : UInt32) (payload : List UInt8) (tWire : UInt64)
      (hpc : pipe.network = .receiving slotIdx)
      (hlong : ¬ (received payload).length < kMoldHeaderBytes) (feed : FeedState)
      (verdict : Verdict)
      (htrack : (pipe.feed.countReceived (received payload).length).track
        (parseMoldHeader (.ofList (received payload))) = (feed, verdict)) :
      NetworkStep port room pipe
        { pipe with
          pool := pipe.pool.modify slotIdx fun slot => slot.fill (received payload)
          feed
          network := afterReceive slotIdx tWire verdict }
  | peek (pipe : Pipeline) (tWire : UInt64) (frames : List (List UInt8))
      (hpc : pipe.network = .peeking) (hbatch : frames.length ≤ kBatchSize) :
      NetworkStep port room pipe { pipe with network := .scanning tWire frames }
  | batchDone (pipe : Pipeline) (tWire : UInt64) (hpc : pipe.network = .scanning tWire []) :
      NetworkStep port room pipe { pipe with network := .testing true }
  | skip (pipe : Pipeline) (tWire : UInt64) (frame : List UInt8) (frames : List (List UInt8))
      (hpc : pipe.network = .scanning tWire (frame :: frames))
      (hnone : moldPacket port frame = none) :
      NetworkStep port room pipe { pipe with network := .scanning tWire frames }
  | scan (pipe : Pipeline) (tWire : UInt64) (frame : List UInt8) (frames : List (List UInt8))
      (moldPkt : List UInt8) (hpc : pipe.network = .scanning tWire (frame :: frames))
      (hsome : moldPacket port frame = some moldPkt) (feed : FeedState) (verdict : Verdict)
      (htrack : (pipe.feed.countReceived moldPkt.length).track
        (parseMoldHeader (.ofList moldPkt)) = (feed, verdict)) :
      NetworkStep port room pipe
        { pipe with feed, network := afterScan moldPkt tWire frames verdict }
  | claim (pipe : Pipeline) (moldPkt : List UInt8) (tWire : UInt64) (frames : List (List UInt8))
      (hpc : pipe.network = .claiming moldPkt tWire frames)
      (hslot : pipe.pool.acquire.1 ≠ kPoolInvalid) :
      NetworkStep port room pipe
        { pipe with
          pool := pipe.pool.acquire.2
          network := .copying pipe.pool.acquire.1 moldPkt tWire frames }
  | noSlot (pipe : Pipeline) (moldPkt : List UInt8) (tWire : UInt64)
      (frames : List (List UInt8)) (hpc : pipe.network = .claiming moldPkt tWire frames)
      (hslot : pipe.pool.acquire.1 = kPoolInvalid) :
      NetworkStep port room pipe
        { pipe with
          pool := pipe.pool.acquire.2
          feed := pipe.feed.countDropped
          network := .scanning tWire frames }
  | copy (pipe : Pipeline) (slotIdx : UInt32) (moldPkt : List UInt8) (tWire : UInt64)
      (frames : List (List UInt8))
      (hpc : pipe.network = .copying slotIdx moldPkt tWire frames) :
      NetworkStep port room pipe
        { pipe with
          pool := pipe.pool.modify slotIdx fun slot => slot.fill (received moldPkt)
          network := .pushing ⟨slotIdx, tWire⟩ (.batch tWire frames) }
  | push (pipe : Pipeline) (ref : PacketRef) (resume : Resume) (ring : List PacketRef)
      (hpc : pipe.network = .pushing ref resume)
      (hring : QueueStep room pipe.ring (.pushed ref) ring) :
      NetworkStep port room pipe { pipe with ring, network := resume.pc }
  | refuse (pipe : Pipeline) (ref : PacketRef) (resume : Resume) (ring : List PacketRef)
      (hpc : pipe.network = .pushing ref resume)
      (hring : QueueStep room pipe.ring (.refused ref) ring) :
      NetworkStep port room pipe
        { pipe with
          ring
          feed := pipe.feed.countDropped
          network := .releasing ref.poolIdx (.again resume) }
  | release (pipe : Pipeline) (slotIdx : UInt32) (next : AfterRelease)
      (hpc : pipe.network = .releasing slotIdx next) :
      NetworkStep port room pipe
        { pipe with pool := pipe.pool.release slotIdx, network := next.pc }
  | sentinel (pipe : Pipeline) (tWire : UInt64) (ring : List PacketRef)
      (hpc : pipe.network = .sealing tWire)
      (hring : QueueStep room pipe.ring (.pushed ⟨kPoolInvalid, tWire⟩) ring) :
      NetworkStep port room pipe
        { pipe with
          ring
          feed := { pipe.feed with sentinel := some ⟨kPoolInvalid, tWire⟩ }
          network := .finished }
  | sentinelRefused (pipe : Pipeline) (tWire : UInt64) (ring : List PacketRef)
      (hpc : pipe.network = .sealing tWire)
      (hring : QueueStep room pipe.ring (.refused ⟨kPoolInvalid, tWire⟩) ring) :
      NetworkStep port room pipe { pipe with ring, network := .waiting tWire }
  | waitStopped (pipe : Pipeline) (tWire : UInt64) (hpc : pipe.network = .waiting tWire)
      (hstop : pipe.stop = true) :
      NetworkStep port room pipe { pipe with network := .finished }
  | waitOn (pipe : Pipeline) (tWire : UInt64) (hpc : pipe.network = .waiting tWire)
      (hstop : pipe.stop = false) :
      NetworkStep port room pipe { pipe with network := .sealing tWire }

/-- The two ways in which the network thread gives up: a set-up call fails, or `recv`
fails and was not interrupted. -/
inductive NetworkFault : Pipeline → Pipeline → Prop
  | setUp (pipe : Pipeline) (hpc : pipe.network = .setUp) :
      NetworkFault pipe { pipe with network := .finished }
  | recv (pipe : Pipeline) (slotIdx : UInt32) (hpc : pipe.network = .receiving slotIdx) :
      NetworkFault pipe { pipe with network := .releasing slotIdx .leave }

/-- The steps of the matching thread. The messages of a packet are one step, from which the thread
comes back. A call that throws or does not return takes away steps and adds no state, so that what
holds of all states that are reached here holds with the engine as well. What the threads do in
the end is stated with the engine in the system. -/
inductive MatchingStep (room : ℕ) : Pipeline → Pipeline → Prop
  | pop (pipe : Pipeline) (spinBudget : ℕ) (ref : PacketRef) (ring : List PacketRef)
      (hpc : pipe.matching = .popping spinBudget)
      (hring : QueueStep room pipe.ring (.popped ref) ring) :
      MatchingStep room pipe
        { pipe with
          ring
          matching := if ref.poolIdx = kPoolInvalid then .stopping else .walking ref }
  | miss (pipe : Pipeline) (spinBudget : ℕ) (ring : List PacketRef)
      (hpc : pipe.matching = .popping spinBudget)
      (hring : QueueStep room pipe.ring .empty ring) :
      MatchingStep room pipe
        { pipe with
          ring
          matching := if spinBudget + 1 ≥ 1024 then .checking else .popping (spinBudget + 1) }
  | check (pipe : Pipeline) (hpc : pipe.matching = .checking) :
      MatchingStep room pipe
        { pipe with matching := if pipe.stop then .stopping else .popping 0 }
  | walk (pipe : Pipeline) (ref : PacketRef) (hpc : pipe.matching = .walking ref) :
      MatchingStep room pipe { pipe with matching := .releasing ref.poolIdx }
  | release (pipe : Pipeline) (slotIdx : UInt32) (hpc : pipe.matching = .releasing slotIdx) :
      MatchingStep room pipe
        { pipe with pool := pipe.pool.release slotIdx, matching := .popping 0 }
  | stop (pipe : Pipeline) (hpc : pipe.matching = .stopping) :
      MatchingStep room pipe { pipe with stop := true, matching := .joining }
  | join (pipe : Pipeline) (hpc : pipe.matching = .joining)
      (hfinished : pipe.network = .finished) :
      MatchingStep room pipe { pipe with matching := .done }

/-- A step of one of the threads in which nothing fails. -/
def OrdinaryStep (port : UInt16) (room : ℕ) (pipe next : Pipeline) : Prop :=
  NetworkStep port room pipe next ∨ MatchingStep room pipe next

/-- A step of the system. -/
def PipelineStep (port : UInt16) (room : ℕ) (pipe next : Pipeline) : Prop :=
  OrdinaryStep port room pipe next ∨ NetworkFault pipe next

/-- The states that the two threads reach with a pool and a ring of the given sizes. -/
def Reached (port : UInt16) (numSlots capacity : ℕ) (pipe : Pipeline) : Prop :=
  Relation.ReflTransGen (PipelineStep port (capacity - 1)) (.initial numSlots) pipe

/-- The sizes that `runUdp` chooses. -/
def kRingSlots : ℕ := 65536

def kPoolSlots : ℕ := 131072

/-- A turn of the socket loop that receives a packet, accepts it and pushes it. -/
theorem NetworkStep.receive_push (port : UInt16) {room : ℕ} {pipe : Pipeline}
    (hpc : pipe.network = .testing false) (hstop : pipe.stop = false) {slotIdx : UInt32}
    (hslot : pipe.pool.acquire.1 = slotIdx) (hvalid : slotIdx ≠ kPoolInvalid)
    {payload : List UInt8} (hlong : ¬ (received payload).length < kMoldHeaderBytes)
    (tWire : UInt64) {feed : FeedState}
    (htrack : (pipe.feed.countReceived (received payload).length).track
      (parseMoldHeader (.ofList (received payload))) = (feed, .accepted))
    (hroom : pipe.ring.length < room) :
    Relation.ReflTransGen (NetworkStep port room) pipe
      { pipe with
        pool := pipe.pool.acquire.2.modify slotIdx fun slot => slot.fill (received payload)
        ring := pipe.ring ++ [⟨slotIdx, tWire⟩]
        network := .testing false
        feed } := by
  have hhand : (if pipe.pool.acquire.1 = kPoolInvalid then NetworkPc.draining
      else .receiving pipe.pool.acquire.1) = .receiving slotIdx := by
    rw [hslot, if_neg hvalid]
  have hloop : Relation.ReflTransGen (NetworkStep port room) pipe _ :=
    .single (.loop pipe false hpc hstop)
  have hacquired := hloop.tail (.acquire _ rfl)
  have hfilled := hacquired.tail
    (.receive _ slotIdx payload tWire hhand hlong feed .accepted htrack)
  exact hfilled.tail (.push _ ⟨slotIdx, tWire⟩ .socket _ rfl (.push _ hroom))

theorem Reached.networkRun {port : UInt16} {numSlots capacity : ℕ} {pipe next : Pipeline}
    (hreached : Reached port numSlots capacity pipe)
    (hrun : Relation.ReflTransGen (NetworkStep port (capacity - 1)) pipe next) :
    Reached port numSlots capacity next :=
  hreached.trans (Relation.ReflTransGen.mono (fun _ _ hstep => .inl (.inl hstep)) _ _ hrun)

theorem Reached.receive_push {port : UInt16} {numSlots capacity : ℕ} {pipe : Pipeline}
    (hreached : Reached port numSlots capacity pipe) (hpc : pipe.network = .testing false)
    (hstop : pipe.stop = false) {slotIdx : UInt32} (hslot : pipe.pool.acquire.1 = slotIdx)
    (hvalid : slotIdx ≠ kPoolInvalid) {payload : List UInt8}
    (hlong : ¬ (received payload).length < kMoldHeaderBytes) (tWire : UInt64) {feed : FeedState}
    (htrack : (pipe.feed.countReceived (received payload).length).track
      (parseMoldHeader (.ofList (received payload))) = (feed, .accepted))
    (hroom : pipe.ring.length < capacity - 1) :
    Reached port numSlots capacity
      { pipe with
        pool := pipe.pool.acquire.2.modify slotIdx fun slot => slot.fill (received payload)
        ring := pipe.ring ++ [⟨slotIdx, tWire⟩]
        network := .testing false
        feed } :=
  hreached.networkRun
    (NetworkStep.receive_push port hpc hstop hslot hvalid hlong tWire htrack hroom)

end Orderbook
