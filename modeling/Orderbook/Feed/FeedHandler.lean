/-
# The feed handlers

Two receive loops feed the matching thread: one reads a UDP socket and one takes
raw Ethernet frames from a shared ring. Both count what they see, track the
sequence numbers of one session in the same way and push the packets they accept
to a ring.

What the loops cannot decide themselves is an input of each turn: the slot that
the packet pool gives, what the socket or the frame ring delivers, the time, and
whether the ring takes a packet. A loop ends with its inputs when it is stopped.
-/

import Orderbook.Feed.MoldUdp64
import Orderbook.Math.Run

namespace Orderbook

open Orderbook.Math

def kMaxPacketBytes : ℕ := 2048

def kPoolInvalid : UInt32 := 0xFFFFFFFF

/-- What the ring carries. -/
structure PacketRef where
  poolIdx : UInt32
  tWireCycles : UInt64
  deriving DecidableEq, Repr

structure FeedStats where
  packetsReceived : ℕ := 0
  packetsDropped : ℕ := 0
  bytesReceived : ℕ := 0
  gapsDetected : ℕ := 0
  duplicatesIgnored : ℕ := 0
  endOfSession : ℕ := 0
  deriving DecidableEq, Repr

/-- The locals of a receive loop, its counters, and the end-of-session sentinel
once the ring holds it. -/
structure FeedState where
  activeSession : Vector UInt8 10 := Vector.replicate 10 0
  sessionInit : Bool := false
  nextExpected : UInt64 := 1
  stats : FeedStats := {}
  sentinel : Option PacketRef := none
  deriving DecidableEq, Repr

/-- A packet that passed the sequence check, the gap counter at that time and
whether the ring took the packet. -/
structure Accepted where
  header : MoldHeader
  data : List UInt8
  ref : PacketRef
  gapsDetected : ℕ
  pushed : Bool
  deriving DecidableEq, Repr

/-- What the sequence check makes of a packet. -/
inductive Verdict
  | endOfSession
  | heartbeat
  | duplicate
  | accepted
  deriving DecidableEq, Repr

namespace FeedState

/-- Count a received packet. -/
def countReceived (state : FeedState) (bytes : ℕ) : FeedState :=
  { state with
    stats :=
      { state.stats with
        packetsReceived := state.stats.packetsReceived + 1
        bytesReceived := state.stats.bytesReceived + bytes } }

/-- Count a dropped packet. -/
def countDropped (state : FeedState) : FeedState :=
  { state with
    stats := { state.stats with packetsDropped := state.stats.packetsDropped + 1 } }

/-- The first packet decides where the session starts. -/
def initSession (state : FeedState) (hdr : MoldHeader) : FeedState :=
  if state.sessionInit then state
  else
    { state with
      activeSession := hdr.session
      sessionInit := true
      nextExpected := hdr.sequenceNumber }

/-- Count a gap in front of a packet and resync to the packet. -/
def resync (state : FeedState) (hdr : MoldHeader) : FeedState :=
  if hdr.sequenceNumber > state.nextExpected then
    { state with
      stats := { state.stats with gapsDetected := state.stats.gapsDetected + 1 }
      nextExpected := hdr.sequenceNumber }
  else state

/-- The checks between parsing a header and pushing its packet, which the two
loops have in common. -/
def track (state : FeedState) (hdr : MoldHeader) : FeedState × Verdict :=
  let state := state.initSession hdr
  if hdr.messageCount = kMoldEndOfSession then
    ({ state with stats := { state.stats with endOfSession := state.stats.endOfSession + 1 } },
      .endOfSession)
  else if hdr.messageCount = kMoldHeartbeat then (state, .heartbeat)
  else if hdr.sequenceNumber < state.nextExpected then
    ({ state with
        stats := { state.stats with duplicatesIgnored := state.stats.duplicatesIgnored + 1 } },
      .duplicate)
  else
    let state := state.resync hdr
    ({ state with nextExpected := state.nextExpected + hdr.messageCount.toUInt64 }, .accepted)

end FeedState

/-- What `recv` returns. -/
inductive RecvResult
  | failed (interrupted : Bool)
  | datagram (payload : List UInt8)
  deriving DecidableEq, Repr

/-- The inputs of one turn of the socket loop. -/
structure RecvTurn where
  slotIdx : UInt32
  recv : RecvResult
  tWire : UInt64 := 0
  pushed : Bool := true
  deriving DecidableEq, Repr

/-- The bytes that `recv` writes into a packet buffer. -/
def received (payload : List UInt8) : List UInt8 := payload.take kMaxPacketBytes

/-- The end of the session: the sentinel is pushed until the ring takes it or the
loop is stopped, and the loop ends. -/
def endSession (state : FeedState) (tWire : UInt64) (pushed : Bool) :
    Pass FeedState Accepted where
  state := { state with sentinel := if pushed then some ⟨kPoolInvalid, tWire⟩ else none }
  finished := true

/-- Push a packet. When the ring is full the packet is dropped. -/
def pushPacket (state : FeedState) (hdr : MoldHeader) (data : List UInt8) (ref : PacketRef)
    (pushed : Bool) : Pass FeedState Accepted where
  state := if pushed then state else state.countDropped
  answers := [⟨hdr, data, ref, state.stats.gapsDetected, pushed⟩]

/-- One turn of the loop of `runFeedHandler`. -/
def receive (state : FeedState) (turn : RecvTurn) : Pass FeedState Accepted :=
  if turn.slotIdx = kPoolInvalid then
    match turn.recv with
    | .failed _ => { state }
    | .datagram payload =>
        let n := (received payload).length
        if n = 0 then { state } else { state := (state.countReceived n).countDropped }
  else
    match turn.recv with
    | .failed interrupted => { state, finished := !interrupted }
    | .datagram payload =>
        let data := received payload
        if data.length < kMoldHeaderBytes then { state }
        else
          let hdr := parseMoldHeader (.ofList data)
          match (state.countReceived data.length).track hdr with
          | (state, .endOfSession) => endSession state turn.tWire turn.pushed
          | (state, .heartbeat) => { state }
          | (state, .duplicate) => { state }
          | (state, .accepted) =>
              pushPacket state hdr data ⟨turn.slotIdx, turn.tWire⟩ turn.pushed

/-- The receive loop behind the socket set-up. -/
def runFeedHandler (turns : List RecvTurn) : FeedState × List Accepted :=
  runUntil receive {} turns

def kEthHdrSize : ℕ := 14

def kIpHdrMin : ℕ := 20

def kUdpHdrSize : ℕ := 8

/-- `ETH_P_IP`. -/
def ethPIp : UInt16 := 0x0800

/-- `IPPROTO_UDP`. -/
def ipProtoUdp : UInt8 := 17

/-- The MoldUDP64 packet in an Ethernet frame, if the frame is a UDP datagram to
the port that is long enough to hold one. -/
def moldPacket (port : UInt16) (frame : List UInt8) : Option (List UInt8) :=
  let mem : Memory := .ofList frame
  let frameLen := frame.length
  if frameLen < kEthHdrSize + kIpHdrMin + kUdpHdrSize + kMoldHeaderBytes then none
  else if ntohs (mem.load16 12) ≠ ethPIp then none
  else
    let ip := mem.advance kEthHdrSize
    let ipLen := (ip 0 &&& 0x0F).toNat * 4
    if ip 0 >>> 4 ≠ 4 then none
    else if ipLen < kIpHdrMin then none
    else if ip 9 ≠ ipProtoUdp then none
    else
      let udpOffset := kEthHdrSize + ipLen
      if frameLen < udpOffset + kUdpHdrSize + kMoldHeaderBytes then none
      else if ntohs ((mem.advance udpOffset).load16 2) ≠ port then none
      else
        let moldPkt := frame.drop (udpOffset + kUdpHdrSize)
        if moldPkt.length < kMoldHeaderBytes then none else some moldPkt

/-- The inputs of one frame. The slot is what the pool gives if it is asked. -/
structure FrameTurn where
  frame : List UInt8
  slotIdx : UInt32
  tWire : UInt64 := 0
  pushed : Bool := true
  deriving DecidableEq, Repr

/-- One frame of the loop of `runFeedHandlerXdp`. The pool is asked for a slot
only after the sequence check. -/
def receiveFrame (port : UInt16) (state : FeedState) (turn : FrameTurn) :
    Pass FeedState Accepted :=
  match moldPacket port turn.frame with
  | none => { state }
  | some moldPkt =>
      let hdr := parseMoldHeader (.ofList moldPkt)
      match (state.countReceived moldPkt.length).track hdr with
      | (state, .endOfSession) => endSession state turn.tWire turn.pushed
      | (state, .heartbeat) => { state }
      | (state, .duplicate) => { state }
      | (state, .accepted) =>
          pushPacket state hdr (received moldPkt) ⟨turn.slotIdx, turn.tWire⟩
            (turn.slotIdx ≠ kPoolInvalid && turn.pushed)

/-- The receive loop behind the set-up of the shared memory. Frames come in
batches; a batch is left at the end of the session, and then the loop is. -/
def runFeedHandlerXdp (port : UInt16) (batches : List (List FrameTurn)) :
    FeedState × List Accepted :=
  runUntil (receiveFrame port) {} batches.flatten

end Orderbook
