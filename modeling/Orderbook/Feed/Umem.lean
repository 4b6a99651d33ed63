/-
# The frames of the AF_XDP receive path

The receive path without a socket shares an area of frames with the kernel. Two rings carry
addresses: the fill ring hands frames to the kernel, and the receive ring brings them back
with packets in them. The handler peeks a batch, looks at each frame where it lies, copies the
packets it accepts into the pool, releases the batch and hands the frames back.

Nothing but the rings says whose a frame is, and the kernel may write to its frames at any time.
The kernel and the library of the rings are not in the source. The kernel is a relation between
the contents of the area, and what the handler relies on is written out as its contract. The
reservation in the fill ring is a parameter as well, since it may give less than there is. The
set-up calls have been made: the fill ring holds all frames.
-/

import Orderbook.Feed.Pipeline

namespace Orderbook

open Orderbook.Math

/-- `XSK_UMEM__DEFAULT_FRAME_SIZE`. -/
def kFrameSize : ℕ := 4096

/-- A part of the area: where a packet lies and how long it is. -/
structure XdpDesc where
  addr : ℕ
  len : ℕ
  deriving DecidableEq, Repr

/-- The frame in which an address lies. -/
def frameOf (addr : ℕ) : ℕ := addr / kFrameSize

/-- A packet lies in one frame. -/
def XdpDesc.Inside (desc : XdpDesc) : Prop := desc.addr % kFrameSize + desc.len ≤ kFrameSize

/-- The area and its rings. The frames that the kernel has taken are kept beside them. -/
structure Umem where
  area : Memory
  fill : List ℕ
  kernel : List ℕ := []
  rx : List XdpDesc := []

namespace Umem

/-- All frames are handed to the kernel upfront. -/
def create (numFrames : ℕ) (area : Memory) : Umem where
  area
  fill := (List.range numFrames).map (· * kFrameSize)

def bytes (umem : Umem) (desc : XdpDesc) : List UInt8 := umem.area.slice desc.addr desc.len

/-- The frames of a batch from the `i`-th on. -/
def contents (umem : Umem) (rcvd i : ℕ) : List (List UInt8) :=
  ((umem.rx.take rcvd).drop i).map umem.bytes

/-- The frames in the rings and with the kernel. -/
def frames (umem : Umem) : List ℕ :=
  umem.fill.map frameOf ++ (umem.kernel ++ umem.rx.map (frameOf ∘ XdpDesc.addr))

end Umem

/-- What the handler relies on: the kernel leaves the descriptors in the receive ring, writes to
no frame that it has not taken, delivers packets that lie in one frame, and moves frames on without
making any. -/
structure KernelContract (kernel : Umem → Umem → Prop) : Prop where
  rx_front {umem next : Umem} : kernel umem next → umem.rx <+: next.rx
  bytes_eq {umem next : Umem} : kernel umem next → ∀ desc : XdpDesc, desc.Inside →
    frameOf desc.addr ∉ umem.kernel → next.bytes desc = umem.bytes desc
  inside {umem next : Umem} : kernel umem next → (∀ desc ∈ umem.rx, desc.Inside) →
    ∀ desc ∈ next.rx, desc.Inside
  frames_perm {umem next : Umem} : kernel umem next → next.frames.Perm umem.frames

/-- Where the handler stands. A batch has `rcvd` frames, of which the `i`-th is looked at. -/
inductive XdpPc
  | setUp
  /-- In front of the test at the top of the loop. -/
  | testing (done : Bool)
  | peeking
  /-- In front of the next frame of a batch, or behind the last one. -/
  | scanning (tWire : UInt64) (rcvd i : ℕ)
  /-- In front of `acquire`, with the place of the packet. -/
  | claiming (tWire : UInt64) (rcvd i : ℕ) (moldPkt : XdpDesc)
  /-- In front of the copy into a slot. -/
  | copying (slotIdx : UInt32) (tWire : UInt64) (rcvd i : ℕ) (moldPkt : XdpDesc)
  | pushing (ref : PacketRef) (rcvd i : ℕ)
  | releasing (slotIdx : UInt32) (tWire : UInt64) (rcvd i : ℕ)
  | sealing (tWire : UInt64) (rcvd : ℕ)
  | waiting (tWire : UInt64) (rcvd : ℕ)
  /-- In front of the release of the batch. -/
  | releasingRx (rcvd : ℕ) (done : Bool)
  /-- In front of the reservation in the fill ring. -/
  | refilling (rcvd : ℕ) (done : Bool)
  | finished
  deriving DecidableEq, Repr

/-- The threads of `runUdp` with the frames of the area. The frames that were not handed back
are kept as well; they are not in the source. -/
structure XdpPipeline where
  umem : Umem
  batchAddrs : ℕ → ℕ
  lost : List ℕ := []
  handler : XdpPc := .setUp
  pool : PacketPool
  ring : List PacketRef := []
  stop : Bool := false
  feed : FeedState := {}
  matching : MatchingPc := .popping 0

def XdpPipeline.initial (numFrames numSlots : ℕ) (area : Memory) (batchAddrs : ℕ → ℕ) :
    XdpPipeline where
  umem := .create numFrames area
  batchAddrs
  pool := .create numSlots

/-- The network thread as the pipeline has it: a batch is the bytes of its frames. -/
def XdpPc.network (umem : Umem) : XdpPc → NetworkPc
  | setUp => .setUp
  | testing done => if done then .finished else .testing true
  | peeking => .peeking
  | scanning tWire rcvd i => .scanning tWire (umem.contents rcvd i)
  | claiming tWire rcvd i moldPkt =>
      .claiming (umem.bytes moldPkt) tWire (umem.contents rcvd (i + 1))
  | copying slotIdx tWire rcvd i moldPkt =>
      .copying slotIdx (umem.bytes moldPkt) tWire (umem.contents rcvd (i + 1))
  | pushing ref rcvd i => .pushing ref (.batch ref.tWireCycles (umem.contents rcvd (i + 1)))
  | releasing slotIdx tWire rcvd i =>
      .releasing slotIdx (.again (.batch tWire (umem.contents rcvd (i + 1))))
  | sealing tWire _ => .sealing tWire
  | waiting tWire _ => .waiting tWire
  | releasingRx _ done => if done then .finished else .testing true
  | refilling _ done => if done then .finished else .testing true
  | finished => .finished

/-- The pipeline that the threads run. -/
def XdpPipeline.view (state : XdpPipeline) : Pipeline where
  pool := state.pool
  ring := state.ring
  stop := state.stop
  network := state.handler.network state.umem
  feed := state.feed
  matching := state.matching

/-- What the loop does with a packet in the `i`-th frame. -/
def afterLook (tWire : UInt64) (rcvd i : ℕ) (moldPkt : XdpDesc) : Verdict → XdpPc
  | .endOfSession => .sealing tWire rcvd
  | .heartbeat => .scanning tWire rcvd (i + 1)
  | .duplicate => .scanning tWire rcvd (i + 1)
  | .accepted => .claiming tWire rcvd i moldPkt

/-- The packet in a frame ends with the frame. -/
def XdpDesc.tail (desc : XdpDesc) (len : ℕ) : XdpDesc := ⟨desc.addr + (desc.len - len), len⟩

/-- The steps of the handler in which nothing fails. `gives` says what a reservation may give
of the frames it is asked for, when so many entries are free. -/
inductive HandlerStep (port : UInt16) (room numFrames : ℕ) (gives : ℕ → ℕ → ℕ → Prop)
    (state : XdpPipeline) : XdpPipeline → Prop
  | setUp (hpc : state.handler = .setUp) :
      HandlerStep port room numFrames gives state { state with handler := .testing false }
  | ended (hpc : state.handler = .testing true) :
      HandlerStep port room numFrames gives state { state with handler := .finished }
  | stopped (hpc : state.handler = .testing false) (hstop : state.stop = true) :
      HandlerStep port room numFrames gives state { state with handler := .finished }
  | loop (hpc : state.handler = .testing false) (hstop : state.stop = false) :
      HandlerStep port room numFrames gives state { state with handler := .peeking }
  | peek (tWire : UInt64) (rcvd : ℕ) (hpc : state.handler = .peeking)
      (hbatch : rcvd ≤ kBatchSize) (hrcvd : rcvd ≤ state.umem.rx.length) :
      HandlerStep port room numFrames gives state
        { state with handler := if rcvd = 0 then .testing false else .scanning tWire rcvd 0 }
  | skip (tWire : UInt64) (rcvd i : ℕ) (desc : XdpDesc)
      (hpc : state.handler = .scanning tWire rcvd i) (hi : i < rcvd)
      (hdesc : state.umem.rx[i]? = some desc)
      (hnone : moldPacket port (state.umem.bytes desc) = none) :
      HandlerStep port room numFrames gives state
        { state with
          batchAddrs := Function.update state.batchAddrs i desc.addr
          handler := .scanning tWire rcvd (i + 1) }
  | scan (tWire : UInt64) (rcvd i : ℕ) (desc : XdpDesc) (moldPkt : List UInt8)
      (feed : FeedState) (verdict : Verdict) (hpc : state.handler = .scanning tWire rcvd i)
      (hi : i < rcvd) (hdesc : state.umem.rx[i]? = some desc)
      (hsome : moldPacket port (state.umem.bytes desc) = some moldPkt)
      (htrack : (state.feed.countReceived moldPkt.length).track
        (parseMoldHeader (.ofList moldPkt)) = (feed, verdict)) :
      HandlerStep port room numFrames gives state
        { state with
          batchAddrs := Function.update state.batchAddrs i desc.addr
          feed
          handler := afterLook tWire rcvd i (desc.tail moldPkt.length) verdict }
  | claim (tWire : UInt64) (rcvd i : ℕ) (moldPkt : XdpDesc)
      (hpc : state.handler = .claiming tWire rcvd i moldPkt)
      (hslot : state.pool.acquire.1 ≠ kPoolInvalid) :
      HandlerStep port room numFrames gives state
        { state with
          pool := state.pool.acquire.2
          handler := .copying state.pool.acquire.1 tWire rcvd i moldPkt }
  | noSlot (tWire : UInt64) (rcvd i : ℕ) (moldPkt : XdpDesc)
      (hpc : state.handler = .claiming tWire rcvd i moldPkt)
      (hslot : state.pool.acquire.1 = kPoolInvalid) :
      HandlerStep port room numFrames gives state
        { state with
          pool := state.pool.acquire.2
          feed := state.feed.countDropped
          handler := .scanning tWire rcvd (i + 1) }
  | copy (slotIdx : UInt32) (tWire : UInt64) (rcvd i : ℕ) (moldPkt : XdpDesc)
      (hpc : state.handler = .copying slotIdx tWire rcvd i moldPkt) :
      HandlerStep port room numFrames gives state
        { state with
          pool := state.pool.modify slotIdx fun slot =>
            slot.fill (received (state.umem.bytes moldPkt))
          handler := .pushing ⟨slotIdx, tWire⟩ rcvd i }
  | push (ref : PacketRef) (rcvd i : ℕ) (ring : List PacketRef)
      (hpc : state.handler = .pushing ref rcvd i)
      (hring : QueueStep room state.ring (.pushed ref) ring) :
      HandlerStep port room numFrames gives state
        { state with ring, handler := .scanning ref.tWireCycles rcvd (i + 1) }
  | refuse (ref : PacketRef) (rcvd i : ℕ) (ring : List PacketRef)
      (hpc : state.handler = .pushing ref rcvd i)
      (hring : QueueStep room state.ring (.refused ref) ring) :
      HandlerStep port room numFrames gives state
        { state with
          ring
          feed := state.feed.countDropped
          handler := .releasing ref.poolIdx ref.tWireCycles rcvd i }
  | release (slotIdx : UInt32) (tWire : UInt64) (rcvd i : ℕ)
      (hpc : state.handler = .releasing slotIdx tWire rcvd i) :
      HandlerStep port room numFrames gives state
        { state with
          pool := state.pool.release slotIdx
          handler := .scanning tWire rcvd (i + 1) }
  | sentinel (tWire : UInt64) (rcvd : ℕ) (ring : List PacketRef)
      (hpc : state.handler = .sealing tWire rcvd)
      (hring : QueueStep room state.ring (.pushed ⟨kPoolInvalid, tWire⟩) ring) :
      HandlerStep port room numFrames gives state
        { state with
          ring
          feed := { state.feed with sentinel := some ⟨kPoolInvalid, tWire⟩ }
          handler := .releasingRx rcvd true }
  | sentinelRefused (tWire : UInt64) (rcvd : ℕ) (ring : List PacketRef)
      (hpc : state.handler = .sealing tWire rcvd)
      (hring : QueueStep room state.ring (.refused ⟨kPoolInvalid, tWire⟩) ring) :
      HandlerStep port room numFrames gives state
        { state with ring, handler := .waiting tWire rcvd }
  | waitStopped (tWire : UInt64) (rcvd : ℕ) (hpc : state.handler = .waiting tWire rcvd)
      (hstop : state.stop = true) :
      HandlerStep port room numFrames gives state
        { state with handler := .releasingRx rcvd true }
  | waitOn (tWire : UInt64) (rcvd : ℕ) (hpc : state.handler = .waiting tWire rcvd)
      (hstop : state.stop = false) :
      HandlerStep port room numFrames gives state { state with handler := .sealing tWire rcvd }
  | batchDone (tWire : UInt64) (rcvd : ℕ) (hpc : state.handler = .scanning tWire rcvd rcvd) :
      HandlerStep port room numFrames gives state
        { state with handler := .releasingRx rcvd false }
  | releaseRx (rcvd : ℕ) (done : Bool) (hpc : state.handler = .releasingRx rcvd done) :
      HandlerStep port room numFrames gives state
        { state with
          umem := { state.umem with rx := state.umem.rx.drop rcvd }
          handler := .refilling rcvd done }
  | refill (rcvd got : ℕ) (done : Bool) (hpc : state.handler = .refilling rcvd done)
      (hgot : gives rcvd (numFrames - state.umem.fill.length) got) :
      HandlerStep port room numFrames gives state
        { state with
          umem :=
            { state.umem with fill := state.umem.fill ++ (List.range got).map state.batchAddrs }
          lost := state.lost ++ ((List.range rcvd).drop got).map (frameOf ∘ state.batchAddrs)
          handler := .testing done }

/-- A step of one of the three parties, or a set-up call that fails. -/
inductive XdpStep (port : UInt16) (room numFrames : ℕ) (kernel : Umem → Umem → Prop)
    (gives : ℕ → ℕ → ℕ → Prop) (state : XdpPipeline) : XdpPipeline → Prop
  | kernel {umem : Umem} (hstep : kernel state.umem umem) :
      XdpStep port room numFrames kernel gives state { state with umem }
  | handler {next : XdpPipeline} (hstep : HandlerStep port room numFrames gives state next) :
      XdpStep port room numFrames kernel gives state next
  | matching {next : Pipeline} (hstep : MatchingStep room state.view next) :
      XdpStep port room numFrames kernel gives state
        { state with
          pool := next.pool
          ring := next.ring
          stop := next.stop
          matching := next.matching }
  | setUpFailed (hpc : state.handler = .setUp) :
      XdpStep port room numFrames kernel gives state { state with handler := .finished }

end Orderbook
