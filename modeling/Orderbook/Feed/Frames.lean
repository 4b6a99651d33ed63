/-
# Frames and datagrams

The frame loop takes raw Ethernet frames and finds the UDP datagrams to its port
by itself; the socket loop gets them from the kernel. What a frame is, and which
datagram it carries, is stated here over the bytes at their places in the headers,
without the loop. On the same traffic the two loops then push the same packets and
count the same.

The loops do the work in different orders: one takes a slot before it knows what
the packet is, the other only when it needs one. With a slot for every packet the
difference does not show.
-/

import Orderbook.Feed.Session
import Orderbook.Itch.Buffer

namespace Orderbook

open Orderbook.Math

/-- Two bytes in network order are the bytes of what is loaded from them. -/
theorem take_drop_eq_wire16 {bytes : List UInt8} {offset : ℕ}
    (hfits : offset + 2 ≤ bytes.length) :
    (bytes.drop offset).take 2 = wire16 (ntohs ((Memory.ofList bytes).load16 offset)) := by
  rw [Memory.load16, wire16_ntohs]
  unfold Memory.ofList
  rw [List.getD_eq_getElem _ _ (by omega), List.getD_eq_getElem _ _ (by omega),
    List.drop_eq_getElem_cons (by omega), List.drop_eq_getElem_cons (by omega)]
  rfl

theorem wire16_injective : Function.Injective wire16 := by
  intro first second hbytes
  obtain ⟨hhigh, hlow⟩ := List.cons_eq_cons.mp hbytes
  rw [← ntohs_load first, ← ntohs_load second, hhigh, (List.cons_eq_cons.mp hlow).1]

/-- Loading two bytes gives a value exactly when its bytes are there. -/
theorem ntohs_load16_eq_iff {bytes : List UInt8} {offset : ℕ} {value : UInt16}
    (hfits : offset + 2 ≤ bytes.length) :
    ntohs ((Memory.ofList bytes).load16 offset) = value ↔
      (bytes.drop offset).take 2 = wire16 value := by
  rw [take_drop_eq_wire16 hfits]
  exact wire16_injective.eq_iff.symm

theorem ofList_eq_iff {bytes : List UInt8} {offset : ℕ} {byte : UInt8}
    (hfits : offset < bytes.length) :
    Memory.ofList bytes offset = byte ↔ bytes[offset]? = some byte := by
  rw [Memory.ofList, List.getD_eq_getElem _ _ hfits, List.getElem?_eq_getElem hfits,
    Option.some.injEq]

/-- The first byte of an IPv4 header is its version and its length in words. -/
theorem version_iff {byte : UInt8} {ihl : ℕ} (hihl : ihl ≤ 15) :
    (byte >>> 4 = 4 ∧ (byte &&& 0x0F).toNat = ihl) ↔ byte = UInt8.ofNat (0x40 + ihl) := by
  have hhigh : (byte >>> 4 = 4) ↔ byte.toNat / 16 = 4 := by
    rw [← UInt8.toNat_inj, UInt8.toNat_shiftRight]
    rw [Nat.shiftRight_eq_div_pow]
    rfl
  have hlow : (byte &&& 0x0F).toNat = byte.toNat % 16 := by
    rw [UInt8.toNat_and]
    exact Nat.and_two_pow_sub_one_eq_mod byte.toNat 4
  rw [hhigh, hlow, ← UInt8.toNat_inj, UInt8.toNat_ofNat']
  omega

/-- A frame whose headers are those of a UDP datagram in an IPv4 packet to a port,
behind an IPv4 header of `ihl` words. -/
structure AddressedTo (port : UInt16) (frame : List UInt8) (ihl : ℕ) : Prop where
  words : 5 ≤ ihl ∧ ihl ≤ 15
  room : kEthHdrSize + 4 * ihl + kUdpHdrSize ≤ frame.length
  ethernet : (frame.drop 12).take 2 = wire16 ethPIp
  version : frame[kEthHdrSize]? = some (UInt8.ofNat (0x40 + ihl))
  protocol : frame[kEthHdrSize + 9]? = some ipProtoUdp
  destination : (frame.drop (kEthHdrSize + 4 * ihl + 2)).take 2 = wire16 port

/-- A frame that carries a whole datagram to a port: the packet is no fragment, and
its two lengths agree with the length of the frame. -/
structure Carries (port : UInt16) (frame : List UInt8) (ihl : ℕ) (payload : List UInt8) : Prop
    extends AddressedTo port frame ihl where
  unfragmented : ∃ flags, (frame.drop (kEthHdrSize + 6)).take 2 = [flags, 0] ∧ flags &&& 0x3F = 0
  totalLength : (frame.drop (kEthHdrSize + 2)).take 2 =
    wire16 (UInt16.ofNat (4 * ihl + kUdpHdrSize + payload.length))
  udpLength : (frame.drop (kEthHdrSize + 4 * ihl + 4)).take 2 =
    wire16 (UInt16.ofNat (kUdpHdrSize + payload.length))
  payload_eq : frame.drop (kEthHdrSize + 4 * ihl + kUdpHdrSize) = payload
  short : payload.length ≤ kMaxPacketBytes

/-- The filter passes no frame that is not addressed to the port. -/
theorem moldPacket_of_not_addressed {port : UInt16} {frame : List UInt8}
    (hother : ∀ ihl, ¬ AddressedTo port frame ihl) : moldPacket port frame = none := by
  cases hpacket : moldPacket port frame with
  | none => rfl
  | some moldPkt =>
      unfold moldPacket at hpacket
      simp only [Option.ite_none_left_eq_some, ne_eq, not_not, Nat.not_lt] at hpacket
      obtain ⟨_, hethernet, hversion, hwords, hprotocol, hroom, hport, _⟩ := hpacket
      simp only [kEthHdrSize, kIpHdrMin, kUdpHdrSize, kMoldHeaderBytes, Memory.advance]
        at hethernet hversion hwords hprotocol hroom hport
      set ihl := (Memory.ofList frame 14 &&& 0x0F).toNat with hihl
      have hbound : ihl ≤ 15 := by
        rw [hihl, UInt8.toNat_and]
        exact Nat.and_le_right
      refine absurd ?_ (hother ihl)
      refine ⟨⟨by omega, hbound⟩, by simp only [kEthHdrSize, kUdpHdrSize]; omega, ?_, ?_, ?_, ?_⟩
      · exact (ntohs_load16_eq_iff (by omega)).mp hethernet
      · exact (ofList_eq_iff (by simp only [kEthHdrSize]; omega)).mp
          ((version_iff hbound).mp ⟨hversion, rfl⟩)
      · exact (ofList_eq_iff (by simp only [kEthHdrSize]; omega)).mp hprotocol
      · apply (ntohs_load16_eq_iff (by simp only [kEthHdrSize]; omega)).mp
        rw [← hport, Nat.mul_comm 4 ihl]
        rfl

/-- From a frame that carries a datagram the filter takes the datagram, unless it
is too short for a header. -/
theorem Carries.moldPacket_eq {port : UInt16} {frame payload : List UInt8} {ihl : ℕ}
    (hcarries : Carries port frame ihl payload) :
    moldPacket port frame =
      if payload.length < kMoldHeaderBytes then none else some payload := by
  obtain ⟨hleast, hmost⟩ := hcarries.words
  have hroom := hcarries.room
  have hlength : frame.length = kEthHdrSize + 4 * ihl + kUdpHdrSize + payload.length := by
    rw [← hcarries.payload_eq, List.length_drop]
    omega
  have hethernet := (ntohs_load16_eq_iff (by simp only [kEthHdrSize] at hroom; omega)).mpr
    hcarries.ethernet
  obtain ⟨hversion, hwords⟩ := (version_iff hmost).mpr
    ((ofList_eq_iff (by omega)).mpr hcarries.version)
  have hprotocol := (ofList_eq_iff (by omega)).mpr hcarries.protocol
  have hport := (ntohs_load16_eq_iff (by simp only [kUdpHdrSize] at hroom; omega)).mpr
    hcarries.destination
  have hdestination : ((Memory.ofList frame).advance (kEthHdrSize + ihl * 4)).load16 2 =
      (Memory.ofList frame).load16 (kEthHdrSize + 4 * ihl + 2) := by
    rw [Nat.mul_comm]
    rfl
  have hbody : frame.drop (kEthHdrSize + ihl * 4 + kUdpHdrSize) = payload := by
    rw [Nat.mul_comm]
    exact hcarries.payload_eq
  have hip : ∀ i, (Memory.ofList frame).advance kEthHdrSize i =
      Memory.ofList frame (kEthHdrSize + i) := fun _ => rfl
  have hleastBytes : ¬ ihl * 4 < kIpHdrMin := by
    simp only [kIpHdrMin]
    omega
  unfold moldPacket
  simp only [hip, Nat.add_zero, hethernet, hversion, hwords, hprotocol, hdestination, hport, hbody,
    hleastBytes, hlength, ne_eq, not_true_eq_false, if_false]
  by_cases hshort : payload.length < kMoldHeaderBytes
  · rw [if_pos hshort, if_pos (show kEthHdrSize + 4 * ihl + kUdpHdrSize + payload.length <
      kEthHdrSize + ihl * 4 + kUdpHdrSize + kMoldHeaderBytes by omega), ite_self]
  · have hlong : ¬ kEthHdrSize + 4 * ihl + kUdpHdrSize + payload.length <
        kEthHdrSize + kIpHdrMin + kUdpHdrSize + kMoldHeaderBytes := by
      simp only [kIpHdrMin]
      omega
    rw [if_neg hlong, if_neg (show ¬ kEthHdrSize + 4 * ihl + kUdpHdrSize + payload.length <
      kEthHdrSize + ihl * 4 + kUdpHdrSize + kMoldHeaderBytes by omega)]

/-- The state of a loop without the sentinel, which has the loop's own time stamp. -/
def FeedState.unsealed (state : FeedState) : FeedState := { state with sentinel := none }

@[simp]
theorem FeedState.sessionInit_unsealed (state : FeedState) :
    state.unsealed.sessionInit = state.sessionInit := rfl

@[simp]
theorem FeedState.nextExpected_unsealed (state : FeedState) :
    state.unsealed.nextExpected = state.nextExpected := rfl

/-- The sequence check does not look at the sentinel. -/
theorem FeedState.track_unsealed (state : FeedState) (hdr : MoldHeader) :
    state.unsealed.track hdr = ((state.track hdr).1.unsealed, (state.track hdr).2) := by
  have hstarted : state.unsealed.initSession hdr = (state.initSession hdr).unsealed := by
    unfold initSession
    rw [sessionInit_unsealed]
    split <;> rfl
  have hresync : ∀ started : FeedState,
      started.unsealed.resync hdr = (started.resync hdr).unsealed := by
    intro started
    unfold resync
    rw [nextExpected_unsealed]
    split <;> rfl
  unfold track
  rw [hstarted]
  generalize state.initSession hdr = started
  dsimp only
  rw [nextExpected_unsealed, hresync]
  split
  · rfl
  · split
    · rfl
    · split <;> rfl

/-- Two accepted packets with the same bytes and the same fate. -/
def Accepted.SamePacket (entry entry' : Accepted) : Prop :=
  entry.data = entry'.data ∧ entry.pushed = entry'.pushed

/-- What is done with a header does not depend on the slot or the time. -/
theorem dispatch_unsealed {state state' : FeedState} (hsame : state.unsealed = state'.unsealed)
    (hdr : MoldHeader) (data : List UInt8) (ref ref' : PacketRef) (sentinel pushed : Bool) :
    (dispatch state hdr data ref sentinel pushed).finished =
        (dispatch state' hdr data ref' sentinel pushed).finished ∧
      List.Forall₂ Accepted.SamePacket (dispatch state hdr data ref sentinel pushed).answers
        (dispatch state' hdr data ref' sentinel pushed).answers ∧
      (dispatch state hdr data ref sentinel pushed).state.unsealed =
        (dispatch state' hdr data ref' sentinel pushed).state.unsealed := by
  have htrack := state.track_unsealed hdr
  rw [hsame, state'.track_unsealed hdr, Prod.mk.injEq] at htrack
  obtain ⟨hnext, hverdict⟩ := htrack
  unfold dispatch
  generalize state.track hdr = result at hnext hverdict ⊢
  generalize state'.track hdr = result' at hnext hverdict ⊢
  obtain ⟨next, verdict⟩ := result
  obtain ⟨next', verdict'⟩ := result'
  dsimp only at hnext hverdict
  subst hverdict
  cases verdict' with
  | endOfSession => exact ⟨rfl, .nil, hnext.symm⟩
  | heartbeat => exact ⟨rfl, .nil, hnext.symm⟩
  | duplicate => exact ⟨rfl, .nil, hnext.symm⟩
  | accepted =>
      refine ⟨rfl, .cons ⟨rfl, rfl⟩ .nil, ?_⟩
      cases pushed with
      | true => exact hnext.symm
      | false => exact congrArg FeedState.countDropped hnext.symm

/-- A frame that arrives, and the turn of the socket loop for the datagram in it, if
there is one. Both loops get a slot, and both pushes succeed or fail. -/
inductive Arrival (port : UInt16)
  | datagram (ihl : ℕ) (payload : List UInt8) (frame : FrameTurn) (turn : RecvTurn)
      (carries : Carries port frame.frame ihl payload)
      (delivered : turn.recv = .datagram payload)
      (acquired : frame.slotIdx ≠ kPoolInvalid ∧ turn.slotIdx ≠ kPoolInvalid)
      (pushed : frame.pushed = turn.pushed)
  | other (frame : FrameTurn) (elsewhere : ∀ ihl, ¬ AddressedTo port frame.frame ihl)

namespace Arrival

variable {port : UInt16}

def frameTurn : Arrival port → FrameTurn
  | datagram _ _ frame _ _ _ _ _ => frame
  | other frame _ => frame

def recvTurn : Arrival port → Option RecvTurn
  | datagram _ _ _ turn _ _ _ _ => some turn
  | other _ _ => none

/-- A frame without a datagram to the port does nothing. -/
theorem receiveFrame_of_none {arrival : Arrival port} (hnone : arrival.recvTurn = none)
    (state : FeedState) : receiveFrame port state arrival.frameTurn = { state } := by
  cases arrival with
  | datagram => cases hnone
  | other frame elsewhere =>
      rw [frameTurn, receiveFrame, moldPacket_of_not_addressed elsewhere]

/-- The two loops do the same with a datagram. -/
theorem receiveFrame_of_some {arrival : Arrival port} {turn : RecvTurn}
    (hsome : arrival.recvTurn = some turn) {state state' : FeedState}
    (hsame : state.unsealed = state'.unsealed) :
    (receiveFrame port state arrival.frameTurn).finished = (receive state' turn).finished ∧
      List.Forall₂ Accepted.SamePacket (receiveFrame port state arrival.frameTurn).answers
        (receive state' turn).answers ∧
      (receiveFrame port state arrival.frameTurn).state.unsealed =
        (receive state' turn).state.unsealed := by
  cases arrival with
  | other => cases hsome
  | datagram ihl payload frame turn carries delivered acquired pushed =>
      cases hsome
      have hwhole : received payload = payload := List.take_of_length_le carries.short
      rw [frameTurn, receiveFrame, carries.moldPacket_eq]
      by_cases hshort : payload.length < kMoldHeaderBytes
      · rw [if_pos hshort, receive_of_short state' acquired.2 delivered (by rwa [hwhole])]
        exact ⟨rfl, .nil, hsame⟩
      · rw [if_neg hshort, receive_eq_dispatch state' acquired.2 delivered (by rwa [hwhole])]
        dsimp only
        rw [hwhole, pushed]
        have htaken : (frame.slotIdx ≠ kPoolInvalid && turn.pushed) = turn.pushed := by
          simp [acquired.1]
        have hcounted : (state.countReceived payload.length).unsealed =
            (state'.countReceived payload.length).unsealed :=
          congrArg (FeedState.countReceived · payload.length) hsame
        rw [htaken]
        exact dispatch_unsealed hcounted _ payload ⟨frame.slotIdx, frame.tWire⟩ _ _ _

end Arrival

/-- Two loops that pushed the same packets and count the same. -/
structure SameFeed (feed feed' : FeedState × List Accepted) : Prop where
  packets : pushedPackets feed.2 = pushedPackets feed'.2
  nextExpected : feed.1.nextExpected = feed'.1.nextExpected
  stats : feed.1.stats = feed'.1.stats

/-- Packets with the same bytes and the same fate are pushed alike. -/
theorem pushedPackets_congr {log log' : List Accepted}
    (hlogs : List.Forall₂ Accepted.SamePacket log log') :
    pushedPackets log = pushedPackets log' := by
  unfold pushedPackets
  induction hlogs with
  | nil => rfl
  | cons hhead _ ih =>
      rw [List.filter_cons, List.filter_cons, hhead.2]
      split
      · rw [List.map_cons, List.map_cons, hhead.1, ih]
      · exact ih

/-- A frame with an IPv4 header of six words that carries a packet of one message to
port 1. -/
def sixWordFrame (sequenceNumber : UInt64) : List UInt8 :=
  List.replicate 12 0 ++ wire16 ethPIp ++
    ([0x46, 0] ++ wire16 52 ++ [0, 0, 0x40, 0, 64, ipProtoUdp] ++ List.replicate 14 0) ++
    ([0, 7] ++ wire16 1 ++ wire16 28 ++ [0, 0]) ++ (oneMessage sequenceNumber).wire

theorem zero_ne_kPoolInvalid : (0 : UInt32) ≠ kPoolInvalid := by decide

theorem carries_sixWordFrame (sequenceNumber : UInt64) :
    Carries 1 (sixWordFrame sequenceNumber) 6 (oneMessage sequenceNumber).wire where
  words := by decide
  room := by
    rw [sixWordFrame, List.length_append]
    exact Nat.le_add_right _ _
  ethernet := rfl
  version := rfl
  protocol := rfl
  destination := rfl
  unfragmented := ⟨0x40, rfl, by decide⟩
  totalLength := rfl
  udpLength := rfl
  payload_eq := rfl
  short := by
    rw [MoldHeader.length_wire]
    decide

namespace Arrival

def sixWords (sequenceNumber : UInt64) (pushed : Bool) : Arrival 1 :=
  .datagram 6 (oneMessage sequenceNumber).wire
    { frame := sixWordFrame sequenceNumber, slotIdx := 0, pushed }
    (receiveTurn (oneMessage sequenceNumber) pushed) (carries_sixWordFrame sequenceNumber) rfl
    ⟨zero_ne_kPoolInvalid, zero_ne_kPoolInvalid⟩ rfl

/-- A frame of zeros, which is not of IPv4. -/
def zeros : Arrival 1 :=
  .other { frame := List.replicate 60 0, slotIdx := 0 } fun _ haddressed =>
    absurd haddressed.ethernet (by decide)

/-- Two batches: a packet that is pushed, a frame of zeros, and behind a gap of two messages a
packet that the full ring does not take. -/
def twoBatches : List (List (Arrival 1)) := [[sixWords 1 true, zeros], [sixWords 4 false]]

end Arrival

/-- On the same traffic, in whatever batches the frames come, the frame loop pushes
the packets that the socket loop pushes, expects the same number next and ends with
the same counters. -/
theorem xdp_agrees_with_socket (port : UInt16) (batches : List (List (Arrival port))) :
    SameFeed (runFeedHandlerXdp port (batches.map (List.map Arrival.frameTurn)))
      (runFeedHandler (batches.flatten.filterMap Arrival.recvTurn)) := by
  have hloops :
      (runUntil (receiveFrame port) {} (batches.flatten.map Arrival.frameTurn)).1.unsealed =
          (runUntil receive {} (batches.flatten.filterMap Arrival.recvTurn)).1.unsealed ∧
        List.Forall₂ Accepted.SamePacket
          (runUntil (receiveFrame port) {} (batches.flatten.map Arrival.frameTurn)).2
          (runUntil receive {} (batches.flatten.filterMap Arrival.recvTurn)).2 := by
    refine runUntil_filterMap
      (fun state state' : FeedState => state.unsealed = state'.unsealed) ?_ ?_ rfl _
    · intro arrival state state' hnone hsame
      rw [Arrival.receiveFrame_of_none hnone]
      exact ⟨rfl, rfl, hsame⟩
    · intro arrival turn state state' hsome hsame
      exact Arrival.receiveFrame_of_some hsome hsame
  rw [List.map_flatten] at hloops
  obtain ⟨hlast, hlogs⟩ := hloops
  refine ⟨pushedPackets_congr hlogs, ?_, ?_⟩
  · have hnext := congrArg FeedState.nextExpected hlast
    exact hnext
  · have hstats := congrArg FeedState.stats hlast
    exact hstats

theorem xdp_agrees_with_socket_twoBatches :
    pushedPackets (runFeedHandler (Arrival.twoBatches.flatten.filterMap Arrival.recvTurn)).2 =
        [(oneMessage 1).wire] ∧
      (runFeedHandler (Arrival.twoBatches.flatten.filterMap Arrival.recvTurn)).1.nextExpected = 5 ∧
      SameFeed
        (runFeedHandlerXdp 1 (Arrival.twoBatches.map (List.map Arrival.frameTurn)))
        (runFeedHandler (Arrival.twoBatches.flatten.filterMap Arrival.recvTurn)) :=
  ⟨by decide +kernel, by decide +kernel, xdp_agrees_with_socket 1 Arrival.twoBatches⟩

end Orderbook
