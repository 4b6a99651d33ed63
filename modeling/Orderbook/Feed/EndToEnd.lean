/-
# File mode and UDP mode

A file reaches the engine in two ways: `run` walks it, or `replay` sends it in packets
that the feed handler receives and `runUdp` takes apart. When nothing is lost on the
second way, the engine is passed the same messages in the same order, and it ends with
the same pool, order map and books.

What is assumed of the network and of the scheduler is that every datagram is received
once and in order, that the pool has a slot and the ring has room for it, and that
receiving does not fail. The ring hands the packets over first in first out, and a
packet is still in its slot when it is popped; both are results about the two threads.
-/

import Orderbook.Feed.Application
import Orderbook.Feed.Replay
import Orderbook.Feed.Session
import Orderbook.Feed.Simulation

namespace Orderbook

open Orderbook.Math

/-- The datagram of a turn. -/
def RecvTurn.payload? (turn : RecvTurn) : Option (List UInt8) :=
  match turn.recv with
  | .failed _ => none
  | .datagram payload => some payload

/-- The turns receive the datagrams once each and in order. Every turn gets a slot, the
ring takes every packet, and a call that fails was interrupted. -/
structure ReceivesAll (turns : List RecvTurn) (sent : List (List UInt8)) : Prop where
  payloads : turns.filterMap RecvTurn.payload? = sent
  acquired : ∀ turn ∈ turns, turn.slotIdx ≠ kPoolInvalid
  pushed : ∀ turn ∈ turns, turn.pushed = true
  healthy : ∀ turn ∈ turns, turn.recv ≠ .failed false

/-- A packet with the number that is expected is accepted without a gap. -/
theorem FeedState.track_of_expected (state : FeedState) (hdr : MoldHeader)
    (hexpected : state.sessionInit = true → state.nextExpected = hdr.sequenceNumber)
    (hend : hdr.messageCount ≠ kMoldEndOfSession) (hheartbeat : hdr.messageCount ≠ kMoldHeartbeat) :
    ∃ next : FeedState, state.track hdr = (next, .accepted) ∧ next.sessionInit = true ∧
      next.nextExpected = hdr.sequenceNumber + hdr.messageCount.toUInt64 ∧
      next.stats = state.stats := by
  have hinit : (state.initSession hdr).nextExpected = hdr.sequenceNumber ∧
      (state.initSession hdr).sessionInit = true ∧
      (state.initSession hdr).stats = state.stats := by
    unfold FeedState.initSession
    split
    case isTrue hstarted => exact ⟨hexpected hstarted, hstarted, rfl⟩
    case isFalse => exact ⟨rfl, rfl, rfl⟩
  obtain ⟨hnext, hstarted, hstats⟩ := hinit
  have hresync : (state.initSession hdr).resync hdr = state.initSession hdr :=
    if_neg (by rw [hnext]; exact UInt64.lt_irrefl _)
  unfold FeedState.track
  dsimp only
  rw [if_neg hend, if_neg hheartbeat, if_neg (by rw [hnext]; exact UInt64.lt_irrefl _), hresync]
  exact ⟨_, rfl, hstarted, by rw [hnext], hstats⟩

/-- What a run of the feed handler leaves when it received all packets of a session. -/
structure SessionReceived (state : FeedState) (batches : List (List Payload))
    (run : FeedState × List Accepted) : Prop where
  gaps : run.1.stats.gapsDetected = state.stats.gapsDetected
  duplicates : run.1.stats.duplicatesIgnored = state.stats.duplicatesIgnored
  sentinel : ∃ tWire, run.1.sentinel = some ⟨kPoolInvalid, tWire⟩
  messages : run.2.map Accepted.messages = batches
  valid : ∀ entry ∈ run.2, entry.pushed = true ∧ entry.ref.poolIdx ≠ kPoolInvalid

theorem length_packetOf_le {maxPerPacket : UInt16} {records : List Payload}
    (hsendable : Sendable maxPerPacket records) (seq : UInt64) :
    (packetOf seq records).length ≤ kMaxPacketBytes := by
  rw [length_packetOf]
  exact hsendable.fits

theorem length_eosPacket (seq : UInt64) : (eosPacket seq).length = kMoldHeaderBytes :=
  MoldHeader.length_wire _

/-- A datagram that fits a slot and has a header is dispatched on that header. -/
theorem receive_of_wire (state : FeedState) {turn : RecvTurn} {hdr : MoldHeader}
    {body : List UInt8} (hslot : turn.slotIdx ≠ kPoolInvalid) (hpushed : turn.pushed = true)
    (hrecv : turn.recv = .datagram (hdr.wire ++ body))
    (hfits : (hdr.wire ++ body).length ≤ kMaxPacketBytes) :
    receive state turn =
      dispatch (state.countReceived (hdr.wire ++ body).length) hdr (hdr.wire ++ body)
        ⟨turn.slotIdx, turn.tWire⟩ true true := by
  have hreceived : received (hdr.wire ++ body) = hdr.wire ++ body := List.take_of_length_le hfits
  have hlong : ¬ (received (hdr.wire ++ body)).length < kMoldHeaderBytes := by
    rw [hreceived, List.length_append, hdr.length_wire]
    exact Nat.not_lt.mpr (Nat.le_add_right _ _)
  rw [receive_eq_dispatch state hslot hrecv hlong, hreceived, parseMoldHeader_wire, hpushed]

/-- The number of messages in a packet is never one of the special counts. -/
theorem Sendable.count_ne {maxPerPacket : UInt16} {records : List Payload}
    (hsendable : Sendable maxPerPacket records) (hslots : maxPerPacket.toNat ≤ batchSlots) :
    UInt16.ofNat records.length ≠ kMoldEndOfSession ∧
      UInt16.ofNat records.length ≠ kMoldHeartbeat ∧
      (UInt16.ofNat records.length).toUInt64 = UInt64.ofNat records.length := by
  have hpositive := List.length_pos_of_ne_nil hsendable.nonempty
  have hbound : records.length ≤ 256 := hsendable.within.trans hslots
  have hcount : (UInt16.ofNat records.length).toNat = records.length :=
    UInt16.toNat_ofNat_of_lt' (by change _ < 2 ^ 16; omega)
  refine ⟨fun hend => ?_, fun hheartbeat => ?_, ?_⟩
  · have hnat := congrArg UInt16.toNat hend
    rw [hcount] at hnat
    change _ = 65535 at hnat
    omega
  · have hnat := congrArg UInt16.toNat hheartbeat
    rw [hcount] at hnat
    change _ = 0 at hnat
    omega
  · rw [← UInt64.ofNat_uInt16ToNat, hcount]

namespace ReceivesAll

variable {turn : RecvTurn} {turns : List RecvTurn} {payload : List UInt8}
  {sent : List (List UInt8)}

theorem of_interrupted (hreceives : ReceivesAll (turn :: turns) sent) {interrupted : Bool}
    (hrecv : turn.recv = .failed interrupted) :
    interrupted = true ∧ ReceivesAll turns sent := by
  constructor
  · cases interrupted with
    | true => rfl
    | false => exact absurd hrecv (hreceives.healthy turn List.mem_cons_self)
  · have hnone : turn.payload? = none := by rw [RecvTurn.payload?, hrecv]
    have hpayloads := hreceives.payloads
    rw [List.filterMap_cons_none hnone] at hpayloads
    exact ⟨hpayloads, (List.forall_mem_cons.mp hreceives.acquired).2,
      (List.forall_mem_cons.mp hreceives.pushed).2, (List.forall_mem_cons.mp hreceives.healthy).2⟩

theorem of_datagram (hreceives : ReceivesAll (turn :: turns) sent)
    (hrecv : turn.recv = .datagram payload) :
    ∃ later, sent = payload :: later ∧ ReceivesAll turns later := by
  have hsome : turn.payload? = some payload := by rw [RecvTurn.payload?, hrecv]
  have hpayloads := hreceives.payloads
  rw [List.filterMap_cons_some hsome] at hpayloads
  exact ⟨_, hpayloads.symm, rfl, (List.forall_mem_cons.mp hreceives.acquired).2,
    (List.forall_mem_cons.mp hreceives.pushed).2, (List.forall_mem_cons.mp hreceives.healthy).2⟩

/-- The feed handler takes the packets of a session one after another, sees no gap and no
duplicate, and leaves with the sentinel. -/
theorem run {maxPerPacket : UInt16} (hslots : maxPerPacket.toNat ≤ batchSlots)
    {batches : List (List Payload)} (hsendable : ∀ batch ∈ batches, Sendable maxPerPacket batch)
    {seq last : UInt64}
    (hreceives : ReceivesAll turns (packetsFrom seq batches ++ [eosPacket last]))
    {state : FeedState} (hexpected : state.sessionInit = true → state.nextExpected = seq) :
    SessionReceived state batches (runUntil receive state turns) := by
  induction turns generalizing state batches seq with
  | nil =>
      have hnone := hreceives.payloads
      rw [List.filterMap_nil] at hnone
      exact absurd hnone.symm (List.append_ne_nil_of_right_ne_nil _ (List.cons_ne_nil _ _))
  | cons turn turns ih =>
      have hslot := hreceives.acquired turn List.mem_cons_self
      have hpushed := hreceives.pushed turn List.mem_cons_self
      cases hrecv : turn.recv with
      | failed interrupted =>
          obtain ⟨rfl, hlater⟩ := hreceives.of_interrupted hrecv
          have hreceive : receive state turn = { state } := by
            unfold receive
            rw [if_neg hslot, hrecv]
            rfl
          rw [runUntil_of_open (by rw [hreceive]), hreceive]
          exact ih hsendable hlater hexpected
      | datagram payload =>
          obtain ⟨later, hsent, hlater⟩ := hreceives.of_datagram hrecv
          cases batches with
          | nil =>
              obtain ⟨rfl, rfl⟩ := List.cons.inj hsent
              rw [eosPacket, ← List.append_nil (MoldHeader.wire _)] at hrecv
              have hreceive := receive_of_wire state hslot hpushed hrecv (by
                rw [List.append_nil, MoldHeader.length_wire]
                decide)
              obtain ⟨next, htrack, _, hgaps, hduplicates⟩ := FeedState.track_of_end
                (state.countReceived _) ⟨replaySession, last, kMoldEndOfSession⟩ rfl
              rw [dispatch, htrack] at hreceive
              rw [runUntil_of_finished (by rw [hreceive]; rfl), hreceive]
              exact ⟨hgaps, hduplicates, ⟨turn.tWire, rfl⟩, rfl,
                fun _ hnone => absurd hnone List.not_mem_nil⟩
          | cons batch batches =>
              obtain ⟨hbatch, hbatches⟩ := List.forall_mem_cons.mp hsendable
              obtain ⟨rfl, rfl⟩ := List.cons.inj hsent
              obtain ⟨hend, hheartbeat, hcount⟩ := hbatch.count_ne hslots
              have hreceive := receive_of_wire state hslot hpushed hrecv
                (length_packetOf_le hbatch seq)
              obtain ⟨next, htrack, hstarted, hnext, hstats⟩ := FeedState.track_of_expected
                (state.countReceived _) ⟨replaySession, seq, UInt16.ofNat batch.length⟩ hexpected
                hend hheartbeat
              rw [dispatch, htrack] at hreceive
              rw [hcount] at hnext
              have hrun := ih hbatches hlater fun _ => hnext
              rw [runUntil_of_open (by rw [hreceive]; rfl), hreceive]
              refine ⟨hrun.gaps.trans ?_, hrun.duplicates.trans ?_, hrun.sentinel, ?_, ?_⟩
              · rw [hstats]
                rfl
              · rw [hstats]
                rfl
              · rw [← hrun.messages]
                exact congrArg (· :: _) (Accepted.messages_of_encodeAll rfl)
              · exact List.forall_mem_cons.mpr ⟨⟨rfl, hslot⟩, hrun.valid⟩

end ReceivesAll

/-- The reference that a turn pops. -/
def PopTurn.ref? : PopTurn → Option PacketRef
  | empty _ => none
  | popped ref _ => some ref

/-- The consumer pops what the network thread pushed, in order and each packet in its
slot, and then the sentinel. It may find the ring empty, but nobody stops it. -/
structure Relays (pops : List PopTurn) (entries : List Accepted) (sentinel : Option PacketRef) :
    Prop where
  refs : pops.filterMap PopTurn.ref? = entries.map Accepted.ref ++ sentinel.toList
  slots : List.Forall₂ BufferSlot.Holds (pops.filterMap PopTurn.slot?) entries
  running : .empty true ∉ pops

namespace Relays

variable {pops : List PopTurn} {entries : List Accepted} {sentinel : Option PacketRef}

theorem of_empty {stopped : Bool} (hrelays : Relays (.empty stopped :: pops) entries sentinel) :
    stopped = false ∧ Relays pops entries sentinel := by
  constructor
  · cases stopped with
    | false => rfl
    | true => exact absurd List.mem_cons_self hrelays.running
  · exact ⟨hrelays.refs, hrelays.slots, fun hmem =>
      hrelays.running (List.mem_cons_of_mem _ hmem)⟩

theorem of_popped {ref : PacketRef} {slot : BufferSlot} {entry : Accepted}
    (hrelays : Relays (.popped ref slot :: pops) (entry :: entries) sentinel)
    (hvalid : entry.ref.poolIdx ≠ kPoolInvalid) :
    ref = entry.ref ∧ slot.Holds entry ∧ Relays pops entries sentinel := by
  obtain ⟨rfl, hrefs⟩ : ref = entry.ref ∧
      pops.filterMap PopTurn.ref? = entries.map Accepted.ref ++ sentinel.toList :=
    List.cons.inj hrelays.refs
  have hslots := hrelays.slots
  have hslot : (PopTurn.popped entry.ref slot).slot? = some slot := if_neg hvalid
  rw [List.filterMap_cons_some hslot, List.forall₂_cons] at hslots
  exact ⟨rfl, hslots.1, hrefs, hslots.2, fun hmem =>
    hrelays.running (List.mem_cons_of_mem _ hmem)⟩

open MatchingEngine in
/-- The consumer passes on the messages of all packets and leaves with the sentinel. -/
theorem iterate_popBody {tWire : UInt64}
    (hrelays : Relays pops entries (some ⟨kPoolInvalid, tWire⟩))
    (hvalid : ∀ entry ∈ entries, entry.Fits ∧ entry.ref.poolIdx ≠ kPoolInvalid)
    {state state' : MatchingEngine × EngineScratch} {deliveries : List Delivery}
    {trace : List Transition} (hrun : runList deliver state deliveries = some (state', trace))
    (hquiet : ∀ transition ∈ trace, transition.outcome.thrown = none)
    (hmessages : (entries.flatMap Accepted.messages).map Payload.bytes =
      deliveries.map fun delivery => delivery.message.bytes) (caller : Caller)
    (hsame : state.1.SameState caller.engine) (hthrown : caller.thrown = none) (cycles : Cycles)
    (log : List (List Payload)) :
    ∃ caller' : Caller, iterate (popBody cycles) (caller, pops, log) =
        some (caller', log ++ entries.map Accepted.messages) ∧
      state'.1.SameState caller'.engine := by
  induction pops generalizing entries state deliveries trace caller log with
  | nil =>
      have hnone := hrelays.refs
      exact absurd hnone.symm (List.append_ne_nil_of_right_ne_nil _ (List.cons_ne_nil _ _))
  | cons turn pops ih =>
      cases turn with
      | empty stopped =>
          obtain ⟨rfl, hlater⟩ := hrelays.of_empty
          have hturn : popBody cycles (caller, .empty false :: pops, log) =
              some (.inl (caller, pops, log)) := rfl
          rw [iterate_of_continue hturn]
          exact ih hlater hvalid hrun hquiet hmessages caller hsame hthrown log
      | popped ref slot =>
          cases entries with
          | nil =>
              obtain ⟨rfl, _⟩ := List.cons.inj hrelays.refs
              rw [List.flatMap_nil, List.map_nil, eq_comm, List.map_eq_nil_iff] at hmessages
              subst hmessages
              cases hrun
              refine ⟨caller, ?_, hsame⟩
              rw [List.map_nil, List.append_nil]
              apply iterate_of_leave
              rw [popBody, if_pos rfl]
          | cons entry entries =>
              obtain ⟨⟨hfits, hslot⟩, hvalid⟩ := List.forall_mem_cons.mp hvalid
              obtain ⟨rfl, hholds, hlater⟩ := hrelays.of_popped hslot
              rw [List.flatMap_cons, List.map_append] at hmessages
              obtain ⟨first, rest, rfl, hfirst, hrest⟩ := List.map_eq_append_iff.mp hmessages.symm
              rw [runList_append] at hrun
              obtain ⟨⟨between, earlier⟩, hbetween, hrun⟩ := Option.bind_eq_some_iff.mp hrun
              obtain ⟨⟨last, later⟩, hlast, hresult⟩ := Option.map_eq_some_iff.mp hrun
              cases hresult
              have hviews : slot.messages.views.map (fun view => view.1.slice 0 view.2.toNat) =
                  first.map fun delivery => delivery.message.bytes := by
                rw [hfirst, ← hholds.messages hfits, List.map_map]
                rfl
              obtain ⟨caller', hfeed, hnone, hbooks⟩ := Caller.feed_of_runList hbetween
                (fun transition hmem => hquiet transition (List.mem_append_left _ hmem)) caller
                hsame hthrown hviews (cycles.clock entry.ref.tWireCycles)
              rw [hholds.messages hfits, ← walkPacket_eq_feed] at hfeed
              obtain ⟨caller'', hpops, hbooks'⟩ := ih hlater hvalid hlast
                (fun transition hmem => hquiet transition (List.mem_append_right _ hmem))
                hrest.symm caller' hbooks hnone (log ++ [entry.messages])
              refine ⟨caller'', ?_, hbooks'⟩
              rw [iterate_popBody_of_walk hslot hfeed hnone, hpops, List.append_assoc]
              rfl

end Relays

/-! ## Both ways -/

/-- A message of a file: it holds what its parser reads and fits into a packet. -/
structure FileMessage extends FullMessage where
  fits : bytes.length ≤ 2026

namespace FileMessage

/-- The message as it stands in the file behind its length. -/
def payload (message : FileMessage) : Payload where
  bytes := message.bytes
  short := Nat.lt_of_le_of_lt message.fits (by decide)

/-- The call of `processMessage` that the message stands for. When it is made does not
matter for the books. -/
def delivery (message : FileMessage) : Delivery where
  message := message.toFullMessage
  messageLength := message.payload.length

theorem map_bytes (messages : List FileMessage) :
    (messages.map payload).map Payload.bytes =
      (messages.map delivery).map fun delivery => delivery.message.bytes := by
  rw [List.map_map, List.map_map]
  rfl

end FileMessage

/-- A file has fewer messages than a sequence number can count. -/
theorem MappedFile.Holds.length_lt {mapped : MappedFile} {records : List Payload}
    (hholds : mapped.Holds records) : 1 + records.length < 2 ^ 64 := by
  have hlength : (Payload.framing.encodeAll records).length = mapped.fileSize := by
    rw [← hholds, rest, Memory.length_slice, Nat.sub_zero]
  have hcount : 2 * records.length ≤ (Payload.framing.encodeAll records).length := by
    clear hholds hlength
    induction records with
    | nil => exact Nat.le_refl 0
    | cons record records ih =>
        rw [Framing.encodeAll_cons, List.length_append, List.length_cons, Payload.framing_encode,
          Payload.length_encode]
        omega
  have hbound := mapped.addressable
  have hsome := mapped.nonempty
  omega

theorem length_le_of_mem_packetsFrom {maxPerPacket : UInt16} {batches : List (List Payload)}
    (hsendable : ∀ batch ∈ batches, Sendable maxPerPacket batch) {seq : UInt64}
    {datagram : List UInt8} (hmem : datagram ∈ packetsFrom seq batches) :
    datagram.length ≤ kMaxPacketBytes := by
  induction batches generalizing seq with
  | nil => cases hmem
  | cons batch batches ih =>
      obtain ⟨hbatch, hbatches⟩ := List.forall_mem_cons.mp hsendable
      rcases List.mem_cons.mp hmem with rfl | hlater
      · exact length_packetOf_le hbatch seq
      · exact ih hbatches hlater

/-- For a file of complete messages with valid sides and every number of messages per
packet that the arrays have room for, the packets that `replay` sends fit into a slot
and end with the end of the session, numbered behind the last message. When they are
received and relayed, no gap and no duplicate is counted, `runUdp` passes on the
messages that `run` passes on, and both leave the same pool, order map and books. -/
theorem file_and_udp_agree (mapped : MappedFile) (messages : List FileMessage)
    (hholds : mapped.Holds (messages.map FileMessage.payload))
    (hsides : ∀ message ∈ messages, message.decoded.ValidSides)
    (hlive : MatchingEngine.LiveBelow (messages.map FileMessage.delivery))
    (maxPerPacket : UInt16) (hsome : 1 ≤ maxPerPacket.toNat) (hslots : maxPerPacket.toNat ≤ 256)
    (sendto : ℕ → Bool) (hsendto : ∀ call, sendto call = true) (packet : Memory)
    (batchPtrs : ℕ → ℕ) (batchLens : ℕ → UInt16) :
    ∃ datagrams eos,
      replay mapped maxPerPacket sendto { packet, batchPtrs, batchLens } =
        some (datagrams ++ [eos]) ∧
      (∀ datagram ∈ datagrams ++ [eos], datagram.length ≤ 2048) ∧
      (parseMoldHeader (.ofList eos)).messageCount = kMoldEndOfSession ∧
      (parseMoldHeader (.ofList eos)).sequenceNumber.toNat = 1 + messages.length ∧
      ∀ turns, ReceivesAll turns (datagrams ++ [eos]) →
        (runFeedHandler turns).1.stats.gapsDetected = 0 ∧
        (runFeedHandler turns).1.stats.duplicatesIgnored = 0 ∧
        ∀ pops, Relays pops ((runFeedHandler turns).2.filter Accepted.pushed)
            (runFeedHandler turns).1.sentinel →
          ∀ fileCycles udpCycles, ∃ file udp calls log,
            runFile mapped fileCycles = some (file, calls) ∧
            runUdp udpCycles pops = some (udp, log) ∧
            log.flatten = calls ∧ file.engine.SameState udp.engine := by
  have hshort : ∀ record ∈ messages.map FileMessage.payload, record.bytes.length ≤ 2026 :=
    List.forall_mem_map.mpr fun message _ => message.fits
  obtain ⟨batches, hflatten, hsendable, hreplay⟩ :=
    replay_eq hsome hslots hsendto hholds hshort packet batchPtrs batchLens
  have heos : parseMoldHeader (.ofList (eosPacket (1 + UInt64.ofNat messages.length))) =
      ⟨replaySession, 1 + UInt64.ofNat messages.length, kMoldEndOfSession⟩ := by
    have hparse := parseMoldHeader_wire
      ⟨replaySession, 1 + UInt64.ofNat messages.length, kMoldEndOfSession⟩ []
    rwa [List.append_nil] at hparse
  have hcount := hholds.length_lt
  rw [List.length_map] at hreplay hcount
  obtain ⟨engine, market, trace, hjoint⟩ := hlive.exists_jointRun
  obtain ⟨scratch, hrun⟩ := hjoint.reached
  have hquiet := hjoint.reached.thrown_eq_none (List.forall_mem_map.mpr hsides)
  refine ⟨_, _, hreplay, ?_, by rw [heos], ?_, fun turns hreceives => ?_⟩
  · intro datagram hmem
    rcases List.mem_append.mp hmem with hpacket | hend
    · exact length_le_of_mem_packetsFrom hsendable hpacket
    · rw [List.mem_singleton.mp hend, length_eosPacket]
      decide
  · rw [heos]
    change (1 + UInt64.ofNat messages.length).toNat = _
    have hnat : (UInt64.ofNat messages.length).toNat = messages.length :=
      UInt64.toNat_ofNat_of_lt' (by change _ < 2 ^ 64; omega)
    rw [UInt64.toNat_add, hnat]
    exact Nat.mod_eq_of_lt hcount
  have hreceived : SessionReceived {} batches (runFeedHandler turns) :=
    hreceives.run hslots hsendable fun hnever => nomatch hnever
  refine ⟨hreceived.gaps, hreceived.duplicates, fun pops hrelays fileCycles udpCycles => ?_⟩
  obtain ⟨tWire, hsentinel⟩ := hreceived.sentinel
  have hpushed : (runFeedHandler turns).2.filter Accepted.pushed = (runFeedHandler turns).2 :=
    List.filter_eq_self.mpr fun entry hentry => (hreceived.valid entry hentry).1
  rw [hpushed, hsentinel] at hrelays
  have hmessages : ((runFeedHandler turns).2.flatMap Accepted.messages).map Payload.bytes =
      (messages.map FileMessage.delivery).map fun delivery => delivery.message.bytes := by
    rw [List.flatMap_def, hreceived.messages, hflatten, FileMessage.map_bytes]
  have hviews : (mapped.views 0 (messages.map FileMessage.payload)).map
      (fun view => view.1.slice 0 view.2.toNat) =
        (messages.map FileMessage.delivery).map fun delivery => delivery.message.bytes := by
    rw [← FileMessage.map_bytes]
    nth_rewrite 2 [← MappedFile.map_views hholds]
    rw [List.map_map]
    rfl
  obtain ⟨file, hfile, _, hfileBooks⟩ := Caller.feed_of_runList hrun hquiet {}
    ⟨rfl, rfl, rfl⟩ rfl hviews (fileCycles.clock 0)
  obtain ⟨udp, hudp, hudpBooks⟩ := hrelays.iterate_popBody
    (fun entry hentry => ⟨fits_of_mem hentry, (hreceived.valid entry hentry).2⟩) hrun hquiet
    hmessages {} ⟨rfl, rfl, rfl⟩ rfl udpCycles []
  refine ⟨file, udp, _, _, (MappedFile.runFile_eq_feed fileCycles hholds).trans hfile, hudp, ?_, ?_⟩
  · rw [List.nil_append, hreceived.messages, hflatten, MappedFile.map_views hholds]
  · exact hfileBooks.symm.trans hudpBooks

/-- One datagram after the other, each in a slot. -/
theorem receivesAll_map (sent : List (List UInt8)) :
    ReceivesAll (sent.map fun payload => { slotIdx := 0, recv := .datagram payload }) sent where
  payloads := by
    rw [List.filterMap_map]
    exact List.filterMap_some
  acquired := List.forall_mem_map.mpr fun _ _ => show (0 : UInt32) ≠ kPoolInvalid by decide
  pushed := List.forall_mem_map.mpr fun _ _ => rfl
  healthy := List.forall_mem_map.mpr fun _ _ hfailed => nomatch hfailed

/-- One packet after the other, each in a slot that is empty behind it. -/
theorem relays_map {entries : List Accepted}
    (hvalid : ∀ entry ∈ entries, entry.Fits ∧ entry.ref.poolIdx ≠ kPoolInvalid) (tWire : UInt64)
    (slot : BufferSlot) :
    Relays (entries.map (fun entry => .popped entry.ref entry.slot) ++
      [.popped ⟨kPoolInvalid, tWire⟩ slot]) entries (some ⟨kPoolInvalid, tWire⟩) where
  refs := by
    rw [List.filterMap_append, List.filterMap_map]
    congr 1
    exact congrFun List.filterMap_eq_map entries
  slots := by
    have hslots : ∀ rest : List PopTurn, rest.filterMap PopTurn.slot? = [] →
        List.Forall₂ BufferSlot.Holds
          ((entries.map (fun entry => PopTurn.popped entry.ref entry.slot) ++ rest).filterMap
            PopTurn.slot?) entries := by
      intro rest hrest
      induction entries with
      | nil =>
          rw [List.map_nil, List.nil_append, hrest]
          exact .nil
      | cons entry entries ih =>
          obtain ⟨⟨hfits, hslot⟩, hvalid⟩ := List.forall_mem_cons.mp hvalid
          have hsome : (PopTurn.popped entry.ref entry.slot).slot? = some entry.slot :=
            if_neg hslot
          rw [List.map_cons, List.cons_append, List.filterMap_cons_some hsome]
          exact .cons hfits.holds (ih hvalid)
    exact hslots _ rfl
  running := by
    intro hmem
    rcases List.mem_append.mp hmem with hpopped | hlast
    · obtain ⟨_, _, hnever⟩ := List.mem_map.mp hpopped
      cases hnever
    · cases List.mem_singleton.mp hlast

/-- An order that rests. -/
def restingBuy : FileMessage :=
  ⟨(ItchMessage.add 1 ⟨0, 7, 5, 1000000, buyByte⟩).encode, by decide⟩

/-- An order that rests, and a message that the engine ignores. -/
def twoFileMessages : List FileMessage :=
  [restingBuy, ⟨ItchMessage.ignored.encode, by decide⟩]

/-- The file that holds the two messages. -/
def twoMessageFile : MappedFile :=
  .ofBytes (Payload.framing.encodeAll (twoFileMessages.map FileMessage.payload)) (by decide)
    (by decide)

theorem holds_twoMessageFile :
    twoMessageFile.Holds (twoFileMessages.map FileMessage.payload) :=
  MappedFile.rest_ofBytes _ _ _

theorem file_and_udp_agree_twoMessages :
    ∃ turns pops file udp calls log,
      (runFeedHandler turns).1.stats.gapsDetected = 0 ∧
      (runFeedHandler turns).1.stats.duplicatesIgnored = 0 ∧
      runFile twoMessageFile (fun _ => (0, 1)) = some (file, calls) ∧
      runUdp (fun _ => (2, 4)) pops = some (udp, log) ∧
      log.flatten = calls ∧ file.engine.SameState udp.engine := by
  have hsides : ∀ message ∈ twoFileMessages, message.decoded.ValidSides := by
    unfold twoFileMessages restingBuy
    rw [List.forall_mem_cons, List.forall_mem_singleton, ItchMessage.decoded_encode,
      ItchMessage.decoded_encode]
    exact ⟨.inl rfl, trivial⟩
  have hshort : ∀ record ∈ twoFileMessages.map FileMessage.payload, record.bytes.length ≤ 2026 :=
    List.forall_mem_map.mpr fun message _ => message.fits
  obtain ⟨datagrams, eos, hreplay, _, _, _, hagree⟩ := file_and_udp_agree twoMessageFile
    twoFileMessages holds_twoMessageFile hsides
    (MatchingEngine.liveBelow_of_length_lt (by decide)) 1 (by decide) (by decide) (fun _ => true)
    (fun _ => rfl) (fun _ => 0) (fun _ => 0) (fun _ => 0)
  have hone : 0 < (1 : UInt16).toNat ∧ (1 : UInt16).toNat ≤ batchSlots := by decide
  obtain ⟨batches, _, hsendable, hreplay'⟩ := replay_eq hone.1 hone.2 (fun _ => rfl)
    holds_twoMessageFile hshort (fun _ => 0) (fun _ => 0) (fun _ => 0)
  have hsent := Option.some.inj (hreplay.symm.trans hreplay')
  have hreceives := receivesAll_map (datagrams ++ [eos])
  set turns : List RecvTurn := (datagrams ++ [eos]).map
    fun payload => { slotIdx := 0, recv := .datagram payload }
  have hreceived : SessionReceived {} batches (runFeedHandler turns) :=
    (hsent ▸ hreceives).run hone.2 hsendable fun hnever => nomatch hnever
  obtain ⟨tWire, hsentinel⟩ := hreceived.sentinel
  obtain ⟨hgaps, hduplicates, hrelay⟩ := hagree turns hreceives
  have hpushed : (runFeedHandler turns).2.filter Accepted.pushed = (runFeedHandler turns).2 :=
    List.filter_eq_self.mpr fun entry hentry => (hreceived.valid entry hentry).1
  have hrelays := relays_map (fun entry hentry =>
    ⟨fits_of_mem hentry, (hreceived.valid entry hentry).2⟩) tWire ⟨fun _ => 0, 0⟩
  rw [hpushed, hsentinel] at hrelay
  obtain ⟨file, udp, calls, log, hrest⟩ :=
    hrelay _ hrelays (fun _ => (0, 1)) fun _ => (2, 4)
  exact ⟨turns, _, file, udp, calls, log, hgaps, hduplicates, hrest⟩

end Orderbook
