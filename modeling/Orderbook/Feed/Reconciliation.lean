/-
# What the counters of a session certify

The network thread counts gaps and dropped packets. A session that ends with both counters at
zero has been applied without a hole: the messages that the matching thread walked are a block
of the messages that were sent, however often packets were repeated and in whatever order they
arrived, and whatever the loads of the two threads read.

The counters say nothing about the two ends of the block. The session starts with whatever
arrives first, and the number in the packet that ends it is compared with nothing. When the
first message came through and the expected number stands behind the last one, the engine has
the state that it reaches from the file.
-/

import Orderbook.Feed.EndToEnd
import Orderbook.Feed.WeakDelivery

namespace Orderbook

open Orderbook.Math

/-- The messages in the body of a packet. -/
def messagesOf (bytes : List UInt8) : List Payload :=
  Payload.framing.readAll (bytes.drop kMoldHeaderBytes)

/-- The position of the first message of a packet, when messages are numbered from one. -/
def MoldHeader.start (header : MoldHeader) : ℕ := header.sequenceNumber.toNat - 1

/-- A packet that holds the messages from its own number on. -/
structure Excerpt (records : List Payload) (bytes : List UInt8) : Prop where
  positive : 0 < (headerOf bytes).sequenceNumber.toNat
  within : (headerOf bytes).next ≤ 1 + records.length
  messages : messagesOf bytes =
    (records.drop (headerOf bytes).start).take (headerOf bytes).messageCount.toNat

/-- A packet of a feed of numbered messages: it fits into a slot, and if it is neither a
heartbeat nor the end of the session it holds the messages from its own number on. -/
structure Feeds (records : List Payload) (payload : List UInt8) : Prop where
  fits : payload.length ≤ kMaxPacketBytes
  inRange : (headerOf payload).InRange
  excerpt : (headerOf payload).messageCount ≠ kMoldEndOfSession →
    0 < (headerOf payload).messageCount.toNat → Excerpt records payload

/-- How many messages the headers of packets announce. -/
def announced (packets : List (List UInt8)) : ℕ :=
  (packets.map fun bytes => (headerOf bytes).messageCount.toNat).sum

/-- Packets that follow each other without a hole hold a block of the messages. -/
theorem flatMap_messagesOf {records : List Payload} {first : List UInt8}
    {packets : List (List UInt8)}
    (hexcerpts : ∀ bytes ∈ first :: packets, Excerpt records bytes)
    (hchain : ((first :: packets).map headerOf).IsChain fun header later =>
      header.next = later.sequenceNumber.toNat) :
    (first :: packets).flatMap messagesOf =
        (records.drop (headerOf first).start).take (announced (first :: packets)) ∧
      ∀ last, (first :: packets).getLast? = some last →
        (headerOf last).next = 1 + (headerOf first).start + announced (first :: packets) := by
  induction packets generalizing first with
  | nil =>
      have hfirst := hexcerpts first List.mem_cons_self
      refine ⟨?_, fun last hlast => ?_⟩
      · rw [List.flatMap_singleton, hfirst.messages]
        rfl
      · obtain rfl : first = last := Option.some.inj hlast
        have hpositive := hfirst.positive
        change (headerOf first).sequenceNumber.toNat + (headerOf first).messageCount.toNat =
          1 + ((headerOf first).sequenceNumber.toNat - 1) + (headerOf first).messageCount.toNat
        omega
  | cons second packets ih =>
      obtain ⟨hfirst, hexcerpts⟩ := List.forall_mem_cons.mp hexcerpts
      rw [List.map_cons, List.map_cons, List.isChain_cons_cons] at hchain
      obtain ⟨hmessages, hlast⟩ := ih hexcerpts hchain.2
      have hstart : (headerOf second).start =
          (headerOf first).start + (headerOf first).messageCount.toNat := by
        have hpositive := hfirst.positive
        have hnext : (headerOf first).sequenceNumber.toNat +
          (headerOf first).messageCount.toNat = (headerOf second).sequenceNumber.toNat := hchain.1
        unfold MoldHeader.start
        omega
      have hcount : announced (first :: second :: packets) =
          (headerOf first).messageCount.toNat + announced (second :: packets) := rfl
      refine ⟨?_, fun last hgetLast => ?_⟩
      · rw [List.flatMap_cons, hmessages, hfirst.messages, hstart, hcount, List.take_add,
          List.drop_drop]
      · rw [hlast last hgetLast, hstart, hcount]
        omega

/-- The pops so far, and the reference whose packet is still to be read. -/
structure Popping where
  hand : Option PacketRef := none
  turns : List PopTurn := []

/-- A slot that is not read. -/
def unreadSlot : BufferSlot := ⟨fun _ => 0, 0⟩

/-- A packet is popped when it has been read from its slot. Nothing is read for the
sentinel. -/
def Popping.after (popping : Popping) : UdpEvent → Popping
  | .popped ref =>
      if ref.poolIdx = kPoolInvalid then
        { popping with turns := popping.turns ++ [.popped ref unreadSlot] }
      else { popping with hand := some ref }
  | .read packet =>
      match popping.hand with
      | some ref => { turns := popping.turns ++ [.popped ref packet] }
      | none => popping
  | .empty => { popping with turns := popping.turns ++ [.empty false] }
  | _ => popping

/-- The inputs of the consumer loop in a run that nobody stops. -/
def popping (events : List UdpEvent) : Popping := events.foldl Popping.after {}

/-- The reference that the matching thread has popped and whose packet it has not read. -/
def MatchingPc.unread : MatchingPc → Option PacketRef
  | walking ref => some ref
  | _ => none

/-- The pops are what was popped and read. -/
structure Popping.Follows (popping : Popping) (pc : MatchingPc) (events : List UdpEvent) :
    Prop where
  hand : popping.hand = pc.unread
  valid : ∀ ref, pc.unread = some ref → ref.poolIdx ≠ kPoolInvalid
  refs : popping.turns.filterMap PopTurn.ref? ++ popping.hand.toList = takenRefs events
  slots : popping.turns.filterMap PopTurn.slot? = walkedPackets events
  running : .empty true ∉ popping.turns

theorem popping_append (events : List UdpEvent) (event : Option UdpEvent) :
    popping (events ++ event.toList) = event.elim (popping events) (popping events).after := by
  unfold popping
  rw [List.foldl_append]
  cases event <;> rfl

/-- Other events are no pops. -/
theorem Popping.after_of_other (popping : Popping) {event : Option UdpEvent}
    (htaken : event.bind UdpEvent.taken = none) (hwalked : event.bind UdpEvent.walked = none)
    (hempty : event ≠ some .empty) : event.elim popping popping.after = popping := by
  cases event with
  | none => rfl
  | some event =>
      cases event with
      | popped ref => cases htaken
      | read packet => cases hwalked
      | empty => exact absurd rfl hempty
      | _ => rfl

section Steps

variable {port : UInt16} {carried : List UInt8 → Prop} {bits numSlots : ℕ}
  {pipe next : WeakPipeline} {event : Option UdpEvent} {events : List UdpEvent}
  {free : List UInt32}

/-- An event that is no pop leaves the pops, wherever the thread goes without a packet. -/
theorem Popping.Follows.other (hpops : (popping events).Follows pipe.matching events)
    (htaken : event.bind UdpEvent.taken = none) (hwalked : event.bind UdpEvent.walked = none)
    (hempty : event ≠ some .empty) (hunread : next.matching.unread = pipe.matching.unread) :
    (popping (events ++ event.toList)).Follows next.matching (events ++ event.toList) := by
  rw [popping_append, Popping.after_of_other _ htaken hwalked hempty]
  refine ⟨hpops.hand.trans hunread.symm, hunread ▸ hpops.valid, ?_, ?_, hpops.running⟩
  · rw [takenRefs_append, htaken]
    exact hpops.refs.trans (List.append_nil _).symm
  · rw [walkedPackets_append, hwalked]
    exact hpops.slots.trans (List.append_nil _).symm

/-- A turn of the consumer loop that leaves the thread without a packet. -/
theorem Popping.Follows.turn (hpops : (popping events).Follows pipe.matching events)
    (turn : PopTurn) (hturn : popping (events ++ event.toList) =
      { turns := (popping events).turns ++ [turn] })
    (hrunning : turn ≠ .empty true)
    (hrefs : pipe.matching.unread.toList ++ (event.bind UdpEvent.taken).toList =
      turn.ref?.toList)
    (hslot : event.bind UdpEvent.walked = turn.slot?) (hunread : next.matching.unread = none) :
    (popping (events ++ event.toList)).Follows next.matching (events ++ event.toList) := by
  have hlast : ∀ {α : Type} (f : PopTurn → Option α),
      ((popping events).turns ++ [turn]).filterMap f =
        (popping events).turns.filterMap f ++ (f turn).toList := by
    intro α f
    rw [List.filterMap_append]
    cases hvalue : f turn with
    | none => rw [List.filterMap_cons_none hvalue, List.filterMap_nil, Option.toList_none]
    | some value => rw [List.filterMap_cons_some hvalue, List.filterMap_nil, Option.toList_some]
  rw [hturn]
  refine ⟨hunread.symm, fun ref hsome => ?_, ?_, ?_, fun hmem => ?_⟩
  · rw [hunread] at hsome
    cases hsome
  · rw [takenRefs_append, ← hpops.refs, hpops.hand, List.append_assoc, hrefs]
    exact (List.append_nil _).trans (hlast PopTurn.ref?)
  · rw [walkedPackets_append, ← hpops.slots, hslot]
    exact hlast PopTurn.slot?
  · rcases List.mem_append.mp hmem with hold | hnew
    · exact hpops.running hold
    · exact hrunning (List.mem_singleton.mp hnew).symm

theorem Popping.Follows.step (hslots : numSlots < 2 ^ 32) (hfollows : pipe.Follows)
    (hkeeps : pipe.memory.Keeps bits numSlots (sentPackets events) free)
    (hstep : WeakStep port carried pipe next event)
    (hpops : (popping events).Follows pipe.matching events) :
    (popping (events ++ event.toList)).Follows next.matching (events ++ event.toList) := by
  cases hstep with
  | network haccess =>
      have hsame : next.matching = pipe.matching := by cases haccess <;> rfl
      obtain ⟨htaken, hwalked, hempty⟩ := haccess.taken_walked hslots hfollows hkeeps
      exact hpops.other htaken hwalked hempty (by rw [hsame])
  | matching haccess =>
      cases haccess with
      | pop spinBudget age memory _ hpc hturn =>
          have hnone : pipe.matching.unread = none := by
            rw [hpc]
            rfl
          have hhand := hpops.hand.trans hnone
          cases (hkeeps.popTurn hturn).1 with
          | silent => exact hpops.other rfl rfl nofun hnone.symm
          | empty =>
              refine hpops.turn (.empty false) ?_ nofun ?_ rfl ?_
              · rw [popping_append]
                dsimp only [Option.elim, Popping.after]
                rw [hhand]
              · rw [hnone]
                rfl
              · dsimp only [afterPop]
                split <;> rfl
          | popped ref =>
              by_cases hinvalid : ref.poolIdx = kPoolInvalid
              · refine hpops.turn (.popped ref unreadSlot) ?_ nofun ?_
                  (if_pos hinvalid).symm ?_
                · rw [popping_append]
                  dsimp only [Option.elim, Popping.after]
                  rw [if_pos hinvalid, hhand]
                · rw [hnone]
                  rfl
                · dsimp only [afterPop]
                  rw [if_pos hinvalid]
                  rfl
              · have hrefs := hpops.refs
                rw [hhand, Option.toList_none, List.append_nil] at hrefs
                rw [popping_append]
                dsimp only [Option.elim, Popping.after, afterPop]
                rw [if_neg hinvalid, if_neg hinvalid]
                refine ⟨rfl, fun other hother => ?_, ?_, ?_, hpops.running⟩
                · obtain rfl : ref = other := Option.some.inj hother
                  exact hinvalid
                · rw [takenRefs_append, ← hrefs]
                  rfl
                · rw [hpops.slots, walkedPackets_append]
                  exact (List.append_nil _).symm
      | walk ref memory _ hpc hturn =>
          obtain ⟨idx, _, rfl, _⟩ := UdpMemory.readTurn hturn
          have hhand : pipe.matching.unread = some ref := by
            rw [hpc]
            rfl
          have hvalid := hpops.valid ref hhand
          refine hpops.turn (.popped ref (pipe.memory.slots idx)) ?_ nofun ?_
            (if_neg hvalid).symm rfl
          · rw [popping_append]
            dsimp only [Option.elim, Popping.after]
            rw [hpops.hand, hhand]
          · rw [hhand]
            rfl
      | release slotIdx age spurious memory _ hpc hturn =>
          obtain ⟨_, _, hrelease, _⟩ := hkeeps.releaseTurn hslots hturn
          cases hrelease with
          | silent => exact hpops.other rfl rfl nofun (by rw [hpc]; rfl)
          | released => exact hpops.other rfl rfl nofun (by rw [hpc]; rfl)
  | alone network feed hlocal => exact hpops.other rfl rfl nofun rfl
  | goOn hpc => exact hpops.other rfl rfl nofun (by rw [hpc]; rfl)
  | giveUp hpc hstop => exact hpops.other rfl rfl nofun (by rw [hpc]; rfl)
  | stop hpc => exact hpops.other rfl rfl nofun (by rw [hpc]; rfl)
  | join hpc hfinished => exact hpops.other rfl rfl nofun (by rw [hpc]; rfl)

end Steps

theorem WeakReached.pops {port : UInt16} {carried : List UInt8 → Prop} {bits numSlots : ℕ}
    {pipe : WeakPipeline} {events : List UdpEvent} (hsome : 0 < numSlots)
    (hslots : numSlots < 2 ^ 32)
    (hreached : WeakReached port carried numSlots (2 ^ bits) pipe events) :
    (popping events).Follows pipe.matching events := by
  induction hreached with
  | start => exact ⟨rfl, nofun, rfl, rfl, List.not_mem_nil⟩
  | step earlier here ih =>
      obtain ⟨hmemory, hfollows⟩ := earlier.reached hsome hslots
      obtain ⟨free, hkeeps⟩ := (hmemory.kept hsome hslots).keeps
      exact ih.step hslots hfollows hkeeps here

/-- A packet of the sender carries a batch under the number of its first message. -/
theorem exists_batch_of_mem {batches : List (List Payload)} {seq : UInt64}
    {datagram : List UInt8} (hmem : datagram ∈ packetsFrom seq batches) :
    ∃ before batch after, batches = before ++ batch :: after ∧
      datagram = packetOf (seq + UInt64.ofNat before.flatten.length) batch := by
  induction batches generalizing seq with
  | nil => cases hmem
  | cons batch batches ih =>
      rcases List.mem_cons.mp hmem with rfl | hlater
      · refine ⟨[], batch, batches, rfl, ?_⟩
        rw [show seq + UInt64.ofNat (List.flatten []).length = seq from UInt64.add_zero seq]
      · obtain ⟨before, other, after, rfl, rfl⟩ := ih hlater
        refine ⟨batch :: before, other, after, rfl, ?_⟩
        rw [seq_add_add, List.flatten_cons, List.length_append]

/-- The messages of a packet that carries a batch. -/
theorem messagesOf_wire (header : MoldHeader) (records : List Payload) :
    messagesOf (header.wire ++ Payload.framing.encodeAll records) = records :=
  @Accepted.messages_of_encodeAll ⟨header, _, ⟨0, 0⟩, 0, true⟩ header records rfl

theorem headerOf_wire (header : MoldHeader) (body : List UInt8) :
    headerOf (header.wire ++ body) = header :=
  parseMoldHeader_wire header body

/-- What `replay` sends is a feed of the messages of the file. -/
theorem feeds_of_mem {maxPerPacket : UInt16} (hslots : maxPerPacket.toNat ≤ batchSlots)
    {batches : List (List Payload)} (hsendable : ∀ batch ∈ batches, Sendable maxPerPacket batch)
    (hcount : batches.flatten.length + 2 ^ 16 < 2 ^ 64) {datagram : List UInt8}
    (hmem : datagram ∈ packetsFrom 1 batches ++
      [eosPacket (1 + UInt64.ofNat batches.flatten.length)]) :
    Feeds batches.flatten datagram := by
  have hnumber : ∀ start, start ≤ batches.flatten.length →
      (1 + UInt64.ofNat start).toNat = 1 + start := by
    intro start hstart
    have hsmall : (UInt64.ofNat start).toNat = start :=
      UInt64.toNat_ofNat_of_lt' (by change _ < 2 ^ 64; omega)
    rw [UInt64.toNat_add, hsmall]
    exact Nat.mod_eq_of_lt (by change 1 + start < 2 ^ 64; omega)
  rcases List.mem_append.mp hmem with hpacket | hend
  · obtain ⟨before, batch, after, rfl, rfl⟩ := exists_batch_of_mem hpacket
    have hbatch := hsendable batch (List.mem_append_right _ List.mem_cons_self)
    have hlength : (before ++ batch :: after).flatten.length =
        before.flatten.length + (batch.length + after.flatten.length) := by
      rw [List.flatten_append, List.flatten_cons, List.length_append, List.length_append]
    have hheader := headerOf_wire ⟨replaySession, 1 + UInt64.ofNat before.flatten.length,
      UInt16.ofNat batch.length⟩ (Payload.framing.encodeAll batch)
    have hsmall : (UInt16.ofNat batch.length).toNat = batch.length :=
      UInt16.toNat_ofNat_of_lt' (by
        have hbound : batch.length ≤ 256 := hbatch.within.trans hslots
        change _ < 2 ^ 16
        omega)
    have hseq := hnumber before.flatten.length (by omega)
    have hnext : (headerOf (packetOf (1 + UInt64.ofNat before.flatten.length) batch)).next =
        1 + before.flatten.length + batch.length := by
      rw [packetOf, hheader]
      change (1 + UInt64.ofNat _).toNat + (UInt16.ofNat _).toNat = _
      rw [hseq, hsmall]
    refine ⟨length_packetOf_le hbatch _, ?_, fun _ _ => ⟨?_, ?_, ?_⟩⟩
    · rw [MoldHeader.InRange, hnext]
      omega
    · rw [packetOf, hheader]
      change 0 < (1 + UInt64.ofNat _).toNat
      omega
    · rw [hnext]
      omega
    · rw [packetOf, messagesOf_wire, hheader]
      change batch = List.take (UInt16.ofNat batch.length).toNat
        (List.drop ((1 + UInt64.ofNat before.flatten.length).toNat - 1) _)
      rw [hsmall, hseq, Nat.add_sub_cancel_left, List.flatten_append, List.flatten_cons,
        List.drop_left, List.take_left]
  · rw [List.mem_singleton.mp hend]
    have hheader := headerOf_wire
      ⟨replaySession, 1 + UInt64.ofNat batches.flatten.length, kMoldEndOfSession⟩ []
    rw [List.append_nil] at hheader
    refine ⟨?_, ?_, fun hnever => ?_⟩
    · rw [length_eosPacket]
      decide
    · rw [eosPacket, hheader]
      change (1 + UInt64.ofNat _).toNat + kMoldEndOfSession.toNat < 2 ^ 64
      rw [hnumber _ (Nat.le_refl _)]
      change 1 + _ + 65535 < _
      omega
    · rw [eosPacket, hheader] at hnever
      exact absurd rfl hnever

/-- A message takes two bytes of a file at least. -/
theorem MappedFile.Holds.two_mul_length_le {mapped : MappedFile} {records : List Payload}
    (hholds : mapped.Holds records) : 2 * records.length ≤ mapped.fileSize := by
  have hlength : (Payload.framing.encodeAll records).length = mapped.fileSize := by
    rw [← hholds, rest, Memory.length_slice, Nat.sub_zero]
  rw [← hlength]
  clear hholds hlength
  induction records with
  | nil => exact Nat.zero_le _
  | cons record records ih =>
      rw [Framing.encodeAll_cons, List.length_append, List.length_cons, Payload.framing_encode,
        Payload.length_encode]
      omega

/-- It trades with the one that rests. -/
def crossingSell : FileMessage :=
  ⟨(ItchMessage.add 1 ⟨0, 8, 3, 1000000, sellByte⟩).encode, by decide⟩

def laterBuy : FileMessage :=
  ⟨(ItchMessage.add 1 ⟨0, 9, 4, 990000, buyByte⟩).encode, by decide⟩

def threeFileMessages : List FileMessage := [restingBuy, crossingSell, laterBuy]

/-- The file that holds the messages. -/
def threeMessageFile : MappedFile :=
  .ofBytes (Payload.framing.encodeAll (threeFileMessages.map FileMessage.payload)) (by decide)
    (by decide)

/-- The packets of the file, with one message each. -/
def threeDatagrams : List (List UInt8) :=
  packetsFrom 1 (threeFileMessages.map fun message => [message.payload]) ++ [eosPacket 4]

theorem holds_threeMessageFile :
    threeMessageFile.Holds (threeFileMessages.map FileMessage.payload) :=
  MappedFile.rest_ofBytes _ _ _

/-- Where a packet takes one message only, each message is sent in a packet of its own. -/
theorem eq_map_singleton {batches : List (List Payload)}
    (hsendable : ∀ batch ∈ batches, Sendable 1 batch) :
    batches = batches.flatten.map fun record => [record] := by
  induction batches with
  | nil => rfl
  | cons batch batches ih =>
      obtain ⟨hbatch, hlater⟩ := List.forall_mem_cons.mp hsendable
      obtain ⟨record, rfl⟩ : ∃ record, batch = [record] := by
        refine List.length_eq_one_iff.mp (Nat.le_antisymm hbatch.within ?_)
        exact List.length_pos_iff.mpr hbatch.nonempty
      rw [List.flatten_cons, List.singleton_append, List.map_cons, ← ih hlater]

theorem replay_threeMessageFile : replay threeMessageFile 1 (fun _ => true)
    { packet := fun _ => 0, batchPtrs := fun _ => 0, batchLens := fun _ => 0 } =
      some threeDatagrams := by
  have hone : 0 < (1 : UInt16).toNat ∧ (1 : UInt16).toNat ≤ batchSlots := by decide
  have hshort : ∀ record ∈ threeFileMessages.map FileMessage.payload,
      record.bytes.length ≤ 2026 :=
    List.forall_mem_map.mpr fun message _ => message.fits
  have hsendto : ∀ call : ℕ, (fun _ => true : ℕ → Bool) call = true := fun _ => rfl
  obtain ⟨batches, hflatten, hsendable, hreplay⟩ := replay_eq hone.1 hone.2 hsendto
    holds_threeMessageFile hshort (fun _ => 0) (fun _ => 0) (fun _ => 0)
  rw [hreplay, eq_map_singleton hsendable, hflatten, List.map_map]
  rfl

theorem feeds_threeDatagrams {payload : List UInt8} (hmem : payload ∈ threeDatagrams) :
    Feeds (threeFileMessages.map FileMessage.payload) payload := by
  have hone : (1 : UInt16).toNat ≤ batchSlots := by decide
  have hsendable : ∀ batch ∈ threeFileMessages.map fun message => [message.payload],
      Sendable 1 batch := by
    refine List.forall_mem_map.mpr fun message _ => ⟨List.cons_ne_nil _ _, Nat.le_refl _, ?_⟩
    have hlength := message.fits
    rw [Framing.encodeAll_cons, Payload.framing_encode, List.length_append, Payload.length_encode]
    change 20 + (2 + message.bytes.length + 0) ≤ 2048
    omega
  exact feeds_of_mem hone hsendable (by decide) hmem

/-- Packets of the file in the order in which they arrive, by their places in it. -/
def arriving (order : List (Fin 3 × Bool)) : List (List UInt8 × Bool) :=
  order.map fun (place, accepted) => (threeDatagrams.get (place.castLE (by decide)), accepted)

/-- What is read off a session. -/
def sessionFacts (result : WeakPipeline × List UdpEvent) :
    Option PacketRef × FeedStats × UInt64 × Option UInt64 :=
  ((takenRefs result.2).getLast?, result.1.feed.stats, result.1.feed.nextExpected,
    (walkedPackets result.2).head?.map fun first => (headerOf first.bytes).sequenceNumber)

/-- The packets and the end of the session go through. -/
theorem exists_reached_session {order : List (Fin 3 × Bool)} {stats : FeedStats} {number : UInt64}
    (hrun : ((WeakPipeline.initial 8 8).runLatest []
      (sessionMoves (arriving order) (eosPacket 4))).map sessionFacts =
        some (some ⟨kPoolInvalid, 6⟩, stats, 4, some number)) :
    ∃ pipe events, WeakReached 0 (· ∈ threeDatagrams) 8 8 pipe events ∧
      ⟨kPoolInvalid, 6⟩ ∈ takenRefs events ∧ pipe.feed.stats = stats ∧
      pipe.feed.nextExpected.toNat = 4 ∧ ∃ first, (walkedPackets events).head? = some first ∧
        (headerOf first.bytes).sequenceNumber = number := by
  obtain ⟨⟨last, events⟩, hlast, hfacts⟩ := Option.map_eq_some_iff.mp hrun
  simp only [sessionFacts, Prod.mk.injEq] at hfacts
  obtain ⟨htaken, hstats, hnext, hhead⟩ := hfacts
  have hcarried : ∀ payload ∈ (arriving order).map Prod.fst ++ [eosPacket 4],
      payload ∈ threeDatagrams := by
    rw [List.forall_mem_append, arriving, List.map_map, List.forall_mem_map,
      List.forall_mem_singleton]
    constructor
    · intro entry _
      exact List.get_mem threeDatagrams _
    · exact List.mem_append_right _ (List.mem_singleton.mpr rfl)
  obtain ⟨pipe, hreached, rfl⟩ : ∃ pipe, WeakReached 0 (· ∈ threeDatagrams) 8 (2 ^ 3) pipe events ∧
      pipe.forget = last := WeakReached.session (by decide) (by decide) hcarried hlast
  exact ⟨pipe, events, hreached, List.mem_of_getLast? htaken, hstats,
    congrArg UInt64.toNat hnext, Option.map_eq_some_iff.mp hhead⟩

/-! ## A session without a hole -/

/-- The packets that were walked when the sentinel was popped hold a block of the messages if no
gap and no dropped packet was counted. -/
theorem WeakReached.block {port : UInt16} {carried : List UInt8 → Prop} {records : List Payload}
    {bits numSlots : ℕ} {pipe : WeakPipeline} {events : List UdpEvent} (hsome : 0 < numSlots)
    (hslots : numSlots < 2 ^ 32) (hfeed : ∀ payload, carried payload → Feeds records payload)
    (hreached : WeakReached port carried numSlots (2 ^ bits) pipe events)
    {ref : PacketRef} (hpopped : ref ∈ takenRefs events) (hinvalid : ref.poolIdx = kPoolInvalid)
    (hgaps : pipe.feed.stats.gapsDetected = 0) (hdropped : pipe.feed.stats.packetsDropped = 0)
    {first : BufferSlot} {packets : List BufferSlot}
    (hwalked : walkedPackets events = first :: packets) :
    (walkedPackets events).flatMap (fun packet => messagesOf packet.bytes) =
        (records.drop (headerOf first.bytes).start).take
          (announced ((walkedPackets events).map BufferSlot.bytes)) ∧
      pipe.feed.nextExpected.toNat = 1 + (headerOf first.bytes).start +
        announced ((walkedPackets events).map BufferSlot.bytes) ∧
      pipe.feed.nextExpected.toNat ≤ 1 + records.length ∧
      (headerOf first.bytes).sequenceNumber.toNat = 1 + (headerOf first.bytes).start := by
  obtain ⟨before, packet, hsent, hvalid, hfinished, _, hall⟩ :=
    hreached.drained hsome hslots hpopped hinvalid
  have hrange : ∀ payload, carried payload → (headerOf payload).InRange :=
    fun payload hcarried => (hfeed payload hcarried).inRange
  have hbrought := (hreached.brought_walks hsome hslots).1
  have hsame : pipe.brought events = (walkedPackets events).map BufferSlot.bytes := by
    rw [WeakPipeline.brought, hfinished, hsent, packetsOf_append, packetsOf_of_valid hvalid,
      packetsOf_singleton, if_pos hinvalid, List.append_nil, hall]
    exact List.append_nil _
  rw [hsame] at hbrought
  have hnumbered := hbrought.numbered hrange
  have hunbroken := hbrought.unbroken hrange hgaps hdropped
  have hexcerpts : ∀ bytes ∈ (walkedPackets events).map BufferSlot.bytes,
      Excerpt records bytes := by
    intro bytes hbytes
    obtain ⟨payload, hcarried, hreceived, hlong⟩ := hbrought.fromFeed bytes hbytes
    have hfeeds := hfeed payload hcarried
    have hwhole : bytes = payload := by
      rw [hreceived, received, List.take_of_length_le hfeeds.fits]
    obtain ⟨_, _, hcount, hend⟩ := hnumbered.past _ (List.mem_map_of_mem hbytes)
    rw [hwhole] at hcount hend ⊢
    exact hfeeds.excerpt hend hcount
  rw [hwalked, List.map_cons] at hexcerpts hunbroken ⊢
  obtain ⟨hmessages, hlast⟩ := flatMap_messagesOf hexcerpts hunbroken.chain
  obtain ⟨last, hgetLast⟩ : ∃ last, (first.bytes :: packets.map BufferSlot.bytes).getLast? =
      some last := ⟨_, List.getLast?_eq_some_getLast (List.cons_ne_nil _ _)⟩
  have hheader : ((first.bytes :: packets.map BufferSlot.bytes).map headerOf).getLast? =
      some (headerOf last) := by
    rw [List.getLast?_map, hgetLast]
    rfl
  have hnext : (headerOf last).next = pipe.feed.nextExpected.toNat :=
    (hunbroken.last _ hheader).2
  refine ⟨?_, hnext.symm.trans (hlast last hgetLast), ?_, ?_⟩
  · rw [← hmessages, ← List.map_cons, List.flatMap_map]
  · rw [← hnext]
    exact (hexcerpts last (List.mem_of_getLast? hgetLast)).within
  · have hpositive := (hexcerpts first.bytes List.mem_cons_self).positive
    unfold MoldHeader.start
    omega

/-- In every run of `runUdp` on a feed of numbered messages, whatever is lost, repeated or out
of order, whatever the loads read and however the threads interleave: if the sentinel was
popped and neither a gap nor a dropped packet was counted, the messages walked are a block of
the messages of the feed. It starts with the number of the first packet walked and ends in
front of the number that is expected. -/
theorem weakPipeline_unbroken {port : UInt16} {carried : List UInt8 → Prop}
    {records : List Payload} {numSlots capacity : ℕ} {ring : SpscRing PacketRef}
    (hsome : 0 < numSlots) (hslots : numSlots < 2 ^ 32)
    (hcreate : SpscRing.create capacity = some ring)
    (hfeed : ∀ payload, carried payload → Feeds records payload)
    {pipe : WeakPipeline} {events : List UdpEvent}
    (hreached : WeakReached port carried numSlots capacity pipe events)
    {ref : PacketRef} (hpopped : ref ∈ takenRefs events) (hinvalid : ref.poolIdx = kPoolInvalid)
    (hgaps : pipe.feed.stats.gapsDetected = 0) (hdropped : pipe.feed.stats.packetsDropped = 0) :
    ∃ start count, start + count ≤ records.length ∧
      (walkedPackets events).flatMap (fun packet => messagesOf packet.bytes) =
        (records.drop start).take count ∧
      ∀ packet, (walkedPackets events).head? = some packet →
        (headerOf packet.bytes).sequenceNumber.toNat = 1 + start ∧
          pipe.feed.nextExpected.toNat = 1 + start + count := by
  obtain ⟨⟨bits, rfl⟩, _⟩ := SpscRing.create_eq_some_iff.mp hcreate
  cases hwalked : walkedPackets events with
  | nil => exact ⟨0, 0, Nat.zero_le _, rfl, nofun⟩
  | cons first packets =>
      obtain ⟨hmessages, hnext, hwithin, hstart⟩ :=
        hreached.block hsome hslots hfeed hpopped hinvalid hgaps hdropped hwalked
      rw [hwalked] at hmessages hnext
      refine ⟨_, _, ?_, hmessages, ?_⟩
      · omega
      · intro packet hhead
        obtain rfl : first = packet := Option.some.inj hhead
        exact ⟨hstart, hnext⟩

/-- The first packet is lost and the second one arrives twice. -/
theorem weakPipeline_unbroken_lostFront : ∃ events : List UdpEvent,
    (walkedPackets events).flatMap (fun packet => messagesOf packet.bytes) =
      [crossingSell.payload, laterBuy.payload] := by
  have hrun : ((WeakPipeline.initial 8 8).runLatest []
      (sessionMoves (arriving [(1, true), (2, true), (1, false)]) (eosPacket 4))).map
        sessionFacts = some (some ⟨kPoolInvalid, 6⟩, ⟨4, 0, 194, 0, 1, 1⟩, 4, some 2) := by
    decide +kernel
  obtain ⟨pipe, events, hreached, hpopped, hstats, hnext, first, hhead, hfirst⟩ :=
    exists_reached_session hrun
  obtain ⟨start, count, _, hmessages, hends⟩ := weakPipeline_unbroken (by decide) (by decide)
    (SpscRing.create_eq_some_iff.mpr ⟨⟨3, rfl⟩, rfl⟩) (fun _ => feeds_threeDatagrams) hreached
    hpopped rfl (congrArg FeedStats.gapsDetected hstats)
    (congrArg FeedStats.packetsDropped hstats)
  obtain ⟨hstart, hcount⟩ := hends first hhead
  rw [hfirst] at hstart
  rw [hnext] at hcount
  obtain rfl : start = 1 := (Nat.add_left_cancel hstart).symm
  obtain rfl : count = 2 := (Nat.add_left_cancel hcount).symm
  exact ⟨events, hmessages⟩

/-- A packet that was pushed, as the network thread logs it. -/
def entryOf (sent : PacketRef × BufferSlot) : Accepted where
  header := headerOf sent.2.bytes
  data := sent.2.bytes
  ref := sent.1
  gapsDetected := 0
  pushed := true

theorem BufferSlot.holds_bytes (ref : PacketRef) (slot : BufferSlot) :
    slot.Holds (entryOf (ref, slot)) where
  length := (Memory.length_slice _ _ _).symm
  data := by
    change slot.data.slice 0 slot.bytes.length = slot.bytes
    rw [BufferSlot.bytes, Memory.length_slice]

/-- The consumer loop is relayed what was pushed, and then the sentinel. -/
theorem WeakReached.relays {port : UInt16} {carried : List UInt8 → Prop} {bits numSlots : ℕ}
    {pipe : WeakPipeline} {events : List UdpEvent} (hsome : 0 < numSlots)
    (hslots : numSlots < 2 ^ 32)
    (hreached : WeakReached port carried numSlots (2 ^ bits) pipe events)
    {ref : PacketRef} (hpopped : ref ∈ takenRefs events)
    (hinvalid : ref.poolIdx = kPoolInvalid) :
    ∃ before : List (PacketRef × BufferSlot),
      Relays (popping events).turns (before.map entryOf) (some ref) ∧
      walkedPackets events = before.map Prod.snd ∧
      ∀ entry ∈ before.map entryOf, entry.Fits ∧ entry.ref.poolIdx ≠ kPoolInvalid := by
  obtain ⟨before, packet, hsent, hvalid, hfinished, htaken, hwalked⟩ :=
    hreached.drained hsome hslots hpopped hinvalid
  have hpops := hreached.pops hsome hslots
  have hended := hreached.ended hsome hslots ref hpopped hinvalid
  have hnone : (popping events).hand = none := by
    rw [hpops.hand]
    cases hpc : pipe.matching with
    | walking ref =>
        rw [hpc] at hended
        exact hended.elim
    | _ => rfl
  have hrefs := hpops.refs
  rw [hnone, Option.toList_none, List.append_nil, htaken] at hrefs
  refine ⟨before, ⟨?_, ?_, hpops.running⟩, hwalked, List.forall_mem_map.mpr fun entry hentry => ?_⟩
  · rw [hrefs, List.map_map]
    rfl
  · rw [hpops.slots, hwalked, List.forall₂_map_left_iff, List.forall₂_map_right_iff]
    exact List.forall₂_same.mpr fun entry _ => BufferSlot.holds_bytes entry.1 entry.2
  · have hbrought := (hreached.brought_walks hsome hslots).1
    have hmem : entry.2.bytes ∈ pipe.brought events := by
      rw [WeakPipeline.brought, hsent, packetsOf_append, packetsOf_of_valid hvalid]
      exact List.mem_append_left _ (List.mem_map_of_mem
        (List.mem_append_left _ (List.mem_map_of_mem hentry)))
    obtain ⟨payload, _, hbytes, hlong⟩ := hbrought.fromFeed _ hmem
    refine ⟨?_, hvalid entry hentry⟩
    change kMoldHeaderBytes ≤ entry.2.bytes.length ∧ entry.2.bytes.length ≤ kMaxPacketBytes
    rw [hbytes, received, List.length_take]
    exact ⟨Nat.le_min.mpr ⟨by decide, hlong⟩, Nat.min_le_left _ _⟩

/-- A file of complete messages with valid sides is replayed, and the network delivers the
packets in any order, repeats them and loses them. In every run of `runUdp` on what arrives,
whatever the loads read and however the threads interleave: if the sentinel was popped, neither
a gap nor a dropped packet was counted, the first packet walked carries the first message and
the expected number stands behind the last message, then the engine was passed the messages of
the file in their order, and its pool, order map and books are those that `run` leaves. -/
theorem certified_udp_agrees (mapped : MappedFile) (messages : List FileMessage)
    (hholds : mapped.Holds (messages.map FileMessage.payload))
    (hsides : ∀ message ∈ messages, message.decoded.ValidSides)
    (hlive : MatchingEngine.LiveBelow (messages.map FileMessage.delivery))
    (maxPerPacket : UInt16) (hmax : 1 ≤ maxPerPacket.toNat) (hbatch : maxPerPacket.toNat ≤ 256)
    (sendto : ℕ → Bool) (hsendto : ∀ call, sendto call = true) (packet : Memory)
    (batchPtrs : ℕ → ℕ) (batchLens : ℕ → UInt16) (datagrams : List (List UInt8))
    (hreplay : replay mapped maxPerPacket sendto { packet, batchPtrs, batchLens } = some datagrams)
    {port : UInt16} {numSlots capacity : ℕ} {ring : SpscRing PacketRef} (hsome : 0 < numSlots)
    (hslots : numSlots < 2 ^ 32) (hcreate : SpscRing.create capacity = some ring)
    {pipe : WeakPipeline} {events : List UdpEvent}
    (hreached : WeakReached port (· ∈ datagrams) numSlots capacity pipe events)
    {ref : PacketRef} (hpopped : ref ∈ takenRefs events) (hinvalid : ref.poolIdx = kPoolInvalid)
    (hgaps : pipe.feed.stats.gapsDetected = 0) (hdropped : pipe.feed.stats.packetsDropped = 0)
    {first : BufferSlot} (hhead : (walkedPackets events).head? = some first)
    (hfirst : (headerOf first.bytes).sequenceNumber = 1)
    (hlast : pipe.feed.nextExpected.toNat = 1 + messages.length)
    (fileCycles udpCycles : Cycles) :
    ∃ file udp calls log, runFile mapped fileCycles = some (file, calls) ∧
      runUdp udpCycles (popping events).turns = some (udp, log) ∧
      log.flatten = calls ∧ file.engine.SameState udp.engine := by
  obtain ⟨⟨bits, rfl⟩, _⟩ := SpscRing.create_eq_some_iff.mp hcreate
  have hshort : ∀ record ∈ messages.map FileMessage.payload, record.bytes.length ≤ 2026 :=
    List.forall_mem_map.mpr fun message _ => message.fits
  obtain ⟨batches, hflatten, hsendable, hreplay'⟩ :=
    replay_eq hmax hbatch hsendto hholds hshort packet batchPtrs batchLens
  rw [hreplay] at hreplay'
  obtain rfl := Option.some.inj hreplay'
  have hcount : batches.flatten.length + 2 ^ 16 < 2 ^ 64 := by
    have hbytes := hholds.two_mul_length_le
    have hbound := mapped.addressable
    rw [hflatten]
    omega
  rw [← hflatten] at hreached
  have hfeed : ∀ payload, payload ∈ packetsFrom 1 batches ++
      [eosPacket (1 + UInt64.ofNat batches.flatten.length)] → Feeds batches.flatten payload :=
    fun _ => feeds_of_mem hbatch hsendable hcount
  obtain ⟨packets, hwalked⟩ := List.head?_eq_some_iff.mp hhead
  obtain ⟨hblock, hnext, _, hstart⟩ :=
    hreached.block hsome hslots hfeed hpopped hinvalid hgaps hdropped hwalked
  have hall : (walkedPackets events).flatMap (fun packet => messagesOf packet.bytes) =
      messages.map FileMessage.payload := by
    have hzero : (headerOf first.bytes).start = 0 := by
      rw [hfirst] at hstart
      change 1 = _ at hstart
      omega
    have hlength : announced ((walkedPackets events).map BufferSlot.bytes) =
        (messages.map FileMessage.payload).length := by
      rw [List.length_map]
      omega
    rw [hblock, hzero, hlength, hflatten, List.drop_zero, List.take_length]
  obtain ⟨engine, market, trace, hjoint⟩ := hlive.exists_jointRun
  obtain ⟨scratch, hrun⟩ := hjoint.reached
  have hquiet := hjoint.reached.thrown_eq_none (List.forall_mem_map.mpr hsides)
  have hviews : (mapped.views 0 (messages.map FileMessage.payload)).map
      (fun view => view.1.slice 0 view.2.toNat) =
        (messages.map FileMessage.delivery).map fun delivery => delivery.message.bytes := by
    rw [← FileMessage.map_bytes]
    nth_rewrite 2 [← MappedFile.map_views hholds]
    rw [List.map_map]
    rfl
  obtain ⟨file, hfile, _, hfileBooks⟩ := Caller.feed_of_runList hrun hquiet {}
    ⟨rfl, rfl, rfl⟩ rfl hviews (fileCycles.clock 0)
  obtain ⟨before, hrelays, hbefore, hvalid⟩ := hreached.relays hsome hslots hpopped hinvalid
  have hentries : (before.map entryOf).flatMap Accepted.messages =
      messages.map FileMessage.payload := by
    rw [← hall, hbefore, List.flatMap_map, List.flatMap_map]
    rfl
  obtain ⟨idx, tWire⟩ := ref
  obtain rfl : idx = kPoolInvalid := hinvalid
  obtain ⟨udp, hudp, hudpBooks⟩ := hrelays.iterate_popBody hvalid hrun hquiet
    (by rw [hentries, FileMessage.map_bytes]) {} ⟨rfl, rfl, rfl⟩ rfl udpCycles []
  refine ⟨file, udp, _, _, (MappedFile.runFile_eq_feed fileCycles hholds).trans hfile, hudp, ?_,
    hfileBooks.symm.trans hudpBooks⟩
  rw [List.nil_append, ← List.flatMap_def, hentries, MappedFile.map_views hholds]

/-- The first packet is repeated, and the second one once more arrives behind the third. -/
theorem certified_udp_agrees_repeated : ∃ (pipe : WeakPipeline) (events : List UdpEvent)
    (file udp : Caller) (calls : List Payload) (log : List (List Payload)),
    pipe.feed.stats.duplicatesIgnored = 2 ∧
      runFile threeMessageFile (fun _ => (0, 1)) = some (file, calls) ∧
      runUdp (fun _ => (2, 4)) (popping events).turns = some (udp, log) ∧
      log.flatten = calls ∧ file.engine.SameState udp.engine := by
  have hrun : ((WeakPipeline.initial 8 8).runLatest [] (sessionMoves
      (arriving [(0, true), (1, true), (0, false), (2, true), (1, false)]) (eosPacket 4))).map
        sessionFacts = some (some ⟨kPoolInvalid, 6⟩, ⟨6, 0, 310, 0, 2, 1⟩, 4, some 1) := by
    decide +kernel
  obtain ⟨pipe, events, hreached, hpopped, hstats, hnext, first, hhead, hfirst⟩ :=
    exists_reached_session hrun
  have hsides : ∀ message ∈ threeFileMessages, message.decoded.ValidSides := by
    unfold threeFileMessages restingBuy crossingSell laterBuy
    rw [List.forall_mem_cons, List.forall_mem_cons, List.forall_mem_singleton,
      ItchMessage.decoded_encode, ItchMessage.decoded_encode, ItchMessage.decoded_encode]
    exact ⟨.inl rfl, .inr rfl, .inl rfl⟩
  obtain ⟨file, udp, calls, log, hagree⟩ := certified_udp_agrees threeMessageFile
    threeFileMessages holds_threeMessageFile hsides
    (MatchingEngine.liveBelow_of_length_lt (by decide)) 1 (by decide) (by decide) (fun _ => true)
    (fun _ => rfl) (fun _ => 0) (fun _ => 0) (fun _ => 0) threeDatagrams replay_threeMessageFile
    (by decide) (by decide) (SpscRing.create_eq_some_iff.mpr ⟨⟨3, rfl⟩, rfl⟩) hreached hpopped rfl
    (congrArg FeedStats.gapsDetected hstats) (congrArg FeedStats.packetsDropped hstats) hhead
    hfirst hnext (fun _ => (0, 1)) fun _ => (2, 4)
  exact ⟨pipe, events, file, udp, calls, log, congrArg FeedStats.duplicatesIgnored hstats, hagree⟩

/-! ## What the counters miss -/

/-- The packets of some batches among the packets of all. -/
theorem exists_of_packetsFrom_append {batches : List (List Payload)} {seq : UInt64}
    {before after : List (List UInt8)} (hsplit : packetsFrom seq batches = before ++ after) :
    ∃ first second seq', batches = first ++ second ∧ before = packetsFrom seq first ∧
      after = packetsFrom seq' second := by
  induction before generalizing batches seq with
  | nil => exact ⟨[], batches, seq, rfl, rfl, hsplit.symm⟩
  | cons datagram before ih =>
      cases batches with
      | nil => cases hsplit
      | cons batch batches =>
          obtain ⟨rfl, hlater⟩ := List.cons.inj hsplit
          obtain ⟨first, second, seq', rfl, rfl, rfl⟩ := ih hlater
          exact ⟨batch :: first, second, seq', rfl, rfl, rfl⟩

/-- A turn that gets a slot and whose packet the ring takes drops nothing. -/
theorem packetsDropped_receive (state : FeedState) {turn : RecvTurn}
    (hslot : turn.slotIdx ≠ kPoolInvalid) (hpushed : turn.pushed = true) :
    (receive state turn).state.stats.packetsDropped = state.stats.packetsDropped := by
  unfold receive
  rw [if_neg hslot]
  cases turn.recv with
  | failed interrupted => rfl
  | datagram payload =>
      dsimp only
      split
      · rfl
      · have hdropped := (state.countReceived (received payload).length).packetsDropped_track
          (parseMoldHeader (.ofList (received payload)))
        generalize (state.countReceived (received payload).length).track
          (parseMoldHeader (.ofList (received payload))) = tracked at hdropped ⊢
        obtain ⟨next, verdict⟩ := tracked
        cases verdict with
        | accepted =>
            dsimp only [pushPacket]
            rw [hpushed]
            exact hdropped
        | _ => exact hdropped

theorem ReceivesAll.packetsDropped {turns : List RecvTurn} {sent : List (List UInt8)}
    (hreceives : ReceivesAll turns sent) :
    (runFeedHandler turns).1.stats.packetsDropped = 0 := by
  obtain ⟨_, _, hdropped⟩ : ∃ past, past <+: turns ∧
      (runFeedHandler turns).1.stats.packetsDropped = 0 := by
    refine runUntil_invariant
      (fun _ (state : FeedState) (_ : List Accepted) => state.stats.packetsDropped = 0) rfl ?_
    intro past state _ turn hpast hnone
    have hturn : turn ∈ turns := hpast.subset (List.mem_append_right _ List.mem_cons_self)
    rw [packetsDropped_receive state (hreceives.acquired turn hturn) (hreceives.pushed turn hturn)]
    exact hnone
  exact hdropped

theorem map_messagesOf_packetsFrom (seq : UInt64) (batches : List (List Payload)) :
    (packetsFrom seq batches).map messagesOf = batches := by
  induction batches generalizing seq with
  | nil => rfl
  | cons batch batches ih => rw [packetsFrom, List.map_cons, ih, packetOf, messagesOf_wire]

/-- When the first packets of a file and the last ones are lost and what lies between them
arrives in order with the end of the session, no counter shows it: no gap, no duplicate and no
dropped packet is counted, and the session ends as if the file had been received. -/
theorem lost_ends_uncounted {mapped : MappedFile} {records : List Payload}
    (hholds : mapped.Holds records) (hshort : ∀ record ∈ records, record.bytes.length ≤ 2026)
    {maxPerPacket : UInt16} (hmax : 0 < maxPerPacket.toNat) (hbatch : maxPerPacket.toNat ≤ 256)
    {sendto : ℕ → Bool} (hsendto : ∀ call, sendto call = true) {packet : Memory}
    {batchPtrs : ℕ → ℕ} {batchLens : ℕ → UInt16} {before block after : List (List UInt8)}
    {eos : List UInt8}
    (hreplay : replay mapped maxPerPacket sendto { packet, batchPtrs, batchLens } =
      some (before ++ (block ++ after) ++ [eos]))
    {turns : List RecvTurn} (hreceives : ReceivesAll turns (block ++ [eos])) :
    (runFeedHandler turns).1.stats.gapsDetected = 0 ∧
      (runFeedHandler turns).1.stats.duplicatesIgnored = 0 ∧
      (runFeedHandler turns).1.stats.packetsDropped = 0 ∧
      (runFeedHandler turns).1.sentinel.isSome ∧
      (runFeedHandler turns).2.map Accepted.messages = block.map messagesOf := by
  obtain ⟨batches, _, hsendable, hsent⟩ :=
    replay_eq hmax hbatch hsendto hholds hshort packet batchPtrs batchLens
  rw [hreplay] at hsent
  obtain ⟨hpackets, heos⟩ := List.append_inj' (Option.some.inj hsent) rfl
  obtain ⟨first, rest, seq, rfl, _, hrest⟩ := exists_of_packetsFrom_append hpackets.symm
  obtain ⟨second, last, _, rfl, rfl, _⟩ := exists_of_packetsFrom_append hrest.symm
  obtain rfl := (List.cons.inj heos).1
  have hreceived : SessionReceived {} second (runFeedHandler turns) :=
    hreceives.run hbatch (fun batch hmem => hsendable batch
      (List.mem_append_right _ (List.mem_append_left _ hmem))) fun hnever => nomatch hnever
  obtain ⟨tWire, hsentinel⟩ := hreceived.sentinel
  refine ⟨hreceived.gaps, hreceived.duplicates, hreceives.packetsDropped, ?_, ?_⟩
  · rw [hsentinel]
    rfl
  · rw [hreceived.messages, map_messagesOf_packetsFrom]

/-- Of three packets only the second arrives. -/
theorem lost_ends_uncounted_middle : ∃ turns : List RecvTurn,
    (runFeedHandler turns).1.stats.gapsDetected = 0 ∧
      (runFeedHandler turns).1.stats.duplicatesIgnored = 0 ∧
      (runFeedHandler turns).1.stats.packetsDropped = 0 ∧
      (runFeedHandler turns).1.sentinel.isSome ∧
      (runFeedHandler turns).2.map Accepted.messages =
        [[crossingSell.payload]] := by
  have hshort : ∀ record ∈ threeFileMessages.map FileMessage.payload,
      record.bytes.length ≤ 2026 :=
    List.forall_mem_map.mpr fun message _ => message.fits
  have hone : 0 < (1 : UInt16).toNat ∧ (1 : UInt16).toNat ≤ 256 := by decide
  have hsendto : ∀ call : ℕ, (fun _ => true : ℕ → Bool) call = true := fun _ => rfl
  have hreplay : replay threeMessageFile 1 (fun _ => true)
      { packet := fun _ => 0, batchPtrs := fun _ => 0, batchLens := fun _ => 0 } =
        some (packetsFrom 1 [[restingBuy.payload]] ++ (packetsFrom 2 [[crossingSell.payload]] ++
          packetsFrom 3 [[laterBuy.payload]]) ++ [eosPacket 4]) :=
    replay_threeMessageFile
  obtain ⟨hgaps, hduplicates, hdropped, hsentinel, hmessages⟩ := lost_ends_uncounted
    holds_threeMessageFile hshort hone.1 hone.2 hsendto hreplay (receivesAll_map _)
  exact ⟨_, hgaps, hduplicates, hdropped, hsentinel,
    hmessages.trans (map_messagesOf_packetsFrom 2 _)⟩

end Orderbook
