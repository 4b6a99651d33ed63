/-
# What the matching thread walks

With old values in the loads a push may be refused although there is room and a pop may miss
although there is a packet. Neither changes what gets through: the matching thread walks the
packets that were pushed, in that order and each one once, with the bytes that arrived, and
their ranges of sequence numbers are disjoint and grow.

The ring decides the order, the hands of the threads keep the bytes, and the tracker of the
network thread decides which packets are pushed at all.
-/

import Orderbook.Feed.Delivery
import Orderbook.Feed.SessionEnd
import Orderbook.Feed.WeakPipeline

namespace Orderbook

open Orderbook.Math

/-- The packet that was read. -/
def UdpEvent.walked : UdpEvent → Option BufferSlot
  | read packet => some packet
  | _ => none

def walkedPackets (events : List UdpEvent) : List BufferSlot := events.filterMap UdpEvent.walked

theorem walkedPackets_append (events : List UdpEvent) (event : Option UdpEvent) :
    walkedPackets (events ++ event.toList) =
      walkedPackets events ++ (event.bind UdpEvent.walked).toList := by
  unfold walkedPackets
  rw [List.filterMap_append]
  cases event with
  | none => rfl
  | some event => cases event <;> rfl

/-- The packets of the references that stand for a slot. -/
def packetsOf (sent : List (PacketRef × BufferSlot)) : List BufferSlot :=
  sent.filterMap fun entry => entry.1.slot.map fun _ => entry.2

theorem packetsOf_append (sent more : List (PacketRef × BufferSlot)) :
    packetsOf (sent ++ more) = packetsOf sent ++ packetsOf more :=
  List.filterMap_append ..

theorem packetsOf_singleton (ref : PacketRef) (packet : BufferSlot) :
    packetsOf [(ref, packet)] = if ref.poolIdx = kPoolInvalid then [] else [packet] := by
  unfold packetsOf PacketRef.slot
  split
  case isTrue hinvalid => simp [hinvalid]
  case isFalse hvalid => simp [hvalid]

theorem packetsOf_of_valid {sent : List (PacketRef × BufferSlot)}
    (hvalid : ∀ entry ∈ sent, entry.1.poolIdx ≠ kPoolInvalid) :
    packetsOf sent = sent.map Prod.snd := by
  induction sent with
  | nil => rfl
  | cons entry sent ih =>
      obtain ⟨hentry, hvalid⟩ := List.forall_mem_cons.mp hvalid
      rw [← List.singleton_append, packetsOf_append, ih hvalid, packetsOf_singleton,
        if_neg hentry]
      rfl

/-- The bytes of a packet. -/
def BufferSlot.bytes (slot : BufferSlot) : List UInt8 := slot.data.slice 0 slot.length.toNat

theorem length_received_le (payload : List UInt8) :
    (received payload).length ≤ kMaxPacketBytes :=
  List.length_take_le _ _

/-- A slot that was filled holds the bytes. -/
theorem BufferSlot.bytes_fill (slot : BufferSlot) (payload : List UInt8) :
    (slot.fill (received payload)).bytes = received payload := by
  have hlength : (UInt16.ofNat (received payload).length).toNat = (received payload).length := by
    apply UInt16.toNat_ofNat_of_lt'
    exact Nat.lt_of_le_of_lt (length_received_le payload) (by decide)
  unfold bytes fill
  dsimp only
  rw [hlength]
  exact slot.data.slice_store 0 (received payload)

/-- The header in front of the bytes. -/
def headerOf (bytes : List UInt8) : MoldHeader := parseMoldHeader (.ofList bytes)

/-- A packet that is cut off behind its header keeps the header. -/
theorem headerOf_received {payload : List UInt8} (hlong : kMoldHeaderBytes ≤ payload.length) :
    headerOf (received payload) = headerOf payload := by
  refine parseMoldHeader_congr fun i hi => ?_
  have hcut : i < (received payload).length := by
    unfold received
    rw [List.length_take]
    exact Nat.lt_min.mpr ⟨hi.trans (by decide), Nat.lt_of_lt_of_le hi hlong⟩
  have hwhole : i < payload.length := Nat.lt_of_lt_of_le hi hlong
  change (received payload).getD i 0 = payload.getD i 0
  rw [List.getD_eq_getElem _ _ hcut, List.getD_eq_getElem _ _ hwhole]
  exact List.getElem_take ..

/-- The sequence numbers of the messages of a packet. -/
def MoldHeader.range (header : MoldHeader) : Set ℕ :=
  Set.Ico header.sequenceNumber.toNat header.next

/-- Headers that the tracker has accepted one after the other: each ends where the next one
starts or before, and the tracker is past all of them. -/
structure Numbered (tracker : Tracker) (headers : List MoldHeader) : Prop where
  chain : headers.Pairwise fun header later => header.next ≤ later.sequenceNumber.toNat
  past : ∀ header ∈ headers, tracker.sessionInit = true ∧
    header.next ≤ tracker.nextExpected.toNat ∧ 0 < header.messageCount.toNat ∧
      header.messageCount ≠ kMoldEndOfSession

namespace Numbered

variable {tracker : Tracker} {headers : List MoldHeader} {hdr : MoldHeader}

theorem sublist {fewer : List MoldHeader} (hnumbered : Numbered tracker headers)
    (hsub : fewer.Sublist headers) : Numbered tracker fewer where
  chain := hnumbered.chain.sublist hsub
  past header hheader := hnumbered.past header (hsub.subset hheader)

/-- A header that is not accepted changes nothing for the ones before it. -/
theorem after_of_refused (hnumbered : Numbered tracker headers)
    (hverdict : tracker.verdict hdr ≠ .accepted) : Numbered (tracker.after hdr) headers where
  chain := hnumbered.chain
  past header hheader := by
    obtain ⟨hinit, hnext, hcount⟩ := hnumbered.past header hheader
    rw [(Tracker.after_of_refused hverdict).2.1, Tracker.initSession_of_init hinit]
    exact ⟨tracker.sessionInit_after hdr, hnext, hcount⟩

/-- A header that is accepted goes on where the last one ended, or later. -/
theorem after_of_accepted (hnumbered : Numbered tracker headers)
    (hverdict : tracker.verdict hdr = .accepted) (hrange : hdr.InRange) :
    Numbered (tracker.after hdr) (headers ++ [hdr]) := by
  obtain ⟨hnotBehind, hcount⟩ := Tracker.of_accepted hverdict
  have hafter : (tracker.after hdr).nextExpected.toNat = hdr.next := by
    have hnext : (tracker.after hdr).nextExpected =
        hdr.sequenceNumber + hdr.messageCount.toUInt64 := by
      unfold Tracker.after
      rw [hverdict]
    rw [hnext, hrange.toNat_next]
  have hbefore : ∀ header ∈ headers, header.next ≤ hdr.sequenceNumber.toNat := by
    intro header hheader
    obtain ⟨hinit, hnext, _⟩ := hnumbered.past header hheader
    rw [Tracker.initSession_of_init hinit] at hnotBehind
    exact hnext.trans (UInt64.le_iff_toNat_le.mp hnotBehind)
  constructor
  · refine List.pairwise_append.mpr ⟨hnumbered.chain, List.pairwise_singleton _ _, ?_⟩
    intro header hheader later hlater
    rw [List.mem_singleton.mp hlater]
    exact hbefore header hheader
  · intro header hheader
    rw [hafter]
    refine ⟨tracker.sessionInit_after hdr, ?_⟩
    rcases List.mem_append.mp hheader with hold | hnew
    · exact ⟨(hbefore header hold).trans (Nat.le_add_right _ _), (hnumbered.past header hold).2.2⟩
    · rw [List.mem_singleton.mp hnew]
      refine ⟨Nat.le_refl _, hcount, fun hend => ?_⟩
      rw [Tracker.verdict, if_pos hend] at hverdict
      cases hverdict

/-- Ranges that follow each other are disjoint and grow. -/
theorem disjoint (hnumbered : Numbered tracker headers) :
    headers.Pairwise fun header later =>
      Disjoint header.range later.range ∧ header.sequenceNumber < later.sequenceNumber := by
  refine hnumbered.chain.imp_of_mem fun {header later} hheader _ hle => ?_
  have hcount := (hnumbered.past header hheader).2.2.1
  have hless : header.sequenceNumber.toNat < header.next := Nat.lt_add_of_pos_right hcount
  have hbounds : min header.next later.next ≤
      max header.sequenceNumber.toNat later.sequenceNumber.toNat :=
    (min_le_left _ _).trans (hle.trans (le_max_right _ _))
  exact ⟨Set.Ico_disjoint_Ico.mpr hbounds, UInt64.lt_iff_toNat_lt.mpr (hless.trans_le hle)⟩

end Numbered

/-- Headers without a hole between them, up to where the tracker stands. -/
structure Unbroken (tracker : Tracker) (headers : List MoldHeader) : Prop where
  chain : headers.IsChain fun header later => header.next = later.sequenceNumber.toNat
  last : ∀ header, headers.getLast? = some header →
    tracker.sessionInit = true ∧ header.next = tracker.nextExpected.toNat

namespace Unbroken

variable {tracker : Tracker} {headers : List MoldHeader} {hdr : MoldHeader}

theorem after_of_refused (hunbroken : Unbroken tracker headers)
    (hverdict : tracker.verdict hdr ≠ .accepted) : Unbroken (tracker.after hdr) headers where
  chain := hunbroken.chain
  last header hlast := by
    obtain ⟨hinit, hnext⟩ := hunbroken.last header hlast
    rw [(Tracker.after_of_refused hverdict).2.1, Tracker.initSession_of_init hinit]
    exact ⟨tracker.sessionInit_after hdr, hnext⟩

/-- A header that is accepted without a gap goes on where the last one ended. -/
theorem after_of_accepted (hunbroken : Unbroken tracker headers)
    (hverdict : tracker.verdict hdr = .accepted) (hrange : hdr.InRange)
    (hgap : ¬ (tracker.initSession hdr).nextExpected < hdr.sequenceNumber) :
    Unbroken (tracker.after hdr) (headers ++ [hdr]) := by
  have hsame : (tracker.initSession hdr).nextExpected = hdr.sequenceNumber :=
    UInt64.le_antisymm (Tracker.of_accepted hverdict).1 (UInt64.not_lt.mp hgap)
  constructor
  · rw [List.isChain_append]
    refine ⟨hunbroken.chain, .singleton _, ?_⟩
    intro header hlast later hlater
    obtain rfl : hdr = later := Option.some.inj hlater
    obtain ⟨hinit, hnext⟩ := hunbroken.last header hlast
    rw [hnext, ← hsame, Tracker.initSession_of_init hinit]
  · intro header hlast
    rw [List.getLast?_concat] at hlast
    obtain rfl : hdr = header := Option.some.inj hlast
    have hafter : (tracker.after hdr).nextExpected =
        hdr.sequenceNumber + hdr.messageCount.toUInt64 := by
      unfold Tracker.after
      rw [hverdict]
    rw [hafter, hrange.toNat_next]
    exact ⟨tracker.sessionInit_after hdr, rfl⟩

end Unbroken

theorem Tracker.gapsDetected_initSession (tracker : Tracker) (hdr : MoldHeader) :
    (tracker.initSession hdr).gapsDetected = tracker.gapsDetected := by
  unfold initSession
  split <;> rfl

/-- A header that is accepted beyond the expected number counts as a gap. -/
theorem Tracker.gapsDetected_after {tracker : Tracker} {hdr : MoldHeader}
    (hverdict : tracker.verdict hdr = .accepted) :
    (tracker.after hdr).gapsDetected = tracker.gapsDetected +
      if (tracker.initSession hdr).nextExpected < hdr.sequenceNumber then 1 else 0 := by
  rw [← tracker.gapsDetected_initSession hdr]
  unfold Tracker.after
  rw [hverdict]

/-- The packet that passed the sequence check and is on its way into the ring. -/
def NetworkPc.bringing (slots : UInt32 → BufferSlot) : NetworkPc → Option (List UInt8)
  | claiming moldPkt _ _ => some (received moldPkt)
  | copying _ moldPkt _ _ => some (received moldPkt)
  | pushing ref _ => some (slots ref.poolIdx).bytes
  | _ => none

/-- The packets that were pushed, and the one that is on its way. -/
def WeakPipeline.brought (pipe : WeakPipeline) (events : List UdpEvent) : List (List UInt8) :=
  (packetsOf (sentPackets events)).map BufferSlot.bytes ++
    (pipe.network.bringing pipe.memory.slots).toList

/-- A packet of the feed, as it is kept in a slot. -/
def FromFeed (carried : List UInt8 → Prop) (bytes : List UInt8) : Prop :=
  ∃ payload, carried payload ∧ bytes = received payload ∧ kMoldHeaderBytes ≤ payload.length

/-- What a step does to what was brought: a packet may be given up, which is counted, or the
tracker sees a header, and if it accepts it the packet is on its way. -/
inductive Brings (carried : List UInt8 → Prop) (tracker : Tracker) (dropped : ℕ)
    (brought : List (List UInt8)) : Tracker → ℕ → List (List UInt8) → Prop
  | quiet : Brings carried tracker dropped brought tracker dropped brought
  | dropped {brought' : List (List UInt8)} (hsub : brought'.Sublist brought) :
      Brings carried tracker dropped brought tracker (dropped + 1) brought'
  | refused (hdr : MoldHeader) (hverdict : tracker.verdict hdr ≠ .accepted) :
      Brings carried tracker dropped brought (tracker.after hdr) dropped brought
  | accepted (payload : List UInt8) (hcarried : carried payload)
      (hlong : kMoldHeaderBytes ≤ payload.length)
      (hverdict : tracker.verdict (headerOf payload) = .accepted) :
      Brings carried tracker dropped brought (tracker.after (headerOf payload)) dropped
        (brought ++ [received payload])

/-- The packets that were brought are packets of the feed. If the feed keeps to its range of
sequence numbers they are numbered, and without a hole as long as no gap and no dropped packet
was counted. -/
structure Brought (carried : List UInt8 → Prop) (tracker : Tracker) (dropped : ℕ)
    (brought : List (List UInt8)) : Prop where
  fromFeed : ∀ bytes ∈ brought, FromFeed carried bytes
  numbered : (∀ payload, carried payload → (headerOf payload).InRange) →
    Numbered tracker (brought.map headerOf)
  unbroken : (∀ payload, carried payload → (headerOf payload).InRange) →
    tracker.gapsDetected = 0 → dropped = 0 → Unbroken tracker (brought.map headerOf)

theorem Brought.step {carried : List UInt8 → Prop} {tracker tracker' : Tracker}
    {dropped dropped' : ℕ} {brought brought' : List (List UInt8)}
    (hbrought : Brought carried tracker dropped brought)
    (hbrings : Brings carried tracker dropped brought tracker' dropped' brought') :
    Brought carried tracker' dropped' brought' := by
  cases hbrings with
  | quiet => exact hbrought
  | dropped hsub =>
      exact ⟨fun bytes hbytes => hbrought.fromFeed bytes (hsub.subset hbytes),
        fun hrange => (hbrought.numbered hrange).sublist (hsub.map headerOf),
        fun _ _ hnone => absurd hnone (Nat.succ_ne_zero _)⟩
  | refused hdr hverdict =>
      refine ⟨hbrought.fromFeed, fun hrange => (hbrought.numbered hrange).after_of_refused hverdict,
        fun hrange hgaps hnone => ?_⟩
      rw [(Tracker.after_of_refused hverdict).2.2, tracker.gapsDetected_initSession] at hgaps
      exact (hbrought.unbroken hrange hgaps hnone).after_of_refused hverdict
  | accepted payload hcarried hlong hverdict =>
      refine ⟨?_, fun hrange => ?_, fun hrange hgaps hnone => ?_⟩
      · intro bytes hbytes
        rcases List.mem_append.mp hbytes with hold | hnew
        · exact hbrought.fromFeed bytes hold
        · exact ⟨payload, hcarried, List.mem_singleton.mp hnew, hlong⟩
      · rw [List.map_append, List.map_singleton, headerOf_received hlong]
        exact (hbrought.numbered hrange).after_of_accepted hverdict (hrange payload hcarried)
      · rw [Tracker.gapsDetected_after hverdict] at hgaps
        obtain ⟨hbefore, hgap⟩ := Nat.add_eq_zero_iff.mp hgaps
        rw [List.map_append, List.map_singleton, headerOf_received hlong]
        refine (hbrought.unbroken hrange hbefore hnone).after_of_accepted hverdict
          (hrange payload hcarried) fun hless => ?_
        rw [if_pos hless] at hgap
        exact absurd hgap Nat.one_ne_zero

/-- The sequence check drops no packet. -/
theorem FeedState.packetsDropped_track (feed : FeedState) (hdr : MoldHeader) :
    (feed.track hdr).1.stats.packetsDropped = feed.stats.packetsDropped := by
  have hinit : (feed.initSession hdr).stats.packetsDropped = feed.stats.packetsDropped := by
    unfold initSession
    split <;> rfl
  rw [← hinit]
  unfold track
  dsimp only
  generalize feed.initSession hdr = started
  split
  · rfl
  · split
    · rfl
    · split
      · rfl
      · unfold resync
        split <;> rfl

/-- What the tracker makes of a packet that was counted. -/
theorem FeedState.tracker_of_track {feed feed' : FeedState} {bytes : ℕ} {hdr : MoldHeader}
    {verdict : Verdict} (htrack : (feed.countReceived bytes).track hdr = (feed', verdict)) :
    feed'.tracker = feed.tracker.after hdr ∧ feed.tracker.verdict hdr = verdict ∧
      feed'.stats.packetsDropped = feed.stats.packetsDropped := by
  obtain ⟨hverdict, htracker⟩ := (feed.countReceived bytes).track_eq hdr
  have hdropped := (feed.countReceived bytes).packetsDropped_track hdr
  rw [htrack] at hverdict htracker hdropped
  rw [FeedState.tracker_countReceived] at hverdict htracker
  exact ⟨htracker, hverdict.symm, hdropped⟩

theorem Resume.bringing_pc (slots : UInt32 → BufferSlot) (resume : Resume) :
    resume.pc.bringing slots = none := by
  cases resume <;> rfl

theorem AfterRelease.bringing_pc (slots : UInt32 → BufferSlot) (next : AfterRelease) :
    next.pc.bringing slots = none := by
  cases next with
  | again resume => exact resume.bringing_pc slots
  | leave => rfl
  | endSession => rfl

section Steps

variable {port : UInt16} {carried : List UInt8 → Prop} {bits numSlots : ℕ}
  {pipe next : WeakPipeline} {event : Option UdpEvent} {events : List UdpEvent}
  {free : List UInt32}

/-- What was pushed stays, and one more packet may have been pushed. -/
theorem WeakPipeline.brought_append (pipe : WeakPipeline) (events : List UdpEvent)
    (event : Option UdpEvent) :
    pipe.brought (events ++ event.toList) =
      (packetsOf (sentPackets events)).map BufferSlot.bytes ++
        ((packetsOf (event.bind UdpEvent.sent).toList).map BufferSlot.bytes ++
          (pipe.network.bringing pipe.memory.slots).toList) := by
  unfold brought
  rw [sentPackets_append, packetsOf_append, List.map_append, List.append_assoc]

/-- As long as nothing is pushed, only the packet that is on its way counts. -/
theorem WeakPipeline.brought_of_bringing (hsent : event.bind UdpEvent.sent = none)
    (hbringing : next.network.bringing next.memory.slots =
      pipe.network.bringing pipe.memory.slots) :
    next.brought (events ++ event.toList) = pipe.brought events := by
  rw [WeakPipeline.brought_append, hsent, hbringing]
  rfl

/-- A packet that is not on its way any more and was not pushed is given up. -/
theorem WeakPipeline.brought_of_none (hsent : event.bind UdpEvent.sent = none)
    (hnone : next.network.bringing next.memory.slots = none) :
    (next.brought (events ++ event.toList)).Sublist (pipe.brought events) := by
  rw [WeakPipeline.brought_append, hsent, hnone]
  exact (List.nil_sublist _).append_left _

theorem brings_of_bringing {tracker : Tracker} {dropped : ℕ}
    (hsent : event.bind UdpEvent.sent = none)
    (hbringing : next.network.bringing next.memory.slots =
      pipe.network.bringing pipe.memory.slots) :
    Brings carried tracker dropped (pipe.brought events) tracker dropped
      (next.brought (events ++ event.toList)) := by
  rw [WeakPipeline.brought_of_bringing hsent hbringing]
  exact .quiet

/-- The tracker sees a header while no packet is on its way. -/
theorem brings_of_track {feed : FeedState} {bytes : ℕ} {payload : List UInt8} {verdict : Verdict}
    {hdr : MoldHeader} (hheader : headerOf payload = hdr)
    (htrack : (pipe.feed.countReceived bytes).track hdr = (feed, verdict))
    (hcarried : carried payload) (hlong : kMoldHeaderBytes ≤ payload.length)
    (hsent : event.bind UdpEvent.sent = none)
    (hbefore : pipe.network.bringing pipe.memory.slots = none)
    (hafter : next.network.bringing next.memory.slots =
      if verdict = .accepted then some (received payload) else none) :
    Brings carried pipe.feed.tracker pipe.feed.stats.packetsDropped (pipe.brought events)
      feed.tracker feed.stats.packetsDropped (next.brought (events ++ event.toList)) := by
  subst hheader
  obtain ⟨htracker, hverdict, hdropped⟩ := FeedState.tracker_of_track htrack
  have hbrought : pipe.brought events =
      (packetsOf (sentPackets events)).map BufferSlot.bytes := by
    unfold WeakPipeline.brought
    rw [hbefore]
    exact List.append_nil _
  rw [htracker, hdropped, WeakPipeline.brought_append, hsent, hbrought, hafter]
  split
  case isTrue haccepted => exact .accepted payload hcarried hlong (hverdict.trans haccepted)
  case isFalse hrefused =>
      refine (List.append_nil ((packetsOf (sentPackets events)).map BufferSlot.bytes)).symm ▸
        .refused _ ?_
      rw [hverdict]
      exact hrefused

theorem NetworkAccess.brings (hfollows : pipe.Follows) (hslots : numSlots < 2 ^ 32)
    (hkeeps : pipe.memory.Keeps bits numSlots (sentPackets events) free)
    (haccess : NetworkAccess carried pipe next event) :
    Brings carried pipe.feed.tracker pipe.feed.stats.packetsDropped (pipe.brought events)
      next.feed.tracker next.feed.stats.packetsDropped
      (next.brought (events ++ event.toList)) := by
  cases haccess with
  | acquire age spurious memory _ hpc hturn =>
      obtain ⟨hacquire, _, _, hsame⟩ := hkeeps.acquireTurn hturn
      cases hnetwork : pipe.network with
      | acquiring =>
          have hold : pipe.network.bringing pipe.memory.slots = none := by
            rw [hnetwork]
            rfl
          cases hacquire with
          | silent => exact brings_of_bringing rfl hold.symm
          | exhausted => exact brings_of_bringing rfl hold.symm
          | acquired => exact brings_of_bringing rfl hold.symm
      | claiming moldPkt tWire frames =>
          have hold : pipe.network.bringing pipe.memory.slots = some (received moldPkt) := by
            rw [hnetwork]
            rfl
          cases hacquire with
          | silent => exact brings_of_bringing rfl hold.symm
          | exhausted => exact .dropped (WeakPipeline.brought_of_none rfl rfl)
          | acquired => exact brings_of_bringing rfl hold.symm
      | _ =>
          rw [hnetwork] at hpc
          exact hpc.elim
  | short slotIdx payload memory _ hpc hshort hturn =>
      obtain ⟨_, _, _, _, _, rfl, _, _⟩ := hkeeps.fillTurn hslots hturn
      exact brings_of_bringing rfl (by rw [hpc]; rfl)
  | receive slotIdx payload tWire memory _ feed verdict hpc hlong hcarried htrack hturn =>
      obtain ⟨idx, hold, _, _, _, rfl, hfilled, _⟩ := hkeeps.fillTurn hslots hturn
      rw [hfollows.network.hand, hpc] at hold
      obtain rfl : slotIdx = idx := Option.some.inj hold
      have hheader : kMoldHeaderBytes ≤ payload.length := by
        refine (Nat.le_of_not_lt hlong).trans ?_
        unfold received
        exact List.length_take_le' _ _
      refine brings_of_track (headerOf_received hheader).symm htrack hcarried hheader rfl
        (by rw [hpc]; rfl) ?_
      cases verdict with
      | accepted =>
          change some (memory.slots slotIdx).bytes = some (received payload)
          rw [hfilled, BufferSlot.bytes_fill]
      | _ => rfl
  | copy slotIdx moldPkt tWire frames memory _ hpc hturn =>
      obtain ⟨idx, hold, _, _, _, rfl, hfilled, _⟩ := hkeeps.fillTurn hslots hturn
      rw [hfollows.network.hand, hpc] at hold
      obtain rfl : slotIdx = idx := Option.some.inj hold
      refine brings_of_bringing rfl ?_
      rw [hpc]
      change some (memory.slots slotIdx).bytes = some (received moldPkt)
      rw [hfilled, BufferSlot.bytes_fill]
  | push ref resume age memory _ hpc hturn =>
      obtain ⟨hpush, _, _, hsame⟩ :=
        hfollows.network.pushTurn hkeeps (by rw [hpc]; rfl) hturn
      have hslot : ref.slot = pipe.memory.hand .network :=
        hfollows.slot_of_sends hslots hkeeps (by rw [hpc]; rfl)
      rw [hfollows.network.hand, hpc] at hslot
      have hold : pipe.network.bringing pipe.memory.slots =
          some (pipe.memory.slots ref.poolIdx).bytes := by
        rw [hpc]
        rfl
      cases hpush with
      | silent =>
          refine brings_of_bringing rfl ?_
          rw [hold]
          change some (memory.slots ref.poolIdx).bytes = _
          rw [hsame]
      | pushed =>
          have hmoved : (packetsOf (sentPackets events)).map BufferSlot.bytes ++
              ((packetsOf [(ref, pipe.memory.slots ref.poolIdx)]).map BufferSlot.bytes ++
                (resume.pc.bringing memory.slots).toList) = pipe.brought events := by
            rw [packetsOf_singleton, if_neg (PacketRef.slot_eq_some_iff.mp hslot).1,
              resume.bringing_pc, WeakPipeline.brought, hold]
            rfl
          rw [WeakPipeline.brought_append]
          change Brings _ _ _ _ _ _ ((packetsOf (sentPackets events)).map BufferSlot.bytes ++ _)
          exact hmoved ▸ .quiet
      | refused => exact .dropped (WeakPipeline.brought_of_none rfl rfl)
  | sentinel tWire age memory _ hpc hturn =>
      obtain ⟨hpush, _, _, _⟩ := hfollows.network.pushTurn hkeeps (by rw [hpc]; rfl) hturn
      have hold : pipe.network.bringing pipe.memory.slots = none := by
        rw [hpc]
        rfl
      cases hpush with
      | silent => exact brings_of_bringing rfl hold.symm
      | pushed =>
          have hmoved : (packetsOf (sentPackets events)).map BufferSlot.bytes ++
              ((packetsOf [(⟨kPoolInvalid, tWire⟩, pipe.memory.slots kPoolInvalid)]).map
                BufferSlot.bytes ++ []) = pipe.brought events := by
            rw [packetsOf_singleton, if_pos rfl, WeakPipeline.brought, hold]
            rfl
          rw [WeakPipeline.brought_append]
          change Brings _ _ _ _ _ _ ((packetsOf (sentPackets events)).map BufferSlot.bytes ++ _)
          exact hmoved ▸ .quiet
      | refused => exact brings_of_bringing rfl hold.symm
  | release slotIdx after age spurious memory _ hpc hturn =>
      obtain ⟨idx, _, hrelease, _, _⟩ := hkeeps.releaseTurn hslots hturn
      have hold : pipe.network.bringing pipe.memory.slots = none := by
        rw [hpc]
        rfl
      cases hrelease with
      | silent => exact brings_of_bringing rfl hold.symm
      | released => exact brings_of_bringing rfl ((after.bringing_pc _).trans hold.symm)

theorem LocalStep.brings {network : NetworkPc} {feed : FeedState}
    (hlocal : LocalStep port carried pipe.stop pipe.network pipe.feed network feed)
    (hnetwork : next.network = network) :
    Brings carried pipe.feed.tracker pipe.feed.stats.packetsDropped (pipe.brought events)
      feed.tracker feed.stats.packetsDropped (next.brought (events ++ none.toList)) := by
  have hquiet : pipe.network.bringing pipe.memory.slots = none →
      next.network.bringing next.memory.slots = none →
      Brings carried pipe.feed.tracker pipe.feed.stats.packetsDropped (pipe.brought events)
        pipe.feed.tracker pipe.feed.stats.packetsDropped (next.brought (events ++ none.toList)) :=
    fun hold hnew => brings_of_bringing rfl (hnew.trans hold.symm)
  generalize hpc : pipe.network = pc at hlocal
  generalize hfeed : pipe.feed = before at hlocal
  cases hlocal with
  | loop useXdp =>
      exact hfeed ▸ hquiet (by rw [hpc]; rfl) (by rw [hnetwork]; cases useXdp <;> rfl)
  | drain recv =>
      have hsame := hquiet (by rw [hpc]; rfl) (by rw [hnetwork]; rfl)
      subst hfeed
      cases recv with
      | failed => exact hsame
      | datagram payload =>
          dsimp only [FeedState.drain]
          split
          · exact hsame
          · exact .dropped (WeakPipeline.brought_of_none rfl (by rw [hnetwork]; rfl))
  | scan tWire frame frames moldPkt _ _ verdict hsome hcarried htrack =>
      subst hfeed
      refine brings_of_track rfl htrack hcarried (le_length_of_moldPacket hsome) rfl
        (by rw [hpc]; rfl) ?_
      rw [hnetwork]
      cases verdict <;> rfl
  | _ => exact hfeed ▸ hquiet (by rw [hpc]; rfl) (by rw [hnetwork]; rfl)

/-- The matching thread pushes nothing. -/
theorem MatchingAccess.sent_eq_none (hslots : numSlots < 2 ^ 32)
    (hkeeps : pipe.memory.Keeps bits numSlots (sentPackets events) free)
    (haccess : MatchingAccess pipe next event) : event.bind UdpEvent.sent = none := by
  cases haccess with
  | pop spinBudget age memory _ hpc hturn =>
      obtain ⟨hpop, _, _⟩ := hkeeps.popTurn hturn
      cases hpop <;> rfl
  | walk ref memory _ hpc hturn =>
      obtain ⟨_, _, rfl, _⟩ := UdpMemory.readTurn hturn
      rfl
  | release slotIdx age spurious memory _ hpc hturn =>
      obtain ⟨_, _, hrelease, _⟩ := hkeeps.releaseTurn hslots hturn
      cases hrelease <;> rfl

/-- What every step does to what was brought. -/
theorem WeakStep.brings (hfollows : pipe.Follows) (hslots : numSlots < 2 ^ 32)
    (hkeeps : pipe.memory.Keeps bits numSlots (sentPackets events) free)
    (hstep : WeakStep port carried pipe next event) :
    Brings carried pipe.feed.tracker pipe.feed.stats.packetsDropped (pipe.brought events)
      next.feed.tracker next.feed.stats.packetsDropped
      (next.brought (events ++ event.toList)) := by
  have hquiet : next.network = pipe.network → next.feed = pipe.feed →
      next.memory.slots = pipe.memory.slots → event.bind UdpEvent.sent = none →
        Brings carried pipe.feed.tracker pipe.feed.stats.packetsDropped (pipe.brought events)
          next.feed.tracker next.feed.stats.packetsDropped
          (next.brought (events ++ event.toList)) := by
    intro hnetwork hfeed hsame hsent
    rw [hfeed]
    refine brings_of_bringing hsent ?_
    rw [hnetwork, hsame]
  cases hstep with
  | network haccess => exact haccess.brings hfollows hslots hkeeps
  | matching haccess =>
      obtain ⟨_, hleaves⟩ := hfollows.matching_access hslots hkeeps haccess
      have hrest : next.network = pipe.network ∧ next.feed = pipe.feed := by
        cases haccess <;> exact ⟨rfl, rfl⟩
      exact hquiet hrest.1 hrest.2 hleaves.slots (haccess.sent_eq_none hslots hkeeps)
  | alone network feed hlocal => exact hlocal.brings rfl
  | _ => exact hquiet rfl rfl rfl rfl

/-- The packet at hand. -/
def MatchingPc.packets (slots : UInt32 → BufferSlot) : MatchingPc → List BufferSlot
  | walking ref => [slots ref.poolIdx]
  | _ => []

/-- The packet that is being walked. -/
def WeakPipeline.walking (pipe : WeakPipeline) : List BufferSlot :=
  pipe.matching.packets pipe.memory.slots

/-- The packets of the references that were popped were walked, up to the one at hand. -/
def WeakPipeline.Walks (pipe : WeakPipeline) (events : List UdpEvent) : Prop :=
  walkedPackets events ++ pipe.walking =
    packetsOf ((sentPackets events).take (takenRefs events).length)

/-- A step that takes nothing from the ring. -/
theorem WeakPipeline.Walks.keep (hwalks : pipe.Walks events)
    (hle : (takenRefs events).length ≤ (sentPackets events).length)
    (htaken : event.bind UdpEvent.taken = none)
    (hwalked : (event.bind UdpEvent.walked).toList ++ next.walking = pipe.walking) :
    next.Walks (events ++ event.toList) := by
  unfold WeakPipeline.Walks
  rw [walkedPackets_append, takenRefs_append, sentPackets_append, htaken, List.append_assoc,
    hwalked, Option.toList_none, List.append_nil, List.take_append_of_le_length hle]
  exact hwalks

/-- A reference is popped. -/
theorem WeakPipeline.Walks.popped (hwalks : pipe.Walks events) (hnone : pipe.walking = [])
    {ref : PacketRef} {packet : BufferSlot}
    (hfirst : (sentPackets events)[(takenRefs events).length]? = some (ref, packet))
    (hnext : next.walking = if ref.poolIdx = kPoolInvalid then [] else [packet]) :
    next.Walks (events ++ [.popped ref]) := by
  have hsent : sentPackets (events ++ [.popped ref]) = sentPackets events := by
    rw [show [UdpEvent.popped ref] = (some (UdpEvent.popped ref)).toList from rfl,
      sentPackets_append]
    exact List.append_nil _
  have htaken : takenRefs (events ++ [.popped ref]) = takenRefs events ++ [ref] :=
    takenRefs_append events (some (.popped ref))
  have hwalked : walkedPackets (events ++ [.popped ref]) = walkedPackets events := by
    rw [show [UdpEvent.popped ref] = (some (UdpEvent.popped ref)).toList from rfl,
      walkedPackets_append]
    exact List.append_nil _
  unfold WeakPipeline.Walks at hwalks ⊢
  rw [hnone, List.append_nil] at hwalks
  rw [hsent, htaken, hwalked, hwalks, hnext, List.length_append, List.length_singleton,
    List.take_add_one, hfirst, packetsOf_append]
  exact congrArg _ (packetsOf_singleton ref packet).symm

/-- A packet that the network thread does not touch is still the one that is walked. -/
theorem WeakPipeline.walking_of_leaves (hfollows : pipe.Follows)
    (hleaves : pipe.memory.LeavesMatching next.memory) (hmatching : next.matching = pipe.matching) :
    next.walking = pipe.walking := by
  unfold WeakPipeline.walking
  rw [hmatching]
  cases hpc : pipe.matching with
  | walking ref =>
      have hhand := hfollows.matching.hand
      rw [hpc] at hhand
      exact congrArg (fun packet => [packet]) (hleaves.slot ref.poolIdx hhand)
  | _ => rfl

theorem NetworkAccess.taken_walked (hslots : numSlots < 2 ^ 32) (hfollows : pipe.Follows)
    (hkeeps : pipe.memory.Keeps bits numSlots (sentPackets events) free)
    (haccess : NetworkAccess carried pipe next event) :
    event.bind UdpEvent.taken = none ∧ event.bind UdpEvent.walked = none ∧
      event ≠ some .empty := by
  cases haccess with
  | acquire age spurious memory _ hpc hturn =>
      cases (hkeeps.acquireTurn hturn).1 <;> exact ⟨rfl, rfl, nofun⟩
  | short slotIdx payload memory _ hpc hshort hturn =>
      obtain ⟨_, _, _, _, _, rfl, _⟩ := hkeeps.fillTurn hslots hturn
      exact ⟨rfl, rfl, nofun⟩
  | receive slotIdx payload tWire memory _ feed verdict hpc hlong hcarried htrack hturn =>
      obtain ⟨_, _, _, _, _, rfl, _⟩ := hkeeps.fillTurn hslots hturn
      exact ⟨rfl, rfl, nofun⟩
  | copy slotIdx moldPkt tWire frames memory _ hpc hturn =>
      obtain ⟨_, _, _, _, _, rfl, _⟩ := hkeeps.fillTurn hslots hturn
      exact ⟨rfl, rfl, nofun⟩
  | push ref resume age memory _ hpc hturn =>
      have hpushes := (hfollows.network.pushTurn hkeeps (by rw [hpc]; rfl) hturn).1
      cases hpushes <;> exact ⟨rfl, rfl, nofun⟩
  | sentinel tWire age memory _ hpc hturn =>
      have hpushes := (hfollows.network.pushTurn hkeeps (by rw [hpc]; rfl) hturn).1
      cases hpushes <;> exact ⟨rfl, rfl, nofun⟩
  | release slotIdx after age spurious memory _ hpc hturn =>
      obtain ⟨_, _, hrelease, _⟩ := hkeeps.releaseTurn hslots hturn
      cases hrelease <;> exact ⟨rfl, rfl, nofun⟩

theorem WeakStep.walks (hfollows : pipe.Follows) (hslots : numSlots < 2 ^ 32)
    (hkeeps : pipe.memory.Keeps bits numSlots (sentPackets events) free)
    (hkept : UdpReached.Kept bits numSlots pipe.memory events)
    (hnext : UdpReached.Kept bits numSlots next.memory (events ++ event.toList))
    (hwalks : pipe.Walks events) (hstep : WeakStep port carried pipe next event) :
    next.Walks (events ++ event.toList) := by
  have hcount : (takenRefs events).length = pipe.memory.clocks.last .head := by
    rw [hkept.taken, List.length_take, List.length_map, Nat.min_eq_left hkeeps.head_le_length]
  have hle : (takenRefs events).length ≤ (sentPackets events).length := by
    rw [hcount]
    exact hkeeps.head_le_length
  have hquiet : ∀ {pc pc' : MatchingPc}, pipe.matching = pc → next.matching = pc' →
      pc.packets pipe.memory.slots = [] → pc'.packets next.memory.slots = [] →
        event.bind UdpEvent.taken = none → event.bind UdpEvent.walked = none →
          next.Walks (events ++ event.toList) := by
    rintro _ _ rfl rfl hnone hnone' htaken hwalked
    refine hwalks.keep hle htaken ?_
    rw [hwalked]
    exact hnone'.trans hnone.symm
  cases hstep with
  | network haccess =>
      obtain ⟨htaken, hwalked, _⟩ := haccess.taken_walked hslots hfollows hkeeps
      obtain ⟨_, hleaves⟩ := hfollows.network_access hslots hkeeps haccess
      have hsame : next.matching = pipe.matching := by cases haccess <;> rfl
      refine hwalks.keep hle htaken ?_
      rw [hwalked, WeakPipeline.walking_of_leaves hfollows hleaves hsame]
      rfl
  | matching haccess =>
      cases haccess with
      | pop spinBudget age memory _ hpc hturn =>
          obtain ⟨hpop, _, hleaves⟩ := hkeeps.popTurn hturn
          have hnone : pipe.walking = [] := by
            rw [WeakPipeline.walking, hpc]
            rfl
          cases hpop with
          | silent => exact hquiet hpc rfl rfl rfl rfl rfl
          | empty =>
              refine hquiet hpc rfl rfl ?_ rfl rfl
              dsimp only [afterPop]
              split <;> rfl
          | popped ref =>
              have hfront : takenRefs events ++ [ref] <+: (sentPackets events).map Prod.fst := by
                have htaken := hnext.taken
                rw [takenRefs_append, sentPackets_append] at htaken
                change takenRefs events ++ [ref] =
                  ((sentPackets events ++ []).map Prod.fst).take _ at htaken
                rw [htaken, List.append_nil]
                exact List.take_prefix _ _
              have hmap : ((sentPackets events).map Prod.fst)[(takenRefs events).length]? =
                  some ref := by
                obtain ⟨rest, hrest⟩ := hfront
                rw [← hrest, List.append_assoc, List.getElem?_append_right (Nat.le_refl _),
                  Nat.sub_self]
                rfl
              rw [List.getElem?_map] at hmap
              obtain ⟨⟨other, packet⟩, hfirst, hsame⟩ := Option.map_eq_some_iff.mp hmap
              obtain rfl : other = ref := hsame
              refine hwalks.popped hnone hfirst ?_
              unfold WeakPipeline.walking
              dsimp only [afterPop]
              by_cases hinvalid : other.poolIdx = kPoolInvalid
              · rw [if_pos hinvalid, if_pos hinvalid]
                rfl
              · rw [if_neg hinvalid, if_neg hinvalid]
                rw [hcount] at hfirst
                have hpacket := (hkeeps.held _ other packet (Nat.le_refl _) hfirst hinvalid).2
                rw [← hpacket, ← hleaves.slots]
                rfl
      | walk ref memory _ hpc hturn =>
          obtain ⟨idx, hhand, rfl, _⟩ := UdpMemory.readTurn hturn
          rw [hfollows.matching.hand, hpc] at hhand
          obtain rfl : ref.poolIdx = idx := Option.some.inj hhand
          refine hwalks.keep hle rfl ?_
          unfold WeakPipeline.walking
          rw [hpc]
          rfl
      | release slotIdx age spurious memory _ hpc hturn =>
          obtain ⟨_, _, hrelease, _⟩ := hkeeps.releaseTurn hslots hturn
          cases hrelease with
          | silent => exact hquiet hpc rfl rfl rfl rfl rfl
          | released => exact hquiet hpc rfl rfl rfl rfl rfl
  | alone network feed hlocal => exact hwalks.keep hle rfl rfl
  | goOn hpc => exact hquiet hpc rfl rfl rfl rfl rfl
  | giveUp hpc hstop => exact hquiet hpc rfl rfl rfl rfl rfl
  | stop hpc => exact hquiet hpc rfl rfl rfl rfl rfl
  | join hpc hfinished => exact hquiet hpc rfl rfl rfl rfl rfl

end Steps

/-! ## Runs -/

theorem WeakReached.brought_walks {port : UInt16} {carried : List UInt8 → Prop}
    {bits numSlots : ℕ} {pipe : WeakPipeline} {events : List UdpEvent} (hsome : 0 < numSlots)
    (hslots : numSlots < 2 ^ 32)
    (hreached : WeakReached port carried numSlots (2 ^ bits) pipe events) :
    Brought carried pipe.feed.tracker pipe.feed.stats.packetsDropped (pipe.brought events) ∧
      pipe.Walks events := by
  induction hreached with
  | start =>
      exact ⟨⟨fun _ hbytes => (nomatch hbytes),
        fun _ => ⟨List.Pairwise.nil, fun _ hheader => (nomatch hheader)⟩,
        fun _ _ _ => ⟨.nil, fun _ hlast => (nomatch hlast)⟩⟩, rfl⟩
  | step earlier here ih =>
      obtain ⟨hbrought, hwalks⟩ := ih
      obtain ⟨hmemory, hfollows⟩ := earlier.reached hsome hslots
      have hkept := hmemory.kept hsome hslots
      obtain ⟨free, hkeeps⟩ := hkept.keeps
      have hnext := ((earlier.step here).reached hsome hslots).1.kept hsome hslots
      exact ⟨hbrought.step (here.brings hfollows hslots hkeeps),
        here.walks hfollows hslots hkeeps hkept hnext hwalks⟩

/-- What the matching thread has walked: packets that were pushed, in order, with the bytes
of packets of the feed, and no message twice. -/
structure DeliveredOnce (carried : List UInt8 → Prop) (events : List UdpEvent) : Prop where
  order : walkedPackets events <+: packetsOf (sentPackets events)
  fromFeed : ∀ packet ∈ walkedPackets events, FromFeed carried packet.bytes
  once : ((walkedPackets events).map fun packet => headerOf packet.bytes).Pairwise
    fun header later =>
      Disjoint header.range later.range ∧ header.sequenceNumber < later.sequenceNumber

/-- In every run of `runUdp` on a feed that keeps to its range of sequence numbers, whatever is
lost, repeated or out of order, whatever the loads read and however the threads interleave: the
matching thread walks the packets that were pushed in their order, unchanged, and no sequence
number twice. -/
theorem weakPipeline_deliveredOnce {port : UInt16} {carried : List UInt8 → Prop}
    {numSlots capacity : ℕ} {ring : SpscRing PacketRef} (hsome : 0 < numSlots)
    (hslots : numSlots < 2 ^ 32) (hcreate : SpscRing.create capacity = some ring)
    (hrange : ∀ payload, carried payload → (headerOf payload).InRange)
    {pipe : WeakPipeline} {events : List UdpEvent}
    (hreached : WeakReached port carried numSlots capacity pipe events) :
    DeliveredOnce carried events := by
  obtain ⟨⟨bits, rfl⟩, _⟩ := SpscRing.create_eq_some_iff.mp hcreate
  obtain ⟨hbrought, hwalks⟩ := hreached.brought_walks hsome hslots
  have horder : walkedPackets events <+: packetsOf (sentPackets events) := by
    have hfront : packetsOf ((sentPackets events).take (takenRefs events).length) <+:
        packetsOf (sentPackets events) := (List.take_prefix _ _).filterMap _
    rw [← hwalks] at hfront
    exact (List.prefix_append _ _).trans hfront
  have hsub : ((walkedPackets events).map BufferSlot.bytes).Sublist (pipe.brought events) :=
    (horder.sublist.map _).trans (List.sublist_append_left _ _)
  refine ⟨horder, fun packet hpacket => ?_, ?_⟩
  · exact hbrought.fromFeed _ (hsub.subset (List.mem_map_of_mem hpacket))
  · have hnumbered := (hbrought.numbered hrange).sublist (hsub.map headerOf)
    rw [List.map_map] at hnumbered
    exact hnumbered.disjoint

/-- Two packets are received and pushed, and the matching thread pops and walks both. -/
def twoPacketMoves : List SocketMove :=
  [.setUp] ++ pushMoves (onePacket 1) 5 ++ pushMoves (onePacket 2) 6 ++
    List.replicate 13 (.matching 0)

theorem weakPipeline_deliveredOnce_twoPackets : ∃ events : List UdpEvent,
    ((walkedPackets events).map fun packet => (headerOf packet.bytes).sequenceNumber) = [1, 2] ∧
      DeliveredOnce (fun payload => payload = onePacket 1 ∨ payload = onePacket 2) events := by
  have hrun : (((WeakPipeline.initial 3 4).run [] twoPacketMoves).map
      fun result => (walkedPackets result.2).map fun packet =>
        (headerOf packet.bytes).sequenceNumber) = some [1, 2] := by
    decide +kernel
  obtain ⟨⟨pipe, events⟩, hlast, hwalked⟩ := Option.map_eq_some_iff.mp hrun
  have hreached : WeakReached 0 (fun payload => payload = onePacket 1 ∨ payload = onePacket 2) 3 4
      pipe events :=
    WeakReached.start.run (fun _ hpayload => List.mem_pair.mp hpayload) hlast
  refine ⟨events, hwalked, weakPipeline_deliveredOnce (by decide) (by decide)
    (SpscRing.create_eq_some_iff.mpr ⟨⟨2, rfl⟩, rfl⟩) ?_ hreached⟩
  rintro _ (rfl | rfl) <;> (unfold MoldHeader.InRange; decide)

/-! ## The end of the session -/

/-- The sentinel is pushed last. -/
def SealedLast (pipe : WeakPipeline) (sent : List (PacketRef × BufferSlot)) : Prop :=
  ∀ m ref packet, sent[m]? = some (ref, packet) → ref.poolIdx = kPoolInvalid →
    m + 1 = sent.length ∧ pipe.network = .finished

section Sealed

variable {port : UInt16} {carried : List UInt8 → Prop} {bits numSlots : ℕ}
  {pipe next : WeakPipeline} {event : Option UdpEvent} {events : List UdpEvent}
  {free : List UInt32}

/-- A thread that has returned stays where it is. -/
theorem WeakStep.finished (hstep : WeakStep port carried pipe next event)
    (hfinished : pipe.network = .finished) : next.network = .finished := by
  cases hstep with
  | network haccess =>
      exfalso
      cases haccess with
      | acquire age spurious memory _ hpc hturn =>
          rw [hfinished] at hpc
          exact hpc
      | _ => simp_all
  | matching haccess => cases haccess <;> exact hfinished
  | alone network feed hlocal =>
      rw [hfinished] at hlocal
      cases hlocal
  | _ => exact hfinished

/-- A reference is pushed from in front of its push, and behind the sentinel the network thread
has returned. -/
theorem WeakStep.sent_cases (hfollows : pipe.Follows) (hslots : numSlots < 2 ^ 32)
    (hkeeps : pipe.memory.Keeps bits numSlots (sentPackets events) free)
    (hstep : WeakStep port carried pipe next event) :
    event.bind UdpEvent.sent = none ∨ ∃ ref packet, event.bind UdpEvent.sent = some (ref, packet) ∧
      pipe.network ≠ .finished ∧ (ref.poolIdx = kPoolInvalid → next.network = .finished) := by
  cases hstep with
  | network haccess =>
      cases haccess with
      | acquire age spurious memory _ hpc hturn =>
          cases (hkeeps.acquireTurn hturn).1 <;> exact .inl rfl
      | short slotIdx payload memory _ hpc hshort hturn =>
          obtain ⟨_, _, _, _, _, rfl, _⟩ := hkeeps.fillTurn hslots hturn
          exact .inl rfl
      | receive slotIdx payload tWire memory _ feed verdict hpc hlong hcarried htrack hturn =>
          obtain ⟨_, _, _, _, _, rfl, _⟩ := hkeeps.fillTurn hslots hturn
          exact .inl rfl
      | copy slotIdx moldPkt tWire frames memory _ hpc hturn =>
          obtain ⟨_, _, _, _, _, rfl, _⟩ := hkeeps.fillTurn hslots hturn
          exact .inl rfl
      | push ref resume age memory _ hpc hturn =>
          have hslot : ref.slot = pipe.memory.hand .network :=
            hfollows.slot_of_sends hslots hkeeps (by rw [hpc]; rfl)
          rw [hfollows.network.hand, hpc] at hslot
          cases (hfollows.network.pushTurn hkeeps (by rw [hpc]; rfl) hturn).1 with
          | silent => exact .inl rfl
          | pushed =>
              refine .inr ⟨_, _, rfl, ?_, fun hinvalid => ?_⟩
              · rw [hpc]
                exact NetworkPc.noConfusion
              · exact ((PacketRef.slot_eq_some_iff.mp hslot).1 hinvalid).elim
          | refused => exact .inl rfl
      | sentinel tWire age memory _ hpc hturn =>
          cases (hfollows.network.pushTurn hkeeps (by rw [hpc]; rfl) hturn).1 with
          | silent => exact .inl rfl
          | pushed =>
              refine .inr ⟨_, _, rfl, ?_, fun _ => rfl⟩
              rw [hpc]
              exact NetworkPc.noConfusion
          | refused => exact .inl rfl
      | release slotIdx after age spurious memory _ hpc hturn =>
          obtain ⟨_, _, hrelease, _⟩ := hkeeps.releaseTurn hslots hturn
          cases hrelease <;> exact .inl rfl
  | matching haccess => exact .inl (haccess.sent_eq_none hslots hkeeps)
  | _ => exact .inl rfl

/-- With the sentinel the matching thread leaves its loop, and it does not come back. -/
theorem WeakStep.ended (hslots : numSlots < 2 ^ 32) (hfollows : pipe.Follows)
    (hkeeps : pipe.memory.Keeps bits numSlots (sentPackets events) free)
    (hstep : WeakStep port carried pipe next event) :
    (pipe.matching.Left → next.matching.Left) ∧
      ∀ ref, event.bind UdpEvent.taken = some ref → ref.poolIdx = kPoolInvalid →
        next.matching.Left := by
  cases hstep with
  | network haccess =>
      have hsame : next.matching = pipe.matching := by cases haccess <;> rfl
      rw [hsame, (haccess.taken_walked hslots hfollows hkeeps).1]
      exact ⟨id, nofun⟩
  | matching haccess =>
      cases haccess with
      | pop spinBudget age memory _ hpc hturn =>
          rw [hpc]
          refine ⟨False.elim, fun ref htaken hinvalid => ?_⟩
          cases (hkeeps.popTurn hturn).1 with
          | silent => cases htaken
          | empty => cases htaken
          | popped other =>
              cases htaken
              dsimp only [afterPop]
              rw [if_pos hinvalid]
              trivial
      | walk ref memory _ hpc hturn =>
          obtain ⟨_, _, rfl, _⟩ := UdpMemory.readTurn hturn
          rw [hpc]
          exact ⟨False.elim, nofun⟩
      | release slotIdx age spurious memory _ hpc hturn =>
          obtain ⟨_, _, hrelease, _⟩ := hkeeps.releaseTurn hslots hturn
          rw [hpc]
          exact ⟨False.elim, by cases hrelease <;> nofun⟩
  | alone network feed hlocal => exact ⟨id, nofun⟩
  | goOn hpc =>
      rw [hpc]
      exact ⟨False.elim, nofun⟩
  | giveUp hpc hstop => exact ⟨fun _ => trivial, nofun⟩
  | stop hpc => exact ⟨fun _ => trivial, nofun⟩
  | join hpc hfinished => exact ⟨fun _ => trivial, nofun⟩

theorem SealedLast.step (hfollows : pipe.Follows) (hslots : numSlots < 2 ^ 32)
    (hkeeps : pipe.memory.Keeps bits numSlots (sentPackets events) free)
    (hlast : SealedLast pipe (sentPackets events))
    (hstep : WeakStep port carried pipe next event) :
    SealedLast next (sentPackets (events ++ event.toList)) := by
  intro m ref packet hsent hinvalid
  rw [sentPackets_append] at hsent ⊢
  rcases hstep.sent_cases hfollows hslots hkeeps with hnone | ⟨other, more, hsome, hbusy, hseals⟩
  · rw [hnone, Option.toList_none, List.append_nil] at hsent ⊢
    obtain ⟨hm, hfinished⟩ := hlast m ref packet hsent hinvalid
    exact ⟨hm, hstep.finished hfinished⟩
  · rw [hsome, Option.toList_some] at hsent ⊢
    rcases Nat.lt_or_ge m (sentPackets events).length with hold | hnew
    · rw [List.getElem?_append_left hold] at hsent
      exact (hbusy (hlast m ref packet hsent hinvalid).2).elim
    · rw [List.getElem?_append_right hnew, List.getElem?_singleton] at hsent
      split at hsent
      case isTrue hzero =>
          cases hsent
          exact ⟨by rw [List.length_append, List.length_singleton]; omega, hseals hinvalid⟩
      case isFalse => cases hsent

end Sealed

theorem WeakReached.sealedLast {port : UInt16} {carried : List UInt8 → Prop}
    {bits numSlots : ℕ} {pipe : WeakPipeline} {events : List UdpEvent} (hsome : 0 < numSlots)
    (hslots : numSlots < 2 ^ 32)
    (hreached : WeakReached port carried numSlots (2 ^ bits) pipe events) :
    SealedLast pipe (sentPackets events) := by
  induction hreached with
  | start => exact fun _ _ _ hsent => (nomatch hsent)
  | step earlier here ih =>
      obtain ⟨hmemory, hfollows⟩ := earlier.reached hsome hslots
      obtain ⟨free, hkeeps⟩ := (hmemory.kept hsome hslots).keeps
      exact ih.step hfollows hslots hkeeps here

theorem WeakReached.ended {port : UInt16} {carried : List UInt8 → Prop}
    {bits numSlots : ℕ} {pipe : WeakPipeline} {events : List UdpEvent} (hsome : 0 < numSlots)
    (hslots : numSlots < 2 ^ 32)
    (hreached : WeakReached port carried numSlots (2 ^ bits) pipe events) :
    ∀ ref ∈ takenRefs events, ref.poolIdx = kPoolInvalid → pipe.matching.Left := by
  induction hreached with
  | start => exact fun _ hnone => (nomatch hnone)
  | @step pipe next events event earlier here ih =>
      obtain ⟨hmemory, hfollows⟩ := earlier.reached hsome hslots
      obtain ⟨free, hkeeps⟩ := (hmemory.kept hsome hslots).keeps
      obtain ⟨hstays, hleaves⟩ := here.ended hslots hfollows hkeeps
      intro ref hpopped hinvalid
      rw [takenRefs_append] at hpopped
      rcases List.mem_append.mp hpopped with hold | hnew
      · exact hstays (ih ref hold hinvalid)
      · exact hleaves ref (Option.mem_toList.mp hnew) hinvalid

/-- What was pushed before the sentinel stands for slots. -/
theorem SealedLast.split {pipe : WeakPipeline} {sent : List (PacketRef × BufferSlot)}
    (hsealed : SealedLast pipe sent) {ref : PacketRef} (hmem : ref ∈ sent.map Prod.fst)
    (hinvalid : ref.poolIdx = kPoolInvalid) :
    ∃ before packet, sent = before ++ [(ref, packet)] ∧
      (∀ entry ∈ before, entry.1.poolIdx ≠ kPoolInvalid) ∧ pipe.network = .finished := by
  obtain ⟨⟨other, packet⟩, hentry, rfl⟩ := List.mem_map.mp hmem
  obtain ⟨before, last, rfl⟩ :=
    (List.eq_nil_or_concat' sent).resolve_left (List.ne_nil_of_mem hentry)
  have hvalid : ∀ entry ∈ before, entry.1.poolIdx ≠ kPoolInvalid := by
    intro entry hbefore hsame
    obtain ⟨m, hm⟩ := List.mem_iff_getElem?.mp hbefore
    have hless := (List.getElem?_eq_some_iff.mp hm).1
    have hlast := (hsealed m entry.1 entry.2 (by
      rw [List.getElem?_append_left hless]
      exact hm) hsame).1
    rw [List.length_append, List.length_singleton] at hlast
    omega
  rcases List.mem_append.mp hentry with hbefore | hhere
  · exact absurd hinvalid (hvalid _ hbefore)
  · obtain rfl : (other, packet) = last := List.mem_singleton.mp hhere
    obtain ⟨m, hm⟩ := List.mem_iff_getElem?.mp hentry
    exact ⟨before, packet, rfl, hvalid, (hsealed m other packet hm hinvalid).2⟩

/-- How a run stands when the sentinel was popped. -/
theorem WeakReached.drained {port : UInt16} {carried : List UInt8 → Prop} {bits numSlots : ℕ}
    {pipe : WeakPipeline} {events : List UdpEvent} (hsome : 0 < numSlots)
    (hslots : numSlots < 2 ^ 32)
    (hreached : WeakReached port carried numSlots (2 ^ bits) pipe events)
    {ref : PacketRef} (hpopped : ref ∈ takenRefs events) (hinvalid : ref.poolIdx = kPoolInvalid) :
    ∃ before packet, sentPackets events = before ++ [(ref, packet)] ∧
      (∀ entry ∈ before, entry.1.poolIdx ≠ kPoolInvalid) ∧ pipe.network = .finished ∧
      takenRefs events = before.map Prod.fst ++ [ref] ∧
      walkedPackets events = before.map Prod.snd := by
  have hkept := (hreached.reached hsome hslots).1.kept hsome hslots
  have hfront : takenRefs events <+: (sentPackets events).map Prod.fst := by
    rw [hkept.taken]
    exact List.take_prefix _ _
  obtain ⟨before, packet, hsent, hvalid, hfinished⟩ :=
    (hreached.sealedLast hsome hslots).split (hfront.subset hpopped) hinvalid
  refine ⟨before, packet, hsent, hvalid, hfinished, ?_⟩
  have htaken : takenRefs events = before.map Prod.fst ++ [ref] := by
    rw [hsent, List.map_append, List.map_singleton] at hfront
    refine (List.prefix_concat_iff.mp hfront).resolve_right fun hless => ?_
    obtain ⟨entry, hentry, rfl⟩ := List.mem_map.mp (hless.subset hpopped)
    exact hvalid entry hentry hinvalid
  refine ⟨htaken, ?_⟩
  have hended := hreached.ended hsome hslots ref hpopped hinvalid
  have hnone : pipe.walking = [] := by
    unfold WeakPipeline.walking
    cases hpc : pipe.matching with
    | walking ref =>
        rw [hpc] at hended
        exact hended.elim
    | _ => rfl
  have hwalks := (hreached.brought_walks hsome hslots).2
  unfold WeakPipeline.Walks at hwalks
  have hle : (sentPackets events).length ≤ (takenRefs events).length := by
    rw [htaken, hsent, List.length_append, List.length_append, List.length_map]
    exact Nat.le_refl _
  rw [hnone, List.append_nil, List.take_of_length_le hle, hsent, packetsOf_append,
    packetsOf_of_valid hvalid, packetsOf_singleton, if_pos hinvalid, List.append_nil] at hwalks
  exact hwalks

/-- When the matching thread has popped the sentinel, it was pushed once and last, the network
thread has returned, and every packet that was ever pushed was walked: nothing is left behind in
the ring. -/
theorem weakPipeline_drained {port : UInt16} {carried : List UInt8 → Prop}
    {numSlots capacity : ℕ} {ring : SpscRing PacketRef} (hsome : 0 < numSlots)
    (hslots : numSlots < 2 ^ 32) (hcreate : SpscRing.create capacity = some ring)
    {pipe : WeakPipeline} {events : List UdpEvent}
    (hreached : WeakReached port carried numSlots capacity pipe events)
    {ref : PacketRef} (hpopped : ref ∈ takenRefs events) (hinvalid : ref.poolIdx = kPoolInvalid) :
    (∃ before packet, sentPackets events = before ++ [(ref, packet)] ∧
      ∀ entry ∈ before, entry.1.poolIdx ≠ kPoolInvalid) ∧
      pipe.network = .finished ∧
      takenRefs events = (sentPackets events).map Prod.fst ∧
      walkedPackets events = packetsOf (sentPackets events) := by
  obtain ⟨⟨bits, rfl⟩, _⟩ := SpscRing.create_eq_some_iff.mp hcreate
  obtain ⟨before, packet, hsent, hvalid, hfinished, htaken, hwalked⟩ :=
    hreached.drained hsome hslots hpopped hinvalid
  refine ⟨⟨before, packet, hsent, hvalid⟩, hfinished, ?_, ?_⟩
  · rw [htaken, hsent, List.map_append]
    rfl
  · rw [hwalked, hsent, packetsOf_append, packetsOf_of_valid hvalid, packetsOf_singleton,
      if_pos hinvalid, List.append_nil]

/-- The end of a session with two messages. -/
def endPacket : List UInt8 :=
  [0, 0, 0, 0, 0, 0, 0, 0, 0, 0, 0, 0, 0, 0, 0, 0, 0, 3, 0xFF, 0xFF]

/-- Packets arrive on the socket, then the end of the session, and only then does the matching
thread begin to pop. A packet that is accepted is pushed, any other gives its slot back. -/
def sessionMoves (arriving : List (List UInt8 × Bool)) (last : List UInt8) : List SocketMove :=
  [.setUp] ++
    arriving.flatMap (fun (payload, accepted) => receiveMoves payload 5 ++
      List.replicate (if accepted then 4 else 3) (.network 0)) ++
    receiveMoves last 6 ++ List.replicate 7 (.network 0) ++
    List.replicate (8 * (arriving.filter Prod.snd).length + 4) (.matching 0)

theorem payloads_sessionMoves (arriving : List (List UInt8 × Bool)) (last : List UInt8) :
    (sessionMoves arriving last).filterMap SocketMove.payload? =
      arriving.map Prod.fst ++ [last] := by
  have hreplicate : ∀ {count : ℕ} {move : SocketMove}, move.payload? = none →
      (List.replicate count move).filterMap SocketMove.payload? = [] :=
    fun hnone => List.filterMap_replicate_of_none hnone
  have hreceive : ∀ payload tWire, (receiveMoves payload tWire).filterMap SocketMove.payload? =
      [payload] := fun _ _ => rfl
  have hpackets : (arriving.flatMap fun (payload, accepted) => receiveMoves payload 5 ++
      List.replicate (if accepted then 4 else 3) (.network 0)).filterMap SocketMove.payload? =
        arriving.map Prod.fst := by
    induction arriving with
    | nil => rfl
    | cons entry arriving ih =>
        rw [List.flatMap_cons, List.filterMap_append, ih, List.filterMap_append, hreceive,
          hreplicate rfl]
        rfl
  rw [sessionMoves, List.filterMap_append, List.filterMap_append, List.filterMap_append,
    List.filterMap_append, hpackets, hreceive, hreplicate rfl, hreplicate rfl, List.append_nil,
    List.append_nil]
  rfl

theorem age_of_mem_sessionMoves {arriving : List (List UInt8 × Bool)} {last : List UInt8} :
    ∀ move ∈ sessionMoves arriving last, move.age = 0 := by
  have hreplicate : ∀ {count : ℕ} {move : SocketMove}, move.age = 0 →
      ∀ other ∈ List.replicate count move, other.age = 0 :=
    fun hage other hother => List.eq_of_mem_replicate hother ▸ hage
  have hreceive : ∀ payload tWire, ∀ move ∈ receiveMoves payload tWire, move.age = 0 := by
    intro payload tWire
    exact List.forall_mem_append.mpr ⟨hreplicate rfl, List.forall_mem_singleton.mpr rfl⟩
  unfold sessionMoves
  simp only [List.forall_mem_append]
  refine ⟨⟨⟨⟨List.forall_mem_singleton.mpr rfl, ?_⟩, hreceive last 6⟩, hreplicate rfl⟩,
    hreplicate rfl⟩
  intro move hmove
  obtain ⟨entry, _, hmove⟩ := List.mem_flatMap.mp hmove
  rcases List.mem_append.mp hmove with hmove | hmove
  · exact hreceive _ _ move hmove
  · exact hreplicate rfl move hmove

/-- A session that can be computed is a run. -/
theorem WeakReached.session {port : UInt16} {carried : List UInt8 → Prop} {bits numSlots : ℕ}
    (hsome : 0 < numSlots) (hslots : numSlots < 2 ^ 32) {arriving : List (List UInt8 × Bool)}
    {last : List UInt8} (hcarried : ∀ payload ∈ arriving.map Prod.fst ++ [last], carried payload)
    {final : WeakPipeline} {events : List UdpEvent}
    (hrun : (WeakPipeline.initial numSlots (2 ^ bits)).runLatest [] (sessionMoves arriving last) =
      some (final, events)) :
    ∃ pipe, WeakReached port carried numSlots (2 ^ bits) pipe events ∧ pipe.forget = final := by
  refine WeakReached.start.runLatest hsome hslots ?_ age_of_mem_sessionMoves hrun
  rwa [payloads_sessionMoves]

theorem weakPipeline_drained_twoPackets : ∃ (pipe : WeakPipeline) (events : List UdpEvent),
    (walkedPackets events).length = 2 ∧
      (∃ before packet, sentPackets events = before ++ [(⟨kPoolInvalid, 6⟩, packet)] ∧
        ∀ entry ∈ before, entry.1.poolIdx ≠ kPoolInvalid) ∧
      pipe.network = .finished ∧
      takenRefs events = (sentPackets events).map Prod.fst ∧
      walkedPackets events = packetsOf (sentPackets events) := by
  have hrun : (((WeakPipeline.initial 3 4).runLatest []
      (sessionMoves [(onePacket 1, true), (onePacket 2, true)] endPacket)).map fun result =>
        ((walkedPackets result.2).length, takenRefs result.2)) =
        some (2, [⟨0, 5⟩, ⟨1, 5⟩, ⟨kPoolInvalid, 6⟩]) := by
    decide +kernel
  obtain ⟨⟨last, events⟩, hlast, hfacts⟩ := Option.map_eq_some_iff.mp hrun
  obtain ⟨hwalked, htaken⟩ := Prod.mk.inj hfacts
  obtain ⟨pipe, hreached, _⟩ : ∃ pipe, WeakReached 0 (fun _ => True) 3 (2 ^ 2) pipe events ∧
      pipe.forget = last := WeakReached.session (by decide) (by decide) (fun _ _ => trivial) hlast
  have hpopped : ⟨kPoolInvalid, 6⟩ ∈ takenRefs events := by
    rw [htaken]
    exact .tail _ (.tail _ (.head _))
  exact ⟨pipe, events, hwalked, weakPipeline_drained (by decide) (by decide)
    (SpscRing.create_eq_some_iff.mpr ⟨⟨2, rfl⟩, rfl⟩) hreached hpopped rfl⟩

end Orderbook
