/-
# Messages are applied at most once

The network thread counts the messages of a packet by its header, and the matching
thread finds them by walking the body until it runs out. Nothing compares the two.
A body with more messages than its header says makes the matching thread apply
sequence numbers that the feed handler expects in a later packet.

When no pushed packet holds more messages than its header says, every sequence
number is applied at most once, and no more messages are applied than the feed
handler counted.
-/

import Mathlib.Algebra.Order.BigOperators.Group.List
import Mathlib.Data.List.Forall2
import Orderbook.Feed.Consumer
import Orderbook.Feed.Delivery

namespace Orderbook

open Orderbook.Math

namespace Accepted

/-- The messages in the body of a packet. -/
def messages (entry : Accepted) : List Payload :=
  Payload.framing.readAll (entry.data.drop kMoldHeaderBytes)

/-- The sequence numbers of the first messages of a packet. -/
def numbers (entry : Accepted) (count : ℕ) : List ℕ :=
  (List.range count).map fun i => entry.first + i

/-- A packet that fills at least its header and at most a slot. -/
def Fits (entry : Accepted) : Prop :=
  kMoldHeaderBytes ≤ entry.data.length ∧ entry.data.length ≤ kMaxPacketBytes

end Accepted

/-- A packet is accepted only if it holds a header. -/
theorem fits_of_receive {state : FeedState} {turn : RecvTurn} {entry : Accepted}
    (hentry : entry ∈ (receive state turn).answers) : entry.Fits := by
  unfold receive at hentry
  split at hentry
  case isTrue =>
    split at hentry
    · cases hentry
    · dsimp only at hentry
      split at hentry
      all_goals cases hentry
  case isFalse =>
    split at hentry
    · cases hentry
    · dsimp only at hentry
      split at hentry
      case isTrue => cases hentry
      case isFalse payload _ hheader =>
        split at hentry
        · cases hentry
        · cases hentry
        · cases hentry
        · rw [List.mem_singleton.mp hentry]
          exact ⟨Nat.not_lt.mp hheader, List.length_take_le _ _⟩

/-- Every accepted packet holds a header. -/
theorem fits_of_mem {turns : List RecvTurn} {entry : Accepted}
    (hentry : entry ∈ (runFeedHandler turns).2) : entry.Fits := by
  obtain ⟨_, _, hfits⟩ : ∃ past, past <+: turns ∧
      ∀ entry ∈ (runFeedHandler turns).2, entry.Fits := by
    apply runUntil_invariant fun _ (_ : FeedState) log => ∀ entry ∈ log, Accepted.Fits entry
    · simp
    · intro _ state log turn _ hlog entry hentry
      rcases List.mem_append.mp hentry with hold | hnew
      · exact hlog entry hold
      · exact fits_of_receive hnew
  exact hfits entry hentry

/-- The slot of a popped packet. -/
structure BufferSlot.Holds (slot : BufferSlot) (entry : Accepted) : Prop where
  length : slot.length.toNat = entry.data.length
  data : slot.data.slice 0 entry.data.length = entry.data

/-- The walk finds the messages of the packet, whatever lies behind it. -/
theorem BufferSlot.Holds.messages {slot : BufferSlot} {entry : Accepted}
    (hholds : slot.Holds entry) (hfits : entry.Fits) :
    slot.messages.views.map (fun view => Payload.ofMemory view.1 0 view.2) = entry.messages := by
  have hheader : kMoldHeaderBytes ≤ slot.length.toNat := hholds.length ▸ hfits.1
  have hbody : slot.messages.remaining = entry.data.drop kMoldHeaderBytes := by
    have hsplit : entry.data.length = kMoldHeaderBytes + slot.bodyBytes := by
      rw [BufferSlot.bodyBytes_eq hheader, ← hholds.length]
      omega
    have hdata := hholds.data
    rw [hsplit, Memory.slice_add] at hdata
    rw [← hdata, List.drop_left' (Memory.length_slice _ _ _), MoldMessageIterator.remaining,
      slot.stop_messages, slot.cursor_messages, Nat.sub_zero]
    exact Memory.slice_advance _ _ _ _
  rw [MoldMessageIterator.map_views, MoldMessageIterator.drain_eq_readAll, hbody,
    Accepted.messages]

/-- A walk passes on messages of its packet from the first one on. -/
theorem walkPacket_calls {cycles : Cycles} {caller : Caller} {slot : BufferSlot}
    {tWireCycles : UInt64} {fed : Caller × List Payload}
    (hwalk : walkPacket cycles caller slot tWireCycles = some fed) :
    fed.2 <+: slot.messages.views.map (fun view => Payload.ofMemory view.1 0 view.2) := by
  rw [walkPacket_eq_feed] at hwalk
  exact (Caller.feed_calls hwalk).1

/-- The slot of a turn that pops a packet. -/
def PopTurn.slot? : PopTurn → Option BufferSlot
  | empty _ => none
  | popped ref slot => if ref.poolIdx = kPoolInvalid then none else some slot

/-- Calls that were made for the packet in a slot. -/
def CallsOf (calls : List Payload) (slot : BufferSlot) : Prop :=
  calls <+: slot.messages.views.map fun view => Payload.ofMemory view.1 0 view.2

/-- The loop ends when there is nothing left to pop. -/
theorem iterate_popBody_nil (cycles : Cycles) (caller : Caller) (log : List (List Payload)) :
    iterate (popBody cycles) (caller, [], log) = some (caller, log) := by
  apply iterate_of_leave
  rw [popBody]

/-- A packet that was walked without an exception is logged. -/
theorem iterate_popBody_of_walk {cycles : Cycles} {caller caller' : Caller} {ref : PacketRef}
    {slot : BufferSlot} {turns : List PopTurn} {log : List (List Payload)} {calls : List Payload}
    (hpacket : ref.poolIdx ≠ kPoolInvalid)
    (hwalk : walkPacket cycles caller slot ref.tWireCycles = some (caller', calls))
    (hnone : caller'.thrown = none) :
    iterate (popBody cycles) (caller, .popped ref slot :: turns, log) =
      iterate (popBody cycles) (caller', turns, log ++ [calls]) := by
  apply iterate_of_continue
  simp only [popBody, if_neg hpacket, hwalk, Option.map_some, hnone, Option.isSome_none,
    Bool.false_eq_true, if_false]

/-- What one turn of the consumer loop logs. -/
theorem popBody_cases {cycles : Cycles} {caller : Caller} {turns : List PopTurn}
    {log : List (List Payload)}
    {answer : (Caller × List PopTurn × List (List Payload)) ⊕ Caller × List (List Payload)}
    (hbody : popBody cycles (caller, turns, log) = some answer) :
    ∃ walked made turns', turns.filterMap PopTurn.slot? = walked ++ turns'.filterMap PopTurn.slot? ∧
      List.Forall₂ CallsOf made walked ∧
      ((∃ caller', answer = .inr (caller', log ++ made)) ∨
        ∃ caller', answer = .inl (caller', turns', log ++ made)) := by
  match turns with
  | [] =>
      cases hbody
      exact ⟨[], [], [], rfl, .nil, .inl ⟨caller, by rw [List.append_nil]⟩⟩
  | .empty stopped :: rest =>
      refine ⟨[], [], rest, rfl, .nil, ?_⟩
      rw [List.append_nil]
      cases stopped with
      | true =>
          cases hbody
          exact .inl ⟨caller, rfl⟩
      | false =>
          cases hbody
          exact .inr ⟨caller, rfl⟩
  | .popped ref slot :: rest =>
      simp only [popBody] at hbody
      split at hbody
      case isTrue hsentinel =>
        cases hbody
        refine ⟨[], [], .popped ref slot :: rest, rfl, .nil, .inl ⟨caller, ?_⟩⟩
        rw [List.append_nil]
      case isFalse hpacket =>
        obtain ⟨⟨caller', calls⟩, hwalk, hanswer⟩ := Option.map_eq_some_iff.mp hbody
        have hslots : (PopTurn.popped ref slot :: rest).filterMap PopTurn.slot? =
            [slot] ++ rest.filterMap PopTurn.slot? := by
          simp [PopTurn.slot?, hpacket]
        refine ⟨[slot], [calls], rest, hslots, .cons (walkPacket_calls hwalk) .nil, ?_⟩
        dsimp only at hanswer
        split at hanswer
        · exact .inl ⟨caller', hanswer.symm⟩
        · exact .inr ⟨caller', hanswer.symm⟩

/-- The log of a run belongs, packet by packet, to the first slots popped. -/
theorem runUdp_log {cycles : Cycles} {turns : List PopTurn} {caller : Caller}
    {log : List (List Payload)} (hrun : runUdp cycles turns = some (caller, log)) :
    ∃ walked, walked <+: turns.filterMap PopTurn.slot? ∧ List.Forall₂ CallsOf log walked := by
  obtain ⟨made, walked, hlog, hfront, hcalls⟩ := relates_of_iterate
    (fun (state : Caller × List PopTurn × List (List Payload))
        (result : Caller × List (List Payload)) =>
      ∃ made walked, result.2 = state.2.2 ++ made ∧
        walked <+: state.2.1.filterMap PopTurn.slot? ∧ List.Forall₂ CallsOf made walked)
    (by
      rintro ⟨caller, turns, log⟩ result hleave
      obtain ⟨walked, made, turns', hslots, hcalls, ⟨_, hanswer⟩ | ⟨_, hanswer⟩⟩ :=
        popBody_cases hleave
      · cases hanswer
        exact ⟨made, walked, rfl, ⟨_, hslots.symm⟩, hcalls⟩
      · cases hanswer)
    (by
      rintro ⟨caller, turns, log⟩ next result hcontinue
        ⟨later, walkedLater, hresult, hfront, hlater⟩
      obtain ⟨walked, made, turns', hslots, hcalls, ⟨_, hanswer⟩ | ⟨_, hanswer⟩⟩ :=
        popBody_cases hcontinue
      · cases hanswer
      · cases hanswer
        refine ⟨made ++ later, walked ++ walkedLater, ?_, ?_, List.rel_append hcalls hlater⟩
        · rw [hresult, List.append_assoc]
        · rw [hslots]
          exact (List.prefix_append_right_inj walked).mpr hfront)
    hrun
  have hmade : log = made := hlog
  rw [hmade]
  exact ⟨walked, hfront, hcalls⟩

/-- The sequence numbers passed to `processMessage`, packet by packet. -/
def applied (log : List (List Payload)) (entries : List Accepted) : List ℕ :=
  (List.zipWith (fun calls entry => entry.numbers calls.length) log entries).flatten

/-- What the feed handler added to the expected sequence number. -/
def added (entries : List Accepted) : ℕ :=
  (entries.map fun entry => entry.header.messageCount.toNat).sum

/-- No more calls were made for a packet than its header says. -/
def CallsWithin (calls : List Payload) (entry : Accepted) : Prop :=
  calls.length ≤ entry.header.messageCount.toNat

/-- Packets that end before later ones start have their own sequence numbers. -/
theorem applied_nodup {log : List (List Payload)} {entries : List Accepted}
    (hcalls : List.Forall₂ CallsWithin log entries)
    (hpairwise : entries.Pairwise fun entry later => entry.next ≤ later.first) :
    (applied log entries).Nodup ∧
      ∀ number ∈ applied log entries, ∃ entry ∈ entries,
        entry.first ≤ number ∧ number < entry.next := by
  induction hcalls with
  | nil => exact ⟨List.nodup_nil, fun _ hnumber => by cases hnumber⟩
  | @cons calls entry log entries hwithin _ ih =>
      obtain ⟨hlater, hpairwise⟩ := List.pairwise_cons.mp hpairwise
      obtain ⟨hnodup, hranges⟩ := ih hpairwise
      have happlied : applied (calls :: log) (entry :: entries) =
          entry.numbers calls.length ++ applied log entries := rfl
      have hown : ∀ number ∈ entry.numbers calls.length,
          entry.first ≤ number ∧ number < entry.next := by
        intro number hnumber
        obtain ⟨i, hi, rfl⟩ := List.mem_map.mp hnumber
        have hless := (List.mem_range.mp hi).trans_le hwithin
        exact ⟨Nat.le_add_right _ _, Nat.add_lt_add_left hless _⟩
      rw [happlied]
      constructor
      · apply List.nodup_append.mpr
        refine ⟨List.nodup_range.map fun i j hij => Nat.add_left_cancel hij, hnodup, ?_⟩
        intro number hnumber other hother
        obtain ⟨later, hmem, hfirst, _⟩ := hranges other hother
        have hless := (hown number hnumber).2.trans_le ((hlater later hmem).trans hfirst)
        exact hless.ne
      · intro number hnumber
        rcases List.mem_append.mp hnumber with hhere | hthere
        · exact ⟨entry, List.mem_cons_self, hown number hhere⟩
        · obtain ⟨later, hmem, hrange⟩ := hranges number hthere
          exact ⟨later, List.mem_cons_of_mem _ hmem, hrange⟩

/-- No more calls were made than the headers of the packets say. -/
theorem length_flatten_le {log : List (List Payload)} {entries : List Accepted}
    (hcalls : List.Forall₂ CallsWithin log entries) : log.flatten.length ≤ added entries := by
  induction hcalls with
  | nil => exact Nat.le_refl 0
  | @cons calls entry log entries hwithin _ ih =>
      rw [List.flatten_cons, List.length_append]
      exact Nat.add_le_add hwithin ih

/-- The packets of a log among the packets popped. -/
theorem exists_entries {log : List (List Payload)} {walked slots : List BufferSlot}
    {popped : List Accepted} (hcalls : List.Forall₂ CallsOf log walked)
    (hwalked : walked <+: slots) (hholds : List.Forall₂ BufferSlot.Holds slots popped)
    (hfits : ∀ entry ∈ popped, entry.Fits)
    (hcounts : ∀ entry ∈ popped, entry.messages.length ≤ entry.header.messageCount.toNat) :
    ∃ entries, entries <+: popped ∧ List.Forall₂ CallsWithin log entries := by
  induction hcalls generalizing slots popped with
  | nil => exact ⟨[], List.nil_prefix, .nil⟩
  | @cons calls slot log walked hcall _ ih =>
      obtain ⟨rest, rfl⟩ := hwalked
      cases hholds with
      | @cons _ entry _ popped hhold hholds =>
          obtain ⟨entries, hfront, hentries⟩ := ih (List.prefix_append walked rest) hholds
            (fun other hother => hfits other (List.mem_cons_of_mem _ hother))
            fun other hother => hcounts other (List.mem_cons_of_mem _ hother)
          refine ⟨entry :: entries, List.cons_prefix_cons.mpr ⟨rfl, hfront⟩, .cons ?_ hentries⟩
          unfold CallsOf at hcall
          rw [hhold.messages (hfits entry List.mem_cons_self)] at hcall
          exact hcall.length_le.trans (hcounts entry List.mem_cons_self)

/-- No pushed packet holds more messages than its header says. -/
def HonestCounts (log : List Accepted) : Prop :=
  ∀ entry ∈ log, entry.pushed = true →
    entry.messages.length ≤ entry.header.messageCount.toNat

/-- In every run in which no pushed packet holds more messages than its header says,
the matching thread makes at most as many calls for a packet as its header says, no
sequence number is passed on twice, none is passed on that the feed handler still
expects, and no more messages are passed on than the feed handler counted. -/
theorem applied_at_most_once (turns : List RecvTurn)
    (hrange : ∀ turn ∈ turns, ∀ hdr, turn.header = some hdr → hdr.InRange)
    (hhonest : HonestCounts (runFeedHandler turns).2) (popped : List Accepted)
    (hpopped : popped <+: (runFeedHandler turns).2.filter Accepted.pushed) :
    (∀ entry ∈ popped, ∀ slot : BufferSlot, slot.Holds entry →
      slot.messages.drain.length ≤ entry.header.messageCount.toNat) ∧
    ∀ (cycles : Cycles) (pops : List PopTurn) (caller : Caller) (log : List (List Payload)),
      List.Forall₂ BufferSlot.Holds (pops.filterMap PopTurn.slot?) popped →
      runUdp cycles pops = some (caller, log) →
      ∃ entries, entries <+: popped ∧ List.Forall₂ CallsWithin log entries ∧
        (applied log entries).Nodup ∧
        (∀ number ∈ applied log entries,
          number < (runFeedHandler turns).1.nextExpected.toNat) ∧
        log.flatten.length ≤ added (runFeedHandler turns).2 := by
  have hpushed : ∀ entry ∈ popped, entry ∈ (runFeedHandler turns).2 ∧ entry.pushed = true :=
    fun entry hentry => List.mem_filter.mp (hpopped.subset hentry)
  have hfits : ∀ entry ∈ popped, entry.Fits :=
    fun entry hentry => fits_of_mem (hpushed entry hentry).1
  have hcounts : ∀ entry ∈ popped, entry.messages.length ≤ entry.header.messageCount.toNat :=
    fun entry hentry => hhonest entry (hpushed entry hentry).1 (hpushed entry hentry).2
  obtain ⟨_, _, htracked⟩ := tracked_run receive_handled hrange
  constructor
  · intro entry hentry slot hholds
    have hmessages := congrArg List.length (hholds.messages (hfits entry hentry))
    rw [MoldMessageIterator.map_views, List.length_map] at hmessages
    exact hmessages.trans_le (hcounts entry hentry)
  · intro cycles pops caller log hholds hrun
    obtain ⟨walked, hwalked, hcalls⟩ := runUdp_log hrun
    obtain ⟨entries, hentries, hwithin⟩ :=
      exists_entries hcalls hwalked hholds hfits hcounts
    have hsublist : entries.Sublist (runFeedHandler turns).2 :=
      (hentries.trans hpopped).sublist.trans List.filter_sublist
    obtain ⟨hnodup, hnumbers⟩ := applied_nodup hwithin (htracked.pairwise.sublist hsublist)
    refine ⟨entries, hentries, hwithin, hnodup, ?_, ?_⟩
    · intro number hnumber
      obtain ⟨entry, hentry, _, hless⟩ := hnumbers number hnumber
      exact hless.trans_le (htracked.next_le (hsublist.subset hentry))
    · exact (length_flatten_le hwithin).trans
        ((hsublist.map _).sum_le_sum fun _ _ => Nat.zero_le _)

/-! ## A header that counts too little -/

/-- A message of a type that the engine ignores. -/
def systemEvent : Payload := ⟨[83], by decide⟩

/-- Messages that the engine ignores are all passed on. -/
theorem Caller.feed_ignored (clock : ℕ → Clock) (caller : Caller) (hthrown : caller.thrown = none)
    {views : List (Memory × UInt16)}
    (hignored : ∀ view ∈ views, ItchMessage.decode view.1 = .ignored) :
    ∃ caller' : Caller, caller'.thrown = none ∧ caller.feed clock views =
      some (caller', views.map fun view => Payload.ofMemory view.1 0 view.2) := by
  induction views generalizing caller with
  | nil => exact ⟨caller, hthrown, rfl⟩
  | cons view views ih =>
      have hcall : caller.call (clock caller.messageCount) view.1 view.2 =
          some { caller with messageCount := caller.messageCount + 1, thrown := none } := by
        unfold Caller.call MatchingEngine.processMessage
        rw [hignored view List.mem_cons_self]
        rfl
      obtain ⟨caller', hnone, hfeed⟩ := ih
        { caller with messageCount := caller.messageCount + 1, thrown := none } rfl
        fun other hother => hignored other (List.mem_cons_of_mem _ hother)
      refine ⟨caller', hnone, ?_⟩
      rw [Caller.feed, hcall, Option.bind_some, if_neg (by simp), hfeed]
      rfl

/-- A packet body that was written message by message holds these messages. -/
theorem Accepted.messages_of_encodeAll {entry : Accepted} {header : MoldHeader}
    {records : List Payload}
    (hdata : entry.data = header.wire ++ Payload.framing.encodeAll records) :
    entry.messages = records := by
  have hall := Payload.framing.readAll_encodeAll records []
  rw [List.append_nil, Framing.readAll_of_none _ (Framing.read_nil _), List.append_nil] at hall
  rw [messages, hdata, List.drop_left' header.length_wire, hall]

/-- A walk over a packet of system events passes all of them on. -/
theorem walkPacket_systemEvents (cycles : Cycles) (caller : Caller)
    (hthrown : caller.thrown = none) {slot : BufferSlot} (tWireCycles : UInt64)
    {entry : Accepted} (hholds : slot.Holds entry) (hfits : entry.Fits)
    (hevents : ∀ payload ∈ entry.messages, payload = systemEvent) :
    ∃ caller' : Caller, caller'.thrown = none ∧
      walkPacket cycles caller slot tWireCycles = some (caller', entry.messages) := by
  rw [walkPacket_eq_feed, ← hholds.messages hfits]
  apply Caller.feed_ignored _ _ hthrown
  intro view hview
  have hevent := hevents (.ofMemory view.1 0 view.2) (by
    rw [← hholds.messages hfits]
    exact List.mem_map_of_mem hview)
  have hbytes : view.1.slice 0 view.2.toNat = [83] := congrArg Payload.bytes hevent
  have hlength := congrArg List.length hbytes
  rw [Memory.length_slice, List.length_singleton] at hlength
  rw [hlength] at hbytes
  have htype : view.1 0 = 83 := List.head_eq_of_cons_eq hbytes
  have hdecode : ItchMessage.decode view.1 = ItchMessage.decode fun _ => 83 := by
    apply ItchMessage.decode_congr
    rw [htype]
    intro i (hi : i < 1)
    rw [Nat.lt_one_iff.mp hi, htype]
  rw [hdecode]
  rfl

/-- A packet of system events. -/
def eventPacket (hdr : MoldHeader) (count : ℕ) : List UInt8 :=
  hdr.wire ++ Payload.framing.encodeAll (List.replicate count systemEvent)

/-- A packet of system events as it is accepted. -/
def acceptedEvents (hdr : MoldHeader) (count : ℕ) (slotIdx : UInt32) : Accepted where
  header := hdr
  data := eventPacket hdr count
  ref := ⟨slotIdx, 0⟩
  gapsDetected := 0
  pushed := true

theorem messages_acceptedEvents (hdr : MoldHeader) (count : ℕ) (slotIdx : UInt32) :
    (acceptedEvents hdr count slotIdx).messages = List.replicate count systemEvent :=
  Accepted.messages_of_encodeAll rfl

/-- A slot that holds a packet and is empty behind it. -/
def Accepted.slot (entry : Accepted) : BufferSlot where
  data := .ofList entry.data
  length := UInt16.ofNat entry.data.length

/-- The packet is popped. -/
def Accepted.pop (entry : Accepted) : PopTurn := .popped entry.ref entry.slot

theorem Accepted.Fits.holds {entry : Accepted} (hfits : entry.Fits) : entry.slot.Holds entry := by
  constructor
  · apply UInt16.toNat_ofNat_of_lt'
    exact Nat.lt_of_le_of_lt hfits.2 (by decide)
  · exact Memory.slice_ofList entry.data

theorem forall₂_holds_pop {entries : List Accepted} (hfits : ∀ entry ∈ entries, entry.Fits)
    (hpackets : ∀ entry ∈ entries, entry.ref.poolIdx ≠ kPoolInvalid) :
    List.Forall₂ BufferSlot.Holds ((entries.map Accepted.pop).filterMap PopTurn.slot?) entries := by
  have hslots : (entries.map Accepted.pop).filterMap PopTurn.slot? = entries.map Accepted.slot := by
    rw [List.filterMap_map, ← List.filterMap_eq_map]
    exact List.filterMap_congr fun entry hentry => if_neg (hpackets entry hentry)
  rw [hslots, List.forall₂_map_left_iff, List.forall₂_same]
  exact fun entry hentry => (hfits entry hentry).holds

/-- Packets of system events are popped and walked to their ends. -/
theorem iterate_popBody_systemEvents (cycles : Cycles) {entries : List Accepted}
    (hfits : ∀ entry ∈ entries, entry.Fits)
    (hpackets : ∀ entry ∈ entries, entry.ref.poolIdx ≠ kPoolInvalid)
    (hevents : ∀ entry ∈ entries, ∀ payload ∈ entry.messages, payload = systemEvent)
    (caller : Caller) (hthrown : caller.thrown = none) (log : List (List Payload)) :
    ∃ caller' : Caller, iterate (popBody cycles) (caller, entries.map Accepted.pop, log) =
      some (caller', log ++ entries.map Accepted.messages) := by
  induction entries generalizing caller log with
  | nil => exact ⟨caller, by rw [List.map_nil, List.map_nil, List.append_nil, iterate_popBody_nil]⟩
  | cons entry entries ih =>
      rw [List.forall_mem_cons] at hfits hpackets hevents
      obtain ⟨between, hnone, hwalk⟩ := walkPacket_systemEvents cycles caller hthrown
        entry.ref.tWireCycles hfits.1.holds hfits.1 hevents.1
      obtain ⟨caller', hrun⟩ :=
        ih hfits.2 hpackets.2 hevents.2 between hnone (log ++ [entry.messages])
      refine ⟨caller', ?_⟩
      rw [List.map_cons, Accepted.pop, iterate_popBody_of_walk hpackets.1 hwalk hnone, hrun,
        List.map_cons, List.append_assoc, List.singleton_append]

/-- Packet 1 holds two messages and arrives twice. Its header says `count` messages, and the
packet behind it holds the next one. -/
def eventRun (count : UInt16) : List RecvTurn :=
  let first := eventPacket { oneMessage 1 with messageCount := count } 2
  [{ slotIdx := 0, recv := .datagram first },
    { slotIdx := 1, recv := .datagram first },
    { slotIdx := 2, recv := .datagram (eventPacket (oneMessage (1 + count.toUInt64)) 1) }]

/-- The packets as they are accepted. -/
def eventLog (count : UInt16) : List Accepted :=
  [acceptedEvents { oneMessage 1 with messageCount := count } 2 0,
    acceptedEvents (oneMessage (1 + count.toUInt64)) 1 2]

theorem runFeedHandler_eventRun :
    ∀ count ∈ [(1 : UInt16), 2], (runFeedHandler (eventRun count)).2 = eventLog count := by
  refine List.forall_iff_forall_mem.mp ?_
  decide +kernel

theorem header_eventRun : ∀ count ∈ [(1 : UInt16), 2], ∀ turn ∈ eventRun count, ∀ hdr,
    turn.header = some hdr → hdr.InRange ∧ hdr.session = Vector.replicate 10 0 := by
  have hheaders : [(1 : UInt16), 2].Forall fun count => ∀ turn ∈ eventRun count,
      turn.header = some { oneMessage 1 with messageCount := count } ∨
        turn.header = some (oneMessage (1 + count.toUInt64)) := by decide +kernel
  have hranges : [(1 : UInt16), 2].Forall fun count =>
      ({ oneMessage 1 with messageCount := count } : MoldHeader).next < 2 ^ 64 ∧
        (oneMessage (1 + count.toUInt64)).next < 2 ^ 64 := by decide +kernel
  rw [List.forall_iff_forall_mem] at hheaders hranges
  intro count hcount turn hturn hdr hheader
  rcases hheaders count hcount turn hturn with hfirst | hsecond
  · cases hfirst.symm.trans hheader
    exact ⟨(hranges count hcount).1, rfl⟩
  · cases hsecond.symm.trans hheader
    exact ⟨(hranges count hcount).2, rfl⟩

theorem fits_eventLog : ∀ count ∈ [(1 : UInt16), 2], ∀ entry ∈ eventLog count, entry.Fits := by
  have hlengths : [(1 : UInt16), 2].Forall fun count => ∀ entry ∈ eventLog count,
      20 ≤ entry.data.length ∧ entry.data.length ≤ 2048 := by decide +kernel
  exact List.forall_iff_forall_mem.mp hlengths

theorem packets_eventLog (count : UInt16) :
    ∀ entry ∈ eventLog count, entry.ref.poolIdx ≠ kPoolInvalid :=
  List.forall_mem_cons.mpr ⟨show (0 : UInt32) ≠ kPoolInvalid by decide,
    List.forall_mem_singleton.mpr (show (2 : UInt32) ≠ kPoolInvalid by decide)⟩

theorem runUdp_eventLog (cycles : Cycles) {count : UInt16} (hcount : count ∈ [(1 : UInt16), 2]) :
    ∃ caller : Caller, runUdp cycles ((eventLog count).map Accepted.pop) =
      some (caller, [List.replicate 2 systemEvent, List.replicate 1 systemEvent]) := by
  have hmessages : (eventLog count).map Accepted.messages =
      [List.replicate 2 systemEvent, List.replicate 1 systemEvent] := by
    simp only [eventLog, List.map_cons, List.map_nil, messages_acceptedEvents]
  have hevents : ∀ entry ∈ eventLog count, ∀ payload ∈ entry.messages, payload = systemEvent := by
    intro entry hentry payload hpayload
    have hmem : entry.messages ∈ (eventLog count).map Accepted.messages :=
      List.mem_map_of_mem hentry
    rw [hmessages] at hmem
    rcases List.mem_pair.mp hmem with hall | hall
    all_goals exact List.eq_of_mem_replicate (hall ▸ hpayload)
  obtain ⟨caller, hrun⟩ := iterate_popBody_systemEvents cycles (fits_eventLog count hcount)
    (packets_eventLog count) hevents {} rfl []
  rw [hmessages, List.nil_append] at hrun
  exact ⟨caller, hrun⟩

/-- Where the header of the first packet says one message, its second message and the
message of the other packet are passed on under one sequence number. -/
theorem message_applied_twice :
    ∃ (turns : List RecvTurn) (cycles : Cycles) (pops : List PopTurn) (caller : Caller)
      (log : List (List Payload)),
      (∀ turn ∈ turns, ∀ hdr, turn.header = some hdr →
        hdr.InRange ∧ hdr.session = Vector.replicate 10 0) ∧
      List.Forall₂ BufferSlot.Holds (pops.filterMap PopTurn.slot?)
        ((runFeedHandler turns).2.filter Accepted.pushed) ∧
      runUdp cycles pops = some (caller, log) ∧
      ¬ List.Forall₂ CallsWithin log ((runFeedHandler turns).2.filter Accepted.pushed) ∧
      ¬ (applied log ((runFeedHandler turns).2.filter Accepted.pushed)).Nodup ∧
      added (runFeedHandler turns).2 < log.flatten.length := by
  have hone : (1 : UInt16) ∈ [(1 : UInt16), 2] := by decide
  have hpushed : (eventLog 1).filter Accepted.pushed = eventLog 1 := rfl
  obtain ⟨caller, hrun⟩ := runUdp_eventLog (fun _ => (0, 0)) hone
  refine ⟨eventRun 1, fun _ => (0, 0), (eventLog 1).map Accepted.pop, caller, _,
    header_eventRun 1 hone, ?_, hrun, ?_, ?_, ?_⟩
  all_goals rw [runFeedHandler_eventRun 1 hone]
  · rw [hpushed]
    exact forall₂_holds_pop (fits_eventLog 1 hone) (packets_eventLog 1)
  · intro hcalls
    cases hcalls with
    | cons hwithin _ => exact absurd (show 2 ≤ 1 from hwithin) (by decide)
  · decide +kernel
  · decide +kernel

/-- Where it says two, the three messages are passed on once each, though the first packet
arrived twice. -/
theorem applied_at_most_once_eventRun :
    (∃ caller : Caller, runUdp (fun _ => (0, 0)) ((eventLog 2).map Accepted.pop) =
      some (caller, [List.replicate 2 systemEvent, List.replicate 1 systemEvent])) ∧
    ∃ entries, entries <+: eventLog 2 ∧
      List.Forall₂ CallsWithin [List.replicate 2 systemEvent, List.replicate 1 systemEvent]
        entries ∧
      (applied [List.replicate 2 systemEvent, List.replicate 1 systemEvent] entries).Nodup ∧
      (∀ number ∈ applied [List.replicate 2 systemEvent, List.replicate 1 systemEvent] entries,
        number < (runFeedHandler (eventRun 2)).1.nextExpected.toNat) ∧
      3 ≤ added (runFeedHandler (eventRun 2)).2 := by
  have htwo : (2 : UInt16) ∈ [(1 : UInt16), 2] := by decide
  have hpushed : (eventLog 2).filter Accepted.pushed = eventLog 2 := rfl
  have hlog := runFeedHandler_eventRun 2 htwo
  have hhonest : HonestCounts (runFeedHandler (eventRun 2)).2 := by
    rw [hlog]
    refine List.forall_mem_cons.mpr ⟨fun _ => ?_, List.forall_mem_singleton.mpr fun _ => ?_⟩
    all_goals
      rw [messages_acceptedEvents]
      decide
  obtain ⟨caller, hrun⟩ := runUdp_eventLog (fun _ => (0, 0)) htwo
  refine ⟨⟨caller, hrun⟩, ?_⟩
  exact (applied_at_most_once (eventRun 2)
    (fun turn hturn hdr hheader => (header_eventRun 2 htwo turn hturn hdr hheader).1) hhonest
    (eventLog 2) (by rw [hlog, hpushed])).2 _ _ _ _
    (forall₂_holds_pop (fits_eventLog 2 htwo) (packets_eventLog 2)) hrun

end Orderbook
