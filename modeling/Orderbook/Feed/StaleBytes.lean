/-
# Stale bytes behind a packet

A slot is reused without being cleared, so behind a packet lie bytes of earlier
packets. The iterator never looks at them. `processMessage` does when a message is
shorter than its type requires: the length it is given is not read, and the parser
runs on into what follows.

A call depends on the bytes of its message alone exactly for the lengths that cover
what the parser of the type reads. A packet is walked without looking at stale bytes
whenever no parser reads past its end.
-/

import Orderbook.Engine.Refinement
import Orderbook.Feed.Consumer

namespace Orderbook

open Orderbook.Math

namespace MoldMessageIterator

variable {it it' : MoldMessageIterator}

/-- Two walks that stand at the same place of the same body. -/
structure Agrees (it it' : MoldMessageIterator) : Prop where
  cursor : it.cursor = it'.cursor
  stop : it.stop = it'.stop
  body : ∀ i < it.stop, it.body i = it'.body i

/-- They find the same message and go on at the same place. -/
theorem Agrees.next (hagrees : it.Agrees it') :
    it.next.1 = it'.next.1 ∧ it.next.2.Agrees it'.next.2 := by
  unfold MoldMessageIterator.next
  rw [← hagrees.cursor, ← hagrees.stop]
  split
  case isTrue => exact ⟨rfl, hagrees⟩
  case isFalse hroom =>
    have hlen : it.body.load16 it.cursor = it'.body.load16 it.cursor := by
      rw [Memory.load16, Memory.load16, hagrees.body it.cursor (by omega),
        hagrees.body (it.cursor + 1) (by omega)]
    rw [← hlen]
    dsimp only
    split
    · exact ⟨rfl, rfl, rfl, hagrees.body⟩
    · exact ⟨rfl, rfl, rfl, hagrees.body⟩

/-- They find the same messages. -/
theorem Agrees.drain (hagrees : it.Agrees it') : it.drain = it'.drain := by
  induction hleft : it.stop - it.cursor using Nat.strong_induction_on generalizing it it' with
  | h left ih =>
      obtain ⟨hanswer, hnext⟩ := hagrees.next
      cases hfound : it.next.1 with
      | none =>
          have hfound' : it'.next.1 = none := hanswer ▸ hfound
          rw [drain_of_none hfound, drain_of_none hfound']
      | some found =>
          have hfound' : it'.next.1 = some found := hanswer ▸ hfound
          rw [drain_of_some hfound, drain_of_some hfound',
            ih _ (hleft ▸ cursor_next hfound) hnext rfl]

/-- A message that was found lies inside the body. -/
theorem le_stop_of_mem_drain {found : FoundMessage} (hfound : found ∈ it.drain) :
    found.msg + found.outLen.toNat ≤ it.stop := by
  induction hleft : it.stop - it.cursor using Nat.strong_induction_on generalizing it with
  | h left ih =>
      cases hnext : it.next.1 with
      | none =>
          rw [drain_of_none hnext] at hfound
          cases hfound
      | some first =>
          obtain ⟨_, hfits, hstate⟩ := next_of_some hnext
          rw [drain_of_some hnext] at hfound
          rcases List.mem_cons.mp hfound with rfl | hlater
          · exact hfits
          · have hstop : it.next.2.stop = it.stop := by rw [hstate]
            rw [← hstop]
            exact ih _ (hleft ▸ cursor_next hnext) hlater rfl

end MoldMessageIterator

/-- Two views of a message that the engine cannot tell apart. -/
structure SameView (view view' : Memory × UInt16) : Prop where
  decoded : ItchMessage.decode view.1 = ItchMessage.decode view'.1
  length : view.2 = view'.2
  bytes : view.1.slice 0 view.2.toNat = view'.1.slice 0 view.2.toNat

theorem SameView.ofMemory {view view' : Memory × UInt16} (hsame : SameView view view') :
    Payload.ofMemory view.1 0 view.2 = Payload.ofMemory view'.1 0 view'.2 := by
  rw [← hsame.length]
  exact Payload.mk.injEq .. ▸ hsame.bytes

/-- A loop does the same on messages that look the same. -/
theorem Caller.feed_congr (clock : ℕ → Clock) (caller : Caller)
    {views views' : List (Memory × UInt16)} (hsame : List.Forall₂ SameView views views') :
    caller.feed clock views = caller.feed clock views' := by
  induction hsame generalizing caller with
  | nil => rfl
  | @cons view view' views views' hhead _ ih =>
      have hcall : caller.call (clock caller.messageCount) view.1 view.2 =
          caller.call (clock caller.messageCount) view'.1 view'.2 := by
        unfold Caller.call MatchingEngine.processMessage
        rw [hhead.decoded]
      simp only [Caller.feed, hcall, hhead.ofMemory, ih]

/-- The bytes that the parsers read of the messages of a packet. -/
def BufferSlot.ParsersStay (slot : BufferSlot) : Prop :=
  ∀ found ∈ slot.messages.drain,
    found.msg + requiredLength (slot.messages.body found.msg) ≤ slot.bodyBytes

/-- When no parser reads past the end of the packet, stale bytes do not matter. -/
theorem walkPacket_congr (cycles : Cycles) (caller : Caller) (tWireCycles : UInt64)
    {slot slot' : BufferSlot} (hlength : slot.length = slot'.length)
    (hheader : kMoldHeaderBytes ≤ slot.length.toNat)
    (hbytes : ∀ i < slot.length.toNat, slot.data i = slot'.data i)
    (hstay : slot.ParsersStay) :
    walkPacket cycles caller slot tWireCycles = walkPacket cycles caller slot' tWireCycles := by
  have hbody := BufferSlot.bodyBytes_eq hheader
  have hagree : ∀ i < slot.bodyBytes, slot.messages.body i = slot'.messages.body i := by
    intro i hi
    exact hbytes (kMoldHeaderBytes + i) (by omega)
  have hagrees : slot.messages.Agrees slot'.messages := by
    constructor
    · rw [slot.cursor_messages, slot'.cursor_messages]
    · rw [slot.stop_messages, slot'.stop_messages]
      unfold BufferSlot.bodyBytes
      rw [hlength]
    · rw [slot.stop_messages]
      exact hagree
  rw [walkPacket_eq_feed, walkPacket_eq_feed]
  apply Caller.feed_congr
  unfold MoldMessageIterator.views
  rw [← hagrees.drain, List.forall₂_map_left_iff, List.forall₂_map_right_iff, List.forall₂_same]
  intro found hfound
  have hstop := MoldMessageIterator.le_stop_of_mem_drain hfound
  rw [slot.stop_messages] at hstop
  refine ⟨?_, rfl, ?_⟩
  · apply ItchMessage.decode_congr
    intro i hi
    exact hagree (found.msg + i) ((Nat.add_lt_add_left hi _).trans_le (hstay found hfound))
  · apply Memory.slice_congr
    intro i _ hi
    have hless : i < 0 + found.outLen.toNat := hi
    exact hagree (found.msg + i) (by omega)

namespace MatchingEngine

/-- A run over messages with fresh references, its last call and what the books
hold after it. -/
theorem exists_last_call {past : List ItchMessage} {message : ItchMessage}
    (hfresh : FreshRefs (past ++ [message])) (hlength : past.length < 1000) :
    ∃ engine scratch trace outcome,
      run (past.map Delivery.of) = some ((engine, scratch), trace) ∧
      engine.apply scratch ⟨0, 0, 0⟩ message = some outcome ∧
      ∀ locate side (price : UInt32), outcome.engine.priceQueue locate side price =
        (Exchange.after (past ++ [message])).queue locate side price.toNat := by
  have hdecoded := Delivery.map_decoded_of (past ++ [message])
  have hfresh' : FreshRefs (((past ++ [message]).map Delivery.of).map Delivery.decoded) := by
    rwa [hdecoded]
  have hlive : LiveBelow ((past ++ [message]).map Delivery.of) := by
    apply liveBelow_of_length_lt
    rw [List.length_map, List.length_append]
    exact Nat.lt_of_lt_of_le (Nat.add_lt_add_right hlength 1) (by decide)
  obtain ⟨reached, market, trace, hrun⟩ := hlive.exists_jointRun
  have hqueues := hrun.represents.priceQueue_eq
  rw [hrun.toExchange_eq hfresh', hdecoded] at hqueues
  have hreached := hrun.reached
  rw [List.map_append, List.map_singleton] at hreached
  obtain ⟨engine, before, earlier, outcome, hpast, happly, rfl, _⟩ := hreached.last_call
  rw [Delivery.decoded_of] at happly
  exact ⟨engine, before, earlier, outcome, hpast, happly, hqueues⟩

/-- Messages after which an exchange would differ are told apart by an engine. -/
theorem exists_distinguished {past : List ItchMessage} {message message' : ItchMessage}
    (hfresh : FreshRefs (past ++ [message])) (hfresh' : FreshRefs (past ++ [message']))
    (hlength : past.length < 1000) {locate : UInt16} {side : Side} {price : UInt32}
    (hqueue : (Exchange.after (past ++ [message])).queue locate side price.toNat ≠
      (Exchange.after (past ++ [message'])).queue locate side price.toNat) :
    ∃ (engine : MatchingEngine) (scratch : EngineScratch) (outcome outcome' : Outcome),
      engine.apply scratch ⟨0, 0, 0⟩ message = some outcome ∧
      engine.apply scratch ⟨0, 0, 0⟩ message' = some outcome' ∧
      outcome.engine.priceQueue locate side price ≠
        outcome'.engine.priceQueue locate side price := by
  obtain ⟨engine, scratch, _, outcome, hrun, happly, hbooks⟩ := exists_last_call hfresh hlength
  obtain ⟨engine', scratch', _, outcome', hrun', happly', hbooks'⟩ :=
    exists_last_call hfresh' hlength
  rw [hrun] at hrun'
  cases hrun'
  refine ⟨engine, scratch, outcome, outcome', happly, happly', ?_⟩
  rw [hbooks, hbooks']
  exact hqueue

end MatchingEngine

/-- A call with this type and length depends on nothing behind that length. -/
def ReadsOnly (messageType : UInt8) (messageLength : UInt16) : Prop :=
  ∀ (engine : MatchingEngine) (scratch : EngineScratch) (clock : Clock) (data data' : Memory),
    data 0 = messageType → (∀ i < messageLength.toNat, data i = data' i) →
      engine.processMessage data messageLength scratch clock =
        engine.processMessage data' messageLength scratch clock

/-- A message as it is on the wire, under another type byte. -/
def ItchMessage.wireAs (messageType : UInt8) (message : ItchMessage) : Memory :=
  .ofList (messageType :: message.wire.tail)

/-- Messages that start alike start alike under another type byte. -/
theorem ItchMessage.wireAs_agree (messageType : UInt8) {message message' : ItchMessage} {bytes : ℕ}
    (hstart : message.wire.take bytes = message'.wire.take bytes) :
    ∀ i < bytes, message.wireAs messageType i = message'.wireAs messageType i := by
  intro i hi
  cases i with
  | zero => rfl
  | succ i =>
      have hsame : (message.wire.take bytes)[i + 1]? = (message'.wire.take bytes)[i + 1]? := by
        rw [hstart]
      rw [List.getElem?_take_of_lt hi, List.getElem?_take_of_lt hi] at hsame
      simp only [wireAs, Memory.ofList, List.getD_eq_getElem?_getD, List.getElem?_cons_succ,
        List.getElem?_tail, hsame]

/-- An order at rest. -/
def restingBid : ItchMessage := .add 1 ⟨0, 1, 10, 100, buyByte⟩

/-- What is needed of two messages that leave different books behind. -/
def ToldApart (past : List ItchMessage) (message message' : ItchMessage) : Prop :=
  (introduced (past ++ [message])).Nodup ∧
    HashPolicy.identity.empty ∉ introduced (past ++ [message]) ∧
    (introduced (past ++ [message'])).Nodup ∧
    HashPolicy.identity.empty ∉ introduced (past ++ [message']) ∧
    (Exchange.after (past ++ [message])).queue 1 .buy 100 ≠
      (Exchange.after (past ++ [message'])).queue 1 .buy 100

instance (past : List ItchMessage) (message message' : ItchMessage) :
    Decidable (ToldApart past message message') :=
  inferInstanceAs (Decidable (_ ∧ _))

/-- An engine that ran into the difference. -/
theorem ToldApart.exists_engine {past : List ItchMessage} {message message' : ItchMessage}
    (happart : ToldApart past message message') (hlength : past.length < 1000) :
    ∃ (engine : MatchingEngine) (scratch : EngineScratch) (outcome outcome' : Outcome),
      engine.apply scratch ⟨0, 0, 0⟩ message = some outcome ∧
      engine.apply scratch ⟨0, 0, 0⟩ message' = some outcome' ∧
      outcome.engine.priceQueue 1 .buy 100 ≠ outcome'.engine.priceQueue 1 .buy 100 := by
  obtain ⟨hnodup, hempty, hnodup', hempty', hqueue⟩ := happart
  exact MatchingEngine.exists_distinguished (.of_notMem hnodup hempty)
    (.of_notMem hnodup' hempty') hlength hqueue

/-- Two messages of one type that start with the same bytes but are told apart. -/
theorem ToldApart.not_readsOnly {past : List ItchMessage} {data data' : Memory}
    (happart : ToldApart past (ItchMessage.decode data) (ItchMessage.decode data'))
    (hlength : past.length < 1000) {bytes : ℕ} (hagree : ∀ i < bytes, data i = data' i)
    {messageLength : UInt16} (hshort : messageLength.toNat ≤ bytes) :
    ¬ ReadsOnly (data 0) messageLength := by
  intro hreads
  obtain ⟨engine, scratch, outcome, outcome', happly, happly', hqueue⟩ :=
    happart.exists_engine hlength
  have hsame := hreads engine scratch ⟨0, 0, 0⟩ data data' rfl
    fun i hi => hagree i (hi.trans_le hshort)
  unfold MatchingEngine.processMessage at hsame
  rw [happly, happly'] at hsame
  cases hsame
  exact hqueue rfl

/-- A message that lacks its last byte leaves open what it does: in each class there are two
messages that differ in the lowest byte of their last field only. -/
theorem not_readsOnly_of_lt {messageType : UInt8} {messageLength : UInt16}
    (hpositive : 0 < messageLength.toNat)
    (hshort : messageLength.toNat < requiredLength messageType) :
    ¬ ReadsOnly messageType messageLength := by
  unfold requiredLength at hshort
  split_ifs at hshort with hadd hdelete hexecuted hreplace
  · have happart : ToldApart [] (ItchMessage.decode (restingBid.wireAs messageType))
        (ItchMessage.decode
          ((ItchMessage.add 1 ⟨0, 1, 10, 101, buyByte⟩).wireAs messageType)) := by
      rcases hadd with rfl | rfl
      all_goals decide +kernel
    exact happart.not_readsOnly (by decide)
      (ItchMessage.wireAs_agree _ (by decide : _ = List.take 35 _)) (by omega)
  · have happart : ToldApart [restingBid]
        (ItchMessage.decode ((ItchMessage.delete ⟨0, 1⟩).wireAs messageType))
        (ItchMessage.decode ((ItchMessage.delete ⟨0, 2⟩).wireAs messageType)) := by
      subst hdelete
      decide +kernel
    exact happart.not_readsOnly (by decide)
      (ItchMessage.wireAs_agree _ (by decide : _ = List.take 18 _)) (by omega)
  · have happart : ToldApart [restingBid]
        (ItchMessage.decode ((ItchMessage.executed ⟨1, 1⟩).wireAs messageType))
        (ItchMessage.decode ((ItchMessage.executed ⟨1, 2⟩).wireAs messageType)) := by
      rcases hexecuted with rfl | rfl | rfl
      all_goals decide +kernel
    exact happart.not_readsOnly (by decide)
      (ItchMessage.wireAs_agree _ (by decide : _ = List.take 22 _)) (by omega)
  · have happart : ToldApart [restingBid]
        (ItchMessage.decode ((ItchMessage.replace ⟨1, 5, 10, 100⟩).wireAs messageType))
        (ItchMessage.decode ((ItchMessage.replace ⟨1, 5, 10, 101⟩).wireAs messageType)) := by
      subst hreplace
      decide +kernel
    exact happart.not_readsOnly (by decide)
      (ItchMessage.wireAs_agree _ (by decide : _ = List.take 34 _)) (by omega)
  · omega

/-- A call reads nothing but its message exactly if the length covers what the type
requires. -/
theorem readsOnly_iff (messageType : UInt8) (messageLength : UInt16) :
    ReadsOnly messageType messageLength ↔ requiredLength messageType ≤ messageLength.toNat := by
  constructor
  · intro hreads
    by_contra hshort
    rcases Nat.eq_zero_or_pos messageLength.toNat with hempty | hpositive
    · have hany : ReadsOnly 'A'.toUInt8 messageLength := by
        intro engine scratch clock data data' _ _
        have hnone : ∀ other : Memory, ∀ i < messageLength.toNat, messageType = other i := by
          intro _ i hi
          omega
        exact (hreads engine scratch clock (fun _ => messageType) data rfl (hnone data)).symm.trans
          (hreads engine scratch clock (fun _ => messageType) data' rfl (hnone data'))
      have happart : ToldApart [] (ItchMessage.decode (restingBid.wireAs 'A'.toUInt8))
          (ItchMessage.decode (ItchMessage.ignored.wireAs 'S'.toUInt8)) := by decide +kernel
      exact happart.not_readsOnly (by decide) (fun i (hi : i < 0) => absurd hi (Nat.not_lt_zero i))
        hempty.le hany
    · exact not_readsOnly_of_lt hpositive (Nat.not_le.mp hshort) hreads
  · intro hfull engine scratch clock data data' htype hagree
    unfold MatchingEngine.processMessage
    rw [ItchMessage.decode_congr]
    intro i hi
    exact hagree i (hi.trans_le (htype ▸ hfull))

/-- The books are in the pool and the ladders. -/
theorem MatchingEngine.SameState.priceQueue_eq {engine engine' : MatchingEngine}
    (hsame : engine.SameState engine') (locate : UInt16) (side : Side) (price : UInt32) :
    engine.priceQueue locate side price = engine'.priceQueue locate side price := by
  obtain ⟨pool, orderMap, orderBooks, _, _⟩ := engine
  obtain ⟨pool', orderMap', orderBooks', _, _⟩ := engine'
  obtain ⟨rfl, rfl, rfl⟩ := hsame
  rfl

/-- Every message of a packet is as long as its type requires. -/
def BufferSlot.FullMessages (slot : BufferSlot) : Prop :=
  ∀ found ∈ slot.messages.drain,
    requiredLength (slot.messages.body found.msg) ≤ found.outLen.toNat

theorem BufferSlot.FullMessages.parsersStay {slot : BufferSlot} (hfull : slot.FullMessages) :
    slot.ParsersStay := by
  intro found hfound
  have hstop := MoldMessageIterator.le_stop_of_mem_drain hfound
  rw [slot.stop_messages] at hstop
  exact (Nat.add_le_add_left (hfull found hfound) _).trans hstop

/-- In every packet, the calls read nothing but their messages exactly if all its
messages are as long as their types require. Then no parser reads past the end of
the packet, and whenever none does, the packet has the same effect on every engine
whatever lies behind it in the slot. -/
theorem packet_reads_own_bytes_iff (slot : BufferSlot)
    (hheader : kMoldHeaderBytes ≤ slot.length.toNat) :
    ((∀ found ∈ slot.messages.drain,
        ReadsOnly (slot.messages.body found.msg) found.outLen) ↔ slot.FullMessages) ∧
      (slot.FullMessages → slot.ParsersStay) ∧
      (slot.ParsersStay → ∀ (cycles : Cycles) (caller : Caller) (tWireCycles : UInt64)
        (slot' : BufferSlot), slot.length = slot'.length →
        (∀ i < slot.length.toNat, slot.data i = slot'.data i) →
          walkPacket cycles caller slot tWireCycles =
            walkPacket cycles caller slot' tWireCycles) := by
  refine ⟨?_, BufferSlot.FullMessages.parsersStay, ?_⟩
  · constructor
    · intro hreads found hfound
      exact (readsOnly_iff _ _).mp (hreads found hfound)
    · intro hfull found hfound
      exact (readsOnly_iff _ _).mpr (hfull found hfound)
  · intro hstay cycles caller tWireCycles slot' hlength hbytes
    exact walkPacket_congr cycles caller tWireCycles hlength hheader hbytes hstay

/-- A slot that holds an add without the last byte of its price, and one stale byte
behind it. -/
def cutAdd (stale : UInt8) : BufferSlot where
  data := .ofList (MoldHeader.wire ⟨Vector.replicate 10 0, 1, 1⟩ ++
    ([0, 35] ++ restingBid.wire.take 35) ++ [stale])
  length := 57

theorem views_cutAdd {stale : UInt8}
    (hlen : ntohs ((cutAdd stale).messages.body.load16 0) = 35) :
    (cutAdd stale).messages.views = [((cutAdd stale).messages.body.advance 2, 35)] := by
  have hstop : (cutAdd stale).messages.stop = 37 := by
    rw [BufferSlot.stop_messages, BufferSlot.bodyBytes_eq]
    · rfl
    · change 20 ≤ 57
      decide
  have hfirst : (cutAdd stale).messages.next =
      (some ⟨2, 35⟩, { (cutAdd stale).messages with cursor := 37 }) := by
    apply MoldMessageIterator.next_of_fits hlen
    rw [hstop]
    exact Nat.le_refl 37
  have hsecond : ({ (cutAdd stale).messages with cursor := 37 } : MoldMessageIterator).next =
      (none, { (cutAdd stale).messages with cursor := 37 }) := by
    apply MoldMessageIterator.next_of_end
    change (cutAdd stale).messages.stop < 39
    rw [hstop]
    decide
  rw [MoldMessageIterator.views_of_some hfirst, MoldMessageIterator.views_of_none hsecond]

/-- A packet with one message leaves the engine as one call does. -/
theorem exists_walkPacket_of_views {cycles : Cycles} {caller : Caller} {slot : BufferSlot}
    {tWireCycles : UInt64} {data : Memory} {messageLength : UInt16} {outcome : Outcome}
    (hviews : slot.messages.views = [(data, messageLength)])
    (hprocess : caller.engine.processMessage data messageLength caller.scratch
      (cycles.clock tWireCycles caller.messageCount) = some outcome) :
    ∃ fed, walkPacket cycles caller slot tWireCycles = some fed ∧
      fed.1.engine = outcome.engine := by
  rw [walkPacket_eq_feed, hviews, Caller.feed, Caller.call, hprocess]
  simp only [Option.map_some, Option.bind_some, Caller.feed]
  split
  · exact ⟨_, rfl, rfl⟩
  · exact ⟨_, rfl, rfl⟩

/-- The last byte of the price comes from an earlier packet. -/
theorem stale_byte_read :
    ∃ (cycles : Cycles) (caller : Caller) (slot slot' : BufferSlot)
      (fed fed' : Caller × List Payload),
      20 ≤ slot.length.toNat ∧ slot.length.toNat ≤ 2048 ∧ slot.length = slot'.length ∧
      (∀ i < slot.length.toNat, slot.data i = slot'.data i) ∧
      walkPacket cycles caller slot 0 = some fed ∧
      walkPacket cycles caller slot' 0 = some fed' ∧
      ¬ fed.1.engine.SameState fed'.1.engine := by
  have happart : ToldApart [] (ItchMessage.decode ((cutAdd 100).messages.body.advance 2))
      (ItchMessage.decode ((cutAdd 101).messages.body.advance 2)) := by decide +kernel
  obtain ⟨engine, scratch, outcome, outcome', happly, happly', hqueue⟩ :=
    happart.exists_engine (by decide)
  have hcut : ∀ i < 57, (cutAdd 100).data i = (cutAdd 101).data i := by decide +kernel
  obtain ⟨fed, hwalk, hengine⟩ : ∃ fed, walkPacket (fun _ => (0, 0)) { engine, scratch }
      (cutAdd 100) 0 = some fed ∧ fed.1.engine = outcome.engine :=
    exists_walkPacket_of_views (views_cutAdd (by decide +kernel)) happly
  obtain ⟨fed', hwalk', hengine'⟩ : ∃ fed, walkPacket (fun _ => (0, 0)) { engine, scratch }
      (cutAdd 101) 0 = some fed ∧ fed.1.engine = outcome'.engine :=
    exists_walkPacket_of_views (views_cutAdd (by decide +kernel)) happly'
  refine ⟨fun _ => (0, 0), { engine, scratch }, cutAdd 100, cutAdd 101, fed, fed',
    by decide, by decide, rfl, hcut, hwalk, hwalk', fun hsame => hqueue ?_⟩
  rw [← hengine, ← hengine']
  exact hsame.priceQueue_eq 1 .buy 100

theorem packet_reads_own_bytes_iff_cutAdd :
    kMoldHeaderBytes ≤ (cutAdd 100).length.toNat ∧
      ((∀ found ∈ (cutAdd 100).messages.drain,
        ReadsOnly ((cutAdd 100).messages.body found.msg) found.outLen) ↔
          (cutAdd 100).FullMessages) :=
  ⟨by decide, (packet_reads_own_bytes_iff (cutAdd 100) (by decide)).1⟩

end Orderbook
