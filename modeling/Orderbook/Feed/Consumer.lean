/-
# The matching thread

`runUdp` pops packets from the ring and walks each of them with the body iterator.
Every message it finds goes to `processMessage`. The loop ends at the sentinel, or
when the stop flag was read as set, or when a call throws: nothing catches the
exception.

The slot of a popped packet holds the packet and, behind it, whatever earlier
packets left there. What the ring gives, whether the stop flag was read and the
clock readings are inputs of the loop. The messages passed to `processMessage` are
logged packet by packet.
-/

import Orderbook.Engine.MatchingEngine
import Orderbook.Feed.FeedHandler
import Orderbook.Feed.MoldPacket

namespace Orderbook

open Orderbook.Math

/-- Two engines that differ at most in their latency records. -/
structure MatchingEngine.SameState (engine engine' : MatchingEngine) : Prop where
  pool : engine.pool = engine'.pool
  orderMap : engine.orderMap = engine'.orderMap
  orderBooks : engine.orderBooks = engine'.orderBooks

/-- The locals of a loop that passes messages to `processMessage`, its engine, and
the exception that ended it, if any. -/
structure Caller where
  engine : MatchingEngine := .initial
  scratch : EngineScratch := {}
  messageCount : ℕ := 0
  thrown : Option String := none

/-- The time stamp counter before and after the call with a given number. -/
abbrev Cycles := ℕ → UInt64 × UInt64

/-- The clock readings of one call. -/
def Cycles.clock (cycles : Cycles) (tWireCycles : UInt64) (call : ℕ) : Clock where
  tWireCycles
  startCycles := (cycles call).1
  endCycles := (cycles call).2

/-- Pass one message to `processMessage`. -/
def Caller.call (caller : Caller) (clock : Clock) (data : Memory) (messageLength : UInt16) :
    Option Caller :=
  (caller.engine.processMessage data messageLength caller.scratch clock).map fun outcome =>
    { engine := outcome.engine
      scratch := outcome.scratch
      messageCount := caller.messageCount + 1
      thrown := outcome.thrown }

/-- A buffer of the packet pool. -/
structure BufferSlot where
  data : Memory
  length : UInt16

/-- The bytes behind the header, in `size_t`. -/
def BufferSlot.bodyBytes (slot : BufferSlot) : ℕ := sizeSub slot.length.toNat kMoldHeaderBytes

/-- The iterator over the body of a packet. -/
def BufferSlot.messages (slot : BufferSlot) : MoldMessageIterator :=
  .start (slot.data.advance kMoldHeaderBytes) slot.bodyBytes

/-- One turn of the loop over the messages of a packet. -/
def walkBody (cycles : Cycles) (tWireCycles : UInt64) :
    Caller × MoldMessageIterator × List Payload →
      Option ((Caller × MoldMessageIterator × List Payload) ⊕ Caller × List Payload)
  | (caller, it, calls) =>
      match it.next with
      | (none, _) => some (.inr (caller, calls))
      | (some found, next) =>
          let data := it.body.advance found.msg
          let calls := calls ++ [.ofMemory data 0 found.outLen]
          (caller.call (cycles.clock tWireCycles caller.messageCount) data found.outLen).map
            fun caller =>
              if caller.thrown.isSome then .inr (caller, calls) else .inl (caller, next, calls)

/-- Walk one packet and return the messages that were passed on. -/
def walkPacket (cycles : Cycles) (caller : Caller) (slot : BufferSlot) (tWireCycles : UInt64) :
    Option (Caller × List Payload) :=
  iterate (walkBody cycles tWireCycles) (caller, slot.messages, [])

/-- What one try to pop gives: nothing, and whether the stop flag was read as set
after it, or a reference with the slot it refers to. -/
inductive PopTurn
  | empty (stopped : Bool)
  | popped (ref : PacketRef) (slot : BufferSlot)

/-- One turn of the consumer loop. -/
def popBody (cycles : Cycles) :
    Caller × List PopTurn × List (List Payload) →
      Option ((Caller × List PopTurn × List (List Payload)) ⊕ Caller × List (List Payload))
  | (caller, [], log) => some (.inr (caller, log))
  | (caller, .empty stopped :: turns, log) =>
      some (if stopped then .inr (caller, log) else .inl (caller, turns, log))
  | (caller, .popped ref slot :: turns, log) =>
      if ref.poolIdx = kPoolInvalid then some (.inr (caller, log))
      else
        (walkPacket cycles caller slot ref.tWireCycles).map fun (caller, calls) =>
          let log := log ++ [calls]
          if caller.thrown.isSome then .inr (caller, log) else .inl (caller, turns, log)

/-- The consumer loop of `runUdp`. -/
def runUdp (cycles : Cycles) (turns : List PopTurn) : Option (Caller × List (List Payload)) :=
  iterate (popBody cycles) ({}, turns, [])

namespace Caller

/-- Pass messages on one after another until one throws, and return those passed. -/
def feed (clock : ℕ → Clock) : Caller → List (Memory × UInt16) → Option (Caller × List Payload)
  | caller, [] => some (caller, [])
  | caller, (data, messageLength) :: messages =>
      (caller.call (clock caller.messageCount) data messageLength).bind fun caller =>
        if caller.thrown.isSome then some (caller, [.ofMemory data 0 messageLength])
        else
          (caller.feed clock messages).map fun fed =>
            (fed.1, .ofMemory data 0 messageLength :: fed.2)

/-- The messages passed on come first in the list, and a list that was not passed
on in full ended with an exception. -/
theorem feed_calls {clock : ℕ → Clock} {caller caller' : Caller}
    {messages : List (Memory × UInt16)} {calls : List Payload}
    (hfeed : caller.feed clock messages = some (caller', calls)) :
    calls <+: messages.map (fun message => .ofMemory message.1 0 message.2) ∧
      (caller'.thrown = none →
        calls = messages.map (fun message => .ofMemory message.1 0 message.2)) := by
  induction messages generalizing caller calls with
  | nil =>
      cases hfeed
      exact ⟨List.prefix_refl _, fun _ => rfl⟩
  | cons message messages ih =>
      obtain ⟨data, messageLength⟩ := message
      simp only [feed, Option.bind_eq_some_iff] at hfeed
      obtain ⟨called, _, hrest⟩ := hfeed
      split at hrest
      case isTrue hthrown =>
        cases hrest
        refine ⟨List.cons_prefix_cons.mpr ⟨rfl, List.nil_prefix⟩, fun hnone => ?_⟩
        rw [hnone] at hthrown
        cases hthrown
      case isFalse =>
        obtain ⟨⟨_, later⟩, hlater, hcalls⟩ := Option.map_eq_some_iff.mp hrest
        cases hcalls
        obtain ⟨hfront, hall⟩ := ih hlater
        exact ⟨List.cons_prefix_cons.mpr ⟨rfl, hfront⟩, fun hnone =>
          congrArg (List.cons _) (hall hnone)⟩

end Caller

/-- The messages a walk finds, as `processMessage` sees them. -/
def MoldMessageIterator.views (it : MoldMessageIterator) : List (Memory × UInt16) :=
  it.drain.map fun found => (it.body.advance found.msg, found.outLen)

theorem MoldMessageIterator.map_views (it : MoldMessageIterator) :
    it.views.map (fun view => Payload.ofMemory view.1 0 view.2) = it.drain.map it.payload := by
  rw [views, List.map_map]
  apply List.map_congr_left
  intro found _
  exact Payload.ofMemory_advance it.body found.msg found.outLen

theorem MoldMessageIterator.views_of_none {it next : MoldMessageIterator}
    (hnext : it.next = (none, next)) : it.views = [] := by
  rw [views, drain_of_none (congrArg Prod.fst hnext), List.map_nil]

theorem MoldMessageIterator.views_of_some {it next : MoldMessageIterator} {found : FoundMessage}
    (hnext : it.next = (some found, next)) :
    it.views = (it.body.advance found.msg, found.outLen) :: next.views := by
  have hbody := it.body_next
  rw [hnext] at hbody
  rw [views, drain_of_some (congrArg Prod.fst hnext), List.map_cons, hnext, ← hbody]
  rfl

/-- The loop over a packet passes on the messages that the iterator finds. -/
theorem iterate_walkBody (cycles : Cycles) (tWireCycles : UInt64) (caller : Caller)
    (it : MoldMessageIterator) (calls : List Payload) :
    iterate (walkBody cycles tWireCycles) (caller, it, calls) =
      (caller.feed (cycles.clock tWireCycles) it.views).map fun fed =>
        (fed.1, calls ++ fed.2) := by
  induction hleft : it.stop - it.cursor using Nat.strong_induction_on
    generalizing caller it calls with
  | h left ih =>
      cases hnext : it.next with
      | mk answer next =>
          cases answer with
          | none =>
              have hbody : walkBody cycles tWireCycles (caller, it, calls) =
                  some (.inr (caller, calls)) := by
                simp only [walkBody, hnext]
              rw [iterate_of_leave hbody, it.views_of_none hnext, Caller.feed, Option.map_some,
                List.append_nil]
          | some found =>
              have hless := MoldMessageIterator.cursor_next (congrArg Prod.fst hnext)
              rw [hnext, hleft] at hless
              rw [it.views_of_some hnext, Caller.feed]
              cases hcall : caller.call (cycles.clock tWireCycles caller.messageCount)
                  (it.body.advance found.msg) found.outLen with
              | none =>
                  apply iterate_of_none
                  simp only [walkBody, hnext, hcall, Option.map_none]
              | some called =>
                  rw [Option.bind_some]
                  split
                  case isTrue hthrown =>
                    apply iterate_of_leave
                    simp only [walkBody, hnext, hcall, Option.map_some, hthrown, if_true]
                  case isFalse hthrown =>
                    have hbody : walkBody cycles tWireCycles (caller, it, calls) =
                        some (.inl (called, next,
                          calls ++ [.ofMemory (it.body.advance found.msg) 0 found.outLen])) := by
                      simp only [walkBody, hnext, hcall, Option.map_some, hthrown, if_false,
                        Bool.false_eq_true]
                    rw [iterate_of_continue hbody, ih _ hless _ _ _ rfl, Option.map_map]
                    simp only [Function.comp_def, List.append_assoc, List.singleton_append]

theorem walkPacket_eq_feed (cycles : Cycles) (caller : Caller) (slot : BufferSlot)
    (tWireCycles : UInt64) :
    walkPacket cycles caller slot tWireCycles =
      caller.feed (cycles.clock tWireCycles) slot.messages.views := by
  unfold walkPacket
  rw [iterate_walkBody]
  cases caller.feed (cycles.clock tWireCycles) slot.messages.views with
  | none => rfl
  | some fed => rfl

theorem BufferSlot.cursor_messages (slot : BufferSlot) : slot.messages.cursor = 0 := rfl

theorem BufferSlot.stop_messages (slot : BufferSlot) : slot.messages.stop = slot.bodyBytes := by
  rw [messages, MoldMessageIterator.start]

/-- A packet that is not shorter than its header has the rest as its body. -/
theorem BufferSlot.bodyBytes_eq {slot : BufferSlot}
    (hheader : kMoldHeaderBytes ≤ slot.length.toNat) :
    slot.bodyBytes = slot.length.toNat - kMoldHeaderBytes := by
  have hlength := slot.length.toNat_lt
  unfold bodyBytes sizeSub
  omega

end Orderbook
