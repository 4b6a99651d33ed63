/-
# The matching thread with its engine

In the steps of the two threads the matching thread always comes back from the messages of a
packet. Whether it does is up to the engine. A call of `processMessage` throws on an order with an
unknown side; nothing catches the exception, and it takes the process with it. A call that looks
for an entry of a full order map may not return, and then the matching thread stands still while
the network thread goes on.

Here the engine is part of the state, and the messages of a packet are a run of `walkPacket`. A
fair run of this system may end with an exception or hang in a call. It does neither when the
messages that are passed on are complete, have valid sides and leave room in the order map. It is
a fair run of the two threads then: no packet waits forever, and `runUdp` returns.
-/

import Orderbook.Feed.Reconciliation
import Orderbook.Feed.Termination

namespace Orderbook

open Orderbook.Math

/-- The two threads, the loop of the matching thread with its engine, and the messages that were
passed to `processMessage`. -/
structure UdpSystem where
  pipe : Pipeline
  caller : Caller := {}
  passed : List Payload := []

namespace UdpSystem

def initial (numSlots : ℕ) : UdpSystem where
  pipe := .initial numSlots

/-- The run over the messages of a popped packet. -/
def walk (system : UdpSystem) (cycles : Cycles) (ref : PacketRef) :
    Option (Caller × List Payload) :=
  walkPacket cycles system.caller (system.pipe.pool.slots ref.poolIdx) ref.tWireCycles

/-- The messages of a popped packet. -/
def messages (system : UdpSystem) (ref : PacketRef) : List Payload :=
  (system.pipe.pool.slots ref.poolIdx).messages.views.map fun view => .ofMemory view.1 0 view.2

/-- The matching thread is in a call that does not return. -/
def Hangs (system : UdpSystem) (cycles : Cycles) : Prop :=
  ∃ ref, system.pipe.matching = .walking ref ∧ system.walk cycles ref = none

end UdpSystem

/-- The turns of the matching thread. It makes none from a call that does not return. -/
inductive EngineTurn (room : ℕ) (cycles : Cycles) (system : UdpSystem) : UdpSystem → Prop
  | other (pipe : Pipeline) (hpc : ∀ ref, system.pipe.matching ≠ .walking ref)
      (hstep : MatchingStep room system.pipe pipe) :
      EngineTurn room cycles system { system with pipe }
  | walk (ref : PacketRef) (caller : Caller) (calls : List Payload)
      (hpc : system.pipe.matching = .walking ref)
      (hwalk : system.walk cycles ref = some (caller, calls)) (hreturned : caller.thrown = none) :
      EngineTurn room cycles system
        { pipe := { system.pipe with matching := .releasing ref.poolIdx }
          caller
          passed := system.passed ++ calls }
  | throw (ref : PacketRef) (caller : Caller) (calls : List Payload)
      (hpc : system.pipe.matching = .walking ref)
      (hwalk : system.walk cycles ref = some (caller, calls)) (hthrown : caller.thrown ≠ none) :
      EngineTurn room cycles system { system with caller, passed := system.passed ++ calls }

/-- A step of the system. After an exception there is none. -/
inductive SystemStep (port : UInt16) (room : ℕ) (cycles : Cycles) (system : UdpSystem) :
    UdpSystem → Prop
  | network (pipe : Pipeline) (hgoing : system.caller.thrown = none)
      (hstep : NetworkStep port room system.pipe pipe) :
      SystemStep port room cycles system { system with pipe }
  | fault (pipe : Pipeline) (hgoing : system.caller.thrown = none)
      (hfault : NetworkFault system.pipe pipe) :
      SystemStep port room cycles system { system with pipe }
  | matching (next : UdpSystem) (hgoing : system.caller.thrown = none)
      (hturn : EngineTurn room cycles system next) : SystemStep port room cycles system next

/-- The states that the system reaches with a pool and a ring of the given sizes. -/
def SystemReached (port : UInt16) (numSlots capacity : ℕ) (cycles : Cycles) (system : UdpSystem) :
    Prop :=
  Relation.ReflTransGen (SystemStep port (capacity - 1) cycles) (.initial numSlots) system

variable {port : UInt16} {room numSlots capacity : ℕ} {cycles : Cycles}
  {system next start : UdpSystem}

/-- A step of the system is a step of the threads, or an exception. -/
theorem SystemStep.pipe_cases (hstep : SystemStep port room cycles system next) :
    PipelineStep port room system.pipe next.pipe ∨
      next.pipe = system.pipe ∧ next.caller.thrown ≠ none := by
  cases hstep with
  | network pipe _ hstep => exact .inl (.inl (.inl hstep))
  | fault pipe _ hfault => exact .inl (.inr hfault)
  | matching next _ hturn =>
      cases hturn with
      | other pipe _ hstep => exact .inl (.inl (.inr hstep))
      | walk ref caller calls hpc _ _ => exact .inl (.inl (.inr (.walk _ ref hpc)))
      | throw ref caller calls _ _ hthrown => exact .inr ⟨rfl, hthrown⟩

/-- The threads of the system are in a state that the threads reach. -/
theorem SystemReached.pipe (hreached : SystemReached port numSlots capacity cycles system) :
    Reached port numSlots capacity system.pipe := by
  induction hreached with
  | refl => exact .refl
  | tail _ hstep ih =>
      rcases hstep.pipe_cases with hmoved | ⟨hsame, _⟩
      · exact ih.tail hmoved
      · rw [hsame]
        exact ih

/-- Messages that the engine takes from its start on: they are complete, have valid sides and
leave room in the order map. -/
structure Manageable (deliveries : List Delivery) (payloads : List Payload) : Prop where
  bytes : payloads.map Payload.bytes = deliveries.map fun delivery => delivery.message.bytes
  sides : ∀ delivery ∈ deliveries, delivery.decoded.ValidSides
  room : MatchingEngine.LiveBelow deliveries

theorem Manageable.split {deliveries : List Delivery} {passed payloads : List Payload}
    (hmanageable : Manageable deliveries (passed ++ payloads)) :
    ∃ first rest, deliveries = first ++ rest ∧ Manageable first passed ∧
      payloads.map Payload.bytes = rest.map fun delivery => delivery.message.bytes := by
  have hbytes := hmanageable.bytes
  rw [List.map_append] at hbytes
  obtain ⟨first, rest, rfl, hfirst, hrest⟩ := List.map_eq_append_iff.mp hbytes.symm
  exact ⟨first, rest, rfl, ⟨hfirst.symm, fun delivery hdelivery =>
    hmanageable.sides delivery (List.mem_append_left _ hdelivery),
    hmanageable.room.of_prefix (List.prefix_append _ _)⟩, hrest.symm⟩

/-- A caller that has come through some messages: if the engine takes them, it has the engine that
they lead to. -/
structure Caller.Fed (caller : Caller) (passed : List Payload) : Prop where
  thrown : caller.thrown = none
  engine : ∀ deliveries, Manageable deliveries passed →
    ∃ engine trace, MatchingEngine.Reached deliveries engine trace ∧
      engine.SameState caller.engine

theorem Caller.fed_nil : ({} : Caller).Fed [] where
  thrown := rfl
  engine deliveries hmanageable := by
    have hnil := hmanageable.bytes
    rw [List.map_nil, eq_comm, List.map_eq_nil_iff] at hnil
    subst hnil
    exact ⟨_, _, MatchingEngine.reached_nil, ⟨rfl, rfl, rfl⟩⟩

/-- Messages that the engine takes are passed on to the last one, and no call throws. -/
theorem Caller.Fed.walk {caller : Caller} {passed : List Payload} (hfed : caller.Fed passed)
    {slot : BufferSlot} {deliveries : List Delivery}
    (hmanageable : Manageable deliveries
      (passed ++ slot.messages.views.map fun view => .ofMemory view.1 0 view.2))
    (cycles : Cycles) (tWireCycles : UInt64) :
    ∃ caller', walkPacket cycles caller slot tWireCycles =
        some (caller', slot.messages.views.map fun view => .ofMemory view.1 0 view.2) ∧
      caller'.thrown = none ∧ ∃ engine trace, MatchingEngine.Reached deliveries engine trace ∧
        engine.SameState caller'.engine := by
  obtain ⟨first, rest, rfl, hfirst, hrest⟩ := hmanageable.split
  obtain ⟨before, earlier, ⟨scratch, hbefore⟩, hsame⟩ := hfed.engine first hfirst
  obtain ⟨engine, market, trace, hjoint⟩ := hmanageable.room.exists_jointRun
  have hquiet := hjoint.reached.thrown_eq_none hmanageable.sides
  obtain ⟨scratch', hrun⟩ := id hjoint.reached
  obtain ⟨⟨between, _⟩, hbetween, hlater⟩ :=
    Option.bind_eq_some_iff.mp ((runList_append ..).symm.trans hrun)
  cases hbefore.symm.trans hbetween
  obtain ⟨⟨last, later⟩, hlast, hresult⟩ := Option.map_eq_some_iff.mp hlater
  cases hresult
  have hviews : slot.messages.views.map (fun view => view.1.slice 0 view.2.toNat) =
      rest.map fun delivery => delivery.message.bytes := by
    rw [← hrest, List.map_map]
    rfl
  obtain ⟨caller', hfeed, hnone, hbooks⟩ := Caller.feed_of_runList hlast
    (fun transition hmem => hquiet transition (List.mem_append_right _ hmem)) caller hsame
    hfed.thrown hviews (cycles.clock tWireCycles)
  exact ⟨caller', (walkPacket_eq_feed ..).trans hfeed, hnone, engine, _, hjoint.reached, hbooks⟩

/-- A walk that comes back leaves a caller that has come through its messages as well. -/
theorem Caller.Fed.step {caller caller' : Caller} {passed calls : List Payload}
    (hfed : caller.Fed passed) {slot : BufferSlot} {tWireCycles : UInt64}
    (hwalk : walkPacket cycles caller slot tWireCycles = some (caller', calls))
    (hreturned : caller'.thrown = none) : caller'.Fed (passed ++ calls) where
  thrown := hreturned
  engine deliveries hmanageable := by
    have hall : calls = slot.messages.views.map fun view => .ofMemory view.1 0 view.2 :=
      (Caller.feed_calls ((walkPacket_eq_feed ..).symm.trans hwalk)).2 hreturned
    rw [hall] at hmanageable
    obtain ⟨other, hother, _, hengine⟩ := hfed.walk hmanageable cycles tWireCycles
    cases hwalk.symm.trans hother
    exact hengine

theorem SystemReached.fed (hreached : SystemReached port numSlots capacity cycles system)
    (hgoing : system.caller.thrown = none) : system.caller.Fed system.passed := by
  induction hreached with
  | refl => exact Caller.fed_nil
  | tail _ hstep ih =>
      cases hstep with
      | network pipe hbefore _ => exact ih hbefore
      | fault pipe hbefore _ => exact ih hbefore
      | matching next hbefore hturn =>
          cases hturn with
          | other pipe _ _ => exact ih hbefore
          | walk ref caller calls _ hwalk hreturned => exact (ih hbefore).step hwalk hreturned
          | throw ref caller calls _ _ hthrown => exact absurd hgoing hthrown

/-! ## Fair runs -/

/-- An infinite run in which each thread takes turns again and again until it is done, as long as
no exception has ended the process. The matching thread takes none while a call does not
return. -/
structure FairSystem (port : UInt16) (room : ℕ) (cycles : Cycles) (start : UdpSystem) where
  state : ℕ → UdpSystem
  starts : state 0 = start
  steps : ∀ time, state (time + 1) = state time ∨
    SystemStep port room cycles (state time) (state (time + 1))
  network : ∀ time, ∃ later, time ≤ later ∧
    (NetworkStep port room (state later).pipe (state (later + 1)).pipe ∨
      (state later).pipe.network = .finished ∨ (state later).caller.thrown ≠ none)
  matching : ∀ time, ∃ later, time ≤ later ∧
    (EngineTurn room cycles (state later) (state (later + 1)) ∨
      (state later).pipe.matching = .done ∨ (state later).caller.thrown ≠ none ∨
      (state later).Hangs cycles)

namespace FairSystem

/-- Whenever the matching thread is at work on a packet, the engine takes what was passed to it
and the messages of the packet. -/
def Manages (run : FairSystem port room cycles start) : Prop :=
  ∀ time ref, (run.state time).pipe.matching = .walking ref →
    ∃ deliveries, Manageable deliveries
      ((run.state time).passed ++ (run.state time).messages ref)

theorem reached (run : FairSystem port (capacity - 1) cycles start)
    (hreached : SystemReached port numSlots capacity cycles start) (time : ℕ) :
    SystemReached port numSlots capacity cycles (run.state time) := by
  induction time with
  | zero =>
      rw [run.starts]
      exact hreached
  | succ time ih =>
      rcases run.steps time with hidle | hstep
      · rw [hidle]
        exact ih
      · exact ih.tail hstep

/-- Where the engine takes the messages, every walk comes back without an exception. -/
theorem Manages.walk {run : FairSystem port (capacity - 1) cycles start} (hmanages : run.Manages)
    (hreached : SystemReached port numSlots capacity cycles start) {time : ℕ}
    (hgoing : (run.state time).caller.thrown = none) {ref : PacketRef}
    (hpc : (run.state time).pipe.matching = .walking ref) :
    ∃ caller calls, (run.state time).walk cycles ref = some (caller, calls) ∧
      caller.thrown = none := by
  obtain ⟨deliveries, hmanageable⟩ := hmanages time ref hpc
  obtain ⟨caller, hwalk, hnone, _⟩ :=
    ((run.reached hreached time).fed hgoing).walk hmanageable cycles ref.tWireCycles
  exact ⟨caller, _, hwalk, hnone⟩

theorem Manages.thrown {run : FairSystem port (capacity - 1) cycles start}
    (hmanages : run.Manages) (hreached : SystemReached port numSlots capacity cycles start)
    (hgoing : start.caller.thrown = none) (time : ℕ) :
    (run.state time).caller.thrown = none := by
  induction time with
  | zero =>
      rw [run.starts]
      exact hgoing
  | succ time ih =>
      rcases run.steps time with hidle | hstep
      · rw [hidle]
        exact ih
      · generalize hnext : run.state (time + 1) = next at hstep
        cases hstep with
        | network pipe _ _ => exact ih
        | fault pipe _ _ => exact ih
        | matching next _ hturn =>
            cases hturn with
            | other pipe _ _ => exact ih
            | walk ref caller calls _ _ hreturned => exact hreturned
            | throw ref caller calls hpc hwalk hthrown =>
                obtain ⟨other, _, hother, hnone⟩ := hmanages.walk hreached ih hpc
                cases hwalk.symm.trans hother
                exact absurd hnone hthrown

/-- Where the engine takes the messages, a fair run of the system is a fair run of the threads. -/
def threads (run : FairSystem port (capacity - 1) cycles start) (hmanages : run.Manages)
    (hreached : SystemReached port numSlots capacity cycles start)
    (hgoing : start.caller.thrown = none) : FairThreads port (capacity - 1) start.pipe where
  state time := (run.state time).pipe
  starts := congrArg UdpSystem.pipe run.starts
  steps time := by
    rcases run.steps time with hidle | hstep
    · exact .inl (congrArg UdpSystem.pipe hidle)
    · exact .inr (hstep.pipe_cases.resolve_right fun hthrown =>
        hthrown.2 (hmanages.thrown hreached hgoing (time + 1)))
  network time := by
    obtain ⟨later, hlater, hturn⟩ := run.network time
    refine ⟨later, hlater, hturn.imp_right fun hends => ?_⟩
    exact hends.resolve_right fun hthrown => hthrown (hmanages.thrown hreached hgoing later)
  matching time := by
    obtain ⟨later, hlater, hturn⟩ := run.matching time
    have hquiet := hmanages.thrown hreached hgoing
    refine ⟨later, hlater, ?_⟩
    rcases hturn with hturn | hdone | hthrown | ⟨ref, hpc, hnone⟩
    · left
      have hnext := hquiet (later + 1)
      generalize run.state (later + 1) = next at hturn hnext ⊢
      cases hturn with
      | other pipe _ hstep => exact hstep
      | walk ref caller calls hpc _ _ => exact .walk _ ref hpc
      | throw ref caller calls _ _ hthrown => exact absurd hnext hthrown
    · exact .inr hdone
    · exact absurd (hquiet later) hthrown
    · obtain ⟨caller, calls, hwalk, _⟩ := hmanages.walk hreached (hquiet later) hpc
      cases hnone.symm.trans hwalk

end FairSystem

theorem SystemReached.networkRun (hreached : SystemReached port numSlots capacity cycles system)
    (hgoing : system.caller.thrown = none) {pipe : Pipeline}
    (hrun : Relation.ReflTransGen (NetworkStep port (capacity - 1)) system.pipe pipe) :
    SystemReached port numSlots capacity cycles { system with pipe } := by
  induction hrun with
  | refl => exact hreached
  | tail _ hstep ih => exact ih.tail (.network _ hgoing hstep)

/-- A run that comes to its end and then stands still is fair. -/
def FairSystem.ofFinite (state : ℕ → UdpSystem) (bound : ℕ)
    (hsteps : ∀ time, time < bound →
      SystemStep port room cycles (state time) (state (time + 1)))
    (hrest : ∀ time, bound ≤ time → state time = state bound)
    (hnetwork : (state bound).pipe.network = .finished)
    (hmatching : (state bound).pipe.matching = .done) :
    FairSystem port room cycles (state 0) where
  state := state
  starts := rfl
  steps time := by
    rcases Nat.lt_or_ge time bound with hless | hge
    · exact .inr (hsteps time hless)
    · left
      rw [hrest time hge, hrest (time + 1) (Nat.le_succ_of_le hge)]
  network time := by
    refine ⟨max time bound, Nat.le_max_left _ _, .inr (.inl ?_)⟩
    rw [hrest _ (Nat.le_max_right _ _), hnetwork]
  matching time := by
    refine ⟨max time bound, Nat.le_max_left _ _, .inr (.inl ?_)⟩
    rw [hrest _ (Nat.le_max_right _ _), hmatching]

/-- A packet with two orders that trade with each other. -/
def tradePayloads : List Payload := [restingBuy.payload, crossingSell.payload]

def tradePacket : List UInt8 := packetOf 1 tradePayloads

/-- The packet is in the ring. -/
def packetPushed : Pipeline :=
  { Pipeline.initial 4 with
    pool := (PacketPool.create 4).acquire.2.modify 0 fun slot => slot.fill (received tradePacket)
    ring := [⟨0, 0⟩]
    network := .testing false
    feed := ((({} : FeedState).countReceived (received tradePacket).length).track
      (parseMoldHeader (.ofList (received tradePacket)))).1 }

/-- The end of the session is received into the next slot. -/
def endReceived : Pipeline :=
  { packetPushed with
    pool := packetPushed.pool.acquire.2.modify 1 fun slot => slot.fill (received (eosPacket 3))
    feed := ((packetPushed.feed.countReceived (received (eosPacket 3)).length).track
      (parseMoldHeader (.ofList (received (eosPacket 3))))).1
    network := .releasing 1 (.endSession 0) }

/-- The slot is given back and the sentinel pushed. -/
def sentinelPushed : Pipeline :=
  { endReceived with
    pool := endReceived.pool.release 1
    ring := [⟨0, 0⟩, ⟨kPoolInvalid, 0⟩]
    feed := { endReceived.feed with sentinel := some ⟨kPoolInvalid, 0⟩ }
    network := .finished }

theorem reached_endReceived (cycles : Cycles) :
    SystemReached 0 4 4 cycles { pipe := endReceived } := by
  have haccepted : ((({} : FeedState).countReceived (received tradePacket).length).track
      (parseMoldHeader (.ofList (received tradePacket)))).2 = .accepted := by
    decide +kernel
  have hended : ((packetPushed.feed.countReceived (received (eosPacket 3)).length).track
      (parseMoldHeader (.ofList (received (eosPacket 3))))).2 = .endOfSession := by
    decide +kernel
  have hready : Relation.ReflTransGen (NetworkStep 0 3) (.initial 4)
      { Pipeline.initial 4 with network := .testing false } :=
    .single (.setUp _ false rfl)
  have hpushed : Relation.ReflTransGen (NetworkStep 0 3) (.initial 4) packetPushed :=
    hready.trans (NetworkStep.receive_push 0 rfl rfl (show _ = (0 : UInt32) from rfl) (by decide)
      (by decide +kernel) 0 (Prod.ext rfl haccepted) (by decide))
  have hloop := hpushed.tail (.loop _ false rfl rfl)
  have hacquired := hloop.tail (.acquire _ rfl)
  have hreceived : Relation.ReflTransGen (NetworkStep 0 3) (.initial 4) endReceived :=
    hacquired.tail (.receive _ 1 (eosPacket 3) 0 rfl (by decide +kernel) _ .endOfSession
      (Prod.ext rfl hended))
  exact SystemReached.networkRun .refl rfl hreceived

/-- The states from the end of the session to the return, when the walk leaves `caller`. -/
def endingStates (caller : Caller) : ℕ → UdpSystem
  | 0 => { pipe := endReceived }
  | 1 => { pipe := { endReceived with pool := endReceived.pool.release 1, network := .sealing 0 } }
  | 2 => { pipe := sentinelPushed }
  | 3 => { pipe := { sentinelPushed with
            ring := [⟨kPoolInvalid, 0⟩], matching := .walking ⟨0, 0⟩ } }
  | 4 => { pipe := { sentinelPushed with ring := [⟨kPoolInvalid, 0⟩], matching := .releasing 0 }
           caller, passed := tradePayloads }
  | 5 => { pipe := { sentinelPushed with
            pool := sentinelPushed.pool.release 0, ring := [⟨kPoolInvalid, 0⟩] }
           caller, passed := tradePayloads }
  | 6 => { pipe := { sentinelPushed with
            pool := sentinelPushed.pool.release 0, ring := [], matching := .stopping }
           caller, passed := tradePayloads }
  | 7 => { pipe := { sentinelPushed with
            pool := sentinelPushed.pool.release 0, ring := [], stop := true,
            matching := .joining }
           caller, passed := tradePayloads }
  | _ => { pipe := { sentinelPushed with
            pool := sentinelPushed.pool.release 0, ring := [], stop := true,
            matching := .done }
           caller, passed := tradePayloads }

theorem endingStates_rest (caller : Caller) {time : ℕ} (hge : 8 ≤ time) :
    endingStates caller time = endingStates caller 8 := by
  obtain ⟨more, rfl⟩ := Nat.exists_eq_add_of_le' hge
  rfl

theorem messages_tradePacket (caller : Caller) :
    (endingStates caller 3).messages ⟨0, 0⟩ = tradePayloads := by
  have hslot : (endingStates caller 3).pipe.pool.slots 0 =
      ((PacketPool.create 4).slots 0).fill (received tradePacket) := rfl
  have hbytes := ((PacketPool.create 4).slots 0).bytes_fill tradePacket
  have hshort : received tradePacket = tradePacket :=
    List.take_of_length_le (by decide +kernel)
  have hfits : (entryOf (⟨0, 0⟩, (endingStates caller 3).pipe.pool.slots 0)).Fits := by
    change kMoldHeaderBytes ≤ (BufferSlot.bytes _).length ∧ (BufferSlot.bytes _).length ≤ _
    rw [hslot, hbytes]
    decide +kernel
  rw [UdpSystem.messages, (BufferSlot.holds_bytes ⟨0, 0⟩ _).messages hfits]
  change messagesOf ((endingStates caller 3).pipe.pool.slots 0).bytes = _
  rw [hslot, hbytes, hshort, tradePacket, packetOf, messagesOf_wire]

theorem manageable_tradePayloads :
    Manageable [restingBuy.delivery, crossingSell.delivery] tradePayloads where
  bytes := rfl
  sides := by
    rw [List.forall_mem_cons, List.forall_mem_singleton]
    change (ItchMessage.encode _).decoded.ValidSides ∧ (ItchMessage.encode _).decoded.ValidSides
    rw [ItchMessage.decoded_encode, ItchMessage.decoded_encode]
    exact ⟨.inl rfl, .inr rfl⟩
  room := MatchingEngine.liveBelow_of_length_lt (by decide)

/-- The engine takes what the matching thread comes to. -/
theorem endingStates_manageable {caller : Caller} {time : ℕ} {ref : PacketRef}
    (hpc : (endingStates caller time).pipe.matching = .walking ref) :
    ∃ deliveries, Manageable deliveries
      ((endingStates caller time).passed ++ (endingStates caller time).messages ref) := by
  match time, hpc with
  | 3, hpc =>
      obtain rfl : ⟨0, 0⟩ = ref := MatchingPc.walking.inj hpc
      rw [messages_tradePacket]
      exact ⟨_, manageable_tradePayloads⟩
  | 4, hpc | 5, hpc | 6, hpc | 7, hpc | _ + 8, hpc => cases hpc

/-- The walk over the packet comes back. -/
theorem exists_walk_tradePacket (cycles : Cycles) : ∃ caller, ∀ other,
    (endingStates other 3).walk cycles ⟨0, 0⟩ = some (caller, tradePayloads) ∧
      caller.thrown = none := by
  have hmanageable := manageable_tradePayloads
  rw [← messages_tradePacket {}, ← List.nil_append (UdpSystem.messages _ _)] at hmanageable
  obtain ⟨caller, hwalk, hnone, _⟩ := Caller.fed_nil.walk hmanageable cycles 0
  refine ⟨caller, fun other => ⟨?_, hnone⟩⟩
  rw [← messages_tradePacket {}]
  exact hwalk

theorem endingStates_step {caller : Caller} (hnone : caller.thrown = none)
    (hwalk : (endingStates caller 3).walk cycles ⟨0, 0⟩ = some (caller, tradePayloads))
    (time : ℕ) (hless : time < 8) :
    SystemStep 0 3 cycles (endingStates caller time) (endingStates caller (time + 1)) := by
  match time, hless with
  | 0, _ => exact .network _ rfl (.release endReceived 1 (.endSession 0) rfl)
  | 1, _ => exact .network _ rfl (.sentinel _ 0 _ rfl (.push _ (show 1 < 3 by decide)))
  | 2, _ => exact .matching _ rfl (.other _ nofun (.pop sentinelPushed 0 ⟨0, 0⟩ _ rfl (.pop _)))
  | 3, _ => exact .matching _ rfl (.walk ⟨0, 0⟩ caller _ rfl hwalk hnone)
  | 4, _ => exact .matching _ hnone (.other _ nofun (.release _ 0 rfl))
  | 5, _ =>
      exact .matching _ hnone (.other _ nofun (.pop _ 0 ⟨kPoolInvalid, 0⟩ [] rfl (.pop _)))
  | 6, _ => exact .matching _ hnone (.other _ nofun (.stop _ rfl))
  | 7, _ => exact .matching _ hnone (.other _ nofun (.join _ rfl rfl))

/-- When the network thread is on its way out after the end of a session, in the socket loop or
in the frame loop, every fair run in which the engine takes the messages comes to a point at which
both threads have returned, the ring is empty and no call has thrown. The ring has room for one
packet at least. -/
theorem runUdp_returns (hcapacity : 2 ≤ capacity)
    (hreached : SystemReached port numSlots capacity cycles start)
    (hgoing : start.caller.thrown = none) (hleaving : start.pipe.network.Leaving)
    (hrunning : start.pipe.network ≠ .finished)
    (run : FairSystem port (capacity - 1) cycles start) (hmanages : run.Manages) :
    ∃ time, (run.state time).pipe.matching = .done ∧
      (run.state time).pipe.network = .finished ∧ (run.state time).pipe.ring = [] ∧
      (run.state time).caller.thrown = none := by
  obtain ⟨time, hdone, hfinished, hempty⟩ :=
    (run.threads hmanages hreached hgoing).returns hcapacity hreached.pipe hleaving hrunning
  exact ⟨time, hdone, hfinished, hempty, hmanages.thrown hreached hgoing time⟩

/-- A packet waits in the ring when the session ends. -/
theorem runUdp_returns_tradePacket : ∃ run : FairSystem 0 3 (fun _ => (0, 1))
    { pipe := endReceived }, ∃ time, (run.state time).pipe.matching = .done ∧
      (run.state time).pipe.network = .finished ∧ (run.state time).pipe.ring = [] ∧
      (run.state time).caller.thrown = none := by
  obtain ⟨caller, hcaller⟩ := exists_walk_tradePacket fun _ => (0, 1)
  obtain ⟨hwalk, hnone⟩ := hcaller caller
  have hcapacity : 2 ≤ 4 := by decide
  exact ⟨_, runUdp_returns hcapacity (reached_endReceived _) rfl trivial nofun
    (.ofFinite (endingStates caller) 8 (endingStates_step hnone hwalk)
      (fun _ => endingStates_rest caller) rfl rfl)
    fun _ _ hpc => endingStates_manageable hpc⟩

end Orderbook
