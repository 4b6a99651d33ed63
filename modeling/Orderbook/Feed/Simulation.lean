/-
# Callers of the engine

Two loops pass messages to an engine: the one over a file and the one over packets.
They call it at different times and with other bytes behind the messages. Neither
matters for the books: the clock readings reach only the latency vectors, the output
buffers are written and never read, and a message is decoded from its own bytes.

So a caller that passes on the messages of a run ends with the books of that run,
and it passes all of them on, since no message of a file with valid sides throws as
long as the order map has room.
-/

import Orderbook.Engine.Errors
import Orderbook.Engine.Reachability
import Orderbook.Feed.Consumer

namespace Orderbook

open Orderbook.Math

/-- Outcomes that differ in the latencies and in the output buffers only. -/
structure Outcome.SameState (outcome outcome' : Outcome) : Prop where
  engine : outcome.engine.SameState outcome'.engine
  thrown : outcome.thrown = outcome'.thrown

namespace MatchingEngine

variable {engine engine' : MatchingEngine}

theorem sameState_recordLatency {outcome outcome' : Outcome} (hsame : outcome.SameState outcome')
    (clock clock' : Clock) :
    (recordLatency clock outcome).SameState (recordLatency clock' outcome') := by
  obtain ⟨_, _, thrown⟩ := outcome
  obtain ⟨_, _, thrown'⟩ := outcome'
  obtain ⟨⟨hpool, hmap, hbooks⟩, hthrown⟩ := hsame
  dsimp only at hthrown
  subst hthrown
  cases thrown with
  | none => exact ⟨⟨hpool, hmap, hbooks⟩, rfl⟩
  | some message => exact ⟨⟨hpool, hmap, hbooks⟩, rfl⟩

/-- Engines in the same state differ in their latencies only. -/
theorem SameState.exists_eq (hsame : engine.SameState engine') :
    ∃ latencies wireLatencies, engine' = { engine with latencies, wireLatencies } := by
  obtain ⟨_, _, _, latencies, wireLatencies⟩ := engine'
  obtain ⟨rfl, rfl, rfl⟩ := hsame
  exact ⟨latencies, wireLatencies, rfl⟩

theorem SameState.symm (hsame : engine.SameState engine') : engine'.SameState engine :=
  ⟨hsame.pool.symm, hsame.orderMap.symm, hsame.orderBooks.symm⟩

theorem SameState.trans {engine'' : MatchingEngine} (hsame : engine.SameState engine')
    (hsame' : engine'.SameState engine'') : engine.SameState engine'' :=
  ⟨hsame.pool.trans hsame'.pool, hsame.orderMap.trans hsame'.orderMap,
    hsame.orderBooks.trans hsame'.orderBooks⟩

theorem SameState.submit (hsame : engine.SameState engine') (locate : UInt16) (order : Order)
    (ref : UInt64) :
    Option.Rel Outcome.SameState (engine.submit locate order ref)
      (engine'.submit locate order ref) := by
  obtain ⟨latencies, wireLatencies, rfl⟩ := hsame.exists_eq
  unfold MatchingEngine.submit
  dsimp only
  cases (engine.orderBooks locate).handleOrder engine.pool order [] [] with
  | none => exact .none
  | some handled =>
      cases handled with
      | error message => exact .some ⟨hsame, rfl⟩
      | ok handled =>
          simp only [Option.bind_some]
          cases recordMatch engine.orderMap ref locate handled with
          | none => exact .none
          | some orderMap => exact .some ⟨⟨rfl, rfl, rfl⟩, rfl⟩

theorem SameState.processAdd (hsame : engine.SameState engine') (locate : UInt16) (order : Order)
    (clock clock' : Clock) :
    Option.Rel Outcome.SameState (engine.processAdd locate order clock)
      (engine'.processAdd locate order clock') := by
  have hsubmit := hsame.submit locate order order.ref
  unfold MatchingEngine.processAdd
  generalize engine.submit locate order order.ref = submitted at hsubmit ⊢
  generalize engine'.submit locate order order.ref = submitted' at hsubmit ⊢
  cases hsubmit with
  | none => exact .none
  | some houtcome => exact .some (sameState_recordLatency houtcome clock clock')

theorem SameState.processDelete (hsame : engine.SameState engine')
    (scratch scratch' : EngineScratch) (message : DeleteOrder) :
    Option.Rel Outcome.SameState (engine.processDelete scratch message)
      (engine'.processDelete scratch' message) := by
  obtain ⟨latencies, wireLatencies, rfl⟩ := hsame.exists_eq
  unfold MatchingEngine.processDelete
  dsimp only
  cases engine.orderMap.find .identity
      (joinRef message.orderReferenceNumberHigh message.orderReferenceNumberLow) with
  | none => exact .none
  | some entry =>
      cases entry with
      | none => exact .some ⟨hsame, rfl⟩
      | some found =>
          simp only [Option.bind_some, removeFromBook, setBook]
          cases engine.orderMap.erase .identity
              (joinRef message.orderReferenceNumberHigh message.orderReferenceNumberLow) with
          | none => exact .none
          | some orderMap => exact .some ⟨⟨rfl, rfl, rfl⟩, rfl⟩

theorem SameState.processExecuted (hsame : engine.SameState engine')
    (scratch scratch' : EngineScratch) (message : OrderExecutedMsg) :
    Option.Rel Outcome.SameState (engine.processExecuted scratch message)
      (engine'.processExecuted scratch' message) := by
  obtain ⟨latencies, wireLatencies, rfl⟩ := hsame.exists_eq
  unfold MatchingEngine.processExecuted
  dsimp only
  cases engine.orderMap.find .identity message.orderRef with
  | none => exact .none
  | some entry =>
      cases entry with
      | none => exact .some ⟨hsame, rfl⟩
      | some loc =>
          simp only [Option.bind_some, removeFromBook, setBook]
          split
          · cases engine.orderMap.erase .identity message.orderRef with
            | none => exact .none
            | some orderMap => exact .some ⟨⟨rfl, rfl, rfl⟩, rfl⟩
          · exact .some ⟨⟨rfl, rfl, rfl⟩, rfl⟩

theorem SameState.processReplace (hsame : engine.SameState engine')
    (scratch scratch' : EngineScratch) (message : OrderReplaceMsg) :
    Option.Rel Outcome.SameState (engine.processReplace scratch message)
      (engine'.processReplace scratch' message) := by
  obtain ⟨latencies, wireLatencies, rfl⟩ := hsame.exists_eq
  unfold MatchingEngine.processReplace
  dsimp only
  cases engine.orderMap.find .identity message.originalOrderRef with
  | none => exact .none
  | some entry =>
      cases entry with
      | none => exact .some ⟨hsame, rfl⟩
      | some loc =>
          simp only [Option.bind_some, removeFromBook, setBook]
          cases engine.orderMap.erase .identity message.originalOrderRef with
          | none => exact .none
          | some orderMap =>
              simp only [Option.bind_some]
              apply SameState.submit
              exact ⟨rfl, rfl, rfl⟩

/-- A call on engines in the same state leaves them in the same state, whatever the
clocks and the buffers. -/
theorem SameState.apply (hsame : engine.SameState engine') (scratch scratch' : EngineScratch)
    (clock clock' : Clock) (message : ItchMessage) :
    Option.Rel Outcome.SameState (engine.apply scratch clock message)
      (engine'.apply scratch' clock' message) := by
  cases message with
  | add locate order => exact hsame.processAdd locate order clock clock'
  | delete message => exact hsame.processDelete scratch scratch' message
  | executed message => exact hsame.processExecuted scratch scratch' message
  | replace message => exact hsame.processReplace scratch scratch' message
  | ignored => exact .some ⟨hsame, rfl⟩

end MatchingEngine

/-- A message is decoded from its own bytes, wherever it lies. -/
theorem FullMessage.decode_of_slice (message : FullMessage) {mem : Memory}
    (hbytes : mem.slice 0 message.bytes.length = message.bytes) :
    ItchMessage.decode mem = message.decoded := by
  have hbyte : ∀ i < message.bytes.length, message.memory i = mem i := by
    intro i hi
    have hget := congrArg (fun bytes => bytes[i]?) hbytes
    rw [FullMessage.memory, Memory.ofList, List.getD_eq_getElem?_getD, ← hget]
    simp [Memory.slice, hi]
  have hhead : message.memory 0 = message.bytes.headD 0 := by
    rw [FullMessage.memory, Memory.ofList]
    cases message.bytes <;> rfl
  symm
  apply ItchMessage.decode_congr
  intro i hi
  rw [hhead] at hi
  exact hbyte i (hi.trans_le message.full)

open MatchingEngine in
/-- A caller that passes on the messages of a run makes the calls of the run. -/
theorem Caller.feed_of_runList {state state' : MatchingEngine × EngineScratch}
    {deliveries : List Delivery} {trace : List Transition}
    (hrun : runList deliver state deliveries = some (state', trace))
    (hquiet : ∀ transition ∈ trace, transition.outcome.thrown = none) (caller : Caller)
    (hsame : state.1.SameState caller.engine) (hthrown : caller.thrown = none)
    {views : List (Memory × UInt16)}
    (hviews : views.map (fun view => view.1.slice 0 view.2.toNat) =
      deliveries.map fun delivery => delivery.message.bytes) (clock : ℕ → Clock) :
    ∃ caller' : Caller, caller.feed clock views =
        some (caller', views.map fun view => .ofMemory view.1 0 view.2) ∧
      caller'.thrown = none ∧ state'.1.SameState caller'.engine := by
  induction deliveries generalizing state trace caller views with
  | nil =>
      rw [List.map_nil, List.map_eq_nil_iff] at hviews
      subst hviews
      cases hrun
      exact ⟨caller, rfl, hthrown, hsame⟩
  | cons delivery deliveries ih =>
      obtain ⟨view, views, rfl, hview, hviews⟩ := List.map_eq_cons_iff.mp hviews
      obtain ⟨⟨next, transition⟩, hdeliver, hrest⟩ := Option.bind_eq_some_iff.mp hrun
      obtain ⟨⟨last, later⟩, hlater, hresult⟩ := Option.map_eq_some_iff.mp hrest
      cases hresult
      obtain ⟨outcome, hprocess, houtcome⟩ := Option.map_eq_some_iff.mp hdeliver
      cases houtcome
      have happly : state.1.apply state.2 delivery.clock delivery.decoded = some outcome := hprocess
      have hdecode : ItchMessage.decode view.1 = delivery.decoded := by
        have hbytes : view.1.slice 0 view.2.toNat = delivery.message.bytes := hview
        apply delivery.message.decode_of_slice
        rw [← hbytes, Memory.length_slice]
      have hrel := hsame.apply state.2 caller.scratch delivery.clock (clock caller.messageCount)
        delivery.decoded
      rw [happly] at hrel
      cases happly' : caller.engine.apply caller.scratch (clock caller.messageCount)
          delivery.decoded with
      | none =>
          rw [happly'] at hrel
          cases hrel
      | some answered =>
          rw [happly'] at hrel
          cases hrel with
          | some hsame' =>
              have hnone : answered.thrown = none := by
                rw [← hsame'.thrown]
                exact hquiet _ List.mem_cons_self
              set called : Caller :=
                ⟨answered.engine, answered.scratch, caller.messageCount + 1, none⟩ with hcalled
              have hcall : caller.call (clock caller.messageCount) view.1 view.2 = some called := by
                rw [Caller.call, processMessage, hdecode, happly', Option.map_some, hnone]
              have hengine : outcome.engine.SameState called.engine := hsame'.engine
              obtain ⟨caller', hfeed, hnone', hlast⟩ := ih hlater
                (fun other hother => hquiet other (List.mem_cons_of_mem _ hother))
                called hengine rfl hviews
              refine ⟨caller', ?_, hnone', hlast⟩
              rw [Caller.feed, hcall, Option.bind_some, if_neg (by simp [hcalled]), hfeed]
              rfl

end Orderbook
