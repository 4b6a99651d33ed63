/-
# The matching engine

`processMessage` parses one message, applies it to the book of its symbol and
keeps the order map in step. All books share one pool and one map. The clock
readings around a match and the wire stamp are inputs of the call: they reach
only the latency vectors.

A run feeds messages one after another. A message that throws is skipped by the
caller, who goes on with the state the throw left behind.
-/

import Orderbook.Book.OrderBook
import Orderbook.Map.FlatHashMap

namespace Orderbook

/-- Where a resting order lives. -/
structure OrderLocation where
  stockLocate : UInt16
  poolIdx : UInt32
  deriving DecidableEq, Repr, Inhabited

/-- The output buffers a caller passes to `processMessage`. -/
structure EngineScratch where
  removedRefs : List UInt64 := []
  executedOrders : List ItchOrderExecuted := []
  deriving DecidableEq, Repr

/-- The order map of the engine. -/
abbrev OrderMap := FlatHashMap UInt64 OrderLocation

/-- The engine's state. `orderBooks` has one entry for each value of its 16-bit
index, so it is a function of the index. -/
structure MatchingEngine where
  pool : OrderPool
  orderMap : OrderMap
  orderBooks : UInt16 → OrderBook
  latencies : List UInt64
  wireLatencies : List UInt64

/-- What one call leaves behind: the two mutated objects and the exception it
threw, if any. -/
structure Outcome where
  engine : MatchingEngine
  scratch : EngineScratch
  thrown : Option String := none

/-- The clock readings of one call: the wire stamp passed in, and the time stamp
counter before and after matching. -/
structure Clock where
  tWireCycles : UInt64
  startCycles : UInt64
  endCycles : UInt64
  deriving DecidableEq, Repr

namespace MatchingEngine

/-- Slots of the order map. -/
def orderMapCapacity : ℕ := 8388608

/-- The constructor. -/
def initial : MatchingEngine where
  pool := {}
  orderMap := FlatHashMap.create .identity orderMapCapacity
  orderBooks _ := {}
  latencies := []
  wireLatencies := []

/-- Write one book back. -/
def setBook (engine : MatchingEngine) (stockLocate : UInt16) (pool : OrderPool)
    (book : OrderBook) : MatchingEngine :=
  { engine with
    pool
    orderBooks := fun other => if other = stockLocate then book else engine.orderBooks other }

/-- `orderBooks[stockLocate].removeByIndex(idx)`. -/
def removeFromBook (engine : MatchingEngine) (stockLocate : UInt16) (idx : UInt32) :
    MatchingEngine :=
  let (pool, book) := (engine.orderBooks stockLocate).removeByIndex engine.pool idx
  engine.setBook stockLocate pool book

/-- Drop the references of filled orders from the map. -/
def eraseRefs : OrderMap → List UInt64 → Option OrderMap
  | map, [] => some map
  | map, ref :: refs => (map.erase .identity ref).bind fun map => eraseRefs map refs

/-- The map updates after matching: drop the filled orders, then record where the
remainder rests. -/
def recordMatch (map : OrderMap) (ref : UInt64) (stockLocate : UInt16) (handled : Handled) :
    Option OrderMap :=
  (eraseRefs map handled.removedRefs).bind fun map =>
    if handled.restingIdx ≠ INVALID_INDEX then
      map.insert .identity ref { stockLocate, poolIdx := handled.restingIdx }
    else some map

/-- Match an order in its book and update the map, with freshly cleared output
buffers. An exception leaves the engine as it was. -/
def submit (engine : MatchingEngine) (stockLocate : UInt16) (order : Order) (ref : UInt64) :
    Option Outcome :=
  ((engine.orderBooks stockLocate).handleOrder engine.pool order [] []).bind fun
    | .error message => some { engine, scratch := {}, thrown := some message }
    | .ok handled =>
        (recordMatch engine.orderMap ref stockLocate handled).map fun orderMap =>
          { engine := { engine.setBook stockLocate handled.pool handled.book with orderMap }
            scratch :=
              { removedRefs := handled.removedRefs
                executedOrders := handled.executedOrders } }

/-- Record how long an add took, unless it threw. -/
def recordLatency (clock : Clock) (outcome : Outcome) : Outcome :=
  match outcome.thrown with
  | some _ => outcome
  | none =>
      { outcome with
        engine :=
          { outcome.engine with
            latencies := outcome.engine.latencies ++ [clock.endCycles - clock.startCycles]
            wireLatencies :=
              if clock.tWireCycles ≠ 0 then
                outcome.engine.wireLatencies ++ [clock.startCycles - clock.tWireCycles]
              else outcome.engine.wireLatencies } }

/-- `case 'A'` and `case 'F'`. -/
def processAdd (engine : MatchingEngine) (stockLocate : UInt16) (order : Order)
    (clock : Clock) : Option Outcome :=
  (engine.submit stockLocate order order.ref).map (recordLatency clock)

/-- `case 'D'`. -/
def processDelete (engine : MatchingEngine) (scratch : EngineScratch)
    (message : DeleteOrder) : Option Outcome :=
  let ref := joinRef message.orderReferenceNumberHigh message.orderReferenceNumberLow
  (engine.orderMap.find .identity ref).bind fun
    | none => some { engine, scratch }
    | some found =>
        let engine := engine.removeFromBook found.stockLocate found.poolIdx
        (engine.orderMap.erase .identity ref).map fun orderMap =>
          { engine := { engine with orderMap }, scratch }

/-- `case 'E'`, `case 'C'` and `case 'X'`. -/
def processExecuted (engine : MatchingEngine) (scratch : EngineScratch)
    (message : OrderExecutedMsg) : Option Outcome :=
  (engine.orderMap.find .identity message.orderRef).bind fun
    | none => some { engine, scratch }
    | some loc =>
        if message.shares ≥ (engine.pool.node loc.poolIdx).order.shares then
          let engine := engine.removeFromBook loc.stockLocate loc.poolIdx
          (engine.orderMap.erase .identity message.orderRef).map fun orderMap =>
            { engine := { engine with orderMap }, scratch }
        else
          let pool := engine.pool.modify loc.poolIdx fun node =>
            { node with order := { node.order with shares := node.order.shares - message.shares } }
          some { engine := { engine with pool }, scratch }

/-- The order a replace submits: new reference, price and quantity, and the side
of the original. -/
def replacementOrder (message : OrderReplaceMsg) (side : UInt8) : Order where
  orderReferenceNumberHigh := (message.newOrderRef >>> 32).toUInt32
  orderReferenceNumberLow := message.newOrderRef.toUInt32
  shares := message.shares
  price := message.price
  buySellIndicator := side

/-- `case 'U'`. -/
def processReplace (engine : MatchingEngine) (scratch : EngineScratch)
    (message : OrderReplaceMsg) : Option Outcome :=
  (engine.orderMap.find .identity message.originalOrderRef).bind fun
    | none => some { engine, scratch }
    | some loc =>
        let side := (engine.pool.node loc.poolIdx).order.buySellIndicator
        let engine := engine.removeFromBook loc.stockLocate loc.poolIdx
        (engine.orderMap.erase .identity message.originalOrderRef).bind fun orderMap =>
          let engine := { engine with orderMap }
          engine.submit loc.stockLocate (replacementOrder message side) message.newOrderRef

/-- The handlers behind the message type switch. -/
def apply (engine : MatchingEngine) (scratch : EngineScratch) (clock : Clock) :
    ItchMessage → Option Outcome
  | .add stockLocate order => engine.processAdd stockLocate order clock
  | .delete message => engine.processDelete scratch message
  | .executed message => engine.processExecuted scratch message
  | .replace message => engine.processReplace scratch message
  | .ignored => some { engine, scratch }

/-- Process one message. The length the caller passes is not read. -/
def processMessage (engine : MatchingEngine) (data : Memory) (_messageLength : UInt16)
    (scratch : EngineScratch) (clock : Clock) : Option Outcome :=
  engine.apply scratch clock (ItchMessage.decode data)

/-- A submission throws and writes nothing, or it writes one book and the map. -/
theorem submit_cases {engine : MatchingEngine} {locate : UInt16} {order : Order} {ref : UInt64}
    {outcome : Outcome} (hsubmit : engine.submit locate order ref = some outcome) :
    (∃ message,
      (engine.orderBooks locate).handleOrder engine.pool order [] [] = some (.error message) ∧
      outcome = { engine, scratch := {}, thrown := some message }) ∨
    ∃ handled orderMap,
      (engine.orderBooks locate).handleOrder engine.pool order [] [] = some (.ok handled) ∧
      recordMatch engine.orderMap ref locate handled = some orderMap ∧
      outcome =
        { engine := { engine.setBook locate handled.pool handled.book with orderMap }
          scratch :=
            { removedRefs := handled.removedRefs, executedOrders := handled.executedOrders } } := by
  obtain ⟨answer, hanswer, hrest⟩ := Option.bind_eq_some_iff.mp hsubmit
  cases answer with
  | error message =>
      cases hrest
      exact .inl ⟨message, hanswer, rfl⟩
  | ok handled =>
      obtain ⟨orderMap, hrecord, houtcome⟩ := Option.map_eq_some_iff.mp hrest
      exact .inr ⟨handled, orderMap, hanswer, hrecord, houtcome.symm⟩

/-- What a message may do: nothing; take a known order out of its book and the map; write the
shares of a known order; submit an order; or take a known order out and submit another. -/
inductive Acts (engine : MatchingEngine) : ItchMessage → Outcome → Prop
  | idle {message : ItchMessage} (scratch : EngineScratch) :
      Acts engine message { engine, scratch }
  | withdraw {message : ItchMessage} {ref : UInt64} {loc : OrderLocation} {orderMap : OrderMap}
      (scratch : EngineScratch) (hfind : engine.orderMap.find .identity ref = some (some loc))
      (herase : engine.orderMap.erase .identity ref = some orderMap) :
      Acts engine message
        { engine := { engine.removeFromBook loc.stockLocate loc.poolIdx with orderMap }, scratch }
  | reduce {message : OrderExecutedMsg} {loc : OrderLocation} (scratch : EngineScratch)
      (hfind : engine.orderMap.find .identity message.orderRef = some (some loc)) :
      Acts engine (.executed message)
        { engine :=
            { engine with
              pool := engine.pool.modify loc.poolIdx fun node =>
                { node with
                  order := { node.order with shares := node.order.shares - message.shares } } }
          scratch }
  | submit {locate : UInt16} {order : Order} {clock : Clock} {outcome : Outcome}
      (hsubmit : engine.submit locate order order.ref = some outcome) :
      Acts engine (.add locate order) (recordLatency clock outcome)
  | replace {message : OrderReplaceMsg} {loc : OrderLocation} {orderMap : OrderMap}
      {outcome : Outcome}
      (hfind : engine.orderMap.find .identity message.originalOrderRef = some (some loc))
      (herase : engine.orderMap.erase .identity message.originalOrderRef = some orderMap)
      (hsubmit : submit { engine.removeFromBook loc.stockLocate loc.poolIdx with orderMap }
        loc.stockLocate (replacementOrder message
          (engine.pool.node loc.poolIdx).order.buySellIndicator) message.newOrderRef =
            some outcome) :
      Acts engine (.replace message) outcome

theorem acts_of_apply {engine : MatchingEngine} {scratch : EngineScratch} {clock : Clock}
    {message : ItchMessage} {outcome : Outcome}
    (happly : engine.apply scratch clock message = some outcome) :
    engine.Acts message outcome := by
  cases message with
  | add locate order =>
      obtain ⟨submitted, hsubmit, rfl⟩ := Option.map_eq_some_iff.mp happly
      exact .submit hsubmit
  | delete message =>
      obtain ⟨entry, hfind, hrest⟩ := Option.bind_eq_some_iff.mp happly
      cases entry with
      | none =>
          cases hrest
          exact .idle scratch
      | some loc =>
          obtain ⟨orderMap, herase, rfl⟩ := Option.map_eq_some_iff.mp hrest
          exact .withdraw scratch hfind herase
  | executed message =>
      obtain ⟨entry, hfind, hrest⟩ := Option.bind_eq_some_iff.mp happly
      cases entry with
      | none =>
          cases hrest
          exact .idle scratch
      | some loc =>
          dsimp only at hrest
          split at hrest
          · obtain ⟨orderMap, herase, rfl⟩ := Option.map_eq_some_iff.mp hrest
            exact .withdraw scratch hfind herase
          · cases hrest
            exact .reduce scratch hfind
  | replace message =>
      obtain ⟨entry, hfind, hrest⟩ := Option.bind_eq_some_iff.mp happly
      cases entry with
      | none =>
          cases hrest
          exact .idle scratch
      | some loc =>
          obtain ⟨orderMap, herase, hsubmit⟩ := Option.bind_eq_some_iff.mp hrest
          exact .replace hfind herase hsubmit
  | ignored =>
      cases happly
      exact .idle scratch

end MatchingEngine

end Orderbook
