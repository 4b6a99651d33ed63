/-
# Matching an order against a book

An incoming order is matched level by level against the opposite side, and what
is left of it rests on its own side. The buy and the sell handler are the same
two nested loops with the sides and the price test exchanged, so the loops are
written once over the opposite side and a stop test.

The loops write through a level pointer while they run: the head of the level is
popped inline and its slot freed, and only a drained level is handed back to the
side. Both loops are `iterate` loops; `none` is divergence.
-/

import Orderbook.Book.LadderSide
import Orderbook.Math.Iterate

namespace Orderbook

open Orderbook.Math

/-- The execution record reported for every match. -/
structure ItchOrderExecuted where
  message_type : UInt8
  stock_locate : UInt16
  tracking_number : UInt16
  timestamp_high : UInt16
  timestamp_low : UInt32
  order_reference_number : UInt64
  executed_shares : UInt32
  match_number : UInt64
  deriving DecidableEq, Repr

/-- The record of one match against the resting order `ref`. The fields that the
book does not know are filled with `-1`. -/
def ItchOrderExecuted.ofMatch (ref : UInt64) (executedShares : UInt32) :
    ItchOrderExecuted where
  message_type := 'E'.toUInt8
  stock_locate := 0xFFFF
  tracking_number := 0xFFFF
  timestamp_high := 0xFFFF
  timestamp_low := 0xFFFFFFFF
  order_reference_number := ref
  executed_shares := executedShares
  match_number := 0xFFFFFFFFFFFFFFFF

/-- A book is its two sides; the pool is shared and passed along. -/
structure OrderBook where
  bids : LadderSide := { bid := true }
  asks : LadderSide := { bid := false }
  deriving DecidableEq, Repr

/-- The variables the matching loops assign: the pool, the side matched against,
the incoming order and the two output vectors. -/
structure MatchState where
  pool : OrderPool
  side : LadderSide
  order : Order
  removedRefs : List UInt64
  executedOrders : List ItchOrderExecuted
  deriving DecidableEq, Repr

/-- The inline head pop of the matching loops. -/
def popHead (pool : OrderPool) (level : Level) : OrderPool × Level :=
  let node := pool.node level.head
  if node.next ≠ INVALID_INDEX then
    (pool.modify node.next fun after => { after with prev := INVALID_INDEX },
      { level with head := node.next })
  else (pool, { head := node.next, tail := INVALID_INDEX })

namespace MatchState

/-- The level under a pointer of the matched side. -/
def levelAt (state : MatchState) (ptr : LevelPtr) : Level := state.side.deref ptr

/-- One pass of the inner loop: execute against the head of the level, and free
the head when it is filled. -/
def fillHead (ptr : LevelPtr) (state : MatchState) : MatchState :=
  let level := state.levelAt ptr
  let resting := (state.pool.node level.head).order
  let executedShares := min state.order.shares resting.shares
  let pool := state.pool.modify level.head fun node =>
    { node with order := { node.order with shares := node.order.shares - executedShares } }
  let state :=
    { state with
      pool
      order := { state.order with shares := state.order.shares - executedShares }
      executedOrders := state.executedOrders ++ [.ofMatch resting.ref executedShares] }
  if (pool.node level.head).order.shares = 0 then
    let filledIdx := level.head
    let (pool, level) := popHead pool level
    { state with
      pool := pool.free filledIdx
      side := state.side.assign ptr level
      removedRefs := state.removedRefs ++ [resting.ref] }
  else state

/-- The inner loop: drain the level, or the incoming order. -/
def matchLevel (ptr : LevelPtr) : MatchState → Option MatchState :=
  loopWhile
    (fun state => state.order.shares > 0 && (state.levelAt ptr).head ≠ INVALID_INDEX)
    (fun state => some (fillHead ptr state))

/-- After the inner loop a drained level is retired. -/
def retire (bestPrice : UInt32) (ptr : LevelPtr) (state : MatchState) : MatchState :=
  if (state.levelAt ptr).head = INVALID_INDEX then
    { state with side := state.side.removeEmptyBest bestPrice }
  else state

/-- One pass of the outer loop: serve the best level of the side, or leave when there is none
or `stops` rejects its price. -/
def outerPass (stops : UInt32 → UInt32 → Bool) (state : MatchState) :
    Option (MatchState ⊕ MatchState) :=
  if state.order.shares > 0 then
    match state.side.bestLevel with
    | none => some (.inr state)
    | some (bestPrice, ptr) =>
        if stops bestPrice state.order.price then some (.inr state)
        else (matchLevel ptr state).map fun state => .inl (retire bestPrice ptr state)
  else some (.inr state)

/-- The outer loop: match the best level of the side as long as the order has
shares left and `stops` does not reject the best price. -/
def matchSide (stops : UInt32 → UInt32 → Bool) : MatchState → Option MatchState :=
  iterate (outerPass stops)

/-- A pass of the outer loop leaves with the state it found, or serves the best level. -/
theorem outerPass_cases {stops : UInt32 → UInt32 → Bool} {state : MatchState}
    {answer : MatchState ⊕ MatchState} (hpass : state.outerPass stops = some answer) :
    answer = .inr state ∨ ∃ price ptr served, state.side.bestLevel = some (price, ptr) ∧
      matchLevel ptr state = some served ∧ answer = .inl (served.retire price ptr) := by
  unfold outerPass at hpass
  split at hpass
  · split at hpass
    · cases hpass
      exact .inl rfl
    · rename_i price ptr hbest
      split at hpass
      · cases hpass
        exact .inl rfl
      · obtain ⟨served, hserved, rfl⟩ := Option.map_eq_some_iff.mp hpass
        exact .inr ⟨price, ptr, served, hbest, hserved, rfl⟩
  · cases hpass
    exact .inl rfl

section Keeping

variable {stops : UInt32 → UInt32 → Bool} {start : MatchState} (holds : MatchState → Prop)

/-- What serving a level keeps holds in every pass of the outer loop. -/
theorem keeps_of_visits
    (hserve : ∀ state price ptr served, holds state →
      state.side.bestLevel = some (price, ptr) → matchLevel ptr state = some served →
        holds (served.retire price ptr))
    (hstart : holds start) {state : MatchState}
    (hvisits : Visits (outerPass stops) start state) : holds state := by
  refine hvisits.keeps holds (fun state next hstate hcontinue => ?_) hstart
  rcases outerPass_cases hcontinue with hleave | ⟨price, ptr, served, hbest, hserved, hnext⟩
  · cases hleave
  · cases hnext
    exact hserve state price ptr served hstate hbest hserved

/-- What serving a level keeps holds when the outer loop ends. -/
theorem keeps_of_matchSide
    (hserve : ∀ state price ptr served, holds state →
      state.side.bestLevel = some (price, ptr) → matchLevel ptr state = some served →
        holds (served.retire price ptr))
    (hstart : holds start) {result : MatchState}
    (hmatch : matchSide stops start = some result) : holds result := by
  unfold matchSide at hmatch
  obtain ⟨last, hvisits, hleave⟩ := exists_visits_of_iterate hmatch
  have hlast := keeps_of_visits holds hserve hstart hvisits
  rcases outerPass_cases hleave with hsame | ⟨_, _, _, _, _, hnever⟩
  · cases hsame
    exact hlast
  · cases hnever

end Keeping

end MatchState

/-- What handling an order hands back: the pool, the book, the slot of the rested
remainder and the two output vectors. -/
structure Handled where
  pool : OrderPool
  book : OrderBook
  restingIdx : UInt32
  removedRefs : List UInt64
  executedOrders : List ItchOrderExecuted
  deriving DecidableEq, Repr

/-- Rest the unfilled remainder of an order on its own side. -/
def restRemainder (pool : OrderPool) (own : LadderSide) (order : Order) :
    UInt32 × OrderPool × LadderSide :=
  if order.shares > 0 then
    let (restingIdx, pool) := pool.allocate order
    (restingIdx, own.add pool order.price restingIdx)
  else (INVALID_INDEX, pool, own)

namespace OrderBook

def handleBuyOrder (book : OrderBook) (pool : OrderPool) (buyOrder : Order)
    (removedRefs : List UInt64) (executedOrders : List ItchOrderExecuted) :
    Option Handled :=
  (MatchState.matchSide (fun bestPrice limit => bestPrice > limit)
    { pool, side := book.asks, order := buyOrder, removedRefs, executedOrders }).map
    fun state =>
      let (restingIdx, pool, bids) := restRemainder state.pool book.bids state.order
      { pool
        book := { bids, asks := state.side }
        restingIdx
        removedRefs := state.removedRefs
        executedOrders := state.executedOrders }

def handleSellOrder (book : OrderBook) (pool : OrderPool) (sellOrder : Order)
    (removedRefs : List UInt64) (executedOrders : List ItchOrderExecuted) :
    Option Handled :=
  (MatchState.matchSide (fun bestPrice limit => bestPrice < limit)
    { pool, side := book.bids, order := sellOrder, removedRefs, executedOrders }).map
    fun state =>
      let (restingIdx, pool, asks) := restRemainder state.pool book.asks state.order
      { pool
        book := { bids := state.side, asks }
        restingIdx
        removedRefs := state.removedRefs
        executedOrders := state.executedOrders }

/-- Unlink the order at a pool index from its level and free the slot. The side
is taken from the stored order. -/
def removeByIndex (book : OrderBook) (pool : OrderPool) (idx : UInt32) :
    OrderPool × OrderBook :=
  let order := (pool.node idx).order
  if order.buySellIndicator = buyByte then
    let (pool, bids) := book.bids.remove pool order.price idx
    (pool.free idx, { book with bids })
  else
    let (pool, asks) := book.asks.remove pool order.price idx
    (pool.free idx, { book with asks })

/-- Dispatch on the side byte. An invalid byte throws before anything is
written. -/
def handleOrder (book : OrderBook) (pool : OrderPool) (order : Order)
    (removedRefs : List UInt64) (executedOrders : List ItchOrderExecuted) :
    Option (Except String Handled) :=
  if order.buySellIndicator = buyByte then
    (book.handleBuyOrder pool order removedRefs executedOrders).map .ok
  else if order.buySellIndicator = sellByte then
    (book.handleSellOrder pool order removedRefs executedOrders).map .ok
  else some (.error "Invalid buy/sell indicator")

end OrderBook

end Orderbook
