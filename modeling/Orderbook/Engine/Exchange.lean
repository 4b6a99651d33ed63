/-
# A price-time-priority exchange

What the engine is for, said without arenas, chains or maps. An exchange is the
list of resting orders of all symbols in order of arrival, with unbounded prices
and quantities. An incoming order executes against the best crossing order of the
other side of its symbol, the earliest one at equal prices, until it is filled or
nothing crosses; what is left of it joins the end of the list.

Orders are addressed by their reference numbers. The list keeps the order of
arrival, so a position in it is an arrival rank.
-/

import Orderbook.Itch.Parser
import Orderbook.Math.SweepLaws

namespace Orderbook

open Orderbook.Math

/-- The direction of an order. -/
inductive Side
  | buy
  | sell
  deriving DecidableEq, Repr

namespace Side

/-- The other direction. -/
def opposite : Side → Side
  | buy => sell
  | sell => buy

/-- The direction a side byte stands for. -/
def ofByte (byte : UInt8) : Option Side :=
  if byte = buyByte then some buy else if byte = sellByte then some sell else none

/-- Whether an incoming order with a limit executes at a resting price. -/
def crosses (side : Side) (limit price : ℕ) : Bool :=
  match side with
  | buy => price ≤ limit
  | sell => limit ≤ price

/-- Whether an incoming order prefers one resting price to another: the lowest ask
for a buy, the highest bid for a sell. -/
def prefers (side : Side) (price other : ℕ) : Bool :=
  match side with
  | buy => price ≤ other
  | sell => other ≤ price

end Side

/-- An order on the exchange. -/
structure ExchangeOrder where
  locate : UInt16
  ref : UInt64
  side : Side
  price : ℕ
  shares : ℕ
  deriving DecidableEq, Repr

namespace ExchangeOrder

/-- How an incoming order is matched. -/
def rules (incoming : ExchangeOrder) : Rules ExchangeOrder UInt64 where
  eligible resting :=
    resting.locate = incoming.locate ∧ resting.side ≠ incoming.side ∧
      incoming.side.crosses incoming.price resting.price
  ahead first second := incoming.side.prefers first.price second.price
  quantity := shares
  reduce amount resting := { resting with shares := resting.shares - amount }
  tag := ref

theorem proper_rules (incoming : ExchangeOrder) : incoming.rules.Proper :=
  ⟨fun _ _ => rfl, fun _ _ _ => rfl⟩

end ExchangeOrder

/-- What a match reports: the executions in order, and the orders they filled. -/
structure Report where
  executed : List (UInt64 × ℕ)
  removed : List UInt64
  deriving DecidableEq, Repr

namespace Report

/-- The report of a match. -/
def ofFills (fills : List (ExchangeOrder × ℕ)) : Report where
  executed := fills.map fun fill => (fill.1.ref, fill.2)
  removed := (fills.filter fun fill => fill.2 = fill.1.shares).map fun fill => fill.1.ref

end Report

/-- The resting orders of all symbols in order of arrival. -/
structure Exchange where
  orders : List ExchangeOrder := []
  deriving DecidableEq, Repr

namespace Exchange

/-- References tell the resting orders apart. -/
def Distinct (exchange : Exchange) : Prop := (exchange.orders.map ExchangeOrder.ref).Nodup

/-- The orders and the unfilled demand after an order was matched. -/
def matched (exchange : Exchange) (order : ExchangeOrder) : Sweep ExchangeOrder :=
  order.rules.sweep { items := exchange.orders, demand := order.shares }

/-- Match an order and rest what is left of it. -/
def submit (order : ExchangeOrder) (exchange : Exchange) : Exchange where
  orders :=
    if (exchange.matched order).demand = 0 then (exchange.matched order).items
    else (exchange.matched order).items ++
      [{ order with shares := (exchange.matched order).demand }]

/-- The resting order with a reference. -/
def find (exchange : Exchange) (ref : UInt64) : Option ExchangeOrder :=
  exchange.orders.find? fun order => order.ref = ref

theorem mem_of_find {exchange : Exchange} {ref : UInt64} {order : ExchangeOrder}
    (hfind : exchange.find ref = some order) : order ∈ exchange.orders ∧ order.ref = ref := by
  have hfound := List.find?_some hfind
  exact ⟨List.mem_of_find?_eq_some hfind, of_decide_eq_true hfound⟩

theorem Distinct.find_eq_some {exchange : Exchange} (hdistinct : exchange.Distinct)
    {order : ExchangeOrder} (hmem : order ∈ exchange.orders) :
    exchange.find order.ref = some order := by
  cases hfind : exchange.find order.ref with
  | none => exact absurd (decide_eq_true rfl) (List.find?_eq_none.mp hfind order hmem)
  | some other =>
      obtain ⟨hother, href⟩ := mem_of_find hfind
      rw [List.inj_on_of_nodup_map hdistinct hother hmem href]

/-- Take an order out. -/
def remove (ref : UInt64) (exchange : Exchange) : Exchange where
  orders := exchange.orders.filter fun order => order.ref ≠ ref

/-- Take shares from a resting order. -/
def subtract (ref : UInt64) (amount : ℕ) (exchange : Exchange) : Exchange where
  orders := exchange.orders.map fun order =>
    if order.ref = ref then { order with shares := order.shares - amount } else order

theorem Distinct.remove {exchange : Exchange} (hdistinct : exchange.Distinct) (ref : UInt64) :
    (exchange.remove ref).Distinct :=
  hdistinct.sublist (List.filter_sublist.map _)

theorem Distinct.subtract {exchange : Exchange} (hdistinct : exchange.Distinct) (ref : UInt64)
    (amount : ℕ) :
    (exchange.subtract ref amount).Distinct := by
  unfold Distinct Exchange.subtract
  rw [List.map_map]
  have hrefs : (ExchangeOrder.ref ∘ fun order : ExchangeOrder =>
      if order.ref = ref then { order with shares := order.shares - amount } else order) =
        ExchangeOrder.ref := by
    funext order
    rw [Function.comp_apply]
    split <;> rfl
  rw [hrefs]
  exact hdistinct

/-- The order that an add submits. -/
def added (locate : UInt16) (order : Order) (side : Side) : ExchangeOrder where
  locate
  ref := order.ref
  side
  price := order.price.toNat
  shares := order.shares.toNat

/-- The order that a replace submits in place of the original. -/
def replacement (message : OrderReplaceMsg) (original : ExchangeOrder) : ExchangeOrder where
  locate := original.locate
  ref := message.newOrderRef
  side := original.side
  price := message.price.toNat
  shares := message.shares.toNat

/-- What one message does, and the report if it is matched. -/
def step (exchange : Exchange) : ItchMessage → Exchange × Option Report
  | .add locate order =>
      match Side.ofByte order.buySellIndicator with
      | none => (exchange, none)
      | some side =>
          (exchange.submit (added locate order side),
            some (.ofFills (exchange.matched (added locate order side)).fills))
  | .delete message =>
      let ref := joinRef message.orderReferenceNumberHigh message.orderReferenceNumberLow
      match exchange.find ref with
      | none => (exchange, none)
      | some _ => (exchange.remove ref, none)
  | .executed message =>
      match exchange.find message.orderRef with
      | none => (exchange, none)
      | some order =>
          if order.shares ≤ message.shares.toNat then (exchange.remove message.orderRef, none)
          else (exchange.subtract message.orderRef message.shares.toNat, none)
  | .replace message =>
      match exchange.find message.originalOrderRef with
      | none => (exchange, none)
      | some original =>
          let exchange := exchange.remove message.originalOrderRef
          (exchange.submit (replacement message original),
            some (.ofFills (exchange.matched (replacement message original)).fills))
  | .ignored => (exchange, none)

/-- The resting orders on one side of a symbol. -/
def book (exchange : Exchange) (locate : UInt16) (side : Side) : List ExchangeOrder :=
  exchange.orders.filter fun order => order.locate = locate ∧ order.side = side

/-- The resting orders at one price of a side, first in first. -/
def queue (exchange : Exchange) (locate : UInt16) (side : Side) (price : ℕ) :
    List ExchangeOrder :=
  (exchange.book locate side).filter fun order => order.price = price

/-- The exchange after some messages, starting empty. -/
def after (messages : List ItchMessage) : Exchange :=
  messages.foldl (fun exchange message => (exchange.step message).1) {}

/-- The reports of a sequence of messages. -/
def reports : List ItchMessage → Exchange → List (Option Report)
  | [], _ => []
  | message :: messages, exchange =>
      (exchange.step message).2 :: reports messages (exchange.step message).1

@[simp]
theorem after_nil : after [] = {} := rfl

@[simp]
theorem after_snoc (messages : List ItchMessage) (message : ItchMessage) :
    after (messages ++ [message]) = ((after messages).step message).1 := by
  simp [after]

/-- The reports of one more message. -/
theorem reports_snoc (messages : List ItchMessage) (message : ItchMessage) (exchange : Exchange) :
    reports (messages ++ [message]) exchange = reports messages exchange ++
      [((messages.foldl (fun exchange message => (exchange.step message).1) exchange).step
        message).2] := by
  induction messages generalizing exchange with
  | nil => rfl
  | cons first rest ih => simp [reports, ih]

end Exchange

end Orderbook
