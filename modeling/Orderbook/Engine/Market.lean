/-
# The market behind the engine

The engine's books, arena and order map store one thing: the orders resting in
all books, in order of arrival, each with the slot it occupies, and a directory
from reference numbers to locations. `Market` is that state and `Market.step` is
what each message does to it, as a sweep over the resting orders followed by an
update of the directory.

Nothing here assumes that reference numbers are unique. A reference that is used
again takes the directory entry over and leaves an order without one. The slot
that the remainder of an order gets is a parameter, because the arena decides it.
-/

import Orderbook.Engine.MatchingEngine
import Orderbook.Math.Sweep
import Orderbook.Book.BestLevel

namespace Orderbook

open Orderbook.Math

/-- A resting order, the book it rests in and the pool slot it occupies. -/
structure Resting where
  locate : UInt16
  slot : UInt32
  order : Order
  deriving DecidableEq, Repr

/-- Whether an order stands on the bid side. The engine tests for the buy byte
and takes everything else for a sell. -/
def Order.isBuy (order : Order) : Bool := order.buySellIndicator = buyByte

/-- A side byte the engine accepts. -/
def ValidSide (side : UInt8) : Prop := side = buyByte ∨ side = sellByte

instance (side : UInt8) : Decidable (ValidSide side) :=
  inferInstanceAs (Decidable (side = buyByte ∨ side = sellByte))

/-- Whether an incoming order crosses a resting price of the other side. -/
def Order.crosses (order : Order) (price : UInt32) : Bool :=
  if order.isBuy then price ≤ order.price else order.price ≤ price

namespace Resting

/-- What is left of a resting order after some of its shares are gone. -/
def reduce (amount : ℕ) (resting : Resting) : Resting :=
  { resting with
    order := { resting.order with shares := resting.order.shares - UInt32.ofNat amount } }

/-- The rules an incoming order is matched by: against crossing orders of the
other side of its book, best price first and earliest arrival first. -/
def rules (locate : UInt16) (incoming : Order) : Rules Resting UInt32 where
  eligible resting :=
    resting.locate = locate ∧ resting.order.isBuy = !incoming.isBuy ∧
      incoming.crosses resting.order.price
  ahead first second :=
    LadderSide.Ahead (!incoming.isBuy) first.order.price second.order.price
  quantity resting := resting.order.shares.toNat
  reduce := reduce
  tag := slot

end Resting

/-- Reduce the shares of the order in one slot. -/
def reduceSlot (slot : UInt32) (amount : ℕ) (live : List Resting) : List Resting :=
  live.map fun resting => if resting.slot = slot then resting.reduce amount else resting

/-- What was taken from which resting order. -/
abbrev Fill := Resting × ℕ

/-- The execution records of a match. -/
def executedRecords (fills : List Fill) : List ItchOrderExecuted :=
  fills.map fun fill => .ofMatch fill.1.order.ref (UInt32.ofNat fill.2)

/-- The references of the orders that a match filled completely. -/
def filledRefs (fills : List Fill) : List UInt64 :=
  (fills.filter fun fill => fill.2 = fill.1.order.shares.toNat).map fun fill => fill.1.order.ref

/-- The resting orders of all books in order of arrival, and where each reference
number leads. -/
structure Market where
  live : List Resting := []
  directory : UInt64 → Option OrderLocation := fun _ => none

namespace Market

/-- The orders and the unfilled demand after an order was matched. -/
def matched (market : Market) (locate : UInt16) (order : Order) : Sweep Resting :=
  (Resting.rules locate order).sweep { items := market.live, demand := order.shares.toNat }

/-- The directory after a match: filled orders are gone, and a remainder is
entered unless its reference is the reserved key. -/
def relist (directory : UInt64 → Option OrderLocation) (swept : Sweep Resting)
    (ref : UInt64) (location : OrderLocation) : UInt64 → Option OrderLocation :=
  fun other =>
    if swept.demand ≠ 0 ∧ ref ≠ HashPolicy.identity.empty ∧ other = ref then some location
    else if other ∈ filledRefs swept.fills then none
    else directory other

/-- The orders after a match, with what is left of the incoming one in `slot`. -/
def rested (slot : UInt32) (locate : UInt16) (order : Order) (swept : Sweep Resting) :
    List Resting :=
  if swept.demand = 0 then swept.items
  else swept.items ++
    [{ locate, slot, order := { order with shares := UInt32.ofNat swept.demand } }]

/-- Match an order and rest what is left of it in `slot`. -/
def submit (slot : UInt32) (locate : UInt16) (order : Order) (market : Market) : Market :=
  let swept := market.matched locate order
  { live := rested slot locate order swept
    directory :=
      relist market.directory swept order.ref { stockLocate := locate, poolIdx := slot } }

/-- Take the order in `slot` out and forget the reference that led to it. -/
def withdraw (ref : UInt64) (slot : UInt32) (market : Market) : Market where
  live := market.live.filter fun resting => resting.slot ≠ slot
  directory other := if other = ref then none else market.directory other

/-- The resting order that a reference leads to. -/
def lookup (market : Market) (ref : UInt64) : Option Resting :=
  (market.directory ref).bind fun location =>
    market.live.find? fun resting => resting.slot = location.poolIdx

/-- What one message does to the market, and the fills if it was matched. -/
def step (slot : UInt32) (market : Market) : ItchMessage → Market × Option (List Fill)
  | .add locate order =>
      if ValidSide order.buySellIndicator then
        (market.submit slot locate order, some (market.matched locate order).fills)
      else (market, none)
  | .delete message =>
      let ref := joinRef message.orderReferenceNumberHigh message.orderReferenceNumberLow
      match market.lookup ref with
      | none => (market, none)
      | some resting => (market.withdraw ref resting.slot, none)
  | .executed message =>
      match market.lookup message.orderRef with
      | none => (market, none)
      | some resting =>
          if message.shares ≥ resting.order.shares then
            (market.withdraw message.orderRef resting.slot, none)
          else
            ({ market with
              live := reduceSlot resting.slot message.shares.toNat market.live }, none)
  | .replace message =>
      match market.lookup message.originalOrderRef with
      | none => (market, none)
      | some resting =>
          let market := market.withdraw message.originalOrderRef resting.slot
          let order :=
            MatchingEngine.replacementOrder message resting.order.buySellIndicator
          (market.submit slot resting.locate order,
            some (market.matched resting.locate order).fills)
  | .ignored => (market, none)

/-- A message that finds nothing to do. -/
def Idle (market : Market) : ItchMessage → Prop
  | .add _ order => ¬ ValidSide order.buySellIndicator
  | .delete message =>
      market.lookup
        (joinRef message.orderReferenceNumberHigh message.orderReferenceNumberLow) = none
  | .executed message => market.lookup message.orderRef = none
  | .replace message => market.lookup message.originalOrderRef = none
  | .ignored => True

/-- A message that takes an order with `shares` left out of its book. -/
def Withdrawal (ref : UInt64) (shares : UInt32) : ItchMessage → Prop
  | .delete message =>
      joinRef message.orderReferenceNumberHigh message.orderReferenceNumberLow = ref
  | .executed message => message.orderRef = ref ∧ message.shares ≥ shares
  | _ => False

/-- The ways a message can change a market. -/
inductive Change (slot : UInt32) (market : Market) :
    ItchMessage → Market × Option (List Fill) → Prop
  | idle {message : ItchMessage} (hidle : market.Idle message) :
      Change slot market message (market, none)
  | submitted (locate : UInt16) (order : Order) (hside : ValidSide order.buySellIndicator) :
      Change slot market (.add locate order)
        (market.submit slot locate order, some (market.matched locate order).fills)
  | withdrawn {message : ItchMessage} {ref : UInt64} {resting : Resting}
      (hlookup : market.lookup ref = some resting)
      (hmessage : Withdrawal ref resting.order.shares message) :
      Change slot market message (market.withdraw ref resting.slot, none)
  | reduced (message : OrderExecutedMsg) {resting : Resting}
      (hlookup : market.lookup message.orderRef = some resting)
      (hless : message.shares < resting.order.shares) :
      Change slot market (.executed message)
        ({ market with live := reduceSlot resting.slot message.shares.toNat market.live }, none)
  | replaced (message : OrderReplaceMsg) {resting : Resting}
      (hlookup : market.lookup message.originalOrderRef = some resting) :
      Change slot market (.replace message)
        ((market.withdraw message.originalOrderRef resting.slot).submit slot resting.locate
            (MatchingEngine.replacementOrder message resting.order.buySellIndicator),
          some ((market.withdraw message.originalOrderRef resting.slot).matched resting.locate
            (MatchingEngine.replacementOrder message resting.order.buySellIndicator)).fills)

/-- Every step is one of these changes. -/
theorem step_change (slot : UInt32) (market : Market) (message : ItchMessage) :
    market.Change slot message (market.step slot message) := by
  cases message with
  | add locate order =>
      simp only [step]
      split
      · rename_i hside
        exact .submitted locate order hside
      · rename_i hside
        exact .idle hside
  | delete message =>
      simp only [step]
      split
      · rename_i hlookup
        exact .idle hlookup
      · rename_i hlookup
        exact .withdrawn hlookup rfl
  | executed message =>
      simp only [step]
      split
      · rename_i hlookup
        exact .idle hlookup
      · rename_i hlookup
        split
        · rename_i hshares
          exact .withdrawn hlookup ⟨rfl, hshares⟩
        · rename_i hshares
          exact .reduced message hlookup (UInt32.not_le.mp hshares)
  | replace message =>
      simp only [step]
      split
      · rename_i hlookup
        exact .idle hlookup
      · rename_i hlookup
        exact .replaced message hlookup
  | ignored => exact .idle trivial

end Market

end Orderbook
