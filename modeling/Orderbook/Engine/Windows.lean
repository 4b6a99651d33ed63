/-
# Exact windows

The window of a side computes with 32 and 64 bits. Between prices and slots nothing is lost:
a price that has a slot is given back by it, higher prices have higher slots, and the prices
with a slot are those on the grid from the base up to the end of the window, where that end
may lie above the largest price.

The price of a slot is computed for the best slot only. The engine writes to its sides by
the steps of a side alone, in the passes of a matching loop as well as between messages. So
every side on which it asks for the best level is a reachable one, and the price it gets did
not wrap around.
-/

import Orderbook.Book.SideSteps
import Orderbook.Engine.Run

namespace Orderbook

open Orderbook.Math

namespace MatchState

variable {state served : MatchState} {price : UInt32} {ptr : LevelPtr}

/-- A pass of the inner loop writes at most the level it was given. -/
theorem reachable_fillHead (hside : state.side.Reachable)
    (hbest : state.side.bestLevel = some (price, ptr)) :
    (fillHead ptr state).side.Reachable ∧
      (fillHead ptr state).side.bestLevel = some (price, ptr) := by
  unfold fillHead
  dsimp only
  split
  · exact ⟨hside.step (.write _ hbest), (LadderSide.bestLevel_assign ..).trans hbest⟩
  · exact ⟨hside, hbest⟩

theorem reachable_matchLevel (hside : state.side.Reachable)
    (hbest : state.side.bestLevel = some (price, ptr))
    (hserved : matchLevel ptr state = some served) : served.side.Reachable := by
  have hkept := keeps_of_loopWhile
    (fun current : MatchState =>
      current.side.Reachable ∧ current.side.bestLevel = some (price, ptr))
    (fun current next hcurrent _ hnext => by
      cases hnext
      exact reachable_fillHead hcurrent.1 hcurrent.2) ⟨hside, hbest⟩ hserved
  exact hkept.1.1

theorem reachable_retire (hside : state.side.Reachable) (price : UInt32) (ptr : LevelPtr) :
    (state.retire price ptr).side.Reachable := by
  unfold retire
  split
  · exact hside.step (.removeEmptyBest price)
  · exact hside

section Loop

variable {stops : UInt32 → UInt32 → Bool} {start : MatchState}

/-- Serving a level leads to a reachable side. -/
theorem reachable_serve (state : MatchState) (price : UInt32) (ptr : LevelPtr)
    (served : MatchState) (hside : state.side.Reachable)
    (hbest : state.side.bestLevel = some (price, ptr))
    (hserved : matchLevel ptr state = some served) : (served.retire price ptr).side.Reachable :=
  reachable_retire (reachable_matchLevel hside hbest hserved) price ptr

/-- Every pass of the outer loop asks a reachable side for its best level. -/
theorem reachable_of_visits (hstart : start.side.Reachable)
    (hvisits : Visits (outerPass stops) start state) : state.side.Reachable :=
  keeps_of_visits (fun state => state.side.Reachable) reachable_serve hstart hvisits

theorem reachable_matchSide (hstart : start.side.Reachable)
    (hmatch : matchSide stops start = some state) : state.side.Reachable :=
  keeps_of_matchSide (fun state => state.side.Reachable) reachable_serve hstart hmatch

end Loop

end MatchState

theorem reachable_restRemainder {own : LadderSide} (hown : own.Reachable) (pool : OrderPool)
    (order : Order) : (restRemainder pool own order).2.2.Reachable := by
  unfold restRemainder
  split
  · exact hown.step (.add _ _ _)
  · exact hown

namespace OrderBook

variable {book : OrderBook} {pool : OrderPool} {order : Order}

/-- Both sides of the book are reachable. -/
def Reachable (book : OrderBook) : Prop := ∀ bid, (book.side bid).Reachable

theorem Reachable.ofSides {isBuy : Bool} {own opposite : LadderSide} (hown : own.Reachable)
    (hopposite : opposite.Reachable) : (OrderBook.ofSides isBuy own opposite).Reachable := by
  intro bid
  by_cases heq : bid = isBuy
  · rw [heq, side_ofSides]
    exact hown
  · rw [Bool.eq_not.mpr heq, side_ofSides_not]
    exact hopposite

theorem Reachable.handleOrder (hbook : book.Reachable) {handled : Handled}
    (hhandle : book.handleOrder pool order [] [] = some (.ok handled)) :
    handled.book.Reachable := by
  obtain ⟨state, hmatch, rfl⟩ := exists_rest_of_handleOrder hhandle
  have hopposite : (book.matching pool order).side.Reachable := hbook (!order.isBuy)
  exact .ofSides (reachable_restRemainder (hbook order.isBuy) state.pool state.order)
    (MatchState.reachable_matchSide hopposite hmatch)

theorem Reachable.removeByIndex (hbook : book.Reachable) (pool : OrderPool) (idx : UInt32) :
    (book.removeByIndex pool idx).2.Reachable := by
  rw [removeByIndex_eq book rfl]
  exact .ofSides ((hbook _).step (.remove _ _ _)) (hbook _)

end OrderBook

namespace MatchingEngine

variable {engine : MatchingEngine}

/-- All sides of all books are reachable. -/
def SidesReachable (engine : MatchingEngine) : Prop :=
  ∀ locate, (engine.orderBooks locate).Reachable

namespace SidesReachable

theorem initial : MatchingEngine.initial.SidesReachable := by
  intro locate bid
  cases bid with
  | true => exact .fresh true
  | false => exact .fresh false

theorem setBook (hengine : engine.SidesReachable) (locate : UInt16) (pool : OrderPool)
    {book : OrderBook} (hbook : book.Reachable) :
    (engine.setBook locate pool book).SidesReachable := by
  intro other
  unfold MatchingEngine.setBook
  dsimp only
  split
  · exact hbook
  · exact hengine other

theorem removeFromBook (hengine : engine.SidesReachable) (locate : UInt16) (idx : UInt32) :
    (engine.removeFromBook locate idx).SidesReachable :=
  hengine.setBook locate _ ((hengine locate).removeByIndex engine.pool idx)

theorem submit (hengine : engine.SidesReachable) {locate : UInt16} {order : Order}
    {ref : UInt64} {outcome : Outcome}
    (hsubmit : engine.submit locate order ref = some outcome) :
    outcome.engine.SidesReachable := by
  rcases submit_cases hsubmit with ⟨_, _, rfl⟩ | ⟨handled, orderMap, hhandle, _, rfl⟩
  · exact hengine
  · exact hengine.setBook locate handled.pool ((hengine locate).handleOrder hhandle)

theorem recordLatency {outcome : Outcome} (hengine : outcome.engine.SidesReachable)
    (clock : Clock) : (MatchingEngine.recordLatency clock outcome).engine.SidesReachable := by
  unfold MatchingEngine.recordLatency
  split
  · exact hengine
  · exact hengine

/-- A message leads every side to a reachable one. -/
theorem apply (hengine : engine.SidesReachable) {scratch : EngineScratch} {clock : Clock}
    {message : ItchMessage} {outcome : Outcome}
    (happly : engine.apply scratch clock message = some outcome) :
    outcome.engine.SidesReachable := by
  cases acts_of_apply happly with
  | idle scratch => exact hengine
  | @withdraw _ _ loc _ _ _ _ => exact hengine.removeFromBook loc.stockLocate loc.poolIdx
  | reduce scratch _ => exact hengine
  | submit hsubmit => exact (hengine.submit hsubmit).recordLatency _
  | @replace _ loc orderMap _ _ _ hsubmit =>
      have hremoved : SidesReachable
          { engine.removeFromBook loc.stockLocate loc.poolIdx with orderMap } :=
        hengine.removeFromBook loc.stockLocate loc.poolIdx
      exact hremoved.submit hsubmit

end SidesReachable

/-- Every engine that a stream leads to has reachable sides only. -/
theorem Reached.sidesReachable {stream : List Delivery} {trace : List Transition}
    (hreached : Reached stream engine trace) : engine.SidesReachable := by
  obtain ⟨scratch, hrun⟩ := hreached
  refine keeps_of_runList
    (fun state : MatchingEngine × EngineScratch => state.1.SidesReachable)
    (fun state delivery next answer hstate hdeliver => ?_) .initial hrun
  obtain ⟨outcome, hprocess, hnext⟩ := Option.map_eq_some_iff.mp hdeliver
  cases hnext
  exact hstate.apply hprocess

end MatchingEngine

namespace LadderSide

/-- Prices and slots stand for each other without a wrap around: `+` and `*` are those of
the natural numbers here. -/
structure ExactWindow (side : LadderSide) : Prop where
  /-- A price with a slot is given back by it. -/
  gives_back : ∀ price, side.priceToSlot price ≠ INVALID_INDEX →
    side.priceToSlot price < WINDOW ∧ side.slotToPrice (side.priceToSlot price) = price ∧
      side.PricesExactly (side.priceToSlot price)
  increasing : ∀ price other, side.priceToSlot price ≠ INVALID_INDEX →
    side.priceToSlot other ≠ INVALID_INDEX → price < other →
      side.priceToSlot price < side.priceToSlot other
  injective : ∀ price other, side.priceToSlot price ≠ INVALID_INDEX →
    side.priceToSlot price = side.priceToSlot other → price = other
  /-- The prices with a slot. -/
  has_slot_iff : ∀ price, side.priceToSlot price ≠ INVALID_INDEX ↔
    TICK.toNat ∣ price.toNat ∧ side.base.toNat ≤ price.toNat ∧
      price.toNat < side.base.toNat + WINDOW.toNat * TICK.toNat

theorem exactWindow_anchor (side : LadderSide) (anchorPrice : UInt32) :
    (side.anchor anchorPrice).ExactWindow where
  gives_back _ hslot :=
    ⟨priceToSlot_lt hslot, slotToPrice_priceToSlot hslot, (mapped_priceToSlot hslot).pricesExactly⟩
  increasing _ _ hslot hother hless := priceToSlot_lt_priceToSlot hslot hother hless
  injective _ _ hslot heq := eq_of_priceToSlot_eq hslot heq
  has_slot_iff := priceToSlot_anchor_ne_invalid_iff side anchorPrice

end LadderSide

/-- Wherever a window is anchored, its arithmetic is exact, and the anchoring price has a slot
when it is on the grid. In a reachable side, the best slot, and so every slot whose price
`bestLevel` computes, is priced exactly; and the sides of every engine that a stream leads to
are reachable, as are those of every pass of a matching loop on a reachable side. -/
theorem window_exact :
    (∀ (side : LadderSide) (anchorPrice : UInt32),
      (side.anchor anchorPrice).ExactWindow ∧
      (TICK.toNat ∣ anchorPrice.toNat →
        (side.anchor anchorPrice).priceToSlot anchorPrice ≠ INVALID_INDEX)) ∧
    (∀ side : LadderSide, side.Reachable →
      (side.bestSlot ≠ INVALID_INDEX →
        side.bestSlot < WINDOW ∧ side.PricesExactly side.bestSlot) ∧
      ∀ slot ∈ side.pricedSlots, slot < WINDOW ∧ side.PricesExactly slot) ∧
    (∀ stream engine trace, MatchingEngine.Reached stream engine trace →
      ∀ locate bid, (engine.sides locate bid).Reachable) ∧
    ∀ (stops : UInt32 → UInt32 → Bool) (start state : MatchState), start.side.Reachable →
      Visits (MatchState.outerPass stops) start state → state.side.Reachable := by
  refine ⟨fun side anchorPrice => ⟨?_, ?_⟩, fun side hside => ⟨?_, ?_⟩, ?_, ?_⟩
  · exact side.exactWindow_anchor anchorPrice
  · exact LadderSide.priceToSlot_anchor_self side
  · intro hbest
    have hmapped := hside.windowed.best hbest
    exact ⟨hmapped.lt, hmapped.pricesExactly⟩
  · intro slot hslot
    have hmapped := hside.mapped_of_mem_pricedSlots hslot
    exact ⟨hmapped.lt, hmapped.pricesExactly⟩
  · intro stream engine trace hreached
    exact hreached.sidesReachable
  · intro stops start state hstart hvisits
    exact MatchState.reachable_of_visits hstart hvisits

/-- A side with one order at the highest price of the grid. The slot above it wraps around. -/
def topSide : LadderSide := (({ bid := false } : LadderSide).add {} 4294967200 0).2

theorem window_exact_topSide :
    ((({ bid := false } : LadderSide).anchor 4294967200).priceToSlot 4294967200 ≠
        INVALID_INDEX) ∧
      topSide.bestSlot = 1024 ∧ topSide.PricesExactly topSide.bestSlot ∧
      ¬ topSide.PricesExactly 1025 := by
  have hreachable : topSide.Reachable := (LadderSide.Reachable.fresh false).step (.add _ _ _)
  refine ⟨(window_exact.1 _ 4294967200).2 (by decide), by decide +kernel, ?_, ?_⟩
  · exact ((window_exact.2.1 topSide hreachable).1 (by decide +kernel)).2
  · unfold LadderSide.PricesExactly
    decide +kernel

end Orderbook
