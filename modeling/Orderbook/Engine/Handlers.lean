/-
# The handlers of a book

What `handleOrder` and `removeByIndex` do to the arena and to all books, in terms
of the resting orders: the first matches by a whole sweep and rests what is left,
the second takes one order out. The mirrored buy and sell handlers meet here in
one statement.
-/

import Orderbook.Engine.Matching

namespace Orderbook

open Orderbook.Math LadderSide

/-- Write both sides of one book. -/
def Sides.setBook (sides : Sides) (locate : UInt16) (book : OrderBook) : Sides :=
  fun otherLocate bid => if otherLocate = locate then book.side bid else sides otherLocate bid

theorem Sides.setBook_eq_set_set (sides : Sides) (locate : UInt16) (book : OrderBook)
    (bid : Bool) :
    sides.setBook locate book =
      (sides.set locate (!bid) (book.side (!bid))).set locate bid (book.side bid) := by
  funext otherLocate otherBid
  unfold Sides.setBook Sides.set
  by_cases hlocate : otherLocate = locate
  · cases otherBid <;> cases bid <;> simp [hlocate]
  · simp [hlocate]

/-- Replacing one side of a book writes one side. -/
theorem Sides.setBook_of_side {sides : Sides} {locate : UInt16} {book after : OrderBook}
    {bid : Bool} {side : LadderSide} (hbook : ∀ bid, sides locate bid = book.side bid)
    (hown : after.side bid = side) (hother : after.side (!bid) = book.side (!bid)) :
    sides.setBook locate after = sides.set locate bid side := by
  rw [Sides.setBook_eq_set_set sides locate after bid, hown, hother, ← hbook, Sides.set_same]

theorem size_popHead (pool : OrderPool) (level : Level) :
    (popHead pool level).1.nodes.size = pool.nodes.size := by
  unfold popHead
  dsimp only
  split <;> simp

namespace MatchState

theorem size_fillHead (ptr : LevelPtr) (state : MatchState) :
    (state.fillHead ptr).pool.nodes.size = state.pool.nodes.size := by
  unfold fillHead
  dsimp only
  split
  · simp [size_popHead]
  · simp

theorem size_matchLevel {ptr : LevelPtr} {state state' : MatchState}
    (hmatch : matchLevel ptr state = some state') :
    state'.pool.nodes.size = state.pool.nodes.size := by
  apply eq_of_loopWhile (fun state : MatchState => state.pool.nodes.size) _ hmatch
  intro state next hnext
  cases hnext
  exact size_fillHead ptr state

theorem size_matchSide {stops : UInt32 → UInt32 → Bool} {state state' : MatchState}
    (hmatch : matchSide stops state = some state') :
    state'.pool.nodes.size = state.pool.nodes.size := by
  refine keeps_of_matchSide
    (fun current : MatchState => current.pool.nodes.size = state.pool.nodes.size) ?_ rfl hmatch
  intro current price ptr served hcurrent _ hserved
  rw [pool_retire, size_matchLevel hserved, hcurrent]

end MatchState

variable {pool : OrderPool} {sides : Sides} {live : List Resting} {locate : UInt16}
  {order : Order} {book : OrderBook}

/-- The loops start with the whole order against the whole market. -/
theorem Books.matches_start (hbooks : Books pool sides live)
    (hpositive : ∀ resting ∈ live, resting.order.shares ≠ 0) (locate : UInt16) (order : Order) :
    Matches sides locate order
      { pool, side := sides locate (!order.isBuy), order, removedRefs := [], executedOrders := [] }
      { items := live, demand := order.shares.toNat } where
  books := by
    rw [Sides.set_same]
    exact hbooks
  positive := hpositive
  demand := order.shares.toNat_lt
  order := by simp
  removed := rfl
  executed := rfl

/-- What resting the remainder after a sweep leaves behind. -/
structure Rests (sides : Sides) (locate : UInt16) (order : Order) (state : MatchState)
    (swept : Sweep Resting) (idx : UInt32) (pool : OrderPool) (own : LadderSide) : Prop where
  books : Books pool ((sides.set locate (!order.isBuy) state.side).set locate order.isBuy own)
    (Market.rested idx locate order swept)
  slot : idx = INVALID_INDEX ↔ swept.demand = 0
  growth : pool.nodes.size ≤
    max state.pool.nodes.size (Market.rested idx locate order swept).length

theorem Sides.set_other (sides : Sides) (locate : UInt16) (bid : Bool) (side : LadderSide) :
    sides.set locate (!bid) side locate bid = sides locate bid :=
  if_neg fun h => by cases bid <;> simp at h

/-- The remainder of a swept order rests on its own side, as long as the arena
keeps within its index type. -/
theorem Matches.restRemainder {state : MatchState} {swept : Sweep Resting} {idx : UInt32}
    {own : LadderSide} (hmatch : Matches sides locate order state swept)
    (hrest : restRemainder state.pool (sides locate order.isBuy) state.order =
      (idx, pool, own)) :
    state.pool.nodes.size ≤ pool.nodes.size ∧ pool.nodes.size ≤ state.pool.nodes.size + 1 ∧
      (pool.nodes.size < 2 ^ 32 → Rests sides locate order state swept idx pool own) := by
  unfold Orderbook.restRemainder at hrest
  by_cases hdemand : swept.demand = 0
  · rw [if_neg (hmatch.shares_not_pos hdemand)] at hrest
    cases hrest
    refine ⟨Nat.le_refl _, Nat.le_succ _, fun _ => ⟨?_, ?_, Nat.le_max_left _ _⟩⟩
    · rw [← Sides.set_other sides locate order.isBuy state.side, Sides.set_same,
        Market.rested, if_pos hdemand]
      exact hmatch.books
    · simp [hdemand]
  · rw [if_pos (hmatch.shares_pos hdemand)] at hrest
    rcases hallocate : state.pool.allocate state.order with ⟨slot, grown⟩
    rcases hadd : (sides locate order.isBuy).add grown state.order.price slot with ⟨linked, side⟩
    simp only [hallocate, hadd, Prod.mk.injEq] at hrest
    obtain ⟨rfl, rfl, rfl⟩ := hrest
    have hisBuy : state.order.isBuy = order.isBuy := by
      rw [hmatch.order]
      rfl
    have hgrown := OrderPool.size_allocate state.pool state.order
    have hlinked := LadderSide.size_add (sides locate order.isBuy) grown state.order.price slot
    rw [hallocate] at hgrown
    rw [hadd] at hlinked
    dsimp only at hgrown hlinked
    refine ⟨?_, ?_, fun hsize => ?_⟩
    · split at hgrown <;> omega
    · split at hgrown <;> omega
    · have hown : (sides.set locate (!order.isBuy) state.side locate state.order.isBuy).add
          grown state.order.price slot = (linked, side) := by
        rw [hisBuy, Sides.set_other]
        exact hadd
      obtain ⟨hbooks, hvalid, hgrowth⟩ := hmatch.books.rest hallocate hown hsize
      have hrested : Market.rested slot locate order swept =
          swept.items ++ [{ locate, slot, order := state.order }] := by
        rw [Market.rested, if_neg hdemand, hmatch.order]
      rw [hisBuy] at hbooks
      exact ⟨hrested ▸ hbooks, by simp [hvalid, hdemand], by simpa [hrested] using hgrowth⟩

/-- Everything a caller of `handleOrder` can rely on. -/
structure HandledAs (pool : OrderPool) (sides : Sides) (locate : UInt16) (order : Order)
    (swept : Sweep Resting) (handled : Handled) : Prop where
  removedRefs : handled.removedRefs = filledRefs swept.fills
  executedOrders : handled.executedOrders = executedRecords swept.fills
  positive : ∀ resting ∈ swept.items, resting.order.shares ≠ 0
  demand : swept.demand < 2 ^ 32
  size_le : handled.pool.nodes.size ≤ pool.nodes.size + 1
  rested : handled.pool.nodes.size < 2 ^ 32 →
    Books handled.pool (sides.setBook locate handled.book)
        (Market.rested handled.restingIdx locate order swept) ∧
      (handled.restingIdx = INVALID_INDEX ↔ swept.demand = 0) ∧
      handled.pool.nodes.size ≤
        max pool.nodes.size (Market.rested handled.restingIdx locate order swept).length

/-! ## Both handlers as one

The buy and the sell handler differ in the sides they use and in the test that stops them. -/

/-- The test that stops the matching loop of an order. -/
def Order.stops (order : Order) : UInt32 → UInt32 → Bool :=
  if order.isBuy then fun bestPrice limit => bestPrice > limit
  else fun bestPrice limit => bestPrice < limit

theorem Order.stops_price (order : Order) (price : UInt32) :
    order.stops price order.price = !order.crosses price := by
  cases hisBuy : order.isBuy <;> simp [Order.stops, Order.crosses, hisBuy, ← decide_not]

namespace OrderBook

/-- The state in which the matching loop of an order starts. -/
def matching (book : OrderBook) (pool : OrderPool) (order : Order) : MatchState where
  pool
  side := book.side (!order.isBuy)
  order
  removedRefs := []
  executedOrders := []

/-- A book by the side of an order and the side opposite to it. -/
def ofSides (isBuy : Bool) (own opposite : LadderSide) : OrderBook where
  bids := if isBuy then own else opposite
  asks := if isBuy then opposite else own

@[simp]
theorem side_ofSides (isBuy : Bool) (own opposite : LadderSide) :
    (ofSides isBuy own opposite).side isBuy = own := by
  cases isBuy <;> rfl

@[simp]
theorem side_ofSides_not (isBuy : Bool) (own opposite : LadderSide) :
    (ofSides isBuy own opposite).side (!isBuy) = opposite := by
  cases isBuy <;> rfl

/-- What a handler makes of the state in which its loop ends. -/
def rest (book : OrderBook) (order : Order) (state : MatchState) : Handled where
  pool := (restRemainder state.pool (book.side order.isBuy) state.order).2.1
  book := ofSides order.isBuy
    (restRemainder state.pool (book.side order.isBuy) state.order).2.2 state.side
  restingIdx := (restRemainder state.pool (book.side order.isBuy) state.order).1
  removedRefs := state.removedRefs
  executedOrders := state.executedOrders

theorem handleOrder_eq (book : OrderBook) (pool : OrderPool) {order : Order}
    (hside : ValidSide order.buySellIndicator) :
    book.handleOrder pool order [] [] =
      (MatchState.matchSide order.stops (book.matching pool order)).map fun state =>
        .ok (book.rest order state) := by
  rcases hside with hbuy | hsell
  · have hisBuy : order.isBuy = true := decide_eq_true hbuy
    rw [handleOrder, if_pos hbuy, handleBuyOrder, Option.map_map, Order.stops, matching, hisBuy]
    simp only [rest, hisBuy]
    rfl
  · have hisBuy : order.isBuy = false := by
      rw [Order.isBuy, hsell]
      decide
    rw [handleOrder, if_neg (by rw [hsell]; decide), if_pos hsell, handleSellOrder,
      Option.map_map, Order.stops, matching, hisBuy]
    simp only [rest, hisBuy]
    rfl

/-- What is handed back without an exception comes from the state in which the loop ended. -/
theorem exists_rest_of_handleOrder {book : OrderBook} {pool : OrderPool} {order : Order}
    {handled : Handled} (hhandle : book.handleOrder pool order [] [] = some (.ok handled)) :
    ∃ state, MatchState.matchSide order.stops (book.matching pool order) = some state ∧
      handled = book.rest order state := by
  by_cases hside : ValidSide order.buySellIndicator
  · rw [handleOrder_eq book pool hside] at hhandle
    obtain ⟨state, hmatch, hok⟩ := Option.map_eq_some_iff.mp hhandle
    cases hok
    exact ⟨state, hmatch, rfl⟩
  · rw [handleOrder, if_neg (fun hbuy => hside (.inl hbuy)),
      if_neg (fun hsell => hside (.inr hsell))] at hhandle
    cases hhandle

/-- An order is removed from the side of its book that its stored bytes name. -/
theorem removeByIndex_eq (book : OrderBook) {pool : OrderPool} {idx : UInt32} {order : Order}
    (hstored : (pool.node idx).order = order) :
    book.removeByIndex pool idx =
      (((book.side order.isBuy).remove pool order.price idx).1.free idx,
        ofSides order.isBuy ((book.side order.isBuy).remove pool order.price idx).2
          (book.side (!order.isBuy))) := by
  rw [removeByIndex, hstored]
  cases hisBuy : order.isBuy with
  | true =>
      rw [if_pos (of_decide_eq_true hisBuy)]
      rfl
  | false =>
      rw [if_neg (of_decide_eq_false hisBuy)]
      rfl

end OrderBook

/-- The loop of a handler matches the order by a whole sweep. -/
theorem Books.matchSide (hbooks : Books pool sides live)
    (hpositive : ∀ resting ∈ live, resting.order.shares ≠ 0)
    (hbook : ∀ bid, sides locate bid = book.side bid)
    {holds : MatchState → Sweep Resting → Prop} (hkeep : PassesKeep sides locate order holds)
    (hholds : holds (book.matching pool order) { items := live, demand := order.shares.toNat }) :
    ∃ state, MatchState.matchSide order.stops (book.matching pool order) = some state ∧
      Matches sides locate order state
        ((Resting.rules locate order).sweep { items := live, demand := order.shares.toNat }) ∧
      holds state
        ((Resting.rules locate order).sweep { items := live, demand := order.shares.toNat }) := by
  have hstart := hbooks.matches_start hpositive locate order
  rw [hbook] at hstart
  exact matchSide_spec hkeep order.stops_price hstart hholds

/-- `handleOrder` accepts an order of either side, matches it by a sweep and rests what is
left of it on its own side. -/
theorem Books.handleOrder (hbooks : Books pool sides live)
    (hpositive : ∀ resting ∈ live, resting.order.shares ≠ 0)
    (hbook : ∀ bid, sides locate bid = book.side bid)
    (hside : ValidSide order.buySellIndicator) :
    ∃ handled, book.handleOrder pool order [] [] = some (.ok handled) ∧
      HandledAs pool sides locate order
        ((Resting.rules locate order).sweep { items := live, demand := order.shares.toNat })
        handled := by
  have hkeep : PassesKeep sides locate order fun _ _ => True := fun _ _ _ _ _ _ => trivial
  obtain ⟨state, hstate, hmatch, _⟩ := hbooks.matchSide hpositive hbook hkeep trivial
  refine ⟨book.rest order state, ?_, ?_⟩
  · rw [OrderBook.handleOrder_eq book pool hside, hstate, Option.map_some]
  have hsize := MatchState.size_matchSide hstate
  change state.pool.nodes.size = pool.nodes.size at hsize
  rcases hrest : Orderbook.restRemainder state.pool (book.side order.isBuy) state.order with
    ⟨idx, pool', own⟩
  have hhandled : book.rest order state =
      { pool := pool', book := .ofSides order.isBuy own state.side, restingIdx := idx
        removedRefs := state.removedRefs, executedOrders := state.executedOrders } := by
    rw [OrderBook.rest, hrest]
  rw [← hbook] at hrest
  obtain ⟨_, hle, hrests⟩ := hmatch.restRemainder hrest
  rw [hhandled]
  refine ⟨hmatch.removed, hmatch.executed, hmatch.positive, hmatch.demand, hsize ▸ hle, ?_⟩
  intro hbound
  have hrested := hrests hbound
  rw [Sides.setBook_eq_set_set sides locate _ order.isBuy, OrderBook.side_ofSides,
    OrderBook.side_ofSides_not]
  exact ⟨hrested.books, hrested.slot, hsize ▸ hrested.growth⟩

/-- `removeByIndex` takes a live order out of the market. -/
theorem Books.removeByIndex (hbooks : Books pool sides live)
    (hbook : ∀ bid, sides locate bid = book.side bid) {resting : Resting}
    (hmem : resting ∈ live) (hlocate : resting.locate = locate) :
    (book.removeByIndex pool resting.slot).1.nodes.size = pool.nodes.size ∧
      Books (book.removeByIndex pool resting.slot).1
        (sides.setBook locate (book.removeByIndex pool resting.slot).2)
        (live.filter fun other => other.slot ≠ resting.slot) := by
  have hstored := hbooks.stored resting hmem
  have hentry : (resting.order.price, resting.slot) ∈
      sideOrders locate resting.order.isBuy live :=
    mem_sideOrders.mpr ⟨resting, hmem, hlocate, rfl, rfl, rfl⟩
  rcases hremove : (book.side resting.order.isBuy).remove pool resting.order.price
    resting.slot with ⟨pool', side⟩
  rw [← hbook] at hremove
  have hremoved := hbooks.remove hentry hremove
  have hsize := ((hbooks.linked locate resting.order.isBuy).remove hentry).1.size
  rw [hremove] at hsize
  rw [book.removeByIndex_eq hstored, ← hbook, hremove]
  constructor
  · rw [OrderPool.size_free]
    exact hsize
  · rw [Sides.setBook_of_side hbook (OrderBook.side_ofSides ..) (OrderBook.side_ofSides_not ..)]
    exact hremoved

end Orderbook
