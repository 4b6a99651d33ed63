/-
# One side of an order book

Prices on the tick grid near the first price ever seen live in a fixed window of
slots; all other prices live in a vector sorted by price. The best populated
slot is cached and repaired by a linear scan when its level empties. Levels are
FIFO chains of pool slots.

`bestLevel` returns a pointer into the side, and the matching loop writes the
level behind it. `LevelPtr` is that pointer.
-/

import Orderbook.Book.OrderPool

namespace Orderbook

/-- A price level: the two ends of its chain. -/
structure Level where
  head : UInt32 := INVALID_INDEX
  tail : UInt32 := INVALID_INDEX
  deriving DecidableEq, Repr, Inhabited

/-- ITCH price units per ladder slot. -/
def TICK : UInt32 := 100

/-- Ladder slots per side. -/
def WINDOW : UInt32 := 2048

/-- One side of a book. -/
structure LadderSide where
  bid : Bool
  ladder : Array Level := #[]
  overflow : List (UInt32 × Level) := []
  base : UInt32 := 0
  anchored : Bool := false
  bestSlot : UInt32 := INVALID_INDEX
  deriving DecidableEq, Repr

/-- A pointer to a level of a side. -/
inductive LevelPtr
  | ladder (slot : UInt32)
  | overflow (pos : ℕ)
  deriving DecidableEq, Repr

/-- Append the node at `idx` to a level. -/
def linkAtTail (pool : OrderPool) (level : Level) (idx : UInt32) : OrderPool × Level :=
  let pool := pool.modify idx fun node =>
    { node with prev := level.tail, next := INVALID_INDEX }
  if level.tail ≠ INVALID_INDEX then
    (pool.modify level.tail fun node => { node with next := idx },
      { level with tail := idx })
  else (pool, { head := idx, tail := idx })

/-- Cut the node at `idx` out of a level. The node is read again after the first
write, as the reference in the source does. -/
def unlink (pool : OrderPool) (level : Level) (idx : UInt32) : OrderPool × Level :=
  let node := pool.node idx
  let (pool, level) :=
    if node.prev ≠ INVALID_INDEX then
      (pool.modify node.prev fun before => { before with next := node.next }, level)
    else (pool, { level with head := node.next })
  let node := pool.node idx
  if node.next ≠ INVALID_INDEX then
    (pool.modify node.next fun after => { after with prev := node.prev }, level)
  else (pool, { level with tail := node.prev })

namespace LadderSide

/-- Centre the window on the first price, snapped down to the tick grid. -/
def anchor (side : LadderSide) (price : UInt32) : LadderSide :=
  let half : UInt64 := (WINDOW / 2).toUInt64 * TICK.toUInt64
  let candidate : UInt64 :=
    if price.toUInt64 > half then (price - half.toUInt32).toUInt64 else 0
  let candidate := candidate - candidate % TICK.toUInt64
  { side with
    base := candidate.toUInt32
    ladder := Array.replicate WINDOW.toNat {}
    anchored := true }

/-- The slot of a price, or the null index when the price is off the grid or
outside the window. -/
def priceToSlot (side : LadderSide) (price : UInt32) : UInt32 :=
  if !side.anchored || price < side.base then INVALID_INDEX
  else
    let offset : UInt64 := price.toUInt64 - side.base.toUInt64
    if offset % TICK.toUInt64 ≠ 0 then INVALID_INDEX
    else
      let slot := offset / TICK.toUInt64
      if slot ≥ WINDOW.toUInt64 then INVALID_INDEX else slot.toUInt32

/-- The price of a slot, in 32-bit arithmetic. -/
def slotToPrice (side : LadderSide) (slot : UInt32) : UInt32 := side.base + slot * TICK

/-- `ladder[slot]`. -/
def level (side : LadderSide) (slot : UInt32) : Level :=
  (side.ladder[slot.toNat]?).getD {}

/-- Write `ladder[slot]`. -/
def setLevel (side : LadderSide) (slot : UInt32) (level : Level) : LadderSide :=
  { side with ladder := side.ladder.modify slot.toNat fun _ => level }

/-- `overflow[pos]`. -/
def overflowAt (side : LadderSide) (pos : ℕ) : UInt32 × Level :=
  side.overflow.getD pos (0, {})

/-- Write the level of `overflow[pos]`. -/
def setOverflow (side : LadderSide) (pos : ℕ) (level : Level) : LadderSide :=
  { side with overflow := side.overflow.modify pos fun entry => (entry.1, level) }

/-- The first overflow position whose price is not below `price`. -/
def overflowLowerBound (side : LadderSide) (price : UInt32) : ℕ :=
  (side.overflow.takeWhile fun entry => entry.1 < price).length

/-- Whether a lower-bound position really holds `price`. -/
def overflowHit (side : LadderSide) (pos : ℕ) (price : UInt32) : Bool :=
  pos ≠ side.overflow.length && (side.overflowAt pos).1 = price

/-- Read through a level pointer. -/
def deref (side : LadderSide) : LevelPtr → Level
  | .ladder slot => side.level slot
  | .overflow pos => (side.overflowAt pos).2

/-- Write through a level pointer. -/
def assign (side : LadderSide) (ptr : LevelPtr) (level : Level) : LadderSide :=
  match ptr with
  | .ladder slot => side.setLevel slot level
  | .overflow pos => side.setOverflow pos level

/-- The bid scan: from `slot` downwards to the first populated slot. -/
def scanDown (side : LadderSide) : ℕ → UInt32
  | 0 => if (side.level 0).head = INVALID_INDEX then INVALID_INDEX else 0
  | slot + 1 =>
      if (side.level (UInt32.ofNat (slot + 1))).head = INVALID_INDEX then side.scanDown slot
      else UInt32.ofNat (slot + 1)

/-- The ask scan: from `slot` upwards to the first populated slot. -/
def scanUp (side : LadderSide) (slot : ℕ) : UInt32 :=
  if (side.level (UInt32.ofNat slot)).head = INVALID_INDEX then
    if WINDOW.toNat ≤ slot + 1 then INVALID_INDEX else side.scanUp (slot + 1)
  else UInt32.ofNat slot
termination_by WINDOW.toNat - slot

/-- Move the cached best slot to the next populated one in the direction of
worse prices. -/
def advanceBest (side : LadderSide) : LadderSide :=
  if side.bestSlot = INVALID_INDEX then side
  else
    { side with
      bestSlot :=
        if side.bid then side.scanDown side.bestSlot.toNat
        else side.scanUp side.bestSlot.toNat }

/-- The level with the best resting order and its price, if there is one. -/
def bestLevel (side : LadderSide) : Option (UInt32 × LevelPtr) :=
  if side.bestSlot = INVALID_INDEX ∧ side.overflow = [] then none
  else if side.overflow = [] then
    some (side.slotToPrice side.bestSlot, .ladder side.bestSlot)
  else
    let pos := if side.bid then side.overflow.length - 1 else 0
    let edge := side.overflowAt pos
    if side.bestSlot = INVALID_INDEX then some (edge.1, .overflow pos)
    else
      let ladderPrice := side.slotToPrice side.bestSlot
      if (if side.bid then ladderPrice ≥ edge.1 else ladderPrice ≤ edge.1) then
        some (ladderPrice, .ladder side.bestSlot)
      else some (edge.1, .overflow pos)

/-- Append a resting order at `price`. -/
def add (side : LadderSide) (pool : OrderPool) (price idx : UInt32) :
    OrderPool × LadderSide :=
  let side := if side.anchored then side else side.anchor price
  let slot := side.priceToSlot price
  if slot ≠ INVALID_INDEX then
    let (pool, level) := linkAtTail pool (side.level slot) idx
    let side := side.setLevel slot level
    if side.bestSlot = INVALID_INDEX ∨
        (if side.bid then slot > side.bestSlot else slot < side.bestSlot) then
      (pool, { side with bestSlot := slot })
    else (pool, side)
  else
    let pos := side.overflowLowerBound price
    let side :=
      if side.overflowHit pos price then side
      else { side with overflow := side.overflow.insertIdx pos (price, {}) }
    let (pool, level) := linkAtTail pool (side.overflowAt pos).2 idx
    (pool, side.setOverflow pos level)

/-- Unlink the order at pool index `idx` from the level of `price`. -/
def remove (side : LadderSide) (pool : OrderPool) (price idx : UInt32) :
    OrderPool × LadderSide :=
  let slot := side.priceToSlot price
  if slot ≠ INVALID_INDEX then
    let (pool, level) := unlink pool (side.level slot) idx
    let side := side.setLevel slot level
    if level.head = INVALID_INDEX ∧ slot = side.bestSlot then (pool, side.advanceBest)
    else (pool, side)
  else
    let pos := side.overflowLowerBound price
    if !side.overflowHit pos price then (pool, side)
    else
      let (pool, level) := unlink pool (side.overflowAt pos).2 idx
      if level.head = INVALID_INDEX then
        (pool, { side with overflow := side.overflow.eraseIdx pos })
      else (pool, side.setOverflow pos level)

/-- Retire the level of `price` after the matching loop drained it. -/
def removeEmptyBest (side : LadderSide) (price : UInt32) : LadderSide :=
  let slot := side.priceToSlot price
  if slot ≠ INVALID_INDEX then
    if slot = side.bestSlot then side.advanceBest else side
  else
    let pos := side.overflowLowerBound price
    if side.overflowHit pos price then
      { side with overflow := side.overflow.eraseIdx pos }
    else side

end LadderSide

end Orderbook
