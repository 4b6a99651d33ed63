/-
# The representation invariant

`WellFormed` is what a debugger could check on the memory of an engine, without
knowing how it got there. The arena is split between the free list and the chains
of the books. Every chain is a doubly linked queue of orders with shares left, on
their own side and in the level of their own price. The overflow vectors are
sorted and hold nothing that belongs into a window, and the cached best slots are
exact.
-/

import Orderbook.Engine.Layout

namespace Orderbook

open Orderbook.Math LadderSide

/-- The levels of a side with their prices. -/
def LadderSide.pricedLevels (side : LadderSide) : List (UInt32 × Level) :=
  ((List.range side.ladder.size).map fun pos =>
      (side.slotToPrice (UInt32.ofNat pos), side.level (UInt32.ofNat pos))) ++ side.overflow

/-- The side byte of a direction. -/
def sideByte (bid : Bool) : UInt8 := if bid then buyByte else sellByte

namespace MatchingEngine

/-- The representation invariant. -/
structure WellFormed (engine : MatchingEngine) : Prop where
  /-- The free list ends at the null index. -/
  free : engine.pool.FreeList engine.freeSlots
  /-- Every node is in the free list or in a chain, and nowhere twice. -/
  split : ((engine.freeSlots ++ engine.linkedSlots).map UInt32.toNat).Perm
    (List.range engine.slots)
  /-- Every level is a doubly linked queue. -/
  chain : ∀ locate bid, ∀ level ∈ (engine.sides locate bid).levels,
    level.Chain engine.pool (level.slots engine.pool) ∧
      (level.head = INVALID_INDEX ↔ level.tail = INVALID_INDEX)
  /-- Linked orders have shares, and are on their side and at their price. -/
  stored : ∀ locate bid, ∀ priced ∈ (engine.sides locate bid).pricedLevels,
    ∀ slot ∈ priced.2.slots engine.pool, 0 < (engine.order slot).shares ∧
      (engine.order slot).buySellIndicator = sideByte bid ∧
      (engine.order slot).price = priced.1
  /-- The overflow vector is sorted, has no empty level and no price of the window. -/
  overflow : ∀ locate bid, Ascending (engine.sides locate bid).overflow ∧
    ∀ entry ∈ (engine.sides locate bid).overflow, entry.2.head ≠ INVALID_INDEX ∧
      (engine.sides locate bid).priceToSlot entry.1 = INVALID_INDEX
  /-- The best slot is the best populated one, or null when there is none. -/
  best : ∀ locate bid, IsBest bid
    (fun slot => ((engine.sides locate bid).level slot).head ≠ INVALID_INDEX)
    (engine.sides locate bid).bestSlot

variable {engine : MatchingEngine} {market : Market}

/-- The levels of a side that represents its linked orders are their chains. -/
theorem chain_of_mem_levels {side : LadderSide} {pool : OrderPool}
    {linked : List (UInt32 × UInt32)} (hrep : side.Represents pool linked) {level : Level}
    (hlevel : level ∈ side.levels) : level.Chain pool (level.slots pool) := by
  rw [levels_eq hrep] at hlevel
  obtain ⟨labelled, hmem, rfl⟩ := List.mem_map.mp hlevel
  have hchain := chain_of_mem_labelledLevels hrep hmem
  rwa [hchain.slots_eq]

/-- The slots of a level hold linked orders at the price of the level. -/
theorem mem_linked_of_mem_pricedLevels {side : LadderSide} {pool : OrderPool}
    {linked : List (UInt32 × UInt32)} (hrep : side.Represents pool linked)
    {priced : UInt32 × Level} (hpriced : priced ∈ side.pricedLevels) {slot : UInt32}
    (hslot : slot ∈ priced.2.slots pool) : (priced.1, slot) ∈ linked := by
  rcases List.mem_append.mp hpriced with hladder | hoverflow
  · obtain ⟨pos, hpos, rfl⟩ := List.mem_map.mp hladder
    have hlt := (toNat_ofNat_of_lt_size hrep (List.mem_range.mp hpos)).2
    rw [(hrep.ladder _ hlt).slots_eq] at hslot
    obtain ⟨price, hmem, hprice⟩ := mem_queueOf.mp hslot
    have hprice : side.priceToSlot price = UInt32.ofNat pos := of_decide_eq_true hprice
    have hwindow : side.priceToSlot price ≠ INVALID_INDEX :=
      hprice ▸ ne_invalid_of_lt_window hlt
    change (side.slotToPrice (UInt32.ofNat pos), slot) ∈ linked
    rw [← hprice, slotToPrice_priceToSlot hwindow]
    exact hmem
  · rw [(hrep.overflow priced.1 priced.2 hoverflow).2.2.slots_eq] at hslot
    obtain ⟨price, hmem, hprice⟩ := mem_queueOf.mp hslot
    obtain rfl : price = priced.1 := of_decide_eq_true hprice
    exact hmem

/-- The side byte of a valid order. -/
theorem buySellIndicator_eq {order : Order} (hside : ValidSide order.buySellIndicator) :
    order.buySellIndicator = sideByte order.isBuy := by
  rcases hside with hbuy | hsell
  · rw [hbuy, Order.isBuy, hbuy]
    rfl
  · rw [hsell, Order.isBuy, hsell]
    decide

/-- An engine that represents a market is well formed. -/
theorem Represents.wellFormed (hrep : engine.Represents market) : engine.WellFormed := by
  obtain ⟨hfree, hnodup, hcover⟩ := hrep.freeSlots_spec
  refine ⟨hfree, ?_, ?_, ?_, ?_, ?_⟩
  · have hperm : (engine.freeSlots ++ engine.linkedSlots).Perm
        (engine.freeSlots ++ market.live.map Resting.slot) :=
      hrep.linkedSlots_perm.append_left _
    have hinjective : Function.Injective UInt32.toNat := fun _ _ => UInt32.toNat_inj.mp
    rw [List.perm_ext_iff_of_nodup ((hperm.nodup_iff.mpr hnodup).map hinjective) List.nodup_range]
    intro pos
    rw [List.mem_map, List.mem_range]
    constructor
    · rintro ⟨slot, hslot, rfl⟩
      exact (hcover slot).mp (hperm.mem_iff.mp hslot)
    · intro hpos
      have htoNat : (UInt32.ofNat pos).toNat = pos :=
        UInt32.toNat_ofNat_of_lt' (Nat.lt_trans hpos hrep.books.size)
      refine ⟨UInt32.ofNat pos, hperm.mem_iff.mpr ((hcover _).mpr ?_), htoNat⟩
      rwa [htoNat]
  · intro locate bid level hlevel
    have hchain := chain_of_mem_levels (hrep.books.linked locate bid) hlevel
    exact ⟨hchain, hchain.head_eq_invalid_iff.trans hchain.tail_eq_invalid_iff.symm⟩
  · intro locate bid priced hpriced slot hslot
    obtain ⟨resting, hmem, _, hbid, hprice, rfl⟩ := mem_sideOrders.mp
      (mem_linked_of_mem_pricedLevels (hrep.books.linked locate bid) hpriced hslot)
    rw [hrep.order_slot hmem]
    refine ⟨UInt32.pos_iff_ne_zero.mpr (hrep.sound.positive resting hmem), ?_, hprice⟩
    rw [← hbid]
    exact buySellIndicator_eq (hrep.sound.side resting hmem)
  · intro locate bid
    have hlinked := hrep.books.linked locate bid
    refine ⟨hlinked.sorted, fun entry hentry => ?_⟩
    obtain ⟨hslot, hne, hchain⟩ := hlinked.overflow entry.1 entry.2 hentry
    exact ⟨fun hnone => hne (hchain.head_eq_invalid_iff.mp hnone), hslot⟩
  · intro locate bid
    have hlinked := hrep.books.linked locate bid
    have hbest := hlinked.best
    rw [hrep.books.bid locate bid] at hbest
    apply hbest.congr
    intro slot hslot
    rw [Ne, (hlinked.ladder slot hslot).head_eq_invalid_iff]

end MatchingEngine

end Orderbook
