/-
# What an engine holds, read from its memory

The free list, the chains of all books and the entries of the order map, as a
reader of the engine's memory finds them. In an engine that represents a market
they are the market's: the chains hold the live orders, price by price in order
of arrival, and the entries are the directory.
-/

import Orderbook.Book.Layout
import Orderbook.Engine.Run

namespace Orderbook

open Orderbook.Math LadderSide

/-- The free list of the arena and the live orders make up the arena. -/
theorem Books.freeSlots_spec {pool : OrderPool} {sides : Sides} {live : List Resting}
    (hbooks : Books pool sides live) :
    pool.FreeList pool.freeSlots ∧ (pool.freeSlots ++ live.map Resting.slot).Nodup ∧
      ∀ slot : UInt32, slot ∈ pool.freeSlots ++ live.map Resting.slot ↔
        slot.toNat < pool.nodes.size := by
  obtain ⟨free, hfree, hnodup, hcover⟩ := hbooks.arena
  have hrange : ∀ idx ∈ free, idx.toNat < pool.nodes.size := fun idx hidx =>
    (hcover idx).mp (List.mem_append_left _ hidx)
  have hslots : pool.freeSlots = free := by
    rw [OrderPool.freeSlots, hfree.head]
    apply OrderPool.walk_of_path hfree.path
    · exact fun idx hidx => Books.ne_invalid_of_lt hbooks.size (hrange idx hidx)
    · exact OrderPool.length_le_size (List.nodup_append.mp hnodup).1 hrange
  rw [hslots]
  exact ⟨hfree, hnodup, hcover⟩

/-- A slot of the arena that holds no live order is free. -/
theorem Books.mem_freeSlots {pool : OrderPool} {sides : Sides} {live : List Resting}
    (hbooks : Books pool sides live) {slot : UInt32} (hslot : slot.toNat < pool.nodes.size)
    (hgone : slot ∉ live.map Resting.slot) : slot ∈ pool.freeSlots :=
  (List.mem_append.mp ((hbooks.freeSlots_spec.2.2 slot).mpr hslot)).resolve_right hgone

namespace MatchingEngine

/-- The order stored in a slot. -/
def order (engine : MatchingEngine) (slot : UInt32) : Order := (engine.pool.node slot).order

/-- The slots linked on one side of a book. -/
def sideSlots (engine : MatchingEngine) (locate : UInt16) (bid : Bool) : List UInt32 :=
  (engine.sides locate bid).linkedSlots engine.pool

/-- The slots linked in a book. -/
def bookSlots (engine : MatchingEngine) (locate : UInt16) : List UInt32 :=
  engine.sideSlots locate true ++ engine.sideSlots locate false

/-- The slots linked in any of the books. -/
def linkedSlots (engine : MatchingEngine) : List UInt32 :=
  (List.range (2 ^ 16)).flatMap fun locate => engine.bookSlots (UInt16.ofNat locate)

/-- The slots of the free list. -/
def freeSlots (engine : MatchingEngine) : List UInt32 :=
  engine.pool.walk engine.slots engine.pool.freeHead

/-- The orders resting at one price of a side, first in first. -/
def queue (engine : MatchingEngine) (locate : UInt16) (bid : Bool) (price : UInt32) :
    List Order :=
  ((engine.sideSlots locate bid).map engine.order).filter fun order => order.price = price

/-- An occupied entry of the order map. -/
def Entry (engine : MatchingEngine) (ref : UInt64) (location : OrderLocation) : Prop :=
  ref ≠ HashPolicy.identity.empty ∧
    ∃ idx < engine.orderMap.table.size, engine.orderMap.entryAt .identity idx = ⟨ref, location⟩

variable {engine : MatchingEngine} {market : Market} {locate : UInt16} {bid : Bool}

namespace Represents

theorem mem_sideSlots (hrep : engine.Represents market) {slot : UInt32} :
    slot ∈ engine.sideSlots locate bid ↔
      ∃ resting ∈ market.live, resting.locate = locate ∧ resting.order.isBuy = bid ∧
        resting.slot = slot := by
  rw [sideSlots, (hrep.books.linked locate bid).linkedSlots_perm.mem_iff, mem_slots_sideOrders]

theorem mem_bookSlots (hrep : engine.Represents market) {slot : UInt32} :
    slot ∈ engine.bookSlots locate ↔
      ∃ resting ∈ market.live, resting.locate = locate ∧ resting.slot = slot := by
  rw [bookSlots, List.mem_append, hrep.mem_sideSlots, hrep.mem_sideSlots]
  constructor
  · rintro (⟨resting, hmem, hlocate, _, hslot⟩ | ⟨resting, hmem, hlocate, _, hslot⟩)
    · exact ⟨resting, hmem, hlocate, hslot⟩
    · exact ⟨resting, hmem, hlocate, hslot⟩
  · rintro ⟨resting, hmem, hlocate, hslot⟩
    cases hbuy : resting.order.isBuy with
    | true => exact .inl ⟨resting, hmem, hlocate, hbuy, hslot⟩
    | false => exact .inr ⟨resting, hmem, hlocate, hbuy, hslot⟩

theorem order_slot (hrep : engine.Represents market) {resting : Resting}
    (hmem : resting ∈ market.live) : engine.order resting.slot = resting.order :=
  hrep.books.stored resting hmem

theorem nodup_sideSlots (hrep : engine.Represents market) (locate : UInt16) (bid : Bool) :
    (engine.sideSlots locate bid).Nodup := by
  have hlinked := hrep.books.linked locate bid
  rw [sideSlots, hlinked.linkedSlots_perm.nodup_iff]
  exact hlinked.nodup

/-- The chains of all books hold every live order once. -/
theorem linkedSlots_perm (hrep : engine.Represents market) :
    engine.linkedSlots.Perm (market.live.map Resting.slot) := by
  have huniq : ∀ first ∈ market.live, ∀ second ∈ market.live, first.slot = second.slot →
      first = second := fun first hfirst second hsecond =>
    hrep.books.eq_of_slot_eq hfirst hsecond
  rw [List.perm_ext_iff_of_nodup _ hrep.sound.slots]
  · intro slot
    rw [linkedSlots, List.mem_flatMap, List.mem_map]
    constructor
    · rintro ⟨locate, _, hslot⟩
      obtain ⟨resting, hmem, _, hslot⟩ := hrep.mem_bookSlots.mp hslot
      exact ⟨resting, hmem, hslot⟩
    · rintro ⟨resting, hmem, hslot⟩
      refine ⟨resting.locate.toNat, List.mem_range.mpr resting.locate.toNat_lt, ?_⟩
      rw [UInt16.ofNat_toNat]
      exact hrep.mem_bookSlots.mpr ⟨resting, hmem, rfl, hslot⟩
  · rw [linkedSlots, List.nodup_flatMap]
    constructor
    · intro locate _
      rw [bookSlots, List.nodup_append]
      refine ⟨hrep.nodup_sideSlots _ _, hrep.nodup_sideSlots _ _, ?_⟩
      rintro slot hbid other hask rfl
      obtain ⟨first, hfirst, _, hbuy, hslot⟩ := hrep.mem_sideSlots.mp hbid
      obtain ⟨second, hsecond, _, hsell, hslot'⟩ := hrep.mem_sideSlots.mp hask
      rw [huniq first hfirst second hsecond (hslot.trans hslot'.symm), hsell] at hbuy
      cases hbuy
    · apply List.pairwise_lt_range.imp_of_mem
      intro first second hfirst hsecond hlt slot hin hin'
      obtain ⟨resting, hmem, hlocate, hslot⟩ := hrep.mem_bookSlots.mp hin
      obtain ⟨other, hother, hlocate', hslot'⟩ := hrep.mem_bookSlots.mp hin'
      rw [huniq resting hmem other hother (hslot.trans hslot'.symm), hlocate'] at hlocate
      have := congrArg UInt16.toNat hlocate
      rw [UInt16.toNat_ofNat_of_lt' (List.mem_range.mp hfirst),
        UInt16.toNat_ofNat_of_lt' (List.mem_range.mp hsecond)] at this
      omega

/-- The free list ends, and together with the live orders it makes up the
arena. -/
theorem freeSlots_spec (hrep : engine.Represents market) :
    engine.pool.FreeList engine.freeSlots ∧
      (engine.freeSlots ++ market.live.map Resting.slot).Nodup ∧
      ∀ slot : UInt32, slot ∈ engine.freeSlots ++ market.live.map Resting.slot ↔
        slot.toNat < engine.slots :=
  hrep.books.freeSlots_spec

/-- The orders at a price, read from the chains, are the live ones in order of
arrival. -/
theorem queue_eq (hrep : engine.Represents market) (locate : UInt16) (bid : Bool)
    (price : UInt32) :
    engine.queue locate bid price =
      (market.live.filter fun resting => resting.locate = locate ∧
        resting.order.isBuy = bid ∧ resting.order.price = price).map Resting.order := by
  have hhere : ∀ entry ∈ sideOrders locate bid market.live,
      decide ((engine.order entry.2).price = price) = decide (entry.1 = price) := by
    rintro ⟨label, slot⟩ hentry
    obtain ⟨resting, hmem, _, _, rfl, rfl⟩ := mem_sideOrders.mp hentry
    rw [hrep.order_slot hmem]
  have hslots : (engine.sideSlots locate bid).filter
      (fun slot => decide ((engine.order slot).price = price)) =
        queueOf (atPrice price) (sideOrders locate bid market.live) :=
    (hrep.books.linked locate bid).filter_linkedSlots hhere
  rw [queue, List.filter_map]
  change ((engine.sideSlots locate bid).filter
    (fun slot => decide ((engine.order slot).price = price))).map engine.order = _
  rw [hslots, queueOf_sideOrders, List.map_map]
  apply List.map_congr_left
  intro resting hmem
  exact hrep.order_slot (List.mem_filter.mp hmem).1

theorem length_live_le (hrep : engine.Represents market) : market.live.length ≤ engine.slots := by
  have hrange : ∀ slot ∈ market.live.map Resting.slot, slot.toNat < engine.pool.nodes.size := by
    intro slot hslot
    obtain ⟨resting, hmem, rfl⟩ := List.mem_map.mp hslot
    exact hrep.books.slot_lt hmem
  have hle := OrderPool.length_le_size hrep.sound.slots hrange
  rwa [List.length_map] at hle

end Represents

/-- The entries of the order map are the directory it stores. -/
theorem entry_iff {directory : UInt64 → Option OrderLocation}
    (hmap : engine.orderMap.Represents .identity mapBits directory) {ref : UInt64}
    {location : OrderLocation} :
    engine.Entry ref location ↔ directory ref = some location := by
  rw [hmap.stores ref location, Entry, hmap.shape.size]

end MatchingEngine

end Orderbook
