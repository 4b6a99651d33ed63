/-
# When the arena outgrows its index type

An order under the reserved key rests without an entry in the map, so the map does
not bound how many orders rest. Bids that meet no ask pile up, one slot each, and
nothing stops the arena at the end of its index type. The slot after the last
index is the first one again.

`Stacked` is what such a run keeps without any bound. It is weaker than
representing a market, which an engine beyond the bound does not.
-/

import Orderbook.Engine.WellFormed

namespace Orderbook

open Orderbook.Math LadderSide

namespace MatchingEngine

/-- No slot is free, one book has no asks, and the map stores `directory`. -/
structure Stacked (locate : UInt16) (directory : UInt64 → Option OrderLocation)
    (engine : MatchingEngine) : Prop where
  freeHead : engine.pool.freeHead = INVALID_INDEX
  asks : (engine.orderBooks locate).asks.bestLevel = none
  map : engine.orderMap.Represents .identity mapBits directory

/-- The next slot of a full arena. -/
def nextSlot (engine : MatchingEngine) : UInt32 := UInt32.ofNat engine.slots

structure Bid (order : Order) : Prop where
  side : order.buySellIndicator = buyByte
  shares : order.shares ≠ 0

/-- A bid that rests without an entry in the map. -/
structure Unlisted (order : Order) : Prop extends Bid order where
  ref_eq : order.ref = HashPolicy.identity.empty

/-- The directory after an order was put into the next slot of a full arena. -/
def listing (engine : MatchingEngine) (directory : UInt64 → Option OrderLocation)
    (locate : UInt16) (ref : UInt64) : UInt64 → Option OrderLocation :=
  if engine.nextSlot = INVALID_INDEX ∨ ref = HashPolicy.identity.empty then directory
  else Function.update directory ref (some { stockLocate := locate, poolIdx := engine.nextSlot })

variable {engine : MatchingEngine} {market : Market} {locate : UInt16} {order : Order}
  {directory : UInt64 → Option OrderLocation}

/-- An allocation in a full arena writes the next slot, wherever that is. -/
theorem order_allocate {pool : OrderPool} (hfull : pool.freeHead = INVALID_INDEX) (order : Order)
    (slot : UInt32) :
    ((pool.allocate order).2.node slot).order =
      if slot = UInt32.ofNat pool.nodes.size then order else (pool.node slot).order := by
  have hpush : ∀ other : UInt32,
      ({ pool with nodes := pool.nodes.push default } : OrderPool).node other =
        pool.node other := by
    intro other
    unfold OrderPool.node
    rw [Array.getElem?_push]
    split
    · rename_i heq
      simp [heq]
    · rfl
  have hlt : (UInt32.ofNat pool.nodes.size).toNat < (pool.nodes.push default).size := by
    rw [Array.size_push, UInt32.toNat_ofNat']
    exact Nat.lt_succ_of_le (Nat.mod_le _ _)
  unfold OrderPool.allocate
  simp only [hfull, ne_eq, not_true_eq_false, if_false]
  rw [OrderPool.node_modify hlt]
  split
  · rfl
  · exact congrArg PoolNode.order (hpush slot)

/-- A bid against a book without asks rests at once. -/
theorem handleOrder_of_no_asks {book : OrderBook} (hasks : book.asks.bestLevel = none)
    (hside : order.buySellIndicator = buyByte) (hshares : order.shares ≠ 0) (pool : OrderPool)
    {idx : UInt32} {grown linked : OrderPool} {bids : LadderSide}
    (hallocate : pool.allocate order = (idx, grown))
    (hadd : book.bids.add grown order.price idx = (linked, bids)) :
    book.handleOrder pool order [] [] = some (.ok
      { pool := linked, book := { bids, asks := book.asks }, restingIdx := idx
        removedRefs := [], executedOrders := [] }) := by
  have hpos : order.shares > 0 := UInt32.pos_iff_ne_zero.mpr hshares
  have hmatch : MatchState.matchSide (fun bestPrice limit => bestPrice > limit)
      { pool, side := book.asks, order, removedRefs := [], executedOrders := [] } =
        some { pool, side := book.asks, order, removedRefs := [], executedOrders := [] } := by
    apply iterate_of_leave
    simp [MatchState.outerPass, hpos, hasks]
  rw [OrderBook.handleOrder, if_pos hside, OrderBook.handleBuyOrder, hmatch]
  simp [restRemainder, hpos, hallocate, hadd]

/-- An order that rests and fills none is listed, unless it is under the reserved key. -/
theorem recordMatch_of_resting {map : OrderMap} (hmap : map.Represents .identity mapBits directory)
    (hroom : map.count .identity < 2 ^ mapBits) (ref : UInt64) (locate : UInt16)
    (handled : Handled) (hremoved : handled.removedRefs = []) :
    ∃ map', recordMatch map ref locate handled = some map' ∧
      map'.Represents .identity mapBits
        (if handled.restingIdx = INVALID_INDEX ∨ ref = HashPolicy.identity.empty then directory
        else Function.update directory ref
          (some { stockLocate := locate, poolIdx := handled.restingIdx })) := by
  have hfree := FlatHashMap.exists_free_of_count_lt hmap.shape hroom
  rw [recordMatch, hremoved, eraseRefs, Option.bind_some]
  by_cases hnone : handled.restingIdx = INVALID_INDEX
  · rw [if_neg (not_not.mpr hnone), if_pos (.inl hnone)]
    exact ⟨map, rfl, hmap⟩
  · rw [if_pos hnone]
    by_cases hreserved : ref = HashPolicy.identity.empty
    · rw [if_pos (.inr hreserved), hreserved]
      exact hmap.insert_empty hfree _
    · rw [if_neg (not_or.mpr ⟨hnone, hreserved⟩)]
      exact hmap.insert hfree hreserved _

/-- One more bid: it takes the next slot and leaves the other books alone. -/
theorem Stacked.add (hstacked : Stacked locate directory engine)
    (hroom : engine.entries < 2 ^ mapBits) (hbid : Bid order) (clock : Clock) :
    ∃ outcome, engine.processAdd locate order clock = some outcome ∧
      Stacked locate (engine.listing directory locate order.ref) outcome.engine ∧
      outcome.engine.slots = engine.slots + 1 ∧
      (∀ slot, outcome.engine.order slot =
        if slot = engine.nextSlot then order else engine.order slot) ∧
      (∀ other, other ≠ locate → outcome.engine.orderBooks other = engine.orderBooks other) ∧
      outcome.engine.pool = ((engine.orderBooks locate).bids.add (engine.pool.allocate order).2
        order.price (engine.pool.allocate order).1).1 := by
  set book := engine.orderBooks locate with hbook
  rcases hallocate : engine.pool.allocate order with ⟨idx, grown⟩
  rcases hadd : book.bids.add grown order.price idx with ⟨linked, bids⟩
  set handled : Handled :=
    { pool := linked, book := { bids, asks := book.asks }, restingIdx := idx
      removedRefs := [], executedOrders := [] }
  have hhandle : book.handleOrder engine.pool order [] [] = some (.ok handled) :=
    handleOrder_of_no_asks hstacked.asks hbid.side hbid.shares engine.pool hallocate hadd
  obtain ⟨map', hrecord, hmap'⟩ :=
    recordMatch_of_resting hstacked.map hroom order.ref locate handled rfl
  have hidx : idx = engine.nextSlot := by
    have hfirst : (engine.pool.allocate order).1 = engine.nextSlot := by
      simp [OrderPool.allocate, hstacked.freeHead, nextSlot, slots]
    rw [← hfirst, hallocate]
  have hlisted : map'.Represents .identity mapBits
      (engine.listing directory locate order.ref) := by
    rw [listing, ← hidx]
    exact hmap'
  obtain ⟨level, hlevel⟩ := exists_level_of_add book.bids grown order.price idx
  have hrelinked := relinked_linkAtTail grown level idx
  rw [← hlevel, hadd] at hrelinked
  have hsize := OrderPool.size_allocate engine.pool order
  have horder := order_allocate hstacked.freeHead order
  have hfreeHead : (engine.pool.allocate order).2.freeHead = INVALID_INDEX := by
    simp [OrderPool.allocate, hstacked.freeHead]
  rw [hallocate, if_neg (not_not.mpr hstacked.freeHead)] at hsize
  rw [hallocate] at horder hfreeHead
  dsimp only at hrelinked hsize horder hfreeHead
  refine ⟨recordLatency clock ⟨{ engine.setBook locate linked handled.book with
    orderMap := map' }, {}, none⟩, ?_, ⟨?_, ?_, hlisted⟩, ?_, ?_, ?_, ?_⟩
  · rw [processAdd, submit, ← hbook, hhandle, Option.bind_some]
    dsimp only
    rw [hrecord]
    rfl
  · exact hrelinked.freeHead.trans hfreeHead
  · change (if locate = locate then _ else _ : OrderBook).asks.bestLevel = none
    rw [if_pos rfl]
    exact hstacked.asks
  · exact hrelinked.size.trans hsize
  · intro slot
    exact (hrelinked.order slot).trans (horder slot)
  · intro other hother
    exact if_neg hother
  · rfl

theorem Unlisted.listing (hunlisted : Unlisted order) (engine : MatchingEngine)
    (directory : UInt64 → Option OrderLocation) (locate : UInt16) :
    engine.listing directory locate order.ref = directory :=
  if_pos (.inr hunlisted.ref_eq)

/-- Any number of unlisted bids after a run. -/
theorem Stacked.pile {past : List Delivery} {trace : List Transition} {delivery : Delivery}
    (hstacked : Stacked locate directory engine) (hreached : Reached past engine trace)
    (hroom : engine.entries < 2 ^ mapBits) (hunlisted : Unlisted order)
    (hdecoded : delivery.decoded = .add locate order) (count : ℕ) :
    ∃ last trace', Reached (past ++ List.replicate count delivery) last trace' ∧
      Stacked locate directory last ∧ last.entries = engine.entries ∧
      last.slots = engine.slots + count ∧
      (∀ slot, last.order slot =
        if ∃ earlier < count, slot = UInt32.ofNat (engine.slots + earlier) then order
        else engine.order slot) ∧
      ∀ other, other ≠ locate → last.orderBooks other = engine.orderBooks other := by
  induction count with
  | zero =>
      refine ⟨engine, trace, by simpa using hreached, hstacked, rfl, rfl, ?_, fun _ _ => rfl⟩
      simp
  | succ count ih =>
      obtain ⟨last, trace', ⟨scratch, hrun⟩, hlast, hentries, hslots, horder, hbooks⟩ := ih
      obtain ⟨outcome, hadd, hnext, hsize, hnextOrder, hnextBooks, _⟩ :=
        hlast.add (hentries ▸ hroom) hunlisted.toBid delivery.clock
      rw [hunlisted.listing] at hnext
      have happly : last.apply scratch delivery.clock delivery.decoded = some outcome := by
        rw [hdecoded]
        exact hadd
      have hreached' := reached_snoc hrun happly
      rw [List.append_assoc, ← List.replicate_succ'] at hreached'
      refine ⟨outcome.engine, _, hreached', hnext, ?_, ?_, ?_, ?_⟩
      · rw [← hentries, entries, entries, hnext.map.count_eq, hlast.map.count_eq]
      · rw [hsize, hslots, Nat.add_assoc]
      · intro slot
        rw [hnextOrder, horder, nextSlot, hslots]
        simp only [Nat.lt_succ_iff_lt_or_eq, or_and_right, exists_or, exists_eq_left]
        by_cases hlastSlot : slot = UInt32.ofNat (engine.slots + count)
        · simp [hlastSlot]
        · rw [if_neg hlastSlot]
          simp only [hlastSlot, or_false]
      · intro other hother
        rw [hnextBooks other hother, hbooks other hother]

/-- A pile never fills the order map. -/
theorem Stacked.entries_lt {past : List Delivery} {trace : List Transition} {delivery : Delivery}
    (hstacked : Stacked locate directory engine) (hreached : Reached past engine trace)
    (hunlisted : Unlisted order) (hdecoded : delivery.decoded = .add locate order)
    (hpast : ∀ earlier, earlier <+: past → ∀ engine trace, Reached earlier engine trace →
      engine.entries < 2 ^ mapBits) (count : ℕ) :
    ∀ earlier, earlier <+: past ++ List.replicate count delivery → ∀ engine trace,
      Reached earlier engine trace → engine.entries < 2 ^ mapBits := by
  intro earlier hearlier other trace' hother
  rcases List.prefix_or_prefix_of_prefix hearlier (List.prefix_append past _) with
    hbefore | ⟨rest, rfl⟩
  · exact hpast earlier hbefore other trace' hother
  · have hroom := hpast past (List.prefix_refl past) engine trace hreached
    have hrest : rest <+: List.replicate count delivery :=
      (List.prefix_append_right_inj past).mp hearlier
    obtain ⟨hlength, hrest⟩ := List.prefix_replicate_iff.mp hrest
    obtain ⟨last, _, hlast, _, hentries, _⟩ :=
      hstacked.pile hreached hroom hunlisted hdecoded rest.length
    rw [hrest] at hother
    rw [(hother.unique hlast).1, hentries]
    exact hroom

theorem Represents.freeSlots_eq_nil (hrep : engine.Represents market)
    (hfull : market.live.length = engine.slots) : engine.freeSlots = [] := by
  obtain ⟨_, hnodup, hcover⟩ := hrep.freeSlots_spec
  have hle := OrderPool.length_le_size hnodup fun slot hslot => (hcover slot).mp hslot
  rw [List.length_append, List.length_map] at hle
  change _ ≤ engine.slots at hle
  exact List.eq_nil_of_length_eq_zero (by omega)

/-- A full arena that represents a market is stacked for every book without
asks. -/
theorem Represents.stacked (hrep : engine.Represents market)
    (hfull : market.live.length = engine.slots)
    (hasks : ∀ resting ∈ market.live, resting.locate = locate → resting.order.isBuy = true) :
    Stacked locate market.directory engine where
  freeHead := by
    rw [hrep.freeSlots_spec.1.head, hrep.freeSlots_eq_nil hfull]
    rfl
  asks := by
    have hnil : sideOrders locate false market.live = [] := by
      rw [List.eq_nil_iff_forall_not_mem]
      rintro ⟨price, slot⟩ hmem
      obtain ⟨resting, hlive, hlocate, hbid, _⟩ := mem_sideOrders.mp hmem
      rw [hasks resting hlive hlocate] at hbid
      cases hbid
    have hlinked := hrep.books.linked locate false
    rw [hnil] at hlinked
    exact hlinked.bestLevel_of_nil
  map := hrep.directory

/-- In a full arena, an order that crosses nothing rests in the next slot and the
arena is full again. -/
theorem JointRun.add_to_full {past : List Delivery} {trace : List Transition}
    (hrun : JointRun past engine market trace) (hfull : market.live.length = engine.slots)
    (hroom : engine.entries < 2 ^ mapBits) (hsmall : engine.slots + 1 < 2 ^ 32)
    (locate : UInt16) (order : Order) (hside : ValidSide order.buySellIndicator)
    (hshares : order.shares ≠ 0)
    (hnone : ∀ resting ∈ market.live, (Resting.rules locate order).eligible resting = false) :
    ∃ next market' trace', JointRun (past ++ [.of (.add locate order)]) next market' trace' ∧
      market'.live = market.live ++ [⟨locate, engine.nextSlot, order⟩] ∧
      market'.directory = Market.relist market.directory
        { items := market.live, demand := order.shares.toNat } order.ref
        { stockLocate := locate, poolIdx := engine.nextSlot } ∧
      market'.live.length = next.slots ∧ next.slots = engine.slots + 1 := by
  obtain ⟨outcome, _, hle, hnext⟩ := hrun.extend hroom (.of (.add locate order))
  obtain ⟨slot, hrun', _⟩ := hnext (Nat.lt_of_le_of_lt hle hsmall)
  rw [Delivery.decoded_of] at hrun'
  have hdemand : order.shares.toNat ≠ 0 := fun h => hshares (UInt32.toNat_inj.mp h)
  have hstep : (market.step slot (.add locate order)).1 = market.submit slot locate order := by
    simp [Market.step, hside]
  have hlive : (market.submit slot locate order).live =
      market.live ++ [⟨locate, slot, order⟩] := by
    simp [Market.submit, Market.matched_of_not_eligible hnone, Market.rested, hdemand]
  rw [hstep] at hrun'
  have hslots : outcome.engine.slots = engine.slots + 1 := by
    have := hrun'.represents.length_live_le
    rw [hlive, List.length_append, List.length_singleton, hfull] at this
    omega
  have hslot : slot = engine.nextSlot := by
    have hnodup := hrun'.represents.sound.slots
    have hlt : slot.toNat < outcome.engine.slots :=
      hrun'.represents.books.slot_lt (hlive ▸ List.mem_append_right _ List.mem_cons_self)
    rw [hlive, List.map_append, List.map_singleton, ← List.concat_eq_append,
      List.nodup_concat] at hnodup
    have hge : engine.slots ≤ slot.toNat := by
      obtain ⟨_, _, hcover⟩ := hrun.represents.freeSlots_spec
      rw [hrun.represents.freeSlots_eq_nil hfull, List.nil_append] at hcover
      exact Nat.le_of_not_lt fun h => hnodup.1 ((hcover slot).mpr h)
    apply UInt32.toNat_inj.mp
    rw [nextSlot, UInt32.toNat_ofNat_of_lt' (Nat.lt_of_succ_lt hsmall)]
    omega
  subst hslot
  refine ⟨_, _, _, hrun', hlive, ?_, ?_, hslots⟩
  · simp [Market.submit, Market.matched_of_not_eligible hnone]
  · rw [hlive, List.length_append, List.length_singleton, hfull, hslots]

/-- The only order of a side is the head of one of its levels. -/
theorem Represents.exists_head (hrep : engine.Represents market) {bid : Bool}
    {price slot : UInt32} (hone : sideOrders locate bid market.live = [(price, slot)]) :
    ∃ level ∈ (engine.sides locate bid).levels, level.head = slot := by
  have hlinked := hrep.books.linked locate bid
  rw [hone] at hlinked
  obtain ⟨select, hselect, hprice⟩ := labels_cover hlinked (price, slot) List.mem_cons_self
  obtain ⟨labelled, hmem, rfl⟩ := List.mem_map.mp hselect
  have hchain := chain_of_mem_labelledLevels hlinked hmem
  refine ⟨labelled.2, levels_eq hlinked ▸ List.mem_map_of_mem hmem, ?_⟩
  rw [hchain.head]
  simp [queueOf, hprice]

/-- The head of a level is linked, whatever became of its slot. -/
theorem head_mem_sideSlots {bid : Bool} {level : Level}
    (hlevel : level ∈ (engine.sides locate bid).levels) (hhead : level.head ≠ INVALID_INDEX)
    (hslots : 0 < engine.slots) : level.head ∈ engine.sideSlots locate bid := by
  refine List.mem_flatMap.mpr ⟨level, hlevel, ?_⟩
  obtain ⟨fuel, hfuel⟩ := Nat.exists_eq_succ_of_ne_zero (Nat.ne_of_gt hslots)
  change engine.pool.nodes.size = fuel + 1 at hfuel
  rw [Level.slots, hfuel, OrderPool.walk, if_neg hhead]
  exact List.mem_cons_self

/-- The last index of the type is in no chain and in no free list. -/
theorem not_wellFormed_of_slots (hslots : 2 ^ 32 ≤ engine.slots) : ¬ engine.WellFormed := by
  intro hwell
  have hmem : 2 ^ 32 - 1 ∈ (engine.freeSlots ++ engine.linkedSlots).map UInt32.toNat :=
    hwell.split.mem_iff.mpr (List.mem_range.mpr (by omega))
  obtain ⟨slot, hslot, htoNat⟩ := List.mem_map.mp hmem
  obtain rfl : slot = INVALID_INDEX := UInt32.toNat_inj.mp htoNat
  rcases List.mem_append.mp hslot with hfree | hlinked
  · exact OrderPool.invalid_notMem_walk _ _ _ hfree
  · obtain ⟨locate, _, hbook⟩ := List.mem_flatMap.mp hlinked
    rcases List.mem_append.mp hbook with hside | hside
    · obtain ⟨level, _, hlevel⟩ := List.mem_flatMap.mp hside
      exact OrderPool.invalid_notMem_walk _ _ _ hlevel
    · obtain ⟨level, _, hlevel⟩ := List.mem_flatMap.mp hside
      exact OrderPool.invalid_notMem_walk _ _ _ hlevel

end MatchingEngine

end Orderbook
