/-
# Progress of the matching loops

An incoming order meets the crossing orders of the other side one after another. It
fills each of them completely except perhaps the last one, so it never meets an order
twice, and there are at most as many executions as there are orders that cross. The
outer loop leaves a price only when no order is left at it or when the incoming order
is done, and never comes back to it.

All this is read off the arena and the side as they were before the match. It needs
the bounds of safe runs: in an arena that outgrew its index type an order may have been
written over by one that does not cross at all.
-/

import Orderbook.Engine.Directory

namespace Orderbook

open Orderbook.Math LadderSide

/-- The slots on the other side of a book whose orders cross an incoming order. -/
def OrderBook.crossingSlots (book : OrderBook) (pool : OrderPool) (order : Order) :
    List UInt32 :=
  ((book.side (!order.isBuy)).linkedSlots pool).filter fun slot =>
    order.crosses (pool.node slot).order.price

/-- What a handled order has met, in terms of the arena before it came: the slots that it
filled, in order, and perhaps one more from which it took a part. -/
structure OrderBook.Fills (book : OrderBook) (pool : OrderPool) (order : Order)
    (handled : Handled) (filled : List UInt32) (part : Option (UInt32 × UInt32)) : Prop where
  removedRefs : handled.removedRefs = filled.map fun slot => (pool.node slot).order.ref
  executedOrders : handled.executedOrders =
    filled.map (fun slot =>
      .ofMatch (pool.node slot).order.ref (pool.node slot).order.shares) ++
    part.toList.map fun taken => .ofMatch (pool.node taken.1).order.ref taken.2
  positive : ∀ slot ∈ filled, 0 < (pool.node slot).order.shares
  short : ∀ taken ∈ part, 0 < taken.2 ∧ taken.2 < (pool.node taken.1).order.shares
  crossing : (filled ++ part.toList.map Prod.fst).Subperm (book.crossingSlots pool order)

namespace OrderBook.Fills

variable {book : OrderBook} {pool : OrderPool} {order : Order} {handled : Handled}
  {filled : List UInt32} {part : Option (UInt32 × UInt32)}

end OrderBook.Fills

section Market

variable {pool : OrderPool} {sides : Sides} {live : List Resting} {locate : UInt16}
  {order : Order} {book : OrderBook}

/-- The crossing slots are those of the eligible orders. -/
theorem Books.crossingSlots_perm (hbooks : Books pool sides live)
    (hbook : ∀ bid, sides locate bid = book.side bid) :
    (book.crossingSlots pool order).Perm
      ((live.filter (Resting.rules locate order).eligible).map Resting.slot) := by
  have hlinked := hbooks.linked locate (!order.isBuy)
  rw [hbook] at hlinked
  refine (hlinked.linkedSlots_perm.filter _).trans (.of_eq ?_)
  rw [sideOrders, List.map_map, List.filter_map, List.filter_filter]
  congr 1
  apply List.filter_congr
  intro resting hmem
  simp only [Function.comp_apply, Resting.rules, hbooks.stored resting hmem, Bool.decide_and,
    Bool.decide_eq_true]
  cases order.crosses resting.order.price <;> simp

namespace Served

variable {swept : Sweep Resting} {whole : List Resting} {part : Option (Resting × ℕ)}

/-- The orders that were filled completely are those that were served whole. -/
theorem filledRefs_eq
    (hserved : Rules.Served (Resting.rules locate order) live swept whole part) :
    filledRefs swept.fills = whole.map fun resting => resting.order.ref := by
  have hfull : (whole.map fun resting => (resting, resting.order.shares.toNat)).filter
      (fun fill : Fill => fill.2 = fill.1.order.shares.toNat) =
        whole.map fun resting => (resting, resting.order.shares.toNat) := by
    rw [List.filter_eq_self]
    intro fill hfill
    obtain ⟨resting, _, rfl⟩ := List.mem_map.mp hfill
    exact decide_eq_true rfl
  have hopen : part.toList.filter
      (fun fill : Fill => fill.2 = fill.1.order.shares.toNat) = [] := by
    rw [List.filter_eq_nil_iff]
    intro fill hfill hequal
    have hshort := (hserved.short fill (Option.mem_toList.mp hfill)).2.1
    exact absurd (of_decide_eq_true hequal) (Nat.ne_of_lt hshort)
  have hfills : swept.fills = (whole.map fun resting => (resting, resting.order.shares.toNat)) ++
      part.toList := hserved.fills
  rw [filledRefs, hfills, List.filter_append, hfull, hopen, List.append_nil, List.map_map]
  rfl

/-- A record for every order that was served whole, and perhaps one for a part. -/
theorem executedRecords_eq
    (hserved : Rules.Served (Resting.rules locate order) live swept whole part) :
    executedRecords swept.fills =
      whole.map (fun resting => .ofMatch resting.order.ref resting.order.shares) ++
        part.toList.map fun fill => .ofMatch fill.1.order.ref (UInt32.ofNat fill.2) := by
  have hfills : swept.fills = (whole.map fun resting => (resting, resting.order.shares.toNat)) ++
      part.toList := hserved.fills
  rw [executedRecords, hfills, List.map_append, List.map_map]
  refine congrArg (· ++ _) (List.map_congr_left fun resting _ => ?_)
  rw [Function.comp_apply, UInt32.ofNat_toNat]

/-- Everything that was served was there and crossed. -/
theorem subperm_eligible
    (hserved : Rules.Served (Resting.rules locate order) live swept whole part) :
    (whole ++ part.toList.map Prod.fst).Subperm
      (live.filter (Resting.rules locate order).eligible) := by
  have heligible : (whole ++ part.toList.map Prod.fst).filter
      (Resting.rules locate order).eligible = whole ++ part.toList.map Prod.fst := by
    rw [List.filter_eq_self]
    intro resting hresting
    have hfill : ∃ fill ∈ swept.fills, fill.1 = resting := by
      rw [hserved.fills]
      rcases List.mem_append.mp hresting with hin | hin
      · exact ⟨_, List.mem_append_left _ (List.mem_map_of_mem hin), rfl⟩
      · obtain ⟨fill, hfill, rfl⟩ := List.mem_map.mp hin
        exact ⟨fill, List.mem_append_right _ hfill, rfl⟩
    obtain ⟨fill, hfill, rfl⟩ := hfill
    exact hserved.eligible fill hfill
  rw [← heligible]
  exact hserved.taken.filter _

end Served

/-- What a sweep has served, as slots of the arena. -/
theorem Books.fills (hbooks : Books pool sides live)
    (hpositive : ∀ resting ∈ live, resting.order.shares ≠ 0)
    (hbook : ∀ bid, sides locate bid = book.side bid) {swept : Sweep Resting}
    {whole : List Resting} {part : Option (Resting × ℕ)}
    (hserved : Rules.Served (Resting.rules locate order) live swept whole part)
    {handled : Handled} (hremoved : handled.removedRefs = filledRefs swept.fills)
    (hexecuted : handled.executedOrders = executedRecords swept.fills) :
    book.Fills pool order handled (whole.map Resting.slot)
      (part.map fun fill => (fill.1.slot, UInt32.ofNat fill.2)) := by
  have hmem : ∀ resting ∈ whole ++ part.toList.map Prod.fst, resting ∈ live :=
    fun resting hresting => hserved.taken.subset hresting
  have hwhole : ∀ resting ∈ whole, (pool.node resting.slot).order = resting.order :=
    fun resting hresting => hbooks.stored resting (hmem resting (List.mem_append_left _ hresting))
  have hpart : ∀ fill ∈ part, (pool.node fill.1.slot).order = fill.1.order := by
    intro fill hfill
    apply hbooks.stored fill.1 (hmem fill.1 (List.mem_append_right _ ?_))
    exact List.mem_map_of_mem (Option.mem_toList.mpr hfill)
  refine ⟨?_, ?_, ?_, ?_, ?_⟩
  · rw [hremoved, Served.filledRefs_eq hserved, List.map_map]
    apply List.map_congr_left
    intro resting hresting
    rw [Function.comp_apply, hwhole resting hresting]
  · rw [hexecuted, Served.executedRecords_eq hserved, List.map_map, Option.toList_map,
      List.map_map]
    refine congrArg₂ (· ++ ·) (List.map_congr_left fun resting hresting => ?_)
      (List.map_congr_left fun fill hfill => ?_)
    · rw [Function.comp_apply, hwhole resting hresting]
    · rw [Function.comp_apply, hpart fill (Option.mem_toList.mp hfill)]
  · intro slot hslot
    obtain ⟨resting, hresting, rfl⟩ := List.mem_map.mp hslot
    rw [hwhole resting hresting]
    exact UInt32.pos_iff_ne_zero.mpr
      (hpositive resting (hmem resting (List.mem_append_left _ hresting)))
  · intro taken htaken
    obtain ⟨fill, hfill, rfl⟩ := Option.mem_map.mp htaken
    obtain ⟨hpos, hless, _⟩ := hserved.short fill hfill
    change fill.2 < fill.1.order.shares.toNat at hless
    have htoNat : (UInt32.ofNat fill.2).toNat = fill.2 :=
      UInt32.toNat_ofNat_of_lt' (Nat.lt_trans hless fill.1.order.shares.toNat_lt)
    dsimp only
    rw [hpart fill hfill, UInt32.lt_iff_toNat_lt, UInt32.lt_iff_toNat_lt, htoNat]
    exact ⟨hpos, hless⟩
  · have hslots : whole.map Resting.slot ++
        (part.map fun fill => (fill.1.slot, UInt32.ofNat fill.2)).toList.map Prod.fst =
          (whole ++ part.toList.map Prod.fst).map Resting.slot := by
      rw [Option.toList_map, List.map_map, List.map_append, List.map_map]
      rfl
    obtain ⟨served, hperm, hsublist⟩ := Served.subperm_eligible hserved
    rw [hslots]
    exact List.Subperm.trans ⟨served.map Resting.slot, hperm.map _, hsublist.map _⟩
      (hbooks.crossingSlots_perm hbook).symm.subperm

end Market

namespace MatchingEngine

variable {stream : List Delivery} {engine : MatchingEngine} {trace : List Transition}

/-- A match against a side with one order that has exactly the shares of the incoming one,
whatever else is stored in its slot: the side is empty afterwards. -/
theorem matchSide_of_single {stops : UInt32 → UInt32 → Bool} {start : MatchState}
    {price idx : UInt32} (hrep : start.side.Represents start.pool [(price, idx)])
    (hstops : stops price start.order.price = false)
    (hshares : (start.pool.node idx).order.shares = start.order.shares)
    (hpos : start.order.shares ≠ 0) :
    ∃ state, MatchState.matchSide stops start = some state ∧ state.side.bestLevel = none ∧
      state.removedRefs = start.removedRefs ++ [(start.pool.node idx).order.ref] ∧
      state.executedOrders =
        start.executedOrders ++ [.ofMatch (start.pool.node idx).order.ref start.order.shares] := by
  obtain ⟨ptr, hbest, hchain⟩ := hrep.best_of_single
  have hvalid := (hchain.valid idx List.mem_cons_self).1
  have hstartPos : start.order.shares > 0 := UInt32.pos_iff_ne_zero.mpr hpos
  have hexecuted : min start.order.shares (start.pool.node idx).order.shares =
      (start.pool.node idx).order.shares :=
    min_eq_right_of_toNat_le (Nat.le_of_eq (congrArg UInt32.toNat hshares))
  have hqueue : queueOf (atPrice price) [(price, idx)] = [idx] := by simp [queueOf, atPrice]
  have hhead := MatchState.headFilled hrep hbest hqueue rfl hexecuted
  have hdone : (start.fillHead ptr).order.shares = 0 := by
    rw [hhead.order, hshares, UInt32.sub_self]
  have hlevel : MatchState.matchLevel ptr start = some (start.fillHead ptr) := by
    have hfirst : MatchState.matchLevel ptr start =
        MatchState.matchLevel ptr (start.fillHead ptr) := by
      refine loopWhile_of_true ?_ rfl
      have hlevelHead : (start.levelAt ptr).head = idx := hchain.head
      rw [Bool.and_eq_true, decide_eq_true_eq, decide_eq_true_eq, hlevelHead]
      exact ⟨hstartPos, hvalid⟩
    rw [hfirst]
    apply loopWhile_of_false
    rw [hdone]
    rfl
  have houter : start.outerPass stops =
      some (.inl ((start.fillHead ptr).retire price ptr)) := by
    unfold MatchState.outerPass
    rw [if_pos hstartPos, hbest.result]
    dsimp only
    rw [hstops, hlevel]
    rfl
  have hleave : ((start.fillHead ptr).retire price ptr).outerPass stops =
      some (.inr ((start.fillHead ptr).retire price ptr)) := by
    apply if_neg
    rw [MatchState.order_retire, hdone]
    exact UInt32.lt_irrefl 0
  refine ⟨(start.fillHead ptr).retire price ptr, ?_, ?_, ?_, ?_⟩
  · rw [MatchState.matchSide, iterate_of_continue houter, iterate_of_leave hleave]
  · have hreduced : start.side.Represents (start.pool.modify idx
        (Books.reduceNode (start.pool.node idx).order.shares)) [(price, idx)] := by
      refine hrep.congr (fun other _ => ⟨?_, ?_⟩) (Nat.le_of_eq (OrderPool.size_modify ..).symm)
      · exact OrderPool.field_modify PoolNode.next _ idx other fun _ => rfl
      · exact OrderPool.field_modify PoolNode.prev _ idx other fun _ => rfl
    have hremoved := (hreduced.remove List.mem_cons_self).2
    have hnone : ([(price, idx)].filter fun entry => entry.2 ≠ idx) = [] := by simp
    rw [hnone] at hremoved
    rw [hhead.side]
    exact hremoved.bestLevel_of_nil
  · rw [MatchState.removedRefs_retire, hhead.removedRefs]
  · rw [MatchState.executedOrders_retire, hhead.executedOrders, hshares]

/-- A buy that takes exactly the shares of the only ask. -/
theorem handleOrder_of_single {book : OrderBook} {pool : OrderPool} (order : Order)
    {price idx : UInt32} (hbuy : order.buySellIndicator = buyByte)
    (hrep : book.asks.Represents pool [(price, idx)]) (hprice : price ≤ order.price)
    (hshares : (pool.node idx).order.shares = order.shares) (hpos : order.shares ≠ 0) :
    ∃ handled, book.handleOrder pool order [] [] = some (.ok handled) ∧
      handled.book.asks.bestLevel = none ∧
      handled.removedRefs = [(pool.node idx).order.ref] ∧
      handled.executedOrders = [.ofMatch (pool.node idx).order.ref order.shares] := by
  have hisBuy : order.isBuy = true := decide_eq_true hbuy
  have hside : (book.matching pool order).side = book.asks := by
    rw [OrderBook.matching, hisBuy]
    rfl
  have hstops : order.stops price (book.matching pool order).order.price = false := by
    have hstop := order.stops_price price
    rw [Order.crosses, hisBuy, if_pos rfl, decide_eq_true hprice] at hstop
    exact hstop
  rw [← hside] at hrep
  obtain ⟨state, hstate, hnone, hremoved, hexecuted⟩ :=
    matchSide_of_single hrep hstops hshares hpos
  refine ⟨book.rest order state, ?_, ?_, hremoved, hexecuted⟩
  · rw [OrderBook.handleOrder_eq book pool (.inl hbuy), hstate, Option.map_some]
  · have hasks : (book.rest order state).book.asks = state.side := by
      rw [OrderBook.rest, hisBuy]
      rfl
    rw [hasks]
    exact hnone

/-- A bid that finds all slot indices used and its side empty: the first slot is written again
and loses its links. -/
theorem Stacked.add_wrapped {locate : UInt16} {directory : UInt64 → Option OrderLocation}
    {order : Order} (hstacked : Stacked locate directory engine)
    (hroom : engine.entries < 2 ^ mapBits) (hbid : Bid order) (hfull : engine.slots = 2 ^ 32)
    (hbids : (engine.orderBooks locate).bids.Represents engine.pool []) (clock : Clock) :
    ∃ outcome, engine.processAdd locate order clock = some outcome ∧
      outcome.engine.slots = 2 ^ 32 + 1 ∧
      (∀ other, other ≠ locate → outcome.engine.orderBooks other = engine.orderBooks other) ∧
      (outcome.engine.pool.node 0).order = order ∧
      (outcome.engine.pool.node 0).next = INVALID_INDEX ∧
      (outcome.engine.pool.node 0).prev = INVALID_INDEX ∧
      Stacked locate (engine.listing directory locate order.ref) outcome.engine := by
  obtain ⟨outcome, hadd, hlisted, hslots, horder, hbooks, hpool⟩ := hstacked.add hroom hbid clock
  have hnextSlot : engine.nextSlot = 0 := by
    rw [nextSlot, hfull]
    rfl
  have hgrown : (engine.pool.allocate order).1 = 0 := by
    rw [← hnextSlot]
    simp [OrderPool.allocate, hstacked.freeHead, nextSlot, slots]
  have hsize : (engine.pool.allocate order).2.nodes.size = 2 ^ 32 + 1 := by
    rw [OrderPool.size_allocate, if_neg (not_not.mpr hstacked.freeHead)]
    exact congrArg (· + 1) hfull
  have hempty : (engine.orderBooks locate).bids.Represents
      (engine.pool.allocate order).2 [] := by
    refine hbids.congr (fun _ hnever => absurd hnever List.not_mem_nil) ?_
    rw [hsize]
    exact Nat.le_succ_of_le (Nat.le_of_eq hfull)
  have hvalid : (0 : UInt32) ≠ INVALID_INDEX := by decide
  have hinside : (0 : UInt32).toNat < (engine.pool.allocate order).2.nodes.size := by
    rw [hsize]
    decide
  have hlinks := (hempty.add List.not_mem_nil hvalid hinside order.price).2.links_of_single
  rw [hgrown] at hpool
  rw [← hpool] at hlinks
  refine ⟨outcome, hadd, ?_, hbooks, (horder 0).trans (if_pos hnextSlot.symm), hlinks.1, hlinks.2,
    hlisted⟩
  rw [hslots, hfull]

/-- An ask of book 1 whose slot was written over by a bid of book 3: the ask is still linked
at its price, but its slot holds the bid. -/
structure TakenOver (order : Order) (engine : MatchingEngine) : Prop where
  asks : (engine.orderBooks 1).asks.Represents engine.pool [(150, 0)]
  stored : (engine.pool.node 0).order = order
  full : engine.pool.freeHead = INVALID_INDEX
  map : ∃ directory, engine.orderMap.Represents .identity mapBits directory ∧
    (order.ref ≠ HashPolicy.identity.empty →
      directory order.ref = some { stockLocate := 3, poolIdx := 0 })

/-- Any bid can take over the slot of an ask. -/
theorem exists_takenOver {order : Order} (hbid : Bid order) :
    ∃ stream engine trace, Reached stream engine trace ∧ TakenOver order engine := by
  have hwithin : Within [.of (.add 1 (unlistedAsk 150))] := within_of_length_lt (by decide)
  have hroom := (hwithin [] List.nil_prefix _ _ reached_nil).1
  obtain ⟨first, market, trace, hrun, hlive, _, hfull, hslots⟩ :=
    JointRun.start.add_to_full rfl hroom (by decide) 1 (unlistedAsk 150) (.inr rfl) (by decide)
      (by simp)
  have hroom' := (hwithin _ (List.prefix_refl _) _ _ hrun.reached).1
  have hrep := hrun.represents
  have hfirstSlot : initial.nextSlot = 0 := rfl
  rw [hfirstSlot] at hlive
  change market.live = [⟨1, 0, unlistedAsk 150⟩] at hlive
  change first.slots = 1 at hslots
  have hstacked : ∀ locate, locate ≠ 1 → Stacked locate market.directory first := by
    intro locate hother
    apply hrep.stacked hfull
    intro resting hmem hlocate
    rw [hlive] at hmem
    cases List.mem_singleton.mp hmem
    exact absurd hlocate.symm hother
  have hdecoded := Delivery.decoded_of (.add 2 (unlistedBid 200))
  obtain ⟨second, trace', ⟨scratch, hrun'⟩, hpiled, hentries, hslots', _, hbooks⟩ :=
    (hstacked 2 (by decide)).pile hrun.reached hroom' (unlisted_unlistedBid 200) hdecoded
      (2 ^ 32 - 1)
  have hfullSlots : second.slots = 2 ^ 32 := by rw [hslots', hslots]; rfl
  have hless : first.slots ≤ second.slots := by rw [hslots']; exact Nat.le_add_right _ _
  have hstacked' : Stacked 3 market.directory second := by
    refine ⟨hpiled.freeHead, ?_, hpiled.map⟩
    rw [hbooks 3 (by decide)]
    exact (hstacked 3 (by decide)).asks
  have hbids : (second.orderBooks 3).bids.Represents second.pool [] := by
    have hlinked := hrep.books.linked 3 true
    have hnone : sideOrders 3 true market.live = [] := by
      rw [hlive]
      decide
    rw [hnone] at hlinked
    rw [hbooks 3 (by decide)]
    exact hlinked.congr (fun _ hnever => absurd hnever List.not_mem_nil) hless
  obtain ⟨outcome, hadd, hsize, hbooks', horder, hnext, hprev, hlisted⟩ :=
    hstacked'.add_wrapped (hentries ▸ hroom') hbid hfullSlots hbids
      (Delivery.of (.add 3 order)).clock
  have happly : second.apply scratch (Delivery.of (.add 3 order)).clock
      (Delivery.of (.add 3 order)).decoded = some outcome := by
    rw [Delivery.decoded_of]
    exact hadd
  refine ⟨_, outcome.engine, _, reached_snoc hrun' happly, ?_, horder, hlisted.freeHead,
    _, hlisted.map, fun href => ?_⟩
  · have hasks := hrep.books.linked 1 false
    have hone : sideOrders 1 false market.live = [(150, 0)] := by
      rw [hlive]
      decide
    rw [hone] at hasks
    have hlinks := hasks.links_of_single
    rw [hbooks' 1 (by decide), hbooks 1 (by decide)]
    refine hasks.congr (fun idx hidx => ?_) ?_
    · cases List.mem_singleton.mp hidx
      exact ⟨hnext.trans hlinks.1.symm, hprev.trans hlinks.2.symm⟩
    · exact Nat.le_trans hless (hfullSlots.trans_le (hsize.ge.trans' (Nat.le_succ _)))
  · have hnextSlot : second.nextSlot = 0 := by
      rw [nextSlot, hfullSlots]
      rfl
    rw [listing, hnextSlot, if_neg (not_or.mpr ⟨by decide, href⟩), Function.update_self]

end MatchingEngine

end Orderbook
