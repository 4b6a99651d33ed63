/-
# Matching as removal

The matching loops pop the head of a level inline and put off the work on the level until
it is drained, while a cancellation unlinks its order and repairs the side at once. Both
leave the same book and the same arena: handling an order is removing the orders that it
fills, one after another, taking the executed shares from one more, and resting what is
left.

Only slots that were freed tell the difference. The loops have taken all shares of an order
when they free its slot, and a removal frees it as it is. Nothing reads the shares of a free
slot, so the arenas agree in everything else, and a slot that is handed out again is written
anew.
-/

import Orderbook.Engine.Progress
import Orderbook.Engine.Reductions

namespace Orderbook

open Orderbook.Math LadderSide

namespace OrderPool

/-- The arena in which the orders at some slots have no shares left. -/
def drain (pool : OrderPool) (slots : List UInt32) : OrderPool :=
  slots.foldl (fun pool slot => pool.mapShares slot fun _ => 0) pool

theorem drain_snoc (pool : OrderPool) (slots : List UInt32) (slot : UInt32) :
    pool.drain (slots ++ [slot]) = (pool.drain slots).mapShares slot fun _ => 0 := by
  rw [drain, List.foldl_append]
  rfl

@[simp]
theorem size_drain (pool : OrderPool) (slots : List UInt32) :
    (pool.drain slots).nodes.size = pool.nodes.size := by
  induction slots generalizing pool with
  | nil => rfl
  | cons slot slots ih => exact (ih _).trans (size_modify ..)

@[simp]
theorem freeHead_drain (pool : OrderPool) (slots : List UInt32) :
    (pool.drain slots).freeHead = pool.freeHead := by
  induction slots generalizing pool with
  | nil => rfl
  | cons slot slots ih => exact ih _

@[simp]
theorem next_drain (pool : OrderPool) (slots : List UInt32) (idx : UInt32) :
    ((pool.drain slots).node idx).next = (pool.node idx).next := by
  induction slots generalizing pool with
  | nil => rfl
  | cons slot slots ih => exact (ih _).trans (next_mapShares ..)

@[simp]
theorem prev_drain (pool : OrderPool) (slots : List UInt32) (idx : UInt32) :
    ((pool.drain slots).node idx).prev = (pool.node idx).prev := by
  induction slots generalizing pool with
  | nil => rfl
  | cons slot slots ih => exact (ih _).trans (prev_mapShares ..)

/-- The other slots are as they were. -/
theorem node_drain_of_not_mem {slots : List UInt32} {idx : UInt32} (hidx : idx ∉ slots)
    (pool : OrderPool) : (pool.drain slots).node idx = pool.node idx := by
  induction slots generalizing pool with
  | nil => rfl
  | cons slot slots ih =>
      obtain ⟨hne, hrest⟩ := List.ne_and_not_mem_of_not_mem_cons hidx
      exact (ih hrest _).trans (node_modify_of_ne hne _)

/-- An operation that neither reads nor writes shares does not notice drained slots. -/
theorem commutes_drain {β : Type} (operation : OrderPool → OrderPool × β)
    (hcommutes : ∀ pool idx, operation (pool.mapShares idx fun _ => 0) =
      ((operation pool).1.mapShares idx fun _ => 0, (operation pool).2))
    (pool : OrderPool) (slots : List UInt32) :
    operation (pool.drain slots) = ((operation pool).1.drain slots, (operation pool).2) := by
  induction slots generalizing pool with
  | nil => rfl
  | cons slot slots ih =>
      have hrest := ih (pool.mapShares slot fun _ => 0)
      rw [hcommutes] at hrest
      exact hrest

theorem free_drain (pool : OrderPool) (slots : List UInt32) (idx : UInt32) :
    (pool.drain slots).free idx = (pool.free idx).drain slots := by
  induction slots generalizing pool with
  | nil => rfl
  | cons slot slots ih =>
      have hrest := ih (pool.mapShares slot fun _ => 0)
      rw [free_mapShares] at hrest
      exact hrest

/-- Two writes that agree on the node at an index do the same there. -/
theorem modify_congr {pool : OrderPool} {idx : UInt32} {first second : PoolNode → PoolNode}
    (hagree : first (pool.node idx) = second (pool.node idx)) :
    pool.modify idx first = pool.modify idx second := by
  have hnodes : pool.nodes.modify idx.toNat first = pool.nodes.modify idx.toNat second := by
    apply Array.ext_getElem?
    intro i
    rw [Array.getElem?_modify, Array.getElem?_modify]
    split
    · rename_i heq
      subst heq
      rw [node] at hagree
      cases hnode : pool.nodes[idx.toNat]? with
      | none => rfl
      | some found =>
          rw [hnode] at hagree
          exact congrArg some hagree
    · rfl
  rw [modify, modify, hnodes]

/-- Taking all shares of an order drains its slot. -/
theorem modify_reduceNode_eq {pool : OrderPool} {idx shares : UInt32}
    (hshares : (pool.node idx).order.shares = shares) :
    pool.modify idx (Books.reduceNode shares) = pool.mapShares idx fun _ => 0 := by
  apply modify_congr
  rw [Books.reduceNode, hshares, UInt32.sub_self]
  rfl

/-- Writes at different indices commute. -/
theorem modify_mapShares_of_ne {idx other : UInt32} (hne : other ≠ idx)
    (write : PoolNode → PoolNode) (change : UInt32 → UInt32) (pool : OrderPool) :
    (pool.mapShares idx change).modify other write =
      (pool.modify other write).mapShares idx change := by
  have hne' : other.toNat ≠ idx.toNat := fun h => hne (UInt32.toNat_inj.mp h)
  have hnodes : (pool.nodes.modify idx.toNat (PoolNode.mapShares change)).modify other.toNat
      write = (pool.nodes.modify other.toNat write).modify idx.toNat
        (PoolNode.mapShares change) := by
    apply Array.ext_getElem?
    intro i
    simp only [Array.getElem?_modify]
    split_ifs with hother hidx
    · exact absurd (hother.trans hidx.symm) hne'
    all_goals rfl
  rw [mapShares, mapShares, modify, modify, modify, modify, hnodes]

/-- Writing a whole node forgets its shares. -/
theorem modify_const_mapShares (pool : OrderPool) (idx : UInt32) (change : UInt32 → UInt32)
    (written : PoolNode) :
    (pool.mapShares idx change).modify idx (fun _ => written) =
      pool.modify idx fun _ => written := by
  have hnodes : (pool.nodes.modify idx.toNat (PoolNode.mapShares change)).modify idx.toNat
      (fun _ => written) = pool.nodes.modify idx.toNat fun _ => written := by
    apply Array.ext_getElem?
    intro i
    simp only [Array.getElem?_modify]
    split_ifs
    · cases pool.nodes[i]? <;> rfl
    · rfl
  rw [mapShares, modify, modify, modify, hnodes]

theorem mapShares_drain {slots : List UInt32} {idx : UInt32} (hidx : idx ∉ slots)
    (change : UInt32 → UInt32) (pool : OrderPool) :
    (pool.drain slots).mapShares idx change = (pool.mapShares idx change).drain slots := by
  induction slots generalizing pool with
  | nil => rfl
  | cons slot slots ih =>
      obtain ⟨hne, hrest⟩ := List.ne_and_not_mem_of_not_mem_cons hidx
      have hswap : (pool.mapShares slot fun _ => 0).mapShares idx change =
          (pool.mapShares idx change).mapShares slot fun _ => 0 :=
        modify_mapShares_of_ne hne _ _ pool
      have hothers := ih hrest (pool.mapShares slot fun _ => 0)
      rw [hswap] at hothers
      exact hothers

/-- A slot that is written anew is not drained any more. -/
theorem modify_const_drain (idx : UInt32) (written : PoolNode) (slots : List UInt32)
    (pool : OrderPool) :
    (pool.drain slots).modify idx (fun _ => written) =
      (pool.modify idx fun _ => written).drain (slots.filter fun slot => slot ≠ idx) := by
  induction slots generalizing pool with
  | nil => rfl
  | cons slot slots ih =>
      have hothers := ih (pool.mapShares slot fun _ => 0)
      by_cases heq : slot = idx
      · subst heq
        rw [modify_const_mapShares] at hothers
        rw [List.filter_cons_of_neg (by simp)]
        exact hothers
      · rw [modify_mapShares_of_ne (Ne.symm heq)] at hothers
        rw [List.filter_cons_of_pos (by simpa using heq)]
        exact hothers

theorem setFreeHead_drain (pool : OrderPool) (slots : List UInt32) (freeHead : UInt32) :
    { pool.drain slots with freeHead } = { pool with freeHead }.drain slots := by
  induction slots generalizing pool with
  | nil => rfl
  | cons slot slots ih => exact ih _

/-- An allocation that reuses a slot. -/
theorem allocate_drain {pool : OrderPool} (hfree : pool.freeHead ≠ INVALID_INDEX)
    (order : Order) (slots : List UInt32) :
    (pool.drain slots).allocate order =
      ((pool.allocate order).1, (pool.allocate order).2.drain
        (slots.filter fun slot => slot ≠ (pool.allocate order).1)) := by
  unfold allocate
  simp only [freeHead_drain, next_drain, if_pos hfree]
  rw [setFreeHead_drain, modify_const_drain]

/-- Two arenas with the same links and the same free list, and with the same orders in all
slots that are not free. -/
structure SameButFreed (first second : OrderPool) : Prop where
  size : first.nodes.size = second.nodes.size
  freeHead : first.freeHead = second.freeHead
  freeSlots : first.freeSlots = second.freeSlots
  links : ∀ idx, (first.node idx).next = (second.node idx).next ∧
    (first.node idx).prev = (second.node idx).prev
  live : ∀ idx, idx ∉ first.freeSlots → first.node idx = second.node idx

theorem SameButFreed.refl (pool : OrderPool) : pool.SameButFreed pool :=
  ⟨rfl, rfl, rfl, fun _ => ⟨rfl, rfl⟩, fun _ _ => rfl⟩

theorem freeSlots_of_invalid {pool : OrderPool} (hhead : pool.freeHead = INVALID_INDEX) :
    pool.freeSlots = [] := by
  rw [OrderPool.freeSlots, hhead]
  cases pool.nodes.size with
  | zero => rfl
  | succ size => exact if_pos rfl

theorem freeSlots_drain (pool : OrderPool) (slots : List UInt32) :
    (pool.drain slots).freeSlots = pool.freeSlots := by
  have hwalk : ∀ fuel idx, (pool.drain slots).walk fuel idx = pool.walk fuel idx := by
    intro fuel
    induction fuel with
    | zero => exact fun _ => rfl
    | succ fuel ih =>
        intro idx
        rw [walk, walk, next_drain, ih]
  rw [OrderPool.freeSlots, OrderPool.freeSlots, hwalk, size_drain, freeHead_drain]

/-- Drained slots in the free list. -/
theorem sameButFreed_drain {pool : OrderPool} {slots : List UInt32}
    (hfreed : ∀ slot ∈ slots, slot ∈ pool.freeSlots) : (pool.drain slots).SameButFreed pool where
  size := size_drain pool slots
  freeHead := freeHead_drain pool slots
  freeSlots := freeSlots_drain pool slots
  links := fun idx => ⟨next_drain pool slots idx, prev_drain pool slots idx⟩
  live := by
    intro idx hidx
    rw [freeSlots_drain] at hidx
    exact node_drain_of_not_mem (fun hslot => hidx (hfreed idx hslot)) pool

end OrderPool

theorem linkAtTail_mapShares (pool : OrderPool) (slot : UInt32) (change : UInt32 → UInt32)
    (level : Level) (idx : UInt32) :
    linkAtTail (pool.mapShares slot change) level idx =
      ((linkAtTail pool level idx).1.mapShares slot change, (linkAtTail pool level idx).2) := by
  have hfirst : (pool.mapShares slot change).modify idx (fun node =>
      { node with prev := level.tail, next := INVALID_INDEX }) =
        (pool.modify idx fun node =>
          { node with prev := level.tail, next := INVALID_INDEX }).mapShares slot change := by
    apply OrderPool.modify_mapShares
    intro node
    rfl
  unfold linkAtTail
  dsimp only
  rw [hfirst, OrderPool.setNext_mapShares]
  split <;> rfl

theorem LadderSide.add_mapShares (side : LadderSide) (pool : OrderPool) (slot : UInt32)
    (change : UInt32 → UInt32) (price idx : UInt32) :
    side.add (pool.mapShares slot change) price idx =
      ((side.add pool price idx).1.mapShares slot change, (side.add pool price idx).2) := by
  unfold LadderSide.add
  generalize (if side.anchored then side else side.anchor price) = side
  dsimp only
  rw [linkAtTail_mapShares, linkAtTail_mapShares]
  split_ifs <;> rfl

theorem LadderSide.add_drain (side : LadderSide) (pool : OrderPool) (slots : List UInt32)
    (price idx : UInt32) :
    side.add (pool.drain slots) price idx =
      ((side.add pool price idx).1.drain slots, (side.add pool price idx).2) :=
  OrderPool.commutes_drain (side.add · price idx)
    (fun pool slot => side.add_mapShares pool slot _ price idx) pool slots

theorem LadderSide.remove_drain (side : LadderSide) (pool : OrderPool) (slots : List UInt32)
    (price idx : UInt32) :
    side.remove (pool.drain slots) price idx =
      ((side.remove pool price idx).1.drain slots, (side.remove pool price idx).2) :=
  OrderPool.commutes_drain (side.remove · price idx)
    (fun pool slot => LadderSide.remove_mapShares pool slot _ side price idx) pool slots

/-- Resting an order when there is a free slot. -/
theorem restRemainder_drain {pool : OrderPool} (hfree : pool.freeHead ≠ INVALID_INDEX)
    {slots : List UInt32} (hvalid : INVALID_INDEX ∉ slots) (own : LadderSide) (order : Order) :
    restRemainder (pool.drain slots) own order =
      ((restRemainder pool own order).1, (restRemainder pool own order).2.1.drain
        (slots.filter fun slot => slot ≠ (restRemainder pool own order).1),
        (restRemainder pool own order).2.2) := by
  unfold restRemainder
  split
  · dsimp only
    rw [OrderPool.allocate_drain hfree, LadderSide.add_drain]
  · have hall : slots.filter (fun slot => slot ≠ INVALID_INDEX) = slots := by
      rw [List.filter_eq_self]
      intro slot hslot
      exact decide_eq_true fun heq => hvalid (heq ▸ hslot)
    rw [hall]

theorem size_restRemainder_of_free {pool : OrderPool} (hfree : pool.freeHead ≠ INVALID_INDEX)
    (own : LadderSide) (order : Order) :
    (restRemainder pool own order).2.1.nodes.size = pool.nodes.size := by
  unfold restRemainder
  split
  · dsimp only
    rw [LadderSide.size_add, OrderPool.size_allocate, if_pos hfree]
  · rfl

/-! ## Handling an order by removals -/

/-- The arena, a book and what is left of an incoming order. -/
structure Consuming where
  pool : OrderPool
  book : OrderBook
  order : Order
  deriving DecidableEq, Repr

namespace Consuming

/-- Fill the order in a slot and remove it. -/
def remove (consuming : Consuming) (slot : UInt32) : Consuming where
  pool := (consuming.book.removeByIndex consuming.pool slot).1
  book := (consuming.book.removeByIndex consuming.pool slot).2
  order :=
    { consuming.order with
      shares := consuming.order.shares - (consuming.pool.node slot).order.shares }

/-- Take shares from the order in a slot. -/
def take (consuming : Consuming) (taken : UInt32 × UInt32) : Consuming :=
  { consuming with
    pool := consuming.pool.mapShares taken.1 (· - taken.2)
    order := { consuming.order with shares := consuming.order.shares - taken.2 } }

/-- Rest what is left of the order: its slot, the arena and the book. -/
def rest (consuming : Consuming) : UInt32 × OrderPool × OrderBook :=
  let (restingIdx, pool, own) := restRemainder consuming.pool
    (consuming.book.side consuming.order.isBuy) consuming.order
  (restingIdx, pool,
    .ofSides consuming.order.isBuy own (consuming.book.side (!consuming.order.isBuy)))

end Consuming

/-- A handler and a handling by removals leave the same book, rest the remainder in the same
slot, and leave arenas that differ in the orders of free slots only. -/
structure Handled.Agrees (handled : Handled) (result : UInt32 × OrderPool × OrderBook) :
    Prop where
  restingIdx : handled.restingIdx = result.1
  book : handled.book = result.2.2
  pool : handled.pool.SameButFreed result.2.1

namespace Consuming

variable {sides : Sides} {locate : UInt16} {incoming : Order} {book : OrderBook}
  {state : MatchState} {items : List Resting} {consuming : Consuming} {stale : List UInt32}

/-- The loop variables of a match beside the removals that do the same. The slots in `stale`
were drained before they were freed. -/
structure Follows (incoming : Order) (book : OrderBook) (state : MatchState)
    (items : List Resting) (consuming : Consuming) (stale : List UInt32) : Prop where
  pool : state.pool = consuming.pool.drain stale
  side : state.side = consuming.book.side (!incoming.isBuy)
  own : consuming.book.side incoming.isBuy = book.side incoming.isBuy
  order : consuming.order = state.order
  gone : ∀ slot ∈ stale, slot.toNat < state.pool.nodes.size ∧ slot ∉ items.map Resting.slot

/-- The order at a slot of the market is the same in both arenas. -/
theorem Follows.node (hfollows : Follows incoming book state items consuming stale)
    {resting : Resting} (hitem : resting ∈ items) :
    resting.slot ∉ stale ∧
      consuming.pool.node resting.slot = state.pool.node resting.slot := by
  have hslot : resting.slot ∉ stale := fun hstale =>
    (hfollows.gone _ hstale).2 (List.mem_map_of_mem hitem)
  rw [hfollows.pool, OrderPool.node_drain_of_not_mem hslot]
  exact ⟨hslot, rfl⟩

section Pass

variable {swept : Sweep Resting} {resting : Resting} {after : MatchState}

/-- A pass that fills its order is a removal. -/
theorem Follows.pass_filled (hfollows : Follows incoming book state swept.items consuming stale)
    (hpasses : Passes sides locate incoming state swept resting after)
    (hfilled : resting.order.shares.toNat ≤ swept.demand) :
    Follows incoming book after ((Resting.rules locate incoming).fill resting swept).items
      (consuming.remove resting.slot) (stale ++ [resting.slot]) := by
  obtain ⟨hitem, heligible, _⟩ := Rules.mem_of_next hpasses.next
  obtain ⟨_, hside, _⟩ := of_decide_eq_true heligible
  obtain ⟨_, hnode⟩ := hfollows.node hitem
  have hidx := hpasses.before.books.slot_lt hitem
  have hstored := hpasses.before.books.stored resting hitem
  have hstored' : (consuming.pool.node resting.slot).order = resting.order :=
    (congrArg PoolNode.order hnode).trans hstored
  obtain ⟨hpool, hafterSide⟩ := hpasses.filled hfilled
  have hdrained : state.pool.modify resting.slot (Books.reduceNode resting.order.shares) =
      consuming.pool.drain (stale ++ [resting.slot]) := by
    rw [OrderPool.modify_reduceNode_eq (congrArg Order.shares hstored), hfollows.pool,
      OrderPool.drain_snoc]
  rw [hdrained, hfollows.side, LadderSide.remove_drain] at hpool hafterSide
  have hremove := consuming.book.removeByIndex_eq hstored'
  rw [hside, Bool.not_not] at hremove
  have hfill : (Resting.rules locate incoming).fill resting swept = _ :=
    Matches.fill_of_filled hfilled
  refine ⟨?_, ?_, ?_, ?_, ?_⟩
  · rw [hpool, OrderPool.free_drain, remove, hremove]
  · rw [hafterSide, remove, hremove]
    cases incoming.isBuy <;> rfl
  · rw [← hfollows.own, remove, hremove]
    cases incoming.isBuy <;> rfl
  · rw [hpasses.matched.order, hfill, remove, hstored', hfollows.order, hpasses.before.order,
      ofNat_sub_of_le hpasses.before.demand hfilled]
  · intro slot hslot
    have hsize : after.pool.nodes.size = state.pool.nodes.size := by
      rw [hpool, OrderPool.size_free, OrderPool.size_drain, LadderSide.size_remove, hfollows.pool,
        OrderPool.size_drain]
    rw [hfill, hsize]
    rcases List.mem_append.mp hslot with hold | hnew
    · obtain ⟨hlt, hgone⟩ := hfollows.gone slot hold
      exact ⟨hlt, fun hmem => hgone ((List.filter_sublist.map _).subset hmem)⟩
    · rw [List.mem_singleton.mp hnew]
      refine ⟨hidx, fun hmem => ?_⟩
      obtain ⟨other, hother, hsame⟩ := List.mem_map.mp hmem
      exact absurd hsame (of_decide_eq_true (List.mem_filter.mp hother).2)

/-- A pass that does not fill its order takes shares from it. -/
theorem Follows.pass_open (hfollows : Follows incoming book state swept.items consuming stale)
    (hpasses : Passes sides locate incoming state swept resting after)
    (hopen : swept.demand < resting.order.shares.toNat) :
    Follows incoming book after ((Resting.rules locate incoming).fill resting swept).items
      (consuming.take (resting.slot, UInt32.ofNat swept.demand)) stale := by
  obtain ⟨hitem, _, _⟩ := Rules.mem_of_next hpasses.next
  obtain ⟨hslot, _⟩ := hfollows.node hitem
  obtain ⟨hpool, hside⟩ := hpasses.part hopen
  have hshares : state.order.shares = UInt32.ofNat swept.demand := by
    rw [hpasses.before.order]
  rw [hshares, hfollows.pool] at hpool
  have hfill : (Resting.rules locate incoming).fill resting swept = _ :=
    Matches.fill_of_open hopen
  refine ⟨?_, hside.trans hfollows.side, hfollows.own, ?_, ?_⟩
  · exact hpool.trans (OrderPool.mapShares_drain hslot (· - UInt32.ofNat swept.demand) _)
  · rw [hpasses.matched.order, hfill, take, hfollows.order, hpasses.before.order,
      UInt32.sub_self]
    rfl
  · rw [hfill, hpool, OrderPool.size_modify, ← hfollows.pool]
    dsimp only
    rw [Books.slots_reduceSlot]
    exact hfollows.gone

end Pass

/-- The drained slots are in the free list. -/
theorem Follows.freed {swept : Sweep Resting}
    (hfollows : Follows incoming book state swept.items consuming stale)
    (hmatch : Matches sides locate incoming state swept) :
    ∀ slot ∈ stale, slot ∈ state.pool.freeSlots := by
  intro slot hslot
  obtain ⟨hlt, hgone⟩ := hfollows.gone slot hslot
  exact hmatch.books.mem_freeSlots hlt hgone

/-- The drained slots stay in the free list, except for one that is handed out again. -/
theorem Follows.freed_rest {swept : Sweep Resting} {idx : UInt32} {pool : OrderPool}
    {own : LadderSide} (hfollows : Follows incoming book state swept.items consuming stale)
    (hmatch : Matches sides locate incoming state swept)
    (hrest : restRemainder state.pool (sides locate incoming.isBuy) state.order =
      (idx, pool, own)) (hsize : pool.nodes.size = state.pool.nodes.size) {slot : UInt32}
    (hslot : slot ∈ stale) (hne : slot ≠ idx) : slot ∈ pool.freeSlots := by
  obtain ⟨hlt, hgone⟩ := hfollows.gone slot hslot
  have hbound : pool.nodes.size < 2 ^ 32 := by rw [hsize]; exact hmatch.books.size
  have hrests := (hmatch.restRemainder hrest).2.2 hbound
  apply hrests.books.mem_freeSlots
  · rw [hsize]
    exact hlt
  · intro hlive
    unfold Market.rested at hlive
    split at hlive
    · exact hgone hlive
    · rw [List.map_append] at hlive
      rcases List.mem_append.mp hlive with hold | hnew
      · exact hgone hold
      · exact hne (List.mem_singleton.mp hnew)

/-- What is left of the order rests in the same slot and at the same place. -/
theorem Follows.rest {swept : Sweep Resting}
    (hfollows : Follows incoming book state swept.items consuming stale)
    (hmatch : Matches sides locate incoming state swept)
    (hbook : ∀ bid, sides locate bid = book.side bid) :
    (book.rest incoming state).Agrees consuming.rest := by
  have hisBuy : consuming.order.isBuy = incoming.isBuy := by
    rw [hfollows.order, hmatch.order]
    rfl
  rcases hresult : restRemainder consuming.pool (book.side incoming.isBuy) state.order with
    ⟨idx, pool, own⟩
  have hrest : consuming.rest = (idx, pool, .ofSides incoming.isBuy own state.side) := by
    rw [Consuming.rest, hisBuy, hfollows.own, hfollows.order, hresult, hfollows.side]
  rw [hrest]
  by_cases hnone : stale = []
  · have hpool : state.pool = consuming.pool := by rw [hfollows.pool, hnone]; rfl
    unfold OrderBook.rest
    rw [hpool, hresult]
    exact ⟨rfl, rfl, .refl pool⟩
  · have hfree : consuming.pool.freeHead ≠ INVALID_INDEX := by
      intro hinvalid
      obtain ⟨slot, hslot⟩ := List.exists_mem_of_ne_nil stale hnone
      have hin := hfollows.freed hmatch slot hslot
      rw [hfollows.pool, OrderPool.freeSlots_drain,
        OrderPool.freeSlots_of_invalid hinvalid] at hin
      exact absurd hin List.not_mem_nil
    have hvalid : INVALID_INDEX ∉ stale := fun hslot =>
      OrderPool.invalid_notMem_walk _ _ _ (hfollows.freed hmatch _ hslot)
    have hdrained := restRemainder_drain hfree hvalid (book.side incoming.isBuy) state.order
    have hsize := size_restRemainder_of_free hfree (book.side incoming.isBuy) state.order
    rw [← hfollows.pool, hresult] at hdrained
    rw [hresult] at hsize
    have hkept : (pool.drain (stale.filter fun slot => slot ≠ idx)).nodes.size =
        state.pool.nodes.size := by
      rw [OrderPool.size_drain, hsize, hfollows.pool, OrderPool.size_drain]
    unfold OrderBook.rest
    rw [hdrained]
    refine ⟨rfl, rfl, OrderPool.sameButFreed_drain fun slot hslot => ?_⟩
    obtain ⟨hslot, hne⟩ := List.mem_filter.mp hslot
    rw [← hbook] at hdrained
    have hfreed := hfollows.freed_rest hmatch hdrained hkept hslot (of_decide_eq_true hne)
    rwa [OrderPool.freeSlots_drain] at hfreed

end Consuming

namespace MatchingEngine

variable {stream : List Delivery} {engine : MatchingEngine} {trace : List Transition}

end MatchingEngine

end Orderbook
