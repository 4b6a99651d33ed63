/-
# Slices of one reduction

An execution or a cancellation takes shares from one resting order. As long as shares
are left, the slot of the order is written in place; the message that takes the last
ones unlinks the order, frees the slot and forgets the reference, and whatever comes
after it finds no order any more. So it does not matter how an amount is cut into
messages, nor in which order they come.

The one thing that is left of the slices is the number of shares in the freed slot,
which nobody reads again. Unlinking and freeing do not look at the shares of the slot,
and that is why they commute with writing them.

The message that takes the last shares always returns, since the reference is in the map.
The slot is then linked nowhere, as long as the arena keeps within its index type. Beyond
it another level may hold the slot as well, and the order that is gone is matched once more.
-/

import Orderbook.Engine.Errors
import Orderbook.Engine.Progress
import Orderbook.Engine.Reachability

namespace Orderbook

open Orderbook.Math

/-- Change the shares of the order in a slot. -/
def PoolNode.mapShares (change : UInt32 → UInt32) (node : PoolNode) : PoolNode :=
  { node with order := { node.order with shares := change node.order.shares } }

namespace OrderPool

/-- Change the shares of the order at an index. -/
def mapShares (pool : OrderPool) (idx : UInt32) (change : UInt32 → UInt32) : OrderPool :=
  pool.modify idx (PoolNode.mapShares change)

variable {pool : OrderPool} {idx other : UInt32} {change : UInt32 → UInt32}

/-- Reading a slot after its shares were changed: its links, its price and its side are
those it had. -/
theorem node_mapShares_cases (pool : OrderPool) (idx other : UInt32)
    (change : UInt32 → UInt32) :
    (pool.mapShares idx change).node other = pool.node other ∨
      (pool.mapShares idx change).node other = (pool.node other).mapShares change := by
  by_cases heq : other = idx
  · subst heq
    by_cases hidx : other.toNat < pool.nodes.size
    · exact .inr (node_modify_self hidx _)
    · left
      simp [mapShares, modify, node, hidx]
  · exact .inl (node_modify_of_ne heq _)

@[simp]
theorem next_mapShares (pool : OrderPool) (idx other : UInt32) (change : UInt32 → UInt32) :
    ((pool.mapShares idx change).node other).next = (pool.node other).next := by
  rcases node_mapShares_cases pool idx other change with hsame | hsame
  · rw [hsame]
  · rw [hsame]
    rfl

@[simp]
theorem prev_mapShares (pool : OrderPool) (idx other : UInt32) (change : UInt32 → UInt32) :
    ((pool.mapShares idx change).node other).prev = (pool.node other).prev := by
  rcases node_mapShares_cases pool idx other change with hsame | hsame
  · rw [hsame]
  · rw [hsame]
    rfl

@[simp]
theorem price_mapShares (pool : OrderPool) (idx other : UInt32) (change : UInt32 → UInt32) :
    ((pool.mapShares idx change).node other).order.price = (pool.node other).order.price := by
  rcases node_mapShares_cases pool idx other change with hsame | hsame
  · rw [hsame]
  · rw [hsame]
    rfl

@[simp]
theorem side_mapShares (pool : OrderPool) (idx other : UInt32) (change : UInt32 → UInt32) :
    ((pool.mapShares idx change).node other).order.buySellIndicator =
      (pool.node other).order.buySellIndicator := by
  rcases node_mapShares_cases pool idx other change with hsame | hsame
  · rw [hsame]
  · rw [hsame]
    rfl

@[simp]
theorem freeHead_mapShares (pool : OrderPool) (idx : UInt32) (change : UInt32 → UInt32) :
    (pool.mapShares idx change).freeHead = pool.freeHead := rfl

/-- The chains do not read shares. -/
theorem walk_mapShares (pool : OrderPool) (idx : UInt32) (change : UInt32 → UInt32) (fuel : ℕ)
    (start : UInt32) : (pool.mapShares idx change).walk fuel start = pool.walk fuel start := by
  induction fuel generalizing start with
  | zero => rfl
  | succ fuel ih => rw [walk, walk, next_mapShares, ih]

theorem mapShares_id (pool : OrderPool) (idx : UInt32) : pool.mapShares idx id = pool := by
  have hnodes : pool.nodes.modify idx.toNat (PoolNode.mapShares id) = pool.nodes := by
    apply Array.ext_getElem?
    intro i
    rw [Array.getElem?_modify]
    split
    · cases pool.nodes[i]? <;> rfl
    · rfl
  rw [mapShares, modify, hnodes]

theorem mapShares_mapShares (pool : OrderPool) (idx : UInt32) (first second : UInt32 → UInt32) :
    (pool.mapShares idx first).mapShares idx second = pool.mapShares idx (second ∘ first) := by
  have hnodes : (pool.nodes.modify idx.toNat (PoolNode.mapShares first)).modify idx.toNat
      (PoolNode.mapShares second) =
        pool.nodes.modify idx.toNat (PoolNode.mapShares (second ∘ first)) := by
    apply Array.ext_getElem?
    intro i
    rw [Array.getElem?_modify, Array.getElem?_modify, Array.getElem?_modify]
    split
    · cases pool.nodes[i]? <;> rfl
    · rfl
  rw [mapShares, mapShares, mapShares, modify, modify, modify, hnodes]

/-- A write that neither reads nor changes shares commutes with changing them. -/
theorem modify_mapShares {write : PoolNode → PoolNode}
    (hwrite : ∀ node : PoolNode, write (node.mapShares change) = (write node).mapShares change)
    (pool : OrderPool) (idx other : UInt32) :
    (pool.mapShares idx change).modify other write =
      (pool.modify other write).mapShares idx change := by
  have hnodes : (pool.nodes.modify idx.toNat (PoolNode.mapShares change)).modify other.toNat
      write = (pool.nodes.modify other.toNat write).modify idx.toNat
        (PoolNode.mapShares change) := by
    apply Array.ext_getElem?
    intro i
    simp only [Array.getElem?_modify]
    split_ifs
    · cases pool.nodes[i]? with
      | none => rfl
      | some node => exact congrArg some (hwrite node)
    all_goals rfl
  rw [mapShares, mapShares, modify, modify, modify, modify, hnodes]

@[simp]
theorem setNext_mapShares (pool : OrderPool) (idx other next : UInt32)
    (change : UInt32 → UInt32) :
    (pool.mapShares idx change).modify other (fun node => { node with next }) =
      (pool.modify other fun node => { node with next }).mapShares idx change := by
  apply modify_mapShares
  intro node
  rfl

@[simp]
theorem setPrev_mapShares (pool : OrderPool) (idx other prev : UInt32)
    (change : UInt32 → UInt32) :
    (pool.mapShares idx change).modify other (fun node => { node with prev }) =
      (pool.modify other fun node => { node with prev }).mapShares idx change := by
  apply modify_mapShares
  intro node
  rfl

theorem free_mapShares (pool : OrderPool) (idx other : UInt32) (change : UInt32 → UInt32) :
    (pool.mapShares idx change).free other = (pool.free other).mapShares idx change := by
  rw [free, freeHead_mapShares, setNext_mapShares]
  rfl

end OrderPool

section Removing

variable (pool : OrderPool) (idx : UInt32) (change : UInt32 → UInt32)

theorem unlink_mapShares (level : Level) (other : UInt32) :
    unlink (pool.mapShares idx change) level other =
      ((unlink pool level other).1.mapShares idx change, (unlink pool level other).2) := by
  unfold unlink
  simp only [OrderPool.prev_mapShares, OrderPool.next_mapShares, OrderPool.setNext_mapShares]
  by_cases hprev : (pool.node other).prev ≠ INVALID_INDEX
  · simp only [if_pos hprev, OrderPool.prev_mapShares, OrderPool.next_mapShares]
    split
    · rw [OrderPool.setPrev_mapShares]
    · rfl
  · simp only [if_neg hprev, OrderPool.prev_mapShares, OrderPool.next_mapShares]
    split
    · rw [OrderPool.setPrev_mapShares]
    · rfl

theorem LadderSide.remove_mapShares (side : LadderSide) (price other : UInt32) :
    side.remove (pool.mapShares idx change) price other =
      ((side.remove pool price other).1.mapShares idx change,
        (side.remove pool price other).2) := by
  unfold LadderSide.remove
  simp only [unlink_mapShares]
  split_ifs <;> rfl

theorem OrderBook.removeByIndex_mapShares (book : OrderBook) (other : UInt32) :
    book.removeByIndex (pool.mapShares idx change) other =
      ((book.removeByIndex pool other).1.mapShares idx change,
        (book.removeByIndex pool other).2) := by
  unfold OrderBook.removeByIndex
  simp only [OrderPool.price_mapShares, OrderPool.side_mapShares, LadderSide.remove_mapShares,
    OrderPool.free_mapShares]
  split_ifs <;> rfl

end Removing

namespace MatchingEngine

variable {engine : MatchingEngine} {ref : UInt64} {loc : OrderLocation} {shares : UInt32}

/-- Change the shares of the order at an index. -/
def mapShares (engine : MatchingEngine) (idx : UInt32) (change : UInt32 → UInt32) :
    MatchingEngine :=
  { engine with pool := engine.pool.mapShares idx change }

theorem mapShares_mapShares (engine : MatchingEngine) (idx : UInt32)
    (first second : UInt32 → UInt32) :
    (engine.mapShares idx first).mapShares idx second =
      engine.mapShares idx (second ∘ first) :=
  congrArg (fun pool => { engine with pool })
    (engine.pool.mapShares_mapShares idx first second)

theorem mapShares_id (engine : MatchingEngine) (idx : UInt32) :
    engine.mapShares idx id = engine :=
  congrArg (fun pool => { engine with pool }) (engine.pool.mapShares_id idx)

theorem linkedSlots_mapShares (engine : MatchingEngine) (idx : UInt32)
    (change : UInt32 → UInt32) :
    (engine.mapShares idx change).linkedSlots = engine.linkedSlots := by
  have hslots : ∀ level, Level.slots (engine.pool.mapShares idx change) level =
      Level.slots engine.pool level := by
    intro level
    rw [Level.slots, Level.slots, OrderPool.walk_mapShares, OrderPool.mapShares,
      OrderPool.size_modify]
  have hsides : ∀ locate bid, (engine.mapShares idx change).sideSlots locate bid =
      engine.sideSlots locate bid :=
    fun _ _ => List.flatMap_congr fun level _ => hslots level
  unfold linkedSlots bookSlots
  simp only [hsides]

theorem removeFromBook_mapShares (engine : MatchingEngine) (locate : UInt16)
    (idx other : UInt32) (change : UInt32 → UInt32) :
    (engine.mapShares idx change).removeFromBook locate other =
      (engine.removeFromBook locate other).mapShares idx change := by
  unfold removeFromBook mapShares
  dsimp only
  rw [OrderBook.removeByIndex_mapShares]
  rfl

/-- The engine after an order was taken out of its book and the map. -/
def without (engine : MatchingEngine) (loc : OrderLocation) (orderMap : OrderMap) :
    MatchingEngine :=
  { engine.removeFromBook loc.stockLocate loc.poolIdx with orderMap }

theorem pool_without (engine : MatchingEngine) (loc : OrderLocation) (orderMap : OrderMap) :
    (engine.without loc orderMap).pool =
      ((engine.orderBooks loc.stockLocate).removeByIndex engine.pool loc.poolIdx).1 := rfl

/-- The freed slot is the first one that is handed out again. -/
theorem freeHead_without (engine : MatchingEngine) (loc : OrderLocation) (orderMap : OrderMap) :
    (engine.without loc orderMap).pool.freeHead = loc.poolIdx := by
  unfold without removeFromBook OrderBook.removeByIndex
  dsimp only
  split <;> rfl

theorem without_mapShares (engine : MatchingEngine) (loc : OrderLocation) (orderMap : OrderMap)
    (idx : UInt32) (change : UInt32 → UInt32) :
    (engine.mapShares idx change).without loc orderMap =
      (engine.without loc orderMap).mapShares idx change := by
  rw [without, removeFromBook_mapShares]
  rfl

/-- What an execution or a cancellation makes of the engine. -/
def reduce (engine : MatchingEngine) (ref : UInt64) (shares : UInt32) : Option MatchingEngine :=
  (engine.orderMap.find .identity ref).bind fun
    | none => some engine
    | some loc =>
        if shares ≥ (engine.pool.node loc.poolIdx).order.shares then
          (engine.orderMap.erase .identity ref).map (engine.without loc)
        else some (engine.mapShares loc.poolIdx (· - shares))

/-- The handler of the three message types reduces, whatever is in the buffers. -/
theorem map_engine_processExecuted (engine : MatchingEngine) (scratch : EngineScratch)
    (ref : UInt64) (shares : UInt32) :
    (engine.processExecuted scratch ⟨ref, shares⟩).map Outcome.engine =
      engine.reduce ref shares := by
  unfold processExecuted reduce
  cases hfind : engine.orderMap.find .identity ref with
  | none => rfl
  | some entry =>
      cases entry with
      | none => rfl
      | some loc =>
          dsimp only [Option.bind_some]
          split
          · exact Option.map_map ..
          · rfl

theorem reduce_of_absent (hfind : engine.orderMap.find .identity ref = some none)
    (shares : UInt32) : engine.reduce ref shares = some engine := by
  rw [reduce, hfind]
  rfl

theorem reduce_of_lt (hfind : engine.orderMap.find .identity ref = some (some loc))
    (hless : shares < (engine.pool.node loc.poolIdx).order.shares) :
    engine.reduce ref shares = some (engine.mapShares loc.poolIdx (· - shares)) := by
  rw [reduce, hfind]
  exact if_neg (UInt32.not_le.mpr hless)

theorem reduce_of_le (hfind : engine.orderMap.find .identity ref = some (some loc))
    (hle : (engine.pool.node loc.poolIdx).order.shares ≤ shares) :
    engine.reduce ref shares = (engine.orderMap.erase .identity ref).map (engine.without loc) := by
  rw [reduce, hfind]
  exact if_pos hle

/-- One reduction after another. -/
def reduceAll (ref : UInt64) : MatchingEngine → List UInt32 → Option MatchingEngine
  | engine, [] => some engine
  | engine, shares :: slices => (engine.reduce ref shares).bind (reduceAll ref · slices)

/-- The shares of a list of slices. -/
def sharesOf (slices : List UInt32) : ℕ := (slices.map UInt32.toNat).sum

@[simp]
theorem sharesOf_cons (slice : UInt32) (slices : List UInt32) :
    sharesOf (slice :: slices) = slice.toNat + sharesOf slices := by
  rw [sharesOf, List.map_cons, List.sum_cons, sharesOf]

/-- The slices of an order that is not known change nothing. -/
theorem reduceAll_of_absent (hfind : engine.orderMap.find .identity ref = some none)
    (slices : List UInt32) : reduceAll ref engine slices = some engine := by
  induction slices with
  | nil => rfl
  | cons slice slices ih =>
      rw [reduceAll, reduce_of_absent hfind, Option.bind_some, ih]

/-- A slot in the arena after a slice that leaves shares. -/
theorem shares_mapShares (hidx : loc.poolIdx.toNat < engine.pool.nodes.size) (slice : UInt32) :
    (((engine.mapShares loc.poolIdx (· - slice)).pool.node loc.poolIdx).order).shares =
      (engine.pool.node loc.poolIdx).order.shares - slice :=
  congrArg (fun node : PoolNode => node.order.shares) (OrderPool.node_modify_self hidx _)

theorem find_mapShares {entry : Option (Option OrderLocation)}
    (hfind : engine.orderMap.find .identity ref = entry) (idx : UInt32)
    (change : UInt32 → UInt32) :
    (engine.mapShares idx change).orderMap.find .identity ref = entry := hfind

theorem size_mapShares (engine : MatchingEngine) (idx : UInt32) (change : UInt32 → UInt32) :
    (engine.mapShares idx change).pool.nodes.size = engine.pool.nodes.size :=
  Array.size_modify ..

/-- Slices that leave shares are taken in place, one after another. -/
theorem reduceAll_of_lt (hfind : engine.orderMap.find .identity ref = some (some loc))
    (hidx : loc.poolIdx.toNat < engine.pool.nodes.size) {slices : List UInt32} {total : UInt32}
    (htotal : total.toNat = sharesOf slices)
    (hless : total < (engine.pool.node loc.poolIdx).order.shares) :
    reduceAll ref engine slices = some (engine.mapShares loc.poolIdx (· - total)) := by
  induction slices generalizing engine total with
  | nil =>
      obtain rfl : total = 0 := UInt32.toNat_inj.mp htotal
      have hzero : (fun shares : UInt32 => shares - 0) = id := funext fun _ => UInt32.sub_zero _
      rw [reduceAll, hzero, mapShares_id]
  | cons slice slices ih =>
      rw [sharesOf_cons] at htotal
      have hslice : slice.toNat ≤ total.toNat := by rw [htotal]; exact Nat.le_add_right _ _
      have hless' := UInt32.lt_iff_toNat_lt.mp hless
      have hrest : (total - slice).toNat = sharesOf slices := by
        rw [UInt32.toNat_sub_of_le _ _ (UInt32.le_iff_toNat_le.mpr hslice)]
        omega
      have hsum : (· - (total - slice)) ∘ (· - slice) = fun shares : UInt32 => shares - total := by
        funext shares
        simp only [Function.comp_apply]
        grind
      have hleft : total - slice <
          ((engine.mapShares loc.poolIdx (· - slice)).pool.node loc.poolIdx).order.shares := by
        rw [shares_mapShares hidx, UInt32.lt_iff_toNat_lt, hrest,
          UInt32.toNat_sub_of_le _ _ (UInt32.le_iff_toNat_le.mpr (by omega))]
        omega
      have hfirst := reduce_of_lt hfind (UInt32.lt_iff_toNat_lt.mpr (by omega : slice.toNat < _))
      have hidx' : loc.poolIdx.toNat <
          (engine.mapShares loc.poolIdx (· - slice)).pool.nodes.size := by rwa [size_mapShares]
      rw [reduceAll, hfirst, Option.bind_some, ih (find_mapShares hfind _ _) hidx' hrest hleft,
        mapShares_mapShares, hsum]

/-- A reference that was found and then erased is not found again. -/
theorem MapInside.find_of_erase {map map' : OrderMap} {size : ℕ}
    {directory : UInt64 → Option OrderLocation} (hmap : MapInside map size directory)
    (hfind : map.find .identity ref = some (some loc))
    (herase : map.erase .identity ref = some map') : map'.find .identity ref = some none := by
  have hstored : directory ref ≠ none := by
    rw [← hmap.represents.find_of_some hfind]
    exact Option.some_ne_none loc
  exact hmap.represents.find_of_erase hstored herase

/-- Slices that take all shares remove the order once. Those before the last one leave their
mark in the freed slot only, and those after it find no order. -/
theorem reduceAll_of_le {size : ℕ} {directory : UInt64 → Option OrderLocation}
    (hmap : MapInside engine.orderMap size directory)
    (hfind : engine.orderMap.find .identity ref = some (some loc))
    (hidx : loc.poolIdx.toNat < engine.pool.nodes.size) {slices : List UInt32}
    (hne : slices ≠ [])
    (hle : (engine.pool.node loc.poolIdx).order.shares.toNat ≤ sharesOf slices) :
    ∃ change, reduceAll ref engine slices = (engine.orderMap.erase .identity ref).map
      fun orderMap => (engine.without loc orderMap).mapShares loc.poolIdx change := by
  induction slices generalizing engine with
  | nil => exact absurd rfl hne
  | cons slice slices ih =>
      rw [sharesOf_cons] at hle
      by_cases hall : (engine.pool.node loc.poolIdx).order.shares ≤ slice
      · refine ⟨id, ?_⟩
        rw [reduceAll, reduce_of_le hfind hall]
        cases herase : engine.orderMap.erase .identity ref with
        | none => rfl
        | some orderMap =>
            have hgone : (engine.without loc orderMap).orderMap.find .identity ref = some none :=
              hmap.find_of_erase hfind herase
            rw [Option.map_some, Option.bind_some, reduceAll_of_absent hgone, Option.map_some,
              mapShares_id]
      · have hless : slice < (engine.pool.node loc.poolIdx).order.shares := UInt32.not_le.mp hall
        have hless' := UInt32.lt_iff_toNat_lt.mp hless
        have hmore : slices ≠ [] := by
          rintro rfl
          exact absurd hle (by simpa [sharesOf] using hless')
        have hleft : ((engine.mapShares loc.poolIdx (· - slice)).pool.node
            loc.poolIdx).order.shares.toNat ≤ sharesOf slices := by
          rw [shares_mapShares hidx, UInt32.toNat_sub_of_le _ _ (UInt32.le_of_lt hless)]
          omega
        have hidx' : loc.poolIdx.toNat <
            (engine.mapShares loc.poolIdx (· - slice)).pool.nodes.size := by rwa [size_mapShares]
        have hmap' : MapInside (engine.mapShares loc.poolIdx (· - slice)).orderMap size
            directory := hmap
        obtain ⟨change, hrest⟩ := ih hmap' hfind hidx' hmore hleft
        refine ⟨change ∘ (· - slice), ?_⟩
        rw [reduceAll, reduce_of_lt hfind hless, Option.bind_some, hrest]
        simp only [without_mapShares, mapShares_mapShares]
        rfl

end MatchingEngine

/-! ## Messages that reduce -/

/-- A call with a message of one of the three types that take shares from an order. -/
structure Delivery.Reduces (delivery : Delivery) (ref : UInt64) (shares : UInt32) : Prop where
  type : delivery.message.memory 0 = 'E'.toUInt8 ∨ delivery.message.memory 0 = 'C'.toUInt8 ∨
    delivery.message.memory 0 = 'X'.toUInt8
  fields : ItchParser.readOrderExecuted delivery.message.memory 1 = ⟨ref, shares⟩

theorem Delivery.Reduces.decoded {delivery : Delivery} {ref : UInt64} {shares : UInt32}
    (hreduces : delivery.Reduces ref shares) : delivery.decoded = .executed ⟨ref, shares⟩ := by
  rw [← hreduces.fields]
  unfold Delivery.decoded FullMessage.decoded ItchMessage.decode
  rcases hreduces.type with htype | htype | htype
  all_goals rw [htype]; rfl

namespace MatchingEngine

/-- The engine that a list of calls leads to. -/
def after (state : MatchingEngine × EngineScratch) (deliveries : List Delivery) :
    Option MatchingEngine :=
  (runList deliver state deliveries).map (·.1.1)

/-- Calls with messages that reduce one order. -/
theorem after_eq_reduceAll {ref : UInt64} {slices : List (Delivery × UInt32)}
    (hslices : ∀ slice ∈ slices, slice.1.Reduces ref slice.2)
    (state : MatchingEngine × EngineScratch) :
    after state (slices.map Prod.fst) = reduceAll ref state.1 (slices.map Prod.snd) := by
  induction slices generalizing state with
  | nil => rfl
  | cons slice slices ih =>
      have hslice := (hslices slice List.mem_cons_self).decoded
      have hprocess : state.1.processMessage slice.1.message.memory slice.1.messageLength state.2
          slice.1.clock = state.1.processExecuted state.2 ⟨ref, slice.2⟩ :=
        congrArg (state.1.apply state.2 slice.1.clock) hslice
      rw [List.map_cons, List.map_cons, reduceAll, ← map_engine_processExecuted _ state.2, after,
        runList, deliver, hprocess]
      cases state.1.processExecuted state.2 ⟨ref, slice.2⟩ with
      | none => rfl
      | some outcome =>
          rw [Option.map_some, Option.map_some, Option.bind_some, Option.bind_some, Option.map_map]
          exact ih (fun other hother => hslices other (List.mem_cons_of_mem _ hother)) _

theorem after_singleton {ref : UInt64} {whole : Delivery} {total : UInt32}
    (hwhole : whole.Reduces ref total) (state : MatchingEngine × EngineScratch) :
    after state [whole] = reduceAll ref state.1 [total] := by
  have hslices : ∀ slice ∈ [(whole, total)], slice.1.Reduces ref slice.2 := by
    intro slice hslice
    rwa [List.mem_singleton.mp hslice]
  exact after_eq_reduceAll hslices state

/-- The engine without the shares in the slot that is handed out next. -/
def forgetFreed (engine : MatchingEngine) : MatchingEngine :=
  engine.mapShares engine.pool.freeHead fun _ => 0

/-- The result of reducing an order by a number of shares, in one message or in many. Where
the search of the map does not end there is none. -/
structure Reduced (engine : MatchingEngine) (ref : UInt64) (total : UInt32)
    (result : Option MatchingEngine) : Prop where
  endless : engine.orderMap.find .identity ref = none → result = none
  absent : engine.orderMap.find .identity ref = some none → result = some engine
  kept : ∀ loc, engine.orderMap.find .identity ref = some (some loc) →
    total < (engine.pool.node loc.poolIdx).order.shares →
      result = some (engine.mapShares loc.poolIdx (· - total))
  removed : ∀ loc, engine.orderMap.find .identity ref = some (some loc) →
    (engine.pool.node loc.poolIdx).order.shares ≤ total →
      ∃ change, result = (engine.orderMap.erase .identity ref).map
        fun orderMap => (engine.without loc orderMap).mapShares loc.poolIdx change

/-- Every list of slices reduces the order by its shares. -/
theorem Inside.reduced {engine : MatchingEngine} {size : ℕ}
    {directory : UInt64 → Option OrderLocation} (hinside : engine.Inside size directory)
    {ref : UInt64} {slices : List UInt32} (hne : slices ≠ []) {total : UInt32}
    (htotal : total.toNat = sharesOf slices) :
    Reduced engine ref total (reduceAll ref engine slices) where
  endless hfind := by
    cases slices with
    | nil => exact absurd rfl hne
    | cons slice slices =>
        rw [reduceAll, reduce, hfind]
        rfl
  absent hfind := reduceAll_of_absent hfind slices
  kept loc hfind hless := by
    have hidx := hinside.map.find hfind
    rw [← hinside.pool.size_eq] at hidx
    exact reduceAll_of_lt hfind hidx htotal hless
  removed loc hfind hle := by
    have hidx := hinside.map.find hfind
    rw [← hinside.pool.size_eq] at hidx
    apply reduceAll_of_le hinside.map hfind hidx hne
    rw [← htotal]
    exact UInt32.le_iff_toNat_le.mp hle

namespace Reduced

variable {engine : MatchingEngine} {ref : UInt64} {total : UInt32}
  {result result' : Option MatchingEngine}

/-- What is left of the slices in a freed slot is forgotten. -/
theorem map_forgetFreed_eq (hreduced : Reduced engine ref total result)
    (hreduced' : Reduced engine ref total result') :
    result.map forgetFreed = result'.map forgetFreed := by
  have hforget : ∀ loc orderMap change,
      ((engine.without loc orderMap).mapShares loc.poolIdx change).forgetFreed =
        (engine.without loc orderMap).mapShares loc.poolIdx fun _ => 0 := by
    intro loc orderMap change
    have hhead : ((engine.without loc orderMap).mapShares loc.poolIdx change).pool.freeHead =
        loc.poolIdx := freeHead_without engine loc orderMap
    rw [forgetFreed, hhead, mapShares_mapShares]
    rfl
  cases hfind : engine.orderMap.find .identity ref with
  | none => rw [hreduced.endless hfind, hreduced'.endless hfind]
  | some entry =>
      cases entry with
      | none => rw [hreduced.absent hfind, hreduced'.absent hfind]
      | some loc =>
          by_cases hless : total < (engine.pool.node loc.poolIdx).order.shares
          · rw [hreduced.kept loc hfind hless, hreduced'.kept loc hfind hless]
          · obtain ⟨_, hresult⟩ := hreduced.removed loc hfind (UInt32.not_lt.mp hless)
            obtain ⟨_, hresult'⟩ := hreduced'.removed loc hfind (UInt32.not_lt.mp hless)
            rw [hresult, hresult', Option.map_map, Option.map_map]
            exact congrArg (Option.map · _)
              (funext fun orderMap => (hforget ..).trans (hforget ..).symm)

/-- An order that is used up is removed: its reference is in the map, so its deletion
returns. -/
theorem exists_removed {size : ℕ} {directory : UInt64 → Option OrderLocation}
    (hreduced : Reduced engine ref total result) (hmap : MapInside engine.orderMap size directory)
    {loc : OrderLocation} (hfind : engine.orderMap.find .identity ref = some (some loc))
    (hle : (engine.pool.node loc.poolIdx).order.shares ≤ total) :
    ∃ orderMap change, engine.orderMap.erase .identity ref = some orderMap ∧
      result = some ((engine.without loc orderMap).mapShares loc.poolIdx change) := by
  obtain ⟨change, hremoved⟩ := hreduced.removed loc hfind hle
  have hstored : directory ref ≠ none := by
    rw [← hmap.represents.find_of_some hfind]
    exact Option.some_ne_none loc
  obtain ⟨orderMap, herase, _⟩ := hmap.represents.erase_stored hstored
  refine ⟨orderMap, change, herase, ?_⟩
  rw [hremoved, herase, Option.map_some]

end Reduced

/-- An order is gone from the map and the arena: its reference is not known, and its slot is the
first that is handed out again. -/
structure Gone (engine : MatchingEngine) (ref : UInt64) (slot : UInt32) : Prop where
  unknown : engine.orderMap.find .identity ref = some none
  freed : engine.pool.freeHead = slot

section Gone

variable {stream : List Delivery} {engine : MatchingEngine} {trace : List Transition}
  {ref : UInt64} {loc : OrderLocation} {orderMap : OrderMap}

theorem Reached.gone (hreached : Reached stream engine trace)
    (hfind : engine.orderMap.find .identity ref = some (some loc))
    (herase : engine.orderMap.erase .identity ref = some orderMap) (change : UInt32 → UInt32) :
    Gone ((engine.without loc orderMap).mapShares loc.poolIdx change) ref loc.poolIdx := by
  obtain ⟨size, directory, hinside⟩ := hreached.inside
  exact ⟨hinside.map.find_of_erase hfind herase, freeHead_without engine loc orderMap⟩

/-- An order that was taken out of its book is in no level, as long as the arena is within its
index type. -/
theorem Reached.unlinked (hreached : Reached stream engine trace) (hslots : engine.slots < 2 ^ 32)
    (hfind : engine.orderMap.find .identity ref = some (some loc))
    (herase : engine.orderMap.erase .identity ref = some orderMap) (change : UInt32 → UInt32) :
    loc.poolIdx ∉ ((engine.without loc orderMap).mapShares loc.poolIdx change).linkedSlots := by
  obtain ⟨market, hrun⟩ := hreached.exists_jointRun hslots
  have hrep := hrun.represents
  obtain ⟨resting, erased, herased, hwithdraws⟩ :=
    hrep.withdraw (hrep.directory.find_of_some hfind).symm
  obtain rfl : orderMap = erased := Option.some.inj (herase.symm.trans herased)
  rw [linkedSlots_mapShares]
  intro hlinked
  obtain ⟨other, hother, hslot⟩ :=
    List.mem_map.mp (hwithdraws.represents.linkedSlots_perm.mem_iff.mp hlinked)
  have hne : other.slot ≠ resting.slot := of_decide_eq_true (List.mem_filter.mp hother).2
  exact hne (hslot.trans hwithdraws.slot.symm)

end Gone

/-- In every engine that a stream leads to, and for every reference: a list of executions and
cancellations, in any order, leaves what a single one with all their shares leaves, up to the
shares in a freed slot. An unknown reference leaves the engine as it was; an order with shares
left keeps its place; an order without is gone, and no level links its slot as long as the arena
is within its index type. -/
theorem reductions_compose {stream : List Delivery} {engine : MatchingEngine}
    {trace : List Transition} (hreached : Reached stream engine trace) (scratch : EngineScratch)
    {ref : UInt64} {slices arrangement : List (Delivery × UInt32)} (hne : slices ≠ [])
    (hslices : ∀ slice ∈ slices, slice.1.Reduces ref slice.2)
    (harrangement : arrangement.Perm slices) {whole : Delivery} {total : UInt32}
    (hwhole : whole.Reduces ref total) (htotal : total.toNat = sharesOf (slices.map Prod.snd)) :
    (after (engine, scratch) (arrangement.map Prod.fst)).map forgetFreed =
        (after (engine, scratch) [whole]).map forgetFreed ∧
      (engine.orderMap.find .identity ref = some none →
        after (engine, scratch) (arrangement.map Prod.fst) = some engine ∧
          after (engine, scratch) [whole] = some engine) ∧
      ∀ loc, engine.orderMap.find .identity ref = some (some loc) →
        (total < (engine.pool.node loc.poolIdx).order.shares →
          after (engine, scratch) (arrangement.map Prod.fst) =
              some (engine.mapShares loc.poolIdx (· - total)) ∧
            after (engine, scratch) [whole] =
              some (engine.mapShares loc.poolIdx (· - total))) ∧
        ((engine.pool.node loc.poolIdx).order.shares ≤ total →
          ∃ arranged single,
            after (engine, scratch) (arrangement.map Prod.fst) = some arranged ∧
            after (engine, scratch) [whole] = some single ∧
            arranged.Gone ref loc.poolIdx ∧ single.Gone ref loc.poolIdx ∧
            (engine.slots < 2 ^ 32 →
              loc.poolIdx ∉ arranged.linkedSlots ∧ loc.poolIdx ∉ single.linkedSlots)) := by
  obtain ⟨size, directory, hinside⟩ := hreached.inside
  have harranged : Reduced engine ref total
      (after (engine, scratch) (arrangement.map Prod.fst)) := by
    rw [after_eq_reduceAll fun slice hslice => hslices slice (harrangement.mem_iff.mp hslice)]
    apply hinside.reduced
    · intro hnil
      rw [List.map_eq_nil_iff.mp hnil] at harrangement
      exact hne harrangement.nil_eq.symm
    · rw [htotal]
      exact (((harrangement.map Prod.snd).map UInt32.toNat).sum_eq).symm
  have hsingle : Reduced engine ref total (after (engine, scratch) [whole]) := by
    rw [after_singleton hwhole]
    exact hinside.reduced (List.cons_ne_nil _ _) rfl
  refine ⟨harranged.map_forgetFreed_eq hsingle,
    fun hfind => ⟨harranged.absent hfind, hsingle.absent hfind⟩, fun loc hfind => ⟨?_, ?_⟩⟩
  · exact fun hless => ⟨harranged.kept loc hfind hless, hsingle.kept loc hfind hless⟩
  · intro hle
    obtain ⟨_, _, herase, harrangedEq⟩ := harranged.exists_removed hinside.map hfind hle
    obtain ⟨_, _, herase', hsingleEq⟩ := hsingle.exists_removed hinside.map hfind hle
    exact ⟨_, _, harrangedEq, hsingleEq, hreached.gone hfind herase _,
      hreached.gone hfind herase' _, fun hslots =>
        ⟨hreached.unlinked hslots hfind herase _, hreached.unlinked hslots hfind herase' _⟩⟩

theorem reduces_executed (ref : UInt64) (shares : UInt32) :
    (Delivery.of (.executed ⟨ref, shares⟩)).Reduces ref shares where
  type := .inl rfl
  fields := ItchMessage.executed.inj (Delivery.decoded_of (.executed ⟨ref, shares⟩))

/-- An order of five shares rests, and seven are taken: in three messages, or in one. -/
theorem reductions_compose_overshoot :
    ∃ engine trace arranged single,
      Reached [.of (.add 1 ⟨0, 7, 5, 1000000, buyByte⟩)] engine trace ∧
      engine.orderMap.find .identity 7 = some (some { stockLocate := 1, poolIdx := 0 }) ∧
      after (engine, {}) [.of (.executed ⟨7, 3⟩), .of (.executed ⟨7, 0⟩), .of (.executed ⟨7, 4⟩)] =
        some arranged ∧
      after (engine, {}) [.of (.executed ⟨7, 7⟩)] = some single ∧
      arranged.forgetFreed = single.forgetFreed ∧
      arranged.orderMap.find .identity 7 = some none ∧ 0 ∉ arranged.linkedSlots := by
  have hwithin : Within [.of (.add 1 ⟨0, 7, 5, 1000000, buyByte⟩)] :=
    within_of_length_lt (by decide)
  have hroom := (hwithin [] List.nil_prefix _ _ reached_nil).1
  obtain ⟨engine, market, trace, hrun, hlive, hdirectory, _, hslots⟩ :=
    JointRun.start.add_to_full rfl hroom (by decide) 1 ⟨0, 7, 5, 1000000, buyByte⟩ (.inl rfl)
      (show (5 : UInt32) ≠ 0 by decide) (by simp)
  have hrep := hrun.represents
  have hentry : market.directory 7 = some { stockLocate := 1, poolIdx := 0 } := by
    rw [hdirectory]
    decide
  have hfind := hrep.directory.find_stored hentry
  have hstored : (engine.pool.node 0).order = ⟨0, 7, 5, 1000000, buyByte⟩ := by
    apply hrep.books.stored ⟨1, 0, ⟨0, 7, 5, 1000000, buyByte⟩⟩
    rw [hlive]
    exact List.mem_cons_self
  have hslices : ∀ slice ∈ [(Delivery.of (.executed ⟨7, 3⟩), (3 : UInt32)),
      (.of (.executed ⟨7, 0⟩), 0), (.of (.executed ⟨7, 4⟩), 4)], slice.1.Reduces 7 slice.2 := by
    intro slice hslice
    simp only [List.mem_cons, List.not_mem_nil, or_false] at hslice
    rcases hslice with rfl | rfl | rfl
    all_goals exact reduces_executed _ _
  obtain ⟨hsame, _, hknown⟩ := reductions_compose hrun.reached {} (List.cons_ne_nil _ _) hslices
    (List.Perm.refl _) (reduces_executed 7 7) rfl
  obtain ⟨arranged, single, harranged, hsingle, hgone, _, hunlinked⟩ := (hknown _ hfind).2 (by
    rw [hstored]
    exact show (5 : UInt32) ≤ 7 by decide)
  rw [harranged, hsingle] at hsame
  simp only [List.map_cons, List.map_nil] at harranged
  exact ⟨engine, trace, arranged, single, hrun.reached, hfind, harranged, hsingle,
    Option.some.inj hsame, hgone.unknown, (hunlinked (by rw [hslots]; decide)).1⟩

/-- Removing an order without neighbours from any level writes no other slot. -/
theorem remove_of_single {pool : OrderPool} {idx : UInt32}
    (hnext : (pool.node idx).next = INVALID_INDEX) (hprev : (pool.node idx).prev = INVALID_INDEX)
    (side : LadderSide) (price : UInt32) : (side.remove pool price idx).1 = pool := by
  unfold LadderSide.remove unlink
  simp only [hnext, hprev, ne_eq, not_true_eq_false, if_false]
  split_ifs <;> rfl

/-- Beyond the index type of the arena, an order that an execution used up is matched once more:
its slot is still linked in another book. -/
theorem reduced_order_matched :
    ∃ stream engine trace engine' handled, Reached stream engine trace ∧
      engine.orderMap.find .identity 1 = some (some { stockLocate := 3, poolIdx := 0 }) ∧
      (engine.pool.node 0).order.shares = 1 ∧
      after (engine, {}) [.of (.executed ⟨1, 1⟩)] = some engine' ∧
      engine'.Gone 1 0 ∧
      (engine'.orderBooks 1).handleOrder engine'.pool ⟨0, 5, 1, 150, buyByte⟩ [] [] =
        some (.ok handled) ∧
      handled.executedOrders = [.ofMatch 1 1] := by
  obtain ⟨stream, engine, trace, hreached, htaken⟩ :=
    exists_takenOver (show Bid listedBid from ⟨rfl, show (1 : UInt32) ≠ 0 by decide⟩)
  obtain ⟨directory, hmap, hlisted⟩ := htaken.map
  have hentry : directory 1 = some { stockLocate := 3, poolIdx := 0 } := hlisted (by decide)
  have hfind := hmap.find_stored hentry
  obtain ⟨orderMap, herase, _⟩ :=
    hmap.erase_stored (Option.ne_none_iff_exists'.mpr ⟨_, hentry⟩)
  have hshares : (engine.pool.node 0).order.shares = 1 := by
    rw [htaken.stored]
    rfl
  obtain ⟨hnext, hprev⟩ := htaken.asks.links_of_single
  have hafter : after (engine, {}) [.of (.executed ⟨1, 1⟩)] =
      some (engine.without { stockLocate := 3, poolIdx := 0 } orderMap) := by
    have hle : (engine.pool.node 0).order.shares ≤ 1 := hshares ▸ UInt32.le_refl _
    rw [after_singleton (reduces_executed 1 1), reduceAll, reduce_of_le hfind hle, herase]
    rfl
  have hpool : (engine.without { stockLocate := 3, poolIdx := 0 } orderMap).pool =
      engine.pool.free 0 := by
    rw [pool_without, OrderBook.removeByIndex_eq _ rfl, remove_of_single hnext hprev]
  have hnode : (engine.pool.free 0).node 0 = engine.pool.node 0 := by
    obtain ⟨_, _, hchain⟩ := htaken.asks.best_of_single
    rw [OrderPool.node_free_self (hchain.valid 0 (by decide)).2, htaken.full, ← hnext]
  have hasks : (engine.orderBooks 1).asks.Represents (engine.pool.free 0) [(150, 0)] := by
    refine htaken.asks.congr (fun idx hidx => ?_) (Nat.le_of_eq (OrderPool.size_free _ _).symm)
    cases List.mem_singleton.mp hidx
    rw [hnode]
    exact ⟨rfl, rfl⟩
  obtain ⟨handled, hhandle, _, _, hexecuted⟩ := handleOrder_of_single ⟨0, 5, 1, 150, buyByte⟩ rfl
    hasks (by decide) (by rw [hnode, hshares]) (by decide)
  refine ⟨stream, engine, trace, _, handled, hreached, hfind, hshares, hafter, ?_, ?_, ?_⟩
  · have hgone := hreached.gone hfind herase id
    rwa [mapShares_id] at hgone
  · rw [hpool]
    exact hhandle
  · rw [hexecuted, hnode, htaken.stored]
    rfl

end MatchingEngine

end Orderbook
