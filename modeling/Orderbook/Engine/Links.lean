/-
# Links that stay inside the arena

The books, the free list and the order map store indices into one arena. Whatever is
delivered, every index they store is the null index or the index of a slot, and every
slot that can be addressed holds an order with a valid side. Nothing is assumed about
the size of the arena: once it has outgrown its index type, slots may be shared by
several orders and chains may run in circles, but no link ever points outside.

This is a property of each write on its own, so it is carried through the loops as an
invariant that says nothing about what the chains look like.
-/

import Orderbook.Engine.Market

namespace Orderbook

open Orderbook.Math

/-- The null index, or the index of one of the first `size` slots. -/
def LinkIn (size : ℕ) (idx : UInt32) : Prop := idx = INVALID_INDEX ∨ idx.toNat < size

namespace LinkIn

variable {size size' : ℕ} {idx : UInt32}

theorem invalid (size : ℕ) : LinkIn size INVALID_INDEX := .inl rfl

theorem mono (hlink : LinkIn size idx) (hsize : size ≤ size') : LinkIn size' idx :=
  hlink.imp_right fun hless => Nat.lt_of_lt_of_le hless hsize

theorem lt (hlink : LinkIn size idx) (hne : idx ≠ INVALID_INDEX) : idx.toNat < size :=
  hlink.resolve_left hne

end LinkIn

/-- A slot whose links stay inside and whose order has a valid side. -/
structure PoolNode.Inside (size : ℕ) (node : PoolNode) : Prop where
  next : LinkIn size node.next
  prev : LinkIn size node.prev
  side : ValidSide node.order.buySellIndicator

theorem PoolNode.Inside.mono {size size' : ℕ} {node : PoolNode} (hnode : node.Inside size)
    (hsize : size ≤ size') : node.Inside size' :=
  ⟨hnode.next.mono hsize, hnode.prev.mono hsize, hnode.side⟩

/-- An arena of the given size with all links inside. -/
structure OrderPool.Inside (size : ℕ) (pool : OrderPool) : Prop where
  size_eq : pool.nodes.size = size
  freeHead : LinkIn size pool.freeHead
  node : ∀ idx : UInt32, idx.toNat < size → (pool.node idx).Inside size

namespace OrderPool.Inside

variable {size : ℕ} {pool : OrderPool} {idx : UInt32} {order : Order}

/-- A write that keeps slots inside keeps the arena inside. -/
theorem modify (hpool : pool.Inside size) {write : PoolNode → PoolNode}
    (hwrite : ∀ node, node.Inside size → (write node).Inside size) :
    (pool.modify idx write).Inside size where
  size_eq := (size_modify pool idx write).trans hpool.size_eq
  freeHead := hpool.freeHead
  node other hother := by
    by_cases heq : other = idx
    · subst heq
      rw [node_modify_self (hpool.size_eq.symm ▸ hother)]
      exact hwrite _ (hpool.node other hother)
    · rw [node_modify_of_ne heq]
      exact hpool.node other hother

theorem modify_shares (hpool : pool.Inside size) (idx : UInt32) (shares : UInt32 → UInt32) :
    (pool.modify idx fun node =>
      { node with order := { node.order with shares := shares node.order.shares } }).Inside size :=
  hpool.modify fun _ hnode => ⟨hnode.next, hnode.prev, hnode.side⟩

theorem free (hpool : pool.Inside size) (hidx : idx.toNat < size) :
    (pool.free idx).Inside size := by
  have hmodified : (pool.modify idx fun node => { node with next := pool.freeHead }).Inside size :=
    hpool.modify fun _ hnode => ⟨hpool.freeHead, hnode.prev, hnode.side⟩
  exact ⟨hmodified.size_eq, .inr hidx, hmodified.node⟩

/-- An allocation returns a slot of the arena, which may have grown. -/
theorem allocate (hpool : pool.Inside size) (hside : ValidSide order.buySellIndicator) :
    ∃ size', size ≤ size' ∧ (pool.allocate order).2.Inside size' ∧
      (pool.allocate order).1.toNat < size' := by
  unfold OrderPool.allocate
  by_cases hhead : pool.freeHead ≠ INVALID_INDEX
  · have hidx := hpool.freeHead.lt hhead
    have hpopped : OrderPool.Inside size
        { pool with freeHead := (pool.node pool.freeHead).next } :=
      ⟨hpool.size_eq, (hpool.node pool.freeHead hidx).next, hpool.node⟩
    rw [if_pos hhead]
    exact ⟨size, Nat.le_refl _, hpopped.modify fun _ _ => ⟨.invalid _, .invalid _, hside⟩, hidx⟩
  · rw [if_neg hhead]
    have hidx : (UInt32.ofNat pool.nodes.size).toNat < size + 1 := by
      rw [UInt32.toNat_ofNat', hpool.size_eq]
      exact Nat.lt_succ_of_le (Nat.mod_le _ _)
    have hgrown : (pool.nodes.push default).size = size + 1 := by
      rw [Array.size_push, hpool.size_eq]
    refine ⟨size + 1, Nat.le_succ _, ⟨?_, hpool.freeHead.mono (Nat.le_succ _), ?_⟩, hidx⟩
    · rw [size_modify]
      exact hgrown
    · intro other hother
      by_cases heq : other = UInt32.ofNat pool.nodes.size
      · subst heq
        rw [node_modify_self (by rw [hgrown]; exact hidx)]
        exact ⟨.invalid _, .invalid _, hside⟩
      · rw [node_modify_of_ne heq]
        have hne : other.toNat ≠ pool.nodes.size := by
          intro hlast
          rw [← hlast, UInt32.ofNat_toNat] at heq
          exact heq rfl
        have hold : other.toNat < size := by
          rw [hpool.size_eq] at hne
          omega
        have hnode : OrderPool.node { pool with nodes := pool.nodes.push default } other =
            pool.node other := by
          simp [OrderPool.node, Array.getElem?_push, hne]
        rw [hnode]
        exact (hpool.node other hold).mono (Nat.le_succ _)

end OrderPool.Inside

/-- A level whose ends are inside. -/
structure Level.Inside (size : ℕ) (level : Level) : Prop where
  head : LinkIn size level.head
  tail : LinkIn size level.tail

theorem Level.Inside.mono {size size' : ℕ} {level : Level} (hlevel : level.Inside size)
    (hsize : size ≤ size') : level.Inside size' :=
  ⟨hlevel.head.mono hsize, hlevel.tail.mono hsize⟩

theorem Level.Inside.empty (size : ℕ) : Level.Inside size {} := ⟨.invalid _, .invalid _⟩

section Chains

variable {size : ℕ} {pool : OrderPool} {level : Level} {idx : UInt32}

theorem linkAtTail_inside (hpool : pool.Inside size) (hlevel : level.Inside size)
    (hidx : idx.toNat < size) :
    (linkAtTail pool level idx).1.Inside size ∧ (linkAtTail pool level idx).2.Inside size := by
  have hlinked : (pool.modify idx fun node =>
      { node with prev := level.tail, next := INVALID_INDEX }).Inside size :=
    hpool.modify fun _ hnode => ⟨.invalid _, hlevel.tail, hnode.side⟩
  unfold linkAtTail
  dsimp only
  split
  · exact ⟨hlinked.modify fun _ hnode => ⟨.inr hidx, hnode.prev, hnode.side⟩,
      hlevel.head, .inr hidx⟩
  · exact ⟨hlinked, .inr hidx, .inr hidx⟩

theorem unlink_inside (hpool : pool.Inside size) (hlevel : level.Inside size)
    (hidx : idx.toNat < size) :
    (unlink pool level idx).1.Inside size ∧ (unlink pool level idx).2.Inside size := by
  have hnode := hpool.node idx hidx
  have hcut : ∀ (cut : OrderPool) (ends : Level), cut.Inside size → ends.Inside size →
      (if (cut.node idx).next ≠ INVALID_INDEX then
        (cut.modify (cut.node idx).next fun after => { after with prev := (cut.node idx).prev },
          ends)
      else (cut, { ends with tail := (cut.node idx).prev })).1.Inside size ∧
      (if (cut.node idx).next ≠ INVALID_INDEX then
        (cut.modify (cut.node idx).next fun after => { after with prev := (cut.node idx).prev },
          ends)
      else (cut, { ends with tail := (cut.node idx).prev })).2.Inside size := by
    intro cut ends hcut hends
    have hprev := (hcut.node idx hidx).prev
    split
    · exact ⟨hcut.modify fun _ hafter => ⟨hafter.next, hprev, hafter.side⟩, hends⟩
    · exact ⟨hcut, hends.head, hprev⟩
  unfold unlink
  dsimp only
  split
  · exact hcut _ _ (hpool.modify fun _ hbefore => ⟨hnode.next, hbefore.prev, hbefore.side⟩) hlevel
  · exact hcut _ _ hpool ⟨hnode.next, hlevel.tail⟩

theorem popHead_inside (hpool : pool.Inside size) (hlevel : level.Inside size)
    (hhead : level.head.toNat < size) :
    (popHead pool level).1.Inside size ∧ (popHead pool level).2.Inside size := by
  have hnode := hpool.node level.head hhead
  unfold popHead
  dsimp only
  split
  · exact ⟨hpool.modify fun _ hafter => ⟨hafter.next, .invalid _, hafter.side⟩,
      hnode.next, hlevel.tail⟩
  · exact ⟨hpool, hnode.next, .invalid _⟩

end Chains

/-- A side whose levels are inside. -/
structure LadderSide.Inside (size : ℕ) (side : LadderSide) : Prop where
  ladder : ∀ slot, (side.level slot).Inside size
  overflow : ∀ entry ∈ side.overflow, entry.2.Inside size

namespace LadderSide.Inside

variable {size size' : ℕ} {side : LadderSide} {pool : OrderPool} {price idx : UInt32}

theorem mono (hside : side.Inside size) (hsize : size ≤ size') : side.Inside size' :=
  ⟨fun slot => (hside.ladder slot).mono hsize, fun entry hentry =>
    (hside.overflow entry hentry).mono hsize⟩

theorem overflowAt (hside : side.Inside size) (pos : ℕ) : (side.overflowAt pos).2.Inside size := by
  rw [LadderSide.overflowAt, List.getD_eq_getElem?_getD]
  cases hentry : side.overflow[pos]? with
  | none => exact .empty size
  | some entry => exact hside.overflow entry (List.mem_of_getElem? hentry)

theorem deref (hside : side.Inside size) (ptr : LevelPtr) : (side.deref ptr).Inside size := by
  cases ptr with
  | ladder slot => exact hside.ladder slot
  | overflow pos => exact hside.overflowAt pos

theorem setLevel (hside : side.Inside size) {level : Level} (hlevel : level.Inside size)
    (slot : UInt32) : (side.setLevel slot level).Inside size := by
  refine ⟨fun other => ?_, hside.overflow⟩
  have hother := hside.ladder other
  unfold LadderSide.level at hother ⊢
  rw [LadderSide.setLevel, Array.getElem?_modify]
  split
  · cases side.ladder[other.toNat]? with
    | none => exact .empty size
    | some old => exact hlevel
  · exact hother

theorem setOverflow (hside : side.Inside size) {level : Level} (hlevel : level.Inside size)
    (pos : ℕ) : (side.setOverflow pos level).Inside size := by
  refine ⟨hside.ladder, fun entry hentry => ?_⟩
  obtain ⟨at', hat⟩ := List.mem_iff_getElem?.mp hentry
  rw [LadderSide.setOverflow, List.getElem?_modify] at hat
  obtain ⟨old, hold, hnew⟩ := Option.map_eq_some_iff.mp hat
  split at hnew
  · rw [← hnew]
    exact hlevel
  · rw [← hnew]
    exact hside.overflow old (List.mem_of_getElem? hold)

theorem assign (hside : side.Inside size) {level : Level} (hlevel : level.Inside size)
    (ptr : LevelPtr) : (side.assign ptr level).Inside size := by
  cases ptr with
  | ladder slot => exact hside.setLevel hlevel slot
  | overflow pos => exact hside.setOverflow hlevel pos

theorem advanceBest (hside : side.Inside size) : side.advanceBest.Inside size := by
  unfold LadderSide.advanceBest
  split
  · exact hside
  · exact ⟨hside.ladder, hside.overflow⟩

theorem anchor (hside : side.Inside size) (price : UInt32) : (side.anchor price).Inside size := by
  refine ⟨fun slot => ?_, hside.overflow⟩
  rw [LadderSide.level, LadderSide.anchor, Array.getElem?_replicate]
  split <;> exact .empty size

theorem eraseOverflow (hside : side.Inside size) (pos : ℕ) :
    LadderSide.Inside size { side with overflow := side.overflow.eraseIdx pos } :=
  ⟨hside.ladder, fun entry hentry => hside.overflow entry (List.mem_of_mem_eraseIdx hentry)⟩

/-- Making room for a price in the overflow vector adds an empty level at most. -/
theorem openOverflow (hside : side.Inside size) (price : UInt32) (pos : ℕ) :
    LadderSide.Inside size
      (if side.overflowHit pos price then side
      else { side with overflow := side.overflow.insertIdx pos (price, {}) }) := by
  split
  · exact hside
  · refine ⟨hside.ladder, fun entry hentry => ?_⟩
    rcases List.eq_or_mem_of_mem_insertIdx hentry with rfl | hold
    · exact .empty size
    · exact hside.overflow entry hold

theorem add (hside : side.Inside size) (hpool : pool.Inside size) (hidx : idx.toNat < size) :
    (side.add pool price idx).1.Inside size ∧ (side.add pool price idx).2.Inside size := by
  have hanchored : (if side.anchored then side else side.anchor price).Inside size := by
    split
    · exact hside
    · exact hside.anchor price
  unfold LadderSide.add
  dsimp only
  generalize (if side.anchored then side else side.anchor price) = anchored at hanchored ⊢
  split
  · obtain ⟨hlinked, hlevel⟩ :=
      linkAtTail_inside hpool (hanchored.ladder (anchored.priceToSlot price)) hidx
    have hset := hanchored.setLevel hlevel (anchored.priceToSlot price)
    split_ifs <;> exact ⟨hlinked, hset.ladder, hset.overflow⟩
  · generalize anchored.overflowLowerBound price = pos
    have hroom := hanchored.openOverflow price pos
    generalize (if anchored.overflowHit pos price then anchored
      else { anchored with overflow := anchored.overflow.insertIdx pos (price, {}) }) = opened
      at hroom ⊢
    obtain ⟨hlinked, hlevel⟩ := linkAtTail_inside hpool (hroom.overflowAt pos) hidx
    exact ⟨hlinked, hroom.setOverflow hlevel pos⟩

theorem remove (hside : side.Inside size) (hpool : pool.Inside size) (hidx : idx.toNat < size) :
    (side.remove pool price idx).1.Inside size ∧ (side.remove pool price idx).2.Inside size := by
  unfold LadderSide.remove
  dsimp only
  split
  · obtain ⟨hcut, hlevel⟩ := unlink_inside hpool (hside.ladder (side.priceToSlot price)) hidx
    split
    · exact ⟨hcut, (hside.setLevel hlevel _).advanceBest⟩
    · exact ⟨hcut, hside.setLevel hlevel _⟩
  · split
    · exact ⟨hpool, hside⟩
    · obtain ⟨hcut, hlevel⟩ :=
        unlink_inside hpool (hside.overflowAt (side.overflowLowerBound price)) hidx
      split
      · exact ⟨hcut, hside.eraseOverflow _⟩
      · exact ⟨hcut, hside.setOverflow hlevel _⟩

theorem removeEmptyBest (hside : side.Inside size) (price : UInt32) :
    (side.removeEmptyBest price).Inside size := by
  unfold LadderSide.removeEmptyBest
  dsimp only
  split
  · split
    · exact hside.advanceBest
    · exact hside
  · split
    · exact hside.eraseOverflow _
    · exact hside

end LadderSide.Inside

/-- A state of the matching loops with all links inside. -/
structure MatchState.Inside (size : ℕ) (state : MatchState) : Prop where
  pool : state.pool.Inside size
  side : state.side.Inside size
  order : ValidSide state.order.buySellIndicator

namespace MatchState.Inside

variable {size : ℕ} {state result : MatchState}

theorem fillHead (hstate : state.Inside size) {ptr : LevelPtr}
    (hhead : (state.levelAt ptr).head ≠ INVALID_INDEX) :
    (MatchState.fillHead ptr state).Inside size := by
  have hlevel : (state.levelAt ptr).Inside size := hstate.side.deref ptr
  have hidx := hlevel.head.lt hhead
  have hfilled := hstate.pool.modify_shares (state.levelAt ptr).head fun shares =>
    shares - min state.order.shares (state.pool.node (state.levelAt ptr).head).order.shares
  obtain ⟨hpopped, hrest⟩ := popHead_inside hfilled hlevel hidx
  unfold MatchState.fillHead
  dsimp only
  split
  · exact ⟨hpopped.free hidx, hstate.side.assign hrest ptr, hstate.order⟩
  · exact ⟨hfilled, hstate.side, hstate.order⟩

theorem matchLevel (hstate : state.Inside size) {ptr : LevelPtr}
    (hmatch : MatchState.matchLevel ptr state = some result) : result.Inside size := by
  refine (keeps_of_loopWhile (MatchState.Inside size) (fun state next hstate htest hnext => ?_)
    hstate hmatch).1
  cases hnext
  apply hstate.fillHead
  simp only [Bool.and_eq_true, decide_eq_true_eq] at htest
  exact htest.2

theorem retire (hstate : state.Inside size) (bestPrice : UInt32) (ptr : LevelPtr) :
    (MatchState.retire bestPrice ptr state).Inside size := by
  unfold MatchState.retire
  split
  · exact ⟨hstate.pool, hstate.side.removeEmptyBest bestPrice, hstate.order⟩
  · exact hstate

/-- The loops leave with all links inside. -/
theorem matchSide (hstate : state.Inside size) {stops : UInt32 → UInt32 → Bool}
    (hmatch : MatchState.matchSide stops state = some result) : result.Inside size := by
  refine MatchState.keeps_of_matchSide (MatchState.Inside size) ?_ hstate hmatch
  intro current price ptr served hcurrent _ hserved
  exact (hcurrent.matchLevel hserved).retire price ptr

end MatchState.Inside

/-- The outcome of handling an order, with all links inside. -/
structure Handled.Inside (size : ℕ) (handled : Handled) : Prop where
  pool : handled.pool.Inside size
  bids : handled.book.bids.Inside size
  asks : handled.book.asks.Inside size
  resting : LinkIn size handled.restingIdx

section Handling

variable {size : ℕ} {pool : OrderPool} {own : LadderSide} {order : Order} {book : OrderBook}

theorem restRemainder_inside (hpool : pool.Inside size) (hown : own.Inside size)
    (hside : ValidSide order.buySellIndicator) :
    ∃ size', size ≤ size' ∧ LinkIn size' (restRemainder pool own order).1 ∧
      (restRemainder pool own order).2.1.Inside size' ∧
      (restRemainder pool own order).2.2.Inside size' := by
  unfold restRemainder
  split
  · obtain ⟨size', hsize, hallocated, hidx⟩ := hpool.allocate hside
    obtain ⟨hadded, hrested⟩ := (hown.mono hsize).add hallocated hidx
    exact ⟨size', hsize, .inr hidx, hadded, hrested⟩
  · exact ⟨size, Nat.le_refl _, .invalid _, hpool, hown⟩

/-- An order that is handled leaves all links inside the arena, which may have grown. -/
theorem handleOrder_inside (hpool : pool.Inside size) (hbids : book.bids.Inside size)
    (hasks : book.asks.Inside size) {removedRefs : List UInt64}
    {executedOrders : List ItchOrderExecuted} {handled : Handled}
    (hhandle : book.handleOrder pool order removedRefs executedOrders = some (.ok handled)) :
    ∃ size', size ≤ size' ∧ handled.Inside size' := by
  unfold OrderBook.handleOrder at hhandle
  split at hhandle
  case isTrue hbuy =>
    obtain ⟨_, hbuyOrder, hok⟩ := Option.map_eq_some_iff.mp hhandle
    cases hok
    obtain ⟨state, hmatch, rfl⟩ := Option.map_eq_some_iff.mp hbuyOrder
    have hstate := MatchState.Inside.matchSide ⟨hpool, hasks, .inl hbuy⟩ hmatch
    obtain ⟨size', hsize, hidx, hrested, hown⟩ :=
      restRemainder_inside hstate.pool hbids hstate.order
    exact ⟨size', hsize, hrested, hown, hstate.side.mono hsize, hidx⟩
  case isFalse =>
    split at hhandle
    case isTrue hsell =>
      obtain ⟨_, hsellOrder, hok⟩ := Option.map_eq_some_iff.mp hhandle
      cases hok
      obtain ⟨state, hmatch, rfl⟩ := Option.map_eq_some_iff.mp hsellOrder
      have hstate := MatchState.Inside.matchSide ⟨hpool, hbids, .inr hsell⟩ hmatch
      obtain ⟨size', hsize, hidx, hrested, hown⟩ :=
        restRemainder_inside hstate.pool hasks hstate.order
      exact ⟨size', hsize, hrested, hstate.side.mono hsize, hown, hidx⟩
    case isFalse => cases hhandle

/-- Removing an order that is in the arena leaves all links inside. -/
theorem removeByIndex_inside (hpool : pool.Inside size) (hbids : book.bids.Inside size)
    (hasks : book.asks.Inside size) {idx : UInt32} (hidx : idx.toNat < size) :
    (book.removeByIndex pool idx).1.Inside size ∧
      (book.removeByIndex pool idx).2.bids.Inside size ∧
      (book.removeByIndex pool idx).2.asks.Inside size := by
  unfold OrderBook.removeByIndex
  dsimp only
  split
  · obtain ⟨hremoved, hside⟩ := hbids.remove hpool hidx
    exact ⟨hremoved.free hidx, hside, hasks⟩
  · obtain ⟨hremoved, hside⟩ := hasks.remove hpool hidx
    exact ⟨hremoved.free hidx, hbids, hside⟩

end Handling

end Orderbook
