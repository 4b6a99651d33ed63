/-
# The matching loops

The two nested loops of the source fill the head of the best level until the
incoming order is done, the level is drained or the next price does not cross.
Each pass of the inner loop is one fill of the market's sweep, and the loops end
exactly where the sweep ends. Between two passes of the inner loop the level may
be drained but not yet retired, so the invariant speaks of the state in which it
has been.
-/

import Orderbook.Engine.Books

namespace Orderbook

open Orderbook.Math LadderSide

/-- The loop variables of the source describe a sweep under way. -/
structure Matches (sides : Sides) (locate : UInt16) (incoming : Order) (state : MatchState)
    (swept : Sweep Resting) : Prop where
  books : Books state.pool (sides.set locate (!incoming.isBuy) state.side) swept.items
  positive : ∀ resting ∈ swept.items, resting.order.shares ≠ 0
  demand : swept.demand < 2 ^ 32
  order : state.order = { incoming with shares := UInt32.ofNat swept.demand }
  removed : state.removedRefs = filledRefs swept.fills
  executed : state.executedOrders = executedRecords swept.fills

variable {sides : Sides} {locate : UInt16} {incoming : Order} {state : MatchState}
  {swept : Sweep Resting} {price : UInt32} {ptr : LevelPtr}

namespace Matches

theorem represents (hmatch : Matches sides locate incoming state swept) :
    state.side.Represents state.pool (sideOrders locate (!incoming.isBuy) swept.items) := by
  have hlinked := hmatch.books.linked locate (!incoming.isBuy)
  rwa [Sides.set_self] at hlinked

theorem bid (hmatch : Matches sides locate incoming state swept) :
    state.side.bid = !incoming.isBuy := by
  have hbid := hmatch.books.bid locate (!incoming.isBuy)
  rwa [Sides.set_self] at hbid

/-- When the best price crosses, the head of its level is the next order of the
sweep. -/
theorem next_of_best (hmatch : Matches sides locate incoming state swept)
    (hbest : state.side.Best state.pool (sideOrders locate (!incoming.isBuy) swept.items)
      price ptr)
    (hdemand : swept.demand ≠ 0) (hcross : incoming.crosses price) :
    ∃ resting, (Resting.rules locate incoming).next swept = some resting ∧
      resting ∈ swept.items ∧ resting.locate = locate ∧
      resting.order.isBuy = (!incoming.isBuy) ∧ resting.order.price = price ∧
      ∃ rest, queueOf (atPrice price) (sideOrders locate (!incoming.isBuy) swept.items) =
        resting.slot :: rest := by
  set here : Resting → Bool := fun resting =>
    resting.locate = locate ∧ resting.order.isBuy = (!incoming.isBuy) ∧
      resting.order.price = price with hhere
  obtain ⟨idx, hpresent⟩ := hbest.present
  obtain ⟨first, hfirst, hlocate, hside, hprice, _⟩ := mem_sideOrders.mp hpresent
  cases hfilter : swept.items.filter here with
  | nil =>
      have hmem : first ∈ swept.items.filter here :=
        List.mem_filter.mpr ⟨hfirst, by simp [hhere, hlocate, hside, hprice]⟩
      simp [hfilter] at hmem
  | cons resting others =>
      have hmem : resting ∈ swept.items.filter here := hfilter ▸ List.mem_cons_self
      obtain ⟨hitem, hselected⟩ := List.mem_filter.mp hmem
      obtain ⟨hrLocate, hrSide, hrPrice⟩ := of_decide_eq_true hselected
      refine ⟨resting, ?_, hitem, hrLocate, hrSide, hrPrice, others.map Resting.slot, ?_⟩
      · have hfind : swept.items.find? here = some resting := by
          rw [← List.head?_filter, hfilter, List.head?_cons]
        rw [Rules.next, if_neg hdemand, ← hfind]
        apply best_eq_find
        intro other hother
        simp only [hhere, Resting.rules, decide_eq_true_eq]
        constructor
        · rintro ⟨hoLocate, hoSide, hoPrice⟩
          refine ⟨⟨hoLocate, hoSide, hoPrice ▸ hcross⟩, fun worse hworse heligible => ?_⟩
          have hahead := hbest.ahead worse.order.price worse.slot
            (mem_sideOrders.mpr ⟨worse, hworse, heligible.1, heligible.2.1, rfl, rfl⟩)
          rwa [hmatch.bid, ← hoPrice] at hahead
        · rintro ⟨⟨hoLocate, hoSide, _⟩, hall⟩
          have hfirstAhead := hall resting hitem ⟨hrLocate, hrSide, hrPrice ▸ hcross⟩
          have hbestAhead := hbest.ahead other.order.price other.slot
            (mem_sideOrders.mpr ⟨other, hother, hoLocate, hoSide, rfl, rfl⟩)
          rw [hmatch.bid] at hbestAhead
          rw [hrPrice] at hfirstAhead
          exact ⟨hoLocate, hoSide, hfirstAhead.antisymm hbestAhead⟩
      · rw [queueOf_sideOrders, ← List.map_cons, ← hfilter]

/-- A price behind a price that does not cross does not cross either. -/
theorem crosses_of_ahead {first second : UInt32} (hahead : Ahead (!incoming.isBuy) first second)
    (hcross : incoming.crosses second) : incoming.crosses first := by
  unfold Order.crosses at *
  cases hside : incoming.isBuy with
  | true =>
      simp only [hside, if_true, decide_eq_true_eq, Bool.not_true] at *
      exact UInt32.le_trans hahead hcross
  | false =>
      simp only [hside, Bool.false_eq_true, if_false, decide_eq_true_eq, Bool.not_false] at *
      exact UInt32.le_trans hcross hahead

/-- The sweep is over when the side has no order that crosses. -/
theorem next_eq_none (hmatch : Matches sides locate incoming state swept)
    (hstop : ∀ price ptr, state.side.Best state.pool
      (sideOrders locate (!incoming.isBuy) swept.items) price ptr → ¬ incoming.crosses price) :
    (Resting.rules locate incoming).next swept = none := by
  unfold Rules.next
  split
  · rfl
  · apply best_eq_none
    intro resting hresting
    rw [Bool.eq_false_iff]
    intro heligible
    obtain ⟨hlocate, hside, hcross⟩ := of_decide_eq_true heligible
    have hmem : (resting.order.price, resting.slot) ∈
        sideOrders locate (!incoming.isBuy) swept.items :=
      mem_sideOrders.mpr ⟨resting, hresting, hlocate, hside, rfl, rfl⟩
    obtain ⟨price, ptr, hbest⟩ :=
      hmatch.represents.bestLevel_spec (List.ne_nil_of_mem hmem)
    apply hstop price ptr hbest
    have hahead := hbest.ahead _ _ hmem
    rw [hmatch.bid] at hahead
    exact crosses_of_ahead hahead hcross

end Matches

section Pass

variable {idx executedShares : UInt32} {resting : Order}

theorem shares_reduceNode {pool : OrderPool} (hidx : idx.toNat < pool.nodes.size)
    (hstored : (pool.node idx).order = resting) (amount : UInt32) :
    ((pool.modify idx (Books.reduceNode amount)).node idx).order.shares =
      resting.shares - amount := by
  rw [OrderPool.node_modify_self hidx, ← hstored]
  rfl

/-- A pass that fills the head of the level pops and frees it. -/
theorem MatchState.fillHead_of_filled (hhead : (state.levelAt ptr).head = idx)
    (hidx : idx.toNat < state.pool.nodes.size) (hstored : (state.pool.node idx).order = resting)
    (hexecuted : min state.order.shares resting.shares = executedShares)
    (hfilled : resting.shares - executedShares = 0) :
    state.fillHead ptr =
      { pool := (popHead (state.pool.modify idx (Books.reduceNode executedShares))
          (state.levelAt ptr)).1.free idx
        side := state.side.assign ptr (popHead (state.pool.modify idx
          (Books.reduceNode executedShares)) (state.levelAt ptr)).2
        order := { state.order with shares := state.order.shares - executedShares }
        removedRefs := state.removedRefs ++ [resting.ref]
        executedOrders := state.executedOrders ++ [.ofMatch resting.ref executedShares] } := by
  have hshares := shares_reduceNode hidx hstored executedShares
  subst hhead hstored hexecuted
  exact if_pos (hshares.trans hfilled)

/-- A pass that does not fill the head writes its shares only. -/
theorem MatchState.fillHead_of_open (hhead : (state.levelAt ptr).head = idx)
    (hidx : idx.toNat < state.pool.nodes.size) (hstored : (state.pool.node idx).order = resting)
    (hexecuted : min state.order.shares resting.shares = executedShares)
    (hopen : resting.shares - executedShares ≠ 0) :
    state.fillHead ptr =
      { state with
        pool := state.pool.modify idx (Books.reduceNode executedShares)
        order := { state.order with shares := state.order.shares - executedShares }
        executedOrders := state.executedOrders ++ [.ofMatch resting.ref executedShares] } := by
  have hshares := shares_reduceNode hidx hstored executedShares
  subst hhead hstored hexecuted
  exact if_neg fun h => hopen (hshares.symm.trans h)

end Pass

theorem min_eq_right_of_toNat_le {first second : UInt32} (hle : second.toNat ≤ first.toNat) :
    min first second = second := by
  change (if first ≤ second then first else second) = second
  split
  · rename_i hge
    exact UInt32.le_antisymm hge (UInt32.le_iff_toNat_le.mpr hle)
  · rfl

theorem min_eq_left_of_toNat_lt {first second : UInt32} (hlt : first.toNat < second.toNat) :
    min first second = first := by
  change (if first ≤ second then first else second) = first
  exact if_pos (UInt32.le_iff_toNat_le.mpr (Nat.le_of_lt hlt))

/-- Shares that cover an amount lose exactly that amount. -/
theorem ofNat_sub_of_le {demand : ℕ} {shares : UInt32} (hdemand : demand < 2 ^ 32)
    (hle : shares.toNat ≤ demand) :
    UInt32.ofNat demand - shares = UInt32.ofNat (demand - shares.toNat) := by
  have htoNat : (UInt32.ofNat demand).toNat = demand := UInt32.toNat_ofNat_of_lt' hdemand
  apply UInt32.toNat_inj.mp
  rw [UInt32.toNat_sub_of_le _ _ (by rw [UInt32.le_iff_toNat_le, htoNat]; exact hle), htoNat]
  exact (UInt32.toNat_ofNat_of_lt' (Nat.lt_of_le_of_lt (Nat.sub_le _ _) hdemand)).symm

namespace MatchState

/-! Retiring a level writes the side only. -/

theorem pool_retire (state : MatchState) (price : UInt32) (ptr : LevelPtr) :
    (state.retire price ptr).pool = state.pool := by
  unfold retire
  split <;> rfl

theorem order_retire (state : MatchState) (price : UInt32) (ptr : LevelPtr) :
    (state.retire price ptr).order = state.order := by
  unfold retire
  split <;> rfl

theorem removedRefs_retire (state : MatchState) (price : UInt32) (ptr : LevelPtr) :
    (state.retire price ptr).removedRefs = state.removedRefs := by
  unfold retire
  split <;> rfl

theorem executedOrders_retire (state : MatchState) (price : UInt32) (ptr : LevelPtr) :
    (state.retire price ptr).executedOrders = state.executedOrders := by
  unfold retire
  split <;> rfl

/-- A level that is not drained is not retired. -/
theorem retire_of_live {state : MatchState} {price : UInt32} {ptr : LevelPtr}
    (hlive : (state.levelAt ptr).head ≠ INVALID_INDEX) : state.retire price ptr = state :=
  if_neg hlive

/-- A pass that fills the head of the best level: with the level retired if that drained it,
the head is removed from the side and its slot freed. The level is still the best one unless
no order is left at its price. -/
structure HeadFilled (state : MatchState) (linked : List (UInt32 × UInt32)) (price : UInt32)
    (ptr : LevelPtr) (idx : UInt32) (resting : Order) : Prop where
  pool : ((state.fillHead ptr).retire price ptr).pool =
    (state.side.remove (state.pool.modify idx (Books.reduceNode resting.shares)) price idx).1.free
      idx
  side : ((state.fillHead ptr).retire price ptr).side =
    (state.side.remove (state.pool.modify idx (Books.reduceNode resting.shares)) price idx).2
  order : (state.fillHead ptr).order =
    { state.order with shares := state.order.shares - resting.shares }
  removedRefs : (state.fillHead ptr).removedRefs = state.removedRefs ++ [resting.ref]
  executedOrders : (state.fillHead ptr).executedOrders =
    state.executedOrders ++ [.ofMatch resting.ref resting.shares]
  live : ((state.fillHead ptr).levelAt ptr).head ≠ INVALID_INDEX →
    (state.fillHead ptr).side.Best (state.fillHead ptr).pool
      (linked.filter fun entry => entry.2 ≠ idx) price ptr
  drained : ((state.fillHead ptr).levelAt ptr).head = INVALID_INDEX →
    ∀ other, (price, other) ∉ linked.filter fun entry => entry.2 ≠ idx

theorem headFilled {state : MatchState} {linked : List (UInt32 × UInt32)} {price : UInt32}
    {ptr : LevelPtr} {idx : UInt32} {rest : List UInt32} {resting : Order}
    (hrep : state.side.Represents state.pool linked)
    (hbest : state.side.Best state.pool linked price ptr)
    (hqueue : queueOf (atPrice price) linked = idx :: rest)
    (hstored : (state.pool.node idx).order = resting)
    (hexecuted : min state.order.shares resting.shares = resting.shares) :
    HeadFilled state linked price ptr idx resting := by
  have hlinks : ∀ other ∈ linked.map Prod.snd,
      ((state.pool.modify idx (Books.reduceNode resting.shares)).node other).next =
          (state.pool.node other).next ∧
        ((state.pool.modify idx (Books.reduceNode resting.shares)).node other).prev =
          (state.pool.node other).prev := fun other _ =>
    ⟨OrderPool.field_modify PoolNode.next _ idx other fun _ => rfl,
      OrderPool.field_modify PoolNode.prev _ idx other fun _ => rfl⟩
  have hchain := hbest.chain
  rw [hqueue] at hchain
  have hidx := (hchain.valid idx List.mem_cons_self).2
  have hhead : (state.levelAt ptr).head = idx := hchain.head
  have hpass := fillHead_of_filled hhead hidx hstored hexecuted (UInt32.sub_self _)
  have hsize : state.pool.nodes.size ≤
      (state.pool.modify idx (Books.reduceNode resting.shares)).nodes.size :=
    Nat.le_of_eq (OrderPool.size_modify ..).symm
  replace hrep := hrep.congr hlinks hsize
  replace hbest := hbest.congr hlinks hsize
  generalize hreduced : state.pool.modify idx (Books.reduceNode resting.shares) = pool at *
  have hentry : (price, idx) ∈ linked := mem_of_queueOf_eq_cons hqueue
  have hpop : popHead pool (state.levelAt ptr) = unlink pool (state.side.deref ptr) idx := by
    have hchain' := hbest.chain
    rw [hqueue] at hchain'
    exact popHead_eq_unlink hchain'
  rcases hunlink : unlink pool (state.side.deref ptr) idx with ⟨pool', level⟩
  have hremove := pop_eq_remove hbest.located hunlink
  have hlevel : (state.side.assign ptr level).deref ptr = level := hbest.deref_assign hrep level
  rw [hpop, hunlink] at hpass
  refine ⟨?_, ?_, by rw [hpass], by rw [hpass], by rw [hpass], fun hlive => ?_,
    fun hdrained => ?_⟩
  · rw [hreduced, pool_retire, hpass, hremove]
  · rw [hreduced, hpass, hremove]
    unfold retire levelAt
    rw [hlevel]
    split <;> rfl
  · rw [hpass, levelAt, hlevel] at hlive
    rw [hpass]
    apply (hbest.assign hrep hentry hunlink hlive).congr
    · intro other hother
      have hne : other ≠ idx := by
        rintro rfl
        simp at hother
      rw [OrderPool.node_free_of_ne hne]
      exact ⟨rfl, rfl⟩
    · exact Nat.le_of_eq (OrderPool.size_free _ _).symm
  · rw [hpass, levelAt, hlevel] at hdrained
    have hleft := (hbest.chain.unlink
      (mem_queueOf.mpr ⟨price, hentry, by simp [atPrice]⟩)).2
    rw [hunlink, ← queueOf_leave] at hleft
    intro other hother
    have hqueued : other ∈ queueOf (atPrice price) (linked.filter fun entry => entry.2 ≠ idx) :=
      mem_queueOf.mpr ⟨price, hother, by simp [atPrice]⟩
    rw [hleft.head_eq_invalid_iff.mp hdrained] at hqueued
    exact absurd hqueued List.not_mem_nil

end MatchState

namespace Matches

theorem shares_toNat (hmatch : Matches sides locate incoming state swept) :
    state.order.shares.toNat = swept.demand := by
  rw [hmatch.order]
  exact UInt32.toNat_ofNat_of_lt' hmatch.demand

theorem shares_pos (hmatch : Matches sides locate incoming state swept)
    (hdemand : swept.demand ≠ 0) : state.order.shares > 0 := by
  apply UInt32.lt_iff_toNat_lt.mpr
  rw [hmatch.shares_toNat]
  exact Nat.pos_of_ne_zero hdemand

theorem shares_not_pos (hmatch : Matches sides locate incoming state swept)
    (hdemand : swept.demand = 0) : ¬ state.order.shares > 0 := by
  intro hpos
  have := UInt32.lt_iff_toNat_lt.mp hpos
  rw [hmatch.shares_toNat, hdemand] at this
  exact Nat.lt_irrefl 0 this

/-- Reducing the order at the head keeps the best level. -/
theorem best_reduce (hbest : state.side.Best state.pool
      (sideOrders locate (!incoming.isBuy) swept.items) price ptr)
    (slot amount : UInt32) (after : ℕ) :
    state.side.Best (state.pool.modify slot (Books.reduceNode amount))
      (sideOrders locate (!incoming.isBuy) (reduceSlot slot after swept.items)) price ptr := by
  rw [Books.sideOrders_reduceSlot]
  apply hbest.congr
  · intro idx _
    exact ⟨OrderPool.field_modify PoolNode.next _ slot idx fun _ => rfl,
      OrderPool.field_modify PoolNode.prev _ slot idx fun _ => rfl⟩
  · exact Nat.le_of_eq (OrderPool.size_modify _ _ _).symm

/-- The market's fill when the demand covers the order. -/
theorem fill_of_filled {resting : Resting} (hfilled : resting.order.shares.toNat ≤ swept.demand) :
    (Resting.rules locate incoming).fill resting swept =
      { items := swept.items.filter fun other => other.slot ≠ resting.slot
        demand := swept.demand - resting.order.shares.toNat
        fills := swept.fills ++ [(resting, resting.order.shares.toNat)] } := by
  simp [Rules.fill, Rules.drop, Resting.rules, hfilled]

/-- The market's fill when the order is larger than the demand. -/
theorem fill_of_open {resting : Resting} (hopen : swept.demand < resting.order.shares.toNat) :
    (Resting.rules locate incoming).fill resting swept =
      { items := reduceSlot resting.slot swept.demand swept.items
        demand := 0
        fills := swept.fills ++ [(resting, swept.demand)] } := by
  have hnot : ¬ resting.order.shares.toNat ≤ swept.demand := Nat.not_le.mpr hopen
  have hmin : min swept.demand resting.order.shares.toNat = swept.demand :=
    Nat.min_eq_left (Nat.le_of_lt hopen)
  have hzero : swept.demand - resting.order.shares.toNat = 0 :=
    Nat.sub_eq_zero_of_le (Nat.le_of_lt hopen)
  simp [Rules.fill, Rules.take, Resting.rules, hnot, hmin, hzero, reduceSlot]

end Matches

/-- The level is still the best one after a pass, or no order is left at its price. -/
structure LevelAfter (locate : UInt16) (incoming : Order) (price : UInt32) (ptr : LevelPtr)
    (state : MatchState) (items : List Resting) : Prop where
  live : (state.levelAt ptr).head ≠ INVALID_INDEX →
    state.side.Best state.pool (sideOrders locate (!incoming.isBuy) items) price ptr
  drained : (state.levelAt ptr).head = INVALID_INDEX →
    ∀ idx, (price, idx) ∉ sideOrders locate (!incoming.isBuy) items

/-- A pass of the inner loop, with a drained level retired, in terms of the operations of a
side: the shares are written, and an order without shares is removed and its slot freed. -/
structure Passes (sides : Sides) (locate : UInt16) (incoming : Order) (state : MatchState)
    (swept : Sweep Resting) (resting : Resting) (after : MatchState) : Prop where
  before : Matches sides locate incoming state swept
  next : (Resting.rules locate incoming).next swept = some resting
  matched : Matches sides locate incoming after
    ((Resting.rules locate incoming).fill resting swept)
  filled : resting.order.shares.toNat ≤ swept.demand →
    after.pool = (state.side.remove (state.pool.modify resting.slot
      (Books.reduceNode resting.order.shares)) resting.order.price resting.slot).1.free
        resting.slot ∧
    after.side = (state.side.remove (state.pool.modify resting.slot
      (Books.reduceNode resting.order.shares)) resting.order.price resting.slot).2
  part : swept.demand < resting.order.shares.toNat →
    after.pool = state.pool.modify resting.slot (Books.reduceNode state.order.shares) ∧
      after.side = state.side

namespace Matches

/-- A pass that fills the head of the best level drops it from the market. -/
theorem pass_filled (hmatch : Matches sides locate incoming state swept)
    (hbest : state.side.Best state.pool (sideOrders locate (!incoming.isBuy) swept.items)
      price ptr) {resting : Resting} {rest : List UInt32} (hitem : resting ∈ swept.items)
    (hprice : resting.order.price = price)
    (hqueue : queueOf (atPrice price) (sideOrders locate (!incoming.isBuy) swept.items) =
      resting.slot :: rest)
    (hnext : (Resting.rules locate incoming).next swept = some resting)
    (hfilled : resting.order.shares.toNat ≤ swept.demand) :
    Passes sides locate incoming state swept resting
        ((state.fillHead ptr).retire price ptr) ∧
      LevelAfter locate incoming price ptr (state.fillHead ptr)
        ((Resting.rules locate incoming).fill resting swept).items := by
  have hexecuted : min state.order.shares resting.order.shares = resting.order.shares :=
    min_eq_right_of_toNat_le (by rw [hmatch.shares_toNat]; exact hfilled)
  have hhead := MatchState.headFilled hmatch.represents hbest hqueue
    (hmatch.books.stored resting hitem) hexecuted
  have hbooks := hmatch.books.reduce (hmatch.books.slot_lt hitem) resting.order.shares
  have hentry : (price, resting.slot) ∈ sideOrders locate (!incoming.isBuy)
      (reduceSlot resting.slot resting.order.shares.toNat swept.items) := by
    rw [Books.sideOrders_reduceSlot]
    exact mem_of_queueOf_eq_cons hqueue
  have hremoved := hbooks.remove hentry rfl
  rw [Sides.set_set, Books.leave_reduceSlot, Sides.set_self] at hremoved
  have hfill : (Resting.rules locate incoming).fill resting swept = _ := fill_of_filled hfilled
  have hafter : Matches sides locate incoming ((state.fillHead ptr).retire price ptr)
      ((Resting.rules locate incoming).fill resting swept) := by
    rw [hfill]
    refine ⟨?_, fun other hother => ?_, ?_, ?_, ?_, ?_⟩
    · rw [hhead.pool, hhead.side]
      exact hremoved
    · exact hmatch.positive other (List.mem_of_mem_filter hother)
    · exact Nat.lt_of_le_of_lt (Nat.sub_le _ _) hmatch.demand
    · rw [MatchState.order_retire, hhead.order, hmatch.order,
        ofNat_sub_of_le hmatch.demand hfilled]
    · rw [MatchState.removedRefs_retire, hhead.removedRefs, hmatch.removed]
      simp [filledRefs]
    · rw [MatchState.executedOrders_retire, hhead.executedOrders, hmatch.executed]
      simp [executedRecords]
  refine ⟨⟨hmatch, hnext, hafter, fun _ => ?_, fun hopen => ?_⟩, ?_, ?_⟩
  · rw [hprice]
    exact ⟨hhead.pool, hhead.side⟩
  · exact absurd hopen (Nat.not_lt.mpr hfilled)
  · rw [hfill, sideOrders_leave]
    exact hhead.live
  · rw [hfill, sideOrders_leave]
    exact hhead.drained

/-- A pass that does not fill the head of the best level ends the demand. -/
theorem pass_open (hmatch : Matches sides locate incoming state swept)
    (hbest : state.side.Best state.pool (sideOrders locate (!incoming.isBuy) swept.items)
      price ptr) {resting : Resting} {rest : List UInt32} (hitem : resting ∈ swept.items)
    (hqueue : queueOf (atPrice price) (sideOrders locate (!incoming.isBuy) swept.items) =
      resting.slot :: rest)
    (hnext : (Resting.rules locate incoming).next swept = some resting)
    (hopen : swept.demand < resting.order.shares.toNat) :
    Passes sides locate incoming state swept resting
        ((state.fillHead ptr).retire price ptr) ∧
      LevelAfter locate incoming price ptr (state.fillHead ptr)
        ((Resting.rules locate incoming).fill resting swept).items := by
  have hidx := hmatch.books.slot_lt hitem
  have hstored := hmatch.books.stored resting hitem
  have hshares := hmatch.shares_toNat
  have hexecuted : min state.order.shares resting.order.shares = state.order.shares :=
    min_eq_left_of_toNat_lt (by rw [hshares]; exact hopen)
  have hchain := hbest.chain
  rw [hqueue] at hchain
  have hhead : (state.levelAt ptr).head = resting.slot := hchain.head
  have hleft : ∀ amount : UInt32, amount.toNat < resting.order.shares.toNat →
      resting.order.shares - amount ≠ 0 := by
    intro amount hlt hzero
    have hsub := congrArg UInt32.toNat hzero
    rw [UInt32.toNat_sub_of_le _ _ (UInt32.le_iff_toNat_le.mpr (Nat.le_of_lt hlt))] at hsub
    change resting.order.shares.toNat - amount.toNat = 0 at hsub
    omega
  have hbooks := hmatch.books.reduce hidx state.order.shares
  rw [hshares] at hbooks
  have hfill : (Resting.rules locate incoming).fill resting swept = _ := fill_of_open hopen
  have hpass := MatchState.fillHead_of_open hhead hidx hstored hexecuted
    (hleft _ (by rw [hshares]; exact hopen))
  have hvalid := (hchain.valid resting.slot List.mem_cons_self).1
  have hlive : ((state.fillHead ptr).levelAt ptr).head ≠ INVALID_INDEX := by
    rw [hpass]
    exact fun h => hvalid (hhead.symm.trans h)
  have hretire : (state.fillHead ptr).retire price ptr = state.fillHead ptr :=
    MatchState.retire_of_live hlive
  have hafter : Matches sides locate incoming (state.fillHead ptr)
      ((Resting.rules locate incoming).fill resting swept) := by
    rw [hfill, hpass]
    refine ⟨hbooks, fun other hother => ?_, by simp, ?_, ?_, ?_⟩
    · obtain ⟨before, hbefore, rfl⟩ := List.mem_map.mp hother
      split
      · rename_i hslot
        obtain rfl := hmatch.books.eq_of_slot_eq hbefore hitem hslot
        apply hleft
        rw [← hshares, UInt32.ofNat_toNat, hshares]
        exact hopen
      · exact hmatch.positive before hbefore
    · simp [hmatch.order]
    · rw [hmatch.removed]
      simp [filledRefs, Nat.ne_of_lt hopen]
    · rw [hmatch.executed]
      simp [executedRecords, hmatch.order]
  rw [hretire]
  refine ⟨⟨hmatch, hnext, hafter, fun hfilled => ?_, fun _ => ?_⟩, fun _ => ?_,
    fun hdrained => absurd hdrained hlive⟩
  · exact absurd hopen (Nat.not_lt.mpr hfilled)
  · rw [hpass]
    exact ⟨rfl, rfl⟩
  · rw [hfill, hpass]
    exact best_reduce hbest resting.slot state.order.shares swept.demand

/-- One pass of the inner loop is one fill of the sweep. -/
theorem pass (hmatch : Matches sides locate incoming state swept)
    (hbest : state.side.Best state.pool (sideOrders locate (!incoming.isBuy) swept.items)
      price ptr) (hdemand : swept.demand ≠ 0) (hcross : incoming.crosses price) :
    ∃ resting, Passes sides locate incoming state swept resting
        ((state.fillHead ptr).retire price ptr) ∧
      LevelAfter locate incoming price ptr (state.fillHead ptr)
        ((Resting.rules locate incoming).fill resting swept).items := by
  obtain ⟨resting, hnext, hitem, _, _, hprice, rest, hqueue⟩ :=
    hmatch.next_of_best hbest hdemand hcross
  refine ⟨resting, ?_⟩
  by_cases hfilled : resting.order.shares.toNat ≤ swept.demand
  · exact hmatch.pass_filled hbest hitem hprice hqueue hnext hfilled
  · exact hmatch.pass_open hbest hitem hqueue hnext (Nat.lt_of_not_le hfilled)

end Matches

/-- A pass serves some of the demand. -/
theorem Passes.demand_lt {resting : Resting} {after : MatchState}
    (hpasses : Passes sides locate incoming state swept resting after) :
    ((Resting.rules locate incoming).fill resting swept).demand < swept.demand := by
  obtain ⟨hitem, _, hdemand⟩ := Rules.mem_of_next hpasses.next
  have hshares : resting.order.shares.toNat ≠ 0 := fun h =>
    hpasses.before.positive resting hitem (UInt32.toNat_inj.mp h)
  change swept.demand - resting.order.shares.toNat < swept.demand
  omega

/-! ## The loops -/

/-- What every pass of the inner loop keeps. -/
def PassesKeep (sides : Sides) (locate : UInt16) (incoming : Order)
    (holds : MatchState → Sweep Resting → Prop) : Prop :=
  ∀ state swept resting after, Passes sides locate incoming state swept resting after →
    holds state swept → holds after ((Resting.rules locate incoming).fill resting swept)

/-- A state of the inner loop after its first pass. Retiring the level would give
a state of the sweep, and the level is still the best one unless it is drained. -/
structure InsideLevel (sides : Sides) (locate : UInt16) (incoming : Order)
    (holds : MatchState → Sweep Resting → Prop) (start : Sweep Resting) (price : UInt32)
    (ptr : LevelPtr) (state : MatchState) (swept : Sweep Resting) : Prop where
  retired : Matches sides locate incoming (state.retire price ptr) swept
  holds : holds (state.retire price ptr) swept
  level : LevelAfter locate incoming price ptr state swept.items
  sweep : (Resting.rules locate incoming).sweep swept =
    (Resting.rules locate incoming).sweep start
  less : swept.demand < start.demand

section Loops

variable {holds : MatchState → Sweep Resting → Prop}

/-- Each pass leads into the inner loop and serves some of the demand. -/
theorem Matches.insideLevel (hkeep : PassesKeep sides locate incoming holds)
    {start : Sweep Resting} (hmatch : Matches sides locate incoming state swept)
    (hholds : holds state swept)
    (hbest : state.side.Best state.pool (sideOrders locate (!incoming.isBuy) swept.items)
      price ptr) (hdemand : swept.demand ≠ 0) (hcross : incoming.crosses price)
    (hsweep : (Resting.rules locate incoming).sweep swept =
      (Resting.rules locate incoming).sweep start)
    (hle : swept.demand ≤ start.demand) :
    ∃ swept', InsideLevel sides locate incoming holds start price ptr (state.fillHead ptr)
        swept' ∧ swept'.demand < swept.demand := by
  obtain ⟨resting, hpasses, hlevel⟩ := hmatch.pass hbest hdemand hcross
  have hless := hpasses.demand_lt
  exact ⟨_, ⟨hpasses.matched, hkeep _ _ _ _ hpasses hholds, hlevel,
    (Rules.sweep_of_next hpasses.next).symm.trans hsweep, Nat.lt_of_lt_of_le hless hle⟩, hless⟩

/-- The head of the best level is a live order. -/
theorem head_ne_invalid_of_best (hbest : state.side.Best state.pool
      (sideOrders locate (!incoming.isBuy) swept.items) price ptr) :
    (state.levelAt ptr).head ≠ INVALID_INDEX := by
  obtain ⟨idx, hpresent⟩ := hbest.present
  have hmem : idx ∈ queueOf (atPrice price) (sideOrders locate (!incoming.isBuy) swept.items) :=
    mem_queueOf.mpr ⟨price, hpresent, by simp [atPrice]⟩
  intro hhead
  rw [hbest.chain.head_eq_invalid_iff.mp hhead] at hmem
  simp at hmem

/-- The inner loop runs the sweep on until the level is drained or the order is
done. It makes at least one fill. -/
theorem matchLevel_spec (hkeep : PassesKeep sides locate incoming holds)
    (hmatch : Matches sides locate incoming state swept) (hholds : holds state swept)
    (hbest : state.side.Best state.pool (sideOrders locate (!incoming.isBuy) swept.items)
      price ptr) (hdemand : swept.demand ≠ 0) (hcross : incoming.crosses price) :
    ∃ state', MatchState.matchLevel ptr state = some state' ∧
      ∃ swept', InsideLevel sides locate incoming holds swept price ptr state' swept' ∧
        (swept'.demand ≠ 0 → (state'.levelAt ptr).head = INVALID_INDEX) := by
  obtain ⟨swept₁, hinside, _⟩ :=
    hmatch.insideLevel hkeep hholds hbest hdemand hcross rfl (Nat.le_refl swept.demand)
  have hfirst : MatchState.matchLevel ptr state =
      MatchState.matchLevel ptr (state.fillHead ptr) := by
    apply loopWhile_of_true
    · rw [Bool.and_eq_true, decide_eq_true_eq, decide_eq_true_eq]
      exact ⟨hmatch.shares_pos hdemand, head_ne_invalid_of_best hbest⟩
    · rfl
  rw [hfirst]
  obtain ⟨state', hstate', ⟨swept', hinside'⟩, htest⟩ :
      ∃ state', MatchState.matchLevel ptr (state.fillHead ptr) = some state' ∧ _ := by
    apply loopWhile_total
      (fun current => ∃ remaining,
        InsideLevel sides locate incoming holds swept price ptr current remaining)
      (fun current : MatchState => current.order.shares.toNat)
    · rintro current ⟨remaining, hcurrent⟩ htest
      rw [Bool.and_eq_true, decide_eq_true_eq, decide_eq_true_eq] at htest
      have hretired := hcurrent.retired
      have hkept := hcurrent.holds
      rw [MatchState.retire_of_live htest.2] at hretired hkept
      have hopen : remaining.demand ≠ 0 := by
        rw [← hretired.shares_toNat]
        exact Nat.ne_of_gt (UInt32.lt_iff_toNat_lt.mp htest.1)
      obtain ⟨served, hserved, hless⟩ := hretired.insideLevel hkeep hkept
        (hcurrent.level.live htest.2) hopen hcross hcurrent.sweep (Nat.le_of_lt hcurrent.less)
      refine ⟨_, rfl, ⟨served, hserved⟩, ?_⟩
      rw [hretired.shares_toNat, ← MatchState.order_retire _ price ptr,
        hserved.retired.shares_toNat]
      exact hless
    · exact ⟨swept₁, hinside⟩
  refine ⟨state', hstate', swept', hinside', fun hopen => ?_⟩
  have hpos := hinside'.retired.shares_pos hopen
  rw [MatchState.order_retire] at hpos
  rw [decide_eq_true hpos, Bool.true_and, decide_eq_false_iff_not] at htest
  exact Decidable.not_not.mp htest

/-- A pass of the outer loop ends where the sweep ends. Otherwise it serves the best level
until the order is done or no order is left at that price. -/
theorem Matches.outerPass {stops : UInt32 → UInt32 → Bool}
    (hkeep : PassesKeep sides locate incoming holds)
    (hstops : ∀ price, stops price incoming.price = !incoming.crosses price)
    (hmatch : Matches sides locate incoming state swept) (hholds : holds state swept) :
    (state.outerPass stops = some (.inr state) ∧
        (Resting.rules locate incoming).next swept = none) ∨
      ∃ next swept' price ptr, state.outerPass stops = some (.inl next) ∧
        state.side.bestLevel = some (price, ptr) ∧
        Matches sides locate incoming next swept' ∧ holds next swept' ∧
        (Resting.rules locate incoming).sweep swept' =
          (Resting.rules locate incoming).sweep swept ∧
        swept'.demand < swept.demand ∧
        (swept'.demand ≠ 0 →
          ∀ idx, (price, idx) ∉ sideOrders locate (!incoming.isBuy) swept'.items) := by
  unfold MatchState.outerPass
  by_cases hdemand : swept.demand = 0
  · exact .inl ⟨if_neg (hmatch.shares_not_pos hdemand), if_pos hdemand⟩
  · rw [if_pos (hmatch.shares_pos hdemand)]
    have hprice : state.order.price = incoming.price := by rw [hmatch.order]
    by_cases hnil : sideOrders locate (!incoming.isBuy) swept.items = []
    · have hnone := (hnil ▸ hmatch.represents).bestLevel_of_nil
      refine .inl ⟨by rw [hnone], hmatch.next_eq_none ?_⟩
      intro price ptr hbest _
      cases hnone.symm.trans hbest.result
    · obtain ⟨price, ptr, hbest⟩ := hmatch.represents.bestLevel_spec hnil
      rw [hbest.result]
      dsimp only
      rw [hprice, hstops]
      cases hcross : incoming.crosses price with
      | false =>
          refine .inl ⟨rfl, hmatch.next_eq_none ?_⟩
          intro other ptr' hother
          cases hbest.result.symm.trans hother.result
          exact Bool.eq_false_iff.mp hcross
      | true =>
          obtain ⟨state', hstate', swept', hinside, hdrained⟩ :=
            matchLevel_spec hkeep hmatch hholds hbest hdemand hcross
          refine .inr ⟨state'.retire price ptr, swept', price, ptr, by simp [hstate'], rfl,
            hinside.retired, hinside.holds, hinside.sweep, hinside.less, fun hopen => ?_⟩
          exact hinside.level.drained (hdrained hopen)

/-- The outer loop runs the sweep to its end. -/
theorem matchSide_spec {stops : UInt32 → UInt32 → Bool}
    (hkeep : PassesKeep sides locate incoming holds)
    (hstops : ∀ price, stops price incoming.price = !incoming.crosses price)
    (hmatch : Matches sides locate incoming state swept) (hholds : holds state swept) :
    ∃ state', MatchState.matchSide stops state = some state' ∧
      Matches sides locate incoming state' ((Resting.rules locate incoming).sweep swept) ∧
      holds state' ((Resting.rules locate incoming).sweep swept) := by
  unfold MatchState.matchSide
  apply iterate_total
    (fun current => ∃ remaining, Matches sides locate incoming current remaining ∧
      holds current remaining ∧ (Resting.rules locate incoming).sweep remaining =
        (Resting.rules locate incoming).sweep swept)
    _ (fun current : MatchState => current.order.shares.toNat)
  · rintro current ⟨remaining, hcurrent, hkept, hsweep⟩
    rcases hcurrent.outerPass hkeep hstops hkept with ⟨hleave, hnext⟩ |
      ⟨next, swept', _, _, hcontinue, _, hmatched, hnextHolds, hsweep', hless, _⟩
    · refine .inr ⟨current, hleave, ?_⟩
      rw [← hsweep, Rules.sweep_of_next_eq_none hnext]
      exact ⟨hcurrent, hkept⟩
    · refine .inl ⟨next, hcontinue, ⟨swept', hmatched, hnextHolds, hsweep'.trans hsweep⟩, ?_⟩
      rw [hmatched.shares_toNat, hcurrent.shares_toNat]
      exact hless
  · exact ⟨swept, hmatch, hholds, rfl⟩

end Loops

end Orderbook
