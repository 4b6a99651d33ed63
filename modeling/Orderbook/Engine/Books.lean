/-
# All books in one arena

`Books` says that the arena and the sides of all books store a list of resting
orders: every slot is free or holds exactly one of them, and every side links
exactly the orders of its book and direction. The engine changes this state in
three ways only. It reduces the shares of a resting order, it takes an order out
and frees its slot, and it rests an order in a new slot. Each of them is a change
of the list, whichever of the books it concerns.
-/

import Orderbook.Engine.Market

namespace Orderbook

open Orderbook.Math

/-- One side of a book. -/
def OrderBook.side (book : OrderBook) (bid : Bool) : LadderSide :=
  if bid then book.bids else book.asks

/-- The sides of all books. -/
abbrev Sides := UInt16 → Bool → LadderSide

/-- Write one side. -/
def Sides.set (sides : Sides) (locate : UInt16) (bid : Bool) (side : LadderSide) : Sides :=
  fun otherLocate otherBid =>
    if otherLocate = locate ∧ otherBid = bid then side else sides otherLocate otherBid

@[simp]
theorem Sides.set_self (sides : Sides) (locate : UInt16) (bid : Bool) (side : LadderSide) :
    sides.set locate bid side locate bid = side := if_pos ⟨rfl, rfl⟩

@[simp]
theorem Sides.set_set (sides : Sides) (locate : UInt16) (bid : Bool)
    (first second : LadderSide) :
    (sides.set locate bid first).set locate bid second = sides.set locate bid second := by
  funext otherLocate otherBid
  unfold Sides.set
  split <;> rfl

@[simp]
theorem Sides.set_same (sides : Sides) (locate : UInt16) (bid : Bool) :
    sides.set locate bid (sides locate bid) = sides := by
  funext otherLocate otherBid
  unfold Sides.set
  split
  · rename_i heq
    rw [heq.1, heq.2]
  · rfl

/-- A property of every side, when one side is written. -/
theorem Sides.forall_set (holds : UInt16 → Bool → LadderSide → Prop) {sides : Sides}
    {locate : UInt16} {bid : Bool} {side : LadderSide} (hself : holds locate bid side)
    (hother : ∀ otherLocate otherBid, ¬ (otherLocate = locate ∧ otherBid = bid) →
      holds otherLocate otherBid (sides otherLocate otherBid)) (otherLocate : UInt16)
    (otherBid : Bool) :
    holds otherLocate otherBid (sides.set locate bid side otherLocate otherBid) := by
  unfold Sides.set
  split
  · rename_i heq
    rw [heq.1, heq.2]
    exact hself
  · rename_i hne
    exact hother otherLocate otherBid hne

/-- The resting orders of one side, as the side links them. -/
def sideOrders (locate : UInt16) (bid : Bool) (live : List Resting) : List (UInt32 × UInt32) :=
  (live.filter fun resting => resting.locate = locate ∧ resting.order.isBuy = bid).map
    fun resting => (resting.order.price, resting.slot)

/-- The arena and the sides hold exactly the orders `live`. -/
structure Books (pool : OrderPool) (sides : Sides) (live : List Resting) : Prop where
  size : pool.nodes.size < 2 ^ 32
  arena : ∃ free, pool.FreeList free ∧ (free ++ live.map Resting.slot).Nodup ∧
    ∀ idx : UInt32, idx ∈ free ++ live.map Resting.slot ↔ idx.toNat < pool.nodes.size
  stored : ∀ resting ∈ live, (pool.node resting.slot).order = resting.order
  bid : ∀ locate bid, (sides locate bid).bid = bid
  linked : ∀ locate bid, (sides locate bid).Represents pool (sideOrders locate bid live)

variable {pool : OrderPool} {sides : Sides} {live : List Resting} {locate : UInt16} {bid : Bool}

theorem mem_sideOrders {price idx : UInt32} :
    (price, idx) ∈ sideOrders locate bid live ↔
      ∃ resting ∈ live, resting.locate = locate ∧ resting.order.isBuy = bid ∧
        resting.order.price = price ∧ resting.slot = idx := by
  simp [sideOrders, and_assoc]

theorem mem_slots_sideOrders {idx : UInt32} :
    idx ∈ (sideOrders locate bid live).map Prod.snd ↔
      ∃ resting ∈ live, resting.locate = locate ∧ resting.order.isBuy = bid ∧
        resting.slot = idx := by
  simp [sideOrders, and_assoc]

/-- The queue of a price, read off the live orders. -/
theorem queueOf_sideOrders (price : UInt32) :
    queueOf (LadderSide.atPrice price) (sideOrders locate bid live) =
      (live.filter fun resting => resting.locate = locate ∧ resting.order.isBuy = bid ∧
        resting.order.price = price).map Resting.slot := by
  unfold queueOf sideOrders
  rw [List.filter_map, List.map_map, List.filter_filter]
  congr 1
  congr 1
  funext resting
  rw [Bool.eq_iff_iff]
  simp [LadderSide.atPrice]
  tauto

/-- The slots of a side are slots of live orders. -/
theorem slots_sideOrders_sublist (locate : UInt16) (bid : Bool) (live : List Resting) :
    ((sideOrders locate bid live).map Prod.snd).Sublist (live.map Resting.slot) := by
  unfold sideOrders
  rw [List.map_map]
  exact List.filter_sublist.map _

theorem sideOrders_append (first second : List Resting) :
    sideOrders locate bid (first ++ second) =
      sideOrders locate bid first ++ sideOrders locate bid second := by
  simp [sideOrders]

/-- An order stands on its own side only. -/
theorem sideOrders_singleton_of_ne {resting : Resting}
    (hne : ¬ (locate = resting.locate ∧ bid = resting.order.isBuy)) :
    sideOrders locate bid [resting] = [] := by
  simp only [sideOrders, List.map_eq_nil_iff, List.filter_eq_nil_iff, List.mem_singleton]
  rintro other rfl hselected
  have hselected := of_decide_eq_true hselected
  exact hne ⟨hselected.1.symm, hselected.2.symm⟩

/-- Taking a slot out of the market takes it out of every side. -/
theorem sideOrders_leave (slot : UInt32) :
    sideOrders locate bid (live.filter fun resting => resting.slot ≠ slot) =
      (sideOrders locate bid live).filter fun entry => entry.2 ≠ slot := by
  unfold sideOrders
  rw [List.filter_map, List.filter_filter, List.filter_filter]
  congr 2
  funext resting
  exact Bool.and_comm _ _

/-- A change that keeps book, direction, price and slot is not seen by the
sides. -/
theorem sideOrders_map {change : Resting → Resting}
    (hlocate : ∀ resting, (change resting).locate = resting.locate)
    (hside : ∀ resting, (change resting).order.isBuy = resting.order.isBuy)
    (hprice : ∀ resting, (change resting).order.price = resting.order.price)
    (hslot : ∀ resting, (change resting).slot = resting.slot) :
    sideOrders locate bid (live.map change) = sideOrders locate bid live := by
  unfold sideOrders
  rw [List.filter_map, List.map_map]
  congr 1
  · funext resting
    simp [hprice, hslot]
  · congr 1
    funext resting
    simp [hlocate, hside]

namespace Books

theorem nodup_slots (hbooks : Books pool sides live) : (live.map Resting.slot).Nodup := by
  obtain ⟨free, _, hnodup, _⟩ := hbooks.arena
  exact (List.nodup_append.mp hnodup).2.1

/-- Live orders are told apart by their slots. -/
theorem eq_of_slot_eq (hbooks : Books pool sides live) {first second : Resting}
    (hfirst : first ∈ live) (hsecond : second ∈ live) (hslot : first.slot = second.slot) :
    first = second :=
  List.inj_on_of_nodup_map hbooks.nodup_slots hfirst hsecond hslot

theorem slot_lt (hbooks : Books pool sides live) {resting : Resting} (hmem : resting ∈ live) :
    resting.slot.toNat < pool.nodes.size := by
  obtain ⟨free, _, _, hcover⟩ := hbooks.arena
  exact (hcover resting.slot).mp (List.mem_append_right _ (List.mem_map_of_mem hmem))

/-- A slot of the arena is never the null index. -/
theorem ne_invalid_of_lt {idx : UInt32} (hsize : pool.nodes.size < 2 ^ 32)
    (hidx : idx.toNat < pool.nodes.size) : idx ≠ INVALID_INDEX := by
  rintro rfl
  have : INVALID_INDEX.toNat = 2 ^ 32 - 1 := by decide
  omega

/-- Different sides share no slot. -/
theorem sides_disjoint (hbooks : Books pool sides live) {locate' : UInt16} {bid' : Bool}
    (hne : ¬ (locate' = locate ∧ bid' = bid)) {idx : UInt32}
    (hidx : idx ∈ (sideOrders locate' bid' live).map Prod.snd) :
    idx ∉ (sideOrders locate bid live).map Prod.snd := by
  intro hother
  obtain ⟨first, hfirst, hlocate', hbid', hslot'⟩ := mem_slots_sideOrders.mp hidx
  obtain ⟨second, hsecond, hlocate, hbid, hslot⟩ := mem_slots_sideOrders.mp hother
  obtain rfl := hbooks.eq_of_slot_eq hfirst hsecond (hslot'.trans hslot.symm)
  exact hne ⟨hlocate'.symm.trans hlocate, hbid'.symm.trans hbid⟩

/-- Writing fewer shares into a node. -/
def reduceNode (amount : UInt32) (node : PoolNode) : PoolNode :=
  { node with order := { node.order with shares := node.order.shares - amount } }

theorem sideOrders_reduceSlot (slot : UInt32) (amount : ℕ) :
    sideOrders locate bid (reduceSlot slot amount live) = sideOrders locate bid live := by
  apply sideOrders_map
  all_goals
    intro resting
    split <;> rfl

theorem slots_reduceSlot (slot : UInt32) (amount : ℕ) :
    (reduceSlot slot amount live).map Resting.slot = live.map Resting.slot := by
  unfold reduceSlot
  rw [List.map_map]
  apply List.map_congr_left
  intro resting _
  simp only [Function.comp_apply]
  split <;> rfl

/-- Reducing an order before it is taken out makes no difference. -/
theorem leave_reduceSlot (slot : UInt32) (amount : ℕ) :
    (reduceSlot slot amount live).filter (fun resting => resting.slot ≠ slot) =
      live.filter fun resting => resting.slot ≠ slot := by
  induction live with
  | nil => rfl
  | cons resting rest ih =>
      unfold reduceSlot at *
      by_cases heq : resting.slot = slot
      · simpa [heq, Resting.reduce] using ih
      · simpa [heq] using ih

/-- Reducing the shares of a live order touches no link. -/
theorem reduce (hbooks : Books pool sides live) {slot : UInt32}
    (hslot : slot.toNat < pool.nodes.size) (amount : UInt32) :
    Books (pool.modify slot (reduceNode amount)) sides (reduceSlot slot amount.toNat live) := by
  have hnext : ∀ idx, ((pool.modify slot (reduceNode amount)).node idx).next =
      (pool.node idx).next := fun idx =>
    OrderPool.field_modify PoolNode.next pool slot idx fun _ => rfl
  have hprev : ∀ idx, ((pool.modify slot (reduceNode amount)).node idx).prev =
      (pool.node idx).prev := fun idx =>
    OrderPool.field_modify PoolNode.prev pool slot idx fun _ => rfl
  refine ⟨by simpa using hbooks.size, ?_, ?_, hbooks.bid, fun locate bid => ?_⟩
  · obtain ⟨free, hfree, hnodup, hcover⟩ := hbooks.arena
    rw [slots_reduceSlot, OrderPool.size_modify]
    exact ⟨free, hfree.congr rfl fun idx _ => hnext idx, hnodup, hcover⟩
  · intro resting hresting
    obtain ⟨before, hbefore, rfl⟩ := List.mem_map.mp hresting
    have hstored := hbooks.stored before hbefore
    by_cases heq : before.slot = slot
    · rw [if_pos heq]
      have hself : (pool.modify slot (reduceNode amount)).node before.slot =
          reduceNode amount (pool.node before.slot) := by
        rw [heq, OrderPool.node_modify_self hslot]
      simp only [Resting.reduce, UInt32.ofNat_toNat]
      rw [hself, reduceNode, hstored]
    · rw [if_neg heq, OrderPool.node_modify_of_ne heq]
      exact hstored
  · rw [sideOrders_reduceSlot]
    apply (hbooks.linked locate bid).congr
    · exact fun idx _ => ⟨hnext idx, hprev idx⟩
    · exact Nat.le_of_eq (OrderPool.size_modify _ _ _).symm

/-- A slot goes from the live orders to the free ones. -/
theorem slots_perm_leave (hnodup : (live.map Resting.slot).Nodup) {slot : UInt32}
    (hslot : slot ∈ live.map Resting.slot) (free : List UInt32) :
    (free ++ live.map Resting.slot).Perm
      (slot :: free ++ (live.filter fun resting => resting.slot ≠ slot).map Resting.slot) := by
  have hfilter : (live.map Resting.slot).erase slot =
      (live.filter fun resting => resting.slot ≠ slot).map Resting.slot := by
    rw [hnodup.erase_eq_filter, List.filter_map]
    congr 2
    funext resting
    rw [Bool.eq_iff_iff]
    simp
  rw [← hfilter]
  exact ((List.perm_cons_erase hslot).append_left free).trans List.perm_middle

/-- Unlinking a live order and freeing its slot takes it out of the market. -/
theorem remove (hbooks : Books pool sides live) {price slot : UInt32}
    (hentry : (price, slot) ∈ sideOrders locate bid live) {side : LadderSide} {pool' : OrderPool}
    (hremove : (sides locate bid).remove pool price slot = (pool', side)) :
    Books (pool'.free slot) (sides.set locate bid side)
      (live.filter fun resting => resting.slot ≠ slot) := by
  obtain ⟨hpool, hside⟩ := (hbooks.linked locate bid).remove hentry
  have hbid := LadderSide.bid_remove (sides locate bid) pool price slot
  rw [hremove] at hpool hside hbid
  change side.Represents pool' _ at hside
  change pool.Relinked pool' _ at hpool
  obtain ⟨free, hfree, hnodup, hcover⟩ := hbooks.arena
  obtain ⟨hfreeNodup, hliveNodup, hdisjoint⟩ := List.nodup_append.mp hnodup
  have hslotMem : slot ∈ live.map Resting.slot :=
    (slots_sideOrders_sublist locate bid live).subset (List.mem_map_of_mem hentry)
  have hslot : slot.toNat < pool.nodes.size :=
    (hcover slot).mp (List.mem_append_right _ hslotMem)
  have hslotNotFree : slot ∉ free := fun h => hdisjoint _ h _ hslotMem rfl
  have hperm := slots_perm_leave hliveNodup hslotMem free
  refine ⟨by simpa [hpool.size] using hbooks.size, ?_, ?_, ?_, ?_⟩
  · refine ⟨slot :: free, ?_, hperm.nodup_iff.mp hnodup, ?_⟩
    · apply OrderPool.FreeList.push
      · apply hfree.congr hpool.freeHead
        intro idx hidx
        rw [hpool.node idx]
        intro htouched
        exact hdisjoint idx hidx idx ((slots_sideOrders_sublist _ _ _).subset htouched) rfl
      · rw [hpool.size]
        exact hslot
      · exact hslotNotFree
    · intro idx
      rw [← hperm.mem_iff, hcover, OrderPool.size_free, hpool.size]
  · intro resting hresting
    obtain ⟨hresting, hne⟩ := List.mem_filter.mp hresting
    rw [OrderPool.node_free_of_ne (by simpa using hne), hpool.order]
    exact hbooks.stored resting hresting
  · exact Sides.forall_set (fun _ bid side => side.bid = bid) (hbid.trans (hbooks.bid _ _))
      fun otherLocate otherBid _ => hbooks.bid otherLocate otherBid
  · simp only [sideOrders_leave]
    refine Sides.forall_set (fun locate bid side => side.Represents (pool'.free slot)
      ((sideOrders locate bid live).filter fun entry => entry.2 ≠ slot)) ?_ ?_
    · apply hside.congr
      · intro idx hidx
        have hne : idx ≠ slot := by
          rintro rfl
          simp at hidx
        rw [OrderPool.node_free_of_ne hne]
        exact ⟨rfl, rfl⟩
      · exact Nat.le_of_eq (OrderPool.size_free _ _).symm
    · intro otherLocate otherBid hne
      have houtside : ∀ idx ∈ (sideOrders otherLocate otherBid live).map Prod.snd,
          idx ≠ slot := by
        rintro idx hidx rfl
        exact hbooks.sides_disjoint hne hidx (List.mem_map_of_mem hentry)
      rw [List.filter_eq_self.mpr]
      · apply (hbooks.linked otherLocate otherBid).congr
        · intro idx hidx
          rw [OrderPool.node_free_of_ne (houtside idx hidx),
            hpool.node idx (hbooks.sides_disjoint hne hidx)]
          exact ⟨rfl, rfl⟩
        · rw [OrderPool.size_free, hpool.size]
      · intro entry hentry'
        simpa using houtside entry.2 (List.mem_map_of_mem hentry')

/-- An arena without free slots is full of live orders. -/
theorem size_le_length (hcover : ∀ idx : UInt32, idx ∈ live.map Resting.slot ↔
      idx.toNat < pool.nodes.size) (hsize : pool.nodes.size < 2 ^ 32) :
    pool.nodes.size ≤ live.length := by
  have hsubset : List.range pool.nodes.size ⊆ (live.map Resting.slot).map UInt32.toNat := by
    intro pos hpos
    have hpos' := List.mem_range.mp hpos
    have htoNat : (UInt32.ofNat pos).toNat = pos :=
      UInt32.toNat_ofNat_of_lt' (Nat.lt_trans hpos' hsize)
    rw [List.mem_map]
    exact ⟨UInt32.ofNat pos, (hcover _).mpr (by rwa [htoNat]), htoNat⟩
  have hle := (List.subperm_of_subset List.nodup_range hsubset).length_le
  simpa using hle

/-- What the arena does for a new order, whether it reuses a slot or grows. -/
theorem allocate (hbooks : Books pool sides live) {order : Order} {idx : UInt32}
    {pool' : OrderPool} (hallocate : pool.allocate order = (idx, pool')) :
    ∃ free free', pool.Allocated order free idx pool' free' ∧
      (free' ++ (live.map Resting.slot ++ [idx])).Nodup ∧
      (∀ other : UInt32, other ∈ free' ++ (live.map Resting.slot ++ [idx]) ↔
        other.toNat < pool'.nodes.size) ∧
      pool'.nodes.size ≤ max pool.nodes.size (live.length + 1) := by
  obtain ⟨free, hfree, hnodup, hcover⟩ := hbooks.arena
  cases free with
  | nil =>
      have hgrow := OrderPool.allocate_of_grow order hfree hbooks.size
      rw [hallocate] at hgrow
      obtain ⟨rfl, hallocated⟩ := hgrow
      rcases hallocated.source with ⟨hslots, _⟩ | ⟨_, _, hidx, hsize⟩
      · cases hslots
      · change pool'.nodes.size = pool.nodes.size + 1 at hsize
        rw [List.nil_append] at hnodup
        simp only [List.nil_append] at hcover
        refine ⟨[], [], hallocated, ?_, ?_, ?_⟩
        · rw [List.nil_append, ← List.concat_eq_append, List.nodup_concat]
          refine ⟨fun hmem => ?_, hnodup⟩
          have := (hcover _).mp hmem
          omega
        · intro other
          rw [List.nil_append, List.mem_append, List.mem_singleton, hcover, hsize,
            ← UInt32.toNat_inj, hidx]
          omega
        · have := size_le_length hcover hbooks.size
          omega
  | cons first rest =>
      have hfirst : first.toNat < pool.nodes.size := (hcover first).mp (by simp)
      have hfresh : first ∉ rest := (List.nodup_cons.mp (List.nodup_append.mp hnodup).1).1
      have hreuse := OrderPool.allocate_of_free order hfree
        (ne_invalid_of_lt hbooks.size hfirst) hfresh hfirst
      rw [hallocate] at hreuse
      obtain ⟨rfl, hallocated⟩ := hreuse
      rcases hallocated.source with ⟨_, hsize⟩ | ⟨hslots, _⟩
      · change pool'.nodes.size = pool.nodes.size at hsize
        have hperm : (idx :: rest ++ live.map Resting.slot).Perm
            (rest ++ (live.map Resting.slot ++ [idx])) := by
          rw [← List.append_assoc]
          exact (List.perm_append_singleton idx (rest ++ live.map Resting.slot)).symm
        refine ⟨idx :: rest, rest, hallocated, hperm.nodup_iff.mp hnodup, ?_, ?_⟩
        · intro other
          rw [← hperm.mem_iff, hcover, hsize]
        · omega
      · cases hslots

/-- Taking a slot for a new order leaves every side as it was. -/
theorem linked_allocated (hbooks : Books pool sides live) {order : Order} {idx : UInt32}
    {pool' : OrderPool} {free free' : List UInt32}
    (hallocated : pool.Allocated order free idx pool' free')
    (hfresh : idx ∉ live.map Resting.slot) (locate : UInt16) (bid : Bool) :
    (sides locate bid).Represents pool' (sideOrders locate bid live) := by
  have hgrown : pool.nodes.size ≤ pool'.nodes.size := by
    rcases hallocated.source with ⟨_, hsame⟩ | ⟨_, _, _, hmore⟩ <;> omega
  apply (hbooks.linked locate bid).congr _ hgrown
  intro other hother
  have hne : other ≠ idx := by
    rintro rfl
    exact hfresh ((slots_sideOrders_sublist locate bid live).subset hother)
  rw [hallocated.node_of_ne other hne]
  exact ⟨rfl, rfl⟩

/-- Allocating a slot and linking it rests an order, as long as the arena keeps
within its index type. -/
theorem rest (hbooks : Books pool sides live) {order : Order} {idx : UInt32}
    {pool' pool'' : OrderPool} {side : LadderSide}
    (hallocate : pool.allocate order = (idx, pool'))
    (hadd : (sides locate order.isBuy).add pool' order.price idx = (pool'', side))
    (hsize : pool''.nodes.size < 2 ^ 32) :
    Books pool'' (sides.set locate order.isBuy side) (live ++ [{ locate, slot := idx, order }]) ∧
      idx ≠ INVALID_INDEX ∧ pool''.nodes.size ≤ max pool.nodes.size (live.length + 1) := by
  obtain ⟨free, free', hallocated, hnodup, hcover, hgrowth⟩ := hbooks.allocate hallocate
  have hsizeAdd := LadderSide.size_add (sides locate order.isBuy) pool' order.price idx
  have hbid := LadderSide.bid_add (sides locate order.isBuy) pool' order.price idx
  rw [hadd] at hsizeAdd hbid
  change pool''.nodes.size = pool'.nodes.size at hsizeAdd
  have hidx : idx.toNat < pool'.nodes.size := (hcover idx).mp (by simp)
  have hvalid := ne_invalid_of_lt (hsizeAdd ▸ hsize) hidx
  obtain ⟨_, hlive, hdisjoint⟩ := List.nodup_append.mp hnodup
  have hfresh : idx ∉ live.map Resting.slot := by
    rw [← List.concat_eq_append, List.nodup_concat] at hlive
    exact hlive.1
  have hslotNe : ∀ other ∈ live.map Resting.slot, other ≠ idx := by
    rintro other hother rfl
    exact hfresh hother
  have hallocatedSide := hbooks.linked_allocated hallocated hfresh
  obtain ⟨hpool, hside⟩ := (hallocatedSide locate order.isBuy).add
    (fun hmem => hfresh ((slots_sideOrders_sublist _ _ _).subset hmem)) hvalid hidx order.price
  rw [hadd] at hpool hside
  change pool'.Relinked pool'' _ at hpool
  change side.Represents pool'' _ at hside
  have htouched : ∀ other, other ∉ live.map Resting.slot → other ≠ idx →
      pool''.node other = pool'.node other := by
    intro other hother hne
    apply hpool.node
    rw [List.mem_cons, not_or]
    exact ⟨hne, fun hmem => hother ((slots_sideOrders_sublist _ _ _).subset hmem)⟩
  refine ⟨⟨hsize, ⟨free', ?_, ?_, ?_⟩, ?_, ?_, ?_⟩, hvalid, hsizeAdd ▸ hgrowth⟩
  · apply hallocated.freeList.congr hpool.freeHead
    intro other hother
    rw [htouched other]
    · exact fun hmem => hdisjoint other hother other (List.mem_append_left _ hmem) rfl
    · exact hdisjoint other hother idx (by simp)
  · simpa using hnodup
  · intro other
    rw [hsizeAdd, ← hcover]
    simp
  · intro resting hresting
    rw [hpool.order]
    rcases List.mem_append.mp hresting with hold | hnew
    · rw [hallocated.node_of_ne _ (hslotNe _ (List.mem_map_of_mem hold))]
      exact hbooks.stored resting hold
    · rw [List.mem_singleton.mp hnew, hallocated.node_self]
  · exact Sides.forall_set (fun _ bid side => side.bid = bid) (hbid.trans (hbooks.bid _ _))
      fun other bid _ => hbooks.bid other bid
  · simp only [sideOrders_append]
    refine Sides.forall_set (fun other bid side => side.Represents pool''
      (sideOrders other bid live ++ sideOrders other bid [{ locate, slot := idx, order }])) ?_ ?_
    · simpa [sideOrders] using hside
    · intro other bid hne
      rw [sideOrders_singleton_of_ne hne, List.append_nil]
      apply (hallocatedSide other bid).congr
      · intro idx' hidx'
        rw [hpool.node idx']
        · exact ⟨rfl, rfl⟩
        · rw [List.mem_cons, not_or]
          exact ⟨hslotNe idx' ((slots_sideOrders_sublist _ _ _).subset hidx'),
            hbooks.sides_disjoint hne hidx'⟩
      · exact Nat.le_of_eq hsizeAdd.symm

end Books

end Orderbook
