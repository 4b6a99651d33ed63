/-
# The best level of a side

`bestLevel` compares the cached best slot of the window with one end of the
overflow vector. On a represented side the result is the best linked price, and
the level behind the returned pointer is the queue of that price.

The matching loops do not call `remove`: they pop the head of the best level by
hand and retire the level once it is drained. The last section shows that this
writes exactly what removing the head would write.
-/

import Orderbook.Book.Linked
import Orderbook.Book.OrderBook

namespace Orderbook.LadderSide

open Orderbook.Math

variable {side : LadderSide} {pool pool' : OrderPool}
  {linked linked' : List (UInt32 × UInt32)} {price idx slot : UInt32}

/-- On a side, `price` is at least as good as `other`. -/
def Ahead (bid : Bool) (price other : UInt32) : Prop :=
  if bid then other ≤ price else price ≤ other

instance (bid : Bool) (price other : UInt32) : Decidable (Ahead bid price other) :=
  inferInstanceAs (Decidable (if bid then other ≤ price else price ≤ other))

theorem Ahead.refl (bid : Bool) (price : UInt32) : Ahead bid price price := by
  cases bid <;> exact UInt32.le_refl price

theorem Ahead.trans {bid : Bool} {first second third : UInt32} (hfirst : Ahead bid first second)
    (hsecond : Ahead bid second third) : Ahead bid first third := by
  cases bid with
  | true => exact UInt32.le_trans hsecond hfirst
  | false => exact UInt32.le_trans hfirst hsecond

theorem Ahead.total (bid : Bool) (first second : UInt32) :
    Ahead bid first second ∨ Ahead bid second first := by
  cases bid with
  | true => exact UInt32.le_total second first
  | false => exact UInt32.le_total first second

/-- Where the level of a best price is stored. -/
def Locates (side : LadderSide) (price : UInt32) : LevelPtr → Prop
  | .ladder slot => side.priceToSlot price = slot ∧ slot < WINDOW ∧ side.bestSlot = slot
  | .overflow pos => side.priceToSlot price = INVALID_INDEX ∧
      ∃ front level back, side.overflow = around price front (some level) back ∧
        Cut price front back ∧ pos = front.length

/-- The answer of `bestLevel`, read off the linked orders. -/
structure Best (side : LadderSide) (pool : OrderPool) (linked : List (UInt32 × UInt32))
    (price : UInt32) (ptr : LevelPtr) : Prop where
  result : side.bestLevel = some (price, ptr)
  present : ∃ idx, (price, idx) ∈ linked
  ahead : ∀ other idx, (other, idx) ∈ linked → Ahead side.bid price other
  located : side.Locates price ptr
  chain : (side.deref ptr).Chain pool (queueOf (atPrice price) linked)

/-- The two ends of a nonempty vector, as the source picks them. -/
theorem exists_edge (hsorted : Ascending side.overflow) (hne : side.overflow ≠ []) :
    ∃ front price level back, side.overflow = around price front (some level) back ∧
      Cut price front back ∧
      (if side.bid then side.overflow.length - 1 else 0) = front.length ∧
      ∀ other level, (other, level) ∈ side.overflow → Ahead side.bid price other := by
  cases hbid : side.bid with
  | true =>
      rcases List.eq_nil_or_concat side.overflow with hnil | ⟨front, ⟨price, level⟩, hconcat⟩
      · exact absurd hnil hne
      · rw [List.concat_eq_append] at hconcat
        rw [hconcat] at hsorted
        have hcut : Cut price front [] := hsorted.cut
        refine ⟨front, price, level, [], hconcat, hcut, by simp [hconcat], ?_⟩
        intro other level' hmem
        rw [hconcat, List.mem_append, List.mem_singleton] at hmem
        rcases hmem with hmem | heq
        · exact UInt32.le_of_lt (hcut.below _ hmem)
        · cases heq
          exact UInt32.le_refl price
  | false =>
      cases hoverflow : side.overflow with
      | nil => exact absurd hoverflow hne
      | cons first back =>
          obtain ⟨price, level⟩ := first
          have hsorted' : Ascending ([] ++ (price, level) :: back) := hoverflow ▸ hsorted
          have hcut := hsorted'.cut
          refine ⟨[], price, level, back, rfl, hcut, rfl, ?_⟩
          intro other level' hmem
          cases hmem with
          | head => exact UInt32.le_refl price
          | tail _ hmem => exact UInt32.le_of_lt (hcut.above _ hmem)

/-- The best price of the window. -/
theorem Represents.best_window (hrep : side.Represents pool linked)
    (hbest : side.bestSlot ≠ INVALID_INDEX) :
    ∃ price, side.slotToPrice side.bestSlot = price ∧ side.priceToSlot price = side.bestSlot ∧
      side.bestSlot < WINDOW ∧ (∃ idx, (price, idx) ∈ linked) ∧
      ∀ other idx, (other, idx) ∈ linked → side.priceToSlot other ≠ INVALID_INDEX →
        Ahead side.bid price other := by
  rcases hrep.best with ⟨hnone, _⟩ | ⟨hlt, hocc, hall⟩
  · exact absurd hnone hbest
  · obtain ⟨idx, hidx⟩ := List.exists_mem_of_ne_nil _ hocc
    obtain ⟨price, hmem, hslot⟩ := mem_queueOf.mp hidx
    have hprice : side.priceToSlot price = side.bestSlot := by simpa [inSlot] using hslot
    have hwindow : side.priceToSlot price ≠ INVALID_INDEX := hprice ▸ hbest
    refine ⟨price, ?_, hprice, hlt, ⟨idx, hmem⟩, fun other idx hother hout => ?_⟩
    · rw [← hprice]
      exact slotToPrice_priceToSlot hwindow
    · have hocc' : queueOf (side.inSlot (side.priceToSlot other)) linked ≠ [] :=
        List.ne_nil_of_mem (mem_queueOf.mpr ⟨other, hother, by simp [inSlot]⟩)
      have hworse := hall _ (priceToSlot_lt hout) hocc'
      rw [← hprice] at hworse
      unfold Ahead
      cases hbid : side.bid with
      | true =>
          rw [hbid, if_pos rfl] at hworse
          exact price_le_of_slot_le hout hwindow hworse
      | false =>
          rw [hbid, if_neg Bool.false_ne_true] at hworse
          exact price_le_of_slot_le hwindow hout hworse

/-- Without a best slot no linked price is in the window. -/
theorem Represents.out_of_window (hrep : side.Represents pool linked)
    (hbest : side.bestSlot = INVALID_INDEX) (hmem : (price, idx) ∈ linked) :
    side.priceToSlot price = INVALID_INDEX := by
  by_contra hwindow
  rcases hrep.best with ⟨_, hall⟩ | ⟨hlt, _, _⟩
  · exact hall _ (priceToSlot_lt hwindow)
      (List.ne_nil_of_mem (mem_queueOf.mpr ⟨price, hmem, by simp [inSlot]⟩))
  · exact ne_invalid_of_lt_window hlt hbest

/-- The queue of a window slot is the queue of its one price. -/
theorem queueOf_inSlot (hwindow : side.priceToSlot price ≠ INVALID_INDEX) :
    queueOf (side.inSlot (side.priceToSlot price)) linked = queueOf (atPrice price) linked := by
  apply queueOf_congr
  intro entry _
  simp only [inSlot, atPrice, decide_eq_decide]
  constructor
  · exact fun hslot => (eq_of_priceToSlot_eq hwindow hslot.symm).symm
  · rintro rfl
    rfl

/-- A side without orders has no best level. -/
theorem Represents.bestLevel_of_nil (hrep : side.Represents pool []) :
    side.bestLevel = none := by
  have hbest : side.bestSlot = INVALID_INDEX := by
    rcases hrep.best with ⟨hnone, _⟩ | ⟨_, hocc, _⟩
    · exact hnone
    · exact absurd rfl hocc
  have hoverflow : side.overflow = [] := by
    rw [List.eq_nil_iff_forall_not_mem]
    rintro ⟨price, level⟩ hmem
    exact (hrep.overflow price level hmem).2.1 rfl
  simp [bestLevel, hbest, hoverflow]

/-- `bestLevel` answers with the best linked price and its queue. -/
theorem Represents.bestLevel_spec (hrep : side.Represents pool linked) (hne : linked ≠ []) :
    ∃ price ptr, side.Best pool linked price ptr := by
  have hladder : ∀ price, side.priceToSlot price = side.bestSlot → side.bestSlot < WINDOW →
      (side.deref (.ladder side.bestSlot)).Chain pool (queueOf (atPrice price) linked) := by
    intro price hprice hlt
    have hwindow : side.priceToSlot price ≠ INVALID_INDEX :=
      hprice ▸ ne_invalid_of_lt_window hlt
    rw [← queueOf_inSlot hwindow, hprice]
    exact hrep.ladder _ hlt
  by_cases hoverflow : side.overflow = []
  · have hin : ∀ price idx, (price, idx) ∈ linked → side.priceToSlot price ≠ INVALID_INDEX := by
      intro price idx hmem hout
      obtain ⟨level, hlevel⟩ := hrep.covered price idx hmem hout
      simp [hoverflow] at hlevel
    have hbest : side.bestSlot ≠ INVALID_INDEX := by
      intro hnone
      obtain ⟨⟨price, idx⟩, hmem⟩ := List.exists_mem_of_ne_nil linked hne
      exact hin price idx hmem (hrep.out_of_window hnone hmem)
    obtain ⟨price, hslotPrice, hprice, hlt, hpresent, hahead⟩ := hrep.best_window hbest
    refine ⟨price, .ladder side.bestSlot, ⟨?_, hpresent, ?_, ⟨hprice, hlt, rfl⟩,
      hladder price hprice hlt⟩⟩
    · simp [bestLevel, hoverflow, hbest, hslotPrice]
    · exact fun other idx hmem => hahead other idx hmem (hin other idx hmem)
  · obtain ⟨front, edge, level, back, hsplit, hcut, hpos, hedge⟩ :=
      exists_edge hrep.sorted hoverflow
    have hat : side.overflowAt front.length = (edge, level) := by
      simp [overflowAt, hsplit, around]
    have hedgeMem : (edge, level) ∈ side.overflow := by
      rw [hsplit]
      exact (mem_around_self hcut).mpr rfl
    obtain ⟨hedgeOut, hedgeOcc, hedgeChain⟩ := hrep.overflow edge level hedgeMem
    have hedgePresent : ∃ idx, (edge, idx) ∈ linked := by
      obtain ⟨idx, hidx⟩ := List.exists_mem_of_ne_nil _ hedgeOcc
      obtain ⟨label, hmem, hlabel⟩ := mem_queueOf.mp hidx
      obtain rfl : label = edge := by simpa [atPrice] using hlabel
      exact ⟨idx, hmem⟩
    have hedgeAhead : ∀ other idx, (other, idx) ∈ linked →
        side.priceToSlot other = INVALID_INDEX → Ahead side.bid edge other := by
      intro other idx hmem hout
      obtain ⟨level', hlevel⟩ := hrep.covered other idx hmem hout
      exact hedge other level' hlevel
    have hoverflowBest : side.bestLevel = some (edge, .overflow front.length) →
        (∀ other idx, (other, idx) ∈ linked → Ahead side.bid edge other) →
        ∃ price ptr, side.Best pool linked price ptr := by
      intro hresult hahead
      refine ⟨edge, .overflow front.length, ⟨hresult, hedgePresent, hahead,
        ⟨hedgeOut, front, level, back, hsplit, hcut, rfl⟩, ?_⟩⟩
      rw [deref, hat]
      exact hedgeChain
    by_cases hbest : side.bestSlot = INVALID_INDEX
    · apply hoverflowBest
      · simp only [bestLevel, hbest, hoverflow, and_false, if_false, if_true, hpos, hat]
      · exact fun other idx hmem =>
          hedgeAhead other idx hmem (hrep.out_of_window hbest hmem)
    · obtain ⟨price, hslotPrice, hprice, hlt, hpresent, hahead⟩ := hrep.best_window hbest
      have hresult : side.bestLevel =
          if Ahead side.bid price edge then some (price, .ladder side.bestSlot)
          else some (edge, .overflow front.length) := by
        simp only [bestLevel, hbest, hoverflow, false_and, if_false, hpos, hat, hslotPrice]
        rfl
      by_cases hwins : Ahead side.bid price edge
      · refine ⟨price, .ladder side.bestSlot, ⟨?_, hpresent, ?_, ⟨hprice, hlt, rfl⟩,
          hladder price hprice hlt⟩⟩
        · rw [hresult, if_pos hwins]
        · intro other idx hmem
          by_cases hout : side.priceToSlot other = INVALID_INDEX
          · exact hwins.trans (hedgeAhead other idx hmem hout)
          · exact hahead other idx hmem hout
      · apply hoverflowBest
        · rw [hresult, if_neg hwins]
        · intro other idx hmem
          by_cases hout : side.priceToSlot other = INVALID_INDEX
          · exact hedgeAhead other idx hmem hout
          · exact ((Ahead.total side.bid price edge).resolve_left hwins).trans
              (hahead other idx hmem hout)

/-- A side with one order has its best level at the price of that order. -/
theorem Represents.best_of_single (hrep : side.Represents pool [(price, idx)]) :
    ∃ ptr, side.Best pool [(price, idx)] price ptr ∧ (side.deref ptr).Chain pool [idx] := by
  obtain ⟨best, ptr, hbest⟩ := hrep.bestLevel_spec (List.cons_ne_nil _ _)
  obtain ⟨slot, hpresent⟩ := hbest.present
  cases List.mem_singleton.mp hpresent
  have hchain := hbest.chain
  have hqueue : queueOf (atPrice price) [(price, idx)] = [idx] := by simp [queueOf, atPrice]
  rw [hqueue] at hchain
  exact ⟨ptr, hbest, hchain⟩

/-- The only order of a side has no neighbours. -/
theorem Represents.links_of_single (hrep : side.Represents pool [(price, idx)]) :
    (pool.node idx).next = INVALID_INDEX ∧ (pool.node idx).prev = INVALID_INDEX := by
  obtain ⟨_, _, hchain⟩ := hrep.best_of_single
  obtain ⟨hprev, hnext, _⟩ := hchain.links
  exact ⟨hnext, hprev⟩

/-- The inline pop of the matching loops unlinks the head. -/
theorem popHead_eq_unlink {level : Level} {rest : List UInt32}
    (hchain : level.Chain pool (idx :: rest)) :
    popHead pool level = unlink pool level idx := by
  have hhead : level.head = idx := hchain.head
  obtain ⟨hprev, _, _⟩ := hchain.links
  have hne : INVALID_INDEX ≠ idx := (hchain.valid idx List.mem_cons_self).1.symm
  rw [Level.Chain.unlink_eq level hprev rfl hne]
  unfold popHead
  rw [hhead]
  by_cases hnext : (pool.node idx).next = INVALID_INDEX <;>
    simp [hnext, Level.Chain.joined, Level.Chain.setNext, Level.Chain.setPrev]

/-- The lower-bound search finds the entry of a price. -/
theorem search_around {front back : List (UInt32 × Level)} {level : Level}
    (hsplit : side.overflow = around price front (some level) back)
    (hcut : Cut price front back) :
    side.overflowLowerBound price = front.length ∧
      side.overflowHit front.length price = true := by
  constructor
  · change lowerBound price side.overflow = front.length
    rw [hsplit]
    apply lowerBound_eq hcut.below
    intro entry hentry
    cases hentry with
    | head => exact UInt32.lt_irrefl price
    | tail _ hentry => exact UInt32.not_lt.mpr (UInt32.le_of_lt (hcut.above entry hentry))
  · simp [overflowHit, overflowAt, hsplit, around]

/-- Retiring a drained overflow level erases its entry. -/
theorem removeEmptyBest_of_cut {front back : List (UInt32 × Level)} {level : Level}
    (hwindow : side.priceToSlot price = INVALID_INDEX)
    (hsplit : side.overflow = around price front (some level) back)
    (hcut : Cut price front back) :
    side.removeEmptyBest price = { side with overflow := around price front none back } := by
  obtain ⟨hpos, hhit⟩ := search_around hsplit hcut
  simp [removeEmptyBest, hwindow, hpos, hhit, hsplit, around]

/-- A best price has one location. -/
theorem Locates.unique {ptr ptr' : LevelPtr} (hfirst : side.Locates price ptr)
    (hsecond : side.Locates price ptr') : ptr = ptr' := by
  cases ptr with
  | ladder slot =>
      cases ptr' with
      | ladder slot' => rw [← hfirst.1, hsecond.1]
      | overflow pos =>
          exact absurd (hfirst.1.symm.trans hsecond.1) (ne_invalid_of_lt_window hfirst.2.1)
  | overflow pos =>
      cases ptr' with
      | ladder slot =>
          exact absurd (hsecond.1.symm.trans hfirst.1) (ne_invalid_of_lt_window hsecond.2.1)
      | overflow pos' =>
          obtain ⟨_, front, level, back, hsplit, hcut, hpos⟩ := hfirst
          obtain ⟨_, front', level', back', hsplit', hcut', hpos'⟩ := hsecond
          rw [hpos, hpos', ← (search_around hsplit hcut).1, ← (search_around hsplit' hcut').1]

/-- Popping the head of a best level, and retiring the level if that drained it,
is removing the head. -/
theorem pop_eq_remove {ptr : LevelPtr} {level : Level} (hlocated : side.Locates price ptr)
    (hunlink : unlink pool (side.deref ptr) idx = (pool', level)) :
    side.remove pool price idx =
      (pool', if level.head = INVALID_INDEX then
          (side.assign ptr level).removeEmptyBest price
        else side.assign ptr level) := by
  cases ptr with
  | ladder slot =>
      obtain ⟨rfl, hlt, hbest⟩ := hlocated
      have hwindow := ne_invalid_of_lt_window hlt
      rw [remove_of_window hwindow hunlink]
      by_cases hdrained : level.head = INVALID_INDEX
      · have hretire : (side.setLevel (side.priceToSlot price) level).removeEmptyBest price =
            (side.setLevel (side.priceToSlot price) level).advanceBest := by
          unfold removeEmptyBest
          exact (if_pos hwindow).trans (if_pos hbest.symm)
        rw [if_pos ⟨hdrained, hbest.symm⟩, if_pos hdrained, assign, hretire, ← advanceBest_eq]
      · rw [if_neg (fun h => hdrained h.1), if_neg hdrained, assign]
        rfl
  | overflow pos =>
      obtain ⟨hwindow, front, here, back, hsplit, hcut, rfl⟩ := hlocated
      have hat : side.deref (.overflow front.length) = here := by
        simp [deref, overflowAt, hsplit, around]
      rw [hat] at hunlink
      obtain ⟨hpos, hhit⟩ := search_around hsplit hcut
      rw [remove_of_cut hwindow hsplit hpos hhit hunlink]
      have hassign : side.assign (.overflow front.length) level =
          { side with overflow := around price front (some level) back } := by
        simp [assign, LadderSide.setOverflow, hsplit, around]
      rw [hassign]
      by_cases hdrained : level.head = INVALID_INDEX
      · have hretire : ({ side with overflow := around price front (some level) back } :
            LadderSide).removeEmptyBest price =
              { side with overflow := around price front none back } :=
          removeEmptyBest_of_cut hwindow rfl hcut
        rw [if_pos hdrained, if_pos hdrained, hretire]
      · rw [if_neg hdrained, if_neg hdrained]

/-- The head of the best level is an order at the best price. -/
theorem mem_of_queueOf_eq_cons {rest : List UInt32}
    (hqueue : queueOf (atPrice price) linked = idx :: rest) : (price, idx) ∈ linked := by
  have hmem : idx ∈ queueOf (atPrice price) linked := hqueue ▸ List.mem_cons_self
  obtain ⟨label, hlabel, hselect⟩ := mem_queueOf.mp hmem
  obtain rfl : label = price := by simpa [atPrice] using hselect
  exact hlabel

/-- Only one price is ahead of all others. -/
theorem Ahead.antisymm {bid : Bool} {first second : UInt32} (hfirst : Ahead bid first second)
    (hsecond : Ahead bid second first) : first = second := by
  cases bid with
  | true => exact UInt32.le_antisymm hsecond hfirst
  | false => exact UInt32.le_antisymm hfirst hsecond

/-- Writing the level of a best price does not move it. -/
theorem Locates.assign {ptr : LevelPtr} (hlocated : side.Locates price ptr) (level : Level) :
    (side.assign ptr level).Locates price ptr := by
  cases ptr with
  | ladder slot => exact hlocated
  | overflow pos =>
      obtain ⟨hwindow, front, here, back, hsplit, hcut, rfl⟩ := hlocated
      refine ⟨hwindow, front, level, back, ?_, hcut, rfl⟩
      simp [LadderSide.assign, LadderSide.setOverflow, hsplit, around]

/-- While a popped level is not drained it stays the best level, at the same
place. -/
theorem Best.assign {ptr : LevelPtr} {level : Level} (hrep : side.Represents pool linked)
    (hbest : side.Best pool linked price ptr) (hidx : (price, idx) ∈ linked)
    (hunlink : unlink pool (side.deref ptr) idx = (pool', level))
    (hlive : level.head ≠ INVALID_INDEX) :
    (side.assign ptr level).Best pool' (linked.filter fun entry => entry.2 ≠ idx) price ptr := by
  have hpop := pop_eq_remove hbest.located hunlink
  rw [if_neg hlive] at hpop
  have hrep' := (hrep.remove hidx).2
  rw [hpop] at hrep'
  have hmem : idx ∈ queueOf (atPrice price) linked :=
    mem_queueOf.mpr ⟨price, hidx, by simp [atPrice]⟩
  have hchain := (hbest.chain.unlink hmem).2
  rw [hunlink, ← queueOf_leave] at hchain
  obtain ⟨other, hother⟩ := List.exists_mem_of_ne_nil _
    (mt hchain.head_eq_invalid_iff.mpr hlive)
  obtain ⟨label, hlabel, hselect⟩ := mem_queueOf.mp hother
  obtain rfl : label = price := by simpa [atPrice] using hselect
  obtain ⟨price', ptr', hbest'⟩ := hrep'.bestLevel_spec (List.ne_nil_of_mem hlabel)
  have hbid : (side.assign ptr level).bid = side.bid := by cases ptr <;> rfl
  have hprice : price' = label := by
    obtain ⟨idx', hpresent⟩ := hbest'.present
    apply Ahead.antisymm (hbest'.ahead label other hlabel)
    rw [hbid]
    exact hbest.ahead price' idx' (List.mem_of_mem_filter hpresent)
  subst hprice
  obtain rfl := (hbest.located.assign level).unique hbest'.located
  exact hbest'

/-- Only the links of the linked slots matter to the best level. -/
theorem Best.congr {ptr : LevelPtr} (hbest : side.Best pool linked price ptr)
    (hnode : ∀ idx ∈ linked.map Prod.snd, (pool'.node idx).next = (pool.node idx).next ∧
      (pool'.node idx).prev = (pool.node idx).prev)
    (hsize : pool.nodes.size ≤ pool'.nodes.size) : side.Best pool' linked price ptr := by
  refine { hbest with chain := hbest.chain.congr ?_ hsize }
  intro idx hidx
  obtain ⟨label, hmem, _⟩ := mem_queueOf.mp hidx
  exact hnode idx (List.mem_map_of_mem hmem)

/-- What is written through the pointer to the best level is read back. -/
theorem Best.deref_assign {ptr : LevelPtr} (hrep : side.Represents pool linked)
    (hbest : side.Best pool linked price ptr) (level : Level) :
    (side.assign ptr level).deref ptr = level := by
  cases ptr with
  | ladder slot =>
      obtain ⟨hprice, hlt, _⟩ := hbest.located
      have hanchored := anchored_of_priceToSlot (hprice ▸ ne_invalid_of_lt_window hlt)
      have hsize : slot.toNat < side.ladder.size := by
        rw [hrep.size, if_pos hanchored]
        exact UInt32.lt_iff_toNat_lt.mp hlt
      exact (level_setLevel hsize level slot).trans (if_pos rfl)
  | overflow pos =>
      obtain ⟨_, front, here, back, hsplit, _, rfl⟩ := hbest.located
      simp [LadderSide.assign, LadderSide.setOverflow, deref, overflowAt, hsplit, around]

end Orderbook.LadderSide
