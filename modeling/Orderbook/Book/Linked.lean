/-
# The orders linked on a side

A side is described by the list of its linked orders: price and pool slot, in
order of arrival. `Represents` ties that list to everything the side stores: a
chain for every window slot, a chain for every overflow entry, the sort order of
the overflow vector and the cached best slot.

Adding appends to the list and removing takes an order out of it. Either way one
price is concerned, and `Elsewhere` says that the levels of all other prices do
not notice.
-/

import Orderbook.Book.Chain
import Orderbook.Book.Window
import Orderbook.Math.Arrivals
import Orderbook.Math.SortedVector

namespace Orderbook.LadderSide

open Orderbook.Math

/-- The prices of a window slot. -/
def inSlot (side : LadderSide) (slot price : UInt32) : Bool := side.priceToSlot price = slot

/-- The single price of an overflow entry. -/
def atPrice (price other : UInt32) : Bool := other = price

/-- The side, with its links in `pool`, holds exactly the orders `linked`. -/
structure Represents (side : LadderSide) (pool : OrderPool)
    (linked : List (UInt32 × UInt32)) : Prop where
  nodup : (linked.map Prod.snd).Nodup
  size : side.ladder.size = if side.anchored then WINDOW.toNat else 0
  unanchored : side.anchored = false → linked = []
  ladder : ∀ slot < WINDOW,
    (side.level slot).Chain pool (queueOf (side.inSlot slot) linked)
  sorted : Ascending side.overflow
  overflow : ∀ price level, (price, level) ∈ side.overflow →
    side.priceToSlot price = INVALID_INDEX ∧ queueOf (atPrice price) linked ≠ [] ∧
      level.Chain pool (queueOf (atPrice price) linked)
  covered : ∀ price idx, (price, idx) ∈ linked → side.priceToSlot price = INVALID_INDEX →
    ∃ level, (price, level) ∈ side.overflow
  best : IsBest side.bid (fun slot => queueOf (side.inSlot slot) linked ≠ []) side.bestSlot

variable {side : LadderSide} {pool pool' : OrderPool}
  {linked linked' : List (UInt32 × UInt32)} {price idx slot : UInt32}

/-- A fresh side holds no orders. -/
theorem represents_fresh (bid : Bool) (pool : OrderPool) :
    ({ bid } : LadderSide).Represents pool [] where
  nodup := List.nodup_nil
  size := rfl
  unanchored _ := rfl
  ladder slot _ := by
    have hlevel : ({ bid } : LadderSide).level slot = {} := by simp [level]
    rw [hlevel]
    exact .empty pool
  sorted := List.Pairwise.nil
  overflow := by simp
  covered := by simp
  best := Or.inl ⟨rfl, by simp⟩

/-- Anchoring an empty side leaves it empty, whatever the price. -/
theorem Represents.anchor (hrep : side.Represents pool []) (price : UInt32) :
    (side.anchor price).Represents pool [] where
  nodup := List.nodup_nil
  size := by simp [LadderSide.anchor]
  unanchored _ := rfl
  ladder slot hslot := by
    have hlt : slot.toNat < WINDOW.toNat := UInt32.lt_iff_toNat_lt.mp hslot
    have hlevel : (side.anchor price).level slot = {} := by
      simp [level, LadderSide.anchor, hlt]
    rw [hlevel]
    exact .empty pool
  sorted := hrep.sorted
  overflow price level hmem := absurd rfl (hrep.overflow price level hmem).2.1
  covered := by simp
  best := by
    rcases hrep.best with hnone | ⟨_, hocc, _⟩
    · exact Or.inl ⟨hnone.1, by simp⟩
    · exact absurd rfl hocc

/-- Only the links of the linked slots matter to a side, and only that the arena
does not shrink. -/
theorem Represents.congr (hrep : side.Represents pool linked)
    (hnode : ∀ idx ∈ linked.map Prod.snd, (pool'.node idx).next = (pool.node idx).next ∧
      (pool'.node idx).prev = (pool.node idx).prev)
    (hsize : pool.nodes.size ≤ pool'.nodes.size) : side.Represents pool' linked := by
  have hchain : ∀ (select : UInt32 → Bool) (level : Level),
      level.Chain pool (queueOf select linked) → level.Chain pool' (queueOf select linked) := by
    intro select level hlevel
    apply hlevel.congr _ hsize
    intro idx hidx
    obtain ⟨price, hmem, _⟩ := mem_queueOf.mp hidx
    exact hnode idx (List.mem_map_of_mem hmem)
  refine { hrep with ladder := fun slot hslot => ?_, overflow := fun price level hmem => ?_ }
  · exact hchain _ _ (hrep.ladder slot hslot)
  · obtain ⟨hslot, hne, hlevel⟩ := hrep.overflow price level hmem
    exact ⟨hslot, hne, hchain _ _ hlevel⟩

/-- Outside the prices selected by `here`, the queues and their chains are as
before. -/
structure Elsewhere (here : UInt32 → Bool) (pool pool' : OrderPool)
    (linked linked' : List (UInt32 × UInt32)) : Prop where
  queue : ∀ select : UInt32 → Bool, (∀ price, here price → ¬ select price) →
    queueOf select linked' = queueOf select linked
  chain : ∀ (select : UInt32 → Bool) (level : Level), (∀ price, here price → ¬ select price) →
    level.Chain pool (queueOf select linked) → level.Chain pool' (queueOf select linked')

/-- Linking a new slot at a price changes only the queues of that price. -/
theorem elsewhere_add {here : UInt32 → Bool} (hnodup : (linked.map Prod.snd).Nodup)
    (hfresh : idx ∉ linked.map Prod.snd) (hprice : here price)
    (hpool : pool.Relinked pool' (idx :: queueOf here linked)) :
    Elsewhere here pool pool' linked (linked ++ [(price, idx)]) := by
  have hqueue : ∀ select : UInt32 → Bool, (∀ price, here price → ¬ select price) →
      queueOf select (linked ++ [(price, idx)]) = queueOf select linked :=
    fun select hdisjoint => queueOf_snoc_of_not_selected (hdisjoint price hprice)
  refine ⟨hqueue, fun select level hdisjoint hlevel => ?_⟩
  rw [hqueue select hdisjoint]
  apply hlevel.relinked hpool
  intro other hother
  obtain ⟨label, hmem, _⟩ := mem_queueOf.mp hother
  rw [List.mem_cons, not_or]
  constructor
  · rintro rfl
    exact hfresh (List.mem_map_of_mem hmem)
  · apply notMem_queueOf_of_disjoint hnodup _ hother
    intro label hselect hhere
    exact hdisjoint label hhere hselect

/-- Unlinking a slot changes only the queues of its price. -/
theorem elsewhere_remove {here : UInt32 → Bool} (hnodup : (linked.map Prod.snd).Nodup)
    (hidx : idx ∈ queueOf here linked)
    (hpool : pool.Relinked pool' (queueOf here linked)) :
    Elsewhere here pool pool' linked (linked.filter fun entry => entry.2 ≠ idx) := by
  have hqueue : ∀ select : UInt32 → Bool, (∀ price, here price → ¬ select price) →
      queueOf select (linked.filter fun entry => entry.2 ≠ idx) = queueOf select linked :=
    fun select hdisjoint =>
      queueOf_leave_of_notMem (notMem_queueOf_of_disjoint hnodup hdisjoint hidx)
  refine ⟨hqueue, fun select level hdisjoint hlevel => ?_⟩
  rw [hqueue select hdisjoint]
  apply hlevel.relinked hpool
  intro other hother
  apply notMem_queueOf_of_disjoint hnodup _ hother
  intro label hselect hhere
  exact hdisjoint label hhere hselect

theorem level_setLevel (hslot : slot.toNat < side.ladder.size) (level : Level)
    (other : UInt32) :
    (side.setLevel slot level).level other = if other = slot then level else side.level other := by
  by_cases heq : other = slot
  · subst heq
    simp [LadderSide.level, setLevel, hslot, Array.getElem_modify_self]
  · have hne : slot.toNat ≠ other.toNat := fun h => heq (UInt32.toNat_inj.mp h).symm
    simp [LadderSide.level, setLevel, Array.getElem?_modify, hne, heq]

/-- No price is both in a window slot and in the overflow. -/
theorem disjoint_window_overflow (hslot : slot < WINDOW)
    (hwindow : side.priceToSlot price = INVALID_INDEX) (other : UInt32)
    (hother : side.inSlot slot other) : ¬ atPrice price other := by
  intro heq
  simp only [inSlot, atPrice, decide_eq_true_eq] at hother heq
  rw [heq, hwindow] at hother
  exact ne_invalid_of_lt_window hslot hother.symm

/-- The chains of the ladder after one of its levels was rewritten. -/
theorem Represents.chain_setLevel {level : Level} (hrep : side.Represents pool linked)
    (hanchored : side.anchored = true) (hslot : slot < WINDOW)
    (hother : Elsewhere (side.inSlot slot) pool pool' linked linked')
    (hlevel : level.Chain pool' (queueOf (side.inSlot slot) linked'))
    (other : UInt32) (hlt : other < WINDOW) :
    ((side.setLevel slot level).level other).Chain pool' (queueOf (side.inSlot other) linked') := by
  have hsize : slot.toNat < side.ladder.size := by
    rw [hrep.size, if_pos hanchored]
    exact UInt32.lt_iff_toNat_lt.mp hslot
  rw [level_setLevel hsize]
  by_cases heq : other = slot
  · rw [if_pos heq, heq]
    exact hlevel
  · rw [if_neg heq]
    apply hother.chain _ _ _ (hrep.ladder other hlt)
    intro price hhere hselect
    simp only [inSlot, decide_eq_true_eq] at hhere hselect
    exact heq (hselect.symm.trans hhere)

/-- A side after one window level and the best slot were rewritten. -/
theorem Represents.setLevel {level : Level} {best : UInt32} (hrep : side.Represents pool linked)
    (hanchored : side.anchored = true) (hslot : slot < WINDOW)
    (hnodup : (linked'.map Prod.snd).Nodup)
    (hother : Elsewhere (side.inSlot slot) pool pool' linked linked')
    (hlevel : level.Chain pool' (queueOf (side.inSlot slot) linked'))
    (hbest : IsBest side.bid (fun slot => queueOf (side.inSlot slot) linked' ≠ []) best) :
    ({ side.setLevel slot level with bestSlot := best } : LadderSide).Represents pool' linked' where
  nodup := hnodup
  size := Array.size_modify.trans hrep.size
  unanchored hnot := absurd hanchored (by simp_all [LadderSide.setLevel])
  ladder := hrep.chain_setLevel hanchored hslot hother hlevel
  sorted := hrep.sorted
  overflow price level hmem := by
    obtain ⟨hwindow, hne, hchain⟩ := hrep.overflow price level hmem
    have hdisjoint := disjoint_window_overflow hslot hwindow
    exact ⟨hwindow, hother.queue _ hdisjoint ▸ hne, hother.chain _ _ hdisjoint hchain⟩
  covered price idx hmem hwindow := by
    have hdisjoint := disjoint_window_overflow hslot hwindow
    have hidx : idx ∈ queueOf (atPrice price) linked' :=
      mem_queueOf.mpr ⟨price, hmem, by simp [atPrice]⟩
    rw [hother.queue _ hdisjoint] at hidx
    obtain ⟨label, hlabel, hselect⟩ := mem_queueOf.mp hidx
    obtain rfl : label = price := by simpa [atPrice] using hselect
    exact hrep.covered label idx hlabel hwindow
  best := hbest

/-- The overflow vector with or without an entry at the cut. -/
def around (price : UInt32) (front : List (UInt32 × Level)) (level : Option Level)
    (back : List (UInt32 × Level)) : List (UInt32 × Level) :=
  match level with
  | some level => front ++ (price, level) :: back
  | none => front ++ back

theorem mem_around {front back : List (UInt32 × Level)} {here : Option Level}
    {entry : UInt32 × Level} :
    entry ∈ around price front here back ↔
      entry ∈ front ∨ entry ∈ back ∨ ∃ level, here = some level ∧ entry = (price, level) := by
  cases here <;> simp [around]
  tauto

/-- The entry of a price in the vector around it is the one at the cut. -/
theorem mem_around_self {front back : List (UInt32 × Level)} {here : Option Level}
    {level : Level} (hcut : Cut price front back) :
    (price, level) ∈ around price front here back ↔ here = some level := by
  rw [mem_around]
  constructor
  · rintro (hmem | hmem | ⟨_, rfl, heq⟩)
    · exact absurd (hcut.below _ hmem) (UInt32.lt_irrefl price)
    · exact absurd (hcut.above _ hmem) (UInt32.lt_irrefl price)
    · cases heq
      rfl
  · intro hhere
    exact Or.inr (Or.inr ⟨level, hhere, rfl⟩)

theorem ascending_around {front back : List (UInt32 × Level)} {here here' : Option Level}
    (hsorted : Ascending (around price front here back)) (hcut : Cut price front back) :
    Ascending (around price front here' back) := by
  have hbare : Ascending (front ++ back) := by
    cases here with
    | none => exact hsorted
    | some level => exact hsorted.erase
  cases here' with
  | none => exact hbare
  | some level => exact hbare.insert level hcut

/-- What the lower-bound search says about a price. -/
theorem overflow_cut (hsorted : Ascending side.overflow) (price : UInt32) :
    ∃ front here back, side.overflow = around price front here back ∧ Cut price front back ∧
      side.overflowLowerBound price = front.length ∧
      side.overflowHit front.length price = here.isSome := by
  rcases lowerBound_cases hsorted price with
    ⟨front, level, back, hsplit, hpos⟩ | ⟨front, back, hsplit, hcut, hpos⟩
  · rw [hsplit] at hsorted
    refine ⟨front, some level, back, hsplit, hsorted.cut, hpos, ?_⟩
    simp [overflowHit, overflowAt, hsplit]
  · refine ⟨front, none, back, hsplit, hcut, hpos, ?_⟩
    cases back with
    | nil => simp [overflowHit, hsplit]
    | cons first rest =>
        have hne : first.1 ≠ price := by
          intro heq
          have hlt := hcut.above first List.mem_cons_self
          rw [heq] at hlt
          exact absurd hlt (UInt32.lt_irrefl price)
        simp [overflowHit, overflowAt, hsplit, hne]

/-- The level at the cut, empty when there is no entry, is the queue of its price. -/
theorem Represents.chain_cut {front back : List (UInt32 × Level)} {here : Option Level}
    (hrep : side.Represents pool linked) (hwindow : side.priceToSlot price = INVALID_INDEX)
    (hsplit : side.overflow = around price front here back) (hcut : Cut price front back) :
    (here.getD {}).Chain pool (queueOf (atPrice price) linked) := by
  cases here with
  | some level =>
      have hmem : (price, level) ∈ side.overflow := by
        rw [hsplit]
        exact (mem_around_self hcut).mpr rfl
      exact (hrep.overflow price level hmem).2.2
  | none =>
      have hempty : queueOf (atPrice price) linked = [] := by
        rw [queueOf_eq_nil_iff]
        intro entry hentry hprice
        obtain rfl : entry.1 = price := by simpa [atPrice] using hprice
        obtain ⟨level, hlevel⟩ := hrep.covered entry.1 entry.2 hentry hwindow
        rw [hsplit] at hlevel
        exact absurd ((mem_around_self hcut).mp hlevel) (by simp)
      rw [hempty]
      exact .empty pool

/-- A side after its overflow entry at one price was added, rewritten or erased. -/
theorem Represents.setOverflow {front back : List (UInt32 × Level)} {here here' : Option Level}
    (hrep : side.Represents pool linked) (hwindow : side.priceToSlot price = INVALID_INDEX)
    (hanchored : side.anchored = true)
    (hsplit : side.overflow = around price front here back) (hcut : Cut price front back)
    (hnodup : (linked'.map Prod.snd).Nodup)
    (hother : Elsewhere (atPrice price) pool pool' linked linked')
    (hhere : ∀ level, here' = some level → queueOf (atPrice price) linked' ≠ [] ∧
      level.Chain pool' (queueOf (atPrice price) linked'))
    (hnone : here' = none → queueOf (atPrice price) linked' = []) :
    ({ side with overflow := around price front here' back } : LadderSide).Represents
      pool' linked' := by
  have hslots : ∀ slot < WINDOW, ∀ other, atPrice price other → ¬ side.inSlot slot other :=
    fun slot hslot other hprice hin => disjoint_window_overflow hslot hwindow other hin hprice
  have hprices : ∀ other, other ≠ price → ∀ label, atPrice price label → ¬ atPrice other label := by
    intro other hne label hprice hlabel
    simp only [atPrice, decide_eq_true_eq] at hprice hlabel
    exact hne (hlabel.symm.trans hprice)
  have hsame : ∀ other level, other ≠ price →
      ((other, level) ∈ around price front here' back ↔ (other, level) ∈ side.overflow) := by
    intro other level hne
    rw [hsplit, mem_around, mem_around]
    simp [hne]
  have hsorted : Ascending (around price front here' back) :=
    ascending_around (hsplit ▸ hrep.sorted) hcut
  refine ⟨hnodup, hrep.size, fun hnot => ?_, fun slot hslot => ?_, hsorted,
    fun other level hmem => ?_, fun other idx hmem hout => ?_, ?_⟩
  · exact absurd hanchored (by simp_all)
  · exact hother.chain _ _ (hslots slot hslot) (hrep.ladder slot hslot)
  · by_cases hne : other = price
    · subst hne
      exact ⟨hwindow, hhere level ((mem_around_self hcut).mp hmem)⟩
    · have hold := (hsame other level hne).mp hmem
      obtain ⟨hout, hoccupied, hchain⟩ := hrep.overflow other level hold
      exact ⟨hout, hother.queue _ (hprices other hne) ▸ hoccupied,
        hother.chain _ _ (hprices other hne) hchain⟩
  · have hidx : idx ∈ queueOf (atPrice other) linked' :=
      mem_queueOf.mpr ⟨other, hmem, by simp [atPrice]⟩
    by_cases hne : other = price
    · subst hne
      cases here' with
      | none => simp [hnone rfl] at hidx
      | some level => exact ⟨level, (mem_around_self hcut).mpr rfl⟩
    · rw [hother.queue _ (hprices other hne)] at hidx
      obtain ⟨label, hlabel, hselect⟩ := mem_queueOf.mp hidx
      obtain rfl : label = other := by simpa [atPrice] using hselect
      obtain ⟨level, hlevel⟩ := hrep.covered label idx hlabel hout
      exact ⟨level, (hsame label level hne).mpr hlevel⟩
  · apply hrep.best.congr
    intro slot hslot
    change queueOf (side.inSlot slot) linked' ≠ [] ↔ _
    rw [hother.queue _ (hslots slot hslot)]

/-- Adding at a price of the window. -/
theorem add_of_window (hwindow : side.priceToSlot price ≠ INVALID_INDEX) (pool : OrderPool)
    (idx : UInt32) :
    side.add pool price idx =
      ((linkAtTail pool (side.level (side.priceToSlot price)) idx).1,
        { side.setLevel (side.priceToSlot price)
            (linkAtTail pool (side.level (side.priceToSlot price)) idx).2 with
          bestSlot :=
            if side.bestSlot = INVALID_INDEX ∨
              (if side.bid then side.priceToSlot price > side.bestSlot
                else side.priceToSlot price < side.bestSlot)
            then side.priceToSlot price else side.bestSlot }) := by
  unfold add
  simp only [anchored_of_priceToSlot hwindow, if_true, hwindow, ne_eq, not_false_eq_true]
  by_cases hbetter : side.bestSlot = INVALID_INDEX ∨
      (if side.bid then side.priceToSlot price > side.bestSlot
        else side.priceToSlot price < side.bestSlot)
  · exact (if_pos hbetter).trans (by rw [if_pos hbetter])
  · exact (if_neg hbetter).trans (by rw [if_neg hbetter]; rfl)

/-- Adding at an overflow price. -/
theorem add_of_cut {front back : List (UInt32 × Level)} {here : Option Level}
    (hanchored : side.anchored = true) (hwindow : side.priceToSlot price = INVALID_INDEX)
    (hsplit : side.overflow = around price front here back)
    (hpos : side.overflowLowerBound price = front.length)
    (hhit : side.overflowHit front.length price = here.isSome) (pool : OrderPool)
    (idx : UInt32) :
    side.add pool price idx =
      ((linkAtTail pool (here.getD {}) idx).1,
        { side with
          overflow := around price front (some (linkAtTail pool (here.getD {}) idx).2) back }) := by
  cases here <;>
    simp [add, hanchored, hwindow, hpos, hhit, overflowAt, LadderSide.setOverflow, hsplit, around]

/-- Adding to a side whose window is fixed. -/
theorem Represents.add_anchored (hrep : side.Represents pool linked)
    (hanchored : side.anchored = true) (hfresh : idx ∉ linked.map Prod.snd)
    (hvalid : idx ≠ INVALID_INDEX) (hidx : idx.toNat < pool.nodes.size) (price : UInt32) :
    pool.Relinked (side.add pool price idx).1 (idx :: linked.map Prod.snd) ∧
      (side.add pool price idx).2.Represents (side.add pool price idx).1
        (linked ++ [(price, idx)]) := by
  have hnodup : ((linked ++ [(price, idx)]).map Prod.snd).Nodup := by
    rw [List.map_append, List.map_singleton, ← List.concat_eq_append, List.nodup_concat]
    exact ⟨hfresh, hrep.nodup⟩
  have hnotIn : ∀ select : UInt32 → Bool, idx ∉ queueOf select linked := by
    intro select hmem
    obtain ⟨label, hlabel, _⟩ := mem_queueOf.mp hmem
    exact hfresh (List.mem_map_of_mem hlabel)
  have hsub : ∀ select : UInt32 → Bool,
      idx :: queueOf select linked ⊆ idx :: linked.map Prod.snd := fun select =>
    List.cons_subset_cons idx (List.filter_sublist.map Prod.snd).subset
  by_cases hwindow : side.priceToSlot price = INVALID_INDEX
  · obtain ⟨front, here, back, hsplit, hcut, hpos, hhit⟩ := overflow_cut hrep.sorted price
    have hhere : atPrice price price := by simp [atPrice]
    have hchain := hrep.chain_cut hwindow hsplit hcut
    have hpool := hchain.relinked_linkAtTail idx
    have hlevel := hchain.linkAtTail (hnotIn _) hvalid hidx
    rw [add_of_cut hanchored hwindow hsplit hpos hhit]
    refine ⟨hpool.mono (hsub _), ?_⟩
    apply hrep.setOverflow hwindow hanchored hsplit hcut hnodup
      (elsewhere_add hrep.nodup hfresh hhere hpool)
    · rintro level ⟨⟩
      rw [queueOf_snoc_of_selected hhere]
      exact ⟨by simp, hlevel⟩
    · simp
  · have hslot := priceToSlot_lt hwindow
    have hhere : side.inSlot (side.priceToSlot price) price := by simp [inSlot]
    have hchain := hrep.ladder _ hslot
    have hpool := hchain.relinked_linkAtTail idx
    have hlevel := hchain.linkAtTail (hnotIn _) hvalid hidx
    rw [← queueOf_snoc_of_selected hhere] at hlevel
    rw [add_of_window hwindow]
    refine ⟨hpool.mono (hsub _), ?_⟩
    have hother := elsewhere_add hrep.nodup hfresh hhere hpool
    apply hrep.setLevel hanchored hslot hnodup hother hlevel
    apply hrep.best.arrive hslot
    · rw [queueOf_snoc_of_selected hhere]
      simp
    · intro other _ hne
      rw [queueOf_snoc_of_not_selected]
      simpa [inSlot, eq_comm] using hne

/-- Adding an order that is not yet linked appends it; the first order of a side
fixes the window as well. -/
theorem Represents.add (hrep : side.Represents pool linked) (hfresh : idx ∉ linked.map Prod.snd)
    (hvalid : idx ≠ INVALID_INDEX) (hidx : idx.toNat < pool.nodes.size) (price : UInt32) :
    pool.Relinked (side.add pool price idx).1 (idx :: linked.map Prod.snd) ∧
      (side.add pool price idx).2.Represents (side.add pool price idx).1
        (linked ++ [(price, idx)]) := by
  cases hanchored : side.anchored with
  | true => exact hrep.add_anchored hanchored hfresh hvalid hidx price
  | false =>
      obtain rfl := hrep.unanchored hanchored
      have hadd : side.add pool price idx = (side.anchor price).add pool price idx := by
        simp [LadderSide.add, hanchored, LadderSide.anchor]
      rw [hadd]
      exact (hrep.anchor price).add_anchored rfl hfresh hvalid hidx price

/-- Removing at a price of the window. -/
theorem remove_of_window (hwindow : side.priceToSlot price ≠ INVALID_INDEX) {level : Level}
    (hunlink : unlink pool (side.level (side.priceToSlot price)) idx = (pool', level)) :
    side.remove pool price idx =
      (pool', { side.setLevel (side.priceToSlot price) level with
        bestSlot :=
          if level.head = INVALID_INDEX ∧ side.priceToSlot price = side.bestSlot then
            (side.setLevel (side.priceToSlot price) level).advanceBest.bestSlot
          else side.bestSlot }) := by
  unfold remove
  simp only [hwindow, ne_eq, not_false_eq_true, if_true, hunlink]
  by_cases hdrained : level.head = INVALID_INDEX ∧ side.priceToSlot price = side.bestSlot
  · rw [if_pos hdrained, ← advanceBest_eq]
    exact if_pos hdrained
  · rw [if_neg hdrained]
    exact if_neg hdrained

/-- Removing at an overflow price. -/
theorem remove_of_cut {front back : List (UInt32 × Level)} {here level : Level}
    (hwindow : side.priceToSlot price = INVALID_INDEX)
    (hsplit : side.overflow = around price front (some here) back)
    (hpos : side.overflowLowerBound price = front.length)
    (hhit : side.overflowHit front.length price = true)
    (hunlink : unlink pool here idx = (pool', level)) :
    side.remove pool price idx =
      (pool', { side with
        overflow :=
          around price front (if level.head = INVALID_INDEX then none else some level) back }) := by
  have hat : (side.overflowAt front.length).2 = here := by
    simp [overflowAt, hsplit, around]
  unfold remove
  simp only [hwindow, ne_eq, not_true_eq_false, if_false, hpos, hhit, hat, hunlink]
  by_cases hdrained : level.head = INVALID_INDEX
  · simp [hdrained, hsplit, around]
  · simp [hdrained, hsplit, around, LadderSide.setOverflow]

/-- Removing a linked order takes it out of the list. -/
theorem Represents.remove (hrep : side.Represents pool linked) (hidx : (price, idx) ∈ linked) :
    pool.Relinked (side.remove pool price idx).1 (linked.map Prod.snd) ∧
      (side.remove pool price idx).2.Represents (side.remove pool price idx).1
        (linked.filter fun entry => entry.2 ≠ idx) := by
  have hnodup : ((linked.filter fun entry => entry.2 ≠ idx).map Prod.snd).Nodup :=
    hrep.nodup.sublist (List.filter_sublist.map Prod.snd)
  have hanchored : side.anchored = true := by
    by_contra hnot
    simp [hrep.unanchored (by simpa using hnot)] at hidx
  have hsub : ∀ select : UInt32 → Bool, queueOf select linked ⊆ linked.map Prod.snd :=
    fun select => (List.filter_sublist.map Prod.snd).subset
  by_cases hwindow : side.priceToSlot price = INVALID_INDEX
  · obtain ⟨front, here, back, hsplit, hcut, hpos, hhit⟩ := overflow_cut hrep.sorted price
    have hmem : idx ∈ queueOf (atPrice price) linked :=
      mem_queueOf.mpr ⟨price, hidx, by simp [atPrice]⟩
    cases here with
    | none =>
        obtain ⟨level, hlevel⟩ := hrep.covered price idx hidx hwindow
        rw [hsplit] at hlevel
        exact absurd ((mem_around_self hcut).mp hlevel) (by simp)
    | some here =>
        obtain ⟨hpool, hchain⟩ := (hrep.chain_cut hwindow hsplit hcut).unlink hmem
        rw [Option.getD_some] at hpool hchain
        rw [← queueOf_leave] at hchain
        rcases hunlink : unlink pool here idx with ⟨pool', level'⟩
        rw [hunlink] at hpool hchain
        rw [remove_of_cut hwindow hsplit hpos hhit hunlink]
        refine ⟨hpool.mono (hsub _), ?_⟩
        apply hrep.setOverflow hwindow hanchored hsplit hcut hnodup
          (elsewhere_remove hrep.nodup hmem hpool)
        · intro level hlevel
          split at hlevel
          · cases hlevel
          · rename_i hhead
            cases hlevel
            exact ⟨fun hnil => hhead (hchain.head_eq_invalid_iff.mpr hnil), hchain⟩
        · intro hnone
          split at hnone
          · rename_i hhead
            exact hchain.head_eq_invalid_iff.mp hhead
          · cases hnone
  · have hslot := priceToSlot_lt hwindow
    have hmem : idx ∈ queueOf (side.inSlot (side.priceToSlot price)) linked :=
      mem_queueOf.mpr ⟨price, hidx, by simp [inSlot]⟩
    obtain ⟨hpool, hchain⟩ := (hrep.ladder _ hslot).unlink hmem
    rw [← queueOf_leave] at hchain
    rcases hunlink : unlink pool (side.level (side.priceToSlot price)) idx with ⟨pool', level'⟩
    rw [hunlink] at hpool hchain
    rw [remove_of_window hwindow hunlink]
    refine ⟨hpool.mono (hsub _), ?_⟩
    have hother := elsewhere_remove hrep.nodup hmem hpool
    apply hrep.setLevel hanchored hslot hnodup hother hchain
    have hsame : ∀ other < WINDOW, other ≠ side.priceToSlot price →
        (queueOf (side.inSlot other) (linked.filter fun entry => entry.2 ≠ idx) ≠ [] ↔
          queueOf (side.inSlot other) linked ≠ []) := by
      intro other _ hne
      rw [hother.queue]
      intro label hhere hselect
      simp only [inSlot, decide_eq_true_eq] at hhere hselect
      exact hne (hselect.symm.trans hhere)
    split
    · rename_i hdrained
      have hbest : (side.setLevel (side.priceToSlot price) level').bestSlot < WINDOW :=
        show side.bestSlot < WINDOW from hdrained.2 ▸ hslot
      apply isBest_advanceBest hbest
      · intro other hlt hocc
        rcases hrep.best with ⟨_, hall⟩ | ⟨_, _, hall⟩
        · exact absurd (List.ne_nil_of_mem hmem) (hall _ hslot)
        · apply hall other hlt
          by_cases heq : other = side.priceToSlot price
          · exact heq ▸ List.ne_nil_of_mem hmem
          · exact (hsame other hlt heq).mp hocc
      · intro other hlt
        have hlevel := hrep.chain_setLevel hanchored hslot hother hchain other hlt
        exact not_congr hlevel.head_eq_invalid_iff.symm
    · rename_i hkept
      apply hrep.best.leave hslot (List.ne_nil_of_mem hmem) hsame
      intro hbest hnil
      exact hkept ⟨hchain.head_eq_invalid_iff.mpr hnil, hbest⟩

/-- Linking touches the new slot and the old tail, whatever the level holds. -/
theorem relinked_linkAtTail (pool : OrderPool) (level : Level) (idx : UInt32) :
    pool.Relinked (linkAtTail pool level idx).1 [idx, level.tail] := by
  have hself : pool.Relinked (pool.modify idx fun node =>
      { node with prev := level.tail, next := INVALID_INDEX }) [idx, level.tail] :=
    pool.relinked_modify (by simp) fun _ => rfl
  unfold linkAtTail
  dsimp only
  split
  · exact hself.trans (OrderPool.relinked_modify _ (by simp) fun _ => rfl)
  · exact hself

/-- All that adding does to the arena is to link the slot at the tail of a level. -/
theorem exists_level_of_add (side : LadderSide) (pool : OrderPool) (price idx : UInt32) :
    ∃ level, (side.add pool price idx).1 = (linkAtTail pool level idx).1 := by
  have hite : ∀ (test : Prop) [Decidable test] (first second : OrderPool × LadderSide),
      (∃ level, first.1 = (linkAtTail pool level idx).1) →
      (∃ level, second.1 = (linkAtTail pool level idx).1) →
      ∃ level, (if test then first else second).1 = (linkAtTail pool level idx).1 := by
    intro test _ first second hfirst hsecond
    split <;> assumption
  unfold LadderSide.add
  apply hite
  · apply hite <;> exact ⟨_, rfl⟩
  · exact ⟨_, rfl⟩

/-- Adding never changes the size of the arena. -/
theorem size_add (side : LadderSide) (pool : OrderPool) (price idx : UInt32) :
    (side.add pool price idx).1.nodes.size = pool.nodes.size := by
  obtain ⟨level, hlevel⟩ := exists_level_of_add side pool price idx
  rw [hlevel, (relinked_linkAtTail pool level idx).size]

theorem size_unlink (pool : OrderPool) (level : Level) (idx : UInt32) :
    (unlink pool level idx).1.nodes.size = pool.nodes.size := by
  unfold unlink
  dsimp only
  split_ifs <;> simp

/-- Removing never changes the size of the arena. -/
theorem size_remove (side : LadderSide) (pool : OrderPool) (price idx : UInt32) :
    (side.remove pool price idx).1.nodes.size = pool.nodes.size := by
  unfold LadderSide.remove
  dsimp only
  split
  · split <;> exact size_unlink ..
  · split
    · rfl
    · split <;> exact size_unlink ..

theorem bid_advanceBest (side : LadderSide) : side.advanceBest.bid = side.bid := by
  rw [advanceBest_eq]

theorem bid_add (side : LadderSide) (pool : OrderPool) (price idx : UInt32) :
    (side.add pool price idx).2.bid = side.bid := by
  have hite : ∀ (test : Prop) [Decidable test] (first second : OrderPool × LadderSide),
      first.2.bid = side.bid → second.2.bid = side.bid →
      (if test then first else second).2.bid = side.bid := by
    intro test _ first second hfirst hsecond
    split <;> assumption
  have hanchor : (if side.anchored then side else side.anchor price).bid = side.bid := by
    split <;> rfl
  unfold LadderSide.add
  generalize (if side.anchored then side else side.anchor price) = anchored at hanchor ⊢
  apply hite
  · apply hite
    · exact hanchor
    · exact hanchor
  · change LadderSide.bid (if _ then _ else _) = _
    split <;> exact hanchor

theorem bid_remove (side : LadderSide) (pool : OrderPool) (price idx : UInt32) :
    (side.remove pool price idx).2.bid = side.bid := by
  unfold LadderSide.remove
  dsimp only
  split
  · split
    · exact bid_advanceBest _
    · rfl
  · split
    · rfl
    · split <;> rfl

end Orderbook.LadderSide
