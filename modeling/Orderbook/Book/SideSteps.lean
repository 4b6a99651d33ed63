/-
# Steps of a side

Everything that is ever done to a side is one of four writes, and this module allows them
with any arguments and any arena: orders may be added twice, removed without being linked,
and the matching loop may write any level behind the pointer that `bestLevel` gave it. A side
that such steps lead to need not hold a sensible set of orders any more.

Its window is exact all the same. A slot gets a level only through a price that maps to it,
and the best slot is such a slot. In a window near the largest price the slots above that
price have no price of 32 bits, and the scan of the asks runs over them, but it never stops
at one.
-/

import Orderbook.Book.Window
import Mathlib.Logic.Relation

namespace Orderbook.LadderSide

variable {side next : LadderSide} {price slot : UInt32} {ptr : LevelPtr}

/-- One write to a side. -/
inductive Step (side : LadderSide) : LadderSide → Prop
  | add (pool : OrderPool) (price idx : UInt32) : Step side (side.add pool price idx).2
  | remove (pool : OrderPool) (price idx : UInt32) : Step side (side.remove pool price idx).2
  | write {price : UInt32} {ptr : LevelPtr} (level : Level)
      (hbest : side.bestLevel = some (price, ptr)) : Step side (side.assign ptr level)
  | removeEmptyBest (price : UInt32) : Step side (side.removeEmptyBest price)

/-- A side that steps lead to from one of the two that the constructor gives. -/
def Reachable (side : LadderSide) : Prop := ∃ bid, Relation.ReflTransGen Step { bid } side

theorem Reachable.fresh (bid : Bool) : ({ bid } : LadderSide).Reachable := ⟨bid, .refl⟩

theorem Reachable.step (hside : side.Reachable) (hstep : side.Step next) : next.Reachable := by
  obtain ⟨bid, hsteps⟩ := hside
  exact ⟨bid, hsteps.tail hstep⟩

/-- The slots whose price a call of `bestLevel` computes. -/
def pricedSlots (side : LadderSide) : List UInt32 :=
  if side.bestSlot = INVALID_INDEX ∧ side.overflow = [] then []
  else if side.overflow = [] then [side.bestSlot]
  else if side.bestSlot = INVALID_INDEX then []
  else [side.bestSlot]

/-- The only price of a slot that `bestLevel` computes is that of the best slot. -/
theorem mem_pricedSlots :
    slot ∈ side.pricedSlots ↔ slot = side.bestSlot ∧ side.bestSlot ≠ INVALID_INDEX := by
  unfold pricedSlots
  by_cases hbest : side.bestSlot = INVALID_INDEX
  · by_cases hoverflow : side.overflow = [] <;> simp [hbest, hoverflow]
  · by_cases hoverflow : side.overflow = [] <;> simp [hbest, hoverflow]

/-- A level of the window that `bestLevel` returns is the best one. -/
theorem bestSlot_of_bestLevel (hbest : side.bestLevel = some (price, .ladder slot)) :
    slot = side.bestSlot ∧ side.bestSlot ≠ INVALID_INDEX := by
  unfold bestLevel at hbest
  dsimp only at hbest
  by_cases hslot : side.bestSlot = INVALID_INDEX
  · by_cases hoverflow : side.overflow = [] <;> simp [hslot, hoverflow] at hbest
  · refine ⟨?_, hslot⟩
    rw [if_neg fun h => hslot h.1] at hbest
    split at hbest
    · cases hbest
      rfl
    · rcases ite_eq_iff.mp hbest with ⟨_, hladder⟩ | ⟨_, hedge⟩
      · cases hladder
        rfl
      · cases hedge

/-- Writing a level does not change which level is the best one. -/
theorem bestLevel_assign (side : LadderSide) (ptr : LevelPtr) (level : Level) :
    (side.assign ptr level).bestLevel = side.bestLevel := by
  cases ptr with
  | ladder slot => rfl
  | overflow pos =>
      have hlength : (side.setOverflow pos level).overflow.length = side.overflow.length :=
        List.length_modify ..
      have hnil : (side.setOverflow pos level).overflow = [] ↔ side.overflow = [] := by
        rw [← List.length_eq_zero_iff, hlength, List.length_eq_zero_iff]
      have hprice : ∀ other, ((side.setOverflow pos level).overflowAt other).1 =
          (side.overflowAt other).1 := by
        intro other
        unfold overflowAt setOverflow
        rw [List.getD_eq_getElem?_getD, List.getD_eq_getElem?_getD, List.getElem?_modify]
        cases side.overflow[other]? with
        | none => rfl
        | some entry =>
            simp only [Option.getD_some]
            split <;> rfl
      change (side.setOverflow pos level).bestLevel = _
      unfold bestLevel
      dsimp only
      simp only [hnil, hprice, hlength]
      rfl

/-- A slot that stands for a price. -/
def Mapped (side : LadderSide) (slot : UInt32) : Prop :=
  slot ≠ INVALID_INDEX ∧ ∃ price, side.priceToSlot price = slot

theorem mapped_priceToSlot (hwindow : side.priceToSlot price ≠ INVALID_INDEX) :
    side.Mapped (side.priceToSlot price) :=
  ⟨hwindow, price, rfl⟩

/-- The price of the slot, as the code computes it, did not wrap around. -/
def PricesExactly (side : LadderSide) (slot : UInt32) : Prop :=
  (side.slotToPrice slot).toNat = side.base.toNat + slot.toNat * TICK.toNat

namespace Mapped

theorem anchored (hmapped : side.Mapped slot) : side.anchored = true := by
  obtain ⟨hvalid, price, rfl⟩ := hmapped
  exact anchored_of_priceToSlot hvalid

theorem lt (hmapped : side.Mapped slot) : slot < WINDOW := by
  obtain ⟨hvalid, price, rfl⟩ := hmapped
  exact priceToSlot_lt hvalid

theorem pricesExactly (hmapped : side.Mapped slot) : side.PricesExactly slot := by
  obtain ⟨hvalid, price, rfl⟩ := hmapped
  have hprice := (priceToSlot_spec hvalid).2
  have htick : TICK.toNat = 100 := rfl
  rw [PricesExactly, slotToPrice_priceToSlot hvalid, htick]
  omega

end Mapped

/-- Every slot with orders, and the best slot, stand for prices. -/
structure Windowed (side : LadderSide) : Prop where
  populated : ∀ slot, (side.level slot).head ≠ INVALID_INDEX → side.Mapped slot
  best : side.bestSlot ≠ INVALID_INDEX → side.Mapped side.bestSlot

namespace Windowed

theorem fresh (bid : Bool) : ({ bid } : LadderSide).Windowed where
  populated slot hhead := by
    have hlevel : ({ bid } : LadderSide).level slot = {} := by simp [level]
    rw [hlevel] at hhead
    exact absurd rfl hhead
  best hbest := absurd rfl hbest

/-- The vector of the other prices does not matter. -/
theorem withOverflow (hside : side.Windowed) (overflow : List (UInt32 × Level)) :
    Windowed { side with overflow } :=
  ⟨hside.populated, hside.best⟩

theorem withBestSlot (hside : side.Windowed) (hslot : side.Mapped slot) :
    Windowed { side with bestSlot := slot } :=
  ⟨hside.populated, fun _ => hslot⟩

theorem setLevel (hside : side.Windowed) (hslot : side.Mapped slot) (level : Level) :
    (side.setLevel slot level).Windowed := by
  refine ⟨fun other hhead => ?_, hside.best⟩
  by_cases heq : other = slot
  · rw [heq]
    exact hslot
  · have hne : slot.toNat ≠ other.toNat := fun h => heq (UInt32.toNat_inj.mp h).symm
    have hsame : (side.setLevel slot level).level other = side.level other := by
      unfold LadderSide.setLevel LadderSide.level
      rw [Array.getElem?_modify, if_neg hne]
    rw [hsame] at hhead
    exact hside.populated other hhead

/-- A window is only anchored while no slot stands for a price. -/
theorem anchor (hside : side.Windowed) (hanchored : side.anchored = false) (price : UInt32) :
    (side.anchor price).Windowed := by
  constructor
  · intro slot hhead
    have hlevel : (side.anchor price).level slot = {} := by
      rw [LadderSide.level, LadderSide.anchor, Array.getElem?_replicate]
      split <;> rfl
    rw [hlevel] at hhead
    exact absurd rfl hhead
  · intro hbest
    rw [(hside.best hbest).anchored] at hanchored
    cases hanchored

/-- The scans stop at slots with orders only. -/
theorem advanceBest (hside : side.Windowed) : side.advanceBest.Windowed := by
  refine ⟨fun slot hhead => ?_, fun hbest => ?_⟩
  · rw [advanceBest_eq] at hhead ⊢
    exact hside.populated slot hhead
  · have hold : side.bestSlot ≠ INVALID_INDEX := by
      intro hnone
      rw [LadderSide.advanceBest, if_pos hnone] at hbest
      exact hbest hnone
    have hstart : side.bestSlot.toNat < 2048 :=
      UInt32.lt_iff_toNat_lt.mp (hside.best hold).lt
    have hhead : (side.level side.advanceBest.bestSlot).head ≠ INVALID_INDEX := by
      rw [LadderSide.advanceBest, if_neg hold] at hbest ⊢
      dsimp only at hbest ⊢
      split
      · rename_i hbid
        rw [if_pos hbid] at hbest
        rcases side.scanDown_spec _ hstart with ⟨hnone, _⟩ | ⟨_, hfound, _⟩
        · exact absurd hnone hbest
        · exact hfound
      · rename_i hbid
        rw [if_neg hbid] at hbest
        rcases side.scanUp_spec _ hstart with ⟨hnone, _⟩ | ⟨_, hfound, _⟩
        · exact absurd hnone hbest
        · exact hfound
    have hmapped := hside.populated _ hhead
    rw [advanceBest_eq]
    exact hmapped

theorem add (hside : side.Windowed) (pool : OrderPool) (price idx : UInt32) :
    (side.add pool price idx).2.Windowed := by
  have hanchored : (if side.anchored then side else side.anchor price).Windowed := by
    split
    · exact hside
    · rename_i hnot
      exact hside.anchor (Bool.eq_false_iff.mpr hnot) price
  unfold LadderSide.add
  dsimp only
  generalize (if side.anchored then side else side.anchor price) = anchored at hanchored ⊢
  split
  · rename_i hwindow
    have hslot := mapped_priceToSlot hwindow
    have hset := hanchored.setLevel hslot
      (linkAtTail pool (anchored.level (anchored.priceToSlot price)) idx).2
    split_ifs
    · exact hset.withBestSlot hslot
    · exact hset
    · exact hset.withBestSlot hslot
    · exact hset
  · split
    · exact hanchored.withOverflow _
    · exact hanchored.withOverflow _

theorem remove (hside : side.Windowed) (pool : OrderPool) (price idx : UInt32) :
    (side.remove pool price idx).2.Windowed := by
  unfold LadderSide.remove
  dsimp only
  split
  · rename_i hwindow
    have hset := hside.setLevel (mapped_priceToSlot hwindow)
      (unlink pool (side.level (side.priceToSlot price)) idx).2
    split
    · exact hset.advanceBest
    · exact hset
  · split
    · exact hside
    · split
      · exact hside.withOverflow _
      · exact hside.withOverflow _

theorem removeEmptyBest (hside : side.Windowed) (price : UInt32) :
    (side.removeEmptyBest price).Windowed := by
  unfold LadderSide.removeEmptyBest
  dsimp only
  split
  · split
    · exact hside.advanceBest
    · exact hside
  · split
    · exact hside.withOverflow _
    · exact hside

/-- A write behind the pointer of `bestLevel`. -/
theorem assign (hside : side.Windowed) (hbest : side.bestLevel = some (price, ptr))
    (level : Level) : (side.assign ptr level).Windowed := by
  cases ptr with
  | ladder slot =>
      obtain ⟨rfl, hvalid⟩ := bestSlot_of_bestLevel hbest
      exact hside.setLevel (hside.best hvalid) level
  | overflow pos => exact hside.withOverflow _

theorem step (hside : side.Windowed) (hstep : side.Step next) : next.Windowed := by
  cases hstep with
  | add pool price idx => exact hside.add pool price idx
  | remove pool price idx => exact hside.remove pool price idx
  | write level hbest => exact hside.assign hbest level
  | removeEmptyBest price => exact hside.removeEmptyBest price

end Windowed

/-- In every reachable side the best slot and the slots with orders stand for prices. -/
theorem Reachable.windowed (hside : side.Reachable) : side.Windowed := by
  obtain ⟨bid, hsteps⟩ := hside
  induction hsteps with
  | refl => exact .fresh bid
  | tail _ hstep ih => exact ih.step hstep

/-- The slots whose price `bestLevel` computes in a reachable side stand for prices. -/
theorem Reachable.mapped_of_mem_pricedSlots (hside : side.Reachable)
    (hslot : slot ∈ side.pricedSlots) : side.Mapped slot := by
  obtain ⟨rfl, hvalid⟩ := mem_pricedSlots.mp hslot
  exact hside.windowed.best hvalid

end Orderbook.LadderSide
