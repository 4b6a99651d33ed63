/-
# What a side holds, read from its memory

A reader of a side walks its levels: those of the window, then those of the
overflow vector. The walk meets every linked order once, and the orders at one
price in order of arrival.
-/

import Orderbook.Book.Linked

namespace Orderbook.LadderSide

open Orderbook.Math

/-- The levels of a side, in the window and outside. -/
def levels (side : LadderSide) : List Level :=
  side.ladder.toList ++ side.overflow.map Prod.snd

/-- The slots linked on a side, level by level. -/
def linkedSlots (side : LadderSide) (pool : OrderPool) : List UInt32 :=
  side.levels.flatMap (Level.slots pool)

/-- The levels, each with the prices that belong to it. -/
def labelledLevels (side : LadderSide) : List ((UInt32 → Bool) × Level) :=
  ((List.range side.ladder.size).map fun pos =>
      (side.inSlot (UInt32.ofNat pos), side.level (UInt32.ofNat pos))) ++
    side.overflow.map fun entry => (atPrice entry.1, entry.2)

variable {side : LadderSide} {pool : OrderPool} {linked : List (UInt32 × UInt32)}

theorem size_ladder_le (hrep : side.Represents pool linked) :
    side.ladder.size ≤ WINDOW.toNat := by
  rw [hrep.size]
  split
  · exact Nat.le_refl _
  · exact Nat.zero_le _

theorem toNat_ofNat_of_lt_size (hrep : side.Represents pool linked) {pos : ℕ}
    (hpos : pos < side.ladder.size) :
    (UInt32.ofNat pos).toNat = pos ∧ UInt32.ofNat pos < WINDOW := by
  have hlt : pos < WINDOW.toNat := Nat.lt_of_lt_of_le hpos (size_ladder_le hrep)
  have htoNat : (UInt32.ofNat pos).toNat = pos :=
    UInt32.toNat_ofNat_of_lt' (Nat.lt_trans hlt (UInt32.toNat_lt WINDOW))
  exact ⟨htoNat, UInt32.lt_iff_toNat_lt.mpr (htoNat.symm ▸ hlt)⟩

theorem levels_eq (hrep : side.Represents pool linked) :
    side.levels = side.labelledLevels.map Prod.snd := by
  unfold levels labelledLevels
  rw [List.map_append, List.map_map, List.map_map]
  congr 1
  apply List.ext_getElem
  · simp
  · intro pos hpos _
    have hsize : pos < side.ladder.size := by simpa using hpos
    have hlevel : side.level (UInt32.ofNat pos) = side.ladder[pos] := by
      rw [level, (toNat_ofNat_of_lt_size hrep hsize).1, Array.getElem?_eq_getElem hsize,
        Option.getD_some]
    simp only [List.getElem_map, List.getElem_range, Function.comp_apply, hlevel,
      Array.getElem_toList]

/-- Every level is the queue of its prices. -/
theorem chain_of_mem_labelledLevels (hrep : side.Represents pool linked)
    {labelled : (UInt32 → Bool) × Level} (hmem : labelled ∈ side.labelledLevels) :
    labelled.2.Chain pool (queueOf labelled.1 linked) := by
  rcases List.mem_append.mp hmem with hladder | hoverflow
  · obtain ⟨pos, hpos, rfl⟩ := List.mem_map.mp hladder
    exact hrep.ladder _ (toNat_ofNat_of_lt_size hrep (List.mem_range.mp hpos)).2
  · obtain ⟨entry, hentry, rfl⟩ := List.mem_map.mp hoverflow
    exact (hrep.overflow entry.1 entry.2 hentry).2.2

/-- No price belongs to two levels. -/
theorem separate_labels (hrep : side.Represents pool linked) :
    Separate (side.labelledLevels.map Prod.fst) := by
  unfold Separate labelledLevels
  rw [List.map_append, List.map_map, List.map_map, List.pairwise_append]
  have hslot : ∀ pos, pos < side.ladder.size → ∀ price,
      side.inSlot (UInt32.ofNat pos) price = true → side.priceToSlot price = UInt32.ofNat pos :=
    fun _ _ _ => of_decide_eq_true
  refine ⟨?_, ?_, ?_⟩
  · rw [List.pairwise_map]
    apply List.pairwise_lt_range.imp_of_mem
    intro first second hfirst hsecond hlt price hprice
    have hfirst' := (toNat_ofNat_of_lt_size hrep (List.mem_range.mp hfirst)).1
    have hsecond' := (toNat_ofNat_of_lt_size hrep (List.mem_range.mp hsecond)).1
    apply decide_eq_false
    rw [hslot first (List.mem_range.mp hfirst) price hprice]
    intro heq
    have := congrArg UInt32.toNat heq
    omega
  · rw [List.pairwise_map]
    apply hrep.sorted.imp
    intro first second hlt price hprice
    apply decide_eq_false
    have heq : price = first.1 := of_decide_eq_true hprice
    rw [heq]
    exact UInt32.ne_of_lt hlt
  · intro select hselect other hother price hprice
    obtain ⟨pos, hpos, rfl⟩ := List.mem_map.mp hselect
    obtain ⟨entry, hentry, rfl⟩ := List.mem_map.mp hother
    have hlt := (toNat_ofNat_of_lt_size hrep (List.mem_range.mp hpos)).2
    apply decide_eq_false
    rintro rfl
    have hin := hslot pos (List.mem_range.mp hpos) entry.1 hprice
    rw [(hrep.overflow entry.1 entry.2 hentry).1] at hin
    exact ne_invalid_of_lt_window hlt hin.symm

/-- Every linked order belongs to a level. -/
theorem labels_cover (hrep : side.Represents pool linked) :
    ∀ order ∈ linked, ∃ select ∈ side.labelledLevels.map Prod.fst, select order.1 = true := by
  intro order hmem
  rw [labelledLevels, List.map_append]
  by_cases hslot : side.priceToSlot order.1 = INVALID_INDEX
  · obtain ⟨level, hlevel⟩ := hrep.covered order.1 order.2 hmem hslot
    refine ⟨atPrice order.1, List.mem_append_right _ ?_, decide_eq_true rfl⟩
    simp only [List.map_map, List.mem_map, Function.comp_apply]
    exact ⟨(order.1, level), hlevel, rfl⟩
  · have hsize : side.ladder.size = WINDOW.toNat := by
      rw [hrep.size, if_pos (anchored_of_priceToSlot hslot)]
    refine ⟨side.inSlot (side.priceToSlot order.1), List.mem_append_left _ ?_, decide_eq_true rfl⟩
    simp only [List.map_map, List.mem_map, List.mem_range, Function.comp_apply]
    refine ⟨(side.priceToSlot order.1).toNat, ?_, by rw [UInt32.ofNat_toNat]⟩
    exact hsize ▸ UInt32.lt_iff_toNat_lt.mp (priceToSlot_lt hslot)

theorem linkedSlots_eq (hrep : side.Represents pool linked) :
    side.linkedSlots pool =
      (side.labelledLevels.map Prod.fst).flatMap fun select => queueOf select linked := by
  rw [linkedSlots, levels_eq hrep, List.flatMap_map, List.flatMap_map]
  apply List.flatMap_congr
  intro labelled hmem
  exact (chain_of_mem_labelledLevels hrep hmem).slots_eq

/-- A walk over the levels meets every linked order once. -/
theorem Represents.linkedSlots_perm (hrep : side.Represents pool linked) :
    (side.linkedSlots pool).Perm (linked.map Prod.snd) := by
  rw [linkedSlots_eq hrep]
  exact perm_flatMap_queueOf (separate_labels hrep) (labels_cover hrep) hrep.nodup

/-- A walk over the levels meets the orders at one price in order of arrival. -/
theorem Represents.filter_linkedSlots (hrep : side.Represents pool linked) {price : UInt32}
    {here : UInt32 → Bool} (hhere : ∀ order ∈ linked, here order.2 = decide (order.1 = price)) :
    (side.linkedSlots pool).filter here = queueOf (atPrice price) linked := by
  rw [linkedSlots_eq hrep]
  exact filter_flatMap_queueOf (separate_labels hrep) (labels_cover hrep) hhere

end Orderbook.LadderSide
