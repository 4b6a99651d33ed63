/-
# The window of a ladder side

A price inside the window stands in one slot, and the slot gives the price back.
The 32-bit product in `slotToPrice` may wrap for slots above the largest price,
but never for a slot that a price maps to.

The cached best slot is the extreme occupied slot on the better side, or the null
index when no slot is occupied. The repair scans start at the old best slot and
move towards worse prices, so they only have to look where an occupied slot can
still be.
-/

import Orderbook.Book.LadderSide

namespace Orderbook.LadderSide

variable {side : LadderSide} {price other slot : UInt32}

/-- The 64-bit distance of a price from the base of the window. -/
theorem toNat_offset {base price : UInt32} (hbase : ¬ price < base) :
    (price.toUInt64 - base.toUInt64).toNat = price.toNat - base.toNat := by
  rw [UInt32.lt_iff_toNat_lt] at hbase
  rw [UInt64.toNat_sub_of_le, UInt32.toNat_toUInt64, UInt32.toNat_toUInt64]
  rw [UInt64.le_iff_toNat_le, UInt32.toNat_toUInt64, UInt32.toNat_toUInt64]
  omega

/-- The slot of a price in natural numbers: the price is on the grid of the base and less than
a window above it. -/
theorem priceToSlot_eq (side : LadderSide) (price : UInt32) :
    side.priceToSlot price =
      if side.anchored = true ∧ side.base.toNat ≤ price.toNat ∧
          (price.toNat - side.base.toNat) % 100 = 0 ∧
          (price.toNat - side.base.toNat) / 100 < 2048 then
        UInt32.ofNat ((price.toNat - side.base.toNat) / 100)
      else INVALID_INDEX := by
  unfold priceToSlot
  by_cases hbase : (!side.anchored || decide (price < side.base)) = true
  · rw [if_pos hbase, if_neg]
    rintro ⟨hanchored, hle, _⟩
    simp only [hanchored, Bool.not_true, Bool.false_or, decide_eq_true_eq,
      UInt32.lt_iff_toNat_lt] at hbase
    omega
  · rw [if_neg hbase]
    simp only [Bool.or_eq_true, Bool.not_eq_true', decide_eq_true_eq, not_or,
      Bool.not_eq_false] at hbase
    obtain ⟨hanchored, hless⟩ := hbase
    have hoffset := toNat_offset hless
    rw [UInt32.lt_iff_toNat_lt, Nat.not_lt] at hless
    dsimp only
    generalize price.toUInt64 - side.base.toUInt64 = offset at hoffset ⊢
    rw [← hoffset]
    have hgrid : offset % TICK.toUInt64 ≠ 0 ↔ ¬ offset.toNat % 100 = 0 := by
      rw [ne_eq, ← UInt64.toNat_inj, UInt64.toNat_mod]
      rfl
    have hwindow : offset / TICK.toUInt64 ≥ WINDOW.toUInt64 ↔ ¬ offset.toNat / 100 < 2048 := by
      rw [ge_iff_le, UInt64.le_iff_toNat_le, UInt64.toNat_div, Nat.not_lt]
      rfl
    by_cases hmod : offset.toNat % 100 = 0
    · by_cases hdiv : offset.toNat / 100 < 2048
      · rw [if_neg (fun h => hgrid.mp h hmod), if_neg (fun h => hwindow.mp h hdiv),
          if_pos ⟨hanchored, hless, hmod, hdiv⟩]
        apply UInt32.toNat_inj.mp
        rw [UInt64.toNat_toUInt32, UInt64.toNat_div, UInt32.toNat_ofNat']
        rfl
      · rw [if_neg (fun h => hgrid.mp h hmod), if_pos (hwindow.mpr hdiv),
          if_neg fun h => hdiv h.2.2.2]
    · rw [if_pos (hgrid.mpr hmod), if_neg fun h => hmod h.2.2.1]

/-- The prices of the window. -/
theorem priceToSlot_ne_invalid_iff :
    side.priceToSlot price ≠ INVALID_INDEX ↔
      side.anchored = true ∧ side.base.toNat ≤ price.toNat ∧
        (price.toNat - side.base.toNat) % 100 = 0 ∧
        (price.toNat - side.base.toNat) / 100 < 2048 := by
  rw [priceToSlot_eq]
  split
  · rename_i hwindow
    refine iff_of_true (fun hinvalid => ?_) hwindow
    have htoNat := congrArg UInt32.toNat hinvalid
    rw [UInt32.toNat_ofNat_of_lt' (by have := hwindow.2.2.2; change _ < 2 ^ 32; omega)] at htoNat
    have hinvalidNat : INVALID_INDEX.toNat = 2 ^ 32 - 1 := rfl
    omega
  · rename_i hwindow
    exact iff_of_false (fun h => h rfl) hwindow

/-- Where a price stands when it stands in the window. -/
theorem priceToSlot_spec (hwindow : side.priceToSlot price ≠ INVALID_INDEX) :
    (side.priceToSlot price).toNat < 2048 ∧
      price.toNat = side.base.toNat + 100 * (side.priceToSlot price).toNat := by
  have hinside := priceToSlot_ne_invalid_iff.mp hwindow
  rw [priceToSlot_eq, if_pos hinside]
  obtain ⟨_, hbase, hgrid, hslot⟩ := hinside
  rw [UInt32.toNat_ofNat_of_lt' (by change _ < 2 ^ 32; omega)]
  omega

/-- Only an anchored side has prices in its window. -/
theorem anchored_of_priceToSlot (hwindow : side.priceToSlot price ≠ INVALID_INDEX) :
    side.anchored = true := by
  by_contra hanchored
  apply hwindow
  simp [priceToSlot, hanchored]

theorem priceToSlot_lt (hwindow : side.priceToSlot price ≠ INVALID_INDEX) :
    side.priceToSlot price < WINDOW :=
  UInt32.lt_iff_toNat_lt.mpr (priceToSlot_spec hwindow).1

/-- A slot gives back the price that maps to it. -/
theorem slotToPrice_priceToSlot (hwindow : side.priceToSlot price ≠ INVALID_INDEX) :
    side.slotToPrice (side.priceToSlot price) = price := by
  obtain ⟨hlt, hprice⟩ := priceToSlot_spec hwindow
  have hbound := price.toNat_lt
  apply UInt32.toNat_inj.mp
  simp only [slotToPrice, UInt32.toNat_add, UInt32.toNat_mul]
  change (side.base.toNat + (side.priceToSlot price).toNat * 100 % 2 ^ 32) % 2 ^ 32 = price.toNat
  omega

/-- Different prices of the window stand in different slots. -/
theorem eq_of_priceToSlot_eq (hwindow : side.priceToSlot price ≠ INVALID_INDEX)
    (hslot : side.priceToSlot price = side.priceToSlot other) : price = other := by
  have hother : side.priceToSlot other ≠ INVALID_INDEX := hslot ▸ hwindow
  rw [← slotToPrice_priceToSlot hwindow, hslot, slotToPrice_priceToSlot hother]

/-- Prices of the window are ordered as their slots. -/
theorem price_le_of_slot_le (hwindow : side.priceToSlot price ≠ INVALID_INDEX)
    (hother : side.priceToSlot other ≠ INVALID_INDEX)
    (hle : side.priceToSlot price ≤ side.priceToSlot other) : price ≤ other := by
  have hprice := (priceToSlot_spec hwindow).2
  have hotherPrice := (priceToSlot_spec hother).2
  rw [UInt32.le_iff_toNat_le] at hle ⊢
  omega

/-- A higher price of the window stands in a higher slot. -/
theorem priceToSlot_lt_priceToSlot (hwindow : side.priceToSlot price ≠ INVALID_INDEX)
    (hother : side.priceToSlot other ≠ INVALID_INDEX) (hless : price < other) :
    side.priceToSlot price < side.priceToSlot other := by
  have hprice := (priceToSlot_spec hwindow).2
  have hotherPrice := (priceToSlot_spec hother).2
  rw [UInt32.lt_iff_toNat_lt] at hless ⊢
  omega

/-- The null index is no slot of the window. -/
theorem ne_invalid_of_lt_window (hslot : slot < WINDOW) : slot ≠ INVALID_INDEX := by
  rintro rfl
  exact absurd hslot (by decide)

/-- The base of a fresh window: half a window below the price, not below zero, and on the
grid. -/
theorem toNat_base_anchor (side : LadderSide) (price : UInt32) :
    (side.anchor price).base.toNat = (price.toNat - 102400) / 100 * 100 := by
  have hprice := price.toNat_lt
  have hclamped : (if price.toUInt64 > (WINDOW / 2).toUInt64 * TICK.toUInt64 then
      (price - ((WINDOW / 2).toUInt64 * TICK.toUInt64).toUInt32).toUInt64 else 0).toNat =
        price.toNat - 102400 := by
    have hhalf : ((WINDOW / 2).toUInt64 * TICK.toUInt64).toNat = 102400 := by decide
    have hhalf32 : ((WINDOW / 2).toUInt64 * TICK.toUInt64).toUInt32.toNat = 102400 := by decide
    split
    · rename_i habove
      rw [gt_iff_lt, UInt64.lt_iff_toNat_lt, hhalf, UInt32.toNat_toUInt64] at habove
      rw [UInt32.toNat_toUInt64, UInt32.toNat_sub_of_le, hhalf32]
      rw [UInt32.le_iff_toNat_le, hhalf32]
      exact Nat.le_of_lt habove
    · rename_i hbelow
      rw [gt_iff_lt, UInt64.lt_iff_toNat_lt, hhalf, UInt32.toNat_toUInt64] at hbelow
      exact (Nat.sub_eq_zero_of_le (Nat.not_lt.mp hbelow)).symm
  unfold anchor
  dsimp only
  generalize (if price.toUInt64 > (WINDOW / 2).toUInt64 * TICK.toUInt64 then
    (price - ((WINDOW / 2).toUInt64 * TICK.toUInt64).toUInt32).toUInt64 else 0) = candidate
    at hclamped ⊢
  have hsnapped : (candidate % TICK.toUInt64).toNat = candidate.toNat % 100 := UInt64.toNat_mod ..
  rw [UInt64.toNat_toUInt32, UInt64.toNat_sub_of_le, hsnapped, hclamped]
  · omega
  · rw [UInt64.le_iff_toNat_le, hsnapped]
    exact Nat.mod_le _ _

/-- The prices of a fresh window: those on the grid from the base on, computed without
wrapping around. -/
theorem priceToSlot_anchor_ne_invalid_iff (side : LadderSide) (anchorPrice price : UInt32) :
    (side.anchor anchorPrice).priceToSlot price ≠ INVALID_INDEX ↔
      TICK.toNat ∣ price.toNat ∧ (side.anchor anchorPrice).base.toNat ≤ price.toNat ∧
        price.toNat < (side.anchor anchorPrice).base.toNat + WINDOW.toNat * TICK.toNat := by
  have hanchored : (side.anchor anchorPrice).anchored = true := rfl
  have htick : TICK.toNat = 100 := rfl
  have hwindow : WINDOW.toNat = 2048 := rfl
  rw [priceToSlot_ne_invalid_iff, toNat_base_anchor, htick, hwindow, Nat.dvd_iff_mod_eq_zero]
  simp only [hanchored, true_and]
  omega

/-- The price at which a window is anchored stands in it, unless it is off the grid. -/
theorem priceToSlot_anchor_self (side : LadderSide) {price : UInt32}
    (hgrid : TICK.toNat ∣ price.toNat) :
    (side.anchor price).priceToSlot price ≠ INVALID_INDEX := by
  have htick : TICK.toNat = 100 := rfl
  have hwindow : WINDOW.toNat = 2048 := rfl
  rw [priceToSlot_anchor_ne_invalid_iff, toNat_base_anchor]
  rw [htick] at hgrid ⊢
  omega

/-- The slot is the best occupied one of its window, or the null index when none
is occupied. -/
def IsBest (bid : Bool) (occupied : UInt32 → Prop) (best : UInt32) : Prop :=
  (best = INVALID_INDEX ∧ ∀ slot < WINDOW, ¬ occupied slot) ∨
  (best < WINDOW ∧ occupied best ∧
    ∀ slot < WINDOW, occupied slot → if bid then slot ≤ best else best ≤ slot)

/-- Only the occupied slots of the window matter. -/
theorem IsBest.congr {bid : Bool} {occupied occupied' : UInt32 → Prop} {best : UInt32}
    (hbest : IsBest bid occupied best)
    (hsame : ∀ slot < WINDOW, (occupied' slot ↔ occupied slot)) :
    IsBest bid occupied' best := by
  rcases hbest with ⟨hnone, hall⟩ | ⟨hlt, hocc, hall⟩
  · exact Or.inl ⟨hnone, fun slot hslot hocc => hall slot hslot ((hsame slot hslot).mp hocc)⟩
  · exact Or.inr ⟨hlt, (hsame best hlt).mpr hocc,
      fun slot hslot hocc' => hall slot hslot ((hsame slot hslot).mp hocc')⟩

/-- The best slot after an order arrived in `slot`. -/
theorem IsBest.arrive {bid : Bool} {occupied occupied' : UInt32 → Prop} {best : UInt32}
    (hbest : IsBest bid occupied best) (hslot : slot < WINDOW) (hhere : occupied' slot)
    (hsame : ∀ other < WINDOW, other ≠ slot → (occupied' other ↔ occupied other)) :
    IsBest bid occupied'
      (if best = INVALID_INDEX ∨ (if bid then slot > best else slot < best) then slot
        else best) := by
  rcases hbest with ⟨hnone, hall⟩ | ⟨hlt, hocc, hall⟩
  · rw [if_pos (Or.inl hnone)]
    refine Or.inr ⟨hslot, hhere, fun other hother hocc => ?_⟩
    have heq : other = slot := by
      by_contra hne
      exact hall other hother ((hsame other hother hne).mp hocc)
    cases bid <;> simp [heq]
  · have hold : occupied' best := by
      by_cases heq : best = slot
      · exact heq ▸ hhere
      · exact (hsame best hlt heq).mpr hocc
    by_cases hbetter : if bid then slot > best else slot < best
    · rw [if_pos (Or.inr hbetter)]
      refine Or.inr ⟨hslot, hhere, fun other hother hocc' => ?_⟩
      by_cases heq : other = slot
      · cases bid <;> simp [heq]
      · have hworse := hall other hother ((hsame other hother heq).mp hocc')
        cases bid with
        | true => exact UInt32.le_trans hworse (UInt32.le_of_lt hbetter)
        | false => exact UInt32.le_trans (UInt32.le_of_lt hbetter) hworse
    · rw [if_neg (by simp [ne_invalid_of_lt_window hlt, hbetter])]
      refine Or.inr ⟨hlt, hold, fun other hother hocc' => ?_⟩
      by_cases heq : other = slot
      · subst heq
        cases bid with
        | true => exact UInt32.not_lt.mp hbetter
        | false => exact UInt32.not_lt.mp hbetter
      · exact hall other hother ((hsame other hother heq).mp hocc')

/-- The best slot stays best while its level is not drained. -/
theorem IsBest.leave {bid : Bool} {occupied occupied' : UInt32 → Prop} {best : UInt32}
    (hbest : IsBest bid occupied best) (hslot : slot < WINDOW) (hhere : occupied slot)
    (hsame : ∀ other < WINDOW, other ≠ slot → (occupied' other ↔ occupied other))
    (hkept : slot = best → occupied' slot) : IsBest bid occupied' best := by
  rcases hbest with ⟨_, hall⟩ | ⟨hlt, hocc, hall⟩
  · exact absurd hhere (hall slot hslot)
  · refine Or.inr ⟨hlt, ?_, fun other hother hocc' => hall other hother ?_⟩
    · by_cases heq : slot = best
      · exact heq ▸ hkept heq
      · exact (hsame best hlt (Ne.symm heq)).mpr hocc
    · by_cases heq : other = slot
      · exact heq ▸ hhere
      · exact (hsame other hother heq).mp hocc'

theorem eq_ofNat_of_toNat_eq {pos : ℕ} (hpos : slot.toNat = pos) : slot = UInt32.ofNat pos := by
  rw [← hpos, UInt32.ofNat_toNat]

/-- The downward scan finds the highest populated slot not above its start. -/
theorem scanDown_spec (side : LadderSide) (start : ℕ) (hstart : start < 2048) :
    (side.scanDown start = INVALID_INDEX ∧
      ∀ slot : UInt32, slot.toNat ≤ start → (side.level slot).head = INVALID_INDEX) ∨
    ((side.scanDown start).toNat ≤ start ∧
      (side.level (side.scanDown start)).head ≠ INVALID_INDEX ∧
      ∀ slot : UInt32, slot.toNat ≤ start → (side.level slot).head ≠ INVALID_INDEX →
        slot ≤ side.scanDown start) := by
  induction start with
  | zero =>
      by_cases hempty : (side.level 0).head = INVALID_INDEX
      · refine Or.inl ⟨by simp [scanDown, hempty], fun slot hslot => ?_⟩
        rw [eq_ofNat_of_toNat_eq (Nat.le_zero.mp hslot)]
        exact hempty
      · rw [scanDown, if_neg hempty]
        refine Or.inr ⟨Nat.le_refl 0, hempty, fun slot hslot _ => ?_⟩
        exact UInt32.le_iff_toNat_le.mpr hslot
  | succ start ih =>
      have hpos : (UInt32.ofNat (start + 1)).toNat = start + 1 :=
        UInt32.toNat_ofNat_of_lt' (by change start + 1 < 2 ^ 32; omega)
      rw [scanDown]
      by_cases hempty : (side.level (UInt32.ofNat (start + 1))).head = INVALID_INDEX
      · rw [if_pos hempty]
        have hbelow : ∀ slot : UInt32, slot.toNat ≤ start + 1 →
            (side.level slot).head ≠ INVALID_INDEX → slot.toNat ≤ start := by
          intro slot hslot hhead
          by_contra hnot
          exact hhead (eq_ofNat_of_toNat_eq (show slot.toNat = start + 1 by omega) ▸ hempty)
        rcases ih (by omega) with ⟨hnone, hall⟩ | ⟨hle, hhead, hall⟩
        · refine Or.inl ⟨hnone, fun slot hslot => ?_⟩
          by_contra hhead
          exact hhead (hall slot (hbelow slot hslot hhead))
        · refine Or.inr ⟨by omega, hhead, fun slot hslot hslotHead => ?_⟩
          exact hall slot (hbelow slot hslot hslotHead) hslotHead
      · rw [if_neg hempty]
        refine Or.inr ⟨Nat.le_of_eq hpos, hempty, fun slot hslot _ => ?_⟩
        rw [UInt32.le_iff_toNat_le, hpos]
        exact hslot

/-- The upward scan finds the lowest populated slot not below its start. -/
theorem scanUp_spec (side : LadderSide) (start : ℕ) (hstart : start < 2048) :
    (side.scanUp start = INVALID_INDEX ∧
      ∀ slot < WINDOW, start ≤ slot.toNat → (side.level slot).head = INVALID_INDEX) ∨
    (side.scanUp start < WINDOW ∧
      (side.level (side.scanUp start)).head ≠ INVALID_INDEX ∧
      ∀ slot < WINDOW, start ≤ slot.toNat → (side.level slot).head ≠ INVALID_INDEX →
        side.scanUp start ≤ slot) := by
  induction hleft : 2048 - start generalizing start with
  | zero => omega
  | succ left ih =>
      have hpos : (UInt32.ofNat start).toNat = start :=
        UInt32.toNat_ofNat_of_lt' (by change start < 2 ^ 32; omega)
      rw [scanUp]
      by_cases hempty : (side.level (UInt32.ofNat start)).head = INVALID_INDEX
      · rw [if_pos hempty]
        have habove : ∀ slot : UInt32, start ≤ slot.toNat →
            (side.level slot).head ≠ INVALID_INDEX → start + 1 ≤ slot.toNat := by
          intro slot hslot hhead
          by_contra hnot
          exact hhead (eq_ofNat_of_toNat_eq (show slot.toNat = start by omega) ▸ hempty)
        by_cases hend : WINDOW.toNat ≤ start + 1
        · rw [if_pos hend]
          refine Or.inl ⟨rfl, fun slot hslot hstart' => ?_⟩
          by_contra hhead
          have hslot' := UInt32.lt_iff_toNat_lt.mp hslot
          have := habove slot hstart' hhead
          omega
        · rw [if_neg hend]
          have hnext : start + 1 < 2048 := Nat.lt_of_not_le hend
          rcases ih (start + 1) hnext (by omega) with ⟨hnone, hall⟩ | ⟨hlt, hhead, hall⟩
          · refine Or.inl ⟨hnone, fun slot hslot hstart' => ?_⟩
            by_contra hhead
            exact hhead (hall slot hslot (habove slot hstart' hhead))
          · refine Or.inr ⟨hlt, hhead, fun slot hslot hstart' hslotHead => ?_⟩
            exact hall slot hslot (habove slot hstart' hslotHead) hslotHead
      · rw [if_neg hempty]
        refine Or.inr ⟨?_, hempty, fun slot _ hstart' _ => ?_⟩
        · rw [UInt32.lt_iff_toNat_lt, hpos]
          exact hstart
        · rw [UInt32.le_iff_toNat_le, hpos]
          exact hstart'

/-- Repairing the best slot writes nothing else. -/
theorem advanceBest_eq (side : LadderSide) :
    side.advanceBest = { side with bestSlot := side.advanceBest.bestSlot } := by
  unfold advanceBest
  split <;> rfl

/-- The repaired best slot is best again when every occupied slot is at best as
good as the old one. -/
theorem isBest_advanceBest {occupied : UInt32 → Prop} (hbest : side.bestSlot < WINDOW)
    (hworse : ∀ slot < WINDOW, occupied slot →
      if side.bid then slot ≤ side.bestSlot else side.bestSlot ≤ slot)
    (hhead : ∀ slot < WINDOW, occupied slot ↔ (side.level slot).head ≠ INVALID_INDEX) :
    IsBest side.bid occupied side.advanceBest.bestSlot := by
  have hstart : side.bestSlot.toNat < 2048 := UInt32.lt_iff_toNat_lt.mp hbest
  unfold advanceBest
  rw [if_neg (ne_invalid_of_lt_window hbest)]
  cases hbid : side.bid with
  | true =>
      simp only [hbid, if_true] at hworse ⊢
      rcases side.scanDown_spec _ hstart with ⟨hnone, hall⟩ | ⟨hle, hfound, hall⟩
      · refine Or.inl ⟨hnone, fun slot hslot hocc => ?_⟩
        exact (hhead slot hslot).mp hocc
          (hall slot (UInt32.le_iff_toNat_le.mp (hworse slot hslot hocc)))
      · have hlt : side.scanDown side.bestSlot.toNat < WINDOW :=
          UInt32.lt_iff_toNat_lt.mpr (Nat.lt_of_le_of_lt hle hstart)
        refine Or.inr ⟨hlt, (hhead _ hlt).mpr hfound, fun slot hslot hocc => ?_⟩
        exact hall slot (UInt32.le_iff_toNat_le.mp (hworse slot hslot hocc))
          ((hhead slot hslot).mp hocc)
  | false =>
      simp only [hbid, Bool.false_eq_true, if_false] at hworse ⊢
      rcases side.scanUp_spec _ hstart with ⟨hnone, hall⟩ | ⟨hlt, hfound, hall⟩
      · refine Or.inl ⟨hnone, fun slot hslot hocc => ?_⟩
        exact (hhead slot hslot).mp hocc
          (hall slot hslot (UInt32.le_iff_toNat_le.mp (hworse slot hslot hocc)))
      · refine Or.inr ⟨hlt, (hhead _ hlt).mpr hfound, fun slot hslot hocc => ?_⟩
        exact hall slot hslot (UInt32.le_iff_toNat_le.mp (hworse slot hslot hocc))
          ((hhead slot hslot).mp hocc)

end Orderbook.LadderSide
