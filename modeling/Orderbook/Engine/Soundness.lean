/-
# What every market keeps

A market is sound when its directory leads only to live orders that carry the
reference they are found under, every live order has shares and a side, and no
book is crossed. Each message keeps a market sound, whatever references it uses:
an order that leaves takes its own directory entry with it, and an order rests
only where the sweep found nothing left to match.
-/

import Orderbook.Engine.Market
import Mathlib.Data.Set.Card

namespace Orderbook

open Orderbook.Math LadderSide

namespace Resting

/-- What of a resting order never changes while it rests. -/
structure Identity where
  locate : UInt16
  slot : UInt32
  ref : UInt64
  price : UInt32
  side : UInt8
  deriving DecidableEq, Repr

/-- The identity of a resting order. -/
def identity (resting : Resting) : Identity where
  locate := resting.locate
  slot := resting.slot
  ref := resting.order.ref
  price := resting.order.price
  side := resting.order.buySellIndicator

@[simp]
theorem identity_reduce (amount : ℕ) (resting : Resting) :
    (resting.reduce amount).identity = resting.identity := rfl

theorem identity_eq_iff {first second : Resting} :
    first.identity = second.identity ↔
      first.locate = second.locate ∧ first.slot = second.slot ∧
        first.order.ref = second.order.ref ∧ first.order.price = second.order.price ∧
        first.order.buySellIndicator = second.order.buySellIndicator := by
  simp [identity]

theorem isBuy_of_identity_eq {first second : Resting} (h : first.identity = second.identity) :
    first.order.isBuy = second.order.isBuy := by
  rw [Order.isBuy, (identity_eq_iff.mp h).2.2.2.2, Order.isBuy]

end Resting

namespace Market

/-- Two orders of one book do not cross. -/
def Uncrossed (live : List Resting) : Prop :=
  ∀ bid ∈ live, ∀ ask ∈ live, bid.locate = ask.locate → bid.order.isBuy = true →
    ask.order.isBuy = false → bid.order.price < ask.order.price

/-- The invariant of markets. -/
structure Sound (market : Market) : Prop where
  slots : (market.live.map Resting.slot).Nodup
  positive : ∀ resting ∈ market.live, resting.order.shares ≠ 0
  side : ∀ resting ∈ market.live, ValidSide resting.order.buySellIndicator
  directory : ∀ ref location, market.directory ref = some location →
    ∃ resting ∈ market.live, resting.locate = location.stockLocate ∧
      resting.slot = location.poolIdx ∧ resting.order.ref = ref
  uncrossed : Uncrossed market.live

theorem sound_empty : Sound {} := by
  refine ⟨List.nodup_nil, ?_, ?_, ?_, ?_⟩
  · simp
  · simp
  · intro ref location h
    cases h
  · intro bid hbid
    simp at hbid

variable {market : Market}

theorem lookup_of_directory_eq_none {ref : UInt64} (hnone : market.directory ref = none) :
    market.lookup ref = none := by
  rw [lookup, hnone, Option.bind_none]

/-- A directory entry leads to the order that carries its reference. -/
theorem Sound.lookup (hsound : market.Sound) {ref : UInt64} {location : OrderLocation}
    (hentry : market.directory ref = some location) :
    ∃ resting ∈ market.live, market.lookup ref = some resting ∧
      resting.locate = location.stockLocate ∧ resting.slot = location.poolIdx ∧
      resting.order.ref = ref := by
  obtain ⟨resting, hmem, hlocate, hslot, href⟩ := hsound.directory ref location hentry
  refine ⟨resting, hmem, ?_, hlocate, hslot, href⟩
  rw [Market.lookup, hentry, Option.bind_some]
  cases hfind : market.live.find? fun resting => resting.slot = location.poolIdx with
  | none =>
      have := List.find?_eq_none.mp hfind resting hmem
      simp [hslot] at this
  | some found =>
      have hfound := List.find?_some hfind
      rw [List.inj_on_of_nodup_map hsound.slots (List.mem_of_find?_eq_some hfind) hmem
        ((of_decide_eq_true hfound).trans hslot.symm)]

/-- What is found under a reference carries it. -/
theorem Sound.of_lookup (hsound : market.Sound) {ref : UInt64} {resting : Resting}
    (hlookup : market.lookup ref = some resting) :
    resting ∈ market.live ∧ resting.order.ref = ref ∧
      market.directory ref =
        some { stockLocate := resting.locate, poolIdx := resting.slot } := by
  cases hentry : market.directory ref with
  | none =>
      rw [lookup_of_directory_eq_none hentry] at hlookup
      cases hlookup
  | some location =>
      obtain ⟨found, hmem, hfound, hlocate, hslot, href⟩ := hsound.lookup hentry
      rw [hlookup] at hfound
      cases hfound
      obtain ⟨stockLocate, poolIdx⟩ := location
      obtain rfl : resting.locate = stockLocate := hlocate
      obtain rfl : resting.slot = poolIdx := hslot
      exact ⟨hmem, href, rfl⟩

/-- A subset of the live orders is as uncrossed as the whole. -/
theorem Uncrossed.of_identities {live live' : List Resting} (huncrossed : Uncrossed live)
    (hsubset : ∀ resting ∈ live', ∃ before ∈ live, resting.identity = before.identity) :
    Uncrossed live' := by
  intro bid hbid ask hask hlocate hbuy hsell
  obtain ⟨bid', hbid', hbidSame⟩ := hsubset bid hbid
  obtain ⟨ask', hask', haskSame⟩ := hsubset ask hask
  have hbidEq := Resting.identity_eq_iff.mp hbidSame
  have haskEq := Resting.identity_eq_iff.mp haskSame
  rw [hbidEq.2.2.2.1, haskEq.2.2.2.1]
  apply huncrossed bid' hbid' ask' hask'
  · rw [← hbidEq.1, ← haskEq.1, hlocate]
  · rw [← Resting.isBuy_of_identity_eq hbidSame, hbuy]
  · rw [← Resting.isBuy_of_identity_eq haskSame, hsell]

theorem Sound.withdraw (hsound : market.Sound) {resting : Resting} (hmem : resting ∈ market.live)
    {ref : UInt64} (href : resting.order.ref = ref) :
    (market.withdraw ref resting.slot).Sound where
  slots := hsound.slots.sublist (List.filter_sublist.map _)
  positive other hother := hsound.positive other (List.mem_filter.mp hother).1
  side other hother := hsound.side other (List.mem_filter.mp hother).1
  directory other location hentry := by
    unfold Market.withdraw at hentry
    dsimp only at hentry
    split at hentry
    · cases hentry
    · rename_i hne
      obtain ⟨found, hfound, hlocate, hslot, hfoundRef⟩ := hsound.directory other location hentry
      refine ⟨found, List.mem_filter.mpr ⟨hfound, ?_⟩, hlocate, hslot, hfoundRef⟩
      have hslotNe : found.slot ≠ resting.slot := by
        intro hsame
        obtain rfl := List.inj_on_of_nodup_map hsound.slots hfound hmem hsame
        exact hne (hfoundRef.symm.trans href)
      simpa using hslotNe
  uncrossed := hsound.uncrossed.of_identities fun other hother =>
    ⟨other, (List.mem_filter.mp hother).1, rfl⟩

theorem Sound.reduce (hsound : market.Sound) {resting : Resting} (hmem : resting ∈ market.live)
    {amount : UInt32} (hamount : amount < resting.order.shares) :
    Sound { market with live := reduceSlot resting.slot amount.toNat market.live } := by
  have hidentity : ∀ other ∈ reduceSlot resting.slot amount.toNat market.live,
      ∃ before ∈ market.live, other.identity = before.identity := by
    intro other hother
    obtain ⟨before, hbefore, rfl⟩ := List.mem_map.mp hother
    refine ⟨before, hbefore, ?_⟩
    split <;> rfl
  refine ⟨?_, ?_, ?_, ?_, hsound.uncrossed.of_identities hidentity⟩
  · have hslots : (reduceSlot resting.slot amount.toNat market.live).map Resting.slot =
        market.live.map Resting.slot := by
      rw [reduceSlot, List.map_map]
      apply List.map_congr_left
      intro other _
      simp only [Function.comp_apply]
      split <;> rfl
    exact hslots ▸ hsound.slots
  · intro other hother
    obtain ⟨before, hbefore, rfl⟩ := List.mem_map.mp hother
    split
    · rename_i hsame
      obtain rfl := List.inj_on_of_nodup_map hsound.slots hbefore hmem hsame
      simp only [Resting.reduce, UInt32.ofNat_toNat]
      intro hzero
      have hlt := UInt32.lt_iff_toNat_lt.mp hamount
      have hsub := UInt32.toNat_sub_of_le _ _ (UInt32.le_of_lt hamount)
      rw [hzero] at hsub
      change 0 = _ at hsub
      omega
    · exact hsound.positive before hbefore
  · intro other hother
    obtain ⟨before, hbefore, hsame⟩ := hidentity other hother
    rw [(Resting.identity_eq_iff.mp hsame).2.2.2.2]
    exact hsound.side before hbefore
  · intro ref location hentry
    obtain ⟨found, hfound, hlocate, hslot, href⟩ := hsound.directory ref location hentry
    refine ⟨_, List.mem_map_of_mem hfound, ?_⟩
    split
    · exact ⟨hlocate, hslot, href⟩
    · exact ⟨hlocate, hslot, href⟩

section Submit

variable {locate : UInt16} {order : Order} {slot : UInt32}

/-- Every order that is left after a match was live before. -/
theorem exists_live_of_mem_matched {resting : Resting}
    (hmem : resting ∈ (market.matched locate order).items) :
    ∃ before ∈ market.live, resting.identity = before.identity :=
  Rules.exists_mem_of_mem_sweep Resting.identity_reduce hmem

/-- An order with shares left found nothing more to match. -/
theorem not_crosses_of_mem_matched (hopen : (market.matched locate order).demand ≠ 0)
    {resting : Resting} (hmem : resting ∈ (market.matched locate order).items)
    (hlocate : resting.locate = locate) (hside : resting.order.isBuy = !order.isBuy) :
    order.crosses resting.order.price = false := by
  have hnext : (Resting.rules locate order).next (market.matched locate order) = none :=
    Rules.next_sweep _
  rw [Rules.next, if_neg hopen] at hnext
  have hnot := not_eligible_of_best_eq_none
    (fun first second => by
      simpa [Resting.rules] using Ahead.total _ first.order.price second.order.price)
    (fun first second third hfirst hsecond => by
      simp only [Resting.rules, decide_eq_true_eq] at *
      exact hfirst.trans hsecond)
    hnext resting hmem
  simpa [Resting.rules, hlocate, hside] using hnot

/-- An order that crosses nothing rests whole. -/
theorem matched_of_not_eligible
    (hnone : ∀ resting ∈ market.live, (Resting.rules locate order).eligible resting = false) :
    market.matched locate order = { items := market.live, demand := order.shares.toNat } := by
  apply Rules.sweep_of_next_eq_none
  unfold Rules.next
  split
  · rfl
  · exact best_eq_none hnone

/-- The remainder of an order rests without crossing its book. -/
theorem uncrossed_rested (huncrossed : Uncrossed market.live) :
    Uncrossed (rested slot locate order (market.matched locate order)) := by
  have hleft : Uncrossed (market.matched locate order).items :=
    huncrossed.of_identities fun _ hmem => exists_live_of_mem_matched hmem
  unfold rested
  split
  · exact hleft
  · rename_i hopen
    intro bid hbid ask hask hlocate hbuy hsell
    rw [List.mem_append, List.mem_singleton] at hbid hask
    rcases hbid with hbid | rfl <;> rcases hask with hask | rfl
    · exact hleft bid hbid ask hask hlocate hbuy hsell
    · change order.isBuy = false at hsell
      have hnot := not_crosses_of_mem_matched hopen hbid hlocate (by rw [hbuy, hsell]; rfl)
      simpa [Order.crosses, hsell] using hnot
    · change order.isBuy = true at hbuy
      have hnot := not_crosses_of_mem_matched hopen hask hlocate.symm (by rw [hbuy, hsell]; rfl)
      simpa [Order.crosses, hbuy] using hnot
    · exact absurd (hbuy.symm.trans hsell) Bool.noConfusion

/-- An order that lost its entry in the directory was filled. -/
theorem exists_matched_of_notMem_filledRefs (hslots : (market.live.map Resting.slot).Nodup)
    {resting : Resting} (hmem : resting ∈ market.live)
    (hnot : resting.order.ref ∉ filledRefs (market.matched locate order).fills) :
    ∃ left ∈ (market.matched locate order).items, left.identity = resting.identity := by
  have hcases : (∃ left ∈ (market.matched locate order).items,
        left.identity = resting.identity) ∨
      ∃ filled : Resting, filled.identity = resting.identity ∧
        (filled, filled.order.shares.toNat) ∈ (market.matched locate order).fills :=
    Rules.mem_or_filled_of_sweep Resting.identity_reduce (fun _ _ => rfl) hslots hmem
  rcases hcases with hleft | ⟨filled, hsame, hfill⟩
  · exact hleft
  · refine absurd ?_ hnot
    rw [← (Resting.identity_eq_iff.mp hsame).2.2.1]
    exact List.mem_map.mpr ⟨_, List.mem_filter.mpr ⟨hfill, decide_eq_true rfl⟩, rfl⟩

theorem Sound.submit (hsound : market.Sound) (hside : ValidSide order.buySellIndicator)
    (hslots : ((market.submit slot locate order).live.map Resting.slot).Nodup)
    (hpositive : ∀ resting ∈ (market.matched locate order).items, resting.order.shares ≠ 0) :
    (market.submit slot locate order).Sound := by
  have hmem : ∀ resting ∈ (market.submit slot locate order).live,
      resting ∈ (market.matched locate order).items ∨
        (market.matched locate order).demand ≠ 0 ∧
          resting = { locate, slot, order :=
            { order with shares := UInt32.ofNat (market.matched locate order).demand } } := by
    intro resting hresting
    change resting ∈ rested slot locate order _ at hresting
    unfold rested at hresting
    split at hresting
    · exact .inl hresting
    · rename_i hopen
      rw [List.mem_append, List.mem_singleton] at hresting
      exact hresting.imp id fun h => ⟨hopen, h⟩
  refine ⟨hslots, ?_, ?_, ?_, uncrossed_rested hsound.uncrossed⟩
  · intro resting hresting
    rcases hmem resting hresting with hitem | ⟨hopen, rfl⟩
    · exact hpositive resting hitem
    · intro hzero
      have hle : (market.matched locate order).demand ≤ order.shares.toNat :=
        Rules.demand_sweep_le _
      have hlt := order.shares.toNat_lt
      have htoNat := congrArg UInt32.toNat hzero
      rw [UInt32.toNat_ofNat_of_lt' (Nat.lt_of_le_of_lt hle hlt)] at htoNat
      exact hopen htoNat
  · intro resting hresting
    rcases hmem resting hresting with hitem | ⟨_, rfl⟩
    · obtain ⟨before, hbefore, hsame⟩ := exists_live_of_mem_matched hitem
      rw [(Resting.identity_eq_iff.mp hsame).2.2.2.2]
      exact hsound.side before hbefore
    · exact hside
  · intro ref location hentry
    change relist _ _ _ _ ref = _ at hentry
    unfold relist at hentry
    split at hentry
    · rename_i hnew
      obtain ⟨hopen, _, rfl⟩ := hnew
      cases hentry
      have hrested : (market.submit slot locate order).live =
          (market.matched locate order).items ++ [{ locate, slot, order :=
            { order with shares := UInt32.ofNat (market.matched locate order).demand } }] :=
        if_neg hopen
      rw [hrested]
      exact ⟨_, List.mem_append_right _ List.mem_cons_self, rfl, rfl, rfl⟩
    · split at hentry
      · cases hentry
      · rename_i hnotFilled
        obtain ⟨found, hfound, hlocate, hslot, rfl⟩ := hsound.directory ref location hentry
        obtain ⟨left, hleft, hsame⟩ :=
          exists_matched_of_notMem_filledRefs hsound.slots hfound hnotFilled
        obtain ⟨hl, hs, hr, _⟩ := Resting.identity_eq_iff.mp hsame
        refine ⟨left, ?_, hl.trans hlocate, hs.trans hslot, hr⟩
        change left ∈ rested slot locate order _
        unfold rested
        split
        · exact hleft
        · exact List.mem_append_left _ hleft

end Submit

/-- The keys of a sound directory are references of live orders. -/
theorem Sound.ncard_directory_le (hsound : market.Sound) :
    Set.ncard {ref | market.directory ref ≠ none} ≤ market.live.length := by
  have hsubset : {ref | market.directory ref ≠ none} ⊆
      ((market.live.map fun resting => resting.order.ref).toFinset : Set UInt64) := by
    intro ref hkey
    obtain ⟨location, hentry⟩ := Option.ne_none_iff_exists'.mp hkey
    obtain ⟨resting, hmem, _, _, href⟩ := hsound.directory ref location hentry
    simpa using ⟨resting, hmem, href⟩
  calc
    Set.ncard {ref | market.directory ref ≠ none} ≤ _ :=
      Set.ncard_le_ncard hsubset (Finset.finite_toSet _)
    _ = (market.live.map fun resting => resting.order.ref).toFinset.card := Set.ncard_coe_finset _
    _ ≤ (market.live.map fun resting => resting.order.ref).length := List.toFinset_card_le _
    _ = market.live.length := List.length_map _

theorem length_submit_le (market : Market) (slot : UInt32) (locate : UInt16) (order : Order) :
    (market.submit slot locate order).live.length ≤ market.live.length + 1 := by
  have hle : (market.matched locate order).items.length ≤ market.live.length :=
    Rules.length_sweep_le _
  change (rested slot locate order _).length ≤ _
  unfold rested
  split
  · exact hle.trans (Nat.le_succ _)
  · simpa using hle

theorem length_withdraw_le (market : Market) (ref : UInt64) (slot : UInt32) :
    (market.withdraw ref slot).live.length ≤ market.live.length :=
  List.length_filter_le _ _

/-- A message adds at most one live order. -/
theorem length_step_le (slot : UInt32) (market : Market) (message : ItchMessage) :
    (market.step slot message).1.live.length ≤ market.live.length + 1 := by
  have hchange := market.step_change slot message
  generalize market.step slot message = result at hchange ⊢
  cases hchange with
  | idle _ => exact Nat.le_succ _
  | submitted locate order _ => exact length_submit_le market slot locate order
  | withdrawn _ _ => exact (length_withdraw_le market _ _).trans (Nat.le_succ _)
  | reduced _ _ _ => exact (List.length_map _).le.trans (Nat.le_succ _)
  | replaced _ _ =>
      exact (length_submit_le _ slot _ _).trans
        (Nat.succ_le_succ (length_withdraw_le market _ _))

end Market

end Orderbook
