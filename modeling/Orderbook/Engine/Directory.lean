/-
# Streams with fresh references

A feed gives every order it introduces a reference that it never used before.
Under that assumption the directory of a market misses nothing: every live order
is found under its own reference, so references tell live orders apart.
-/

import Orderbook.Engine.Safety
import Orderbook.Math.SweepLaws

namespace Orderbook

open Orderbook.Math

/-- The references a message introduces. An add with an invalid side introduces
nothing. -/
def ItchMessage.introduces : ItchMessage → List UInt64
  | .add _ order => if ValidSide order.buySellIndicator then [order.ref] else []
  | .replace message => [message.newOrderRef]
  | _ => []

/-- The references introduced by a list of messages. -/
def introduced (messages : List ItchMessage) : List UInt64 :=
  messages.flatMap ItchMessage.introduces

@[simp]
theorem introduced_snoc (messages : List ItchMessage) (message : ItchMessage) :
    introduced (messages ++ [message]) = introduced messages ++ message.introduces := by
  simp [introduced]

/-- Every introduced reference is new, and none is the reserved key. -/
structure FreshRefs (messages : List ItchMessage) : Prop where
  nodup : (introduced messages).Nodup
  listed : ∀ ref ∈ introduced messages, ref ≠ HashPolicy.identity.empty

theorem FreshRefs.of_notMem {messages : List ItchMessage} (hnodup : (introduced messages).Nodup)
    (hempty : HashPolicy.identity.empty ∉ introduced messages) : FreshRefs messages :=
  ⟨hnodup, fun _ href hsame => hempty (hsame ▸ href)⟩

theorem FreshRefs.of_prefix {past messages : List ItchMessage} (hfresh : FreshRefs messages)
    (hpast : past <+: messages) : FreshRefs past := by
  obtain ⟨rest, rfl⟩ := hpast
  have hsplit : introduced (past ++ rest) = introduced past ++ introduced rest :=
    List.flatMap_append
  constructor
  · exact (List.nodup_append.mp (hsplit ▸ hfresh.nodup)).1
  · intro ref href
    exact hfresh.listed ref (hsplit ▸ List.mem_append_left _ href)

namespace Market

variable {market : Market} {seen : List UInt64}

theorem proper_rules (locate : UInt16) (incoming : Order) :
    (Resting.rules locate incoming).Proper where
  tag _ _ := rfl
  quantity amount resting hamount := by
    change amount ≤ resting.order.shares.toNat at hamount
    have hlt := resting.order.shares.toNat_lt
    have htoNat : (UInt32.ofNat amount).toNat = amount :=
      UInt32.toNat_ofNat_of_lt' (Nat.lt_of_le_of_lt hamount hlt)
    change (resting.order.shares - UInt32.ofNat amount).toNat = _
    rw [UInt32.toNat_sub_of_le _ _ (UInt32.le_iff_toNat_le.mpr (htoNat.symm ▸ hamount)), htoNat]
    rfl

/-- Every live order is found under its own reference, which was seen before. -/
structure Listed (market : Market) (seen : List UInt64) : Prop where
  found : ∀ resting ∈ market.live, market.directory resting.order.ref =
    some { stockLocate := resting.locate, poolIdx := resting.slot }
  seen : ∀ resting ∈ market.live, resting.order.ref ∈ seen

theorem listed_empty : Listed {} [] := ⟨by simp, by simp⟩

/-- References tell live orders apart. -/
theorem Listed.eq_of_ref (hlisted : market.Listed seen) (hsound : market.Sound)
    {first second : Resting} (hfirst : first ∈ market.live) (hsecond : second ∈ market.live)
    (href : first.order.ref = second.order.ref) : first = second := by
  have hfound := hlisted.found first hfirst
  rw [href, hlisted.found second hsecond, Option.some.injEq, OrderLocation.mk.injEq] at hfound
  exact List.inj_on_of_nodup_map hsound.slots hfirst hsecond hfound.2.symm

theorem Listed.nodup_refs (hlisted : market.Listed seen) (hsound : market.Sound) :
    (market.live.map fun resting => resting.order.ref).Nodup :=
  List.Nodup.map_on (fun _ hfirst _ hsecond href => hlisted.eq_of_ref hsound hfirst hsecond href)
    (List.Nodup.of_map _ hsound.slots)

theorem Listed.mono {more : List UInt64} (hlisted : market.Listed seen) (hsubset : seen ⊆ more) :
    market.Listed more :=
  ⟨hlisted.found, fun resting hmem => hsubset (hlisted.seen resting hmem)⟩

/-- An order that is left after a match was not filled. -/
theorem Listed.notMem_filledRefs (hlisted : market.Listed seen) (hsound : market.Sound)
    {locate : UInt16} {order : Order} {left : Resting}
    (hleft : left ∈ (market.matched locate order).items) :
    left.order.ref ∉ filledRefs (market.matched locate order).fills := by
  intro hfilled
  obtain ⟨fill, hfill, href⟩ := List.mem_map.mp hfilled
  obtain ⟨hfill, hfull⟩ := List.mem_filter.mp hfill
  obtain ⟨before, hbefore, hsame⟩ := exists_live_of_mem_matched hleft
  obtain ⟨source, hsource, hsame'⟩ : ∃ source ∈ market.live,
      fill.1.identity = source.identity :=
    Rules.exists_mem_of_mem_fills Resting.identity_reduce rfl hfill
  have hidentity := Resting.identity_eq_iff.mp hsame
  have hidentity' := Resting.identity_eq_iff.mp hsame'
  have heq : source = before := hlisted.eq_of_ref hsound hsource hbefore
    (hidentity'.2.2.1.symm.trans (href.trans hidentity.2.2.1))
  have hslot : left.slot = fill.1.slot := by
    rw [hidentity.2.1, hidentity'.2.1, heq]
  exact Rules.tag_ne_of_filled (proper_rules locate order) rfl hfill (of_decide_eq_true hfull)
    left hleft hslot

theorem Listed.submit (hlisted : market.Listed seen) (hsound : market.Sound) (slot : UInt32)
    (locate : UInt16) {order : Order} (hfresh : order.ref ∉ seen)
    (hkey : order.ref ≠ HashPolicy.identity.empty) :
    (market.submit slot locate order).Listed (seen ++ [order.ref]) := by
  have hleft : ∀ left ∈ (market.matched locate order).items,
      (market.submit slot locate order).directory left.order.ref =
        some { stockLocate := left.locate, poolIdx := left.slot } ∧ left.order.ref ∈ seen := by
    intro left hmem
    obtain ⟨before, hbefore, hsame⟩ := exists_live_of_mem_matched hmem
    obtain ⟨hlocate, hslot, href, _⟩ := Resting.identity_eq_iff.mp hsame
    have hseen : left.order.ref ∈ seen := by
      rw [href]
      exact hlisted.seen before hbefore
    refine ⟨?_, hseen⟩
    change relist _ _ _ _ _ = _
    have hother : left.order.ref ≠ order.ref := fun h => hfresh (h ▸ hseen)
    rw [relist, if_neg fun h => hother h.2.2,
      if_neg (hlisted.notMem_filledRefs hsound hmem), href, hlocate, hslot]
    exact hlisted.found before hbefore
  have hmem : ∀ resting ∈ (market.submit slot locate order).live,
      resting ∈ (market.matched locate order).items ∨
        (market.matched locate order).demand ≠ 0 ∧ resting.locate = locate ∧
          resting.slot = slot ∧ resting.order.ref = order.ref := by
    intro resting hresting
    change resting ∈ rested slot locate order _ at hresting
    unfold rested at hresting
    split at hresting
    · exact .inl hresting
    · rename_i hopen
      rw [List.mem_append, List.mem_singleton] at hresting
      rcases hresting with hitem | rfl
      · exact .inl hitem
      · exact .inr ⟨hopen, rfl, rfl, rfl⟩
  constructor
  · intro resting hresting
    rcases hmem resting hresting with hitem | ⟨hopen, hlocate, hslot, href⟩
    · exact (hleft resting hitem).1
    · change relist _ _ _ _ _ = _
      rw [relist, href, if_pos ⟨hopen, hkey, rfl⟩, hlocate, hslot]
  · intro resting hresting
    rcases hmem resting hresting with hitem | ⟨_, _, _, href⟩
    · exact List.mem_append_left _ (hleft resting hitem).2
    · rw [href]
      exact List.mem_append_right _ (List.mem_singleton.mpr rfl)

theorem Listed.withdraw (hlisted : market.Listed seen) {resting : Resting} {ref : UInt64}
    (hmem : resting ∈ market.live) (href : resting.order.ref = ref) :
    (market.withdraw ref resting.slot).Listed seen := by
  constructor
  · intro other hother
    obtain ⟨hother, hslot⟩ := List.mem_filter.mp hother
    have hne : other.order.ref ≠ ref := by
      intro hsame
      have hfound := hlisted.found other hother
      rw [hsame, ← href, hlisted.found resting hmem, Option.some.injEq,
        OrderLocation.mk.injEq] at hfound
      simp [hfound.2] at hslot
    exact (if_neg hne).trans (hlisted.found other hother)
  · exact fun other hother => hlisted.seen other (List.mem_filter.mp hother).1

theorem Listed.reduce (hlisted : market.Listed seen) (slot : UInt32) (amount : ℕ) :
    Listed { market with live := reduceSlot slot amount market.live } seen := by
  constructor
  · intro resting hresting
    obtain ⟨before, hbefore, rfl⟩ := List.mem_map.mp hresting
    split <;> exact hlisted.found before hbefore
  · intro resting hresting
    obtain ⟨before, hbefore, rfl⟩ := List.mem_map.mp hresting
    split <;> exact hlisted.seen before hbefore

/-- Every message keeps the directory complete, as long as the references it
introduces are new. -/
theorem Listed.step (hlisted : market.Listed seen) (hsound : market.Sound) (slot : UInt32)
    {message : ItchMessage} (hnew : ∀ ref ∈ message.introduces, ref ∉ seen)
    (hkey : ∀ ref ∈ message.introduces, ref ≠ HashPolicy.identity.empty) :
    (market.step slot message).1.Listed (seen ++ message.introduces) := by
  have hchange := market.step_change slot message
  generalize market.step slot message = result at hchange ⊢
  cases hchange with
  | idle _ => exact hlisted.mono (List.subset_append_left _ _)
  | submitted locate order hside =>
      have hintroduces : (ItchMessage.add locate order).introduces = [order.ref] := if_pos hside
      rw [hintroduces] at hnew hkey ⊢
      exact hlisted.submit hsound slot locate (hnew _ (List.mem_singleton.mpr rfl))
        (hkey _ (List.mem_singleton.mpr rfl))
  | withdrawn hlookup _ =>
      obtain ⟨hmem, href, _⟩ := hsound.of_lookup hlookup
      exact (hlisted.withdraw hmem href).mono (List.subset_append_left _ _)
  | reduced message hlookup _ =>
      exact (hlisted.reduce _ _).mono (List.subset_append_left _ _)
  | replaced message hlookup =>
      obtain ⟨hmem, href, _⟩ := hsound.of_lookup hlookup
      have hintroduces : (ItchMessage.replace message).introduces = [message.newOrderRef] := rfl
      have hreplacement : ∀ side, (MatchingEngine.replacementOrder message side).ref =
          message.newOrderRef := fun _ => joinRef_split message.newOrderRef
      rw [hintroduces] at hnew hkey ⊢
      rw [← hreplacement _]
      apply (hlisted.withdraw hmem href).submit (hsound.withdraw hmem href)
      · rw [hreplacement]
        exact hnew _ (List.mem_singleton.mpr rfl)
      · rw [hreplacement]
        exact hkey _ (List.mem_singleton.mpr rfl)

/-- A submission enters no other reference than its own. -/
theorem directory_submit_of_ne (slot : UInt32) (locate : UInt16) {order : Order} {ref : UInt64}
    (hnone : market.directory ref = none) (hne : ref ≠ order.ref) :
    (market.submit slot locate order).directory ref = none := by
  change relist _ _ _ _ _ = _
  rw [relist, if_neg fun h => hne h.2.2, hnone, ite_self]

/-- A reference enters the directory only when it is introduced. -/
theorem directory_step_eq_none (market : Market) (slot : UInt32) {message : ItchMessage}
    {ref : UInt64} (hnone : market.directory ref = none) (hnew : ref ∉ message.introduces) :
    (market.step slot message).1.directory ref = none := by
  have hwithdraw : ∀ other slot, (market.withdraw other slot).directory ref = none := by
    intro other slot
    change (if ref = other then none else market.directory ref) = none
    rw [hnone, ite_self]
  have hchange := market.step_change slot message
  generalize market.step slot message = result at hchange ⊢
  cases hchange with
  | idle _ => exact hnone
  | submitted locate order hside =>
      have hintroduces : (ItchMessage.add locate order).introduces = [order.ref] := if_pos hside
      rw [hintroduces, List.mem_singleton] at hnew
      exact directory_submit_of_ne slot locate hnone hnew
  | withdrawn _ _ => exact hwithdraw _ _
  | reduced _ _ _ => exact hnone
  | replaced message _ =>
      apply directory_submit_of_ne slot _ (hwithdraw _ _)
      intro heq
      apply hnew
      rw [heq]
      exact List.mem_singleton.mpr (joinRef_split message.newOrderRef)

end Market

end Orderbook
