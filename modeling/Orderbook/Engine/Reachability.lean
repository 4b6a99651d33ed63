/-
# Every resting order can be reached

With fresh references the order map is a bijection between its keys and the
linked slots: every resting order is found under its own reference, with its own
book and slot. Once an order has left, its reference is not found again.
-/

import Orderbook.Engine.Directory

namespace Orderbook

open Orderbook.Math

namespace Market

variable {market : Market} {seen : List UInt64} {locate : UInt16} {order : Order}

/-- A key of the directory is the reference of a live order. -/
theorem Listed.mem_of_directory (hlisted : market.Listed seen) (hsound : market.Sound)
    {ref : UInt64} (hentry : market.directory ref ≠ none) : ref ∈ seen := by
  obtain ⟨location, hlocation⟩ := Option.ne_none_iff_exists'.mp hentry
  obtain ⟨resting, hmem, _, _, rfl⟩ := hsound.directory ref location hlocation
  exact hlisted.seen resting hmem

/-- A filled order was live. -/
theorem Listed.mem_of_filledRefs (hlisted : market.Listed seen) {ref : UInt64}
    (hfilled : ref ∈ filledRefs (market.matched locate order).fills) : ref ∈ seen := by
  obtain ⟨fill, hfill, rfl⟩ := List.mem_map.mp hfilled
  obtain ⟨source, hsource, hsame⟩ : ∃ source ∈ market.live,
      fill.1.identity = source.identity :=
    Rules.exists_mem_of_mem_fills Resting.identity_reduce rfl (List.mem_filter.mp hfill).1
  rw [(Resting.identity_eq_iff.mp hsame).2.2.1]
  exact hlisted.seen source hsource

/-- No execution record is truncated. -/
theorem executed_toNat {fill : Fill} (hfill : fill ∈ (market.matched locate order).fills) :
    (UInt32.ofNat fill.2).toNat = fill.2 := by
  have hle : fill.2 ≤ fill.1.order.shares.toNat := Rules.fill_le_quantity rfl hfill
  exact UInt32.toNat_ofNat_of_lt' (Nat.lt_of_le_of_lt hle fill.1.order.shares.toNat_lt)

/-- The shares in the execution records and the remainder make up the order. -/
theorem demand_add_executed (market : Market) (locate : UInt16) (order : Order) :
    (market.matched locate order).demand +
        ((executedRecords (market.matched locate order).fills).map
          fun record => record.executed_shares.toNat).sum = order.shares.toNat := by
  have hsum : (executedRecords (market.matched locate order).fills).map
      (fun record => record.executed_shares.toNat) =
        (market.matched locate order).fills.map Prod.snd := by
    rw [executedRecords, List.map_map]
    apply List.map_congr_left
    intro fill hfill
    exact executed_toNat hfill
  rw [hsum]
  exact Rules.demand_add_fills_sweep _

/-- After a submission, neither the filled orders are found nor the submitted one
if it was filled itself. -/
theorem Listed.directory_submit_eq_none (hlisted : market.Listed seen) (hsound : market.Sound)
    (slot : UInt32) (hfresh : order.ref ∉ seen) {ref : UInt64}
    (hgone : ref ∈ filledRefs (market.matched locate order).fills ∨
      ref = order.ref ∧ (market.matched locate order).demand = 0) :
    (market.submit slot locate order).directory ref = none := by
  change relist _ _ _ _ _ = _
  unfold relist
  rcases hgone with hfilled | ⟨rfl, hdemand⟩
  · have hne : ref ≠ order.ref := by
      rintro rfl
      exact hfresh (hlisted.mem_of_filledRefs hfilled)
    rw [if_neg fun h => hne h.2.2, if_pos hfilled]
  · rw [if_neg fun h => h.1 hdemand]
    split
    · rfl
    · by_contra hentry
      exact hfresh (hlisted.mem_of_directory hsound hentry)

end Market

namespace MatchingEngine

/-- Where the order map finds a reference. -/
def locationOf (engine : MatchingEngine) (ref : UInt64) : Option OrderLocation :=
  (engine.orderMap.find .identity ref).join

/-- The slot the order map finds a reference in. -/
def slotOf (engine : MatchingEngine) (ref : UInt64) : UInt32 :=
  ((engine.locationOf ref).map OrderLocation.poolIdx).getD INVALID_INDEX

end MatchingEngine

/-- The shares executed in a match. -/
def EngineScratch.executedShares (scratch : EngineScratch) : ℕ :=
  (scratch.executedOrders.map fun record => record.executed_shares.toNat).sum

namespace Transition

/-- The references of orders that a submission filled: resting ones, and the
submitted one itself. -/
def matchedRefs (transition : Transition) (ref : UInt64) (shares : UInt32) : List UInt64 :=
  transition.outcome.scratch.removedRefs ++
    if transition.outcome.scratch.executedShares = shares.toNat then [ref] else []

/-- The references of the orders that left with a call: deleted, fully executed,
fully matched or replaced. -/
def departed (transition : Transition) : List UInt64 :=
  match transition.message with
  | .add _ order =>
      if ValidSide order.buySellIndicator then transition.matchedRefs order.ref order.shares
      else []
  | .delete message =>
      let ref := joinRef message.orderReferenceNumberHigh message.orderReferenceNumberLow
      match transition.before.locationOf ref with
      | none => []
      | some _ => [ref]
  | .executed message =>
      match transition.before.locationOf message.orderRef with
      | none => []
      | some location =>
          if message.shares ≥ (transition.before.order location.poolIdx).shares then
            [message.orderRef]
          else []
  | .replace message =>
      match transition.before.locationOf message.originalOrderRef with
      | none => []
      | some _ =>
          message.originalOrderRef ::
            transition.matchedRefs message.newOrderRef message.shares
  | .ignored => []

end Transition

namespace MatchingEngine

variable {stream : List Delivery} {engine : MatchingEngine} {market : Market}
  {trace : List Transition}

/-- Fewer orders rest at any time than the order map has entries. -/
def LiveBelow (stream : List Delivery) : Prop :=
  ∀ past, past <+: stream → ∀ engine trace, Reached past engine trace →
    engine.linkedSlots.length < 2 ^ mapBits

theorem LiveBelow.of_prefix {past : List Delivery} (hlive : LiveBelow stream)
    (hpast : past <+: stream) : LiveBelow past :=
  fun earlier hearlier => hlive earlier (hearlier.trans hpast)

theorem JointRun.length_live_lt (hrun : JointRun stream engine market trace)
    (hlive : LiveBelow stream) : market.live.length < 2 ^ mapBits := by
  have hlt := hlive stream (List.prefix_refl _) engine trace hrun.reached
  rwa [hrun.represents.linkedSlots_perm.length_eq, List.length_map] at hlt

theorem LiveBelow.exists_jointRun (hlive : LiveBelow stream) :
    ∃ engine market trace, JointRun stream engine market trace := by
  obtain ⟨engine, market, trace, hrun, _⟩ := exists_jointRun_of_live_lt
    fun past hpast _ _ _ hrun => hrun.length_live_lt (hlive.of_prefix hpast)
  exact ⟨engine, market, trace, hrun⟩

theorem Represents.entries_lt (hrep : engine.Represents market)
    (hlive : market.live.length < 2 ^ mapBits) : engine.entries < 2 ^ mapBits := by
  rw [entries, hrep.directory.count_eq]
  exact Nat.lt_of_le_of_lt hrep.sound.ncard_directory_le hlive

theorem Represents.locationOf_eq (hrep : engine.Represents market)
    (hroom : engine.entries < 2 ^ mapBits) (ref : UInt64) :
    engine.locationOf ref = market.directory ref := by
  rw [locationOf, hrep.directory.find (hrep.free hroom)]
  rfl

theorem Represents.locationOf_eq_none (hrep : engine.Represents market)
    (hroom : engine.entries < 2 ^ mapBits) {ref : UInt64} (hnone : market.lookup ref = none) :
    engine.locationOf ref = none := by
  rw [hrep.locationOf_eq hroom]
  cases hentry : market.directory ref with
  | none => rfl
  | some location =>
      obtain ⟨resting, _, hlookup, _⟩ := hrep.sound.lookup hentry
      rw [hnone] at hlookup
      cases hlookup

theorem Represents.locationOf_eq_some (hrep : engine.Represents market)
    (hroom : engine.entries < 2 ^ mapBits) {ref : UInt64} {resting : Resting}
    (hlookup : market.lookup ref = some resting) :
    engine.locationOf ref = some { stockLocate := resting.locate, poolIdx := resting.slot } ∧
      engine.order resting.slot = resting.order := by
  obtain ⟨hmem, _, hentry⟩ := hrep.sound.of_lookup hlookup
  exact ⟨(hrep.locationOf_eq hroom ref).trans hentry, hrep.order_slot hmem⟩

/-- With fresh references every market of a run has a complete directory. -/
theorem JointRun.listed (hrun : JointRun stream engine market trace)
    (hfresh : FreshRefs (stream.map Delivery.decoded)) :
    market.Listed (introduced (stream.map Delivery.decoded)) := by
  induction hrun with
  | start => exact Market.listed_empty
  | step delivery slot outcome earlier _ _ _ ih =>
      rw [List.map_append, List.map_singleton] at hfresh ⊢
      have hlisted := ih (hfresh.of_prefix (List.prefix_append _ _))
      have hnodup := hfresh.nodup
      have hkeys := hfresh.listed
      rw [introduced_snoc] at hnodup hkeys ⊢
      apply hlisted.step earlier.represents.sound slot
      · intro ref href hseen
        exact (List.nodup_append.mp hnodup).2.2 ref hseen ref href rfl
      · exact fun ref href => hkeys ref (List.mem_append_right _ href)

/-- The references in the output buffers of a submission that are gone with it. -/
theorem matchedRefs_gone {seen : List UInt64} {transition : Transition} {locate : UInt16}
    {order : Order} (hlisted : market.Listed seen) (hsound : market.Sound)
    (hfresh : order.ref ∉ seen) (slot : UInt32)
    (hscratch : transition.outcome.scratch =
      { removedRefs := filledRefs (market.matched locate order).fills
        executedOrders := executedRecords (market.matched locate order).fills })
    {ref : UInt64} (href : ref ∈ transition.matchedRefs order.ref order.shares) :
    (market.submit slot locate order).directory ref = none ∧ ref ∈ seen ++ [order.ref] := by
  rw [Transition.matchedRefs, List.mem_append, hscratch] at href
  rcases href with hfilled | hown
  · exact ⟨hlisted.directory_submit_eq_none hsound slot hfresh (.inl hfilled),
      List.mem_append_left _ (hlisted.mem_of_filledRefs hfilled)⟩
  · rw [EngineScratch.executedShares] at hown
    split at hown
    · rename_i hfull
      obtain rfl := List.mem_singleton.mp hown
      have hdemand := market.demand_add_executed locate order
      rw [hfull, Nat.add_eq_right] at hdemand
      exact ⟨hlisted.directory_submit_eq_none hsound slot hfresh (.inr ⟨rfl, hdemand⟩),
        List.mem_append_right _ (List.mem_singleton.mpr rfl)⟩
    · cases hown

/-- The orders that leave with a call are not found after it. -/
theorem departed_gone {seen : List UInt64} {message : ItchMessage} {outcome : Outcome}
    (hrep : engine.Represents market) (hroom : engine.entries < 2 ^ mapBits)
    (hlisted : market.Listed seen) (hnew : ∀ ref ∈ message.introduces, ref ∉ seen)
    (hprocesses : engine.Processes market message outcome) (slot : UInt32) {ref : UInt64}
    (href : ref ∈ Transition.departed ⟨engine, message, outcome⟩) :
    (market.step slot message).1.directory ref = none ∧ ref ∈ seen ++ message.introduces := by
  have hwithdraw : ∀ {resting : Resting} {found : UInt64}, market.lookup found = some resting →
      (market.withdraw found resting.slot).directory found = none ∧ found ∈ seen := by
    intro resting found hlookup
    obtain ⟨hmem, hfound, _⟩ := hrep.sound.of_lookup hlookup
    exact ⟨if_pos rfl, hfound ▸ hlisted.seen resting hmem⟩
  have hreports := hprocesses.reports slot
  have hchange := market.step_change slot message
  generalize market.step slot message = result at hchange hreports ⊢
  cases hchange with
  | idle hidle =>
      cases message with
      | add locate order => simp [Transition.departed, show ¬ ValidSide _ from hidle] at href
      | delete message => simp [Transition.departed, hrep.locationOf_eq_none hroom hidle] at href
      | executed message => simp [Transition.departed, hrep.locationOf_eq_none hroom hidle] at href
      | replace message => simp [Transition.departed, hrep.locationOf_eq_none hroom hidle] at href
      | ignored => simp [Transition.departed] at href
  | submitted locate order hside =>
      have hintroduces : (ItchMessage.add locate order).introduces = [order.ref] := if_pos hside
      rw [hintroduces] at hnew ⊢
      rw [Transition.departed] at href
      dsimp only at href
      rw [if_pos hside] at href
      exact matchedRefs_gone hlisted hrep.sound (hnew _ (List.mem_singleton.mpr rfl)) slot
        (hreports _ rfl) href
  | withdrawn hlookup hmessage =>
      obtain ⟨hgone, hseen⟩ := hwithdraw hlookup
      have hfound := hrep.locationOf_eq_some hroom hlookup
      cases message with
      | delete message =>
          obtain rfl := hmessage
          simp only [Transition.departed, hfound, List.mem_singleton] at href
          rw [href]
          exact ⟨hgone, List.mem_append_left _ hseen⟩
      | executed message =>
          obtain ⟨rfl, hshares⟩ := hmessage
          simp only [Transition.departed, hfound, if_pos hshares, List.mem_singleton] at href
          rw [href]
          exact ⟨hgone, List.mem_append_left _ hseen⟩
      | _ => cases hmessage
  | reduced message hlookup hless =>
      simp only [Transition.departed, hrep.locationOf_eq_some hroom hlookup,
        if_neg (UInt32.not_le.mpr hless)] at href
      cases href
  | replaced message hlookup =>
      obtain ⟨hgone, hseen⟩ := hwithdraw hlookup
      obtain ⟨hmem, hown, _⟩ := hrep.sound.of_lookup hlookup
      have hreplacement : ∀ side, (replacementOrder message side).ref =
          message.newOrderRef := fun _ => joinRef_split message.newOrderRef
      have hintroduces : (ItchMessage.replace message).introduces = [message.newOrderRef] := rfl
      rw [hintroduces] at hnew ⊢
      have hfresh := hnew _ (List.mem_singleton.mpr rfl)
      simp only [Transition.departed, (hrep.locationOf_eq_some hroom hlookup).1,
        List.mem_cons] at href
      rcases href with rfl | hmatched
      · refine ⟨Market.directory_submit_of_ne slot _ hgone ?_, List.mem_append_left _ hseen⟩
        intro hsame
        rw [hsame, hreplacement] at hseen
        exact hfresh hseen
      · rw [← hreplacement] at hfresh hmatched ⊢
        exact matchedRefs_gone (hlisted.withdraw hmem hown) (hrep.sound.withdraw hmem hown)
          hfresh slot (hreports _ rfl) hmatched

/-- An order that left in the course of a run is not found again. -/
theorem JointRun.departed_gone (hrun : JointRun stream engine market trace)
    (hfresh : FreshRefs (stream.map Delivery.decoded)) (hlive : LiveBelow stream) :
    ∀ transition ∈ trace, ∀ ref ∈ transition.departed,
      market.directory ref = none ∧ ref ∈ introduced (stream.map Delivery.decoded) := by
  induction hrun with
  | start => simp
  | step delivery slot outcome earlier _ processes _ ih =>
      have hlive := hlive.of_prefix (List.prefix_append _ [delivery])
      rw [List.map_append, List.map_singleton] at hfresh ⊢
      have hfresh' := hfresh.of_prefix (List.prefix_append _ _)
      have hnew := hfresh.nodup
      rw [introduced_snoc] at hnew ⊢
      have hdisjoint := (List.nodup_append.mp hnew).2.2
      intro transition hmem ref href
      rcases List.mem_append.mp hmem with hold | hlast
      · obtain ⟨hgone, hseen⟩ := ih hfresh' hlive transition hold ref href
        refine ⟨?_, List.mem_append_left _ hseen⟩
        exact Market.directory_step_eq_none _ slot hgone fun hagain =>
          hdisjoint ref hseen ref hagain rfl
      · obtain rfl := List.mem_singleton.mp hlast
        exact MatchingEngine.departed_gone earlier.represents
          (earlier.represents.entries_lt (earlier.length_live_lt hlive)) (earlier.listed hfresh')
          (fun _ hagain hseen => hdisjoint _ hseen _ hagain rfl) processes slot href

/-- The keys of the order map and the linked slots correspond. -/
theorem Represents.bijOn_slotOf {seen : List UInt64} (hrep : engine.Represents market)
    (hroom : engine.entries < 2 ^ mapBits) (hlisted : market.Listed seen) :
    Set.BijOn engine.slotOf {ref | ∃ location, engine.Entry ref location}
      {slot | slot ∈ engine.linkedSlots} := by
  have hslot : ∀ resting ∈ market.live, engine.slotOf resting.order.ref = resting.slot := by
    intro resting hmem
    rw [slotOf, hrep.locationOf_eq hroom, hlisted.found resting hmem]
    rfl
  have hkey : ∀ ref, (∃ location, engine.Entry ref location) →
      ∃ resting ∈ market.live, resting.order.ref = ref := by
    rintro ref ⟨location, hentry⟩
    obtain ⟨resting, hmem, _, _, href⟩ :=
      hrep.sound.directory ref location ((entry_iff hrep.directory).mp hentry)
    exact ⟨resting, hmem, href⟩
  refine ⟨?_, ?_, ?_⟩
  · intro ref href
    obtain ⟨resting, hmem, rfl⟩ := hkey ref href
    show engine.slotOf resting.order.ref ∈ engine.linkedSlots
    rw [hslot resting hmem, hrep.linkedSlots_perm.mem_iff]
    exact List.mem_map_of_mem hmem
  · intro ref href ref' href' hsame
    obtain ⟨resting, hmem, rfl⟩ := hkey ref href
    obtain ⟨resting', hmem', rfl⟩ := hkey ref' href'
    rw [hslot resting hmem, hslot resting' hmem'] at hsame
    rw [List.inj_on_of_nodup_map hrep.sound.slots hmem hmem' hsame]
  · intro slot hlinked
    rw [Set.mem_ofPred_eq, hrep.linkedSlots_perm.mem_iff, List.mem_map] at hlinked
    obtain ⟨resting, hmem, rfl⟩ := hlinked
    have hentry := (entry_iff hrep.directory).mpr (hlisted.found resting hmem)
    exact ⟨resting.order.ref, Exists.intro _ hentry, hslot resting hmem⟩

/-- In every run with fresh references and room for the live orders, the order map
is after every message a bijection between its keys and the linked slots, every
resting order is found under its own reference in its own book and slot, and no
order that left is found. -/
theorem orderMap_bijective (hfresh : FreshRefs (stream.map Delivery.decoded))
    (hlive : LiveBelow stream) :
    ∀ past, past <+: stream → ∃ engine trace, Reached past engine trace ∧
      (∀ ref location, engine.Entry ref location ↔
        engine.orderMap.find .identity ref = some (some location)) ∧
      Set.BijOn engine.slotOf {ref | ∃ location, engine.Entry ref location}
        {slot | slot ∈ engine.linkedSlots} ∧
      (∀ locate, ∀ slot ∈ engine.bookSlots locate,
        engine.orderMap.find .identity (engine.order slot).ref =
          some (some { stockLocate := locate, poolIdx := slot })) ∧
      ∀ transition ∈ trace, ∀ ref ∈ transition.departed,
        engine.orderMap.find .identity ref = some none := by
  intro past hpast
  have hfresh := hfresh.of_prefix (hpast.map Delivery.decoded)
  have hlive := hlive.of_prefix hpast
  obtain ⟨engine, market, trace, hrun⟩ := hlive.exists_jointRun
  have hrep := hrun.represents
  have hlisted := hrun.listed hfresh
  have hroom := hrep.entries_lt (hrun.length_live_lt hlive)
  have hfind := hrep.directory.find (hrep.free hroom)
  refine ⟨engine, trace, hrun.reached, ?_, hrep.bijOn_slotOf hroom hlisted, ?_, ?_⟩
  · intro ref location
    rw [entry_iff hrep.directory, hfind, Option.some.injEq]
  · intro locate slot hslot
    obtain ⟨resting, hmem, rfl, rfl⟩ := hrep.mem_bookSlots.mp hslot
    rw [hrep.order_slot hmem, hfind, hlisted.found resting hmem]
  · intro transition htransition ref href
    rw [hfind, (hrun.departed_gone hfresh hlive transition htransition ref href).1]

/-- The bound can be checked on the markets of the run. -/
theorem liveBelow_of_live_lt (hlive : ∀ past, past <+: stream → ∀ engine market trace,
    JointRun past engine market trace → market.live.length < 2 ^ mapBits) :
    LiveBelow stream := by
  intro past hpast engine trace hreached
  obtain ⟨engine', market, trace', hrun, _⟩ := exists_jointRun_of_live_lt
    fun earlier hearlier => hlive earlier (hearlier.trans hpast)
  obtain ⟨rfl, rfl⟩ := hreached.unique hrun.reached
  rw [hrun.represents.linkedSlots_perm.length_eq, List.length_map]
  exact hlive past hpast engine market trace hrun

/-- A short stream keeps below the bound. -/
theorem liveBelow_of_length_lt (hlength : stream.length < 2 ^ mapBits) : LiveBelow stream :=
  liveBelow_of_live_lt fun _ hpast _ _ _ hrun =>
    Nat.lt_of_le_of_lt (hrun.length_live_le.trans hpast.length_le) hlength

/-- Messages with fresh references: two orders rest, one is reduced and then
replaced by one that fills the other, and what is left of it is deleted. -/
def freshMessages : List ItchMessage :=
  [.add 1 ⟨0, 7, 5, 1000000, buyByte⟩, .add 1 ⟨0, 8, 9, 1000050, sellByte⟩,
    .executed ⟨8, 2⟩, .add 3 ⟨0, 7, 1, 5, 0⟩, .replace ⟨8, 9, 6, 1000000⟩, .delete ⟨0, 9⟩]

/-- The same messages on the wire. -/
def freshStream : List Delivery := freshMessages.map Delivery.of

theorem decoded_freshStream : freshStream.map Delivery.decoded = freshMessages :=
  Delivery.map_decoded_of freshMessages

theorem freshRefs_freshStream : FreshRefs (freshStream.map Delivery.decoded) := by
  rw [decoded_freshStream]
  exact .of_notMem (by decide) (by decide)

theorem orderMap_bijective_freshStream :
    ∃ engine trace, Reached freshStream engine trace ∧
      ∀ locate, ∀ slot ∈ engine.bookSlots locate,
        engine.orderMap.find .identity (engine.order slot).ref =
          some (some { stockLocate := locate, poolIdx := slot }) := by
  obtain ⟨engine, trace, hreached, _, _, hfound, _⟩ :=
    orderMap_bijective freshRefs_freshStream (liveBelow_of_length_lt (by decide)) freshStream
      (List.prefix_refl _)
  exact ⟨engine, trace, hreached, hfound⟩

end MatchingEngine

end Orderbook
