/-
# The engine refines the exchange

With fresh references slots carry no information: forgetting them, and reading
prices and quantities as natural numbers, turns a market into an exchange and
every step of the market into a step of the exchange. Over whole runs the engine
therefore reports what the exchange reports, and its books hold what the exchange
holds.
-/

import Orderbook.Engine.Exchange
import Orderbook.Engine.Reachability

namespace Orderbook

open Orderbook.Math

/-- The direction of an order. -/
def Order.side (order : Order) : Side := if order.isBuy then .buy else .sell

theorem Side.ofByte_of_valid {order : Order} (hside : ValidSide order.buySellIndicator) :
    Side.ofByte order.buySellIndicator = some order.side := by
  unfold Side.ofByte Order.side Order.isBuy
  rcases hside with hbuy | hsell
  · simp [hbuy]
  · simp [hsell, show sellByte ≠ buyByte by decide]

theorem Side.ofByte_of_not_valid {side : UInt8} (hside : ¬ ValidSide side) :
    Side.ofByte side = none := by
  unfold Side.ofByte
  rw [if_neg fun h => hside (.inl h), if_neg fun h => hside (.inr h)]

/-- An order of a book as the exchange sees it. -/
def Order.onExchange (locate : UInt16) (order : Order) : ExchangeOrder where
  locate
  ref := order.ref
  side := order.side
  price := order.price.toNat
  shares := order.shares.toNat

/-- A resting order without its slot. -/
def Resting.forget (resting : Resting) : ExchangeOrder :=
  resting.order.onExchange resting.locate

/-- The report of a match in the market. -/
def Report.ofMatch (fills : List Fill) : Report :=
  .ofFills (fills.map fun fill => (fill.1.forget, fill.2))

theorem Resting.forget_reduce {amount : ℕ} {resting : Resting}
    (hamount : amount ≤ resting.order.shares.toNat) :
    (resting.reduce amount).forget =
      { resting.forget with shares := resting.forget.shares - amount } := by
  have hquantity := (Market.proper_rules 0 resting.order).quantity amount resting hamount
  change (⟨_, _, _, _, (resting.reduce amount).order.shares.toNat⟩ : ExchangeOrder) = _
  exact congrArg (ExchangeOrder.mk _ _ _ _) hquantity

theorem Order.side_ne_iff {first second : Order} :
    first.side ≠ second.side ↔ first.isBuy = !second.isBuy := by
  unfold Order.side
  cases first.isBuy <;> cases second.isBuy <;> simp

/-- The exchange matches by the rules of the market. -/
theorem Resting.simulates (locate : UInt16) (order : Order) :
    (Resting.rules locate order).Simulates (order.onExchange locate).rules Resting.forget where
  eligible resting := by
    have hcrosses : order.side.crosses order.price.toNat resting.order.price.toNat =
        order.crosses resting.order.price := by
      unfold Order.side Order.crosses Side.crosses
      cases order.isBuy <;> simp [UInt32.le_iff_toNat_le]
    have hside := @Order.side_ne_iff resting.order order
    apply Bool.decide_congr
    change resting.locate = locate ∧ resting.order.side ≠ order.side ∧
      order.side.crosses order.price.toNat resting.order.price.toNat = true ↔ _
    rw [hcrosses, hside]
  ahead first second := by
    change order.side.prefers first.order.price.toNat second.order.price.toNat =
      decide (LadderSide.Ahead (!order.isBuy) first.order.price second.order.price)
    unfold Order.side Side.prefers LadderSide.Ahead
    cases order.isBuy <;> simp [UInt32.le_iff_toNat_le]
  quantity _ := rfl
  reduce _ _ hamount := Resting.forget_reduce hamount

namespace Market

variable {market : Market} {seen : List UInt64}

/-- The market without slots and directory. -/
def toExchange (market : Market) : Exchange where
  orders := market.live.map Resting.forget

theorem Listed.distinct_toExchange (hlisted : market.Listed seen) (hsound : market.Sound) :
    market.toExchange.Distinct := by
  unfold Exchange.Distinct toExchange
  rw [List.map_map]
  exact hlisted.nodup_refs hsound

theorem Listed.matched_toExchange (hlisted : market.Listed seen) (hsound : market.Sound)
    (locate : UInt16) (order : Order) :
    market.toExchange.matched (order.onExchange locate) =
      (market.matched locate order).map Resting.forget := by
  have hslots : (Resting.rules locate order).Distinct
      ({ items := market.live, demand := order.shares.toNat } : Sweep Resting).items :=
    hsound.slots
  exact (Resting.simulates locate order).sweep (proper_rules locate order)
    (ExchangeOrder.proper_rules _) hslots (hlisted.distinct_toExchange hsound)

theorem demand_lt (market : Market) (locate : UInt16) (order : Order) :
    (market.matched locate order).demand < 2 ^ 32 := by
  have hle : (market.matched locate order).demand ≤ order.shares.toNat := Rules.demand_sweep_le _
  exact Nat.lt_of_le_of_lt hle order.shares.toNat_lt

theorem Listed.submit_toExchange (hlisted : market.Listed seen) (hsound : market.Sound)
    (slot : UInt32) (locate : UInt16) (order : Order) :
    market.toExchange.submit (order.onExchange locate) =
      (market.submit slot locate order).toExchange := by
  have hmatched := hlisted.matched_toExchange hsound locate order
  unfold Exchange.submit toExchange
  rw [Exchange.mk.injEq]
  change (if (market.toExchange.matched (order.onExchange locate)).demand = 0 then _ else _) =
    (rested slot locate order (market.matched locate order)).map Resting.forget
  change (if (market.toExchange.matched (order.onExchange locate)).demand = 0 then
      (market.toExchange.matched (order.onExchange locate)).items
    else (market.toExchange.matched (order.onExchange locate)).items ++
      [{ order.onExchange locate with
        shares := (market.toExchange.matched (order.onExchange locate)).demand }]) = _
  rw [hmatched]
  unfold rested Sweep.map
  dsimp only
  split
  · rfl
  · rw [List.map_append, List.map_singleton]
    congr 2
    have hdemand := UInt32.toNat_ofNat_of_lt' (market.demand_lt locate order)
    exact (congrArg (ExchangeOrder.mk _ _ _ _) hdemand).symm

/-- The exchange finds by reference what the directory leads to. -/
theorem Listed.find_toExchange (hlisted : market.Listed seen) (hsound : market.Sound)
    (ref : UInt64) : market.toExchange.find ref = (market.lookup ref).map Resting.forget := by
  unfold Exchange.find toExchange
  rw [List.find?_map]
  congr 1
  cases hlookup : market.lookup ref with
  | none =>
      rw [List.find?_eq_none]
      intro resting hmem hsame
      obtain rfl : resting.order.ref = ref := of_decide_eq_true hsame
      obtain ⟨other, _, hfound, _⟩ := hsound.lookup (hlisted.found resting hmem)
      rw [hlookup] at hfound
      cases hfound
  | some resting =>
      obtain ⟨hmem, href, _⟩ := hsound.of_lookup hlookup
      cases hfind : market.live.find? _ with
      | none => exact absurd (decide_eq_true href) (List.find?_eq_none.mp hfind resting hmem)
      | some other =>
          have hfound := List.find?_some hfind
          have hother : other.order.ref = ref := of_decide_eq_true hfound
          rw [hlisted.eq_of_ref hsound (List.mem_of_find?_eq_some hfind) hmem
            (hother.trans href.symm)]

/-- Slot and reference single out the same live order. -/
theorem Listed.slot_eq_iff (hlisted : market.Listed seen) (hsound : market.Sound)
    {resting other : Resting} (hmem : resting ∈ market.live) (hother : other ∈ market.live) :
    other.slot = resting.slot ↔ other.order.ref = resting.order.ref := by
  constructor
  · intro hslot
    rw [List.inj_on_of_nodup_map hsound.slots hother hmem hslot]
  · intro href
    rw [hlisted.eq_of_ref hsound hother hmem href]

theorem Listed.remove_toExchange (hlisted : market.Listed seen) (hsound : market.Sound)
    {resting : Resting} {ref : UInt64} (hlookup : market.lookup ref = some resting) :
    market.toExchange.remove ref = (market.withdraw ref resting.slot).toExchange := by
  obtain ⟨hmem, rfl, _⟩ := hsound.of_lookup hlookup
  unfold Exchange.remove toExchange
  rw [Exchange.mk.injEq, List.filter_map]
  change _ = (market.live.filter fun other => other.slot ≠ resting.slot).map Resting.forget
  congr 1
  apply List.filter_congr
  intro other hother
  apply Bool.decide_congr
  exact (hlisted.slot_eq_iff hsound hmem hother).not.symm

theorem Listed.subtract_toExchange (hlisted : market.Listed seen) (hsound : market.Sound)
    {resting : Resting} {ref : UInt64} (hlookup : market.lookup ref = some resting) {amount : ℕ}
    (hamount : amount ≤ resting.order.shares.toNat) :
    market.toExchange.subtract ref amount =
      toExchange { market with live := reduceSlot resting.slot amount market.live } := by
  obtain ⟨hmem, rfl, _⟩ := hsound.of_lookup hlookup
  unfold Exchange.subtract toExchange reduceSlot
  rw [Exchange.mk.injEq, List.map_map, List.map_map]
  apply List.map_congr_left
  intro other hother
  have hsame := hlisted.slot_eq_iff hsound hmem hother
  rw [Function.comp_apply, Function.comp_apply]
  by_cases hslot : other.slot = resting.slot
  · rw [if_pos hslot, if_pos (show other.forget.ref = _ from hsame.mp hslot)]
    obtain rfl := List.inj_on_of_nodup_map hsound.slots hother hmem hslot
    exact (Resting.forget_reduce hamount).symm
  · rw [if_neg hslot, if_neg (show ¬ other.forget.ref = _ from fun h => hslot (hsame.mpr h))]

/-- One step of the market is one step of the exchange. -/
theorem Listed.step_toExchange (hlisted : market.Listed seen) (hsound : market.Sound)
    (slot : UInt32) (message : ItchMessage) :
    market.toExchange.step message =
      ((market.step slot message).1.toExchange,
        (market.step slot message).2.map Report.ofMatch) := by
  have hfind := hlisted.find_toExchange hsound
  have hchange := market.step_change slot message
  generalize market.step slot message = result at hchange ⊢
  cases hchange with
  | idle hidle =>
      cases message with
      | add locate order => simp [Exchange.step, Side.ofByte_of_not_valid hidle]
      | delete message => simp [Exchange.step, hfind, show market.lookup _ = none from hidle]
      | executed message => simp [Exchange.step, hfind, show market.lookup _ = none from hidle]
      | replace message => simp [Exchange.step, hfind, show market.lookup _ = none from hidle]
      | ignored => rfl
  | submitted locate order hside =>
      simp only [Exchange.step, Side.ofByte_of_valid hside, Option.map_some]
      change (market.toExchange.submit (order.onExchange locate),
        some (Report.ofFills (market.toExchange.matched (order.onExchange locate)).fills)) = _
      rw [hlisted.submit_toExchange hsound slot, hlisted.matched_toExchange hsound]
      rfl
  | withdrawn hlookup hmessage =>
      cases message with
      | delete message =>
          obtain rfl := hmessage
          simp only [Exchange.step, hfind, hlookup, Option.map_some, Option.map_none]
          rw [hlisted.remove_toExchange hsound hlookup]
      | executed message =>
          obtain ⟨rfl, hshares⟩ := hmessage
          simp only [Exchange.step, hfind, hlookup, Option.map_some, Option.map_none]
          split
          · rw [hlisted.remove_toExchange hsound hlookup]
          · rename_i hless
            exact absurd (UInt32.le_iff_toNat_le.mp hshares) hless
      | _ => cases hmessage
  | reduced message hlookup hless =>
      have hlt := UInt32.lt_iff_toNat_lt.mp hless
      simp only [Exchange.step, hfind, hlookup, Option.map_some, Option.map_none]
      split
      · rename_i hshares
        exact absurd hshares (Nat.not_le.mpr hlt)
      · rw [hlisted.subtract_toExchange hsound hlookup hlt.le]
  | replaced message hlookup =>
      obtain ⟨hmem, href, _⟩ := hsound.of_lookup hlookup
      have horder : ∀ original : Resting, Exchange.replacement message original.forget =
          (MatchingEngine.replacementOrder message
            original.order.buySellIndicator).onExchange original.locate := by
        intro original
        have hnew : (MatchingEngine.replacementOrder message
            original.order.buySellIndicator).ref = message.newOrderRef := joinRef_split _
        unfold Order.onExchange
        rw [hnew]
        rfl
      have hlisted' := hlisted.withdraw hmem href
      have hsound' := hsound.withdraw hmem href
      simp only [Exchange.step, hfind, hlookup, Option.map_some]
      rw [hlisted.remove_toExchange hsound hlookup, horder,
        hlisted'.submit_toExchange hsound' slot, hlisted'.matched_toExchange hsound']
      rfl

end Market

/-! ## Runs -/

/-- The output buffers of a call as a report. -/
def EngineScratch.report (scratch : EngineScratch) : Report where
  executed := scratch.executedOrders.map fun record =>
    (record.order_reference_number, record.executed_shares.toNat)
  removed := scratch.removedRefs

/-- Whenever the exchange reports a match, the output buffers hold the report. -/
def Transition.Reports (transition : Transition) (report : Option Report) : Prop :=
  ∀ matched, report = some matched → transition.outcome.scratch.report = matched

/-- The buffers of a match hold its report. -/
theorem Market.report_matched (market : Market) (locate : UInt16) (order : Order) :
    EngineScratch.report
        { removedRefs := filledRefs (market.matched locate order).fills
          executedOrders := executedRecords (market.matched locate order).fills } =
      Report.ofMatch (market.matched locate order).fills := by
  unfold EngineScratch.report Report.ofMatch Report.ofFills filledRefs executedRecords
  rw [Report.mk.injEq, List.filter_map]
  simp only [List.map_map]
  refine ⟨List.map_congr_left fun fill hfill => ?_, rfl⟩
  exact congrArg (Prod.mk fill.1.order.ref) (executed_toNat hfill)

/-- The fills a step reports are those of a match. -/
theorem Market.exists_matched_of_step {market : Market} {slot : UInt32} {message : ItchMessage}
    {fills : List Fill} (hfills : (market.step slot message).2 = some fills) :
    ∃ (before : Market) (locate : UInt16) (order : Order),
      fills = (before.matched locate order).fills := by
  have hchange := market.step_change slot message
  generalize market.step slot message = result at hchange hfills
  cases hchange with
  | idle _ => cases hfills
  | submitted locate order _ => exact ⟨_, _, _, (Option.some.inj hfills).symm⟩
  | withdrawn _ _ => cases hfills
  | reduced _ _ _ => cases hfills
  | replaced _ _ => exact ⟨_, _, _, (Option.some.inj hfills).symm⟩

namespace MatchingEngine

variable {stream : List Delivery} {engine : MatchingEngine} {market : Market}
  {trace : List Transition}

/-- The call reports what the exchange reports. -/
theorem Processes.reports_exchange {message : ItchMessage} {outcome : Outcome}
    {seen : List UInt64} (hprocesses : engine.Processes market message outcome)
    (hlisted : market.Listed seen) (hsound : market.Sound) :
    Transition.Reports ⟨engine, message, outcome⟩ (market.toExchange.step message).2 := by
  intro matched hmatched
  rw [hlisted.step_toExchange hsound 0, Option.map_eq_some_iff] at hmatched
  obtain ⟨fills, hfills, rfl⟩ := hmatched
  obtain ⟨before, locate, order, rfl⟩ := Market.exists_matched_of_step hfills
  show outcome.scratch.report = _
  rw [hprocesses.reports 0 _ hfills, Market.report_matched]

/-- With fresh references the market of a run is the exchange after the messages
delivered. -/
theorem JointRun.toExchange_eq (hrun : JointRun stream engine market trace)
    (hfresh : FreshRefs (stream.map Delivery.decoded)) :
    market.toExchange = Exchange.after (stream.map Delivery.decoded) := by
  induction hrun with
  | start => rfl
  | step delivery slot outcome earlier _ _ _ ih =>
      rw [List.map_append, List.map_singleton] at hfresh ⊢
      have hfresh' := hfresh.of_prefix (List.prefix_append _ _)
      have hstep := (earlier.listed hfresh').step_toExchange earlier.represents.sound slot
        delivery.decoded
      rw [Exchange.after_snoc, ← ih hfresh', hstep]

/-- What every call has in common with the report of the exchange, all calls of a
run have in common with its reports. -/
theorem JointRun.forall₂_reports {related : Transition → Option Report → Prop}
    (hrelated : ∀ {engine market message outcome seen}, engine.Represents market →
      engine.entries < 2 ^ mapBits → market.Listed seen →
      engine.Processes market message outcome →
      related ⟨engine, message, outcome⟩ (market.toExchange.step message).2)
    (hrun : JointRun stream engine market trace)
    (hfresh : FreshRefs (stream.map Delivery.decoded)) (hlive : LiveBelow stream) :
    List.Forall₂ related trace (Exchange.reports (stream.map Delivery.decoded) {}) := by
  induction hrun with
  | start => exact .nil
  | step delivery slot outcome earlier _ processes _ ih =>
      have hlive' := hlive.of_prefix (List.prefix_append _ [delivery])
      rw [List.map_append, List.map_singleton] at hfresh ⊢
      have hfresh' := hfresh.of_prefix (List.prefix_append _ _)
      have hrep := earlier.represents
      have hlast := hrelated hrep (hrep.entries_lt (earlier.length_live_lt hlive'))
        (earlier.listed hfresh') processes
      rw [earlier.toExchange_eq hfresh'] at hlast
      rw [Exchange.reports_snoc]
      exact List.rel_append (ih hfresh' hlive') (.cons hlast .nil)

/-- The resting orders on one side of a book, level by level. -/
def book (engine : MatchingEngine) (locate : UInt16) (side : Side) : List ExchangeOrder :=
  (engine.sideSlots locate (side = .buy)).map fun slot => (engine.order slot).onExchange locate

/-- The resting orders at one price of a side, as they are linked. -/
def priceQueue (engine : MatchingEngine) (locate : UInt16) (side : Side) (price : UInt32) :
    List ExchangeOrder :=
  (engine.queue locate (side = .buy) price).map (Order.onExchange locate)

theorem isBuy_eq_iff {order : Order} {side : Side} :
    order.isBuy = decide (side = .buy) ↔ order.side = side := by
  unfold Order.side
  cases side <;> cases order.isBuy <;> simp

/-- The chains of a book hold the orders the exchange holds. -/
theorem Represents.book_perm (hrep : engine.Represents market) (locate : UInt16) (side : Side) :
    (engine.book locate side).Perm (market.toExchange.book locate side) := by
  have hslots := (hrep.books.linked locate (side = .buy)).linkedSlots_perm
  have hside : market.toExchange.book locate side =
      ((sideOrders locate (side = .buy) market.live).map Prod.snd).map fun slot =>
        (engine.order slot).onExchange locate := by
    unfold Exchange.book Market.toExchange sideOrders
    rw [List.filter_map, List.map_map, List.map_map]
    have hfilter : market.live.filter ((fun order : ExchangeOrder =>
        decide (order.locate = locate ∧ order.side = side)) ∘ Resting.forget) =
          market.live.filter fun resting =>
            resting.locate = locate ∧ resting.order.isBuy = decide (side = .buy) := by
      apply List.filter_congr
      intro resting _
      apply Bool.decide_congr
      rw [isBuy_eq_iff]
      rfl
    rw [hfilter]
    apply List.map_congr_left
    intro resting hmem
    obtain ⟨hmem, hhere⟩ := List.mem_filter.mp hmem
    show _ = (engine.order resting.slot).onExchange locate
    rw [hrep.order_slot hmem, ← (of_decide_eq_true hhere).1]
    rfl
  rw [hside]
  exact hslots.map _

/-- Every price has the queue it has on the exchange. -/
theorem Represents.priceQueue_eq (hrep : engine.Represents market) (locate : UInt16)
    (side : Side) (price : UInt32) :
    engine.priceQueue locate side price =
      market.toExchange.queue locate side price.toNat := by
  unfold priceQueue Exchange.queue Exchange.book Market.toExchange
  rw [hrep.queue_eq, List.filter_filter, List.filter_map, List.map_map]
  have hfilter : market.live.filter ((fun order : ExchangeOrder =>
      decide (order.price = price.toNat) &&
        decide (order.locate = locate ∧ order.side = side)) ∘ Resting.forget) =
        market.live.filter fun resting => resting.locate = locate ∧
          resting.order.isBuy = decide (side = .buy) ∧ resting.order.price = price := by
    apply List.filter_congr
    intro resting _
    rw [Function.comp_apply, ← Bool.decide_and]
    apply Bool.decide_congr
    change resting.order.price.toNat = price.toNat ∧ resting.locate = locate ∧
      resting.order.side = side ↔ _
    rw [UInt32.toNat_inj, isBuy_eq_iff, and_comm, and_assoc]
  rw [hfilter]
  apply List.map_congr_left
  intro resting hmem
  have hhere := of_decide_eq_true (List.mem_filter.mp hmem).2
  rw [Function.comp_apply, ← hhere.1]
  rfl

/-- In every run with fresh references and room for the live orders, the engine
reports what the exchange reports, and after every message its books hold what the
exchange holds, every price in the same order of arrival. -/
theorem refines_exchange (hfresh : FreshRefs (stream.map Delivery.decoded))
    (hlive : LiveBelow stream) :
    ∀ past, past <+: stream → ∃ engine trace, Reached past engine trace ∧
      List.Forall₂ Transition.Reports trace
        (Exchange.reports (past.map Delivery.decoded) {}) ∧
      ∀ locate side,
        (engine.book locate side).Perm
          ((Exchange.after (past.map Delivery.decoded)).book locate side) ∧
        ∀ price : UInt32, engine.priceQueue locate side price =
          (Exchange.after (past.map Delivery.decoded)).queue locate side price.toNat := by
  intro past hpast
  have hfresh := hfresh.of_prefix (hpast.map Delivery.decoded)
  have hlive := hlive.of_prefix hpast
  obtain ⟨engine, market, trace, hrun⟩ := hlive.exists_jointRun
  have hreports := hrun.forall₂_reports (fun hrep _ hlisted hprocesses =>
    hprocesses.reports_exchange hlisted hrep.sound) hfresh hlive
  refine ⟨engine, trace, hrun.reached, hreports, fun locate side => ?_⟩
  rw [← hrun.toExchange_eq hfresh]
  exact ⟨hrun.represents.book_perm locate side, hrun.represents.priceQueue_eq locate side⟩

theorem refines_exchange_freshStream :
    ∃ engine trace, Reached freshStream engine trace ∧
      List.Forall₂ Transition.Reports trace (Exchange.reports freshMessages {}) ∧
      ∀ price : UInt32, engine.priceQueue 1 .sell price =
        (Exchange.after freshMessages).queue 1 .sell price.toNat := by
  have hrefines := refines_exchange freshRefs_freshStream
    (liveBelow_of_length_lt (by decide)) freshStream (List.prefix_refl _)
  rw [decoded_freshStream] at hrefines
  obtain ⟨engine, trace, hreached, hreports, hbooks⟩ := hrefines
  exact ⟨engine, trace, hreached, hreports, (hbooks 1 .sell).2⟩

end MatchingEngine

end Orderbook
