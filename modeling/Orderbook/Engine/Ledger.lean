/-
# Where the shares of an order go

Every share that is submitted under a reference is accounted for: it still rests,
it was executed while its order was incoming or while it was resting, or it was
withdrawn. The ledger is kept from what a caller can see of a run, the messages,
the output buffers and the orders in the engine's memory.

The balance of one message is proved on the exchange and carried to the engine.
-/

import Orderbook.Engine.Refinement

namespace Orderbook

open Orderbook.Math

/-- What one message does to the account of a reference. -/
structure Posting where
  submitted : ℕ := 0
  incoming : ℕ := 0
  resting : ℕ := 0
  withdrawn : ℕ := 0
  deriving DecidableEq, Repr

/-- The shares executed in a match. -/
def Report.total (report : Report) : ℕ := (report.executed.map Prod.snd).sum

/-- The shares executed against a resting order. -/
def Report.against (report : Report) (ref : UInt64) : ℕ :=
  ((report.executed.filter fun record => record.1 = ref).map Prod.snd).sum

/-- The posting of an order that is submitted and matched. -/
def Posting.ofMatch (order : UInt64) (shares : ℕ) (report : Report) (ref : UInt64) : Posting where
  submitted := if order = ref then shares else 0
  incoming := if order = ref then report.total else 0
  resting := report.against ref

/-- The posting of a message, given the remaining shares of the orders that can be
found and the report of the match if there is one. -/
def ItchMessage.posting (remaining : UInt64 → Option ℕ) (report : Report) (ref : UInt64) :
    ItchMessage → Posting
  | .add _ order =>
      if ValidSide order.buySellIndicator then
        .ofMatch order.ref order.shares.toNat report ref
      else {}
  | .delete message =>
      let target := joinRef message.orderReferenceNumberHigh message.orderReferenceNumberLow
      { withdrawn := if target = ref then (remaining ref).getD 0 else 0 }
  | .executed message =>
      { withdrawn :=
          if message.orderRef = ref then min message.shares.toNat ((remaining ref).getD 0)
          else 0 }
  | .replace message =>
      match remaining message.originalOrderRef with
      | none => {}
      | some shares =>
          { Posting.ofMatch message.newOrderRef message.shares.toNat report ref with
            withdrawn := if message.originalOrderRef = ref then shares else 0 }
  | .ignored => {}

/-- The account of a reference before and after a posting. -/
def Posting.Balances (posting : Posting) (before after : ℕ) : Prop :=
  before + posting.submitted =
    after + posting.incoming + posting.resting + posting.withdrawn

/-- Shares that are withdrawn first. -/
theorem Posting.Balances.withdraw {posting : Posting} {before between after amount : ℕ}
    (hbalances : posting.Balances between after) (hnone : posting.withdrawn = 0)
    (hbefore : before = between + amount) :
    Posting.Balances { posting with withdrawn := amount } before after := by
  unfold Posting.Balances at *
  dsimp only
  omega

/-- Postings add up. -/
theorem Posting.Balances.add {first second : Posting} {before between after : ℕ}
    (hfirst : first.Balances before between) (hsecond : second.Balances between after) :
    Posting.Balances
      { submitted := first.submitted + second.submitted
        incoming := first.incoming + second.incoming
        resting := first.resting + second.resting
        withdrawn := first.withdrawn + second.withdrawn } before after := by
  unfold Posting.Balances at *
  dsimp only
  omega

theorem Posting.balances_withdrawn {before after amount : ℕ} (hbefore : before = after + amount) :
    Posting.Balances { withdrawn := amount } before after := by
  have hidle : Posting.Balances {} after after := rfl
  exact hidle.withdraw rfl hbefore

namespace Exchange

variable {exchange : Exchange}

/-- The shares resting under a reference. -/
def sharesOf (exchange : Exchange) (ref : UInt64) : ℕ :=
  ((exchange.orders.filter fun order => order.ref = ref).map ExchangeOrder.shares).sum

/-- The remaining shares of the order with a reference. -/
def remaining (exchange : Exchange) (ref : UInt64) : Option ℕ :=
  (exchange.find ref).map ExchangeOrder.shares

theorem sharesOf_of_mem (hdistinct : exchange.Distinct) {order : ExchangeOrder}
    (hmem : order ∈ exchange.orders) : exchange.sharesOf order.ref = order.shares := by
  have hrules : order.rules.Distinct exchange.orders := hdistinct
  exact Rules.held_of_mem hrules hmem

theorem sharesOf_of_find (hdistinct : exchange.Distinct) {ref : UInt64} {order : ExchangeOrder}
    (hfind : exchange.find ref = some order) : exchange.sharesOf ref = order.shares := by
  obtain ⟨hmem, rfl⟩ := mem_of_find hfind
  exact sharesOf_of_mem hdistinct hmem

theorem sharesOf_of_find_eq_none {ref : UInt64} (hfind : exchange.find ref = none) :
    exchange.sharesOf ref = 0 := by
  unfold sharesOf
  rw [List.filter_eq_nil_iff.mpr]
  · rfl
  · exact List.find?_eq_none.mp hfind

theorem sharesOf_submit (order : ExchangeOrder) (ref : UInt64) :
    (exchange.submit order).sharesOf ref =
      order.rules.held ref (exchange.matched order).items +
        if order.ref = ref then (exchange.matched order).demand else 0 := by
  unfold submit sharesOf Rules.held
  dsimp only
  by_cases hdemand : (exchange.matched order).demand = 0
  · rw [if_pos hdemand, hdemand, ite_self, Nat.add_zero]
    rfl
  · rw [if_neg hdemand, List.filter_append, List.map_append, List.sum_append]
    congr 1
    by_cases href : order.ref = ref
    · simp [href]
    · simp [href]

theorem total_ofFills (fills : List (ExchangeOrder × ℕ)) :
    (Report.ofFills fills).total = (fills.map Prod.snd).sum := by
  unfold Report.total Report.ofFills
  rw [List.map_map]
  rfl

theorem against_ofFills (order : ExchangeOrder) (fills : List (ExchangeOrder × ℕ))
    (ref : UInt64) : (Report.ofFills fills).against ref = order.rules.taken ref fills := by
  unfold Report.against Report.ofFills Rules.taken
  rw [List.filter_map, List.map_map]
  rfl

/-- The order that is found holds all shares under its reference. -/
theorem remaining_getD (hdistinct : exchange.Distinct) (ref : UInt64) :
    (exchange.remaining ref).getD 0 = exchange.sharesOf ref := by
  unfold remaining
  cases hfind : exchange.find ref with
  | none => exact (sharesOf_of_find_eq_none hfind).symm
  | some order => exact (sharesOf_of_find hdistinct hfind).symm

/-- A submission takes shares from resting orders and rests the remainder. -/
theorem balances_submit (hdistinct : exchange.Distinct) (order : ExchangeOrder) (ref : UInt64) :
    (Posting.ofMatch order.ref order.shares (.ofFills (exchange.matched order).fills) ref).Balances
      (exchange.sharesOf ref) ((exchange.submit order).sharesOf ref) := by
  have hrules : order.rules.Distinct
      ({ items := exchange.orders, demand := order.shares } : Sweep ExchangeOrder).items :=
    hdistinct
  have hheld : order.rules.held ref (exchange.matched order).items +
      order.rules.taken ref (exchange.matched order).fills = exchange.sharesOf ref :=
    Rules.held_add_taken_sweep order.proper_rules hrules ref
  have hdemand : (exchange.matched order).demand +
      ((exchange.matched order).fills.map Prod.snd).sum = order.shares :=
    Rules.demand_add_fills_sweep _
  unfold Posting.Balances Posting.ofMatch
  dsimp only
  rw [sharesOf_submit, total_ofFills, against_ofFills order, ← hheld, ← hdemand]
  by_cases href : order.ref = ref
  · simp only [if_pos href]
    ring
  · simp only [if_neg href]
    ring

/-- Taking an order out withdraws what is left of it. -/
theorem sharesOf_remove (exchange : Exchange) (target ref : UInt64) :
    exchange.sharesOf ref =
      (exchange.remove target).sharesOf ref +
        if target = ref then exchange.sharesOf ref else 0 := by
  by_cases href : target = ref
  · subst href
    have hgone : (exchange.remove target).sharesOf target = 0 :=
      sharesOf_of_find_eq_none (by simp [find, remove, List.find?_eq_none])
    rw [hgone, if_pos rfl, Nat.zero_add]
  · rw [if_neg href, Nat.add_zero]
    unfold sharesOf remove
    rw [List.filter_filter]
    congr 2
    apply List.filter_congr
    intro other _
    by_cases hother : other.ref = ref
    · simp [hother, Ne.symm href]
    · simp [hother]

/-- Taking shares from an order withdraws them. -/
theorem sharesOf_subtract (hdistinct : exchange.Distinct) {target : UInt64}
    {order : ExchangeOrder} (hfind : exchange.find target = some order) {amount : ℕ}
    (hamount : amount ≤ order.shares) (ref : UInt64) :
    exchange.sharesOf ref =
      (exchange.subtract target amount).sharesOf ref + if target = ref then amount else 0 := by
  obtain ⟨hmem, rfl⟩ := mem_of_find hfind
  by_cases href : order.ref = ref
  · subst href
    have hleft : { order with shares := order.shares - amount } ∈
        (exchange.subtract order.ref amount).orders :=
      List.mem_map.mpr ⟨order, hmem, if_pos rfl⟩
    have hshares := sharesOf_of_mem (hdistinct.subtract order.ref amount) hleft
    rw [sharesOf_of_mem hdistinct hmem, hshares, if_pos rfl]
    exact (Nat.sub_add_cancel hamount).symm
  · have hother : order.rules.held ref (order.rules.take order amount exchange.orders) =
        order.rules.held ref exchange.orders := Rules.held_take order.proper_rules (Ne.symm href)
    rw [if_neg href, Nat.add_zero]
    exact hother.symm

/-- An execution withdraws its shares, or as many as the order has. -/
theorem sharesOf_executed (hdistinct : exchange.Distinct) (target : UInt64) (amount : ℕ)
    (ref : UInt64) :
    exchange.sharesOf ref =
      (match exchange.find target with
        | none => (exchange, (none : Option Report))
        | some order =>
            if order.shares ≤ amount then (exchange.remove target, none)
            else (exchange.subtract target amount, none)).1.sharesOf ref +
        if target = ref then min amount (exchange.sharesOf ref) else 0 := by
  cases hfind : exchange.find target with
  | none =>
      by_cases href : target = ref
      · rw [if_pos href, ← href, sharesOf_of_find_eq_none hfind, Nat.min_zero]
      · rw [if_neg href, Nat.add_zero]
  | some order =>
      have hshares := sharesOf_of_find hdistinct hfind
      dsimp only
      split
      · rename_i hall
        have hremove := exchange.sharesOf_remove target ref
        by_cases href : target = ref
        · subst href
          rw [if_pos rfl] at hremove ⊢
          rwa [hshares, Nat.min_eq_right hall, ← hshares]
        · rw [if_neg href] at hremove ⊢
          exact hremove
      · rename_i hpart
        have hless := Nat.le_of_not_le hpart
        have hsubtract := sharesOf_subtract hdistinct hfind hless ref
        by_cases href : target = ref
        · subst href
          rw [if_pos rfl] at hsubtract ⊢
          rwa [hshares, Nat.min_eq_left hless, ← hshares]
        · rw [if_neg href] at hsubtract ⊢
          exact hsubtract

/-- Every message balances, provided that the report is the one of the match. -/
theorem balances_step (hdistinct : exchange.Distinct) {message : ItchMessage} {report : Report}
    (hreport : ∀ matched, (exchange.step message).2 = some matched → report = matched)
    (ref : UInt64) :
    (message.posting exchange.remaining report ref).Balances
      (exchange.sharesOf ref) ((exchange.step message).1.sharesOf ref) := by
  have hidle : Posting.Balances {} (exchange.sharesOf ref) (exchange.sharesOf ref) := rfl
  have hremaining := remaining_getD hdistinct
  have hunknown : ∀ {target}, exchange.find target = none → exchange.sharesOf ref =
      exchange.sharesOf ref + if target = ref then exchange.sharesOf ref else 0 := by
    intro target hfind
    by_cases href : target = ref
    · rw [if_pos href, ← href, sharesOf_of_find_eq_none hfind]
    · rw [if_neg href, Nat.add_zero]
  cases message with
  | add locate order =>
      by_cases hside : ValidSide order.buySellIndicator
      · have hbyte := Side.ofByte_of_valid hside
        simp only [step, hbyte, Option.some.injEq] at hreport ⊢
        rw [ItchMessage.posting, if_pos hside, hreport _ rfl]
        exact balances_submit hdistinct (added locate order order.side) ref
      · have hbyte := Side.ofByte_of_not_valid hside
        simp only [step, hbyte]
        rw [ItchMessage.posting, if_neg hside]
        exact hidle
  | delete message =>
      simp only [step, ItchMessage.posting, hremaining]
      generalize joinRef message.orderReferenceNumberHigh message.orderReferenceNumberLow =
        target
      apply Posting.balances_withdrawn
      cases hfind : exchange.find target with
      | none => exact hunknown hfind
      | some _ => exact exchange.sharesOf_remove target ref
  | executed message =>
      simp only [step, ItchMessage.posting, hremaining]
      apply Posting.balances_withdrawn
      exact sharesOf_executed hdistinct message.orderRef message.shares.toNat ref
  | replace message =>
      cases hfind : exchange.find message.originalOrderRef with
      | none =>
          simp only [step, ItchMessage.posting, remaining, hfind, Option.map_none]
          exact hidle
      | some original =>
          simp only [step, hfind, Option.some.injEq] at hreport ⊢
          simp only [ItchMessage.posting, remaining, hfind, Option.map_some]
          rw [hreport _ rfl]
          apply (balances_submit (hdistinct.remove message.originalOrderRef)
            (replacement message original) ref).withdraw rfl
          rw [← sharesOf_of_find hdistinct hfind]
          have hremove := exchange.sharesOf_remove message.originalOrderRef ref
          by_cases href : message.originalOrderRef = ref
          · simpa only [href] using hremove
          · simpa only [if_neg href] using hremove
  | ignored => exact hidle

end Exchange

/-! ## The ledger of a run -/

/-- The remaining shares of the order that the order map leads to. -/
def MatchingEngine.remaining (engine : MatchingEngine) (ref : UInt64) : Option ℕ :=
  (engine.locationOf ref).map fun location => (engine.order location.poolIdx).shares.toNat

/-- The shares of all linked orders with a reference. -/
def MatchingEngine.restingShares (engine : MatchingEngine) (ref : UInt64) : ℕ :=
  (((engine.linkedSlots.map engine.order).filter fun order => order.ref = ref).map
    fun order => order.shares.toNat).sum

/-- The posting of a call. -/
def Transition.posting (transition : Transition) (ref : UInt64) : Posting :=
  transition.message.posting transition.before.remaining transition.outcome.scratch.report ref

/-- The sums of the postings of a run. -/
def ledger (trace : List Transition) (ref : UInt64) : Posting where
  submitted := (trace.map fun transition => (transition.posting ref).submitted).sum
  incoming := (trace.map fun transition => (transition.posting ref).incoming).sum
  resting := (trace.map fun transition => (transition.posting ref).resting).sum
  withdrawn := (trace.map fun transition => (transition.posting ref).withdrawn).sum

theorem ledger_snoc (trace : List Transition) (transition : Transition) (ref : UInt64) :
    ledger (trace ++ [transition]) ref =
      { submitted := (ledger trace ref).submitted + (transition.posting ref).submitted
        incoming := (ledger trace ref).incoming + (transition.posting ref).incoming
        resting := (ledger trace ref).resting + (transition.posting ref).resting
        withdrawn := (ledger trace ref).withdrawn + (transition.posting ref).withdrawn } := by
  simp [ledger]

/-- The operands of the two subtractions on shares in one pass of the inner
matching loop. -/
def MatchState.subtractions (ptr : LevelPtr) (state : MatchState) : List (UInt32 × UInt32) :=
  let resting := (state.pool.node (state.levelAt ptr).head).order
  let executedShares := min state.order.shares resting.shares
  [(state.order.shares, executedShares), (resting.shares, executedShares)]

/-- The operands of the subtraction on shares when an order is executed or
cancelled in part. -/
def Transition.subtractions (transition : Transition) : List (UInt32 × UInt32) :=
  match transition.message with
  | .executed message =>
      match transition.before.locationOf message.orderRef with
      | none => []
      | some location =>
          let shares := (transition.before.order location.poolIdx).shares
          if message.shares ≥ shares then [] else [(shares, message.shares)]
  | _ => []

/-- A pass of the inner loop subtracts these: the first difference is left of the incoming
order, the second one of the head, which goes when nothing is left of it. -/
theorem MatchState.fillHead_subtracts {ptr : LevelPtr} {state : MatchState}
    (hidx : (state.levelAt ptr).head.toNat < state.pool.nodes.size) :
    ∃ left, (state.subtractions ptr).map (fun operands => operands.1 - operands.2) =
        [(state.fillHead ptr).order.shares, left] ∧
      if left = 0 then
        (state.fillHead ptr).removedRefs =
          state.removedRefs ++ [(state.pool.node (state.levelAt ptr).head).order.ref]
      else ((state.fillHead ptr).pool.node (state.levelAt ptr).head).order.shares = left := by
  set resting := (state.pool.node (state.levelAt ptr).head).order with hstored
  refine ⟨resting.shares - min state.order.shares resting.shares, ?_⟩
  split
  · rename_i hfilled
    rw [fillHead_of_filled rfl hidx hstored.symm rfl hfilled]
    exact ⟨rfl, rfl⟩
  · rename_i hopen
    rw [fillHead_of_open rfl hidx hstored.symm rfl hopen]
    exact ⟨rfl, shares_reduceNode hidx hstored.symm _⟩

/-- An execution in part subtracts these. -/
theorem Transition.executed_subtracts {before : MatchingEngine} {scratch : EngineScratch}
    {clock : Clock} {message : OrderExecutedMsg} {outcome : Outcome} {location : OrderLocation}
    {operands : UInt32 × UInt32}
    (happly : before.apply scratch clock (.executed message) = some outcome)
    (hlocation : before.locationOf message.orderRef = some location)
    (hmem : operands ∈ Transition.subtractions ⟨before, .executed message, outcome⟩) :
    (outcome.engine.order location.poolIdx).shares = operands.1 - operands.2 := by
  have hfind : before.orderMap.find .identity message.orderRef = some (some location) :=
    Option.join_eq_some_iff.mp hlocation
  unfold Transition.subtractions at hmem
  dsimp only at hmem
  rw [hlocation] at hmem
  dsimp only at hmem
  split at hmem
  · cases hmem
  · rename_i hless
    change ¬ (before.pool.node location.poolIdx).order.shares ≤ message.shares at hless
    obtain rfl := List.mem_singleton.mp hmem
    have hidx : location.poolIdx.toNat < before.pool.nodes.size := by
      by_contra hout
      have hnode : before.pool.node location.poolIdx = default := by
        rw [OrderPool.node, Array.getElem?_eq_none (Nat.le_of_not_lt hout)]
        rfl
      rw [hnode] at hless
      exact hless UInt32.zero_le
    change before.processExecuted scratch message = some outcome at happly
    rw [MatchingEngine.processExecuted, hfind, Option.bind_some] at happly
    dsimp only at happly
    rw [if_neg hless] at happly
    cases happly
    exact shares_reduceNode hidx rfl _

theorem MatchState.subtractions_exact (ptr : LevelPtr) (state : MatchState) :
    ∀ operands ∈ state.subtractions ptr, operands.2 ≤ operands.1 := by
  have hmin : ∀ a b : UInt32, min a b ≤ a ∧ min a b ≤ b := by
    intro a b
    change (if a ≤ b then a else b) ≤ a ∧ (if a ≤ b then a else b) ≤ b
    split
    · rename_i hle
      exact ⟨UInt32.le_refl a, hle⟩
    · rename_i hle
      exact ⟨UInt32.le_of_lt (UInt32.not_le.mp hle), UInt32.le_refl b⟩
  intro operands hmem
  simp only [MatchState.subtractions, List.mem_cons, List.not_mem_nil, or_false] at hmem
  rcases hmem with rfl | rfl
  · exact (hmin _ _).1
  · exact (hmin _ _).2

theorem Transition.subtractions_exact (transition : Transition) :
    ∀ operands ∈ transition.subtractions, operands.2 ≤ operands.1 := by
  intro operands hmem
  unfold Transition.subtractions at hmem
  split at hmem
  · split at hmem
    · cases hmem
    · dsimp only at hmem
      split at hmem
      · cases hmem
      · rename_i hless
        obtain rfl := List.mem_singleton.mp hmem
        exact UInt32.le_of_lt (UInt32.not_le.mp hless)
  · cases hmem

namespace MatchingEngine

variable {stream : List Delivery} {engine : MatchingEngine} {market : Market}
  {trace : List Transition}

theorem Represents.remaining_eq {seen : List UInt64} (hrep : engine.Represents market)
    (hroom : engine.entries < 2 ^ mapBits) (hlisted : market.Listed seen) :
    engine.remaining = market.toExchange.remaining := by
  funext ref
  unfold remaining Exchange.remaining
  rw [hlisted.find_toExchange hrep.sound]
  cases hlookup : market.lookup ref with
  | none => rw [hrep.locationOf_eq_none hroom hlookup, Option.map_none, Option.map_none,
      Option.map_none]
  | some resting =>
      obtain ⟨hlocation, horder⟩ := hrep.locationOf_eq_some hroom hlookup
      rw [hlocation, Option.map_some, Option.map_some, Option.map_some, horder]
      rfl

theorem Represents.restingShares_eq (hrep : engine.Represents market) (ref : UInt64) :
    engine.restingShares ref = market.toExchange.sharesOf ref := by
  have horders : (market.live.map Resting.slot).map engine.order =
      market.live.map Resting.order := by
    rw [List.map_map]
    exact List.map_congr_left fun resting hmem => hrep.order_slot hmem
  have hperm := hrep.linkedSlots_perm.map engine.order
  rw [horders] at hperm
  unfold restingShares Exchange.sharesOf Market.toExchange
  rw [((hperm.filter _).map _).sum_eq, List.filter_map, List.filter_map, List.map_map,
    List.map_map]
  rfl

/-- The ledger of a run balances. -/
theorem JointRun.ledger_balances (hrun : JointRun stream engine market trace)
    (hfresh : FreshRefs (stream.map Delivery.decoded)) (hlive : LiveBelow stream)
    (ref : UInt64) : (ledger trace ref).Balances 0 (market.toExchange.sharesOf ref) := by
  induction hrun with
  | start => rfl
  | step delivery slot outcome earlier _ processes _ ih =>
      have hlive' := hlive.of_prefix (List.prefix_append _ [delivery])
      rw [List.map_append, List.map_singleton] at hfresh
      have hfresh' := hfresh.of_prefix (List.prefix_append _ _)
      have hrep := earlier.represents
      have hlisted := earlier.listed hfresh'
      have hroom := hrep.entries_lt (earlier.length_live_lt hlive')
      have hstep := Exchange.balances_step (hlisted.distinct_toExchange hrep.sound)
        (processes.reports_exchange hlisted hrep.sound) ref
      rw [hlisted.step_toExchange hrep.sound slot, ← hrep.remaining_eq hroom hlisted] at hstep
      rw [ledger_snoc]
      exact (ih hfresh' hlive').add hstep

/-- In every run with fresh references and room for the live orders, the shares
submitted under a reference are after every message those still resting, those
executed on either side of a match and those withdrawn, and no subtraction on
shares wraps. -/
theorem shares_conserved (hfresh : FreshRefs (stream.map Delivery.decoded))
    (hlive : LiveBelow stream) :
    ∀ past, past <+: stream → ∃ engine trace, Reached past engine trace ∧
      (∀ ref, (ledger trace ref).submitted =
        engine.restingShares ref + (ledger trace ref).incoming + (ledger trace ref).resting +
          (ledger trace ref).withdrawn) ∧
      (∀ ptr state, ∀ operands ∈ MatchState.subtractions ptr state, operands.2 ≤ operands.1) ∧
      ∀ transition ∈ trace, ∀ operands ∈ transition.subtractions, operands.2 ≤ operands.1 := by
  intro past hpast
  have hfresh := hfresh.of_prefix (hpast.map Delivery.decoded)
  have hlive := hlive.of_prefix hpast
  obtain ⟨engine, market, trace, hrun⟩ := hlive.exists_jointRun
  refine ⟨engine, trace, hrun.reached, fun ref => ?_, MatchState.subtractions_exact,
    fun transition _ => transition.subtractions_exact⟩
  have hbalances := hrun.ledger_balances hfresh hlive ref
  rw [Posting.Balances, Nat.zero_add] at hbalances
  rw [hrun.represents.restingShares_eq, hbalances]

theorem shares_conserved_freshStream :
    ∃ engine trace, Reached freshStream engine trace ∧
      ∀ ref, (ledger trace ref).submitted =
        engine.restingShares ref + (ledger trace ref).incoming + (ledger trace ref).resting +
          (ledger trace ref).withdrawn := by
  obtain ⟨engine, trace, hreached, hledger, _⟩ :=
    shares_conserved freshRefs_freshStream (liveBelow_of_length_lt (by decide)) freshStream
      (List.prefix_refl _)
  exact ⟨engine, trace, hreached, hledger⟩

end MatchingEngine

end Orderbook
