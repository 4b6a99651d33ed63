/-
# The engine represents a market

An engine represents a market when its arena and books store the live orders, its
order map stores the directory, and the market is sound. Every message whose call
returns leads from an engine that represents a market to one that represents the
market after the message, as long as the arena keeps within its index type. With a
free entry in the order map every call returns. This is the one place where the four
mutable structures of the engine are shown to move together.
-/

import Orderbook.Engine.Handlers
import Orderbook.Engine.Soundness
import Orderbook.Map.FullTable
import Orderbook.Map.History

namespace Orderbook

open Orderbook.Math

/-- Two to the power of `mapBits` is the capacity of the engine's order map. -/
def mapBits : ℕ := 23

namespace MatchingEngine

/-- The sides of an engine's books. -/
def sides (engine : MatchingEngine) : Sides :=
  fun locate bid => (engine.orderBooks locate).side bid

/-- The number of entries of the order map. -/
def entries (engine : MatchingEngine) : ℕ := engine.orderMap.count .identity

/-- The number of slots of the arena. -/
def slots (engine : MatchingEngine) : ℕ := engine.pool.nodes.size

/-- Arena, books and map store the market, and the market is sound. -/
structure Represents (engine : MatchingEngine) (market : Market) : Prop where
  books : Books engine.pool engine.sides market.live
  directory : engine.orderMap.Represents .identity mapBits market.directory
  sound : market.Sound

theorem sides_setBook (engine : MatchingEngine) (locate : UInt16) (pool : OrderPool)
    (book : OrderBook) :
    (engine.setBook locate pool book).sides = engine.sides.setBook locate book := by
  funext otherLocate bid
  unfold sides setBook Sides.setBook
  dsimp only
  split <;> rfl

theorem represents_initial : initial.Represents {} where
  books := by
    refine ⟨by decide, ⟨[], ⟨rfl, trivial⟩, List.nodup_nil, ?_⟩, ?_, ?_, ?_⟩
    · intro idx
      simp [initial]
    · simp
    · intro locate bid
      cases bid <;> rfl
    · intro locate bid
      have hfresh : initial.sides locate bid = { bid } := by cases bid <;> rfl
      rw [hfresh]
      exact LadderSide.represents_fresh bid _
  directory :=
    FlatHashMap.represents_create (by decide) (HashPolicy.identity_inRange mapBits)
  sound := Market.sound_empty

variable {map : OrderMap} {directory : UInt64 → Option OrderLocation}

/-- Deleting keys leaves no fewer entries free. -/
theorem count_le_of_subset {map' : OrderMap} {directory' : UInt64 → Option OrderLocation}
    (hmap : map.Represents .identity mapBits directory)
    (hmap' : map'.Represents .identity mapBits directory')
    (hsubset : ∀ ref, directory' ref ≠ none → directory ref ≠ none) :
    map'.count .identity ≤ map.count .identity := by
  rw [hmap.count_eq, hmap'.count_eq]
  exact Set.ncard_le_ncard hsubset hmap.finite

/-- Deleting the references of filled orders one after another deletes them all. -/
theorem eraseRefs_of_some {map' : OrderMap} {refs : List UInt64}
    (hmap : map.Represents .identity mapBits directory) (herase : eraseRefs map refs = some map') :
    map'.Represents .identity mapBits
      (fun ref => if ref ∈ refs then none else directory ref) := by
  induction refs generalizing map directory with
  | nil =>
      cases herase
      simpa using hmap
  | cons ref refs ih =>
      obtain ⟨erased, hfirst, hrest⟩ := Option.bind_eq_some_iff.mp herase
      convert ih (hmap.erase_of_some hfirst) hrest using 1
      funext other
      by_cases heq : other = ref
      · simp [heq]
      · simp [heq]

/-- The deletions end when an entry is free, and leave no fewer free. -/
theorem eraseRefs_returns (refs : List UInt64)
    (hmap : map.Represents .identity mapBits directory)
    (hroom : map.count .identity < 2 ^ mapBits) :
    ∃ map', eraseRefs map refs = some map' ∧ map'.count .identity ≤ map.count .identity := by
  induction refs generalizing map directory with
  | nil => exact ⟨map, rfl, Nat.le_refl _⟩
  | cons ref refs ih =>
      obtain ⟨erased, herase, herased⟩ :=
        hmap.erase (FlatHashMap.exists_free_of_count_lt hmap.shape hroom) ref
      have hle := count_le_of_subset hmap herased fun other hother => by
        by_cases heq : other = ref
        · simp [heq] at hother
        · rwa [Function.update_of_ne heq] at hother
      obtain ⟨map', hrest, hle'⟩ := ih herased (Nat.lt_of_le_of_lt hle hroom)
      exact ⟨map', by rw [eraseRefs, herase, Option.bind_some, hrest], hle'.trans hle⟩

/-- The map updates after a match do to the directory what `relist` says. -/
theorem recordMatch_of_some {map' : OrderMap} {ref : UInt64} {locate : UInt16}
    {handled : Handled} {swept : Sweep Resting}
    (hmap : map.Represents .identity mapBits directory)
    (hremoved : handled.removedRefs = filledRefs swept.fills)
    (hslot : handled.restingIdx = INVALID_INDEX ↔ swept.demand = 0)
    (hrecord : recordMatch map ref locate handled = some map') :
    map'.Represents .identity mapBits
      (Market.relist directory swept ref
        { stockLocate := locate, poolIdx := handled.restingIdx }) := by
  obtain ⟨erased, herase, hrest⟩ := Option.bind_eq_some_iff.mp hrecord
  have herased := eraseRefs_of_some hmap herase
  by_cases hnone : handled.restingIdx = INVALID_INDEX
  · rw [if_neg (not_not.mpr hnone)] at hrest
    cases hrest
    convert herased using 1
    funext other
    simp [Market.relist, hslot.mp hnone, hremoved]
  · rw [if_pos hnone] at hrest
    by_cases hreserved : ref = HashPolicy.identity.empty
    · rw [hreserved] at hrest
      convert herased.insert_empty_of_some hrest using 1
      funext other
      simp [Market.relist, hreserved, hremoved]
    · have hopen : swept.demand ≠ 0 := fun h => hnone (hslot.mpr h)
      convert herased.insert_of_some hreserved hrest using 1
      funext other
      by_cases heq : other = ref
      · simp [Market.relist, hopen, hreserved, heq]
      · simp [Market.relist, heq, hremoved]

/-- The map updates end when an entry is free. -/
theorem recordMatch_returns (hmap : map.Represents .identity mapBits directory)
    (hroom : map.count .identity < 2 ^ mapBits) (ref : UInt64) (locate : UInt16)
    (handled : Handled) : ∃ map', recordMatch map ref locate handled = some map' := by
  obtain ⟨erased, herase, hle⟩ := eraseRefs_returns handled.removedRefs hmap hroom
  have herased := eraseRefs_of_some hmap herase
  have hfree := FlatHashMap.exists_free_of_count_lt herased.shape (Nat.lt_of_le_of_lt hle hroom)
  rw [recordMatch, herase, Option.bind_some]
  split
  · by_cases hreserved : ref = HashPolicy.identity.empty
    · rw [hreserved]
      exact (herased.insert_empty hfree _).imp fun _ => And.left
    · exact (herased.insert hfree hreserved _).imp fun _ => And.left
  · exact ⟨erased, rfl⟩

variable {engine : MatchingEngine} {market : Market}

/-- An engine whose order map is not full has a free entry in it. -/
theorem Represents.free (hrep : engine.Represents market) (hroom : engine.entries < 2 ^ mapBits) :
    ∃ idx < 2 ^ mapBits, engine.orderMap.keyAt .identity idx = HashPolicy.identity.empty :=
  FlatHashMap.exists_free_of_count_lt hrep.directory.shape hroom

/-- A call leads to an engine that represents the next market, provided that the
arena kept within its index type, and the arena grew no further than the market
needs. -/
structure Reaches (engine : MatchingEngine) (next : UInt32 → Market) (outcome : Outcome) :
    Prop where
  slots_le : outcome.engine.slots ≤ engine.slots + 1
  represents : outcome.engine.slots < 2 ^ 32 → ∃ slot, outcome.engine.Represents (next slot) ∧
    outcome.engine.slots ≤ max engine.slots (next slot).live.length

/-- A call that changes nothing. -/
theorem Represents.reaches_self (hrep : engine.Represents market) (scratch : EngineScratch)
    (thrown : Option String) : engine.Reaches (fun _ => market) ⟨engine, scratch, thrown⟩ :=
  ⟨Nat.le_succ _, fun _ => ⟨0, hrep, Nat.le_max_left _ _⟩⟩

/-- Submitting an order matches it, rests the remainder and reports the fills. -/
theorem Represents.submit (hrep : engine.Represents market) {locate : UInt16} {order : Order}
    (hside : ValidSide order.buySellIndicator) {outcome : Outcome}
    (hsubmit : engine.submit locate order order.ref = some outcome) :
    outcome.scratch =
        { removedRefs := filledRefs (market.matched locate order).fills
          executedOrders := executedRecords (market.matched locate order).fills } ∧
      engine.Reaches (fun slot => market.submit slot locate order) outcome := by
  obtain ⟨handled, hhandle, hhandled⟩ :=
    hrep.books.handleOrder hrep.sound.positive (fun _ => rfl) hside
  rcases submit_cases hsubmit with ⟨_, herror, _⟩ | ⟨other, orderMap, hother, hrecord, rfl⟩
  · cases hhandle.symm.trans herror
  obtain rfl : handled = other := by
    rw [hhandle] at hother
    cases hother
    rfl
  refine ⟨?_, hhandled.size_le, fun hbound => ⟨handled.restingIdx, ?_, ?_⟩⟩
  · rw [hhandled.removedRefs, hhandled.executedOrders]
    rfl
  · obtain ⟨hbooks, hslot, _⟩ := hhandled.rested hbound
    have hbooks' : Books handled.pool
        (engine.setBook locate handled.pool handled.book).sides
        (market.submit handled.restingIdx locate order).live := by
      rw [sides_setBook]
      exact hbooks
    exact ⟨hbooks', recordMatch_of_some hrep.directory hhandled.removedRefs hslot hrecord,
      hrep.sound.submit hside hbooks'.nodup_slots hhandled.positive⟩
  · exact (hhandled.rested hbound).2.2

/-- With a free entry in the map a submitted order is matched to the end. -/
theorem Represents.submit_returns (hrep : engine.Represents market)
    (hroom : engine.entries < 2 ^ mapBits) (locate : UInt16) {order : Order}
    (hside : ValidSide order.buySellIndicator) (ref : UInt64) :
    ∃ outcome, engine.submit locate order ref = some outcome := by
  have hbook : ∀ bid, engine.sides locate bid = (engine.orderBooks locate).side bid :=
    fun _ => rfl
  obtain ⟨handled, hhandle, _⟩ := hrep.books.handleOrder hrep.sound.positive hbook hside
  obtain ⟨orderMap, hrecord⟩ := recordMatch_returns hrep.directory hroom ref locate handled
  rw [MatchingEngine.submit, hhandle, Option.bind_some]
  dsimp only
  rw [hrecord]
  exact ⟨_, rfl⟩

/-- Reducing a live order in place. -/
theorem Represents.reaches_reduce (hrep : engine.Represents market) {resting : Resting}
    (hmem : resting ∈ market.live) {amount : UInt32} (hamount : amount < resting.order.shares)
    (scratch : EngineScratch) :
    engine.Reaches
      (fun _ => { market with live := reduceSlot resting.slot amount.toNat market.live })
      ⟨{ engine with pool := engine.pool.modify resting.slot (Books.reduceNode amount) },
        scratch, none⟩ := by
  have hslots : (engine.pool.modify resting.slot (Books.reduceNode amount)).nodes.size =
      engine.slots := OrderPool.size_modify _ _ _
  refine ⟨hslots ▸ Nat.le_succ _, fun _ => ⟨0, ⟨?_, hrep.directory, ?_⟩, ?_⟩⟩
  · exact hrep.books.reduce (hrep.books.slot_lt hmem) amount
  · exact hrep.sound.reduce hmem hamount
  · exact hslots ▸ Nat.le_max_left _ _

/-- What finding a reference and withdrawing its order does. -/
structure Withdraws (engine : MatchingEngine) (market : Market) (ref : UInt64)
    (location : OrderLocation) (resting : Resting) (after : MatchingEngine) : Prop where
  lookup : market.lookup ref = some resting
  mem : resting ∈ market.live
  locate : resting.locate = location.stockLocate
  slot : resting.slot = location.poolIdx
  stored : (engine.pool.node location.poolIdx).order = resting.order
  ref_eq : resting.order.ref = ref
  slots : after.slots = engine.slots
  entries_le : after.entries ≤ engine.entries
  represents : after.Represents (market.withdraw ref resting.slot)

theorem Withdraws.reaches {ref : UInt64} {location : OrderLocation} {resting : Resting}
    {after : MatchingEngine} (hwithdraws : engine.Withdraws market ref location resting after)
    (scratch : EngineScratch) :
    engine.Reaches (fun _ => market.withdraw ref resting.slot) ⟨after, scratch, none⟩ := by
  have hslots := hwithdraws.slots
  refine ⟨?_, fun _ => ⟨0, hwithdraws.represents, ?_⟩⟩
  · exact hslots ▸ Nat.le_succ _
  · exact hslots ▸ Nat.le_max_left _ _

/-- Removing an order from its book and from the map withdraws it, also when the map is
full. -/
theorem Represents.withdraw (hrep : engine.Represents market) {ref : UInt64}
    {location : OrderLocation} (hentry : market.directory ref = some location) :
    ∃ resting orderMap, (engine.removeFromBook location.stockLocate location.poolIdx).orderMap.erase
        .identity ref = some orderMap ∧
      engine.Withdraws market ref location resting
        { engine.removeFromBook location.stockLocate location.poolIdx with orderMap } := by
  obtain ⟨resting, hmem, hlookup, hlocate, hslot, href⟩ := hrep.sound.lookup hentry
  have hbook : ∀ bid, engine.sides location.stockLocate bid =
      (engine.orderBooks location.stockLocate).side bid := fun _ => rfl
  obtain ⟨hsize, hbooks⟩ := hrep.books.removeByIndex hbook hmem hlocate
  obtain ⟨orderMap, herase, hmap⟩ :=
    hrep.directory.erase_stored (Option.ne_none_iff_exists'.mpr ⟨location, hentry⟩)
  rw [hslot] at hsize hbooks
  refine ⟨resting, orderMap, herase, hlookup, hmem, hlocate, hslot, ?_, href, hsize, ?_, ?_, ?_,
    ?_⟩
  · rw [← hslot]
    exact hrep.books.stored resting hmem
  · apply count_le_of_subset hrep.directory hmap
    intro other hother
    by_cases heq : other = ref
    · simp [heq] at hother
    · rwa [Function.update_of_ne heq] at hother
  · rw [← sides_setBook engine location.stockLocate
      ((engine.orderBooks location.stockLocate).removeByIndex engine.pool location.poolIdx).1,
      ← hslot] at hbooks
    exact hslot ▸ hbooks
  · convert hmap using 1
    funext other
    rw [Function.update_apply]
    rfl
  · exact hrep.sound.withdraw hmem href

/-- What a caller learns from one message: the next market, and the fills in the
output buffers whenever the message was matched. -/
structure Processes (engine : MatchingEngine) (market : Market) (message : ItchMessage)
    (outcome : Outcome) : Prop where
  reaches : engine.Reaches (fun slot => (market.step slot message).1) outcome
  reports : ∀ slot fills, (market.step slot message).2 = some fills →
    outcome.scratch =
      { removedRefs := filledRefs fills, executedOrders := executedRecords fills }

/-- A message that is not matched. -/
theorem Processes.of_unmatched {message : ItchMessage} {outcome : Outcome} {next : Market}
    (hstep : ∀ slot, market.step slot message = (next, none))
    (hreaches : engine.Reaches (fun _ => next) outcome) :
    engine.Processes market message outcome where
  reaches := by
    simp only [hstep]
    exact hreaches
  reports slot fills hfills := by
    rw [hstep] at hfills
    cases hfills

/-- A message that is matched. -/
theorem Processes.of_matched {message : ItchMessage} {outcome : Outcome} {next : UInt32 → Market}
    {fills : List Fill} (hstep : ∀ slot, market.step slot message = (next slot, some fills))
    (hreaches : engine.Reaches next outcome)
    (hscratch : outcome.scratch =
      { removedRefs := filledRefs fills, executedOrders := executedRecords fills }) :
    engine.Processes market message outcome where
  reaches := by
    simp only [hstep]
    exact hreaches
  reports slot reported hreported := by
    rw [hstep] at hreported
    cases hreported
    exact hscratch

/-- Recording a latency changes nothing that is represented. -/
theorem Reaches.recordLatency {next : UInt32 → Market} {outcome : Outcome}
    (hreaches : engine.Reaches next outcome) (clock : Clock) :
    engine.Reaches next (recordLatency clock outcome) := by
  unfold MatchingEngine.recordLatency
  split
  · exact hreaches
  · refine ⟨hreaches.slots_le, fun hbound => ?_⟩
    obtain ⟨slot, hrep, hslots⟩ := hreaches.represents hbound
    exact ⟨slot, ⟨hrep.books, hrep.directory, hrep.sound⟩, hslots⟩

theorem scratch_recordLatency (clock : Clock) (outcome : Outcome) :
    (recordLatency clock outcome).scratch = outcome.scratch := by
  unfold recordLatency
  split <;> rfl

/-- A search that returns finds what the market has under the reference. -/
theorem Represents.find_eq (hrep : engine.Represents market) {ref : UInt64}
    {entry : Option OrderLocation} (hfind : engine.orderMap.find .identity ref = some entry) :
    engine.orderMap.find .identity ref = some (market.directory ref) := by
  rw [hfind, hrep.directory.find_of_some hfind]

/-- An order without a side is turned down. -/
theorem processAdd_of_not_validSide {order : Order} (hside : ¬ ValidSide order.buySellIndicator)
    (engine : MatchingEngine) (locate : UInt16) (clock : Clock) :
    engine.processAdd locate order clock =
      some ⟨engine, {}, some "Invalid buy/sell indicator"⟩ := by
  rw [MatchingEngine.processAdd, MatchingEngine.submit, OrderBook.handleOrder,
    if_neg fun h => hside (.inl h), if_neg fun h => hside (.inr h)]
  rfl

theorem Represents.processAdd (hrep : engine.Represents market) {locate : UInt16} {order : Order}
    {clock : Clock} {outcome : Outcome}
    (hprocess : engine.processAdd locate order clock = some outcome) :
    engine.Processes market (.add locate order) outcome := by
  by_cases hside : ValidSide order.buySellIndicator
  · obtain ⟨submitted, hsubmit, rfl⟩ := Option.map_eq_some_iff.mp hprocess
    obtain ⟨hscratch, hreaches⟩ := hrep.submit hside hsubmit
    refine .of_matched (fun _ => if_pos hside) (hreaches.recordLatency clock) ?_
    rw [scratch_recordLatency, hscratch]
  · rw [processAdd_of_not_validSide hside] at hprocess
    cases hprocess
    exact .of_unmatched (fun _ => if_neg hside) (hrep.reaches_self _ _)

theorem Represents.processDelete (hrep : engine.Represents market) {message : DeleteOrder}
    (hfind : engine.orderMap.find .identity (joinRef message.orderReferenceNumberHigh
      message.orderReferenceNumberLow) = some (market.directory
        (joinRef message.orderReferenceNumberHigh message.orderReferenceNumberLow)))
    (scratch : EngineScratch) :
    ∃ outcome, engine.processDelete scratch message = some outcome ∧
      engine.Processes market (.delete message) outcome := by
  set ref := joinRef message.orderReferenceNumberHigh message.orderReferenceNumberLow with href
  cases hentry : market.directory ref with
  | none =>
      have hlookup := Market.lookup_of_directory_eq_none hentry
      refine ⟨⟨engine, scratch, none⟩, ?_, .of_unmatched ?_ (hrep.reaches_self _ _)⟩
      · simp [MatchingEngine.processDelete, ← href, hfind, hentry]
      · simp [Market.step, ← href, hlookup]
  | some location =>
      obtain ⟨resting, orderMap, herase, hwithdraws⟩ := hrep.withdraw hentry
      refine ⟨_, ?_, .of_unmatched ?_ (hwithdraws.reaches scratch)⟩
      · simp [MatchingEngine.processDelete, ← href, hfind, hentry, herase]
      · simp [Market.step, ← href, hwithdraws.lookup]

theorem Represents.processExecuted (hrep : engine.Represents market) {message : OrderExecutedMsg}
    (hfind : engine.orderMap.find .identity message.orderRef =
      some (market.directory message.orderRef)) (scratch : EngineScratch) :
    ∃ outcome, engine.processExecuted scratch message = some outcome ∧
      engine.Processes market (.executed message) outcome := by
  cases hentry : market.directory message.orderRef with
  | none =>
      have hlookup := Market.lookup_of_directory_eq_none hentry
      refine ⟨⟨engine, scratch, none⟩, ?_, .of_unmatched ?_ (hrep.reaches_self _ _)⟩
      · simp [MatchingEngine.processExecuted, hfind, hentry]
      · simp [Market.step, hlookup]
  | some location =>
      obtain ⟨resting, orderMap, herase, hwithdraws⟩ := hrep.withdraw hentry
      by_cases hfilled : message.shares ≥ resting.order.shares
      · refine ⟨_, ?_, .of_unmatched ?_ (hwithdraws.reaches scratch)⟩
        · simp [MatchingEngine.processExecuted, hfind, hentry, hwithdraws.stored, hfilled, herase]
        · simp [Market.step, hwithdraws.lookup, hfilled]
      · refine ⟨_, ?_, .of_unmatched ?_ (hrep.reaches_reduce hwithdraws.mem
          (UInt32.not_le.mp hfilled) scratch)⟩
        · simp [MatchingEngine.processExecuted, hfind, hentry, hwithdraws.stored, hfilled,
            hwithdraws.slot]
          rfl
        · simp [Market.step, hwithdraws.lookup, hfilled]

/-- Replacing a known order is withdrawing it and submitting the replacement. -/
theorem Withdraws.processReplace {message : OrderReplaceMsg} {location : OrderLocation}
    {resting : Resting} {orderMap : OrderMap}
    (hwithdraws : engine.Withdraws market message.originalOrderRef location resting
      { engine.removeFromBook location.stockLocate location.poolIdx with orderMap })
    (hfind : engine.orderMap.find .identity message.originalOrderRef = some (some location))
    (herase : (engine.removeFromBook location.stockLocate location.poolIdx).orderMap.erase
      .identity message.originalOrderRef = some orderMap) (scratch : EngineScratch) :
    engine.processReplace scratch message =
      submit { engine.removeFromBook location.stockLocate location.poolIdx with orderMap }
        resting.locate (replacementOrder message resting.order.buySellIndicator)
        (replacementOrder message resting.order.buySellIndicator).ref := by
  have href : (replacementOrder message resting.order.buySellIndicator).ref =
      message.newOrderRef := joinRef_split message.newOrderRef
  rw [href, hwithdraws.locate]
  simp [MatchingEngine.processReplace, hfind, hwithdraws.stored, herase]

theorem Represents.processReplace (hrep : engine.Represents market) {message : OrderReplaceMsg}
    {scratch : EngineScratch} {outcome : Outcome}
    (hprocess : engine.processReplace scratch message = some outcome) :
    engine.Processes market (.replace message) outcome := by
  obtain ⟨_, hfound, _⟩ := Option.bind_eq_some_iff.mp hprocess
  have hfind := hrep.find_eq hfound
  cases hentry : market.directory message.originalOrderRef with
  | none =>
      have hlookup := Market.lookup_of_directory_eq_none hentry
      have hidle : engine.processReplace scratch message = some ⟨engine, scratch, none⟩ := by
        simp [MatchingEngine.processReplace, hfind, hentry]
      rw [hidle] at hprocess
      cases hprocess
      exact .of_unmatched (fun _ => by simp [Market.step, hlookup]) (hrep.reaches_self _ _)
  | some location =>
      obtain ⟨resting, orderMap, herase, hwithdraws⟩ := hrep.withdraw hentry
      rw [hentry] at hfind
      rw [hwithdraws.processReplace hfind herase] at hprocess
      have hside : ValidSide
          (replacementOrder message resting.order.buySellIndicator).buySellIndicator :=
        hrep.sound.side resting hwithdraws.mem
      obtain ⟨hscratch, hreaches⟩ := hwithdraws.represents.submit hside hprocess
      have hslots := hwithdraws.slots
      refine .of_matched (fun _ => by simp [Market.step, hwithdraws.lookup])
        ⟨hslots ▸ hreaches.slots_le, hslots ▸ hreaches.represents⟩ hscratch

/-- One message, whatever its type, whose call returns. -/
theorem Represents.apply_of_some (hrep : engine.Represents market) {scratch : EngineScratch}
    {clock : Clock} {message : ItchMessage} {outcome : Outcome}
    (happly : engine.apply scratch clock message = some outcome) :
    engine.Processes market message outcome := by
  cases message with
  | add locate order => exact hrep.processAdd happly
  | delete message =>
      obtain ⟨_, hfound, _⟩ := Option.bind_eq_some_iff.mp happly
      obtain ⟨same, hsame, hprocesses⟩ := hrep.processDelete (hrep.find_eq hfound) scratch
      cases hsame.symm.trans happly
      exact hprocesses
  | executed message =>
      obtain ⟨_, hfound, _⟩ := Option.bind_eq_some_iff.mp happly
      obtain ⟨same, hsame, hprocesses⟩ := hrep.processExecuted (hrep.find_eq hfound) scratch
      cases hsame.symm.trans happly
      exact hprocesses
  | replace message => exact hrep.processReplace happly
  | ignored =>
      cases happly
      exact .of_unmatched (fun _ => rfl) (hrep.reaches_self _ _)

/-- With a free entry in the map every call returns. -/
theorem Represents.apply_returns (hrep : engine.Represents market)
    (hroom : engine.entries < 2 ^ mapBits) (scratch : EngineScratch) (clock : Clock)
    (message : ItchMessage) : ∃ outcome, engine.apply scratch clock message = some outcome := by
  have hfind := hrep.directory.find (hrep.free hroom)
  cases message with
  | add locate order =>
      by_cases hside : ValidSide order.buySellIndicator
      · obtain ⟨outcome, hsubmit⟩ := hrep.submit_returns hroom locate hside order.ref
        exact ⟨_, Option.map_eq_some_iff.mpr ⟨outcome, hsubmit, rfl⟩⟩
      · exact ⟨_, processAdd_of_not_validSide hside engine locate clock⟩
  | delete message => exact (hrep.processDelete (hfind _) scratch).imp fun _ => And.left
  | executed message => exact (hrep.processExecuted (hfind _) scratch).imp fun _ => And.left
  | replace message =>
      have hfound := hfind message.originalOrderRef
      cases hentry : market.directory message.originalOrderRef with
      | none =>
          refine ⟨⟨engine, scratch, none⟩, ?_⟩
          simp [MatchingEngine.apply, MatchingEngine.processReplace, hfound, hentry]
      | some location =>
          obtain ⟨resting, orderMap, herase, hwithdraws⟩ := hrep.withdraw hentry
          rw [hentry] at hfound
          have hside : ValidSide
              (replacementOrder message resting.order.buySellIndicator).buySellIndicator :=
            hrep.sound.side resting hwithdraws.mem
          obtain ⟨outcome, hsubmit⟩ := hwithdraws.represents.submit_returns
            (Nat.lt_of_le_of_lt hwithdraws.entries_le hroom) resting.locate hside _
          exact ⟨outcome, (hwithdraws.processReplace hfound herase scratch).trans hsubmit⟩
  | ignored => exact ⟨⟨engine, scratch, none⟩, rfl⟩

/-- One message, whatever its type. -/
theorem Represents.apply (hrep : engine.Represents market)
    (hroom : engine.entries < 2 ^ mapBits) (scratch : EngineScratch) (clock : Clock)
    (message : ItchMessage) :
    ∃ outcome, engine.apply scratch clock message = some outcome ∧
      engine.Processes market message outcome := by
  obtain ⟨outcome, happly⟩ := hrep.apply_returns hroom scratch clock message
  exact ⟨outcome, happly, hrep.apply_of_some happly⟩

end MatchingEngine

end Orderbook
