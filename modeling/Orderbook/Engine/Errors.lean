/-
# Errors

The only exception of the engine is the one that a book throws on an order with an
invalid side, before it writes anything. An add throws it when its side byte is
invalid, and then nothing has changed. A replace has already removed the original
order when it submits the new one, so it must not throw: it takes the side from the
slot of the original, and every slot that the order map points to holds a valid side.

That is shown for every engine that a stream of messages leads to, without bounds on
the arena or the map. Where a call does not return there is nothing to show.
-/

import Orderbook.Engine.Links
import Orderbook.Engine.Run
import Orderbook.Map.FullTable

namespace Orderbook

open Orderbook.Math

/-- An add has one of the two sides. -/
def ItchMessage.ValidSides : ItchMessage → Prop
  | .add _ order => ValidSide order.buySellIndicator
  | _ => True

namespace MatchingEngine

variable {engine : MatchingEngine} {size : ℕ} {directory : UInt64 → Option OrderLocation}

/-- An order with a valid side does not throw. -/
theorem thrown_of_submit {locate : UInt16} {order : Order} {ref : UInt64} {outcome : Outcome}
    (hside : ValidSide order.buySellIndicator)
    (hsubmit : engine.submit locate order ref = some outcome) : outcome.thrown = none := by
  rcases submit_cases hsubmit with ⟨message, herror, _⟩ | ⟨_, _, _, _, rfl⟩
  · rw [OrderBook.handleOrder_eq _ _ hside] at herror
    obtain ⟨_, _, hnever⟩ := Option.map_eq_some_iff.mp herror
    cases hnever
  · rfl

/-- An order with an invalid side throws and leaves the engine as it was. -/
theorem submit_of_invalid {locate : UInt16} {order : Order} {ref : UInt64}
    (hside : ¬ ValidSide order.buySellIndicator) :
    engine.submit locate order ref =
      some { engine, scratch := {}, thrown := some "Invalid buy/sell indicator" } := by
  unfold submit OrderBook.handleOrder
  rw [if_neg (fun hbuy => hside (.inl hbuy)), if_neg (fun hsell => hside (.inr hsell))]
  rfl

/-- A map that stores locations inside an arena of the given size. -/
structure MapInside (map : OrderMap) (size : ℕ) (directory : UInt64 → Option OrderLocation) :
    Prop where
  represents : map.Represents .identity mapBits directory
  entries : ∀ ref loc, directory ref = some loc → loc.poolIdx.toNat < size

namespace MapInside

variable {map map' : OrderMap} {ref : UInt64}

theorem mono {size' : ℕ} (hmap : MapInside map size directory) (hsize : size ≤ size') :
    MapInside map size' directory :=
  ⟨hmap.represents, fun ref loc hloc => Nat.lt_of_lt_of_le (hmap.entries ref loc hloc) hsize⟩

theorem find (hmap : MapInside map size directory) {loc : OrderLocation}
    (hfind : map.find .identity ref = some (some loc)) : loc.poolIdx.toNat < size :=
  hmap.entries ref loc (hmap.represents.find_of_some hfind).symm

theorem erase (hmap : MapInside map size directory)
    (herase : map.erase .identity ref = some map') :
    MapInside map' size (Function.update directory ref none) := by
  refine ⟨hmap.represents.erase_of_some herase, fun other loc hloc => ?_⟩
  by_cases heq : other = ref
  · rw [heq, Function.update_self] at hloc
    cases hloc
  · rw [Function.update_of_ne heq] at hloc
    exact hmap.entries other loc hloc

theorem insert (hmap : MapInside map size directory) {loc : OrderLocation}
    (hloc : loc.poolIdx.toNat < size) (hinsert : map.insert .identity ref loc = some map') :
    ∃ directory', MapInside map' size directory' := by
  by_cases hreserved : ref = HashPolicy.identity.empty
  · subst hreserved
    exact ⟨directory, hmap.represents.insert_empty_of_some hinsert, hmap.entries⟩
  · refine ⟨_, hmap.represents.insert_of_some hreserved hinsert, fun other stored hstored => ?_⟩
    by_cases heq : other = ref
    · rw [heq, Function.update_self] at hstored
      cases hstored
      exact hloc
    · rw [Function.update_of_ne heq] at hstored
      exact hmap.entries other stored hstored

theorem eraseRefs (hmap : MapInside map size directory) {refs : List UInt64}
    (herase : MatchingEngine.eraseRefs map refs = some map') :
    ∃ directory', MapInside map' size directory' := by
  induction refs generalizing map directory with
  | nil =>
      cases herase
      exact ⟨directory, hmap⟩
  | cons ref refs ih =>
      obtain ⟨erased, herased, hrest⟩ := Option.bind_eq_some_iff.mp herase
      exact ih (hmap.erase herased) hrest

theorem recordMatch (hmap : MapInside map size directory) {locate : UInt16} {handled : Handled}
    (hresting : LinkIn size handled.restingIdx)
    (hrecord : MatchingEngine.recordMatch map ref locate handled = some map') :
    ∃ directory', MapInside map' size directory' := by
  obtain ⟨erased, herased, hrest⟩ := Option.bind_eq_some_iff.mp hrecord
  obtain ⟨_, herasedMap⟩ := hmap.eraseRefs herased
  split at hrest
  case isTrue hvalid => exact herasedMap.insert (hresting.lt hvalid) hrest
  case isFalse =>
    cases hrest
    exact ⟨_, herasedMap⟩

end MapInside

/-- An engine with all indices inside its arena. -/
structure Inside (engine : MatchingEngine) (size : ℕ)
    (directory : UInt64 → Option OrderLocation) : Prop where
  pool : engine.pool.Inside size
  bids : ∀ locate, (engine.orderBooks locate).bids.Inside size
  asks : ∀ locate, (engine.orderBooks locate).asks.Inside size
  map : MapInside engine.orderMap size directory

theorem inside_initial : initial.Inside 0 fun _ => none where
  pool := ⟨rfl, .invalid _, fun _ hnever => absurd hnever (Nat.not_lt_zero _)⟩
  bids _ := ⟨fun _ => .empty _, fun _ hnever => absurd hnever List.not_mem_nil⟩
  asks _ := ⟨fun _ => .empty _, fun _ hnever => absurd hnever List.not_mem_nil⟩
  map := ⟨FlatHashMap.represents_create (by decide) (HashPolicy.identity_inRange mapBits),
    fun _ _ hnever => nomatch hnever⟩

namespace Inside

/-- Writing one book back. -/
theorem setBook {size' : ℕ} (hinside : engine.Inside size directory) (hsize : size ≤ size')
    {locate : UInt16} {pool : OrderPool} {book : OrderBook} (hpool : pool.Inside size')
    (hbids : book.bids.Inside size') (hasks : book.asks.Inside size') :
    (engine.setBook locate pool book).Inside size' directory := by
  refine ⟨hpool, fun other => ?_, fun other => ?_, hinside.map.mono hsize⟩
  · rw [MatchingEngine.setBook]
    dsimp only
    split
    · exact hbids
    · exact (hinside.bids other).mono hsize
  · rw [MatchingEngine.setBook]
    dsimp only
    split
    · exact hasks
    · exact (hinside.asks other).mono hsize

theorem removeFromBook (hinside : engine.Inside size directory) {idx : UInt32}
    (hidx : idx.toNat < size) (locate : UInt16) :
    (engine.removeFromBook locate idx).Inside size directory := by
  obtain ⟨hpool, hbids, hasks⟩ :=
    removeByIndex_inside hinside.pool (hinside.bids locate) (hinside.asks locate) hidx
  exact hinside.setBook (Nat.le_refl _) hpool hbids hasks

theorem withMap (hinside : engine.Inside size directory) {orderMap : OrderMap}
    {directory' : UInt64 → Option OrderLocation} (hmap : MapInside orderMap size directory') :
    Inside { engine with orderMap } size directory' :=
  ⟨hinside.pool, hinside.bids, hinside.asks, hmap⟩

theorem submit (hinside : engine.Inside size directory) {locate : UInt16} {order : Order}
    {ref : UInt64} {outcome : Outcome}
    (hsubmit : engine.submit locate order ref = some outcome) :
    ∃ size' directory', outcome.engine.Inside size' directory' := by
  rcases submit_cases hsubmit with ⟨_, _, rfl⟩ | ⟨handled, orderMap, hhandle, hrecord, rfl⟩
  · exact ⟨size, directory, hinside⟩
  · obtain ⟨size', hsize, hhandled⟩ :=
      handleOrder_inside hinside.pool (hinside.bids locate) (hinside.asks locate) hhandle
    obtain ⟨directory', hmap⟩ := (hinside.map.mono hsize).recordMatch hhandled.resting hrecord
    exact ⟨size', directory',
      (hinside.setBook hsize hhandled.pool hhandled.bids hhandled.asks).withMap hmap⟩

/-- Taking an order out of its book and out of the map. -/
theorem withdraw (hinside : engine.Inside size directory) {ref : UInt64} {loc : OrderLocation}
    {orderMap : OrderMap} (hfind : engine.orderMap.find .identity ref = some (some loc))
    (herase : engine.orderMap.erase .identity ref = some orderMap) :
    Inside { engine.removeFromBook loc.stockLocate loc.poolIdx with orderMap } size
      (Function.update directory ref none) :=
  (hinside.removeFromBook (hinside.map.find hfind) loc.stockLocate).withMap
    (hinside.map.erase herase)

theorem recordLatency {outcome : Outcome} (hinside : outcome.engine.Inside size directory)
    (clock : Clock) :
    (MatchingEngine.recordLatency clock outcome).engine.Inside size directory := by
  unfold MatchingEngine.recordLatency
  split
  · exact hinside
  · exact ⟨hinside.pool, hinside.bids, hinside.asks, hinside.map⟩

/-- A message leaves all indices inside. -/
theorem apply (hinside : engine.Inside size directory) {scratch : EngineScratch} {clock : Clock}
    {message : ItchMessage} {outcome : Outcome}
    (happly : engine.apply scratch clock message = some outcome) :
    ∃ size' directory', outcome.engine.Inside size' directory' := by
  cases acts_of_apply happly with
  | idle scratch => exact ⟨size, directory, hinside⟩
  | withdraw scratch hfind herase => exact ⟨size, _, hinside.withdraw hfind herase⟩
  | @reduce message loc scratch hfind =>
      exact ⟨size, directory, hinside.pool.modify_shares loc.poolIdx
        fun shares => shares - message.shares, hinside.bids, hinside.asks, hinside.map⟩
  | submit hsubmit =>
      obtain ⟨size', directory', hsubmitted⟩ := hinside.submit hsubmit
      exact ⟨size', directory', hsubmitted.recordLatency _⟩
  | replace hfind herase hsubmit => exact (hinside.withdraw hfind herase).submit hsubmit

end Inside

/-- Every engine that a stream leads to has all indices inside its arena. -/
theorem Reached.inside {stream : List Delivery} {trace : List Transition}
    (hreached : Reached stream engine trace) : ∃ size directory, engine.Inside size directory := by
  obtain ⟨scratch, hrun⟩ := hreached
  refine keeps_of_runList
    (fun state : MatchingEngine × EngineScratch => ∃ size directory, state.1.Inside size directory)
    ?_ ⟨0, _, inside_initial⟩ hrun
  rintro state delivery next answer ⟨size, directory, hinside⟩ hdeliver
  obtain ⟨outcome, hprocess, hnext⟩ := Option.map_eq_some_iff.mp hdeliver
  cases hnext
  exact hinside.apply hprocess

/-- A message with valid sides does not throw: the side of a replacement is that of the
order it replaces. -/
theorem Inside.thrown_of_apply (hinside : engine.Inside size directory) {scratch : EngineScratch}
    {clock : Clock} {message : ItchMessage} {outcome : Outcome} (hvalid : message.ValidSides)
    (happly : engine.apply scratch clock message = some outcome) : outcome.thrown = none := by
  cases acts_of_apply happly with
  | idle scratch => rfl
  | withdraw scratch _ _ => rfl
  | reduce scratch _ => rfl
  | submit hsubmit =>
      have hnone := thrown_of_submit hvalid hsubmit
      simp only [MatchingEngine.recordLatency, hnone]
  | @replace message loc orderMap outcome hfind _ hsubmit =>
      refine thrown_of_submit ?_ hsubmit
      exact (hinside.pool.node loc.poolIdx (hinside.map.find hfind)).side

/-- No call of a run throws when all its messages have valid sides. -/
theorem Reached.thrown_eq_none {stream : List Delivery} {trace : List Transition}
    (hreached : Reached stream engine trace)
    (hvalid : ∀ delivery ∈ stream, delivery.decoded.ValidSides) :
    ∀ transition ∈ trace, transition.outcome.thrown = none := by
  induction stream using List.reverseRecOn generalizing engine trace with
  | nil =>
      obtain ⟨_, rfl⟩ := hreached.unique reached_nil
      exact fun _ hnone => absurd hnone List.not_mem_nil
  | append_singleton past delivery ih =>
      obtain ⟨before, scratch, earlier, outcome, hbefore, happly, _, rfl⟩ := hreached.last_call
      have hpast : Reached past before earlier := ⟨scratch, hbefore⟩
      obtain ⟨_, _, hinside⟩ := hpast.inside
      intro transition hmem
      rcases List.mem_append.mp hmem with hold | hnew
      · exact ih hpast (fun other hother => hvalid other (List.mem_append_left _ hother))
          transition hold
      · rw [List.mem_singleton.mp hnew]
        exact hinside.thrown_of_apply
          (hvalid delivery (List.mem_append_right past List.mem_cons_self)) happly

/-- A message with an invalid side throws and leaves the engine as it was. -/
theorem apply_of_invalid {scratch : EngineScratch} {clock : Clock} {message : ItchMessage}
    (hinvalid : ¬ message.ValidSides) :
    ∃ outcome, engine.apply scratch clock message = some outcome ∧ outcome.thrown ≠ none ∧
      outcome.engine = engine := by
  cases message with
  | add locate order =>
      refine ⟨_, congrArg (Option.map _) (submit_of_invalid hinvalid), ?_, rfl⟩
      exact Option.some_ne_none _
  | _ => exact absurd trivial hinvalid

end MatchingEngine

/-- An add message with a side byte that is neither of the two. -/
def FullMessage.InvalidAdd (message : FullMessage) : Prop :=
  (message.memory 0 = 'A'.toUInt8 ∨ message.memory 0 = 'F'.toUInt8) ∧
    message.memory 19 ≠ 'B'.toUInt8 ∧ message.memory 19 ≠ 'S'.toUInt8

/-- The sides of a message are valid unless it is such an add. -/
theorem FullMessage.validSides_iff (message : FullMessage) :
    message.decoded.ValidSides ↔ ¬ message.InvalidAdd := by
  unfold InvalidAdd decoded ItchMessage.decode
  dsimp only
  split
  case isTrue hadd =>
    change ValidSide (message.memory 19) ↔ _
    unfold ValidSide
    tauto
  case isFalse hother =>
    have hvalid : ¬ ((message.memory 0 = 'A'.toUInt8 ∨ message.memory 0 = 'F'.toUInt8) ∧
        message.memory 19 ≠ 'B'.toUInt8 ∧ message.memory 19 ≠ 'S'.toUInt8) :=
      fun hinvalid => hother hinvalid.1
    split_ifs <;> exact iff_of_true trivial hvalid

namespace MatchingEngine

/-- In every engine that a stream leads to, a message throws exactly when it is an add with
an invalid side byte. When it throws, the engine is as it was; and a replace never throws. -/
theorem errors_atomic {stream : List Delivery} {engine : MatchingEngine}
    {trace : List Transition} (hreached : Reached stream engine trace) (message : FullMessage)
    (messageLength : UInt16) (scratch : EngineScratch) (clock : Clock) :
    ((∃ outcome, engine.processMessage message.memory messageLength scratch clock =
        some outcome ∧ outcome.thrown ≠ none) ↔ message.InvalidAdd) ∧
    (∀ outcome, engine.processMessage message.memory messageLength scratch clock =
        some outcome → outcome.thrown ≠ none → outcome.engine = engine) ∧
    (message.memory 0 = 'U'.toUInt8 → ∀ outcome,
      engine.processMessage message.memory messageLength scratch clock = some outcome →
        outcome.thrown = none) := by
  obtain ⟨_, _, hinside⟩ := hreached.inside
  have hquiet : ¬ message.InvalidAdd → ∀ outcome,
      engine.processMessage message.memory messageLength scratch clock = some outcome →
        outcome.thrown = none :=
    fun hvalid outcome => hinside.thrown_of_apply (message.validSides_iff.mpr hvalid)
  have hloud : message.InvalidAdd → ∃ outcome,
      engine.processMessage message.memory messageLength scratch clock = some outcome ∧
        outcome.thrown ≠ none ∧ outcome.engine = engine :=
    fun hinvalid => apply_of_invalid fun hvalid => message.validSides_iff.mp hvalid hinvalid
  refine ⟨⟨?_, ?_⟩, ?_, ?_⟩
  · rintro ⟨outcome, hprocess, hthrown⟩
    by_contra hvalid
    exact hthrown (hquiet hvalid outcome hprocess)
  · intro hinvalid
    obtain ⟨outcome, hprocess, hthrown, _⟩ := hloud hinvalid
    exact ⟨outcome, hprocess, hthrown⟩
  · intro outcome hprocess hthrown
    by_cases hinvalid : message.InvalidAdd
    · obtain ⟨other, hother, _, hengine⟩ := hloud hinvalid
      rw [hprocess] at hother
      cases hother
      exact hengine
    · exact absurd (hquiet hinvalid outcome hprocess) hthrown
  · intro hreplace
    apply hquiet
    rintro ⟨hadd | hadd, _⟩
    · exact absurd (hreplace.symm.trans hadd) (by decide)
    · exact absurd (hreplace.symm.trans hadd) (by decide)

/-- An add without a side. -/
def sidelessAdd : FullMessage :=
  ItchMessage.encode (.add 1 ⟨0, 7, 5, 1000000, 0⟩)

/-- An engine with one order in its books. -/
theorem exists_reached_oneOrder : ∃ engine trace market,
    Reached [.of (.add 1 ⟨0, 3, 5, 1000000, 'B'.toUInt8⟩)] engine trace ∧
      engine.Represents market ∧ market.live.length = 1 := by
  have hwithin : Within [] := within_of_length_lt (Nat.two_pow_pos mapBits)
  have hroom := (hwithin [] (List.prefix_refl _) initial [] reached_nil).1
  obtain ⟨outcome, hreached, hslots, hnext⟩ :=
    JointRun.start.extend hroom (.of (.add 1 ⟨0, 3, 5, 1000000, 'B'.toUInt8⟩))
  obtain ⟨slot, hrun, _⟩ := hnext (hslots.trans_lt (by decide))
  refine ⟨_, _, _, hreached, hrun.represents, ?_⟩
  have hswept : Market.matched {} 1 ⟨0, 3, 5, 1000000, 'B'.toUInt8⟩ =
      { items := [], demand := 5 } := Rules.sweep_of_next_eq_none rfl
  rw [Delivery.decoded_of, Market.step, if_pos (by decide), Market.submit, hswept]
  rfl

theorem errors_atomic_sidelessAdd : ∃ (engine : MatchingEngine) (market : Market)
    (outcome : Outcome), engine.Represents market ∧ market.live.length = 1 ∧
      engine.processMessage sidelessAdd.memory 36 {} ⟨0, 0, 0⟩ = some outcome ∧
      outcome.thrown ≠ none ∧ outcome.engine = engine := by
  obtain ⟨engine, trace, market, hreached, hrep, hone⟩ := exists_reached_oneOrder
  obtain ⟨hthrows, hsame, _⟩ := errors_atomic hreached sidelessAdd 36 {} ⟨0, 0, 0⟩
  obtain ⟨outcome, hprocess, hthrown⟩ := hthrows.mpr (by unfold FullMessage.InvalidAdd; decide)
  exact ⟨engine, market, outcome, hrep, hone, hprocess, hthrown,
    hsame outcome hprocess hthrown⟩

end MatchingEngine

end Orderbook
