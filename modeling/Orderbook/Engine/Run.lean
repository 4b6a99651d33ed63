/-
# Runs of the engine

A caller delivers messages one after another and keeps one pair of output buffers.
A message that throws is skipped: the caller goes on with the state the throw left
behind.

A joint run pairs every engine reached with the market it represents. Properties
of runs are proved by induction over joint runs, which say nothing about bounds.
The bounds are needed once, to show that a joint run exists. A run that got to its
end needs the bound on the arena only: the arena never shrinks, so its size at the end
bounds it on the way, and the calls that were made have returned.
-/

import Orderbook.Engine.Representation
import Orderbook.Itch.Wire
import Orderbook.Math.Run

namespace Orderbook

open Orderbook.Math

/-- The reference by which a message looks an order up. -/
def ItchMessage.target : ItchMessage → Option UInt64
  | .delete message =>
      some (joinRef message.orderReferenceNumberHigh message.orderReferenceNumberLow)
  | .executed message => some message.orderRef
  | .replace message => some message.originalOrderRef
  | _ => none

/-- One call of `processMessage`: the message, the length passed with it and the
clock readings around it. -/
structure Delivery where
  message : FullMessage
  messageLength : UInt16 := 0
  clock : Clock := ⟨0, 0, 0⟩

/-- What the engine makes of the delivered message. -/
def Delivery.decoded (delivery : Delivery) : ItchMessage := delivery.message.decoded

/-- Deliver an engine message. -/
def Delivery.of (message : ItchMessage) : Delivery where
  message := message.encode

@[simp]
theorem Delivery.decoded_of (message : ItchMessage) : (Delivery.of message).decoded = message :=
  message.decoded_encode

theorem Delivery.map_decoded_of (messages : List ItchMessage) :
    (messages.map Delivery.of).map Delivery.decoded = messages := by
  rw [List.map_map]
  exact (List.map_congr_left fun message _ => Delivery.decoded_of message).trans (List.map_id _)

/-- A call that was made: the engine before it, the message and what it left. -/
structure Transition where
  before : MatchingEngine
  message : ItchMessage
  outcome : Outcome

namespace MatchingEngine

/-- Make one call with the buffers the caller keeps. -/
def deliver (state : MatchingEngine × EngineScratch) (delivery : Delivery) :
    Option ((MatchingEngine × EngineScratch) × Transition) :=
  (state.1.processMessage delivery.message.memory delivery.messageLength state.2
    delivery.clock).map fun outcome =>
      ((outcome.engine, outcome.scratch), ⟨state.1, delivery.decoded, outcome⟩)

/-- Deliver a stream to the initial engine. -/
def run (stream : List Delivery) :
    Option ((MatchingEngine × EngineScratch) × List Transition) :=
  runList deliver (initial, {}) stream

/-- The stream leads to `engine` by the calls in `trace`. -/
def Reached (stream : List Delivery) (engine : MatchingEngine) (trace : List Transition) : Prop :=
  ∃ scratch, run stream = some ((engine, scratch), trace)

/-- A stream leads to one engine only. -/
theorem Reached.unique {stream : List Delivery} {engine engine' : MatchingEngine}
    {trace trace' : List Transition} (hreached : Reached stream engine trace)
    (hreached' : Reached stream engine' trace') : engine = engine' ∧ trace = trace' := by
  obtain ⟨scratch, hrun⟩ := hreached
  obtain ⟨scratch', hrun'⟩ := hreached'
  rw [hrun] at hrun'
  cases hrun'
  exact ⟨rfl, rfl⟩

theorem reached_nil : Reached [] initial [] := ⟨{}, rfl⟩

/-- One more call leads one step further. -/
theorem reached_snoc {stream : List Delivery} {engine : MatchingEngine} {scratch : EngineScratch}
    {trace : List Transition} {delivery : Delivery} {outcome : Outcome}
    (hrun : run stream = some ((engine, scratch), trace))
    (happly : engine.apply scratch delivery.clock delivery.decoded = some outcome) :
    Reached (stream ++ [delivery]) outcome.engine
      (trace ++ [⟨engine, delivery.decoded, outcome⟩]) := by
  have hprocess : engine.processMessage delivery.message.memory delivery.messageLength scratch
      delivery.clock = some outcome := happly
  have hdeliver : deliver (engine, scratch) delivery =
      some ((outcome.engine, outcome.scratch), ⟨engine, delivery.decoded, outcome⟩) := by
    rw [deliver, hprocess, Option.map_some]
  exact ⟨outcome.scratch, runList_snoc_of_step hrun hdeliver⟩

/-- The last call of a run. -/
theorem Reached.last_call {past : List Delivery} {delivery : Delivery} {engine : MatchingEngine}
    {trace : List Transition} (hreached : Reached (past ++ [delivery]) engine trace) :
    ∃ before scratch earlier outcome, run past = some ((before, scratch), earlier) ∧
      before.apply scratch delivery.clock delivery.decoded = some outcome ∧
      engine = outcome.engine ∧ trace = earlier ++ [⟨before, delivery.decoded, outcome⟩] := by
  obtain ⟨_, hrun⟩ := hreached
  obtain ⟨⟨before, scratch⟩, earlier, answer, hpast, hdeliver, rfl⟩ :=
    exists_step_of_runList_snoc hrun
  obtain ⟨outcome, hprocess, hanswer⟩ := Option.map_eq_some_iff.mp hdeliver
  cases hanswer
  exact ⟨before, scratch, earlier, outcome, hpast, hprocess, rfl, rfl⟩

/-- A run together with the markets it passes through. -/
inductive JointRun : List Delivery → MatchingEngine → Market → List Transition → Prop
  | start : JointRun [] initial {} []
  | step {past : List Delivery} {engine : MatchingEngine} {market : Market}
      {trace : List Transition} (delivery : Delivery) (slot : UInt32) (outcome : Outcome)
      (earlier : JointRun past engine market trace)
      (reached : Reached (past ++ [delivery]) outcome.engine
        (trace ++ [⟨engine, delivery.decoded, outcome⟩]))
      (processes : engine.Processes market delivery.decoded outcome)
      (represents : outcome.engine.Represents (market.step slot delivery.decoded).1) :
      JointRun (past ++ [delivery]) outcome.engine (market.step slot delivery.decoded).1
        (trace ++ [⟨engine, delivery.decoded, outcome⟩])

namespace JointRun

variable {stream : List Delivery} {engine : MatchingEngine} {market : Market}
  {trace : List Transition}

theorem represents (hrun : JointRun stream engine market trace) : engine.Represents market := by
  cases hrun with
  | start => exact represents_initial
  | step _ _ _ _ _ _ hrep => exact hrep

theorem reached (hrun : JointRun stream engine market trace) : Reached stream engine trace := by
  cases hrun with
  | start => exact reached_nil
  | step _ _ _ _ hreached _ _ => exact hreached

/-- Every call of a run was made in an engine that the run reached before. -/
theorem exists_before (hrun : JointRun stream engine market trace) :
    ∀ transition ∈ trace, ∃ past market earlier, past <+: stream ∧
      JointRun past transition.before market earlier := by
  induction hrun with
  | start => simp
  | step delivery slot outcome earlier _ _ _ ih =>
      intro transition hmem
      rcases List.mem_append.mp hmem with hold | hnew
      · obtain ⟨past, market, trace, hpast, hbefore⟩ := ih transition hold
        exact ⟨past, market, trace, hpast.trans (List.prefix_append _ _), hbefore⟩
      · obtain rfl := List.mem_singleton.mp hnew
        exact ⟨_, _, _, List.prefix_append _ _, earlier⟩

/-- One more message, when the map has room before it and the arena keeps within
its index type. -/
theorem extend (hrun : JointRun stream engine market trace)
    (hroom : engine.entries < 2 ^ mapBits) (delivery : Delivery) :
    ∃ outcome, Reached (stream ++ [delivery]) outcome.engine
        (trace ++ [⟨engine, delivery.decoded, outcome⟩]) ∧
      outcome.engine.slots ≤ engine.slots + 1 ∧
      (outcome.engine.slots < 2 ^ 32 → ∃ slot,
        JointRun (stream ++ [delivery]) outcome.engine (market.step slot delivery.decoded).1
          (trace ++ [⟨engine, delivery.decoded, outcome⟩]) ∧
        outcome.engine.slots ≤
          max engine.slots (market.step slot delivery.decoded).1.live.length) := by
  obtain ⟨scratch, hreached⟩ := hrun.reached
  obtain ⟨outcome, happly, hprocesses⟩ :=
    hrun.represents.apply hroom scratch delivery.clock delivery.decoded
  have hnext := reached_snoc hreached happly
  refine ⟨outcome, hnext, hprocesses.reaches.slots_le, fun hbound => ?_⟩
  obtain ⟨slot, hrep, hslots⟩ := hprocesses.reaches.represents hbound
  exact ⟨slot, .step delivery slot outcome hrun hnext hprocesses hrep, hslots⟩

end JointRun

/-- Resting what is left of an order takes at most one slot. -/
theorem size_le_restRemainder (pool : OrderPool) (own : LadderSide) (order : Order) :
    pool.nodes.size ≤ (restRemainder pool own order).2.1.nodes.size := by
  unfold restRemainder
  split
  · change pool.nodes.size ≤ (own.add _ _ _).1.nodes.size
    rw [LadderSide.size_add, OrderPool.size_allocate]
    split
    · exact Nat.le_refl _
    · exact Nat.le_succ _
  · exact Nat.le_refl _

theorem size_le_handleOrder {book : OrderBook} {pool : OrderPool} {order : Order}
    {handled : Handled} (hhandle : book.handleOrder pool order [] [] = some (.ok handled)) :
    pool.nodes.size ≤ handled.pool.nodes.size := by
  obtain ⟨state, hmatch, rfl⟩ := OrderBook.exists_rest_of_handleOrder hhandle
  have hsize : state.pool.nodes.size = pool.nodes.size := MatchState.size_matchSide hmatch
  rw [← hsize]
  exact size_le_restRemainder _ _ _

theorem slots_removeFromBook (engine : MatchingEngine) (locate : UInt16) (idx : UInt32) :
    (engine.removeFromBook locate idx).slots = engine.slots := by
  change ((engine.orderBooks locate).removeByIndex engine.pool idx).1.nodes.size = _
  rw [OrderBook.removeByIndex_eq _ rfl, OrderPool.size_free, LadderSide.size_remove]
  rfl

theorem slots_le_submit {engine : MatchingEngine} {locate : UInt16} {order : Order} {ref : UInt64}
    {outcome : Outcome} (hsubmit : engine.submit locate order ref = some outcome) :
    engine.slots ≤ outcome.engine.slots := by
  rcases submit_cases hsubmit with ⟨_, _, rfl⟩ | ⟨handled, orderMap, hhandle, _, rfl⟩
  · exact Nat.le_refl _
  · exact size_le_handleOrder hhandle

theorem slots_recordLatency (clock : Clock) (outcome : Outcome) :
    (recordLatency clock outcome).engine.slots = outcome.engine.slots := by
  unfold recordLatency
  split <;> rfl

/-- No message shrinks the arena: a replaced order gives its slot back before the new one is
submitted, and a slot that is given back stays in the arena. -/
theorem Acts.slots_le {engine : MatchingEngine} {message : ItchMessage} {outcome : Outcome}
    (hacts : engine.Acts message outcome) : engine.slots ≤ outcome.engine.slots := by
  cases hacts with
  | idle scratch => exact Nat.le_refl _
  | withdraw scratch _ _ => exact Nat.le_of_eq (slots_removeFromBook _ _ _).symm
  | reduce scratch _ => exact Nat.le_of_eq (OrderPool.size_modify _ _ _).symm
  | submit hsubmit =>
      rw [slots_recordLatency]
      exact slots_le_submit hsubmit
  | @replace _ loc _ _ _ _ hsubmit =>
      have hremoved := slots_removeFromBook engine loc.stockLocate loc.poolIdx
      have hmore := slots_le_submit hsubmit
      exact hremoved.symm.trans_le hmore

theorem Reached.slots_le {past : List Delivery} {delivery : Delivery}
    {engine next : MatchingEngine} {trace trace' : List Transition}
    (hreached : Reached past engine trace)
    (hnext : Reached (past ++ [delivery]) next trace') : engine.slots ≤ next.slots := by
  obtain ⟨before, scratch, earlier, outcome, hpast, happly, rfl, _⟩ := hnext.last_call
  obtain ⟨rfl, _⟩ := hreached.unique ⟨scratch, hpast⟩
  exact (acts_of_apply happly).slots_le

variable {stream : List Delivery}

/-- At every point of the run the order map has room and the arena keeps within
its index type. -/
def Within (stream : List Delivery) : Prop :=
  ∀ past, past <+: stream → ∀ engine trace, Reached past engine trace →
    engine.entries < 2 ^ mapBits ∧ engine.slots < 2 ^ 32

theorem Within.of_prefix {past : List Delivery} (hwithin : Within stream)
    (hpast : past <+: stream) : Within past :=
  fun earlier hearlier => hwithin earlier (hearlier.trans hpast)

/-- Within the bounds every stream runs to its end. -/
theorem exists_jointRun (hwithin : Within stream) :
    ∃ engine market trace, JointRun stream engine market trace := by
  induction stream using List.reverseRecOn with
  | nil => exact ⟨initial, {}, [], .start⟩
  | append_singleton past delivery ih =>
      have hpast : past <+: past ++ [delivery] := List.prefix_append past [delivery]
      obtain ⟨engine, market, trace, hrun⟩ := ih (hwithin.of_prefix hpast)
      have hroom := (hwithin past hpast engine trace hrun.reached).1
      obtain ⟨outcome, hreached, _, hnext⟩ := hrun.extend hroom delivery
      obtain ⟨slot, hrun', _⟩ :=
        hnext (hwithin _ (List.prefix_refl _) _ _ hreached).2
      exact ⟨_, _, _, hrun'⟩

/-- An engine that a stream has led to represents a market, as long as its arena is within
its index type. The order map may be full. -/
theorem Reached.exists_jointRun {engine : MatchingEngine} {trace : List Transition}
    (hreached : Reached stream engine trace) (hslots : engine.slots < 2 ^ 32) :
    ∃ market, JointRun stream engine market trace := by
  induction stream using List.reverseRecOn generalizing engine trace with
  | nil =>
      obtain ⟨rfl, rfl⟩ := hreached.unique reached_nil
      exact ⟨{}, .start⟩
  | append_singleton past delivery ih =>
      obtain ⟨before, scratch, earlier, outcome, hpast, happly, rfl, rfl⟩ := hreached.last_call
      have hbefore : before.slots < 2 ^ 32 := (acts_of_apply happly).slots_le.trans_lt hslots
      obtain ⟨market, hrun⟩ := ih ⟨scratch, hpast⟩ hbefore
      have hprocesses := hrun.represents.apply_of_some happly
      obtain ⟨slot, hrep, _⟩ := hprocesses.reaches.represents hslots
      exact ⟨_, .step delivery slot outcome hrun hreached hprocesses hrep⟩

/-- A bound on the live orders bounds the order map and the arena. -/
theorem exists_jointRun_of_live_lt
    (hlive : ∀ past, past <+: stream → ∀ engine market trace,
      JointRun past engine market trace → market.live.length < 2 ^ mapBits) :
    ∃ engine market trace, JointRun stream engine market trace ∧
      engine.slots ≤ 2 ^ mapBits := by
  induction stream using List.reverseRecOn with
  | nil => exact ⟨initial, {}, [], .start, Nat.zero_le _⟩
  | append_singleton past delivery ih =>
      have hpast : past <+: past ++ [delivery] := List.prefix_append past [delivery]
      obtain ⟨engine, market, trace, hrun, hslots⟩ := ih fun earlier hearlier =>
        hlive earlier (hearlier.trans hpast)
      have hroom : engine.entries < 2 ^ mapBits := by
        rw [entries, hrun.represents.directory.count_eq]
        exact Nat.lt_of_le_of_lt hrun.represents.sound.ncard_directory_le
          (hlive past hpast engine market trace hrun)
      obtain ⟨outcome, hreached, hle, hnext⟩ := hrun.extend hroom delivery
      obtain ⟨slot, hrun', hgrowth⟩ := hnext (by
        have : 2 ^ mapBits + 1 < 2 ^ 32 := by decide
        omega)
      have := hlive _ (List.prefix_refl _) _ _ _ hrun'
      exact ⟨_, _, _, hrun', by omega⟩

/-- There are at most as many live orders as messages. -/
theorem JointRun.length_live_le {engine : MatchingEngine} {market : Market}
    {trace : List Transition} (hrun : JointRun stream engine market trace) :
    market.live.length ≤ stream.length := by
  induction hrun with
  | start => exact Nat.le_refl _
  | step delivery slot outcome _ _ _ _ ih =>
      rw [List.length_append, List.length_singleton]
      exact (Market.length_step_le slot _ _).trans (Nat.succ_le_succ ih)

/-- A short stream keeps within the bounds. -/
theorem within_of_length_lt (hlength : stream.length < 2 ^ mapBits) : Within stream := by
  intro past hpast engine trace hreached
  have hshort : ∀ earlier, earlier <+: past → ∀ engine market trace,
      JointRun earlier engine market trace → market.live.length < 2 ^ mapBits := by
    intro earlier hearlier engine market trace hrun
    have := (hearlier.trans hpast).length_le
    exact Nat.lt_of_le_of_lt hrun.length_live_le (Nat.lt_of_le_of_lt this hlength)
  obtain ⟨engine', market, trace', hrun, hslots⟩ := exists_jointRun_of_live_lt hshort
  obtain ⟨rfl, rfl⟩ := hreached.unique hrun.reached
  constructor
  · rw [entries, hrun.represents.directory.count_eq]
    exact Nat.lt_of_le_of_lt hrun.represents.sound.ncard_directory_le
      (hshort past (List.prefix_refl past) engine market trace hrun)
  · exact Nat.lt_of_le_of_lt hslots (by decide)

end MatchingEngine

end Orderbook
