/-
# How large the arena gets

The arena of the engine grows by a slot only when no freed one is left. Its size after any
stream is therefore the largest number of orders that rested between two messages on the way,
however many messages were processed and whether or not their references are fresh: a message
frees what it matches or replaces before the order it brings takes a slot.
-/

import Orderbook.Engine.Reachability

namespace Orderbook

open Orderbook.Math

namespace MatchingEngine

variable {stream : List Delivery} {engine : MatchingEngine} {market : Market}
  {trace : List Transition}

theorem Represents.length_linkedSlots (hrep : engine.Represents market) :
    engine.linkedSlots.length = market.live.length := by
  rw [hrep.linkedSlots_perm.length_eq, List.length_map]

theorem LiveBelow.slots_le (hlive : LiveBelow stream) (hreached : Reached stream engine trace) :
    engine.slots ≤ 2 ^ mapBits := by
  obtain ⟨_, _, _, hrun, hslots⟩ := exists_jointRun_of_live_lt
    fun past hpast _ _ _ hrun => hrun.length_live_lt (hlive.of_prefix hpast)
  obtain ⟨rfl, _⟩ := hreached.unique hrun.reached
  exact hslots

/-- The size of the arena after a stream is the largest number of orders that rested on the
way: it has room for each of these numbers and is one of them. -/
structure Peak (stream : List Delivery) (engine : MatchingEngine) : Prop where
  room : ∀ past, past <+: stream → ∀ earlier trace, Reached past earlier trace →
    earlier.linkedSlots.length ≤ engine.slots
  reached : ∃ past earlier trace, past <+: stream ∧ Reached past earlier trace ∧
    earlier.linkedSlots.length = engine.slots

theorem peak_initial : Peak [] initial where
  room past hpast earlier trace hreached := by
    obtain rfl := List.prefix_nil.mp hpast
    obtain ⟨rfl, _⟩ := hreached.unique reached_nil
    rw [represents_initial.length_linkedSlots]
    exact Nat.zero_le _
  reached := by
    refine ⟨[], initial, [], List.prefix_refl _, reached_nil, ?_⟩
    rw [represents_initial.length_linkedSlots]
    rfl

/-- One more message moves the peak up to the orders that rest after it. -/
theorem Peak.snoc (hpeak : Peak stream engine) (hreached : Reached stream engine trace)
    {delivery : Delivery} {next : MatchingEngine} {trace' : List Transition}
    (hnext : Reached (stream ++ [delivery]) next trace')
    (hroom : next.linkedSlots.length ≤ next.slots)
    (hgrowth : next.slots ≤ max engine.slots next.linkedSlots.length) :
    Peak (stream ++ [delivery]) next := by
  have hmore := hreached.slots_le hnext
  constructor
  · intro past hpast earlier trace hearlier
    rcases List.prefix_concat_iff.mp hpast with rfl | hold
    · obtain ⟨rfl, _⟩ := hearlier.unique hnext
      exact hroom
    · exact (hpeak.room past hold earlier trace hearlier).trans hmore
  · by_cases hsame : next.slots ≤ engine.slots
    · obtain ⟨past, earlier, trace, hpast, hearlier, hlength⟩ := hpeak.reached
      exact ⟨past, earlier, trace, hpast.trans (List.prefix_append _ _), hearlier, by omega⟩
    · exact ⟨_, next, trace', List.prefix_refl _, hnext, by omega⟩

/-- Every stream whose live orders stay below the bound of the order map is processed, and
leaves an arena exactly as large as the largest number of orders that rested on the way. -/
theorem arena_is_peak (hlive : LiveBelow stream) :
    ∃ engine trace, Reached stream engine trace ∧ Peak stream engine := by
  induction stream using List.reverseRecOn with
  | nil => exact ⟨initial, [], reached_nil, peak_initial⟩
  | append_singleton past delivery ih =>
      have hpast : LiveBelow past := hlive.of_prefix (List.prefix_append _ _)
      obtain ⟨engine, trace, hreached, hpeak⟩ := ih hpast
      obtain ⟨_, market, _, hrun⟩ := hpast.exists_jointRun
      obtain ⟨rfl, rfl⟩ := hreached.unique hrun.reached
      have hentries := hrun.represents.entries_lt (hrun.length_live_lt hpast)
      obtain ⟨outcome, hnext, _, hjoint⟩ := hrun.extend hentries delivery
      have hwidth : (2 : ℕ) ^ mapBits < 2 ^ 32 := by decide
      obtain ⟨slot, hrun', hgrowth⟩ := hjoint ((hlive.slots_le hnext).trans_lt hwidth)
      have hrep := hrun'.represents
      rw [← hrep.length_linkedSlots] at hgrowth
      refine ⟨_, _, hnext, hpeak.snoc hreached hnext ?_ hgrowth⟩
      rw [hrep.length_linkedSlots]
      exact hrep.length_live_le

theorem arena_is_peak_freshStream :
    ∃ engine trace, Reached freshStream engine trace ∧ Peak freshStream engine :=
  arena_is_peak (liveBelow_of_length_lt (by decide))

end MatchingEngine

end Orderbook
