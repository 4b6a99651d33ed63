/-
# Histories of side calls

A client of a side adds orders, removes them and matches against the best level.
Its specification is an ordered map from prices to first-in first-out queues,
given by the list of linked orders in order of arrival: the queue of a price is
the sublist at that price, and the best price is the extreme one present.

The anchor of the window appears nowhere in the specification. A side that was
anchored beforehand at any price gives the same answers as a fresh one.
-/

import Orderbook.Book.BestLevel
import Orderbook.Math.Sweep

namespace Orderbook

open Orderbook.Math LadderSide

/-- A call on a side. -/
inductive SideCall
  | add (price idx : UInt32)
  | remove (price idx : UInt32)
  | matchBest
  deriving DecidableEq, Repr

namespace SideCall

/-- Pop the head of the level that `bestLevel` returns, and retire the level if
that drained it. -/
def popBest (pool : OrderPool) (side : LadderSide) : OrderPool × LadderSide :=
  match side.bestLevel with
  | none => (pool, side)
  | some (price, ptr) =>
      let (pool, level) := popHead pool (side.deref ptr)
      let side := side.assign ptr level
      (pool, if level.head = INVALID_INDEX then side.removeEmptyBest price else side)

/-- Make a call. -/
def perform (state : OrderPool × LadderSide) : SideCall → OrderPool × LadderSide
  | add price idx => state.2.add state.1 price idx
  | remove price idx => state.2.remove state.1 price idx
  | matchBest => popBest state.1 state.2

/-- The order that is next to be matched: the earliest at the best price. -/
def next (bid : Bool) (linked : List (UInt32 × UInt32)) : Option (UInt32 × UInt32) :=
  best (fun _ => true) (fun entry other => Ahead bid entry.1 other.1) linked

/-- What a call does to the linked orders. -/
def effect (bid : Bool) (linked : List (UInt32 × UInt32)) : SideCall → List (UInt32 × UInt32)
  | add price idx => linked ++ [(price, idx)]
  | remove _ idx => linked.filter fun entry => entry.2 ≠ idx
  | matchBest =>
      match next bid linked with
      | none => linked
      | some order => linked.filter fun entry => entry.2 ≠ order.2

/-- Only slots of the arena that are not linked are added, and only linked orders
are removed. -/
def Legal (size : ℕ) (linked : List (UInt32 × UInt32)) : SideCall → Prop
  | add _ idx => idx ∉ linked.map Prod.snd ∧ idx ≠ INVALID_INDEX ∧ idx.toNat < size
  | remove price idx => (price, idx) ∈ linked
  | matchBest => True

instance (size : ℕ) (linked : List (UInt32 × UInt32)) (call : SideCall) :
    Decidable (call.Legal size linked) :=
  match call with
  | add _ idx =>
      inferInstanceAs
        (Decidable (idx ∉ linked.map Prod.snd ∧ idx ≠ INVALID_INDEX ∧ idx.toNat < size))
  | remove price idx => inferInstanceAs (Decidable ((price, idx) ∈ linked))
  | matchBest => inferInstanceAs (Decidable True)

/-- Every call of a sequence is legal when its turn comes. -/
def AllLegal (bid : Bool) (size : ℕ) : List (UInt32 × UInt32) → List SideCall → Prop
  | _, [] => True
  | linked, call :: calls =>
      call.Legal size linked ∧ AllLegal bid size (call.effect bid linked) calls

/-- The next order is the head of the best level. -/
theorem next_of_best {side : LadderSide} {pool : OrderPool} {linked : List (UInt32 × UInt32)}
    {price idx : UInt32} {ptr : LevelPtr} {rest : List UInt32}
    (hbest : side.Best pool linked price ptr)
    (hqueue : queueOf (atPrice price) linked = idx :: rest) :
    next side.bid linked = some (price, idx) := by
  obtain ⟨label, hlabel, hfind⟩ := find?_of_queueOf_eq_cons hqueue
  obtain rfl : label = price := by simpa [atPrice] using hlabel
  rw [← hfind]
  apply best_eq_find
  intro entry hentry
  simp only [atPrice, decide_eq_true_eq, true_and, forall_const]
  constructor
  · rintro heq other hother
    rw [heq]
    exact hbest.ahead other.1 other.2 hother
  · intro hahead
    obtain ⟨idx', hpresent⟩ := hbest.present
    exact (hahead _ hpresent).antisymm (hbest.ahead entry.1 entry.2 hentry)

/-- A match step removes the next order. -/
theorem popBest_spec {side : LadderSide} {pool : OrderPool} {linked : List (UInt32 × UInt32)}
    (hrep : side.Represents pool linked) :
    (popBest pool side).1.nodes.size = pool.nodes.size ∧
      (popBest pool side).2.bid = side.bid ∧
      (popBest pool side).2.Represents (popBest pool side).1
        (matchBest.effect side.bid linked) := by
  by_cases hnil : linked = []
  · subst hnil
    have hpop : popBest pool side = (pool, side) := by
      simp [popBest, hrep.bestLevel_of_nil]
    rw [hpop]
    exact ⟨rfl, rfl, hrep⟩
  · obtain ⟨price, ptr, hbest⟩ := hrep.bestLevel_spec hnil
    cases hqueue : queueOf (atPrice price) linked with
    | nil =>
        obtain ⟨idx, hidx⟩ := hbest.present
        have hmem : idx ∈ queueOf (atPrice price) linked :=
          mem_queueOf.mpr ⟨price, hidx, by simp [atPrice]⟩
        simp [hqueue] at hmem
    | cons idx rest =>
        have hpop : popBest pool side = side.remove pool price idx := by
          have hchain := hbest.chain
          rw [hqueue] at hchain
          rcases hunlink : unlink pool (side.deref ptr) idx with ⟨pool', level⟩
          rw [pop_eq_remove hbest.located hunlink]
          simp [popBest, hbest.result, popHead_eq_unlink hchain, hunlink]
        have hidx := mem_of_queueOf_eq_cons hqueue
        obtain ⟨hpool, hrep'⟩ := hrep.remove hidx
        rw [hpop]
        refine ⟨hpool.size, bid_remove _ _ _ _, ?_⟩
        simpa [effect, next_of_best hbest hqueue] using hrep'

end SideCall

/-- A side before its first order: fresh, or anchored at some price. -/
def startSide (bid : Bool) : Option UInt32 → LadderSide
  | none => { bid }
  | some price => ({ bid } : LadderSide).anchor price

namespace SideCall

/-- A legal call does its effect to the linked orders. -/
theorem perform_spec {state : OrderPool × LadderSide} {linked : List (UInt32 × UInt32)}
    {call : SideCall} (hrep : state.2.Represents state.1 linked)
    (hlegal : call.Legal state.1.nodes.size linked) :
    (call.perform state).1.nodes.size = state.1.nodes.size ∧
      (call.perform state).2.bid = state.2.bid ∧
      (call.perform state).2.Represents (call.perform state).1
        (call.effect state.2.bid linked) := by
  cases call with
  | add price idx =>
      obtain ⟨hfresh, hvalid, hidx⟩ := hlegal
      obtain ⟨hpool, hrep'⟩ := hrep.add hfresh hvalid hidx price
      exact ⟨hpool.size, bid_add _ _ _ _, hrep'⟩
  | remove price idx =>
      obtain ⟨hpool, hrep'⟩ := hrep.remove hlegal
      exact ⟨hpool.size, bid_remove _ _ _ _, hrep'⟩
  | matchBest => exact popBest_spec hrep

/-- A legal sequence of calls does its effects one after another. -/
theorem performAll_spec {bid : Bool} (calls : List SideCall)
    (state : OrderPool × LadderSide) (linked : List (UInt32 × UInt32)) (hbid : state.2.bid = bid)
    (hrep : state.2.Represents state.1 linked)
    (hlegal : AllLegal bid state.1.nodes.size linked calls) :
    (calls.foldl perform state).2.bid = bid ∧
      (calls.foldl perform state).2.Represents (calls.foldl perform state).1
        (calls.foldl (effect bid) linked) := by
  induction calls generalizing state linked with
  | nil => exact ⟨hbid, hrep⟩
  | cons call calls ih =>
      obtain ⟨hcall, hrest⟩ := hlegal
      obtain ⟨hsize, hbid', hrep'⟩ := perform_spec hrep hcall
      rw [hbid] at hbid' hrep'
      exact ih (call.perform state) (call.effect bid linked) hbid' hrep' (hsize ▸ hrest)

end SideCall

/-- After every legal sequence of calls a side answers as the ordered map of
queues: nothing when no order is linked, otherwise the best linked price and the
orders at that price, first in first. No answer depends on the anchor. -/
theorem ladderSide_ordered (bid : Bool) (anchorPrice : Option UInt32) (pool : OrderPool)
    (calls : List SideCall) (hlegal : SideCall.AllLegal bid pool.nodes.size [] calls) :
    let linked := calls.foldl (SideCall.effect bid) []
    let state := calls.foldl SideCall.perform (pool, startSide bid anchorPrice)
    (state.2.bestLevel = none ↔ linked = []) ∧
      ∀ price ptr, state.2.bestLevel = some (price, ptr) →
        (∃ idx, (price, idx) ∈ linked) ∧
        (∀ other idx, (other, idx) ∈ linked → if bid then other ≤ price else price ≤ other) ∧
        (state.2.deref ptr).Chain state.1
          ((linked.filter fun entry => entry.1 = price).map Prod.snd) := by
  intro linked state
  have hstart : (startSide bid anchorPrice).Represents pool [] := by
    cases anchorPrice with
    | none => exact represents_fresh bid pool
    | some price => exact (represents_fresh bid pool).anchor price
  have hbid : (startSide bid anchorPrice).bid = bid := by cases anchorPrice <;> rfl
  obtain ⟨hbid', hrep⟩ := SideCall.performAll_spec calls (pool, startSide bid anchorPrice) []
    hbid hstart hlegal
  by_cases hnil : linked = []
  · have hnone : state.2.bestLevel = none := by
      change state.2.Represents state.1 linked at hrep
      rw [hnil] at hrep
      exact hrep.bestLevel_of_nil
    refine ⟨⟨fun _ => hnil, fun _ => hnone⟩, fun price ptr hsome => ?_⟩
    rw [hnone] at hsome
    cases hsome
  · obtain ⟨best, bestPtr, hbest⟩ := hrep.bestLevel_spec hnil
    have hresult : state.2.bestLevel = some (best, bestPtr) := hbest.result
    refine ⟨⟨fun hnone => ?_, fun h => absurd h hnil⟩, fun price ptr hsome => ?_⟩
    · rw [hresult] at hnone
      cases hnone
    · rw [hresult] at hsome
      cases hsome
      refine ⟨hbest.present, ?_, hbest.chain⟩
      intro other idx hmem
      have hahead := hbest.ahead other idx hmem
      rwa [hbid'] at hahead

/-- A sub-penny bid above a bid on the grid, matched once. -/
theorem ladderSide_ordered_subPenny :
    let calls : List SideCall :=
      [.add 1000050 0, .add 1000000 1, .add 1000050 2, .matchBest]
    let pool : OrderPool := { nodes := Array.replicate 3 default }
    let state := calls.foldl SideCall.perform (pool, startSide true none)
    state.2.bestLevel ≠ none ∧
      ∀ price ptr, state.2.bestLevel = some (price, ptr) → ¬ price < 1000050 := by
  intro calls pool state
  have hlegal : SideCall.AllLegal true pool.nodes.size [] calls :=
    ⟨by decide, by decide, by decide, by decide, trivial⟩
  obtain ⟨hnone, hsome⟩ := ladderSide_ordered true none pool calls hlegal
  have hlinked : calls.foldl (SideCall.effect true) [] = [(1000000, 1), (1000050, 2)] := by
    decide
  refine ⟨fun h => absurd (hnone.mp h) (by rw [hlinked]; simp), fun price ptr h => ?_⟩
  exact UInt32.not_lt.mpr ((hsome price ptr h).2.1 1000050 2 (by rw [hlinked]; simp))

end Orderbook
