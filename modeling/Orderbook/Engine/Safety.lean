/-
# Safety of whole runs

Three properties hold after every message of every stream, whatever types,
references, sides and prices it contains: the representation invariant, that no
map entry dangles, and that no book is crossed. They need two bounds. The order
map must have room, and the arena must not reach the size of its index type.

The second bound does not follow from the first. Orders under the reserved key,
and orders whose reference was taken over, rest without an entry in the map, so
any number of them can rest while the map is almost empty. Each property fails in
a run that exceeds the second bound only.
-/

import Orderbook.Engine.Exhaustion

namespace Orderbook

open Orderbook.Math LadderSide

namespace MatchingEngine

variable {stream : List Delivery}

/-- A bid for one share in book 2 that rests without an entry in the map. -/
def unlistedBid (price : UInt32) : Order where
  orderReferenceNumberHigh := 0xFFFFFFFF
  orderReferenceNumberLow := 0xFFFFFFFF
  shares := 1
  price
  buySellIndicator := buyByte

theorem unlisted_unlistedBid (price : UInt32) : Unlisted (unlistedBid price) where
  side := rfl
  shares := show (1 : UInt32) ≠ 0 by decide
  ref_eq := show joinRef 0xFFFFFFFF 0xFFFFFFFF = HashPolicy.identity.empty by decide

/-- A stream of all kinds of messages: a match, a partial execution, a reference
that is used again while it is live, a replacement and a deletion. -/
def mixedStream : List Delivery :=
  [.of (.add 1 ⟨0, 7, 5, 1000000, buyByte⟩), .of (.add 1 ⟨0, 8, 9, 1000050, sellByte⟩),
    .of (.executed ⟨8, 2⟩), .of (.add 1 ⟨0, 7, 4, 1000050, buyByte⟩),
    .of (.replace ⟨8, 9, 6, 999900⟩), .of (.add 3 ⟨0, 9, 1, 5, 0⟩), .of (.delete ⟨0, 9⟩)]

theorem within_mixedStream : Within mixedStream :=
  within_of_length_lt (by decide)

/-- In every run within the bounds, the representation invariant holds after every
message. -/
theorem wellFormed_of_within (hwithin : Within stream) :
    ∀ past, past <+: stream →
      ∃ engine trace, Reached past engine trace ∧ engine.WellFormed := by
  intro past hpast
  obtain ⟨engine, market, trace, hrun⟩ := exists_jointRun (hwithin.of_prefix hpast)
  exact ⟨engine, trace, hrun.reached, hrun.represents.wellFormed⟩

theorem wellFormed_mixedStream :
    ∃ engine trace, Reached mixedStream engine trace ∧ engine.WellFormed :=
  wellFormed_of_within within_mixedStream mixedStream (List.prefix_refl _)

/-- Without the bound on the arena the invariant fails, although the order map is
empty all the time. -/
theorem not_wellFormed_of_pile :
    ∃ stream engine trace,
      (∀ past, past <+: stream → ∀ engine trace, Reached past engine trace →
        engine.entries < 2 ^ mapBits) ∧
      Reached stream engine trace ∧ ¬ engine.WellFormed := by
  have hwithin : Within [] := within_of_length_lt (by decide)
  have hroom := (hwithin [] (List.prefix_refl _) _ _ reached_nil).1
  have hstacked : Stacked 2 (fun _ => none) initial :=
    represents_initial.stacked rfl (by simp)
  have hdecoded := Delivery.decoded_of (.add 2 (unlistedBid 100))
  obtain ⟨engine, trace, hreached, _, _, hslots, _⟩ :=
    hstacked.pile reached_nil hroom (unlisted_unlistedBid 100) hdecoded (2 ^ 32)
  refine ⟨_, engine, trace, ?_, hreached, not_wellFormed_of_slots ?_⟩
  · exact hstacked.entries_lt reached_nil (unlisted_unlistedBid 100) hdecoded
      (fun past hpast engine trace hreached => (hwithin past hpast engine trace hreached).1) _
  · rw [hslots]
    exact Nat.le_add_left _ _

/-- A location leads to an allocated slot that is linked in the book it names and
stores the order with the reference it is found under. -/
structure Owns (engine : MatchingEngine) (ref : UInt64) (location : OrderLocation) : Prop where
  allocated : location.poolIdx.toNat < engine.slots ∧ location.poolIdx ∉ engine.freeSlots
  linked : location.poolIdx ∈ engine.bookSlots location.stockLocate
  stored : (engine.order location.poolIdx).ref = ref

theorem Represents.owns {engine : MatchingEngine} {market : Market}
    (hrep : engine.Represents market) {ref : UInt64} {location : OrderLocation}
    (hentry : market.directory ref = some location) : engine.Owns ref location := by
  obtain ⟨resting, hmem, hlocate, hslot, href⟩ := hrep.sound.directory ref location hentry
  obtain ⟨_, hnodup, _⟩ := hrep.freeSlots_spec
  obtain ⟨locate, slot⟩ := location
  obtain rfl : resting.locate = locate := hlocate
  obtain rfl : resting.slot = slot := hslot
  refine ⟨⟨hrep.books.slot_lt hmem, fun hfree => ?_⟩, ?_, ?_⟩
  · exact (List.nodup_append.mp hnodup).2.2 _ hfree _ (List.mem_map_of_mem hmem) rfl
  · exact hrep.mem_bookSlots.mpr ⟨resting, hmem, rfl, rfl⟩
  · rw [hrep.order_slot hmem, href]

/-- In every run within the bounds, no entry of the order map dangles after any
message, and every message that looks an order up finds that order's own slot. -/
theorem owns_of_within (hwithin : Within stream) :
    ∀ past, past <+: stream → ∃ engine trace, Reached past engine trace ∧
      (∀ ref location, engine.Entry ref location → engine.Owns ref location) ∧
      ∀ transition ∈ trace, ∀ ref location, transition.message.target = some ref →
        transition.before.orderMap.find .identity ref = some (some location) →
        transition.before.Owns ref location := by
  intro past hpast
  obtain ⟨engine, market, trace, hrun⟩ := exists_jointRun (hwithin.of_prefix hpast)
  refine ⟨engine, trace, hrun.reached, ?_, ?_⟩
  · intro ref location hentry
    exact hrun.represents.owns ((entry_iff hrun.represents.directory).mp hentry)
  · intro transition hmem ref location _ hfind
    obtain ⟨before, market', earlier, hbefore, hrun'⟩ := hrun.exists_before transition hmem
    have hroom := (hwithin before (hbefore.trans hpast) _ _ hrun'.reached).1
    have hrep := hrun'.represents
    rw [hrep.directory.find (hrep.free hroom), Option.some.injEq] at hfind
    exact hrep.owns hfind

theorem owns_mixedStream :
    ∃ engine trace, Reached mixedStream engine trace ∧
      ∀ ref location, engine.Entry ref location → engine.Owns ref location := by
  obtain ⟨engine, trace, hreached, howns, _⟩ :=
    owns_of_within within_mixedStream mixedStream (List.prefix_refl _)
  exact ⟨engine, trace, hreached, howns⟩

/-- A first bid under reference 1 in book 2. -/
def listedBid : Order := { unlistedBid 100 with
  orderReferenceNumberHigh := 0, orderReferenceNumberLow := 1 }

/-- One listed bid in slot 0. -/
theorem exists_listedBid :
    ∃ engine trace, Reached [.of (.add 2 listedBid)] engine trace ∧ engine.slots = 1 ∧
      ∃ directory, Stacked 2 directory engine ∧
        directory 1 = some { stockLocate := 2, poolIdx := 0 } := by
  have hwithin : Within [] := within_of_length_lt (by decide)
  have hroom := (hwithin [] (List.prefix_refl _) _ _ reached_nil).1
  have hside : ValidSide listedBid.buySellIndicator := .inl rfl
  obtain ⟨engine, market, trace, hrun, hlive, hdirectory, hfull, hslots⟩ :=
    JointRun.start.add_to_full rfl hroom (by decide) 2 listedBid hside (by decide) (by simp)
  refine ⟨engine, trace, hrun.reached, hslots, market.directory, ?_, ?_⟩
  · apply hrun.represents.stacked hfull
    intro resting hmem _
    rw [hlive] at hmem
    obtain rfl := List.mem_singleton.mp hmem
    rfl
  · rw [hdirectory]
    decide

/-- Without the bound on the arena an entry dangles: the slot it leads to was
written over by an order with another reference. -/
theorem not_owns_of_pile :
    ∃ stream engine trace,
      (∀ past, past <+: stream → ∀ engine trace, Reached past engine trace →
        engine.entries < 2 ^ mapBits) ∧
      Reached stream engine trace ∧
      ∃ ref location, engine.Entry ref location ∧ ¬ engine.Owns ref location := by
  have hwithin : Within [.of (.add 2 listedBid)] := within_of_length_lt (by decide)
  obtain ⟨first, trace, hreached, hslots, directory, hstacked, hentry⟩ := exists_listedBid
  have hroom := (hwithin _ (List.prefix_refl _) _ _ hreached).1
  have hdecoded := Delivery.decoded_of (.add 2 (unlistedBid 100))
  obtain ⟨engine, trace', hreached', hlast, _, _, horder, _⟩ :=
    hstacked.pile hreached hroom (unlisted_unlistedBid 100) hdecoded (2 ^ 32)
  refine ⟨_, engine, trace', ?_, hreached', 1, { stockLocate := 2, poolIdx := 0 }, ?_, ?_⟩
  · exact hstacked.entries_lt hreached (unlisted_unlistedBid 100) hdecoded
      (fun past hpast engine trace hreached => (hwithin past hpast engine trace hreached).1) _
  · exact (entry_iff hlast.map).mpr hentry
  · intro howns
    have hstored := howns.stored
    change (engine.order 0).ref = 1 at hstored
    rw [horder, if_pos ⟨2 ^ 32 - 1, by decide, by rw [hslots]; rfl⟩,
      (unlisted_unlistedBid 100).ref_eq] at hstored
    exact absurd hstored (by decide)

/-- In every book, every resting bid is below every resting ask. -/
def Uncrossed (engine : MatchingEngine) : Prop :=
  ∀ locate, ∀ bid ∈ engine.sideSlots locate true, ∀ ask ∈ engine.sideSlots locate false,
    (engine.order bid).price < (engine.order ask).price

/-- In every run within the bounds, no book is crossed after any message. -/
theorem uncrossed_of_within (hwithin : Within stream) :
    ∀ past, past <+: stream →
      ∃ engine trace, Reached past engine trace ∧ engine.Uncrossed := by
  intro past hpast
  obtain ⟨engine, market, trace, hrun⟩ := exists_jointRun (hwithin.of_prefix hpast)
  have hrep := hrun.represents
  refine ⟨engine, trace, hrun.reached, fun locate bid hbid ask hask => ?_⟩
  obtain ⟨first, hfirst, hlocate, hbuy, rfl⟩ := hrep.mem_sideSlots.mp hbid
  obtain ⟨second, hsecond, hlocate', hsell, rfl⟩ := hrep.mem_sideSlots.mp hask
  rw [hrep.order_slot hfirst, hrep.order_slot hsecond]
  exact hrep.sound.uncrossed first hfirst second hsecond (hlocate.trans hlocate'.symm) hbuy hsell

theorem uncrossed_mixedStream :
    ∃ engine trace, Reached mixedStream engine trace ∧ engine.Uncrossed :=
  uncrossed_of_within within_mixedStream mixedStream (List.prefix_refl _)

/-- An ask for one share that rests without an entry in the map. -/
def unlistedAsk (price : UInt32) : Order := { unlistedBid price with buySellIndicator := sellByte }

/-- A book with a bid in slot 0 and an ask in slot 1. -/
theorem exists_bidAndAsk :
    ∃ engine trace,
      Reached [.of (.add 1 (unlistedBid 100)), .of (.add 1 (unlistedAsk 150))] engine trace ∧
      engine.slots = 2 ∧ (engine.order 1).price = 150 ∧
      (∃ level ∈ (engine.sides 1 true).levels, level.head = 0) ∧
      (∃ level ∈ (engine.sides 1 false).levels, level.head = 1) ∧
      ∃ directory, Stacked 2 directory engine := by
  have hwithin : Within [.of (.add 1 (unlistedBid 100))] := within_of_length_lt (by decide)
  have hroom := (hwithin [] List.nil_prefix _ _ reached_nil).1
  obtain ⟨first, market, trace, hrun, hlive, _, hfull, hslots⟩ :=
    JointRun.start.add_to_full rfl hroom (by decide) 1 (unlistedBid 100) (.inl rfl) (by decide)
      (by simp)
  have hroom' := (hwithin _ (List.prefix_refl _) _ _ hrun.reached).1
  have hnone : ∀ resting ∈ market.live,
      (Resting.rules 1 (unlistedAsk 150)).eligible resting = false := by
    intro resting hmem
    rw [hlive] at hmem
    obtain rfl := List.mem_singleton.mp hmem
    decide
  obtain ⟨second, market', trace', hrun', hlive', _, hfull', hslots'⟩ :=
    hrun.add_to_full hfull hroom' (by rw [hslots]; decide) 1 (unlistedAsk 150) (.inr rfl)
      (by decide) hnone
  have hrep := hrun'.represents
  have hfirstSlot : initial.nextSlot = 0 := rfl
  have hsecondSlot : first.nextSlot = 1 := by
    rw [nextSlot, hslots]
    rfl
  rw [hlive, hfirstSlot, hsecondSlot] at hlive'
  change market'.live = [⟨1, 0, unlistedBid 100⟩, ⟨1, 1, unlistedAsk 150⟩] at hlive'
  refine ⟨second, trace', hrun'.reached, by rw [hslots', hslots]; rfl, ?_, ?_, ?_,
    market'.directory, ?_⟩
  · have hmem : (⟨1, 1, unlistedAsk 150⟩ : Resting) ∈ market'.live := by simp [hlive']
    rw [show (1 : UInt32) = (⟨1, 1, unlistedAsk 150⟩ : Resting).slot from rfl,
      hrep.order_slot hmem]
    rfl
  · have hone : sideOrders 1 true market'.live = [(100, 0)] := by
      rw [hlive']
      decide
    exact hrep.exists_head hone
  · have hone : sideOrders 1 false market'.live = [(150, 1)] := by
      rw [hlive']
      decide
    exact hrep.exists_head hone
  · apply hrep.stacked hfull'
    intro resting hmem hlocate
    rw [hlive'] at hmem
    rcases List.mem_pair.mp hmem with rfl | rfl
    · exact absurd hlocate (by decide)
    · exact absurd hlocate (by decide)

/-- Without the bound on the arena a book is crossed: the slot of its bid was
written over by an order of another book with a higher price. -/
theorem not_uncrossed_of_pile :
    ∃ stream engine trace,
      (∀ past, past <+: stream → ∀ engine trace, Reached past engine trace →
        engine.entries < 2 ^ mapBits) ∧
      Reached stream engine trace ∧ ¬ engine.Uncrossed := by
  have hwithin : Within [.of (.add 1 (unlistedBid 100)), .of (.add 1 (unlistedAsk 150))] :=
    within_of_length_lt (by decide)
  obtain ⟨first, trace, hreached, hslots, hask, ⟨bids, hbids, hbidsHead⟩,
    ⟨asks, hasks, hasksHead⟩, directory, hstacked⟩ := exists_bidAndAsk
  have hroom := (hwithin _ (List.prefix_refl _) _ _ hreached).1
  have hdecoded := Delivery.decoded_of (.add 2 (unlistedBid 200))
  obtain ⟨engine, trace', hreached', _, _, hslots', horder, hbooks⟩ :=
    hstacked.pile hreached hroom (unlisted_unlistedBid 200) hdecoded (2 ^ 32 - 1)
  have hsides : ∀ bid, engine.sides 1 bid = first.sides 1 bid := fun bid => by
    rw [sides, sides, hbooks 1 (by decide)]
  have hpos : 0 < engine.slots := by
    rw [hslots', hslots]
    exact Nat.add_pos_left (by decide) _
  refine ⟨_, engine, trace', ?_, hreached', fun huncrossed => ?_⟩
  · exact hstacked.entries_lt hreached (unlisted_unlistedBid 200) hdecoded
      (fun past hpast engine trace hreached => (hwithin past hpast engine trace hreached).1) _
  · have hbid := head_mem_sideSlots (hsides true ▸ hbids) (by rw [hbidsHead]; decide) hpos
    have hask' := head_mem_sideSlots (hsides false ▸ hasks) (by rw [hasksHead]; decide) hpos
    have hlt := huncrossed 1 _ hbid _ hask'
    have hkept : ¬ ∃ earlier < 2 ^ 32 - 1, (1 : UInt32) = UInt32.ofNat (2 + earlier) := by
      rintro ⟨earlier, hearlier, heq⟩
      have htoNat := congrArg UInt32.toNat heq
      rw [UInt32.toNat_ofNat'] at htoNat
      change 1 = _ at htoNat
      omega
    rw [hbidsHead, hasksHead, horder, horder, hslots,
      if_pos ⟨2 ^ 32 - 2, by decide, by decide⟩, if_neg hkept, hask] at hlt
    exact absurd hlt (by decide)

end MatchingEngine

end Orderbook
