/-
# How many slots are enough

`runUdp` sizes its pool by the remark that there must be at least as many slots as the ring has
cells, so that the network thread never misses one. A ring of `capacity` cells holds one packet
less than that, but the matching thread has one more in its hand, and the network thread needs
one for what it receives next. One slot more than cells is what it takes, and what is enough.
-/

import Orderbook.Feed.EndToEnd
import Orderbook.Feed.Ownership

namespace Orderbook

open Orderbook.Math

variable {port : UInt16} {numSlots capacity : ℕ} {pipe : Pipeline} {free : List UInt32}

/-- The network thread is at the top of the socket loop and goes on, and the ring holds packets
only. -/
structure Receiving (pipe : Pipeline) : Prop where
  network : pipe.network = .testing false
  stop : pipe.stop = false
  valid : ∀ ref ∈ pipe.ring, ref.poolIdx ≠ kPoolInvalid

/-- The free slots are those that are neither in the ring nor in the hand of the matching
thread. -/
theorem Owned.length_free {room : ℕ} (howned : Owned numSlots room pipe free)
    (hreceiving : Receiving pipe) :
    free.length + pipe.ring.length + pipe.matching.hand.toList.length = numSlots := by
  have hcount := Custody.length_store_of_perm howned.tokens
  have hsender : (pipe.custody free).sender = none := by
    rw [Pipeline.custody, hreceiving.network]
    rfl
  have hqueue : (pipe.custody free).queue.length = pipe.ring.length := by
    change (pipe.ring.filterMap PacketRef.slot).length = _
    rw [List.filterMap_length_eq_length]
    intro ref href
    rw [show ref.slot = some ref.poolIdx from if_neg (hreceiving.valid ref href)]
    rfl
  have hindices : (PacketPool.indices numSlots).length = numSlots := by
    rw [PacketPool.indices, List.length_map, List.length_range]
  rw [hindices, hsender, hqueue] at hcount
  exact hcount.symm

/-- A packet with the number that is expected is accepted. -/
theorem FeedState.exists_track_accepted (feed : FeedState) (bytes : ℕ) :
    ∃ next, (feed.countReceived bytes).track (oneMessage feed.nextExpected) =
      (next, .accepted) := by
  obtain ⟨next, htrack, _⟩ := (feed.countReceived bytes).track_of_expected
    (oneMessage feed.nextExpected) (fun _ => rfl) (show (1 : UInt16) ≠ _ by decide)
    (show (1 : UInt16) ≠ _ by decide)
  exact ⟨next, htrack⟩

/-- With a free slot and room in the ring one more packet gets into the ring. -/
theorem Reached.push_one (hsome : 0 < numSlots) (hslots : numSlots < 2 ^ 32)
    (hreached : Reached port numSlots capacity pipe) (hreceiving : Receiving pipe)
    (hfree : pipe.ring.length + pipe.matching.hand.toList.length < numSlots)
    (hroom : pipe.ring.length < capacity - 1) :
    ∃ next, Reached port numSlots capacity next ∧ Receiving next ∧
      next.matching = pipe.matching ∧ next.ring.length = pipe.ring.length + 1 := by
  obtain ⟨free, howned⟩ := Owned.of_reached hsome hslots hreached
  have hcount := howned.length_free hreceiving
  obtain ⟨slotIdx, rest, rfl⟩ := List.exists_cons_of_length_pos (show 0 < free.length by omega)
  have hvalid := howned.valid hslots (Custody.mem_tokens.mpr (.inl List.mem_cons_self))
  have hacquire := (howned.freeList.acquire hvalid).1
  have hbytes : received (oneMessage pipe.feed.nextExpected).wire =
      (oneMessage pipe.feed.nextExpected).wire :=
    List.take_of_length_le (by rw [MoldHeader.length_wire]; decide)
  have hlong : ¬ (received (oneMessage pipe.feed.nextExpected).wire).length < kMoldHeaderBytes := by
    rw [hbytes, MoldHeader.length_wire]
    exact Nat.lt_irrefl _
  have hheader : parseMoldHeader (.ofList (received (oneMessage pipe.feed.nextExpected).wire)) =
      oneMessage pipe.feed.nextExpected := by
    have hparse := parseMoldHeader_wire (oneMessage pipe.feed.nextExpected) []
    rwa [List.append_nil, ← hbytes] at hparse
  obtain ⟨feed, htrack⟩ := pipe.feed.exists_track_accepted
    (received (oneMessage pipe.feed.nextExpected).wire).length
  rw [← hheader] at htrack
  have hpushed := hreached.receive_push hreceiving.network hreceiving.stop hacquire hvalid hlong 0
    htrack hroom
  refine ⟨_, hpushed, ⟨rfl, hreceiving.stop, ?_⟩, rfl, ?_⟩
  · intro ref href
    rcases List.mem_append.mp href with hold | hnew
    · exact hreceiving.valid ref hold
    · rw [List.mem_singleton.mp hnew]
      exact hvalid
  · exact List.length_append

/-- The ring can be filled as far as there are slots and room. -/
theorem exists_reached_filled (port : UInt16) (capacity : ℕ) (hsome : 0 < numSlots)
    (hslots : numSlots < 2 ^ 32) (count : ℕ) (hcount : count ≤ numSlots)
    (hroom : count ≤ capacity - 1) :
    ∃ pipe, Reached port numSlots capacity pipe ∧ Receiving pipe ∧ pipe.matching = .popping 0 ∧
      pipe.ring.length = count := by
  induction count with
  | zero =>
      exact ⟨_, .single (.inl (.inl (.setUp _ false rfl))),
        ⟨rfl, rfl, fun _ hnone => absurd hnone List.not_mem_nil⟩, rfl, rfl⟩
  | succ count ih =>
      obtain ⟨pipe, hreached, hreceiving, hmatching, hlength⟩ := ih (by omega) (by omega)
      obtain ⟨next, hnext, hagain, hsame, hmore⟩ := hreached.push_one hsome hslots hreceiving
        (by rw [hmatching]; change _ + 0 < _; omega) (by omega)
      exact ⟨next, hnext, hagain, hsame.trans hmatching, by omega⟩

/-- When the ring and the matching thread have all slots, the next acquire fails. -/
theorem Reached.acquire_fails (hsome : 0 < numSlots) (hslots : numSlots < 2 ^ 32)
    (hreached : Reached port numSlots capacity pipe) (hreceiving : Receiving pipe)
    (hnone : pipe.ring.length + pipe.matching.hand.toList.length = numSlots) :
    ∃ next, Reached port numSlots capacity next ∧ next.network.Acquires ∧
      next.pool.acquire.1 = kPoolInvalid := by
  obtain ⟨free, howned⟩ := Owned.of_reached hsome hslots hreached
  have hcount := howned.length_free hreceiving
  obtain rfl : free = [] := List.eq_nil_of_length_eq_zero (by omega)
  refine ⟨_, hreached.tail (.inl (.inl (.loop pipe false hreceiving.network hreceiving.stop))),
    trivial, ?_⟩
  exact congrArg Prod.fst howned.freeList.acquire_nil

/-- The network thread can find the pool empty exactly when there are not more slots than the
ring has cells. As many slots as cells are one too few. -/
theorem acquire_fails_iff (port : UInt16) {numSlots capacity : ℕ} (hsome : 0 < numSlots)
    (hslots : numSlots < 2 ^ 32) (hcapacity : 2 ≤ capacity) :
    (∃ pipe, Reached port numSlots capacity pipe ∧ pipe.network.Acquires ∧
      pipe.pool.acquire.1 = kPoolInvalid) ↔ numSlots ≤ capacity := by
  constructor
  · rintro ⟨pipe, hreached, hacquires, hfails⟩
    by_contra hmore
    obtain ⟨free, howned⟩ := Owned.of_reached hsome hslots hreached
    have hhand : pipe.network.hand = none := by
      cases hpc : pipe.network with
      | acquiring => rfl
      | claiming => rfl
      | _ =>
          rw [hpc] at hacquires
          exact hacquires.elim
    obtain ⟨slotIdx, rest, rfl⟩ := howned.exists_free (by omega) hhand
    have hvalid := howned.valid hslots (Custody.mem_tokens.mpr (.inl List.mem_cons_self))
    exact hvalid ((howned.freeList.acquire hvalid).1.symm.trans hfails)
  · intro hle
    rcases Nat.lt_or_ge (capacity - 1) numSlots with hequal | hfew
    · obtain ⟨pipe, hreached, hreceiving, hmatching, hlength⟩ :=
        exists_reached_filled port capacity hsome hslots (capacity - 1) (by omega) (Nat.le_refl _)
      obtain ⟨ref, ring, hring⟩ :=
        List.exists_cons_of_length_pos (show 0 < pipe.ring.length by omega)
      have hvalid := hreceiving.valid ref (by rw [hring]; exact List.mem_cons_self)
      have hpopped := hreached.tail (.inl (.inr (.pop pipe 0 ref ring hmatching
        (hring ▸ .pop ref))))
      rw [if_neg hvalid] at hpopped
      rw [hring, List.length_cons] at hlength
      obtain ⟨next, hnext, hagain, hsame, hmore⟩ := Reached.push_one hsome hslots hpopped
        ⟨hreceiving.network, hreceiving.stop, fun other hother => hreceiving.valid other
          (by rw [hring]; exact List.mem_cons_of_mem _ hother)⟩
        (by change ring.length + 1 < numSlots; omega) (by change ring.length < _; omega)
      refine hnext.acquire_fails hsome hslots hagain ?_
      rw [hmore, hsame]
      change ring.length + 1 + 1 = numSlots
      omega
    · obtain ⟨pipe, hreached, hreceiving, hmatching, hlength⟩ :=
        exists_reached_filled port capacity hsome hslots numSlots (Nat.le_refl _) hfew
      refine hreached.acquire_fails hsome hslots hreceiving ?_
      rw [hmatching, hlength]
      rfl

theorem acquire_fails_iff_twoCells :
    ∃ pipe, Reached 0 2 2 pipe ∧ pipe.network.Acquires ∧ pipe.pool.acquire.1 = kPoolInvalid :=
  (acquire_fails_iff 0 (by decide) (by decide) (by decide)).mpr (by decide)

end Orderbook
