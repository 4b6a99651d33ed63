/-
# Receiving the end of a session

When the socket loop receives the end of the session into a slot, it counts it, gives
the slot back, pushes the sentinel behind the packets in the ring and returns. The ring
may be full, but only the matching thread takes from it and nobody else puts anything
in, so the sentinel gets in as soon as one packet has been popped.

When the pool is exhausted, a datagram goes into a throwaway buffer, and the loop goes
on without a look at its header. The end of a session that arrives then is lost.
-/

import Orderbook.Feed.Ownership
import Orderbook.Feed.Shutdown
import Orderbook.Math.Fairness

namespace Orderbook

open Orderbook.Math

/-- A datagram that ends the session: it has a header, and the header says so. -/
structure IsSessionEnd (payload : List UInt8) : Prop where
  long : ¬ (received payload).length < kMoldHeaderBytes
  marker : (parseMoldHeader (.ofList (received payload))).messageCount = kMoldEndOfSession

/-- The step in which the socket loop receives a datagram that has a header, into the
throwaway buffer or into a slot. -/
inductive TakesDatagram (payload : List UInt8) : Pipeline → Pipeline → Prop
  | intoScratch (pipe : Pipeline) (hpc : pipe.network = .draining) :
      TakesDatagram payload pipe
        { pipe with feed := pipe.feed.drain (.datagram payload), network := .testing false }
  | intoSlot (pipe : Pipeline) (slotIdx : UInt32) (tWire : UInt64)
      (hpc : pipe.network = .receiving slotIdx) (feed : FeedState) (verdict : Verdict)
      (htrack : (pipe.feed.countReceived (received payload).length).track
        (parseMoldHeader (.ofList (received payload))) = (feed, verdict)) :
      TakesDatagram payload pipe
        { pipe with
          pool := pipe.pool.modify slotIdx fun slot => slot.fill (received payload)
          feed
          network := afterReceive slotIdx tWire verdict }

variable {port : UInt16} {room : ℕ} {pipe next later : Pipeline} {payload : List UInt8}

theorem TakesDatagram.networkStep (htakes : TakesDatagram payload pipe next)
    (hlong : ¬ (received payload).length < kMoldHeaderBytes) :
    NetworkStep port room pipe next := by
  cases htakes with
  | intoScratch hpc => exact .drain pipe (.datagram payload) hpc
  | intoSlot slotIdx tWire hpc feed verdict htrack =>
      exact .receive pipe slotIdx payload tWire hpc hlong feed verdict htrack

/-- The matching thread is out of its loop. -/
def MatchingPc.Left : MatchingPc → Prop
  | stopping => True
  | joining => True
  | done => True
  | _ => False

/-- The sentinel is the last thing the network thread does, and the only thing that ends
the loop of the matching thread. -/
structure SentinelLast (pipe : Pipeline) : Prop where
  pending : pipe.network ≠ .finished → pipe.feed.sentinel = none
  hand : ∀ slotIdx, pipe.network.hand = some slotIdx → slotIdx ≠ kPoolInvalid
  ring : ∀ ref ∈ pipe.ring, ref.poolIdx = kPoolInvalid → pipe.feed.sentinel ≠ none
  left : pipe.matching.Left → pipe.feed.sentinel ≠ none
  stop : pipe.stop = true → pipe.feed.sentinel ≠ none

theorem FeedState.sentinel_track (state : FeedState) (hdr : MoldHeader) :
    (state.track hdr).1.sentinel = state.sentinel := by
  have hinit : (state.initSession hdr).sentinel = state.sentinel := by
    unfold initSession
    split <;> rfl
  have hresync : ((state.initSession hdr).resync hdr).sentinel = state.sentinel := by
    unfold resync
    split <;> exact hinit
  unfold track
  dsimp only
  split
  · exact hinit
  · split
    · exact hinit
    · split
      · exact hinit
      · exact hresync

theorem FeedState.sentinel_drain (state : FeedState) (recv : RecvResult) :
    (state.drain recv).sentinel = state.sentinel := by
  cases recv with
  | failed => rfl
  | datagram payload =>
      unfold drain
      dsimp only
      split <;> rfl

/-- A step of the network thread pushes the sentinel and returns, or it leaves the
sentinel alone and pushes at most the packet in its hand. -/
inductive Announces (room : ℕ) (pipe next : Pipeline) : Prop
  | silent (hsentinel : next.feed.sentinel = pipe.feed.sentinel)
      (hring : next.ring = pipe.ring ∨ ∃ ref resume, pipe.network = .pushing ref resume ∧
        next.ring = pipe.ring ++ [ref]) : Announces room pipe next
  | sentinel (tWire : UInt64) (hpc : pipe.network = .sealing tWire)
      (hroom : pipe.ring.length < room) (hring : next.ring = pipe.ring ++ [⟨kPoolInvalid, tWire⟩])
      (hsentinel : next.feed.sentinel = some ⟨kPoolInvalid, tWire⟩)
      (hfinished : next.network = .finished) : Announces room pipe next

theorem NetworkStep.announces (hstep : NetworkStep port room pipe next) :
    Announces room pipe next := by
  cases hstep with
  | drain recv hpc => exact .silent (pipe.feed.sentinel_drain recv) (.inl rfl)
  | receive slotIdx payload tWire hpc hlong feed verdict htrack =>
      refine .silent ?_ (.inl rfl)
      have htracked := FeedState.sentinel_track (pipe.feed.countReceived (received payload).length)
        (parseMoldHeader (.ofList (received payload)))
      rw [htrack] at htracked
      exact htracked
  | scan tWire frame frames moldPkt hpc hsome feed verdict htrack =>
      refine .silent ?_ (.inl rfl)
      have htracked := FeedState.sentinel_track (pipe.feed.countReceived moldPkt.length)
        (parseMoldHeader (.ofList moldPkt))
      rw [htrack] at htracked
      exact htracked
  | push ref resume ring hpc hring =>
      exact .silent rfl (.inr ⟨ref, resume, hpc, hring.of_pushed.2⟩)
  | refuse ref resume ring hpc hring => exact .silent rfl (.inl hring.of_refused.2)
  | sentinel tWire ring hpc hring =>
      exact .sentinel tWire hpc hring.of_pushed.1 hring.of_pushed.2 rfl rfl
  | sentinelRefused tWire ring hpc hring => exact .silent rfl (.inl hring.of_refused.2)
  | _ => exact .silent rfl (.inl rfl)

theorem NetworkStep.matching_eq (hstep : NetworkStep port room pipe next) :
    next.matching = pipe.matching ∧ next.stop = pipe.stop := by
  cases hstep <;> exact ⟨rfl, rfl⟩

theorem MatchingStep.feed_eq (hstep : MatchingStep room pipe next) : next.feed = pipe.feed := by
  cases hstep <;> rfl

namespace SentinelLast

theorem initial (numSlots : ℕ) : SentinelLast (.initial numSlots) where
  pending _ := rfl
  hand _ hnone := nomatch hnone
  ring _ hnone := absurd hnone List.not_mem_nil
  left hnever := hnever.elim
  stop hnever := nomatch hnever

/-- A slot in the hand of the network thread came from the pool. -/
theorem hand_step (hlast : SentinelLast pipe) (hstep : PipelineStep port room pipe next) :
    ∀ slotIdx, next.network.hand = some slotIdx → slotIdx ≠ kPoolInvalid := by
  intro slotIdx hnext
  cases hstep.slotMove with
  | quiet _ _ hnetwork _ => exact hlast.hand slotIdx (hnetwork ▸ hnext)
  | write _ _ _ _ _ hnetwork _ => exact hlast.hand slotIdx (hnetwork ▸ hnext)
  | take hslot _ _ _ hnetwork _ =>
      rw [hnetwork] at hnext
      cases hnext
      exact hslot
  | putBack _ _ _ _ hnetwork _ =>
      rw [hnetwork] at hnext
      cases hnext
  | send _ _ _ _ _ hnetwork _ =>
      rw [hnetwork] at hnext
      cases hnext
  | sentinel _ _ _ hnetwork _ => exact hlast.hand slotIdx (hnetwork ▸ hnext)
  | deliver _ _ _ _ hnetwork _ => exact hlast.hand slotIdx (hnetwork ▸ hnext)
  | finish _ _ _ _ hnetwork _ => exact hlast.hand slotIdx (hnetwork ▸ hnext)

theorem network (hlast : SentinelLast pipe) (hstep : NetworkStep port room pipe next) :
    SentinelLast next := by
  have hpending := hlast.pending hstep.network_ne_finished
  obtain ⟨hmatching, hstop⟩ := hstep.matching_eq
  cases hstep.announces with
  | silent hsentinel hring =>
      refine ⟨fun _ => hsentinel.trans hpending, hlast.hand_step (.inl (.inl hstep)), ?_, ?_, ?_⟩
      · rw [hsentinel]
        rcases hring with hsame | ⟨ref, resume, hpc, hpushed⟩
        · rw [hsame]
          exact hlast.ring
        · rw [hpushed]
          intro other hmem hinvalid
          rcases List.mem_append.mp hmem with hold | hnew
          · exact hlast.ring other hold hinvalid
          · rw [List.mem_singleton.mp hnew] at hinvalid
            exact absurd hinvalid (hlast.hand ref.poolIdx (by rw [hpc]; rfl))
      · rw [hsentinel, hmatching]
        exact hlast.left
      · rw [hsentinel, hstop]
        exact hlast.stop
  | sentinel tWire _ _ _ hsentinel hfinished =>
      have hsome : next.feed.sentinel ≠ none := by
        rw [hsentinel]
        exact Option.some_ne_none _
      exact ⟨fun hnot => absurd hfinished hnot, hlast.hand_step (.inl (.inl hstep)),
        fun _ _ _ => hsome, fun _ => hsome, fun _ => hsome⟩

theorem matching (hlast : SentinelLast pipe) (hstep : MatchingStep room pipe next) :
    SentinelLast next := by
  have hhand : ∀ slotIdx, next.network.hand = some slotIdx → slotIdx ≠ kPoolInvalid := by
    rw [hstep.network_eq.1]
    exact hlast.hand
  cases hstep with
  | pop spinBudget ref ring hpc hring =>
      have hmem := hring.of_popped
      refine ⟨hlast.pending, hhand, ?_, ?_, hlast.stop⟩
      · intro other hother
        exact hlast.ring other (hmem ▸ List.mem_cons_of_mem _ hother)
      · intro hleft
        dsimp only at hleft
        split at hleft
        case isTrue hinvalid => exact hlast.ring ref (hmem ▸ List.mem_cons_self) hinvalid
        case isFalse => exact hleft.elim
  | miss spinBudget ring hpc hring =>
      refine ⟨hlast.pending, hhand, ?_, ?_, hlast.stop⟩
      · intro other hother
        dsimp only at hother
        rw [hring.of_empty.2] at hother
        exact absurd hother List.not_mem_nil
      · intro hleft
        dsimp only at hleft
        split at hleft <;> exact hleft.elim
  | check hpc =>
      refine ⟨hlast.pending, hhand, hlast.ring, ?_, hlast.stop⟩
      intro hleft
      dsimp only at hleft
      split at hleft
      case isTrue hstop => exact hlast.stop hstop
      case isFalse => exact hleft.elim
  | walk ref hpc =>
      exact ⟨hlast.pending, hhand, hlast.ring, fun hleft => hleft.elim, hlast.stop⟩
  | release slotIdx hpc =>
      exact ⟨hlast.pending, hhand, hlast.ring, fun hleft => hleft.elim, hlast.stop⟩
  | stop hpc =>
      have hleft := hlast.left (by rw [hpc]; trivial)
      exact ⟨hlast.pending, hhand, hlast.ring, fun _ => hleft, fun _ => hleft⟩
  | join hpc hfinished =>
      have hleft := hlast.left (by rw [hpc]; trivial)
      exact ⟨hlast.pending, hhand, hlast.ring, fun _ => hleft, hlast.stop⟩

theorem step (hlast : SentinelLast pipe) (hstep : PipelineStep port room pipe next) :
    SentinelLast next := by
  have hhand := hlast.hand_step hstep
  rcases hstep with (hnetwork | hmatching) | hfault
  · exact hlast.network hnetwork
  · exact hlast.matching hmatching
  · have hpending := hlast.pending hfault.network_ne_finished
    cases hfault with
    | setUp hpc => exact ⟨fun _ => hpending, hhand, hlast.ring, hlast.left, hlast.stop⟩
    | recv slotIdx hpc => exact ⟨fun _ => hpending, hhand, hlast.ring, hlast.left, hlast.stop⟩

theorem of_reached {numSlots capacity : ℕ} (hreached : Reached port numSlots capacity pipe) :
    SentinelLast pipe := by
  induction hreached with
  | refl => exact initial numSlots
  | tail _ hstep ih => exact ih.step hstep

end SentinelLast

/-- The network thread is on its way out after the end of the session. It does not
receive any more. -/
def NetworkPc.Leaving : NetworkPc → Prop
  | releasing _ (.endSession _) => True
  | sealing _ => True
  | waiting _ => True
  | finished => True
  | _ => False

theorem NetworkPc.Leaving.of_eq {pc other : NetworkPc} (hleaving : pc.Leaving)
    (hpc : pc = other) : other.Leaving :=
  hpc ▸ hleaving

/-- The turns that a leaving thread needs when the ring has room. -/
def NetworkPc.turnsLeft : NetworkPc → ℕ
  | releasing _ _ => 2
  | waiting _ => 2
  | sealing _ => 1
  | _ => 0

/-- A leaving thread pushes the sentinel and returns, or it comes closer to that unless
the ring is full. -/
theorem NetworkStep.of_leaving (hstep : NetworkStep port room pipe next)
    (hleaving : pipe.network.Leaving) (hlast : SentinelLast pipe) :
    (next.network = .finished ∧ ∃ tWire, next.ring = pipe.ring ++ [⟨kPoolInvalid, tWire⟩] ∧
      next.feed.sentinel = some ⟨kPoolInvalid, tWire⟩) ∨
    next.network.Leaving ∧ next.network ≠ .finished ∧ next.ring = pipe.ring ∧
      next.feed.sentinel = pipe.feed.sentinel ∧
      (pipe.ring.length < room → next.network.turnsLeft < pipe.network.turnsLeft) := by
  have hpending := hlast.pending hstep.network_ne_finished
  cases hstep with
  | release slotIdx after hpc =>
      rw [hpc] at hleaving ⊢
      cases after with
      | endSession tWire =>
          exact .inr ⟨trivial, NetworkPc.noConfusion, rfl, rfl, fun _ => Nat.lt_succ_self 1⟩
      | again => exact hleaving.elim
      | leave => exact hleaving.elim
  | sentinel tWire ring hpc hring => exact .inl ⟨rfl, tWire, hring.of_pushed.2, rfl⟩
  | sentinelRefused tWire ring hpc hring =>
      obtain ⟨hfull, hsame⟩ := hring.of_refused
      exact .inr ⟨trivial, NetworkPc.noConfusion, hsame, rfl,
        fun hroom => absurd hfull (Nat.ne_of_lt hroom)⟩
  | waitStopped tWire hpc hstop => exact absurd hpending (hlast.stop hstop)
  | waitOn tWire hpc hstop =>
      rw [hpc]
      exact .inr ⟨trivial, NetworkPc.noConfusion, rfl, rfl, fun _ => Nat.lt_succ_self 1⟩
  | setUp useXdp hpc => exact (hleaving.of_eq hpc).elim
  | stopped useXdp hpc hstop => exact (hleaving.of_eq hpc).elim
  | loop useXdp hpc hstop => exact (hleaving.of_eq hpc).elim
  | acquire hpc => exact (hleaving.of_eq hpc).elim
  | drain recv hpc => exact (hleaving.of_eq hpc).elim
  | interrupted slotIdx hpc => exact (hleaving.of_eq hpc).elim
  | short slotIdx payload hpc hshort => exact (hleaving.of_eq hpc).elim
  | receive slotIdx payload tWire hpc hlong feed verdict htrack => exact (hleaving.of_eq hpc).elim
  | peek tWire frames hpc hbatch => exact (hleaving.of_eq hpc).elim
  | batchDone tWire hpc => exact (hleaving.of_eq hpc).elim
  | skip tWire frame frames hpc hnone => exact (hleaving.of_eq hpc).elim
  | scan tWire frame frames moldPkt hpc hsome feed verdict htrack =>
      exact (hleaving.of_eq hpc).elim
  | claim moldPkt tWire frames hpc hslot => exact (hleaving.of_eq hpc).elim
  | noSlot moldPkt tWire frames hpc hslot => exact (hleaving.of_eq hpc).elim
  | copy slotIdx moldPkt tWire frames hpc => exact (hleaving.of_eq hpc).elim
  | push ref resume ring hpc hring => exact (hleaving.of_eq hpc).elim
  | refuse ref resume ring hpc hring => exact (hleaving.of_eq hpc).elim

theorem NetworkFault.not_leaving (hfault : NetworkFault pipe next) : ¬ pipe.network.Leaving := by
  intro hleaving
  cases hfault with
  | setUp hpc => exact hleaving.of_eq hpc
  | recv slotIdx hpc => exact hleaving.of_eq hpc

/-- The matching thread takes at most the first packet from the ring. -/
theorem MatchingStep.ring_eq (hstep : MatchingStep room pipe next) :
    ∃ popped, pipe.ring = popped ++ next.ring := by
  cases hstep with
  | pop spinBudget ref ring hpc hring => exact ⟨[ref], hring.of_popped⟩
  | miss spinBudget ring hpc hring =>
      exact ⟨[], hring.of_empty.1.trans hring.of_empty.2.symm⟩
  | _ => exact ⟨[], rfl⟩

/-- A state behind the end of a session that was received when the ring held `ring`: the
sentinel comes behind these packets, and nothing else does. -/
structure Ending (ring : List PacketRef) (later : Pipeline) : Prop where
  leaving : later.network.Leaving
  last : SentinelLast later
  ordered : ∃ popped, ring ++ later.feed.sentinel.toList = popped ++ later.ring
  announced : later.network = .finished →
    ∃ tWire, later.feed.sentinel = some ⟨kPoolInvalid, tWire⟩

theorem Ending.start {slotIdx : UInt32} {tWire : UInt64} (hlast : SentinelLast pipe)
    (hpc : pipe.network = .releasing slotIdx (.endSession tWire)) : Ending pipe.ring pipe := by
  have hrunning : pipe.network ≠ .finished := by
    rw [hpc]
    exact NetworkPc.noConfusion
  refine ⟨?_, hlast, ⟨[], ?_⟩, fun hfinished => absurd hfinished hrunning⟩
  · rw [hpc]
    trivial
  · rw [hlast.pending hrunning, Option.toList_none, List.append_nil, List.nil_append]

theorem Ending.step {ring : List PacketRef} (hending : Ending ring pipe)
    (hstep : PipelineStep port room pipe next) : Ending ring next := by
  have hlast := hending.last.step hstep
  obtain ⟨popped, hordered⟩ := hending.ordered
  rcases hstep with (hnetwork | hmatching) | hfault
  · have hpending := hending.last.pending hnetwork.network_ne_finished
    rcases hnetwork.of_leaving hending.leaving hending.last with
      ⟨hfinished, tWire, hring, hsentinel⟩ | ⟨hleaving, hrunning, hring, hsentinel, _⟩
    · refine ⟨?_, hlast, ⟨popped, ?_⟩, fun _ => ⟨tWire, hsentinel⟩⟩
      · rw [hfinished]
        trivial
      · rw [hpending, Option.toList_none, List.append_nil] at hordered
        rw [hsentinel, hring, hordered, Option.toList_some, List.append_assoc]
    · refine ⟨hleaving, hlast, ⟨popped, ?_⟩, fun hfinished => absurd hfinished hrunning⟩
      rw [hsentinel, hring]
      exact hordered
  · obtain ⟨more, hring⟩ := hmatching.ring_eq
    refine ⟨?_, hlast, ⟨popped ++ more, ?_⟩, ?_⟩
    · rw [hmatching.network_eq.1]
      exact hending.leaving
    · rw [hmatching.feed_eq, List.append_assoc, ← hring]
      exact hordered
    · rw [hmatching.network_eq.1, hmatching.feed_eq]
      exact hending.announced
  · exact absurd hending.leaving hfault.not_leaving

theorem Ending.of_later {ring : List PacketRef} (hending : Ending ring pipe)
    (hlater : Relation.ReflTransGen (PipelineStep port room) pipe later) : Ending ring later := by
  induction hlater with
  | refl => exact hending
  | tail _ hstep ih => exact ih.step hstep

/-- An infinite run in which both threads take turns again and again until the network
thread has returned. There may be times at which neither takes one. -/
structure FairRun (port : UInt16) (room : ℕ) (start : Pipeline) where
  state : ℕ → Pipeline
  starts : state 0 = start
  steps : ∀ time, state (time + 1) = state time ∨
    PipelineStep port room (state time) (state (time + 1))
  network : ∀ time, ∃ later, time ≤ later ∧
    (NetworkStep port room (state later) (state (later + 1)) ∨
      (state later).network = .finished)
  matching : ∀ time, ∃ later, time ≤ later ∧
    (MatchingStep room (state later) (state (later + 1)) ∨ (state later).network = .finished)

/-- The turns that the matching thread needs to get to its next pop. -/
def MatchingPc.turnsToPop : MatchingPc → ℕ
  | popping _ => 1
  | checking => 2
  | walking _ => 3
  | releasing _ => 2
  | _ => 0

/-- The turns that the matching thread needs to empty the ring. -/
def Pipeline.turnsToEmpty (pipe : Pipeline) : ℕ := 4 * pipe.ring.length + pipe.matching.turnsToPop

/-- As long as the network thread has not returned and the ring is not empty, the matching
thread comes closer to emptying it. -/
theorem MatchingStep.turnsToEmpty_lt (hstep : MatchingStep room pipe next)
    (hlast : SentinelLast pipe) (hrunning : pipe.network ≠ .finished) (hmore : pipe.ring ≠ []) :
    next.turnsToEmpty < pipe.turnsToEmpty := by
  have hpending := hlast.pending hrunning
  unfold Pipeline.turnsToEmpty
  cases hstep with
  | pop spinBudget ref ring hpc hring =>
      have hlength := congrArg List.length hring.of_popped
      rw [List.length_cons] at hlength
      rw [hpc, hlength]
      dsimp only
      split <;> simp only [MatchingPc.turnsToPop] <;> omega
  | miss spinBudget ring hpc hring => exact absurd hring.of_empty.1 hmore
  | check hpc =>
      have hgoing : pipe.stop = false := by
        cases hstop : pipe.stop with
        | false => rfl
        | true => exact absurd hpending (hlast.stop hstop)
      rw [hpc, hgoing]
      exact Nat.lt_succ_self _
  | walk ref hpc =>
      rw [hpc]
      exact Nat.lt_succ_self _
  | release slotIdx hpc =>
      rw [hpc]
      exact Nat.lt_succ_self _
  | stop hpc => exact absurd hpending (hlast.left (by rw [hpc]; trivial))
  | join hpc _ => exact absurd hpending (hlast.left (by rw [hpc]; trivial))

namespace Ending

variable {ring : List PacketRef}

/-- A step of a thread while the ring is full: the network thread does not change what
the matching thread needs. -/
theorem turnsToEmpty_le (hending : Ending ring pipe) (hstep : PipelineStep port room pipe next)
    (hmore : pipe.ring ≠ []) :
    next.network = .finished ∨ next.turnsToEmpty ≤ pipe.turnsToEmpty := by
  rcases hstep with (hnetwork | hmatching) | hfault
  · rcases hnetwork.of_leaving hending.leaving hending.last with
      ⟨hfinished, _⟩ | ⟨_, _, hring, _⟩
    · exact .inl hfinished
    · right
      rw [Pipeline.turnsToEmpty, Pipeline.turnsToEmpty, hring, hnetwork.matching_eq.1]
  · by_cases hfinished : pipe.network = .finished
    · exact .inl (hmatching.network_eq.1.trans hfinished)
    · exact .inr (hmatching.turnsToEmpty_lt hending.last hfinished hmore).le
  · exact absurd hending.leaving hfault.not_leaving

/-- Once the ring has room it keeps it until the sentinel is in. -/
theorem room_step (hending : Ending ring pipe) (hstep : PipelineStep port room pipe next)
    (hroom : pipe.ring.length < room) :
    next.network = .finished ∨
      next.ring.length < room ∧ next.network.turnsLeft ≤ pipe.network.turnsLeft := by
  rcases hstep with (hnetwork | hmatching) | hfault
  · rcases hnetwork.of_leaving hending.leaving hending.last with
      ⟨hfinished, _⟩ | ⟨_, _, hring, _, hless⟩
    · exact .inl hfinished
    · exact .inr ⟨hring ▸ hroom, (hless hroom).le⟩
  · right
    obtain ⟨popped, hring⟩ := hmatching.ring_eq
    rw [hring, List.length_append] at hroom
    rw [hmatching.network_eq.1]
    exact ⟨by omega, Nat.le_refl _⟩
  · exact absurd hending.leaving hfault.not_leaving

/-- In a fair run the matching thread makes room, and then the network thread returns. -/
theorem returns {start : Pipeline} (hending : Ending ring start) (hsome : 0 < room)
    (run : FairRun port room start) : ∃ time, (run.state time).network = .finished := by
  have hall : ∀ time, Ending ring (run.state time) := by
    intro time
    induction time with
    | zero =>
        rw [run.starts]
        exact hending
    | succ time ih =>
        rcases run.steps time with hidle | hstep
        · rw [hidle]
          exact ih
        · exact ih.step hstep
  have hroom : ∃ time, 0 ≤ time ∧ ((run.state time).network = .finished ∨
      (run.state time).ring.length < room) := by
    refine exists_goal_of_rank (fun _ => True) _
      (fun time => MatchingStep room (run.state time) (run.state (time + 1)))
      (fun time => (run.state time).turnsToEmpty) ?_ ?_ ?_ trivial
    · intro time
      obtain ⟨later, hlater, hturn⟩ := run.matching time
      exact ⟨later, hlater, hturn.imp_right .inl⟩
    · intro time _ hfull
      push Not at hfull
      have hmore := List.ne_nil_of_length_pos (hsome.trans_le hfull.2)
      rcases run.steps time with hidle | hstep
      · rw [hidle]
        exact .inr ⟨trivial, Nat.le_refl _⟩
      · exact ((hall time).turnsToEmpty_le hstep hmore).imp .inl fun hle => ⟨trivial, hle⟩
    · intro time _ hfull hturn
      push Not at hfull
      have hmore := List.ne_nil_of_length_pos (hsome.trans_le hfull.2)
      exact .inr (hturn.turnsToEmpty_lt (hall time).last hfull.1 hmore)
  obtain ⟨time, _, hfinished | hless⟩ := hroom
  · exact ⟨time, hfinished⟩
  · have hdone : ∃ later, time ≤ later ∧ (run.state later).network = .finished := by
      refine exists_goal_of_rank (fun time => (run.state time).ring.length < room) _
        (fun time => NetworkStep port room (run.state time) (run.state (time + 1)))
        (fun time => (run.state time).network.turnsLeft) run.network ?_ ?_ hless
      · intro time hholds _
        rcases run.steps time with hidle | hstep
        · rw [hidle]
          exact .inr ⟨hholds, Nat.le_refl _⟩
        · exact (hall time).room_step hstep hholds
      · intro time hholds _ hturn
        rcases hturn.of_leaving (hall time).leaving (hall time).last with
          ⟨hfinished, _⟩ | ⟨_, _, _, _, hlower⟩
        · exact .inl hfinished
        · exact .inr (hlower hholds)
    obtain ⟨later, _, hfinished⟩ := hdone
    exact ⟨later, hfinished⟩

end Ending

/-! ## The end of a session -/

/-- The end of a session was received as it should be: it is counted, no datagram is
taken after it, the sentinel is put behind the packets in the ring and behind nothing
else, the network thread does not return without it, and it does return. -/
structure SessionEnds (port : UInt16) (room : ℕ) (pipe next : Pipeline) : Prop where
  counted : next.feed.stats.endOfSession = pipe.feed.stats.endOfSession + 1
  leaving : ∀ later, Relation.ReflTransGen (PipelineStep port room) next later →
    later.network.Leaving
  ordered : ∀ later, Relation.ReflTransGen (PipelineStep port room) next later →
    ∃ popped, pipe.ring ++ later.feed.sentinel.toList = popped ++ later.ring
  announced : ∀ later, Relation.ReflTransGen (PipelineStep port room) next later →
    later.network = .finished → ∃ tWire, later.feed.sentinel = some ⟨kPoolInvalid, tWire⟩
  returns : ∀ run : FairRun port room next, ∃ time, (run.state time).network = .finished

/-- Nothing is made of the end of a session in the throwaway buffer. -/
theorem FeedState.endOfSession_drain (state : FeedState) (recv : RecvResult) :
    (state.drain recv).stats.endOfSession = state.stats.endOfSession := by
  cases recv with
  | failed => rfl
  | datagram payload =>
      unfold drain
      dsimp only
      split <;> rfl

/-- For every size of the pool, every arrival of datagrams and every schedule of the
threads, the end of a session that the socket loop receives ends it exactly when it is
not received into the throwaway buffer. The ring has room for one packet at least. -/
theorem sessionEnd_seen_iff (port : UInt16) (numSlots capacity : ℕ) (hcapacity : 2 ≤ capacity)
    {pipe next : Pipeline} (hreached : Reached port numSlots capacity pipe)
    {payload : List UInt8} (hend : IsSessionEnd payload)
    (htakes : TakesDatagram payload pipe next) :
    SessionEnds port (capacity - 1) pipe next ↔ pipe.network ≠ .draining := by
  have hlast := SentinelLast.of_reached hreached
  have hstep : PipelineStep port (capacity - 1) pipe next :=
    .inl (.inl (htakes.networkStep hend.long))
  have hlater := hlast.step hstep
  constructor
  · intro hends hdraining
    cases htakes with
    | intoScratch hpc =>
        have hcounted := hends.counted
        dsimp only at hcounted
        rw [FeedState.endOfSession_drain] at hcounted
        omega
    | intoSlot slotIdx tWire hpc feed verdict htrack =>
        rw [hpc] at hdraining
        cases hdraining
  · intro hslot
    cases htakes with
    | intoScratch hpc => exact absurd hpc hslot
    | intoSlot slotIdx tWire hpc feed verdict htrack =>
        obtain ⟨counted, hcounted, hcount, _, _⟩ := FeedState.track_of_end
          (pipe.feed.countReceived (received payload).length) _ hend.marker
        obtain ⟨rfl, rfl⟩ := Prod.mk.inj (htrack.symm.trans hcounted)
        have hending := Ending.start hlater rfl
        exact ⟨hcount, fun _ hrun => (hending.of_later hrun).leaving,
          fun _ hrun => (hending.of_later hrun).ordered,
          fun _ hrun => (hending.of_later hrun).announced,
          hending.returns (by omega)⟩

/-- The end of the session arrives as the first datagram. -/
theorem sessionEnd_seen_firstReceive :
    ∃ next, TakesDatagram sessionEnd.wire firstReceive next ∧
      SessionEnds 0 (kRingSlots - 1) firstReceive next := by
  have hend : IsSessionEnd sessionEnd.wire := ⟨by decide +kernel, by decide +kernel⟩
  have htakes : TakesDatagram sessionEnd.wire firstReceive _ :=
    .intoSlot firstReceive 0 0 rfl _ _ rfl
  exact ⟨_, htakes, (sessionEnd_seen_iff 0 kPoolSlots kRingSlots (by decide)
    reached_firstReceive hend htakes).mpr NetworkPc.noConfusion⟩

/-- The only slot is in the ring, and the socket loop stands in front of the throwaway
buffer. -/
def exhaustedPool : Pipeline :=
  { Pipeline.initial 1 with
    pool := ((PacketPool.create 1).acquire.2.modify 0 fun slot =>
      slot.fill (received (oneMessage 1).wire)).acquire.2
    ring := [⟨0, 0⟩]
    network := .draining
    feed := ((({} : FeedState).countReceived (received (oneMessage 1).wire).length).track
      (parseMoldHeader (.ofList (received (oneMessage 1).wire)))).1 }

theorem reached_exhaustedPool : Reached 0 1 kRingSlots exhaustedPool := by
  have hverdict : ((({} : FeedState).countReceived (received (oneMessage 1).wire).length).track
      (parseMoldHeader (.ofList (received (oneMessage 1).wire)))).2 = .accepted := by
    decide +kernel
  have hready : Reached 0 1 kRingSlots { Pipeline.initial 1 with network := .testing false } :=
    .single (.inl (.inl (.setUp _ false rfl)))
  have hpushed := hready.receive_push rfl rfl (show _ = (0 : UInt32) from rfl) (by decide)
    (by decide +kernel) 0 (Prod.ext rfl hverdict) (by decide)
  have hloop := hpushed.tail (.inl (.inl (.loop _ false rfl rfl)))
  exact hloop.tail (.inl (.inl (.acquire _ rfl)))

theorem sessionEnd_missed_exhaustedPool :
    Reached 0 1 kRingSlots exhaustedPool ∧ exhaustedPool.stop = false ∧
      IsSessionEnd sessionEnd.wire ∧
      ∃ next, TakesDatagram sessionEnd.wire exhaustedPool next ∧
        ¬ SessionEnds 0 (kRingSlots - 1) exhaustedPool next := by
  refine ⟨reached_exhaustedPool, rfl, ⟨by decide +kernel, by decide +kernel⟩, _, .intoScratch _ rfl,
    fun hends => ?_⟩
  have hcounted := hends.counted
  dsimp only at hcounted
  rw [FeedState.endOfSession_drain] at hcounted
  omega

end Orderbook