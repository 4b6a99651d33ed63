/-
# Ending the two threads

The matching thread leaves its pop loop when it pops the sentinel or reads the stop
flag as set. The flag is set by nobody but the matching thread itself, after its loop,
so all depends on the sentinel. The network thread pushes it at the end of the
session, and the ring has to take it unless the flag is already set.

When a set-up call or a receive fails, the network thread returns without a word. The
matching thread then pops what is left and goes on popping from an empty ring.
-/

import Orderbook.Feed.Pipeline
import Orderbook.Feed.Sequence

namespace Orderbook

open Orderbook.Math

/-- The network thread has returned without a sentinel, and the matching thread goes
on popping from an empty ring. -/
structure Abandoned (pipe : Pipeline) : Prop where
  finished : pipe.network = .finished
  ring : pipe.ring = []
  sentinel : pipe.feed.sentinel = none
  stop : pipe.stop = false
  inPopLoop : pipe.matching.InPopLoop

variable {port : UInt16} {room : ℕ} {pipe next : Pipeline}

/-- A thread that has returned makes no step. -/
theorem NetworkStep.network_ne_finished (hstep : NetworkStep port room pipe next) :
    pipe.network ≠ .finished := by
  intro hfinished
  cases hstep <;> simp_all

theorem NetworkFault.network_ne_finished (hfault : NetworkFault pipe next) :
    pipe.network ≠ .finished := by
  intro hfinished
  cases hfault <;> simp_all

/-- An abandoned matching thread stays abandoned. -/
theorem Abandoned.step (habandoned : Abandoned pipe) (hstep : PipelineStep port room pipe next) :
    Abandoned next := by
  have hfinished := habandoned.finished
  have hloop := habandoned.inPopLoop
  rcases hstep with (hnetwork | hmatching) | hfault
  · exact absurd hfinished hnetwork.network_ne_finished
  · cases hmatching with
    | pop spinBudget ref ring hpc hring =>
        have hempty := habandoned.ring
        rw [hring.of_popped] at hempty
        cases hempty
    | miss spinBudget ring hpc hring =>
        refine { habandoned with ring := hring.of_empty.2, inPopLoop := ?_ }
        dsimp only
        split <;> trivial
    | check hpc =>
        refine { habandoned with inPopLoop := ?_ }
        dsimp only
        rw [habandoned.stop]
        trivial
    | walk ref hpc =>
        rw [hpc] at hloop
        exact hloop.elim
    | release slotIdx hpc =>
        rw [hpc] at hloop
        exact hloop.elim
    | stop hpc =>
        rw [hpc] at hloop
        exact hloop.elim
    | join hpc hdone =>
        rw [hpc] at hloop
        exact hloop.elim
  · exact absurd hfinished hfault.network_ne_finished

/-- It never leaves its loop. -/
theorem Abandoned.forever (habandoned : Abandoned pipe)
    (hlater : Relation.ReflTransGen (PipelineStep port room) pipe next) : Abandoned next := by
  induction hlater with
  | refl => exact habandoned
  | tail _ hstep ih => exact ih.step hstep

/-- The network thread leaves only behind a sentinel or when it is stopped. -/
structure Announced (pipe : Pipeline) : Prop where
  finished : pipe.network = .finished → pipe.feed.sentinel ≠ none ∨ pipe.stop = true
  stays : ∀ slotIdx, pipe.network ≠ .releasing slotIdx .leave

theorem Resume.pc_ne_finished (resume : Resume) : resume.pc ≠ .finished := by
  cases resume <;> exact NetworkPc.noConfusion

theorem Resume.pc_ne_releasing (resume : Resume) (slotIdx : UInt32) (after : AfterRelease) :
    resume.pc ≠ .releasing slotIdx after := by
  cases resume <;> exact NetworkPc.noConfusion

namespace Announced

theorem initial (numSlots : ℕ) : Announced (.initial numSlots) :=
  ⟨NetworkPc.noConfusion, fun _ => NetworkPc.noConfusion⟩

theorem network (hannounced : Announced pipe) (hstep : NetworkStep port room pipe next) :
    Announced next := by
  cases hstep with
  | stopped useXdp hpc hstop => exact ⟨fun _ => .inr hstop, fun _ => NetworkPc.noConfusion⟩
  | loop useXdp hpc hstop =>
      cases useXdp <;> exact ⟨NetworkPc.noConfusion, fun _ => NetworkPc.noConfusion⟩
  | acquire hpc =>
      constructor
      · dsimp only
        split <;> exact NetworkPc.noConfusion
      · intro slotIdx
        dsimp only
        split <;> exact NetworkPc.noConfusion
  | receive slotIdx payload tWire hpc hlong feed verdict htrack =>
      cases verdict <;> exact ⟨NetworkPc.noConfusion, fun _ => by simp [afterReceive]⟩
  | scan tWire frame frames moldPkt hpc hsome feed verdict htrack =>
      cases verdict <;> exact ⟨NetworkPc.noConfusion, fun _ => NetworkPc.noConfusion⟩
  | push ref resume ring hpc hring =>
      exact ⟨fun hfinished => absurd hfinished resume.pc_ne_finished,
        fun slotIdx => resume.pc_ne_releasing slotIdx .leave⟩
  | release slotIdx after hpc =>
      cases after with
      | again resume =>
          exact ⟨fun hfinished => absurd hfinished resume.pc_ne_finished,
            fun slotIdx => resume.pc_ne_releasing slotIdx .leave⟩
      | leave => exact absurd hpc (hannounced.stays slotIdx)
      | endSession tWire => exact ⟨NetworkPc.noConfusion, fun _ => NetworkPc.noConfusion⟩
  | sentinel tWire ring hpc hring =>
      exact ⟨fun _ => .inl (Option.some_ne_none _), fun _ => NetworkPc.noConfusion⟩
  | waitStopped tWire hpc hstop => exact ⟨fun _ => .inr hstop, fun _ => NetworkPc.noConfusion⟩
  | _ => exact ⟨NetworkPc.noConfusion, fun _ => by simp⟩

theorem matching (hannounced : Announced pipe) (hstep : MatchingStep room pipe next) :
    Announced next := by
  cases hstep with
  | stop hpc => exact ⟨fun _ => .inr rfl, hannounced.stays⟩
  | _ => exact ⟨hannounced.finished, hannounced.stays⟩

theorem of_run {numSlots : ℕ}
    (hrun : Relation.ReflTransGen (OrdinaryStep port room) (.initial numSlots) pipe) :
    Announced pipe := by
  induction hrun with
  | refl => exact initial numSlots
  | tail _ hstep ih =>
      rcases hstep with hnetwork | hmatching
      · exact ih.network hnetwork
      · exact ih.matching hmatching

end Announced

/-- In every run in which the set-up succeeds and `recv` fails only when it is
interrupted, the matching thread is never left waiting on a dead producer. -/
theorem not_abandoned_of_no_fault (port : UInt16) (numSlots capacity : ℕ) {pipe : Pipeline}
    (hrun : Relation.ReflTransGen (OrdinaryStep port (capacity - 1)) (.initial numSlots) pipe) :
    ¬ Abandoned pipe := by
  intro habandoned
  rcases (Announced.of_run hrun).finished habandoned.finished with hsentinel | hstop
  · exact hsentinel habandoned.sentinel
  · rw [habandoned.stop] at hstop
    cases hstop

/-- A packet that ends the session. -/
def sessionEnd : MoldHeader := { oneMessage 1 with messageCount := kMoldEndOfSession }

/-- The state behind the end of a session that came in a frame. -/
def announcedEnd : Pipeline :=
  { Pipeline.initial kPoolSlots with
    ring := [⟨kPoolInvalid, 0⟩]
    network := .finished
    feed :=
      { (((({} : FeedState).countReceived sessionEnd.wire.length).track
          (parseMoldHeader (.ofList sessionEnd.wire))).1) with
        sentinel := some ⟨kPoolInvalid, 0⟩ } }

theorem not_abandoned_announcedEnd : ¬ Abandoned announcedEnd := by
  have hpacket : moldPacket 1 (udpFrame 1 sessionEnd.wire) = some sessionEnd.wire := by
    decide +kernel
  have hverdict : ((({} : FeedState).countReceived sessionEnd.wire.length).track
      (parseMoldHeader (.ofList sessionEnd.wire))).2 = .endOfSession := by decide +kernel
  refine not_abandoned_of_no_fault 1 kPoolSlots kRingSlots ?_
  refine .tail (.tail (.tail (.tail (.single (.inl (.setUp _ true rfl)))
    (.inl (.loop _ true rfl rfl)))
    (.inl (.peek _ 0 [udpFrame 1 sessionEnd.wire] rfl (by decide))))
    (.inl (.scan _ 0 (udpFrame 1 sessionEnd.wire) [] sessionEnd.wire rfl hpacket _ _
      (Prod.ext rfl hverdict)))) (.inl ?_)
  exact .sentinel _ 0 _ rfl (.push _ (by decide))

/-- The network thread of `runUdp` in front of its first `recv`. -/
def firstReceive : Pipeline :=
  { Pipeline.initial kPoolSlots with
    pool := (PacketPool.create kPoolSlots).acquire.2
    network := .receiving 0 }

theorem reached_firstReceive : Reached 0 kPoolSlots kRingSlots firstReceive := by
  refine .tail (.tail (.single (.inl (.inl (.setUp _ false rfl))))
    (.inl (.inl (.loop _ false rfl rfl)))) (.inl (.inl ?_))
  exact .acquire _ rfl

/-- A set-up call fails, and the matching thread is left in its loop. The same happens
when the first `recv` fails. -/
theorem abandoned_reached :
    (∃ pipe, NetworkFault (.initial kPoolSlots) pipe ∧ Reached 0 kPoolSlots kRingSlots pipe ∧
      Abandoned pipe) ∧
    ∃ failed pipe, NetworkFault firstReceive failed ∧ Reached 0 kPoolSlots kRingSlots failed ∧
      Relation.ReflTransGen (PipelineStep 0 (kRingSlots - 1)) failed pipe ∧ Abandoned pipe := by
  constructor
  · have hfault := NetworkFault.setUp (.initial kPoolSlots) rfl
    exact ⟨_, hfault, .single (.inr hfault), ⟨rfl, rfl, rfl, rfl, trivial⟩⟩
  · have hfault := NetworkFault.recv firstReceive 0 rfl
    exact ⟨_, _, hfault, .tail reached_firstReceive (.inr hfault),
      .single (.inl (.inl (.release _ 0 .leave rfl))), ⟨rfl, rfl, rfl, rfl, trivial⟩⟩

end Orderbook
