/-
# Fair runs of the two threads

Both threads take turns again and again until they are done. Then every packet in the ring is
popped, whatever the network thread does in the meantime. After the end of a session the
sentinel gets into the ring, the matching thread works its way up to it, and both threads end
with an empty ring.

Between its pops the matching thread has a bounded number of turns, and the network thread
cannot take a place in front of a packet that is in the ring. That gives the rank; what has to
be excluded is that the matching thread leaves its loop while packets are waiting. Here it always
comes back from the messages of a packet; whether it does is up to the engine.
-/

import Orderbook.Feed.SessionEnd

namespace Orderbook

open Orderbook.Math

variable {port : UInt16} {room : ℕ} {pipe next start : Pipeline}

/-- Nothing is put into the ring behind the sentinel, and the matching thread leaves its loop
with it. -/
structure SentinelEnds (pipe : Pipeline) : Prop where
  last : ∀ ref ∈ pipe.ring.dropLast, ref.poolIdx ≠ kPoolInvalid
  left : pipe.matching.Left → pipe.ring = []
  stop : pipe.stop = true → pipe.matching.Left
  waits : pipe.feed.sentinel ≠ none → ¬ pipe.matching.Left →
    ∃ ref ∈ pipe.ring, ref.poolIdx = kPoolInvalid

namespace SentinelEnds

/-- As long as the matching thread is in its loop, nobody is stopped. -/
theorem stop_eq_false (hends : SentinelEnds pipe) (hstays : ¬ pipe.matching.Left) :
    pipe.stop = false :=
  Bool.eq_false_iff.mpr fun hstop => hstays (hends.stop hstop)

theorem initial (numSlots : ℕ) : SentinelEnds (.initial numSlots) where
  last _ hnone := absurd hnone List.not_mem_nil
  left hnever := hnever.elim
  stop hnever := nomatch hnever
  waits hsome := absurd rfl hsome

theorem network (hends : SentinelEnds pipe) (hlast : SentinelLast pipe)
    (hstep : NetworkStep port room pipe next) : SentinelEnds next := by
  have hpending := hlast.pending hstep.network_ne_finished
  have hvalid : ∀ ref ∈ pipe.ring, ref.poolIdx ≠ kPoolInvalid :=
    fun ref href hinvalid => hlast.ring ref href hinvalid hpending
  have hstays : ¬ pipe.matching.Left := fun hleft => hlast.left hleft hpending
  obtain ⟨hmatching, hstop⟩ := hstep.matching_eq
  refine ⟨?_, fun hleft => absurd (hmatching ▸ hleft) hstays, ?_, ?_⟩
  · intro ref href
    cases hstep.announces with
    | silent _ hring =>
        rcases hring with hsame | ⟨other, _, _, hpushed⟩
        · exact hends.last ref (hsame ▸ href)
        · rw [hpushed, List.dropLast_concat] at href
          exact hvalid ref href
    | sentinel _ _ _ hring _ _ =>
        rw [hring, List.dropLast_concat] at href
        exact hvalid ref href
  · rw [hmatching, hstop]
    exact hends.stop
  · intro hsome _
    cases hstep.announces with
    | silent hsentinel _ => exact absurd (hsentinel.trans hpending) hsome
    | sentinel tWire _ _ hring _ _ =>
        refine ⟨⟨kPoolInvalid, tWire⟩, ?_, rfl⟩
        rw [hring]
        exact List.mem_append_right _ List.mem_cons_self

theorem matching (hends : SentinelEnds pipe) (hstep : MatchingStep room pipe next) :
    SentinelEnds next := by
  have hloop : ¬ pipe.matching.Left → pipe.stop = true → next.matching.Left :=
    fun hstays hstop => absurd (hends.stop hstop) hstays
  cases hstep with
  | pop spinBudget ref ring hpc hring =>
      have hmem := hring.of_popped
      have hstays : ¬ pipe.matching.Left := by
        rw [hpc]
        exact id
      refine ⟨?_, ?_, hloop hstays, ?_⟩
      · intro other hother
        refine hends.last other ?_
        rw [hmem]
        cases ring with
        | nil => cases hother
        | cons => exact List.mem_cons_of_mem _ hother
      · intro hleft
        cases ring with
        | nil => rfl
        | cons second later =>
            have hvalid := hends.last ref (by rw [hmem]; exact List.mem_cons_self)
            dsimp only at hleft
            rw [if_neg hvalid] at hleft
            exact hleft.elim
      · intro hsome hgoes
        obtain ⟨other, hother, hinvalid⟩ := hends.waits hsome hstays
        rw [hmem] at hother
        rcases List.mem_cons.mp hother with rfl | hlater
        · dsimp only at hgoes
          rw [if_pos hinvalid] at hgoes
          exact absurd trivial hgoes
        · exact ⟨other, hlater, hinvalid⟩
  | miss spinBudget ring hpc hring =>
      obtain ⟨hempty, rfl⟩ := hring.of_empty
      have hstays : ¬ pipe.matching.Left := by
        rw [hpc]
        exact id
      refine ⟨fun _ hnone => absurd hnone List.not_mem_nil, fun _ => rfl, hloop hstays, ?_⟩
      intro hsome _
      obtain ⟨other, hother, _⟩ := hends.waits hsome hstays
      rw [hempty] at hother
      exact absurd hother List.not_mem_nil
  | check hpc =>
      have hstays : ¬ pipe.matching.Left := by
        rw [hpc]
        exact id
      have hgoing := hends.stop_eq_false hstays
      refine ⟨hends.last, fun hleft => ?_, hloop hstays, fun hsome _ => hends.waits hsome hstays⟩
      dsimp only at hleft
      rw [hgoing] at hleft
      exact hleft.elim
  | walk ref hpc =>
      have hstays : ¬ pipe.matching.Left := by
        rw [hpc]
        exact id
      exact ⟨hends.last, fun hleft => hleft.elim, hloop hstays,
        fun hsome _ => hends.waits hsome hstays⟩
  | release slotIdx hpc =>
      have hstays : ¬ pipe.matching.Left := by
        rw [hpc]
        exact id
      exact ⟨hends.last, fun hleft => hleft.elim, hloop hstays,
        fun hsome _ => hends.waits hsome hstays⟩
  | stop hpc =>
      have hleft : pipe.matching.Left := by
        rw [hpc]
        trivial
      exact ⟨hends.last, fun _ => hends.left hleft, fun _ => trivial,
        fun _ hnever => absurd trivial hnever⟩
  | join hpc hfinished =>
      have hleft : pipe.matching.Left := by
        rw [hpc]
        trivial
      exact ⟨hends.last, fun _ => hends.left hleft, fun _ => trivial,
        fun _ hnever => absurd trivial hnever⟩

theorem step (hends : SentinelEnds pipe) (hlast : SentinelLast pipe)
    (hstep : PipelineStep port room pipe next) : SentinelEnds next := by
  rcases hstep with (hnetwork | hmatching) | hfault
  · exact hends.network hlast hnetwork
  · exact hends.matching hmatching
  · cases hfault <;> exact ⟨hends.last, hends.left, hends.stop, hends.waits⟩

theorem of_reached {numSlots capacity : ℕ} (hreached : Reached port numSlots capacity pipe) :
    SentinelEnds pipe := by
  induction hreached with
  | refl => exact initial numSlots
  | tail hbefore hstep ih => exact ih.step (.of_reached hbefore) hstep

end SentinelEnds

/-! ## Fair runs -/

/-- An infinite run in which each thread takes turns again and again until it is done. There may
be times at which neither takes one. -/
structure FairThreads (port : UInt16) (room : ℕ) (start : Pipeline) where
  state : ℕ → Pipeline
  starts : state 0 = start
  steps : ∀ time, state (time + 1) = state time ∨
    PipelineStep port room (state time) (state (time + 1))
  network : ∀ time, ∃ later, time ≤ later ∧
    (NetworkStep port room (state later) (state (later + 1)) ∨
      (state later).network = .finished)
  matching : ∀ time, ∃ later, time ≤ later ∧
    (MatchingStep room (state later) (state (later + 1)) ∨ (state later).matching = .done)

namespace FairThreads

/-- What every step keeps holds throughout. -/
theorem keeps (run : FairThreads port room start) (holds : Pipeline → Prop)
    (hstep : ∀ pipe next, holds pipe → PipelineStep port room pipe next → holds next)
    (hstart : holds start) (time : ℕ) : holds (run.state time) := by
  induction time with
  | zero =>
      rw [run.starts]
      exact hstart
  | succ time ih =>
      rcases run.steps time with hidle | hmoved
      · rw [hidle]
        exact ih
      · exact hstep _ _ ih hmoved

theorem sentinel (run : FairThreads port room start) (hlast : SentinelLast start)
    (hends : SentinelEnds start) (time : ℕ) :
    SentinelLast (run.state time) ∧ SentinelEnds (run.state time) :=
  run.keeps (fun pipe => SentinelLast pipe ∧ SentinelEnds pipe)
    (fun _ _ hboth hstep => ⟨hboth.1.step hstep, hboth.2.step hboth.1 hstep⟩) ⟨hlast, hends⟩ time

/-- The packets popped before a point in time: the ring gets shorter by these only. -/
def pops (run : FairThreads port room start) : ℕ → ℕ
  | 0 => 0
  | time + 1 =>
      run.pops time + ((run.state time).ring.length - (run.state (time + 1)).ring.length)

end FairThreads

/-- A step takes from the front of the ring or puts something behind it. -/
theorem PipelineStep.ring_cases (hstep : PipelineStep port room pipe next) :
    (∃ popped, pipe.ring = popped ++ next.ring) ∨ ∃ pushed, next.ring = pipe.ring ++ pushed := by
  rcases hstep with (hnetwork | hmatching) | hfault
  · right
    cases hnetwork.announces with
    | silent _ hring =>
        rcases hring with hsame | ⟨ref, _, _, hpushed⟩
        · exact ⟨[], hsame.trans (List.append_nil _).symm⟩
        · exact ⟨[ref], hpushed⟩
    | sentinel tWire _ _ hring _ _ => exact ⟨_, hring⟩
  · exact .inl hmatching.ring_eq
  · cases hfault <;> exact .inr ⟨[], (List.append_nil _).symm⟩

namespace FairThreads

/-- What was popped came from the front of the ring. -/
theorem ring_eq (run : FairThreads port room start) (time : ℕ) :
    ∃ popped pushed, start.ring ++ pushed = popped ++ (run.state time).ring ∧
      popped.length = run.pops time := by
  induction time with
  | zero => exact ⟨[], [], by rw [run.starts, List.append_nil, List.nil_append], rfl⟩
  | succ time ih =>
      obtain ⟨popped, pushed, hring, hcount⟩ := ih
      rw [pops, ← hcount]
      rcases run.steps time with hidle | hstep
      · refine ⟨popped, pushed, ?_, ?_⟩
        · rw [hidle]
          exact hring
        · rw [hidle, Nat.sub_self]
          rfl
      · rcases hstep.ring_cases with ⟨more, hmore⟩ | ⟨more, hmore⟩
        · refine ⟨popped ++ more, pushed, ?_, ?_⟩
          · rw [List.append_assoc, ← hmore]
            exact hring
          · rw [hmore, List.length_append, List.length_append, Nat.add_sub_cancel]
        · refine ⟨popped, pushed ++ more, ?_, ?_⟩
          · rw [hmore, ← List.append_assoc, hring, List.append_assoc]
          · rw [hmore, List.length_append, Nat.sub_eq_zero_of_le (Nat.le_add_right _ _)]
            rfl

end FairThreads

/-- The turns that the matching thread needs to return when the sentinel is in the ring. -/
def MatchingPc.turnsToReturn : MatchingPc → ℕ
  | popping _ => 4
  | checking => 5
  | walking _ => 6
  | releasing _ => 5
  | stopping => 2
  | joining => 1
  | done => 0

/-- With the sentinel in the ring every turn of the matching thread takes it closer to its
return. -/
theorem MatchingStep.turnsToReturn_lt (hstep : MatchingStep room pipe next)
    (hends : SentinelEnds pipe) (hannounced : pipe.feed.sentinel ≠ none) :
    4 * next.ring.length + next.matching.turnsToReturn <
      4 * pipe.ring.length + pipe.matching.turnsToReturn := by
  cases hstep with
  | pop spinBudget ref ring hpc hring =>
      rw [hpc, hring.of_popped, List.length_cons]
      dsimp only
      split <;> simp only [MatchingPc.turnsToReturn] <;> omega
  | miss spinBudget ring hpc hring =>
      obtain ⟨ref, href, _⟩ := hends.waits hannounced (by rw [hpc]; exact id)
      rw [hring.of_empty.1] at href
      exact absurd href List.not_mem_nil
  | check hpc =>
      rw [hpc]
      dsimp only
      split <;> simp only [MatchingPc.turnsToReturn] <;> omega
  | walk ref hpc =>
      rw [hpc]
      exact Nat.lt_succ_self _
  | release slotIdx hpc =>
      rw [hpc]
      exact Nat.lt_succ_self _
  | stop hpc =>
      rw [hpc]
      exact Nat.lt_succ_self _
  | join hpc _ =>
      rw [hpc]
      exact Nat.lt_succ_self _

/-- A network thread that is on its way out stands behind the end of a session. -/
theorem Ending.of_leaving (hlast : SentinelLast pipe) (hleaving : pipe.network.Leaving)
    (hrunning : pipe.network ≠ .finished) : Ending pipe.ring pipe := by
  refine ⟨hleaving, hlast, ⟨[], ?_⟩, fun hfinished => absurd hfinished hrunning⟩
  rw [hlast.pending hrunning, Option.toList_none, List.append_nil, List.nil_append]

/-- A run that is fair to the matching thread until it returns is fair to it until the network
thread has returned. -/
def FairThreads.fairRun (run : FairThreads port room start)
    (hdone : ∀ time, (run.state time).matching = .done → (run.state time).network = .finished) :
    FairRun port room start where
  state := run.state
  starts := run.starts
  steps := run.steps
  network := run.network
  matching time := by
    obtain ⟨later, hlater, hturn⟩ := run.matching time
    exact ⟨later, hlater, hturn.imp_right (hdone later)⟩

/-- When the network thread is on its way out after the end of a session, in the socket loop or
in the frame loop, every fair run comes to a point at which both threads have returned and the
ring is empty. The ring has room for one packet at least. -/
theorem FairThreads.returns {numSlots capacity : ℕ} (run : FairThreads port (capacity - 1) start)
    (hcapacity : 2 ≤ capacity) (hreached : Reached port numSlots capacity start)
    (hleaving : start.network.Leaving) (hrunning : start.network ≠ .finished) :
    ∃ time, (run.state time).matching = .done ∧ (run.state time).network = .finished ∧
      (run.state time).ring = [] := by
  have hall := run.sentinel (.of_reached hreached) (.of_reached hreached)
  have hstart : Ending start.ring start := .of_leaving (.of_reached hreached) hleaving hrunning
  have hending : ∀ time, Ending start.ring (run.state time) :=
    run.keeps _ (fun _ _ hending hstep => hending.step hstep) hstart
  have hfinished : ∀ time, (run.state time).matching.Left →
      (run.state time).network = .finished := by
    intro time hleft
    by_contra hgoing
    exact (hall time).1.left hleft ((hall time).1.pending hgoing)
  have hdone : ∀ time, (run.state time).matching = .done →
      (run.state time).network = .finished := by
    intro time hpc
    refine hfinished time ?_
    rw [hpc]
    trivial
  obtain ⟨first, hsealed⟩ := hstart.returns (by omega) (run.fairRun hdone)
  obtain ⟨time, _, hreturned⟩ : ∃ time, first ≤ time ∧ (run.state time).matching = .done := by
    refine exists_goal_of_rank (fun time => (run.state time).network = .finished)
      (fun time => (run.state time).matching = .done)
      (fun time => MatchingStep (capacity - 1) (run.state time) (run.state (time + 1)))
      (fun time => 4 * (run.state time).ring.length + (run.state time).matching.turnsToReturn)
      run.matching ?_ ?_ hsealed
    · intro time hhere _
      have hannounced : (run.state time).feed.sentinel ≠ none := by
        obtain ⟨tWire, hsentinel⟩ := (hending time).announced hhere
        rw [hsentinel]
        exact Option.some_ne_none _
      right
      rcases run.steps time with hidle | hstep
      · rw [hidle]
        exact ⟨hhere, Nat.le_refl _⟩
      · rcases hstep with (hnetwork | hmatching) | hfault
        · exact absurd hhere hnetwork.network_ne_finished
        · exact ⟨hmatching.network_eq.1.trans hhere,
            (hmatching.turnsToReturn_lt (hall time).2 hannounced).le⟩
        · exact absurd hhere hfault.network_ne_finished
    · intro time hhere _ hturn
      obtain ⟨tWire, hsentinel⟩ := (hending time).announced hhere
      exact .inr (hturn.turnsToReturn_lt (hall time).2 (by
        rw [hsentinel]
        exact Option.some_ne_none _))
  refine ⟨time, hreturned, hdone time hreturned, (hall time).2.left ?_⟩
  rw [hreturned]
  trivial

end Orderbook
