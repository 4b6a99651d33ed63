/-
# The ring between the two threads

One thread pushes and one thread pops. Each call is a few accesses to memory that
the two threads share, and between any two of them the other thread may run: the
indices are loaded, compared and stored one at a time, and the cells are written
and read in between. The model takes one such access at a turn, in any order of the
threads, and every access sees the last store.

What the threads do together is then compared with a queue on which every
operation is one step. The indices are positions in the buffer; the argument counts
the values instead and never wraps. A push takes effect when it stores the tail and
a pop when it stores the head.
-/

import Orderbook.Math.Queue
import Orderbook.Math.Ring
import Orderbook.Math.Run

namespace Orderbook

open Orderbook.Math

variable {α : Type}

/-- The shared memory of a ring. -/
structure SpscRing (α : Type) where
  head : ℕ := 0
  tail : ℕ := 0
  mask : ℕ
  buffer : ℕ → α

namespace SpscRing

variable [Inhabited α]

def initial (capacity : ℕ) : SpscRing α where
  mask := capacity - 1
  buffer _ := default

/-- The constructor, which aborts unless the capacity is a power of two. -/
def create (capacity : ℕ) : Option (SpscRing α) :=
  if capacity &&& (capacity - 1) ≠ 0 ∨ capacity = 0 then none else some (initial capacity)

/-- The rings that can be built are those with a power of two as capacity. -/
theorem create_eq_some_iff {capacity : ℕ} {ring : SpscRing α} :
    create capacity = some ring ↔ (∃ bits, capacity = 2 ^ bits) ∧ ring = initial capacity := by
  unfold create
  by_cases hzero : capacity = 0
  · have hpositive : ∀ bits, (0 : ℕ) ≠ 2 ^ bits := fun bits => Nat.ne_of_lt (Nat.two_pow_pos bits)
    simp [hzero, hpositive]
  · rw [← Nat.isPowerOfTwo, ← Nat.and_sub_one_eq_zero_iff_isPowerOfTwo hzero]
    simp [hzero, eq_comm]

end SpscRing

/-- Where the producer stands in `push`: between calls, or in front of the access
that the state names. -/
inductive Pusher (α : Type)
  | idle
  | loadHead (value : α) (t : ℕ)
  | write (value : α) (t next : ℕ)
  | storeTail (value : α) (next : ℕ)
  deriving DecidableEq, Repr

/-- Where the consumer stands in `pop`. -/
inductive Popper (α : Type)
  | idle
  | loadTail (h : ℕ)
  | read (h : ℕ)
  | storeHead (h : ℕ) (out : α)
  deriving DecidableEq, Repr

/-- A ring and the two threads at work on it. -/
structure RingThreads (α : Type) where
  ring : SpscRing α
  pusher : Pusher α := .idle
  popper : Popper α := .idle

namespace RingThreads

/-- One access of `push`. The call starts with the load of the tail; a call that
returns answers. -/
def push (threads : RingThreads α) (value : α) : Pass (RingThreads α) (QueueEvent α) :=
  match threads.pusher with
  | .idle => { state := { threads with pusher := .loadHead value threads.ring.tail } }
  | .loadHead value t =>
      let next := (t + 1) &&& threads.ring.mask
      if next = threads.ring.head then
        { state := { threads with pusher := .idle }, answers := [.refused value] }
      else { state := { threads with pusher := .write value t next } }
  | .write value t next =>
      { state :=
          { threads with
            ring :=
              { threads.ring with
                buffer := fun i => if i = t then value else threads.ring.buffer i }
            pusher := .storeTail value next } }
  | .storeTail value next =>
      { state := { threads with ring := { threads.ring with tail := next }, pusher := .idle }
        answers := [.pushed value] }

/-- One access of `pop`. -/
def pop (threads : RingThreads α) : Pass (RingThreads α) (QueueEvent α) :=
  match threads.popper with
  | .idle => { state := { threads with popper := .loadTail threads.ring.head } }
  | .loadTail h =>
      if h = threads.ring.tail then
        { state := { threads with popper := .idle }, answers := [.empty] }
      else { state := { threads with popper := .read h } }
  | .read h => { state := { threads with popper := .storeHead h (threads.ring.buffer h) } }
  | .storeHead h out =>
      { state :=
          { threads with
            ring := { threads.ring with head := (h + 1) &&& threads.ring.mask }
            popper := .idle }
        answers := [.popped out] }

end RingThreads

/-- Whose turn it is. A value is pushed if the producer is between calls. -/
inductive RingTurn (α : Type)
  | producer (value : α)
  | consumer
  deriving DecidableEq, Repr

def RingThreads.step (threads : RingThreads α) : RingTurn α → Pass (RingThreads α) (QueueEvent α)
  | .producer value => threads.push value
  | .consumer => threads.pop

/-- Both threads on a new ring. -/
def runRing (ring : SpscRing α) (turns : List (RingTurn α)) :
    RingThreads α × List (QueueEvent α) :=
  runUntil RingThreads.step { ring } turns

/-- What a producer in the middle of a push knows, when `count` values were pushed
and `held` of them are held. -/
def Pusher.Knows (bits : ℕ) (ring : SpscRing α) (count held : ℕ) : Pusher α → Prop
  | .idle => True
  | .loadHead _ t => t = count % 2 ^ bits
  | .write _ t next =>
      t = count % 2 ^ bits ∧ next = (count + 1) % 2 ^ bits ∧ held + 1 < 2 ^ bits
  | .storeTail value next =>
      ring.buffer (count % 2 ^ bits) = value ∧ next = (count + 1) % 2 ^ bits ∧
        held + 1 < 2 ^ bits

/-- What a consumer in the middle of a pop knows, when `count` values were popped. -/
def Popper.Knows (bits count : ℕ) (queue : List α) : Popper α → Prop
  | .idle => True
  | .loadTail h => h = count % 2 ^ bits
  | .read h => h = count % 2 ^ bits ∧ queue ≠ []
  | .storeHead h out => h = count % 2 ^ bits ∧ queue.head? = some out

/-- After `taken` values were popped, the threads hold the values of `queue`. -/
structure RingThreads.Holds (bits : ℕ) (threads : RingThreads α) (taken : ℕ) (queue : List α) :
    Prop where
  mask : threads.ring.mask = 2 ^ bits - 1
  head : threads.ring.head = taken % 2 ^ bits
  tail : threads.ring.tail = (taken + queue.length) % 2 ^ bits
  room : queue.length < 2 ^ bits
  cells : ∀ i (hi : i < queue.length),
    threads.ring.buffer ((taken + i) % 2 ^ bits) = queue[i]
  pusher : threads.pusher.Knows bits threads.ring (taken + queue.length) queue.length
  popper : threads.popper.Knows bits taken queue

/-- One turn leaves the queue, or makes one step on it. -/
inductive RingMove (bits taken : ℕ) (queue : List α) (pass : Pass (RingThreads α) (QueueEvent α)) :
    Prop
  | silent (hanswers : pass.answers = []) (holds : pass.state.Holds bits taken queue) :
      RingMove bits taken queue pass
  | answered (event : QueueEvent α) (queue' : List α) (hanswers : pass.answers = [event])
      (hstep : QueueStep (2 ^ bits - 1) queue event queue')
      (holds : pass.state.Holds bits (taken + event.left.toList.length) queue') :
      RingMove bits taken queue pass

namespace RingThreads.Holds

variable {bits taken : ℕ} {threads : RingThreads α} {queue : List α}

/-- The place behind the tail is the head exactly when one cell is free. -/
theorem next_eq_head_iff (hholds : threads.Holds bits taken queue) :
    ((taken + queue.length) % 2 ^ bits + 1) &&& threads.ring.mask = threads.ring.head ↔
      queue.length = 2 ^ bits - 1 := by
  have hroom := hholds.room
  rw [hholds.mask, hholds.head, mod_succ_and_mask]
  constructor
  · intro hsame
    by_contra hfree
    exact mod_ne_mod_of_lt (by omega) (by omega) hsame.symm
  · intro hfull
    have hround : taken + queue.length + 1 = taken + 2 ^ bits := by omega
    rw [hround, Nat.add_mod_right]

/-- The head is the tail exactly when nothing is held. -/
theorem head_eq_tail_iff (hholds : threads.Holds bits taken queue) :
    taken % 2 ^ bits = threads.ring.tail ↔ queue = [] := by
  have hroom := hholds.room
  rw [hholds.tail, ← List.length_eq_zero_iff]
  constructor
  · intro hsame
    by_contra hsome
    exact mod_ne_mod_of_lt (by omega) (by omega) hsame
  · intro hempty
    rw [hempty, Nat.add_zero]

/-- What an access of `push` does. -/
theorem push (hholds : threads.Holds bits taken queue) (value : α) :
    RingMove bits taken queue (threads.push value) := by
  have hknows := hholds.pusher
  unfold RingThreads.push
  cases hpusher : threads.pusher with
  | idle => exact .silent rfl { hholds with pusher := hholds.tail }
  | loadHead value t =>
      rw [hpusher] at hknows
      obtain rfl : t = (taken + queue.length) % 2 ^ bits := hknows
      dsimp only
      split
      case isTrue hsame =>
          exact .answered (.refused value) queue rfl
            (.refuse value (hholds.next_eq_head_iff.mp hsame)) { hholds with pusher := trivial }
      case isFalse hother =>
          have hfree := hholds.next_eq_head_iff.not.mp hother
          have hroom := hholds.room
          refine .silent rfl { hholds with pusher := ⟨rfl, ?_, by omega⟩ }
          rw [hholds.mask, mod_succ_and_mask]
  | write value t next =>
      rw [hpusher] at hknows
      obtain ⟨rfl, hnext, hfree⟩ := hknows
      refine .silent rfl
        { hholds with cells := fun i hi => ?_, pusher := ⟨if_pos rfl, hnext, hfree⟩ }
      dsimp only
      rw [if_neg (mod_ne_mod_of_lt (by omega) (by omega))]
      exact hholds.cells i hi
  | storeTail value next =>
      rw [hpusher] at hknows
      obtain ⟨hcell, rfl, hfree⟩ := hknows
      refine .answered (.pushed value) (queue ++ [value]) rfl (.push value (by omega))
        ⟨hholds.mask, hholds.head, ?_, ?_, ?_, trivial, ?_⟩
      · rw [List.length_append]
        rfl
      · rw [List.length_append]
        exact hfree
      · intro i hi
        by_cases hold : i < queue.length
        · rw [List.getElem_append_left hold]
          exact hholds.cells i hold
        · rw [List.length_append, List.length_singleton] at hi
          obtain rfl : i = queue.length := by omega
          rw [List.getElem_concat_length rfl]
          exact hcell
      · have hpopper := hholds.popper
        dsimp only
        cases hcase : threads.popper with
        | idle => trivial
        | loadTail h =>
            rw [hcase] at hpopper
            exact hpopper
        | read h =>
            rw [hcase] at hpopper
            exact ⟨hpopper.1, by simp⟩
        | storeHead h out =>
            rw [hcase] at hpopper
            exact ⟨hpopper.1, by rw [List.head?_append, hpopper.2, Option.some_or]⟩

/-- What an access of `pop` does. -/
theorem pop (hholds : threads.Holds bits taken queue) :
    RingMove bits taken queue threads.pop := by
  have hknows := hholds.popper
  unfold RingThreads.pop
  cases hpopper : threads.popper with
  | idle => exact .silent rfl { hholds with popper := hholds.head }
  | loadTail h =>
      rw [hpopper] at hknows
      obtain rfl : h = taken % 2 ^ bits := hknows
      dsimp only
      split
      case isTrue hsame =>
          have hempty := hholds.head_eq_tail_iff.mp hsame
          subst hempty
          exact .answered .empty [] rfl .miss { hholds with popper := trivial }
      case isFalse hother =>
          have hsome := hholds.head_eq_tail_iff.not.mp hother
          exact .silent rfl { hholds with popper := ⟨rfl, hsome⟩ }
  | read h =>
      rw [hpopper] at hknows
      obtain ⟨rfl, hsome⟩ := hknows
      refine .silent rfl { hholds with popper := ⟨rfl, ?_⟩ }
      have hfirst := hholds.cells 0 (List.length_pos_of_ne_nil hsome)
      rw [Nat.add_zero] at hfirst
      rw [hfirst, List.head?_eq_getElem?, List.getElem?_eq_getElem]
  | storeHead h out =>
      rw [hpopper] at hknows
      obtain ⟨rfl, hfirst⟩ := hknows
      obtain ⟨queue, rfl⟩ := List.head?_eq_some_iff.mp hfirst
      have hroom := hholds.room
      have hcount : taken + (queue.length + 1) = taken + 1 + queue.length := by omega
      refine .answered (.popped out) queue rfl (.pop out)
        ⟨hholds.mask, ?_, ?_, ?_, ?_, ?_, trivial⟩
      · change (taken % 2 ^ bits + 1) &&& threads.ring.mask = (taken + 1) % 2 ^ bits
        rw [hholds.mask, mod_succ_and_mask]
      · have htail := hholds.tail
        rwa [List.length_cons, hcount] at htail
      · exact Nat.lt_of_succ_lt hroom
      · intro i hi
        have hcell := hholds.cells (i + 1) (Nat.succ_lt_succ hi)
        rwa [List.getElem_cons_succ, ← Nat.add_assoc, Nat.add_right_comm] at hcell
      · have hpusher := hholds.pusher
        rw [List.length_cons, hcount] at hpusher
        dsimp only
        cases hcase : threads.pusher with
        | idle => trivial
        | loadHead value t =>
            rw [hcase] at hpusher
            exact hpusher
        | write value t next =>
            rw [hcase] at hpusher
            exact ⟨hpusher.1, hpusher.2.1, Nat.lt_of_succ_lt hpusher.2.2⟩
        | storeTail value next =>
            rw [hcase] at hpusher
            exact ⟨hpusher.1, hpusher.2.1, Nat.lt_of_succ_lt hpusher.2.2⟩

theorem step (hholds : threads.Holds bits taken queue) (turn : RingTurn α) :
    RingMove bits taken queue (threads.step turn) := by
  cases turn with
  | producer value => exact hholds.push value
  | consumer => exact hholds.pop

end RingThreads.Holds

/-! ## Runs -/

theorem holds_initial [Inhabited α] (bits : ℕ) :
    ({ ring := .initial (2 ^ bits) } : RingThreads α).Holds bits 0 [] where
  mask := rfl
  head := (Nat.zero_mod _).symm
  tail := (Nat.zero_mod _).symm
  room := Nat.two_pow_pos bits
  cells _ hi := nomatch hi
  pusher := trivial
  popper := trivial

/-- Whatever the order of the turns, the answers are those of a queue, and the
threads hold what the queue holds. -/
theorem runRing_holds [Inhabited α] (bits : ℕ) (turns : List (RingTurn α)) :
    ∃ queue, QueueRun (2 ^ bits - 1) (runRing (.initial (2 ^ bits)) turns).2 queue ∧
      (runRing (.initial (2 ^ bits)) turns).1.Holds bits
        (leftValues (runRing (.initial (2 ^ bits)) turns).2).length queue := by
  have hrun : ∃ past, past <+: turns ∧
      ∃ queue, QueueRun (2 ^ bits - 1) (runRing (.initial (2 ^ bits)) turns).2 queue ∧
        (runRing (.initial (2 ^ bits)) turns).1.Holds bits
          (leftValues (runRing (.initial (2 ^ bits)) turns).2).length queue := by
    refine runUntil_invariant
      (fun _ (threads : RingThreads α) (events : List (QueueEvent α)) => ∃ queue,
        QueueRun (2 ^ bits - 1) events queue ∧
          threads.Holds bits (leftValues events).length queue)
      ⟨[], .start, holds_initial bits⟩ ?_
    rintro past threads events turn _ ⟨queue, hqueue, hholds⟩
    cases hholds.step turn with
    | silent hanswers hnext =>
        rw [hanswers, List.append_nil]
        exact ⟨queue, hqueue, hnext⟩
    | answered event queue' hanswers hstep hnext =>
        rw [hanswers]
        refine ⟨queue', hqueue.step hstep, ?_⟩
        rw [leftValues_concat, List.length_append]
        exact hnext
  obtain ⟨_, _, hqueue⟩ := hrun
  exact hqueue

/-- A ring of some capacity that two threads share behaves as a first-in first-out
channel: values leave in the order in which they came and none is overwritten
before, all but one of the cells can be used, the two threads never touch the same
cell, and a call fails only on a full or on an empty ring. -/
structure LinearFifo (capacity : ℕ) (threads : RingThreads α) (events : List (QueueEvent α)) :
    Prop where
  order : leftValues events <+: enteredValues events
  bound : (enteredValues events).length ≤ (leftValues events).length + (capacity - 1)
  intact : ∀ i (hi : i < (enteredValues events).length), (leftValues events).length ≤ i →
    threads.ring.buffer (i % capacity) = (enteredValues events)[i]
  inside : (∀ value t next, threads.pusher = .write value t next → t < capacity) ∧
    ∀ h, threads.popper = .read h → h < capacity
  apart : ∀ value t next h, threads.pusher = .write value t next → threads.popper = .read h →
    t ≠ h
  full : ∀ next value, (threads.push next).answers = [.refused value] →
    (enteredValues events).length = (leftValues events).length + (capacity - 1)
  empty : threads.pop.answers = [.empty] →
    (enteredValues events).length = (leftValues events).length

theorem LinearFifo.of_holds {bits : ℕ} {threads : RingThreads α} {events : List (QueueEvent α)}
    {queue : List α} (hqueue : QueueRun (2 ^ bits - 1) events queue)
    (hholds : threads.Holds bits (leftValues events).length queue) :
    LinearFifo (2 ^ bits) threads events := by
  have hentered := hqueue.enteredValues_eq
  have hcount : (enteredValues events).length = (leftValues events).length + queue.length := by
    rw [hentered, List.length_append]
  have hpusher : ∀ value t next, threads.pusher = .write value t next →
      t = ((leftValues events).length + queue.length) % 2 ^ bits ∧ queue.length + 1 < 2 ^ bits := by
    intro value t next hwrite
    have hknows := hholds.pusher
    rw [hwrite] at hknows
    exact ⟨hknows.1, hknows.2.2⟩
  have hpopper : ∀ h, threads.popper = .read h →
      h = (leftValues events).length % 2 ^ bits ∧ queue ≠ [] := by
    intro h hread
    have hknows := hholds.popper
    rwa [hread] at hknows
  refine ⟨hqueue.leftValues_prefix, ?_, ?_, ⟨?_, ?_⟩, ?_, ?_, ?_⟩
  · rw [hcount]
    exact Nat.add_le_add_left hqueue.length_le _
  · intro i hi hle
    obtain ⟨j, rfl⟩ := Nat.exists_eq_add_of_le hle
    rw [hcount] at hi
    simp only [hentered]
    rw [List.getElem_append_right (Nat.le_add_right _ _)]
    simp only [Nat.add_sub_cancel_left]
    exact hholds.cells j (Nat.lt_of_add_lt_add_left hi)
  · intro value t next hwrite
    rw [(hpusher value t next hwrite).1]
    exact Nat.mod_lt _ (Nat.two_pow_pos bits)
  · intro h hread
    rw [(hpopper h hread).1]
    exact Nat.mod_lt _ (Nat.two_pow_pos bits)
  · intro value t next h hwrite hread
    obtain ⟨rfl, hfree⟩ := hpusher value t next hwrite
    obtain ⟨rfl, hsome⟩ := hpopper h hread
    have hpositive := List.length_pos_of_ne_nil hsome
    exact (mod_ne_mod_of_lt (by omega) (by omega)).symm
  · intro next value hrefused
    cases hholds.push next with
    | silent hanswers _ =>
        rw [hanswers] at hrefused
        cases hrefused
    | answered event queue' hanswers hstep _ =>
        rw [hanswers] at hrefused
        cases hrefused
        cases hstep with
        | refuse _ hfull => rw [hcount, hfull]
  · intro hempty
    cases hholds.pop with
    | silent hanswers _ =>
        rw [hanswers] at hempty
        cases hempty
    | answered event queue' hanswers hstep _ =>
        rw [hanswers] at hempty
        cases hempty
        cases hstep with
        | miss => exact hcount

/-- Whatever the capacity of a ring and the order in which the two threads get on,
the ring is a first-in first-out channel. -/
theorem spscRing_linearFifo [Inhabited α] {capacity : ℕ} {ring : SpscRing α}
    (hcreate : SpscRing.create capacity = some ring) (turns : List (RingTurn α)) :
    LinearFifo capacity (runRing ring turns).1 (runRing ring turns).2 := by
  obtain ⟨⟨bits, rfl⟩, rfl⟩ := SpscRing.create_eq_some_iff.mp hcreate
  obtain ⟨queue, hqueue, hholds⟩ := runRing_holds bits turns
  exact .of_holds hqueue hholds

/-- A push into a ring of two cells, and a second one that finds it full while the
first value is being popped. -/
theorem spscRing_linearFifo_two :
    LinearFifo 2
      (runRing (.initial 2) [.producer 7, .producer 7, .producer 7, .producer 7, .consumer,
        .producer 8, .consumer, .producer 8, .consumer, .consumer]).1
      (runRing (.initial 2) [.producer 7, .producer 7, .producer 7, .producer 7, .consumer,
        .producer 8, .consumer, .producer 8, .consumer, .consumer]).2 :=
  spscRing_linearFifo (SpscRing.create_eq_some_iff.mpr ⟨⟨1, rfl⟩, rfl⟩) _

example : (runRing (.initial 2) [.producer 7, .producer 7, .producer 7, .producer 7, .consumer,
    .producer 8, .consumer, .producer 8, .consumer, .consumer]).2 =
      [.pushed 7, .refused 8, .popped 7] := by
  decide

end Orderbook
