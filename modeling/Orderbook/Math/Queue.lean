/-
# Bounded queues

A queue takes values at one end and gives them at the other, and holds at most as
many as it has room for. Its operations answer with events: a value was put in or
refused, a value was taken out or there was none. What was put in along a run is
what was taken out, followed by what is still held; order, loss and duplication are
all settled by that one equation.
-/

import Mathlib.Data.List.Basic

namespace Orderbook.Math

universe u

variable {α : Type u}

/-- The answer of an operation at one end of a queue. -/
inductive QueueEvent (α : Type u)
  | pushed (value : α)
  | refused (value : α)
  | popped (value : α)
  | empty
  deriving DecidableEq, Repr

namespace QueueEvent

/-- The value that came in. -/
def entered : QueueEvent α → Option α
  | pushed value => some value
  | _ => none

/-- The value that went out. -/
def left : QueueEvent α → Option α
  | popped value => some value
  | _ => none

end QueueEvent

/-- The values put in, in order. -/
def enteredValues (events : List (QueueEvent α)) : List α := events.filterMap QueueEvent.entered

/-- The values taken out, in order. -/
def leftValues (events : List (QueueEvent α)) : List α := events.filterMap QueueEvent.left

theorem leftValues_concat (events : List (QueueEvent α)) (event : QueueEvent α) :
    leftValues (events ++ [event]) = leftValues events ++ event.left.toList := by
  rw [leftValues, List.filterMap_append, leftValues]
  cases event <;> rfl

/-- One operation on a queue with room for `room` values. -/
inductive QueueStep (room : ℕ) : List α → QueueEvent α → List α → Prop
  | push {queue : List α} (value : α) (free : queue.length < room) :
      QueueStep room queue (.pushed value) (queue ++ [value])
  | refuse {queue : List α} (value : α) (full : queue.length = room) :
      QueueStep room queue (.refused value) queue
  | pop {queue : List α} (value : α) : QueueStep room (value :: queue) (.popped value) queue
  | miss : QueueStep room [] .empty []

namespace QueueStep

variable {room : ℕ} {queue queue' : List α} {value : α}

theorem of_pushed (hstep : QueueStep room queue (.pushed value) queue') :
    queue.length < room ∧ queue' = queue ++ [value] := by
  cases hstep with
  | push _ free => exact ⟨free, rfl⟩

theorem of_refused (hstep : QueueStep room queue (.refused value) queue') :
    queue.length = room ∧ queue' = queue := by
  cases hstep with
  | refuse _ full => exact ⟨full, rfl⟩

theorem of_popped (hstep : QueueStep room queue (.popped value) queue') :
    queue = value :: queue' := by
  cases hstep with
  | pop => rfl

theorem of_empty (hstep : QueueStep room queue .empty queue') : queue = [] ∧ queue' = [] := by
  cases hstep with
  | miss => exact ⟨rfl, rfl⟩

end QueueStep

/-- The operations that answered with `events` led from the empty queue to `queue`. -/
inductive QueueRun (room : ℕ) : List (QueueEvent α) → List α → Prop
  | start : QueueRun room [] []
  | step {events : List (QueueEvent α)} {queue queue' : List α} {event : QueueEvent α}
      (earlier : QueueRun room events queue) (here : QueueStep room queue event queue') :
      QueueRun room (events ++ [event]) queue'

namespace QueueRun

variable {room : ℕ} {events : List (QueueEvent α)} {queue : List α}

/-- What came in went out or is held, in order. -/
theorem enteredValues_eq (hrun : QueueRun room events queue) :
    enteredValues events = leftValues events ++ queue := by
  unfold enteredValues leftValues
  induction hrun with
  | start => rfl
  | step earlier here ih =>
      rw [List.filterMap_append, List.filterMap_append, ih]
      cases here with
      | push value free => simp [List.filterMap_cons, QueueEvent.entered, QueueEvent.left]
      | refuse value full => simp [List.filterMap_cons, QueueEvent.entered, QueueEvent.left]
      | pop value => simp [List.filterMap_cons, QueueEvent.entered, QueueEvent.left]
      | miss => simp [List.filterMap_cons, QueueEvent.entered, QueueEvent.left]

/-- The room is never exceeded. -/
theorem length_le (hrun : QueueRun room events queue) : queue.length ≤ room := by
  induction hrun with
  | start => exact Nat.zero_le room
  | step earlier here ih =>
      cases here with
      | push value free =>
          rw [List.length_append]
          exact free
      | refuse value full => exact ih
      | pop value => exact Nat.le_of_succ_le ih
      | miss => exact ih

/-- What went out is the front of what came in. -/
theorem leftValues_prefix (hrun : QueueRun room events queue) :
    leftValues events <+: enteredValues events :=
  ⟨queue, hrun.enteredValues_eq.symm⟩

end QueueRun

end Orderbook.Math
