/-
# Cutting a list greedily

A list is cut into batches from the front, each as long as it may be. When a batch may be cut
off at its front, no other way of cutting is ever further with the same number of batches: the
greedy one stays ahead.
-/

import Mathlib.Data.List.Basic
import Mathlib.Data.List.Infix

namespace Orderbook.Math

universe u

variable {α : Type u}

/-- No batch that fits is longer than the first batch of the list. -/
structure Greedy (fits : List α → Prop) (first : List α → List α) : Prop where
  longest : ∀ items batch, fits batch → batch <+: items → batch.length ≤ (first items).length
  /-- What fits still does when it starts later. -/
  later : ∀ batch count, fits batch → fits (batch.drop count)

/-- What is left of a list behind some batches. -/
def behind (first : List α → List α) : ℕ → List α → List α
  | 0, items => items
  | count + 1, items => behind first count (items.drop (first items).length)

namespace Greedy

variable {fits : List α → Prop} {first : List α → List α}

/-- From a place that is not behind the start of another batch, the first batch gets at least to
its end. -/
theorem length_le (hgreedy : Greedy fits first) {items batch : List α} (hbatch : fits batch)
    (hfront : batch <+: items) (lead : ℕ) :
    batch.length ≤ lead + (first (items.drop lead)).length := by
  have hrest : batch.drop lead <+: items.drop lead := hfront.drop lead
  have hlongest := hgreedy.longest _ _ (hgreedy.later batch lead hbatch) hrest
  rw [List.length_drop] at hlongest
  omega

/-- The greedy cut stays ahead of every other one. -/
theorem stays_ahead (hgreedy : Greedy fits first) {batches : List (List α)}
    (hfits : ∀ batch ∈ batches, fits batch) {items : List α} (hfront : batches.flatten <+: items)
    (lead : ℕ) :
    ∃ place, batches.flatten.length ≤ place ∧
      behind first batches.length (items.drop lead) = items.drop place := by
  induction batches generalizing items lead with
  | nil => exact ⟨lead, Nat.zero_le _, rfl⟩
  | cons batch batches ih =>
      rw [List.flatten_cons] at hfront
      have hbatch := hfits batch List.mem_cons_self
      have hreach := hgreedy.length_le hbatch ((List.prefix_append _ _).trans hfront) lead
      have hothers : batches.flatten <+: items.drop batch.length := by
        have hdropped := hfront.drop batch.length
        rwa [List.drop_left] at hdropped
      obtain ⟨place, hplace, hbehind⟩ := ih
        (fun other hother => hfits other (List.mem_cons_of_mem _ hother)) hothers
        (lead + (first (items.drop lead)).length - batch.length)
      refine ⟨batch.length + place, ?_, ?_⟩
      · rw [List.flatten_cons, List.length_append]
        omega
      · rw [List.length_cons, behind, List.drop_drop]
        rw [List.drop_drop, List.drop_drop, Nat.add_sub_cancel' hreach] at hbehind
        exact hbehind

end Greedy

end Orderbook.Math
