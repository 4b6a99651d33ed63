/-
# Progress under a fair schedule

An infinite run of several parties reaches a goal when one of them is never passed
over for good, each of its turns lowers a rank and nobody else raises it. The rule is
stated on points in time, so that the turns of a party and the states of the run can
be whatever the application makes of them.
-/

import Mathlib.Data.Nat.Basic

namespace Orderbook.Math

section Rank

variable (holds goal acts : ℕ → Prop) (rank : ℕ → ℕ)

/-- Until the goal is reached, what is kept at every point in time is kept throughout. -/
theorem goal_or_kept
    (step : ∀ time, holds time → ¬ goal time →
      goal (time + 1) ∨ holds (time + 1) ∧ rank (time + 1) ≤ rank time)
    {time later : ℕ} (hholds : holds time) (hlater : time ≤ later) :
    (∃ reached, time ≤ reached ∧ goal reached) ∨ holds later ∧ rank later ≤ rank time := by
  induction later, hlater using Nat.le_induction with
  | base => exact .inr ⟨hholds, Nat.le_refl _⟩
  | succ later hlater ih =>
      by_cases hgoal : goal later
      · exact .inl ⟨later, hlater, hgoal⟩
      · rcases ih with hreached | ⟨hkept, hrank⟩
        · exact .inl hreached
        · rcases step later hkept hgoal with hnext | ⟨hnext, hdown⟩
          · exact .inl ⟨later + 1, Nat.le_succ_of_le hlater, hnext⟩
          · exact .inr ⟨hnext, Nat.le_trans hdown hrank⟩

/-- When the party whose turns lower the rank takes a turn again and again, the goal is
reached. -/
theorem exists_goal_of_rank
    (fair : ∀ time, ∃ later, time ≤ later ∧ (acts later ∨ goal later))
    (step : ∀ time, holds time → ¬ goal time →
      goal (time + 1) ∨ holds (time + 1) ∧ rank (time + 1) ≤ rank time)
    (down : ∀ time, holds time → ¬ goal time → acts time →
      goal (time + 1) ∨ rank (time + 1) < rank time)
    {time : ℕ} (hholds : holds time) : ∃ later, time ≤ later ∧ goal later := by
  induction hbound : rank time using Nat.strongRecOn generalizing time with
  | ind bound ih =>
      obtain ⟨later, hlater, hturn⟩ := fair time
      have hafter := Nat.le_succ_of_le hlater
      by_cases hgoal : goal later
      · exact ⟨later, hlater, hgoal⟩
      · rcases goal_or_kept holds goal rank step hholds hlater with hreached | ⟨hkept, hrank⟩
        · exact hreached
        · rcases step later hkept hgoal with hnext | ⟨hnext, _⟩
          · exact ⟨later + 1, hafter, hnext⟩
          · rcases down later hkept hgoal (hturn.resolve_right hgoal) with hdone | hless
            · exact ⟨later + 1, hafter, hdone⟩
            · obtain ⟨reached, hle, hend⟩ :=
                ih _ (hbound ▸ Nat.lt_of_lt_of_le hless hrank) hnext rfl
              exact ⟨reached, Nat.le_trans hafter hle, hend⟩

end Rank

end Orderbook.Math
