/-
# Positions on a ring

A power-of-two buffer is walked by adding one and masking, and distances on it
are taken by subtracting and masking. Here both are brought to ordinary case
distinctions on positions below the ring's length: `ringNext` is the position
after another, and `ringDist` the number of steps from one position to another.
Every fact about them is then linear arithmetic.
-/

import Mathlib.Algebra.Group.Nat.Defs
import Mathlib.Data.Nat.Bits
import Mathlib.Tactic.SplitIfs

namespace Orderbook.Math

/-- The position after `a` on a ring of length `n`. -/
def ringNext (n a : ℕ) : ℕ := if a + 1 = n then 0 else a + 1

/-- Steps forward from `a` to `b` on a ring of length `n`. -/
def ringDist (n a b : ℕ) : ℕ := if a ≤ b then b - a else n + b - a

variable {n a b c : ℕ}

theorem ringNext_lt (ha : a < n) : ringNext n a < n := by
  unfold ringNext
  split_ifs <;> omega

theorem ringDist_lt (ha : a < n) (hb : b < n) : ringDist n a b < n := by
  unfold ringDist
  split_ifs <;> omega

@[simp]
theorem ringDist_self (n a : ℕ) : ringDist n a a = 0 := by
  simp [ringDist]

theorem eq_of_ringDist_eq (ha : a < n) (hb : b < n) (hc : c < n)
    (heq : ringDist n a b = ringDist n a c) : b = c := by
  unfold ringDist at heq
  split_ifs at heq <;> omega

theorem ringDist_pos (ha : a < n) (hne : a ≠ b) : 0 < ringDist n a b := by
  unfold ringDist
  split_ifs <;> omega

/-- Stepping the target on adds one, as long as it does not come back around. -/
theorem ringDist_next (ha : a < n) (hc : c < n)
    (hbehind : ringDist n a b < ringDist n a c) :
    ringDist n a (ringNext n b) = ringDist n a b + 1 := by
  unfold ringDist ringNext at *
  split_ifs at * <;> omega

/-- Stepping the target on adds one unless it arrives at the source. -/
theorem ringDist_next_of_ne (ha : a < n) (hne : ringNext n b ≠ a) :
    ringDist n a (ringNext n b) = ringDist n a b + 1 := by
  unfold ringDist ringNext at *
  split_ifs at * <;> omega

/-- One step short of the source, the target is as far away as it can be. -/
theorem ringDist_of_next_eq (ha : a < n) (hnext : ringNext n b = a) :
    ringDist n a b + 1 = n := by
  unfold ringDist ringNext at *
  split_ifs at * <;> omega

/-- Stepping the source on takes one away. -/
theorem ringDist_next_left (ha : a < n) (hb : b < n) (hne : a ≠ b) :
    ringDist n (ringNext n a) b + 1 = ringDist n a b := by
  unfold ringDist ringNext
  split_ifs <;> omega

/-- The way to a later position leads through every earlier one. -/
theorem ringDist_add (ha : a < n) (hb : b < n) (hc : c < n)
    (hle : ringDist n a b ≤ ringDist n a c) :
    ringDist n a b + ringDist n b c = ringDist n a c := by
  unfold ringDist at *
  split_ifs at * <;> omega

/-- Two ways that together do not go around the ring compose. -/
theorem ringDist_trans (ha : a < n) (hb : b < n)
    (hlt : ringDist n a b + ringDist n b c < n) :
    ringDist n a c = ringDist n a b + ringDist n b c := by
  unfold ringDist at *
  split_ifs at * <;> omega

/-- A position no further from the end than the start is lies on the way. -/
theorem ringDist_add_of_le_right (ha : a < n) (hb : b < n)
    (hle : ringDist n b c ≤ ringDist n a c) :
    ringDist n a b + ringDist n b c = ringDist n a c := by
  unfold ringDist at *
  split_ifs at * <;> omega

/-- Adding one and masking is the next position. -/
theorem succ_and_mask {bits : ℕ} (ha : a < 2 ^ bits) :
    (a + 1) &&& (2 ^ bits - 1) = ringNext (2 ^ bits) a := by
  rw [Nat.and_two_pow_sub_one_eq_mod, ringNext]
  split_ifs with hlast
  · rw [hlast, Nat.mod_self]
  · exact Nat.mod_eq_of_lt (by omega)

/-! ## Counting on and on

A count that is never wrapped stands for the position it leaves when divided by the
length of the ring. -/

/-- Counts less than one round apart stand for different positions. -/
theorem mod_ne_mod_of_lt (hless : a < b) (hnear : b < a + n) : a % n ≠ b % n := by
  intro hsame
  have hdvd := Nat.sub_mod_eq_zero_of_mod_eq hsame.symm
  rw [Nat.mod_eq_of_lt (by omega)] at hdvd
  omega

/-- Adding one to a position and masking counts one on. -/
theorem mod_succ_and_mask (bits count : ℕ) :
    (count % 2 ^ bits + 1) &&& (2 ^ bits - 1) = (count + 1) % 2 ^ bits := by
  rw [Nat.and_two_pow_sub_one_eq_mod, Nat.mod_add_mod]

/-- Subtracting in a word at least as wide as the ring and masking is the
distance. -/
theorem sub_and_mask {bits width : ℕ} (hwidth : bits ≤ width) (ha : a < 2 ^ bits)
    (hb : b < 2 ^ bits) :
    ((b + 2 ^ width - a) % 2 ^ width) &&& (2 ^ bits - 1) = ringDist (2 ^ bits) a b := by
  have hpow : 2 ^ bits ∣ 2 ^ width := Nat.pow_dvd_pow 2 hwidth
  have hle : 2 ^ bits ≤ 2 ^ width := Nat.pow_le_pow_right (by omega) hwidth
  rw [Nat.and_two_pow_sub_one_eq_mod, Nat.mod_mod_of_dvd _ hpow, ringDist]
  obtain ⟨k, hk⟩ := hpow
  split_ifs with hab
  · have hsplit : b + 2 ^ width - a = (b - a) + 2 ^ bits * k := by omega
    rw [hsplit, Nat.add_mul_mod_self_left]
    exact Nat.mod_eq_of_lt (by omega)
  · have hk0 : 0 < k := by
      rcases Nat.eq_zero_or_pos k with rfl | hpos
      · omega
      · exact hpos
    have hsplit : b + 2 ^ width - a = (2 ^ bits + b - a) + 2 ^ bits * (k - 1) := by
      have hmul : 2 ^ bits * k = 2 ^ bits + 2 ^ bits * (k - 1) := by
        obtain ⟨j, rfl⟩ : ∃ j, k = j + 1 := ⟨k - 1, by omega⟩
        rw [Nat.add_sub_cancel, Nat.mul_succ, Nat.add_comm]
      omega
    rw [hsplit, Nat.add_mul_mod_self_left]
    exact Nat.mod_eq_of_lt (by omega)

end Orderbook.Math
