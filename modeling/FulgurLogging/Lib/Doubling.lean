import Mathlib.Algebra.Order.Floor.Div
import Mathlib.Data.Nat.Log
import Mathlib.Order.Bounds.Basic

/-!
# Doubling until it fits

A container that doubles its capacity until a request fits ends with the capacity times a power of
two, the smallest that is not below the request. The number of doublings is a rounded-up logarithm
of a rounded-up quotient, so that what there is to know about it follows from two Galois
connections.
-/

namespace Doubling

/-- How often `c` has to be doubled to reach `n`. -/
def count (c n : ℕ) : ℕ := Nat.clog 2 (n ⌈/⌉ c)

variable {c n k : ℕ}

theorem count_le_iff (hc : 0 < c) : count c n ≤ k ↔ n ≤ c * 2 ^ k := by
  rw [count, Nat.clog_le_iff_le_pow Nat.one_lt_two, ceilDiv_le_iff_le_mul hc]

theorem le_mul_two_pow_count (hc : 0 < c) : n ≤ c * 2 ^ count c n := (count_le_iff hc).mp le_rfl

/-- The capacity reached is the smallest one that fits. -/
theorem isLeast_count (hc : 0 < c) : IsLeast {k | n ≤ c * 2 ^ k} (count c n) :=
  ⟨le_mul_two_pow_count hc, fun _ hk ↦ (count_le_iff hc).mpr hk⟩

theorem count_eq_zero_iff (hc : 0 < c) : count c n = 0 ↔ n ≤ c := by
  rw [← Nat.le_zero, count_le_iff hc, pow_zero, mul_one]

/-- A request is met without a byte to spare exactly if it is one of the capacities. -/
theorem eq_mul_two_pow_count_iff (hc : 0 < c) : n = c * 2 ^ count c n ↔ ∃ k, n = c * 2 ^ k := by
  refine ⟨fun h ↦ ⟨_, h⟩, ?_⟩
  rintro ⟨k, hk⟩
  refine (le_mul_two_pow_count hc).antisymm ?_
  calc c * 2 ^ count c n ≤ c * 2 ^ k :=
        Nat.mul_le_mul_left c (Nat.pow_le_pow_right Nat.two_pos ((count_le_iff hc).mpr hk.le))
    _ = n := hk.symm

/-- One doubling, and then as many as are still needed. -/
theorem count_of_lt (hc : 0 < c) (h : c < n) : count c n = count (c * 2) n + 1 := by
  have hc2 : 0 < c * 2 := Nat.mul_pos hc Nat.two_pos
  refine eq_of_forall_ge_iff fun k ↦ ?_
  cases k with
  | zero =>
    rw [count_le_iff hc, pow_zero, mul_one]
    exact iff_of_false (not_le_of_gt h) (Nat.not_succ_le_zero _)
  | succ k => rw [Nat.succ_le_succ_iff, count_le_iff hc, count_le_iff hc2, pow_succ', mul_assoc]

end Doubling
