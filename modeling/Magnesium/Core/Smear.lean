import Mathlib.Data.Nat.Bitwise

/-!
# Smearing a leading bit downwards

`Filled v k w` says that `k` is the leading bit of `v` and that the `w` bits from `k` downwards
are set. Or-ing a number with itself shifted right by `w` doubles the filled part, so a few
doublings turn any number into all ones, and one subtraction leaves its leading bit alone.
-/

namespace Smear

/-- The `w` bits of `v` from its leading bit `k` downwards are set. -/
structure Filled (v k w : Nat) : Prop where
  lt : v < 2 ^ (k + 1)
  testBit : ∀ i ≤ k, k < i + w → v.testBit i

/-- The leading bit of a number is set. -/
theorem filled_log2 {v : Nat} (hv : v ≠ 0) : Filled v v.log2 1 := by
  refine ⟨Nat.lt_log2_self, fun i hle hlt => ?_⟩
  obtain rfl : i = v.log2 := by omega
  exact Nat.testBit_log2 hv

/-- One doubling of the filled part. -/
theorem Filled.smear {v k w : Nat} (h : Filled v k w) : Filled (v ||| v >>> w) k (w + w) := by
  have hshift : v >>> w < 2 ^ (k + 1) := (Nat.shiftRight_le v w).trans_lt h.lt
  refine ⟨Nat.or_lt_two_pow h.lt hshift, fun i hle hlt => ?_⟩
  rw [Nat.testBit_or, Nat.testBit_shiftRight, Bool.or_eq_true]
  by_cases hi : k < i + w
  · exact Or.inl (h.testBit i hle hi)
  · exact Or.inr (h.testBit (w + i) (by omega) (by omega))

/-- A number filled down to its lowest bit is all ones. -/
theorem Filled.eq {v k w : Nat} (h : Filled v k w) (hw : k < w) : v = 2 ^ (k + 1) - 1 := by
  apply Nat.eq_of_testBit_eq
  intro i
  rw [Nat.testBit_two_pow_sub_one]
  by_cases hi : i ≤ k
  · rw [h.testBit i hi (by omega)]
    exact (decide_eq_true (by omega)).symm
  · have hpow : 2 ^ (k + 1) ≤ 2 ^ i := Nat.pow_le_pow_right (by omega) (by omega)
    rw [Nat.testBit_lt_two_pow (h.lt.trans_le hpow)]
    exact (decide_eq_false (by omega)).symm

/-- Subtracting the lower half of all ones leaves the leading bit. -/
theorem Filled.isolate {v k w : Nat} (h : Filled v k w) (hw : k < w) : v - v >>> 1 = 2 ^ k := by
  have hpow : 2 ^ (k + 1) = 2 ^ k + 2 ^ k := by rw [Nat.pow_succ, Nat.mul_two]
  have hpos : 0 < 2 ^ k := Nat.two_pow_pos k
  rw [h.eq hw, Nat.shiftRight_eq_div_pow]
  omega

end Smear
