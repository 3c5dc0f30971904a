import Mathlib.Data.Nat.Bitwise

/-!
# Sets of small numbers in a machine word

A 32-bit word as the set of the positions of its bits: or-ing a bit in, masking a bit out, and
picking the highest bit, as a driver does that passes requests on in a word.
-/

namespace WordSet

/-- The bit `p` of the word is set. -/
def Has (v : UInt32) (p : Nat) : Prop := v.toNat.testBit p = true

/-- The word with the bit `p` alone. -/
def bit (p : Nat) : UInt32 := 1 <<< UInt32.ofNat p

instance (v : UInt32) (p : Nat) : Decidable (Has v p) := inferInstanceAs (Decidable (_ = true))

/-- A bit in range is a power of two. -/
theorem toNat_bit {p : Nat} (hp : p < 32) : (bit p).toNat = 2 ^ p := by
  have hpow : 2 ^ p < 2 ^ 32 := Nat.pow_lt_pow_right (by omega) hp
  have hshift : (UInt32.ofNat p).toNat % 32 = p := by
    rw [UInt32.toNat_ofNat']
    omega
  rw [bit, UInt32.toNat_shiftLeft, hshift, UInt32.toNat_one, Nat.one_shiftLeft,
    Nat.mod_eq_of_lt hpow]

@[simp] theorem not_has_zero (p : Nat) : ¬ Has 0 p := by simp [Has]

/-- The members are below 32. -/
theorem lt_of_has {v : UInt32} {p : Nat} (h : Has v p) : p < 32 := by
  by_contra hp
  have hpow : 2 ^ 32 ≤ 2 ^ p := Nat.pow_le_pow_right (by omega) (by omega)
  rw [Has, Nat.testBit_lt_two_pow (v.toNat_lt.trans_le hpow)] at h
  cases h

/-- Or-ing a bit in. -/
theorem has_insert {v : UInt32} {p q : Nat} (hp : p < 32) :
    Has (v ||| bit p) q ↔ Has v q ∨ q = p := by
  rw [Has, Has, UInt32.toNat_or, toNat_bit hp, Nat.testBit_or, Nat.testBit_two_pow,
    Bool.or_eq_true, decide_eq_true_eq, eq_comm (a := p)]

/-- Masking a bit out. -/
theorem has_erase {v : UInt32} {p q : Nat} (hp : p < 32) :
    Has (v &&& ~~~bit p) q ↔ Has v q ∧ q ≠ p := by
  by_cases hq : q < 32
  · have hpow : 2 ^ p < 2 ^ 32 := Nat.pow_lt_pow_right (by omega) hp
    have hnot : (~~~bit p).toNat.testBit q = decide (p ≠ q) := by
      have hsub : UInt32.size - 1 - 2 ^ p = 2 ^ 32 - (2 ^ p + 1) := by
        rw [UInt32.size]
        omega
      rw [UInt32.toNat_not, toNat_bit hp, hsub, Nat.testBit_two_pow_sub_succ hpow,
        Nat.testBit_two_pow]
      simp [hq]
    rw [Has, Has, UInt32.toNat_and, Nat.testBit_and, hnot, Bool.and_eq_true, decide_eq_true_eq,
      ne_comm]
  · exact ⟨fun h => absurd (lt_of_has h) hq, fun h => absurd (lt_of_has h.1) hq⟩

/-- The leading bit of a word is set. -/
theorem has_log2 {v : UInt32} (hv : v ≠ 0) : Has v v.toNat.log2 :=
  Nat.testBit_log2 fun h => hv (UInt32.toNat_inj.mp h)

end WordSet
