import Mathlib.Data.Nat.Bitwise
import Mathlib.Tactic.Set

/-!
# The highest bit in which two numbers differ

`topBit x y` is the position of the leading bit of `x ^^^ y`. It is an ultrametric on the
natural numbers whose balls are the dyadic blocks: `topBit x y < k` says that both numbers
lie in the same block of length `2 ^ k`. All facts below are consequences of that reading.
-/

namespace TopBit

/-- Position of the highest bit in which two numbers differ. -/
def topBit (x y : Nat) : Nat := (x ^^^ y).log2

/-- Two different numbers agree from bit `k` upwards exactly inside one dyadic block. -/
theorem topBit_lt_iff {x y : Nat} (hne : x ≠ y) (k : Nat) :
    topBit x y < k ↔ x / 2 ^ k = y / 2 ^ k := by
  have hxor : x ^^^ y ≠ 0 := by rwa [ne_eq, Nat.xor_eq_zero_iff]
  have hshift : (x ^^^ y) >>> k = x >>> k ^^^ y >>> k := Nat.shiftRight_xor_distrib
  rw [Nat.shiftRight_eq_div_pow, Nat.shiftRight_eq_div_pow, Nat.shiftRight_eq_div_pow] at hshift
  rw [topBit, Nat.log2_lt hxor, ← Nat.div_eq_zero_iff_lt (Nat.two_pow_pos k), hshift,
    Nat.xor_eq_zero_iff]

theorem topBit_comm (x y : Nat) : topBit x y = topBit y x := by
  rw [topBit, topBit, Nat.xor_comm]

/-- Numbers of `n` bits differ below bit `n`. -/
theorem topBit_lt {x y n : Nat} (hne : x ≠ y) (hx : x < 2 ^ n) (hy : y < 2 ^ n) :
    topBit x y < n := by
  rw [topBit_lt_iff hne, Nat.div_eq_of_lt hx, Nat.div_eq_of_lt hy]

/-- Numbers on the two sides of a dyadic boundary `2 ^ n` differ at bit `n` or above. -/
theorem le_topBit {x y n : Nat} (hx : x < 2 ^ n) (hy : 2 ^ n ≤ y) : n ≤ topBit x y := by
  have hne : x ≠ y := by omega
  by_contra h
  have hdiv := (topBit_lt_iff hne n).mp (by omega)
  rw [Nat.div_eq_of_lt hx, eq_comm, Nat.div_eq_zero_iff_lt (Nat.two_pow_pos n)] at hdiv
  omega

/-- The strong triangle inequality. -/
theorem topBit_lt_of_lt {x y z k : Nat} (hxz : x ≠ z) (hxy : topBit x y < k ∨ x = y)
    (hyz : topBit y z < k ∨ y = z) : topBit x z < k := by
  rw [topBit_lt_iff hxz]
  have hblock {u v : Nat} (h : topBit u v < k ∨ u = v) : u / 2 ^ k = v / 2 ^ k := by
    by_cases he : u = v
    · rw [he]
    · exact (topBit_lt_iff he k).mp (h.resolve_right he)
  exact (hblock hxy).trans (hblock hyz)

/-- Moving one end by less than the distance keeps the distance. -/
theorem topBit_eq_of_lt {x y z : Nat} (hxy : x ≠ y)
    (h : topBit x z < topBit x y) : z ≠ y ∧ topBit z y = topBit x y := by
  have hzy : z ≠ y := by
    rintro rfl
    exact lt_irrefl _ h
  refine ⟨hzy, le_antisymm ?_ ?_⟩
  · have hlt : topBit z y < topBit x y + 1 := by
      refine topBit_lt_of_lt hzy (Or.inl ?_) (Or.inl (Nat.lt_succ_self _))
      rw [topBit_comm]
      omega
    omega
  · by_contra hlt
    have := topBit_lt_of_lt (k := topBit x y) hxy (Or.inl h) (Or.inl (by omega))
    exact lt_irrefl _ this

/-- Bits have two values, so no three numbers are pairwise at the same distance. -/
theorem topBit_lt_of_eq {x y z : Nat} (hxy : x ≠ y) (hxz : x ≠ z) (hyz : y ≠ z)
    (h : topBit x y = topBit x z) : topBit y z < topBit x y := by
  set k := topBit x y with hk
  have hhalf (u : Nat) : u / 2 ^ k / 2 = u / 2 ^ (k + 1) := by
    rw [Nat.div_div_eq_div_mul, pow_succ]
  have hy := (topBit_lt_iff hxy (k + 1)).mp (by omega)
  have hz := (topBit_lt_iff hxz (k + 1)).mp (by omega)
  have hy' : x / 2 ^ k ≠ y / 2 ^ k := by
    rw [ne_eq, ← topBit_lt_iff hxy]
    omega
  have hz' : x / 2 ^ k ≠ z / 2 ^ k := by
    rw [ne_eq, ← topBit_lt_iff hxz]
    omega
  rw [← hhalf, ← hhalf] at hy hz
  rw [topBit_lt_iff hyz]
  omega

/-- The distance from a point grows along the order. -/
theorem topBit_mono {x y z : Nat} (hxy : x < y) (hyz : y ≤ z) : topBit x y ≤ topBit x z := by
  by_contra h
  have hdiv := (topBit_lt_iff (by omega : x ≠ z) (topBit x y)).mp (by omega)
  have hle : x / 2 ^ topBit x y ≤ y / 2 ^ topBit x y := Nat.div_le_div_right hxy.le
  have hle' : y / 2 ^ topBit x y ≤ z / 2 ^ topBit x y := Nat.div_le_div_right hyz
  have := (topBit_lt_iff hxy.ne (topBit x y)).mpr (by omega)
  exact lt_irrefl _ this

end TopBit
