import Magnesium.Core.Smear
import Magnesium.Timer.Slot

/-!
# The software clz of ARMv6-M

`mg_port_clz` of the port `nvic_m0` smears the leading bit downwards, isolates it, and finds its
position by a multiplication with a de Bruijn sequence and a look-up. It agrees with the hardware
instruction on all operands but zero, so the port places timers as the others do.
-/

namespace Magnesium

/-- The table `hash`. -/
def hash : List Nat :=
  [31, 30, 3, 29, 2, 17, 7, 28, 1, 9, 11, 16, 6, 14, 27, 23,
    0, 4, 18, 8, 10, 12, 15, 24, 5, 19, 13, 25, 20, 26, 21, 22]

/-- `_mul`: the instruction keeps the lower half of the product. -/
def mul (a b : UInt32) : UInt32 := a * b

/-- The statements of `mg_port_clz` before its look-up. -/
def isolate (v : UInt32) : UInt32 :=
  let v := v ||| v >>> 1
  let v := v ||| v >>> 2
  let v := v ||| v >>> 4
  let v := v ||| v >>> 8
  let v := v ||| v >>> 16
  v - v >>> 1

/-- The index `mg_port_clz` looks up. -/
def hashIndex (v : UInt32) : Nat := (mul (isolate v) 0x077CB531 >>> 27).toNat

/-- `mg_port_clz` of `nvic_m0`; `none` is a look-up outside of the table. -/
def softClz (v : UInt32) : Option Nat := hash[hashIndex v]?

theorem lastSlot_lt (M : Nat) [NeZero M] : M - 1 < M := Nat.sub_one_lt (NeZero.ne M)

/-- `_mg_diff_msb` over any `mg_port_clz`. -/
def diffMsbBy (clz : UInt32 → Option Nat) (M : Nat) [NeZero M] (x y : UInt32) :
    Option (Fin M) :=
  if x = y then none
  else do
    let width := 32
    let msb := width - (← clz (x ^^^ y)) - 1
    some (if h : msb < M then ⟨msb, h⟩ else ⟨M - 1, lastSlot_lt M⟩)

theorem diffMsbBy_portClz (M : Nat) [NeZero M] (x y : UInt32) :
    diffMsbBy (fun v => some (portClz v)) M x y = diffMsb M x y := rfl

/-- The smearing leaves the leading bit of its operand. -/
theorem toNat_isolate {v : UInt32} (hv : v ≠ 0) : (isolate v).toNat = 2 ^ v.toNat.log2 := by
  have hnat : v.toNat ≠ 0 := fun h => hv (UInt32.toNat_inj.mp h)
  have hlog : v.toNat.log2 < 32 := (Nat.log2_lt hnat).mpr v.toNat_lt
  have hfilled := (Smear.filled_log2 hnat).smear.smear.smear.smear.smear
  have hle (u : UInt32) : u >>> 1 ≤ u := by
    rw [UInt32.le_iff_toNat_le, UInt32.toNat_shiftRight]
    exact Nat.shiftRight_le _ _
  rw [isolate, UInt32.toNat_sub_of_le _ _ (hle _)]
  simpa using hfilled.isolate hlog

/-- The table inverts the multiplication on the powers of two. -/
theorem hash_two_pow : ∀ k < 32, hash[(mul (UInt32.ofNat (2 ^ k)) 0x077CB531 >>> 27).toNat]? =
    some (31 - k) := by decide

theorem hashIndex_lt (v : UInt32) : hashIndex v < hash.length := by
  have hlt := (mul (isolate v) 0x077CB531).toNat_lt
  have hlen : hash.length = 2 ^ 5 := rfl
  have hshift : (27 : UInt32).toNat % 32 = 27 := rfl
  rw [hashIndex, UInt32.toNat_shiftRight, hshift, Nat.shiftRight_eq_div_pow, hlen]
  omega

theorem softClz_eq {v : UInt32} (hv : v ≠ 0) : softClz v = some (31 - v.toNat.log2) := by
  have hnat : v.toNat ≠ 0 := fun h => hv (UInt32.toNat_inj.mp h)
  have hlog : v.toNat.log2 < 32 := (Nat.log2_lt hnat).mpr v.toNat_lt
  have hbit : isolate v = UInt32.ofNat (2 ^ v.toNat.log2) := by
    rw [← toNat_isolate hv, UInt32.ofNat_toNat]
  rw [softClz, hashIndex, hbit]
  exact hash_two_pow _ hlog

/-- The leading zeros are the bits above the leading one. -/
theorem clz_eq_log2 {v : UInt32} (hv : v ≠ 0) : v.toBitVec.clz.toNat = 31 - v.toNat.log2 := by
  have hbv : v.toBitVec ≠ 0#32 := fun h => hv (UInt32.toBitVec_inj.mp h)
  have hnat : v.toNat ≠ 0 := fun h => hv (UInt32.toNat_inj.mp h)
  have hlow := BitVec.two_pow_sub_clz_le_toNat_of_ne_zero (by decide : 0 < 32) hbv
  have hhigh := BitVec.toNat_lt_two_pow_sub_clz (x := v.toBitVec)
  have hlt : v.toBitVec.clz.toNat < 32 := BitVec.clz_lt_iff_ne_zero.mpr hbv
  have hle := (Nat.le_log2 hnat).mpr hlow
  have hlog := (Nat.log2_lt hnat).mpr hhigh
  omega

theorem portClz_eq {v : UInt32} (hv : v ≠ 0) : portClz v = 31 - v.toNat.log2 := if_neg hv

/-- The software clz of ARMv6-M agrees with the hardware one. On every operand but zero the
look-up stays inside the table and finds the number of leading zeros; so `_mg_diff_msb` built on it
gives the timer queue that it gives on the ports with `__builtin_clz`, the highest differing bit
bounded by the overflow queue. -/
theorem soft_clz_agrees (M : Nat) [NeZero M] :
    (∀ v : UInt32, v ≠ 0 → hashIndex v < hash.length ∧
      softClz v = some v.toBitVec.clz.toNat ∧ softClz v = some (portClz v)) ∧
    ∀ x y : UInt32, x ≠ y → ∃ i : Fin M, diffMsbBy softClz M x y = some i ∧
      i.val = min (x ^^^ y).toNat.log2 (M - 1) ∧ diffMsb M x y = some i := by
  have hsoft : ∀ v : UInt32, v ≠ 0 → softClz v = some (portClz v) := fun v hv => by
    rw [softClz_eq hv, portClz_eq hv]
  refine ⟨fun v hv => ⟨hashIndex_lt v, ?_, hsoft v hv⟩, fun x y hne => ?_⟩
  · rw [softClz_eq hv, clz_eq_log2 hv]
  · have hxor : x ^^^ y ≠ 0 := by rwa [ne_eq, UInt32.xor_eq_zero_iff]
    have hsame : diffMsbBy softClz M x y = diffMsb M x y := by
      rw [← diffMsbBy_portClz, diffMsbBy, diffMsbBy, hsoft _ hxor]
    refine ⟨_, hsame.trans (diffMsb_eq hne), ?_, diffMsb_eq hne⟩
    rw [UInt32.toNat_xor]
    rfl

/-- Two deadlines that differ from bit 11 downwards, with ten timer queues. -/
theorem soft_clz_agrees_overflow : ∃ i : Fin 10, diffMsbBy softClz 10 0 0xABC = some i ∧
    i.val = 9 := by
  obtain ⟨i, hi, hval, -⟩ := (soft_clz_agrees 10).2 0 0xABC (by decide)
  exact ⟨i, hi, hval.trans (by decide)⟩

end Magnesium
