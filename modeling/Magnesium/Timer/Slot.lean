import Magnesium.Core.TopBit
import Magnesium.Timer.Wheel
import Mathlib.Tactic.Set

/-!
# Which queue holds which deadline

`Due t T j` places a deadline `T` in timer queue `j` at tick `t`. The only arithmetic the wheel
rests on is `Due.succ`: an increment of the counter changes the place of those deadlines alone
that are in the queue the tick selects. The half-range bound on delays enters where the counter
has passed `2 ^ 31` and the deadline has wrapped.
-/

namespace Magnesium

open TopBit

variable {M : Nat} [NeZero M]

/-- The timer queue for a highest differing bit; the last queue takes the overflow. -/
def slot (M : Nat) [NeZero M] (msb : Nat) : Fin M :=
  ⟨min msb (M - 1), (Nat.min_le_right _ _).trans_lt (Nat.sub_one_lt (NeZero.ne M))⟩

/-- The assertion `x != y` of `_mg_diff_msb` is its only way to fail. -/
theorem diffMsb_eq {x y : UInt32} (hne : x ≠ y) :
    diffMsb M x y = some (slot M (topBit x.toNat y.toNat)) := by
  have hxor : x ^^^ y ≠ 0 := by rwa [ne_eq, UInt32.xor_eq_zero_iff]
  have hnat : x.toNat ≠ y.toNat := fun h => hne (UInt32.toNat_inj.mp h)
  have hlt : topBit x.toNat y.toNat < 32 := topBit_lt hnat x.toNat_lt y.toNat_lt
  have hmsb : 32 - portClz (x ^^^ y) - 1 = topBit x.toNat y.toNat := by
    rw [portClz, if_neg hxor, UInt32.toNat_xor]
    change 32 - (31 - topBit x.toNat y.toNat) - 1 = _
    omega
  simp only [diffMsb, if_neg hne, hmsb, Option.some.injEq]
  apply Fin.ext
  simp only [slot]
  split <;> simp only <;> omega

@[simp] theorem diffMsb_self (x : UInt32) : diffMsb M x x = none := by simp [diffMsb]

theorem diffMsb_comm (x y : UInt32) : diffMsb M x y = diffMsb M y x := by
  by_cases h : x = y
  · rw [h]
  · rw [diffMsb_eq h, diffMsb_eq (Ne.symm h), topBit_comm]

/-- Numbers of ticks from `t` to a deadline that the code admits. -/
def InRange (t T : UInt32) : Prop := 0 < (T - t).toNat ∧ (T - t).toNat < 2 ^ 31

theorem InRange.ne {t T : UInt32} (h : InRange t T) : t ≠ T := by
  rintro rfl
  simp [InRange] at h

/-- Ahead of the counter: either the plain order, or the deadline alone has wrapped. -/
theorem InRange.cases {t T : UInt32} (h : InRange t T) :
    t.toNat < T.toNat ∨ (2 ^ 31 ≤ t.toNat ∧ T.toNat < 2 ^ 31) := by
  have ht := t.toNat_lt
  have hT := T.toNat_lt
  unfold InRange at h
  rw [UInt32.toNat_sub] at h
  omega

theorem ticks_ne_succ (t : UInt32) : t ≠ t + 1 := by
  intro h
  have := congrArg UInt32.toNat h
  rw [UInt32.toNat_add, UInt32.toNat_one] at this
  have := t.toNat_lt
  omega

/-- A tick leaves every deadline outside the block it closes at its distance. -/
theorem topBit_tick {t T : UInt32} (h : InRange t T)
    (hne : topBit t.toNat T.toNat ≠ topBit t.toNat (t + 1).toNat) :
    t + 1 ≠ T ∧ topBit (t + 1).toNat T.toNat = topBit t.toNat T.toNat := by
  have hT : t.toNat ≠ T.toNat := fun he => h.ne (UInt32.toNat_inj.mp he)
  have hs : t.toNat ≠ (t + 1).toNat := fun he => ticks_ne_succ t (UInt32.toNat_inj.mp he)
  have hlt : topBit t.toNat (t + 1).toNat < topBit t.toNat T.toNat := by
    have htl := t.toNat_lt
    have hsucc : (t + 1).toNat = (t.toNat + 1) % 2 ^ 32 := by
      rw [UInt32.toNat_add, UInt32.toNat_one]
    rcases h.cases with hplain | ⟨hbig, hsmall⟩
    · -- no wrap: the new tick lies between the old one and the deadline
      have hTl := T.toNat_lt
      have := topBit_mono (z := T.toNat) (by omega : t.toNat < (t + 1).toNat) (by omega)
      omega
    · -- the deadline wrapped: it differs in bit 31, the increment does not unless it wraps too
      have hfar : topBit t.toNat T.toNat = 31 := by
        have h32 := topBit_lt hT htl T.toNat_lt
        have h31 := le_topBit hsmall hbig
        rw [topBit_comm] at h31
        omega
      by_cases hwrap : t.toNat + 1 < 2 ^ 32
      · have h31 : topBit t.toNat (t + 1).toNat < 31 := by
          rw [topBit_lt_iff hs]
          omega
        omega
      · have h32 := topBit_lt hs htl (t + 1).toNat_lt
        omega
  obtain ⟨hne', heq⟩ := topBit_eq_of_lt hT hlt
  exact ⟨fun he => hne' (congrArg UInt32.toNat he), heq⟩

/-- At tick `t` the deadline `T` lies ahead, in timer queue `j`. -/
def Due (M : Nat) [NeZero M] (t T : UInt32) (j : Fin M) : Prop :=
  InRange t T ∧ diffMsb M t T = some j

/-- A deadline that the next tick reaches or leaves ahead. -/
def Late (t T : UInt32) : Prop := T = t ∨ InRange t T

/-- Every admitted deadline comes no closer than the next tick. -/
theorem InRange.late_succ {t T : UInt32} (h : InRange t T) : Late (t + 1) T := by
  by_cases he : T = t + 1
  · exact Or.inl he
  · apply Or.inr
    have hne : T.toNat ≠ (t + 1).toNat := fun hn => he (UInt32.toNat_inj.mp hn)
    have ht := t.toNat_lt
    have hT := T.toNat_lt
    unfold InRange at h ⊢
    rw [UInt32.toNat_sub] at h ⊢
    rw [UInt32.toNat_add, UInt32.toNat_one] at hne ⊢
    omega

/-- Re-sorting the selected queue suffices: a tick moves no deadline of another queue. -/
theorem Due.succ {t T : UInt32} {i j : Fin M} (h : Due M t T j)
    (hi : diffMsb M t (t + 1) = some i) (hne : j ≠ i) : Due M (t + 1) T j := by
  obtain ⟨hr, hj⟩ := h
  rw [diffMsb_eq hr.ne, Option.some.injEq] at hj
  rw [diffMsb_eq (ticks_ne_succ t), Option.some.injEq] at hi
  have htop : topBit t.toNat T.toNat ≠ topBit t.toNat (t + 1).toNat := by
    intro he
    rw [he] at hj
    exact hne (hj.symm.trans hi)
  obtain ⟨hT, heq⟩ := topBit_tick hr htop
  refine ⟨hr.late_succ.resolve_left (Ne.symm hT), ?_⟩
  rw [diffMsb_eq hT, heq, hj]

/-- A deadline ahead has exactly one queue. -/
theorem InRange.due {t T : UInt32} (h : InRange t T) :
    ∃ j, diffMsb M t T = some j ∧ Due M t T j :=
  ⟨_, diffMsb_eq h.ne, h, diffMsb_eq h.ne⟩

/-- A deadline `r` ticks ahead gives `r` back. -/
theorem add_ofNat_sub (t : UInt32) {r : Nat} (hr : r < 2 ^ 31) :
    (t + UInt32.ofNat r - t).toNat = r := by
  rw [UInt32.add_comm, UInt32.add_sub_cancel, UInt32.toNat_ofNat']
  omega

theorem add_ofNat_inj {t : UInt32} {r k : Nat} (hr : r < 2 ^ 31) (hk : k < 2 ^ 31) :
    t + UInt32.ofNat r = t + UInt32.ofNat k ↔ r = k := by
  refine ⟨fun h => ?_, fun h => by rw [h]⟩
  rw [← add_ofNat_sub t hr, h, add_ofNat_sub t hk]

theorem inRange_add {t : UInt32} {r : Nat} (hpos : 0 < r) (hr : r < 2 ^ 31) :
    InRange t (t + UInt32.ofNat r) := by
  rw [InRange, add_ofNat_sub t hr]
  exact ⟨hpos, hr⟩

theorem succ_add_ofNat (t : UInt32) (r : Nat) :
    t + 1 + UInt32.ofNat r = t + UInt32.ofNat (r + 1) := by
  rw [UInt32.add_assoc, Nat.add_comm r 1, UInt32.ofNat_add]
  rfl

end Magnesium
