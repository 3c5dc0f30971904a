import Magnesium.Core.Assertion
import Mathlib.Data.Nat.Bitwise
import Mathlib.Logic.Function.Basic
import Mathlib.Tactic.Ring

/-!
# The tick of the RISC-V port

The counter `mtime` and the compare value of a core have 64 bits; they are read and written in two
halves while the counter runs. The interrupt of the timer is pending while the counter is not
below the compare value. Time passes between any two accesses, as much as it likes.
-/

namespace Magnesium

open Procedure

/-- `CLK_PER_TICK`. -/
def clkPerTick : Nat := 12000

/-- The reads and the writes of the timer's registers, and the call of `mg_context_tick`. -/
inductive TimerAccess where
  | readMtime
  | readMtimeh
  | writeMtimecmp (v : UInt32)
  | writeMtimecmph (v : UInt32)
  | contextTick

abbrev TimerAccess.Answer : TimerAccess → Type
  | .readMtime | .readMtimeh => UInt32
  | _ => Unit

/-- The loop of `riscv_timer_get_mtime`. -/
inductive TimerProc where
  | getMtime

abbrev timerInterface : Interface where
  Access := TimerAccess
  Answer := TimerAccess.Answer
  Proc := TimerProc
  Result := fun _ => UInt64

/-- A piece of the timer's code. -/
abbrev TimerCode := Prog timerInterface

namespace TimerCode

def access (e : TimerAccess) : TimerCode e.Answer := Prog.perform (I := timerInterface) e

/-- One round of `riscv_timer_get_mtime`. -/
def getMtime : TimerCode UInt64 := do
  let h0 ← access .readMtimeh
  let l ← access .readMtime
  let h1 ← access .readMtimeh
  if h0 ≠ h1 then Prog.invoke (I := timerInterface) .getMtime
  else return l.toUInt64 ||| (h1.toUInt64 <<< 32)

/-- `riscv_timer_set_mtimecmp`. -/
def setMtimecmp (mtimecmp : UInt64) : TimerCode Unit := do
  access (.writeMtimecmp (-1))
  access (.writeMtimecmph (mtimecmp >>> 32).toUInt32)
  access (.writeMtimecmp (mtimecmp &&& 0xffffffff).toUInt32)

/-- `isr_handler` for `MTIMER_IRQ`. -/
def mtimerHandler : TimerCode Unit := do
  let current ← Prog.invoke (I := timerInterface) .getMtime
  let next := current + UInt64.ofNat clkPerTick
  setMtimecmp next
  access .contextTick

/-- `per_cpu_init`, which enables interrupts when it returns. -/
def perCpuInit : TimerCode Unit := setMtimecmp (UInt64.ofNat clkPerTick)

def body : (f : TimerProc) → TimerCode UInt64
  | .getMtime => getMtime

end TimerCode

/-- The timer of a core. -/
structure TimerState where
  /-- The counter at the last access. -/
  mtime : Nat
  mtimecmp : UInt32
  mtimecmph : UInt32
  /-- How often the counter has been read. -/
  reads : Nat
  /-- How often `mg_context_tick` has been called. -/
  ticks : Nat
  /-- The counter at each of these calls. -/
  tickedAt : Nat → Nat

open TimerCode

namespace TimerState

/-- The compare value. -/
def compare (w : TimerState) : Nat := w.mtimecmph.toNat * 2 ^ 32 + w.mtimecmp.toNat

/-- An access while the counter is at `t`. -/
def answer (w : TimerState) (t : Nat) : (e : TimerAccess) → e.Answer × TimerState
  | .readMtime => (UInt32.ofNat t, { w with mtime := t, reads := w.reads + 1 })
  | .readMtimeh => (UInt32.ofNat (t / 2 ^ 32), { w with mtime := t, reads := w.reads + 1 })
  | .writeMtimecmp v => ((), { w with mtime := t, mtimecmp := v })
  | .writeMtimecmph v => ((), { w with mtime := t, mtimecmph := v })
  | .contextTick =>
    ((), { w with
      mtime := t
      ticks := w.ticks + 1
      tickedAt := Function.update w.tickedAt w.ticks t })

/-- Any time passes before an access. The counter does not come near its end. -/
def world : World timerInterface TimerState := fun w e r w' =>
  ∃ t, w.mtime ≤ t ∧ t + clkPerTick < 2 ^ 64 ∧ w.answer t e = (r, w')

/-- Time passes, and the counter may be read. -/
def Waits (w w' : TimerState) : Prop :=
  w.mtime ≤ w'.mtime ∧ w' = { w with mtime := w'.mtime, reads := w'.reads }

/-- The compare value may change meanwhile, but is at no point below both the old value and `v`. -/
def Writes (v : Nat) (w w' : TimerState) : Prop :=
  w.mtime ≤ w'.mtime ∧ min w.compare v ≤ w'.compare ∧
    w' = { w with mtime := w'.mtime, mtimecmp := w'.mtimecmp, mtimecmph := w'.mtimecmph }

/-- What `riscv_timer_get_mtime` has returned: the counter at one point of the call. -/
def Read (w : TimerState) (v : UInt64) (w' : TimerState) : Prop :=
  w.mtime ≤ v.toNat ∧ v.toNat ≤ w'.mtime ∧ v.toNat + clkPerTick < 2 ^ 64 ∧ w.Waits w'

/-- The contract of the loop. -/
def spec : Spec timerInterface TimerState where
  pre := fun _ _ => True
  post := fun _ w v w' => w.Read v w'

theorem Waits.trans {w w₁ w₂ : TimerState} (h : w.Waits w₁) (h' : w₁.Waits w₂) : w.Waits w₂ := by
  obtain ⟨hle, heq⟩ := h
  obtain ⟨hle', heq'⟩ := h'
  refine ⟨hle.trans hle', ?_⟩
  rw [heq', heq]

theorem Waits.refl (w : TimerState) : w.Waits w := ⟨le_rfl, rfl⟩

/-- The halves that are read. -/
theorem toNat_halves {l h : UInt32} : (l.toUInt64 ||| (h.toUInt64 <<< 32)).toNat =
    h.toNat * 2 ^ 32 + l.toNat := by
  have hl := l.toNat_lt
  have hh := h.toNat_lt
  have hshift : (h.toUInt64 <<< 32).toNat = h.toNat <<< 32 := by
    rw [UInt64.toNat_shiftLeft, UInt32.toNat_toUInt64]
    change h.toNat <<< 32 % 2 ^ 64 = _
    rw [Nat.shiftLeft_eq]
    omega
  rw [UInt64.toNat_or, hshift, UInt32.toNat_toUInt64, Nat.or_comm,
    ← Nat.shiftLeft_add_eq_or_of_lt hl, Nat.shiftLeft_eq]

/-- The halves that are written. -/
theorem compare_high (v : UInt64) : (v >>> 32).toUInt32.toNat = v.toNat / 2 ^ 32 := by
  have hv := v.toNat_lt
  rw [UInt64.toNat_toUInt32, UInt64.toNat_shiftRight]
  change v.toNat >>> 32 % 2 ^ 32 = _
  rw [Nat.shiftRight_eq_div_pow]
  omega

theorem compare_low (v : UInt64) : (v &&& 0xffffffff).toUInt32.toNat = v.toNat % 2 ^ 32 := by
  rw [UInt64.toNat_toUInt32, UInt64.toNat_and]
  change (v.toNat &&& 2 ^ 32 - 1) % 2 ^ 32 = _
  rw [Nat.and_two_pow_sub_one_eq_mod, Nat.mod_mod]

section Rules

variable {J : TimerState → Prop} {w w' : TimerState} {α : Type} {Q : α → TimerState → Prop}

theorem wlp_access {C : Spec timerInterface TimerState} {e : TimerAccess}
    {g : e.Answer → TimerCode α} (hw : J w)
    (h : ∀ t, w.mtime ≤ t → t + clkPerTick < 2 ^ 64 →
      (g (w.answer t e).1).wlp world C J Q (w.answer t e).2) :
    (access e >>= g).wlp world C J Q w := by
  refine ⟨hw, ?_⟩
  rintro r w' ⟨t, hle, hend, heq⟩
  obtain ⟨rfl, rfl⟩ := Prod.mk.inj heq
  exact h t hle hend

theorem wlp_last {e : TimerAccess} {Q : e.Answer → TimerState → Prop} (hw : J w)
    (h : ∀ t, w.mtime ≤ t → t + clkPerTick < 2 ^ 64 →
      J (w.answer t e).2 ∧ Q (w.answer t e).1 (w.answer t e).2) :
    (access e).wlp world spec J Q w := by
  refine ⟨hw, ?_⟩
  rintro r w' ⟨t, hle, hend, heq⟩
  obtain ⟨rfl, rfl⟩ := Prod.mk.inj heq
  exact h t hle hend

/-- The compare value is written so that it is never too low. -/
theorem wlp_setMtimecmp {v : UInt64} {Q : Unit → TimerState → Prop}
    (hJ : ∀ w', w.Writes v.toNat w' → J w')
    (hQ : ∀ w', w.Writes v.toNat w' → w'.compare = v.toNat → Q () w') :
    (setMtimecmp v).wlp world spec J Q w := by
  have hlow := compare_low v
  have hhigh := compare_high v
  have hmax : (-1 : UInt32).toNat = 2 ^ 32 - 1 := rfl
  have hold := w.mtimecmp.toNat_lt
  have hstart : w.Writes v.toNat w := ⟨le_rfl, min_le_left _ _, rfl⟩
  refine wlp_access (hJ _ hstart) fun t₁ h₁ _ => ?_
  -- No lower than the old value.
  have hfirst : w.Writes v.toNat (w.answer t₁ (.writeMtimecmp (-1))).2 := by
    refine ⟨h₁, (min_le_left _ _).trans ?_, rfl⟩
    simp only [answer, compare, hmax]
    omega
  refine wlp_access (hJ _ hfirst) fun t₂ h₂ _ => ?_
  -- No lower than the new value.
  have hsecond : w.Writes v.toNat ((w.answer t₁ (.writeMtimecmp (-1))).2.answer t₂
      (.writeMtimecmph (v >>> 32).toUInt32)).2 := by
    refine ⟨h₁.trans h₂, (min_le_right _ _).trans ?_, rfl⟩
    simp only [answer, compare, hmax, hhigh]
    omega
  refine wlp_last (hJ _ hsecond) fun t₃ h₃ _ => ?_
  have heq : (((w.answer t₁ (.writeMtimecmp (-1))).2.answer t₂
      (.writeMtimecmph (v >>> 32).toUInt32)).2.answer t₃
      (.writeMtimecmp (v &&& 0xffffffff).toUInt32)).2.compare = v.toNat := by
    simp only [answer, compare, hhigh, hlow]
    omega
  have hthird : w.Writes v.toNat (((w.answer t₁ (.writeMtimecmp (-1))).2.answer t₂
      (.writeMtimecmph (v >>> 32).toUInt32)).2.answer t₃
      (.writeMtimecmp (v &&& 0xffffffff).toUInt32)).2 :=
    ⟨(h₁.trans h₂).trans h₃, heq ▸ min_le_right _ _, rfl⟩
  exact ⟨hJ _ hthird, hQ _ hthird heq⟩

section Round

variable {t₀ t₁ t₂ : Nat}

theorem toNat_high {t : Nat} (h : t + clkPerTick < 2 ^ 64) :
    (UInt32.ofNat (t / 2 ^ 32)).toNat = t / 2 ^ 32 := by
  apply Nat.mod_eq_of_lt
  omega

/-- The counter after one round of three reads. -/
def round (w : TimerState) (t : Nat) : TimerState :=
  { w with mtime := t, reads := w.reads + 1 + 1 + 1 }

/-- A round that reads the same high half twice. -/
theorem read_of_eq (h₀ : w.mtime ≤ t₀) (h₁ : t₀ ≤ t₁) (h₂ : t₁ ≤ t₂)
    (hend : t₂ + clkPerTick < 2 ^ 64)
    (heq : UInt32.ofNat (t₀ / 2 ^ 32) = UInt32.ofNat (t₂ / 2 ^ 32)) :
    w.Read ((UInt32.ofNat t₁).toUInt64 ||| ((UInt32.ofNat (t₂ / 2 ^ 32)).toUInt64 <<< 32))
      (w.round t₂) := by
  have hsame : t₀ / 2 ^ 32 = t₂ / 2 ^ 32 := by
    have hnat := congrArg UInt32.toNat heq
    rwa [toNat_high (by omega), toNat_high hend] at hnat
  have hlow : (UInt32.ofNat t₁).toNat = t₁ % 2 ^ 32 := rfl
  have hvalue : ((UInt32.ofNat t₁).toUInt64 |||
      ((UInt32.ofNat (t₂ / 2 ^ 32)).toUInt64 <<< 32)).toNat = t₁ := by
    rw [toNat_halves, toNat_high hend, hlow]
    have hle := Nat.div_le_div_right (c := 2 ^ 32) h₁
    have hle' := Nat.div_le_div_right (c := 2 ^ 32) h₂
    omega
  refine ⟨?_, ?_, ?_, ⟨h₀.trans (h₁.trans h₂), rfl⟩⟩
  · rw [hvalue]
    exact h₀.trans h₁
  · rw [hvalue]
    exact h₂
  · rw [hvalue]
    omega

/-- A round in which the low half rolls over, and the rest of the loop. -/
theorem Read.of_round {v : UInt64} (h : w.mtime ≤ t₂) (hread : (w.round t₂).Read v w') :
    w.Read v w' := by
  obtain ⟨hv, hv', hend, hwait⟩ := hread
  have hstart : w.Waits (w.round t₂) := ⟨h, rfl⟩
  exact ⟨hstart.1.trans hv, hv', hend, hstart.trans hwait⟩

end Round

/-- The loop keeps its contract. -/
theorem spec_holds (hJ : ∀ w w', J w → w.Waits w' → J w') : spec.Holds body world J := by
  intro f w hw _
  cases f
  refine wlp_access hw fun t₀ h₀ _ => ?_
  refine wlp_access (hJ w _ hw ⟨h₀, rfl⟩) fun t₁ h₁ _ => ?_
  refine wlp_access (hJ w _ hw ⟨h₀.trans h₁, rfl⟩) fun t₂ h₂ hend => ?_
  have hround : J (w.round t₂) := hJ w _ hw ⟨(h₀.trans h₁).trans h₂, rfl⟩
  change Prog.wlp world spec J (if UInt32.ofNat (t₀ / 2 ^ 32) ≠ UInt32.ofNat (t₂ / 2 ^ 32) then _
    else _) _ (w.round t₂)
  split
  · refine ⟨hround, trivial, fun v w' hread => ⟨hJ _ w' hround hread.2.2.2, ?_⟩⟩
    exact hread.of_round ((h₀.trans h₁).trans h₂)
  · rename_i heq
    exact ⟨hround, read_of_eq h₀ h₁ h₂ hend (not_not.mp heq)⟩

end Rules

/-- Every call of `mg_context_tick` came when it was due, and the next one is not due yet. -/
structure Ticked (w : TimerState) : Prop where
  early : (w.ticks + 1) * clkPerTick ≤ w.compare
  due : ∀ i, i < w.ticks → (i + 1) * clkPerTick ≤ w.tickedAt i
  past : ∀ i, i < w.ticks → w.tickedAt i ≤ w.mtime
  spaced : ∀ i j, i < j → j < w.ticks → w.tickedAt i + (j - 1 - i) * clkPerTick ≤ w.tickedAt j

/-- Outside of the handler. -/
structure Rests (w : TimerState) : Prop where
  soon : w.compare ≤ w.mtime + clkPerTick
  apart : ∀ i, i < w.ticks →
    w.tickedAt i + (w.ticks - 1 - i) * clkPerTick ≤ max w.compare w.mtime

section Tick

variable {w w' : TimerState}

theorem Ticked.waits (h : w.Ticked) (hw : w.Waits w') : w'.Ticked := by
  obtain ⟨hle, heq⟩ := hw
  rw [heq]
  exact ⟨h.early, h.due, fun i hi => (h.past i hi).trans hle, h.spaced⟩

theorem Ticked.writes {v : Nat} (h : w.Ticked) (hv : (w.ticks + 1) * clkPerTick ≤ v)
    (hw : w.Writes v w') : w'.Ticked := by
  obtain ⟨hle, hcompare, heq⟩ := hw
  have hearly : (w.ticks + 1) * clkPerTick ≤ w'.compare := (le_min h.early hv).trans hcompare
  rw [heq] at hearly ⊢
  exact ⟨hearly, h.due, fun i hi => (h.past i hi).trans hle, h.spaced⟩

theorem Rests.wait (h : w.Rests) {t : Nat} (ht : w.mtime ≤ t) :
    ({ w with mtime := t } : TimerState).Rests := by
  refine ⟨h.soon.trans (Nat.add_le_add_right ht _), fun i hi => (h.apart i hi).trans ?_⟩
  exact max_le_max_left _ ht

/-- The call of `mg_context_tick` at the end of the handler. -/
theorem Ticked.tick {t t' : Nat} (h : w.Ticked) (hcompare : w.compare = t + clkPerTick)
    (hdue : (w.ticks + 1) * clkPerTick ≤ t) (ht : t ≤ w.mtime)
    (hapart : ∀ i, i < w.ticks → w.tickedAt i + (w.ticks - 1 - i) * clkPerTick ≤ t)
    (ht' : w.mtime ≤ t') :
    (w.answer t' .contextTick).2.Ticked ∧ (w.answer t' .contextTick).2.Rests := by
  have hself : Function.update w.tickedAt w.ticks t' w.ticks = t' := Function.update_self ..
  have hother : ∀ i, i < w.ticks → Function.update w.tickedAt w.ticks t' i = w.tickedAt i :=
    fun i hi => Function.update_of_ne (Nat.ne_of_lt hi) ..
  refine ⟨⟨?_, fun i hi => ?_, fun i hi => ?_, fun i j hij hj => ?_⟩, ?_, fun i hi => ?_⟩
  · change (w.ticks + 1 + 1) * clkPerTick ≤ w.compare
    rw [hcompare, Nat.succ_mul]
    omega
  · change _ ≤ Function.update w.tickedAt w.ticks t' i
    rcases Nat.lt_succ_iff_lt_or_eq.mp hi with hi | rfl
    · rw [hother i hi]
      exact h.due i hi
    · rw [hself]
      omega
  · change Function.update w.tickedAt w.ticks t' i ≤ t'
    rcases Nat.lt_succ_iff_lt_or_eq.mp hi with hi | rfl
    · rw [hother i hi]
      exact (h.past i hi).trans ht'
    · rw [hself]
  · change Function.update w.tickedAt w.ticks t' i + _ ≤ Function.update w.tickedAt w.ticks t' j
    rcases Nat.lt_succ_iff_lt_or_eq.mp hj with hj | rfl
    · rw [hother i (hij.trans hj), hother j hj]
      exact h.spaced i j hij hj
    · rw [hother i hij, hself]
      exact (hapart i hij).trans (ht.trans ht')
  · change w.compare ≤ t' + clkPerTick
    omega
  · change Function.update w.tickedAt w.ticks t' i + (w.ticks + 1 - 1 - i) * clkPerTick ≤
      max w.compare t'
    rcases Nat.lt_succ_iff_lt_or_eq.mp hi with hi | rfl
    · rw [hother i hi]
      have hsucc : w.ticks + 1 - 1 - i = w.ticks - 1 - i + 1 := by omega
      rw [hsucc, Nat.succ_mul, ← Nat.add_assoc]
      exact (Nat.add_le_add_right (hapart i hi) _).trans (hcompare ▸ le_max_left _ _)
    · have hzero : w.ticks + 1 - 1 - w.ticks = 0 := by omega
      rw [hself, hzero, Nat.zero_mul]
      exact le_max_right _ _

/-- The handler. -/
theorem wlp_mtimerHandler (h : w.Ticked) (hrest : w.Rests) (hpending : w.compare ≤ w.mtime) :
    mtimerHandler.wlp world spec Ticked (fun _ => Rests) w := by
  refine ⟨h, trivial, fun v w₁ hread => ?_⟩
  obtain ⟨hv, hv', hend, hwait⟩ := hread
  obtain ⟨hle, heq⟩ := hwait
  have hdue : (w₁.ticks + 1) * clkPerTick ≤ v.toNat := by
    rw [heq]
    exact (h.early.trans hpending).trans hv
  have hnext : (v + UInt64.ofNat clkPerTick).toNat = v.toNat + clkPerTick := by
    rw [UInt64.toNat_add]
    exact Nat.mod_eq_of_lt hend
  have hvalue : (w₁.ticks + 1) * clkPerTick ≤ (v + UInt64.ofNat clkPerTick).toNat := by omega
  change Prog.wlp world spec Ticked (setMtimecmp _ >>= fun _ => access .contextTick) _ w₁
  rw [Prog.wlp_bind]
  refine wlp_setMtimecmp (fun w₂ hw₂ => (h.waits ⟨hle, heq⟩).writes hvalue hw₂)
    fun w₂ hw₂ hcompare => ?_
  have hw₂' := (h.waits ⟨hle, heq⟩).writes hvalue hw₂
  rw [hnext] at hcompare
  obtain ⟨hle₂, -, heq₂⟩ := hw₂
  refine wlp_last hw₂' fun t ht _ => hw₂'.tick hcompare ?_ ?_ ?_ ht
  · rw [heq₂]
    exact hdue
  · exact hv'.trans hle₂
  · intro i hi
    rw [heq₂, heq] at hi ⊢
    exact (hrest.apart i hi).trans ((max_le hpending le_rfl).trans hv)

end Tick

end TimerState

/-- The runs of a core. Time passes while it does something else; the interrupt comes only while
the counter is not below the compare value. -/
inductive TimerRun : TimerCode Unit → TimerState → Prop
  | boot (w : TimerState) : w.ticks = 0 → TimerRun perCpuInit w
  | go {p p' : TimerCode Unit} {w w' : TimerState} : TimerRun p w →
      Steps body TimerState.world p w p' w' → TimerRun p' w'
  | wait {w : TimerState} (t : Nat) : TimerRun (pure ()) w → w.mtime ≤ t →
      TimerRun (pure ()) { w with mtime := t }
  | interrupt {w : TimerState} : TimerRun (pure ()) w → w.compare ≤ w.mtime →
      TimerRun mtimerHandler w

namespace TimerRun

open TimerState

variable {p : TimerCode Unit} {w : TimerState}

/-- In front of the first tick, `per_cpu_init` may find any compare value. -/
def Booting (p : TimerCode Unit) (w : TimerState) : Prop :=
  p.wlp world spec (fun w => w.ticks = 0) (fun _ w => w.Ticked ∧ w.Rests) w

theorem Booting.ticks (h : Booting p w) : w.ticks = 0 :=
  Prog.wlp_inv (J := fun w : TimerState => w.ticks = 0) h

/-- After the first write of the compare value. -/
def Running (p : TimerCode Unit) (w : TimerState) : Prop :=
  p.wlp world spec Ticked (fun _ => Rests) w

theorem booting_perCpuInit (h : w.ticks = 0) : Booting perCpuInit w := by
  refine wlp_setMtimecmp (fun w' hw' => ?_) fun w' hw' hcompare => ?_
  · rw [hw'.2.2]
    exact h
  · have hticks : w'.ticks = 0 := by
      rw [hw'.2.2]
      exact h
    have hclk : w'.compare = clkPerTick := hcompare
    refine ⟨⟨?_, fun i hi => ?_, fun i hi => ?_, fun i j _ hj => ?_⟩, ?_, fun i hi => ?_⟩
    · rw [hticks, hclk]
      omega
    · omega
    · omega
    · omega
    · omega
    · omega

theorem rest_of_booting (h : Booting (pure ()) w ∨ Running (pure ()) w) : w.Ticked ∧ w.Rests := by
  rcases h with h | h
  · exact h.2
  · exact h

theorem inv (h : TimerRun p w) : Booting p w ∨ Running p w := by
  induction h with
  | boot w hw => exact .inl (booting_perCpuInit hw)
  | go _ hs ih =>
    have hzero : spec.Holds body world fun w => w.ticks = 0 := spec_holds fun w w' hw hwait => by
      rw [hwait.2]
      exact hw
    exact ih.imp (fun h => Prog.wlp_steps hzero h hs)
      fun h => Prog.wlp_steps (spec_holds fun _ _ => Ticked.waits) h hs
  | wait t _ ht ih =>
    obtain ⟨hticked, hrest⟩ := rest_of_booting ih
    exact .inr ⟨hticked.waits ⟨ht, rfl⟩, hrest.wait ht⟩
  | interrupt _ hpending ih =>
    obtain ⟨hticked, hrest⟩ := rest_of_booting ih
    exact .inr (wlp_mtimerHandler hticked hrest hpending)

end TimerRun

namespace TimerState

variable {w w₀ w' : TimerState} {α : Type}

/-- Since `w` the counter has been read at most three times, and three times more for each time that
the low half has rolled over. -/
def ReadsBounded (w w' : TimerState) : Prop :=
  w.mtime ≤ w'.mtime ∧ w'.reads ≤ w.reads + 3 * (1 + (w'.mtime / 2 ^ 32 - w.mtime / 2 ^ 32))

/-- The contract of the loop in a call that began in `w`: a round begins where the rounds before it
are paid for by rollovers. -/
def readSpec (w : TimerState) : Spec timerInterface TimerState where
  pre := fun _ w₀ => w.mtime ≤ w₀.mtime ∧
    w₀.reads ≤ w.reads + 3 * (w₀.mtime / 2 ^ 32 - w.mtime / 2 ^ 32)
  post := fun _ _ v w' => w.mtime ≤ v.toNat ∧ v.toNat ≤ w'.mtime ∧ w.ReadsBounded w'

/-- Each round of the loop is paid for by a rollover, but for the last one. -/
theorem readSpec_holds (w : TimerState) :
    (readSpec w).Holds body world fun w' => w.ReadsBounded w' := by
  rintro f w₀ hbound ⟨hstart, hpaid⟩
  cases f
  have hroll : ∀ t, w₀.mtime ≤ t → w₀.mtime / 2 ^ 32 ≤ t / 2 ^ 32 := fun t ht =>
    Nat.div_le_div_right ht
  have hroll₀ : w.mtime / 2 ^ 32 ≤ w₀.mtime / 2 ^ 32 := Nat.div_le_div_right hstart
  have hafter : ∀ t, w₀.mtime ≤ t → ∀ n, n ≤ 3 →
      w.ReadsBounded { w₀ with mtime := t, reads := w₀.reads + n } := by
    intro t ht n hn
    have hle := hroll t ht
    refine ⟨hstart.trans ht, ?_⟩
    change w₀.reads + n ≤ w.reads + 3 * (1 + (t / 2 ^ 32 - w.mtime / 2 ^ 32))
    omega
  refine wlp_access hbound fun t₀ h₀ _ => ?_
  refine wlp_access (hafter t₀ h₀ 1 (by omega)) fun t₁ h₁ _ => ?_
  refine wlp_access (hafter t₁ (h₀.trans h₁) 2 (by omega)) fun t₂ h₂ hend => ?_
  have hround := hafter t₂ ((h₀.trans h₁).trans h₂) 3 le_rfl
  change Prog.wlp world (readSpec w) _ (if UInt32.ofNat (t₀ / 2 ^ 32) ≠ UInt32.ofNat (t₂ / 2 ^ 32)
    then _ else _) _ (w₀.round t₂)
  split
  · rename_i hne
    refine ⟨hround, ⟨hround.1, ?_⟩, fun v w' hpost => ⟨hpost.2.2, hpost⟩⟩
    have hne' : t₀ / 2 ^ 32 ≠ t₂ / 2 ^ 32 := fun heq => hne (congrArg _ heq)
    have hle : t₀ / 2 ^ 32 ≤ t₂ / 2 ^ 32 := Nat.div_le_div_right (h₁.trans h₂)
    have hle₀ := hroll t₀ h₀
    change w₀.reads + 3 ≤ w.reads + 3 * (t₂ / 2 ^ 32 - w.mtime / 2 ^ 32)
    omega
  · rename_i heq
    obtain ⟨hlow, hhigh, -⟩ := read_of_eq h₀ h₁ h₂ hend (not_not.mp heq)
    exact ⟨hround, hstart.trans hlow, hhigh, hround⟩

/-- The accesses of `riscv_timer_get_mtime`. -/
def IsRead (e : TimerAccess) : Prop := e = .readMtime ∨ e = .readMtimeh

theorem only_reads : getMtime.Only IsRead :=
  ⟨Or.inr rfl, fun h0 => ⟨Or.inl rfl, fun _ => ⟨Or.inr rfl, fun h1 => by
    change Prog.Only (I := timerInterface) IsRead (if h0 ≠ h1 then _ else _)
    split
    · exact fun _ => trivial
    · trivial⟩⟩⟩

/-- A read is possible at any time. -/
theorem steps_read {e : TimerAccess} {next : e.Answer → TimerCode α} (he : IsRead e) {t : Nat}
    (ht : w.mtime ≤ t) (hend : t + clkPerTick < 2 ^ 64) :
    ∃ p' w', Steps body world (.access e next) w p' w' ∧ w'.mtime = t ∧ w'.reads = w.reads + 1 := by
  refine ⟨next (w.answer t e).1, (w.answer t e).2, ?_, ?_⟩
  · exact .access ⟨t, ht, hend, rfl⟩ (.refl _ _)
  · rcases he with rfl | rfl <;> exact ⟨rfl, rfl⟩

/-- Whatever is left of such a program has returned, or goes on with a read. -/
theorem returned_or_reads {p : TimerCode α} (hp : p.Only IsRead) : (∃ v, p = pure v) ∨
    ∀ t, w.mtime ≤ t → t + clkPerTick < 2 ^ 64 →
      ∃ p' w', Steps body world p w p' w' ∧ w'.mtime = t ∧ w'.reads = w.reads + 1 := by
  cases p with
  | ret v => exact Or.inl ⟨v, rfl⟩
  | access e next => exact Or.inr fun t ht hend => steps_read hp.1 ht hend
  | call f next =>
    cases f
    refine Or.inr fun t ht hend => ?_
    obtain ⟨p', w', hsteps, hw'⟩ := steps_read (e := .readMtimeh) (Or.inr rfl) ht hend
    exact ⟨p', w', .call hsteps, hw'⟩
  | abort => exact hp.elim

end TimerState

open TimerState in
/-- The counter is read exactly. However it runs on between the reads of its halves: at every point
of `riscv_timer_get_mtime` it has been read at most three times, and three times more for each time
that the low half has rolled over since the call; what is returned is the counter at one moment of
the call; and until then the next read can come at any time. -/
theorem mtime_read_exact {w w' : TimerState} {p : TimerCode UInt64}
    (h : Steps body world getMtime w p w') :
    w'.reads ≤ w.reads + 3 * (1 + (w'.mtime / 2 ^ 32 - w.mtime / 2 ^ 32)) ∧
    (∀ v, p = pure v → w.mtime ≤ v.toNat ∧ v.toNat ≤ w'.mtime) ∧
    ((∃ v, p = pure v) ∨ ∀ t, w'.mtime ≤ t → t + clkPerTick < 2 ^ 64 →
      ∃ p' w'', Steps body world p w' p' w'' ∧ w''.mtime = t ∧ w''.reads = w'.reads + 1) := by
  have hholds := readSpec_holds w
  have hstart : w.ReadsBounded w := ⟨le_rfl, by omega⟩
  have hwlp := hholds .getMtime w hstart ⟨le_rfl, by omega⟩
  obtain ⟨hbound, hvalue⟩ := hholds.sound hwlp h
  refine ⟨hbound.2, fun v hv => ?_, returned_or_reads (only_reads.steps (fun _ => only_reads) h)⟩
  obtain ⟨hlow, hhigh, -⟩ := hvalue v hv
  exact ⟨hlow, hhigh⟩

/-- A core before any access to its timer. -/
def coldTimer (mtime : Nat) : TimerState := ⟨mtime, 0, 0, 0, 0, fun _ => 0⟩

/-- The low half rolls over between the first two reads. -/
theorem mtime_read_exact_rollover : ∃ w' : TimerState,
    Steps body TimerState.world getMtime (coldTimer (2 ^ 32 - 1))
      (pure (UInt64.ofNat (2 ^ 32 + 5))) w' ∧ w'.reads = 6 ∧ w'.mtime = 2 ^ 32 + 9 ∧
    w'.reads ≤ (coldTimer (2 ^ 32 - 1)).reads +
      3 * (1 + (w'.mtime / 2 ^ 32 - (coldTimer (2 ^ 32 - 1)).mtime / 2 ^ 32)) ∧
    (coldTimer (2 ^ 32 - 1)).mtime ≤ (UInt64.ofNat (2 ^ 32 + 5)).toNat ∧
    (UInt64.ofNat (2 ^ 32 + 5)).toNat ≤ w'.mtime := by
  let w' : TimerState := { coldTimer (2 ^ 32 + 9) with reads := 6 }
  have hsteps : Steps body TimerState.world getMtime (coldTimer (2 ^ 32 - 1))
      (pure (UInt64.ofNat (2 ^ 32 + 5))) w' := by
    refine .access ⟨2 ^ 32 - 1, by decide, by decide, rfl⟩ ?_
    refine .access ⟨2 ^ 32, by decide, by decide, rfl⟩ ?_
    refine .access ⟨2 ^ 32, by decide, by decide, rfl⟩ ?_
    refine .call ?_
    refine .access ⟨2 ^ 32, by decide, by decide, rfl⟩ ?_
    refine .access ⟨2 ^ 32 + 5, by decide, by decide, rfl⟩ ?_
    refine .access ⟨2 ^ 32 + 9, by decide, by decide, rfl⟩ ?_
    exact .refl _ _
  obtain ⟨hreads, hvalue, -⟩ := mtime_read_exact hsteps
  exact ⟨w', hsteps, rfl, rfl, hreads, hvalue _ rfl⟩

open TimerState in
/-- Writing the compare value raises no interrupt of its own. Whatever it was and however the
counter runs on, at no point of `riscv_timer_set_mtimecmp` is it below both the old and the new
value, so that the interrupt is pending at most where one of them is reached; at the end it is the
new one. -/
theorem mtimecmp_never_low {w w' : TimerState} {v : UInt64} {p : TimerCode Unit}
    (h : Steps body world (setMtimecmp v) w p w') :
    min w.compare v.toNat ≤ w'.compare ∧ (p = pure () → w'.compare = v.toNat) := by
  have hwlp : (setMtimecmp v).wlp world spec (fun w' => min w.compare v.toNat ≤ w'.compare)
      (fun _ w' => w'.compare = v.toNat) w :=
    wlp_setMtimecmp (fun w' hw' => hw'.2.1) fun _ _ hcompare => hcompare
  have hholds : spec.Holds body world fun w' => min w.compare v.toNat ≤ w'.compare := by
    apply spec_holds
    intro w₁ w₂ hw₁ hwait
    rw [hwait.2]
    exact hw₁
  obtain ⟨hlow, hend⟩ := hholds.sound hwlp h
  exact ⟨hlow, hend ()⟩

/-- The high half has been written, and the low half is still at its highest value. -/
theorem mtimecmp_never_low_between : ∃ w' : TimerState, w'.mtimecmph = 2 ∧ w'.mtimecmp = -1 ∧
    min (coldTimer 7).compare (UInt64.ofNat (2 ^ 33 + 1)).toNat ≤ w'.compare ∧
    (TimerCode.access (.writeMtimecmp 1) = pure () →
      w'.compare = (UInt64.ofNat (2 ^ 33 + 1)).toNat) := by
  let w' : TimerState := { coldTimer 9 with mtimecmp := -1, mtimecmph := 2 }
  have hsteps : Steps body TimerState.world (setMtimecmp (UInt64.ofNat (2 ^ 33 + 1))) (coldTimer 7)
      (TimerCode.access (.writeMtimecmp 1)) w' := by
    refine .access ⟨8, by decide, by decide, rfl⟩ ?_
    refine .access ⟨9, by decide, by decide, rfl⟩ ?_
    exact .refl _ _
  exact ⟨w', rfl, rfl, mtimecmp_never_low hsteps⟩

/-- The tick never runs ahead of the counter. However the counter runs on between two accesses, the
`i`-th call of `mg_context_tick` comes when at least `i` periods have passed, any two calls are as
many periods apart as there are calls between them, and whenever the core is not in the handler
the next tick is not due before its period is over, and due after one period at the latest. -/
theorem ticks_spaced {p : TimerCode Unit} {w : TimerState} (h : TimerRun p w) :
    (∀ i, i < w.ticks → (i + 1) * clkPerTick ≤ w.tickedAt i ∧ w.tickedAt i ≤ w.mtime) ∧
    (∀ i j, i < j → j < w.ticks → w.tickedAt i + (j - 1 - i) * clkPerTick ≤ w.tickedAt j) ∧
    (p = pure () → (w.ticks + 1) * clkPerTick ≤ w.compare ∧
      w.compare ≤ w.mtime + clkPerTick) := by
  have hinv := h.inv
  refine ⟨fun i hi => ?_, fun i j hij hj => ?_, ?_⟩
  · rcases hinv with hboot | hrun
    · have hzero := hboot.ticks
      omega
    · have hticked : w.Ticked := Prog.wlp_inv hrun
      exact ⟨hticked.due i hi, hticked.past i hi⟩
  · rcases hinv with hboot | hrun
    · have hzero := hboot.ticks
      omega
    · have hticked : w.Ticked := Prog.wlp_inv hrun
      exact hticked.spaced i j hij hj
  · rintro rfl
    obtain ⟨hticked, hrest⟩ := TimerRun.rest_of_booting hinv
    exact ⟨hticked.early, hrest.soon⟩

/-- A core that is late for its first tick, and then for its second. -/
theorem ticks_spaced_late : ∃ w : TimerState, TimerRun (pure ()) w ∧ w.ticks = 2 ∧
    w.tickedAt 0 = 12346 ∧ w.tickedAt 1 = 24400 ∧
    (∀ i, i < w.ticks → (i + 1) * clkPerTick ≤ w.tickedAt i ∧ w.tickedAt i ≤ w.mtime) ∧
    (∀ i j, i < j → j < w.ticks → w.tickedAt i + (j - 1 - i) * clkPerTick ≤ w.tickedAt j) ∧
    ((pure () : TimerCode Unit) = pure () → (w.ticks + 1) * clkPerTick ≤ w.compare ∧
      w.compare ≤ w.mtime + clkPerTick) := by
  let w₁ : TimerState :=
    { mtime := 12346
      mtimecmp := UInt32.ofNat 24345
      mtimecmph := 0
      reads := 3
      ticks := 1
      tickedAt := Function.update (fun _ => 0) 0 12346 }
  let w₂ : TimerState :=
    { mtime := 24400
      mtimecmp := UInt32.ofNat 36350
      mtimecmph := 0
      reads := 6
      ticks := 2
      tickedAt := Function.update w₁.tickedAt 1 24400 }
  have hboot : TimerRun perCpuInit (coldTimer 3) := .boot _ rfl
  have hinit : TimerRun (pure ()) { coldTimer 3 with mtimecmp := UInt32.ofNat 12000 } := by
    refine hboot.go ?_
    refine .access ⟨3, by decide, by decide, rfl⟩ ?_
    refine .access ⟨3, by decide, by decide, rfl⟩ ?_
    refine .access ⟨3, by decide, by decide, rfl⟩ ?_
    exact .refl _ _
  have hlate := hinit.wait 12345 (by decide)
  have hfirst : TimerRun (pure ()) w₁ := by
    refine (hlate.interrupt (by decide)).go ?_
    refine .call ?_
    refine .access ⟨12345, by decide, by decide, rfl⟩ ?_
    refine .access ⟨12345, by decide, by decide, rfl⟩ ?_
    refine .access ⟨12346, by decide, by decide, rfl⟩ ?_
    refine .access ⟨12346, by decide, by decide, rfl⟩ ?_
    refine .access ⟨12346, by decide, by decide, rfl⟩ ?_
    refine .access ⟨12346, by decide, by decide, rfl⟩ ?_
    refine .access ⟨12346, by decide, by decide, rfl⟩ ?_
    exact .refl _ _
  have hlate' := hfirst.wait 24350 (by decide)
  have hsecond : TimerRun (pure ()) w₂ := by
    refine (hlate'.interrupt (by decide)).go ?_
    refine .call ?_
    refine .access ⟨24350, by decide, by decide, rfl⟩ ?_
    refine .access ⟨24350, by decide, by decide, rfl⟩ ?_
    refine .access ⟨24350, by decide, by decide, rfl⟩ ?_
    refine .access ⟨24360, by decide, by decide, rfl⟩ ?_
    refine .access ⟨24370, by decide, by decide, rfl⟩ ?_
    refine .access ⟨24380, by decide, by decide, rfl⟩ ?_
    refine .access ⟨24400, by decide, by decide, rfl⟩ ?_
    exact .refl _ _
  exact ⟨w₂, hsecond, rfl, rfl, rfl, ticks_spaced hsecond⟩

end Magnesium
