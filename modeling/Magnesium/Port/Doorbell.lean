import Magnesium.Core.Trace
import Magnesium.Core.WordSet
import Magnesium.Kernel.State
import Mathlib.Tactic.Simps.Basic

/-!
# Interrupt requests across the two cores of RP2350

`pic_interrupt_request` for the other core sets the bit of a priority in a mask and rings a
doorbell; `doorbell_isr` clears the doorbell, takes the mask and makes the vector of each bit
pending. A step is one access to what the cores share: the mask, a doorbell, or pending bits; the
values between two accesses are in registers. A doorbell is a latch, and its handler starts while
it is set. The ARM ports set a pending bit; the RISC-V port writes the pending bits of a window.
-/

namespace Magnesium

open Trace WordSet

/-- How a core makes a vector of its own pending. -/
inductive LocalRequest where
  /-- `NVIC->STIR = vect`, or `irq_set_pending(vect)`, sets the pending bit of the vector. -/
  | stir
  /-- `csrw meifa` writes the pending bits of a window of vectors, with this one alone set. -/
  | meifa
  deriving DecidableEq

/-- `MEIFA_IRQ_PER_WINDOW`. -/
def meifaIrqPerWindow : Nat := 16

/-- The request of `vect` clears the pending bit of `v`. -/
def LocalRequest.Withdraws (r : LocalRequest) (vect v : Vect) : Prop :=
  r = .meifa ∧ v ≠ vect ∧ v / meifaIrqPerWindow = vect / meifaIrqPerWindow

/-- What the program has set up on both cores. -/
structure IpiPort where
  /-- `pic_vect2prio`. -/
  vect2prio : Vect → Nat
  /-- `SPAREIRQ_IRQ_0`, or `SPARE_IRQ_MIN`. -/
  spareIrq0 : Vect
  /-- What `pic_vect2prio` and `request_local_interrupt` assert of their vector. -/
  inRange : Vect → Bool
  localRequest : LocalRequest
  /-- `mg_cpu_this` in each context. -/
  thisCpu : Ctx → Fin 2
  /-- The vectors of the actors. -/
  used : Vect → Prop
  prio_lt : ∀ v, used v → vect2prio v < 32
  spare_prio : ∀ v, used v → vect2prio (vect2prio v + spareIrq0) = vect2prio v
  used_inRange : ∀ v, used v → inRange v = true
  spare_inRange : ∀ v, used v → inRange (vect2prio v + spareIrq0) = true

/-- Where `doorbell_isr` stands on a core. -/
inductive IsrPc where
  | idle
  /-- Before the write to `DOORBELL_IN_CLR`. -/
  | entered
  /-- Before the exchange. -/
  | cleared
  /-- In the loop, with its local `prev`. -/
  | loop (prev : UInt32)
  deriving DecidableEq

/-- What the cores share, and where their contexts stand. -/
structure IpiState where
  /-- `g_ipi_request[cpu]`. -/
  ipiRequest : Fin 2 → UInt32
  /-- The doorbell of a core is set. -/
  doorbell : Fin 2 → Bool
  /-- The vectors pending on a core. -/
  pending : Fin 2 → Vect → Bool
  /-- `doorbell_isr` on a core. -/
  isr : Fin 2 → IsrPc
  /-- The context is in `pic_interrupt_request`, before the write to `DOORBELL_OUT_SET`. -/
  ringing : Ctx → Bool

/-- What a context or a core does next. -/
inductive IpiAction where
  /-- Call `pic_interrupt_request(cpu, vect)`. -/
  | request (x : Ctx) (cpu : Fin 2) (vect : Vect)
  /-- Go on with the call. -/
  | ring (x : Ctx)
  /-- Go on with `doorbell_isr`, or start it. -/
  | isr (c : Fin 2)
  /-- Start the handler of a pending vector. -/
  | start (c : Fin 2) (vect : Vect)

/-- What a step did. -/
inductive IpiEvent where
  /-- The bit of the vector's priority is set in the mask. -/
  | request (x : Ctx) (cpu : Fin 2) (vect : Vect)
  /-- The doorbell of the other core is set, and the request complete. -/
  | ring (x : Ctx) (cpu : Fin 2)
  /-- A request for the own core. -/
  | own (c : Fin 2) (vect : Vect)
  | enter (c : Fin 2)
  | clear (c : Fin 2)
  /-- `doorbell_isr` takes the mask. -/
  | take (c : Fin 2) (prev : UInt32)
  /-- `doorbell_isr` makes the vector pending. -/
  | stir (c : Fin 2) (vect : Vect)
  | finish (c : Fin 2)
  | start (c : Fin 2) (vect : Vect)
  deriving DecidableEq

namespace IpiState

/-- Before the first request. -/
def boot : IpiState where
  ipiRequest _ := 0
  doorbell _ := false
  pending _ _ := false
  isr _ := .idle
  ringing _ := false

/-- Write the mask of a core. -/
@[simps] def setIpiRequest (s : IpiState) (c : Fin 2) (v : UInt32) : IpiState :=
  { s with ipiRequest := Function.update s.ipiRequest c v }

/-- Write the doorbell of a core. -/
@[simps] def setDoorbell (s : IpiState) (c : Fin 2) (v : Bool) : IpiState :=
  { s with doorbell := Function.update s.doorbell c v }

/-- Write the pending bit of a vector. -/
@[simps] def setPending (s : IpiState) (c : Fin 2) (vect : Vect) (v : Bool) : IpiState :=
  { s with pending := Function.update s.pending c (Function.update (s.pending c) vect v) }

/-- Write the pending bits of a window. -/
@[simps] def setWindow (s : IpiState) (c : Fin 2) (window mask : Nat) : IpiState :=
  { s with pending := Function.update s.pending c fun v =>
      if v / meifaIrqPerWindow = window then mask.testBit (v % meifaIrqPerWindow)
      else s.pending c v }

/-- Move the handler of a core. -/
@[simps] def setIsr (s : IpiState) (c : Fin 2) (pc : IsrPc) : IpiState :=
  { s with isr := Function.update s.isr c pc }

/-- Move a context. -/
@[simps] def setRinging (s : IpiState) (x : Ctx) (v : Bool) : IpiState :=
  { s with ringing := Function.update s.ringing x v }

/-- The write of `request_local_interrupt`, or the one to `NVIC->STIR` in its place. -/
def makePending (P : IpiPort) (s : IpiState) (c : Fin 2) (vect : Vect) : IpiState :=
  match P.localRequest with
  | .stir => s.setPending c vect true
  | .meifa =>
    let window := vect / meifaIrqPerWindow
    let mask := 1 <<< (vect % meifaIrqPerWindow)
    s.setWindow c window mask

/-- `request_local_interrupt`. -/
def requestLocalInterrupt (P : IpiPort) (s : IpiState) (c : Fin 2) (vect : Vect) :
    Option IpiState :=
  if P.inRange vect then some (s.makePending P c vect) else none

/-- `pic_interrupt_request` up to its first access. -/
def interruptRequest (P : IpiPort) (s : IpiState) (x : Ctx) (cpu : Fin 2) (vect : Vect) :
    Option (IpiState × IpiEvent) :=
  if cpu ≠ P.thisCpu x then
    if P.inRange vect then
      let prio := P.vect2prio vect
      some ((s.setIpiRequest cpu (s.ipiRequest cpu ||| bit prio)).setRinging x true,
        .request x cpu vect)
    else none
  else do
    let s ← s.requestLocalInterrupt P cpu vect
    return (s, .own cpu vect)

/-- The write to `DOORBELL_OUT_SET`, which reaches the other core. -/
def ring (P : IpiPort) (s : IpiState) (x : Ctx) : IpiState × IpiEvent :=
  ((s.setDoorbell (1 - P.thisCpu x) true).setRinging x false, .ring x (1 - P.thisCpu x))

/-- The next access of `doorbell_isr`. -/
def doorbellIsr (P : IpiPort) (s : IpiState) (c : Fin 2) : Option (IpiState × IpiEvent) :=
  match s.isr c with
  | .idle => if s.doorbell c then some (s.setIsr c .entered, .enter c) else none
  | .entered => some ((s.setDoorbell c false).setIsr c .cleared, .clear c)
  | .cleared =>
    let prev := s.ipiRequest c
    some ((s.setIpiRequest c 0).setIsr c (.loop prev), .take c prev)
  | .loop prev =>
    if prev ≠ 0 then do
      let uintMsb := 31
      let prio := uintMsb - portClz prev
      let vect := prio + P.spareIrq0
      let prev := prev &&& ~~~bit prio
      let s ← s.requestLocalInterrupt P c vect
      return (s.setIsr c (.loop prev), .stir c vect)
    else some (s.setIsr c .idle, .finish c)

/-- One step. A context in `pic_interrupt_request` goes on with it. -/
def step (P : IpiPort) (s : IpiState) : IpiAction → Option (IpiState × IpiEvent)
  | .request x cpu vect => if s.ringing x then none else s.interruptRequest P x cpu vect
  | .ring x => if s.ringing x then some (s.ring P x) else none
  | .isr c => s.doorbellIsr P c
  | .start c vect =>
    if s.pending c vect then some (s.setPending c vect false, .start c vect) else none

section MakePending

variable {P : IpiPort} (s : IpiState) (c : Fin 2) (vect : Vect)

@[simp] theorem makePending_ipiRequest : (s.makePending P c vect).ipiRequest = s.ipiRequest := by
  rw [makePending]
  split <;> rfl

@[simp] theorem makePending_doorbell : (s.makePending P c vect).doorbell = s.doorbell := by
  rw [makePending]
  split <;> rfl

@[simp] theorem makePending_isr : (s.makePending P c vect).isr = s.isr := by
  rw [makePending]
  split <;> rfl

@[simp] theorem makePending_ringing : (s.makePending P c vect).ringing = s.ringing := by
  rw [makePending]
  split <;> rfl

/-- The pending bits of the other core stay. -/
theorem makePending_other {d : Fin 2} (hd : d ≠ c) :
    (s.makePending P c vect).pending d = s.pending d := by
  rw [makePending]
  split <;> exact Function.update_of_ne hd _ _

/-- A vector is pending after the write if it is the requested one, or was pending and is not
withdrawn. -/
theorem makePending_pending (v : Vect) : (s.makePending P c vect).pending c v = true ↔
    v = vect ∨ s.pending c v = true ∧ ¬ P.localRequest.Withdraws vect v := by
  rw [makePending]
  split
  · rename_i hstir
    by_cases hv : v = vect
    · simp [hv]
    · simp [hv, LocalRequest.Withdraws, hstir]
  · rename_i hmeifa
    by_cases hw : v / meifaIrqPerWindow = vect / meifaIrqPerWindow
    · have hbit : (s.setWindow c (vect / meifaIrqPerWindow)
          (1 <<< (vect % meifaIrqPerWindow))).pending c v = true ↔ v = vect := by
        rw [setWindow_pending, Function.update_self, if_pos hw, Nat.one_shiftLeft,
          Nat.testBit_two_pow, decide_eq_true_eq]
        refine ⟨fun hmod => ?_, fun hv => by rw [hv]⟩
        rw [← Nat.div_add_mod v meifaIrqPerWindow, hw, ← hmod, Nat.div_add_mod]
      refine hbit.trans ⟨Or.inl, ?_⟩
      rintro (hv | ⟨-, hkept⟩)
      · exact hv
      · by_contra hv
        exact hkept ⟨hmeifa, hv, hw⟩
    · have hv : v ≠ vect := by
        rintro rfl
        exact hw rfl
      simp [hw, hv, LocalRequest.Withdraws]

end MakePending

/-- The core and the vector for which an action calls `request_local_interrupt`. -/
def localRequests (P : IpiPort) (s : IpiState) : IpiAction → Option (Fin 2 × Vect)
  | .request x cpu vect => if cpu ≠ P.thisCpu x then none else some (cpu, vect)
  | .isr c =>
    match s.isr c with
    | .loop prev => if prev ≠ 0 then some (c, 31 - portClz prev + P.spareIrq0) else none
    | _ => none
  | _ => none

end IpiState

/-- Contexts request the vectors of actors. -/
def IpiPort.Admits (P : IpiPort) : IpiAction → Prop
  | .request _ _ vect => P.used vect
  | _ => True

/-- A condition on the steps of a run. -/
abbrev IpiDiscipline := IpiState → IpiAction → Prop

/-- No vector is made pending while the write would withdraw another one. -/
def IpiPort.WithdrawsNone (P : IpiPort) : IpiDiscipline := fun s act =>
  ∀ c vect, s.localRequests P act = some (c, vect) →
    ∀ v, P.localRequest.Withdraws vect v → s.pending c v = false

/-- The runs of a discipline of both cores, in any order of the steps, with what they did. -/
inductive IpiHistory (P : IpiPort) (D : IpiDiscipline) : IpiState → List IpiEvent → Prop
  | boot : IpiHistory P D .boot []
  | step {s : IpiState} {log : List IpiEvent} {act : IpiAction} {s' : IpiState} {e : IpiEvent} :
      IpiHistory P D s log → P.Admits act → D s act → s.step P act = some (s', e) →
      IpiHistory P D s' (log ++ [e])

/-- What a step can do. -/
inductive IpiStep (P : IpiPort) (s : IpiState) : IpiState → IpiEvent → Prop
  | request {x : Ctx} {c : Fin 2} {vect : Vect} : s.ringing x = false → c ≠ P.thisCpu x →
      P.used vect → IpiStep P s
        ((s.setIpiRequest c (s.ipiRequest c ||| bit (P.vect2prio vect))).setRinging x true)
        (.request x c vect)
  | own {c : Fin 2} {vect : Vect} : IpiStep P s (s.makePending P c vect) (.own c vect)
  | ring {x : Ctx} {c : Fin 2} : s.ringing x = true → c = 1 - P.thisCpu x →
      IpiStep P s ((s.setDoorbell c true).setRinging x false) (.ring x c)
  | enter {c : Fin 2} : s.isr c = .idle → s.doorbell c = true →
      IpiStep P s (s.setIsr c .entered) (.enter c)
  | clear {c : Fin 2} : s.isr c = .entered →
      IpiStep P s ((s.setDoorbell c false).setIsr c .cleared) (.clear c)
  | take {c : Fin 2} : s.isr c = .cleared →
      IpiStep P s ((s.setIpiRequest c 0).setIsr c (.loop (s.ipiRequest c)))
        (.take c (s.ipiRequest c))
  | stir {c : Fin 2} {prev : UInt32} {prio : Nat} : s.isr c = .loop prev → Has prev prio →
      IpiStep P s ((s.makePending P c (prio + P.spareIrq0)).setIsr c
        (.loop (prev &&& ~~~bit prio))) (.stir c (prio + P.spareIrq0))
  | finish {c : Fin 2} : s.isr c = .loop 0 → IpiStep P s (s.setIsr c .idle) (.finish c)
  | start {c : Fin 2} {vect : Vect} :
      IpiStep P s (s.setPending c vect false) (.start c vect)

/-- The bit the loop picks is the leading one. -/
theorem uintMsb_sub_portClz {v : UInt32} (hv : v ≠ 0) : 31 - portClz v = v.toNat.log2 := by
  have hnat : v.toNat ≠ 0 := fun h => hv (UInt32.toNat_inj.mp h)
  have hlog := (Nat.log2_lt hnat).mpr v.toNat_lt
  rw [portClz, if_neg hv]
  omega

theorem IpiState.requestLocalInterrupt_eq {P : IpiPort} {s s' : IpiState} {c : Fin 2}
    {vect : Vect} (h : s.requestLocalInterrupt P c vect = some s') :
    P.inRange vect = true ∧ s' = s.makePending P c vect := by
  rw [requestLocalInterrupt] at h
  split at h
  · rename_i hin
    exact ⟨hin, (Option.some.inj h).symm⟩
  · cases h

theorem IpiState.step_cases {P : IpiPort} {s s' : IpiState} {act : IpiAction} {e : IpiEvent}
    (hadm : P.Admits act) (h : s.step P act = some (s', e)) : IpiStep P s s' e := by
  cases act with
  | request x c vect =>
    rw [step] at h
    split at h
    · cases h
    · rename_i hx
      rw [interruptRequest] at h
      split at h
      · rename_i hc
        split at h
        · cases h
          exact .request (by simpa using hx) hc hadm
        · cases h
      · obtain ⟨s₁, hlocal, heq⟩ := Option.bind_eq_some_iff.mp h
        obtain ⟨-, rfl⟩ := requestLocalInterrupt_eq hlocal
        cases heq
        exact .own
  | ring x =>
    rw [step] at h
    split at h
    · rename_i hx
      cases h
      exact .ring hx rfl
    · cases h
  | isr c =>
    rw [step, doorbellIsr] at h
    split at h
    · rename_i hpc
      split at h
      · rename_i hbell
        cases h
        exact .enter hpc hbell
      · cases h
    · rename_i hpc
      cases h
      exact .clear hpc
    · rename_i hpc
      cases h
      exact .take hpc
    · rename_i prev hpc
      split at h
      · rename_i hne
        obtain ⟨s₁, hlocal, heq⟩ := Option.bind_eq_some_iff.mp h
        obtain ⟨-, rfl⟩ := requestLocalInterrupt_eq hlocal
        cases heq
        exact .stir hpc (by rw [uintMsb_sub_portClz hne]; exact has_log2 hne)
      · rename_i hzero
        cases h
        exact .finish (by rw [hpc, not_not.mp hzero])
  | start c vect =>
    rw [step] at h
    split at h
    · cases h
      exact .start
    · cases h

/-- A step that requests a vector of its own core writes the pending bits, and starts nothing. -/
theorem IpiState.step_localRequests {P : IpiPort} {s s' : IpiState} {act : IpiAction}
    {e : IpiEvent} {c : Fin 2} {vect : Vect} (h : s.step P act = some (s', e))
    (hlocal : s.localRequests P act = some (c, vect)) :
    s'.pending = (s.makePending P c vect).pending ∧ ∀ d v, e ≠ .start d v := by
  cases act with
  | request x cpu w =>
    rw [localRequests] at hlocal
    split at hlocal
    · cases hlocal
    · rename_i hcpu
      cases hlocal
      rw [step, interruptRequest, if_neg hcpu] at h
      split at h
      · cases h
      · obtain ⟨s₁, hwrite, heq⟩ := Option.bind_eq_some_iff.mp h
        obtain ⟨-, rfl⟩ := requestLocalInterrupt_eq hwrite
        cases heq
        exact ⟨rfl, by simp⟩
  | isr d =>
    rw [localRequests] at hlocal
    rw [step, doorbellIsr] at h
    split at hlocal
    · rename_i prev hpc
      rw [hpc] at h
      split at hlocal
      · rename_i hne
        cases hlocal
        simp only [hne, ne_eq, not_false_eq_true, if_true] at h
        obtain ⟨s₁, hwrite, heq⟩ := Option.bind_eq_some_iff.mp h
        obtain ⟨-, rfl⟩ := requestLocalInterrupt_eq hwrite
        cases heq
        exact ⟨rfl, by simp⟩
      · cases hlocal
    · cases hlocal
  | ring x => cases hlocal
  | start d w => cases hlocal

/-- Any other step changes no pending bit, but that of a vector whose handler it starts. -/
theorem IpiState.step_pending {P : IpiPort} {s s' : IpiState} {act : IpiAction} {e : IpiEvent}
    (h : s.step P act = some (s', e)) (hlocal : s.localRequests P act = none) :
    s'.pending = s.pending ∨ ∃ c v, e = .start c v ∧ s' = s.setPending c v false := by
  cases act with
  | request x cpu w =>
    rw [localRequests] at hlocal
    split at hlocal
    · rename_i hcpu
      rw [step, interruptRequest, if_pos hcpu] at h
      split at h
      · cases h
      · split at h
        · cases h
          exact Or.inl rfl
        · cases h
    · cases hlocal
  | isr d =>
    rw [localRequests] at hlocal
    rw [step, doorbellIsr] at h
    split at h
    · split at h
      · cases h
        exact Or.inl rfl
      · cases h
    · cases h
      exact Or.inl rfl
    · cases h
      exact Or.inl rfl
    · rename_i prev hpc
      rw [hpc] at hlocal
      split at h
      · rename_i hne
        simp [hne] at hlocal
      · cases h
        exact Or.inl rfl
  | ring x =>
    rw [step] at h
    split at h
    · cases h
      exact Or.inl rfl
    · cases h
  | start d w =>
    rw [step] at h
    split at h
    · cases h
      exact Or.inr ⟨d, w, rfl, rfl⟩
    · cases h

/-- Run a schedule. -/
def IpiState.replay (P : IpiPort) (s : IpiState) (log : List IpiEvent) :
    List IpiAction → Option (IpiState × List IpiEvent)
  | [] => some (s, log)
  | act :: rest =>
    match s.step P act with
    | some (s', e) => s'.replay P (log ++ [e]) rest
    | none => none

theorem IpiHistory.replay {P : IpiPort} {D : IpiDiscipline} {s s' : IpiState}
    {log log' : List IpiEvent} {acts : List IpiAction} (h : IpiHistory P D s log)
    (hadm : ∀ act ∈ acts, P.Admits act) (hD : ∀ s, ∀ act ∈ acts, D s act)
    (hr : s.replay P log acts = some (s', log')) : IpiHistory P D s' log' := by
  induction acts generalizing s log with
  | nil =>
    cases hr
    exact h
  | cons act rest ih =>
    rw [IpiState.replay] at hr
    split at hr
    · rename_i s₁ e hstep
      rw [List.forall_mem_cons] at hadm
      exact ih (h.step hadm.1 (hD s act List.mem_cons_self) hstep) hadm.2
        (fun s act hact => hD s act (List.mem_cons_of_mem _ hact)) hr
    · cases hr

/-- A run of a stricter discipline. -/
theorem IpiHistory.mono {P : IpiPort} {D D' : IpiDiscipline} (hD : ∀ s act, D s act → D' s act)
    {s : IpiState} {log : List IpiEvent} (h : IpiHistory P D s log) : IpiHistory P D' s log := by
  induction h with
  | boot => exact .boot
  | step _ hadm hd hstep ih => exact .step ih hadm (hD _ _ hd) hstep

/-- `NVIC->STIR` withdraws nothing. -/
theorem IpiPort.withdrawsNone_of_stir {P : IpiPort} (hP : P.localRequest = .stir) (s : IpiState)
    (act : IpiAction) : P.WithdrawsNone s act := by
  rintro c vect - v ⟨hmeifa, -⟩
  rw [hP] at hmeifa
  cases hmeifa

/-- The ARM ports: two cores, with the contexts from 10 on the second, and spare vectors from
46. -/
def testIpi : IpiPort where
  vect2prio v := v - 46
  spareIrq0 := 46
  inRange _ := true
  localRequest := .stir
  thisCpu x := if x < 10 then 0 else 1
  used v := 46 ≤ v ∧ v < 78
  prio_lt _ h := Nat.sub_lt_left_of_lt_add h.1 h.2
  spare_prio _ _ := Nat.add_sub_cancel _ _
  used_inRange _ _ := rfl
  spare_inRange _ _ := rfl

/-- The RISC-V port, with the priorities 0 to 3 for its four spare vectors. -/
def riscvIpi : IpiPort where
  vect2prio v := v - 48
  spareIrq0 := 48
  inRange v := 48 ≤ v && v ≤ 51
  localRequest := .meifa
  thisCpu x := if x < 10 then 0 else 1
  used v := 48 ≤ v ∧ v ≤ 51
  prio_lt _ h := Nat.sub_lt_left_of_lt_add h.1 (Nat.lt_of_le_of_lt h.2 (by decide))
  spare_prio _ _ := Nat.add_sub_cancel _ _
  used_inRange v h := by simpa using h
  spare_inRange v h := by
    rw [Nat.sub_add_cancel h.1]
    simpa using h

end Magnesium
