import Magnesium.Core.Assertion
import Mathlib.Data.List.Nodup
import Mathlib.Logic.Function.Basic

/-!
# The trap handler of the RISC-V port

The entry of external interrupts in assembly: it saves the registers that a function may use in a
frame of 80 bytes, calls `isr_handler` for one interrupt after another with interrupts enabled,
restores everything, and starts over if the controller has another interrupt in the end. A jump
is a call of the label in tail position. `mret` is the end of the program.
-/

namespace Magnesium

open Procedure

/-- The registers. -/
inductive Reg where
  | ra | sp | gp | tp
  | t0 | t1 | t2 | t3 | t4 | t5 | t6
  | s0 | s1 | s2 | s3 | s4 | s5 | s6 | s7 | s8 | s9 | s10 | s11
  | a0 | a1 | a2 | a3 | a4 | a5 | a6 | a7
  deriving DecidableEq

/-- The control registers that the handler saves. -/
inductive Csr where
  | mepc | mstatus | meicontext
  deriving DecidableEq

/-- The instructions of the handler. Loads and stores are relative to `sp`. -/
inductive TrapInstr where
  | addi (rd rs : Reg) (imm : UInt32)
  | sw (rs : Reg) (off : UInt32)
  | lw (rd : Reg) (off : UInt32)
  | csrr (rd : Reg) (csr : Csr)
  | csrw (csr : Csr) (rs : Reg)
  /-- `csrr rd, meinext`. -/
  | csrrMeinext (rd : Reg)
  /-- `csrrsi rd, meinext, 1`. -/
  | csrrsiMeinext (rd : Reg)
  /-- `csrsi mstatus, 8`. -/
  | csrsiMstatus
  /-- `csrci mstatus, 8`. -/
  | csrciMstatus
  /-- `call isr_handler`. -/
  | callIsrHandler
  | bltz (rs : Reg)
  | bgez (rs : Reg)

/-- A branch answers whether it is taken. -/
abbrev TrapInstr.Answer : TrapInstr → Type
  | .bltz _ | .bgez _ => Bool
  | _ => Unit

/-- The labels. -/
inductive TrapLabel where
  | saveMeicontext | getFirstIrq | dispatchIrq | getNextIrq | noMoreIrqs | checkIrqBeforeExit

/-- The instructions are the accesses, and the labels the procedures. -/
abbrev trapInterface : Interface where
  Access := TrapInstr
  Answer := TrapInstr.Answer
  Proc := TrapLabel
  Result := fun _ => Unit

/-- A piece of the handler. -/
abbrev TrapCode := Prog trapInterface

/-- The registers in the frame, with their offsets. -/
def trapFrame : List (Reg × UInt32) :=
  [(.ra, 0), (.t0, 4), (.t1, 8), (.t2, 12), (.a0, 16), (.a1, 20), (.a2, 24), (.a3, 28), (.a4, 32),
    (.a5, 36), (.a6, 40), (.a7, 44), (.t3, 48), (.t4, 52), (.t5, 56), (.t6, 60)]

/-- The registers that are restored before the last look at `meinext`. -/
def trapRestored : List (Reg × UInt32) :=
  [(.ra, 0), (.t0, 4), (.t1, 8), (.t2, 12), (.a1, 20), (.a2, 24), (.a3, 28), (.a4, 32),
    (.a5, 36), (.a6, 40), (.a7, 44), (.t3, 48), (.t4, 52), (.t5, 56), (.t6, 60)]

namespace TrapCode

/-- Execute an instruction. -/
def instr (e : TrapInstr) : TrapCode e.Answer := Prog.perform (I := trapInterface) e

/-- Go on at a label. -/
def goto (label : TrapLabel) : TrapCode Unit := Prog.invoke (I := trapInterface) label

/-- `sw` of each register. -/
def storeAll : List (Reg × UInt32) → TrapCode Unit
  | [] => pure ()
  | (rs, off) :: rest => do
    instr (.sw rs off)
    storeAll rest

/-- `lw` of each register. -/
def loadAll : List (Reg × UInt32) → TrapCode Unit
  | [] => pure ()
  | (rd, off) :: rest => do
    instr (.lw rd off)
    loadAll rest

/-- The entry in the vector table. -/
def entry : TrapCode Unit := do
  instr (.addi .sp .sp (-80))
  storeAll trapFrame
  instr (.csrr .a0 .mepc)
  instr (.csrr .a1 .mstatus)
  instr (.sw .a0 64)
  instr (.sw .a1 68)
  goto .saveMeicontext

/-- The code at each label. -/
def body : TrapLabel → TrapCode Unit
  | .saveMeicontext => do
    instr (.csrr .a2 .meicontext)
    instr (.sw .a2 72)
    goto .getFirstIrq
  | .getFirstIrq => do
    instr (.csrrsiMeinext .a0)
    let taken ← instr (.bltz .a0)
    if taken then goto .noMoreIrqs else goto .dispatchIrq
  | .dispatchIrq => do
    instr .csrsiMstatus
    instr .callIsrHandler
    instr .csrciMstatus
    goto .getNextIrq
  | .getNextIrq => do
    instr (.csrrsiMeinext .a0)
    let taken ← instr (.bgez .a0)
    if taken then goto .dispatchIrq else goto .noMoreIrqs
  | .noMoreIrqs => do
    instr (.lw .a0 64)
    instr (.lw .a1 68)
    instr (.lw .a2 72)
    instr (.csrw .mepc .a0)
    instr (.csrw .mstatus .a1)
    instr (.csrw .meicontext .a2)
    loadAll trapRestored
    goto .checkIrqBeforeExit
  | .checkIrqBeforeExit => do
    instr (.csrrMeinext .a0)
    let taken ← instr (.bgez .a0)
    if taken then goto .saveMeicontext
    else do
      instr (.lw .a0 16)
      instr (.addi .sp .sp 80)

end TrapCode

/-- The registers that a function leaves as it finds them. -/
def Reg.preserved : Reg → Bool
  | .sp | .gp | .tp => true
  | .s0 | .s1 | .s2 | .s3 | .s4 | .s5 | .s6 | .s7 | .s8 | .s9 | .s10 | .s11 => true
  | _ => false

/-- The state of the core. -/
structure TrapState where
  reg : Reg → UInt32
  /-- The words of the memory. -/
  mem : UInt32 → UInt32
  csr : Csr → UInt32
  /-- The interrupts that reads of `meinext` with its update bit have taken from the controller. -/
  claimed : List UInt32
  /-- The interrupts that `isr_handler` has been called for. -/
  handled : List UInt32

namespace TrapState

/-- Write a register. -/
def setReg (w : TrapState) (r : Reg) (v : UInt32) : TrapState :=
  { w with reg := Function.update w.reg r v }

/-- Write a word of the memory. -/
def setMem (w : TrapState) (a v : UInt32) : TrapState :=
  { w with mem := Function.update w.mem a v }

/-- Write a control register. -/
def setCsr (w : TrapState) (c : Csr) (v : UInt32) : TrapState :=
  { w with csr := Function.update w.csr c v }

@[simp] theorem setReg_self (w : TrapState) (r : Reg) (v : UInt32) : (w.setReg r v).reg r = v :=
  Function.update_self ..

theorem setReg_other (w : TrapState) {r k : Reg} (h : k ≠ r) (v : UInt32) :
    (w.setReg r v).reg k = w.reg k := Function.update_of_ne h ..

/-- A value of `meinext` with the most significant bit set says that there is no interrupt. -/
def claim (w : TrapState) (v : UInt32) : TrapState :=
  if v < 0x80000000 then { w with claimed := w.claimed ++ [v] } else w

/-- What the calling convention promises of `isr_handler`, and of the handlers that interrupt it:
these may change all else, `mepc` and `mstatus` too. -/
structure Called (stack : UInt32 → Prop) (w w' : TrapState) : Prop where
  preserved : ∀ r : Reg, r.preserved = true → w'.reg r = w.reg r
  frame : ∀ off : UInt32, off < 80 → w'.mem (w.reg .sp + off) = w.mem (w.reg .sp + off)
  stack : ∀ a, stack a → w'.mem a = w.mem a
  claimed : w'.claimed = w.claimed
  handled : w'.handled = w.handled ++ [w.reg .a0]

/-- The instructions. `meinext` reads as anything. -/
def world (stack : UInt32 → Prop) (w : TrapState) : (e : TrapInstr) → e.Answer → TrapState → Prop
  | .addi rd rs imm, _, w' => w' = w.setReg rd (w.reg rs + imm)
  | .sw rs off, _, w' => w' = w.setMem (w.reg .sp + off) (w.reg rs)
  | .lw rd off, _, w' => w' = w.setReg rd (w.mem (w.reg .sp + off))
  | .csrr rd csr, _, w' => w' = w.setReg rd (w.csr csr)
  | .csrw csr rs, _, w' => w' = w.setCsr csr (w.reg rs)
  | .csrrMeinext rd, _, w' => ∃ v, w' = w.setReg rd v
  | .csrrsiMeinext rd, _, w' => ∃ v, w' = (w.claim v).setReg rd v
  | .csrsiMstatus, _, w' => w' = w.setCsr .mstatus (w.csr .mstatus ||| 8)
  | .csrciMstatus, _, w' => w' = w.setCsr .mstatus (w.csr .mstatus &&& ~~~8)
  | .callIsrHandler, _, w' => w.Called stack w'
  | .bltz rs, taken, w' => w' = w ∧ taken = decide (¬ w.reg rs < 0x80000000)
  | .bgez rs, taken, w' => w' = w ∧ taken = decide (w.reg rs < 0x80000000)

/-- Between the entry and the exit: the frame holds what the interrupted code had in its registers,
and a register that is not in the frame still has it. -/
structure InFrame (stack : UInt32 → Prop) (w₀ w : TrapState) : Prop where
  sp : w.reg .sp = w₀.reg .sp - 80
  kept : ∀ r : Reg, r.preserved = true → r ≠ .sp → w.reg r = w₀.reg r
  saved : ∀ r off, (r, off) ∈ trapFrame → w.mem (w₀.reg .sp - 80 + off) = w₀.reg r
  mepc : w.mem (w₀.reg .sp - 80 + 64) = w₀.csr .mepc
  mstatus : w.mem (w₀.reg .sp - 80 + 68) = w₀.csr .mstatus
  stack : ∀ a, stack a → w.mem a = w₀.mem a

/-- Everything is as it was when the trap was taken. -/
structure Resumes (stack : UInt32 → Prop) (w₀ w : TrapState) : Prop where
  reg : ∀ r, w.reg r = w₀.reg r
  mepc : w.csr .mepc = w₀.csr .mepc
  mstatus : w.csr .mstatus = w₀.csr .mstatus
  stack : ∀ a, stack a → w.mem a = w₀.mem a
  handled : w.handled = w.claimed

/-- What holds at a label. -/
def At (stack : UInt32 → Prop) (w₀ : TrapState) : TrapLabel → TrapState → Prop
  | .dispatchIrq, w => InFrame stack w₀ w ∧ w.claimed = w.handled ++ [w.reg .a0]
  | .checkIrqBeforeExit, w => InFrame stack w₀ w ∧ w.handled = w.claimed ∧
    (∀ r, r ≠ .a0 → r ≠ .sp → w.reg r = w₀.reg r) ∧
    w.csr .mepc = w₀.csr .mepc ∧ w.csr .mstatus = w₀.csr .mstatus
  | _, w => InFrame stack w₀ w ∧ w.handled = w.claimed

/-- The contract of the labels. -/
def spec (stack : UInt32 → Prop) (w₀ : TrapState) : Spec trapInterface TrapState where
  pre := At stack w₀
  post := fun _ _ _ w => Resumes stack w₀ w

section Rules

open TrapCode

variable {stack : UInt32 → Prop} {w₀ w : TrapState} {α : Type}

/-- The code resumes what the trap has interrupted. -/
def Leads (stack : UInt32 → Prop) (w₀ : TrapState) (p : TrapCode Unit) (w : TrapState) : Prop :=
  p.wlp (world stack) (spec stack w₀) (fun _ => True) (fun _ => Resumes stack w₀) w

/-- An instruction leads to where the code after it leads, whatever it reads. -/
theorem leads_instr {e : TrapInstr} {g : e.Answer → TrapCode Unit}
    (h : ∀ r w', world stack w e r w' → Leads stack w₀ (g r) w') :
    Leads stack w₀ (instr e >>= g) w := ⟨trivial, h⟩

/-- A jump relies on what holds at its label. -/
theorem leads_goto {label : TrapLabel} (h : At stack w₀ label w) :
    Leads stack w₀ (goto label) w := ⟨trivial, h, fun _ _ hw => ⟨trivial, hw⟩⟩

/-- Stores to distinct words of the frame save the registers, and change no other word. -/
theorem leads_storeAll {regs : List (Reg × UInt32)} {rest : TrapCode Unit}
    (hnodup : (regs.map Prod.snd).Nodup)
    (h : ∀ mem : UInt32 → UInt32, (∀ r off, (r, off) ∈ regs → mem (w.reg .sp + off) = w.reg r) →
      (∀ a, (∀ off ∈ regs.map Prod.snd, a ≠ w.reg .sp + off) → mem a = w.mem a) →
      Leads stack w₀ rest { w with mem := mem }) :
    Leads stack w₀ (storeAll regs >>= fun _ => rest) w := by
  induction regs generalizing w with
  | nil => exact h w.mem (fun _ _ hmem => by cases hmem) fun _ _ => rfl
  | cons entry regs ih =>
    obtain ⟨rs, off⟩ := entry
    rw [List.map_cons, List.nodup_cons] at hnodup
    refine leads_instr fun _ w' hw' => ?_
    subst hw'
    refine ih hnodup.2 fun mem hregs hother => h mem (fun r o hmem => ?_) fun a ha => ?_
    · rcases List.mem_cons.mp hmem with heq | hmem
      · cases heq
        have hkeep := hother (w.reg .sp + off) fun o ho heq => ?_
        · rw [hkeep]
          exact Function.update_self ..
        · exact hnodup.1 ((UInt32.add_right_inj _).mp heq ▸ ho)
      · exact hregs r o hmem
    · rw [hother a fun o ho => ha o (List.mem_cons_of_mem _ ho)]
      exact Function.update_of_ne (ha off List.mem_cons_self) ..

/-- Loads into distinct registers restore them from the frame, and change no other register. -/
theorem leads_loadAll {regs : List (Reg × UInt32)} {rest : TrapCode Unit}
    (hnodup : (regs.map Prod.fst).Nodup) (hsp : .sp ∉ regs.map Prod.fst)
    (h : ∀ reg : Reg → UInt32, (∀ r off, (r, off) ∈ regs → reg r = w.mem (w.reg .sp + off)) →
      (∀ r, r ∉ regs.map Prod.fst → reg r = w.reg r) → Leads stack w₀ rest { w with reg := reg }) :
    Leads stack w₀ (loadAll regs >>= fun _ => rest) w := by
  induction regs generalizing w with
  | nil => exact h w.reg (fun _ _ hmem => by cases hmem) fun _ _ => rfl
  | cons entry regs ih =>
    obtain ⟨rd, off⟩ := entry
    rw [List.map_cons, List.nodup_cons] at hnodup
    rw [List.map_cons, List.mem_cons, not_or] at hsp
    refine leads_instr fun _ w' hw' => ?_
    subst hw'
    have hbase : (w.setReg rd (w.mem (w.reg .sp + off))).reg .sp = w.reg .sp :=
      Function.update_of_ne hsp.1 ..
    refine ih hnodup.2 hsp.2 fun reg hregs hother => h reg (fun r o hmem => ?_) fun r hr => ?_
    · rcases List.mem_cons.mp hmem with heq | hmem
      · cases heq
        rw [hother rd hnodup.1]
        exact Function.update_self ..
      · rw [hregs r o hmem, hbase]
        rfl
    · rw [List.map_cons, List.mem_cons, not_or] at hr
      rw [hother r hr.2]
      exact Function.update_of_ne hr.1 ..

end Rules

namespace InFrame

variable {stack : UInt32 → Prop} {w₀ w w' : TrapState}

/-- The invariant reads the memory and the registers that the handler leaves alone. -/
theorem congr (h : InFrame stack w₀ w) (hreg : ∀ r : Reg, r.preserved = true → w'.reg r = w.reg r)
    (hmem : w'.mem = w.mem) : InFrame stack w₀ w' where
  sp := (hreg .sp rfl).trans h.sp
  kept r hr hsp := (hreg r hr).trans (h.kept r hr hsp)
  saved := by
    rw [hmem]
    exact h.saved
  mepc := by
    rw [hmem]
    exact h.mepc
  mstatus := by
    rw [hmem]
    exact h.mstatus
  stack := by
    rw [hmem]
    exact h.stack

/-- The frame survives a write to a register that the caller saves. -/
theorem setReg (h : InFrame stack w₀ w) {r : Reg} (hr : r.preserved = false) (v : UInt32) :
    InFrame stack w₀ (w.setReg r v) := by
  refine h.congr (fun k hk => ?_) rfl
  refine Function.update_of_ne ?_ ..
  rintro rfl
  rw [hr] at hk
  cases hk

/-- The frame survives a write to a control register. -/
theorem setCsr (h : InFrame stack w₀ w) (c : Csr) (v : UInt32) : InFrame stack w₀ (w.setCsr c v) :=
  h.congr (fun _ _ => rfl) rfl

/-- The frame survives the claim of an interrupt. -/
theorem claim (h : InFrame stack w₀ w) (v : UInt32) : InFrame stack w₀ (w.claim v) := by
  rw [TrapState.claim]
  split
  · exact h.congr (fun _ _ => rfl) rfl
  · exact h

/-- A store into the word of the frame that is left. -/
theorem store (h : InFrame stack w₀ w) (v : UInt32)
    (hstack : ∀ a off, stack a → off < 80 → a ≠ w₀.reg .sp - 80 + off) :
    InFrame stack w₀ (w.setMem (w.reg .sp + 72) v) := by
  have hother : ∀ off : UInt32, off ≠ 72 → (w.setMem (w.reg .sp + 72) v).mem
      (w₀.reg .sp - 80 + off) = w.mem (w₀.reg .sp - 80 + off) := by
    intro off hoff
    rw [h.sp]
    refine Function.update_of_ne (fun heq => hoff ?_) ..
    exact (UInt32.add_right_inj _).mp heq
  refine ⟨h.sp, h.kept, fun r off hmem => ?_, ?_, ?_, fun a ha => ?_⟩
  · have hoff : ∀ entry ∈ trapFrame, entry.2 ≠ 72 := by decide
    rw [hother off (hoff _ hmem)]
    exact h.saved r off hmem
  · rw [hother 64 (by decide)]
    exact h.mepc
  · rw [hother 68 (by decide)]
    exact h.mstatus
  · rw [h.sp]
    refine (Function.update_of_ne (hstack a 72 ha (by decide)) ..).trans ?_
    exact h.stack a ha

/-- The call of `isr_handler`. -/
theorem called (h : InFrame stack w₀ w) (hcall : w.Called stack w') : InFrame stack w₀ w' := by
  have hframe : ∀ off : UInt32, off < 80 →
      w'.mem (w₀.reg .sp - 80 + off) = w.mem (w₀.reg .sp - 80 + off) := by
    intro off hoff
    rw [← h.sp]
    exact hcall.frame off hoff
  refine ⟨(hcall.preserved .sp rfl).trans h.sp, fun r hr hsp => ?_, fun r off hmem => ?_, ?_, ?_,
    fun a ha => (hcall.stack a ha).trans (h.stack a ha)⟩
  · exact (hcall.preserved r hr).trans (h.kept r hr hsp)
  · have hoff : ∀ entry ∈ trapFrame, entry.2 < 80 := by decide
    rw [hframe off (hoff _ hmem)]
    exact h.saved r off hmem
  · rw [hframe 64 (by decide)]
    exact h.mepc
  · rw [hframe 68 (by decide)]
    exact h.mstatus

end InFrame

section Labels

open TrapCode

variable {stack : UInt32 → Prop} {w₀ w : TrapState}

theorem claim_of_lt {v : UInt32} (h : v < 0x80000000) :
    w.claim v = { w with claimed := w.claimed ++ [v] } := if_pos h

theorem claim_of_not_lt {v : UInt32} (h : ¬ v < 0x80000000) : w.claim v = w := if_neg h

/-- A read of `meinext` takes an interrupt, which `isr_handler` is to be called for. -/
theorem at_dispatchIrq {v : UInt32} (h : InFrame stack w₀ w) (hhandled : w.handled = w.claimed)
    (hv : v < 0x80000000) : At stack w₀ .dispatchIrq ((w.claim v).setReg .a0 v) := by
  refine ⟨(h.claim v).setReg rfl v, ?_⟩
  rw [setReg_self, claim_of_lt hv, setReg, hhandled]

/-- There is no interrupt. -/
theorem at_noMoreIrqs {v : UInt32} (h : InFrame stack w₀ w) (hhandled : w.handled = w.claimed)
    (hv : ¬ v < 0x80000000) : At stack w₀ .noMoreIrqs ((w.claim v).setReg .a0 v) := by
  refine ⟨(h.claim v).setReg rfl v, ?_⟩
  rw [claim_of_not_lt hv]
  exact hhandled

/-- The first read of `meinext` finds an interrupt, or there is none. -/
theorem leads_getFirstIrq (h : At stack w₀ .getFirstIrq w) :
    Leads stack w₀ (body .getFirstIrq) w := by
  obtain ⟨hframe, hhandled⟩ := h
  refine leads_instr fun _ w₁ hw₁ => leads_instr fun taken w₂ hw₂ => ?_
  obtain ⟨v, rfl⟩ := hw₁
  obtain ⟨rfl, rfl⟩ := hw₂
  rw [setReg_self]
  by_cases hv : v < 0x80000000
  · simp only [hv, not_true, decide_false]
    exact leads_goto (at_dispatchIrq hframe hhandled hv)
  · simp only [hv, not_false_iff, decide_true]
    exact leads_goto (at_noMoreIrqs hframe hhandled hv)

/-- So does each further one. -/
theorem leads_getNextIrq (h : At stack w₀ .getNextIrq w) :
    Leads stack w₀ (body .getNextIrq) w := by
  obtain ⟨hframe, hhandled⟩ := h
  refine leads_instr fun _ w₁ hw₁ => leads_instr fun taken w₂ hw₂ => ?_
  obtain ⟨v, rfl⟩ := hw₁
  obtain ⟨rfl, rfl⟩ := hw₂
  rw [setReg_self]
  by_cases hv : v < 0x80000000
  · simp only [hv, decide_true]
    exact leads_goto (at_dispatchIrq hframe hhandled hv)
  · simp only [hv, decide_false]
    exact leads_goto (at_noMoreIrqs hframe hhandled hv)

/-- The context of the interrupt controller goes to the word left in the frame. -/
theorem leads_saveMeicontext
    (hstack : ∀ a off, stack a → off < 80 → a ≠ w₀.reg .sp - 80 + off)
    (h : At stack w₀ .saveMeicontext w) : Leads stack w₀ (body .saveMeicontext) w := by
  obtain ⟨hframe, hhandled⟩ := h
  refine leads_instr fun _ w₁ hw₁ => leads_instr fun _ w₂ hw₂ => leads_goto ?_
  subst hw₁ hw₂
  exact ⟨(hframe.setReg rfl _).store _ hstack, hhandled⟩

/-- `isr_handler` is called for the interrupt that was taken. -/
theorem leads_dispatchIrq (h : At stack w₀ .dispatchIrq w) :
    Leads stack w₀ (body .dispatchIrq) w := by
  obtain ⟨hframe, hclaimed⟩ := h
  refine leads_instr fun _ w₁ hw₁ => leads_instr fun _ w₂ hcall =>
    leads_instr fun _ w₃ hw₃ => leads_goto ?_
  subst hw₁ hw₃
  refine ⟨((hframe.setCsr _ _).called hcall).setCsr _ _, ?_⟩
  change w₂.handled = w₂.claimed
  rw [hcall.handled, hcall.claimed]
  exact hclaimed.symm

/-- The control registers and `a0` to `a2`, loaded from the frame. -/
def reload (w : TrapState) (mepc mstatus meicontext : UInt32) : TrapState :=
  (((((w.setReg .a0 mepc).setReg .a1 mstatus).setReg .a2 meicontext).setCsr .mepc mepc).setCsr
    .mstatus mstatus).setCsr .meicontext meicontext

theorem reload_preserved {r : Reg} (h : r.preserved = true) (mepc mstatus meicontext : UInt32) :
    (w.reload mepc mstatus meicontext).reg r = w.reg r := by
  cases r <;> first | rfl | cases h

/-- A register that is neither preserved nor `a0` is restored from the frame. -/
theorem mem_trapRestored {r : Reg} (h : r.preserved = false) (ha0 : r ≠ .a0) :
    r ∈ trapRestored.map Prod.fst := by
  cases r <;> first | decide | exact absurd rfl ha0 | cases h

theorem notMem_trapRestored {r : Reg} (h : r.preserved = true) :
    r ∉ trapRestored.map Prod.fst := by
  cases r <;> first | decide | cases h

/-- All registers but `a0` and `sp` are restored, and so are the control registers. -/
theorem leads_noMoreIrqs (h : At stack w₀ .noMoreIrqs w) :
    Leads stack w₀ (body .noMoreIrqs) w := by
  obtain ⟨hframe, hhandled⟩ := h
  refine leads_instr fun _ w₁ hw₁ => leads_instr fun _ w₂ hw₂ => leads_instr fun _ w₃ hw₃ =>
    leads_instr fun _ w₄ hw₄ => leads_instr fun _ w₅ hw₅ => leads_instr fun _ w₆ hw₆ => ?_
  have hw : w₆ = w.reload (w₀.csr .mepc) (w₀.csr .mstatus) (w.mem (w.reg .sp + 72)) := by
    subst hw₁ hw₂ hw₃ hw₄ hw₅ hw₆
    rw [← hframe.mepc, ← hframe.mstatus, ← hframe.sp]
    rfl
  rw [hw]
  refine leads_loadAll (by decide) (by decide) fun reg hregs hother => leads_goto ?_
  have hsaved : ∀ r off, (r, off) ∈ trapRestored → reg r = w₀.reg r := by
    intro r off hmem
    have hsub : ∀ entry ∈ trapRestored, entry ∈ trapFrame := by decide
    rw [hregs r off hmem, ← hframe.saved r off (hsub _ hmem), ← hframe.sp]
    rfl
  have hkept : ∀ r : Reg, r.preserved = true → reg r = w.reg r := fun r hr =>
    (hother r (notMem_trapRestored hr)).trans (reload_preserved hr _ _ _)
  refine ⟨hframe.congr hkept rfl, hhandled, fun r ha0 hsp => ?_, rfl, rfl⟩
  cases hr : r.preserved with
  | true => exact (hkept r hr).trans (hframe.kept r hr hsp)
  | false =>
    obtain ⟨⟨k, off⟩, hentry, rfl⟩ := List.mem_map.mp (mem_trapRestored hr ha0)
    exact hsaved k off hentry

/-- With an interrupt there is another round, without one `mret` returns. -/
theorem leads_checkIrqBeforeExit (h : At stack w₀ .checkIrqBeforeExit w) :
    Leads stack w₀ (body .checkIrqBeforeExit) w := by
  obtain ⟨hframe, hhandled, hregs, hmepc, hmstatus⟩ := h
  refine leads_instr fun _ w₁ hw₁ => leads_instr fun taken w₂ hw₂ => ?_
  obtain ⟨v, rfl⟩ := hw₁
  obtain ⟨rfl, rfl⟩ := hw₂
  split
  · exact leads_goto ⟨hframe.setReg rfl v, hhandled⟩
  · refine leads_instr fun _ w₃ hw₃ => ⟨trivial, fun _ w₄ hw₄ => ⟨trivial, ?_⟩⟩
    subst hw₃ hw₄
    refine ⟨fun r => ?_, hmepc, hmstatus, hframe.stack, hhandled⟩
    by_cases hsp : r = .sp
    · subst hsp
      simp [setReg, hframe.sp]
    · rw [setReg_other _ hsp]
      by_cases ha0 : r = .a0
      · subst ha0
        simp [setReg, hframe.sp, hframe.saved .a0 16 (by decide)]
      · rw [setReg_other _ ha0, setReg_other _ ha0]
        exact hregs r ha0 hsp

/-- Every label leads to the return. -/
theorem spec_holds (hstack : ∀ a off, stack a → off < 80 → a ≠ w₀.reg .sp - 80 + off) :
    (spec stack w₀).Holds body (world stack) fun _ => True := by
  intro label w _ hat
  cases label with
  | saveMeicontext => exact leads_saveMeicontext hstack hat
  | getFirstIrq => exact leads_getFirstIrq hat
  | dispatchIrq => exact leads_dispatchIrq hat
  | getNextIrq => exact leads_getNextIrq hat
  | noMoreIrqs => exact leads_noMoreIrqs hat
  | checkIrqBeforeExit => exact leads_checkIrqBeforeExit hat

/-- The frame is built. -/
theorem leads_entry (hstack : ∀ a off, stack a → off < 80 → a ≠ w₀.reg .sp - 80 + off)
    (hhandled : w₀.handled = w₀.claimed) : Leads stack w₀ entry w₀ := by
  refine leads_instr fun _ w₁ hw₁ => leads_storeAll (by decide) fun mem hregs hother => ?_
  refine leads_instr fun _ w₂ hw₂ => leads_instr fun _ w₃ hw₃ => leads_instr fun _ w₄ hw₄ =>
    leads_instr fun _ w₅ hw₅ => leads_goto ?_
  have hsp : w₁.reg .sp = w₀.reg .sp - 80 := by
    subst hw₁
    rw [UInt32.sub_eq_add_neg]
    rfl
  rw [hsp] at hregs hother
  have hmem : w₅.mem = Function.update (Function.update mem (w₀.reg .sp - 80 + 64) (w₀.csr .mepc))
      (w₀.reg .sp - 80 + 68) (w₀.csr .mstatus) := by
    have hcsr : w₁.csr = w₀.csr := by rw [hw₁, setReg]
    subst hw₂ hw₃ hw₄ hw₅
    rw [← hsp, ← hcsr]
    rfl
  have hother' : ∀ a, a ≠ w₀.reg .sp - 80 + 64 → a ≠ w₀.reg .sp - 80 + 68 → w₅.mem a = mem a := by
    intro a h64 h68
    rw [hmem, Function.update_of_ne h68, Function.update_of_ne h64]
  have hreg : ∀ r : Reg, r.preserved = true → w₅.reg r = w₁.reg r := by
    intro r hr
    subst hw₂ hw₃ hw₄ hw₅
    cases r <;> first | rfl | cases hr
  refine ⟨⟨?_, fun r hr hne => ?_, fun r off hentry => ?_, ?_, ?_, fun a ha => ?_⟩, ?_⟩
  · rw [hreg .sp rfl, hsp]
  · rw [hreg r hr, hw₁, setReg_other _ hne]
  · have hoff : ∀ entry ∈ trapFrame, entry.2 ≠ 64 ∧ entry.2 ≠ 68 ∧ entry.1 ≠ .sp := by decide
    obtain ⟨h64, h68, hne⟩ := hoff _ hentry
    rw [hother' _ (mt (UInt32.add_right_inj _).mp h64) (mt (UInt32.add_right_inj _).mp h68),
      hregs r off hentry, hw₁, setReg_other _ hne]
  · have hne : w₀.reg .sp - 80 + 64 ≠ w₀.reg .sp - 80 + 68 :=
      mt (UInt32.add_right_inj _).mp (by decide)
    rw [hmem, Function.update_of_ne hne, Function.update_self]
  · rw [hmem, Function.update_self]
  · have hin : ∀ off ∈ trapFrame.map Prod.snd, off < 80 := by
      intro off hoff
      obtain ⟨entry, hentry, rfl⟩ := List.mem_map.mp hoff
      have hlt : ∀ entry ∈ trapFrame, entry.2 < 80 := by decide
      exact hlt entry hentry
    rw [hother' a (hstack a 64 ha (by decide)) (hstack a 68 ha (by decide)),
      hother a fun off hoff => hstack a off ha (hin off hoff), hw₁]
    rfl
  · rw [hw₅, hw₄, hw₃, hw₂, hw₁]
    simpa only [setMem, setReg] using hhandled

end Labels

end TrapState

open TrapState in
/-- The trap handler is transparent. Whatever `meinext` reads as, however many interrupts are
handled in one trap, and whatever `isr_handler` and the traps that interrupt it do within the
calling convention, the interrupted code goes on with all its registers, at its own `mepc`, with its
own `mstatus` and with its stack as it was; `isr_handler` has been called once for each interrupt
that was taken from the controller, in that order. -/
theorem trap_transparent {stack : UInt32 → Prop} {w₀ w : TrapState}
    (hstack : ∀ a off, stack a → off < 80 → a ≠ w₀.reg .sp - 80 + off)
    (hstart : w₀.handled = [] ∧ w₀.claimed = [])
    (h : Steps TrapCode.body (world stack) TrapCode.entry w₀ (pure ()) w) :
    (∀ r, w.reg r = w₀.reg r) ∧ w.csr .mepc = w₀.csr .mepc ∧ w.csr .mstatus = w₀.csr .mstatus ∧
      (∀ a, stack a → w.mem a = w₀.mem a) ∧ w.handled = w.claimed := by
  have hentry : Leads stack w₀ TrapCode.entry w₀ :=
    leads_entry hstack (hstart.1.trans hstart.2.symm)
  obtain ⟨-, hend⟩ := (spec_holds hstack).sound hentry h
  have hresumes := hend () rfl
  exact ⟨hresumes.reg, hresumes.mepc, hresumes.mstatus, hresumes.stack, hresumes.handled⟩

/-- A handler that returns at once. -/
theorem TrapState.called_return {stack : UInt32 → Prop} (w : TrapState) :
    w.Called stack { w with handled := w.handled ++ [w.reg .a0] } :=
  ⟨fun _ _ => rfl, fun _ _ => rfl, fun _ _ => rfl, rfl, rfl⟩

open TrapState in
/-- One trap for the doorbell. -/
theorem trap_transparent_doorbell : ∃ w₀ w : TrapState, w.handled = [104] ∧
    (∀ r, w.reg r = w₀.reg r) ∧ w.csr .mepc = w₀.csr .mepc ∧ w.csr .mstatus = w₀.csr .mstatus ∧
      (∀ a, a = 4096 → w.mem a = w₀.mem a) ∧ w.handled = w.claimed := by
  obtain ⟨w, hsteps, hhandled⟩ : ∃ w, Steps TrapCode.body (world fun a => a = 4096) TrapCode.entry
      ⟨fun _ => 4096, fun _ => 7, fun _ => 11, [], []⟩ (pure ()) w ∧ w.handled = [104] := by
    apply Exists.intro
    constructor
    · iterate 21 apply Steps.access (r := ()) rfl
      apply Steps.call
      iterate 2 apply Steps.access (r := ()) rfl
      apply Steps.call
      apply Steps.access (r := ()) ⟨104, rfl⟩
      apply Steps.access (r := false) ⟨rfl, by decide⟩
      apply Steps.call
      apply Steps.access (r := ()) rfl
      apply Steps.access (r := ()) (called_return _)
      apply Steps.access (r := ()) rfl
      apply Steps.call
      apply Steps.access (r := ()) ⟨0x80000000, rfl⟩
      apply Steps.access (r := false) ⟨rfl, by decide⟩
      apply Steps.call
      iterate 21 apply Steps.access (r := ()) rfl
      apply Steps.call
      apply Steps.access (r := ()) ⟨0x80000000, rfl⟩
      apply Steps.access (r := false) ⟨rfl, by decide⟩
      iterate 2 apply Steps.access (r := ()) rfl
      apply Steps.refl
    · rfl
  refine ⟨_, w, hhandled, trap_transparent (fun a off ha hoff => ?_) ⟨rfl, rfl⟩ hsteps⟩
  subst ha
  intro heq
  have hoff' : off = 80 := (UInt32.add_right_inj (4096 - 80)).mp (heq.symm.trans (by decide))
  subst hoff'
  exact absurd hoff (by decide)

end Magnesium
