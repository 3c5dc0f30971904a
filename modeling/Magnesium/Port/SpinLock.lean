import Magnesium.Kernel.Program
import Mathlib.Tactic.Simps.Basic

/-!
# The locks of several cores

`mg_smp_protect_acquire` and `mg_smp_protect_release` on any number of cores, with nested handlers
on each. On one core a lock is a critical section; on several it is a word as well, taken by a
compare-exchange in a loop that waits for an event after each failure. The compare-exchange is a
load and a store: the store fails if the reservation of the load was lost to a write of another
core, which comes from an operation on a lock or from a section. A weak compare-exchange may fail
for no reason as well. A step is one access of one context.
-/

namespace Magnesium

variable {S : Setup}

/-- Where a context stands with respect to locks. -/
inductive SmpPc (S : Setup) where
  /-- In no operation on a lock and in no section. -/
  | outside
  /-- In the loop of `mg_smp_protect_acquire`, before the load of the compare-exchange. -/
  | load (l : Lock S)
  /-- Before the store of the compare-exchange, with the value it has loaded. -/
  | exchange (l : Lock S) (seen : UInt32)
  /-- Before `mg_port_wait_event`, or asleep in it. -/
  | wait (l : Lock S)
  /-- In a section of the lock. -/
  | inside (l : Lock S)
  /-- In `mg_smp_protect_release`, before `mg_port_send_event`. -/
  | send (l : Lock S)
  /-- Before `mg_critical_section_leave`. -/
  | leave (l : Lock S)
  deriving DecidableEq

/-- What the cores share, their own state, and where their contexts stand. -/
structure SmpState (S : Setup) where
  /-- `mg_smp_protect_t.spinlock`. -/
  spinlock : Lock S → UInt32
  /-- Interrupts are enabled on the core. -/
  enabled : Fin S.cpuMax → Bool
  /-- The event register of the core is set. -/
  event : Fin S.cpuMax → Bool
  /-- The core has a reservation for its store. -/
  reserved : Fin S.cpuMax → Bool
  /-- The contexts of the core that have begun and not ended, the running one first. -/
  stack : Fin S.cpuMax → List Ctx
  pc : Ctx → SmpPc S

/-- What a context does next. `lost` are the cores that lose their reservations to a write, and
`spurious` is a compare-exchange that fails for no reason. -/
inductive SmpAction (S : Setup) where
  /-- An interrupt starts the handler `x`. -/
  | preempt (x : Ctx)
  /-- The handler returns. -/
  | finish (x : Ctx)
  | acquire (x : Ctx) (l : Lock S)
  | load (x : Ctx)
  | exchange (x : Ctx) (lost : Fin S.cpuMax → Bool) (spurious : Bool)
  /-- `mg_port_wait_event` returns, with the event or earlier. -/
  | wait (x : Ctx) (early : Bool)
  /-- An access that is no operation on a lock. -/
  | access (x : Ctx) (e : Access S) (lost : Fin S.cpuMax → Bool)
  | release (x : Ctx) (lost : Fin S.cpuMax → Bool)
  | send (x : Ctx)
  | leave (x : Ctx)

/-- The context that acts. -/
def SmpAction.ctx : SmpAction S → Ctx
  | .preempt x | .finish x | .acquire x _ | .load x | .exchange x _ _ | .wait x _ | .access x _ _
  | .release x _ | .send x | .leave x => x

/-- The compare-exchange fails for no reason. -/
def SmpAction.spurious : SmpAction S → Bool
  | .exchange _ _ spurious => spurious
  | _ => false

namespace SmpState

/-- Every core runs `main`, with interrupts enabled, and all locks are initialised. -/
def boot (main : Fin S.cpuMax → Ctx) : SmpState S where
  spinlock _ := 0
  enabled _ := true
  event _ := false
  reserved _ := false
  stack c := [main c]
  pc _ := .outside

/-- Write the word of a lock. -/
@[simps] def setSpinlock (s : SmpState S) (l : Lock S) (v : UInt32) : SmpState S :=
  { s with spinlock := Function.update s.spinlock l v }

/-- `mg_critical_section_enter` and `mg_critical_section_leave`. -/
@[simps] def setEnabled (s : SmpState S) (c : Fin S.cpuMax) (v : Bool) : SmpState S :=
  { s with enabled := Function.update s.enabled c v }

/-- Write the event register of a core. -/
@[simps] def setEvent (s : SmpState S) (c : Fin S.cpuMax) (v : Bool) : SmpState S :=
  { s with event := Function.update s.event c v }

/-- The event reaches all other cores. -/
@[simps] def sendEvent (s : SmpState S) (c : Fin S.cpuMax) : SmpState S :=
  { s with event := fun d => if d = c then s.event d else true }

@[simps] def setReserved (s : SmpState S) (c : Fin S.cpuMax) (v : Bool) : SmpState S :=
  { s with reserved := Function.update s.reserved c v }

/-- Some other cores lose their reservations to a write of the core `c`. -/
@[simps] def disturb (s : SmpState S) (c : Fin S.cpuMax) (lost : Fin S.cpuMax → Bool) :
    SmpState S :=
  { s with reserved := fun d => s.reserved d && (d == c || !lost d) }

@[simps] def setStack (s : SmpState S) (c : Fin S.cpuMax) (stack : List Ctx) : SmpState S :=
  { s with stack := Function.update s.stack c stack }

/-- Move a context. -/
@[simps] def setPc (s : SmpState S) (x : Ctx) (pc : SmpPc S) : SmpState S :=
  { s with pc := Function.update s.pc x pc }

/-- The context runs on its core. -/
def Running (s : SmpState S) (x : Ctx) : Prop := (s.stack (S.thisCpu x)).head? = some x

instance (s : SmpState S) (x : Ctx) : Decidable (s.Running x) :=
  inferInstanceAs (Decidable (_ = _))

/-- The core has loaded the word of the lock and not stored to it. -/
def watches (s : SmpState S) (l : Lock S) (c : Fin S.cpuMax) : Bool :=
  match (s.stack c).head?.map s.pc with
  | some (.exchange k _) => k = l
  | _ => false

/-- A write to the word of a lock: whoever has loaded the word loses its reservation. -/
def write (s : SmpState S) (c : Fin S.cpuMax) (l : Lock S) (v : UInt32)
    (lost : Fin S.cpuMax → Bool) : SmpState S :=
  (s.disturb c fun d => lost d || s.watches l d).setSpinlock l v

/-- `mg_critical_section_enter`, and on one core the whole of `mg_smp_protect_acquire`. -/
def acquire (smp : Bool) (s : SmpState S) (x : Ctx) (l : Lock S) :
    SmpState S × List (Ctx × Access S) :=
  let s := s.setEnabled (S.thisCpu x) false
  if smp then (s.setPc x (.load l), []) else (s.setPc x (.inside l), [(x, .acquire l)])

/-- The store of the compare-exchange: it fails if the word was not zero, or without a
reservation. -/
def exchange (s : SmpState S) (x : Ctx) (l : Lock S) (seen : UInt32)
    (lost : Fin S.cpuMax → Bool) (spurious : Bool) : SmpState S × List (Ctx × Access S) :=
  let c := S.thisCpu x
  let reserved := s.reserved c && !spurious
  let s := s.setReserved c false
  if seen = 0 ∧ reserved then ((s.write c l 1 lost).setPc x (.inside l), [(x, .acquire l)])
  else (s.setPc x (.wait l), [])

/-- The store of `mg_smp_protect_release`; on one core, `mg_critical_section_leave`. -/
def release (smp : Bool) (s : SmpState S) (x : Ctx) (l : Lock S) (lost : Fin S.cpuMax → Bool) :
    SmpState S × List (Ctx × Access S) :=
  if smp then ((s.write (S.thisCpu x) l 0 lost).setPc x (.send l), [(x, .release l)])
  else ((s.setEnabled (S.thisCpu x) true).setPc x .outside, [(x, .release l)])

/-- An access in a section, or outside of every section. A write near the word of a lock comes from
a section. -/
def access (s : SmpState S) (x : Ctx) (e : Access S) (lost : Fin S.cpuMax → Bool) :
    Option (SmpState S × List (Ctx × Access S)) :=
  match e, s.pc x with
  | .acquire _, _ | .release _, _ => none
  | e, .inside _ => some (s.disturb (S.thisCpu x) lost, [(x, e)])
  | e, .outside => some (s, [(x, e)])
  | _, _ => none

/-- One step of the running context of a core, with what it did. -/
def advance (smp : Bool) (s : SmpState S) : SmpAction S →
    Option (SmpState S × List (Ctx × Access S))
  | .preempt _ => none
  | .finish x =>
    match s.pc x, s.stack (S.thisCpu x) with
    | .outside, _ :: y :: rest => some (s.setStack (S.thisCpu x) (y :: rest), [])
    | _, _ => none
  | .acquire x l =>
    match s.pc x with
    | .outside => some (s.acquire smp x l)
    | _ => none
  | .load x =>
    match s.pc x with
    | .load l =>
      some ((s.setReserved (S.thisCpu x) true).setPc x (.exchange l (s.spinlock l)), [])
    | _ => none
  | .exchange x lost spurious =>
    match s.pc x with
    | .exchange l seen => some (s.exchange x l seen lost spurious)
    | _ => none
  | .wait x early =>
    match s.pc x with
    | .wait l =>
      if s.event (S.thisCpu x) || early then
        some ((s.setEvent (S.thisCpu x) false).setPc x (.load l), [])
      else none
    | _ => none
  | .access x e lost => s.access x e lost
  | .release x lost =>
    match s.pc x with
    | .inside l => some (s.release smp x l lost)
    | _ => none
  | .send x =>
    match s.pc x with
    | .send l => some ((s.sendEvent (S.thisCpu x)).setPc x (.leave l), [])
    | _ => none
  | .leave x =>
    match s.pc x with
    | .leave _ => some ((s.setEnabled (S.thisCpu x) true).setPc x .outside, [])
    | _ => none

/-- One step. A handler starts on its core while interrupts are enabled; everything else is done by
the running context. -/
def step (smp : Bool) (s : SmpState S) (act : SmpAction S) :
    Option (SmpState S × List (Ctx × Access S)) :=
  match act with
  | .preempt x =>
    let c := S.thisCpu x
    if s.enabled c ∧ x ∉ s.stack c then some (s.setStack c (x :: s.stack c), []) else none
  | act => if s.Running act.ctx then s.advance smp act else none

/-- Steps one after another. -/
def run (smp : Bool) (s : SmpState S) :
    List (SmpAction S) → Option (SmpState S × List (Ctx × Access S))
  | [] => some (s, [])
  | act :: acts =>
    match s.step smp act with
    | some (s', es) => (s'.run smp acts).map fun out => (out.1, es ++ out.2)
    | none => none

end SmpState

/-- The runs of all cores in any order of the steps, with the accesses they made. `main c` is the
first context of the core `c`. Only if `weak`, a compare-exchange may fail for no reason. -/
inductive SmpHistory (smp weak : Bool) : SmpState S → List (Ctx × Access S) → Prop
  | boot {main : Fin S.cpuMax → Ctx} : (∀ c, S.thisCpu (main c) = c) →
      SmpHistory smp weak (.boot main) []
  | step {s : SmpState S} {log : List (Ctx × Access S)} {act : SmpAction S} {s' : SmpState S}
      {es : List (Ctx × Access S)} : SmpHistory smp weak s log →
      (act.spurious = true → weak = true) → s.step smp act = some (s', es) →
      SmpHistory smp weak s' (log ++ es)

theorem SmpHistory.run {smp weak : Bool} {s s' : SmpState S} {log es : List (Ctx × Access S)}
    {acts : List (SmpAction S)} (h : SmpHistory smp weak s log)
    (hweak : ∀ act ∈ acts, act.spurious = true → weak = true)
    (hrun : s.run smp acts = some (s', es)) : SmpHistory smp weak s' (log ++ es) := by
  induction acts generalizing s log es with
  | nil =>
    cases hrun
    rwa [List.append_nil]
  | cons act acts ih =>
    rw [SmpState.run] at hrun
    split at hrun
    · rename_i s₁ es₁ hstep
      obtain ⟨⟨s₂, es₂⟩, hrest, heq⟩ := Option.map_eq_some_iff.mp hrun
      cases heq
      rw [← List.append_assoc]
      exact ih (h.step (hweak act List.mem_cons_self) hstep)
        (fun act' hmem => hweak act' (List.mem_cons_of_mem _ hmem)) hrest
    · cases hrun

/-- No operation on a lock. -/
def Access.Plain : Access S → Prop
  | .acquire _ | .release _ => False
  | _ => True

theorem Access.plain_of_ne {e : Access S} (ha : ∀ l, e = .acquire l → False)
    (hr : ∀ l, e = .release l → False) : e.Plain := by
  cases e with
  | acquire l => exact ha l rfl
  | release l => exact hr l rfl
  | _ => trivial

/-- What the running context `x` of a core can do, on several cores if `smp`. -/
inductive SmpStep (smp weak : Bool) (s : SmpState S) (x : Ctx) :
    SmpState S → List (Ctx × Access S) → Prop
  | finish {y z : Ctx} {rest : List Ctx} : s.pc x = .outside →
      s.stack (S.thisCpu x) = z :: y :: rest →
      SmpStep smp weak s x (s.setStack (S.thisCpu x) (y :: rest)) []
  | acquire {l : Lock S} : smp = true → s.pc x = .outside →
      SmpStep smp weak s x ((s.setEnabled (S.thisCpu x) false).setPc x (.load l)) []
  | enter {l : Lock S} : smp = false → s.pc x = .outside →
      SmpStep smp weak s x ((s.setEnabled (S.thisCpu x) false).setPc x (.inside l))
        [(x, .acquire l)]
  | load {l : Lock S} : s.pc x = .load l →
      SmpStep smp weak s x
        ((s.setReserved (S.thisCpu x) true).setPc x (.exchange l (s.spinlock l))) []
  | lock {l : Lock S} {lost : Fin S.cpuMax → Bool} : s.pc x = .exchange l 0 →
      s.reserved (S.thisCpu x) = true →
      SmpStep smp weak s x (((s.setReserved (S.thisCpu x) false).write (S.thisCpu x) l 1
        lost).setPc x (.inside l)) [(x, .acquire l)]
  | fail {l : Lock S} {seen : UInt32} : s.pc x = .exchange l seen →
      (seen ≠ 0 ∨ s.reserved (S.thisCpu x) = false ∨ weak = true) →
      SmpStep smp weak s x ((s.setReserved (S.thisCpu x) false).setPc x (.wait l)) []
  | wait {l : Lock S} : s.pc x = .wait l →
      SmpStep smp weak s x ((s.setEvent (S.thisCpu x) false).setPc x (.load l)) []
  | inside {l : Lock S} {e : Access S} {lost : Fin S.cpuMax → Bool} : s.pc x = .inside l →
      e.Plain → SmpStep smp weak s x (s.disturb (S.thisCpu x) lost) [(x, e)]
  | outside {e : Access S} : s.pc x = .outside → e.Plain → SmpStep smp weak s x s [(x, e)]
  | unlock {l : Lock S} {lost : Fin S.cpuMax → Bool} : smp = true → s.pc x = .inside l →
      SmpStep smp weak s x ((s.write (S.thisCpu x) l 0 lost).setPc x (.send l)) [(x, .release l)]
  | exit {l : Lock S} : smp = false → s.pc x = .inside l →
      SmpStep smp weak s x ((s.setEnabled (S.thisCpu x) true).setPc x .outside) [(x, .release l)]
  | send {l : Lock S} : s.pc x = .send l →
      SmpStep smp weak s x ((s.sendEvent (S.thisCpu x)).setPc x (.leave l)) []
  | leave {l : Lock S} : s.pc x = .leave l →
      SmpStep smp weak s x ((s.setEnabled (S.thisCpu x) true).setPc x .outside) []

namespace SmpState

variable {smp weak : Bool} {s s' : SmpState S} {act : SmpAction S} {es : List (Ctx × Access S)}

theorem advance_cases (hweak : act.spurious = true → weak = true)
    (h : s.advance smp act = some (s', es)) : SmpStep smp weak s act.ctx s' es := by
  cases act with
  | preempt x => cases h
  | finish x =>
    simp only [advance] at h
    split at h
    · rename_i hpc hstack
      cases h
      exact .finish hpc hstack
    · cases h
  | acquire x l =>
    simp only [advance] at h
    split at h
    · rename_i hpc
      cases smp with
      | true =>
        cases h
        exact .acquire rfl hpc
      | false =>
        cases h
        exact .enter rfl hpc
    · cases h
  | load x =>
    simp only [advance] at h
    split at h
    · rename_i hpc
      cases h
      exact .load hpc
    · cases h
  | exchange x lost spurious =>
    simp only [advance] at h
    split at h
    · rename_i l seen hpc
      simp only [exchange] at h
      split at h
      · rename_i hfree
        obtain ⟨rfl, hreserved⟩ := hfree
        cases h
        rw [Bool.and_eq_true] at hreserved
        exact .lock hpc hreserved.1
      · rename_i hfail
        cases h
        refine .fail hpc ?_
        rw [not_and_or, Bool.not_eq_true, Bool.and_eq_false_iff, Bool.not_eq_false'] at hfail
        exact hfail.imp_right fun hres => hres.imp_right hweak
    · cases h
  | wait x early =>
    simp only [advance] at h
    split at h
    · rename_i hpc
      split at h
      · cases h
        exact .wait hpc
      · cases h
    · cases h
  | access x e lost =>
    simp only [advance, access] at h
    split at h
    · cases h
    · cases h
    · rename_i hna hnr hpc
      cases h
      exact .inside hpc (Access.plain_of_ne hna hnr)
    · rename_i hna hnr hpc
      cases h
      exact .outside hpc (Access.plain_of_ne hna hnr)
    · cases h
  | release x lost =>
    simp only [advance] at h
    split at h
    · rename_i hpc
      cases smp with
      | true =>
        cases h
        exact .unlock rfl hpc
      | false =>
        cases h
        exact .exit rfl hpc
    · cases h
  | send x =>
    simp only [advance] at h
    split at h
    · rename_i hpc
      cases h
      exact .send hpc
    · cases h
  | leave x =>
    simp only [advance] at h
    split at h
    · rename_i hpc
      cases h
      exact .leave hpc
    · cases h

/-- A step starts a handler, or is one of the running context of a core. -/
theorem step_cases (hweak : act.spurious = true → weak = true)
    (h : s.step smp act = some (s', es)) :
    (∃ x, s.enabled (S.thisCpu x) = true ∧ x ∉ s.stack (S.thisCpu x) ∧
      s' = s.setStack (S.thisCpu x) (x :: s.stack (S.thisCpu x)) ∧ es = []) ∨
      ∃ x, s.Running x ∧ SmpStep smp weak s x s' es := by
  cases act with
  | preempt x =>
    rw [step] at h
    split at h
    · rename_i hx
      cases h
      exact Or.inl ⟨x, hx.1, hx.2, rfl, rfl⟩
    · cases h
  | _ =>
    simp only [step] at h
    split at h
    · rename_i hrun
      exact Or.inr ⟨_, hrun, advance_cases hweak h⟩
    · cases h

end SmpState

end Magnesium
