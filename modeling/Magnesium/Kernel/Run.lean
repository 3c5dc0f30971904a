import Magnesium.Kernel.Step

/-!
# Runs of the kernel

A run takes one step of one context after another, in any order its discipline allows. The
disciplines differ in what the other contexts may be in the middle of.
-/

namespace Magnesium

variable {S : Setup}

/-- The vector whose handler made the call. -/
def Caller.serves : Caller → Option Vect
  | .schedule vect => some vect
  | .init => none

namespace Pc

/-- The actor whose link is in no list because this context works for it. -/
def carries : Pc S → Option ActorId
  | .call a _ | .inFunc a _ | .subscribe a _ _ | .suspend a _ | .delay a _ | .sleep a _
  | .yield a _ | .initPop a _ | .insert a _ => some a
  | .store a msg _ | .test a msg _ => msg.map fun _ => a
  | .idle | .schedule _ | .request _ _ | .tick _ _ _ | .allocCarve _ | .allocPop _ => none

/-- The actor this context has linked in a queue, but whose mailbox it has still to store or to
test. -/
def window : Pc S → Option ActorId
  | .store a none _ | .test a none _ => some a
  | _ => none

/-- The vector of the `mg_context_schedule` in progress that has not found its run queue empty. -/
def serves : Pc S → Option Vect
  | .schedule vect => some vect
  | .call _ caller | .inFunc _ caller | .subscribe _ _ caller | .store _ _ caller
  | .test _ _ caller | .suspend _ caller | .delay _ caller | .sleep _ caller
  | .yield _ caller => caller.serves
  | _ => none

/-- Between two operations: in client code, or about to dispatch the next actor. -/
def AtRest : Pc S → Prop
  | .idle | .inFunc _ _ | .schedule _ => True
  | _ => False

/-- Between the locked section of the pop in `mg_actor_call` and the end of the loop condition. -/
def Unlocked : Pc S → Prop
  | .store _ _ _ | .test _ _ _ => True
  | _ => False

end Pc

namespace State

/-- What the clients promise: they push and free messages they hold, initialise an actor once,
and change `actor->cpu` only while the actor waits in a queue or sleeps. -/
def Admits (s : State S) : Action S → Prop
  | .push _ m | .free m => m ∈ s.held
  | .init a _ _ => s.func a = false
  | .setCpu a _ => (∃ q, a ∈ (s.queue q).waiters) ∨ ∃ c i, a ∈ s.timerq c i
  | _ => True

/-- The queue and the message of the call of `mg_queue_push` that an action makes. -/
def pushes (s : State S) : Action S → Option (QueueId × MessageId)
  | .push q m => some (q, m)
  | .free m => (s.parent m).map fun p => (.pool p, m)
  | _ => none

end State

/-- A condition on the steps of a run. -/
abbrev Discipline (S : Setup) := State S → Ctx → Action S → Prop

/-- Contexts preempt each other everywhere. -/
def AnyOrder : Discipline S := fun _ _ _ => True

/-- No push hands its message to an actor whose mailbox a context has still to store or to test
after linking the actor in the queue. -/
def RaceFree : Discipline S := fun s _ act =>
  ∀ q m a rest, s.pushes act = some (q, m) → (s.queue q).items = .actor a :: rest →
    ∀ y, (s.pc y).window ≠ some a

/-- Contexts preempt each other at their critical sections only: the store and the test of the
mailbox belong to the section before them. -/
def BySections : Discipline S := fun s x _ => ∀ y, y ≠ x → ¬ (s.pc y).Unlocked

/-- Kernel operations are atomic. -/
def Atomic : Discipline S := fun s x _ => ∀ y, y ≠ x → (s.pc y).AtRest

/-- The runs of a discipline from the boot of the kernel, with what they did. -/
inductive History (D : Discipline S) : State S → List (Event S) → Prop
  | boot : History D (State.boot S) []
  | step {s : State S} {log : List (Event S)} {x : Ctx} {act : Action S} {s' : State S}
      {es : List (Event S)} : History D s log → s.Admits act → D s x act →
      s.step x act = some (s', es) → History D s' (log ++ es)

/-- Every context is between two operations. -/
def State.Quiet (s : State S) : Prop := ∀ x, (s.pc x).AtRest

theorem Pc.Unlocked.of_window {pc : Pc S} {a : ActorId} (h : pc.window = some a) :
    pc.Unlocked := by
  cases pc <;> simp_all [Pc.window, Pc.Unlocked]

theorem Pc.AtRest.window {pc : Pc S} (h : pc.AtRest) : pc.window = none := by
  cases pc <;> simp_all [Pc.window, Pc.AtRest]

/-- A context that has linked its actor does not carry it any more. -/
theorem Pc.window_of_carries {pc : Pc S} {a : ActorId} (h : pc.carries = some a) :
    pc.window = none := by
  cases pc with
  | store b msg caller =>
    cases msg with
    | none => simp [Pc.carries] at h
    | some m => rfl
  | test b msg caller =>
    cases msg with
    | none => simp [Pc.carries] at h
    | some m => rfl
  | _ => rfl

theorem Caller.resume_atRest (caller : Caller) : (caller.resume : Pc S).AtRest := by
  cases caller <;> trivial

@[simp] theorem Caller.resume_carries (caller : Caller) :
    (caller.resume : Pc S).carries = none := by
  cases caller <;> rfl

@[simp] theorem Caller.resume_serves (caller : Caller) :
    (caller.resume : Pc S).serves = caller.serves := by
  cases caller <;> rfl

@[simp] theorem Activator.resume_carries (activator : Activator S) :
    activator.resume.carries = none := by
  cases activator <;> rfl

@[simp] theorem Activator.resume_window (activator : Activator S) :
    activator.resume.window = none := by
  cases activator <;> rfl

theorem Pc.AtRest.ne_test {pc : Pc S} (h : pc.AtRest) (a : ActorId) (msg : Option MessageId)
    (caller : Caller) : pc ≠ .test a msg caller := by
  rintro rfl
  exact h

theorem Pc.AtRest.ne_request {pc : Pc S} (h : pc.AtRest) (a : ActorId)
    (activator : Activator S) : pc ≠ .request a activator := by
  rintro rfl
  exact h

/-- An action that pushes is made outside of any kernel operation. -/
theorem State.step_pushes {s s' : State S} {x : Ctx} {act : Action S} {es : List (Event S)}
    {target : QueueId × MessageId} (hstep : s.step x act = some (s', es))
    (hpush : s.pushes act = some target) : s.pc x = .idle := by
  cases hpc : s.pc x with
  | idle => rfl
  | _ => cases act <;> simp [State.step, State.advance, hpc, State.pushes] at hstep hpush

theorem RaceFree.of_others {s s' : State S} {x : Ctx} {act : Action S} {es : List (Event S)}
    (hstep : s.step x act = some (s', es)) (h : ∀ y, y ≠ x → (s.pc y).window = none) :
    RaceFree s x act := by
  intro q m a rest hpush _ y hy
  by_cases hyx : y = x
  · rw [hyx, State.step_pushes hstep hpush] at hy
    simp [Pc.window] at hy
  · rw [h y hyx] at hy
    simp at hy

theorem BySections.raceFree {s s' : State S} {x : Ctx} {act : Action S} {es : List (Event S)}
    (hstep : s.step x act = some (s', es)) (h : BySections s x act) : RaceFree s x act := by
  apply RaceFree.of_others hstep
  intro y hy
  rw [Option.eq_none_iff_forall_ne_some]
  exact fun a ha => h y hy (.of_window ha)

theorem Atomic.raceFree {s s' : State S} {x : Ctx} {act : Action S} {es : List (Event S)}
    (hstep : s.step x act = some (s', es)) (h : Atomic s x act) : RaceFree s x act :=
  RaceFree.of_others hstep fun y hy => (h y hy).window

/-- A run of a stricter discipline. -/
theorem History.mono {D D' : Discipline S}
    (hD : ∀ s x act s' es, s.step x act = some (s', es) → D s x act → D' s x act)
    {s : State S} {log : List (Event S)} (h : History D s log) : History D' s log := by
  induction h with
  | boot => exact .boot
  | step _ hadm hd hstep ih => exact .step ih hadm (hD _ _ _ _ _ hstep hd) hstep

end Magnesium
