import Magnesium.Core.CriticalSection
import Magnesium.Kernel.Program

/-!
# The locks of the kernel

No context holds two locks. Lists and counters are touched only in a section of their lock,
actors' functions and `pic_interrupt_request` are called outside of every section, and a section
makes a bounded number of accesses, among them at most one `mg_fifo_enqueue` and one
`mg_fifo_dequeue`.
-/

namespace Magnesium

open Procedure CriticalSection

variable {S : Setup}

/-- The two functions whose time a section pays for. -/
inductive ListOp where
  | enqueue
  | dequeue
  deriving DecidableEq

namespace Access

/-- The operation on a lock, if the access is one. -/
def lockOp : Access S → Option (LockOp (Lock S))
  | .acquire l => some (.acquire l)
  | .release l => some (.release l)
  | _ => none

/-- The operation on a list whose time a section pays for, if the access is one. -/
def listOp : Access S → Option ListOp
  | .enqueue _ _ => some .enqueue
  | .dequeue _ => some .dequeue
  | _ => none

end Access

/-- The lock of a list. -/
abbrev ListId.lock : ListId S → Lock S
  | .items q => .queue q
  | .runq c _ | .timerq c _ => .context c

/-- The lock a field is read under. The flag of `mg_message_alloc` is read without, and the fields
of an actor belong to whoever runs it. -/
abbrev Field.readLock : Field S → Option (Lock S)
  | .length q => some (.queue q)
  | .array p | .totalLength p | .blockSz p | .offset p => some (.queue (.pool p))
  | .ticks c => some (.context c)
  | _ => none

/-- The lock a field is written under. -/
abbrev Field.writeLock : Field S → Option (Lock S)
  | .arraySpaceAvailable p => some (.queue (.pool p))
  | f => f.readLock

/-- What an access means for the locks. -/
def Access.mark : Access S → Mark (Lock S) ListOp
  | .acquire l => .acquire l
  | .release l => .release l
  | .load f => f.readLock.elim .free .inside
  | .store f _ => f.writeLock.elim .free .inside
  | .empty l | .last l => .inside l.lock
  | .enqueue l _ => .use l.lock .enqueue
  | .dequeue l => .use l.lock .dequeue
  | .request _ _ | .func _ _ | .client _ => .outside

/-- The mark of an access tells what it does to a lock. -/
theorem Access.mark_lockOp (e : Access S) : e.mark.lockOp = e.lockOp := by
  cases e with
  | load f =>
    rw [Access.mark]
    cases f.readLock <;> rfl
  | store f v =>
    rw [Access.mark]
    cases f.writeLock <;> rfl
  | _ => rfl

/-- And what it takes of the time of a section. -/
theorem Access.mark_resource (e : Access S) : e.mark.resource = e.listOp := by
  cases e with
  | load f =>
    rw [Access.mark]
    cases f.readLock <;> rfl
  | store f v =>
    rw [Access.mark]
    cases f.writeLock <;> rfl
  | _ => rfl

/-- The accesses of the longest section, the one of `mg_message_alloc`. -/
abbrev sectionBound : Nat := 11

/-- The monitor of the discipline: it rejects a second lock, an access without its lock, and a
section that is too long. -/
abbrev lockStep :
    Option (Held (Lock S) ListOp) → Access S → Option (Option (Held (Lock S) ListOp)) :=
  step Access.mark sectionBound

/-- Procedures begin and end with no lock held, but for the loop of `mg_context_tick`, which is
entered and left in a section. -/
def lockContract (S : Setup) : Contract (kernelInterface S) (Option (Held (Lock S) ListOp)) where
  pre
    | .tickLoop c _ _, s => ∃ n ≤ 4, s = some ⟨.context c, [], n⟩
    | _, s => s = none
  post
    | .tickLoop c _ _, _, s => ∃ n ≤ 5, s = some ⟨.context c, [], n⟩
    | _, _, s => s = none

/-- The code begins and ends with no lock held, and obeys the discipline. -/
def Balanced {α : Type} (p : Code S α) : Prop :=
  p.wp lockStep (lockContract S) (fun _ s => s = none) none

open Code

section Rules

variable {C : Contract (kernelInterface S) (Option (Held (Lock S) ListOp))} {l : Lock S}
  {used : List ListOp} {n : Nat} {s s' : Option (Held (Lock S) ListOp)}

/-- An access that the monitor accepts. -/
theorem wp_perform {e : Access S} {Q : e.Answer → Option (Held (Lock S) ListOp) → Prop}
    (h : lockStep s e = some s') : (perform e).wp lockStep C Q s ↔ ∀ r, Q r s' := by
  rw [perform, Prog.wp_perform]
  constructor
  · rintro ⟨s₁, hs₁, hQ⟩
    rw [h] at hs₁
    cases hs₁
    exact hQ
  · intro hQ
    exact ⟨s', h, hQ⟩

/-- A lock is acquired while none is held. -/
@[simp] theorem wp_acquire {Q : Unit → Option (Held (Lock S) ListOp) → Prop} :
    (acquire l).wp lockStep C Q none ↔ Q () (some ⟨l, [], 0⟩) :=
  (wp_perform (e := .acquire l) rfl).trans Unique.forall_iff

/-- The lock that is held is released. -/
@[simp] theorem wp_release {Q : Unit → Option (Held (Lock S) ListOp) → Prop} :
    (release l).wp lockStep C Q (some ⟨l, used, n⟩) ↔ Q () none := by
  have hstep : lockStep (some ⟨l, used, n⟩) (.release l) = some none := if_pos rfl
  exact (wp_perform hstep).trans Unique.forall_iff

/-- An access outside of every section. -/
theorem lockStep_outside {e : Access S} (he : e.mark = .outside ∨ e.mark = .free) :
    lockStep none e = some none := by
  rcases he with he | he <;> simp [step, he, idle]

/-- An access in a section. -/
theorem lockStep_inside {e : Access S} (he : e.mark = .inside l ∨ e.mark = .free)
    (hn : n < sectionBound) :
    lockStep (some ⟨l, used, n⟩) e = some (some ⟨l, used, n + 1⟩) := by
  rcases he with he | he <;> simp [step, he, busy, hn, Held.extend]

/-- An access that a section makes once. -/
theorem lockStep_use {e : Access S} {k : ListOp} (he : e.mark = .use l k) (hk : k ∉ used)
    (hn : n < sectionBound) :
    lockStep (some ⟨l, used, n⟩) e = some (some ⟨l, k :: used, n + 1⟩) := by
  simp [step, he, busy, hn, hk, Held.extend]

/-- A field that has no lock is read outside of every section. -/
@[simp] theorem wp_load_outside {f : Field S} {Q : f.Val → Option (Held (Lock S) ListOp) → Prop}
    (hf : f.readLock = none) :
    @Prog.wp (kernelInterface S) (no_index f.Val) _ lockStep C (load f) Q none ↔ ∀ v, Q v none :=
  wp_perform (lockStep_outside (Or.inr (by simp [Access.mark, hf])))

/-- A field with a lock is read in a section of it. -/
@[simp] theorem wp_load {f : Field S} {Q : f.Val → Option (Held (Lock S) ListOp) → Prop}
    (hf : f.readLock = some l) (hn : n < sectionBound) :
    @Prog.wp (kernelInterface S) (no_index f.Val) _ lockStep C (load f) Q (some ⟨l, used, n⟩) ↔
      ∀ v, Q v (some ⟨l, used, n + 1⟩) :=
  wp_perform (lockStep_inside (Or.inl (by simp [Access.mark, hf])) hn)

/-- A field that has no lock may be read in any section. -/
@[simp] theorem wp_load_free {f : Field S} {Q : f.Val → Option (Held (Lock S) ListOp) → Prop}
    (hf : f.readLock = none) (hn : n < sectionBound) :
    @Prog.wp (kernelInterface S) (no_index f.Val) _ lockStep C (load f) Q (some ⟨l, used, n⟩) ↔
      ∀ v, Q v (some ⟨l, used, n + 1⟩) :=
  wp_perform (lockStep_inside (Or.inr (by simp [Access.mark, hf])) hn)

@[simp] theorem wp_store_outside {f : Field S} {v : f.Val}
    {Q : Unit → Option (Held (Lock S) ListOp) → Prop} (hf : f.writeLock = none) :
    (store f v).wp lockStep C Q none ↔ Q () none :=
  (wp_perform (lockStep_outside (Or.inr (by simp [Access.mark, hf])))).trans Unique.forall_iff

/-- A field with a lock is written in a section of it. -/
@[simp] theorem wp_store {f : Field S} {v : f.Val}
    {Q : Unit → Option (Held (Lock S) ListOp) → Prop} (hf : f.writeLock = some l)
    (hn : n < sectionBound) :
    (store f v).wp lockStep C Q (some ⟨l, used, n⟩) ↔ Q () (some ⟨l, used, n + 1⟩) :=
  (wp_perform (lockStep_inside (Or.inl (by simp [Access.mark, hf])) hn)).trans Unique.forall_iff

@[simp] theorem wp_store_free {f : Field S} {v : f.Val}
    {Q : Unit → Option (Held (Lock S) ListOp) → Prop} (hf : f.writeLock = none)
    (hn : n < sectionBound) :
    (store f v).wp lockStep C Q (some ⟨l, used, n⟩) ↔ Q () (some ⟨l, used, n + 1⟩) :=
  (wp_perform (lockStep_inside (Or.inr (by simp [Access.mark, hf])) hn)).trans Unique.forall_iff

/-- A list is looked at in a section of its lock. -/
@[simp] theorem wp_fifoEmpty {x : ListId S} {Q : Bool → Option (Held (Lock S) ListOp) → Prop}
    (hx : x.lock = l) (hn : n < sectionBound) :
    (fifoEmpty x).wp lockStep C Q (some ⟨l, used, n⟩) ↔ ∀ b, Q b (some ⟨l, used, n + 1⟩) :=
  wp_perform (lockStep_inside (Or.inl (by simp [Access.mark, hx])) hn)

@[simp] theorem wp_fifoLast {x : ListId S}
    {Q : Option Link → Option (Held (Lock S) ListOp) → Prop} (hx : x.lock = l)
    (hn : n < sectionBound) :
    (fifoLast x).wp lockStep C Q (some ⟨l, used, n⟩) ↔ ∀ y, Q y (some ⟨l, used, n + 1⟩) :=
  wp_perform (lockStep_inside (Or.inl (by simp [Access.mark, hx])) hn)

/-- A section enqueues once. -/
@[simp] theorem wp_fifoEnqueue {x : ListId S} {y : Link}
    {Q : Unit → Option (Held (Lock S) ListOp) → Prop} (hx : x.lock = l)
    (hk : .enqueue ∉ used) (hn : n < sectionBound) :
    (fifoEnqueue x y).wp lockStep C Q (some ⟨l, used, n⟩) ↔
      Q () (some ⟨l, .enqueue :: used, n + 1⟩) :=
  (wp_perform (lockStep_use (by simp [Access.mark, hx]) hk hn)).trans Unique.forall_iff

/-- A section dequeues once. -/
@[simp] theorem wp_fifoDequeue {x : ListId S}
    {Q : Link → Option (Held (Lock S) ListOp) → Prop} (hx : x.lock = l)
    (hk : .dequeue ∉ used) (hn : n < sectionBound) :
    (fifoDequeue x).wp lockStep C Q (some ⟨l, used, n⟩) ↔
      ∀ y, Q y (some ⟨l, .dequeue :: used, n + 1⟩) := by
  rw [fifoDequeue, Prog.wp_bind, wp_perform (lockStep_use (by simp [Access.mark, hx]) hk hn)]
  constructor
  · intro h y
    exact (Prog.wp_ofOption (some y)).mp (h (some y)) y rfl
  · intro h r
    exact (Prog.wp_ofOption r).mpr fun y _ => h y

/-- An interrupt is requested while no lock is held. -/
@[simp] theorem wp_interruptRequest {cpu : Nat} {vect : Vect}
    {Q : Unit → Option (Held (Lock S) ListOp) → Prop} :
    (interruptRequest cpu vect : Code S Unit).wp lockStep C Q none ↔ Q () none :=
  (wp_perform (lockStep_outside (Or.inl rfl))).trans Unique.forall_iff

@[simp] theorem wp_invoke {f : Proc S}
    {Q : f.Result → Option (Held (Lock S) ListOp) → Prop} :
    (invoke f).wp lockStep C Q s ↔ C.pre f s ∧ ∀ b s', C.post f b s' → Q b s' := Iff.rfl

end Rules

/-- Balanced code in its context. -/
theorem Balanced.wp {α : Type} {p : Code S α} (h : Balanced p)
    {Q : α → Option (Held (Lock S) ListOp) → Prop} (hQ : ∀ a, Q a none) :
    p.wp lockStep (lockContract S) Q none := by
  refine Prog.wp_mono h fun a s hs => ?_
  rw [hs]
  exact hQ a

/-- One section around an enqueue. -/
theorem balanced_actorInsert (a : ActorId) : Balanced (actorInsert a : Code S Unit) := by
  simp (disch := first | rfl | decide) [Balanced, actorInsert, cpuContext]

/-- The request follows the section of the insertion. -/
theorem balanced_actorActivate (a : ActorId) : Balanced (actorActivate a : Code S Unit) := by
  rw [Balanced, actorActivate, Prog.wp_bind]
  refine (balanced_actorInsert a).wp fun _ => ?_
  simp (disch := rfl)

/-- One section, on each of the three ways through it. -/
theorem balanced_queuePop (q : QueueId) (subscriber : Option ActorId) :
    Balanced (queuePop q subscriber : Code S (Option MessageId)) := by
  simp (disch := first | rfl | decide) only [Balanced, queuePop, Prog.wp_bind, wp_acquire, wp_load]
  intro length
  split
  · simp (disch := first | rfl | decide) [decLength]
  · cases subscriber with
    | none => simp
    | some a => simp (disch := first | rfl | decide) [decLength]

/-- The activation follows the section of the push. -/
theorem balanced_queuePush (q : QueueId) (msg : MessageId) :
    Balanced (queuePush q msg : Code S Unit) := by
  simp (disch := first | rfl | decide) only [Balanced, queuePush, Prog.wp_bind, wp_acquire,
    wp_load, wp_store]
  intro length
  split
  · simp (disch := first | rfl | decide)
  · simp (disch := first | rfl | decide) only [Prog.wp_bind, wp_fifoDequeue, wp_store_free,
      Prog.wp_pure, wp_release]
    intro head
    exact balanced_actorActivate _

/-- The carve and the pop are sections one after the other, not one inside the other. -/
theorem balanced_messageAlloc (p : PoolId) :
    Balanced (messageAlloc p : Code S (Option MessageId)) := by
  simp (disch := rfl) only [Balanced, messageAlloc, Prog.wp_bind, wp_load_outside]
  intro available
  split
  · simp (disch := first | rfl | decide) only [Prog.wp_bind, wp_acquire, wp_load_free]
    intro available
    split
    · simp (disch := first | rfl | decide)
    · simp only [Prog.wp_bind, Prog.wp_pure, wp_release]
      exact balanced_queuePop _ _
  · rw [Prog.wp_bind, Prog.wp_pure]
    exact balanced_queuePop _ _

theorem balanced_messageFree (msg : MessageId) : Balanced (messageFree msg : Code S Unit) := by
  simp (disch := rfl) only [Balanced, messageFree, Prog.wp_bind, wp_load_outside, Prog.wp_ofOption]
  intro parent p _
  exact balanced_queuePush _ _

/-- One section around the sum and the enqueue. -/
theorem balanced_actorTimeout (x : Ctx) (a : ActorId) :
    Balanced (actorTimeout x a : Code S Unit) := by
  simp (disch := first | rfl | decide) [Balanced, actorTimeout, codeDiffMsb]

/-- The loop is entered and left in a section, and the lock released after it. -/
theorem balanced_contextTick (x : Ctx) : Balanced (contextTick x : Code S Unit) := by
  simp (disch := first | rfl | decide) only [Balanced, contextTick, codeDiffMsb, Prog.wp_bind,
    wp_acquire, wp_load, wp_store, Prog.wp_ofOption, wp_fifoLast]
  intro oldticks ticks i _ last
  rw [wp_invoke]
  refine ⟨⟨4, by decide, rfl⟩, ?_⟩
  rintro _ _ ⟨n, -, rfl⟩
  rw [wp_release]

/-- The window of a tick: the loop goes on with the lock, or leaves with it. -/
theorem wp_tickWindow (c : Fin S.cpuMax) (i : Fin S.timerqMax) (head : Link) (last : Option Link) :
    (acquire (.context c) >>= fun _ =>
      if some head = last then pure () else invoke (.tickLoop c i last) : Code S Unit).wp lockStep
      (lockContract S) (fun _ s => ∃ n ≤ 5, s = some ⟨.context c, [], n⟩) none := by
  rw [Prog.wp_bind, wp_acquire]
  split
  · exact ⟨0, by decide, rfl⟩
  · exact ⟨⟨0, by decide, rfl⟩, fun _ _ hpost => hpost⟩

/-- The loop of a tick is entered and left in a section that has not used a list yet. -/
theorem wp_tickLoop {c : Fin S.cpuMax} {n : Nat} (hn : n ≤ 4) (i : Fin S.timerqMax)
    (last : Option Link) :
    (tickLoop c i last).wp lockStep (lockContract S)
      (fun _ s => ∃ n ≤ 5, s = some ⟨.context c, [], n⟩) (some ⟨.context c, [], n⟩) := by
  simp (disch := first | rfl | decide | (unfold sectionBound; omega)) only [tickLoop,
    Prog.wp_bind, wp_fifoEmpty]
  intro empty
  split
  · exact ⟨n + 1, by omega, rfl⟩
  · simp (disch := first | rfl | decide | (unfold sectionBound; omega)) only [Prog.wp_bind,
      wp_fifoDequeue, wp_load, wp_load_free]
    intro head timeout ticks
    split
    · simp (disch := first | rfl | decide | (unfold sectionBound; omega)) only [Prog.wp_bind,
        wp_store_free, Prog.wp_pure, wp_release]
      refine (balanced_actorActivate _).wp fun _ => ?_
      exact wp_tickWindow c i head last
    · simp (disch := first | rfl | decide | (unfold sectionBound; omega)) only [Prog.wp_bind,
        wp_load, wp_load_free, codeDiffMsb, Prog.wp_ofOption, wp_fifoEnqueue, Prog.wp_pure,
        wp_release]
      intro _ _ j _
      exact wp_tickWindow c i head last

/-- The function of an actor is called, and goes on, while no lock is held. -/
theorem balanced_running (a : ActorId) : Balanced (running a : Code S QueuePtr) := by
  rw [Balanced, running, Prog.wp_bind, wp_perform (lockStep_outside (Or.inl rfl))]
  intro next
  cases next with
  | call op =>
    refine ⟨rfl, ?_⟩
    rintro _ _ rfl
    exact ⟨rfl, fun _ _ h => h⟩
  | sleepFor delay => simp (disch := rfl) [sleepFor]
  | ret q => rfl

/-- Between the pop and the next call no lock is held. -/
theorem balanced_actorCall (x : Ctx) (a : ActorId) : Balanced (actorCall x a : Code S Unit) := by
  simp (disch := rfl) only [Balanced, actorCall, Prog.wp_bind, wp_load_outside]
  intro msg
  rw [wp_perform (lockStep_outside (Or.inl rfl))]
  intro _
  rw [Prog.wp_bind, wp_invoke]
  refine ⟨rfl, ?_⟩
  rintro q _ rfl
  cases q with
  | null => trivial
  | suspend =>
    simp (disch := rfl) only [Prog.wp_bind, wp_store_outside, wp_load_outside]
    intro timeout
    split
    · exact balanced_actorTimeout x a
    · exact balanced_actorInsert a
  | queue q =>
    rw [Prog.wp_bind]
    refine (balanced_queuePop q (some a)).wp fun msg => ?_
    simp (disch := rfl) only [Prog.wp_bind, wp_store_outside, wp_load_outside]
    intro msg
    split
    · exact ⟨rfl, fun _ _ h => h⟩
    · rfl

/-- The fields of the actor are written before its queue is locked. -/
theorem balanced_actorInit (x : Ctx) (a : ActorId) (func : Bool) (vect : Vect)
    (q : Option QueueId) : Balanced (actorInit x a func vect q : Code S Unit) := by
  simp (disch := rfl) only [Balanced, actorInit, Prog.wp_bind, wp_store_outside, wp_load_outside,
    Prog.wp_check]
  intro prio _
  cases q with
  | some q =>
    rw [Prog.wp_bind]
    refine (balanced_queuePop q (some a)).wp fun msg => ?_
    simp
  | none =>
    cases func with
    | true => exact ⟨rfl, fun _ _ h => h⟩
    | false => rfl

theorem balanced_contextPopHead (x : Ctx) (vect : Vect) :
    Balanced (contextPopHead x vect : Code S (Option ActorId × Bool)) := by
  simp (disch := first | rfl | decide) only [Balanced, contextPopHead, Prog.wp_bind,
    Prog.wp_check, wp_acquire, wp_fifoEmpty]
  intro _ empty
  split
  · simp (disch := first | rfl | decide)
  · simp

/-- Every actor is called between two sections of the run queue. -/
theorem balanced_contextSchedule (x : Ctx) (vect : Vect) :
    Balanced (contextSchedule x vect : Code S Unit) := by
  rw [Balanced, contextSchedule, Prog.wp_bind]
  refine (balanced_contextPopHead x vect).wp ?_
  rintro ⟨actor, _⟩
  cases actor with
  | some actor =>
    refine ⟨rfl, ?_⟩
    rintro _ _ rfl
    exact ⟨rfl, fun _ _ h => h⟩
  | none => rfl

/-- The procedures of the kernel meet their contracts. -/
theorem lockContract_kernel (x : Ctx) (f : Proc S) (s : Option (Held (Lock S) ListOp))
    (hs : (lockContract S).pre f s) :
    (kernel x f).wp lockStep (lockContract S) ((lockContract S).post f) s := by
  cases f with
  | op o =>
    cases hs
    cases o with
    | queuePush q msg => exact balanced_queuePush q msg
    | queuePop q subscriber => exact balanced_queuePop q subscriber
    | messageAlloc p => exact balanced_messageAlloc p
    | messageFree msg => exact balanced_messageFree msg
    | contextTick => exact balanced_contextTick x
    | actorInit a func vect q => exact balanced_actorInit x a func vect q
    | contextSchedule vect => exact balanced_contextSchedule x vect
  | tickLoop c i last =>
    obtain ⟨n, hn, rfl⟩ := hs
    exact wp_tickLoop hn i last
  | actorCall a =>
    cases hs
    exact balanced_actorCall x a
  | running a =>
    cases hs
    exact balanced_running a

/-- The run of an operation in the context `x`, for `n` steps in an arbitrary world. -/
def runOperation {W : Type} (world : W → (e : Access S) → e.Answer × W) (n : Nat) (w : W) (x : Ctx)
    (op : Operation) : List (Access S) × W × Option op.Result :=
  exec (I := kernelInterface S) (kernel x) world n w (invoke (.op op))

/-- The trace of an operation obeys the discipline, and holds no lock when it has returned. -/
theorem disciplined_runOperation {W : Type} (world : W → (e : Access S) → e.Answer × W) (n : Nat)
    (w : W) (x : Ctx) (op : Operation) :
    Disciplined Access.mark sectionBound (runOperation world n w x op).1 ∧
      ((runOperation world n w x op).2.2.isSome = true →
        ∃ ls, lockOps Access.mark (runOperation world n w x op).1 = sections ls) := by
  have hop : Balanced (invoke (.op op) : Code S op.Result) := ⟨rfl, fun _ _ h => h⟩
  obtain ⟨s, hrun, hout⟩ := Contract.sound (lockContract_kernel x) world n w hop
  refine ⟨disciplined_of_run hrun, fun hsome => ?_⟩
  obtain ⟨r, hr⟩ := Option.isSome_iff_exists.mp hsome
  obtain rfl := hout r hr
  obtain ⟨ls, hops⟩ := run_lockOps hrun
  exact ⟨ls, hops.trans (List.append_nil _)⟩

/-- The lock discipline of the kernel. Whatever the memory contains, whatever other contexts do
between two accesses, and whatever operations the functions of actors call, nested to any depth:
a context that runs an operation acquires and releases one lock after another, with none held in
between and none after its return; the functions of actors and `pic_interrupt_request` are called
with no lock held; and a section makes a bounded number of accesses, among them at most one
`mg_fifo_enqueue` and one `mg_fifo_dequeue`. -/
theorem lock_discipline {W : Type} (world : W → (e : Access S) → e.Answer × W) (n : Nat)
    (w : W) (x : Ctx) (op : Operation) :
    let run := runOperation world n w x op
    (∃ (ls : List (Lock S)) (held : Option (Lock S)),
      run.1.filterMap Access.lockOp = sections ls ++ (held.map .acquire).toList ∧
        (run.2.2.isSome = true → held = none)) ∧
    (∀ pre a msg post, run.1 = pre ++ .func a msg :: post →
      ∃ ls : List (Lock S), pre.filterMap Access.lockOp = sections ls) ∧
    (∀ pre cpu vect post, run.1 = pre ++ .request cpu vect :: post →
      ∃ ls : List (Lock S), pre.filterMap Access.lockOp = sections ls) ∧
    (∀ pre sec post, run.1 = pre ++ (sec ++ post) → sec.filterMap Access.lockOp = [] →
      ∀ k, (sec.filterMap Access.listOp).count k ≤ 1) ∧
    ∀ pre l sec post, run.1 = pre ++ .acquire l :: (sec ++ post) →
      sec.filterMap Access.lockOp = [] → sec.length ≤ sectionBound := by
  intro run
  have hops : (fun e : Access S => e.mark.lockOp) = Access.lockOp := funext Access.mark_lockOp
  have hlists : (fun e : Access S => e.mark.resource) = Access.listOp :=
    funext Access.mark_resource
  obtain ⟨⟨hturns, houtside, -, honce, hshort⟩, hreturned⟩ :=
    disciplined_runOperation world n w x op
  simp only [lockOps, resources, hops, hlists] at hturns houtside honce hshort hreturned
  refine ⟨?_, fun pre a msg post hsplit => houtside pre _ post hsplit rfl,
    fun pre cpu vect post hsplit => houtside pre _ post hsplit rfl,
    fun pre sec post hsplit hsec => List.nodup_iff_count_le_one.mp (honce pre sec post hsplit hsec),
    fun pre l sec post hsplit hsec => hshort pre _ sec post l hsplit rfl hsec⟩
  cases hout : run.2.2.isSome with
  | true =>
    obtain ⟨ls, hls⟩ := hreturned hout
    exact ⟨ls, none, by simpa using hls, fun _ => rfl⟩
  | false =>
    obtain ⟨ls, held, hls⟩ := hturns
    exact ⟨ls, held, hls, fun h => by cases h⟩

end Magnesium
