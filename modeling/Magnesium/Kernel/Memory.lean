import Magnesium.Kernel.Program
import Magnesium.Timer.Visit

/-!
# The code in memory

The state of the kernel as a world that answers the accesses of its code. A function that runs
alone in this world computes the sections of `Magnesium.Kernel.Step`, one after another.
-/

namespace Magnesium

open Procedure

variable {S : Setup}

/-- The node of a message is read as this message. -/
theorem Node.entry_of_toMessage {y : Link} {m : MessageId} (h : y.toMessage = some m) :
    y.entry = m := by
  cases y with
  | message n => exact Option.some.inj h
  | actor a => cases h

/-- The node of an actor is read as this actor. -/
theorem Node.entry_of_toActor {y : Link} {a : ActorId} (h : y.toActor = some a) :
    y.entry = a := by
  cases y with
  | message n => cases h
  | actor b => exact Option.some.inj h

@[simp] theorem entry_comp_actor : Node.entry ∘ (Node.actor : ActorId → Link) = id := rfl

namespace State

/-- Replace one pool. -/
def setPool (s : State S) (p : PoolId) (pool : Pool) : State S :=
  { s with pool := Function.update s.pool p pool }

/-- Replace one timer queue. -/
def setTimerq (s : State S) (c : Fin S.cpuMax) (i : Fin S.timerqMax) (timerq : List ActorId) :
    State S :=
  { s with timerq := Function.update s.timerq c (Function.update (s.timerq c) i timerq) }

/-- Write the field `timeout` of one actor. -/
def setTimeout (s : State S) (a : ActorId) (v : UInt32) : State S :=
  { s with timeout := Function.update s.timeout a v }

/-- Write the tick counter of a CPU. -/
def setTicks (s : State S) (c : Fin S.cpuMax) (v : UInt32) : State S :=
  { s with ticks := Function.update s.ticks c v }

/-- What a field holds. -/
def load (s : State S) : (f : Field S) → f.Val
  | .func a => s.func a
  | .vect a => s.vect a
  | .cpu a => (s.cpu a).val
  | .prio a => s.prio a
  | .timeout a => s.timeout a
  | .mailbox a => s.mailbox a
  | .length q => (s.queue q).length
  | .array p => (s.pool p).array
  | .totalLength p => (s.pool p).totalLength
  | .blockSz p => (s.pool p).blockSz
  | .offset p => (s.pool p).offset
  | .arraySpaceAvailable p => (s.pool p).arraySpaceAvailable
  | .parent m => s.parent m
  | .ticks c => s.ticks c

/-- Write a field; an index of a CPU that does not exist is not stored. -/
def store (s : State S) : (f : Field S) → f.Val → State S
  | .func a, v => { s with func := Function.update s.func a v }
  | .vect a, v => { s with vect := Function.update s.vect a v }
  | .cpu a, v => if h : v < S.cpuMax then { s with cpu := Function.update s.cpu a ⟨v, h⟩ } else s
  | .prio a, v => { s with prio := Function.update s.prio a v }
  | .timeout a, v => s.setTimeout a v
  | .mailbox a, v => s.setMailbox a v
  | .length q, v => s.setQueue q { s.queue q with length := v }
  | .array p, v => s.setPool p { s.pool p with array := v }
  | .totalLength p, v => s.setPool p { s.pool p with totalLength := v }
  | .blockSz p, v => s.setPool p { s.pool p with blockSz := v }
  | .offset p, v => s.setPool p { s.pool p with offset := v }
  | .arraySpaceAvailable p, v => s.setPool p { s.pool p with arraySpaceAvailable := v }
  | .parent m, v => { s with parent := Function.update s.parent m v }
  | .ticks c, v => s.setTicks c v

/-- What is in a list, with the kinds of its links. -/
def list (s : State S) : ListId S → List Link
  | .items q => (s.queue q).items
  | .runq c p => (s.runq c p).map .actor
  | .timerq c i => (s.timerq c i).map .actor

/-- Replace a list; a link goes into the list of its owner. -/
def setList (s : State S) : ListId S → List Link → State S
  | .items q, xs => s.setQueue q { s.queue q with items := xs }
  | .runq c p, xs => s.setRunq c p (xs.map Node.entry)
  | .timerq c i, xs => s.setTimerq c i (xs.map Node.entry)

/-- A vector is requested on a CPU. -/
def setPending (s : State S) (cpu : Nat) (vect : Vect) : State S :=
  if h : cpu < S.cpuMax then
    { s with
      pending := Function.update s.pending ⟨cpu, h⟩
        (Function.update (s.pending ⟨cpu, h⟩) vect true) }
  else s

/-- The answer to an access, and the state after it; `client` is what the functions of actors do
next. -/
def answer (client : State S → ActorId → ClientStep × State S) (s : State S) :
    (e : Access S) → e.Answer × State S
  | .acquire _ | .release _ | .func _ _ => ((), s)
  | .load f => (s.load f, s)
  | .store f v => ((), s.store f v)
  | .empty l => (Fifo.empty (s.list l), s)
  | .last l => (Fifo.last (s.list l), s)
  | .enqueue l node => ((), s.setList l (Fifo.enqueue (s.list l) node))
  | .dequeue l =>
    match Fifo.dequeue (s.list l) with
    | some (head, rest) => (some head, s.setList l rest)
    | none => (none, s)
  | .request cpu vect => ((), s.setPending cpu vect)
  | .client a => client s a

@[simp] theorem setQueue_queue (s : State S) (q : QueueId) (queue : Queue MessageId ActorId) :
    (s.setQueue q queue).queue q = queue := Function.update_self ..

@[simp] theorem setQueue_setQueue (s : State S) (q : QueueId)
    (queue queue' : Queue MessageId ActorId) :
    (s.setQueue q queue).setQueue q queue' = s.setQueue q queue' := by
  simp [setQueue]

section Wheel

variable (s : State S) (c : Fin S.cpuMax) (w w' : Wheel S.timerqMax ActorId)

@[simp] theorem wheel_setWheel : (s.setWheel c w).wheel c = w := by simp [wheel, setWheel]

@[simp] theorem setWheel_setWheel : (s.setWheel c w).setWheel c w' = s.setWheel c w' := by
  simp [setWheel]

@[simp] theorem setWheel_wheel : s.setWheel c (s.wheel c) = s := by simp [wheel, setWheel]

/-- Writing a timer queue writes the wheel of its CPU. -/
theorem setTimerq_eq (i : Fin S.timerqMax) (timerq : List ActorId) :
    s.setTimerq c i timerq = s.setWheel c ((s.wheel c).setTimerq i timerq) := by
  simp [setTimerq, setWheel, wheel, Wheel.setTimerq]

/-- An enqueue on a timer queue. -/
theorem setList_enqueue (i : Fin S.timerqMax) (a : ActorId) :
    s.setList (.timerq c i) (Fifo.enqueue (s.list (.timerq c i)) (.actor a)) =
      s.setWheel c ((s.wheel c).setTimerq i (Fifo.enqueue ((s.wheel c).timerq i) a)) := by
  rw [setList, setTimerq_eq]
  simp [list, wheel, Fifo.enqueue, Node.entry]

/-- And so does writing the `timeout` of an actor. -/
theorem setTimeout_eq (a : ActorId) (v : UInt32) :
    s.setTimeout a v = s.setWheel c ((s.wheel c).setTimeout a v) := by
  simp [setTimeout, setWheel, wheel, Wheel.setTimeout]

/-- And so does writing the tick counter. -/
theorem setTicks_eq (v : UInt32) :
    s.setTicks c v = s.setWheel c { s.wheel c with ticks := v } := by
  simp [setTicks, setWheel, wheel]

end Wheel

end State

namespace Code

variable {client : State S → ActorId → ClientStep × State S} {x : Ctx} {s s' : State S}

/-- The code returns `a` when it runs alone in the context `x`. -/
def Runs (client : State S → ActorId → ClientStep × State S) (x : Ctx) {α : Type} (p : Code S α)
    (s : State S) (a : α) (s' : State S) : Prop :=
  Returns (kernel x) (State.answer client) p s a s'

section Rules

variable {α β : Type}

@[simp] theorem runs_pure {a b : α} :
    Runs client x (pure a : Code S α) s b s' ↔ b = a ∧ s' = s := returns_pure

/-- Two pieces of code run one after the other. -/
@[simp] theorem runs_bind {p : Code S α} {g : α → Code S β} {b : β} :
    Runs client x (p >>= g) s b s' ↔ ∃ a s₁, Runs client x p s a s₁ ∧ Runs client x (g a) s₁ b s' :=
  returns_bind

/-- Alone, a context gets every lock at once. -/
@[simp] theorem runs_acquire {l : Lock S} {u : Unit} :
    Runs client x (acquire l) s u s' ↔ s' = s :=
  returns_perform.trans (and_iff_right rfl)

@[simp] theorem runs_release {l : Lock S} {u : Unit} :
    Runs client x (release l) s u s' ↔ s' = s :=
  returns_perform.trans (and_iff_right rfl)

/-- A load finds what the state holds. -/
@[simp] theorem runs_load {f : Field S} {v : f.Val} :
    @Runs S client x (no_index f.Val) (load f) s v s' ↔ v = s.load f ∧ s' = s := returns_perform

/-- A store is seen by all later accesses. -/
@[simp] theorem runs_store {f : Field S} {v : f.Val} {u : Unit} :
    Runs client x (store f v) s u s' ↔ s' = s.store f v :=
  returns_perform.trans (and_iff_right rfl)

@[simp] theorem runs_fifoEmpty {l : ListId S} {b : Bool} :
    Runs client x (fifoEmpty l) s b s' ↔ b = Fifo.empty (s.list l) ∧ s' = s := returns_perform

@[simp] theorem runs_fifoLast {l : ListId S} {y : Option Link} :
    Runs client x (fifoLast l) s y s' ↔ y = Fifo.last (s.list l) ∧ s' = s := returns_perform

/-- An enqueue appends its node. -/
@[simp] theorem runs_fifoEnqueue {l : ListId S} {y : Link} {u : Unit} :
    Runs client x (fifoEnqueue l y) s u s' ↔ s' = s.setList l (Fifo.enqueue (s.list l) y) :=
  returns_perform.trans (and_iff_right rfl)

/-- A dequeue needs a nonempty list, and returns its head. -/
@[simp] theorem runs_fifoDequeue {l : ListId S} {y : Link} :
    Runs client x (fifoDequeue l) s y s' ↔
      ∃ rest, s.list l = y :: rest ∧ s' = s.setList l rest := by
  refine returns_bind.trans ?_
  cases hl : s.list l with
  | nil =>
    have hanswer : s.answer client (.dequeue l) = (none, s) := by rw [State.answer, hl]; rfl
    constructor
    · rintro ⟨o, s₁, hfirst, hlast⟩
      obtain ⟨rfl, -⟩ := returns_perform.mp hfirst
      rw [hanswer] at hlast
      cases (returns_ofOption.mp hlast).1
    · rintro ⟨rest, hrest, -⟩
      cases hrest
  | cons head rest =>
    have hanswer : s.answer client (.dequeue l) = (some head, s.setList l rest) := by
      rw [State.answer, hl]
      rfl
    constructor
    · rintro ⟨o, s₁, hfirst, hlast⟩
      obtain ⟨rfl, rfl⟩ := returns_perform.mp hfirst
      rw [hanswer] at hlast
      obtain ⟨heq, rfl⟩ := returns_ofOption.mp hlast
      exact ⟨rest, by rw [Option.some.inj heq], rfl⟩
    · rintro ⟨rest', heq, rfl⟩
      cases heq
      refine ⟨_, _, returns_perform.mpr ⟨rfl, rfl⟩, ?_⟩
      rw [hanswer]
      exact returns_ofOption.mpr ⟨rfl, rfl⟩

/-- An assertion holds, and changes nothing. -/
@[simp] theorem runs_check {p : Prop} [Decidable p] {u : Unit} :
    Runs client x (Prog.check p : Code S Unit) s u s' ↔ p ∧ s' = s := returns_check

@[simp] theorem runs_ofOption {o : Option α} {a : α} :
    Runs client x (Prog.ofOption o : Code S α) s a s' ↔ o = some a ∧ s' = s := returns_ofOption

@[simp] theorem runs_interruptRequest {cpu : Nat} {vect : Vect} {u : Unit} :
    Runs client x (interruptRequest cpu vect) s u s' ↔ s' = s.setPending cpu vect :=
  returns_perform.trans (and_iff_right rfl)

end Rules

/-- The pop is the one of the section, in one locked piece. -/
theorem runs_queuePop {q : QueueId} {subscriber : Option ActorId}
    {queue : Queue MessageId ActorId} {msg : Option MessageId}
    (h : (s.queue q).pop subscriber = some (queue, msg)) :
    Runs client x (queuePop q subscriber) s msg (s.setQueue q queue) := by
  simp only [queuePop, decLength, runs_bind]
  refine ⟨(), s, by simp, (s.queue q).length, s, by simp [State.load], ?_⟩
  unfold Queue.pop at h
  split at h
  · rename_i hlen
    simp only [Option.bind_eq_bind, Option.pure_def, Option.bind_eq_some_iff, Option.some.injEq,
      Prod.mk.injEq] at h
    obtain ⟨⟨head, rest⟩, hd, m, hm, rfl, rfl⟩ := h
    rw [if_pos hlen]
    simp [State.list, State.setList, State.load, State.store, Fifo.dequeue_eq_some.mp hd,
      Node.entry_of_toMessage hm]
  · rename_i hlen
    rw [if_neg hlen]
    cases subscriber with
    | some a =>
      cases h
      simp [State.list, State.setList, State.load, State.store]
    | none =>
      cases h
      simp [State.setQueue]

/-- `_mg_actor_insert` appends the actor to its run queue. -/
theorem runs_actorInsert {a : ActorId} : Runs client x (actorInsert a) s () (s.actorInsert a) := by
  simp [actorInsert, cpuContext, State.load, State.list, State.setList, Fifo.enqueue,
    State.actorInsert, Node.entry]

/-- The locked section of `mg_queue_push`. -/
def pushSection (q : QueueId) (msg : MessageId) : Code S (Option ActorId) := do
  acquire (.queue q)
  let length ← load (.length q)
  store (.length q) (length + 1)
  let actor ← if length ≥ 0 then do
      fifoEnqueue (.items q) (.message msg)
      pure none
    else do
      let head ← fifoDequeue (.items q)
      let actor := head.entry
      store (.mailbox actor) (some msg)
      pure (some actor)
  release (.queue q)
  return actor

/-- `mg_queue_push` is its locked section, and then an activation if there is an actor. -/
theorem queuePush_eq (q : QueueId) (msg : MessageId) : (queuePush q msg : Code S Unit) =
    pushSection q msg >>= fun actor => actor.elim (pure ()) actorActivate := by
  unfold queuePush pushSection
  simp only [Prog.bind_assoc]
  congr 1
  funext _
  congr 1
  funext length
  congr 1
  funext _
  split
  · rfl
  · simp only [Prog.bind_assoc]
    rfl

/-- A push stores its message, or hands it to a waiting actor. -/
theorem runs_pushSection {q : QueueId} {msg : MessageId} {queue : Queue MessageId ActorId}
    {receiver : Option ActorId} (h : (s.queue q).push msg = some (queue, receiver)) :
    Runs client x (pushSection q msg) s receiver (receiver.elim (s.setQueue q queue)
      fun a => (s.setQueue q queue).setMailbox a (some msg)) := by
  simp only [pushSection, runs_bind]
  refine ⟨(), s, by simp, (s.queue q).length, s, by simp [State.load], (), _,
    runs_store.mpr rfl, ?_⟩
  unfold Queue.push at h
  split at h
  · rename_i hlen
    cases h
    rw [if_pos hlen]
    simp [State.list, State.setList, State.store]
  · rename_i hlen
    simp only [Option.bind_eq_bind, Option.pure_def, Option.bind_eq_some_iff, Option.some.injEq,
      Prod.mk.injEq] at h
    obtain ⟨⟨head, rest⟩, hd, a, ha, rfl, rfl⟩ := h
    rw [if_neg hlen]
    simp [State.list, State.setList, State.store, Fifo.dequeue_eq_some.mp hd,
      Node.entry_of_toActor ha]

/-- The carve of `mg_message_alloc`. -/
def messageCarve (pool : PoolId) : Code S (Option MessageId) := do
  acquire (.queue (.pool pool))
  let available ← load (.arraySpaceAvailable pool)
  let msg ← if available then do
      let array ← load (.array pool)
      let offset ← load (.offset pool)
      let msg := array + offset
      store (.parent msg) (some pool)
      let offset ← load (.offset pool)
      let blockSz ← load (.blockSz pool)
      store (.offset pool) (State.addSize S offset blockSz)
      let offset ← load (.offset pool)
      let blockSz ← load (.blockSz pool)
      let totalLength ← load (.totalLength pool)
      store (.arraySpaceAvailable pool)
        (decide (State.addSize S offset blockSz ≤ totalLength))
      pure (some msg)
    else pure none
  release (.queue (.pool pool))
  pure msg

/-- The pop of `mg_message_alloc`. -/
def messagePop (pool : PoolId) : Option MessageId → Code S (Option MessageId)
  | some msg => return some msg
  | none => queuePop (.pool pool) none

/-- `mg_message_alloc` is its unlocked test, the carve where it succeeds, and the pop. -/
theorem messageAlloc_eq (pool : PoolId) : (messageAlloc pool : Code S _) =
    load (.arraySpaceAvailable pool) >>= fun available =>
      if available then messageCarve pool >>= messagePop pool else messagePop pool none := by
  unfold messageAlloc
  congr 1
  funext available
  cases available with
  | false => rfl
  | true =>
    simp only [if_true, messageCarve, Prog.bind_assoc]
    congr 1
    funext _
    congr 1
    funext available
    cases available <;> rfl

/-- Where there is space left, the carve takes the next block. -/
theorem runs_messageCarve {p : PoolId} (h : (s.pool p).arraySpaceAvailable = true) :
    Runs client x (messageCarve p) s (some ((s.pool p).array + (s.pool p).offset))
      { (s.carve p).1 with held := s.held } := by
  simp [messageCarve, State.load, State.store, h, State.setPool, State.carve]

/-- Where there is none any more, it finds nothing. -/
theorem runs_messageCarve_none {p : PoolId} (h : (s.pool p).arraySpaceAvailable = false) :
    Runs client x (messageCarve p) s none s := by
  simp [messageCarve, State.load, h]

/-- The code selects the queue that the wheel selects. -/
theorem runs_codeDiffMsb {y z : UInt32} {i : Fin S.timerqMax} :
    Runs client x (codeDiffMsb y z : Code S _) s i s' ↔ diffMsb S.timerqMax y z = some i ∧ s' = s :=
  runs_ofOption

/-- `_mg_actor_timeout` is the one of the wheel. -/
theorem runs_actorTimeout {a : ActorId} {w : Wheel S.timerqMax ActorId}
    (h : (s.wheel (S.thisCpu x)).actorTimeout a = some w) :
    Runs client x (actorTimeout x a) s () (s.setWheel (S.thisCpu x) w) := by
  unfold Wheel.actorTimeout at h
  split at h
  · rename_i hrange
    obtain ⟨i, hi, hw⟩ := Option.bind_eq_some_iff.mp h
    cases hw
    simp [actorTimeout, State.load, State.store, runs_codeDiffMsb]
    refine ⟨hrange.1, hrange.2, i, hi, ?_⟩
    rw [State.setList_enqueue, State.setTimeout_eq s (S.thisCpu x), State.wheel_setWheel,
      State.setWheel_setWheel]
    rfl
  · cases h

/-- A section of the loop in `mg_context_tick`: the entry it visits, and the actor to wake. -/
def tickVisit (c : Fin S.cpuMax) (i : Fin S.timerqMax) :
    Code S (Option (Link × Option ActorId)) := do
  let empty ← fifoEmpty (.timerq c i)
  if empty then return none
  else do
    let head ← fifoDequeue (.timerq c i)
    let actor := head.entry
    let timeout ← load (.timeout actor)
    let ticks ← load (.ticks c)
    let actorToWake ← if timeout = ticks then do
        store (.timeout actor) 0
        pure (some actor)
      else do
        let timeout ← load (.timeout actor)
        let ticks ← load (.ticks c)
        let j ← codeDiffMsb timeout ticks
        fifoEnqueue (.timerq c j) (.actor actor)
        pure none
    release (.context c)
    return some (head, actorToWake)

/-- The end of a round of the loop in `mg_context_tick`. -/
def tickWindow (c : Fin S.cpuMax) (i : Fin S.timerqMax) (last : Option Link) (head : Link) :
    Code S Unit := do
  acquire (.context c)
  if some head = last then return () else invoke (.tickLoop c i last)

/-- A round of the loop after its section. -/
def tickRest (c : Fin S.cpuMax) (i : Fin S.timerqMax) (last : Option Link) :
    Option (Link × Option ActorId) → Code S Unit
  | none => pure ()
  | some (head, actorToWake) => do
    actorToWake.elim (pure ()) actorActivate
    tickWindow c i last head

/-- A round of the loop is its section, and what follows it. -/
theorem tickLoop_eq (c : Fin S.cpuMax) (i : Fin S.timerqMax) (last : Option Link) :
    (tickLoop c i last : Code S Unit) = tickVisit c i >>= tickRest c i last := by
  unfold tickLoop tickVisit
  simp only [Prog.bind_assoc]
  congr 1
  funext empty
  cases empty with
  | true => rfl
  | false =>
    simp only [Bool.false_eq_true, if_false, Prog.bind_assoc]
    congr 1
    funext head
    congr 1
    funext timeout
    congr 1
    funext ticks
    split
    · simp only [Prog.bind_assoc]
      rfl
    · simp only [Prog.bind_assoc]
      rfl

/-- A section that finds its queue empty changes nothing. -/
theorem runs_tickVisit_nil {c : Fin S.cpuMax} {i : Fin S.timerqMax} (hq : s.timerq c i = []) :
    Runs client x (tickVisit c i) s none s := by
  simp [tickVisit, State.list, hq]

/-- A section of the loop visits the head of its queue. -/
theorem runs_tickVisit {c : Fin S.cpuMax} {i : Fin S.timerqMax} {head : ActorId}
    {rest : List ActorId} {w : Wheel S.timerqMax ActorId} {wake : Option ActorId}
    {dest : Option (Fin S.timerqMax)} (hq : s.timerq c i = head :: rest)
    (hv : Wheel.Visit (s.wheel c) i head rest w wake dest) :
    Runs client x (tickVisit c i) s (some (.actor head, wake)) (s.setWheel c w) := by
  have hlist : s.list (.timerq c i) = .actor head :: rest.map .actor := by rw [State.list, hq]; rfl
  have hset : s.setList (.timerq c i) (rest.map .actor) =
      s.setWheel c ((s.wheel c).setTimerq i rest) := by
    rw [State.setList, State.setTimerq_eq]
    simp
  simp only [tickVisit, runs_bind]
  refine ⟨false, s, by simp [hlist], ?_⟩
  rw [if_neg (by decide)]
  simp only [runs_bind]
  refine ⟨.actor head, _, runs_fifoDequeue.mpr ⟨_, hlist, rfl⟩, ?_⟩
  rw [hset]
  refine ⟨(s.wheel c).timeout head, _, runs_load.mpr ⟨rfl, rfl⟩, (s.wheel c).ticks, _,
    runs_load.mpr ⟨by simp [State.load, State.setWheel, Wheel.setTimerq], rfl⟩, ?_⟩
  cases hv with
  | wake he =>
    rw [if_pos he]
    simp only [runs_bind]
    refine ⟨(), _, runs_store.mpr rfl, _, _, runs_pure.mpr ⟨rfl, rfl⟩, (), _,
      runs_release.mpr rfl, runs_pure.mpr ⟨rfl, ?_⟩⟩
    rw [State.store, State.setTimeout_eq _ c, State.wheel_setWheel, State.setWheel_setWheel]
    rfl
  | @requeue j hne hj =>
    rw [if_neg hne]
    simp only [runs_bind]
    refine ⟨(s.wheel c).timeout head, _, runs_load.mpr ⟨rfl, rfl⟩, (s.wheel c).ticks, _,
      runs_load.mpr ⟨by simp [State.load, State.setWheel, Wheel.setTimerq], rfl⟩, j, _,
      runs_codeDiffMsb.mpr ⟨hj, rfl⟩, (), _, runs_fifoEnqueue.mpr rfl, _, _,
      runs_pure.mpr ⟨rfl, rfl⟩, (), _, runs_release.mpr rfl, runs_pure.mpr ⟨rfl, ?_⟩⟩
    rw [Node.entry, State.setList_enqueue, State.wheel_setWheel, State.setWheel_setWheel]

/-- Two links of actors are the same exactly if the actors are. -/
theorem link_eq_last {last : Option ActorId} {head : ActorId} :
    some (Node.actor head : Link) = last.map .actor ↔ some head = last := by
  cases last <;> simp

/-- `mg_context_tick` up to its loop, with the locals `i` and `last`. -/
def tickStart (x : Ctx) : Code S (Fin S.timerqMax × Option Link) := do
  let context := S.thisCpu x
  acquire (.context context)
  let oldticks ← load (.ticks context)
  store (.ticks context) (oldticks + 1)
  let ticks ← load (.ticks context)
  let i ← codeDiffMsb oldticks ticks
  let last ← fifoLast (.timerq context i)
  return (i, last)

/-- `mg_context_tick` is its beginning, the loop, and the release of the lock. -/
theorem contextTick_eq (x : Ctx) : (contextTick x : Code S Unit) =
    tickStart x >>= fun locals => invoke (.tickLoop (S.thisCpu x) locals.1 locals.2) >>=
      fun _ => release (.context (S.thisCpu x)) := by
  unfold contextTick tickStart
  simp only [Prog.bind_assoc]
  rfl

/-- The beginning counts the tick, selects a queue, and remembers its last node. -/
theorem runs_tickStart {i : Fin S.timerqMax}
    (h : diffMsb S.timerqMax (s.ticks (S.thisCpu x)) (s.ticks (S.thisCpu x) + 1) = some i) :
    Runs client x (tickStart x) s (i, (Fifo.last (s.timerq (S.thisCpu x) i)).map .actor)
      (s.setWheel (S.thisCpu x)
        { s.wheel (S.thisCpu x) with ticks := s.ticks (S.thisCpu x) + 1 }) := by
  have hlast : Fifo.last (s.list (.timerq (S.thisCpu x) i)) =
      (Fifo.last (s.timerq (S.thisCpu x) i)).map .actor := by
    simp [State.list, Fifo.last]
  simp only [tickStart, runs_bind]
  refine ⟨(), _, runs_acquire.mpr rfl, s.ticks _, _, runs_load.mpr ⟨rfl, rfl⟩, (), _,
    runs_store.mpr rfl, s.ticks _ + 1, _, runs_load.mpr ⟨?_, rfl⟩, i, _,
    runs_codeDiffMsb.mpr ⟨h, rfl⟩, _, _, runs_fifoLast.mpr ⟨hlast.symm, rfl⟩,
    runs_pure.mpr ⟨rfl, ?_⟩⟩
  · simp [State.store, State.setTicks, State.load]
  · rw [State.store, State.setTicks_eq]

/-- `_mg_context_pop_head` of a nonempty run queue. -/
theorem runs_contextPopHead {vect : Vect} {a : ActorId} {rest : List ActorId}
    (hprio : S.vect2prio vect < S.prioMax)
    (h : Fifo.dequeue (s.runq (S.thisCpu x) (S.vect2prio vect)) = some (a, rest)) :
    Runs client x (contextPopHead x vect) s (some a, Fifo.empty rest)
      (s.setRunq (S.thisCpu x) (S.vect2prio vect) rest) := by
  have hq := Fifo.dequeue_eq_some.mp h
  simp only [contextPopHead, runs_bind]
  refine ⟨(), s, runs_check.mpr ⟨hprio, rfl⟩, (), s, runs_acquire.mpr rfl, false, s,
    runs_fifoEmpty.mpr ⟨by simp [State.list, hq], rfl⟩, ?_⟩
  simp [State.list, State.setList, State.setRunq, hq, Node.entry, Fifo.empty]

end Code

end Magnesium
