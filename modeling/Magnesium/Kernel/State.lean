import Magnesium.Kernel.Queue
import Magnesium.Timer.Wheel

/-!
# The state of the kernel

The memory of the kernel together with the program counter of every context: an interrupt
handler, a nested one, or `main`, on any CPU. An actor's function is the client's: it is entered,
and returns what the client chooses; the operations it calls in between are activities of other
contexts.
-/

namespace Magnesium

/-- The address of an actor. -/
abbrev ActorId := Nat

/-- The address of a message header. -/
abbrev MessageId := Nat

/-- An interrupt vector. -/
abbrev Vect := Nat

/-- A context of execution. -/
abbrev Ctx := Nat

/-- A message pool. -/
abbrev PoolId := Nat

/-- The address of a queue; the first member of a pool is one. -/
inductive QueueId where
  | queue (n : Nat)
  | pool (p : PoolId)
  deriving DecidableEq

/-- `mg_message_pool_t` without its queue. -/
structure Pool where
  array : Nat
  totalLength : Nat
  blockSz : Nat
  offset : Nat
  arraySpaceAvailable : Bool

/-- `mg_message_pool_init` with `sizeof(struct mg_message_t)`; the queue is initialised apart. -/
def messagePoolInit (messageSize mem totalLen blockSz : Nat) : Option Pool :=
  if totalLen ≥ blockSz ∧ blockSz ≥ messageSize then
    some {
      array := mem
      totalLength := totalLen
      blockSz := blockSz
      offset := 0
      arraySpaceAvailable := true }
  else none

/-- The port and what the program has set up before the first actor runs. -/
structure Setup where
  /-- `MG_CPU_MAX`. -/
  cpuMax : Nat
  cpuMax_pos : 0 < cpuMax
  /-- `MG_PRIO_MAX`. -/
  prioMax : Nat
  /-- `MG_TIMERQ_MAX`. -/
  timerqMax : Nat
  timerqMax_pos : 0 < timerqMax
  /-- `pic_vect2prio`. -/
  vect2prio : Vect → Nat
  /-- `mg_cpu_this` in each context. -/
  thisCpu : Ctx → Fin cpuMax
  /-- `SIZE_MAX`. -/
  sizeMax : Nat
  /-- `sizeof(struct mg_message_t)`. -/
  messageSize : Nat
  messageSize_pos : 0 < messageSize
  /-- The initialised pools. -/
  pool : PoolId → Pool
  accepted : ∀ p, ∃ mem totalLen blockSz,
    messagePoolInit messageSize mem totalLen blockSz = some (pool p) ∧ totalLen ≤ sizeMax / 2
  /-- The memories of two pools are two objects. -/
  disjoint : ∀ p p', p ≠ p' → (pool p).array + (pool p).totalLength ≤ (pool p').array ∨
    (pool p').array + (pool p').totalLength ≤ (pool p).array
  /-- The messages that are not in the memory of a pool. -/
  statics : List MessageId
  statics_nodup : statics.Nodup
  statics_outside : ∀ m ∈ statics, ∀ p,
    ¬ ((pool p).array ≤ m ∧ m < (pool p).array + (pool p).totalLength)

instance (S : Setup) : NeZero S.cpuMax := ⟨Nat.ne_of_gt S.cpuMax_pos⟩

instance (S : Setup) : NeZero S.timerqMax := ⟨Nat.ne_of_gt S.timerqMax_pos⟩

/-- Who called `mg_actor_call`. -/
inductive Caller where
  | schedule (vect : Vect)
  | init
  deriving DecidableEq

/-- Who called `_mg_actor_activate`; the tick with its locals `i`, `last` and `head`. -/
inductive Activator (S : Setup) where
  | push
  | tick (i : Fin S.timerqMax) (last : Option ActorId) (head : ActorId)
  deriving DecidableEq

/-- Where a context stands: before a locked section, before an access to an actor's field outside
of any lock, in an actor's function, or in no kernel operation. -/
inductive Pc (S : Setup) where
  | idle
  /-- `mg_context_schedule`, before `_mg_context_pop_head`. -/
  | schedule (vect : Vect)
  /-- `mg_actor_call`, before `actor->func(actor, actor->mailbox)`. -/
  | call (a : ActorId) (caller : Caller)
  /-- In `actor->func`. -/
  | inFunc (a : ActorId) (caller : Caller)
  /-- Before `mg_queue_pop(q, actor)`. -/
  | subscribe (a : ActorId) (q : QueueId) (caller : Caller)
  /-- Before the store of the pop's result into `actor->mailbox`. -/
  | store (a : ActorId) (msg : Option MessageId) (caller : Caller)
  /-- Before the test of `actor->mailbox`; the pop's result is not read any more. -/
  | test (a : ActorId) (msg : Option MessageId) (caller : Caller)
  /-- Before `actor->mailbox = 0`. -/
  | suspend (a : ActorId) (caller : Caller)
  /-- Before the test of `actor->timeout`. -/
  | delay (a : ActorId) (caller : Caller)
  /-- Before `_mg_actor_timeout`. -/
  | sleep (a : ActorId) (caller : Caller)
  /-- Before the `_mg_actor_insert` of a suspended actor. -/
  | yield (a : ActorId) (caller : Caller)
  /-- `mg_actor_init`, before `mg_queue_pop(q, actor)`. -/
  | initPop (a : ActorId) (q : QueueId)
  /-- `_mg_actor_activate`, before `_mg_actor_insert`. -/
  | insert (a : ActorId) (activator : Activator S)
  /-- `_mg_actor_activate`, before `pic_interrupt_request`. -/
  | request (a : ActorId) (activator : Activator S)
  /-- `mg_context_tick`, before it takes the lock again. -/
  | tick (i : Fin S.timerqMax) (last : Option ActorId) (head : ActorId)
  /-- `mg_message_alloc`, before the locked carve. -/
  | allocCarve (p : PoolId)
  /-- `mg_message_alloc`, before the locked pop. -/
  | allocPop (p : PoolId)
  deriving DecidableEq

/-- Return from `mg_actor_call`. -/
def Caller.resume {S : Setup} : Caller → Pc S
  | .schedule vect => .schedule vect
  | .init => .idle

/-- Return from `_mg_actor_activate`. -/
def Activator.resume {S : Setup} : Activator S → Pc S
  | .push => .idle
  | .tick i last head => .tick i last head

/-- The memory, the interrupt controller and the contexts. `held` lists the messages in the
hands of clients. -/
structure State (S : Setup) where
  /-- `g_mg_context.per_cpu_data[cpu].runq[prio]`. -/
  runq : Fin S.cpuMax → Nat → List ActorId
  /-- `g_mg_context.per_cpu_data[cpu].timerq[i]`. -/
  timerq : Fin S.cpuMax → Fin S.timerqMax → List ActorId
  /-- `g_mg_context.per_cpu_data[cpu].ticks`. -/
  ticks : Fin S.cpuMax → UInt32
  /-- `actor->func` is set. -/
  func : ActorId → Bool
  /-- `actor->vect`. -/
  vect : ActorId → Vect
  /-- `actor->cpu`. -/
  cpu : ActorId → Fin S.cpuMax
  /-- `actor->prio`. -/
  prio : ActorId → Nat
  /-- `actor->timeout`. -/
  timeout : ActorId → UInt32
  /-- `actor->mailbox`. -/
  mailbox : ActorId → Option MessageId
  queue : QueueId → Queue MessageId ActorId
  pool : PoolId → Pool
  /-- `msg->parent`. -/
  parent : MessageId → Option PoolId
  /-- The vectors requested on a CPU whose handlers have not started. -/
  pending : Fin S.cpuMax → Vect → Bool
  pc : Ctx → Pc S
  held : List MessageId

namespace State

variable {S : Setup}

/-- After `mg_context_init` and the initialisation of queues and pools. -/
def boot (S : Setup) : State S where
  runq _ _ := []
  timerq _ _ := []
  ticks _ := 0
  func _ := false
  vect _ := 0
  cpu _ := 0
  prio _ := 0
  timeout _ := 0
  mailbox _ := none
  queue _ := Queue.init
  pool := S.pool
  parent _ := none
  pending _ _ := false
  pc _ := .idle
  held := S.statics

/-- The timer queues of a CPU. -/
def wheel (s : State S) (c : Fin S.cpuMax) : Wheel S.timerqMax ActorId where
  timerq := s.timerq c
  ticks := s.ticks c
  timeout := s.timeout

/-- Write the timer queues of a CPU back. -/
def setWheel (s : State S) (c : Fin S.cpuMax) (w : Wheel S.timerqMax ActorId) : State S :=
  { s with
    timerq := Function.update s.timerq c w.timerq
    ticks := Function.update s.ticks c w.ticks
    timeout := w.timeout }

/-- Replace one queue. -/
def setQueue (s : State S) (q : QueueId) (queue : Queue MessageId ActorId) : State S :=
  { s with queue := Function.update s.queue q queue }

/-- Replace one run queue. -/
def setRunq (s : State S) (c : Fin S.cpuMax) (p : Nat) (runq : List ActorId) : State S :=
  { s with runq := Function.update s.runq c (Function.update (s.runq c) p runq) }

/-- Write the field `mailbox` of one actor. -/
def setMailbox (s : State S) (a : ActorId) (msg : Option MessageId) : State S :=
  { s with mailbox := Function.update s.mailbox a msg }

/-- Move one context. -/
def setPc (s : State S) (x : Ctx) (pc : Pc S) : State S :=
  { s with pc := Function.update s.pc x pc }

end State

end Magnesium
