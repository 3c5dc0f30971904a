import Magnesium.Kernel.State

/-!
# The sections of the kernel

Each definition is what one context does between two points where others may run: one locked
section, or one access outside of any lock. `none` is a failed assertion, a wrong cast, or an
action the context cannot make where it stands.
-/

namespace Magnesium

/-- What an actor's function returns: a queue, or the result of `mg_sleep_for`. -/
inductive Returned where
  | queue (q : QueueId)
  | sleep (delay : UInt32)
  deriving DecidableEq

/-- What a section did, as far as clients and schedulers can tell. -/
inductive Event (S : Setup) where
  /-- `mg_actor_init` has set the fields of the actor. -/
  | init (a : ActorId) (q : Option QueueId)
  /-- `mg_queue_push` stored the message, or handed it to a waiting actor. -/
  | push (q : QueueId) (m : MessageId) (receiver : Option ActorId)
  /-- `mg_queue_pop(q, NULL)` returned. -/
  | poll (q : QueueId) (msg : Option MessageId)
  /-- `mg_queue_pop(q, actor)` found a message for a running actor. -/
  | take (a : ActorId) (q : QueueId) (m : MessageId)
  /-- `actor->func` is called. -/
  | call (a : ActorId) (msg : Option MessageId)
  /-- `actor->func` returns. -/
  | ret (a : ActorId) (r : Returned)
  /-- `_mg_actor_activate` inserts the actor in a run queue. -/
  | insert (c : Fin S.cpuMax) (p : Nat) (a : ActorId)
  /-- `mg_actor_call` inserts the actor in a run queue. -/
  | yield (c : Fin S.cpuMax) (p : Nat) (a : ActorId)
  /-- `mg_context_schedule` takes the actor out of a run queue. -/
  | dispatch (c : Fin S.cpuMax) (p : Nat) (a : ActorId)
  /-- `mg_message_alloc` returns. -/
  | alloc (p : PoolId) (msg : Option MessageId)
  deriving DecidableEq

/-- What a context can do: take its next step, or, in client code, call an operation, return
from an actor's function, or change `actor->cpu`. A vector can also start its handler. -/
inductive Action (S : Setup) where
  | next
  | push (q : QueueId) (m : MessageId)
  | free (m : MessageId)
  | poll (q : QueueId)
  | alloc (p : PoolId)
  | tick
  | start (vect : Vect)
  | init (a : ActorId) (vect : Vect) (q : Option QueueId)
  | ret (r : Returned)
  | setCpu (a : ActorId) (c : Fin S.cpuMax)

/-- The state a section leaves, where its context stands then, and what the section did. -/
abbrev Outcome (S : Setup) := State S × Pc S × List (Event S)

namespace State

variable {S : Setup}

/-- The locked section of `mg_queue_push`. -/
def push (s : State S) (q : QueueId) (m : MessageId) : Option (Outcome S) := do
  let (queue, receiver) ← (s.queue q).push m
  let s := { s.setQueue q queue with held := s.held.erase m }
  match receiver with
  | none => return (s, .idle, [.push q m none])
  | some a => return (s.setMailbox a (some m), .insert a .push, [.push q m (some a)])

/-- `mg_message_free`. -/
def free (s : State S) (m : MessageId) : Option (Outcome S) := do
  let p ← s.parent m
  s.push (.pool p) m

/-- `mg_queue_pop(q, NULL)`. -/
def poll (s : State S) (q : QueueId) : Option (Outcome S) := do
  let (queue, msg) ← (s.queue q).pop none
  return ({ s.setQueue q queue with held := msg.toList ++ s.held }, .idle, [.poll q msg])

/-- `mg_message_alloc` up to its unlocked test of `array_space_available`. -/
def alloc (s : State S) (p : PoolId) : Outcome S :=
  (s, if (s.pool p).arraySpaceAvailable then .allocCarve p else .allocPop p, [])

/-- The addition of two values of type `size_t`. -/
def addSize (S : Setup) (x y : Nat) : Nat := (x + y) % (S.sizeMax + 1)

/-- The locked section of `mg_message_alloc`. -/
def carve (s : State S) (p : PoolId) : Outcome S :=
  let pool := s.pool p
  if pool.arraySpaceAvailable then
    let msg := pool.array + pool.offset
    let offset := addSize S pool.offset pool.blockSz
    let available := decide (addSize S offset pool.blockSz ≤ pool.totalLength)
    ({ s with
        pool := Function.update s.pool p
          { pool with offset := offset, arraySpaceAvailable := available }
        parent := Function.update s.parent msg (some p)
        held := msg :: s.held },
      .idle, [.alloc p (some msg)])
  else (s, .allocPop p, [])

/-- The call of `mg_queue_pop` in `mg_message_alloc`. -/
def allocPop (s : State S) (p : PoolId) : Option (Outcome S) := do
  let (queue, msg) ← (s.queue (.pool p)).pop none
  return ({ s.setQueue (.pool p) queue with held := msg.toList ++ s.held }, .idle,
    [.poll (.pool p) msg, .alloc p msg])

/-- Where a section of `mg_context_tick` leaves its context. -/
def tickPc : TickPc S.timerqMax ActorId → Pc S
  | .done => .idle
  | .window i last head none => .tick i last head
  | .window i last head (some a) => .insert a (.tick i last head)

/-- The first section of `mg_context_tick`. -/
def tickBegin (s : State S) (x : Ctx) : Option (Outcome S) := do
  let c := S.thisCpu x
  let (w, pc) ← (s.wheel c).tickBegin
  return (s.setWheel c w, tickPc pc, [])

/-- The section of `mg_context_tick` after a window. -/
def tickResume (s : State S) (x : Ctx) (i : Fin S.timerqMax) (last : Option ActorId)
    (head : ActorId) : Option (Outcome S) := do
  let c := S.thisCpu x
  let (w, pc) ← (s.wheel c).tickResume i last head
  return (s.setWheel c w, tickPc pc, [])

/-- A vector starts its handler, `mg_context_schedule(vect)`. -/
def start (s : State S) (x : Ctx) (vect : Vect) : Outcome S :=
  let c := S.thisCpu x
  ({ s with
      pending := Function.update s.pending c (Function.update (s.pending c) vect false) },
    .schedule vect, [])

/-- `mg_actor_init` up to its pop, or up to its call of the function. -/
def actorInit (s : State S) (x : Ctx) (a : ActorId) (vect : Vect) (q : Option QueueId) :
    Option (Outcome S) :=
  let prio := S.vect2prio vect
  if prio < S.prioMax then
    let s := { s with
      prio := Function.update s.prio a prio
      func := Function.update s.func a true
      vect := Function.update s.vect a vect
      cpu := Function.update s.cpu a (S.thisCpu x)
      timeout := Function.update s.timeout a 0
      mailbox := Function.update s.mailbox a none }
    match q with
    | some q => some (s, .initPop a q, [.init a (some q)])
    | none => some (s, .call a .init, [.init a none])
  else none

/-- The pop of `mg_actor_init`, which asserts that it finds no message. -/
def initPop (s : State S) (a : ActorId) (q : QueueId) : Option (Outcome S) := do
  let (queue, msg) ← (s.queue q).pop (some a)
  match msg with
  | none => return (s.setQueue q queue, .idle, [])
  | some _ => none

/-- `_mg_context_pop_head`; `mg_context_schedule` returns when it finds nothing. -/
def popHead (s : State S) (x : Ctx) (vect : Vect) : Option (Outcome S) :=
  let c := S.thisCpu x
  let prio := S.vect2prio vect
  if prio < S.prioMax then
    if Fifo.empty (s.runq c prio) then some (s, .idle, [])
    else do
      let (a, rest) ← Fifo.dequeue (s.runq c prio)
      return (s.setRunq c prio rest, .call a (.schedule vect), [.dispatch c prio a])
  else none

/-- `mg_actor_call` calls the function with the content of the mailbox. -/
def call (s : State S) (a : ActorId) (caller : Caller) : Outcome S :=
  ({ s with held := (s.mailbox a).toList ++ s.held }, .inFunc a caller, [.call a (s.mailbox a)])

/-- The function returns; `mg_sleep_for` has set `timeout`. -/
def ret (s : State S) (a : ActorId) (caller : Caller) (r : Returned) : Outcome S :=
  match r with
  | .queue q => (s, .subscribe a q caller, [.ret a r])
  | .sleep delay =>
    ({ s with timeout := Function.update s.timeout a delay }, .suspend a caller, [.ret a r])

/-- The pop of `mg_actor_call`. -/
def subscribe (s : State S) (a : ActorId) (q : QueueId) (caller : Caller) :
    Option (Outcome S) := do
  let (queue, msg) ← (s.queue q).pop (some a)
  return (s.setQueue q queue, .store a msg caller, (msg.map (.take a q)).toList)

/-- The loop condition of `mg_actor_call`. -/
def test (s : State S) (a : ActorId) (caller : Caller) : Outcome S :=
  (s, if s.mailbox a ≠ none then .call a caller else caller.resume, [])

/-- The test of `timeout` in `mg_actor_call`. -/
def delay (s : State S) (a : ActorId) (caller : Caller) : Outcome S :=
  (s, if s.timeout a ≠ 0 then .sleep a caller else .yield a caller, [])

/-- `_mg_actor_timeout`. -/
def sleep (s : State S) (x : Ctx) (a : ActorId) (caller : Caller) : Option (Outcome S) := do
  let c := S.thisCpu x
  let w ← (s.wheel c).actorTimeout a
  return (s.setWheel c w, caller.resume, [])

/-- `_mg_actor_insert`. -/
def actorInsert (s : State S) (a : ActorId) : State S :=
  s.setRunq (s.cpu a) (s.prio a) (Fifo.enqueue (s.runq (s.cpu a) (s.prio a)) a)

/-- `pic_interrupt_request` of `_mg_actor_activate`. -/
def interruptRequest (s : State S) (a : ActorId) : State S :=
  { s with
    pending := Function.update s.pending (s.cpu a)
      (Function.update (s.pending (s.cpu a)) (s.vect a) true) }

/-- What a context outside of any kernel operation can begin. -/
def begin (s : State S) (x : Ctx) : Action S → Option (Outcome S)
  | .push q m => s.push q m
  | .free m => s.free m
  | .poll q => s.poll q
  | .alloc p => some (s.alloc p)
  | .tick => s.tickBegin x
  | .start vect => some (s.start x vect)
  | .init a vect q => s.actorInit x a vect q
  | .setCpu a c => some ({ s with cpu := Function.update s.cpu a c }, .idle, [])
  | .next | .ret _ => none

/-- What a context inside a kernel operation does next. -/
def proceed (s : State S) (x : Ctx) : Pc S → Option (Outcome S)
  | .schedule vect => s.popHead x vect
  | .call a caller => some (s.call a caller)
  | .subscribe a q caller => s.subscribe a q caller
  | .store a msg caller => some (s.setMailbox a msg, .test a msg caller, [])
  | .test a _ caller => some (s.test a caller)
  | .suspend a caller => some (s.setMailbox a none, .delay a caller, [])
  | .delay a caller => some (s.delay a caller)
  | .sleep a caller => s.sleep x a caller
  | .yield a caller => some (s.actorInsert a, caller.resume, [.yield (s.cpu a) (s.prio a) a])
  | .initPop a q => s.initPop a q
  | .insert a activator =>
    some (s.actorInsert a, .request a activator, [.insert (s.cpu a) (s.prio a) a])
  | .request a activator => some (s.interruptRequest a, activator.resume, [])
  | .tick i last head => s.tickResume x i last head
  | .allocCarve p => some (s.carve p)
  | .allocPop p => s.allocPop p
  | .idle | .inFunc _ _ => none

/-- One step of one context. -/
def advance (s : State S) (x : Ctx) : Pc S → Action S → Option (Outcome S)
  | .idle, act => s.begin x act
  | .inFunc a caller, .ret r => some (s.ret a caller r)
  | pc, .next => s.proceed x pc
  | _, _ => none

/-- The state after one step of one context, and what the step did. -/
def step (s : State S) (x : Ctx) (act : Action S) : Option (State S × List (Event S)) := do
  let (s, pc, es) ← s.advance x (s.pc x) act
  return (s.setPc x pc, es)

end State

end Magnesium
