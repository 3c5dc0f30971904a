import Magnesium.Core.Procedure
import Magnesium.Kernel.Step

/-!
# The functions of the kernel, access by access

Every function as the sequence of its operations on locks, lists and fields, of its calls of
actors' functions and of `pic_interrupt_request`. What an access finds is left to the world: other
contexts may run between any two accesses. Locals and arguments are in registers. A program stops
at a failed assertion and at a null pointer.
-/

namespace Magnesium

open Procedure

/-- `mg_smp_protect_t` of a queue or of a CPU. -/
inductive Lock (S : Setup) where
  | queue (q : QueueId)
  | context (c : Fin S.cpuMax)
  deriving DecidableEq

/-- The lists of the kernel. -/
inductive ListId (S : Setup) where
  | items (q : QueueId)
  | runq (c : Fin S.cpuMax) (prio : Nat)
  | timerq (c : Fin S.cpuMax) (i : Fin S.timerqMax)
  deriving DecidableEq

/-- The fields of the kernel's structures that it reads and writes. -/
inductive Field (S : Setup) where
  | func (a : ActorId)
  | vect (a : ActorId)
  | cpu (a : ActorId)
  | prio (a : ActorId)
  | timeout (a : ActorId)
  | mailbox (a : ActorId)
  | length (q : QueueId)
  | array (p : PoolId)
  | totalLength (p : PoolId)
  | blockSz (p : PoolId)
  | offset (p : PoolId)
  | arraySpaceAvailable (p : PoolId)
  | parent (m : MessageId)
  | ticks (c : Fin S.cpuMax)
  deriving DecidableEq

/-- The type of a field. -/
abbrev Field.Val {S : Setup} : Field S → Type
  | .func _ | .arraySpaceAvailable _ => Bool
  | .timeout _ | .ticks _ => UInt32
  | .mailbox _ => Option MessageId
  | .length _ => Int
  | .parent _ => Option PoolId
  | _ => Nat

/-- What a node of a list is the link of. -/
abbrev Link := Node MessageId ActorId

/-- `mg_fifo_entry`, which does not check of what kind the node is. -/
def Node.entry : Link → Nat
  | .message m => m
  | .actor a => a

/-- The value of an actor's function. -/
inductive QueuePtr where
  | null
  /-- `MG_ACTOR_SUSPEND`. -/
  | suspend
  | queue (q : QueueId)
  deriving DecidableEq

/-- The operations of the kernel that programs call. -/
inductive Operation where
  | queuePush (q : QueueId) (msg : MessageId)
  | queuePop (q : QueueId) (subscriber : Option ActorId)
  | messageAlloc (p : PoolId)
  | messageFree (msg : MessageId)
  | contextTick
  | actorInit (a : ActorId) (func : Bool) (vect : Vect) (q : Option QueueId)
  | contextSchedule (vect : Vect)
  deriving DecidableEq

abbrev Operation.Result : Operation → Type
  | .queuePop _ _ | .messageAlloc _ => Option MessageId
  | _ => Unit

/-- What an actor's function does next. -/
inductive ClientStep where
  | call (op : Operation)
  /-- `return mg_sleep_for(delay, self)`. -/
  | sleepFor (delay : UInt32)
  | ret (q : QueuePtr)

/-- One access. -/
inductive Access (S : Setup) where
  | acquire (l : Lock S)
  | release (l : Lock S)
  | load (f : Field S)
  | store (f : Field S) (v : f.Val)
  /-- `mg_fifo_empty`. -/
  | empty (l : ListId S)
  /-- `mg_fifo_last`, or nothing if that is the dummy. -/
  | last (l : ListId S)
  /-- `mg_fifo_enqueue`. -/
  | enqueue (l : ListId S) (node : Link)
  /-- `mg_fifo_dequeue`. -/
  | dequeue (l : ListId S)
  /-- `pic_interrupt_request`. -/
  | request (cpu : Nat) (vect : Vect)
  /-- The call of `actor->func`. -/
  | func (a : ActorId) (msg : Option MessageId)
  /-- The function of the actor goes on. -/
  | client (a : ActorId)

abbrev Access.Answer {S : Setup} : Access S → Type
  | .load f => f.Val
  | .empty _ => Bool
  | .last _ => Option Link
  | .dequeue _ => Option Link
  | .client _ => ClientStep
  | _ => Unit

/-- The procedures: the operations, the loops, and actors' functions. -/
inductive Proc (S : Setup) where
  | op (op : Operation)
  /-- The loop of `mg_context_tick`. -/
  | tickLoop (c : Fin S.cpuMax) (i : Fin S.timerqMax) (last : Option Link)
  /-- `mg_actor_call`. -/
  | actorCall (a : ActorId)
  /-- The rest of the function of an actor. -/
  | running (a : ActorId)

abbrev Proc.Result {S : Setup} : Proc S → Type
  | .op o => o.Result
  | .running _ => QueuePtr
  | _ => Unit

/-- The accesses and the procedures of the kernel. -/
abbrev kernelInterface (S : Setup) : Interface where
  Access := Access S
  Answer := Access.Answer
  Proc := Proc S
  Result := Proc.Result

/-- A piece of the kernel's code. -/
abbrev Code (S : Setup) := Prog (kernelInterface S)

namespace Code

variable {S : Setup}

section Accesses

def perform (e : Access S) : Code S e.Answer := Prog.perform (I := kernelInterface S) e

def invoke (f : Proc S) : Code S f.Result := Prog.invoke (I := kernelInterface S) f

/-- `mg_smp_protect_acquire`. -/
def acquire (l : Lock S) : Code S Unit := perform (.acquire l)

/-- `mg_smp_protect_release`. -/
def release (l : Lock S) : Code S Unit := perform (.release l)

def load (f : Field S) : Code S f.Val := perform (.load f)

def store (f : Field S) (v : f.Val) : Code S Unit := perform (.store f v)

def fifoEmpty (l : ListId S) : Code S Bool := perform (.empty l)

def fifoLast (l : ListId S) : Code S (Option Link) := perform (.last l)

def fifoEnqueue (l : ListId S) (node : Link) : Code S Unit := perform (.enqueue l node)

def fifoDequeue (l : ListId S) : Code S Link := do
  let head ← perform (.dequeue l)
  Prog.ofOption head

def interruptRequest (cpu : Nat) (vect : Vect) : Code S Unit := perform (.request cpu vect)

/-- `MG_CPU_CONTEXT(cpu)`. -/
def cpuContext (cpu : Nat) : Code S (Fin S.cpuMax) :=
  Prog.ofOption (if h : cpu < S.cpuMax then some ⟨cpu, h⟩ else none)

end Accesses

/-- `_mg_actor_insert`. -/
def actorInsert (actor : ActorId) : Code S Unit := do
  let cpu ← load (.cpu actor)
  Prog.check (cpu < S.cpuMax)
  let cpu ← load (.cpu actor)
  let context ← cpuContext cpu
  acquire (.context context)
  let prio ← load (.prio actor)
  fifoEnqueue (.runq context prio) (.actor actor)
  release (.context context)

/-- `_mg_actor_activate`. -/
def actorActivate (actor : ActorId) : Code S Unit := do
  actorInsert actor
  let cpu ← load (.cpu actor)
  let vect ← load (.vect actor)
  interruptRequest cpu vect

/-- `--q->length`. -/
def decLength (q : QueueId) : Code S Unit := do
  let length ← load (.length q)
  store (.length q) (length - 1)

/-- `mg_queue_pop`. -/
def queuePop (q : QueueId) (subscriber : Option ActorId) : Code S (Option MessageId) := do
  acquire (.queue q)
  let length ← load (.length q)
  let msg ← if length > 0 then do
      let head ← fifoDequeue (.items q)
      decLength q
      pure (some head.entry)
    else match subscriber with
      | some subscriber => do
        fifoEnqueue (.items q) (.actor subscriber)
        decLength q
        pure none
      | none => pure none
  release (.queue q)
  return msg

/-- `mg_queue_push`. -/
def queuePush (q : QueueId) (msg : MessageId) : Code S Unit := do
  acquire (.queue q)
  let length ← load (.length q)
  store (.length q) (length + 1)
  let actor ← if length ≥ 0 then do
      fifoEnqueue (.items q) (.message msg)
      pure none
    else do
      let head ← fifoDequeue (.items q)
      let actor := head.entry
      store (.mailbox actor) (some msg)
      pure (some actor)
  release (.queue q)
  match actor with
  | some actor => actorActivate actor
  | none => return ()

/-- `mg_message_alloc`. -/
def messageAlloc (pool : PoolId) : Code S (Option MessageId) := do
  let available ← load (.arraySpaceAvailable pool)
  let msg ← if available then do
      acquire (.queue (.pool pool))
      let available ← load (.arraySpaceAvailable pool)
      let msg ← if available then do
          let array ← load (.array pool)
          let offset ← load (.offset pool)
          let msg := array + offset
          store (.parent msg) (some pool)
          let offset ← load (.offset pool)
          let blockSz ← load (.blockSz pool)
          store (.offset pool) (State.addSize S offset blockSz)
          let offset ← load (.offset pool)
          let blockSz ← load (.blockSz pool)
          let totalLength ← load (.totalLength pool)
          store (.arraySpaceAvailable pool)
            (decide (State.addSize S offset blockSz ≤ totalLength))
          pure (some msg)
        else pure none
      release (.queue (.pool pool))
      pure msg
    else pure none
  match msg with
  | some msg => return some msg
  | none => queuePop (.pool pool) none

/-- `mg_message_free`. -/
def messageFree (msg : MessageId) : Code S Unit := do
  let parent ← load (.parent msg)
  let pool ← Prog.ofOption parent
  queuePush (.pool pool) msg

/-- `_mg_diff_msb`. -/
def codeDiffMsb (x y : UInt32) : Code S (Fin S.timerqMax) := Prog.ofOption (diffMsb S.timerqMax x y)

/-- `mg_context_tick` of the context `x`. -/
def contextTick (x : Ctx) : Code S Unit := do
  let context := S.thisCpu x
  acquire (.context context)
  let oldticks ← load (.ticks context)
  store (.ticks context) (oldticks + 1)
  let ticks ← load (.ticks context)
  let i ← codeDiffMsb oldticks ticks
  let last ← fifoLast (.timerq context i)
  invoke (.tickLoop context i last)
  release (.context context)

/-- One round of the loop of `mg_context_tick`. -/
def tickLoop (context : Fin S.cpuMax) (i : Fin S.timerqMax) (last : Option Link) :
    Code S Unit := do
  let empty ← fifoEmpty (.timerq context i)
  if empty then return ()
  else do
    let head ← fifoDequeue (.timerq context i)
    let actor := head.entry
    let timeout ← load (.timeout actor)
    let ticks ← load (.ticks context)
    let actorToWake ← if timeout = ticks then do
        store (.timeout actor) 0
        pure (some actor)
      else do
        let timeout ← load (.timeout actor)
        let ticks ← load (.ticks context)
        let j ← codeDiffMsb timeout ticks
        fifoEnqueue (.timerq context j) (.actor actor)
        pure none
    release (.context context)
    match actorToWake with
    | some actor => actorActivate actor
    | none => pure ()
    acquire (.context context)
    if some head = last then return ()
    else invoke (.tickLoop context i last)

/-- `_mg_actor_timeout` in the context `x`. -/
def actorTimeout (x : Ctx) (actor : ActorId) : Code S Unit := do
  let timeout ← load (.timeout actor)
  Prog.check (timeout ≠ 0)
  let timeout ← load (.timeout actor)
  Prog.check (timeout < int32Max)
  let context := S.thisCpu x
  acquire (.context context)
  let timeout ← load (.timeout actor)
  let ticks ← load (.ticks context)
  store (.timeout actor) (timeout + ticks)
  let ticks ← load (.ticks context)
  let timeout ← load (.timeout actor)
  let i ← codeDiffMsb ticks timeout
  fifoEnqueue (.timerq context i) (.actor actor)
  release (.context context)

/-- `mg_sleep_for`. -/
def sleepFor (delay : UInt32) (self : ActorId) : Code S QueuePtr := do
  store (.timeout self) delay
  return .suspend

/-- The rest of the function of an actor: any operations with any arguments, then any value. -/
def running (actor : ActorId) : Code S QueuePtr := do
  let next ← perform (.client actor)
  match next with
  | .call op => do
    let _ ← invoke (.op op)
    invoke (.running actor)
  | .sleepFor delay => sleepFor delay actor
  | .ret q => return q

/-- One round of the loop of `mg_actor_call` in the context `x`. -/
def actorCall (x : Ctx) (actor : ActorId) : Code S Unit := do
  let msg ← load (.mailbox actor)
  perform (.func actor msg)
  let q ← invoke (.running actor)
  match q with
  | .null => .abort
  | .suspend => do
    store (.mailbox actor) none
    let timeout ← load (.timeout actor)
    if timeout ≠ 0 then actorTimeout x actor else actorInsert actor
  | .queue q => do
    let msg ← queuePop q (some actor)
    store (.mailbox actor) msg
    let msg ← load (.mailbox actor)
    if msg ≠ none then invoke (.actorCall actor) else return ()

/-- `mg_actor_init` in the context `x`; `func` is whether the function is not null. -/
def actorInit (x : Ctx) (actor : ActorId) (func : Bool) (vect : Vect) (q : Option QueueId) :
    Code S Unit := do
  store (.prio actor) (S.vect2prio vect)
  let prio ← load (.prio actor)
  Prog.check (prio < S.prioMax)
  store (.func actor) func
  store (.vect actor) vect
  store (.cpu actor) (S.thisCpu x)
  store (.timeout actor) 0
  store (.mailbox actor) none
  match q with
  | some q => do
    let msg ← queuePop q (some actor)
    Prog.check (msg = none)
  | none => if func then invoke (.actorCall actor) else return ()

/-- `_mg_context_pop_head` in the context `x`, with its out parameter `last`. -/
def contextPopHead (x : Ctx) (vect : Vect) : Code S (Option ActorId × Bool) := do
  let context := S.thisCpu x
  let prio := S.vect2prio vect
  Prog.check (prio < S.prioMax)
  acquire (.context context)
  let empty ← fifoEmpty (.runq context prio)
  let actor ← if ¬ empty then do
      let head ← fifoDequeue (.runq context prio)
      let last ← fifoEmpty (.runq context prio)
      pure (some head.entry, last)
    else pure (none, false)
  release (.context context)
  return actor

/-- One round of the loop of `mg_context_schedule` in the context `x`. -/
def contextSchedule (x : Ctx) (vect : Vect) : Code S Unit := do
  let (actor, _) ← contextPopHead x vect
  match actor with
  | some actor => do
    invoke (.actorCall actor)
    invoke (.op (.contextSchedule vect))
  | none => return ()

/-- The code of an operation in the context `x`. -/
def operation (x : Ctx) : (op : Operation) → Code S op.Result
  | .queuePush q msg => queuePush q msg
  | .queuePop q subscriber => queuePop q subscriber
  | .messageAlloc p => messageAlloc p
  | .messageFree msg => messageFree msg
  | .contextTick => contextTick x
  | .actorInit a func vect q => actorInit x a func vect q
  | .contextSchedule vect => contextSchedule x vect

/-- The procedures of the kernel in the context `x`. -/
def kernel (x : Ctx) : (f : Proc S) → Code S f.Result
  | .op o => operation x o
  | .tickLoop context i last => tickLoop context i last
  | .actorCall a => actorCall x a
  | .running a => running a

end Code

end Magnesium
