import Magnesium.Kernel.Memory

/-!
# The code between two sections

What is left of the code of a context at each point where it can stand. One step of
`Magnesium.Kernel.Step` is what the code does up to the next of these points: it makes the same
changes to the memory, and stands there with the rest of the same function.
-/

namespace Magnesium

open Procedure

variable {S : Setup}

namespace Code

/-- The condition of the loop in `mg_actor_call`. -/
def loopCondition (actor : ActorId) : Code S Unit := do
  let msg ← load (.mailbox actor)
  if msg ≠ none then invoke (.actorCall actor) else return ()

/-- `mg_actor_call` after its `mg_queue_pop`. -/
def afterPop (actor : ActorId) (msg : Option MessageId) : Code S Unit := do
  store (.mailbox actor) msg
  loopCondition actor

/-- The test of `timeout` in `mg_actor_call`. -/
def testTimeout (x : Ctx) (actor : ActorId) : Code S Unit := do
  let timeout ← load (.timeout actor)
  if timeout ≠ 0 then actorTimeout x actor else actorInsert actor

/-- `mg_actor_call` after the return of the actor's function. -/
def afterFunc (x : Ctx) (actor : ActorId) : QueuePtr → Code S Unit
  | .null => .abort
  | .suspend => do
    store (.mailbox actor) none
    testTimeout x actor
  | .queue q => do
    let msg ← queuePop q (some actor)
    afterPop actor msg

/-- `mg_actor_call` loads the mailbox, calls the function, and goes on with what it returns. -/
theorem actorCall_eq (x : Ctx) (actor : ActorId) : (actorCall x actor : Code S Unit) = (do
    let msg ← load (.mailbox actor)
    perform (.func actor msg)
    let q ← invoke (.running actor)
    afterFunc x actor q) := by
  unfold actorCall
  congr 1
  funext msg
  congr 1
  funext _
  congr 1
  funext q
  cases q <;> rfl

/-- `pic_interrupt_request` in `_mg_actor_activate`. -/
def requestInterrupt (actor : ActorId) : Code S Unit := do
  let cpu ← load (.cpu actor)
  let vect ← load (.vect actor)
  interruptRequest cpu vect

/-- `_mg_actor_activate` inserts the actor and requests its vector. -/
theorem actorActivate_eq (actor : ActorId) : (actorActivate actor : Code S Unit) = (do
    actorInsert actor
    requestInterrupt actor) := rfl

/-- `mg_actor_init` up to its pop, or up to its call of the function. -/
def actorFields (x : Ctx) (actor : ActorId) (vect : Vect) : Code S Unit := do
  store (.prio actor) (S.vect2prio vect)
  let prio ← load (.prio actor)
  Prog.check (prio < S.prioMax)
  store (.func actor) true
  store (.vect actor) vect
  store (.cpu actor) (S.thisCpu x)
  store (.timeout actor) 0
  store (.mailbox actor) none

/-- `mg_actor_init` writes the fields, and then pops or calls. -/
theorem actorInit_eq (x : Ctx) (actor : ActorId) (vect : Vect) (q : Option QueueId) :
    (actorInit x actor true vect q : Code S Unit) = actorFields x actor vect >>= fun _ =>
      match q with
      | some q => queuePop q (some actor) >>= fun msg => Prog.check (msg = none)
      | none => invoke (.actorCall actor) := by
  unfold actorInit actorFields
  simp only [Prog.bind_assoc]
  rfl

end Code

open Code

/-- Where the caller of `mg_actor_call` goes on. -/
def Caller.code : Caller → Code S Unit
  | .schedule vect => invoke (.op (.contextSchedule vect))
  | .init => pure ()

/-- Where the caller of `_mg_actor_activate` goes on. -/
def Activator.code (x : Ctx) : Activator S → Code S Unit
  | .push => pure ()
  | .tick i last head => do
    tickWindow (S.thisCpu x) i (last.map .actor) (.actor head)
    release (.context (S.thisCpu x))

/-- What is left of the operation that a context is in. -/
def Pc.code (x : Ctx) : Pc S → Code S Unit
  | .idle => pure ()
  | .schedule vect => contextSchedule x vect
  | .call a caller => do actorCall x a; caller.code
  | .inFunc a caller => do
    let q ← invoke (.running a)
    afterFunc x a q
    caller.code
  | .subscribe a q caller => do afterFunc x a (.queue q); caller.code
  | .store a msg caller => do afterPop a msg; caller.code
  | .test a _ caller => do loopCondition a; caller.code
  | .suspend a caller => do afterFunc x a .suspend; caller.code
  | .delay a caller => do testTimeout x a; caller.code
  | .sleep a caller => do actorTimeout x a; caller.code
  | .yield a caller => do actorInsert a; caller.code
  | .initPop a q => do
    let msg ← queuePop q (some a)
    Prog.check (msg = none)
  | .insert a activator => do actorActivate a; activator.code x
  | .request a activator => do requestInterrupt a; activator.code x
  | .tick i last head => (Activator.tick i last head).code x
  | .allocCarve p => do
    let msg ← messageCarve p
    let _ ← messagePop p msg
    pure ()
  | .allocPop p => do
    let _ ← queuePop (.pool p) none
    pure ()

/-- The operation that a context in client code calls. -/
def Action.code (x : Ctx) : Action S → Code S Unit
  | .next | .ret _ => pure ()
  | .push q m => queuePush q m
  | .free m => messageFree m
  | .poll q => do
    let _ ← queuePop q none
    pure ()
  | .alloc p => do
    let _ ← messageAlloc p
    pure ()
  | .tick => contextTick x
  | .start vect => contextSchedule x vect
  | .init a vect q => actorInit x a true vect q
  | .setCpu a c => store (.cpu a) c

/-- What the function of an actor does next. -/
def Action.reply : Action S → ClientStep
  | .ret (.queue q) => .ret (.queue q)
  | .ret (.sleep delay) => .sleepFor delay
  | _ => .ret .null

/-- What the function of an actor does next where an action says that it returns. -/
def Action.client (act : Action S) (s : State S) (_ : ActorId) : ClientStep × State S :=
  (act.reply, s)

/-- The memory, without the locals of contexts and the hands of clients. -/
def State.memory (s : State S) : State S := { s with pc := fun _ => .idle, held := [] }

/-- What a list is made of: the run queues and the timer queues link actors only. -/
def ListId.admits : ListId S → Link → Bool
  | .items _, _ | .runq _ _, .actor _ | .timerq _ _, .actor _ => true
  | .runq _ _, .message _ | .timerq _ _, .message _ => false

/-- A queue holds messages and actors. -/
@[simp] theorem ListId.admits_items (q : QueueId) (y : Link) :
    (items q : ListId S).admits y = true := rfl

/-- The link of an actor may be in any list. -/
@[simp] theorem ListId.admits_actor (l : ListId S) (a : ActorId) : l.admits (.actor a) = true := by
  cases l <;> rfl

/-- A section enqueues in a list what the list is made of, and touches no list after that. -/
def linkStep : Bool → Access S → Option Bool
  | false, .enqueue l y => if l.admits y then some true else none
  | true, .enqueue _ _ | true, .dequeue _ => none
  | linked, _ => some linked

/-- A section calls no procedure. -/
def noCalls (S : Setup) : Contract (kernelInterface S) Bool := ⟨fun _ _ => False, fun _ _ _ => True⟩

section Links

variable {Q : Unit → Bool → Prop} {linked linked' : Bool}

/-- An access that is allowed. -/
theorem links_perform {e : Access S} {Q : e.Answer → Bool → Prop}
    (h : linkStep linked e = some linked') :
    (perform e).wp linkStep (noCalls S) Q linked ↔ ∀ r, Q r linked' := by
  rw [perform, Prog.wp_perform]
  constructor
  · rintro ⟨linked₁, hlinked₁, hQ⟩
    rw [h] at hlinked₁
    cases hlinked₁
    exact hQ
  · intro hQ
    exact ⟨linked', h, hQ⟩

/-- An access that touches no list. -/
theorem linkStep_other {e : Access S} (henqueue : ∀ l y, e ≠ .enqueue l y)
    (hdequeue : ∀ l, e ≠ .dequeue l) : linkStep linked e = some linked := by
  unfold linkStep
  split
  · exact absurd rfl (henqueue _ _)
  · exact absurd rfl (henqueue _ _)
  · exact absurd rfl (hdequeue _)
  · rfl

@[simp] theorem links_acquire {l : Lock S} :
    (acquire l).wp linkStep (noCalls S) Q linked ↔ Q () linked :=
  (links_perform (linkStep_other (e := .acquire l) nofun nofun)).trans Unique.forall_iff

@[simp] theorem links_release {l : Lock S} :
    (release l).wp linkStep (noCalls S) Q linked ↔ Q () linked :=
  (links_perform (linkStep_other (e := .release l) nofun nofun)).trans Unique.forall_iff

@[simp] theorem links_load {f : Field S} {Q : f.Val → Bool → Prop} :
    @Prog.wp (kernelInterface S) (no_index f.Val) _ linkStep (noCalls S) (load f) Q linked ↔
      ∀ v, Q v linked :=
  links_perform (linkStep_other (e := .load f) nofun nofun)

@[simp] theorem links_store {f : Field S} {v : f.Val} :
    (store f v).wp linkStep (noCalls S) Q linked ↔ Q () linked :=
  (links_perform (linkStep_other (e := .store f v) nofun nofun)).trans Unique.forall_iff

@[simp] theorem links_fifoEmpty {l : ListId S} {Q : Bool → Bool → Prop} :
    (fifoEmpty l).wp linkStep (noCalls S) Q linked ↔ ∀ b, Q b linked :=
  links_perform (linkStep_other (e := .empty l) nofun nofun)

@[simp] theorem links_fifoLast {l : ListId S} {Q : Option Link → Bool → Prop} :
    (fifoLast l).wp linkStep (noCalls S) Q linked ↔ ∀ y, Q y linked :=
  links_perform (linkStep_other (e := .last l) nofun nofun)

/-- A section links one node, of a kind that its list admits. -/
@[simp] theorem links_fifoEnqueue {l : ListId S} {y : Link} :
    (fifoEnqueue l y).wp linkStep (noCalls S) Q false ↔ l.admits y = true ∧ Q () true := by
  cases hy : l.admits y with
  | true =>
    have hstep : linkStep false (.enqueue l y) = some true := if_pos hy
    exact (links_perform hstep).trans (Unique.forall_iff.trans (by simp))
  | false =>
    have hstep : linkStep false (.enqueue l y) = none := if_neg (hy ▸ Bool.false_ne_true)
    refine ⟨?_, fun h => by simp at h⟩
    rintro ⟨linked, hlinked, -⟩
    rw [hstep] at hlinked
    cases hlinked

/-- A section unlinks before it links. -/
@[simp] theorem links_fifoDequeue {l : ListId S} {Q : Link → Bool → Prop} :
    (fifoDequeue l).wp linkStep (noCalls S) Q false ↔ ∀ y, Q y false := by
  refine (Prog.wp_bind _ _).trans ((links_perform (e := .dequeue l) rfl).trans ?_)
  simp only [Prog.wp_ofOption]
  exact ⟨fun h y => h (some y) y rfl, fun h _ y _ => h y⟩

@[simp] theorem links_interruptRequest {cpu : Nat} {vect : Vect} :
    (interruptRequest cpu vect).wp linkStep (noCalls S) Q linked ↔ Q () linked :=
  (links_perform (linkStep_other (e := .request cpu vect) nofun nofun)).trans Unique.forall_iff

@[simp] theorem links_func {a : ActorId} {msg : Option MessageId} :
    (perform (.func a msg)).wp linkStep (noCalls S) Q linked ↔ Q () linked :=
  (links_perform (linkStep_other (e := .func a msg) nofun nofun)).trans Unique.forall_iff

@[simp] theorem links_client {a : ActorId} {Q : ClientStep → Bool → Prop} :
    (perform (.client a)).wp linkStep (noCalls S) Q linked ↔ ∀ next, Q next linked :=
  links_perform (linkStep_other (e := .client a) nofun nofun)

/-- The sections of the kernel. -/
theorem links_queuePop {q : QueueId} {subscriber : Option ActorId} :
    (queuePop q subscriber : Code S _).wp linkStep (noCalls S) (fun _ _ => True) false := by
  simp only [queuePop, decLength, Prog.wp_bind, links_acquire, links_load]
  intro length
  split
  · simp
  · cases subscriber <;> simp

/-- A push links its message, if no actor waits. -/
theorem links_pushSection {q : QueueId} {msg : MessageId} :
    (pushSection q msg : Code S _).wp linkStep (noCalls S) (fun _ _ => True) false := by
  simp only [pushSection, Prog.wp_bind, links_acquire, links_load, links_store]
  intro length
  split <;> simp

/-- An insertion links its actor. -/
theorem links_actorInsert {a : ActorId} :
    (actorInsert a : Code S Unit).wp linkStep (noCalls S) (fun _ _ => True) false := by
  simp [actorInsert, cpuContext]

theorem links_actorTimeout {x : Ctx} {a : ActorId} :
    (actorTimeout x a : Code S Unit).wp linkStep (noCalls S) (fun _ _ => True) false := by
  simp [actorTimeout, codeDiffMsb]

/-- A carve links nothing. -/
theorem links_messageCarve {p : PoolId} :
    (messageCarve p : Code S _).wp linkStep (noCalls S) (fun _ _ => True) false := by
  simp only [messageCarve, Prog.wp_bind, links_acquire, links_load]
  intro available
  split <;> simp

theorem links_contextPopHead {x : Ctx} {vect : Vect} :
    (contextPopHead x vect : Code S _).wp linkStep (noCalls S) (fun _ _ => True) false := by
  simp only [contextPopHead, Prog.wp_bind, Prog.wp_check, links_acquire, links_fifoEmpty]
  intro _ empty
  split <;> simp

theorem links_tickStart {x : Ctx} {a : Fin S.timerqMax × Option Link} :
    (tickStart x : Code S _).wp linkStep (noCalls S)
      (fun locals linked => locals = a → linked = false) false := by
  simp [tickStart, codeDiffMsb]

/-- A visit to a timer queue links the head in another one, or nothing. -/
theorem links_tickVisit {c : Fin S.cpuMax} {i : Fin S.timerqMax} :
    (tickVisit c i : Code S _).wp linkStep (noCalls S)
      (fun visited linked => visited = none → linked = false) false := by
  simp only [tickVisit, Prog.wp_bind, links_fifoEmpty]
  intro empty
  split
  · simp
  · simp only [Prog.wp_bind, links_fifoDequeue, links_load]
    intro head timeout ticks
    split <;> simp [codeDiffMsb]

end Links

section Advances

variable {client : State S → ActorId → ClientStep × State S} {x : Ctx} {s s₁ s' : State S}
  {α : Type} {p' : Code S Unit}

/-- The code goes on to a point where other contexts may run, and touches the lists on its way as
one section does. -/
def Advances (client : State S → ActorId → ClientStep × State S) (x : Ctx) (p : Code S Unit)
    (s : State S) (p' : Code S Unit) (s' : State S) : Prop :=
  ∃ log linked, Reaches (kernel x) (State.answer client) p s log p' s' ∧
    log.foldlM linkStep false = some linked

/-- The accesses of code that calls nothing. -/
theorem links_sound {p : Code S α} {Q : α → Bool → Prop} {n : Nat} {log : List (Access S)} {a : α}
    (hlinks : p.wp linkStep (noCalls S) Q false)
    (hexec : exec (kernel x) (State.answer client) n s p = (log, s', some a)) :
    ∃ linked, log.foldlM linkStep false = some linked ∧ Q a linked := by
  have hbody : ∀ (f : Proc S) (linked : Bool), (noCalls S).pre f linked →
      (kernel x f).wp linkStep (noCalls S) ((noCalls S).post f) linked := fun _ _ h => h.elim
  obtain ⟨linked, hlog, hout⟩ := Contract.sound hbody (State.answer client) n s hlinks
  rw [hexec] at hlog hout
  exact ⟨linked, hlog, hout a rfl⟩

/-- A section that makes no access. -/
theorem Advances.refl (p : Code S Unit) (s : State S) : Advances client x p s p s :=
  ⟨[], false, .refl p s, rfl⟩

/-- A section. -/
theorem Advances.of_section {sec : Code S α} {a : α} (hrun : Runs client x sec s a s')
    (hlinks : sec.wp linkStep (noCalls S) (fun _ _ => True) false) (k : α → Code S Unit) :
    Advances client x (sec >>= k) s (k a) s' := by
  obtain ⟨n, log, hexec⟩ := hrun
  obtain ⟨linked, hlog, -⟩ := links_sound hlinks hexec
  exact ⟨log, linked, reaches_of_exec hexec k, hlog⟩

/-- Code that links no node before a section. -/
theorem Advances.before {pre : Code S α} {a : α} {k : α → Code S Unit}
    (h : Advances client x (k a) s₁ p' s') (hrun : Runs client x pre s a s₁)
    (hlinks : pre.wp linkStep (noCalls S) (fun b linked => b = a → linked = false) false) :
    Advances client x (pre >>= k) s p' s' := by
  obtain ⟨log, linked, hreach, hlog⟩ := h
  obtain ⟨n, log₁, hexec⟩ := hrun
  obtain ⟨linked₁, hlog₁, hno⟩ := links_sound hlinks hexec
  obtain rfl := hno rfl
  refine ⟨log₁ ++ log, linked, (reaches_of_exec hexec k).trans hreach, ?_⟩
  rw [List.foldlM_append, hlog₁]
  exact hlog

/-- The body of a procedure that is called. -/
theorem Advances.call {f : Proc S} {k : f.Result → Code S Unit}
    (h : Advances client x (kernel x f >>= k) s p' s') :
    Advances client x (invoke f >>= k) s p' s' := by
  obtain ⟨log, linked, hreach, hlog⟩ := h
  exact ⟨log, linked, .call hreach, hlog⟩

/-- A procedure that the code is about to call. -/
theorem Advances.enter {p : Code S Unit} {f : Proc S} {k : f.Result → Code S Unit}
    (h : Advances client x p s (invoke f >>= k) s') :
    Advances client x p s (kernel x f >>= k) s' := by
  obtain ⟨log, linked, hreach, hlog⟩ := h
  have hcall : Reaches (kernel x) (State.answer client) (invoke f >>= k) s' []
      (kernel x f >>= k) s' := .call (.refl _ _)
  refine ⟨log, linked, ?_, hlog⟩
  simpa using hreach.trans hcall

/-- The return from `mg_actor_call`. -/
theorem Advances.resume {p : Code S Unit} {caller : Caller}
    (h : Advances client x p s caller.code s') :
    Advances client x p s ((caller.resume : Pc S).code x) s' := by
  cases caller with
  | init => exact h
  | schedule vect =>
    have hloop : Advances client x p s
        (invoke (.op (.contextSchedule vect)) >>= fun _ => pure ()) s' := h
    have henter := hloop.enter
    rw [Prog.bind_pure_unit] at henter
    exact henter

end Advances

section Steps

variable {client : State S → ActorId → ClientStep × State S} {x : Ctx} {s s' : State S}
  {pc : Pc S} {es : List (Event S)}

/-- Nothing follows an activation by `mg_queue_push`. -/
theorem code_insert_push (a : ActorId) :
    (Pc.insert a .push : Pc S).code x = actorActivate a := Prog.bind_pure_unit _

/-- The section of a push, up to the activation. -/
theorem advances_push {q : QueueId} {m : MessageId} (h : s.push q m = some (s', pc, es)) :
    Advances client x (queuePush q m) s.memory (pc.code x) s'.memory := by
  simp only [State.push, Option.bind_eq_bind, Option.bind_eq_some_iff] at h
  obtain ⟨⟨Q, receiver⟩, hq, h⟩ := h
  rw [queuePush_eq]
  have hsec : Advances client x _ s.memory _ _ := .of_section (runs_pushSection (s := s.memory) hq)
    links_pushSection fun actor => actor.elim (pure ()) actorActivate
  cases receiver with
  | none =>
    cases h
    exact hsec
  | some a =>
    cases h
    rw [code_insert_push]
    exact hsec

/-- The section of `mg_message_free` is that of a push to the pool of the message. -/
theorem advances_free {m : MessageId} (h : s.free m = some (s', pc, es)) :
    Advances client x (messageFree m) s.memory (pc.code x) s'.memory := by
  simp only [State.free, Option.bind_eq_bind, Option.bind_eq_some_iff] at h
  obtain ⟨p, hp, hpush⟩ := h
  have hload : Runs client x (do
      let parent ← load (.parent m)
      Prog.ofOption parent : Code S PoolId) s.memory p s.memory := by
    simp [State.load, State.memory, hp]
  have hpush : Advances client x (queuePush (.pool p) m) s.memory (pc.code x) s'.memory :=
    advances_push hpush
  have hfree := hpush.before (k := fun p => queuePush (.pool p) m) hload (by simp)
  simpa [messageFree, Prog.bind_assoc] using hfree

/-- A pop whose result goes to the client. -/
theorem advances_pop {q : QueueId} {subscriber : Option ActorId}
    {Q : Queue MessageId ActorId} {msg : Option MessageId}
    (h : (s.queue q).pop subscriber = some (Q, msg)) (k : Option MessageId → Code S Unit) :
    Advances client x (queuePop q subscriber >>= k) s.memory (k msg) (s.memory.setQueue q Q) :=
  .of_section (runs_queuePop (s := s.memory) h) links_queuePop k

/-- `mg_queue_pop` without a subscriber is one section. -/
theorem advances_poll {q : QueueId} (h : s.poll q = some (s', pc, es)) :
    Advances client x ((Action.poll q : Action S).code x) s.memory (pc.code x) s'.memory := by
  simp only [State.poll, Option.bind_eq_bind, Option.bind_eq_some_iff, Option.pure_def] at h
  obtain ⟨⟨Q, msg⟩, hq, h⟩ := h
  cases h
  exact advances_pop hq fun _ => pure ()

/-- The pop of `mg_message_alloc`. -/
theorem advances_allocPop {p : PoolId} (h : s.allocPop p = some (s', pc, es)) :
    Advances client x ((Pc.allocPop p : Pc S).code x) s.memory (pc.code x) s'.memory := by
  simp only [State.allocPop, Option.bind_eq_bind, Option.bind_eq_some_iff, Option.pure_def] at h
  obtain ⟨⟨Q, msg⟩, hq, h⟩ := h
  cases h
  exact advances_pop hq fun _ => pure ()

/-- The unlocked test of `array_space_available` decides what follows. -/
theorem advances_alloc (p : PoolId) :
    Advances client x ((Action.alloc p : Action S).code x) s.memory ((s.alloc p).2.1.code x)
      (s.alloc p).1.memory := by
  have hload : Runs client x (load (.arraySpaceAvailable p)) s.memory
      (s.pool p).arraySpaceAvailable s.memory := runs_load.mpr ⟨rfl, rfl⟩
  have hsec := Advances.of_section hload (by simp) fun available =>
    (if available then messageCarve p >>= messagePop p else messagePop p none) >>= fun _ => pure ()
  rw [Action.code, messageAlloc_eq, Prog.bind_assoc]
  cases hav : (s.pool p).arraySpaceAvailable with
  | true =>
    have hpc : (s.alloc p).2.1 = .allocCarve p := by simp [State.alloc, hav]
    rw [hav, if_pos rfl, Prog.bind_assoc] at hsec
    rw [hpc]
    exact hsec
  | false =>
    have hpc : (s.alloc p).2.1 = .allocPop p := by simp [State.alloc, hav]
    rw [hav] at hsec
    rw [hpc]
    exact hsec

theorem memory_carve (s : State S) (p : PoolId) :
    (s.carve p).1.memory = { (s.memory.carve p).1 with held := s.memory.held } := by
  have hpool : s.memory.pool = s.pool := rfl
  rw [State.carve, State.carve, hpool]
  split <;> rfl

/-- The carve, whose second test may send the context on to the pop. -/
theorem advances_carve (p : PoolId) :
    Advances client x ((Pc.allocCarve p : Pc S).code x) s.memory ((s.carve p).2.1.code x)
      (s.carve p).1.memory := by
  cases hav : (s.pool p).arraySpaceAvailable with
  | true =>
    have hpc : (s.carve p).2.1 = .idle := by simp [State.carve, hav]
    rw [hpc, memory_carve]
    exact .of_section (runs_messageCarve (s := s.memory) hav) links_messageCarve
      fun msg => messagePop p msg >>= fun _ => pure ()
  | false =>
    have hout : s.carve p = (s, .allocPop p, []) := by simp [State.carve, hav]
    rw [hout]
    exact .of_section (runs_messageCarve_none (s := s.memory) hav) links_messageCarve
      fun msg => messagePop p msg >>= fun _ => pure ()

section Tick

variable {i : Fin S.timerqMax} {last : Option ActorId}

/-- The release at the end of a tick. -/
theorem advances_release (l : Lock S) : Advances client x (release l) s (pure ()) s := by
  have hsec : Advances client x (release l >>= fun _ => pure ()) s _ s :=
    .of_section (a := ()) (runs_release.mpr rfl) (links_release.mpr trivial) fun _ => pure ()
  rwa [Prog.bind_pure_unit] at hsec

/-- A section of a tick. -/
theorem advances_tickLoop {w : Wheel S.timerqMax ActorId} {tpc : TickPc S.timerqMax ActorId}
    (h : (s.wheel (S.thisCpu x)).tickLoop i last = some (w, tpc)) :
    Advances client x (tickLoop (S.thisCpu x) i (last.map .actor) >>=
      fun _ => release (.context (S.thisCpu x))) s ((State.tickPc tpc).code x)
      (s.setWheel (S.thisCpu x) w) := by
  rw [tickLoop_eq, Prog.bind_assoc]
  cases hq : s.timerq (S.thisCpu x) i with
  | nil =>
    rw [Wheel.tickLoop_nil last hq] at h
    cases h
    rw [State.setWheel_wheel]
    exact Advances.before (a := none) (advances_release _) (runs_tickVisit_nil hq) links_tickVisit
  | cons head rest =>
    obtain ⟨w', wake, dest, hv, heq⟩ := Wheel.tickLoop_cons (w := s.wheel (S.thisCpu x)) last hq
    rw [heq] at h
    cases h
    have hsec : Advances client x _ _ _ _ := .of_section (runs_tickVisit hq hv)
      (Prog.wp_mono links_tickVisit fun _ _ _ => trivial)
      fun visited => tickRest (S.thisCpu x) i (last.map .actor) visited >>=
        fun _ => release (.context (S.thisCpu x))
    cases wake with
    | none => exact hsec
    | some a =>
      rw [tickRest, Prog.bind_assoc] at hsec
      exact hsec

/-- The first section of `mg_context_tick` goes to the first window, or to the end. -/
theorem advances_tickBegin (h : s.tickBegin x = some (s', pc, es)) :
    Advances client x (contextTick x) s.memory (pc.code x) s'.memory := by
  simp only [State.tickBegin, Option.bind_eq_bind, Option.bind_eq_some_iff, Option.pure_def] at h
  obtain ⟨⟨w, tpc⟩, hw, h⟩ := h
  cases h
  obtain ⟨i, hi, heq⟩ := (s.wheel (S.thisCpu x)).tickBegin_eq
  rw [heq] at hw
  rw [contextTick_eq]
  refine Advances.before (.call ?_) (runs_tickStart (s := s.memory) hi) links_tickStart
  have hloop : Advances client x _ _ _ _ := advances_tickLoop
    (s := s.memory.setWheel (S.thisCpu x)
      { s.wheel (S.thisCpu x) with ticks := s.ticks (S.thisCpu x) + 1 }) (by
      rw [State.wheel_setWheel]
      exact hw)
  rw [State.setWheel_setWheel] at hloop
  exact hloop

/-- And each later section from one window to the next. -/
theorem advances_tickResume {head : ActorId} (h : s.tickResume x i last head = some (s', pc, es)) :
    Advances client x ((Pc.tick i last head : Pc S).code x) s.memory (pc.code x) s'.memory := by
  simp only [State.tickResume, Option.bind_eq_bind, Option.bind_eq_some_iff, Option.pure_def] at h
  obtain ⟨⟨w, tpc⟩, hw, h⟩ := h
  cases h
  rw [Wheel.tickResume_eq] at hw
  rw [Pc.code, Activator.code, tickWindow, Prog.bind_assoc]
  refine Advances.before (a := ()) ?_ (runs_acquire.mpr rfl) (by simp)
  split at hw
  · rename_i hlast
    cases hw
    rw [if_pos (link_eq_last.mpr hlast), State.setWheel_wheel]
    exact advances_release _
  · rename_i hlast
    rw [if_neg (mt link_eq_last.mp hlast)]
    exact .call (advances_tickLoop (s := s.memory) hw)

end Tick

section Actors

variable {a : ActorId} {caller : Caller}

/-- An activation goes from the insertion to the request. -/
theorem advances_insert (activator : Activator S) :
    Advances client x ((Pc.insert a activator).code x) s.memory
      ((Pc.request a activator).code x) (s.actorInsert a).memory := by
  rw [Pc.code, actorActivate_eq, Prog.bind_assoc]
  exact .of_section (runs_actorInsert (s := s.memory)) links_actorInsert _

theorem runs_requestInterrupt :
    Runs client x (requestInterrupt a) s () (s.interruptRequest a) := by
  simp [requestInterrupt, State.load, State.setPending, State.interruptRequest]

/-- And from the request to its caller. -/
theorem advances_request (activator : Activator S) :
    Advances client x ((Pc.request a activator).code x) s.memory (activator.resume.code x)
      (s.interruptRequest a).memory := by
  have hsec : Advances client x _ s.memory _ (s.interruptRequest a).memory :=
    .of_section runs_requestInterrupt (by simp [requestInterrupt]) fun _ => activator.code x
  cases activator <;> exact hsec

/-- An actor that yields is inserted, and its call is over. -/
theorem advances_yield (caller : Caller) :
    Advances client x ((Pc.yield a caller : Pc S).code x) s.memory (caller.resume.code x)
      (s.actorInsert a).memory :=
  (Advances.of_section (runs_actorInsert (s := s.memory)) links_actorInsert _).resume

/-- `mg_context_schedule` takes an actor and calls it, or ends. -/
theorem advances_popHead {vect : Vect} (h : s.popHead x vect = some (s', pc, es)) :
    Advances client x (contextSchedule x vect) s.memory (pc.code x) s'.memory := by
  rw [State.popHead] at h
  split at h
  · rename_i hprio
    split at h
    · rename_i hempty
      cases h
      have hpop : Runs client x (contextPopHead x vect) s.memory (none, false) s.memory := by
        simp [contextPopHead, hprio, State.list, State.memory, List.isEmpty_iff.mp hempty]
      exact .of_section hpop links_contextPopHead _
    · simp only [Option.bind_eq_bind, Option.bind_eq_some_iff, Option.pure_def] at h
      obtain ⟨⟨a, rest⟩, hd, h⟩ := h
      cases h
      refine Advances.enter (f := .actorCall a)
        (k := fun _ => invoke (.op (.contextSchedule vect))) ?_
      exact .of_section (runs_contextPopHead (s := s.memory) hprio hd) links_contextPopHead _
  · cases h

/-- The call of the function. -/
theorem advances_call (caller : Caller) :
    Advances client x ((Pc.call a caller : Pc S).code x) s.memory
      ((Pc.inFunc a caller : Pc S).code x) s.memory := by
  have hcall : Runs client x (do
      let msg ← load (.mailbox a)
      perform (.func a msg) : Code S Unit) s.memory () s.memory := by
    refine runs_bind.mpr ⟨s.mailbox a, s.memory, runs_load.mpr ⟨rfl, rfl⟩, ?_⟩
    exact returns_perform.mpr ⟨rfl, rfl⟩
  have hsec := Advances.of_section hcall (by
    simp only [Prog.wp_bind, links_load]
    exact fun _ => links_func.mpr trivial) fun _ => (Pc.inFunc a caller : Pc S).code x
  rw [Prog.bind_assoc] at hsec
  rw [Pc.code, actorCall_eq, Prog.bind_assoc]
  exact hsec

/-- The function returns a queue, or the result of `mg_sleep_for`. -/
theorem advances_ret {r : Returned} (h : s.ret a caller r = (s', pc, es)) :
    Advances (Action.ret r : Action S).client x ((Pc.inFunc a caller : Pc S).code x) s.memory
      (pc.code x) s'.memory := by
  have hbody : kernel x (.running a) = (running a : Code S QueuePtr) := rfl
  rw [Pc.code]
  refine .call ?_
  rw [hbody, running, Prog.bind_assoc]
  cases r with
  | queue q =>
    cases h
    have hclient : Runs (Action.ret (.queue q) : Action S).client x (perform (.client a)) s.memory
        (.ret (.queue q)) s.memory := returns_perform.mpr ⟨rfl, rfl⟩
    exact Advances.before (.refl _ _) hclient (links_client.mpr fun _ _ => rfl)
  | sleep delay =>
    cases h
    have hclient : Runs (Action.ret (.sleep delay) : Action S).client x (perform (.client a))
        s.memory (.sleepFor delay) s.memory := returns_perform.mpr ⟨rfl, rfl⟩
    refine Advances.before ?_ hclient (links_client.mpr fun _ _ => rfl)
    exact .of_section (a := ()) (runs_store.mpr rfl) (by simp) _

/-- The pop with a subscriber, up to the store of what it found. -/
theorem advances_subscribe {q : QueueId} (h : s.subscribe a q caller = some (s', pc, es)) :
    Advances client x ((Pc.subscribe a q caller : Pc S).code x) s.memory (pc.code x)
      s'.memory := by
  simp only [State.subscribe, Option.bind_eq_bind, Option.bind_eq_some_iff, Option.pure_def] at h
  obtain ⟨⟨Q, msg⟩, hq, h⟩ := h
  cases h
  rw [Pc.code, afterFunc, Prog.bind_assoc]
  exact advances_pop hq _

/-- The store of the mailbox. -/
theorem advances_store (msg : Option MessageId) (caller : Caller) :
    Advances client x ((Pc.store a msg caller : Pc S).code x) s.memory
      ((Pc.test a msg caller : Pc S).code x) (s.setMailbox a msg).memory := by
  rw [Pc.code, afterPop, Prog.bind_assoc]
  exact .of_section (a := ()) (runs_store.mpr rfl) (by simp) _

/-- The loop condition goes back to the call, or leaves. -/
theorem advances_test (msg : Option MessageId) (caller : Caller) :
    Advances client x ((Pc.test a msg caller : Pc S).code x) s.memory
      ((s.test a caller).2.1.code x) s.memory := by
  have hsec : Advances client x ((Pc.test a msg caller : Pc S).code x) s.memory
      ((if s.mailbox a ≠ none then invoke (.actorCall a) else pure ()) >>= fun _ => caller.code)
      s.memory := by
    rw [Pc.code, loopCondition, Prog.bind_assoc]
    exact .of_section (runs_load.mpr ⟨rfl, rfl⟩) (by simp) _
  rw [State.test]
  split
  · rename_i hm
    rw [if_pos hm] at hsec
    exact hsec.enter
  · rename_i hm
    rw [if_neg hm] at hsec
    exact hsec.resume

/-- The mailbox is cleared before `timeout` is tested. -/
theorem advances_suspend (caller : Caller) :
    Advances client x ((Pc.suspend a caller : Pc S).code x) s.memory
      ((Pc.delay a caller : Pc S).code x) (s.setMailbox a none).memory := by
  rw [Pc.code, afterFunc, Prog.bind_assoc]
  exact .of_section (a := ()) (runs_store.mpr rfl) (by simp) _

/-- The test of `timeout` decides between a sleep and a yield. -/
theorem advances_delay (caller : Caller) :
    Advances client x ((Pc.delay a caller : Pc S).code x) s.memory
      ((s.delay a caller).2.1.code x) s.memory := by
  have hsec : Advances client x ((Pc.delay a caller : Pc S).code x) s.memory
      ((if s.timeout a ≠ 0 then actorTimeout x a else actorInsert a) >>= fun _ => caller.code)
      s.memory := by
    rw [Pc.code, testTimeout, Prog.bind_assoc]
    exact .of_section (runs_load.mpr ⟨rfl, rfl⟩) (by simp) _
  rw [State.delay]
  split
  · rename_i ht
    rw [if_pos ht] at hsec
    exact hsec
  · rename_i ht
    rw [if_neg ht] at hsec
    exact hsec

/-- An actor that sleeps is in a timer queue, and its call is over. -/
theorem advances_sleep (h : s.sleep x a caller = some (s', pc, es)) :
    Advances client x ((Pc.sleep a caller : Pc S).code x) s.memory (pc.code x) s'.memory := by
  simp only [State.sleep, Option.bind_eq_bind, Option.bind_eq_some_iff, Option.pure_def] at h
  obtain ⟨w, hw, h⟩ := h
  cases h
  exact (Advances.of_section (runs_actorTimeout (s := s.memory) hw) links_actorTimeout _).resume

/-- The pop of `mg_actor_init` finds no message. -/
theorem advances_initPop {q : QueueId} (h : s.initPop a q = some (s', pc, es)) :
    Advances client x ((Pc.initPop a q : Pc S).code x) s.memory (pc.code x) s'.memory := by
  simp only [State.initPop, Option.bind_eq_bind, Option.bind_eq_some_iff] at h
  obtain ⟨⟨Q, msg⟩, hq, h⟩ := h
  cases msg with
  | none =>
    cases h
    exact advances_pop hq _
  | some m => cases h

theorem runs_actorFields {vect : Vect} (h : S.vect2prio vect < S.prioMax) :
    Runs client x (actorFields x a vect) s ()
      { s with
        prio := Function.update s.prio a (S.vect2prio vect)
        func := Function.update s.func a true
        vect := Function.update s.vect a vect
        cpu := Function.update s.cpu a (S.thisCpu x)
        timeout := Function.update s.timeout a 0
        mailbox := Function.update s.mailbox a none } := by
  simp [actorFields, State.load, State.store, State.setTimeout, State.setMailbox, h]

theorem links_actorFields {vect : Vect} : (actorFields x a vect : Code S Unit).wp linkStep
    (noCalls S) (fun _ _ => True) false := by
  simp [actorFields]

theorem advances_actorInit {vect : Vect} {q : Option QueueId}
    (h : s.actorInit x a vect q = some (s', pc, es)) :
    Advances client x (actorInit x a true vect q) s.memory (pc.code x) s'.memory := by
  rw [State.actorInit] at h
  split at h
  · rename_i hprio
    rw [actorInit_eq]
    have hfields : Runs client x (actorFields x a vect) s.memory () _ := runs_actorFields hprio
    cases q with
    | some q =>
      cases h
      exact .of_section hfields links_actorFields _
    | none =>
      cases h
      refine Advances.enter (f := .actorCall a) (k := fun _ => pure ()) ?_
      rw [Prog.bind_pure_unit]
      exact .of_section hfields links_actorFields _
  · cases h

theorem advances_setCpu (c : Fin S.cpuMax) :
    Advances client x (store (.cpu a) c) s.memory (pure ())
      ({ s with cpu := Function.update s.cpu a c } : State S).memory := by
  have hstore : s.memory.store (.cpu a) c.val =
      ({ s with cpu := Function.update s.cpu a c } : State S).memory := by
    simp [State.store, State.memory]
  have hsec : Advances client x (store (.cpu a) c.val >>= fun _ => pure ()) s.memory _ _ :=
    .of_section (a := ()) (runs_store.mpr hstore.symm) (links_store.mpr trivial) fun _ => pure ()
  rwa [Prog.bind_pure_unit] at hsec

end Actors

end Steps

section Machine

variable {x : Ctx} {s s' : State S} {act : Action S} {pc : Pc S} {es : List (Event S)}

/-- The interrupt controller takes the request of a vector back before its handler runs. -/
def State.enter (s : State S) (x : Ctx) : Action S → State S
  | .start vect => (s.start x vect).1
  | _ => s

/-- What a context has to run. -/
def State.code (s : State S) (x : Ctx) (act : Action S) : Code S Unit :=
  match s.pc x with
  | .idle => act.code x
  | pc => pc.code x

/-- The beginning of every operation. -/
theorem begin_advances (h : s.begin x act = some (s', pc, es)) :
    Advances act.client x (act.code x) (s.enter x act).memory (pc.code x) s'.memory := by
  cases act with
  | next | ret r => cases h
  | push q m => exact advances_push h
  | free m => exact advances_free h
  | poll q => exact advances_poll h
  | alloc p =>
    cases h
    exact advances_alloc p
  | tick => exact advances_tickBegin h
  | start vect =>
    cases h
    exact .refl _ _
  | init a vect q => exact advances_actorInit h
  | setCpu a c =>
    cases h
    exact advances_setCpu c

/-- Every section inside an operation. -/
theorem proceed_advances (h : s.proceed x pc = some (s', pc', es)) :
    Advances (Action.next : Action S).client x (pc.code x) s.memory (pc'.code x) s'.memory := by
  cases pc with
  | idle | inFunc a caller => cases h
  | schedule vect => exact advances_popHead h
  | call a caller =>
    cases h
    exact advances_call caller
  | subscribe a q caller => exact advances_subscribe h
  | store a msg caller =>
    cases h
    exact advances_store msg caller
  | test a msg caller =>
    cases h
    exact advances_test msg caller
  | suspend a caller =>
    cases h
    exact advances_suspend caller
  | delay a caller =>
    cases h
    exact advances_delay caller
  | sleep a caller => exact advances_sleep h
  | yield a caller =>
    cases h
    exact advances_yield caller
  | initPop a q => exact advances_initPop h
  | insert a activator =>
    cases h
    exact advances_insert activator
  | request a activator =>
    cases h
    exact advances_request activator
  | tick i last head => exact advances_tickResume h
  | allocCarve p =>
    have hcarve : Advances (Action.next : Action S).client x _ s.memory _ _ := advances_carve p
    rwa [Option.some.inj h] at hcarve
  | allocPop p => exact advances_allocPop h

/-- Every section of a context. -/
theorem advance_advances (h : s.advance x (s.pc x) act = some (s', pc, es)) :
    Advances act.client x (s.code x act) (s.enter x act).memory (pc.code x) s'.memory := by
  cases hpc : s.pc x with
  | idle =>
    rw [hpc, State.advance] at h
    rw [State.code, hpc]
    exact begin_advances h
  | inFunc a caller =>
    rw [hpc] at h
    rw [State.code, hpc]
    cases act with
    | ret r => exact advances_ret (Option.some.inj h)
    | next | push | free | poll | alloc | tick | start | init | setCpu => cases h
  | _ =>
    rw [hpc] at h
    rw [State.code, hpc]
    cases act with
    | next => exact proceed_advances h
    | push | free | poll | alloc | tick | start | init | setCpu | ret => cases h

/-- One step of the kernel is what the code does from one point to the next. -/
theorem step_advances (h : s.step x act = some (s', es)) :
    Advances act.client x (s.code x act) (s.enter x act).memory ((s'.pc x).code x)
      s'.memory := by
  simp only [State.step, Option.bind_eq_bind, Option.bind_eq_some_iff, Option.pure_def] at h
  obtain ⟨⟨s₁, pc, es₁⟩, hadv, h⟩ := h
  cases h
  have hpc : (s₁.setPc x pc).pc x = pc := Function.update_self ..
  have hcode := advance_advances hadv
  rw [← hpc] at hcode
  exact hcode

end Machine

end Magnesium
