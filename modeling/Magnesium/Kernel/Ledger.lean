import Magnesium.Kernel.Step

/-!
# The account of a run

What the events of a run amount to, without the kernel: the content of every queue and run queue,
the message each actor has been given and not yet called with, what it asked for last, and the
queue each message was pushed on and not yet consumed from. `Law` is what the kernel promises of
each event, given the account of the events before it.
-/

namespace Magnesium

variable {S : Setup}

/-- The account of the events so far. -/
structure Ledger (S : Setup) where
  /-- The messages in a queue. -/
  content : QueueId → List MessageId
  /-- The actors in a run queue. -/
  ready : Fin S.cpuMax → Nat → List ActorId
  /-- The message given to an actor that it has not been called with. -/
  mail : ActorId → Option MessageId
  /-- The queue an actor returned last or was initialised with. -/
  awaits : ActorId → Option QueueId
  /-- The queue a message was pushed on and not consumed from. -/
  unconsumed : MessageId → Option QueueId

namespace Ledger

/-- Nothing has happened. -/
def nil : Ledger S := ⟨fun _ => [], fun _ _ => [], fun _ => none, fun _ => none, fun _ => none⟩

/-- Append an actor to a run queue. -/
def enqueue (L : Ledger S) (c : Fin S.cpuMax) (p : Nat) (a : ActorId) : Ledger S :=
  { L with ready := Function.update L.ready c (Function.update (L.ready c) p (L.ready c p ++ [a])) }

/-- A message leaves the system of queues and mailboxes. -/
def consume (L : Ledger S) : Option MessageId → Ledger S
  | none => L
  | some m => { L with unconsumed := Function.update L.unconsumed m none }

@[simp] theorem consume_content (L : Ledger S) (msg : Option MessageId) :
    (L.consume msg).content = L.content := by cases msg <;> rfl

@[simp] theorem consume_ready (L : Ledger S) (msg : Option MessageId) :
    (L.consume msg).ready = L.ready := by cases msg <;> rfl

@[simp] theorem consume_mail (L : Ledger S) (msg : Option MessageId) :
    (L.consume msg).mail = L.mail := by cases msg <;> rfl

@[simp] theorem consume_awaits (L : Ledger S) (msg : Option MessageId) :
    (L.consume msg).awaits = L.awaits := by cases msg <;> rfl

/-- The account after one more event. -/
def step (L : Ledger S) : Event S → Ledger S
  | .init a q => { L with awaits := Function.update L.awaits a q }
  | .push q m none =>
    { L with
      content := Function.update L.content q (L.content q ++ [m])
      unconsumed := Function.update L.unconsumed m (some q) }
  | .push q m (some a) =>
    { L with
      mail := Function.update L.mail a (some m)
      unconsumed := Function.update L.unconsumed m (some q) }
  | .poll q msg => { L.consume msg with content := Function.update L.content q (L.content q).tail }
  | .take a q m =>
    { L with
      content := Function.update L.content q (L.content q).tail
      mail := Function.update L.mail a (some m) }
  | .call a msg => { L.consume msg with mail := Function.update L.mail a none }
  | .ret a (.queue q) => { L with awaits := Function.update L.awaits a (some q) }
  | .ret a (.sleep _) => { L with awaits := Function.update L.awaits a none }
  | .insert c p a | .yield c p a => L.enqueue c p a
  | .dispatch c p _ =>
    { L with
      ready := Function.update L.ready c (Function.update (L.ready c) p (L.ready c p).tail) }
  | .alloc _ _ => L

end Ledger

/-- The account after some more events. -/
def Ledger.after (L : Ledger S) (es : List (Event S)) : Ledger S := es.foldl Ledger.step L

@[simp] theorem Ledger.after_nil (L : Ledger S) : L.after [] = L := rfl

@[simp] theorem Ledger.after_cons (L : Ledger S) (e : Event S) (es : List (Event S)) :
    L.after (e :: es) = (L.step e).after es := rfl

/-- Events in two parts. -/
theorem Ledger.after_append (L : Ledger S) (es es' : List (Event S)) :
    L.after (es ++ es') = (L.after es).after es' := List.foldl_append

/-- The account of a run. -/
def ledger (log : List (Event S)) : Ledger S := Ledger.nil.after log

/-- The ledger of a longer log goes on where that of the shorter one ends. -/
theorem ledger_append (log es : List (Event S)) :
    ledger (log ++ es) = (ledger log).after es := Ledger.nil.after_append log es

/-- What the kernel promises of an event. -/
def Ledger.Law (L : Ledger S) : Event S → Prop
  | .init a _ => L.mail a = none ∧ L.awaits a = none
  | .push q m receiver => L.unconsumed m = none ∧
      ∀ a, receiver = some a → L.content q = [] ∧ L.mail a = none ∧ L.awaits a = some q
  | .poll q msg => msg = (L.content q).head? ∧ ∀ m, msg = some m → L.unconsumed m = some q
  | .take a q m => (L.content q).head? = some m ∧ L.mail a = none ∧ L.awaits a = some q
  | .call a msg => msg = L.mail a ∧ (msg = none ↔ L.awaits a = none) ∧
      ∀ m, msg = some m → L.unconsumed m = L.awaits a
  | .ret a _ => L.mail a = none
  | .insert _ _ a | .yield _ _ a => ∀ c p, a ∉ L.ready c p
  | .dispatch c p a => (L.ready c p).head? = some a
  | .alloc _ _ => True

/-- Each of the events keeps the promise, given the account of the events before it. -/
def Ledger.Lawful (L : Ledger S) : List (Event S) → Prop
  | [] => True
  | e :: es => L.Law e ∧ (L.step e).Lawful es

/-- The second part is lawful where the first one ends. -/
theorem Ledger.lawful_append {L : Ledger S} {es es' : List (Event S)} :
    L.Lawful (es ++ es') ↔ L.Lawful es ∧ (L.after es).Lawful es' := by
  induction es generalizing L with
  | nil => simp [Lawful]
  | cons e es ih => simp [Lawful, ih, and_assoc]

/-- Every event of the run keeps the promise. -/
def Lawful (log : List (Event S)) : Prop := Ledger.nil.Lawful log

theorem lawful_nil : Lawful ([] : List (Event S)) := trivial

/-- A lawful log grows by an event that its ledger allows. -/
theorem Lawful.concat {log : List (Event S)} (h : Lawful log) {e : Event S}
    (he : (ledger log).Law e) : Lawful (log ++ [e]) :=
  Ledger.lawful_append.mpr ⟨h, he, trivial⟩

/-- A lawful run split at one of its events. -/
theorem Lawful.split {pre post : List (Event S)} {e : Event S}
    (h : Lawful (pre ++ e :: post)) :
    Lawful pre ∧ (ledger pre).Law e ∧ ((ledger pre).step e).Lawful post :=
  Ledger.lawful_append.mp h

end Magnesium
