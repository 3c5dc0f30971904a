import Magnesium.Core.Trace
import Magnesium.Kernel.Quiet
import Magnesium.Kernel.Replay
import Mathlib.Data.List.Induction

/-!
# Delivery

What a call of an actor's function delivers, said of the events of a run alone: the message was
pushed on the queue the actor asked for last and has not been consumed since, and a queue with
one consumer delivers in push order. The account of the run turns each part into a fact about one
event.
-/

namespace Magnesium

variable {S : Setup}

namespace Event

/-- What the event says the actor wants next: a message of a queue, or a call without any. -/
def request (a : ActorId) : Event S → Option (Option QueueId)
  | .init b q => if b = a then some q else none
  | .ret b (.queue q) => if b = a then some (some q) else none
  | .ret b (.sleep _) => if b = a then some none else none
  | _ => none

/-- The event pushes the message or consumes it. -/
def Moves (m : MessageId) : Event S → Prop
  | .push _ n _ => n = m
  | .poll _ msg | .call _ msg => msg = some m
  | _ => False

/-- The message the event pushes on the queue. -/
def pushedOn (q : QueueId) : Event S → Option MessageId
  | .push r m _ => if r = q then some m else none
  | _ => none

/-- The message the event delivers to the actor, if it asked for the queue. -/
def delivered (a : ActorId) (q : QueueId) (asked : Option (Option QueueId)) :
    Event S → List MessageId
  | .call b msg => if b = a ∧ asked = some (some q) then msg.toList else []
  | _ => []

end Event

/-- What the actor asked for last. -/
def request (a : ActorId) (log : List (Event S)) : Option (Option QueueId) :=
  (log.filterMap (Event.request a)).getLast?

/-- The message has been pushed on the queue, and nobody has consumed or pushed it since. -/
def Unconsumed (q : QueueId) (m : MessageId) (log : List (Event S)) : Prop :=
  ∃ pre receiver post, log = pre ++ .push q m receiver :: post ∧ ∀ e ∈ post, ¬ e.Moves m

/-- The messages pushed on a queue, in order. -/
def pushed (q : QueueId) (log : List (Event S)) : List MessageId := log.filterMap (Event.pushedOn q)

/-- The messages an actor is called with while it asks for the queue, in order; `asked` is what it
asked for before. -/
def received (a : ActorId) (q : QueueId) :
    Option (Option QueueId) → List (Event S) → List MessageId
  | _, [] => []
  | asked, e :: es => e.delivered a q asked ++ received a q ((e.request a).or asked) es

/-- Nobody but the actor asks for messages of the queue, and no poll finds one there. -/
structure OnlyConsumer (a : ActorId) (q : QueueId) (log : List (Event S)) : Prop where
  asks : ∀ e ∈ log, ∀ b, e.request b = some (some q) → b = a
  polls : ∀ m, .poll q (some m) ∉ log

/-- What the calls of a run deliver. -/
structure Delivery (s : State S) (log : List (Event S)) : Prop where
  /-- A call delivers null exactly if the actor asked for no queue. -/
  null : ∀ a msg pre post, log = pre ++ .call a msg :: post →
    (msg = none ↔ request a pre = some none)
  /-- A message delivered was pushed on the queue the actor asked for, and is consumed now. -/
  called : ∀ a m pre post, log = pre ++ .call a (some m) :: post →
    ∃ q, request a pre = some (some q) ∧ Unconsumed q m pre
  polled : ∀ q m pre post, log = pre ++ .poll q (some m) :: post → Unconsumed q m pre
  /-- A message that is not consumed yet is in its queue or in the mailbox of an actor that is
  in a run queue. -/
  kept : s.Quiet → ∀ q m, Unconsumed q m log →
    m ∈ (s.queue q).messages ∨ ∃ a c p, a ∈ s.runq c p ∧ s.mailbox a = some m
  /-- The only consumer of a queue receives its messages in push order. -/
  fifo : ∀ a q, OnlyConsumer a q log → received a q none log <+: pushed q log

namespace Ledger

variable {L : Ledger S} {es : List (Event S)}

/-- The account keeps what an actor asked for. -/
theorem awaits_step (L : Ledger S) (e : Event S) (a : ActorId) :
    (L.step e).awaits a = ((e.request a).getD (L.awaits a)) := by
  cases e with
  | init b q =>
    by_cases hb : b = a
    · simp [step, Event.request, hb]
    · simp [step, Event.request, hb, Function.update_of_ne (Ne.symm hb)]
  | ret b r =>
    by_cases hb : b = a
    · cases r <;> simp [step, Event.request, hb]
    · cases r <;> simp [step, Event.request, hb, Function.update_of_ne (Ne.symm hb)]
  | push q m receiver => cases receiver <;> rfl
  | poll q msg => simp [step, Event.request]
  | call b msg => simp [step, Event.request]
  | _ => rfl

/-- The account keeps the queue a message was pushed on, until it is consumed. -/
theorem unconsumed_step (L : Ledger S) {e : Event S} {m : MessageId} (hm : ¬ e.Moves m) :
    (L.step e).unconsumed m = L.unconsumed m := by
  have hconsume : ∀ msg : Option MessageId, msg ≠ some m →
      (L.consume msg).unconsumed m = L.unconsumed m := by
    intro msg hmsg
    cases msg with
    | none => rfl
    | some n =>
      have hn : m ≠ n := fun he => hmsg (by rw [he])
      simp [consume, hn]
  cases e with
  | push q n receiver =>
    have hn : m ≠ n := fun he => hm he.symm
    cases receiver <;> simp [step, hn]
  | poll q msg => exact hconsume msg hm
  | call b msg => exact hconsume msg hm
  | ret b r => cases r <;> rfl
  | _ => rfl

theorem unconsumed_moves (L : Ledger S) {e : Event S} {m : MessageId} (hm : e.Moves m)
    {q : QueueId} (hq : (L.step e).unconsumed m = some q) : ∃ receiver, e = .push q m receiver := by
  cases e with
  | push r n receiver =>
    obtain rfl : n = m := hm
    have hr : r = q := by cases receiver <;> simpa [step] using hq
    exact ⟨receiver, by rw [hr]⟩
  | poll r msg =>
    obtain rfl : msg = some m := hm
    simp [step, consume] at hq
  | call b msg =>
    obtain rfl : msg = some m := hm
    simp [step, consume] at hq
  | _ => exact hm.elim

end Ledger

/-- What the actor asked for last, in the account. -/
theorem ledger_awaits (a : ActorId) (log : List (Event S)) :
    (ledger log).awaits a = (request a log).join := by
  induction log using List.reverseRecOn with
  | nil => rfl
  | append_singleton log e ih =>
    have hrequest : request a (log ++ [e]) = (e.request a).or (request a log) := by
      rw [request, List.filterMap_append]
      cases he : e.request a with
      | none => simp [he, request]
      | some r => simp [he]
    rw [ledger_append, hrequest]
    change ((ledger log).step e).awaits a = _
    rw [Ledger.awaits_step, ih]
    cases e.request a <;> rfl

/-- The account keeps the queue of every message that has not been consumed. -/
theorem ledger_unconsumed {q : QueueId} {m : MessageId} {log : List (Event S)} :
    (ledger log).unconsumed m = some q ↔ Unconsumed q m log := by
  induction log using List.reverseRecOn with
  | nil =>
    constructor
    · intro h
      cases h
    · rintro ⟨pre, receiver, post, heq, -⟩
      simp at heq
  | append_singleton log e ih =>
    rw [ledger_append]
    change ((ledger log).step e).unconsumed m = some q ↔ _
    by_cases hm : e.Moves m
    · constructor
      · intro h
        obtain ⟨receiver, rfl⟩ := Ledger.unconsumed_moves _ hm h
        exact ⟨log, receiver, [], rfl, by simp⟩
      · rintro ⟨pre, receiver, post, heq, hpost⟩
        rcases Trace.split_concat heq with ⟨rfl, rfl, -⟩ | ⟨mid, rfl, -⟩
        · cases receiver <;> simp [Ledger.step]
        · exact absurd hm (hpost e (by simp))
    · rw [Ledger.unconsumed_step _ hm, ih]
      constructor
      · rintro ⟨pre, receiver, post, rfl, hpost⟩
        refine ⟨pre, receiver, post ++ [e], by simp, fun e' he' => ?_⟩
        rcases List.mem_append.mp he' with he' | he'
        · exact hpost e' he'
        · rwa [List.mem_singleton.mp he']
      · rintro ⟨pre, receiver, post, heq, hpost⟩
        rcases Trace.split_concat heq with ⟨rfl, rfl, -⟩ | ⟨mid, rfl, hlog⟩
        · exact absurd rfl hm
        · exact ⟨pre, receiver, mid, hlog, fun e' he' => hpost e' (by simp [he'])⟩

namespace Ledger

/-- The messages of the queue on their way to the actor: the one given to it, and those queued. -/
def coming (L : Ledger S) (a : ActorId) (q : QueueId) : List MessageId :=
  (if L.awaits a = some q then (L.mail a).toList else []) ++ L.content q

variable {L : Ledger S} {es : List (Event S)} {a : ActorId} {q : QueueId}

/-- What is pushed on the queue comes out at the actor, if nobody else consumes from it. -/
theorem coming_step {e : Event S} (he : L.Law e) {asked : Option (Option QueueId)}
    (hasked : L.awaits a = asked.join) (honly : ∀ b, L.awaits b = some q → b = a)
    (hpoll : ∀ m, e ≠ .poll q (some m)) :
    L.coming a q ++ (e.pushedOn q).toList = e.delivered a q asked ++ (L.step e).coming a q := by
  cases e with
  | init b r =>
    by_cases hb : b = a
    · subst hb
      simp [coming, step, Event.pushedOn, Event.delivered, he.1]
    · simp [coming, step, Event.pushedOn, Event.delivered, Ne.symm hb]
  | ret b r =>
    have hmail : L.mail b = none := he
    by_cases hb : b = a
    · subst hb
      cases r <;> simp [coming, step, Event.pushedOn, Event.delivered, hmail]
    · cases r <;> simp [coming, step, Event.pushedOn, Event.delivered, Ne.symm hb]
  | push r m receiver =>
    by_cases hr : r = q
    · subst hr
      cases receiver with
      | none =>
        by_cases hq : L.awaits a = some r
        · simp [coming, step, Event.pushedOn, Event.delivered, hq]
        · simp [coming, step, Event.pushedOn, Event.delivered, hq]
      | some b =>
        obtain ⟨hnil, hmail, hawaits⟩ := he.2 b rfl
        obtain rfl := honly b hawaits
        simp [coming, step, Event.pushedOn, Event.delivered, hnil, hmail, hawaits]
    · cases receiver with
      | none =>
        by_cases hq : L.awaits a = some q
        · simp [coming, step, Event.pushedOn, Event.delivered, hq, hr, Ne.symm hr]
        · simp [coming, step, Event.pushedOn, Event.delivered, hq, hr, Ne.symm hr]
      | some b =>
        by_cases hb : b = a
        · subst hb
          obtain ⟨-, -, hawaits⟩ := he.2 b rfl
          simp [coming, step, Event.pushedOn, Event.delivered, hr, hawaits]
        · simp [coming, step, Event.pushedOn, Event.delivered, hr, Ne.symm hb]
  | poll r msg =>
    by_cases hr : r = q
    · subst hr
      cases msg with
      | none =>
        have hnil : L.content r = [] := List.head?_eq_none_iff.mp he.1.symm
        simp [coming, step, Event.pushedOn, Event.delivered, hnil]
      | some m => exact absurd rfl (hpoll m)
    · simp [coming, step, Event.pushedOn, Event.delivered, Ne.symm hr]
  | take b r m =>
    obtain ⟨hhead, hmail, hawaits⟩ := he
    obtain ⟨rest, hcontent⟩ := List.head?_eq_some_iff.mp hhead
    by_cases hr : r = q
    · subst hr
      obtain rfl := honly b hawaits
      simp [coming, step, Event.pushedOn, Event.delivered, hcontent, hmail, hawaits]
    · by_cases hb : b = a
      · subst hb
        simp [coming, step, Event.pushedOn, Event.delivered, Ne.symm hr, hawaits, hr]
      · simp [coming, step, Event.pushedOn, Event.delivered, Ne.symm hr, Ne.symm hb]
  | call b msg =>
    by_cases hb : b = a
    · subst hb
      obtain rfl : msg = L.mail b := he.1
      have hiff : asked = some (some q) ↔ L.awaits b = some q := by
        rw [hasked, Option.join_eq_some_iff]
      simp only [coming, step, Event.pushedOn, Event.delivered, true_and, hiff, consume_awaits,
        consume_content]
      by_cases hq : L.awaits b = some q
      · simp [hq]
      · simp [hq]
    · simp [coming, step, Event.pushedOn, Event.delivered, hb, Ne.symm hb]
  | _ =>
    by_cases hq : L.awaits a = some q
    · simp [coming, step, enqueue, Event.pushedOn, Event.delivered, hq]
    · simp [coming, step, enqueue, Event.pushedOn, Event.delivered, hq]

/-- What has been pushed on the queue has come out at the actor or is on its way there. -/
theorem Lawful.coming (h : L.Lawful es) (honly : OnlyConsumer a q es)
    {asked : Option (Option QueueId)} (hasked : L.awaits a = asked.join)
    (hbefore : ∀ b, L.awaits b = some q → b = a) :
    L.coming a q ++ pushed q es = received a q asked es ++ (L.after es).coming a q := by
  induction es generalizing L asked with
  | nil => simp [pushed, received]
  | cons e es ih =>
    have hstep := coming_step h.1 hasked hbefore fun m he => honly.polls m (by simp [he])
    have hasked' : (L.step e).awaits a = ((e.request a).or asked).join := by
      rw [awaits_step, hasked]
      cases e.request a <;> rfl
    have hbefore' : ∀ b, (L.step e).awaits b = some q → b = a := by
      intro b hb
      rw [awaits_step] at hb
      cases hr : e.request b with
      | none =>
        rw [hr] at hb
        exact hbefore b hb
      | some r =>
        rw [hr] at hb
        obtain rfl : r = some q := hb
        exact honly.asks e List.mem_cons_self b hr
    have honly' : OnlyConsumer a q es :=
      ⟨fun e' he' => honly.asks e' (List.mem_cons_of_mem _ he'),
        fun m hm => honly.polls m (List.mem_cons_of_mem _ hm)⟩
    have hcons : pushed q (e :: es) = (e.pushedOn q).toList ++ pushed q es :=
      Trace.filterMap_cons _ e es
    calc L.coming a q ++ pushed q (e :: es)
        = (L.coming a q ++ (e.pushedOn q).toList) ++ pushed q es := by
          rw [hcons, List.append_assoc]
      _ = e.delivered a q asked ++ ((L.step e).coming a q ++ pushed q es) := by
          rw [hstep, List.append_assoc]
      _ = e.delivered a q asked ++ (received a q ((e.request a).or asked) es ++
            ((L.step e).after es).coming a q) := by
          rw [ih h.2 honly' hasked' hbefore']
      _ = received a q asked (e :: es) ++ (L.after (e :: es)).coming a q := by
          rw [received, List.append_assoc, after_cons]

end Ledger

theorem Section.called_of_mem {s s₁ : State S} {x : Ctx} {act : Action S} {pc : Pc S}
    {es : List (Event S)} (h : Section s x act s₁ pc es) {a : ActorId} {msg : Option MessageId}
    (hmem : .call a msg ∈ es) : es = [.call a msg] ∧ (s.pc x).carries = some a := by
  cases h with
  | @called b caller hpc =>
    cases List.mem_singleton.mp hmem
    exact ⟨rfl, by rw [hpc]; rfl⟩
  | _ => simp at hmem

/-- Nothing but `mg_actor_init` sets the function of an actor. -/
theorem Section.func_of_init {s s₁ : State S} {x : Ctx} {act : Action S} {pc : Pc S}
    {es : List (Event S)} (h : Section s x act s₁ pc es) {a : ActorId} (ha : s₁.func a = true) :
    s.func a = true ∨ ∃ q, es = [.init a q] := by
  cases h with
  | @initialised b vect q _ _ hs =>
    by_cases hb : a = b
    · exact Or.inr ⟨q, by rw [hb]⟩
    · left
      simpa [hs, hb] using ha
  | @carved p _ hav =>
    left
    simpa [State.carve, hav] using ha
  | _ => exact Or.inl ha

section Run

variable {D : Discipline S} {s : State S} {log : List (Event S)}

theorem request_append (a : ActorId) (log es : List (Event S)) :
    request a (log ++ es) = (request a es).or (request a log) := by
  simp [request, List.getLast?_append]

/-- An initialised actor has asked for something. -/
theorem History.asked (h : History D s log) {a : ActorId} (ha : s.func a = true) :
    request a log ≠ none := by
  induction h with
  | boot => cases ha
  | @step s log x act s' es _ _ _ hstep ih =>
    obtain ⟨s₁, pc, hsec, rfl⟩ := State.step_section hstep
    rw [request_append]
    rcases hsec.func_of_init ha with hbefore | ⟨q, rfl⟩
    · simp [ih hbefore]
    · simp [request, Event.request]

/-- An actor that is called has asked for something. -/
theorem History.called_asked (h : History RaceFree s log) :
    Trace.Every (fun pre e => ∀ a msg, e = .call a msg → request a pre ≠ none) log := by
  induction h with
  | boot => exact Trace.every_nil _
  | @step s log x act s' es hrun _ _ hstep ih =>
    obtain ⟨⟨loc, spot, hinv⟩, -⟩ := hrun.sound
    obtain ⟨s₁, pc, hsec, rfl⟩ := State.step_section hstep
    refine ih.append fun pre e post heq a msg he => ?_
    have hcall : .call a msg ∈ es := by simp [heq, he]
    obtain ⟨hes, hcarries⟩ := hsec.called_of_mem hcall
    cases pre with
    | nil =>
      rw [List.append_nil]
      exact hrun.asked (hinv.actors.known (hinv.actors.loc_of_carries hcarries))
    | cons e' pre => simp [hes] at heq

/-- Delivery law of actor calls. In every run with atomic operations, for any number of queues,
actors and contexts: a call delivers null exactly if it is the one of `mg_actor_init` without a
queue or the actor has suspended itself; any other message delivered was pushed on the queue the
actor asked for, and since then neither consumed nor pushed; until then it is in that queue or in
the mailbox of an actor in a run queue; and the only consumer of a queue receives its messages in
push order. -/
theorem delivery_exact (h : History Atomic s log) : Delivery s log := by
  have hrace : History RaceFree s log := h.mono fun _ _ _ _ _ => Atomic.raceFree
  obtain ⟨⟨loc, spot, hinv⟩, hlaw⟩ := hrace.sound
  refine ⟨fun a msg pre post heq => ?_, fun a m pre post heq => ?_, fun q m pre post heq => ?_,
    fun hquiet q m hm => hinv.unconsumed_kept hquiet (ledger_unconsumed.mpr hm),
    fun a q honly => ?_⟩
  · have hasked := hrace.called_asked pre _ post heq a msg rfl
    obtain ⟨-, ⟨-, hnull, -⟩, -⟩ := (heq ▸ hlaw).split
    rw [hnull, ledger_awaits]
    cases hr : request a pre with
    | none => exact absurd hr hasked
    | some r => simp
  · obtain ⟨-, ⟨-, hnull, hpushed⟩, -⟩ := (heq ▸ hlaw).split
    obtain ⟨q, hq⟩ := Option.ne_none_iff_exists'.mp fun hnone => by cases hnull.mpr hnone
    refine ⟨q, ?_, ledger_unconsumed.mp ((hpushed m rfl).trans hq)⟩
    rw [ledger_awaits] at hq
    exact Option.join_eq_some_iff.mp hq
  · obtain ⟨-, ⟨-, hpushed⟩, -⟩ := (heq ▸ hlaw).split
    exact ledger_unconsumed.mp (hpushed m rfl)
  · have hcoming : Ledger.nil.coming a q ++ pushed q log =
        received a q none log ++ (ledger log).coming a q :=
      Ledger.Lawful.coming hlaw honly rfl fun b hb => by cases hb
    exact ⟨_, hcoming.symm⟩

end Run

/-- Both routes: the message `1` is handed to the waiting actor `7`, the message `2` waits in the
queue until the actor returns it. -/
theorem delivery_exact_routes : ∃ (s : State testPort) (log : List (Event testPort)),
    Delivery s log ∧ received 7 (.queue 0) none log = [1, 2] := by
  let schedule : List (Action testPort) :=
    [.init 7 0 (some (.queue 0)), .next, .push (.queue 0) 1, .next, .next, .push (.queue 0) 2,
      .start 0, .next, .next, .ret (.queue (.queue 0)), .next, .next, .next, .next]
  have hlog : ((State.boot testPort).replay [] (schedule.map fun act => (0, act))).map Prod.snd =
      some [.init 7 (some (.queue 0)), .push (.queue 0) 1 (some 7), .insert 0 0 7,
        .push (.queue 0) 2 none, .dispatch 0 0 7, .call 7 (some 1), .ret 7 (.queue (.queue 0)),
        .take 7 (.queue 0) 2, .call 7 (some 2)] := by decide
  obtain ⟨⟨s, log⟩, hr, rfl⟩ := Option.map_eq_some_iff.mp hlog
  obtain ⟨hatomic, -⟩ := History.replay_alone (D := Atomic)
    (State.passes_true _ _) (fun s act s' es hs _ _ _ y hy => by
    rw [hs y hy]
    trivial) hr
  exact ⟨s, _, delivery_exact hatomic, by decide⟩

end Magnesium
