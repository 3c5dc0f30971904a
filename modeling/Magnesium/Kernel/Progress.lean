import Magnesium.Kernel.Preservation.Account
import Magnesium.Kernel.Replay

/-!
# Progress

No kernel operation gets stuck: where the callers keep what the assertions ask of them, a context
can begin any operation, and inside of one it always has a next step. In particular no list is
dequeued while it is empty, and no link is taken for one of the other kind.
-/

namespace Magnesium

variable {S : Setup}

/-- What the beginning of an operation asks of its caller: a message that is freed has a pool, and a
vector a priority that is served. -/
def State.Accepts (s : State S) : Action S → Prop
  | .free m => s.parent m ≠ none
  | .init _ vect _ => S.vect2prio vect < S.prioMax
  | .next | .ret _ => False
  | _ => True

/-- What an assertion of the kernel asks of its caller, where a context stands. -/
def State.Permits (s : State S) : Pc S → Prop
  | .schedule vect => S.vect2prio vect < S.prioMax
  | .initPop _ q => (s.queue q).messages = []
  | .sleep a _ => 0 < s.timeout a ∧ s.timeout a < int32Max
  | _ => True

namespace Queue

variable {q : Queue MessageId ActorId}

theorem Valid.push_total (h : q.Valid) (m : MessageId) :
    ∃ Q receiver, q.push m = some (Q, receiver) := by
  obtain ⟨c, hc⟩ := h
  obtain ⟨Q, heq, -⟩ := hc.push m
  exact ⟨Q, _, heq⟩

theorem Valid.pop_total (h : q.Valid) (subscriber : Option ActorId) :
    ∃ Q msg, q.pop subscriber = some (Q, msg) := by
  obtain ⟨c, hc⟩ := h
  obtain ⟨Q, heq, -⟩ := hc.pop subscriber
  exact ⟨Q, _, heq⟩

end Queue

variable {s : State S} {L : Ledger S} {loc : ActorId → Option (Place S)}
  {spot : MessageId → Option Spot} {x : Ctx}

theorem State.sleep_total {a : ActorId} (hpos : 0 < s.timeout a) (hmax : s.timeout a < int32Max)
    (caller : Caller) : (s.sleep x a caller).isSome := by
  obtain ⟨w, -, hw, -⟩ := (s.wheel (S.thisCpu x)).sleep_eq hpos hmax
  have hsame : (s.wheel (S.thisCpu x)).setTimeout a (s.timeout a) = s.wheel (S.thisCpu x) := by
    simp [Wheel.setTimeout, State.wheel]
  rw [Wheel.sleep, hsame] at hw
  simp [State.sleep, hw]

/-- A push always finds a link of the kind that `length` promises. -/
theorem Inv.push_total (h : Inv s L loc spot) (q : QueueId) (m : MessageId) :
    (s.push q m).isSome := by
  obtain ⟨Q, receiver, hpush⟩ := (h.queues.valid q).push_total m
  cases receiver with
  | none => simp [State.push, hpush]
  | some a => simp [State.push, hpush]

/-- The first section of the tick finds a head wherever it finds a last node. -/
theorem State.tickBegin_total (s : State S) (x : Ctx) : (s.tickBegin x).isSome := by
  obtain ⟨i, -, heq⟩ := (s.wheel (S.thisCpu x)).tickBegin_eq
  obtain ⟨w, pc, hw⟩ := Wheel.tickLoop_total
    { s.wheel (S.thisCpu x) with ticks := (s.wheel (S.thisCpu x)).ticks + 1 } i
    (Fifo.last ((s.wheel (S.thisCpu x)).timerq i))
  rw [← heq] at hw
  simp [State.tickBegin, hw]

/-- A context in client code can begin any operation. -/
theorem Inv.begin_total (h : Inv s L loc spot) {act : Action S} (haccepts : s.Accepts act) :
    (s.begin x act).isSome := by
  cases act with
  | push q m => exact h.push_total q m
  | free m =>
    obtain ⟨p, hp⟩ := Option.ne_none_iff_exists'.mp haccepts
    simpa [State.begin, State.free, hp] using h.push_total (.pool p) m
  | poll q =>
    obtain ⟨Q, msg, hpop⟩ := (h.queues.valid q).pop_total none
    simp [State.begin, State.poll, hpop]
  | tick => exact s.tickBegin_total x
  | init a vect q =>
    have hprio : S.vect2prio vect < S.prioMax := haccepts
    cases q <;> simp [State.begin, State.actorInit, hprio]
  | alloc p | start vect | setCpu a c => rfl
  | next | ret r => exact haccepts.elim

/-- A context inside an operation has a next step, if its callers keep their promises. -/
theorem Inv.proceed_total (h : Inv s L loc spot) (hbusy : s.pc x ≠ .idle)
    (hfunc : ∀ a caller, s.pc x ≠ .inFunc a caller) (hpermits : s.Permits (s.pc x)) :
    (s.proceed x (s.pc x)).isSome := by
  cases hpc : s.pc x with
  | idle => exact absurd hpc hbusy
  | inFunc a caller => exact absurd hpc (hfunc a caller)
  | schedule vect =>
    rw [hpc] at hpermits
    have hprio : S.vect2prio vect < S.prioMax := hpermits
    cases hrunq : s.runq (S.thisCpu x) (S.vect2prio vect) with
    | nil => simp [State.proceed, State.popHead, hprio, hrunq]
    | cons a rest => simp [State.proceed, State.popHead, hprio, hrunq]
  | subscribe a q caller =>
    obtain ⟨Q, msg, hpop⟩ := (h.queues.valid q).pop_total (some a)
    simp [State.proceed, State.subscribe, hpop]
  | initPop a q =>
    rw [hpc] at hpermits
    have hnil : (s.queue q).messages = [] := hpermits
    obtain ⟨Q, msg, hpop⟩ := (h.queues.valid q).pop_total (some a)
    cases msg with
    | none => simp [State.proceed, State.initPop, hpop]
    | some m =>
      obtain ⟨-, hm, -, -⟩ := (h.queues.valid q).found hpop
      rw [hnil] at hm
      cases hm
  | sleep a caller =>
    rw [hpc] at hpermits
    exact State.sleep_total hpermits.1 hpermits.2 caller
  | tick i last head =>
    obtain ⟨w, tpc, hw⟩ := (s.wheel (S.thisCpu x)).tickResume_total i last head
    simp [State.proceed, State.tickResume, hw]
  | allocPop p =>
    obtain ⟨Q, msg, hpop⟩ := (h.queues.valid (.pool p)).pop_total none
    simp [State.proceed, State.allocPop, hpop]
  | _ => rfl

variable {log : List (Event S)}

/-- No operation gets stuck. In every state that a race-free run reaches: a context in client code
can begin any operation, if a message it frees has a pool and an actor it initialises a served
priority; a context in an actor's function can return; and a context inside an operation has a next
step, if the vector it serves has a priority, the queue it initialises its actor with is free of
messages, and the delay it sleeps for is one that the kernel admits. -/
theorem History.progress (h : History RaceFree s log) (x : Ctx) :
    (∀ act, s.pc x = .idle → s.Accepts act → (s.step x act).isSome) ∧
    (∀ a caller r, s.pc x = .inFunc a caller → (s.step x (.ret r)).isSome) ∧
    (s.pc x ≠ .idle → (∀ a caller, s.pc x ≠ .inFunc a caller) → s.Permits (s.pc x) →
      (s.step x .next).isSome) := by
  obtain ⟨⟨loc, spot, hinv⟩, -⟩ := h.sound
  refine ⟨fun act hidle haccepts => ?_, fun a caller r hfunc => ?_,
    fun hbusy hfunc hpermits => ?_⟩
  · obtain ⟨out, hout⟩ := Option.isSome_iff_exists.mp (hinv.begin_total (x := x) haccepts)
    simp [State.step, State.advance, hidle, hout]
  · simp [State.step, State.advance, hfunc]
  · obtain ⟨out, hout⟩ := Option.isSome_iff_exists.mp (hinv.proceed_total hbusy hfunc hpermits)
    have hadvance : s.advance x (s.pc x) .next = some out := by
      cases hpc : s.pc x with
      | idle => exact absurd hpc hbusy
      | inFunc a caller => exact absurd hpc (hfunc a caller)
      | _ =>
        rw [hpc] at hout
        exact hout
    simp [State.step, hadvance]

/-- The actor `8` has been handed a message, and its activation goes on; another context can push
meanwhile. -/
theorem History.progress_insert : ∃ (s : State testPort) (log : List (Event testPort)),
    History RaceFree s log ∧ s.pc 0 = .insert 8 .push ∧ (s.step 0 .next).isSome ∧
      (s.step 1 (.push (.queue 0) 2)).isSome := by
  let schedule : List (Action testPort) :=
    [.init 8 1 (some (.queue 0)), .next, .push (.queue 0) 1]
  have hlog : ((State.boot testPort).replay [] (schedule.map fun act => (0, act))).map
      (fun r => r.1.pc 0) = some (.insert 8 .push) := by decide
  obtain ⟨⟨s, log⟩, hr, hpc⟩ := Option.map_eq_some_iff.mp hlog
  obtain ⟨hrace, hothers⟩ := History.replay_alone (D := RaceFree) (State.passes_true _ _)
    (fun s act s' es hs _ _ hstep => RaceFree.of_others hstep fun y hy => by
      rw [hs y hy]
      rfl) hr
  obtain ⟨-, -, hnext⟩ := hrace.progress 0
  obtain ⟨hbegin, -⟩ := hrace.progress 1
  have hpc₀ : s.pc 0 = .insert 8 .push := hpc
  refine ⟨s, log, hrace, hpc₀, hnext ?_ ?_ ?_, hbegin _ (hothers 1 (by decide)) trivial⟩
  · rw [hpc₀]
    exact fun h => by cases h
  · rw [hpc₀]
    exact fun a caller h => by cases h
  · rw [hpc₀]
    trivial

end Magnesium
