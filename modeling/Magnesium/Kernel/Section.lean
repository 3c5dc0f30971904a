import Magnesium.Kernel.Run
import Magnesium.Timer.Visit

/-!
# What one step can do

`Section` lists the outcomes of a step, each with its guard; `step_section` is the only place
where the sections are unfolded.
-/

namespace Magnesium

variable {S : Setup}

/-- One step of the context `x`, up to the move of its program counter. -/
inductive Section (s : State S) (x : Ctx) :
    Action S → State S → Pc S → List (Event S) → Prop
  | stored {act q m Q} : s.pc x = .idle → s.pushes act = some (q, m) →
      (s.queue q).push m = some (Q, none) →
      Section s x act { s.setQueue q Q with held := s.held.erase m } .idle [.push q m none]
  | handed {act q m Q a} : s.pc x = .idle → s.pushes act = some (q, m) →
      (s.queue q).push m = some (Q, some a) →
      Section s x act (State.setMailbox { s.setQueue q Q with held := s.held.erase m } a (some m))
        (.insert a .push) [.push q m (some a)]
  | polled {q Q msg} : s.pc x = .idle → (s.queue q).pop none = some (Q, msg) →
      Section s x (.poll q) { s.setQueue q Q with held := msg.toList ++ s.held } .idle
        [.poll q msg]
  | allocStarted {p} : s.pc x = .idle →
      Section s x (.alloc p) s
        (if (s.pool p).arraySpaceAvailable then .allocCarve p else .allocPop p) []
  | carved {p} : s.pc x = .allocCarve p → (s.pool p).arraySpaceAvailable = true →
      Section s x .next (s.carve p).1 .idle
        [.alloc p (some ((s.pool p).array + (s.pool p).offset))]
  | exhausted {p} : s.pc x = .allocCarve p → (s.pool p).arraySpaceAvailable = false →
      Section s x .next s (.allocPop p) []
  | allocPopped {p Q msg} : s.pc x = .allocPop p → (s.queue (.pool p)).pop none = some (Q, msg) →
      Section s x .next { s.setQueue (.pool p) Q with held := msg.toList ++ s.held } .idle
        [.poll (.pool p) msg, .alloc p msg]
  | tickDone {act w} : (s.pc x = .idle ∨ ∃ i last head, s.pc x = .tick i last head) →
      w.timerq = s.timerq (S.thisCpu x) →
      Section s x act (s.setWheel (S.thisCpu x) w) .idle []
  | tickWoken {act i last head rest w} :
      (s.pc x = .idle ∨ ∃ i last head, s.pc x = .tick i last head) →
      s.timerq (S.thisCpu x) i = head :: rest →
      (∀ k, w.timerq k = if k = i then rest else s.timerq (S.thisCpu x) k) →
      Section s x act (s.setWheel (S.thisCpu x) w) (.insert head (.tick i last head)) []
  | tickMoved {act i j last head rest w} :
      (s.pc x = .idle ∨ ∃ i last head, s.pc x = .tick i last head) →
      s.timerq (S.thisCpu x) i = head :: rest →
      (∀ k, w.timerq k = (if k = i then rest else s.timerq (S.thisCpu x) k) ++
        if k = j then [head] else []) →
      Section s x act (s.setWheel (S.thisCpu x) w) (.tick i last head) []
  | started {vect} : s.pc x = .idle →
      Section s x (.start vect) (s.start x vect).1 (.schedule vect) []
  | initialised {a vect q s'} : s.pc x = .idle →
      s' = { s with
        prio := Function.update s.prio a (S.vect2prio vect)
        func := Function.update s.func a true
        vect := Function.update s.vect a vect
        cpu := Function.update s.cpu a (S.thisCpu x)
        timeout := Function.update s.timeout a 0
        mailbox := Function.update s.mailbox a none } →
      Section s x (.init a vect q) s'
        (match q with | some q => .initPop a q | none => .call a .init) [.init a q]
  | cpuSet {a c} : s.pc x = .idle →
      Section s x (.setCpu a c) { s with cpu := Function.update s.cpu a c } .idle []
  | initSubscribed {a q Q} : s.pc x = .initPop a q →
      (s.queue q).pop (some a) = some (Q, none) →
      Section s x .next (s.setQueue q Q) .idle []
  | dispatched {vect a rest} : s.pc x = .schedule vect →
      s.runq (S.thisCpu x) (S.vect2prio vect) = a :: rest →
      Section s x .next (s.setRunq (S.thisCpu x) (S.vect2prio vect) rest)
        (.call a (.schedule vect)) [.dispatch (S.thisCpu x) (S.vect2prio vect) a]
  | finished {vect} : s.pc x = .schedule vect →
      s.runq (S.thisCpu x) (S.vect2prio vect) = [] → Section s x .next s .idle []
  | called {a caller} : s.pc x = .call a caller →
      Section s x .next { s with held := (s.mailbox a).toList ++ s.held } (.inFunc a caller)
        [.call a (s.mailbox a)]
  | returnedQueue {a caller q} : s.pc x = .inFunc a caller →
      Section s x (.ret (.queue q)) s (.subscribe a q caller) [.ret a (.queue q)]
  | returnedSleep {a caller delay} : s.pc x = .inFunc a caller →
      Section s x (.ret (.sleep delay)) { s with timeout := Function.update s.timeout a delay }
        (.suspend a caller) [.ret a (.sleep delay)]
  | taken {a q caller Q m} : s.pc x = .subscribe a q caller →
      (s.queue q).pop (some a) = some (Q, some m) →
      Section s x .next (s.setQueue q Q) (.store a (some m) caller) [.take a q m]
  | subscribed {a q caller Q} : s.pc x = .subscribe a q caller →
      (s.queue q).pop (some a) = some (Q, none) →
      Section s x .next (s.setQueue q Q) (.store a none caller) []
  | mailboxStored {a msg caller} : s.pc x = .store a msg caller →
      Section s x .next (s.setMailbox a msg) (.test a msg caller) []
  | looped {a msg caller} : s.pc x = .test a msg caller → s.mailbox a ≠ none →
      Section s x .next s (.call a caller) []
  | left {a msg caller} : s.pc x = .test a msg caller → s.mailbox a = none →
      Section s x .next s caller.resume []
  | suspended {a caller} : s.pc x = .suspend a caller →
      Section s x .next (s.setMailbox a none) (.delay a caller) []
  | delayed {a caller} : s.pc x = .delay a caller →
      Section s x .next s (if s.timeout a ≠ 0 then .sleep a caller else .yield a caller) []
  | slept {a caller j w} : s.pc x = .sleep a caller →
      (∀ k, w.timerq k = s.timerq (S.thisCpu x) k ++ if k = j then [a] else []) →
      Section s x .next (s.setWheel (S.thisCpu x) w) caller.resume []
  | yielded {a caller} : s.pc x = .yield a caller →
      Section s x .next (s.actorInsert a) caller.resume [.yield (s.cpu a) (s.prio a) a]
  | inserted {a activator} : s.pc x = .insert a activator →
      Section s x .next (s.actorInsert a) (.request a activator)
        [.insert (s.cpu a) (s.prio a) a]
  | requested {a activator} : s.pc x = .request a activator →
      Section s x .next (s.interruptRequest a) activator.resume []

/-- A section moves no program counter. -/
theorem Section.pc_eq {s s₁ : State S} {x : Ctx} {act : Action S} {pc : Pc S}
    {es : List (Event S)} (h : Section s x act s₁ pc es) : s₁.pc = s.pc := by
  cases h with
  | @carved p _ hav => simp [State.carve, hav]
  | initialised _ hs => rw [hs]
  | _ => rfl

/-- `mg_context_schedule` ends only where it finds its run queue empty. -/
theorem Section.serves {s s₁ : State S} {x : Ctx} {act : Action S} {pc : Pc S}
    {es : List (Event S)} (h : Section s x act s₁ pc es) {vect : Vect}
    (hs : (s.pc x).serves = some vect) :
    pc.serves = some vect ∨ s₁ = s ∧ s.runq (S.thisCpu x) (S.vect2prio vect) = [] := by
  cases h with
  | finished hpc hrunq =>
    rw [hpc] at hs
    obtain rfl := Option.some.inj hs
    exact Or.inr ⟨rfl, hrunq⟩
  | delayed hpc =>
    rw [hpc] at hs
    split <;> exact Or.inl hs
  | left hpc _ =>
    rw [hpc] at hs
    exact Or.inl ((Caller.resume_serves _).trans hs)
  | slept hpc _ =>
    rw [hpc] at hs
    exact Or.inl ((Caller.resume_serves _).trans hs)
  | yielded hpc =>
    rw [hpc] at hs
    exact Or.inl ((Caller.resume_serves _).trans hs)
  | dispatched hpc _ | called hpc | returnedQueue hpc | returnedSleep hpc | taken hpc _
  | subscribed hpc _ | mailboxStored hpc | looped hpc _ | suspended hpc =>
    rw [hpc] at hs
    exact Or.inl hs
  | tickDone hpc _ | tickWoken hpc _ _ | tickMoved hpc _ _ =>
    rcases hpc with hpc | ⟨i, last, head, hpc⟩ <;> rw [hpc] at hs <;> cases hs
  | stored hpc _ _ | handed hpc _ _ | polled hpc _ | allocStarted hpc | carved hpc _
  | exhausted hpc _ | allocPopped hpc _ | started hpc | initialised hpc _ | cpuSet hpc
  | initSubscribed hpc _ | inserted hpc | requested hpc =>
    rw [hpc] at hs
    cases hs

namespace State

variable {s s' : State S} {x : Ctx} {act : Action S} {pc : Pc S} {es : List (Event S)}

theorem push_section {q : QueueId} {m : MessageId} (hpc : s.pc x = .idle)
    (hpush : s.pushes act = some (q, m)) (h : s.push q m = some (s', pc, es)) :
    Section s x act s' pc es := by
  simp only [push, Option.bind_eq_bind, Option.bind_eq_some_iff] at h
  obtain ⟨⟨Q, receiver⟩, hq, h⟩ := h
  cases receiver with
  | none =>
    cases h
    exact .stored hpc hpush hq
  | some a =>
    cases h
    exact .handed hpc hpush hq

/-- A section of the tick, whether it is the first one or follows a window. -/
theorem tick_section {w w' : Wheel S.timerqMax ActorId} {i : Fin S.timerqMax}
    {last : Option ActorId} {tpc : TickPc S.timerqMax ActorId}
    (hpc : s.pc x = .idle ∨ ∃ i last head, s.pc x = .tick i last head)
    (hw : w.timerq = s.timerq (S.thisCpu x))
    (h : (w' = w ∧ tpc = .done) ∨ w.tickLoop i last = some (w', tpc)) :
    Section s x act (s.setWheel (S.thisCpu x) w') (tickPc tpc) [] := by
  have hdone : w' = w ∧ tpc = .done → Section s x act (s.setWheel (S.thisCpu x) w')
      (tickPc tpc) [] := by
    rintro ⟨rfl, rfl⟩
    exact .tickDone hpc hw
  rcases h with h | h
  · exact hdone h
  · rcases Wheel.tickLoop_cases h with h | ⟨head, rest, wake, dest, hq, hv, rfl⟩
    · exact hdone h
    · have hq' : s.timerq (S.thisCpu x) i = head :: rest := by rw [← hw, hq]
      have htimerq := hv.timerq
      rw [hw] at htimerq
      cases hv with
      | wake _ => exact .tickWoken hpc hq' fun k => by simpa using htimerq k
      | @requeue j _ _ =>
        refine .tickMoved (j := j) hpc hq' fun k => ?_
        rw [htimerq k]
        simp only [Option.some.injEq, @eq_comm _ j k]

theorem begin_section (hpc : s.pc x = .idle) (h : s.begin x act = some (s', pc, es)) :
    Section s x act s' pc es := by
  cases act with
  | next => simp [begin] at h
  | ret r => simp [begin] at h
  | push q m => exact push_section hpc rfl h
  | free m =>
    simp only [begin, free, Option.bind_eq_bind, Option.bind_eq_some_iff] at h
    obtain ⟨p, hp, h⟩ := h
    exact push_section hpc (by simp [pushes, hp]) h
  | poll q =>
    simp only [begin, poll, Option.bind_eq_bind, Option.bind_eq_some_iff, Option.pure_def] at h
    obtain ⟨⟨Q, msg⟩, hq, h⟩ := h
    cases h
    exact .polled hpc hq
  | alloc p =>
    cases h
    exact .allocStarted hpc
  | tick =>
    simp only [begin, tickBegin, Option.bind_eq_bind, Option.bind_eq_some_iff,
      Option.pure_def] at h
    obtain ⟨⟨w, tpc⟩, hw, h⟩ := h
    cases h
    obtain ⟨i, -, heq⟩ := (s.wheel (S.thisCpu x)).tickBegin_eq
    rw [heq] at hw
    exact tick_section (Or.inl hpc) rfl (Or.inr hw)
  | start vect =>
    cases h
    exact .started hpc
  | init a vect q =>
    simp only [begin, actorInit] at h
    split at h
    · cases q with
      | none =>
        cases h
        exact .initialised hpc rfl
      | some q =>
        cases h
        exact .initialised hpc rfl
    · simp at h
  | setCpu a c =>
    cases h
    exact .cpuSet hpc

theorem proceed_section (h : s.proceed x (s.pc x) = some (s', pc, es)) :
    Section s x .next s' pc es := by
  cases hpc : s.pc x <;> rw [hpc] at h <;> simp only [proceed] at h
  case idle => simp at h
  case inFunc => simp at h
  case schedule vect =>
    simp only [popHead] at h
    split at h
    · split at h
      · rename_i hempty
        cases h
        exact .finished hpc (List.isEmpty_iff.mp hempty)
      · simp only [Option.bind_eq_bind, Option.bind_eq_some_iff, Option.pure_def] at h
        obtain ⟨⟨a, rest⟩, hd, h⟩ := h
        cases h
        exact .dispatched hpc (Fifo.dequeue_eq_some.mp hd)
    · simp at h
  case call a caller =>
    cases h
    exact .called hpc
  case subscribe a q caller =>
    simp only [subscribe, Option.bind_eq_bind, Option.bind_eq_some_iff, Option.pure_def] at h
    obtain ⟨⟨Q, msg⟩, hq, h⟩ := h
    cases msg with
    | none =>
      cases h
      exact .subscribed hpc hq
    | some m =>
      cases h
      exact .taken hpc hq
  case store a msg caller =>
    cases h
    exact .mailboxStored hpc
  case test a msg caller =>
    by_cases hm : s.mailbox a = none
    · simp only [test, hm, ne_eq, not_true_eq_false, if_false] at h
      cases h
      exact .left hpc hm
    · simp only [test, ne_eq, hm, not_false_eq_true, if_true] at h
      cases h
      exact .looped hpc hm
  case suspend a caller =>
    cases h
    exact .suspended hpc
  case delay a caller =>
    cases h
    exact .delayed hpc
  case sleep a caller =>
    simp only [sleep, Option.bind_eq_bind, Option.bind_eq_some_iff, Option.pure_def] at h
    obtain ⟨w, hw, h⟩ := h
    cases h
    obtain ⟨j, hj⟩ := Wheel.actorTimeout_timerq hw
    exact .slept hpc hj
  case yield a caller =>
    cases h
    exact .yielded hpc
  case initPop a q =>
    simp only [initPop, Option.bind_eq_bind, Option.bind_eq_some_iff] at h
    obtain ⟨⟨Q, msg⟩, hq, h⟩ := h
    cases msg with
    | none =>
      cases h
      exact .initSubscribed hpc hq
    | some m => simp at h
  case insert a activator =>
    cases h
    exact .inserted hpc
  case request a activator =>
    cases h
    exact .requested hpc
  case tick i last head =>
    simp only [tickResume, Option.bind_eq_bind, Option.bind_eq_some_iff, Option.pure_def] at h
    obtain ⟨⟨w, tpc⟩, hw, h⟩ := h
    cases h
    rw [Wheel.tickResume_eq] at hw
    have hloop : (w = s.wheel (S.thisCpu x) ∧ tpc = .done) ∨
        (s.wheel (S.thisCpu x)).tickLoop i last = some (w, tpc) := by
      split at hw
      · cases hw
        exact Or.inl ⟨rfl, rfl⟩
      · exact Or.inr hw
    exact tick_section (Or.inr ⟨i, last, head, hpc⟩) rfl hloop
  case allocCarve p =>
    cases hav : (s.pool p).arraySpaceAvailable with
    | true =>
      have hc := Section.carved hpc hav
      simp only [carve, hav, if_true] at h hc
      cases h
      exact hc
    | false =>
      simp only [carve, hav, Bool.false_eq_true, if_false] at h
      cases h
      exact .exhausted hpc hav
  case allocPop p =>
    simp only [allocPop, Option.bind_eq_bind, Option.bind_eq_some_iff, Option.pure_def] at h
    obtain ⟨⟨Q, msg⟩, hq, h⟩ := h
    cases h
    exact .allocPopped hpc hq

/-- Every step is one of the sections. -/
theorem step_section (h : s.step x act = some (s', es)) :
    ∃ s₁ pc, Section s x act s₁ pc es ∧ s' = s₁.setPc x pc := by
  simp only [step, Option.bind_eq_bind, Option.bind_eq_some_iff, Option.pure_def] at h
  obtain ⟨⟨s₁, pc, es₁⟩, hadv, h⟩ := h
  cases h
  refine ⟨s₁, pc, ?_, rfl⟩
  cases hpc : s.pc x with
  | idle =>
    rw [hpc] at hadv
    exact begin_section hpc hadv
  | inFunc a caller =>
    rw [hpc] at hadv
    cases act with
    | ret r =>
      cases r with
      | queue q =>
        cases hadv
        exact .returnedQueue hpc
      | sleep delay =>
        cases hadv
        exact .returnedSleep hpc
    | next => simp [advance, proceed] at hadv
    | _ => simp [advance] at hadv
  | _ =>
    cases act with
    | next => exact proceed_section (by rw [hpc] at hadv ⊢; exact hadv)
    | _ => simp [advance, hpc] at hadv

/-- A step moves one context. -/
theorem step_pc_other (h : s.step x act = some (s', es)) {y : Ctx} (hy : y ≠ x) :
    s'.pc y = s.pc y := by
  obtain ⟨s₁, pc, hsec, rfl⟩ := step_section h
  simp [setPc, hy, hsec.pc_eq]

end State

end Magnesium
