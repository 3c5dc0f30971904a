import Magnesium.Core.Trace
import Magnesium.Kernel.Preservation.Account
import Magnesium.Kernel.Replay
import Mathlib.Data.List.Nodup

/-!
# Run order within a priority

A run queue gives actors out in the order in which pushes, timers and yields put them in. So an
actor that yields runs again after every other actor that was ready then, as long as it is in the
queue once: an actor that is called while it is still in its run queue, and yields, runs again
before the actors behind it.
-/

namespace Magnesium

variable {S : Setup}

namespace Event

/-- The actor the event inserts in the run queue. -/
def insertedIn (c : Fin S.cpuMax) (p : Nat) : Event S → Option ActorId
  | .insert c' p' a | .yield c' p' a => if c' = c ∧ p' = p then some a else none
  | _ => none

/-- The actor the event dispatches from the run queue. -/
def dispatchedFrom (c : Fin S.cpuMax) (p : Nat) : Event S → Option ActorId
  | .dispatch c' p' a => if c' = c ∧ p' = p then some a else none
  | _ => none

end Event

/-- The actors inserted in a run queue, in order. -/
def inserted (c : Fin S.cpuMax) (p : Nat) (log : List (Event S)) : List ActorId :=
  log.filterMap (Event.insertedIn c p)

/-- The actors dispatched from a run queue, in order. -/
def dispatched (c : Fin S.cpuMax) (p : Nat) (log : List (Event S)) : List ActorId :=
  log.filterMap (Event.dispatchedFrom c p)

/-- The order in which a run dispatches actors, up to the state `s`. -/
structure RunOrder (s : State S) (log : List (Event S)) : Prop where
  /-- What has been inserted in a run queue has been dispatched from it, in order, or is there. -/
  order : ∀ c p, inserted c p log = dispatched c p log ++ s.runq c p
  /-- Between a yield and the next dispatch of the actor, the actors that were in the run queue at
  the yield are dispatched, once, and no others. -/
  yielded : ∀ c p a pre mid post,
    log = pre ++ .yield c p a :: (mid ++ .dispatch c p a :: post) → a ∉ dispatched c p mid →
    inserted c p pre = dispatched c p pre ++ dispatched c p mid ∧ (dispatched c p mid).Nodup
  /-- `mg_context_schedule` returns only where it finds its run queue empty. -/
  returned : ∀ x act s' es vect, s.step x act = some (s', es) → (s.pc x).serves = some vect →
    (s'.pc x).serves = none → s.runq (S.thisCpu x) (S.vect2prio vect) = []
  /-- An actor is dispatched for a vector of its own priority, on its own CPU. -/
  own : ∀ x act s' es c p a, s.step x act = some (s', es) → .dispatch c p a ∈ es →
    ∃ vect, s.pc x = .schedule vect ∧ c = S.thisCpu x ∧ p = S.vect2prio vect ∧
      s.cpu a = c ∧ s.prio a = p

/-- The dispatches from a run queue are a prefix of the insertions. -/
theorem RunOrder.dispatched_prefix {s : State S} {log : List (Event S)} (h : RunOrder s log)
    (c : Fin S.cpuMax) (p : Nat) : dispatched c p log <+: inserted c p log :=
  ⟨_, (h.order c p).symm⟩

namespace Ledger

variable {L : Ledger S} {es : List (Event S)} {c : Fin S.cpuMax} {p : Nat}

theorem enqueue_ready (L : Ledger S) (c' : Fin S.cpuMax) (p' : Nat) (a : ActorId) :
    (L.enqueue c' p' a).ready c p =
      L.ready c p ++ (if c' = c ∧ p' = p then some a else none).toList := by
  by_cases hc : c' = c
  · subst hc
    by_cases hp : p' = p
    · subst hp
      simp [enqueue]
    · simp [enqueue, hp, Ne.symm hp]
  · simp [enqueue, hc, Ne.symm hc]

/-- One event keeps the order of a run queue. -/
theorem order_step {e : Event S} (he : L.Law e) :
    L.ready c p ++ (e.insertedIn c p).toList =
      (e.dispatchedFrom c p).toList ++ (L.step e).ready c p := by
  cases e with
  | insert c' p' a => exact (enqueue_ready L c' p' a).symm
  | yield c' p' a => exact (enqueue_ready L c' p' a).symm
  | dispatch c' p' a =>
    obtain ⟨rest, hready⟩ := List.head?_eq_some_iff.mp he
    by_cases hc : c' = c
    · subst hc
      by_cases hp : p' = p
      · subst hp
        simp [step, Event.insertedIn, Event.dispatchedFrom, hready]
      · simp [step, Event.insertedIn, Event.dispatchedFrom, hp, Ne.symm hp]
    · simp [step, Event.insertedIn, Event.dispatchedFrom, hc, Ne.symm hc]
  | push q m receiver => cases receiver <;> simp [step, Event.insertedIn, Event.dispatchedFrom]
  | ret a r => cases r <;> simp [step, Event.insertedIn, Event.dispatchedFrom]
  | _ => simp [step, Event.insertedIn, Event.dispatchedFrom]

/-- What was in a run queue and has been inserted since has been dispatched, in order, or is
there. -/
theorem Lawful.order (h : L.Lawful es) :
    L.ready c p ++ inserted c p es = dispatched c p es ++ (L.after es).ready c p := by
  induction es generalizing L with
  | nil => simp [inserted, dispatched]
  | cons e es ih =>
    have hins : inserted c p (e :: es) = (e.insertedIn c p).toList ++ inserted c p es :=
      Trace.filterMap_cons _ e es
    have hdis : dispatched c p (e :: es) = (e.dispatchedFrom c p).toList ++ dispatched c p es :=
      Trace.filterMap_cons _ e es
    calc L.ready c p ++ inserted c p (e :: es)
        = (L.ready c p ++ (e.insertedIn c p).toList) ++ inserted c p es := by
          rw [hins, List.append_assoc]
      _ = (e.dispatchedFrom c p).toList ++ ((L.step e).ready c p ++ inserted c p es) := by
          rw [order_step h.1, List.append_assoc]
      _ = dispatched c p (e :: es) ++ (L.after (e :: es)).ready c p := by
          rw [ih h.2, hdis, List.append_assoc, after_cons]

/-- No actor is in a run queue twice. -/
theorem Lawful.ready_nodup (h : L.Lawful es) (hnodup : (L.ready c p).Nodup) :
    ((L.after es).ready c p).Nodup := by
  induction es generalizing L with
  | nil => exact hnodup
  | cons e es ih =>
    apply ih h.2
    have hstep := order_step (c := c) (p := p) h.1
    cases e with
    | insert c' p' a | yield c' p' a =>
      change ((L.enqueue c' p' a).ready c p).Nodup
      rw [enqueue_ready]
      split
      · have hfront : ([a] ++ L.ready c p).Nodup := List.nodup_cons.mpr ⟨h.1 c p, hnodup⟩
        exact List.nodup_append_comm.mp hfront
      · simpa using hnodup
    | _ =>
      simp only [Event.insertedIn, Option.toList_none, List.append_nil] at hstep
      rw [hstep] at hnodup
      exact (List.nodup_append.mp hnodup).2.1

end Ledger

section Run

variable {s : State S} {log : List (Event S)}

/-- Between a yield and the next dispatch of the actor, the actors before it are dispatched. -/
theorem Lawful.yielded {c : Fin S.cpuMax} {p : Nat} {a : ActorId} {pre mid post : List (Event S)}
    (h : Lawful (pre ++ .yield c p a :: (mid ++ .dispatch c p a :: post)))
    (hfirst : a ∉ dispatched c p mid) :
    inserted c p pre = dispatched c p pre ++ dispatched c p mid ∧ (dispatched c p mid).Nodup := by
  obtain ⟨hpre, hyield, hrest⟩ := h.split
  obtain ⟨hmid, hdispatch, -⟩ := Ledger.lawful_append.mp hrest
  have hbefore : inserted c p pre = dispatched c p pre ++ (ledger pre).ready c p := by
    have horder : Ledger.nil.ready c p ++ inserted c p pre = _ := Ledger.Lawful.order hpre
    exact horder
  have hnodup : ((ledger pre).ready c p).Nodup :=
    Ledger.Lawful.ready_nodup hpre (L := Ledger.nil) List.nodup_nil
  have hback : ((ledger pre).step (.yield c p a)).ready c p = (ledger pre).ready c p ++ [a] := by
    change ((ledger pre).enqueue c p a).ready c p = _
    rw [Ledger.enqueue_ready]
    simp
  obtain ⟨rest, hhead⟩ := List.head?_eq_some_iff.mp hdispatch
  have hsplit : (ledger pre).ready c p ++ a :: inserted c p mid =
      dispatched c p mid ++ a :: rest := by
    have horder := hmid.order (c := c) (p := p)
    rw [hback, hhead, List.append_assoc] at horder
    exact horder
  rw [← Trace.first_split hsplit (hyield c p) hfirst]
  exact ⟨hbefore, hnodup⟩

theorem Section.dispatched_of_mem {s₁ : State S} {x : Ctx} {act : Action S} {pc : Pc S}
    {es : List (Event S)} (h : Section s x act s₁ pc es) {c : Fin S.cpuMax} {p : Nat} {a : ActorId}
    (hmem : .dispatch c p a ∈ es) :
    ∃ vect, s.pc x = .schedule vect ∧ c = S.thisCpu x ∧ p = S.vect2prio vect ∧ a ∈ s.runq c p := by
  cases h with
  | @dispatched vect b rest hpc hrunq =>
    cases List.mem_singleton.mp hmem
    exact ⟨vect, hpc, rfl, rfl, by rw [hrunq]; exact List.mem_cons_self⟩
  | _ => simp at hmem

/-- Run order within a priority. In every run in which no push hands its message to an actor whose
mailbox a context has still to store or to test, and for every behaviour of the actors otherwise,
each run queue dispatches actors in the order of the insertions; an actor that yields runs again
after exactly the actors that were ready at the yield, in order; and `mg_context_schedule`
dispatches actors of its own priority until it finds its run queue empty. -/
theorem run_order_exact (h : History RaceFree s log) : RunOrder s log := by
  obtain ⟨⟨loc, spot, hinv⟩, hlaw⟩ := h.sound
  refine ⟨fun c p => ?_, fun c p a pre mid post heq hfirst => Lawful.yielded (heq ▸ hlaw) hfirst,
    fun x act s' es vect hstep hserves hreturned => ?_, fun x act s' es c p a hstep hmem => ?_⟩
  · rw [hinv.queues.ready]
    have horder : Ledger.nil.ready c p ++ inserted c p log = _ := Ledger.Lawful.order hlaw
    exact horder
  · obtain ⟨s₁, pc, hsec, rfl⟩ := State.step_section hstep
    refine ((hsec.serves hserves).resolve_left fun hpc => ?_).2
    simp [State.setPc, hpc] at hreturned
  · obtain ⟨s₁, pc, hsec, rfl⟩ := State.step_section hstep
    obtain ⟨vect, hpc, hc, hp, ha⟩ := hsec.dispatched_of_mem hmem
    obtain ⟨hcpu, hprio, -⟩ := hinv.actors.standing a (.ready c p)
      (hinv.actors.loc_of_mem (k := .ready c p) ha)
    exact ⟨vect, hpc, hc, hp, hcpu, hprio⟩

end Run

/-- Two actors of one priority; `7` yields while `8` is ready. -/
theorem run_order_exact_yield : ∃ (s : State testPort) (log : List (Event testPort)),
    RunOrder s log ∧ inserted 0 0 log = [7, 8, 7] ∧ dispatched 0 0 log = [7, 8] := by
  let schedule : List (Action testPort) :=
    [.init 7 0 (some (.queue 0)), .next, .init 8 0 (some (.queue 0)), .next,
      .push (.queue 0) 1, .next, .next, .push (.queue 0) 2, .next, .next,
      .start 0, .next, .next, .ret (.sleep 0), .next, .next, .next, .next]
  have hlog : ((State.boot testPort).replay [] (schedule.map fun act => (0, act))).map Prod.snd =
      some [.init 7 (some (.queue 0)), .init 8 (some (.queue 0)), .push (.queue 0) 1 (some 7),
        .insert 0 0 7, .push (.queue 0) 2 (some 8), .insert 0 0 8, .dispatch 0 0 7,
        .call 7 (some 1), .ret 7 (.sleep 0), .yield 0 0 7, .dispatch 0 0 8] := by decide
  obtain ⟨⟨s, log⟩, hr, rfl⟩ := Option.map_eq_some_iff.mp hlog
  obtain ⟨hrace, -⟩ := History.replay_alone (D := RaceFree)
    (State.passes_true _ _) (fun s act s' es hs _ _ hstep =>
    RaceFree.of_others hstep fun y hy => by rw [hs y hy]; rfl) hr
  exact ⟨s, _, run_order_exact hrace, by decide, by decide⟩

/-- The defect of the hand-off breaks the order. Between the store and the test of the mailbox of
the actor `7`, which is linked in its queue again, a preempting context `1` pushes the message `2`:
`7` is in its run queue, and its handler calls it. The call makes `8` ready and yields; `7` is
dispatched again before `8`. -/
theorem run_order_overtaken : ∃ (s : State testPort) (log : List (Event testPort)),
    History AnyOrder s log ∧ ¬ RunOrder s log := by
  let schedule : List (Ctx × Action testPort) :=
    [(1, .init 7 0 (some (.queue 0))), (1, .next), (1, .init 8 0 (some (.queue 1))), (1, .next),
      (1, .push (.queue 0) 1), (1, .next), (1, .next),
      (0, .start 0), (0, .next), (0, .next), (0, .ret (.queue (.queue 0))), (0, .next), (0, .next),
      (1, .push (.queue 0) 2), (1, .next), (1, .next), (0, .next), (0, .next),
      (1, .push (.queue 1) 1), (1, .next), (1, .next),
      (0, .ret (.sleep 0)), (0, .next), (0, .next), (0, .next), (0, .next)]
  have hlog : ((State.boot testPort).replay [] schedule).map Prod.snd =
      some ([.init 7 (some (.queue 0)), .init 8 (some (.queue 1)), .push (.queue 0) 1 (some 7),
        .insert 0 0 7, .dispatch 0 0 7, .call 7 (some 1), .ret 7 (.queue (.queue 0)),
        .push (.queue 0) 2 (some 7), .insert 0 0 7, .call 7 (some 2),
        .push (.queue 1) 1 (some 8), .insert 0 0 8, .ret 7 (.sleep 0)] ++
        .yield 0 0 7 :: ([] ++ .dispatch 0 0 7 :: [])) := by decide
  obtain ⟨⟨s, log⟩, hr, rfl⟩ := Option.map_eq_some_iff.mp hlog
  refine ⟨s, _, History.replay_anyOrder hr, fun horder => ?_⟩
  obtain ⟨hready, -⟩ := horder.yielded 0 0 7 _ _ _ rfl List.not_mem_nil
  exact absurd hready (by decide)

end Magnesium
