import Magnesium.Kernel.Quiet
import Magnesium.Kernel.Replay

/-!
# Exclusive placement of actors and messages

Every actor has one link, shared by run queues, timer queues and message queues, and so has every
message. Between two atomic operations each link is in one list at most, and an initialised actor is
out of all lists only while its function runs.
-/

namespace Magnesium

variable {S : Setup}

/-- The message is in a queue, in the mailbox of an actor that is in a run queue, or in the hands
of a client. -/
def State.MessageAt (s : State S) (m : MessageId) : Spot → Prop
  | .queued q => m ∈ (s.queue q).messages
  | .mailed a => (∃ c p, a ∈ s.runq c p) ∧ s.mailbox a = some m
  | .held => m ∈ s.held

/-- Every link is in one list, once. -/
structure Exclusive (s : State S) : Prop where
  /-- An initialised actor is in one place, and nothing else is in any. -/
  place : ∀ a, s.func a = true → ∃! k : Place S, a ∈ s.actorsAt k
  initialised : ∀ a k, a ∈ s.actorsAt k → s.func a = true
  /-- The run queue is the one of the CPU and the priority of the actor. -/
  ready : ∀ a c p, a ∈ s.runq c p → c = s.cpu a ∧ p = s.prio a
  /-- An actor in no list is in its function. -/
  running : ∀ a x, a ∈ s.actorsAt (.carried x) → ∃ caller, s.pc x = .inFunc a caller
  linkedOnce : ∀ k, (s.actorsAt k).Nodup
  /-- A message is in one spot at most. -/
  message : ∀ m k l, s.MessageAt m k → s.MessageAt m l → k = l
  queuedOnce : ∀ q, (s.queue q).messages.Nodup
  heldOnce : s.held.Nodup

variable {s : State S} {log : List (Event S)}

/-- Exclusive placement. In every state between two operations of a run with atomic operations, in
any order and on any number of CPUs, each initialised actor is in exactly one place, in the run
queue of its own CPU and priority if it is in one, and in no list only while its function runs; each
message is in at most one queue, mailbox or hand, once. -/
theorem placement_exclusive (h : History Atomic s log) (hquiet : s.Quiet) : Exclusive s := by
  have hrace : History RaceFree s log := h.mono fun _ _ _ _ _ => Atomic.raceFree
  obtain ⟨⟨loc, spot, hinv⟩, -⟩ := hrace.sound
  have hspot : ∀ m k, s.MessageAt m k → spot m = some k := by
    intro m k hm
    cases k with
    | queued q => exact hinv.messages.spot_of_mem (k := .queued q) hm
    | held => exact hinv.messages.spot_of_mem (k := .held) hm
    | mailed a =>
      obtain ⟨⟨c, p, ha⟩, hbox⟩ := hm
      obtain ⟨-, -, hmail⟩ := hinv.actors.ready_mail ha
      apply hinv.messages.spot_of_mem (k := .mailed a)
      rw [State.messagesAt, ← hmail, hbox]
      exact Option.mem_toList.mpr rfl
  refine ⟨fun a ha => ?_, fun a k ha => hinv.actors.known (hinv.actors.loc_of_mem ha),
    fun a c p ha => ?_, fun a x ha => ?_, hinv.actors.placed.nodup, fun m k l hk hl => ?_,
    fun q => hinv.messages.placed.nodup (.queued q), hinv.messages.placed.nodup .held⟩
  · obtain ⟨k, hk⟩ := Option.ne_none_iff_exists'.mp ((hinv.actors.func a).mp ha)
    have hmem : a ∈ s.actorsAt k := (hinv.actors.placed.mem_iff k a).mpr hk
    exact ⟨k, hmem, fun l hl => hinv.actors.placed.unique hl hmem⟩
  · obtain ⟨hcpu, hprio, -⟩ := hinv.actors.ready_mail ha
    exact ⟨hcpu.symm, hprio.symm⟩
  · exact (hinv.actors.running hquiet (hinv.actors.loc_of_mem ha)).1
  · exact Option.some.inj ((hspot m k hk).symm.trans (hspot m l hl))

/-- The actor `7` sleeps, the actor `8` has been handed the message `1`, and the message `2`
waits. -/
theorem placement_exclusive_mixed : ∃ s : State testPort, Exclusive s ∧ s.timerq 0 0 = [7] ∧
    s.runq 0 1 = [8] ∧ s.mailbox 8 = some 1 ∧ (s.queue (.queue 0)).messages = [2] := by
  let schedule : List (Action testPort) :=
    [.init 7 0 none, .next, .ret (.sleep 1), .next, .next, .next,
      .init 8 1 (some (.queue 0)), .next, .push (.queue 0) 1, .next, .next, .push (.queue 0) 2]
  have hlog : ((State.boot testPort).replay [] (schedule.map fun act => (0, act))).map
      (fun r => (r.1.pc 0, r.1.timerq 0 0, r.1.runq 0 1, r.1.mailbox 8,
        (r.1.queue (.queue 0)).messages)) = some (.idle, [7], [8], some 1, [2]) := by decide
  obtain ⟨⟨s, log⟩, hr, heq⟩ := Option.map_eq_some_iff.mp hlog
  simp only [Prod.mk.injEq] at heq
  obtain ⟨hpc, htimerq, hrunq, hmailbox, hmessages⟩ := heq
  obtain ⟨hatomic, hidle⟩ := History.replay_alone (D := Atomic)
    (State.passes_true _ _) (fun s act s' es hs _ _ _ y hy => by
    rw [hs y hy]
    trivial) hr
  refine ⟨s, placement_exclusive hatomic fun x => ?_, htimerq, hrunq, hmailbox, hmessages⟩
  by_cases hx : x = 0
  · rw [hx, hpc]
    trivial
  · rw [hidle x hx]
    trivial

end Magnesium
