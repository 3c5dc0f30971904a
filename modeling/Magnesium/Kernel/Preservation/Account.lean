import Magnesium.Kernel.Preservation.Messages

/-!
# The account of a race-free run

The invariant holds in every state a race-free run reaches, and every event keeps the promise of
the account.
-/

namespace Magnesium

variable {S : Setup}

/-- The invariant of the kernel. -/
structure Inv (s : State S) (L : Ledger S) (loc : ActorId → Option (Place S))
    (spot : MessageId → Option Spot) : Prop where
  actors : ActorInv s L loc
  messages : MessageInv s L spot
  queues : QueueInv s L
  pools : PoolInv s spot

namespace Inv

variable {s s₁ : State S} {L : Ledger S} {loc : ActorId → Option (Place S)}
  {spot : MessageId → Option Spot}

theorem boot (S : Setup) :
    Inv (State.boot S) .nil (fun _ => none)
      fun m => if m ∈ S.statics then some .held else none := by
  refine ⟨⟨⟨fun k => ?_, fun k a => ?_⟩, ?_, ?_, ?_, ?_, ?_, ?_, ?_⟩,
    ⟨⟨fun k => ?_, fun k m => ?_⟩, fun m => ?_⟩, ⟨fun q => Queue.valid_init, ?_, ?_⟩,
    ⟨fun _ => rfl, fun _ => rfl, fun _ => rfl, fun p => ?_, fun p => ?_, fun p => ?_, fun m p => ?_,
      fun m hm => ?_⟩⟩
  · cases k <;> exact List.nodup_nil
  · cases k <;> simp [State.actorsAt, State.boot, Queue.waiters, Queue.init, Pc.carries]
  · intro a
    simp [State.boot]
  · intro a ha
    simp [State.boot] at ha
  · intro a _
    exact ⟨rfl, rfl⟩
  · intro a k ha
    cases ha
  · intro x a ha
    cases ha
  · intro x a caller ha
    cases ha
  · intro x a activator ha
    cases ha
  · cases k with
    | held => exact S.statics_nodup
    | _ => exact List.nodup_nil
  · cases k with
    | held => simp [State.messagesAt, State.boot]
    | _ => simp [State.messagesAt, State.boot, Ledger.nil, Queue.messages, Queue.init]
  · change none = _
    split <;> rfl
  · intro q
    rfl
  · intro c p
    rfl
  · exact ⟨0, by simp [State.boot, (S.pool_initial p).1]⟩
  · simp [State.boot, (S.pool_initial p).1]
  · have hsizes := S.pool_sizes p
    simp [State.boot, S.pool_initial p, hsizes.2.1]
  · simp [State.boot, (S.pool_initial p).1]
  · left
    by_contra hne
    simp [hne] at hm

/-- One step of a race-free run. -/
theorem step (h : Inv s L loc spot) {x : Ctx} {act : Action S} {pc : Pc S} {es : List (Event S)}
    (hadm : s.Admits act) (hrace : RaceFree s x act) (hsec : Section s x act s₁ pc es) :
    ∃ loc' spot', Inv (s₁.setPc x pc) (L.after es) loc' spot' := by
  obtain ⟨loc', hactors⟩ := h.actors.step h.queues hadm hrace hsec
  obtain ⟨spot', hmessages, hpools⟩ := h.messages.step h.pools h.queues h.actors hadm hsec
  exact ⟨loc', spot', hactors, hmessages, h.queues.step hsec, hpools⟩

/-- An actor in the hands of a context is in no run queue. -/
theorem not_ready (h : Inv s L loc spot) {x : Ctx} {a : ActorId}
    (ha : (s.pc x).carries = some a) (c : Fin S.cpuMax) (p : Nat) : a ∉ L.ready c p := by
  rw [← h.queues.ready]
  intro hmem
  have hloc := h.actors.loc_of_mem (k := .ready c p) hmem
  rw [h.actors.loc_of_carries ha] at hloc
  cases hloc

theorem law_poll (h : Inv s L loc spot) {q : QueueId} {Q : Queue MessageId ActorId}
    {msg : Option MessageId} (hpop : (s.queue q).pop none = some (Q, msg)) :
    L.Law (.poll q msg) := by
  cases msg with
  | none =>
    obtain ⟨-, hnil⟩ := (h.queues.valid q).missed hpop
    refine ⟨?_, fun m hm => by cases hm⟩
    rw [← h.queues.content, hnil]
    rfl
  | some m =>
    obtain ⟨-, hm, -, -⟩ := (h.queues.valid q).found hpop
    refine ⟨?_, fun n hn => ?_⟩
    · rw [← h.queues.content, hm]
      rfl
    · obtain rfl := Option.some.inj hn
      have hspot := h.messages.spot_of_mem (k := .queued q) (m := m)
        (by rw [State.messagesAt, hm]; exact List.mem_cons_self)
      rw [h.messages.unconsumed, hspot]
      rfl

/-- The mail of an actor was pushed on the queue it asked for. -/
theorem unconsumed_of_mail (h : Inv s L loc spot) {a : ActorId} {m : MessageId}
    (hm : L.mail a = some m) : L.unconsumed m = L.awaits a := by
  have hspot := h.messages.spot_of_mem (k := .mailed a) (m := m) (by simp [State.messagesAt, hm])
  rw [h.messages.unconsumed, hspot]
  rfl

/-- The events of a section keep the promise of the account. -/
theorem lawful {log : List (Event S)} (h : Inv s (ledger log) loc spot) {x : Ctx}
    {act : Action S} {pc : Pc S} {es : List (Event S)} (hlaw : Lawful log)
    (hadm : s.Admits act) (hsec : Section s x act s₁ pc es) : Lawful (log ++ es) := by
  cases hsec with
  | stored _ hpush _ =>
    have hspot := h.messages.spot_of_mem (k := .held) (State.held_of_pushes hadm hpush)
    refine hlaw.concat ⟨?_, fun a ha => by cases ha⟩
    rw [h.messages.unconsumed, hspot]
    rfl
  | @handed _ q m Q a _ hpush hQ =>
    have hspot := h.messages.spot_of_mem (k := .held) (State.held_of_pushes hadm hpush)
    obtain ⟨-, hnil, -, hw⟩ := (h.queues.valid q).handed hQ
    refine hlaw.concat ⟨?_, fun b hb => ⟨?_, ?_⟩⟩
    · rw [h.messages.unconsumed, hspot]
      rfl
    · rw [← h.queues.content, hnil]
    · obtain rfl := Option.some.inj hb
      exact h.actors.standing a (.waits q)
        (h.actors.loc_of_mem (by rw [State.actorsAt, hw]; exact List.mem_cons_self))
  | polled _ hpop => exact hlaw.concat (h.law_poll hpop)
  | @allocPopped p Q msg _ hpop =>
    have htwo : log ++ [.poll (.pool p) msg, .alloc p msg] =
        (log ++ [.poll (.pool p) msg]) ++ [.alloc p msg] := by simp
    rw [htwo]
    exact (hlaw.concat (h.law_poll hpop)).concat trivial
  | carved _ _ => exact hlaw.concat trivial
  | @initialised a vect q _ _ _ =>
    exact hlaw.concat (h.actors.fresh a (h.actors.loc_of_fresh hadm))
  | @dispatched vect a rest _ hrunq =>
    apply hlaw.concat
    change (Ledger.ready _ _ _).head? = _
    rw [← h.queues.ready, hrunq]
    rfl
  | @called a caller hpc =>
    have hc := h.actors.carried hpc rfl
    have hmailbox : s.mailbox a = (ledger log).mail a := hc.2.mailbox
    refine hlaw.concat ⟨hmailbox, ?_, fun m hm => ?_⟩
    · rw [hmailbox]
      exact hc.2.owed
    · exact h.unconsumed_of_mail (hmailbox.symm.trans hm)
  | @returnedQueue a caller q hpc =>
    have hc := h.actors.carried hpc rfl
    exact hlaw.concat hc.2
  | @returnedSleep a caller delay hpc =>
    have hc := h.actors.carried hpc rfl
    exact hlaw.concat hc.2
  | @taken a q caller Q m hpc hpop =>
    have hc := h.actors.carried hpc rfl
    obtain ⟨-, hm, -, -⟩ := (h.queues.valid q).found hpop
    refine hlaw.concat ⟨?_, hc.2⟩
    rw [← h.queues.content, hm]
    rfl
  | yielded hpc => exact hlaw.concat (h.not_ready (congrArg Pc.carries hpc))
  | inserted hpc => exact hlaw.concat (h.not_ready (congrArg Pc.carries hpc))
  | _ => simpa using hlaw

end Inv

/-- Every state a race-free run reaches is accounted for, and every event lawful. -/
theorem History.sound {s : State S} {log : List (Event S)} (h : History RaceFree s log) :
    (∃ loc spot, Inv s (ledger log) loc spot) ∧ Lawful log := by
  induction h with
  | boot => exact ⟨⟨_, _, Inv.boot S⟩, lawful_nil⟩
  | step _ hadm hrace hstep ih =>
    obtain ⟨⟨loc, spot, hinv⟩, hlaw⟩ := ih
    obtain ⟨s₁, pc, hsec, rfl⟩ := State.step_section hstep
    refine ⟨?_, hinv.lawful hlaw hadm hsec⟩
    rw [ledger_append]
    exact hinv.step hadm hrace hsec

end Magnesium
