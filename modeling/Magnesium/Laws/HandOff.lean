import Magnesium.Kernel.Preservation.Account
import Magnesium.Kernel.Replay

/-!
# Hand-off of messages

A push hands its message to a waiting actor through the field `mailbox`, under the lock of the
queue; `mg_actor_call` stores the result of its own pop there outside of any lock, when the actor
is linked already. As long as no push comes in between, every message handed over is delivered
by the next call, once.
-/

namespace Magnesium

variable {S : Setup}

/-- The event asks for messages of a queue on behalf of `a`. -/
def Event.Asks (a : ActorId) : Event S → Prop
  | .init b (some _) => b = a
  | .ret b (.queue _) => b = a
  | _ => False

/-- What a hand-off owes to clients, after the run `log` to the state `s`. -/
structure HandOff (s : State S) (log : List (Event S)) : Prop where
  /-- A message handed to an actor is in its mailbox until the next call, which delivers it. -/
  delivered : ∀ q m a pre post, log = pre ++ .push q m (some a) :: post →
    ((∀ msg, .call a msg ∉ post) ∧ s.mailbox a = some m) ∨
    ∃ mid rest, post = mid ++ .call a (some m) :: rest ∧ ∀ msg, .call a msg ∉ mid
  /-- Nobody is called with a message again before it is pushed again. -/
  once : ∀ m a b pre mid post,
    log = pre ++ .call a (some m) :: (mid ++ .call b (some m) :: post) →
    ∃ q receiver, .push q m receiver ∈ mid
  /-- An actor that asked for a queue is not called with null before it returns again. -/
  notNull : ∀ a e pre mid post, log = pre ++ e :: (mid ++ .call a none :: post) → e.Asks a →
    ∃ r, .ret a r ∈ mid

namespace Ledger

variable {L : Ledger S} {es : List (Event S)} {a : ActorId} {m : MessageId}

/-- Mail that has been given stays until the next call, and nothing replaces it. -/
theorem mail_step (hm : L.mail a = some m) {e : Event S} (he : L.Law e)
    (hcall : ∀ msg, e ≠ .call a msg) : (L.step e).mail a = some m := by
  cases e with
  | push q n receiver =>
    cases receiver with
    | none => exact hm
    | some b =>
      have hb : b ≠ a := by
        rintro rfl
        rw [(he.2 b rfl).2.1] at hm
        cases hm
      simp [step, hm, Ne.symm hb]
  | take b q n =>
    have hb : b ≠ a := by
      rintro rfl
      rw [he.2.1] at hm
      cases hm
    simp [step, hm, Ne.symm hb]
  | call b msg =>
    have hb : b ≠ a := by
      rintro rfl
      exact hcall msg rfl
    simp [step, hm, Ne.symm hb]
  | ret b r => cases r <;> exact hm
  | poll q msg => simpa [step] using hm
  | _ => exact hm

/-- The first call of an actor with mail delivers it. -/
theorem Lawful.first_call (h : L.Lawful es) (hm : L.mail a = some m) :
    ((∀ msg, .call a msg ∉ es) ∧ (L.after es).mail a = some m) ∨
    ∃ mid rest, es = mid ++ .call a (some m) :: rest ∧ ∀ msg, .call a msg ∉ mid := by
  induction es generalizing L with
  | nil => exact Or.inl ⟨fun _ => List.not_mem_nil, hm⟩
  | cons e es ih =>
    by_cases hcall : ∃ msg, e = .call a msg
    · obtain ⟨msg, rfl⟩ := hcall
      have hmsg : msg = some m := h.1.1.trans hm
      rw [hmsg]
      exact Or.inr ⟨[], es, rfl, fun _ => List.not_mem_nil⟩
    · have hne : ∀ msg, e ≠ .call a msg := fun msg he => hcall ⟨msg, he⟩
      rcases ih h.2 (mail_step hm h.1 hne) with ⟨hno, hkept⟩ | ⟨mid, rest, heq, hno⟩
      · refine Or.inl ⟨fun msg hmem => ?_, hkept⟩
        rcases List.mem_cons.mp hmem with he | hmem
        · exact hne msg he.symm
        · exact hno msg hmem
      · refine Or.inr ⟨e :: mid, rest, by rw [heq]; rfl, fun msg hmem => ?_⟩
        rcases List.mem_cons.mp hmem with he | hmem
        · exact hne msg he.symm
        · exact hno msg hmem

/-- A consumed message stays consumed until it is pushed again. -/
theorem unconsumed_kept (hm : L.unconsumed m = none)
    (hpush : ∀ q receiver, .push q m receiver ∉ es) : (L.after es).unconsumed m = none := by
  induction es generalizing L with
  | nil => exact hm
  | cons e es ih =>
    refine ih ?_ fun q receiver hmem => hpush q receiver (List.mem_cons_of_mem _ hmem)
    have hconsume : ∀ msg, (L.consume msg).unconsumed m = none := by
      intro msg
      cases msg with
      | none => exact hm
      | some n =>
        by_cases hn : m = n
        · simp [consume, hn]
        · simpa [consume, hn] using hm
    cases e with
    | push q n receiver =>
      have hn : m ≠ n := by
        rintro rfl
        exact hpush q receiver List.mem_cons_self
      cases receiver <;> simpa [step, hn] using hm
    | poll q msg => exact hconsume msg
    | call b msg => exact hconsume msg
    | ret b r => cases r <;> exact hm
    | _ => exact hm

/-- What an actor asked for stands until it returns again. -/
theorem Lawful.awaits_kept (h : L.Lawful es) {q : QueueId} (hq : L.awaits a = some q)
    (hret : ∀ r, .ret a r ∉ es) : (L.after es).awaits a = some q := by
  induction es generalizing L with
  | nil => exact hq
  | cons e es ih =>
    refine ih h.2 ?_ fun r hmem => hret r (List.mem_cons_of_mem _ hmem)
    cases e with
    | init b r =>
      have hb : a ≠ b := by
        rintro rfl
        rw [h.1.2] at hq
        cases hq
      simpa [step, hb] using hq
    | ret b r =>
      have hb : a ≠ b := by
        rintro rfl
        exact hret r List.mem_cons_self
      cases r <;> simpa [step, hb] using hq
    | push r n receiver => cases receiver <;> exact hq
    | poll r msg => simpa [step] using hq
    | call b msg => simpa [step] using hq
    | _ => exact hq

end Ledger

/-- Only a push to a waiting actor is an event that hands a message over. -/
theorem Section.handed_of_mem {s s₁ : State S} {x : Ctx} {act : Action S} {pc : Pc S}
    {es : List (Event S)} (h : Section s x act s₁ pc es) {q : QueueId} {m : MessageId}
    {a : ActorId} (hmem : .push q m (some a) ∈ es) :
    ∃ Q, (s.queue q).push m = some (Q, some a) := by
  cases h with
  | @handed _ r n Q b _ _ hQ =>
    cases List.mem_singleton.mp hmem
    exact ⟨Q, hQ⟩
  | _ => simp at hmem

/-- A message on its way into the mailbox of a running actor was taken from a queue, and no push
has handed the actor another one since. -/
theorem History.store_taken {s : State S} {log : List (Event S)} (h : History RaceFree s log)
    {x : Ctx} {a : ActorId} {m : MessageId} {caller : Caller}
    (hpc : s.pc x = .store a (some m) caller) :
    ∃ q pre post, log = pre ++ .take a q m :: post ∧ ∀ q' n, .push q' n (some a) ∉ post := by
  induction h generalizing x a m caller with
  | boot => cases hpc
  | @step s log y act s' es hrun hadm hrace hstep ih =>
    obtain ⟨⟨loc, spot, hinv⟩, -⟩ := hrun.sound
    by_cases hxy : x = y
    · subst hxy
      obtain ⟨s₁, pc, hsec, rfl⟩ := State.step_section hstep
      have hpcx : pc = .store a (some m) caller := by simpa [State.setPc] using hpc
      subst hpcx
      generalize htarget : Pc.store (S := S) a (some m) caller = target at hsec
      cases hsec with
      | @taken b q _ Q n _ _ =>
        cases htarget
        exact ⟨q, log, [], rfl, by simp⟩
      | allocStarted _ => split at htarget <;> cases htarget
      | initialised _ _ => split at htarget <;> cases htarget
      | @left _ _ caller' _ _ => cases caller' <;> cases htarget
      | @slept _ caller' _ _ _ _ => cases caller' <;> cases htarget
      | @yielded _ caller' _ => cases caller' <;> cases htarget
      | @requested _ activator _ => cases activator <;> cases htarget
      | delayed _ => split at htarget <;> cases htarget
      | _ => cases htarget
    · rw [State.step_pc_other hstep hxy] at hpc
      obtain ⟨q, pre, post, heq, hno⟩ := ih hpc
      obtain ⟨s₁, pc, hsec, rfl⟩ := State.step_section hstep
      refine ⟨q, pre, post ++ es, by rw [heq]; simp, fun q' n hmem => ?_⟩
      rcases List.mem_append.mp hmem with hmem | hmem
      · exact hno q' n hmem
      · obtain ⟨Q, hQ⟩ := hsec.handed_of_mem hmem
        obtain ⟨-, -, -, hw⟩ := (hinv.queues.valid q').handed hQ
        have hwaits := hinv.actors.loc_of_mem (k := .waits q') (a := a)
          (by rw [State.actorsAt, hw]; exact List.mem_cons_self)
        rw [hinv.actors.loc_of_carries (x := x) (a := a) (by rw [hpc]; rfl)] at hwaits
        cases hwaits

/-- Mail is in the mailbox, or on its way there from a queue. -/
theorem Inv.mailbox_of_mail {s : State S} {L : Ledger S} {loc : ActorId → Option (Place S)}
    {spot : MessageId → Option Spot} (h : Inv s L loc spot) {a : ActorId} {m : MessageId}
    (hmail : L.mail a = some m) :
    s.mailbox a = some m ∨ ∃ x caller, s.pc x = .store a (some m) caller := by
  rcases h.actors.place_of_mail hmail with ⟨c, p, -, hbox⟩ | ⟨x, hx⟩
  · exact Or.inl hbox
  · have hcarries := h.actors.carries_of_loc hx
    have hc := h.actors.carried rfl hcarries
    cases hpc : s.pc x with
    | call b caller =>
      rw [hpc] at hc
      exact Or.inl (hc.2.mailbox.trans hmail)
    | insert b activator =>
      rw [hpc] at hc
      exact Or.inl ((Ready.mailbox hc).trans hmail)
    | test b msg caller =>
      rw [hpc] at hc
      exact Or.inl (hc.2.2.2.trans hmail)
    | store b msg caller =>
      rw [hpc] at hc hcarries
      have hmsg : msg = some m := hc.2.1.trans hmail
      subst hmsg
      obtain rfl : b = a := Option.some.inj hcarries
      exact Or.inr ⟨x, caller, hpc⟩
    | inFunc b caller =>
      rw [hpc] at hc
      rw [hc.2] at hmail
      cases hmail
    | subscribe b r caller | suspend b caller | delay b caller | sleep b caller
    | yield b caller =>
      rw [hpc] at hc
      rw [hc.2.1] at hmail
      cases hmail
    | initPop b r =>
      rw [hpc] at hc
      rw [hc.1] at hmail
      cases hmail
    | _ =>
      rw [hpc] at hcarries
      cases hcarries

section Exact

variable {s : State S} {log : List (Event S)}

/-- A message handed over stays in the mailbox until the next call, which delivers it. -/
theorem History.handed_delivered (h : History RaceFree s log) {q : QueueId} {m : MessageId}
    {a : ActorId} {pre post : List (Event S)} (heq : log = pre ++ .push q m (some a) :: post) :
    ((∀ msg, .call a msg ∉ post) ∧ s.mailbox a = some m) ∨
    ∃ mid rest, post = mid ++ .call a (some m) :: rest ∧ ∀ msg, .call a msg ∉ mid := by
  subst heq
  obtain ⟨⟨loc, spot, hinv⟩, hlaw⟩ := h.sound
  obtain ⟨-, -, hpost⟩ := hlaw.split
  have hmail : ((ledger pre).step (.push q m (some a))).mail a = some m := by
    simp [Ledger.step]
  rcases Ledger.Lawful.first_call hpost hmail with ⟨hno, hkept⟩ | hdelivered
  swap
  · exact Or.inr hdelivered
  refine Or.inl ⟨hno, ?_⟩
  have hmail' : (ledger (pre ++ .push q m (some a) :: post)).mail a = some m := by
    rw [ledger_append]
    exact hkept
  apply (hinv.mailbox_of_mail hmail').resolve_right
  rintro ⟨x, caller, hpc⟩
  -- the message would have been taken after it was handed over, without a call in between
  obtain ⟨r, before, after, heq, hnopush⟩ := h.store_taken hpc
  have htake : .take a r m ∈ post := by
    rcases List.append_eq_append_iff.mp heq with ⟨l, hl, hr⟩ | ⟨l, hl, hr⟩
    · cases l with
      | nil => cases hr
      | cons e l =>
        cases hr
        simp
    · cases l with
      | nil => cases hr
      | cons e l =>
        cases hr
        exact absurd (by simp) (hnopush q m)
  obtain ⟨l, l', rfl⟩ := List.append_of_mem htake
  obtain ⟨hfirst, hat, -⟩ := Ledger.lawful_append.mp hpost
  rcases Ledger.Lawful.first_call hfirst hmail with ⟨-, hheld⟩ | ⟨mid, rest, rfl, -⟩
  · rw [hat.2.1] at hheld
    cases hheld
  · exact absurd (by simp) (hno (some m))

/-- Between two deliveries of a message it is pushed. -/
theorem Lawful.pushed_between {m : MessageId} {a b : ActorId} {pre mid post : List (Event S)}
    (h : Lawful (pre ++ .call a (some m) :: (mid ++ .call b (some m) :: post))) :
    ∃ q receiver, .push q m receiver ∈ mid := by
  by_contra hno
  have hnopush : ∀ q receiver, .push q m receiver ∉ mid := fun q receiver hmem =>
    hno ⟨q, receiver, hmem⟩
  obtain ⟨-, hcall, hrest⟩ := h.split
  obtain ⟨hmid, hat⟩ := Ledger.lawful_append.mp hrest
  have hconsumed : ((ledger pre).step (.call a (some m))).unconsumed m = none := by
    simp [Ledger.step, Ledger.consume]
  have hawaits := hat.1.2.2 m rfl
  rw [Ledger.unconsumed_kept hconsumed hnopush] at hawaits
  cases hat.1.2.1.mpr hawaits.symm

/-- Between a request for a queue and a call with null the actor returns. -/
theorem Lawful.returned_between {a : ActorId} {e : Event S} {pre mid post : List (Event S)}
    (h : Lawful (pre ++ e :: (mid ++ .call a none :: post))) (hasks : e.Asks a) :
    ∃ r, .ret a r ∈ mid := by
  by_contra hno
  have hnoret : ∀ r, .ret a r ∉ mid := fun r hmem => hno ⟨r, hmem⟩
  obtain ⟨-, -, hrest⟩ := h.split
  obtain ⟨hmid, hat⟩ := Ledger.lawful_append.mp hrest
  obtain ⟨q, hq⟩ : ∃ q, ((ledger pre).step e).awaits a = some q := by
    cases e with
    | init b r =>
      cases r with
      | none => cases hasks
      | some q =>
        obtain rfl : b = a := hasks
        exact ⟨q, by simp [Ledger.step]⟩
    | ret b r =>
      cases r with
      | queue q =>
        obtain rfl : b = a := hasks
        exact ⟨q, by simp [Ledger.step]⟩
      | sleep delay => cases hasks
    | _ => cases hasks
  have hnull := hat.1.2.1.mp rfl
  rw [Ledger.Lawful.awaits_kept hmid hq hnoret] at hnull
  cases hnull

/-- Message hand-off under preemption. In every run in which no push hands its message to an
actor whose mailbox a context has still to store or to test, and for every order of the steps of
any number of contexts otherwise, every message handed to a waiting actor stays in its mailbox
until the next call of the actor, which delivers it; no message is delivered twice, and an actor
that asked for a queue is not called with null. -/
theorem hand_off_exact (h : History RaceFree s log) : HandOff s log where
  delivered _ _ _ _ _ heq := h.handed_delivered heq
  once _ _ _ _ _ _ heq := Lawful.pushed_between (heq ▸ h.sound.2)
  notNull _ _ _ _ _ heq hasks := Lawful.returned_between (heq ▸ h.sound.2) hasks

end Exact

/-- The actor `7` waits, a push hands it the message `1`, and its handler calls it. -/
theorem hand_off_exact_dispatch : ∃ s : State testPort,
    HandOff s [.init 7 (some (.queue 0)), .push (.queue 0) 1 (some 7), .insert 0 0 7,
      .dispatch 0 0 7, .call 7 (some 1)] := by
  let schedule : List (Action testPort) :=
    [.init 7 0 (some (.queue 0)), .next, .push (.queue 0) 1, .next, .next, .start 0, .next, .next]
  have hlog : ((State.boot testPort).replay [] (schedule.map fun act => (0, act))).map Prod.snd =
      some [.init 7 (some (.queue 0)), .push (.queue 0) 1 (some 7), .insert 0 0 7,
        .dispatch 0 0 7, .call 7 (some 1)] := by decide
  obtain ⟨⟨s, log⟩, hr, rfl⟩ := Option.map_eq_some_iff.mp hlog
  obtain ⟨hrace, -⟩ := History.replay_alone (D := RaceFree)
    (State.passes_true _ _) (fun s act s' es hs _ _ hstep =>
    RaceFree.of_others hstep fun y hy => by rw [hs y hy]; rfl) hr
  exact ⟨s, hand_off_exact hrace⟩

/-- The defect. The actor `7` is called with the message `1`, returns its queue and is linked in
it again; before its handler, context `0`, stores the null result of that pop, a preempting
context `1` pushes the message `2`. The store overwrites it, and the actor is called with null. -/
theorem hand_off_overwritten : ∃ (s : State testPort) (log : List (Event testPort)),
    History AnyOrder s log ∧ ¬ HandOff s log := by
  let schedule : List (Ctx × Action testPort) :=
    [(1, .init 7 0 (some (.queue 0))), (1, .next), (1, .push (.queue 0) 1), (1, .next), (1, .next),
      (0, .start 0), (0, .next), (0, .next), (0, .ret (.queue (.queue 0))), (0, .next),
      (1, .push (.queue 0) 2), (1, .next), (1, .next),
      (0, .next), (0, .next), (0, .next), (0, .next)]
  have hlog : ((State.boot testPort).replay [] schedule).map Prod.snd =
      some ([.init 7 (some (.queue 0)), .push (.queue 0) 1 (some 7), .insert 0 0 7,
        .dispatch 0 0 7, .call 7 (some 1)] ++ .ret 7 (.queue (.queue 0)) ::
        ([.push (.queue 0) 2 (some 7), .insert 0 0 7, .dispatch 0 0 7] ++ .call 7 none :: [])) := by
    decide
  obtain ⟨⟨s, log⟩, hr, rfl⟩ := Option.map_eq_some_iff.mp hlog
  refine ⟨s, _, History.replay_anyOrder hr, fun hoff => ?_⟩
  obtain ⟨r, hmem⟩ := hoff.notNull 7 _ _ _ _ rfl rfl
  simp at hmem

end Magnesium
