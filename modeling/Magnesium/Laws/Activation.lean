import Magnesium.Kernel.Preservation.Account
import Magnesium.Kernel.Replay

/-!
# Activation

An actor in a run queue runs once an interrupt of its priority is handled on its CPU. Pushes and
timers request that interrupt after the insertion; a yield leaves it to the handler that called the
actor. `mg_actor_init` calls an actor as well, and is no handler: an actor that yields there stays
in its run queue until something else requests the interrupt.
-/

namespace Magnesium

variable {S : Setup}

/-- Somebody will look at the run queue. -/
inductive State.Covered (s : State S) (c : Fin S.cpuMax) (p : Nat) : Prop where
  /-- A handler runs on the CPU that has not found the run queue empty. -/
  | draining {x : Ctx} {vect : Vect} : (s.pc x).serves = some vect → S.thisCpu x = c →
      S.vect2prio vect = p → s.Covered c p
  /-- An interrupt is requested, and its handler has not started. -/
  | pending {vect : Vect} : s.pending c vect = true → S.vect2prio vect = p → s.Covered c p
  /-- A context has inserted an actor and is about to request the interrupt. -/
  | requesting {x : Ctx} {a : ActorId} {activator : Activator S} :
      s.pc x = .request a activator → s.cpu a = c → s.prio a = p → s.Covered c p

/-- No activation is lost. -/
def State.Activated (s : State S) : Prop := ∀ c p, s.runq c p ≠ [] → s.Covered c p

/-- Contexts preempt each other at their critical sections, and no actor changes its CPU. -/
def FixedCpu : Discipline S := fun s x act => BySections s x act ∧ ∀ a c, act ≠ .setCpu a c

/-- An actor yields in `mg_actor_init` only where its run queue is going to be looked at anyway. -/
def Announced : Discipline S := fun s x act =>
  FixedCpu s x act ∧ ∀ a, s.pc x = .yield a .init → s.Covered (s.cpu a) (s.prio a)

namespace Section

variable {s s₁ : State S} {x : Ctx} {act : Action S} {pc : Pc S} {es : List (Event S)}

/-- A request stays pending until its handler starts. -/
theorem pending_kept (h : Section s x act s₁ pc es) {c : Fin S.cpuMax} {vect : Vect}
    (hp : s.pending c vect = true) :
    s₁.pending c vect = true ∨ pc = .schedule vect ∧ S.thisCpu x = c := by
  cases h with
  | @started vect' _ =>
    by_cases hv : S.thisCpu x = c ∧ vect' = vect
    · exact Or.inr ⟨by rw [hv.2], hv.1⟩
    · left
      change Function.update s.pending (S.thisCpu x) _ c vect = true
      by_cases hc : c = S.thisCpu x
      · subst hc
        have hvect : vect ≠ vect' := fun he => hv ⟨rfl, he.symm⟩
        simpa [hvect] using hp
      · simpa [hc] using hp
  | @requested a activator _ =>
    left
    change Function.update s.pending (s.cpu a) _ c vect = true
    by_cases hc : c = s.cpu a
    · subst hc
      by_cases hvect : vect = s.vect a
      · simp [hvect]
      · simpa [hvect] using hp
    · simpa [hc] using hp
  | @carved p _ hav => exact Or.inl (by simpa [State.carve, hav] using hp)
  | initialised _ hs =>
    rw [hs]
    exact Or.inl hp
  | _ => exact Or.inl hp

/-- An initialised actor keeps its CPU and its priority. -/
theorem fixed (h : Section s x act s₁ pc es) (hadm : s.Admits act)
    (hcpu : ∀ a c, act ≠ .setCpu a c) {a : ActorId} (ha : s.func a = true) :
    s₁.cpu a = s.cpu a ∧ s₁.prio a = s.prio a := by
  cases h with
  | @initialised b vect q _ _ hs =>
    have hne : a ≠ b := by
      rintro rfl
      rw [show s.func a = false from hadm] at ha
      cases ha
    simp [hs, hne]
  | @cpuSet b c _ => exact absurd rfl (hcpu b c)
  | @carved p _ hav => simp [State.carve, hav]
  | _ => exact ⟨rfl, rfl⟩

/-- A run queue that gets its first actor gets it from a yield or from an activation. -/
theorem runq_filled (h : Section s x act s₁ pc es) {c : Fin S.cpuMax} {p : Nat}
    (hempty : s.runq c p = []) (hfilled : s₁.runq c p ≠ []) : ∃ a, s.cpu a = c ∧ s.prio a = p ∧
      s₁ = s.actorInsert a ∧ ((∃ caller, s.pc x = .yield a caller ∧ pc = caller.resume) ∨
        ∃ activator, s.pc x = .insert a activator ∧ pc = .request a activator) := by
  have hinsert : ∀ a, (s.actorInsert a).runq c p ≠ [] → s.cpu a = c ∧ s.prio a = p := by
    intro a ha
    by_contra hne
    apply ha
    have hlists := s.actorsAt_setRunq (s.cpu a) (s.prio a)
      (Fifo.enqueue (s.runq (s.cpu a) (s.prio a)) a) (.ready c p)
    rw [if_neg fun he => by
      cases he
      exact hne ⟨rfl, rfl⟩] at hlists
    exact hlists.trans hempty
  cases h with
  | @yielded a caller hpc =>
    exact ⟨a, (hinsert a hfilled).1, (hinsert a hfilled).2, rfl, Or.inl ⟨caller, hpc, rfl⟩⟩
  | @inserted a activator hpc =>
    exact ⟨a, (hinsert a hfilled).1, (hinsert a hfilled).2, rfl, Or.inr ⟨activator, hpc, rfl⟩⟩
  | @dispatched vect a rest _ hrunq =>
    refine absurd ?_ hfilled
    have hlists := s.actorsAt_setRunq (S.thisCpu x) (S.vect2prio vect) rest (.ready c p)
    rw [if_neg fun he => by
      cases he
      rw [hrunq] at hempty
      cases hempty] at hlists
    exact hlists.trans hempty
  | @carved p' _ hav => exact absurd (by simpa [State.carve, hav] using hempty) hfilled
  | initialised _ hs => exact absurd (by rw [hs]; exact hempty) hfilled
  | _ => exact absurd hempty hfilled

end Section

section Run

variable {s s' : State S} {L : Ledger S} {loc : ActorId → Option (Place S)}
  {log es : List (Event S)} {x : Ctx} {act : Action S} {c : Fin S.cpuMax} {p : Nat}

theorem State.step_request {a : ActorId} {activator : Activator S}
    (hstep : s.step x act = some (s', es)) (hpc : s.pc x = .request a activator) :
    s' = (s.interruptRequest a).setPc x activator.resume := by
  cases act with
  | next =>
    simp only [State.step, hpc] at hstep
    cases hstep
    rfl
  | _ => simp [State.step, State.advance, hpc] at hstep

theorem State.step_yield {a : ActorId} {caller : Caller}
    (hstep : s.step x act = some (s', es)) (hpc : s.pc x = .yield a caller) :
    s' = (s.actorInsert a).setPc x caller.resume := by
  cases act with
  | next =>
    simp only [State.step, hpc] at hstep
    cases hstep
    rfl
  | _ => simp [State.step, State.advance, hpc] at hstep

/-- A run queue stays covered until a handler has found it empty. -/
theorem State.Covered.step (hc : s.Covered c p) (h : ActorInv s L loc) (hadm : s.Admits act)
    (hcpu : ∀ a c, act ≠ .setCpu a c) (hstep : s.step x act = some (s', es)) :
    s'.Covered c p ∨ s'.runq c p = [] := by
  obtain ⟨s₁, pc, hsec, heq⟩ := State.step_section hstep
  have hpcx : s'.pc x = pc := by simp [heq, State.setPc]
  cases hc with
  | @draining y vect hserves hthis hprio =>
    by_cases hy : y = x
    · subst hy
      rcases hsec.serves hserves with hpc | ⟨rfl, hempty⟩
      · exact Or.inl (.draining (by rw [hpcx, hpc]) hthis hprio)
      · rw [hthis, hprio] at hempty
        exact Or.inr (by rw [heq]; exact hempty)
    · exact Or.inl (.draining (by rw [State.step_pc_other hstep hy, hserves]) hthis hprio)
  | @pending vect hpending hprio =>
    rcases hsec.pending_kept hpending with hkept | ⟨rfl, hthis⟩
    · exact Or.inl (.pending (by rw [heq]; exact hkept) hprio)
    · exact Or.inl (.draining (by rw [hpcx]; rfl) hthis hprio)
  | @requesting y a activator hpc hthis hprio =>
    have hfunc := h.requested y a activator hpc
    by_cases hy : y = x
    · subst hy
      have hpending : s'.pending c (s.vect a) = true := by
        rw [State.step_request hstep hpc, ← hthis]
        simp [State.setPc, State.interruptRequest]
      exact Or.inl (.pending hpending (by rw [← h.prio a hfunc, hprio]))
    · obtain ⟨hcpu', hprio'⟩ := hsec.fixed hadm hcpu hfunc
      refine Or.inl (.requesting (by rw [State.step_pc_other hstep hy, hpc]) ?_ ?_)
      · rw [heq]
        exact hcpu'.trans hthis
      · rw [heq]
        exact hprio'.trans hprio

/-- A step whose yields are announced loses no activation. -/
theorem State.Activated.step (ha : s.Activated) (h : ActorInv s L loc) (hadm : s.Admits act)
    (hd : Announced s x act) (hstep : s.step x act = some (s', es)) : s'.Activated := by
  obtain ⟨⟨-, hcpu⟩, hyield⟩ := hd
  intro c p hfilled
  by_cases hempty : s.runq c p = []
  · obtain ⟨s₁, pc, hsec, rfl⟩ := State.step_section hstep
    have hpcx : (s₁.setPc x pc).pc x = pc := by simp [State.setPc]
    obtain ⟨a, rfl, rfl, rfl, ⟨caller, hpc, rfl⟩ | ⟨activator, hpc, rfl⟩⟩ :=
      hsec.runq_filled hempty hfilled
    · cases caller with
      | schedule vect =>
        -- the handler that called the actor goes on draining its run queue
        have hcarried := h.carried hpc rfl
        exact .draining (by rw [hpcx]; rfl) hcarried.1.1.symm hcarried.1.2.symm
      | init => exact ((hyield a hpc).step h hadm hcpu hstep).resolve_right hfilled
    · exact .requesting hpcx rfl rfl
  · exact ((ha c p hempty).step h hadm hcpu hstep).resolve_right hfilled

/-- A yield in `mg_actor_init` covers nothing. -/
theorem State.covered_of_yield {a : ActorId} (hstep : s.step x act = some (s', es))
    (hpc : s.pc x = .yield a .init) (hc : s'.Covered c p) : s.Covered c p := by
  have hs' := State.step_yield hstep hpc
  have hpcx : s'.pc x = .idle := by simp [hs', State.setPc, Caller.resume]
  cases hc with
  | @draining y vect hserves hthis hprio =>
    by_cases hy : y = x
    · rw [hy, hpcx] at hserves
      cases hserves
    · rw [State.step_pc_other hstep hy] at hserves
      exact .draining hserves hthis hprio
  | pending hpending hprio =>
    rw [hs'] at hpending
    exact .pending hpending hprio
  | @requesting y b activator hreq hthis hprio =>
    by_cases hy : y = x
    · rw [hy, hpcx] at hreq
      cases hreq
    · rw [State.step_pc_other hstep hy] at hreq
      rw [hs'] at hthis hprio
      exact .requesting hreq hthis hprio

theorem Announced.raceFree (hstep : s.step x act = some (s', es)) (h : Announced s x act) :
    RaceFree s x act := BySections.raceFree hstep h.1.1

theorem History.activated (h : History Announced s log) : s.Activated := by
  induction h with
  | boot =>
    intro c p hne
    exact absurd rfl hne
  | step hrun hadm hd hstep ih =>
    obtain ⟨⟨loc, spot, hinv⟩, -⟩ :=
      (hrun.mono fun _ _ _ _ _ => Announced.raceFree).sound
    exact ih.step hinv.actors hadm hd hstep

/-- No lost activation. In every run whose contexts preempt each other at their critical sections,
and in which an actor yields in `mg_actor_init` only where its run queue is covered already, every
run queue that is not empty is covered: its handler is draining it, or requested, or about to be
requested. The condition is exact: the next step of such a run keeps the property if and only if
it meets the condition. -/
theorem activation_not_lost (h : History Announced s log) :
    s.Activated ∧ ∀ x act s' es, s.Admits act → FixedCpu s x act →
      s.step x act = some (s', es) → (s'.Activated ↔ Announced s x act) := by
  obtain ⟨⟨loc, spot, hinv⟩, -⟩ := (h.mono fun _ _ _ _ _ => Announced.raceFree).sound
  refine ⟨h.activated, fun x act s' es hadm hfixed hstep => ⟨fun hafter => ⟨hfixed, ?_⟩,
    fun hd => h.activated.step hinv.actors hadm hd hstep⟩⟩
  intro a hpc
  refine State.covered_of_yield hstep hpc (hafter _ _ ?_)
  rw [State.step_yield hstep hpc]
  simp [State.setPc, State.actorInsert, State.setRunq, Fifo.enqueue]

end Run

/-- A push activates the actor `7`; its handler is about to be requested. -/
theorem activation_not_lost_push : ∃ s : State testPort, s.Activated ∧ s.runq 0 0 = [7] := by
  let schedule : List (Action testPort) :=
    [.init 7 0 (some (.queue 0)), .next, .push (.queue 0) 1, .next]
  let ok : State testPort → Ctx → Action testPort → Bool := fun s x act =>
    match act, s.pc x with
    | .setCpu _ _, _ | _, .yield _ .init => false
    | _, _ => true
  have hrunq : ((State.boot testPort).replay [] (schedule.map fun act => (0, act))).map
      (fun r => r.1.runq 0 0) = some [7] := by decide
  obtain ⟨⟨s, log⟩, hr, hrunq⟩ := Option.map_eq_some_iff.mp hrunq
  have hok : (State.boot testPort).passes ok (schedule.map fun act => (0, act)) = true := by decide
  obtain ⟨hannounced, -⟩ := History.replay_alone (D := Announced) hok
    (fun s act s' es hs _ hcheck _ => by
      refine ⟨⟨fun y hy => by rw [hs y hy]; exact id, ?_⟩, ?_⟩
      · rintro a c rfl
        cases hcheck
      · intro a hpc
        cases act <;> simp [ok, hpc] at hcheck) hr
  exact ⟨s, (activation_not_lost hannounced).1, hrunq⟩

/-- The defect. The actor `7` is initialised without a queue, and its function returns
`mg_sleep_for(0)`: it is in its run queue, and nobody will look there. -/
theorem activation_lost : ∃ (s : State testPort) (log : List (Event testPort)),
    History FixedCpu s log ∧ ¬ s.Activated := by
  let schedule : List (Action testPort) :=
    [.init 7 0 none, .next, .ret (.sleep 0), .next, .next, .next]
  let ok : State testPort → Ctx → Action testPort → Bool := fun _ _ act =>
    match act with
    | .setCpu _ _ => false
    | _ => true
  have hend : ((State.boot testPort).replay [] (schedule.map fun act => (0, act))).map
      (fun r => (r.1.pending, r.1.runq 0 0, r.1.pc 0)) = some (fun _ _ => false, [7], .idle) := rfl
  obtain ⟨⟨s, log⟩, hr, heq⟩ := Option.map_eq_some_iff.mp hend
  simp only [Prod.mk.injEq] at heq
  obtain ⟨hpending, hrunq, hpc⟩ := heq
  have hok : (State.boot testPort).passes ok (schedule.map fun act => (0, act)) = true := by decide
  obtain ⟨hfixed, hidle⟩ := History.replay_alone (D := FixedCpu) hok
    (fun s act s' es hs _ hcheck _ => by
      refine ⟨fun y hy => by rw [hs y hy]; exact id, ?_⟩
      rintro a c rfl
      cases hcheck) hr
  have hpcs : ∀ x, s.pc x = .idle := by
    intro x
    by_cases hx : x = 0
    · rw [hx, hpc]
    · exact hidle x hx
  refine ⟨s, log, hfixed, fun hactivated => ?_⟩
  cases hactivated 0 0 (by rw [hrunq]; simp) with
  | draining hserves _ _ =>
    rw [hpcs] at hserves
    cases hserves
  | pending hp _ =>
    rw [hpending] at hp
    cases hp
  | requesting hreq _ _ =>
    rw [hpcs] at hreq
    cases hreq

end Magnesium
