import Magnesium.Laws.SpinLock

/-!
# Waiting for a lock

Whoever waits for an event on the way into a lock is owed one, by a context of another core that is
in a section or has just left one. So no core sleeps before a lock forever: the event comes, and
where the lock is not free it is the one of the lock's owner.
-/

namespace Magnesium

open Interleaving

variable {S : Setup} {smp weak : Bool} {s s' : SmpState S} {h : Owners Ctx (Lock S)} {x y : Ctx}
  {es log : List (Ctx × Access S)}

/-- In a section, or with its event still to send. -/
def SmpPc.Busy : SmpPc S → Prop
  | .inside _ | .send _ => True
  | _ => False

/-- The core is sent an event, or will be. -/
def SmpState.Owed (s : SmpState S) (c : Fin S.cpuMax) : Prop :=
  s.event c = true ∨ ∃ y, S.thisCpu y ≠ c ∧ (s.pc y).Busy

/-- The context waits for an event, or its compare-exchange is bound to fail. -/
def SmpState.Blocked (s : SmpState S) (x : Ctx) : Prop :=
  match s.pc x with
  | .wait _ => True
  | .exchange _ seen => seen ≠ 0 ∨ s.reserved (S.thisCpu x) = false
  | _ => False

namespace SmpStep

variable {c : Fin S.cpuMax}

/-- A step moves no other context. -/
theorem pc_other (hstep : SmpStep smp weak s x s' es) (hy : y ≠ x) : s'.pc y = s.pc y := by
  cases hstep with
  | finish | inside | outside => rfl
  | _ => exact Function.update_of_ne hy _ _

/-- The event of another core stays set. -/
theorem event_other (hstep : SmpStep smp weak s x s' es) (hc : c ≠ S.thisCpu x)
    (hev : s.event c = true) : s'.event c = true := by
  cases hstep with
  | wait => simpa [hc] using hev
  | send => simp [hc]
  | _ => exact hev

/-- A context that is in a section stays there until its event is to be sent, and sends it. -/
theorem busy (hstep : SmpStep smp weak s x s' es) (hsmp : smp = true) (hbusy : (s.pc x).Busy)
    (hc : c ≠ S.thisCpu x) : (s'.pc x).Busy ∨ s'.event c = true := by
  cases hstep with
  | inside => exact Or.inl hbusy
  | unlock => exact Or.inl (by simp [SmpPc.Busy])
  | send => exact Or.inr (by simp [hc])
  | exit hno =>
    rw [hsmp] at hno
    cases hno
  | finish hpc | acquire _ hpc | enter _ hpc | load hpc | lock hpc | fail hpc | wait hpc
  | outside hpc | leave hpc =>
    rw [hpc] at hbusy
    exact hbusy.elim

/-- Another core loses its reservation only to a context that has an event to send. -/
theorem reserved_other (hstep : SmpStep smp weak s x s' es) (hc : c ≠ S.thisCpu x)
    (hres : s.reserved c = true) : s'.reserved c = true ∨ (s'.pc x).Busy := by
  cases hstep with
  | load | fail => exact Or.inl (by simpa [hc] using hres)
  | lock | unlock => exact Or.inr (by simp [SmpPc.Busy])
  | inside hpc => exact Or.inr (by simp [hpc, SmpPc.Busy])
  | _ => exact Or.inl hres

/-- A core that is owed an event still is after a step of another core. -/
theorem owed_other (hstep : SmpStep smp weak s x s' es) (hsmp : smp = true) (hc : c ≠ S.thisCpu x)
    (howed : s.Owed c) : s'.Owed c := by
  rcases howed with hev | ⟨y, hcpu, hbusy⟩
  · exact Or.inl (hstep.event_other hc hev)
  · by_cases hy : y = x
    · subst hy
      rcases hstep.busy hsmp hbusy hc with hbusy | hev
      · exact Or.inr ⟨y, hcpu, hbusy⟩
      · exact Or.inl hev
    · exact Or.inr ⟨y, hcpu, by rwa [hstep.pc_other hy]⟩

/-- A context that a step of another core blocks is owed an event. -/
theorem blocked_other (hstep : SmpStep smp weak s x s' es) (hsmp : smp = true)
    (hc : S.thisCpu y ≠ S.thisCpu x) (hold : s.Blocked y → s.Owed (S.thisCpu y))
    (hy : s'.Blocked y) : s'.Owed (S.thisCpu y) := by
  have hyx : y ≠ x := fun heq => hc (by rw [heq])
  rw [SmpState.Blocked, hstep.pc_other hyx] at hy
  by_cases hres : s.reserved (S.thisCpu y) = true
  · rcases hstep.reserved_other hc hres with hres' | hbusy
    · refine hstep.owed_other hsmp hc (hold ?_)
      rw [hres'] at hy
      rw [SmpState.Blocked, hres]
      exact hy
    · exact Or.inr ⟨x, hc.symm, hbusy⟩
  · refine hstep.owed_other hsmp hc (hold ?_)
    rw [Bool.not_eq_true] at hres
    rw [SmpState.Blocked, hres]
    cases hpc : s.pc y with
    | wait l => trivial
    | exchange l seen => exact Or.inr rfl
    | _ =>
      rw [hpc] at hy
      exact hy

/-- A context that blocks itself is owed an event. -/
theorem blocked_self (hstep : SmpStep smp false s x s' es) (hinv : SmpInv smp s h)
    (hsmp : smp = true) (hx : s.Running x) (hold : s.Blocked x → s.Owed (S.thisCpu x))
    (hx' : s'.Blocked x) :
    s'.Owed (S.thisCpu x) := by
  cases hstep with
  | finish hpc => simp [SmpState.Blocked, hpc] at hx'
  | outside hpc => simp [SmpState.Blocked, hpc] at hx'
  | inside hpc => simp [SmpState.Blocked, hpc] at hx'
  | @load l hpc =>
    have hseen : s.spinlock l ≠ 0 := by simpa [SmpState.Blocked] using hx'
    have hword := hinv.word hsmp l
    cases hl : h l with
    | none =>
      rw [hl] at hword
      exact absurd hword hseen
    | some y =>
      have hpcy := (hinv.owner l y).mp hl
      have hyx : y ≠ x := by
        rintro rfl
        rw [hpc] at hpcy
        cases hpcy
      have hcpu : S.thisCpu y ≠ S.thisCpu x := by
        intro heq
        rw [hinv.outside_of_core hx hyx heq] at hpcy
        cases hpcy
      refine Or.inr ⟨y, hcpu, ?_⟩
      simp [hyx, hpcy, SmpPc.Busy]
  | @fail l seen hpc hfail =>
    have hblocked : s.Blocked x := by simpa [SmpState.Blocked, hpc] using hfail
    rcases hold hblocked with hev | ⟨y, hcpu, hbusy⟩
    · exact Or.inl hev
    · have hyx : y ≠ x := fun heq => hcpu (by rw [heq])
      refine Or.inr ⟨y, hcpu, ?_⟩
      simpa [hyx] using hbusy
  | _ => simp [SmpState.Blocked] at hx'

end SmpStep

/-- In every state of a run, whoever waits for an event is owed one. -/
theorem SmpHistory.owed (hrun : SmpHistory true false s log) (hx : s.Blocked x) :
    s.Owed (S.thisCpu x) := by
  induction hrun generalizing x with
  | boot _ => simp [SmpState.Blocked, SmpState.boot] at hx
  | @step s log act s' es hrun hweak hstep ih =>
    obtain ⟨h, -, hinv⟩ := hrun.inv (Or.inl rfl)
    rcases SmpState.step_cases hweak hstep with ⟨y, -, -, rfl, -⟩ | ⟨y, hy, hstep⟩
    · exact ih hx
    · by_cases hcpu : S.thisCpu x = S.thisCpu y
      · have hpc : s'.pc x ≠ .outside := by
          intro hpc
          simp [SmpState.Blocked, hpc] at hx
        have hxy : x = y := by
          by_contra hne
          rw [hstep.pc_other hne] at hpc
          exact hpc (hinv.outside_of_core hy hne hcpu)
        subst hxy
        exact hstep.blocked_self hinv rfl hy ih hx
      · exact hstep.blocked_other rfl hcpu ih hx

/-- A lock that is not free is held by a context of another core. -/
theorem SmpInv.exists_owner (hinv : SmpInv true s h) {l : Lock S} (hx : s.Running x)
    (hpc : s.pc x ≠ .inside l) (hl : s.spinlock l ≠ 0) :
    ∃ y, S.thisCpu y ≠ S.thisCpu x ∧ s.pc y = .inside l ∧ s.Running y := by
  have hword := hinv.word rfl l
  cases howner : h l with
  | none =>
    rw [howner] at hword
    exact absurd hword hl
  | some y =>
    have hpcy := (hinv.owner l y).mp howner
    have hyx : y ≠ x := by
      rintro rfl
      exact hpc hpcy
    refine ⟨y, fun heq => ?_, hpcy, (hinv.running y (by simp [hpcy])).1⟩
    rw [hinv.outside_of_core hx hyx heq] at hpcy
    cases hpcy

/-- No wakeup is lost. In every run of any number of cores, as long as a compare-exchange fails only
for a word that is not zero or for a lost reservation: a context that waits for a lock has an event
to return with, or a context of another core is in a section of some lock, or has left one and has
its event still to send. If the lock is not free, a context of another core is in its section. -/
theorem smp_wakeup (hrun : SmpHistory true false s log) {l : Lock S} (hx : s.pc x = .wait l) :
    (s.event (S.thisCpu x) = true ∨
      ∃ y k, S.thisCpu y ≠ S.thisCpu x ∧ (s.pc y = .inside k ∨ s.pc y = .send k)) ∧
    (s.spinlock l ≠ 0 → ∃ y, S.thisCpu y ≠ S.thisCpu x ∧ s.pc y = .inside l) := by
  constructor
  · rcases hrun.owed (x := x) (by simp [SmpState.Blocked, hx]) with hev | ⟨y, hcpu, hbusy⟩
    · exact Or.inl hev
    · refine Or.inr ⟨y, ?_⟩
      cases hpc : s.pc y with
      | inside k => exact ⟨k, hcpu, Or.inl rfl⟩
      | send k => exact ⟨k, hcpu, Or.inr rfl⟩
      | _ =>
        rw [hpc] at hbusy
        exact hbusy.elim
  · intro hl
    obtain ⟨h, -, hinv⟩ := hrun.inv (Or.inl rfl)
    have hrunning := (hinv.running x (by simp [hx])).1
    obtain ⟨y, hcpu, hpcy, -⟩ := hinv.exists_owner hrunning (by simp [hx]) hl
    exact ⟨y, hcpu, hpcy⟩

/-- A core waits while the other one has its event to send. -/
theorem smp_wakeup_pending : ∃ (s : SmpState dualPort) (log : List (Ctx × Access dualPort)),
    SmpHistory true false s log ∧ s.pc 1 = .wait (.queue (.pool 0)) ∧
      s.event (dualPort.thisCpu 1) = false ∧ s.spinlock (.queue (.pool 0)) = 0 ∧
      ((s.event (dualPort.thisCpu 1) = true ∨
        ∃ y k, dualPort.thisCpu y ≠ dualPort.thisCpu 1 ∧
          (s.pc y = .inside k ∨ s.pc y = .send k)) ∧
      (s.spinlock (.queue (.pool 0)) ≠ 0 → ∃ y, dualPort.thisCpu y ≠ dualPort.thisCpu 1 ∧
        s.pc y = .inside (.queue (.pool 0)))) := by
  let l : Lock dualPort := .queue (.pool 0)
  let quiet : Fin dualPort.cpuMax → Bool := fun _ => false
  let schedule : List (SmpAction dualPort) :=
    [.acquire 0 l, .load 0, .exchange 0 quiet false, .acquire 1 l, .load 1, .release 0 quiet,
      .exchange 1 quiet false]
  have hboot : SmpHistory true false (.boot Fin.val : SmpState dualPort) [] := .boot (by decide)
  obtain ⟨s, es, hrun, hpc, hev, hword⟩ : ∃ s es, SmpState.run true (.boot Fin.val) schedule =
      some (s, es) ∧ s.pc 1 = .wait l ∧ s.event (dualPort.thisCpu 1) = false ∧
        s.spinlock l = 0 :=
    ⟨_, _, rfl, rfl, rfl, rfl⟩
  have hreal : ∀ act ∈ schedule, act.spurious = true → false = true := by
    simp [schedule, SmpAction.spurious]
  have hwaiting := hboot.run hreal hrun
  exact ⟨s, _, hwaiting, hpc, hev, hword, smp_wakeup hwaiting hpc⟩

/-- A compare-exchange that fails for no reason puts its core to sleep with nobody to wake it. -/
example : ∃ s : SmpState dualPort, ∃ es, SmpState.run true (.boot Fin.val)
    [.acquire 0 (.queue (.pool 0)), .load 0, .exchange 0 (fun _ => false) true] = some (s, es) ∧
      s.pc 0 = .wait (.queue (.pool 0)) ∧ s.event 0 = false ∧ s.pc 1 = .outside :=
  ⟨_, _, rfl, rfl, rfl, rfl⟩

/-- Neither an early wake-up, nor a compare-exchange that fails for no reason. -/
def SmpAction.Regular : SmpAction S → Prop
  | .wait _ early => early = false
  | .exchange _ _ spurious => spurious = false
  | _ => True

/-- The context releases its lock, or sends its event. -/
def SmpAction.LeavesBy (y : Ctx) : SmpAction S → Prop
  | .release z _ | .send z => z = y
  | _ => False

namespace SmpState

/-- A context whose compare-exchange finds the lock free, and keeps its reservation, is in. -/
theorem run_exchange {l : Lock S} (hx : s.Running x) (hpc : s.pc x = .exchange l 0)
    (hres : s.reserved (S.thisCpu x) = true) :
    ∃ s' es, s.run true [.exchange x (fun _ => false) false] = some (s', es) ∧
      s'.pc x = .inside l := by
  rw [Running] at hx
  simp [run, step, Running, SmpAction.ctx, advance, hx, hpc, exchange, hres]

/-- Otherwise it waits. -/
theorem run_fail {l : Lock S} {seen : UInt32} (hx : s.Running x) (hpc : s.pc x = .exchange l seen)
    (hfail : seen ≠ 0 ∨ s.reserved (S.thisCpu x) = false) :
    ∃ s' es, s.step true (.exchange x (fun _ => false) false) = some (s', es) ∧
      s'.pc = Function.update s.pc x (.wait l) ∧ s'.spinlock = s.spinlock := by
  have hno : ¬ (seen = 0 ∧ s.reserved (S.thisCpu x) = true) := by
    rw [not_and_or, Bool.not_eq_true]
    exact hfail
  refine ⟨(s.setReserved (S.thisCpu x) false).setPc x (.wait l), [], ?_, rfl, rfl⟩
  simp [step, SmpAction.ctx, advance, hx, hpc, exchange, hno]

/-- A context before the load gets into a free lock. -/
theorem run_load {l : Lock S} (hx : s.Running x) (hpc : s.pc x = .load l)
    (hfree : s.spinlock l = 0) :
    ∃ s' es, s.run true [.load x, .exchange x (fun _ => false) false] = some (s', es) ∧
      s'.pc x = .inside l := by
  rw [Running] at hx
  simp [run, step, Running, SmpAction.ctx, advance, hx, hpc, exchange, hfree]

/-- A context that waits gets into a free lock once it has an event. -/
theorem run_wait {l : Lock S} (hx : s.Running x) (hpc : s.pc x = .wait l)
    (hev : s.event (S.thisCpu x) = true) (hfree : s.spinlock l = 0) :
    ∃ s' es, s.run true [.wait x false, .load x, .exchange x (fun _ => false) false] =
      some (s', es) ∧ s'.pc x = .inside l := by
  rw [Running] at hx
  simp [run, step, Running, SmpAction.ctx, advance, hx, hpc, hev, exchange, hfree]

/-- The owner of a lock releases it. -/
theorem run_release {l : Lock S} (hy : s.Running y) (hpc : s.pc y = .inside l) (hxy : x ≠ y) :
    ∃ s' es, s.run true [.release y fun _ => false] = some (s', es) ∧ s'.stack = s.stack ∧
      s'.pc x = s.pc x ∧ s'.pc y = .send l ∧ s'.spinlock = Function.update s.spinlock l 0 := by
  refine ⟨(s.write (S.thisCpu y) l 0 fun _ => false).setPc y (.send l), [(y, .release l)], ?_, rfl,
    ?_, by simp, rfl⟩
  · simp [run, step, SmpAction.ctx, advance, hy, hpc, release]
  · simp [write, hxy]

/-- And sends the event. -/
theorem run_send {l : Lock S} (hy : s.Running y) (hpc : s.pc y = .send l)
    (hxy : S.thisCpu y ≠ S.thisCpu x) :
    ∃ s' es, s.run true [.send y] = some (s', es) ∧ s'.stack = s.stack ∧ s'.pc x = s.pc x ∧
      s'.spinlock = s.spinlock ∧ s'.event (S.thisCpu x) = true := by
  refine ⟨(s.sendEvent (S.thisCpu y)).setPc y (.leave l), [], ?_, rfl, ?_, rfl, ?_⟩
  · simp [run, step, SmpAction.ctx, advance, hy, hpc]
  · have hne : x ≠ y := fun heq => hxy (by rw [heq])
    simp [hne]
  · simp [Ne.symm hxy]

theorem run_append {acts acts' : List (SmpAction S)} {s'' : SmpState S}
    {es' : List (Ctx × Access S)} (hrun : s.run smp acts = some (s', es))
    (hrun' : s'.run smp acts' = some (s'', es')) :
    s.run smp (acts ++ acts') = some (s'', es ++ es') := by
  induction acts generalizing s es with
  | nil =>
    cases hrun
    exact hrun'
  | cons act acts ih =>
    rw [run] at hrun
    rw [List.cons_append, run]
    split at hrun
    · obtain ⟨⟨s₂, es₂⟩, hrest, heq⟩ := Option.map_eq_some_iff.mp hrun
      cases heq
      simp [ih hrest]
    · cases hrun

/-- The context `x` gets into the lock within `n` regular steps of its own and of `y`, which only
releases its lock and sends its event. -/
def Enters (s : SmpState S) (x y : Ctx) (l : Lock S) (n : Nat) : Prop :=
  ∃ acts s' es, s.run true acts = some (s', es) ∧ s'.pc x = .inside l ∧ acts.length ≤ n ∧
    ∀ act ∈ acts, act.Regular ∧ (act.ctx = x ∨ act.LeavesBy y)

theorem Enters.mono {l : Lock S} {m n : Nat} (hs : s.Enters x y l m) (hmn : m ≤ n) :
    s.Enters x y l n := by
  obtain ⟨acts, s', es, hrun, hpc, hlen, hacts⟩ := hs
  exact ⟨acts, s', es, hrun, hpc, Nat.le_trans hlen hmn, hacts⟩

/-- One more step first. -/
theorem Enters.cons {l : Lock S} {n : Nat} {act : SmpAction S} (hs : s'.Enters x y l n)
    (hstep : s.step true act = some (s', es))
    (hact : act.Regular ∧ (act.ctx = x ∨ act.LeavesBy y)) : s.Enters x y l (n + 1) := by
  obtain ⟨acts, s'', es', hrun, hpc, hlen, hacts⟩ := hs
  refine ⟨act :: acts, s'', es ++ es', by simp [run, hstep, hrun], hpc, by simpa using hlen, ?_⟩
  exact List.forall_mem_cons.mpr ⟨hact, hacts⟩

/-- First steps of `y`, then those of `x`. -/
theorem Enters.of_append {l : Lock S} {acts acts' : List (SmpAction S)} {n : Nat}
    (hrun : s.run true acts = some (s', es))
    (hrun' : ∃ s'' es', s'.run true acts' = some (s'', es') ∧ s''.pc x = .inside l)
    (hlen : (acts ++ acts').length ≤ n)
    (hacts : ∀ act ∈ acts ++ acts', act.Regular ∧ (act.ctx = x ∨ act.LeavesBy y)) :
    s.Enters x y l n := by
  obtain ⟨s'', es', hrun', hpc⟩ := hrun'
  exact ⟨acts ++ acts', s'', es ++ es', run_append hrun hrun', hpc, hlen, hacts⟩

/-- Steps of `x` alone. -/
theorem Enters.of_self {l : Lock S} {acts : List (SmpAction S)} {n : Nat}
    (hrun : ∃ s' es, s.run true acts = some (s', es) ∧ s'.pc x = .inside l) (hlen : acts.length ≤ n)
    (hacts : ∀ act ∈ acts, act.Regular ∧ (act.ctx = x ∨ act.LeavesBy y)) : s.Enters x y l n := by
  obtain ⟨s', es, hrun, hpc⟩ := hrun
  exact ⟨acts, s', es, hrun, hpc, hlen, hacts⟩

end SmpState

namespace SmpInv

/-- From before the load. -/
theorem enters_load (hinv : SmpInv true s h) {l : Lock S} (hpc : s.pc x = .load l) :
    ∃ y, (s.spinlock l ≠ 0 → s.pc y = .inside l) ∧ s.Enters x y l 3 := by
  have hx := (hinv.running x (by simp [hpc])).1
  by_cases hl : s.spinlock l = 0
  · exact ⟨x, absurd hl, .of_self (SmpState.run_load hx hpc hl) (by simp)
      (by simp [SmpAction.ctx, SmpAction.Regular])⟩
  · obtain ⟨y, hcpu, hpcy, hy⟩ := hinv.exists_owner hx (by simp [hpc]) hl
    have hxy : x ≠ y := fun heq => hcpu (by rw [heq])
    obtain ⟨s₁, es, hrun, hstack, hpc₁, -, hword⟩ := SmpState.run_release hy hpcy hxy
    have hx₁ : s₁.Running x := by rwa [SmpState.Running, hstack]
    have hfree : s₁.spinlock l = 0 := by rw [hword, Function.update_self]
    exact ⟨y, fun _ => hpcy, .of_append hrun (SmpState.run_load hx₁ (hpc₁.trans hpc) hfree)
      (by simp) (by simp [SmpAction.ctx, SmpAction.Regular, SmpAction.LeavesBy])⟩

/-- From the wait, once a context of another core has left its section, of this lock if that is not
free, and sent its event. -/
theorem enters_inside (hinv : SmpInv true s h) {l k : Lock S} (hpc : s.pc x = .wait l)
    (hcpu : S.thisCpu y ≠ S.thisCpu x) (hpcy : s.pc y = .inside k)
    (hfree : k = l ∨ s.spinlock l = 0) : s.Enters x y l 5 := by
  have hx := (hinv.running x (by simp [hpc])).1
  have hy := (hinv.running y (by simp [hpcy])).1
  have hxy : x ≠ y := fun heq => hcpu (by rw [heq])
  obtain ⟨s₁, es₁, hrun₁, hstack₁, hpc₁, hpcy₁, hword₁⟩ := SmpState.run_release hy hpcy hxy
  have hy₁ : s₁.Running y := by rwa [SmpState.Running, hstack₁]
  obtain ⟨s₂, es₂, hrun₂, hstack₂, hpc₂, hword₂, hev⟩ := SmpState.run_send hy₁ hpcy₁ hcpu
  have hx₂ : s₂.Running x := by rwa [SmpState.Running, hstack₂, hstack₁]
  have hfree₂ : s₂.spinlock l = 0 := by
    rw [hword₂, hword₁]
    by_cases hkl : l = k
    · rw [hkl, Function.update_self]
    · rw [Function.update_of_ne hkl]
      exact hfree.resolve_left (Ne.symm hkl)
  exact .of_append (SmpState.run_append hrun₁ hrun₂)
    (SmpState.run_wait hx₂ ((hpc₂.trans hpc₁).trans hpc) hev hfree₂) (by simp)
    (by simp [SmpAction.ctx, SmpAction.Regular, SmpAction.LeavesBy])

/-- From the wait for a free lock, once a context of another core has sent its event. -/
theorem enters_send (hinv : SmpInv true s h) {l k : Lock S} (hpc : s.pc x = .wait l)
    (hcpu : S.thisCpu y ≠ S.thisCpu x) (hpcy : s.pc y = .send k) (hfree : s.spinlock l = 0) :
    s.Enters x y l 4 := by
  have hx := (hinv.running x (by simp [hpc])).1
  have hy := (hinv.running y (by simp [hpcy])).1
  obtain ⟨s₁, es, hrun, hstack, hpc₁, hword, hev⟩ := SmpState.run_send hy hpcy hcpu
  have hx₁ : s₁.Running x := by rwa [SmpState.Running, hstack]
  exact .of_append hrun (SmpState.run_wait hx₁ (hpc₁.trans hpc) hev (by rw [hword, hfree]))
    (by simp) (by simp [SmpAction.ctx, SmpAction.Regular, SmpAction.LeavesBy])

/-- From the wait. -/
theorem enters_wait (hinv : SmpInv true s h) {l : Lock S} (hpc : s.pc x = .wait l)
    (howed : s.Owed (S.thisCpu x)) :
    ∃ y, (s.spinlock l ≠ 0 → s.pc y = .inside l) ∧ s.Enters x y l 5 := by
  have hx := (hinv.running x (by simp [hpc])).1
  by_cases hl : s.spinlock l = 0
  · rcases howed with hev | ⟨y, hcpu, hbusy⟩
    · exact ⟨x, absurd hl, .of_self (SmpState.run_wait hx hpc hev hl) (by simp)
        (by simp [SmpAction.ctx, SmpAction.Regular])⟩
    · refine ⟨y, absurd hl, ?_⟩
      cases hpcy : s.pc y with
      | inside k => exact hinv.enters_inside hpc hcpu hpcy (Or.inr hl)
      | send k => exact (hinv.enters_send hpc hcpu hpcy hl).mono (by decide)
      | _ =>
        rw [hpcy] at hbusy
        exact hbusy.elim
  · obtain ⟨y, hcpu, hpcy, -⟩ := hinv.exists_owner hx (by simp [hpc]) hl
    exact ⟨y, fun _ => hpcy, hinv.enters_inside hpc hcpu hpcy (Or.inl rfl)⟩

end SmpInv

/-- No deadlock. From every state of every run of any number of cores, as long as a compare-exchange
fails only for a word that is not zero or for a lost reservation: a context that has begun to
acquire a lock can get in within six steps, without an early wake-up, made by itself and by one
other context, which leaves its section and sends its event. If the lock is not free this is its
owner. -/
theorem smp_lock_reachable (hrun : SmpHistory true false s log) {l : Lock S}
    (hx : s.pc x = .load l ∨ (∃ seen, s.pc x = .exchange l seen) ∨ s.pc x = .wait l) :
    ∃ y, (s.spinlock l ≠ 0 → s.pc y = .inside l) ∧ s.Enters x y l 6 := by
  obtain ⟨h, -, hinv⟩ := hrun.inv (Or.inl rfl)
  rcases hx with hpc | ⟨seen, hpc⟩ | hpc
  · obtain ⟨y, howner, henters⟩ := hinv.enters_load hpc
    exact ⟨y, howner, henters.mono (by decide)⟩
  · have hrunning := (hinv.running x (by simp [hpc])).1
    by_cases hfail : seen ≠ 0 ∨ s.reserved (S.thisCpu x) = false
    · obtain ⟨s', es, hstep, hpc', hword⟩ := SmpState.run_fail hrunning hpc hfail
      have hwait : s'.pc x = .wait l := by rw [hpc', Function.update_self]
      have hrun' := hrun.step (by simp [SmpAction.spurious]) hstep
      obtain ⟨h', -, hinv'⟩ := hrun'.inv (Or.inl rfl)
      have howed := hrun'.owed (x := x) (by simp [SmpState.Blocked, hwait])
      obtain ⟨y, howner, henters⟩ := hinv'.enters_wait hwait howed
      refine ⟨y, fun hl => ?_, henters.cons hstep ⟨rfl, Or.inl rfl⟩⟩
      rw [← hword] at hl
      have hpcy := howner hl
      have hyx : y ≠ x := by
        rintro rfl
        rw [hwait] at hpcy
        cases hpcy
      rwa [hpc', Function.update_of_ne hyx] at hpcy
    · rw [not_or, not_not, Bool.not_eq_false] at hfail
      obtain ⟨rfl, hres⟩ := hfail
      have hfree := hinv.fresh rfl x l hpc hres
      have hzero : s.spinlock l = 0 := by rw [hinv.word rfl l, hfree]; rfl
      exact ⟨x, absurd hzero, .of_self (SmpState.run_exchange hrunning hpc hres) (by simp)
        (by simp [SmpAction.ctx, SmpAction.Regular])⟩
  · have howed := hrun.owed (x := x) (by simp [SmpState.Blocked, hpc])
    obtain ⟨y, howner, henters⟩ := hinv.enters_wait hpc howed
    exact ⟨y, howner, henters.mono (by decide)⟩

/-- A core that is asleep while the other one is in the section. -/
theorem smp_lock_reachable_asleep : ∃ (s : SmpState dualPort) (log : List (Ctx × Access dualPort)),
    SmpHistory true false s log ∧ s.pc 0 = .inside (.queue (.pool 0)) ∧
      s.pc 1 = .wait (.queue (.pool 0)) ∧
      ∃ y, (s.spinlock (.queue (.pool 0)) ≠ 0 → s.pc y = .inside (.queue (.pool 0))) ∧
        s.Enters 1 y (.queue (.pool 0)) 6 := by
  let l : Lock dualPort := .queue (.pool 0)
  let quiet : Fin dualPort.cpuMax → Bool := fun _ => false
  let schedule : List (SmpAction dualPort) :=
    [.acquire 0 l, .load 0, .exchange 0 quiet false, .acquire 1 l, .load 1,
      .exchange 1 quiet false]
  have hboot : SmpHistory true false (.boot Fin.val : SmpState dualPort) [] := .boot (by decide)
  obtain ⟨s, es, hrun, hpc₀, hpc₁⟩ : ∃ s es, SmpState.run true (.boot Fin.val) schedule =
      some (s, es) ∧ s.pc 0 = .inside l ∧ s.pc 1 = .wait l :=
    ⟨_, _, rfl, rfl, rfl⟩
  have hreal : ∀ act ∈ schedule, act.spurious = true → false = true := by
    simp [schedule, SmpAction.spurious]
  have hasleep := hboot.run hreal hrun
  exact ⟨s, _, hasleep, hpc₀, hpc₁, smp_lock_reachable hasleep (Or.inr (Or.inr hpc₁))⟩

end Magnesium
