import Magnesium.Core.Interleaving
import Magnesium.Kernel.Memory
import Magnesium.Kernel.Replay
import Magnesium.Laws.Locking
import Magnesium.Port.SpinLock

/-!
# Mutual exclusion across cores and handlers

A context in an operation on a lock, or in a section, runs on its core with interrupts disabled; so
no handler preempts it, and no core waits for a context that it has preempted itself. A lock has
one owner at most, and the kernel's accesses to what it guards are ordered by it.
-/

namespace Magnesium

open CriticalSection Interleaving

variable {S : Setup} {smp weak : Bool} {s s' : SmpState S} {h : Owners Ctx (Lock S)} {x y : Ctx}
  {es log : List (Ctx × Access S)}

theorem Access.Plain.lockOp {e : Access S} (he : e.Plain) : e.mark.lockOp = none := by
  rw [Access.mark_lockOp]
  cases e with
  | acquire l | release l => exact he.elim
  | _ => rfl

/-- The locks and their owners. -/
structure SmpInv (smp : Bool) (s : SmpState S) (h : Owners Ctx (Lock S)) : Prop where
  /-- Whoever is in an operation or in a section runs, and cannot be preempted. -/
  running : ∀ x, s.pc x ≠ .outside → s.Running x ∧ s.enabled (S.thisCpu x) = false
  owner : ∀ l x, h l = some x ↔ s.pc x = .inside l
  /-- On one core there is no loop and no event. -/
  single : ∀ x, s.pc x = .outside ∨ (∃ l, s.pc x = .inside l) ∨ smp = true
  word : smp = true → ∀ l, s.spinlock l = if (h l).isSome then 1 else 0
  /-- A reservation is for a word that has not been written since. -/
  fresh : smp = true → ∀ x l, s.pc x = .exchange l 0 → s.reserved (S.thisCpu x) = true →
    h l = none

/-- One context runs on a core. -/
theorem SmpState.Running.eq (hx : s.Running x) (hy : s.Running y)
    (hcpu : S.thisCpu x = S.thisCpu y) : x = y := by
  rw [SmpState.Running, hcpu] at hx
  exact Option.some.inj (hx.symm.trans hy)

/-- A running context that has loaded the word of a lock watches it. -/
theorem SmpState.Running.watches_eq {k l : Lock S} {v : UInt32} (hx : s.Running x)
    (hpc : s.pc x = .exchange k v) : s.watches l (S.thisCpu x) = decide (k = l) := by
  rw [SmpState.watches, show (s.stack (S.thisCpu x)).head? = some x from hx, Option.map_some, hpc]

/-- Another core that has a reservation after a write does not watch the word. -/
theorem SmpState.reserved_of_write {c d : Fin S.cpuMax} {l : Lock S} {v : UInt32}
    {lost : Fin S.cpuMax → Bool} (hd : (s.write c l v lost).reserved d = true) :
    s.reserved d = true ∧ (d ≠ c → s.watches l d = false) := by
  simp only [SmpState.write, SmpState.setSpinlock_reserved, SmpState.disturb_reserved,
    Bool.and_eq_true, Bool.or_eq_true, beq_iff_eq, Bool.not_eq_true', Bool.or_eq_false_iff] at hd
  exact ⟨hd.1, fun hne => (hd.2.resolve_left hne).2⟩

theorem SmpInv.boot (smp : Bool) (main : Fin S.cpuMax → Ctx) :
    SmpInv smp (.boot main : SmpState S) fun _ => none := by
  constructor
  · intro x hx
    exact absurd rfl hx
  · intro l x
    simp [SmpState.boot]
  · intro x
    exact Or.inl rfl
  · intro _ l
    rfl
  · intro _ x l hx
    cases hx

namespace SmpInv

/-- The other contexts of a core are outside of everything. -/
theorem outside_of_core (hinv : SmpInv smp s h) (hx : s.Running x) (hy : y ≠ x)
    (hcpu : S.thisCpu y = S.thisCpu x) : s.pc y = .outside := by
  by_contra hne
  exact hy ((hinv.running y hne).1.eq hx hcpu)

/-- A handler starts. -/
theorem preempt (hinv : SmpInv smp s h) (hen : s.enabled (S.thisCpu x) = true) :
    SmpInv smp (s.setStack (S.thisCpu x) (x :: s.stack (S.thisCpu x))) h := by
  refine ⟨fun y hy => ?_, hinv.owner, hinv.single, hinv.word, hinv.fresh⟩
  obtain ⟨hrun, hdis⟩ := hinv.running y hy
  have hcpu : S.thisCpu y ≠ S.thisCpu x := by
    intro heq
    rw [heq, hen] at hdis
    cases hdis
  exact ⟨by simpa [SmpState.Running, hcpu] using hrun, hdis⟩

/-- A handler returns. -/
theorem finish (hinv : SmpInv smp s h) (hx : s.Running x) (hpc : s.pc x = .outside)
    (rest : List Ctx) : SmpInv smp (s.setStack (S.thisCpu x) rest) h := by
  refine ⟨fun y hy => ?_, hinv.owner, hinv.single, hinv.word, hinv.fresh⟩
  obtain ⟨hrun, hdis⟩ := hinv.running y hy
  have hcpu : S.thisCpu y ≠ S.thisCpu x := by
    intro heq
    rw [SmpState.setStack_pc, hrun.eq hx heq] at hy
    exact hy hpc
  exact ⟨by simpa [SmpState.Running, hcpu] using hrun, hdis⟩

/-- Other cores lose their reservations. -/
theorem disturb (hinv : SmpInv smp s h) (c : Fin S.cpuMax) (lost : Fin S.cpuMax → Bool) :
    SmpInv smp (s.disturb c lost) h := by
  refine ⟨hinv.running, hinv.owner, hinv.single, hinv.word, fun hsmp y l hy hres => ?_⟩
  rw [SmpState.disturb_reserved, Bool.and_eq_true] at hres
  exact hinv.fresh hsmp y l hy hres.1

/-- The running context moves on, with interrupts disabled unless it is outside then. -/
theorem running_move (hinv : SmpInv smp s h) (hx : s.Running x) {pc : SmpPc S}
    (hstack : s'.stack = s.stack) (hpc : s'.pc = Function.update s.pc x pc)
    (hother : ∀ c, c ≠ S.thisCpu x → s'.enabled c = s.enabled c)
    (hself : pc ≠ .outside → s'.enabled (S.thisCpu x) = false) (y : Ctx)
    (hy : s'.pc y ≠ .outside) : s'.Running y ∧ s'.enabled (S.thisCpu y) = false := by
  rw [SmpState.Running, hstack]
  by_cases hyx : y = x
  · subst hyx
    rw [hpc, Function.update_self] at hy
    exact ⟨hx, hself hy⟩
  · rw [hpc, Function.update_of_ne hyx] at hy
    obtain ⟨hrun, hdis⟩ := hinv.running y hy
    have hcpu : S.thisCpu y ≠ S.thisCpu x := fun heq =>
      hy (hinv.outside_of_core hx hyx heq)
    exact ⟨hrun, by rw [hother _ hcpu, hdis]⟩

/-- The running context moves on, and no lock changes hands. -/
theorem move (hinv : SmpInv smp s h) (hx : s.Running x) {pc : SmpPc S}
    (hstack : s'.stack = s.stack) (hpc : s'.pc = Function.update s.pc x pc)
    (hother : ∀ c, c ≠ S.thisCpu x → s'.enabled c = s.enabled c)
    (hself : pc ≠ .outside → s'.enabled (S.thisCpu x) = false)
    (hold : ∀ l, s.pc x ≠ .inside l) (hnew : ∀ l, pc ≠ .inside l)
    (hword : s'.spinlock = s.spinlock)
    (hres : ∀ c, c ≠ S.thisCpu x → s'.reserved c = s.reserved c)
    (hsmp : pc = .outside ∨ smp = true)
    (hfresh : smp = true → ∀ l, pc = .exchange l 0 → h l = none) : SmpInv smp s' h := by
  refine ⟨hinv.running_move hx hstack hpc hother hself, fun l y => ?_, fun y => ?_,
    fun hsmp => ?_, fun hsmp y l hy hr => ?_⟩
  · rw [hinv.owner, hpc]
    by_cases hyx : y = x
    · subst hyx
      simp [hold l, hnew l]
    · rw [Function.update_of_ne hyx]
  · rw [hpc]
    by_cases hyx : y = x
    · subst hyx
      rw [Function.update_self]
      exact hsmp.imp_right Or.inr
    · rw [Function.update_of_ne hyx]
      exact hinv.single y
  · rw [hword]
    exact hinv.word hsmp
  · by_cases hyx : y = x
    · subst hyx
      rw [hpc, Function.update_self] at hy
      exact hfresh hsmp l hy
    · rw [hpc, Function.update_of_ne hyx] at hy
      have hcpu : S.thisCpu y ≠ S.thisCpu x := by
        intro heq
        rw [hinv.outside_of_core hx hyx heq] at hy
        cases hy
      rw [hres _ hcpu] at hr
      exact hinv.fresh hsmp y l hy hr

/-- The running context takes a lock that nobody holds. -/
theorem take (hinv : SmpInv smp s h) (hx : s.Running x) {l : Lock S} (hfree : h l = none)
    (hold : ∀ l, s.pc x ≠ .inside l)
    (hstack : s'.stack = s.stack) (hpc : s'.pc = Function.update s.pc x (.inside l))
    (hother : ∀ c, c ≠ S.thisCpu x → s'.enabled c = s.enabled c)
    (hself : s'.enabled (S.thisCpu x) = false)
    (hword : smp = true → s'.spinlock = Function.update s.spinlock l 1)
    (hres : smp = true → ∀ c, c ≠ S.thisCpu x → s'.reserved c = true →
      s.reserved c = true ∧ s.watches l c = false) :
    SmpInv smp s' (Function.update h l (some x)) := by
  refine ⟨hinv.running_move hx hstack hpc hother fun _ => hself, fun k y => ?_, fun y => ?_,
    fun hsmp k => ?_, fun hsmp y k hy hr => ?_⟩
  · rw [hpc]
    by_cases hkl : k = l
    · subst hkl
      rw [Function.update_self]
      by_cases hyx : y = x
      · simp [hyx]
      · rw [Function.update_of_ne hyx, ← hinv.owner, hfree]
        simp [Ne.symm hyx]
    · rw [Function.update_of_ne hkl, hinv.owner]
      by_cases hyx : y = x
      · subst hyx
        simp [hold k, Ne.symm hkl]
      · rw [Function.update_of_ne hyx]
  · rw [hpc]
    by_cases hyx : y = x
    · subst hyx
      rw [Function.update_self]
      exact Or.inr (Or.inl ⟨l, rfl⟩)
    · rw [Function.update_of_ne hyx]
      exact hinv.single y
  · rw [hword hsmp]
    by_cases hkl : k = l
    · simp [hkl]
    · simp [hkl, hinv.word hsmp k]
  · by_cases hyx : y = x
    · subst hyx
      rw [hpc, Function.update_self] at hy
      cases hy
    · rw [hpc, Function.update_of_ne hyx] at hy
      have hrun := (hinv.running y (by simp [hy])).1
      have hcpu : S.thisCpu y ≠ S.thisCpu x := fun heq => hyx (hrun.eq hx heq)
      obtain ⟨hr, hwatch⟩ := hres hsmp _ hcpu hr
      rw [hrun.watches_eq hy, decide_eq_false_iff_not] at hwatch
      rw [Function.update_of_ne hwatch]
      exact hinv.fresh hsmp y k hy hr

/-- The running context gives a lock back. -/
theorem drop (hinv : SmpInv smp s h) (hx : s.Running x) {l : Lock S} {pc : SmpPc S}
    (hold : s.pc x = .inside l) (hnew : pc = .outside ∨ smp = true ∧ pc = .send l)
    (hstack : s'.stack = s.stack) (hpc : s'.pc = Function.update s.pc x pc)
    (hother : ∀ c, c ≠ S.thisCpu x → s'.enabled c = s.enabled c)
    (hself : pc ≠ .outside → s'.enabled (S.thisCpu x) = false)
    (hword : smp = true → s'.spinlock = Function.update s.spinlock l 0)
    (hres : smp = true → ∀ c, s'.reserved c = true → s.reserved c = true) :
    SmpInv smp s' (Function.update h l none) := by
  refine ⟨hinv.running_move hx hstack hpc hother hself, fun k y => ?_, fun y => ?_,
    fun hsmp k => ?_, fun hsmp y k hy hr => ?_⟩
  · rw [hpc]
    by_cases hkl : k = l
    · subst hkl
      rw [Function.update_self]
      by_cases hyx : y = x
      · subst hyx
        rcases hnew with rfl | ⟨-, rfl⟩ <;> simp
      · rw [Function.update_of_ne hyx, ← hinv.owner, (hinv.owner k x).mpr hold]
        simp [Ne.symm hyx]
    · rw [Function.update_of_ne hkl, hinv.owner]
      by_cases hyx : y = x
      · subst hyx
        rcases hnew with rfl | ⟨-, rfl⟩ <;> simp [hold, Ne.symm hkl]
      · rw [Function.update_of_ne hyx]
  · rw [hpc]
    by_cases hyx : y = x
    · subst hyx
      rw [Function.update_self]
      exact hnew.imp_right fun hsend => Or.inr hsend.1
    · rw [Function.update_of_ne hyx]
      exact hinv.single y
  · rw [hword hsmp]
    by_cases hkl : k = l
    · simp [hkl]
    · simp [hkl, hinv.word hsmp k]
  · by_cases hyx : y = x
    · subst hyx
      rw [hpc, Function.update_self] at hy
      rcases hnew with rfl | ⟨-, rfl⟩ <;> cases hy
    · rw [hpc, Function.update_of_ne hyx] at hy
      by_cases hkl : k = l
      · rw [hkl, Function.update_self]
      · rw [Function.update_of_ne hkl]
        exact hinv.fresh hsmp y k hy (hres hsmp _ hr)

/-- On one core, nobody holds a lock while another context runs. -/
theorem free_of_single (hinv : SmpInv smp s h) (hcpu : S.cpuMax = 1) (hx : s.Running x)
    (hpc : s.pc x = .outside) (l : Lock S) : h l = none := by
  rw [Option.eq_none_iff_forall_ne_some]
  intro y hy
  have hpcy := (hinv.owner l y).mp hy
  have hrun := (hinv.running y (by simp [hpcy])).1
  have hsame : S.thisCpu y = S.thisCpu x :=
    (Fin.subsingleton_iff_le_one.mpr (Nat.le_of_eq hcpu)).elim _ _
  rw [hrun.eq hx hsame, hpc] at hpcy
  cases hpcy

/-- Only on several cores is a context elsewhere in an operation. -/
theorem smp_of_pc (hinv : SmpInv smp s h) (hout : s.pc x ≠ .outside)
    (hin : ∀ l, s.pc x ≠ .inside l) : smp = true := by
  rcases hinv.single x with hpc | ⟨l, hpc⟩ | hsmp
  · exact absurd hpc hout
  · exact absurd hpc (hin l)
  · exact hsmp

/-- A step of the running context of a core. -/
theorem step (hinv : SmpInv smp s h) (hup : smp = true ∨ S.cpuMax = 1) (hx : s.Running x)
    (hstep : SmpStep smp weak s x s' es) :
    ∃ h', es.foldlM (grant Access.mark) h = some h' ∧ SmpInv smp s' h' := by
  have hdis : s.pc x ≠ .outside → s.enabled (S.thisCpu x) = false := fun hpc =>
    (hinv.running x hpc).2
  cases hstep with
  | finish hpc hstack => exact ⟨h, rfl, hinv.finish hx hpc _⟩
  | acquire hsmp hpc =>
    refine ⟨h, rfl, hinv.move hx rfl rfl (fun c hc => ?_) (fun _ => ?_) ?_ (by simp) rfl
      (fun c hc => rfl) (Or.inr hsmp) (by simp)⟩
    · simp [hc]
    · simp
    · simp [hpc]
  | @enter l hsmp hpc =>
    have hfree := hinv.free_of_single (hup.resolve_left (by simp [hsmp])) hx hpc l
    refine ⟨_, by simp [grant, Access.mark, hfree], hinv.take hx hfree ?_ rfl rfl (fun c hc => ?_)
      ?_ (by simp [hsmp]) (by simp [hsmp])⟩
    · simp [hpc]
    · simp [hc]
    · simp
  | @load l hpc =>
    have hsmp := hinv.smp_of_pc (x := x) (by simp [hpc]) (by simp [hpc])
    refine ⟨h, rfl, hinv.move hx rfl rfl (fun c hc => rfl) (fun _ => hdis (by simp [hpc]))
      (by simp [hpc]) (by simp) rfl (fun c hc => ?_) (Or.inr hsmp) (fun _ k hk => ?_)⟩
    · simp [hc]
    · obtain ⟨rfl, hzero⟩ := SmpPc.exchange.inj hk
      rw [hinv.word hsmp] at hzero
      simpa using hzero
  | @lock l lost hpc hres =>
    have hsmp := hinv.smp_of_pc (x := x) (by simp [hpc]) (by simp [hpc])
    have hfree := hinv.fresh hsmp x l hpc hres
    refine ⟨_, by simp [grant, Access.mark, hfree], hinv.take hx hfree (by simp [hpc]) rfl rfl
      (fun c hc => rfl) (hdis (by simp [hpc])) (fun _ => rfl) (fun _ c hc hr => ?_)⟩
    obtain ⟨hr, hwatch⟩ := SmpState.reserved_of_write (v := 1) hr
    exact ⟨by simpa [hc] using hr, hwatch hc⟩
  | fail hpc hfail =>
    have hsmp := hinv.smp_of_pc (x := x) (by simp [hpc]) (by simp [hpc])
    refine ⟨h, rfl, hinv.move hx rfl rfl (fun c hc => rfl) (fun _ => hdis (by simp [hpc]))
      (by simp [hpc]) (by simp) rfl (fun c hc => ?_) (Or.inr hsmp) (by simp)⟩
    simp [hc]
  | wait hpc =>
    have hsmp := hinv.smp_of_pc (x := x) (by simp [hpc]) (by simp [hpc])
    exact ⟨h, rfl, hinv.move hx rfl rfl (fun c hc => rfl) (fun _ => hdis (by simp [hpc]))
      (by simp [hpc]) (by simp) rfl (fun c hc => rfl) (Or.inr hsmp) (by simp)⟩
  | @inside l e lost hpc he =>
    refine ⟨h, ?_, hinv.disturb _ lost⟩
    simp [grant_of_lockOp h x he.lockOp]
  | outside hpc he =>
    refine ⟨h, ?_, hinv⟩
    simp [grant_of_lockOp h x he.lockOp]
  | @unlock l lost hsmp hpc =>
    have howner := (hinv.owner l x).mpr hpc
    refine ⟨_, by simp [grant, Access.mark, howner], hinv.drop hx hpc (Or.inr ⟨hsmp, rfl⟩) rfl rfl
      (fun c hc => rfl) (fun _ => hdis (by simp [hpc])) (fun _ => rfl) (fun _ c hr => ?_)⟩
    exact (SmpState.reserved_of_write (v := 0) hr).1
  | @exit l hsmp hpc =>
    have howner := (hinv.owner l x).mpr hpc
    refine ⟨_, by simp [grant, Access.mark, howner], hinv.drop hx hpc (Or.inl rfl) rfl rfl
      (fun c hc => ?_) (by simp) (by simp [hsmp]) (by simp [hsmp])⟩
    simp [hc]
  | send hpc =>
    have hsmp := hinv.smp_of_pc (x := x) (by simp [hpc]) (by simp [hpc])
    exact ⟨h, rfl, hinv.move hx rfl rfl (fun c hc => rfl) (fun _ => hdis (by simp [hpc]))
      (by simp [hpc]) (by simp) rfl (fun c hc => rfl) (Or.inr hsmp) (by simp)⟩
  | leave hpc =>
    refine ⟨h, rfl, hinv.move hx rfl rfl (fun c hc => ?_) (by simp) (by simp [hpc]) (by simp) rfl
      (fun c hc => rfl) (Or.inl rfl) (by simp)⟩
    simp [hc]

end SmpInv

/-- The invariant holds in every state of a run, with the owners that the run gives the locks to. -/
theorem SmpHistory.inv (hrun : SmpHistory smp weak s log) (hup : smp = true ∨ S.cpuMax = 1) :
    ∃ h, owners Access.mark log = some h ∧ SmpInv smp s h := by
  induction hrun with
  | boot _ => exact ⟨_, rfl, SmpInv.boot smp _⟩
  | step _ hweak hstep ih =>
    obtain ⟨h, howners, hinv⟩ := ih
    rw [owners, List.foldlM_append, ← owners, howners]
    rcases SmpState.step_cases hweak hstep with ⟨x, hen, -, rfl, rfl⟩ | ⟨x, hx, hstep⟩
    · exact ⟨h, rfl, hinv.preempt hen⟩
    · exact hinv.step hup hx hstep

/-- Mutual exclusion. In every run of any number of cores with nested handlers, a lock is in one
section at most, and its word says whether it is in one. Whoever is in a section, or on the way into
or out of one, runs on its core with interrupts disabled, and no other context of the core is: so no
core waits for a lock that a context it has preempted holds. -/
theorem smp_exclusive (hrun : SmpHistory smp weak s log) (hup : smp = true ∨ S.cpuMax = 1) :
    (∀ l x y, s.pc x = .inside l → s.pc y = .inside l → x = y) ∧
    (smp = true → ∀ l, (s.spinlock l = 0 ∧ ∀ x, s.pc x ≠ .inside l) ∨
      (s.spinlock l = 1 ∧ ∃ x, s.pc x = .inside l)) ∧
    ∀ x, s.pc x ≠ .outside → s.Running x ∧ s.enabled (S.thisCpu x) = false ∧
      ∀ y, S.thisCpu y = S.thisCpu x → y ≠ x → s.pc y = .outside := by
  obtain ⟨h, -, hinv⟩ := hrun.inv hup
  refine ⟨fun l x y hx hy => ?_, fun hsmp l => ?_, fun x hx => ?_⟩
  · have hx' := (hinv.owner l x).mpr hx
    rw [(hinv.owner l y).mpr hy] at hx'
    exact (Option.some.inj hx').symm
  · rw [hinv.word hsmp l]
    cases hl : h l with
    | none =>
      refine Or.inl ⟨rfl, fun x hx => ?_⟩
      rw [(hinv.owner l x).mpr hx] at hl
      cases hl
    | some x => exact Or.inr ⟨rfl, x, (hinv.owner l x).mp hl⟩
  · obtain ⟨hrunning, hdis⟩ := hinv.running x hx
    exact ⟨hrunning, hdis, fun y hcpu hy => hinv.outside_of_core hrunning hy hcpu⟩

/-- A core waits for the lock of a queue while another core is in the section. -/
theorem smp_exclusive_contended : ∃ s : SmpState dualPort,
    s.pc 0 = .inside (.queue (.pool 0)) ∧ s.pc 1 = .wait (.queue (.pool 0)) ∧
    (∀ l x y, s.pc x = .inside l → s.pc y = .inside l → x = y) ∧
    (true = true → ∀ l, (s.spinlock l = 0 ∧ ∀ x, s.pc x ≠ .inside l) ∨
      (s.spinlock l = 1 ∧ ∃ x, s.pc x = .inside l)) ∧
    ∀ x, s.pc x ≠ .outside → s.Running x ∧ s.enabled (dualPort.thisCpu x) = false ∧
      ∀ y, dualPort.thisCpu y = dualPort.thisCpu x → y ≠ x → s.pc y = .outside := by
  let schedule : List (SmpAction dualPort) :=
    [.acquire 0 (.queue (.pool 0)), .load 0, .exchange 0 (fun _ => false) false,
      .acquire 1 (.queue (.pool 0)), .load 1, .exchange 1 (fun _ => false) false]
  have hboot : SmpHistory true true (.boot Fin.val : SmpState dualPort) [] := .boot (by decide)
  obtain ⟨s, es, hrun, hpc₀, hpc₁⟩ : ∃ s es, SmpState.run true (.boot Fin.val) schedule =
      some (s, es) ∧ s.pc 0 = .inside (.queue (.pool 0)) ∧ s.pc 1 = .wait (.queue (.pool 0)) :=
    ⟨_, _, rfl, rfl, rfl⟩
  exact ⟨s, hpc₀, hpc₁, smp_exclusive (hboot.run (fun _ _ _ => rfl) hrun) (Or.inl rfl)⟩

/-- The accesses of a context that runs kernel operations one after another, the last of them
perhaps not to its end, each in some world. -/
inductive Executes (x : Ctx) : List (Access S) → Prop
  | last {W : Type} (world : W → (e : Access S) → e.Answer × W) (n : Nat) (w : W)
      (op : Operation) : Executes x (runOperation world n w x op).1
  | cons {W : Type} (world : W → (e : Access S) → e.Answer × W) (n : Nat) (w : W)
      (op : Operation) {rest : List (Access S)} :
      (runOperation world n w x op).2.2.isSome = true → Executes x rest →
      Executes x ((runOperation world n w x op).1 ++ rest)

theorem run_runOperation {W : Type} (world : W → (e : Access S) → e.Answer × W) (n : Nat) (w : W)
    (x : Ctx) (op : Operation) :
    ∃ s, (runOperation world n w x op).1.foldlM lockStep none = some s ∧
      ((runOperation world n w x op).2.2.isSome = true → s = none) := by
  have hop : Balanced (Code.invoke (.op op) : Code S op.Result) := ⟨rfl, fun _ _ h => h⟩
  obtain ⟨s, hrun, hout⟩ := Procedure.Contract.sound (lockContract_kernel x) world n w hop
  refine ⟨s, hrun, fun hsome => ?_⟩
  obtain ⟨r, hr⟩ := Option.isSome_iff_exists.mp hsome
  exact hout r hr

/-- Each of these contexts obeys the discipline of locks. -/
theorem Executes.disciplined {x : Ctx} {log : List (Access S)} (h : Executes x log) :
    ∃ s, log.foldlM lockStep none = some s := by
  induction h with
  | last world n w op =>
    obtain ⟨s, hs, -⟩ := run_runOperation world n w x op
    exact ⟨s, hs⟩
  | cons world n w op hret _ ih =>
    obtain ⟨s, hs, hnone⟩ := run_runOperation world n w x op
    obtain ⟨s', hs'⟩ := ih
    refine ⟨s', ?_⟩
    rw [List.foldlM_append, hs, hnone hret]
    exact hs'

/-- The lock that guards what an access reads or writes. -/
def Access.guard : Access S → Option (Lock S)
  | .load f => f.readLock
  | .store f _ => f.writeLock
  | .empty l | .last l | .enqueue l _ | .dequeue l => some l.lock
  | _ => none

theorem Access.needs_of_guard {e : Access S} {l : Lock S} (he : e.guard = some l) :
    e.mark.needs = some l ∧ e.mark.lockOp = none := by
  cases e with
  | load f | store f v =>
    rw [Access.guard] at he
    simp [Access.mark, he, Mark.needs, Mark.lockOp]
  | empty k | last k | enqueue k node | dequeue k =>
    cases he
    exact ⟨rfl, rfl⟩
  | _ => cases he

/-- An operation on a lock is known by its mark. -/
theorem Access.lockOp_of_mark {e : Access S} {op : LockOp (Lock S)} (he : e.mark.lockOp = some op) :
    e.lockOp = some op := by
  rw [← Access.mark_lockOp, he]

theorem Access.eq_acquire {e : Access S} {l : Lock S} (he : e.mark = .acquire l) :
    e = .acquire l := by
  have hop : e.lockOp = some (.acquire l) := Access.lockOp_of_mark (by rw [he]; rfl)
  cases e with
  | acquire k =>
    cases hop
    rfl
  | _ => cases hop

theorem Access.eq_release {e : Access S} {l : Lock S} (he : e.mark = .release l) :
    e = .release l := by
  have hop : e.lockOp = some (.release l) := Access.lockOp_of_mark (by rw [he]; rfl)
  cases e with
  | release k =>
    cases hop
    rfl
  | _ => cases hop

/-- What a lock guards is accessed in order. In every run of any number of cores with nested
handlers, in which each context runs kernel operations, with whatever values it reads: between two
accesses of different contexts to the same list, the same length of a queue, the same memory of a
pool or the same tick counter, the first context has released the lock that guards it, and then the
second one has acquired it. The fields of actors, and the flag that `mg_message_alloc` reads, have
no lock. -/
theorem smp_guarded_ordered (hrun : SmpHistory smp weak s log) (hup : smp = true ∨ S.cpuMax = 1)
    (hcode : ∀ x, Executes x (own x log)) {pre mid post : List (Ctx × Access S)}
    {e e' : Access S} {l : Lock S} (hlog : log = pre ++ (x, e) :: (mid ++ (y, e') :: post))
    (hxy : x ≠ y) (he : e.guard = some l) (he' : e'.guard = some l) :
    ∃ m₁ m₂ m₃, mid = m₁ ++ (x, .release l) :: (m₂ ++ (y, .acquire l) :: m₃) := by
  obtain ⟨h, howners, -⟩ := hrun.inv hup
  obtain ⟨hneeds, hop⟩ := Access.needs_of_guard he
  obtain ⟨m₁, r, m₂, a, m₃, hmid, hr, ha⟩ := ordered howners
    (fun z => (hcode z).disciplined) hlog hxy hneeds hop (Access.needs_of_guard he').1
  rw [Access.eq_release hr, Access.eq_acquire ha] at hmid
  exact ⟨m₁, m₂, m₃, hmid⟩

/-- Two cores look at the length of an empty queue. -/
theorem smp_guarded_ordered_pop : ∃ (s : SmpState dualPort) (mid : List (Ctx × Access dualPort)),
    SmpHistory true true s ([(0, .acquire (.queue (.pool 0)))] ++
      (0, .load (.length (.pool 0))) :: (mid ++ (1, .load (.length (.pool 0))) :: [])) ∧
    ∃ m₁ m₂ m₃, mid = m₁ ++ (0, .release (.queue (.pool 0))) ::
      (m₂ ++ (1, .acquire (.queue (.pool 0))) :: m₃) := by
  let l : Lock dualPort := .queue (.pool 0)
  let e : Access dualPort := .load (.length (.pool 0))
  let quiet : Fin dualPort.cpuMax → Bool := fun _ => false
  let schedule : List (SmpAction dualPort) :=
    [.acquire 0 l, .load 0, .exchange 0 quiet false, .access 0 e quiet, .release 0 quiet, .send 0,
      .leave 0, .acquire 1 l, .load 1, .exchange 1 quiet false, .access 1 e quiet]
  let log : List (Ctx × Access dualPort) :=
    [(0, .acquire l), (0, e), (0, .release l), (1, .acquire l), (1, e)]
  have hboot : SmpHistory true true (.boot Fin.val : SmpState dualPort) [] := .boot (by decide)
  obtain ⟨s, hrun⟩ : ∃ s, SmpState.run true (.boot Fin.val) schedule = some (s, log) := ⟨_, rfl⟩
  have hcode : ∀ x, Executes x (own x log) := by
    intro x
    let world := State.answer (S := dualPort) fun s _ => (.ret .null, s)
    by_cases h₀ : x = 0
    · subst h₀
      exact .last world 5 (.boot dualPort) (.queuePop (.pool 0) none)
    · by_cases h₁ : x = 1
      · subst h₁
        exact .last world 3 (.boot dualPort) (.queuePop (.pool 0) none)
      · have hnone : own x log = [] := by
          simp [own, log, Ne.symm h₀, Ne.symm h₁]
        rw [hnone]
        exact .last world 0 (.boot dualPort) (.queuePop (.pool 0) none)
  have hlog : log = [(0, .acquire l)] ++
      (0, e) :: ([(0, .release l), (1, .acquire l)] ++ (1, e) :: []) := rfl
  have hhistory := hboot.run (fun _ _ _ => rfl) hrun
  exact ⟨s, [(0, .release l), (1, .acquire l)], hhistory,
    smp_guarded_ordered (l := l) hhistory (Or.inl rfl) hcode hlog (by decide) rfl rfl⟩

end Magnesium
