import Magnesium.Core.Placement
import Magnesium.Kernel.Ledger
import Magnesium.Kernel.Run

/-!
# The invariant of the kernel

Every initialised actor is in one place: a queue, a timer queue, a run queue, or the hands of one
context. What its fields hold and what it is owed depends on the place alone; so does the account
of every message. The rules of this module carry the invariant over a step that moves one actor
or none.
-/

namespace Magnesium

variable {S : Setup}

/-- Where the link of an actor can be; `carried` is in no list, while a context works for it. -/
inductive Place (S : Setup) where
  | waits (q : QueueId)
  | sleeps (c : Fin S.cpuMax) (i : Fin S.timerqMax)
  | ready (c : Fin S.cpuMax) (p : Nat)
  | carried (x : Ctx)
  deriving DecidableEq

/-- Where a message can be. -/
inductive Spot where
  | queued (q : QueueId)
  | mailed (a : ActorId)
  | held
  deriving DecidableEq

namespace State

/-- The actors in one place. -/
def actorsAt (s : State S) : Place S → List ActorId
  | .waits q => (s.queue q).waiters
  | .sleeps c i => s.timerq c i
  | .ready c p => s.runq c p
  | .carried x => (s.pc x).carries.toList

/-- The messages in one spot. -/
def messagesAt (s : State S) (L : Ledger S) : Spot → List MessageId
  | .queued q => (s.queue q).messages
  | .mailed a => (L.mail a).toList
  | .held => s.held

theorem actorsAt_setPc (s : State S) (x : Ctx) (pc : Pc S) (k : Place S) :
    (s.setPc x pc).actorsAt k = if k = .carried x then pc.carries.toList else s.actorsAt k := by
  cases k with
  | carried y =>
    by_cases hy : y = x
    · simp [actorsAt, setPc, hy]
    · simp [actorsAt, setPc, hy]
  | _ => simp [actorsAt, setPc]

theorem actorsAt_setQueue (s : State S) (q : QueueId) (Q : Queue MessageId ActorId)
    (k : Place S) :
    (s.setQueue q Q).actorsAt k = if k = .waits q then Q.waiters else s.actorsAt k := by
  cases k with
  | waits r =>
    by_cases hr : r = q
    · simp [actorsAt, setQueue, hr]
    · simp [actorsAt, setQueue, hr]
  | _ => simp [actorsAt, setQueue]

theorem actorsAt_setRunq (s : State S) (c : Fin S.cpuMax) (p : Nat) (runq : List ActorId)
    (k : Place S) :
    (s.setRunq c p runq).actorsAt k = if k = .ready c p then runq else s.actorsAt k := by
  cases k with
  | ready c' p' =>
    by_cases hc : c' = c
    · by_cases hp : p' = p
      · simp [actorsAt, setRunq, hc, hp]
      · simp [actorsAt, setRunq, hc, hp]
    · simp [actorsAt, setRunq, hc]
  | _ => simp [actorsAt, setRunq]

theorem actorsAt_setWheel (s : State S) (c : Fin S.cpuMax) (w : Wheel S.timerqMax ActorId)
    (k : Place S) :
    (s.setWheel c w).actorsAt k =
      match k with
      | .sleeps c' i => if c' = c then w.timerq i else s.timerq c' i
      | k => s.actorsAt k := by
  cases k with
  | sleeps c' i =>
    by_cases hc : c' = c
    · subst hc
      simp [actorsAt, setWheel]
    · simp [actorsAt, setWheel, hc]
  | _ => simp [actorsAt, setWheel]

end State

/-- A context that serves a vector runs an actor of its CPU and of the priority of the vector. -/
def Caller.Runs (s : State S) (x : Ctx) (a : ActorId) : Caller → Prop
  | .schedule vect => s.cpu a = S.thisCpu x ∧ s.prio a = S.vect2prio vect
  | .init => True

/-- The next call of the actor delivers what it is owed: a message exactly if it asked for one. -/
structure Ready (s : State S) (L : Ledger S) (a : ActorId) : Prop where
  mailbox : s.mailbox a = L.mail a
  owed : L.mail a = none ↔ L.awaits a = none

/-- The fields of an actor in the hands of the context `x`. -/
def Carried (s : State S) (L : Ledger S) (x : Ctx) (a : ActorId) : Pc S → Prop
  | .call _ caller => caller.Runs s x a ∧ Ready s L a
  | .inFunc _ caller => caller.Runs s x a ∧ L.mail a = none
  | .subscribe _ q caller => caller.Runs s x a ∧ L.mail a = none ∧ L.awaits a = some q
  | .store _ msg caller => caller.Runs s x a ∧ msg = L.mail a ∧ L.awaits a ≠ none
  | .test _ msg caller =>
    caller.Runs s x a ∧ msg = L.mail a ∧ L.awaits a ≠ none ∧ s.mailbox a = L.mail a
  | .suspend _ caller => caller.Runs s x a ∧ L.mail a = none ∧ L.awaits a = none
  | .delay _ caller | .sleep _ caller | .yield _ caller =>
    caller.Runs s x a ∧ L.mail a = none ∧ L.awaits a = none ∧ s.mailbox a = none
  | .initPop _ q => L.mail a = none ∧ L.awaits a = some q
  | .insert _ _ => Ready s L a
  | _ => True

/-- The fields of an actor in one place, and what the actor is owed there. -/
def Standing (s : State S) (L : Ledger S) (a : ActorId) : Place S → Prop
  | .waits q => L.mail a = none ∧ L.awaits a = some q
  | .sleeps _ _ => s.mailbox a = none ∧ L.mail a = none ∧ L.awaits a = none
  | .ready c p => s.cpu a = c ∧ s.prio a = p ∧ Ready s L a
  | .carried x => Carried s L x a (s.pc x)

/-- The part of the invariant about actors. -/
structure ActorInv (s : State S) (L : Ledger S) (loc : ActorId → Option (Place S)) : Prop where
  placed : Placed s.actorsAt loc
  func : ∀ a, s.func a = true ↔ loc a ≠ none
  prio : ∀ a, s.func a = true → s.prio a = S.vect2prio (s.vect a)
  fresh : ∀ a, loc a = none → L.mail a = none ∧ L.awaits a = none
  standing : ∀ a k, loc a = some k → Standing s L a k
  window : ∀ x a, (s.pc x).window = some a → ∃ q, loc a = some (.waits q)
  tested : ∀ x a caller, s.pc x = .test a none caller → s.mailbox a = none
  requested : ∀ x a activator, s.pc x = .request a activator → s.func a = true

/-- Nothing about the actor changes. -/
structure Untouched (s : State S) (L : Ledger S) (s' : State S) (L' : Ledger S) (a : ActorId) :
    Prop where
  func : s'.func a = s.func a
  vect : s'.vect a = s.vect a
  cpu : s'.cpu a = s.cpu a
  prio : s'.prio a = s.prio a
  mailbox : s'.mailbox a = s.mailbox a
  mail : L'.mail a = L.mail a
  awaits : L'.awaits a = L.awaits a

/-- What the invariant reads of an actor. -/
def State.fields (s : State S) (L : Ledger S) (a : ActorId) :
    Bool × Vect × Fin S.cpuMax × Nat × Option MessageId × Option MessageId × Option QueueId :=
  (s.func a, s.vect a, s.cpu a, s.prio a, s.mailbox a, L.mail a, L.awaits a)

/-- What `mg_actor_init` sets once and for all. -/
def State.identity (s : State S) (a : ActorId) : Bool × Nat × Vect :=
  (s.func a, s.prio a, s.vect a)

section Frame

variable {s s' : State S} {L L' : Ledger S} {a : ActorId}

theorem Untouched.of_fields (h : s'.fields L' a = s.fields L a) : Untouched s L s' L' a := by
  simp only [State.fields, Prod.mk.injEq] at h
  obtain ⟨hfunc, hvect, hcpu, hprio, hmailbox, hmail, hawaits⟩ := h
  exact ⟨hfunc, hvect, hcpu, hprio, hmailbox, hmail, hawaits⟩

theorem Caller.Runs.untouched {x : Ctx} {caller : Caller} (h : caller.Runs s x a)
    (hu : Untouched s L s' L' a) : caller.Runs s' x a := by
  cases caller with
  | init => trivial
  | schedule vect => exact ⟨hu.cpu.trans h.1, hu.prio.trans h.2⟩

theorem Ready.untouched (h : Ready s L a) (hu : Untouched s L s' L' a) : Ready s' L' a :=
  ⟨by rw [hu.mailbox, hu.mail, h.mailbox], by rw [hu.mail, hu.awaits, h.owed]⟩

theorem Carried.untouched {x : Ctx} {pc : Pc S} (h : Carried s L x a pc)
    (hu : Untouched s L s' L' a) : Carried s' L' x a pc := by
  cases pc with
  | call b caller => exact ⟨h.1.untouched hu, h.2.untouched hu⟩
  | inFunc b caller => exact ⟨h.1.untouched hu, hu.mail.trans h.2⟩
  | subscribe b q caller =>
    exact ⟨h.1.untouched hu, hu.mail.trans h.2.1, hu.awaits.trans h.2.2⟩
  | store b msg caller =>
    exact ⟨h.1.untouched hu, h.2.1.trans hu.mail.symm, by rw [hu.awaits]; exact h.2.2⟩
  | test b msg caller =>
    refine ⟨h.1.untouched hu, h.2.1.trans hu.mail.symm, by rw [hu.awaits]; exact h.2.2.1, ?_⟩
    rw [hu.mailbox, hu.mail]
    exact h.2.2.2
  | suspend b caller => exact ⟨h.1.untouched hu, hu.mail.trans h.2.1, hu.awaits.trans h.2.2⟩
  | delay b caller | sleep b caller | yield b caller =>
    exact ⟨h.1.untouched hu, hu.mail.trans h.2.1, hu.awaits.trans h.2.2.1,
      hu.mailbox.trans h.2.2.2⟩
  | initPop b q => exact ⟨hu.mail.trans h.1, hu.awaits.trans h.2⟩
  | insert b activator => exact Ready.untouched h hu
  | _ => trivial

/-- The fields do not depend on where contexts stand. -/
theorem Carried.setPc {x y : Ctx} {pc pc' : Pc S} (h : Carried s L x a pc) :
    Carried (s.setPc y pc') L x a pc := h.untouched (.of_fields rfl)

/-- An actor stands as before where nothing about it changes. -/
theorem Standing.untouched {k : Place S} (h : Standing s L a k) (hu : Untouched s L s' L' a)
    (hpc : ∀ x, k = .carried x → s'.pc x = s.pc x) : Standing s' L' a k := by
  cases k with
  | waits q => exact ⟨hu.mail.trans h.1, hu.awaits.trans h.2⟩
  | sleeps c i => exact ⟨hu.mailbox.trans h.1, hu.mail.trans h.2.1, hu.awaits.trans h.2.2⟩
  | ready c p => exact ⟨hu.cpu.trans h.1, hu.prio.trans h.2.1, h.2.2.untouched hu⟩
  | carried x =>
    change Carried s' L' x a (s'.pc x)
    rw [hpc x rfl]
    exact Carried.untouched h hu

end Frame

namespace ActorInv

variable {s s₁ : State S} {L L' : Ledger S} {loc : ActorId → Option (Place S)} {x : Ctx}
  {pc : Pc S} {a : ActorId}

theorem loc_of_mem (h : ActorInv s L loc) {k : Place S} (ha : a ∈ s.actorsAt k) :
    loc a = some k := (h.placed.mem_iff k a).mp ha

theorem loc_of_carries (h : ActorInv s L loc) (ha : (s.pc x).carries = some a) :
    loc a = some (.carried x) :=
  h.loc_of_mem (k := .carried x) (by simp [State.actorsAt, ha])

/-- The actor a context works for. -/
theorem carried (h : ActorInv s L loc) (hpc : s.pc x = pc) (ha : pc.carries = some a) :
    Carried s L x a pc := by
  subst hpc
  exact h.standing a _ (h.loc_of_carries ha)

theorem known (h : ActorInv s L loc) {k : Place S} (ha : loc a = some k) : s.func a = true :=
  (h.func a).mpr (by rw [ha]; simp)

/-- An actor that is not initialised is in no place. -/
theorem loc_of_fresh (h : ActorInv s L loc) (ha : s.func a = false) : loc a = none := by
  by_contra hne
  rw [(h.func a).mpr hne] at ha
  cases ha

theorem carries_of_loc (h : ActorInv s L loc) (ha : loc a = some (.carried x)) :
    (s.pc x).carries = some a := by
  have hmem := (h.placed.mem_iff (.carried x) a).mpr ha
  simpa [State.actorsAt, eq_comm] using hmem

/-- An actor with mail is in a run queue, with the mail in its mailbox, or in the hands of a
context. -/
theorem place_of_mail (h : ActorInv s L loc) {m : MessageId} (hm : L.mail a = some m) :
    (∃ c p, a ∈ s.runq c p ∧ s.mailbox a = some m) ∨ ∃ x, loc a = some (.carried x) := by
  cases hk : loc a with
  | none =>
    rw [(h.fresh a hk).1] at hm
    cases hm
  | some k =>
    have hstanding := h.standing a k hk
    cases k with
    | ready c p =>
      exact Or.inl ⟨c, p, (h.placed.mem_iff (.ready c p) a).mpr hk,
        hstanding.2.2.mailbox.trans hm⟩
    | waits q =>
      rw [hstanding.1] at hm
      cases hm
    | sleeps c i =>
      rw [hstanding.2.1] at hm
      cases hm
    | carried x => exact Or.inr ⟨x, rfl⟩

/-- The mailbox of an actor outside of any queue is in nobody's window. -/
theorem no_window (h : ActorInv s L loc) (ha : ∀ q, loc a ≠ some (.waits q)) (y : Ctx) :
    (s.pc y).window ≠ some a := by
  intro hy
  obtain ⟨q, hq⟩ := h.window y a hy
  exact ha q hq

/-- Nobody but `a` is in the hands of a context that carries `a`. -/
theorem carries_eq {pc : Pc S} (ha : pc.carries = some a) (b : ActorId)
    (hb : pc.carries = some b) : b = a := by
  rw [ha] at hb
  exact (Option.some.inj hb).symm

/-- An initialised actor whose identity is kept has the priority of its vector. -/
theorem identified (h : ActorInv s L loc) (hkept : s₁.identity a = s.identity a)
    (hknown : s.func a = true) : s₁.func a = true ∧ s₁.prio a = S.vect2prio (s₁.vect a) := by
  simp only [State.identity, Prod.mk.injEq] at hkept
  obtain ⟨hfunc, hprio, hvect⟩ := hkept
  rw [hfunc, hprio, hvect]
  exact ⟨hknown, h.prio a hknown⟩

/-- A step that touches the actor `a` alone, and leaves it in the place `k`. -/
theorem update (h : ActorInv s L loc) {k : Place S} (hpc : s₁.pc = s.pc)
    (hother : ∀ b, b ≠ a → Untouched s L s₁ L' b)
    (hcarries : ∀ b, (s.pc x).carries = some b → b = a)
    (hplaced : Placed (s₁.setPc x pc).actorsAt (Function.update loc a (some k)))
    (hfunc : s₁.func a = true) (hprio : s₁.prio a = S.vect2prio (s₁.vect a))
    (hstanding : Standing (s₁.setPc x pc) L' a k) (hno : ∀ y, (s.pc y).window ≠ some a)
    (hwindow : ∀ b, pc.window = some b → b = a ∧ ∃ q, k = .waits q)
    (htest : ∀ b caller, pc ≠ .test b none caller)
    (hrequest : ∀ b activator, pc = .request b activator → b = a) :
    ActorInv (s₁.setPc x pc) L' (Function.update loc a (some k)) := by
  have hpc' : ∀ y, y ≠ x → (s₁.setPc x pc).pc y = s.pc y := by
    intro y hy
    simp [State.setPc, hy, hpc]
  have hpcx : (s₁.setPc x pc).pc x = pc := by simp [State.setPc]
  have hother' : ∀ b, b ≠ a → Untouched s L (s₁.setPc x pc) L' b := fun b hb =>
    ⟨(hother b hb).func, (hother b hb).vect, (hother b hb).cpu, (hother b hb).prio,
      (hother b hb).mailbox, (hother b hb).mail, (hother b hb).awaits⟩
  refine ⟨hplaced, fun b => ?_, fun b hb => ?_, fun b hb => ?_, fun b l hl => ?_,
    fun y b hy => ?_, fun y b caller hy => ?_, fun y b activator hy => ?_⟩
  · by_cases hba : b = a
    · subst hba
      simpa [State.setPc] using hfunc
    · rw [(hother' b hba).func, Function.update_of_ne hba]
      exact h.func b
  · by_cases hba : b = a
    · rw [hba]
      exact hprio
    · rw [(hother' b hba).func] at hb
      rw [(hother' b hba).prio, (hother' b hba).vect]
      exact h.prio b hb
  · by_cases hba : b = a
    · rw [hba, Function.update_self] at hb
      cases hb
    · rw [Function.update_of_ne hba] at hb
      rw [(hother' b hba).mail, (hother' b hba).awaits]
      exact h.fresh b hb
  · by_cases hba : b = a
    · rw [hba, Function.update_self] at hl
      rw [hba, ← Option.some.inj hl]
      exact hstanding
    · rw [Function.update_of_ne hba] at hl
      apply (h.standing b l hl).untouched (hother' b hba)
      rintro y rfl
      apply hpc' y
      rintro rfl
      exact hba (hcarries b (h.carries_of_loc hl))
  · by_cases hyx : y = x
    · rw [hyx, hpcx] at hy
      obtain ⟨rfl, q, rfl⟩ := hwindow b hy
      exact ⟨q, by simp⟩
    · rw [hpc' y hyx] at hy
      have hba : b ≠ a := by
        rintro rfl
        exact hno y hy
      rw [Function.update_of_ne hba]
      exact h.window y b hy
  · by_cases hyx : y = x
    · rw [hyx, hpcx] at hy
      exact absurd hy (htest b caller)
    · rw [hpc' y hyx] at hy
      have hba : b ≠ a := by
        rintro rfl
        exact hno y (by rw [hy]; rfl)
      rw [(hother' b hba).mailbox]
      exact h.tested y b caller hy
  · by_cases hyx : y = x
    · rw [hyx, hpcx] at hy
      rw [hrequest b activator hy]
      exact hfunc
    · rw [hpc' y hyx] at hy
      by_cases hba : b = a
      · rw [hba]
        exact hfunc
      · rw [(hother' b hba).func]
        exact h.requested y b activator hy

/-- A step that touches the actor `a` alone, and leaves it with a context. -/
theorem carry (h : ActorInv s L loc) (hpc : s₁.pc = s.pc)
    (hother : ∀ b, b ≠ a → Untouched s L s₁ L' b)
    (hbefore : ∀ b, (s.pc x).carries = some b → b = a) (hafter : pc.carries = some a)
    (hplaced : Placed (s₁.setPc x pc).actorsAt (Function.update loc a (some (.carried x))))
    (hfunc : s₁.func a = true) (hprio : s₁.prio a = S.vect2prio (s₁.vect a))
    (hno : ∀ y, (s.pc y).window ≠ some a) (hcarried : Carried s₁ L' x a pc) :
    ActorInv (s₁.setPc x pc) L' (Function.update loc a (some (.carried x))) := by
  have hpcx : (s₁.setPc x pc).pc x = pc := by simp [State.setPc]
  have hstanding : Standing (s₁.setPc x pc) L' a (.carried x) := by
    change Carried (s₁.setPc x pc) L' x a ((s₁.setPc x pc).pc x)
    rw [hpcx]
    exact hcarried.setPc
  refine h.update hpc hother hbefore hplaced hfunc hprio hstanding hno (fun b hb => ?_)
    (fun b caller hb => ?_) (fun b activator hb => ?_)
  · rw [Pc.window_of_carries hafter] at hb
    cases hb
  · rw [hb] at hafter
    cases hafter
  · rw [hb] at hafter
    cases hafter

/-- A step in which a context goes on working for its actor. -/
theorem stay (h : ActorInv s L loc) (ha : (s.pc x).carries = some a) (hpc : s₁.pc = s.pc)
    (hcarries : pc.carries = some a) (hlists : ∀ k, s₁.actorsAt k = s.actorsAt k)
    (hother : ∀ b, b ≠ a → Untouched s L s₁ L' b) (hkept : s₁.identity a = s.identity a)
    (hcarried : Carried s₁ L' x a pc) : ActorInv (s₁.setPc x pc) L' loc := by
  have hloc := h.loc_of_carries ha
  have hsame : Function.update loc a (some (.carried x)) = loc := by
    rw [← hloc, Function.update_eq_self]
  have hplaced : Placed (s₁.setPc x pc).actorsAt loc := by
    refine h.placed.congr fun k => ?_
    rw [State.actorsAt_setPc, hlists]
    split
    · rename_i hk
      rw [hk, State.actorsAt, ha, hcarries]
    · rfl
  obtain ⟨hfunc, hprio⟩ := h.identified hkept (h.known hloc)
  rw [← hsame]
  exact h.carry hpc hother (carries_eq ha) hcarries (by rw [hsame]; exact hplaced) hfunc hprio
    (h.no_window (by rw [hloc]; simp)) hcarried

/-- A step that touches no actor. -/
theorem silent (h : ActorInv s L loc) (hbefore : (s.pc x).carries = none) (hpc : s₁.pc = s.pc)
    (hafter : pc.carries = none) (hlists : ∀ k, s₁.actorsAt k = s.actorsAt k)
    (hother : ∀ b, Untouched s L s₁ L' b) (hwindow : pc.window = none)
    (hrequest : ∀ b activator, pc ≠ .request b activator) :
    ActorInv (s₁.setPc x pc) L' loc := by
  have hpc' : ∀ y, y ≠ x → (s₁.setPc x pc).pc y = s.pc y := by
    intro y hy
    simp [State.setPc, hy, hpc]
  have hpcx : (s₁.setPc x pc).pc x = pc := by simp [State.setPc]
  have hother' : ∀ b, Untouched s L (s₁.setPc x pc) L' b := fun b =>
    ⟨(hother b).func, (hother b).vect, (hother b).cpu, (hother b).prio,
      (hother b).mailbox, (hother b).mail, (hother b).awaits⟩
  refine ⟨h.placed.congr fun k => ?_, fun b => ?_, fun b hb => ?_, fun b hb => ?_,
    fun b l hl => ?_, fun y b hy => ?_, fun y b caller hy => ?_, fun y b activator hy => ?_⟩
  · rw [State.actorsAt_setPc, hlists]
    split
    · rename_i hk
      rw [hk, State.actorsAt, hbefore, hafter]
    · rfl
  · rw [(hother' b).func]
    exact h.func b
  · rw [(hother' b).func] at hb
    rw [(hother' b).prio, (hother' b).vect]
    exact h.prio b hb
  · rw [(hother' b).mail, (hother' b).awaits]
    exact h.fresh b hb
  · apply (h.standing b l hl).untouched (hother' b)
    rintro y rfl
    apply hpc' y
    rintro rfl
    rw [h.carries_of_loc hl] at hbefore
    cases hbefore
  · by_cases hyx : y = x
    · rw [hyx, hpcx, hwindow] at hy
      cases hy
    · rw [hpc' y hyx] at hy
      exact h.window y b hy
  · by_cases hyx : y = x
    · rw [hyx, hpcx] at hy
      rw [hy] at hwindow
      simp [Pc.window] at hwindow
    · rw [hpc' y hyx] at hy
      rw [(hother' b).mailbox]
      exact h.tested y b caller hy
  · by_cases hyx : y = x
    · rw [hyx, hpcx] at hy
      exact absurd hy (hrequest b activator)
    · rw [hpc' y hyx] at hy
      rw [(hother' b).func]
      exact h.requested y b activator hy

end ActorInv

end Magnesium
