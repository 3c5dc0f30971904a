import Magnesium.Kernel.Invariant
import Magnesium.Kernel.Preservation.Queues

/-!
# The actors along a run

One lemma for each section that moves an actor, or goes on working for one; `ActorInv.step` puts
them together.
-/

namespace Magnesium

variable {S : Setup}

namespace ActorInv

variable {s s₁ : State S} {L L' : Ledger S} {loc : ActorId → Option (Place S)} {x : Ctx}
  {pc : Pc S} {a : ActorId}

/-- A context puts the actor it carries into a list. -/
theorem putDown (h : ActorInv s L loc) {k : Place S} (ha : (s.pc x).carries = some a)
    (hk : ∀ y, k ≠ .carried y) (hpc : s₁.pc = s.pc) (hcarries : pc.carries = none)
    (hdst : (s₁.actorsAt k).Perm (a :: s.actorsAt k))
    (hrest : ∀ l, l ≠ k → l ≠ .carried x → s₁.actorsAt l = s.actorsAt l)
    (hother : ∀ b, b ≠ a → Untouched s L s₁ L' b) (hkept : s₁.identity a = s.identity a)
    (hstanding : Standing s₁ L' a k)
    (hwindow : ∀ b, pc.window = some b → b = a ∧ ∃ q, k = .waits q)
    (htest : ∀ b caller, pc ≠ .test b none caller)
    (hrequest : ∀ b activator, pc = .request b activator → b = a) :
    ActorInv (s₁.setPc x pc) L' (Function.update loc a (some k)) := by
  have hloc := h.loc_of_carries ha
  obtain ⟨hfunc, hprio⟩ := h.identified hkept (h.known hloc)
  have hplaced : Placed (s₁.setPc x pc).actorsAt (Function.update loc a (some k)) := by
    apply h.placed.move (i := .carried x) (Ne.symm (hk x))
    · rw [State.actorsAt_setPc, if_pos rfl, hcarries]
      simp [State.actorsAt, ha]
    · rw [State.actorsAt_setPc, if_neg (hk x)]
      exact hdst
    · intro l hl hlk
      rw [State.actorsAt_setPc, if_neg hl]
      exact hrest l hlk hl
  have hstanding' : Standing (s₁.setPc x pc) L' a k :=
    hstanding.untouched (.of_fields rfl) fun y hy => absurd hy (hk y)
  exact h.update hpc hother (carries_eq ha) hplaced hfunc hprio hstanding'
    (h.no_window (by rw [hloc]; simp)) hwindow htest hrequest

/-- A context takes the actor `a` out of a list. -/
theorem pickUp (h : ActorInv s L loc) {k : Place S} (ha : loc a = some k)
    (hk : ∀ y, k ≠ .carried y) (hno : ∀ y, (s.pc y).window ≠ some a)
    (hbefore : (s.pc x).carries = none) (hpc : s₁.pc = s.pc) (hcarries : pc.carries = some a)
    (hsrc : (s.actorsAt k).Perm (a :: s₁.actorsAt k))
    (hrest : ∀ l, l ≠ k → l ≠ .carried x → s₁.actorsAt l = s.actorsAt l)
    (hother : ∀ b, b ≠ a → Untouched s L s₁ L' b) (hkept : s₁.identity a = s.identity a)
    (hcarried : Carried s₁ L' x a pc) :
    ActorInv (s₁.setPc x pc) L' (Function.update loc a (some (.carried x))) := by
  obtain ⟨hfunc, hprio⟩ := h.identified hkept (h.known ha)
  have hplaced : Placed (s₁.setPc x pc).actorsAt
      (Function.update loc a (some (.carried x))) := by
    apply h.placed.move (i := k) (hk x)
    · rw [State.actorsAt_setPc, if_neg (hk x)]
      exact hsrc
    · rw [State.actorsAt_setPc, if_pos rfl, hcarries]
      simp [State.actorsAt, hbefore]
    · intro l hl hlx
      rw [State.actorsAt_setPc, if_neg hlx]
      exact hrest l hl hlx
  apply h.carry hpc hother (fun b hb => ?_) hcarries hplaced hfunc hprio hno hcarried
  rw [hbefore] at hb
  cases hb

/-- A queue changes, but not its waiting actors. -/
theorem sameWaiters {q : QueueId} {Q : Queue MessageId ActorId}
    (hw : Q.waiters = (s.queue q).waiters) (k : Place S) :
    (s.setQueue q Q).actorsAt k = s.actorsAt k := by
  rw [State.actorsAt_setQueue]
  split
  · rename_i hk
    rw [hk, State.actorsAt, hw]
  · rfl

theorem handed (h : ActorInv s L loc) (hq : QueueInv s L) {act : Action S} {q : QueueId}
    {m : MessageId} {Q : Queue MessageId ActorId} (hrace : RaceFree s x act)
    (hpc : s.pc x = .idle) (hpush : s.pushes act = some (q, m))
    (hQ : (s.queue q).push m = some (Q, some a)) {held : List MessageId} :
    ActorInv ((State.setMailbox { s.setQueue q Q with held := held } a (some m)).setPc x
      (.insert a .push)) (L.step (.push q m (some a)))
      (Function.update loc a (some (.carried x))) := by
  obtain ⟨-, -, -, hw⟩ := (hq.valid q).handed hQ
  obtain ⟨rest, hitems⟩ := (hq.valid q).items_of_handed hQ
  have hloc : loc a = some (.waits q) :=
    h.loc_of_mem (k := .waits q) (by rw [State.actorsAt, hw]; exact List.mem_cons_self)
  obtain ⟨hmail, hawaits⟩ := h.standing a _ hloc
  refine h.pickUp hloc (by simp) (hrace q m a rest hpush hitems) (by rw [hpc]; rfl) rfl rfl
    ?_ ?_ ?_ rfl ?_
  · simp [State.actorsAt, State.setMailbox, State.setQueue, hw]
  · intro l hl _
    have := State.actorsAt_setQueue s q Q l
    rw [if_neg hl] at this
    cases l <;> exact this
  · intro b hb
    constructor <;> simp [State.setMailbox, State.setQueue, Ledger.step, hb]
  · exact ⟨by simp [State.setMailbox, Ledger.step],
      by simp [Ledger.step, hawaits]⟩

theorem dispatched (h : ActorInv s L loc) {vect : Vect} {rest : List ActorId}
    (hpc : s.pc x = .schedule vect)
    (hrunq : s.runq (S.thisCpu x) (S.vect2prio vect) = a :: rest) :
    ActorInv ((s.setRunq (S.thisCpu x) (S.vect2prio vect) rest).setPc x
      (.call a (.schedule vect)))
      (L.step (.dispatch (S.thisCpu x) (S.vect2prio vect) a))
      (Function.update loc a (some (.carried x))) := by
  have hloc : loc a = some (.ready (S.thisCpu x) (S.vect2prio vect)) :=
    h.loc_of_mem (k := .ready _ _) (by rw [State.actorsAt, hrunq]; exact List.mem_cons_self)
  obtain ⟨hcpu, hprio, hready⟩ := h.standing a _ hloc
  refine h.pickUp hloc (by simp) (h.no_window (by rw [hloc]; simp)) (by rw [hpc]; rfl) rfl rfl
    ?_ ?_ ?_ rfl ?_
  · simp [State.actorsAt, State.setRunq, hrunq]
  · intro l hl _
    rw [State.actorsAt_setRunq, if_neg hl]
  · exact fun _ _ => .of_fields rfl
  · exact ⟨⟨hcpu, hprio⟩, hready.mailbox, hready.owed⟩

theorem tickWoken (h : ActorInv s L loc) {i : Fin S.timerqMax} {last : Option ActorId}
    {rest : List ActorId} {w : Wheel S.timerqMax ActorId}
    (hpc : s.pc x = .idle ∨ ∃ i last head, s.pc x = .tick i last head)
    (hq : s.timerq (S.thisCpu x) i = a :: rest)
    (hw : ∀ k, w.timerq k = if k = i then rest else s.timerq (S.thisCpu x) k) :
    ActorInv ((s.setWheel (S.thisCpu x) w).setPc x (.insert a (.tick i last a))) L
      (Function.update loc a (some (.carried x))) := by
  have hloc : loc a = some (.sleeps (S.thisCpu x) i) :=
    h.loc_of_mem (k := .sleeps _ _) (by rw [State.actorsAt, hq]; exact List.mem_cons_self)
  obtain ⟨hmailbox, hmail, hawaits⟩ := h.standing a _ hloc
  have hcarries : (s.pc x).carries = none := by
    rcases hpc with hpc | ⟨_, _, _, hpc⟩ <;> rw [hpc] <;> rfl
  refine h.pickUp hloc (by simp) (h.no_window (by rw [hloc]; simp)) hcarries rfl rfl
    ?_ ?_ ?_ rfl ?_
  · simp [State.actorsAt, State.setWheel, hq, hw]
  · intro l hl _
    rw [State.actorsAt_setWheel]
    cases l with
    | sleeps c k =>
      by_cases hc : c = S.thisCpu x
      · have hk : k ≠ i := by
          rintro rfl
          exact hl (by rw [hc])
        simp [State.actorsAt, hc, hw, hk]
      · simp [State.actorsAt, hc]
    | _ => rfl
  · exact fun _ _ => .of_fields rfl
  · exact ⟨hmailbox.trans hmail.symm, by simp [hmail, hawaits]⟩

theorem tickMoved (h : ActorInv s L loc) {i j : Fin S.timerqMax} {last : Option ActorId}
    {rest : List ActorId} {w : Wheel S.timerqMax ActorId}
    (hpc : s.pc x = .idle ∨ ∃ i last head, s.pc x = .tick i last head)
    (hq : s.timerq (S.thisCpu x) i = a :: rest)
    (hw : ∀ k, w.timerq k = (if k = i then rest else s.timerq (S.thisCpu x) k) ++
      if k = j then [a] else []) :
    ActorInv ((s.setWheel (S.thisCpu x) w).setPc x (.tick i last a)) L
      (Function.update loc a (some (.sleeps (S.thisCpu x) j))) := by
  have hloc : loc a = some (.sleeps (S.thisCpu x) i) :=
    h.loc_of_mem (k := .sleeps _ _) (by rw [State.actorsAt, hq]; exact List.mem_cons_self)
  have hknown := h.known hloc
  have hcarries : (s.pc x).carries = none := by
    rcases hpc with hpc | ⟨_, _, _, hpc⟩ <;> rw [hpc] <;> rfl
  have hlists : ∀ l, ((s.setWheel (S.thisCpu x) w).setPc x (.tick i last a)).actorsAt l =
      (s.setWheel (S.thisCpu x) w).actorsAt l := by
    intro l
    rw [State.actorsAt_setPc]
    split
    · rename_i hl
      subst hl
      change [] = (s.pc x).carries.toList
      rw [hcarries]
      rfl
    · rfl
  have hplaced : Placed ((s.setWheel (S.thisCpu x) w).setPc x (.tick i last a)).actorsAt
      (Function.update loc a (some (.sleeps (S.thisCpu x) j))) := by
    by_cases hij : i = j
    · subst hij
      rw [← hloc, Function.update_eq_self]
      apply h.placed.perm
      intro l
      rw [hlists, State.actorsAt_setWheel]
      cases l with
      | sleeps c k =>
        by_cases hc : c = S.thisCpu x
        · by_cases hk : k = i
          · simp [State.actorsAt, hc, hw, hk, hq]
          · simp [State.actorsAt, hc, hw, hk]
        · simp [State.actorsAt, hc]
      | _ => rfl
    · apply h.placed.move (i := .sleeps (S.thisCpu x) i)
      · simpa using hij
      · rw [hlists, State.actorsAt_setWheel]
        simp [State.actorsAt, hw, hij, hq]
      · rw [hlists, State.actorsAt_setWheel]
        have hji : j ≠ i := Ne.symm hij
        simp [State.actorsAt, hw, hji]
      · intro l hli hlj
        rw [hlists, State.actorsAt_setWheel]
        cases l with
        | sleeps c k =>
          by_cases hc : c = S.thisCpu x
          · have hki : k ≠ i := by
              rintro rfl
              exact hli (by rw [hc])
            have hkj : k ≠ j := by
              rintro rfl
              exact hlj (by rw [hc])
            simp [State.actorsAt, hc, hw, hki, hkj]
          · simp [State.actorsAt, hc]
        | _ => rfl
  refine h.update rfl (fun _ _ => .of_fields rfl) (fun b hb => ?_)
    hplaced hknown (h.prio a hknown) (h.standing a _ hloc) (h.no_window (by rw [hloc]; simp))
    (fun b hb => ?_) (fun b caller hb => ?_) (fun b activator hb => ?_)
  · rw [hcarries] at hb
    cases hb
  · cases hb
  · cases hb
  · cases hb

/-- A pop leaves the actor waiting; its context may have to store and test the mailbox yet. -/
theorem subscribed (h : ActorInv s L loc) (hq : QueueInv s L) {q : QueueId}
    {Q : Queue MessageId ActorId} (ha : (s.pc x).carries = some a)
    (howed : L.mail a = none ∧ L.awaits a = some q)
    (hQ : (s.queue q).pop (some a) = some (Q, none))
    (hpc : pc = .idle ∨ ∃ caller, pc = .store a none caller) :
    ActorInv ((s.setQueue q Q).setPc x pc) L (Function.update loc a (some (.waits q))) := by
  obtain ⟨-, -, -, hw⟩ := (hq.valid q).subscribed hQ
  refine h.putDown ha (by simp) rfl ?_ ?_ ?_ (fun _ _ => .of_fields rfl)
    rfl howed ?_ ?_ ?_
  · rcases hpc with rfl | ⟨caller, rfl⟩ <;> rfl
  · rw [State.actorsAt_setQueue, if_pos rfl, hw]
    exact List.perm_append_singleton a _
  · intro l hl _
    rw [State.actorsAt_setQueue, if_neg hl]
  · intro b hb
    rcases hpc with rfl | ⟨caller, rfl⟩
    · cases hb
    · cases hb
      exact ⟨rfl, q, rfl⟩
  · rintro b caller rfl
    simp at hpc
  · rintro b activator rfl
    simp at hpc

theorem slept (h : ActorInv s L loc) {caller : Caller} {j : Fin S.timerqMax}
    {w : Wheel S.timerqMax ActorId} (hpc : s.pc x = .sleep a caller)
    (hw : ∀ k, w.timerq k = s.timerq (S.thisCpu x) k ++ if k = j then [a] else []) :
    ActorInv ((s.setWheel (S.thisCpu x) w).setPc x caller.resume) L
      (Function.update loc a (some (.sleeps (S.thisCpu x) j))) := by
  have ha : (s.pc x).carries = some a := by rw [hpc]; rfl
  obtain ⟨-, hmail, hawaits, hmailbox⟩ := h.carried hpc rfl
  have hrest := caller.resume_atRest (S := S)
  refine h.putDown ha (by simp) rfl caller.resume_carries ?_ ?_
    (fun _ _ => .of_fields rfl) rfl ⟨hmailbox, hmail, hawaits⟩ ?_
    (fun b caller' => hrest.ne_test b none caller')
    (fun b activator hb => absurd hb (hrest.ne_request b activator))
  · simp [State.actorsAt, State.setWheel, hw]
  · intro l hl _
    rw [State.actorsAt_setWheel]
    cases l with
    | sleeps c k =>
      by_cases hcx : c = S.thisCpu x
      · have hk : k ≠ j := by
          rintro rfl
          exact hl (by rw [hcx])
        simp [State.actorsAt, hcx, hw, hk]
      · simp [State.actorsAt, hcx]
    | _ => rfl
  · intro b hb
    rw [hrest.window] at hb
    cases hb

/-- `_mg_actor_insert`, from either of its callers. -/
theorem enqueued (h : ActorInv s L loc) (ha : (s.pc x).carries = some a)
    (hready : Ready s L a) (hmail : L'.mail = L.mail) (hawaits : L'.awaits = L.awaits)
    (hcarries : pc.carries = none) (hwindow : pc.window = none)
    (hrequest : ∀ b activator, pc = .request b activator → b = a) :
    ActorInv ((s.actorInsert a).setPc x pc) L'
      (Function.update loc a (some (.ready (s.cpu a) (s.prio a)))) := by
  refine h.putDown ha (by simp) rfl hcarries ?_ ?_
    (fun _ _ => ⟨rfl, rfl, rfl, rfl, rfl, by rw [hmail], by rw [hawaits]⟩) rfl
    ⟨rfl, rfl, by rw [hmail]; exact hready.mailbox, by rw [hmail, hawaits]; exact hready.owed⟩
    ?_ ?_ hrequest
  · rw [State.actorInsert, State.actorsAt_setRunq, if_pos rfl]
    exact List.perm_append_singleton a _
  · intro l hl _
    rw [State.actorInsert, State.actorsAt_setRunq, if_neg hl]
  · intro b hb
    rw [hwindow] at hb
    cases hb
  · rintro b caller rfl
    cases hwindow

/-- `mg_actor_init` on an actor that is not initialised. -/
theorem initialised (h : ActorInv s L loc) {vect : Vect} {q : Option QueueId}
    (hpc : s.pc x = .idle) (hfresh : s.func a = false)
    (hs : s₁ = { s with
      prio := Function.update s.prio a (S.vect2prio vect)
      func := Function.update s.func a true
      vect := Function.update s.vect a vect
      cpu := Function.update s.cpu a (S.thisCpu x)
      timeout := Function.update s.timeout a 0
      mailbox := Function.update s.mailbox a none })
    (hcarries : pc.carries = some a)
    (hcarried : Carried s₁ (L.step (.init a q)) x a pc) :
    ActorInv (s₁.setPc x pc) (L.step (.init a q))
      (Function.update loc a (some (.carried x))) := by
  have hloc := h.loc_of_fresh hfresh
  have hbefore : (s.pc x).carries = none := by rw [hpc]; rfl
  have hlists : ∀ k, s₁.actorsAt k = s.actorsAt k := by
    subst hs
    intro k
    cases k <;> rfl
  have hplaced : Placed (s₁.setPc x pc).actorsAt
      (Function.update loc a (some (.carried x))) := by
    apply h.placed.adopt hloc
    · rw [State.actorsAt_setPc, if_pos rfl, hcarries]
      change [a].Perm (a :: (s.pc x).carries.toList)
      rw [hbefore]
      exact List.Perm.refl _
    · intro l hl
      rw [State.actorsAt_setPc, if_neg hl, hlists]
  apply h.carry (by rw [hs]) (fun b hb => ?_) (fun b hb => ?_) hcarries hplaced (by rw [hs]; simp)
    (by rw [hs]; simp) (h.no_window (by rw [hloc]; simp)) hcarried
  · subst hs
    constructor <;> simp [Ledger.step, hb]
  · rw [hbefore] at hb
    cases hb

/-- Storing a null result of the pop: the actor waits already, and stays in the window. -/
theorem nullStored (h : ActorInv s L loc) {caller : Caller} (hpc : s.pc x = .store a none caller) :
    ActorInv ((s.setMailbox a none).setPc x (.test a none caller)) L loc := by
  obtain ⟨q, hloc⟩ := h.window x a (by rw [hpc]; rfl)
  have hpc' : ∀ y, y ≠ x → ((s.setMailbox a none).setPc x (.test a none caller)).pc y =
      s.pc y := by
    intro y hy
    simp [State.setPc, State.setMailbox, hy]
  have hpcx : ((s.setMailbox a none).setPc x (.test a none caller)).pc x =
      .test a none caller := by simp [State.setPc]
  have hmailbox : ∀ b, b ≠ a →
      ((s.setMailbox a none).setPc x (.test a none caller)).mailbox b = s.mailbox b := by
    intro b hb
    simp [State.setPc, State.setMailbox, hb]
  have hself : ((s.setMailbox a none).setPc x (.test a none caller)).mailbox a = none := by
    simp [State.setPc, State.setMailbox]
  refine ⟨h.placed.congr fun k => ?_, h.func, h.prio, h.fresh, fun b l hl => ?_,
    fun y b hy => ?_, fun y b caller' hy => ?_, fun y b activator hy => ?_⟩
  · rw [State.actorsAt_setPc]
    split
    · rename_i hk
      subst hk
      change [] = (s.pc x).carries.toList
      rw [hpc]
      rfl
    · cases k <;> rfl
  · by_cases hb : b = a
    · subst hb
      rw [hloc] at hl
      cases hl
      exact h.standing b _ hloc
    · refine (h.standing b l hl).untouched ⟨rfl, rfl, rfl, rfl, hmailbox b hb, rfl, rfl⟩ ?_
      rintro y rfl
      apply hpc' y
      rintro rfl
      have := h.carries_of_loc hl
      rw [hpc] at this
      cases this
  · by_cases hyx : y = x
    · rw [hyx, hpcx] at hy
      cases hy
      exact ⟨q, hloc⟩
    · rw [hpc' y hyx] at hy
      exact h.window y b hy
  · by_cases hb : b = a
    · rw [hb]
      exact hself
    · by_cases hyx : y = x
      · rw [hyx, hpcx] at hy
        cases hy
        exact absurd rfl hb
      · rw [hpc' y hyx] at hy
        rw [hmailbox b hb]
        exact h.tested y b caller' hy
  · by_cases hyx : y = x
    · rw [hyx, hpcx] at hy
      cases hy
    · rw [hpc' y hyx] at hy
      exact h.requested y b activator hy

/-- A client moves an actor that waits or sleeps to another CPU. -/
theorem cpuSet (h : ActorInv s L loc) {c : Fin S.cpuMax} (hpc : s.pc x = .idle)
    (hadm : s.Admits (.setCpu a c)) :
    ActorInv (State.setPc { s with cpu := Function.update s.cpu a c } x .idle) L loc := by
  have hsame : Function.update s.pc x .idle = s.pc := by rw [← hpc, Function.update_eq_self]
  have hpc' : (State.setPc { s with cpu := Function.update s.cpu a c } x .idle).pc = s.pc :=
    hsame
  have hloc : (∃ q, loc a = some (.waits q)) ∨ ∃ c i, loc a = some (.sleeps c i) := by
    rcases hadm with ⟨q, hq⟩ | ⟨c, i, hi⟩
    · exact Or.inl ⟨q, h.loc_of_mem (k := .waits q) hq⟩
    · exact Or.inr ⟨c, i, h.loc_of_mem (k := .sleeps c i) hi⟩
  refine ⟨h.placed.congr fun k => ?_, h.func, h.prio, h.fresh, fun b l hl => ?_, ?_, ?_, ?_⟩
  · cases k with
    | carried y =>
      change (Function.update s.pc x .idle y).carries.toList = (s.pc y).carries.toList
      rw [hsame]
    | _ => rfl
  · by_cases hb : b = a
    · subst hb
      rcases hloc with ⟨q, hq⟩ | ⟨c', i, hi⟩
      · rw [hq] at hl
        cases hl
        exact h.standing b _ hq
      · rw [hi] at hl
        cases hl
        exact h.standing b _ hi
    · refine (h.standing b l hl).untouched ⟨rfl, rfl, ?_, rfl, rfl, rfl, rfl⟩ fun y _ => ?_
      · simp [State.setPc, hb]
      · rw [hpc']
  · rw [hpc']
    exact h.window
  · rw [hpc']
    exact h.tested
  · rw [hpc']
    exact h.requested

/-- Every section of a race-free run keeps the invariant of the actors. -/
theorem step (h : ActorInv s L loc) (hq : QueueInv s L) {act : Action S} {es : List (Event S)}
    (hadm : s.Admits act) (hrace : RaceFree s x act) (hsec : Section s x act s₁ pc es) :
    ∃ loc', ActorInv (s₁.setPc x pc) (L.after es) loc' := by
  cases hsec with
  | @stored _ q m Q hpc _ hpush =>
    obtain ⟨-, -, hw, hw'⟩ := (hq.valid q).stored hpush
    refine ⟨loc, h.silent (by rw [hpc]; rfl) rfl rfl (fun k => ?_)
      (fun _ => .of_fields rfl) rfl (by simp)⟩
    have := sameWaiters (hw'.trans hw.symm) k
    cases k <;> exact this
  | handed hpc hpush hQ => exact ⟨_, h.handed hq hrace hpc hpush hQ⟩
  | @polled q Q msg hpc hpop =>
    refine ⟨loc, h.silent (by rw [hpc]; rfl) rfl rfl (fun k => ?_)
      (fun _ => ⟨rfl, rfl, rfl, rfl, rfl, by simp [Ledger.after, Ledger.step],
        by simp [Ledger.after, Ledger.step]⟩) rfl (by simp)⟩
    have := sameWaiters ((hq.valid q).poll_waiters hpop) k
    cases k <;> exact this
  | @allocPopped p Q msg hpc hpop =>
    refine ⟨loc, h.silent (by rw [hpc]; rfl) rfl rfl (fun k => ?_)
      (fun _ => ⟨rfl, rfl, rfl, rfl, rfl, by simp [Ledger.after, Ledger.step],
        by simp [Ledger.after, Ledger.step]⟩) rfl (by simp)⟩
    have := sameWaiters ((hq.valid (.pool p)).poll_waiters hpop) k
    cases k <;> exact this
  | @allocStarted p hpc =>
    refine ⟨loc, h.silent (by rw [hpc]; rfl) rfl ?_ (fun _ => rfl)
      (fun _ => .of_fields rfl) ?_ fun b activator => ?_⟩
    all_goals split <;> simp [Pc.carries, Pc.window]
  | @carved p hpc hav =>
    refine ⟨loc, h.silent (by rw [hpc]; rfl) ?_ rfl (fun k => ?_) (fun b => ?_) rfl (by simp)⟩
    · simp [State.carve, hav]
    · cases k <;> simp [State.actorsAt, State.carve, hav]
    · constructor <;> simp [State.carve, hav, Ledger.after, Ledger.step]
  | exhausted hpc hav =>
    exact ⟨loc, h.silent (by rw [hpc]; rfl) rfl rfl (fun _ => rfl)
      (fun _ => .of_fields rfl) rfl (by simp)⟩
  | @tickDone _ w hpc hw =>
    refine ⟨loc, h.silent ?_ rfl rfl (fun k => ?_)
      (fun _ => .of_fields rfl) rfl (by simp)⟩
    · rcases hpc with hpc | ⟨_, _, _, hpc⟩ <;> rw [hpc] <;> rfl
    · rw [State.actorsAt_setWheel, hw]
      cases k with
      | sleeps c i =>
        by_cases hc : c = S.thisCpu x
        · simp [State.actorsAt, hc]
        · simp [State.actorsAt, hc]
      | _ => rfl
  | tickWoken hpc hhead hw => exact ⟨_, h.tickWoken hpc hhead hw⟩
  | tickMoved hpc hhead hw => exact ⟨_, h.tickMoved hpc hhead hw⟩
  | started hpc =>
    exact ⟨loc, h.silent (by rw [hpc]; rfl) rfl rfl (fun k => by cases k <;> rfl)
      (fun _ => .of_fields rfl) rfl (by simp)⟩
  | @initialised a vect q _ hpc hs =>
    refine ⟨_, h.initialised (a := a) (q := q) hpc hadm hs ?_ ?_⟩
    · cases q <;> rfl
    · have hfresh : L.mail a = none := (h.fresh a (h.loc_of_fresh hadm)).1
      cases q with
      | none => exact ⟨trivial, by simp [hs, Ledger.step, hfresh], by simp [Ledger.step, hfresh]⟩
      | some q => exact ⟨hfresh, by simp [Ledger.step]⟩
  | cpuSet hpc => exact ⟨loc, h.cpuSet hpc hadm⟩
  | initSubscribed hpc hpop =>
    have ha := congrArg Pc.carries hpc
    have hc := h.carried hpc rfl
    exact ⟨_, h.subscribed hq ha hc hpop (Or.inl rfl)⟩
  | dispatched hpc hrunq => exact ⟨_, h.dispatched hpc hrunq⟩
  | finished hpc _ =>
    exact ⟨loc, h.silent (by rw [hpc]; rfl) rfl rfl (fun _ => rfl)
      (fun _ => .of_fields rfl) rfl (by simp)⟩
  | @called a caller hpc =>
    have ha := congrArg Pc.carries hpc
    have hc := h.carried hpc rfl
    refine ⟨loc, h.stay ha rfl rfl (fun k => by cases k <;> rfl) (fun b hb => ?_) rfl
      ⟨hc.1, ?_⟩⟩
    · constructor <;> simp [Ledger.after, Ledger.step, hb]
    · simp [Ledger.after, Ledger.step]
  | @returnedQueue a caller q hpc =>
    have ha := congrArg Pc.carries hpc
    have hc := h.carried hpc rfl
    refine ⟨loc, h.stay ha rfl rfl (fun k => by cases k <;> rfl) (fun b hb => ?_) rfl
      ⟨hc.1, hc.2, by simp [Ledger.after, Ledger.step]⟩⟩
    constructor <;> simp [Ledger.after, Ledger.step, hb]
  | @returnedSleep a caller delay hpc =>
    have ha := congrArg Pc.carries hpc
    have hc := h.carried hpc rfl
    refine ⟨loc, h.stay ha rfl rfl (fun k => by cases k <;> rfl) (fun b hb => ?_) rfl
      ⟨hc.1, hc.2, by simp [Ledger.after, Ledger.step]⟩⟩
    constructor <;> simp [Ledger.after, Ledger.step, hb]
  | @taken a q caller Q m hpc hpop =>
    have ha := congrArg Pc.carries hpc
    have hc := h.carried hpc rfl
    obtain ⟨-, -, hw, hw'⟩ := (hq.valid q).found hpop
    refine ⟨loc, h.stay ha rfl rfl (sameWaiters (hw'.trans hw.symm)) (fun b hb => ?_) rfl
      ⟨hc.1, by simp [Ledger.after, Ledger.step], ?_⟩⟩
    · constructor <;> simp [State.setQueue, Ledger.after, Ledger.step, hb]
    · simp [Ledger.after, Ledger.step, hc.2.2]
  | @subscribed a q caller Q hpc hpop =>
    have ha := congrArg Pc.carries hpc
    have hc := h.carried hpc rfl
    exact ⟨_, h.subscribed hq ha hc.2 hpop (Or.inr ⟨caller, rfl⟩)⟩
  | @mailboxStored a msg caller hpc =>
    cases msg with
    | none => exact ⟨loc, h.nullStored hpc⟩
    | some m =>
      have ha := congrArg Pc.carries hpc
      have hc := h.carried hpc rfl
      refine ⟨loc, h.stay ha rfl rfl (fun k => by cases k <;> rfl) (fun b hb => ?_) rfl
        ⟨hc.1, hc.2.1, hc.2.2, by simp [State.setMailbox, Ledger.after, ← hc.2.1]⟩⟩
      constructor <;> simp [State.setMailbox, Ledger.after, hb]
  | @looped a msg caller hpc hne =>
    cases msg with
    | none => exact absurd (h.tested x a caller hpc) hne
    | some m =>
      have ha := congrArg Pc.carries hpc
      have hc := h.carried hpc rfl
      refine ⟨loc, h.stay ha rfl rfl (fun _ => rfl)
        (fun _ _ => .of_fields rfl) rfl ⟨hc.1, hc.2.2.2, ?_⟩⟩
      have hmail : L.mail a = some m := hc.2.1.symm
      simp [Ledger.after, hmail, hc.2.2.1]
  | @left a msg caller hpc hnone =>
    cases msg with
    | none =>
      exact ⟨loc, h.silent (by rw [hpc]; rfl) rfl caller.resume_carries (fun _ => rfl)
        (fun _ => .of_fields rfl) caller.resume_atRest.window
        caller.resume_atRest.ne_request⟩
    | some m =>
      have hc := h.carried hpc rfl
      have hnull : some m = none := hc.2.1.trans (hc.2.2.2.symm.trans hnone)
      cases hnull
  | @suspended a caller hpc =>
    have ha := congrArg Pc.carries hpc
    have hc := h.carried hpc rfl
    refine ⟨loc, h.stay ha rfl rfl (fun k => by cases k <;> rfl) (fun b hb => ?_) rfl
      ⟨hc.1, hc.2.1, hc.2.2, by simp [State.setMailbox]⟩⟩
    constructor <;> simp [State.setMailbox, Ledger.after, hb]
  | @delayed a caller hpc =>
    have ha := congrArg Pc.carries hpc
    have hc := h.carried hpc rfl
    refine ⟨loc, h.stay ha rfl ?_ (fun _ => rfl)
      (fun _ _ => .of_fields rfl) rfl ?_⟩
    · split <;> rfl
    · split <;> exact hc
  | slept hpc hw => exact ⟨_, h.slept hpc hw⟩
  | @yielded a caller hpc =>
    have ha := congrArg Pc.carries hpc
    have hc := h.carried hpc rfl
    have hrest := caller.resume_atRest (S := S)
    exact ⟨_, h.enqueued ha ⟨hc.2.2.2.trans hc.2.1.symm, by simp [hc.2.1, hc.2.2.1]⟩ rfl rfl
      caller.resume_carries hrest.window fun b activator hb =>
        absurd hb (hrest.ne_request b activator)⟩
  | @inserted a activator hpc =>
    have ha := congrArg Pc.carries hpc
    have hc := h.carried hpc rfl
    refine ⟨_, h.enqueued ha hc rfl rfl rfl rfl fun b activator' hb => ?_⟩
    cases hb
    rfl
  | @requested a activator hpc =>
    refine ⟨loc, h.silent (by rw [hpc]; rfl) rfl activator.resume_carries
      (fun k => by cases k <;> rfl) (fun _ => .of_fields rfl)
      activator.resume_window fun b activator' => ?_⟩
    cases activator <;> simp [Activator.resume]

end ActorInv

end Magnesium
