import Magnesium.Timer.Slot

/-!
# One visit of the tick loop

What a locked section of `mg_context_tick` can do, said once. `Visit` is the effect of the loop
body on one entry; the equations of this module are the only places where the sections are
unfolded.
-/

namespace Magnesium.Wheel

variable {M : Nat} {α : Type}

@[simp] theorem setTimerq_timerq (w : Wheel M α) (i : Fin M) (queue : List α) :
    (w.setTimerq i queue).timerq = Function.update w.timerq i queue := rfl

@[simp] theorem setTimerq_ticks (w : Wheel M α) (i : Fin M) (queue : List α) :
    (w.setTimerq i queue).ticks = w.ticks := rfl

@[simp] theorem setTimerq_timeout (w : Wheel M α) (i : Fin M) (queue : List α) :
    (w.setTimerq i queue).timeout = w.timeout := rfl

variable [DecidableEq α]

@[simp] theorem setTimeout_timerq (w : Wheel M α) (a : α) (v : UInt32) :
    (w.setTimeout a v).timerq = w.timerq := rfl

@[simp] theorem setTimeout_ticks (w : Wheel M α) (a : α) (v : UInt32) :
    (w.setTimeout a v).ticks = w.ticks := rfl

@[simp] theorem setTimeout_timeout (w : Wheel M α) (a : α) (v : UInt32) :
    (w.setTimeout a v).timeout = Function.update w.timeout a v := rfl

variable [NeZero M]

/-- The loop body on the entry `head` of queue `i`, ahead of `rest`: the entry is woken, or it
goes to the end of the queue `dest`. -/
inductive Visit (w : Wheel M α) (i : Fin M) (head : α) (rest : List α) :
    Wheel M α → Option α → Option (Fin M) → Prop
  | wake : w.timeout head = w.ticks →
      Visit w i head rest ((w.setTimerq i rest).setTimeout head 0) (some head) none
  | requeue {j : Fin M} : w.timeout head ≠ w.ticks →
      diffMsb M (w.timeout head) w.ticks = some j →
      Visit w i head rest
        ((w.setTimerq i rest).setTimerq j (Fifo.enqueue ((w.setTimerq i rest).timerq j) head))
        none (some j)

/-- A visit leaves the tick counter alone. -/
theorem Visit.ticks {w w' : Wheel M α} {i : Fin M} {head : α} {rest : List α} {wake : Option α}
    {dest : Option (Fin M)} (h : Visit w i head rest w' wake dest) : w'.ticks = w.ticks := by
  cases h <;> rfl

/-- The loop body takes the head off queue `i` and appends it to queue `dest` alone. -/
theorem Visit.timerq {w w' : Wheel M α} {i : Fin M} {head : α} {rest : List α}
    {wake : Option α} {dest : Option (Fin M)} (h : Visit w i head rest w' wake dest) (k : Fin M) :
    w'.timerq k = (if k = i then rest else w.timerq k) ++ if dest = some k then [head] else [] := by
  cases h with
  | wake _ => simp [Function.update_apply]
  | @requeue j _ _ =>
    by_cases hk : k = j
    · subst hk
      simp [Fifo.enqueue, Function.update_apply]
    · have hj : j ≠ k := Ne.symm hk
      simp [Function.update_apply, hk, hj]

/-- Only the field `timeout` of the visited entry changes, and only when it is woken. -/
theorem Visit.timeout {w w' : Wheel M α} {i : Fin M} {head : α} {rest : List α}
    {wake : Option α} {dest : Option (Fin M)} (h : Visit w i head rest w' wake dest) (a : α)
    (ha : dest ≠ none ∨ a ≠ head) : w'.timeout a = w.timeout a := by
  cases h with
  | wake _ => simpa [Function.update_apply] using fun he => (ha.resolve_left (by simp) he).elim
  | requeue _ _ => rfl

/-- The queue an entry goes to can be read off the window that follows its visit. -/
theorem Visit.destination {w w' : Wheel M α} {i : Fin M} {head : α} {rest : List α}
    {wake : Option α} {dest : Option (Fin M)} (h : Visit w i head rest w' wake dest) :
    dest = if wake.isSome then none else diffMsb M (w'.timeout head) w'.ticks := by
  cases h with
  | wake _ => rfl
  | requeue _ hj => simp [hj]

/-- The loop ends at an empty queue. -/
theorem tickLoop_nil {w : Wheel M α} {i : Fin M} (last : Option α) (h : w.timerq i = []) :
    w.tickLoop i last = some (w, .done) := by
  simp [tickLoop, h]

/-- The loop body never fails: an entry whose deadline is not the current tick differs from it. -/
theorem tickLoop_cons {w : Wheel M α} {i : Fin M} {head : α} {rest : List α} (last : Option α)
    (h : w.timerq i = head :: rest) :
    ∃ w' wake dest, Visit w i head rest w' wake dest ∧
      w.tickLoop i last = some (w', .window i last head wake) := by
  by_cases he : w.timeout head = w.ticks
  · refine ⟨_, _, _, Visit.wake he, ?_⟩
    simp [tickLoop, h, he]
  · obtain ⟨j, hj⟩ : ∃ j, diffMsb M (w.timeout head) w.ticks = some j := ⟨_, diffMsb_eq he⟩
    refine ⟨_, _, _, Visit.requeue he hj, ?_⟩
    simp [tickLoop, h, he, hj]

/-- No assertion fails where the loop takes the head of the queue. -/
theorem tickLoop_total (w : Wheel M α) (i : Fin M) (last : Option α) :
    ∃ w' pc, w.tickLoop i last = some (w', pc) := by
  cases h : w.timerq i with
  | nil => exact ⟨_, _, tickLoop_nil last h⟩
  | cons head rest =>
    obtain ⟨w', wake, dest, -, heq⟩ := tickLoop_cons last h
    exact ⟨_, _, heq⟩

/-- Entering the loop ends the tick, or visits the head of the queue. -/
theorem tickLoop_cases {w w' : Wheel M α} {i : Fin M} {last : Option α} {pc : TickPc M α}
    (h : w.tickLoop i last = some (w', pc)) : (w' = w ∧ pc = .done) ∨
      ∃ head rest wake dest, w.timerq i = head :: rest ∧ Visit w i head rest w' wake dest ∧
        pc = .window i last head wake := by
  cases hq : w.timerq i with
  | nil =>
    rw [tickLoop_nil last hq] at h
    cases h
    exact Or.inl ⟨rfl, rfl⟩
  | cons head rest =>
    obtain ⟨w'', wake, dest, hv, heq⟩ := tickLoop_cons last hq
    rw [heq] at h
    cases h
    exact Or.inr ⟨head, rest, wake, dest, rfl, hv, rfl⟩

/-- The first section selects one queue and enters the loop with the incremented counter. -/
theorem tickBegin_eq (w : Wheel M α) : ∃ i, diffMsb M w.ticks (w.ticks + 1) = some i ∧
    w.tickBegin =
      tickLoop { w with ticks := w.ticks + 1 } i (Fifo.last (w.timerq i)) := by
  refine ⟨_, diffMsb_eq (ticks_ne_succ w.ticks), ?_⟩
  simp [tickBegin, diffMsb_eq (ticks_ne_succ w.ticks)]

/-- The loop is entered again exactly if the last visited entry was not the remembered one. -/
theorem tickResume_eq (w : Wheel M α) (i : Fin M) (last : Option α) (head : α) :
    w.tickResume i last head =
      if some head = last then some (w, .done) else w.tickLoop i last := rfl

/-- No assertion fails where the loop goes on after its window. -/
theorem tickResume_total (w : Wheel M α) (i : Fin M) (last : Option α) (head : α) :
    ∃ w' pc, w.tickResume i last head = some (w', pc) := by
  rw [tickResume_eq]
  split
  · exact ⟨_, _, rfl⟩
  · exact w.tickLoop_total i last

/-- A sleep with an admitted delay appends the actor to the queue of its deadline; the sum of the
two never equals the counter. -/
theorem sleep_eq (w : Wheel M α) {a : α} {delay : UInt32} (hpos : 0 < delay)
    (hmax : delay < int32Max) :
    ∃ w' j, w.sleep a delay = some w' ∧ Due M w.ticks (w.ticks + delay) j ∧
      w'.ticks = w.ticks ∧ (∀ k, w'.timerq k = w.timerq k ++ if k = j then [a] else []) ∧
      w'.timeout a = w.ticks + delay ∧ ∀ b, b ≠ a → w'.timeout b = w.timeout b := by
  have hrange : InRange w.ticks (w.ticks + delay) := by
    have hlt : delay.toNat < int32Max.toNat := hmax
    have hm : int32Max.toNat = 2147483647 := rfl
    rw [InRange, UInt32.add_comm, UInt32.add_sub_cancel]
    exact ⟨hpos, by omega⟩
  have hne : delay ≠ 0 := by
    rintro rfl
    simp at hpos
  obtain ⟨j, hj, hdue⟩ := hrange.due (M := M)
  refine ⟨(w.setTimeout a (w.ticks + delay)).setTimerq j (w.timerq j ++ [a]), j, ?_, hdue, rfl,
    fun k => ?_, by simp, fun b hb => by simp [hb]⟩
  · have hcomm : delay + w.ticks = w.ticks + delay := UInt32.add_comm _ _
    simp [sleep, actorTimeout, hne, hmax, hcomm, hj, setTimeout, setTimerq, Fifo.enqueue]
  · by_cases hk : k = j
    · subst hk
      simp
    · simp [hk]

/-- Whatever the delay, `_mg_actor_timeout` appends the actor to one queue. -/
theorem actorTimeout_timerq {w w' : Wheel M α} {a : α} (h : w.actorTimeout a = some w') :
    ∃ j, ∀ k, w'.timerq k = w.timerq k ++ if k = j then [a] else [] := by
  unfold actorTimeout at h
  split at h
  · simp only [Option.bind_eq_bind, Option.pure_def, Option.bind_eq_some_iff,
      Option.some.injEq] at h
    obtain ⟨j, -, rfl⟩ := h
    refine ⟨j, fun k => ?_⟩
    by_cases hk : k = j
    · subst hk
      simp [Fifo.enqueue]
    · simp [hk]
  · simp at h

end Magnesium.Wheel
