import Magnesium.Timer.Visit

/-!
# An uninterrupted tick in closed form

A tick that nobody preempts wakes the entries of the selected queue whose deadline is the new
tick, in queue order, and distributes the others, in queue order, behind what the timer queues
already hold.
-/

namespace Magnesium.Wheel

variable {M : Nat} {α : Type} [DecidableEq α] [NeZero M]

/-- Where the tick loop sends an entry; nowhere if it wakes it. -/
def destination (w : Wheel M α) (a : α) : Option (Fin M) :=
  if w.timeout a = w.ticks then none else diffMsb M (w.timeout a) w.ticks

theorem Visit.wake_eq {w w' : Wheel M α} {i : Fin M} {head : α} {rest : List α}
    {wake : Option α} {dest : Option (Fin M)} (h : Visit w i head rest w' wake dest) :
    wake = (if w.timeout head = w.ticks then some head else none) ∧
      dest = w.destination head ∧
      w'.timeout = if w.timeout head = w.ticks then Function.update w.timeout head 0
        else w.timeout := by
  cases h with
  | wake he => simp [Wheel.destination, he]
  | requeue he hj => simp [Wheel.destination, he, hj]

/-- What is left of the selected queue after the loop, started on the entries `rest`. -/
structure Resorted (w : Wheel M α) (i : Fin M) (rest tail : List α) (w' : Wheel M α)
    (woken : List α) : Prop where
  awake : woken = rest.filter fun a => w.timeout a = w.ticks
  ticks : w'.ticks = w.ticks
  timerq : ∀ k, w'.timerq k = (if k = i then tail else w.timerq k) ++
    rest.filter fun a => w.destination a = some k
  timeout : ∀ a, w'.timeout a = if a ∈ woken then 0 else w.timeout a

/-- The whole loop by induction on the entries it still has to visit. -/
theorem tickLoop_run {i : Fin M} {rest : List α} (hne : rest ≠ []) (hnodup : rest.Nodup)
    {w : Wheel M α} {tail : List α} (hq : w.timerq i = rest ++ tail) {fuel : Nat}
    (hfuel : rest.length ≤ fuel) :
    ∃ w₁ pc, w.tickLoop i (Fifo.last rest) = some (w₁, pc) ∧
      ∃ w' woken, w₁.tickRun fuel pc = some (w', woken) ∧ Resorted w i rest tail w' woken := by
  induction rest generalizing w tail fuel with
  | nil => exact absurd rfl hne
  | cons head rest ih =>
    have hq' : w.timerq i = head :: (rest ++ tail) := hq
    obtain ⟨w₁, wake, dest, hv, hloop⟩ := tickLoop_cons (Fifo.last (head :: rest)) hq'
    refine ⟨w₁, _, hloop, ?_⟩
    obtain ⟨fuel, rfl⟩ : ∃ n, fuel = n + 1 := Nat.exists_eq_succ_of_ne_zero (by
      rw [List.length_cons] at hfuel
      omega)
    obtain ⟨hhead, hrest⟩ := List.nodup_cons.mp hnodup
    obtain ⟨hwake, hdest, htimeout⟩ := hv.wake_eq
    cases rest with
    | nil =>
      refine ⟨w₁, wake.toList, ?_, ?_, hv.ticks, ?_, ?_⟩
      · simp [tickRun, tickResume, Fifo.last]
      · by_cases he : w.timeout head = w.ticks <;> simp [hwake, he]
      · intro k
        rw [hv.timerq, hdest]
        by_cases hk : w.destination head = some k <;> simp [hk]
      · intro a
        by_cases he : w.timeout head = w.ticks <;>
          simp [htimeout, hwake, he, Function.update_apply]
    | cons next rest =>
      have hqtail : w₁.timerq i =
          (next :: rest) ++ (tail ++ if dest = some i then [head] else []) := by
        rw [hv.timerq, if_pos rfl, List.append_assoc]
      obtain ⟨w₂, pc, hloop₂, w', woken, hrun, hres⟩ := ih (by simp) hrest hqtail
        (by simpa using hfuel)
      have hlast : Fifo.last (head :: next :: rest) = Fifo.last (next :: rest) := by
        simp [Fifo.last]
      have hstay : some head ≠ Fifo.last (next :: rest) := by
        intro he
        exact hhead (List.mem_of_getLast? he.symm)
      -- the entries still to visit keep their deadline, so the two runs sort them alike
      have hkeep : ∀ a ∈ next :: rest, w₁.timeout a = w.timeout a := by
        intro a ha
        have hah : a ≠ head := fun he => hhead (he ▸ ha)
        rw [htimeout]
        split
        · exact Function.update_of_ne hah _ _
        · rfl
      have hgoes : ∀ a ∈ next :: rest, w₁.destination a = w.destination a := by
        intro a ha
        rw [destination, destination, hkeep a ha, hv.ticks]
      have hwoken : woken = (next :: rest).filter fun a => w.timeout a = w.ticks := by
        rw [hres.awake, hv.ticks]
        exact List.filter_congr fun a ha => by rw [hkeep a ha]
      have hnot : head ∉ woken := by
        rw [hwoken]
        exact fun h => hhead (List.mem_of_mem_filter h)
      refine ⟨w', wake.toList ++ woken, ?_, ?_, ?_, ?_, ?_⟩
      · rw [tickRun, hlast, tickResume_eq, if_neg hstay, hloop₂]
        simp [hrun]
      · rw [hwoken]
        by_cases he : w.timeout head = w.ticks <;>
          simp only [hwake, he, ite_true, ite_false, List.filter_cons, decide_true, decide_false,
            Option.toList_some, Option.toList_none, List.cons_append, List.nil_append,
            Bool.false_eq_true]
      · rw [hres.ticks, hv.ticks]
      · intro k
        rw [hres.timerq, hv.timerq, hdest, List.filter_congr (fun a ha => by rw [hgoes a ha]),
          List.filter_cons (x := head)]
        by_cases hk : w.destination head = some k
        · by_cases hki : k = i
          · subst hki
            simp [hk]
          · simp [hk, hki]
        · by_cases hki : k = i
          · subst hki
            simp [hk]
          · simp [hk, hki]
      · intro a
        rw [hres.timeout, htimeout]
        by_cases he : w.timeout head = w.ticks
        · by_cases ha : a = head
          · subst ha
            simp [hwake, he, hnot]
          · simp [hwake, he, ha]
        · simp [hwake, he]

/-- An uninterrupted tick never fails and runs to its end. -/
theorem tick_resorted (w : Wheel M α) {i : Fin M} (hi : diffMsb M w.ticks (w.ticks + 1) = some i)
    (hnodup : (w.timerq i).Nodup) :
    ∃ w' woken, w.tick = some (w', woken) ∧
      Resorted { w with ticks := w.ticks + 1 } i (w.timerq i) [] w' woken := by
  obtain ⟨i', hi', hbegin⟩ := w.tickBegin_eq
  obtain rfl : i' = i := Option.some.inj (hi'.symm.trans hi)
  cases hq : w.timerq i' with
  | nil =>
    rw [hq] at hbegin
    rw [tickLoop_nil (w := { w with ticks := w.ticks + 1 }) _ hq] at hbegin
    refine ⟨{ w with ticks := w.ticks + 1 }, [], by simp [tick, hbegin, tickRun], rfl, rfl,
      fun k => ?_, fun a => by simp⟩
    by_cases hk : k = i'
    · simp [hk, hq]
    · simp [hk]
  | cons head rest =>
    rw [hq] at hbegin
    have hq₁ : Wheel.timerq { w with ticks := w.ticks + 1 } i' = head :: (rest ++ []) := by
      rw [List.append_nil]
      exact hq
    obtain ⟨w₁, wake, dest, hv, hloop⟩ := tickLoop_cons (Fifo.last (head :: rest)) hq₁
    have hlen : (head :: rest).length ≤ (w₁.timerq i').length + 1 := by
      simp [hv.timerq]
    obtain ⟨w₂, pc, hloop', w', woken, hrun, hres⟩ :=
      tickLoop_run (by simp) (hq ▸ hnodup) hq₁ hlen
    rw [hloop] at hloop'
    cases hloop'
    exact ⟨w', woken, by simp [tick, hbegin, hloop, hrun], hres⟩

end Magnesium.Wheel
