import Magnesium.Timer.Reference
import Mathlib.Data.List.Nodup

/-!
# Runs of the wheel and runs of the reference

Every run of sleeps and ticks activates the same actors, in the same order, on the wheel and on
the reference. What the reference promises is then read off it: an actor wakes at the tick of
its delay and at no other, and equal deadlines wake in the order of the sleeps.
-/

namespace Magnesium

variable {α : Type}

/-- The ticks of a run. -/
def ticksIn (ops : List (TimerOp α)) : Nat :=
  ops.countP fun
    | .tick => true
    | .sleep .. => false

@[simp] theorem ticksIn_nil : ticksIn ([] : List (TimerOp α)) = 0 := rfl

@[simp] theorem ticksIn_sleep (a : α) (delay : UInt32) (ops : List (TimerOp α)) :
    ticksIn (.sleep a delay :: ops) = ticksIn ops := by simp [ticksIn]

@[simp] theorem ticksIn_tick (ops : List (TimerOp α)) :
    ticksIn (.tick :: ops) = ticksIn ops + 1 := by simp [ticksIn]

namespace Timers

/-- The reference after a run. -/
def after : Timers α → List (TimerOp α) → Timers α
  | ts, [] => ts
  | ts, .sleep a delay :: ops => after (ts ++ [(a, delay.toNat)]) ops
  | ts, .tick :: ops => after (tick ts).1 ops

/-- Nobody sleeps twice at once, and every entry is in range. -/
structure Ok (ts : Timers α) : Prop where
  nodup : (ts.map Prod.fst).Nodup
  range : ts.InRange

/-- Nobody sleeps before the first operation. -/
theorem Ok.nil : Ok ([] : Timers α) := ⟨List.nodup_nil, fun _ h => by simp at h⟩

/-- An actor that does not sleep yet goes to sleep with a delay in range. -/
theorem Ok.sleep {ts : Timers α} (h : ts.Ok) {a : α} {delay : UInt32}
    (ha : a ∉ ts.map Prod.fst) (hpos : 0 < delay) (hmax : delay < int32Max) :
    Ok (ts ++ [(a, delay.toNat)]) := by
  have hlt : delay.toNat < int32Max.toNat := hmax
  have hm : int32Max.toNat = 2147483647 := rfl
  refine ⟨?_, fun p hp => ?_⟩
  · rw [List.map_append, List.nodup_append]
    refine ⟨h.nodup, by simp, fun b hb c hc => ?_⟩
    obtain rfl : c = a := by simpa using hc
    rintro rfl
    exact ha hb
  · rcases List.mem_append.mp hp with hp | hp
    · exact h.range p hp
    · obtain rfl : p = (a, delay.toNat) := by simpa using hp
      exact ⟨hpos, by omega⟩

/-- A tick keeps one entry for each actor that sleeps on. -/
theorem Ok.tick {ts : Timers α} (h : ts.Ok) : Ok ts.tick.1 :=
  ⟨(keys_tick ts).nodup h.nodup, h.range.tick⟩

/-- An actor has one entry. -/
theorem Ok.entry_unique {ts : Timers α} (h : ts.Ok) {a : α} {r r' : Nat} (hr : (a, r) ∈ ts)
    (hr' : (a, r') ∈ ts) : r = r' :=
  congrArg Prod.snd (List.inj_on_of_nodup_map h.nodup hr hr' rfl)

/-- A run in two parts. -/
theorem exec_append (ts : Timers α) (pre post : List (TimerOp α)) :
    exec ts (pre ++ post) = exec ts pre ++ exec (after ts pre) post := by
  induction pre generalizing ts with
  | nil => rfl
  | cons op pre ih =>
    cases op with
    | sleep a delay => exact ih _
    | tick => simp only [List.cons_append, exec, after, ih]

/-- One list of activations for each tick. -/
theorem exec_length (ts : Timers α) (ops : List (TimerOp α)) :
    (exec ts ops).length = ticksIn ops := by
  induction ops generalizing ts with
  | nil => rfl
  | cons op ops ih => cases op <;> simp [exec, ih]

/-- Both parts of an admitted run are admitted where they start. -/
theorem Admits.append {ts : Timers α} {pre post : List (TimerOp α)}
    (h : ts.Admits (pre ++ post)) : ts.Admits pre ∧ (ts.after pre).Admits post := by
  induction pre generalizing ts with
  | nil => exact ⟨trivial, h⟩
  | cons op pre ih =>
    cases op with
    | sleep a delay =>
      obtain ⟨ha, hpos, hmax, hrest⟩ := h
      exact ⟨⟨ha, hpos, hmax, (ih hrest).1⟩, (ih hrest).2⟩
    | tick => exact ih h

theorem Ok.after {ts : Timers α} (h : ts.Ok) {ops : List (TimerOp α)} (hops : ts.Admits ops) :
    (ts.after ops).Ok := by
  induction ops generalizing ts with
  | nil => exact h
  | cons op ops ih =>
    cases op with
    | sleep a delay => exact ih (h.sleep hops.1 hops.2.1 hops.2.2.1) hops.2.2.2
    | tick => exact ih h.tick hops

/-- A tick activates the actors with one tick left. -/
theorem mem_activated {ts : Timers α} (h : ts.Ok) {a : α} : a ∈ ts.tick.2 ↔ (a, 1) ∈ ts := by
  simp only [tick, remaining, age, List.mem_map, List.mem_filter]
  constructor
  · rintro ⟨p, ⟨⟨q, hq, rfl⟩, hz⟩, rfl⟩
    have hq0 := (h.range q hq).1
    have hz := of_decide_eq_true hz
    have hone : q.2 = 1 := by
      simp only at hz
      omega
    exact hone ▸ hq
  · intro ha
    exact ⟨(a, 0), ⟨⟨_, ha, rfl⟩, rfl⟩, rfl⟩

/-- Actors that wake together wake in the order in which they went to sleep. -/
theorem activated_sublist (ts : Timers α) : ts.tick.2.Sublist (ts.map Prod.fst) := by
  have hage : ts.age.map Prod.fst = ts.map Prod.fst := by simp [age]
  rw [← hage]
  exact List.filter_sublist.map _

/-- An actor that is not asleep and does not go to sleep is never activated. -/
theorem absent {ts : Timers α} {ops : List (TimerOp α)} {a : α} (ha : a ∉ ts.map Prod.fst)
    (hnone : ∀ delay, .sleep a delay ∉ ops) {woken : List α} (hw : woken ∈ exec ts ops) :
    a ∉ woken := by
  induction ops generalizing ts with
  | nil => simp [exec] at hw
  | cons op ops ih =>
    have hnone' : ∀ delay, .sleep a delay ∉ ops := fun delay hm =>
      hnone delay (List.mem_cons_of_mem _ hm)
    cases op with
    | sleep b delay =>
      have hab : a ≠ b := by
        rintro rfl
        exact hnone delay List.mem_cons_self
      have hnot : a ∉ (ts ++ [(b, delay.toNat)]).map Prod.fst := by simpa [hab] using ha
      exact ih hnot hnone' hw
    | tick =>
      rcases List.mem_cons.mp hw with rfl | hw
      · exact fun hm => ha ((activated_sublist ts).subset hm)
      · exact ih (fun hm => ha ((keys_tick ts).subset hm)) hnone' hw

/-- A sleeping actor with `r` ticks to go is activated by the `r`-th tick, once, and by no other
unless it goes to sleep again. -/
theorem activated_exactly [DecidableEq α] {ts : Timers α} (h : ts.Ok) {ops : List (TimerOp α)}
    (hops : ts.Admits ops) {a : α} {r : Nat} (hr : (a, r) ∈ ts) {j : Nat} {woken : List α}
    (hw : (exec ts ops)[j]? = some woken) :
    (j + 1 < r → a ∉ woken) ∧ (j + 1 = r → woken.count a = 1) ∧
      (r < j + 1 → (∀ delay, .sleep a delay ∉ ops) → a ∉ woken) := by
  induction ops generalizing ts r j with
  | nil => simp [exec] at hw
  | cons op ops ih =>
    have hlater : (∀ delay, .sleep a delay ∉ op :: ops) → ∀ delay, .sleep a delay ∉ ops :=
      fun hnone delay hm => hnone delay (List.mem_cons_of_mem _ hm)
    cases op with
    | sleep b delay =>
      obtain ⟨hb, hpos, hmax, hrest⟩ := hops
      obtain ⟨h1, h2, h3⟩ :=
        ih (h.sleep hb hpos hmax) hrest (List.mem_append_left _ hr) hw
      exact ⟨h1, h2, fun hj hnone => h3 hj (hlater hnone)⟩
    | tick =>
      cases j with
      | zero =>
        obtain rfl : ts.tick.2 = woken := by simpa [exec] using hw
        refine ⟨fun hj hm => ?_, fun hj => ?_, fun hj => ?_⟩
        · have := h.entry_unique hr ((mem_activated h).mp hm)
          omega
        · obtain rfl : r = 1 := by omega
          have hm : a ∈ ts.tick.2 := (mem_activated h).mpr hr
          exact List.count_eq_one_of_mem ((activated_sublist ts).nodup h.nodup) hm
        · have := (h.range _ hr).1
          omega
      | succ j =>
        replace hw : (exec ts.tick.1 ops)[j]? = some woken := hw
        by_cases hone : r = 1
        · subst hone
          refine ⟨by omega, by omega, fun _ hnone => ?_⟩
          have hnot : a ∉ ts.tick.1.map Prod.fst := by
            intro hm
            obtain ⟨p, hp, rfl⟩ := List.mem_map.mp hm
            obtain ⟨hpos, hp'⟩ := (mem_tick (a := p.1) (r := p.2)).mp hp
            have := h.entry_unique hr hp'
            omega
          exact absent hnot (hlater hnone) (List.mem_of_getElem? hw)
        · have hpos := (h.range _ hr).1
          have hr' : (a, r - 1) ∈ ts.tick.1 := by
            rw [mem_tick, Nat.sub_add_cancel hpos]
            exact ⟨by omega, hr⟩
          obtain ⟨h1, h2, h3⟩ := ih h.tick hops hr' hw
          exact ⟨fun hj => h1 (by omega), fun hj => h2 (by omega),
            fun hj hnone => h3 (by omega) (hlater hnone)⟩

/-- Of two entries with equal deadlines the earlier one is activated first. -/
theorem activated_in_order {ts : Timers α} {ops : List (TimerOp α)} {a b : α} {r : Nat}
    (hr : [(a, r), (b, r)].Sublist ts) {j : Nat} (hj : j + 1 = r) {woken : List α}
    (hw : (exec ts ops)[j]? = some woken) : [a, b].Sublist woken := by
  induction ops generalizing ts r j with
  | nil => simp [exec] at hw
  | cons op ops ih =>
    cases op with
    | sleep c delay => exact ih (hr.trans (List.sublist_append_left _ _)) hj hw
    | tick =>
      have hage := hr.map fun p : α × Nat => (p.1, p.2 - 1)
      cases j with
      | zero =>
        obtain rfl : (tick ts).2 = woken := by simpa [exec] using hw
        subst hj
        exact (hage.filter fun p => p.2 = 0).map Prod.fst
      | succ j =>
        have hlater : [(a, j + 1), (b, j + 1)].Sublist (tick ts).1 := by
          have := hage.filter fun p => p.2 ≠ 0
          subst hj
          simpa [tick, age] using this
        exact ih hlater rfl hw

/-- An entry counts down with the ticks of a run that does not reach its deadline. -/
theorem mem_after {ts : Timers α} {ops : List (TimerOp α)} {a : α} {r : Nat}
    (hr : (a, r) ∈ ts) (hlt : ticksIn ops < r) : (a, r - ticksIn ops) ∈ ts.after ops := by
  induction ops generalizing ts r with
  | nil => exact hr
  | cons op ops ih =>
    cases op with
    | sleep b delay =>
      rw [ticksIn_sleep] at hlt ⊢
      have hr' : (a, r) ∈ ts ++ [(b, delay.toNat)] := List.mem_append_left _ hr
      exact ih hr' hlt
    | tick =>
      rw [ticksIn_tick] at hlt ⊢
      have hr' : (a, r - 1) ∈ (tick ts).1 := by
        rw [mem_tick, Nat.sub_add_cancel (by omega)]
        exact ⟨by omega, hr⟩
      have := ih hr' (by omega)
      rwa [show r - (ticksIn ops + 1) = r - 1 - ticksIn ops by omega]

end Timers

variable {M : Nat} [NeZero M] [DecidableEq α]

/-- A run of sleeps and uninterrupted ticks, with the actors each tick activates. -/
def Wheel.exec : Wheel M α → List (TimerOp α) → Option (Wheel M α × List (List α))
  | w, [] => some (w, [])
  | w, .sleep a delay :: ops => do
    let w ← w.sleep a delay
    w.exec ops
  | w, .tick :: ops => do
    let (w, woken) ← w.tick
    let (w, out) ← w.exec ops
    return (w, woken :: out)

/-- The simulation of a whole run. -/
theorem Represents.exec {w : Wheel M α} {ts : Timers α} (h : Represents w ts)
    {ops : List (TimerOp α)} (hops : ts.Admits ops) :
    ∃ w', w.exec ops = some (w', ts.exec ops) := by
  induction ops generalizing w ts with
  | nil => exact ⟨w, rfl⟩
  | cons op ops ih =>
    cases op with
    | sleep a delay =>
      obtain ⟨ha, hpos, hmax, hrest⟩ := hops
      obtain ⟨w', hw', h'⟩ := h.sleep ha hpos hmax
      obtain ⟨w'', hw''⟩ := ih h' hrest
      exact ⟨w'', by simp [Wheel.exec, hw', hw'', Timers.exec]⟩
    | tick =>
      obtain ⟨w', hw', h'⟩ := h.tick
      obtain ⟨w'', hw''⟩ := ih h' hops
      exact ⟨w'', by simp [Wheel.exec, hw', hw'', Timers.exec]⟩

/-- The timer wheel refines the plain timer list, for every initial tick value and every number
of timer queues: no assertion of a run fails and its ticks activate the actors the reference
activates, in the same order. So an actor that sleeps for `delay` ticks is activated once by
the `delay`-th following tick, by none before, and by none after unless it sleeps again; and
actors with the same deadline wake in the order they went to sleep. -/
theorem wheel_refines_timers (t₀ : UInt32) (timeout : α → UInt32) {ops : List (TimerOp α)}
    (hops : Timers.Admits [] ops) :
    ∃ (w : Wheel M α) (out : List (List α)),
      (Wheel.fresh t₀ timeout).exec ops = some (w, out) ∧ out = Timers.exec [] ops ∧
      (∀ pre a delay post, ops = pre ++ .sleep a delay :: post →
        ∀ j woken, out[ticksIn pre + j]? = some woken →
          (j + 1 < delay.toNat → a ∉ woken) ∧ (j + 1 = delay.toNat → woken.count a = 1) ∧
            (delay.toNat < j + 1 → (∀ delay', .sleep a delay' ∉ post) → a ∉ woken)) ∧
      (∀ pre a delay mid b delay' post,
        ops = pre ++ .sleep a delay :: (mid ++ .sleep b delay' :: post) →
        delay.toNat = ticksIn mid + delay'.toNat →
        ∀ woken, out[ticksIn pre + (delay.toNat - 1)]? = some woken → [a, b].Sublist woken) := by
  obtain ⟨w, hw⟩ := (represents_fresh (M := M) t₀ timeout).exec hops
  refine ⟨w, _, hw, rfl, ?_, ?_⟩
  · rintro pre a delay post rfl j woken hget
    obtain ⟨hpre, ha, hpos, hmax, hpost⟩ := hops.append
    have hok := Timers.Ok.nil.after hpre
    rw [Timers.exec_append, List.getElem?_append_right (by rw [Timers.exec_length]; omega),
      Timers.exec_length, Nat.add_sub_cancel_left] at hget
    exact Timers.activated_exactly (hok.sleep ha hpos hmax) hpost (by simp) hget
  · rintro pre a delay mid b delay' post rfl hsum woken hget
    obtain ⟨hpre, ha, hpos, hmax, hrest⟩ := hops.append
    obtain ⟨hmid, hb, hpos', -, -⟩ := hrest.append
    have hd : 0 < delay'.toNat := hpos'
    rw [Timers.exec_append, List.getElem?_append_right (by rw [Timers.exec_length]; omega),
      Timers.exec_length, Nat.add_sub_cancel_left] at hget
    change (Timers.exec (_ ++ [(a, delay.toNat)]) (mid ++ _))[_]? = _ at hget
    rw [Timers.exec_append, List.getElem?_append_right (by rw [Timers.exec_length]; omega),
      Timers.exec_length] at hget
    have hself : (a, delay.toNat) ∈ Timers.after [] pre ++ [(a, delay.toNat)] := by simp
    have hmem := Timers.mem_after hself (by omega : ticksIn mid < delay.toNat)
    rw [hsum, Nat.add_sub_cancel_left] at hmem
    have hpair := (List.singleton_sublist.mpr hmem).append_right [(b, delay'.toNat)]
    rw [hsum] at hget
    exact Timers.activated_in_order hpair (by omega) hget

/-- A delay of two ticks across the wrap of the counter. -/
theorem wheel_refines_timers_overflow : ∃ w : Wheel 10 Nat,
    (Wheel.fresh 0xffffffff fun _ => 0).exec [.sleep 7 2, .tick, .tick] = some (w, [[], [7]]) := by
  obtain ⟨w, out, hw, hout, -⟩ := wheel_refines_timers (M := 10) 0xffffffff (fun _ : Nat => 0)
    (show Timers.Admits [] [.sleep 7 2, .tick, .tick] from
      ⟨by simp, by decide, by decide, trivial⟩)
  have hvalue : Timers.exec [] [.sleep 7 2, .tick, .tick] = [[], [7]] := by decide
  exact ⟨w, by rw [hw, hout, hvalue]⟩

end Magnesium
