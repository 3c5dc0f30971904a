import Magnesium.Timer.Atomic

/-!
# The timer wheel refines a plain timer list

The reference keeps pairs of an actor and its remaining ticks in the order of the sleeps. The
wheel represents it when every queue holds only deadlines that belong there and, for each
deadline, the actors waiting for it are in the queue of that deadline in reference order. The
order across different deadlines is lost by the cascades and is never observed.
-/

namespace Magnesium

variable {α : Type}

/-- The reference: sleeping actors with their remaining ticks, in the order of the sleeps. -/
abbrev Timers (α : Type) := List (α × Nat)

/-- A sleep or a tick. -/
inductive TimerOp (α : Type) where
  | sleep (a : α) (delay : UInt32)
  | tick

namespace Timers

/-- The actors with `r` ticks to go, in the order of the sleeps. -/
def remaining (ts : Timers α) (r : Nat) : List α := (ts.filter fun p => p.2 = r).map Prod.fst

/-- Decrement every entry. -/
def age (ts : Timers α) : Timers α := ts.map fun p => (p.1, p.2 - 1)

/-- A reference tick: the entries that reach zero leave and are the ones activated. -/
def tick (ts : Timers α) : Timers α × List α :=
  (ts.age.filter fun p => p.2 ≠ 0, ts.age.remaining 0)

/-- The actors each tick of a run activates. -/
def exec : Timers α → List (TimerOp α) → List (List α)
  | _, [] => []
  | ts, .sleep a delay :: ops => exec (ts ++ [(a, delay.toNat)]) ops
  | ts, .tick :: ops => ts.tick.2 :: exec ts.tick.1 ops

/-- Every sleep of the run is one the caller may make: the actor is not asleep and the delay is
one that `_mg_actor_timeout` asserts. -/
def Admits : Timers α → List (TimerOp α) → Prop
  | _, [] => True
  | ts, .sleep a delay :: ops =>
    a ∉ ts.map Prod.fst ∧ 0 < delay ∧ delay < int32Max ∧ Admits (ts ++ [(a, delay.toNat)]) ops
  | ts, .tick :: ops => Admits ts.tick.1 ops

/-- Every sleeping actor has a tick to go, and no more than the code admits. -/
def InRange (ts : Timers α) : Prop := ∀ p ∈ ts, 0 < p.2 ∧ p.2 < 2 ^ 31

/-- The actors whose deadline is `T`, if `t` is the current tick. -/
def deadline (ts : Timers α) (t T : UInt32) : List α :=
  (ts.filter fun p => t + UInt32.ofNat p.2 = T).map Prod.fst

@[simp] theorem deadline_nil (t T : UInt32) : deadline ([] : Timers α) t T = [] := rfl

theorem deadline_cons (p : α × Nat) (ts : Timers α) (t T : UInt32) :
    deadline (p :: ts) t T =
      if t + UInt32.ofNat p.2 = T then p.1 :: deadline ts t T else deadline ts t T := by
  by_cases h : t + UInt32.ofNat p.2 = T <;> simp [deadline, h]

theorem deadline_append (ts us : Timers α) (t T : UInt32) :
    deadline (ts ++ us) t T = deadline ts t T ++ deadline us t T := by
  simp [deadline]

theorem mem_deadline {ts : Timers α} {t T : UInt32} {a : α} :
    a ∈ ts.deadline t T ↔ ∃ r, (a, r) ∈ ts ∧ t + UInt32.ofNat r = T := by
  simp [deadline]

theorem deadline_sublist (ts : Timers α) (t T : UInt32) :
    (ts.deadline t T).Sublist (ts.map Prod.fst) := List.filter_sublist.map _

theorem mem_tick {ts : Timers α} {a : α} {r : Nat} :
    (a, r) ∈ ts.tick.1 ↔ 0 < r ∧ (a, r + 1) ∈ ts := by
  simp only [tick, age, List.mem_filter, List.mem_map, Prod.mk.injEq, ne_eq, decide_not,
    Bool.not_eq_eq_eq_not, Bool.not_true, decide_eq_false_iff_not]
  constructor
  · rintro ⟨⟨p, hp, rfl, rfl⟩, hr⟩
    have hp2 : p.2 = p.2 - 1 + 1 := by omega
    exact ⟨by omega, hp2 ▸ hp⟩
  · rintro ⟨hr, ha⟩
    exact ⟨⟨_, ha, rfl, rfl⟩, by omega⟩

theorem InRange.tick {ts : Timers α} (h : ts.InRange) : ts.tick.1.InRange := by
  intro p hp
  obtain ⟨hpos, hold⟩ := (mem_tick (a := p.1) (r := p.2)).mp hp
  have := (h _ hold).2
  exact ⟨hpos, by omega⟩

theorem keys_tick (ts : Timers α) : (ts.tick.1.map Prod.fst).Sublist (ts.map Prod.fst) := by
  have hage : ts.age.map Prod.fst = ts.map Prod.fst := by simp [age]
  rw [← hage]
  exact List.filter_sublist.map _

end Timers

/-- Counting down does not move a deadline; the deadline reached leaves. -/
theorem Timers.deadline_tick {ts : Timers α} (h : ts.InRange) (t T : UInt32) :
    ts.tick.1.deadline (t + 1) T = if T = t + 1 then [] else ts.deadline t T := by
  induction ts with
  | nil => simp [tick, age]
  | cons p ts ih =>
    obtain ⟨hpos, hlt⟩ := h p List.mem_cons_self
    have hcons : (tick (p :: ts)).1 =
        if p.2 - 1 = 0 then (tick ts).1 else (p.1, p.2 - 1) :: (tick ts).1 := by
      by_cases hp : p.2 - 1 = 0 <;> simp [tick, age, hp]
    have hone : t + UInt32.ofNat p.2 = t + 1 ↔ p.2 = 1 :=
      add_ofNat_inj (k := 1) hlt (by omega)
    rw [hcons, deadline_cons]
    have ih := ih fun q hq => h q (List.mem_cons_of_mem _ hq)
    by_cases hp : p.2 = 1
    · rw [if_pos (by omega), ih, hone.mpr hp]
      by_cases hT : T = t + 1
      · simp [hT]
      · simp [hT, Ne.symm hT]
    · have hstep : t + 1 + UInt32.ofNat (p.2 - 1) = t + UInt32.ofNat p.2 := by
        rw [succ_add_ofNat, Nat.sub_add_cancel hpos]
      rw [if_neg (by omega), deadline_cons, hstep, ih]
      by_cases hT : T = t + 1
      · subst hT
        simp [hone, hp]
      · simp [hT]

/-- A reference tick activates the actors whose deadline is the new tick. -/
theorem Timers.tick_activates {ts : Timers α} (h : ts.InRange) (t : UInt32) :
    ts.tick.2 = ts.deadline t (t + 1) := by
  simp only [tick, remaining, age, deadline, List.filter_map, List.map_map]
  change List.map Prod.fst _ = List.map Prod.fst _
  congr 1
  refine List.filter_congr fun p hp => ?_
  obtain ⟨hpos, hlt⟩ := h p hp
  have hone : t + UInt32.ofNat p.2 = t + 1 ↔ p.2 = 1 := add_ofNat_inj (k := 1) hlt (by omega)
  simp only [Function.comp_apply, hone]
  exact decide_eq_decide.mpr (by omega)

variable {M : Nat} [NeZero M]

/-- The wheel represents the reference: queue by queue and deadline by deadline it holds the
actors of the reference, in the order of the reference. -/
structure Represents (w : Wheel M α) (ts : Timers α) : Prop where
  nodup : (ts.map Prod.fst).Nodup
  range : ts.InRange
  timerq : ∀ j T, (w.timerq j).filter (fun a => w.timeout a = T) =
    if diffMsb M w.ticks T = some j then ts.deadline w.ticks T else []

/-- After `mg_context_init`, with an arbitrary tick value. -/
def Wheel.fresh (t₀ : UInt32) (timeout : α → UInt32) : Wheel M α := ⟨fun _ => [], t₀, timeout⟩

theorem represents_fresh (t₀ : UInt32) (timeout : α → UInt32) :
    Represents (Wheel.fresh (M := M) t₀ timeout) [] where
  nodup := List.nodup_nil
  range _ h := by simp at h
  timerq _ _ := by
    rw [Timers.deadline_nil]
    split <;> rfl

namespace Represents

variable {w : Wheel M α} {ts : Timers α}

/-- An entry of a queue is asleep for the reference, with the deadline that places it. -/
theorem due (h : Represents w ts) {j : Fin M} {a : α} (ha : a ∈ w.timerq j) :
    a ∈ ts.deadline w.ticks (w.timeout a) ∧ Due M w.ticks (w.timeout a) j := by
  have hmem : a ∈ (w.timerq j).filter fun b => w.timeout b = w.timeout a := by
    simpa using ha
  rw [h.timerq] at hmem
  split at hmem
  · rename_i hj
    obtain ⟨r, hr, hT⟩ := Timers.mem_deadline.mp hmem
    obtain ⟨hpos, hlt⟩ := h.range _ hr
    refine ⟨hmem, ?_, hj⟩
    rw [← hT]
    exact inRange_add hpos hlt
  · simp at hmem

theorem asleep (h : Represents w ts) {j : Fin M} {a : α} (ha : a ∈ w.timerq j) :
    a ∈ ts.map Prod.fst := (ts.deadline_sublist _ _).subset (h.due ha).1

variable [DecidableEq α]

/-- No queue holds an actor twice. -/
theorem timerq_nodup (h : Represents w ts) (j : Fin M) : (w.timerq j).Nodup := by
  rw [List.nodup_iff_count]
  intro a
  have hcount := List.count_filter (l := w.timerq j)
    (p := fun b => decide (w.timeout b = w.timeout a)) (a := a) (by simp)
  rw [← hcount, h.timerq]
  split
  · exact List.nodup_iff_count.mp ((ts.deadline_sublist _ _).nodup h.nodup) a
  · simp

/-- A sleep of an actor that is not asleep. -/
theorem sleep (h : Represents w ts) {a : α} {delay : UInt32} (ha : a ∉ ts.map Prod.fst)
    (hpos : 0 < delay) (hmax : delay < int32Max) :
    ∃ w', w.sleep a delay = some w' ∧ Represents w' (ts ++ [(a, delay.toNat)]) := by
  obtain ⟨w', j, hw', hdue, hticks, htimerq, hself, hother⟩ := w.sleep_eq (a := a) hpos hmax
  have hnat : UInt32.ofNat delay.toNat = delay := UInt32.ofNat_toNat
  refine ⟨w', hw', ?_, ?_, fun k T => ?_⟩
  · rw [List.map_append, List.nodup_append]
    refine ⟨h.nodup, by simp, fun b hb c hc => ?_⟩
    obtain rfl : c = a := by simpa using hc
    rintro rfl
    exact ha hb
  · intro p hp
    rcases List.mem_append.mp hp with hp | hp
    · exact h.range p hp
    · obtain rfl : p = (a, delay.toNat) := by simpa using hp
      have := hdue.1
      rwa [Magnesium.InRange, UInt32.add_comm, UInt32.add_sub_cancel] at this
  · -- the entries already queued keep their deadline, the new one comes last
    have hold : (w.timerq k).filter (fun b => w'.timeout b = T) =
        (w.timerq k).filter fun b => w.timeout b = T := by
      refine List.filter_congr fun b hb => ?_
      rw [hother]
      rintro rfl
      exact ha (h.asleep hb)
    rw [htimerq, List.filter_append, hold, h.timerq, hticks, Timers.deadline_append,
      Timers.deadline_cons]
    simp only [hnat, Timers.deadline_nil]
    by_cases hT : w.ticks + delay = T
    · subst hT
      have hj := hdue.2
      by_cases hk : k = j
      · subst hk
        simp [hj, hself]
      · have hkj : ¬ j = k := Ne.symm hk
        simp [hj, hk, hkj]
    · by_cases hk : k = j <;> simp [hT, hk, hself]

/-- An uninterrupted tick. -/
theorem tick (h : Represents w ts) :
    ∃ w', w.tick = some (w', ts.tick.2) ∧ Represents w' ts.tick.1 := by
  obtain ⟨i, hi, -⟩ := w.tickBegin_eq
  obtain ⟨w', woken, htick, hres⟩ := w.tick_resorted hi (h.timerq_nodup i)
  have hwoken : woken = ts.tick.2 := by
    rw [hres.awake, Timers.tick_activates h.range w.ticks]
    exact (h.timerq i (w.ticks + 1)).trans (if_pos hi)
  refine ⟨w', hwoken ▸ htick, (Timers.keys_tick ts).nodup h.nodup, h.range.tick, fun k T => ?_⟩
  have hticks : w'.ticks = w.ticks + 1 := hres.ticks
  have hdest : ∀ a, Wheel.destination { w with ticks := w.ticks + 1 } a =
      if w.timeout a = w.ticks + 1 then none else diffMsb M (w.ticks + 1) (w.timeout a) := by
    intro a
    rw [diffMsb_comm]
    rfl
  -- no entry left in a queue was activated, so none of them lost its deadline
  have hkeep : ∀ j a, a ∈ w.timerq j → j ≠ i ∨ w.timeout a ≠ w.ticks + 1 →
      w'.timeout a = w.timeout a := by
    intro j a ha hor
    rw [hres.timeout, if_neg]
    intro hm
    rw [hres.awake, List.mem_filter] at hm
    have hnow : w.timeout a = w.ticks + 1 := of_decide_eq_true hm.2
    have hj := (h.due ha).2.2
    rw [hnow, hi, Option.some.injEq] at hj
    exact hor.elim (fun hne => hne hj.symm) fun hne => hne hnow
  have hleft : (if k = i then [] else w.timerq k).filter (fun a => w'.timeout a = T) =
      if k = i then [] else (w.timerq k).filter fun a => w.timeout a = T := by
    by_cases hk : k = i
    · simp [hk]
    · simp only [hk, if_false]
      exact List.filter_congr fun a ha => by rw [hkeep k a ha (Or.inl hk)]
  have hright : ((w.timerq i).filter fun a =>
      Wheel.destination { w with ticks := w.ticks + 1 } a = some k).filter
        (fun a => w'.timeout a = T) =
      if diffMsb M (w.ticks + 1) T = some k then (w.timerq i).filter fun a => w.timeout a = T
      else [] := by
    have hsame : ∀ a ∈ w.timerq i, (w'.timeout a = T ∧
        Wheel.destination { w with ticks := w.ticks + 1 } a = some k) ↔
        (diffMsb M (w.ticks + 1) T = some k ∧ w.timeout a = T) := by
      intro a ha
      rw [hdest]
      by_cases hnow : w.timeout a = w.ticks + 1
      · simp only [hnow, if_true, reduceCtorEq, and_false, false_iff, not_and]
        rintro hk rfl
        simp at hk
      · rw [if_neg hnow, hkeep i a ha (Or.inr hnow)]
        constructor
        · rintro ⟨rfl, hk⟩
          exact ⟨hk, rfl⟩
        · rintro ⟨hk, rfl⟩
          exact ⟨rfl, hk⟩
    rw [List.filter_filter]
    split
    · rename_i hk
      refine List.filter_congr fun a ha => ?_
      have := hsame a ha
      simp only [hk, true_and] at this
      rw [← Bool.decide_and, decide_eq_decide]
      exact this
    · rename_i hk
      refine List.filter_eq_nil_iff.mpr fun a ha hand => ?_
      rw [← Bool.decide_and, decide_eq_true_eq] at hand
      exact hk ((hsame a ha).mp hand).1
  rw [hres.timerq, List.filter_append, hticks, Timers.deadline_tick h.range, hleft, hright,
    h.timerq, h.timerq]
  by_cases hT : T = w.ticks + 1
  · subst hT
    by_cases hk : k = i
    · simp [hk]
    · have hik : ¬ i = k := Ne.symm hk
      simp [hk, hi, hik]
  · rw [if_neg hT]
    -- where nobody waits for `T` both sides are empty; elsewhere `T` has moved only if selected
    cases hD : ts.deadline w.ticks T with
    | nil => simp
    | cons a rest =>
      obtain ⟨r, hr, hrT⟩ := Timers.mem_deadline.mp (hD ▸ List.mem_cons_self)
      obtain ⟨hpos, hlt⟩ := h.range _ hr
      have hrange : Magnesium.InRange w.ticks T := hrT ▸ inRange_add hpos hlt
      obtain ⟨j, hj, hdue⟩ := hrange.due (M := M)
      by_cases hji : j = i
      · subst hji
        by_cases hk : k = j
        · simp [hk, hj]
        · have hjk : ¬ j = k := Ne.symm hk
          simp [hk, hj, hjk]
      · have hnew := (hdue.succ hi hji).2
        by_cases hk : k = i
        · subst hk
          simp [hnew, hji]
        · by_cases hjk : j = k
          · subst hjk
            simp [hj, hnew, hji]
          · simp [hk, hj, hnew, hjk]

end Represents

end Magnesium
