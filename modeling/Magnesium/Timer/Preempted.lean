import Magnesium.Core.Trace
import Magnesium.Timer.Loop

/-!
# Timers under a preempted tick

The wheel of one CPU with the windows of its tick open: between two sections of a tick, and
between two ticks, preempting contexts put actors to sleep. Mid-loop the entries still to visit
obey the placement of the old tick and all others that of the new one. Deadlines are compared
with an unbounded count of the increments, kept by `clock` alone.
-/

namespace Magnesium

open Trace

variable {α : Type}

/-- The events of a wheel. -/
inductive TimerEvent (α : Type) where
  /-- An actor goes to sleep. -/
  | sleep (a : α) (delay : UInt32)
  /-- A tick increments the counter. -/
  | increment
  /-- A tick activates an actor it has woken. -/
  | activate (a : α)
  /-- A tick returns. -/
  | finish
  deriving DecidableEq

/-- The actor a window is about to activate. -/
def TickPc.wake {M : Nat} : TickPc M α → Option α
  | .done => none
  | .window _ _ _ wake => wake

/-- The end of a tick, if the section has reached it. -/
def TickPc.finished {M : Nat} : TickPc M α → List (TimerEvent α)
  | .done => [.finish]
  | .window .. => []

/-- Runs of the wheel of one CPU, from any tick value. No two ticks overlap. -/
inductive TimerHistory {M : Nat} [NeZero M] [DecidableEq α] (t₀ : UInt32) :
    Wheel M α → TickPc M α → List (TimerEvent α) → Prop
  | init (timeout : α → UInt32) : TimerHistory t₀ ⟨fun _ => [], t₀, timeout⟩ .done []
  | sleep {w pc log w'} (a : α) (delay : UInt32) : TimerHistory t₀ w pc log →
      ¬ w.Asleep a → pc.wake ≠ some a → 0 < delay → delay < int32Max →
      w.sleep a delay = some w' → TimerHistory t₀ w' pc (log ++ [.sleep a delay])
  | start {w log w' pc} : TimerHistory t₀ w .done log → w.tickBegin = some (w', pc) →
      TimerHistory t₀ w' pc (log ++ [.increment] ++ pc.finished)
  | activate {w i last head a log} :
      TimerHistory t₀ w (.window i last head (some a)) log →
      TimerHistory t₀ w (.window i last head none) (log ++ [.activate a])
  | resume {w i last head log w' pc} :
      TimerHistory t₀ w (.window i last head none) log →
      w.tickResume i last head = some (w', pc) →
      TimerHistory t₀ w' pc (log ++ pc.finished)

variable [DecidableEq α]

/-- The increments so far and, for each sleeping actor, the count at which it is due. -/
structure Clock (α : Type) where
  now : Nat
  due : α → Option Nat

/-- The clock after one more event. -/
def Clock.step (c : Clock α) : TimerEvent α → Clock α
  | .sleep a delay => { c with due := Function.update c.due a (some (c.now + delay.toNat)) }
  | .increment => { c with now := c.now + 1 }
  | .activate a => { c with due := Function.update c.due a none }
  | .finish => c

/-- The clock of a history. -/
def clock (log : List (TimerEvent α)) : Clock α := log.foldl Clock.step ⟨0, fun _ => none⟩

@[simp] theorem clock_concat (log : List (TimerEvent α)) (e : TimerEvent α) :
    clock (log ++ [e]) = (clock log).step e := by simp [clock]

/-- What every event of a wheel obeys: sleepers are awake before, an activation comes at the
increment it is due, and neither a new tick nor the end of one leaves a due actor behind. -/
def TimerLaw (pre : List (TimerEvent α)) : TimerEvent α → Prop
  | .sleep a _ => (clock pre).due a = none
  | .increment | .finish => ∀ a D, (clock pre).due a = some D → (clock pre).now < D
  | .activate a => (clock pre).due a = some (clock pre).now

section Law

theorem now_foldl (c : Clock α) (log : List (TimerEvent α)) :
    (log.foldl Clock.step c).now = c.now + log.count .increment := by
  induction log generalizing c with
  | nil => rfl
  | cons e log ih =>
    rw [List.foldl_cons, ih]
    cases e with
    | increment => simp [Clock.step]; omega
    | sleep a delay => simp [Clock.step]
    | activate a => simp [Clock.step]
    | finish => simp [Clock.step]

theorem due_foldl (c : Clock α) {log : List (TimerEvent α)} {a : α}
    (h : ∀ delay, .sleep a delay ∉ log) :
    (log.foldl Clock.step c).due a = if .activate a ∈ log then none else c.due a := by
  induction log generalizing c with
  | nil => rfl
  | cons e log ih =>
    rw [List.foldl_cons, ih _ fun delay hm => h delay (List.mem_cons_of_mem _ hm)]
    cases e with
    | increment => simp [Clock.step]
    | finish => simp [Clock.step]
    | sleep b delay =>
      have hab : a ≠ b := by
        rintro rfl
        exact h delay List.mem_cons_self
      simp [Clock.step, hab]
    | activate b =>
      by_cases hab : a = b
      · subst hab
        simp [Clock.step]
      · simp [Clock.step, hab]

/-- The clock between a sleep and the next one of the same actor. -/
theorem clock_after_sleep (pre : List (TimerEvent α)) (a : α) (delay : UInt32)
    {mid : List (TimerEvent α)} (h : ∀ delay', .sleep a delay' ∉ mid) :
    (clock (pre ++ .sleep a delay :: mid)).now = (clock pre).now + mid.count .increment ∧
      (clock (pre ++ .sleep a delay :: mid)).due a =
        if .activate a ∈ mid then none else some ((clock pre).now + delay.toNat) := by
  have hfold : clock (pre ++ .sleep a delay :: mid) =
      mid.foldl Clock.step ((clock pre).step (.sleep a delay)) := by simp [clock]
  rw [hfold, now_foldl, due_foldl _ h]
  simp [Clock.step]

/-- Exactness read off the law: one activation for each sleep, by the increment of its delay. -/
theorem exact_of_law {pre mid post : List (TimerEvent α)} {a : α} {delay : UInt32}
    (hlaw : Every TimerLaw (pre ++ .sleep a delay :: (mid ++ post)))
    (hmid : ∀ delay', .sleep a delay' ∉ mid) :
    mid.count (.activate a) ≤ 1 ∧
    (mid.count .increment < delay.toNat → mid.count (.activate a) = 0) ∧
    (delay.toNat < mid.count .increment → mid.count (.activate a) = 1) ∧
    (delay.toNat ≤ mid.count .increment → (∃ rest, post = .finish :: rest) →
      mid.count (.activate a) = 1) ∧
    ((∃ delay' rest, post = .sleep a delay' :: rest) → mid.count (.activate a) = 1) := by
  -- the law at an event of `mid`, with the clock of that moment
  have hat : ∀ p e q, mid ++ post = p ++ e :: q → (∀ delay', .sleep a delay' ∉ p) →
      TimerLaw (pre ++ .sleep a delay :: p) e ∧
        (clock (pre ++ .sleep a delay :: p)).now = (clock pre).now + p.count .increment ∧
        (clock (pre ++ .sleep a delay :: p)).due a =
          if .activate a ∈ p then none else some ((clock pre).now + delay.toNat) := by
    intro p e q heq hp
    refine ⟨hlaw _ e q (by rw [heq]; simp), clock_after_sleep pre a delay hp⟩
  have hbefore : ∀ p e q, mid = p ++ e :: q → ∀ delay', .sleep a delay' ∉ p := by
    rintro p e q rfl delay' hm
    exact hmid delay' (List.mem_append_left _ hm)
  have hactivate : ∀ p q, mid = p ++ .activate a :: q →
      .activate a ∉ p ∧ p.count .increment = delay.toNat := by
    intro p q heq
    obtain ⟨hl, hnow, hdue⟩ := hat p (.activate a) (q ++ post) (by rw [heq]; simp)
      (hbefore p _ q heq)
    rw [TimerLaw, hdue, hnow] at hl
    split at hl
    · simp at hl
    · rename_i hnot
      have := Option.some.inj hl
      exact ⟨hnot, by omega⟩
  have hone : mid.count (.activate a) ≤ 1 := count_le_one_of_split fun p q heq =>
    (hactivate p q heq).1
  have hmem (h : ¬ .activate a ∉ mid) : mid.count (.activate a) = 1 := by
    have := List.count_pos_iff.mpr (not_not.mp h)
    omega
  refine ⟨hone, fun hlt => ?_, fun hlt => hmem fun hnot => ?_,
    fun hle ⟨rest, hpost⟩ => hmem fun hnot => ?_,
    fun ⟨delay', rest, hpost⟩ => hmem fun hnot => ?_⟩
  · rw [List.count_eq_zero]
    intro hm
    obtain ⟨p, q, rfl⟩ := List.append_of_mem hm
    have := (hactivate p q rfl).2
    simp only [List.count_append] at hlt
    omega
  · obtain ⟨p, q, heq, hc⟩ := exists_split_of_lt_count hlt
    obtain ⟨hl, hnow, hdue⟩ := hat p .increment (q ++ post) (by rw [heq]; simp)
      (hbefore p _ q heq)
    rw [if_neg fun hm => hnot (heq ▸ List.mem_append_left _ hm)] at hdue
    have := hl a _ hdue
    omega
  · obtain ⟨hl, hnow, hdue⟩ := hat mid .finish rest (by rw [hpost]) hmid
    rw [if_neg hnot] at hdue
    have := hl a _ hdue
    omega
  · obtain ⟨hl, -, hdue⟩ := hat mid (.sleep a delay') rest (by rw [hpost]) hmid
    rw [if_neg hnot, hl] at hdue
    simp at hdue

end Law

variable {M : Nat} [NeZero M]

/-- The queues while `rest` is still to be visited: an entry outside `rest` lies ahead, in the
queue of the current tick; an entry of `rest` may be due. -/
structure Sorted (w : Wheel M α) (c : Clock α) (rest : List α) : Prop where
  linked : w.Linked
  asleep : ∀ j a, a ∈ w.timerq j → ∃ r, c.due a = some (c.now + r) ∧ r < 2 ^ 31 ∧
    w.timeout a = w.ticks + UInt32.ofNat r ∧
    (a ∉ rest → 0 < r ∧ diffMsb M w.ticks (w.timeout a) = some j)

/-- The invariant of a preempted wheel. -/
structure TimerInv (w : Wheel M α) (pc : TickPc M α) (c : Clock α) (rest : List α) : Prop where
  sorted : Sorted w c rest
  wake : ∀ a, pc.wake = some a → c.due a = some c.now ∧ ¬ w.Asleep a
  due : ∀ a D, c.due a = some D → w.Asleep a ∨ pc.wake = some a
  loop : ∃ i queue log, queue.Nodup ∧ LoopInv queue i w log rest ∧ LoopAt queue i pc log rest

/-- Entering the loop ended the tick, or visited the first entry of `rest`. -/
def Entered (w : Wheel M α) (i : Fin M) (last : Option α) (rest : List α) (w' : Wheel M α)
    (pc : TickPc M α) (rest' : List α) : Prop :=
  (w' = w ∧ pc = .done ∧ rest' = []) ∨ ∃ head tail wake dest, rest = head :: rest' ∧
    w.timerq i = head :: (rest' ++ tail) ∧ w.Visit i head (rest' ++ tail) w' wake dest ∧
    pc = .window i last head wake

/-- A visit takes the head out of the entries still to visit. -/
theorem Sorted.visit {w w' : Wheel M α} {c : Clock α} {i : Fin M} {head : α}
    {rest tail : List α} (h : Sorted w c (head :: rest))
    (hq : w.timerq i = head :: (rest ++ tail)) {wake : Option α} {dest : Option (Fin M)}
    (hv : w.Visit i head (rest ++ tail) w' wake dest) :
    Sorted w' c rest ∧ (∀ a, wake = some a → c.due a = some c.now ∧ ¬ w'.Asleep a) ∧
      ∀ a, w.Asleep a → w'.Asleep a ∨ wake = some a := by
  have hnodup := h.linked.nodup i
  rw [hq, List.nodup_cons] at hnodup
  obtain ⟨r, hdue, hr, htime, -⟩ := h.asleep i head (hq ▸ List.mem_cons_self)
  have hold : ∀ k a, a ∈ (if k = i then rest ++ tail else w.timerq k) →
      a ∈ w.timerq k ∧ a ≠ head := by
    intro k a ha
    split at ha
    · rename_i hk
      refine ⟨by rw [hk, hq]; exact List.mem_cons_of_mem _ ha, ?_⟩
      rintro rfl
      exact hnodup.1 ha
    · rename_i hk
      refine ⟨ha, ?_⟩
      rintro rfl
      exact hk (h.linked.unique k i a ha (hq ▸ List.mem_cons_self))
  have hmem : ∀ k a, a ∈ w'.timerq k ↔
      a ∈ (if k = i then rest ++ tail else w.timerq k) ∨ (a = head ∧ dest = some k) := by
    intro k a
    rw [hv.timerq, List.mem_append]
    by_cases hd : dest = some k <;> simp [hd]
  refine ⟨⟨⟨fun k => ?_, fun k l a hk hl => ?_⟩, fun k a ha => ?_⟩, fun a ha => ?_, fun a ha => ?_⟩
  · rw [hv.timerq, List.nodup_append]
    refine ⟨?_, by split <;> simp, fun a ha b hb => ?_⟩
    · split
      · exact hnodup.2
      · exact h.linked.nodup k
    · obtain ⟨-, rfl⟩ : dest = some k ∧ b = head := by
        split at hb
        · rename_i hd
          exact ⟨hd, by simpa using hb⟩
        · simp at hb
      exact (hold k a ha).2
  · rcases (hmem k a).mp hk with hk | ⟨rfl, hk⟩ <;> rcases (hmem l a).mp hl with hl | ⟨he, hl⟩
    · exact h.linked.unique k l a (hold k a hk).1 (hold l a hl).1
    · exact absurd he (hold k a hk).2
    · exact absurd rfl (hold l a hl).2
    · exact Option.some.inj (hk.symm.trans hl)
  · rw [hv.ticks]
    rcases (hmem k a).mp ha with ha | ⟨rfl, hd⟩
    · obtain ⟨ha, hne⟩ := hold k a ha
      rw [hv.timeout a (Or.inr hne)]
      obtain ⟨r, hdue, hr, htime, hplace⟩ := h.asleep k a ha
      exact ⟨r, hdue, hr, htime, fun hrest => hplace (by simp [hne, hrest])⟩
    · subst hd
      cases hv with
      | requeue hlate hj =>
        refine ⟨r, hdue, hr, htime, fun _ => ⟨?_, by rw [diffMsb_comm]; exact hj⟩⟩
        by_contra hzero
        obtain rfl : r = 0 := by omega
        exact hlate (htime.trans (UInt32.add_zero _))
  · cases hv with
    | requeue _ _ => simp at ha
    | wake hnow =>
      obtain rfl : head = a := Option.some.inj ha
      have hzero : r = 0 := by
        rw [hnow] at htime
        exact ((add_ofNat_inj (k := r) (by omega : 0 < 2 ^ 31) hr).mp
          ((UInt32.add_zero _).trans htime)).symm
      refine ⟨by rw [hdue, hzero, Nat.add_zero], ?_⟩
      rintro ⟨k, hk⟩
      rcases (hmem k head).mp hk with hk | ⟨-, hk⟩
      · exact (hold k head hk).2 rfl
      · simp at hk
  · obtain ⟨k, hk⟩ := ha
    by_cases hne : a = head
    · subst hne
      cases hv with
      | requeue _ _ => exact Or.inl ⟨_, (hmem _ a).mpr (Or.inr ⟨rfl, rfl⟩)⟩
      | wake _ => exact Or.inr rfl
    · refine Or.inl ⟨k, (hmem k a).mpr (Or.inl ?_)⟩
      split
      · rename_i hki
        rw [hki, hq] at hk
        exact (List.mem_cons.mp hk).resolve_left hne
      · exact hk

/-- Entering the loop with every due actor asleep. -/
theorem Sorted.tickLoop {w w' : Wheel M α} {pc : TickPc M α} {c : Clock α} {i : Fin M}
    {queue rest : List α} {log : List (LoopEvent M α)} (h : Sorted w c rest)
    (hdue : ∀ a D, c.due a = some D → w.Asleep a) (hnodup : queue.Nodup)
    (hloop : LoopInv queue i w log rest) (hpos : rest = [] → appended i log = [])
    (hw : w.tickLoop i (Fifo.last queue) = some (w', pc)) :
    ∃ rest', TimerInv w' pc c rest' ∧ Entered w i (Fifo.last queue) rest w' pc rest' := by
  obtain ⟨rest', hinv, hat, hdone⟩ := hloop.tickLoop hpos hw
  cases rest with
  | nil =>
    obtain rfl : pc = .done := hdone.mpr rfl
    have hempty : w.timerq i = [] := by rw [hloop.timerq, hpos rfl, List.append_nil]
    rw [Wheel.tickLoop_nil _ hempty] at hw
    cases hw
    obtain rfl : rest' = [] := hat
    exact ⟨[], ⟨h, fun a ha => by simp [TickPc.wake] at ha, fun a D ha => Or.inl (hdue a D ha),
      i, queue, _, hnodup, hinv, rfl⟩, Or.inl ⟨rfl, rfl, rfl⟩⟩
  | cons head rest =>
    have hq : w.timerq i = head :: (rest ++ appended i log) := hloop.timerq
    obtain ⟨w'', wake, dest, hv, heq⟩ := Wheel.tickLoop_cons (Fifo.last queue) hq
    rw [heq] at hw
    cases hw
    have hrest : rest' = rest := by
      obtain ⟨-, -, before, hb⟩ := hat
      have hlog : w'.visitEvents (.window i (Fifo.last queue) head wake) = [.visit head dest] := by
        rw [Wheel.visitEvents, ← hv.destination]
      have hs := hinv.split
      rw [hlog, visited_append, hloop.split, List.append_assoc, List.append_cancel_left_eq] at hs
      simpa [visited] using hs.symm
    subst hrest
    obtain ⟨hsorted, hwake, hkeep⟩ := h.visit hq hv
    exact ⟨rest', ⟨hsorted, hwake, fun a D ha => hkeep a (hdue a D ha),
      i, queue, _, hnodup, hinv, hat⟩, Or.inr ⟨head, _, wake, dest, rfl, hq, hv, rfl⟩⟩

omit [DecidableEq α] in
/-- The counter moves on only when every entry lies ahead. -/
theorem Sorted.increment {w : Wheel M α} {c : Clock α} (h : Sorted w c []) {i : Fin M}
    (hi : diffMsb M w.ticks (w.ticks + 1) = some i) :
    Sorted { w with ticks := w.ticks + 1 } { c with now := c.now + 1 } (w.timerq i) := by
  refine ⟨⟨h.linked.nodup, h.linked.unique⟩, fun j a ha => ?_⟩
  obtain ⟨r, hdue, hr, htime, hplace⟩ := h.asleep j a ha
  obtain ⟨hpos, hj⟩ := hplace (by simp)
  obtain ⟨r, rfl⟩ : ∃ n, r = n + 1 := Nat.exists_eq_succ_of_ne_zero (by omega)
  have htime' : w.timeout a = w.ticks + 1 + UInt32.ofNat r := by rw [htime, succ_add_ofNat]
  refine ⟨r, by rw [hdue, Nat.add_assoc, Nat.add_comm r 1], by omega, htime', fun hrest => ?_⟩
  have hji : j ≠ i := by
    rintro rfl
    exact hrest ha
  have hdueAt : Due M w.ticks (w.timeout a) j := ⟨htime ▸ inRange_add hpos hr, hj⟩
  obtain ⟨hrange, hj'⟩ := hdueAt.succ hi hji
  rw [htime', InRange, add_ofNat_sub _ (by omega)] at hrange
  exact ⟨hrange.1, hj'⟩

omit [DecidableEq α] in
/-- Between two ticks, and when a tick returns, everybody who sleeps is due later. -/
theorem TimerInv.later {w : Wheel M α} {c : Clock α} {rest : List α}
    (h : TimerInv w .done c rest) : rest = [] ∧ ∀ a D, c.due a = some D → c.now < D := by
  obtain ⟨i, queue, log, -, -, hat⟩ := h.loop
  obtain rfl : rest = [] := hat
  refine ⟨rfl, fun a D ha => ?_⟩
  obtain ⟨j, hj⟩ := (h.due a D ha).resolve_right (by simp [TickPc.wake])
  obtain ⟨r, hdue, -, -, hplace⟩ := h.sorted.asleep j a hj
  have hr := (hplace (by simp)).1
  rw [hdue, Option.some.injEq] at ha
  omega

/-- The first section of a tick. -/
theorem TimerInv.start {w w' : Wheel M α} {pc : TickPc M α} {c : Clock α} {rest : List α}
    (h : TimerInv w .done c rest) (hw : w.tickBegin = some (w', pc)) :
    ∃ i rest', diffMsb M w.ticks (w.ticks + 1) = some i ∧ TimerInv w' pc (c.step .increment) rest' ∧
      Entered { w with ticks := w.ticks + 1 } i (Fifo.last (w.timerq i)) (w.timerq i) w' pc
        rest' := by
  obtain ⟨rfl, -⟩ := h.later
  obtain ⟨i, hi, heq⟩ := w.tickBegin_eq
  rw [heq] at hw
  have hinit : LoopInv (w.timerq i) i { w with ticks := w.ticks + 1 } [] (w.timerq i) :=
    ⟨rfl, by simp [appended]⟩
  obtain ⟨rest', hinv, hentered⟩ := (h.sorted.increment hi).tickLoop
    (fun a D ha => (h.due a D ha).resolve_right (by simp [TickPc.wake]))
    (h.sorted.linked.nodup i) hinit (fun _ => rfl) hw
  exact ⟨i, rest', hi, hinv, hentered⟩

/-- A sleep in a window, or between two ticks. -/
theorem TimerInv.sleep {w w' : Wheel M α} {pc : TickPc M α} {c : Clock α} {rest : List α}
    (h : TimerInv w pc c rest) {a : α} {delay : UInt32} (ha : ¬ w.Asleep a)
    (hwake : pc.wake ≠ some a) (hpos : 0 < delay) (hmax : delay < int32Max)
    (hw : w.sleep a delay = some w') : TimerInv w' pc (c.step (.sleep a delay)) rest := by
  obtain ⟨w'', j, hw'', hdue, hticks, htimerq, hself, hother⟩ := w.sleep_eq (a := a) hpos hmax
  obtain rfl : w'' = w' := Option.some.inj (hw''.symm.trans hw)
  have hmem : ∀ k b, b ∈ w''.timerq k ↔ b ∈ w.timerq k ∨ (b = a ∧ k = j) := by
    intro k b
    rw [htimerq, List.mem_append]
    by_cases hk : k = j <;> simp [hk]
  have hne : ∀ k b, b ∈ w.timerq k → b ≠ a := by
    rintro k b hb rfl
    exact ha ⟨k, hb⟩
  refine ⟨⟨⟨fun k => ?_, fun k l b hk hl => ?_⟩, fun k b hb => ?_⟩, fun b hb => ?_,
    fun b D hb => ?_, ?_⟩
  · rw [htimerq, List.nodup_append]
    refine ⟨h.sorted.linked.nodup k, by split <;> simp, fun b hb b' hb' => ?_⟩
    obtain rfl : b' = a := by
      split at hb'
      · simpa using hb'
      · simp at hb'
    exact hne k b hb
  · rcases (hmem k b).mp hk with hk | ⟨rfl, hk⟩ <;> rcases (hmem l b).mp hl with hl | ⟨he, hl⟩
    · exact h.sorted.linked.unique k l b hk hl
    · exact absurd he (hne k b hk)
    · exact absurd rfl (hne l b hl)
    · rw [hk, hl]
  · rw [hticks]
    rcases (hmem k b).mp hb with hb | ⟨rfl, rfl⟩
    · rw [hother b (hne k b hb)]
      simpa [Clock.step, hne k b hb] using h.sorted.asleep k b hb
    · have hrange := hdue.1
      rw [InRange, UInt32.add_comm, UInt32.add_sub_cancel] at hrange
      refine ⟨delay.toNat, by simp [Clock.step], hrange.2, ?_, fun _ => ⟨hrange.1, ?_⟩⟩
      · rw [hself, UInt32.ofNat_toNat]
      · rw [hself]
        exact hdue.2
  · have hba : b ≠ a := by
      rintro rfl
      exact hwake hb
    obtain ⟨hnow, hnot⟩ := h.wake b hb
    refine ⟨by simpa [Clock.step, hba] using hnow, ?_⟩
    rintro ⟨k, hk⟩
    exact ((hmem k b).mp hk).elim (fun hk => hnot ⟨k, hk⟩) fun he => hba he.1
  · by_cases hba : b = a
    · exact Or.inl ⟨j, (hmem j b).mpr (Or.inr ⟨hba, rfl⟩)⟩
    · apply (h.due b D (by simpa [Clock.step, hba] using hb)).imp_left
      rintro ⟨k, hk⟩
      exact ⟨k, (hmem k b).mpr (Or.inl hk)⟩
  · obtain ⟨i, queue, log, hnodup, hinv, hat⟩ := h.loop
    exact ⟨i, queue, _, hnodup, hinv.insert htimerq, hat.insert a j⟩

/-- Activating a woken actor. -/
theorem TimerInv.activate {w : Wheel M α} {i : Fin M} {last : Option α} {head a : α}
    {c : Clock α} {rest : List α} (h : TimerInv w (.window i last head (some a)) c rest) :
    TimerInv w (.window i last head none) (c.step (.activate a)) rest := by
  obtain ⟨-, hnot⟩ := h.wake a rfl
  have hne : ∀ k b, b ∈ w.timerq k → b ≠ a := by
    rintro k b hb rfl
    exact hnot ⟨k, hb⟩
  refine ⟨⟨h.sorted.linked, fun k b hb => ?_⟩, fun b hb => by simp [TickPc.wake] at hb,
    fun b D hb => ?_, h.loop⟩
  · simpa [Clock.step, hne k b hb] using h.sorted.asleep k b hb
  · have hba : b ≠ a := by
      rintro rfl
      simp [Clock.step] at hb
    refine Or.inl ((h.due b D (by simpa [Clock.step, hba] using hb)).resolve_right ?_)
    exact fun he => hba (Option.some.inj he).symm

/-- The section after a window. -/
theorem TimerInv.resume {w w' : Wheel M α} {pc : TickPc M α} {i : Fin M} {last : Option α}
    {head : α} {c : Clock α} {rest : List α} (h : TimerInv w (.window i last head none) c rest)
    (hw : w.tickResume i last head = some (w', pc)) :
    ∃ rest', TimerInv w' pc c rest' ∧ Entered w i last rest w' pc rest' := by
  obtain ⟨i', queue, log, hnodup, hinv, hat⟩ := h.loop
  have hlast := hat.eq_last_iff hnodup hinv.split
  obtain ⟨rfl, rfl, -⟩ := hat
  rw [Wheel.tickResume_eq] at hw
  by_cases he : some head = Fifo.last queue
  · rw [if_pos he] at hw
    cases hw
    obtain rfl : rest = [] := hlast.mp he
    exact ⟨[], ⟨h.sorted, fun a ha => by simp [TickPc.wake] at ha, h.due,
      i, queue, log, hnodup, hinv, rfl⟩, Or.inl ⟨rfl, rfl, rfl⟩⟩
  · rw [if_neg he] at hw
    exact h.sorted.tickLoop (fun a D ha => (h.due a D ha).resolve_right (by simp [TickPc.wake]))
      hnodup hinv (fun hr => absurd (hlast.mpr hr) he) hw

/-- The end of a tick leaves nobody due, and adds nothing to the clock. -/
theorem TimerInv.finished {w : Wheel M α} {pc : TickPc M α} {log : List (TimerEvent α)}
    {rest : List α} (h : TimerInv w pc (clock log) rest) (hlaw : Every TimerLaw log) :
    TimerInv w pc (clock (log ++ pc.finished)) rest ∧ Every TimerLaw (log ++ pc.finished) := by
  cases pc with
  | window => exact ⟨by simpa [TickPc.finished] using h, by simpa [TickPc.finished] using hlaw⟩
  | done =>
    refine ⟨?_, hlaw.concat h.later.2⟩
    rw [TickPc.finished, clock_concat]
    exact h

/-- The invariant and the law along every run. -/
theorem TimerHistory.inv {t₀ : UInt32} {w : Wheel M α} {pc : TickPc M α}
    {log : List (TimerEvent α)} (h : TimerHistory t₀ w pc log) :
    (∃ rest, TimerInv w pc (clock log) rest) ∧ Every TimerLaw log := by
  induction h with
  | init timeout =>
    refine ⟨⟨[], ⟨⟨fun _ => List.nodup_nil, fun _ _ _ hi => by simp at hi⟩,
      fun _ _ ha => by simp at ha⟩, fun a ha => by simp [TickPc.wake] at ha,
      fun a D ha => by simp [clock] at ha, ⟨0, Nat.pos_of_ne_zero (NeZero.ne M)⟩, [], [],
      List.nodup_nil, ⟨rfl, rfl⟩, rfl⟩, every_nil _⟩
  | @sleep w pc log w' a delay _ ha hwake hpos hmax hw ih =>
    obtain ⟨⟨rest, hinv⟩, hlaw⟩ := ih
    refine ⟨⟨rest, by rw [clock_concat]; exact hinv.sleep ha hwake hpos hmax hw⟩,
      hlaw.concat ?_⟩
    change (clock log).due a = none
    rw [Option.eq_none_iff_forall_ne_some]
    exact fun D hD => (hinv.due a D hD).elim ha hwake
  | @start w log w' pc _ hw ih =>
    obtain ⟨⟨rest, hinv⟩, hlaw⟩ := ih
    have hlaw' : Every TimerLaw (log ++ [.increment]) := hlaw.concat hinv.later.2
    obtain ⟨-, rest', -, hinv', -⟩ := hinv.start hw
    rw [← clock_concat] at hinv'
    obtain ⟨hfin, hlaw''⟩ := hinv'.finished hlaw'
    exact ⟨⟨rest', hfin⟩, hlaw''⟩
  | @activate w i last head a log _ ih =>
    obtain ⟨⟨rest, hinv⟩, hlaw⟩ := ih
    exact ⟨⟨rest, by rw [clock_concat]; exact hinv.activate⟩,
      hlaw.concat (hinv.wake a rfl).1⟩
  | @resume w i last head log w' pc _ hw ih =>
    obtain ⟨⟨rest, hinv⟩, hlaw⟩ := ih
    obtain ⟨rest', hinv', -⟩ := hinv.resume hw
    obtain ⟨hfin, hlaw'⟩ := hinv'.finished hlaw
    exact ⟨⟨rest', hfin⟩, hlaw'⟩

/-- Timers stay exact when the tick is preempted. In every run, whatever preempting contexts put
to sleep in the windows of the ticks and between them, no section of the wheel fails, and the
part `mid` of the run after a sleep of `a` and before its next one activates `a` at most once:
not before the `delay`-th increment, and by the end of the tick that makes it. In particular `a`
has been activated before a further increment and before `a` sleeps again. -/
theorem preempted_timer_exact {t₀ : UInt32} {w : Wheel M α} {pc : TickPc M α}
    {log : List (TimerEvent α)} (h : TimerHistory t₀ w pc log) :
    (∃ w' pc', w.tickBegin = some (w', pc')) ∧
    (∀ i last head, ∃ w' pc', w.tickResume i last head = some (w', pc')) ∧
    (∀ a delay, 0 < delay → delay < int32Max → ∃ w', w.sleep a delay = some w') ∧
    ∀ pre mid post a delay, log = pre ++ .sleep a delay :: (mid ++ post) →
      (∀ delay', .sleep a delay' ∉ mid) →
      mid.count (.activate a) ≤ 1 ∧
      (mid.count .increment < delay.toNat → mid.count (.activate a) = 0) ∧
      (delay.toNat < mid.count .increment → mid.count (.activate a) = 1) ∧
      (delay.toNat ≤ mid.count .increment → (∃ rest, post = .finish :: rest) →
        mid.count (.activate a) = 1) ∧
      ((∃ delay' rest, post = .sleep a delay' :: rest) → mid.count (.activate a) = 1) := by
  refine ⟨?_, w.tickResume_total, fun a delay hpos hmax => ?_, ?_⟩
  · obtain ⟨i, -, heq⟩ := w.tickBegin_eq
    rw [heq]
    exact Wheel.tickLoop_total _ i _
  · obtain ⟨w', -, hw, -⟩ := w.sleep_eq (a := a) hpos hmax
    exact ⟨w', hw⟩
  · rintro pre mid post a delay rfl hmid
    exact exact_of_law h.inv.2 hmid

/-- An actor woken by the tick at which the counter wraps sleeps again in the very window of its
activation, in the queue this tick is processing. -/
theorem preempted_timer_exact_rewoken : ∃ (w : Wheel 2 Nat) (log : List (TimerEvent Nat)),
    TimerHistory 4294967295 w .done log ∧
    log = [.sleep 1 1, .sleep 2 4, .increment, .activate 1] ++ .sleep 1 2 ::
      ([.finish, .increment, .finish, .increment, .activate 1] ++ [.finish]) ∧
    List.count (.activate 1)
      [TimerEvent.finish, .increment, .finish, .increment, .activate 1] = 1 := by
  have h₀ : TimerHistory (M := 2) (α := Nat) 4294967295 _ .done [] := .init fun _ => 0
  have h₁ := h₀.sleep 1 1 (by rintro ⟨j, hj⟩; simp at hj) (by simp [TickPc.wake])
    (by decide) (by decide) rfl
  have h₂ := h₁.sleep 2 4 (by rintro ⟨j, hj⟩; revert j; decide) (by simp [TickPc.wake])
    (by decide) (by decide) rfl
  have h₃ : TimerHistory _ _ (.window 1 (some 2) 1 (some 1)) _ := h₂.start rfl
  have h₄ := h₃.activate.sleep 1 2 (by rintro ⟨j, hj⟩; revert j; decide)
    (by simp [TickPc.wake]) (by decide) (by decide) rfl
  have h₅ : TimerHistory _ _ (.window 1 (some 2) 2 none) _ := h₄.resume rfl
  have h₆ : TimerHistory _ _ .done _ := h₅.resume rfl
  have h₇ : TimerHistory _ _ .done _ := h₆.start rfl
  have h₈ : TimerHistory _ _ (.window 1 (some 2) 1 (some 1)) _ := h₇.start rfl
  have h₉ : TimerHistory _ _ (.window 1 (some 2) 2 none) _ := h₈.activate.resume rfl
  have h₁₀ : TimerHistory _ _ .done _ := h₉.resume rfl
  have hlaw := (preempted_timer_exact h₁₀).2.2.2
    [.sleep 1 1, .sleep 2 4, .increment, .activate 1]
    [.finish, .increment, .finish, .increment, .activate 1] [.finish] 1 2 rfl (by simp)
  exact ⟨_, _, h₁₀, rfl, hlaw.2.2.2.1 (by decide) ⟨[], rfl⟩⟩

end Magnesium
