import Magnesium.Timer.Visit

/-!
# The loop of one tick under preemption

`TickHistory` is one execution of `mg_context_tick` from an arbitrary state of the timer queues.
In every window a preempting context may append actors to any timer queue. The entries the loop
has still to visit stay in front of everything appended behind them, and the remembered last
node is among them exactly until it is dequeued; that carries termination and order.
-/

namespace Magnesium

variable {M : Nat} {α : Type}

/-- What happens to the timer queues while a tick runs. -/
inductive LoopEvent (M : Nat) (α : Type) where
  /-- The loop dequeues an entry, and enqueues it again in `dest` unless it wakes it. -/
  | visit (a : α) (dest : Option (Fin M))
  /-- A preempting context appends an actor to a timer queue. -/
  | insert (a : α) (j : Fin M)

/-- The entries the loop dequeued, in order: one for each iteration. -/
def visited (log : List (LoopEvent M α)) : List α :=
  log.filterMap fun
    | .visit a _ => some a
    | .insert _ _ => none

/-- The actors appended to queue `i` during the loop, by the loop itself or by others. -/
def appended (i : Fin M) (log : List (LoopEvent M α)) : List α :=
  log.filterMap fun
    | .visit a dest => if dest = some i then some a else none
    | .insert a j => if j = i then some a else none

@[simp] theorem visited_append (log more : List (LoopEvent M α)) :
    visited (log ++ more) = visited log ++ visited more := List.filterMap_append

@[simp] theorem appended_append (i : Fin M) (log more : List (LoopEvent M α)) :
    appended i (log ++ more) = appended i log ++ appended i more := List.filterMap_append

theorem appended_visit (i : Fin M) (a : α) (dest : Option (Fin M)) :
    appended i [.visit a dest] = if dest = some i then [a] else [] := by
  by_cases h : dest = some i <;> simp [appended, h]

theorem appended_insert (i j : Fin M) (a : α) :
    appended i [.insert a j] = if j = i then [a] else [] := by
  by_cases h : j = i <;> simp [appended, h]

/-- Queue `i` during the loop: the entries still to visit, then everything appended since. -/
structure LoopInv (queue : List α) (i : Fin M) (w : Wheel M α) (log : List (LoopEvent M α))
    (rest : List α) : Prop where
  split : queue = visited log ++ rest
  timerq : w.timerq i = rest ++ appended i log

/-- Where the loop stands: it holds the last visited entry, or it is over. -/
def LoopAt (queue : List α) (i : Fin M) (pc : TickPc M α) (log : List (LoopEvent M α))
    (rest : List α) : Prop :=
  match pc with
  | .done => rest = []
  | .window i' last head _ =>
    i' = i ∧ last = Fifo.last queue ∧ ∃ before, visited log = before ++ [head]

/-- An insertion leaves the entries still to visit in front. -/
theorem LoopInv.insert {queue : List α} {i : Fin M} {w w' : Wheel M α}
    {log : List (LoopEvent M α)} {rest : List α} (h : LoopInv queue i w log rest) {a : α}
    {j : Fin M} (hw : ∀ k, w'.timerq k = w.timerq k ++ if k = j then [a] else []) :
    LoopInv queue i w' (log ++ [.insert a j]) rest := by
  refine ⟨?_, ?_⟩
  · rw [h.split, visited_append]
    simp [visited]
  · rw [hw, h.timerq, appended_append, appended_insert, List.append_assoc]
    simp only [eq_comm]

theorem LoopAt.insert {queue : List α} {i : Fin M} {pc : TickPc M α}
    {log : List (LoopEvent M α)} {rest : List α} (h : LoopAt queue i pc log rest) (a : α)
    (j : Fin M) : LoopAt queue i pc (log ++ [.insert a j]) rest := by
  cases pc with
  | done => exact h
  | window i' last head wake =>
    obtain ⟨hi, hlast, before, hb⟩ := h
    exact ⟨hi, hlast, before, by rw [visited_append, hb]; simp [visited]⟩

/-- The loop leaves at the remembered node exactly when nothing is left to visit. -/
theorem LoopAt.eq_last_iff {queue : List α} (hnodup : queue.Nodup) {i i' : Fin M}
    {last : Option α} {head : α} {wake : Option α} {log : List (LoopEvent M α)} {rest : List α}
    (hsplit : queue = visited log ++ rest)
    (h : LoopAt queue i (.window i' last head wake) log rest) : some head = last ↔ rest = [] := by
  obtain ⟨-, rfl, before, hb⟩ := h
  rw [hb] at hsplit
  constructor
  · intro he
    by_contra hne
    rw [hsplit, Fifo.last, List.getLast?_append_of_ne_nil _ hne] at he
    have hmem : head ∈ rest := List.mem_of_getLast? he.symm
    rw [hsplit] at hnodup
    exact (List.nodup_append.mp hnodup).2.2 head (by simp) head hmem rfl
  · rintro rfl
    rw [hsplit, Fifo.last, List.append_nil, List.getLast?_concat]

variable [DecidableEq α] [NeZero M]

/-- The iteration that a section of the tick has just made, read off the window it ended in. -/
def Wheel.visitEvents (w : Wheel M α) : TickPc M α → List (LoopEvent M α)
  | .done => []
  | .window _ _ head wake =>
    [.visit head (if wake.isSome then none else diffMsb M (w.timeout head) w.ticks)]

/-- One execution of `mg_context_tick` from the state `w₀`, with the insertions that preempting
contexts make in its windows. -/
inductive TickHistory (w₀ : Wheel M α) :
    Wheel M α → TickPc M α → List (LoopEvent M α) → Prop
  | start {w pc} : w₀.tickBegin = some (w, pc) → TickHistory w₀ w pc (w.visitEvents pc)
  | resume {w i last head wake log w' pc} :
      TickHistory w₀ w (.window i last head wake) log →
      w.tickResume i last head = some (w', pc) →
      TickHistory w₀ w' pc (log ++ w'.visitEvents pc)
  | insert {w i last head wake log} (a : α) (v : UInt32) (j : Fin M) :
      TickHistory w₀ w (.window i last head wake) log → ¬ w.Asleep a →
      TickHistory w₀ ((w.setTimeout a v).setTimerq j (Fifo.enqueue (w.timerq j) a))
        (.window i last head wake) (log ++ [.insert a j])

/-- Entering the loop visits the next entry, if one is left. -/
theorem LoopInv.tickLoop {queue : List α} {i : Fin M} {w w' : Wheel M α} {pc : TickPc M α}
    {log : List (LoopEvent M α)} {rest : List α} (h : LoopInv queue i w log rest)
    (hpos : rest = [] → appended i log = [])
    (hw : w.tickLoop i (Fifo.last queue) = some (w', pc)) :
    ∃ rest', LoopInv queue i w' (log ++ w'.visitEvents pc) rest' ∧
      LoopAt queue i pc (log ++ w'.visitEvents pc) rest' ∧ (pc = .done ↔ rest = []) := by
  cases rest with
  | nil =>
    have hempty : w.timerq i = [] := by rw [h.timerq, hpos rfl, List.append_nil]
    rw [Wheel.tickLoop_nil _ hempty] at hw
    cases hw
    refine ⟨[], ?_, rfl, by simp⟩
    simpa [Wheel.visitEvents] using h
  | cons head rest =>
    have hq : w.timerq i = head :: (rest ++ appended i log) := h.timerq
    obtain ⟨w'', wake, dest, hv, heq⟩ := Wheel.tickLoop_cons (Fifo.last queue) hq
    rw [heq] at hw
    cases hw
    have hlog : w'.visitEvents (.window i (Fifo.last queue) head wake) = [.visit head dest] := by
      rw [Wheel.visitEvents, ← hv.destination]
    rw [hlog]
    refine ⟨rest, ⟨?_, ?_⟩, ⟨rfl, rfl, visited log, ?_⟩, by simp⟩
    · rw [h.split, visited_append]
      simp [visited]
    · rw [hv.timerq, if_pos rfl, appended_append, appended_visit, List.append_assoc]
    · rw [visited_append]
      rfl

/-- The invariant of a tick under preemption. -/
theorem TickHistory.inv {w₀ : Wheel M α} {i : Fin M}
    (hi : diffMsb M w₀.ticks (w₀.ticks + 1) = some i) (hnodup : (w₀.timerq i).Nodup)
    {w : Wheel M α} {pc : TickPc M α} {log : List (LoopEvent M α)}
    (h : TickHistory w₀ w pc log) :
    ∃ rest, LoopInv (w₀.timerq i) i w log rest ∧ LoopAt (w₀.timerq i) i pc log rest := by
  induction h with
  | @start w pc hw =>
    obtain ⟨i', hi', heq⟩ := w₀.tickBegin_eq
    obtain rfl : i' = i := Option.some.inj (hi'.symm.trans hi)
    rw [heq] at hw
    have hinit : LoopInv (w₀.timerq i') i' { w₀ with ticks := w₀.ticks + 1 } []
        (w₀.timerq i') := ⟨rfl, by simp [appended]⟩
    obtain ⟨rest, hinv, hat, -⟩ := hinit.tickLoop (fun _ => rfl) hw
    exact ⟨rest, hinv, hat⟩
  | @resume w i' last head wake log w' pc _ hw ih =>
    obtain ⟨rest, hinv, hat⟩ := ih
    have hlast := hat.eq_last_iff hnodup hinv.split
    obtain ⟨rfl, rfl, -⟩ := hat
    rw [Wheel.tickResume_eq] at hw
    by_cases he : some head = Fifo.last (w₀.timerq i')
    · rw [if_pos he] at hw
      cases hw
      refine ⟨[], ?_, rfl⟩
      simpa [Wheel.visitEvents, hlast.mp he] using hinv
    · rw [if_neg he] at hw
      obtain ⟨rest', hinv', hat', -⟩ := hinv.tickLoop (fun hr => absurd (hlast.mpr hr) he) hw
      exact ⟨rest', hinv', hat'⟩
  | @insert w i' last head wake log a v j _ _ ih =>
    obtain ⟨rest, hinv, hat⟩ := ih
    refine ⟨rest, hinv.insert fun k => ?_, hat.insert a j⟩
    by_cases hk : k = j
    · subst hk
      simp [Fifo.enqueue]
    · simp [hk]

/-- The tick loop ends and visits each entry once. From every state of the timer queues a tick
starts, selects one queue, and for every preemption makes exactly one iteration for each of the
`n` entries that queue held, in their order: in a window after `k` iterations the next section
runs, and it leaves the loop if and only if `k = n`. On exit the queue holds what was appended
to it during the loop. -/
theorem tick_visits_each_once (w₀ : Wheel M α) (hw₀ : w₀.Linked) :
    ∃ i, diffMsb M w₀.ticks (w₀.ticks + 1) = some i ∧ (∃ w pc, w₀.tickBegin = some (w, pc)) ∧
      ∀ w pc log, TickHistory w₀ w pc log →
        visited log <+: w₀.timerq i ∧
        (pc = .done → visited log = w₀.timerq i ∧ w.timerq i = appended i log) ∧
        (∀ i' last head wake, pc = .window i' last head wake → i' = i ∧
          ∃ w' pc', w.tickResume i last head = some (w', pc') ∧
            (pc' = .done ↔ (visited log).length = (w₀.timerq i).length)) := by
  obtain ⟨i, hi, hbegin⟩ := w₀.tickBegin_eq
  refine ⟨i, hi, ?_, ?_⟩
  · rw [hbegin]
    exact Wheel.tickLoop_total _ i _
  · intro w pc log h
    obtain ⟨rest, hinv, hat⟩ := h.inv hi (hw₀.nodup i)
    refine ⟨⟨rest, hinv.split.symm⟩, ?_, ?_⟩
    · rintro rfl
      obtain rfl : rest = [] := hat
      exact ⟨by simpa using hinv.split.symm, by simpa using hinv.timerq⟩
    · rintro i' last head wake rfl
      have hlast := hat.eq_last_iff (hw₀.nodup i) hinv.split
      have hlen : (visited log).length = (w₀.timerq i).length ↔ rest = [] := by
        rw [hinv.split, List.length_append, ← List.length_eq_zero_iff]
        omega
      obtain ⟨rfl, rfl, -⟩ := hat
      refine ⟨rfl, ?_⟩
      rw [Wheel.tickResume_eq, hlen]
      by_cases he : some head = Fifo.last (w₀.timerq i')
      · exact ⟨_, _, if_pos he, by simpa using hlast.mp he⟩
      · rw [if_neg he]
        cases hr : rest with
        | nil => exact absurd (hlast.mpr hr) he
        | cons next rest' =>
          have hq : w.timerq i' = next :: (rest' ++ appended i' log) := by
            rw [hinv.timerq, hr, List.cons_append]
          obtain ⟨w', wake', dest, -, heq⟩ :=
            Wheel.tickLoop_cons (Fifo.last (w₀.timerq i')) hq
          exact ⟨_, _, heq, by simp⟩

/-- One timer queue, with an entry for the next tick and one for a later tick. -/
def pairWheel : Wheel 1 Nat where
  timerq _ := [3, 5]
  ticks := 0
  timeout a := if a = 3 then 1 else 9

/-- Preempted before the last visit, the tick still visits its two entries only. -/
theorem tick_visits_each_once_pair : ∃ w log, TickHistory pairWheel w .done log ∧
    visited log = [3, 5] ∧ w.timerq 0 = [4, 5] := by
  obtain ⟨i, -, -, hall⟩ := tick_visits_each_once pairWheel
    ⟨fun _ => by simp [pairWheel], fun i j _ _ _ => Subsingleton.elim i j⟩
  obtain rfl : i = 0 := Subsingleton.elim i 0
  have h₁ : TickHistory pairWheel _ (.window 0 (some 5) 3 (some 3)) _ := .start rfl
  have h₂ := h₁.insert 4 7 0 (by
    rintro ⟨j, hj⟩
    obtain rfl : j = 0 := Subsingleton.elim j 0
    revert hj
    decide)
  have h₃ : TickHistory pairWheel _ (.window 0 (some 5) 5 none) _ := h₂.resume rfl
  have h₄ : TickHistory pairWheel _ .done _ := h₃.resume rfl
  obtain ⟨hv, hq⟩ := (hall _ _ _ h₄).2.1 rfl
  exact ⟨_, _, h₄, hv, hq.trans (by decide)⟩

end Magnesium
