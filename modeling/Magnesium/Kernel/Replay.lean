import Magnesium.Kernel.Section

/-!
# Replaying schedules

Concrete runs: a schedule names, step by step, the context that moves and what it does.
-/

namespace Magnesium

variable {S : Setup}

namespace State

/-- `Admits`, decided; a schedule does not move actors between CPUs. -/
def admits (s : State S) : Action S → Bool
  | .push _ m | .free m => s.held.contains m
  | .init a _ _ => !s.func a
  | .setCpu _ _ => false
  | _ => true

theorem admits_sound {s : State S} {act : Action S} (h : s.admits act = true) :
    s.Admits act := by
  cases act <;> simp_all [admits, Admits]

/-- Replay a schedule from a state with its history. -/
def replay (s : State S) (log : List (Event S)) :
    List (Ctx × Action S) → Option (State S × List (Event S))
  | [] => some (s, log)
  | (x, act) :: rest =>
    if s.admits act then
      match s.step x act with
      | some (s', es) => s'.replay (log ++ es) rest
      | none => none
    else none

/-- Every step of a schedule passes the check. -/
def passes (ok : State S → Ctx → Action S → Bool) (s : State S) : List (Ctx × Action S) → Bool
  | [] => true
  | (x, act) :: rest =>
    ok s x act &&
      match s.step x act with
      | some (s', _) => s'.passes ok rest
      | none => true

theorem passes_true (s : State S) (steps : List (Ctx × Action S)) :
    s.passes (fun _ _ _ => true) steps = true := by
  induction steps generalizing s with
  | nil => rfl
  | cons step rest ih =>
    rw [passes, Bool.true_and]
    split
    · exact ih _
    · rfl

end State

/-- A replayed schedule is a run of every discipline its steps obey. -/
theorem History.replay {D : Discipline S} {ok : State S → Ctx → Action S → Bool} {s : State S}
    {log : List (Event S)} (h : History D s log) {steps : List (Ctx × Action S)}
    (hok : s.passes ok steps = true) {P : State S → Prop} (hP : P s)
    (hD : ∀ s x act s' es, P s → (x, act) ∈ steps → ok s x act = true →
      s.step x act = some (s', es) → D s x act ∧ P s')
    {s' : State S} {log' : List (Event S)} (hr : s.replay log steps = some (s', log')) :
    History D s' log' ∧ P s' := by
  induction steps generalizing s log with
  | nil =>
    cases hr
    exact ⟨h, hP⟩
  | cons step rest ih =>
    obtain ⟨x, act⟩ := step
    rw [State.replay] at hr
    rw [State.passes, Bool.and_eq_true] at hok
    split at hr
    · rename_i hadm
      cases hstep : s.step x act with
      | none =>
        rw [hstep] at hr
        cases hr
      | some out =>
        obtain ⟨s₁, es⟩ := out
        rw [hstep] at hr hok
        obtain ⟨hd, hP'⟩ := hD s x act s₁ es hP List.mem_cons_self hok.1 hstep
        exact ih (h.step (State.admits_sound hadm) hd hstep) hok.2 hP'
          (fun s x act s' es hs hmem => hD s x act s' es hs (List.mem_cons_of_mem _ hmem)) hr
    · cases hr

/-- Contexts of any order. -/
theorem History.replay_anyOrder {steps : List (Ctx × Action S)} {s : State S}
    {log : List (Event S)} (hr : (State.boot S).replay [] steps = some (s, log)) :
    History AnyOrder s log :=
  (History.boot.replay (State.passes_true _ _) (P := fun _ => True) trivial
    (fun _ _ _ _ _ _ _ _ _ => ⟨trivial, trivial⟩) hr).1

/-- One context moves, and all others stay outside of any operation. -/
theorem History.replay_alone {D : Discipline S} {ok : State S → Ctx → Action S → Bool} {x : Ctx}
    {acts : List (Action S)}
    (hok : (State.boot S).passes ok (acts.map fun act => (x, act)) = true)
    (hD : ∀ s act s' es, (∀ y, y ≠ x → State.pc s y = .idle) → act ∈ acts → ok s x act = true →
      s.step x act = some (s', es) → D s x act)
    {s : State S} {log : List (Event S)}
    (hr : (State.boot S).replay [] (acts.map fun act => (x, act)) = some (s, log)) :
    History D s log ∧ ∀ y, y ≠ x → s.pc y = .idle := by
  refine History.boot.replay hok (P := fun s => ∀ y, y ≠ x → s.pc y = .idle) (fun _ _ => rfl)
    (fun s y act s' es hs hmem hcheck hstep => ?_) hr
  obtain ⟨act', hact, heq⟩ := List.mem_map.mp hmem
  cases heq
  refine ⟨hD s act s' es hs hact hcheck hstep, fun z hz => ?_⟩
  rw [State.step_pc_other hstep hz]
  exact hs z hz

/-- The port of the unit tests: one CPU, two priorities, ten timer queues; each pool has four
blocks. The messages `1` and `2` are in no pool. -/
def testPort : Setup where
  cpuMax := 1
  cpuMax_pos := Nat.one_pos
  prioMax := 2
  timerqMax := 10
  timerqMax_pos := by decide
  vect2prio vect := vect
  thisCpu _ := 0
  sizeMax := 2 ^ 32 - 1
  messageSize := 8
  messageSize_pos := by decide
  pool p := ⟨64 * (p + 1), 64, 16, 0, true⟩
  accepted p := ⟨64 * (p + 1), 64, 16, rfl, by decide⟩
  disjoint := fun (p p' : Nat) (h : p ≠ p') => by
    change 64 * (p + 1) + 64 ≤ 64 * (p' + 1) ∨ 64 * (p' + 1) + 64 ≤ 64 * (p + 1)
    omega
  statics := [1, 2]
  statics_nodup := by decide
  statics_outside := fun (m : Nat) (hm : m ∈ [1, 2]) (p : Nat) => by
    change ¬ (64 * (p + 1) ≤ m ∧ m < 64 * (p + 1) + 64)
    simp only [List.mem_cons, List.not_mem_nil, or_false] at hm
    omega

/-- Two cores; a context runs on the core of its parity. -/
def dualPort : Setup :=
  { testPort with
    cpuMax := 2
    cpuMax_pos := Nat.two_pos
    thisCpu := fun x => ⟨x % 2, Nat.mod_lt x Nat.two_pos⟩ }

end Magnesium
