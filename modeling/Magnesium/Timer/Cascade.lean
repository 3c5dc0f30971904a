import Magnesium.Timer.Preempted
import Mathlib.Data.List.Chain

/-!
# Entries cascade downwards

Where a tick leaves a deadline of the queue it selects, and what follows for one entry of the
wheel: the queues it is put in from its sleep to its wake go down, strictly once it is out of the
overflow queue.
-/

namespace Magnesium

open TopBit

variable {M : Nat} [NeZero M]

/-- An entry of queue `j` may be put in queue `k`: only the overflow queue may keep it. -/
def Below (j k : Fin M) : Prop := k ≤ j ∧ (j.val < M - 1 → k < j)

/-- At tick `t` the deadline `T` is due, or belongs below queue `i`. -/
def Falls (t T : UInt32) (i : Fin M) : Prop :=
  T = t ∨ ∃ k, diffMsb M t T = some k ∧ Below i k

theorem slot_val (n : Nat) : (slot M n).val = min n (M - 1) := rfl

/-- A deadline of the selected queue is reached by the tick, or falls: the old tick differs from
both the new one and the deadline in one leading bit, so these two agree in it. -/
theorem Due.falls {t T : UInt32} {i : Fin M} (h : Due M t T i)
    (hi : diffMsb M t (t + 1) = some i) : Falls (t + 1) T i := by
  obtain ⟨hr, hT⟩ := h
  by_cases he : T = t + 1
  · exact Or.inl he
  · refine Or.inr ⟨_, diffMsb_eq (Ne.symm he), ?_⟩
    rw [diffMsb_eq hr.ne, Option.some.injEq] at hT
    rw [diffMsb_eq (ticks_ne_succ t), Option.some.injEq] at hi
    have hiv : i.val = min (topBit t.toNat (t + 1).toNat) (M - 1) := by rw [← hi, slot_val]
    have hTv : i.val = min (topBit t.toNat T.toNat) (M - 1) := by rw [← hT, slot_val]
    have hstrict : i.val < M - 1 → slot M (topBit (t + 1).toNat T.toNat) < i := by
      intro hlow
      have hlt := topBit_lt_of_eq (fun hn => ticks_ne_succ t (UInt32.toNat_inj.mp hn))
        (fun hn => hr.ne (UInt32.toNat_inj.mp hn))
        (fun hn => he (UInt32.toNat_inj.mp hn).symm)
        (by omega : topBit t.toNat (t + 1).toNat = topBit t.toNat T.toNat)
      rw [Fin.lt_def, slot_val]
      omega
    refine ⟨?_, hstrict⟩
    by_cases hlow : i.val < M - 1
    · exact Fin.le_of_lt (hstrict hlow)
    · rw [Fin.le_def, slot_val]
      omega

omit [NeZero M] in
/-- Below the overflow queue an entry runs out of queues to be put in. -/
theorem length_le_of_chain {j : Fin M} {ks : List (Fin M)} (h : (j :: ks).IsChain Below)
    (hj : j.val < M - 1) : ks.length ≤ j.val := by
  induction ks generalizing j with
  | nil => exact Nat.zero_le _
  | cons k ks ih =>
    obtain ⟨hbelow, hks⟩ := List.isChain_cons_cons.mp h
    have hk : k.val < j.val := hbelow.2 hj
    have hlen := ih hks (by omega)
    rw [List.length_cons]
    omega

omit [NeZero M] in
/-- All queues an entry is put in after a queue below the overflow queue are lower ones. -/
theorem lt_of_chain {j : Fin M} {ks : List (Fin M)} (h : (j :: ks).IsChain Below)
    (hj : j.val < M - 1) : ∀ k ∈ ks, k < j := by
  induction ks generalizing j with
  | nil => simp
  | cons k ks ih =>
    obtain ⟨hbelow, hks⟩ := List.isChain_cons_cons.mp h
    have hk : k.val < j.val := hbelow.2 hj
    intro l hl
    rcases List.mem_cons.mp hl with rfl | hl
    · exact hk
    · exact (ih hks (by omega) l hl).trans hk

variable {α : Type} [DecidableEq α]

/-- The queue an iteration of the tick loop puts the actor in. -/
def LoopEvent.puts (a : α) : LoopEvent M α → Option (Fin M)
  | .visit b dest => if b = a then dest else none
  | .insert _ _ => none

/-- The queue in which a section of a tick that ends at `pc` has put the actor. -/
def Wheel.puts (w : Wheel M α) (pc : TickPc M α) (a : α) : List (Fin M) :=
  (w.visitEvents pc).filterMap (LoopEvent.puts a)

/-- The runs of a wheel, with the queues the actor `a` has been put in since it fell asleep last,
oldest first. -/
inductive Cascade (t₀ : UInt32) (a : α) :
    Wheel M α → TickPc M α → List (TimerEvent α) → List (Fin M) → Prop
  | init (timeout : α → UInt32) : Cascade t₀ a ⟨fun _ => [], t₀, timeout⟩ .done [] []
  | sleep {w pc log track w'} (b : α) (delay : UInt32) : Cascade t₀ a w pc log track →
      ¬ w.Asleep b → pc.wake ≠ some b → 0 < delay → delay < int32Max →
      w.sleep b delay = some w' →
      Cascade t₀ a w' pc (log ++ [.sleep b delay])
        (if b = a then (diffMsb M w'.ticks (w'.timeout a)).toList else track)
  | start {w log track w' pc} : Cascade t₀ a w .done log track → w.tickBegin = some (w', pc) →
      Cascade t₀ a w' pc (log ++ [.increment] ++ pc.finished) (track ++ w'.puts pc a)
  | activate {w i last head b log track} :
      Cascade t₀ a w (.window i last head (some b)) log track →
      Cascade t₀ a w (.window i last head none) (log ++ [.activate b]) track
  | resume {w i last head log track w' pc} :
      Cascade t₀ a w (.window i last head none) log track →
      w.tickResume i last head = some (w', pc) →
      Cascade t₀ a w' pc (log ++ pc.finished) (track ++ w'.puts pc a)

/-- Every run of the wheel has its track. -/
theorem TimerHistory.cascade {t₀ : UInt32} {w : Wheel M α} {pc : TickPc M α}
    {log : List (TimerEvent α)} (h : TimerHistory t₀ w pc log) (a : α) :
    ∃ track, Cascade t₀ a w pc log track := by
  induction h with
  | init timeout => exact ⟨_, .init timeout⟩
  | sleep b delay _ hb hwake hpos hmax hw ih =>
    obtain ⟨track, ih⟩ := ih
    exact ⟨_, ih.sleep b delay hb hwake hpos hmax hw⟩
  | start _ hw ih =>
    obtain ⟨track, ih⟩ := ih
    exact ⟨_, ih.start hw⟩
  | activate _ ih =>
    obtain ⟨track, ih⟩ := ih
    exact ⟨_, ih.activate⟩
  | resume _ hw ih =>
    obtain ⟨track, ih⟩ := ih
    exact ⟨_, ih.resume hw⟩

/-- The track of `a` goes down to the queue that holds it. -/
structure Tracks (a : α) (w : Wheel M α) (track : List (Fin M)) : Prop where
  last : ∀ j, a ∈ w.timerq j → track.getLast? = some j
  down : track.IsChain Below

/-- The entries still to visit fall when they are visited. -/
def Falling (w : Wheel M α) (pc : TickPc M α) (rest : List α) : Prop :=
  ∀ i last head wake, pc = .window i last head wake →
    ∀ b ∈ rest, Falls w.ticks (w.timeout b) i

section Step

variable {w w' : Wheel M α} {pc : TickPc M α} {c : Clock α} {rest rest' : List α}
  {track : List (Fin M)} {a : α}

theorem Wheel.puts_window {i : Fin M} {last : Option α} {head : α} {wake : Option α}
    {dest : Option (Fin M)} {rest : List α} (h : w.Visit i head rest w' wake dest) :
    w'.puts (.window i last head wake) a = if head = a then dest.toList else [] := by
  rw [puts, visitEvents, ← h.destination, Trace.filterMap_cons]
  by_cases ha : head = a <;> simp [LoopEvent.puts, ha]

/-- A visit puts its entry in the queue where it falls, and the other entries stay. -/
theorem Tracks.visit {i : Fin M} {head : α} {wake : Option α} {dest : Option (Fin M)}
    (h : Tracks a w track) (hlinked : w.Linked) (hq : w.timerq i = head :: rest)
    (hfalls : Falls w.ticks (w.timeout head) i) (hv : w.Visit i head rest w' wake dest) :
    Tracks a w' (track ++ if head = a then dest.toList else []) := by
  have hnodup := hlinked.nodup i
  rw [hq, List.nodup_cons] at hnodup
  have hmem : ∀ k b, b ∈ w'.timerq k →
      (b ∈ w.timerq k ∧ b ≠ head) ∨ (b = head ∧ dest = some k) := by
    intro k b hb
    rw [hv.timerq, List.mem_append] at hb
    rcases hb with hb | hb
    · refine Or.inl ?_
      split at hb
      · rename_i hk
        subst hk
        refine ⟨by rw [hq]; exact List.mem_cons_of_mem _ hb, ?_⟩
        rintro rfl
        exact hnodup.1 hb
      · rename_i hk
        refine ⟨hb, ?_⟩
        rintro rfl
        exact hk (hlinked.unique k i b hb (by rw [hq]; exact List.mem_cons_self))
    · refine Or.inr ?_
      split at hb
      · rename_i hk
        exact ⟨by simpa using hb, hk⟩
      · simp at hb
  by_cases ha : head = a
  · subst ha
    have hlast := h.last i (by rw [hq]; exact List.mem_cons_self)
    rw [if_pos rfl]
    cases hv with
    | wake _ =>
      refine ⟨fun k hk => ?_, by simpa using h.down⟩
      rcases hmem k head hk with ⟨-, hne⟩ | ⟨-, hk⟩
      · exact absurd rfl hne
      · simp at hk
    | @requeue j hlate hj =>
      refine ⟨fun k hk => ?_, h.down.append (List.isChain_singleton j) ?_⟩
      · rcases hmem k head hk with ⟨-, hne⟩ | ⟨-, hk⟩
        · exact absurd rfl hne
        · simpa using hk
      · obtain ⟨k, hk, hbelow⟩ := hfalls.resolve_left hlate
        obtain rfl : k = j := by
          rw [diffMsb_comm, hj] at hk
          exact (Option.some.inj hk).symm
        intro x hx y hy
        obtain rfl : i = x := Option.some.inj (hlast.symm.trans hx)
        obtain rfl : k = y := by simpa using hy
        exact hbelow
  · rw [if_neg ha, List.append_nil]
    refine ⟨fun k hk => h.last k ?_, h.down⟩
    rcases hmem k a hk with ⟨hk, -⟩ | ⟨he, -⟩
    · exact hk
    · exact absurd he.symm ha

/-- A section of the tick that enters the loop. -/
theorem Tracks.entered {i : Fin M} {last : Option α} (h : Tracks a w track)
    (hlinked : w.Linked) (hfalls : ∀ b ∈ rest, Falls w.ticks (w.timeout b) i)
    (he : Entered w i last rest w' pc rest') :
    Tracks a w' (track ++ w'.puts pc a) ∧ Falling w' pc rest' := by
  rcases he with ⟨rfl, rfl, rfl⟩ | ⟨head, tail, wake, dest, rfl, hq, hv, rfl⟩
  · refine ⟨?_, fun i last head wake hpc => by simp at hpc⟩
    simpa [Wheel.puts, Wheel.visitEvents] using h
  · refine ⟨?_, ?_⟩
    · rw [Wheel.puts_window hv]
      exact h.visit hlinked hq (hfalls head List.mem_cons_self) hv
    · intro i' last' head' wake' hpc b hb
      cases hpc
      have hnodup := hlinked.nodup i
      rw [hq, List.nodup_cons] at hnodup
      have hne : b ≠ head := by
        rintro rfl
        exact hnodup.1 (List.mem_append_left _ hb)
      rw [hv.ticks, hv.timeout b (Or.inr hne)]
      exact hfalls b (List.mem_cons_of_mem _ hb)

/-- The first section of a tick selects a queue all of whose entries fall. -/
theorem Tracks.start (h : Tracks a w track) (hinv : TimerInv w .done c rest)
    (hw : w.tickBegin = some (w', pc)) :
    ∃ rest', TimerInv w' pc (c.step .increment) rest' ∧
      Tracks a w' (track ++ w'.puts pc a) ∧ Falling w' pc rest' := by
  obtain ⟨i, rest', hi, hinv', he⟩ := hinv.start hw
  obtain ⟨rfl, -⟩ := hinv.later
  have hlinked := hinv.sorted.linked
  have hstart : Tracks a { w with ticks := w.ticks + 1 } track := ⟨h.last, h.down⟩
  refine ⟨rest', hinv', hstart.entered ⟨hlinked.nodup, hlinked.unique⟩ (fun b hb => ?_) he⟩
  obtain ⟨r, -, hr, htime, hplace⟩ := hinv.sorted.asleep i b hb
  obtain ⟨hpos, hj⟩ := hplace (by simp)
  exact Due.falls ⟨htime ▸ inRange_add hpos hr, hj⟩ hi

/-- A sleep of some actor, in a window or between two ticks. -/
theorem Tracks.sleep {b : α} {delay : UInt32} (h : Tracks a w track)
    (hinv : TimerInv w pc c rest) (hfalling : Falling w pc rest) (hb : ¬ w.Asleep b)
    (hpos : 0 < delay) (hmax : delay < int32Max) (hw : w.sleep b delay = some w') :
    Tracks a w' (if b = a then (diffMsb M w'.ticks (w'.timeout a)).toList else track) ∧
      Falling w' pc rest := by
  obtain ⟨w'', j, hw'', hdue, hticks, htimerq, hself, hother⟩ := w.sleep_eq (a := b) hpos hmax
  obtain rfl : w'' = w' := Option.some.inj (hw''.symm.trans hw)
  refine ⟨?_, ?_⟩
  · split
    · rename_i hba
      subst hba
      rw [hticks, hself, hdue.2]
      refine ⟨fun k hk => ?_, List.isChain_singleton j⟩
      rw [htimerq, List.mem_append] at hk
      rcases hk with hk | hk
      · exact absurd ⟨k, hk⟩ hb
      · split at hk
        · rename_i hkj
          simp [hkj]
        · simp at hk
    · rename_i hba
      refine ⟨fun k hk => h.last k ?_, h.down⟩
      rw [htimerq, List.mem_append] at hk
      refine hk.resolve_right fun hk => ?_
      split at hk
      · exact hba (List.mem_singleton.mp hk).symm
      · simp at hk
  · rintro i last head wake rfl d hd
    obtain ⟨i', queue, log, -, hloop, hat⟩ := hinv.loop
    obtain ⟨rfl, -, -⟩ := hat
    have hasleep : w.Asleep d := ⟨i, by rw [hloop.timerq]; exact List.mem_append_left _ hd⟩
    have hne : d ≠ b := by
      rintro rfl
      exact hb hasleep
    rw [hticks, hother d hne]
    exact hfalling i last head wake rfl d hd

end Step

omit [NeZero M] in
theorem clock_finished (log : List (TimerEvent α)) (pc : TickPc M α) :
    clock (log ++ pc.finished) = clock log := by
  cases pc with
  | done => rw [TickPc.finished, clock_concat, Clock.step]
  | window => rw [TickPc.finished, List.append_nil]

/-- The invariant of a tracked entry along every run. -/
theorem Cascade.inv {t₀ : UInt32} {a : α} {w : Wheel M α} {pc : TickPc M α}
    {log : List (TimerEvent α)} {track : List (Fin M)} (h : Cascade t₀ a w pc log track) :
    (∃ rest, TimerInv w pc (clock log) rest ∧ Falling w pc rest) ∧ Tracks a w track := by
  induction h with
  | init timeout =>
    have hinit : TimerHistory t₀ (⟨fun _ => [], t₀, timeout⟩ : Wheel M α) .done [] := .init timeout
    obtain ⟨⟨rest, hinv⟩, -⟩ := hinit.inv
    exact ⟨⟨rest, hinv, fun i last head wake hpc => by simp at hpc⟩,
      fun j hj => by simp at hj, .nil⟩
  | sleep b delay _ hb hwake hpos hmax hw ih =>
    obtain ⟨⟨rest, hinv, hfalling⟩, htracks⟩ := ih
    obtain ⟨htracks', hfalling'⟩ := htracks.sleep hinv hfalling hb hpos hmax hw
    refine ⟨⟨rest, ?_, hfalling'⟩, htracks'⟩
    rw [clock_concat]
    exact hinv.sleep hb hwake hpos hmax hw
  | start _ hw ih =>
    obtain ⟨⟨rest, hinv, -⟩, htracks⟩ := ih
    obtain ⟨rest', hinv', htracks', hfalling'⟩ := htracks.start hinv hw
    refine ⟨⟨rest', ?_, hfalling'⟩, htracks'⟩
    rw [clock_finished, clock_concat]
    exact hinv'
  | activate _ ih =>
    obtain ⟨⟨rest, hinv, hfalling⟩, htracks⟩ := ih
    refine ⟨⟨rest, ?_, ?_⟩, htracks⟩
    · rw [clock_concat]
      exact hinv.activate
    · rintro i last head wake ⟨⟩
      exact hfalling _ _ _ _ rfl
  | @resume w i last head log track w' pc _ hw ih =>
    obtain ⟨⟨rest, hinv, hfalling⟩, htracks⟩ := ih
    obtain ⟨rest', hinv', he⟩ := hinv.resume hw
    obtain ⟨htracks', hfalling'⟩ :=
      htracks.entered hinv.sorted.linked (hfalling i last head none rfl) he
    refine ⟨⟨rest', ?_, hfalling'⟩, htracks'⟩
    rw [clock_finished]
    exact hinv'

/-- Re-sorting one timer queue per tick suffices, and entries only cascade downwards. A tick
changes the queue of those deadlines alone that are in the queue it selects; these it reaches, or
leaves in no higher queue, and in a lower one unless the queue is the overflow queue. So in every
run of the wheel the queues an entry is put in go down, and once it is in a queue `j` other than
the overflow queue it is moved fewer than `M` times before it wakes. -/
theorem resort_one_queue (M : Nat) [NeZero M] :
    (∀ t T : UInt32, 0 < (T - t).toNat → (T - t).toNat < 2 ^ 31 →
      ∃ i j : Fin M, diffMsb M t (t + 1) = some i ∧ diffMsb M t T = some j ∧
        (j ≠ i → T ≠ t + 1 ∧ diffMsb M (t + 1) T = some j) ∧
        (j = i → T = t + 1 ∨
          ∃ k, diffMsb M (t + 1) T = some k ∧ k ≤ i ∧ (i.val < M - 1 → k < i))) ∧
    ∀ (α : Type) [DecidableEq α] (t₀ : UInt32) (a : α) (w : Wheel M α) (pc : TickPc M α)
      (log : List (TimerEvent α)) (track : List (Fin M)), Cascade t₀ a w pc log track →
      (∀ j, a ∈ w.timerq j → track.getLast? = some j) ∧
      ∀ up j moves, track = up ++ j :: moves → j.val < M - 1 →
        moves.length < M ∧ ∀ k ∈ moves, k < j := by
  refine ⟨fun t T hpos hlt => ?_, fun α _ t₀ a w pc log track h => ?_⟩
  · have hr : InRange t T := ⟨hpos, hlt⟩
    have hi : diffMsb M t (t + 1) = some _ := diffMsb_eq (ticks_ne_succ t)
    obtain ⟨j, hj, hdue⟩ := hr.due (M := M)
    refine ⟨_, j, hi, hj, fun hne => ?_, ?_⟩
    · obtain ⟨hr', hj'⟩ := hdue.succ hi hne
      exact ⟨fun he => hr'.ne he.symm, hj'⟩
    · rintro rfl
      exact hdue.falls hi
  · obtain ⟨-, htracks⟩ := h.inv
    refine ⟨htracks.last, ?_⟩
    rintro up j moves rfl hj
    have hdown := htracks.down.right_of_append
    have hlen := length_le_of_chain hdown hj
    exact ⟨by omega, lt_of_chain hdown hj⟩

/-- At the wrap of the counter a deadline leaves the overflow queue. -/
theorem resort_one_queue_wrap : ∃ k : Fin 10, diffMsb 10 0 1 = some k ∧ k ≤ 9 := by
  obtain ⟨i, j, hi, hj, -, hfalls⟩ := (resort_one_queue 10).1 0xffffffff 1 (by decide) (by decide)
  obtain rfl : (9 : Fin 10) = i :=
    Option.some.inj ((by decide : diffMsb 10 0xffffffff (0xffffffff + 1) = some 9).symm.trans hi)
  obtain rfl : (9 : Fin 10) = j :=
    Option.some.inj ((by decide : diffMsb 10 0xffffffff 1 = some 9).symm.trans hj)
  obtain ⟨k, hk, hle, -⟩ := (hfalls rfl).resolve_left (by decide)
  exact ⟨k, hk, hle⟩

-- without the half-range bound a tick misplaces deadlines of queues it does not select
example : diffMsb 32 0x7fffffff 0 = some 30 ∧ diffMsb 32 0x7fffffff 0x80000000 = some 31 ∧
    diffMsb 32 0x80000000 0 = some 31 := by decide

end Magnesium
