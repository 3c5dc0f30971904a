import Magnesium.Port.Doorbell
import Mathlib.Data.List.Nodup

/-!
# Requests across cores are not lost

From the or-ing of its bit into the mask to the write that makes its vector pending, a request is
in the mask, with a doorbell that is set or about to be, or in the local mask of the handler. The
handler makes the vectors of the bits it takes pending, once each. A vector stays pending until its
handler starts, unless a write to its window withdraws it.
-/

namespace Magnesium

open Trace WordSet

variable {P : IpiPort} {D : IpiDiscipline} {s s' : IpiState} {e : IpiEvent} {c : Fin 2} {p : Nat}

/-- A request of priority `p` is on its way to core `c`: in the mask, while the handler has still
to take it, or in the local mask of the handler. The requester has not rung yet if `unrung`. -/
def Kept (s : IpiState) (c : Fin 2) (p : Nat) (unrung : Prop) : Prop :=
  (Has (s.ipiRequest c) p ∧ (s.doorbell c = true ∨ s.isr c = .cleared ∨ unrung)) ∨
    ∃ prev, s.isr c = .loop prev ∧ Has prev p

/-- The core whose mask, doorbell, handler or pending vectors a step changes. -/
def IpiEvent.core : IpiEvent → Fin 2
  | .request _ c _ | .ring _ c | .own c _ | .enter c | .clear c | .take c _ | .stir c _
  | .finish c | .start c _ => c

/-- A step changes nothing of the other core. -/
theorem IpiStep.frame (h : IpiStep P s s' e) (hc : c ≠ e.core) :
    s'.ipiRequest c = s.ipiRequest c ∧ s'.doorbell c = s.doorbell c ∧ s'.isr c = s.isr c := by
  cases h with
  | request => exact ⟨Function.update_of_ne hc _ _, rfl, rfl⟩
  | ring => exact ⟨rfl, Function.update_of_ne hc _ _, rfl⟩
  | clear => exact ⟨rfl, Function.update_of_ne hc _ _, Function.update_of_ne hc _ _⟩
  | take => exact ⟨Function.update_of_ne hc _ _, rfl, Function.update_of_ne hc _ _⟩
  | enter | finish => exact ⟨rfl, rfl, Function.update_of_ne hc _ _⟩
  | @stir d prev prio hpc hprio =>
    have hd : c ≠ d := hc
    simp [hd]
  | own | start => simp

/-- A step that changes neither the mask, nor the doorbell, nor the handler of the core. -/
theorem Kept.congr {u u' : Prop} (h : Kept s c p u) (hmask : s'.ipiRequest c = s.ipiRequest c)
    (hbell : s'.doorbell c = s.doorbell c) (hisr : s'.isr c = s.isr c) (hu : u → u') :
    Kept s' c p u' := by
  rw [Kept, hmask, hbell, hisr]
  exact h.imp_left (And.imp_right (Or.imp_right (Or.imp_right hu)))

theorem Kept.mono {u u' : Prop} (h : Kept s c p u) (hu : u → u') : Kept s c p u' :=
  h.congr rfl rfl rfl hu

/-- A step keeps a request on its way, or makes its vector pending. -/
theorem Kept.step {x : Ctx} {u : Prop} (h : Kept s c p u) (hstep : IpiStep P s s' e) :
    e = .stir c (p + P.spareIrq0) ∨ Kept s' c p (u ∧ e ≠ .ring x c) := by
  by_cases hc : c = e.core
  swap
  · obtain ⟨hmask, hbell, hisr⟩ := hstep.frame hc
    refine Or.inr (h.congr hmask hbell hisr fun hu => ⟨hu, ?_⟩)
    rintro rfl
    exact hc rfl
  subst hc
  cases hstep with
  | request _ _ hused =>
    refine Or.inr (h.imp (fun ⟨hmask, hway⟩ => ⟨?_, ?_⟩) fun ⟨prev, hisr, hprev⟩ =>
      ⟨prev, hisr, hprev⟩)
    · simpa [IpiEvent.core, has_insert (P.prio_lt _ hused)] using Or.inl hmask
    · simpa [IpiEvent.core] using hway
  | own | start => exact Or.inr (h.congr (by simp) (by simp) (by simp) fun hu => ⟨hu, by simp⟩)
  | ring _ _ =>
    refine Or.inr (h.imp (fun ⟨hmask, _⟩ => ⟨hmask, Or.inl ?_⟩) fun ⟨prev, hisr, hprev⟩ =>
      ⟨prev, hisr, hprev⟩)
    simp [IpiEvent.core]
  | enter hpc hbell =>
    rcases h with ⟨hmask, -⟩ | ⟨prev, hisr, -⟩
    · exact Or.inr (Or.inl ⟨hmask, Or.inl hbell⟩)
    · simp [IpiEvent.core, hpc] at hisr
  | clear hpc =>
    rcases h with ⟨hmask, -⟩ | ⟨prev, hisr, -⟩
    · exact Or.inr (Or.inl ⟨hmask, Or.inr (Or.inl (by simp [IpiEvent.core]))⟩)
    · simp [IpiEvent.core, hpc] at hisr
  | take hpc =>
    rcases h with ⟨hmask, -⟩ | ⟨prev, hisr, -⟩
    · exact Or.inr (Or.inr ⟨_, by simp [IpiEvent.core], hmask⟩)
    · simp [IpiEvent.core, hpc] at hisr
  | @stir d prev prio hpc hprio =>
    rcases h with ⟨hmask, hway⟩ | ⟨prev', hisr, hprev⟩
    · refine Or.inr (Or.inl ⟨by simpa using hmask, ?_⟩)
      rcases hway with hbell | hisr | hu
      · exact Or.inl (by simpa using hbell)
      · simp [IpiEvent.core, hpc] at hisr
      · exact Or.inr (Or.inr ⟨hu, by simp⟩)
    · obtain rfl : prev = prev' := by simpa [IpiEvent.core, hpc] using hisr
      by_cases hpp : p = prio
      · exact Or.inl (by rw [hpp, IpiEvent.core])
      · refine Or.inr (Or.inr ⟨prev &&& ~~~bit prio, by simp [IpiEvent.core], ?_⟩)
        exact (has_erase (lt_of_has hprio)).mpr ⟨hprev, hpp⟩
  | finish hpc =>
    rcases h with ⟨hmask, hway⟩ | ⟨prev, hisr, hprev⟩
    · refine Or.inr (Or.inl ⟨hmask, ?_⟩)
      rcases hway with hbell | hisr | hu
      · exact Or.inl hbell
      · simp [IpiEvent.core, hpc] at hisr
      · exact Or.inr (Or.inr ⟨hu, by simp⟩)
    · obtain rfl : 0 = prev := by simpa [IpiEvent.core, hpc] using hisr
      exact absurd hprev (not_has_zero p)

/-- The history of a run, cut at one of its events. -/
theorem IpiHistory.cut {pre post : List IpiEvent} (h : IpiHistory P D s (pre ++ e :: post)) :
    ∃ s₁ s₂, IpiHistory P D s₁ pre ∧ IpiStep P s₁ s₂ e := by
  generalize hlog : pre ++ e :: post = log at h
  induction h generalizing post with
  | boot => simp at hlog
  | step hrun hadm _ hstep ih =>
    rcases split_concat hlog.symm with ⟨rfl, rfl, -⟩ | ⟨mid, -, hpre⟩
    · exact ⟨_, _, hrun, IpiState.step_cases hadm hstep⟩
    · exact ih hpre.symm

/-- A request is for the vector of an actor, on the other core. -/
theorem IpiHistory.requested {pre post : List IpiEvent} {x : Ctx} {v : Vect}
    (h : IpiHistory P D s (pre ++ .request x c v :: post)) : P.used v ∧ c ≠ P.thisCpu x := by
  obtain ⟨s₁, s₂, -, hstep⟩ := h.cut
  cases hstep with
  | request _ hc hused => exact ⟨hused, hc⟩

/-- A request is on its way, or its vector has been made pending since. -/
theorem IpiHistory.kept {log pre post : List IpiEvent} {x : Ctx} {v : Vect}
    (h : IpiHistory P D s log) (hlog : log = pre ++ .request x c v :: post) :
    .stir c (P.vect2prio v + P.spareIrq0) ∈ post ∨
      Kept s c (P.vect2prio v) (.ring x c ∉ post) := by
  induction h generalizing post with
  | boot => simp at hlog
  | @step s log act s' e hrun hadm hd hact ih =>
    have hstep := IpiState.step_cases hadm hact
    rcases split_concat hlog with ⟨-, rfl, rfl⟩ | ⟨mid, rfl, hmid⟩
    · cases hstep with
      | request _ _ hused =>
        refine Or.inr (Or.inl ⟨?_, Or.inr (Or.inr List.not_mem_nil)⟩)
        simp [has_insert (P.prio_lt _ hused)]
    · rcases ih hmid with hstir | hkept
      · exact Or.inl (List.mem_append_left _ hstir)
      · rcases hkept.step (x := x) hstep with rfl | hkept
        · exact Or.inl (by simp)
        · refine Or.inr (hkept.mono ?_)
          rintro ⟨hnot, hne⟩
          simpa [hnot] using hne.symm

/-- The event makes the vector pending on the core. -/
def IpiEvent.Makes (c : Fin 2) (v : Vect) : IpiEvent → Prop
  | .own d w | .stir d w => d = c ∧ w = v
  | _ => False

/-- A vector that is made pending is pending. -/
theorem IpiStep.made {v : Vect} (h : IpiStep P s s' e) (hmade : e.Makes c v) :
    s'.pending c v = true := by
  cases h with
  | own | stir =>
    obtain ⟨rfl, rfl⟩ := hmade
    exact (IpiState.makePending_pending _ _ _ _).mpr (Or.inl rfl)
  | _ => exact hmade.elim

/-- A pending vector stays pending until its handler starts, unless the step withdraws it. -/
theorem IpiState.pending_kept {act : IpiAction} {v : Vect} (h : s.step P act = some (s', e))
    (hnone : P.WithdrawsNone s act) (hpend : s.pending c v = true) (he : .start c v ≠ e) :
    s'.pending c v = true := by
  cases hlocal : s.localRequests P act with
  | some target =>
    obtain ⟨d, vect⟩ := target
    rw [(step_localRequests h hlocal).1]
    rcases eq_or_ne c d with rfl | hd
    · refine (makePending_pending _ _ _ _).mpr (Or.inr ⟨hpend, fun hw => ?_⟩)
      rw [hnone c vect hlocal v hw] at hpend
      cases hpend
    · rwa [makePending_other _ _ _ hd]
  | none =>
    rcases step_pending h hlocal with hsame | ⟨d, w, rfl, rfl⟩
    · rwa [hsame]
    · rcases eq_or_ne c d with rfl | hd
      · have hw : v ≠ w := fun hw => he (by rw [hw])
        simpa [hw] using hpend
      · simpa [hd] using hpend

/-- A vector made pending stays pending until its handler starts. -/
theorem IpiHistory.pending {log pre post : List IpiEvent} {v : Vect}
    (h : IpiHistory P P.WithdrawsNone s log) (hlog : log = pre ++ e :: post)
    (hmade : e.Makes c v) (hstart : .start c v ∉ post) : s.pending c v = true := by
  induction h generalizing post with
  | boot => simp at hlog
  | @step s log act s' e' hrun hadm hd hact ih =>
    rcases split_concat hlog with ⟨-, rfl, rfl⟩ | ⟨mid, rfl, hmid⟩
    · exact (IpiState.step_cases hadm hact).made hmade
    · rw [List.mem_append, List.mem_singleton, not_or] at hstart
      exact IpiState.pending_kept hact hd (ih hmid hstart.1) hstart.2

/-- A step that does not make the vector pending finds it so, and does not start its handler. -/
theorem IpiStep.pending_before {v : Vect} (h : IpiStep P s s' e) (hpend : s'.pending c v = true)
    (hmade : ¬ e.Makes c v) : s.pending c v = true ∧ .start c v ≠ e := by
  cases h with
  | request | ring | enter | clear | take | finish => exact ⟨hpend, by simp⟩
  | @own d w =>
    refine ⟨?_, by simp⟩
    rcases eq_or_ne c d with rfl | hd
    · rcases (IpiState.makePending_pending _ _ _ _).mp hpend with rfl | ⟨hbefore, -⟩
      · exact absurd ⟨rfl, rfl⟩ hmade
      · exact hbefore
    · rwa [IpiState.makePending_other _ _ _ hd] at hpend
  | @stir d prev prio =>
    refine ⟨?_, by simp⟩
    rw [IpiState.setIsr_pending] at hpend
    rcases eq_or_ne c d with rfl | hd
    · rcases (IpiState.makePending_pending _ _ _ _).mp hpend with rfl | ⟨hbefore, -⟩
      · exact absurd ⟨rfl, rfl⟩ hmade
      · exact hbefore
    · rwa [IpiState.makePending_other _ _ _ hd] at hpend
  | @start d w =>
    rcases eq_or_ne c d with rfl | hd
    · have hw : v ≠ w := by
        rintro rfl
        simp at hpend
      exact ⟨by simpa [hw] using hpend, by simpa using hw⟩
    · exact ⟨by simpa [hd] using hpend, fun heq => hd (by cases heq; rfl)⟩

/-- A pending vector has been made pending, and its handler has not started since. -/
theorem IpiHistory.made {log : List IpiEvent} {v : Vect} (h : IpiHistory P D s log)
    (hpend : s.pending c v = true) :
    ∃ pre e post, log = pre ++ e :: post ∧ e.Makes c v ∧ .start c v ∉ post := by
  induction h with
  | boot => cases hpend
  | @step s log act s' e hrun hadm hd hact ih =>
    by_cases hmade : e.Makes c v
    · exact ⟨log, e, [], rfl, hmade, List.not_mem_nil⟩
    obtain ⟨hbefore, he⟩ := (IpiState.step_cases hadm hact).pending_before hpend hmade
    obtain ⟨pre, e', post, rfl, hmade', hno⟩ := ih hbefore
    refine ⟨pre, e', post ++ [e], by simp, hmade', ?_⟩
    rw [List.mem_append, List.mem_singleton, not_or]
    exact ⟨hno, he⟩

/-- The vectors that `doorbell_isr` makes pending on a core. -/
def stirs (c : Fin 2) (log : List IpiEvent) : List Vect :=
  log.filterMap fun
    | .stir d v => if d = c then some v else none
    | _ => none

theorem stirs_concat (c : Fin 2) (log : List IpiEvent) (e : IpiEvent) :
    stirs c (log ++ [e]) = stirs c log ++ stirs c [e] :=
  List.filterMap_append

/-- The loop of `doorbell_isr` has made the vectors of the bits pending that it has removed from
the mask it took, once each. -/
structure Drained (P : IpiPort) (taken rest : UInt32) (made : List Vect) : Prop where
  nodup : made.Nodup
  sub : ∀ p, Has rest p → Has taken p
  mem_iff : ∀ v, v ∈ made ↔ ∃ p, Has taken p ∧ ¬ Has rest p ∧ v = p + P.spareIrq0

theorem Drained.init (P : IpiPort) (taken : UInt32) : Drained P taken taken [] := by
  refine ⟨List.nodup_nil, fun p h => h, fun v => ?_⟩
  simp only [List.not_mem_nil, false_iff, not_exists, not_and]
  intro p h hn
  exact absurd h hn

/-- One round of the loop. -/
theorem Drained.stir {taken rest : UInt32} {made : List Vect} (h : Drained P taken rest made)
    (hp : Has rest p) :
    Drained P taken (rest &&& ~~~bit p) (made ++ [p + P.spareIrq0]) := by
  have hlt := lt_of_has hp
  constructor
  · have hnew : p + P.spareIrq0 ∉ made := by
      rw [h.mem_iff]
      rintro ⟨q, -, hq, heq⟩
      obtain rfl : p = q := Nat.add_right_cancel heq
      exact hq hp
    exact List.nodup_append.mpr ⟨h.nodup, List.nodup_singleton _, by grind⟩
  · intro q hq
    exact h.sub q ((has_erase hlt).mp hq).1
  · intro v
    rw [List.mem_append, List.mem_singleton, h.mem_iff]
    constructor
    · rintro (⟨q, hq, hn, rfl⟩ | rfl)
      · exact ⟨q, hq, fun hr => hn ((has_erase hlt).mp hr).1, rfl⟩
      · exact ⟨p, h.sub p hp, fun hr => ((has_erase hlt).mp hr).2 rfl, rfl⟩
    · rintro ⟨q, hq, hn, rfl⟩
      by_cases hqp : q = p
      · exact Or.inr (by rw [hqp])
      · exact Or.inl ⟨q, hq, fun hr => hn ((has_erase hlt).mpr ⟨hr, hqp⟩), rfl⟩

/-- A word has 32 bits. -/
theorem Drained.length_le {taken rest : UInt32} {made : List Vect}
    (h : Drained P taken rest made) : made.length ≤ 32 := by
  have hsub : made ⊆ (List.range 32).map (· + P.spareIrq0) := by
    intro v hv
    obtain ⟨p, hp, -, rfl⟩ := (h.mem_iff v).mp hv
    exact List.mem_map.mpr ⟨p, List.mem_range.mpr (lt_of_has hp), rfl⟩
  simpa using (h.nodup.subperm hsub).length_le

/-- A run of the handler that has taken the mask. -/
theorem IpiHistory.drained {log pre mid : List IpiEvent} {taken : UInt32} (h : IpiHistory P D s log)
    (hlog : log = pre ++ .take c taken :: mid) (hmid : .finish c ∉ mid) :
    ∃ rest, s.isr c = .loop rest ∧ Drained P taken rest (stirs c mid) := by
  induction h generalizing mid with
  | boot => simp at hlog
  | @step s log act s' e hrun hadm hd hact ih =>
    have hstep := IpiState.step_cases hadm hact
    rcases split_concat hlog with ⟨-, rfl, rfl⟩ | ⟨mid, rfl, hpre⟩
    · cases hstep with
      | take _ => exact ⟨_, by simp, Drained.init P _⟩
    · rw [List.mem_append, List.mem_singleton, not_or] at hmid
      obtain ⟨rest, hisr, hdrained⟩ := ih hpre hmid.1
      by_cases hc : c = e.core
      · subst hc
        cases hstep with
        | request | own | ring | start =>
          refine ⟨rest, by simpa using hisr, ?_⟩
          simpa [stirs_concat, stirs] using hdrained
        | enter hpc hbell | clear hpc | take hpc => simp [IpiEvent.core, hpc] at hisr
        | @stir d prev prio hpc hhas =>
          obtain rfl : prev = rest := by simpa [IpiEvent.core, hpc] using hisr
          refine ⟨prev &&& ~~~bit prio, by simp [IpiEvent.core], ?_⟩
          simpa [stirs_concat, stirs, IpiEvent.core] using hdrained.stir hhas
        | finish hpc => exact absurd rfl hmid.2
      · refine ⟨rest, (hstep.frame hc).2.2.trans hisr, ?_⟩
        have hnone : stirs c [e] = [] := by
          cases e with
          | stir d v => simp [stirs, show d ≠ c from Ne.symm hc]
          | _ => rfl
        rwa [stirs_concat, hnone, List.append_nil]

/-- A run of the handler ends when it has made the vectors of all the bits it took pending. -/
theorem IpiHistory.drained_finish {pre mid post : List IpiEvent} {taken : UInt32}
    (h : IpiHistory P D s (pre ++ .take c taken :: (mid ++ .finish c :: post)))
    (hmid : .finish c ∉ mid) : Drained P taken 0 (stirs c mid) := by
  rw [← List.cons_append, ← List.append_assoc] at h
  obtain ⟨s₁, s₂, hrun, hstep⟩ := h.cut
  obtain ⟨rest, hisr, hdrained⟩ := hrun.drained rfl hmid
  cases hstep with
  | finish hzero =>
    obtain rfl : 0 = rest := by simpa [hzero] using hisr
    exact hdrained

/-- The bits in the mask of a core, and in the local mask of its handler, are priorities of
vectors in use. -/
structure BitsUsed (P : IpiPort) (s : IpiState) : Prop where
  mask : ∀ c p, Has (s.ipiRequest c) p → ∃ v, P.used v ∧ P.vect2prio v = p
  loop : ∀ c prev p, s.isr c = .loop prev → Has prev p → ∃ v, P.used v ∧ P.vect2prio v = p

theorem BitsUsed.boot (P : IpiPort) : BitsUsed P .boot where
  mask _ p h := absurd h (not_has_zero p)
  loop _ _ _ h := by cases h

/-- The handler of a core moves on, without a bit that was not there. -/
theorem BitsUsed.setIsr (h : BitsUsed P s) {pc : IsrPc}
    (hpc : ∀ prev p, pc = .loop prev → Has prev p → ∃ v, P.used v ∧ P.vect2prio v = p) :
    BitsUsed P (s.setIsr c pc) where
  mask := h.mask
  loop d prev p hd hp := by
    rcases eq_or_ne d c with rfl | hne
    · exact hpc prev p (by simpa using hd) hp
    · exact h.loop d prev p (by simpa [hne] using hd) hp

theorem BitsUsed.step (h : BitsUsed P s) (hstep : IpiStep P s s' e) : BitsUsed P s' := by
  cases hstep with
  | @request x d vect _ _ hused =>
    refine ⟨fun d' p hp => ?_, h.loop⟩
    rcases eq_or_ne d' d with rfl | hd
    · simp only [IpiState.setRinging_ipiRequest, IpiState.setIpiRequest_ipiRequest,
        Function.update_self, has_insert (P.prio_lt _ hused)] at hp
      rcases hp with hp | rfl
      · exact h.mask d' p hp
      · exact ⟨vect, hused, rfl⟩
    · exact h.mask d' p (by simpa [hd] using hp)
  | own => exact ⟨by simpa using h.mask, by simpa using h.loop⟩
  | ring | start => exact ⟨h.mask, h.loop⟩
  | enter | finish =>
    refine h.setIsr fun prev p heq => ?_
    cases heq
  | @clear d =>
    have hbell : BitsUsed P (s.setDoorbell d false) := ⟨h.mask, h.loop⟩
    exact hbell.setIsr fun prev p heq => by cases heq
  | @take d =>
    have hmask : BitsUsed P (s.setIpiRequest d 0) := by
      refine ⟨fun d' p hp => ?_, h.loop⟩
      rcases eq_or_ne d' d with rfl | hd
      · simp at hp
      · exact h.mask d' p (by simpa [hd] using hp)
    refine hmask.setIsr fun prev p heq hp => ?_
    cases heq
    exact h.mask d p hp
  | @stir d prev prio hpc hprio =>
    have hpend : BitsUsed P (s.makePending P d (prio + P.spareIrq0)) :=
      ⟨by simpa using h.mask, by simpa using h.loop⟩
    refine hpend.setIsr fun prev' p heq hp => ?_
    cases heq
    exact h.loop d prev p hpc ((has_erase (lt_of_has hprio)).mp hp).1

theorem IpiHistory.bitsUsed {log : List IpiEvent} (h : IpiHistory P D s log) : BitsUsed P s := by
  induction h with
  | boot => exact .boot P
  | step _ hadm _ hstep ih => exact ih.step (IpiState.step_cases hadm hstep)

/-- The handler is never stuck: the vectors it requests pass the assertion. -/
theorem BitsUsed.isr_enabled (h : BitsUsed P s) (hc : s.isr c ≠ .idle ∨ s.doorbell c = true) :
    (s.step P (.isr c)).isSome = true := by
  rw [IpiState.step, IpiState.doorbellIsr]
  split
  · rename_i hidle
    rw [if_pos (hc.resolve_left (not_not.mpr hidle))]
    rfl
  · rfl
  · rfl
  · rename_i prev hpc
    split
    · rename_i hne
      have hhas : Has prev (31 - portClz prev) := by
        rw [uintMsb_sub_portClz hne]
        exact has_log2 hne
      obtain ⟨v, hused, hv⟩ := h.loop c prev _ hpc hhas
      have hin : P.inRange (31 - portClz prev + P.spareIrq0) = true := by
        rw [← hv]
        exact P.spare_inRange v hused
      simp [IpiState.requestLocalInterrupt, hin]
    · rfl

/-- The requests of a run to the state `s` are not lost. -/
structure RequestsKept (P : IpiPort) (s : IpiState) (log : List IpiEvent) : Prop where
  /-- The vector of the priority of a completed request has been made pending since; or the bit is
  in the mask, and the doorbell set or the handler between clearing it and taking the mask; or the
  bit is in the local mask of the handler. -/
  onWay : ∀ pre post x c v, log = pre ++ .request x c v :: post → .ring x c ∈ post →
    P.vect2prio (P.vect2prio v + P.spareIrq0) = P.vect2prio v ∧
      (.stir c (P.vect2prio v + P.spareIrq0) ∈ post ∨
        (Has (s.ipiRequest c) (P.vect2prio v) ∧ (s.doorbell c = true ∨ s.isr c = .cleared)) ∨
        ∃ prev, s.isr c = .loop prev ∧ Has prev (P.vect2prio v))
  /-- A vector that is made pending stays so until its handler starts. -/
  pending : ∀ pre e post c v, log = pre ++ e :: post → e.Makes c v → .start c v ∉ post →
    s.pending c v = true
  /-- A finished run of the handler has made exactly the vectors of the bits it took pending, once
  each. -/
  drained : ∀ pre mid post c taken, log = pre ++ .take c taken :: (mid ++ .finish c :: post) →
    .finish c ∉ mid →
    (stirs c mid).Nodup ∧ ∀ v, v ∈ stirs c mid ↔ ∃ p, Has taken p ∧ v = p + P.spareIrq0
  /-- The handler has its next step to do, and at most 32 vectors to make pending. -/
  enabled : ∀ c, s.isr c ≠ .idle ∨ s.doorbell c = true → (s.step P (.isr c)).isSome = true
  bounded : ∀ pre mid c taken, log = pre ++ .take c taken :: mid → .finish c ∉ mid →
    (stirs c mid).length ≤ 32

theorem IpiHistory.requestsKept {log : List IpiEvent} (h : IpiHistory P P.WithdrawsNone s log) :
    RequestsKept P s log where
  onWay pre post x c v heq hring := by
    obtain ⟨hused, -⟩ := (heq ▸ h).requested
    refine ⟨P.spare_prio v hused, ?_⟩
    rcases h.kept heq with hstir | ⟨hmask, hway⟩ | hlocal
    · exact Or.inl hstir
    · refine Or.inr (Or.inl ⟨hmask, hway.imp_right fun h => h.resolve_right ?_⟩)
      exact not_not.mpr hring
    · exact Or.inr (Or.inr hlocal)
  pending pre e post c v heq hmade hstart := h.pending heq hmade hstart
  drained pre mid post c taken heq hmid := by
    have hdrained := (heq ▸ h).drained_finish hmid
    refine ⟨hdrained.nodup, fun v => ?_⟩
    rw [hdrained.mem_iff]
    simp only [not_has_zero, not_false_eq_true, true_and]
  enabled c hc := h.bitsUsed.isr_enabled hc
  bounded pre mid c taken heq hmid := by
    obtain ⟨rest, -, hdrained⟩ := h.drained heq hmid
    exact hdrained.length_le

/-- A step that withdraws a vector loses what has been requested. -/
theorem RequestsKept.withdrawsNone {log : List IpiEvent} {act : IpiAction}
    (h : RequestsKept P s' (log ++ [e])) (hrun : IpiHistory P D s log)
    (hstep : s.step P act = some (s', e)) : P.WithdrawsNone s act := by
  intro c vect hlocal v hw
  by_contra hpend
  rw [Bool.not_eq_false] at hpend
  obtain ⟨hwrite, hnot⟩ := IpiState.step_localRequests hstep hlocal
  obtain ⟨pre, e', post, rfl, hmade, hno⟩ := hrun.made hpend
  have hstart : .start c v ∉ post ++ [e] := by
    rw [List.mem_append, List.mem_singleton, not_or]
    exact ⟨hno, (hnot c v).symm⟩
  have hkept := h.pending pre e' (post ++ [e]) c v (by simp) hmade hstart
  rw [hwrite, IpiState.makePending_pending] at hkept
  rcases hkept with heq | ⟨-, hkept⟩
  · exact hw.2.1 heq
  · exact hkept hw

/-- On the ARM ports no run loses a request. -/
theorem IpiHistory.requestsKept_of_stir {log : List IpiEvent} (hP : P.localRequest = .stir)
    (h : IpiHistory P D s log) : RequestsKept P s log :=
  (h.mono fun s act _ => P.withdrawsNone_of_stir hP s act).requestsKept

/-- Requests across cores are not lost. In every run of both cores, with requests from any number of
contexts, in which no vector is made pending while the write would withdraw a pending one: a request
is on its way until its vector is made pending, the vector stays pending until its handler starts,
and each run of `doorbell_isr` makes exactly the vectors of the bits it took pending. The next step
of such a run keeps this if and only if it withdraws nothing, as no step of an ARM port does. -/
theorem requests_not_lost {log : List IpiEvent} (h : IpiHistory P P.WithdrawsNone s log) :
    RequestsKept P s log ∧
    (∀ act s' e, P.Admits act → s.step P act = some (s', e) →
      (RequestsKept P s' (log ++ [e]) ↔ P.WithdrawsNone s act)) ∧
    (P.localRequest = .stir → ∀ act, P.WithdrawsNone s act) := by
  refine ⟨h.requestsKept, fun act s' e hadm hstep => ⟨fun hkept => ?_, fun hnone => ?_⟩,
    fun hP act => P.withdrawsNone_of_stir hP s act⟩
  · exact hkept.withdrawsNone h hstep
  · exact (h.step hadm hnone hstep).requestsKept

/-- Two contexts request vectors of the second core: the later one preempts the first between its
access to the mask and its doorbell, and both bits are taken by one run of the handler. A third
request comes after the mask has been taken. -/
theorem requests_not_lost_merged : ∃ (s : IpiState) (log : List IpiEvent),
    IpiHistory testIpi testIpi.WithdrawsNone s log ∧ RequestsKept testIpi s log ∧
      stirs 1 log = [49, 47] ∧ Has (s.ipiRequest 1) 3 ∧ s.doorbell 1 = true := by
  let schedule : List IpiAction :=
    [.request 0 1 47, .request 1 1 49, .ring 1, .isr 1, .isr 1, .ring 0, .isr 1, .isr 1,
      .request 0 1 49, .isr 1, .isr 1, .ring 0]
  have hlog : (IpiState.boot.replay testIpi [] schedule).map
      (fun r => (r.2, r.1.ipiRequest 1, r.1.doorbell 1)) = some
      ([.request 0 1 47, .request 1 1 49, .ring 1 1, .enter 1, .clear 1, .ring 0 1, .take 1 10,
        .stir 1 49, .request 0 1 49, .stir 1 47, .finish 1, .ring 0 1], 8, true) := by decide
  obtain ⟨⟨s, log⟩, hr, heq⟩ := Option.map_eq_some_iff.mp hlog
  obtain ⟨rfl, heq⟩ := Prod.mk.inj heq
  obtain ⟨hmask, hbell⟩ := Prod.mk.inj heq
  have hadm : ∀ act ∈ schedule, testIpi.Admits act := by
    simp [schedule, IpiPort.Admits, testIpi]
  have hrun := IpiHistory.boot.replay hadm
    (fun s act _ => testIpi.withdrawsNone_of_stir rfl s act) hr
  refine ⟨s, _, hrun, (requests_not_lost hrun).1, by decide, ?_, hbell⟩
  rw [show s.ipiRequest 1 = 8 from hmask]
  decide

/-- The defect. A first run of the doorbell handler of the RISC-V port makes the vector 48 pending;
before its handler starts, a second one makes 49 pending, and withdraws 48. -/
theorem requests_withdrawn : ∃ (s : IpiState) (log : List IpiEvent),
    IpiHistory riscvIpi (fun _ _ => True) s log ∧ ¬ RequestsKept riscvIpi s log := by
  let schedule : List IpiAction :=
    [.request 0 1 48, .ring 0, .isr 1, .isr 1, .isr 1, .isr 1, .isr 1,
      .request 0 1 49, .ring 0, .isr 1, .isr 1, .isr 1, .isr 1, .isr 1]
  have hlog : (IpiState.boot.replay riscvIpi [] schedule).map
      (fun r => (r.2, r.1.pending 1 48)) = some
      ([.request 0 1 48, .ring 0 1, .enter 1, .clear 1, .take 1 1] ++ .stir 1 48 ::
        [.finish 1, .request 0 1 49, .ring 0 1, .enter 1, .clear 1, .take 1 2, .stir 1 49,
          .finish 1], false) := by decide
  obtain ⟨⟨s, log⟩, hr, heq⟩ := Option.map_eq_some_iff.mp hlog
  obtain ⟨rfl, hpend⟩ := Prod.mk.inj heq
  have hadm : ∀ act ∈ schedule, riscvIpi.Admits act := by
    simp [schedule, IpiPort.Admits, riscvIpi]
  refine ⟨s, _, IpiHistory.boot.replay hadm (fun _ _ _ => trivial) hr, fun hkept => ?_⟩
  have hlost := hkept.pending _ _ _ 1 48 rfl ⟨rfl, rfl⟩ (by decide)
  rw [show s.pending 1 48 = false from hpend] at hlost
  cases hlost

end Magnesium
