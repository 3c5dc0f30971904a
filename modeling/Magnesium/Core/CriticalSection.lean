import Magnesium.Core.Trace
import Mathlib.Data.List.Nodup
import Mathlib.Tactic.Simps.Basic

/-!
# Critical sections

The discipline of one context that uses locks: it holds at most one at a time, touches what a lock
protects only in a section of that lock, and leaves certain things to do while it holds none. In
each section it uses each of some resources at most once, and makes a bounded number of accesses.
A monitor checks the accesses in order; the laws say what it has checked in terms of the trace
alone.
-/

namespace CriticalSection

/-- What an access means for the locks `L` and the resources `κ`. -/
inductive Mark (L κ : Type) where
  | acquire (l : L)
  | release (l : L)
  /-- Only in a section of the lock. -/
  | inside (l : L)
  /-- Only in a section of the lock, which uses the resource. -/
  | use (l : L) (k : κ)
  /-- Only while no lock is held. -/
  | outside
  | free

/-- An operation on a lock. -/
inductive LockOp (L : Type) where
  | acquire (l : L)
  | release (l : L)
  deriving DecidableEq

/-- A held lock: the resources used in its section so far, and the number of accesses. -/
structure Held (L κ : Type) where
  lock : L
  used : List κ
  length : Nat
  deriving DecidableEq

variable {ε : Type*} {L κ : Type}

namespace Mark

def lockOp : Mark L κ → Option (LockOp L)
  | .acquire l => some (.acquire l)
  | .release l => some (.release l)
  | _ => none

/-- The lock whose section the access needs. -/
def needs : Mark L κ → Option L
  | .release l | .inside l | .use l _ => some l
  | _ => none

def resource : Mark L κ → Option κ
  | .use _ k => some k
  | _ => none

end Mark

namespace Held

/-- A section begins. -/
@[simps] def start (l : L) : Held L κ := ⟨l, [], 0⟩

/-- One more access, with the resource it uses. -/
@[simps] def extend (s : Held L κ) (k : Option κ) : Held L κ :=
  ⟨s.lock, k.toList ++ s.used, s.length + 1⟩

end Held

variable [DecidableEq L] [DecidableEq κ]

/-- Check an access while no lock is held. -/
def idle : Mark L κ → Option (Option (Held L κ))
  | .acquire l => some (some (.start l))
  | .outside | .free => some none
  | _ => none

/-- Check an access in a section. -/
def busy (bound : Nat) (s : Held L κ) : Mark L κ → Option (Option (Held L κ))
  | .release l => if s.lock = l then some none else none
  | .inside l => if s.lock = l ∧ s.length < bound then some (some (s.extend none)) else none
  | .use l k =>
    if s.lock = l ∧ s.length < bound ∧ k ∉ s.used then some (some (s.extend (some k))) else none
  | .free => if s.length < bound then some (some (s.extend none)) else none
  | _ => none

/-- The monitor: the lock held after one more access, if the access obeys the discipline. -/
def step (mark : ε → Mark L κ) (bound : Nat) : Option (Held L κ) → ε → Option (Option (Held L κ))
  | none, e => idle (mark e)
  | some s, e => busy bound s (mark e)

/-- The operations on locks in a trace. -/
def lockOps (mark : ε → Mark L κ) (log : List ε) : List (LockOp L) :=
  log.filterMap fun e => (mark e).lockOp

/-- The resources used in a trace. -/
def resources (mark : ε → Mark L κ) (log : List ε) : List κ :=
  log.filterMap fun e => (mark e).resource

/-- Sections one after another. -/
def sections (ls : List L) : List (LockOp L) := ls.flatMap fun l => [.acquire l, .release l]

/-- The acquisition of a held lock. -/
def acquired (s : Option (Held L κ)) : List (LockOp L) := s.toList.map fun s => .acquire s.lock

section Run

variable {mark : ε → Mark L κ} {bound : Nat} {s s' : Option (Held L κ)} {e : ε} {log : List ε}

/-- What the monitor accepts. -/
inductive Step (mark : ε → Mark L κ) (bound : Nat) (e : ε) :
    Option (Held L κ) → Option (Held L κ) → Prop
  | acquire {l : L} : mark e = .acquire l → Step mark bound e none (some (.start l))
  | release {held : Held L κ} : mark e = .release held.lock → Step mark bound e (some held) none
  | outside : (mark e).lockOp = none → (mark e).resource = none → (mark e).needs = none →
      Step mark bound e none none
  | inside {held : Held L κ} : (mark e).lockOp = none → mark e ≠ .outside →
      (∀ l, (mark e).needs = some l → held.lock = l) →
      (∀ k, (mark e).resource = some k → k ∉ held.used) → held.length < bound →
      Step mark bound e (some held) (some (held.extend (mark e).resource))

theorem step_cases (h : step mark bound s e = some s') : Step mark bound e s s' := by
  cases s with
  | none =>
    rw [step] at h
    cases hm : mark e with
    | acquire l =>
      rw [hm] at h
      cases h
      exact .acquire hm
    | outside | free =>
      rw [hm] at h
      cases h
      exact .outside (by rw [hm]; rfl) (by rw [hm]; rfl) (by rw [hm]; rfl)
    | release | inside | use =>
      rw [hm] at h
      cases h
  | some held =>
    rw [step] at h
    cases hm : mark e with
    | release l =>
      rw [hm, busy] at h
      split at h
      · rename_i hl
        cases h
        exact .release (by rw [hm, hl])
      · cases h
    | inside l | use l k | free =>
      rw [hm, busy] at h
      split at h
      · cases h
        have hstep : Step mark bound e (some held) (some (held.extend (mark e).resource)) := by
          refine .inside ?_ ?_ ?_ ?_ ?_ <;> simp_all [Mark.lockOp, Mark.needs, Mark.resource]
        rw [hm] at hstep
        exact hstep
      · cases h
    | acquire | outside =>
      rw [hm] at h
      cases h

theorem run_cons (h : (e :: log).foldlM (step mark bound) s = some s') :
    ∃ s₁, Step mark bound e s s₁ ∧ log.foldlM (step mark bound) s₁ = some s' := by
  rw [List.foldlM_cons, Option.bind_eq_bind, Option.bind_eq_some_iff] at h
  obtain ⟨s₁, hstep, hlog⟩ := h
  exact ⟨s₁, step_cases hstep, hlog⟩

theorem run_cut {pre post : List ε} (h : (pre ++ e :: post).foldlM (step mark bound) s = some s') :
    ∃ s₁ s₂, pre.foldlM (step mark bound) s = some s₁ ∧ Step mark bound e s₁ s₂ ∧
      post.foldlM (step mark bound) s₂ = some s' := by
  rw [List.foldlM_append, Option.bind_eq_bind, Option.bind_eq_some_iff] at h
  obtain ⟨s₁, hpre, hpost⟩ := h
  obtain ⟨s₂, hstep, hpost⟩ := run_cons hpost
  exact ⟨s₁, s₂, hpre, hstep, hpost⟩

/-- A run completes sections, the first of them begun before it. -/
theorem run_lockOps (h : log.foldlM (step mark bound) s = some s') :
    ∃ ls, acquired s ++ lockOps mark log = sections ls ++ acquired s' := by
  induction log generalizing s with
  | nil =>
    cases h
    exact ⟨[], by simp [lockOps, sections]⟩
  | cons e log ih =>
    obtain ⟨s₁, hstep, hlog⟩ := run_cons h
    obtain ⟨ls, heq⟩ := ih hlog
    have hcons : lockOps mark (e :: log) = (mark e).lockOp.toList ++ lockOps mark log :=
      Trace.filterMap_cons _ e log
    rw [hcons]
    cases hstep with
    | acquire hm => exact ⟨ls, by simpa [hm, Mark.lockOp, acquired, Held.start] using heq⟩
    | @release held hm =>
      refine ⟨held.lock :: ls, ?_⟩
      rw [hm]
      simpa [Mark.lockOp, acquired, sections] using heq
    | outside hop | inside hop =>
      refine ⟨ls, ?_⟩
      rw [hop]
      exact heq

/-- A run without lock operations stays in its section. -/
theorem run_quiet {mid : List ε} (hquiet : lockOps mark mid = [])
    (h : mid.foldlM (step mark bound) s = some s') :
    (s = none ∧ s' = none ∧ resources mark mid = []) ∨
      ∃ held held', s = some held ∧ s' = some held' ∧
        held'.length = held.length + mid.length ∧ (held.length ≤ bound → held'.length ≤ bound) ∧
        held'.used = (resources mark mid).reverse ++ held.used ∧
        (held.used.Nodup → held'.used.Nodup) := by
  induction mid generalizing s with
  | nil =>
    cases h
    cases s' with
    | none => exact Or.inl ⟨rfl, rfl, rfl⟩
    | some held => exact Or.inr ⟨held, held, rfl, rfl, rfl, id, rfl, id⟩
  | cons e mid ih =>
    obtain ⟨s₁, hstep, hmid⟩ := run_cons h
    have hcons : resources mark (e :: mid) = (mark e).resource.toList ++ resources mark mid :=
      Trace.filterMap_cons _ e mid
    have hops : (mark e).lockOp.toList ++ lockOps mark mid = [] :=
      (Trace.filterMap_cons _ e mid).symm.trans hquiet
    obtain ⟨hop, hquiet'⟩ := List.append_eq_nil_iff.mp hops
    rcases ih hquiet' hmid with
      ⟨rfl, rfl, hres⟩ | ⟨held₁, held', rfl, rfl, hlen, hbound, hused, hnd⟩
    · cases hstep with
      | release hm => simp [hm, Mark.lockOp] at hop
      | outside _ hr _ => exact Or.inl ⟨rfl, rfl, by rw [hcons, hr, hres]; rfl⟩
    · cases hstep with
      | acquire hm => simp [hm, Mark.lockOp] at hop
      | @inside held _ _ _ hnew hlt =>
        refine Or.inr ⟨held, held', rfl, rfl, ?_, fun _ => hbound hlt, ?_, fun h => hnd ?_⟩
        · rw [hlen, Held.extend_length, List.length_cons]
          omega
        · rw [hused, hcons]
          cases (mark e).resource <;> simp [Held.extend]
        · cases hr : (mark e).resource with
          | none => exact h
          | some k => exact List.nodup_cons.mpr ⟨hnew k hr, h⟩

/-- The resources used in a section are distinct. -/
theorem run_nodup {held : Held L κ} (hs : ∀ held, s = some held → held.used.Nodup)
    (h : log.foldlM (step mark bound) s = some (some held)) : held.used.Nodup := by
  induction log generalizing s with
  | nil => exact hs held (Option.some.inj h)
  | cons e log ih =>
    obtain ⟨s₁, hstep, hlog⟩ := run_cons h
    refine ih (fun held₁ heq => ?_) hlog
    cases hstep with
    | acquire _ =>
      cases heq
      exact List.nodup_nil
    | release _ | outside _ _ _ => cases heq
    | inside _ _ _ hnew _ =>
      cases heq
      rw [Held.extend_used]
      cases hr : (mark e).resource with
      | none => exact hs _ rfl
      | some k => exact List.nodup_cons.mpr ⟨hnew k hr, hs _ rfl⟩

end Run

/-- The discipline, said of a trace. -/
structure Disciplined (mark : ε → Mark L κ) (bound : Nat) (log : List ε) : Prop where
  /-- A lock is acquired only if none is held, and released only if it is held. -/
  turns : ∃ (ls : List L) (last : Option L),
    lockOps mark log = sections ls ++ (last.map .acquire).toList
  outside : ∀ pre e post, log = pre ++ e :: post → mark e = .outside →
    ∃ ls, lockOps mark pre = sections ls
  inside : ∀ pre e post l, log = pre ++ e :: post → (mark e).needs = some l →
    ∃ ls, lockOps mark pre = sections ls ++ [.acquire l]
  /-- No section uses a resource twice. -/
  once : ∀ pre mid post, log = pre ++ (mid ++ post) → lockOps mark mid = [] →
    (resources mark mid).Nodup
  /-- Sections are short. -/
  short : ∀ pre e mid post l, log = pre ++ e :: (mid ++ post) → mark e = .acquire l →
    lockOps mark mid = [] → mid.length ≤ bound

variable {mark : ε → Mark L κ} {bound : Nat} {s : Option (Held L κ)} {log : List ε}

/-- The monitor lets only disciplined traces through. -/
theorem disciplined_of_run (h : log.foldlM (step mark bound) none = some s) :
    Disciplined mark bound log := by
  constructor
  · obtain ⟨ls, hops⟩ := run_lockOps h
    refine ⟨ls, s.map Held.lock, ?_⟩
    cases s <;> exact hops
  · rintro pre e post rfl hm
    obtain ⟨s₁, s₂, hpre, hstep, -⟩ := run_cut h
    obtain ⟨ls, hops⟩ := run_lockOps hpre
    cases hstep with
    | acquire hm' | release hm' => rw [hm] at hm'; cases hm'
    | outside => exact ⟨ls, by simpa [acquired] using hops⟩
    | inside _ hne => exact absurd hm hne
  · rintro pre e post l rfl hm
    obtain ⟨s₁, s₂, hpre, hstep, -⟩ := run_cut h
    obtain ⟨ls, hops⟩ := run_lockOps hpre
    cases hstep with
    | acquire hm' => rw [hm'] at hm; cases hm
    | release hm' =>
      rw [hm'] at hm
      cases hm
      exact ⟨ls, by simpa [acquired] using hops⟩
    | outside _ _ hn => rw [hn] at hm; cases hm
    | inside _ _ hl =>
      obtain rfl := hl l hm
      exact ⟨ls, by simpa [acquired] using hops⟩
  · rintro pre mid post rfl hquiet
    rw [List.foldlM_append, Option.bind_eq_bind, Option.bind_eq_some_iff] at h
    obtain ⟨s₁, hpre, hrest⟩ := h
    rw [List.foldlM_append, Option.bind_eq_bind, Option.bind_eq_some_iff] at hrest
    obtain ⟨s₂, hmid, -⟩ := hrest
    rcases run_quiet hquiet hmid with ⟨-, -, hres⟩ | ⟨held, held', rfl, rfl, -, -, hused, hnd⟩
    · rw [hres]
      exact List.nodup_nil
    · have hnodup := hnd (run_nodup (by simp) hpre)
      rw [hused] at hnodup
      exact List.nodup_reverse.mp hnodup.of_append_left
  · rintro pre e mid post l rfl hm hquiet
    obtain ⟨s₁, s₂, -, hstep, hrest⟩ := run_cut h
    rw [List.foldlM_append, Option.bind_eq_bind, Option.bind_eq_some_iff] at hrest
    obtain ⟨s₃, hmid, -⟩ := hrest
    cases hstep with
    | acquire hm' =>
      rcases run_quiet hquiet hmid with ⟨hnone, -, -⟩ | ⟨held, held', hs, -, hlen, hle, -, -⟩
      · cases hnone
      · cases hs
        have hbound := hle (Nat.zero_le bound)
        rw [hlen, Held.start_length, Nat.zero_add] at hbound
        exact hbound
    | release hm' =>
      rw [hm] at hm'
      cases hm'
    | outside hop | inside hop =>
      rw [hm] at hop
      cases hop

end CriticalSection
