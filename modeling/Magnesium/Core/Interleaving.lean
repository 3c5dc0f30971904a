import Magnesium.Core.CriticalSection

/-!
# Critical sections of several contexts

The accesses of several contexts in one order of execution. Where each context obeys the discipline
of `CriticalSection` on its own, and a lock is given to one context at a time, the sections of a
lock come one after another: between two accesses of different contexts to what the lock protects,
the first context has released the lock and the second one has acquired it.
-/

namespace Interleaving

open CriticalSection

variable {τ ε L κ : Type} [DecidableEq τ] [DecidableEq L]

/-- The accesses of one context. -/
def own (x : τ) (log : List (τ × ε)) : List ε :=
  log.filterMap fun e => if e.1 = x then some e.2 else none

/-- Who holds each lock. -/
abbrev Owners (τ L : Type) := L → Option τ

/-- A lock is acquired only while it is free, and released only by its owner. -/
def grant (mark : ε → Mark L κ) (h : Owners τ L) (e : τ × ε) : Option (Owners τ L) :=
  match mark e.2 with
  | .acquire l => if h l = none then some (Function.update h l (some e.1)) else none
  | .release l => if h l = some e.1 then some (Function.update h l none) else none
  | _ => some h

/-- The owners after a log in which every lock is given to one context at a time. -/
def owners (mark : ε → Mark L κ) (log : List (τ × ε)) : Option (Owners τ L) :=
  log.foldlM (grant mark) fun _ => none

section Own

variable {x y : τ} {e : ε} {log : List (τ × ε)}

omit [DecidableEq L] in
@[simp] theorem own_nil (x : τ) : own x ([] : List (τ × ε)) = [] := rfl

@[simp] theorem own_append (x : τ) (log log' : List (τ × ε)) :
    own x (log ++ log') = own x log ++ own x log' :=
  List.filterMap_append

@[simp] theorem own_cons_self (x : τ) (e : ε) (log : List (τ × ε)) :
    own x ((x, e) :: log) = e :: own x log := by
  simp [own]

theorem own_cons_of_ne (h : y ≠ x) (e : ε) (log : List (τ × ε)) :
    own x ((y, e) :: log) = own x log := by
  simp [own, h]

end Own

section Grant

variable {mark : ε → Mark L κ} {h h' : Owners τ L} {x y : τ} {e : ε} {l : L}

/-- What a step does to the owner of one lock. -/
theorem grant_cases (hg : grant mark h (x, e) = some h') :
    (mark e = .acquire l ∧ h l = none ∧ h' l = some x) ∨
      (mark e = .release l ∧ h l = some x ∧ h' l = none) ∨
      (mark e ≠ .acquire l ∧ mark e ≠ .release l ∧ h' l = h l) := by
  unfold grant at hg
  split at hg
  · rename_i k hm
    split at hg
    · rename_i hfree
      cases hg
      by_cases hk : l = k
      · subst hk
        exact Or.inl ⟨hm, hfree, Function.update_self ..⟩
      · refine Or.inr (Or.inr ⟨?_, ?_, Function.update_of_ne hk ..⟩)
        · rw [hm]
          exact fun heq => hk (Mark.acquire.inj heq).symm
        · rw [hm]
          nofun
    · cases hg
  · rename_i k hm
    split at hg
    · rename_i howner
      cases hg
      by_cases hk : l = k
      · subst hk
        exact Or.inr (Or.inl ⟨hm, howner, Function.update_self ..⟩)
      · refine Or.inr (Or.inr ⟨?_, ?_, Function.update_of_ne hk ..⟩)
        · rw [hm]
          nofun
        · rw [hm]
          exact fun heq => hk (Mark.release.inj heq).symm
    · cases hg
  · rename_i hna hnr
    cases hg
    exact Or.inr (Or.inr ⟨hna l, hnr l, rfl⟩)

/-- Only operations on locks change owners. -/
theorem grant_of_lockOp (h : Owners τ L) (x : τ) (hop : (mark e).lockOp = none) :
    grant mark h (x, e) = some h := by
  cases hm : mark e with
  | acquire l | release l =>
    rw [hm] at hop
    cases hop
  | _ => simp [grant, hm]

theorem grant_eq_of_lockOp (hg : grant mark h (x, e) = some h') (hop : (mark e).lockOp = none) :
    h' = h :=
  (Option.some.inj ((grant_of_lockOp h x hop).symm.trans hg)).symm

/-- A lock leaves its owner through a release. -/
theorem exists_release {log : List (τ × ε)} (hrun : log.foldlM (grant mark) h = some h')
    (hx : h l = some x) (hx' : h' l ≠ some x) :
    ∃ pre e post, log = pre ++ (x, e) :: post ∧ mark e = .release l ∧
      ∃ h₁, h₁ l = none ∧ post.foldlM (grant mark) h₁ = some h' := by
  induction log generalizing h with
  | nil =>
    cases hrun
    exact absurd hx hx'
  | cons e log ih =>
    obtain ⟨y, e⟩ := e
    rw [List.foldlM_cons, Option.bind_eq_bind, Option.bind_eq_some_iff] at hrun
    obtain ⟨h₁, hstep, hlog⟩ := hrun
    rcases grant_cases (l := l) hstep with ⟨-, hfree, -⟩ | ⟨hm, howner, hnone⟩ | ⟨-, -, heq⟩
    · rw [hx] at hfree
      cases hfree
    · rw [hx] at howner
      cases howner
      exact ⟨[], e, log, rfl, hm, h₁, hnone, hlog⟩
    · obtain ⟨pre, e', post, rfl, hm, hpost⟩ := ih hlog (heq.trans hx)
      exact ⟨(y, e) :: pre, e', post, rfl, hm, hpost⟩

/-- A lock comes to its owner through an acquisition. -/
theorem exists_acquire {log : List (τ × ε)} (hrun : log.foldlM (grant mark) h = some h')
    (hy : h l ≠ some y) (hy' : h' l = some y) :
    ∃ pre e post, log = pre ++ (y, e) :: post ∧ mark e = .acquire l := by
  induction log generalizing h with
  | nil =>
    cases hrun
    exact absurd hy' hy
  | cons e log ih =>
    obtain ⟨z, e⟩ := e
    rw [List.foldlM_cons, Option.bind_eq_bind, Option.bind_eq_some_iff] at hrun
    obtain ⟨h₁, hstep, hlog⟩ := hrun
    by_cases h₁y : h₁ l = some y
    · rcases grant_cases (l := l) hstep with ⟨hm, -, heq⟩ | ⟨-, -, hnone⟩ | ⟨-, -, heq⟩
      · rw [h₁y] at heq
        cases heq
        exact ⟨[], e, log, rfl, hm⟩
      · rw [h₁y] at hnone
        cases hnone
      · exact absurd (heq.symm.trans h₁y) hy
    · obtain ⟨pre, e', post, rfl, hm⟩ := ih hlog h₁y
      exact ⟨(z, e) :: pre, e', post, rfl, hm⟩

end Grant

section Ordered

variable [DecidableEq κ] {mark : ε → Mark L κ} {bound : Nat} {log : List (τ × ε)}
  {h h' : Owners τ L} {s s' : Option (Held L κ)} {x y : τ} {e e' : ε} {l : L}

/-- The monitor of a context holds the locks that the context owns. -/
def Agrees (h : Owners τ L) (x : τ) (s : Option (Held L κ)) : Prop :=
  ∀ l, h l = some x ↔ ∃ held, s = some held ∧ held.lock = l

omit [DecidableEq κ] in
/-- An access of another context. -/
theorem Agrees.other (hs : Agrees h x s) (hg : grant mark h (y, e) = some h') (hy : y ≠ x) :
    Agrees h' x s := by
  intro l
  rw [← hs l]
  rcases grant_cases (l := l) hg with ⟨-, hfree, heq⟩ | ⟨-, howner, hnone⟩ | ⟨-, -, heq⟩
  · simp [hfree, heq, hy]
  · simp [howner, hnone, hy]
  · rw [heq]

omit [DecidableEq κ] in
/-- An access of the context itself. -/
theorem Agrees.own (hs : Agrees h x s) (hg : grant mark h (x, e) = some h')
    (hstep : Step mark bound e s s') : Agrees h' x s' := by
  intro l
  have hl := hs l
  cases hstep with
  | @acquire k hm =>
    rcases grant_cases (l := l) hg with ⟨hm', -, heq⟩ | ⟨hm', -, -⟩ | ⟨hne, -, heq⟩
    · rw [hm] at hm'
      cases hm'
      simp [heq]
    · rw [hm] at hm'
      cases hm'
    · have hk : k ≠ l := fun hk => hne (by rw [hm, hk])
      rw [heq, hl]
      simp [hk]
  | @release held hm =>
    rcases grant_cases (l := l) hg with ⟨hm', -, -⟩ | ⟨-, -, heq⟩ | ⟨-, hne, heq⟩
    · rw [hm] at hm'
      cases hm'
    · simp [heq]
    · have hk : held.lock ≠ l := fun hk => hne (by rw [hm, hk])
      rw [heq, hl]
      simp [hk]
  | outside hop => rw [grant_eq_of_lockOp hg hop, hl]
  | inside hop =>
    rw [grant_eq_of_lockOp hg hop, hl]
    simp

/-- Along a log, the monitor of a context holds the locks that the context owns. -/
theorem Agrees.run (hs : Agrees h x s) (hrun : log.foldlM (grant mark) h = some h')
    (hown : (Interleaving.own x log).foldlM (step mark bound) s = some s') : Agrees h' x s' := by
  induction log generalizing h s with
  | nil =>
    cases hrun
    cases hown
    exact hs
  | cons e log ih =>
    obtain ⟨y, e⟩ := e
    rw [List.foldlM_cons, Option.bind_eq_bind, Option.bind_eq_some_iff] at hrun
    obtain ⟨h₁, hstep, hlog⟩ := hrun
    by_cases hy : y = x
    · subst hy
      rw [own_cons_self] at hown
      obtain ⟨s₁, hmon, hown⟩ := run_cons hown
      exact ih (hs.own hstep hmon) hlog hown
    · rw [own_cons_of_ne hy] at hown
      exact ih (hs.other hstep hy) hlog hown

omit [DecidableEq τ] [DecidableEq L] [DecidableEq κ] in
/-- An access to what a lock protects is made by a context that holds it. -/
theorem holds_of_needs (hstep : Step mark bound e s s') (he : (mark e).needs = some l) :
    ∃ held, s = some held ∧ held.lock = l := by
  cases hstep with
  | acquire hm =>
    rw [hm] at he
    cases he
  | @release held hm =>
    rw [hm] at he
    cases he
    exact ⟨held, rfl, rfl⟩
  | outside _ _ hneeds =>
    rw [hneeds] at he
    cases he
  | @inside held _ _ hneeds => exact ⟨held, rfl, hneeds l he⟩

/-- The owner of a lock that an access of a log needs. -/
theorem owner_of_needs {pre post : List (τ × ε)}
    (hpre : owners mark pre = some h) (hlog : log = pre ++ (x, e) :: post)
    (hown : (own x log).foldlM (step mark bound) none = some s)
    (he : (mark e).needs = some l) : h l = some x := by
  rw [hlog, own_append, own_cons_self] at hown
  obtain ⟨s₁, s₂, hbefore, hstep, -⟩ := run_cut hown
  have hagrees : Agrees (fun _ => none : Owners τ L) x (none : Option (Held L κ)) := by
    intro k
    simp
  exact (hagrees.run hpre hbefore l).mpr (holds_of_needs hstep he)

/-- Between two accesses of different contexts to what a lock protects, the first context has
released the lock and then the second one has acquired it. -/
theorem ordered {pre mid post : List (τ × ε)} (hgrant : owners mark log = some h)
    (hown : ∀ x, ∃ s, (own x log).foldlM (step mark bound) none = some s)
    (hlog : log = pre ++ (x, e) :: (mid ++ (y, e') :: post)) (hxy : x ≠ y)
    (he : (mark e).needs = some l) (hop : (mark e).lockOp = none)
    (he' : (mark e').needs = some l) :
    ∃ m₁ r m₂ a m₃, mid = m₁ ++ (x, r) :: (m₂ ++ (y, a) :: m₃) ∧ mark r = .release l ∧
      mark a = .acquire l := by
  have hlog' : log = (pre ++ (x, e) :: mid) ++ (y, e') :: post := by simp [hlog]
  have hrun := hgrant
  rw [owners, hlog', List.foldlM_append, Option.bind_eq_bind, Option.bind_eq_some_iff] at hrun
  obtain ⟨h₂, hmid, -⟩ := hrun
  have hy : h₂ l = some y := owner_of_needs hmid hlog' (hown y).choose_spec he'
  rw [List.foldlM_append, Option.bind_eq_bind, Option.bind_eq_some_iff] at hmid
  obtain ⟨h₁, hpre, hmid⟩ := hmid
  have hx : h₁ l = some x := owner_of_needs hpre hlog (hown x).choose_spec he
  rw [List.foldlM_cons, Option.bind_eq_bind, Option.bind_eq_some_iff] at hmid
  obtain ⟨h₁', hstep, hmid⟩ := hmid
  rw [grant_eq_of_lockOp hstep hop] at hmid
  have hleft : h₂ l ≠ some x := by
    rw [hy]
    exact fun heq => hxy (Option.some.inj heq).symm
  obtain ⟨m₁, r, rest, rfl, hr, h₃, hfree, hrest⟩ := exists_release hmid hx hleft
  obtain ⟨m₂, a, m₃, rfl, ha⟩ := exists_acquire hrest (by rw [hfree]; nofun) hy
  exact ⟨m₁, r, m₂, a, m₃, rfl, hr, ha⟩

end Ordered

end Interleaving
