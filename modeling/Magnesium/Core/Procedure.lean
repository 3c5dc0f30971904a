import Mathlib.Data.List.Basic

/-!
# Programs of recursive procedures

A program makes accesses, each with an answer, and calls procedures; a loop is a procedure that
calls itself. The world that answers is arbitrary: what holds in every world holds whatever the
memory contains, and whatever others do to it between two accesses. A monitor reads the accesses
of a run one by one and may reject one; `wp` reduces that it never does to one condition on the
body of each procedure.
-/

namespace Procedure

/-- The accesses and the procedures of a program, with the types of their results. -/
structure Interface where
  Access : Type
  Answer : Access → Type
  Proc : Type
  Result : Proc → Type

/-- A program with a result in `α`. -/
inductive Prog (I : Interface) (α : Type) where
  | ret (a : α)
  | access (e : I.Access) (next : I.Answer e → Prog I α)
  | call (f : I.Proc) (next : I.Result f → Prog I α)
  /-- The program does not go on. -/
  | abort

variable {I : Interface} {α β σ W : Type}

namespace Prog

/-- One program after the other. -/
def bind : Prog I α → (α → Prog I β) → Prog I β
  | .ret a, g => g a
  | .access e next, g => .access e fun r => (next r).bind g
  | .call f next, g => .call f fun b => (next b).bind g
  | .abort, _ => .abort

instance : Monad (Prog I) where
  pure := .ret
  bind := .bind

/-- A sequence of three programs has no brackets. -/
theorem bind_assoc {γ : Type} (p : Prog I α) (g : α → Prog I β) (k : β → Prog I γ) :
    p >>= g >>= k = p >>= fun a => g a >>= k := by
  induction p with
  | ret a => rfl
  | access e next ih => exact congrArg (Prog.access e) (funext ih)
  | call f next ih => exact congrArg (Prog.call f) (funext ih)
  | abort => rfl

@[simp] theorem bind_pure_unit (p : Prog I Unit) : (p >>= fun _ => pure ()) = p := by
  induction p with
  | ret a => rfl
  | access e next ih => exact congrArg (Prog.access e) (funext ih)
  | call f next ih => exact congrArg (Prog.call f) (funext ih)
  | abort => rfl

@[simp] theorem pure_bind (a : α) (g : α → Prog I β) : (pure a : Prog I α) >>= g = g a := rfl

/-- One access. -/
def perform (e : I.Access) : Prog I (I.Answer e) := .access e .ret

/-- One call. -/
def invoke (f : I.Proc) : Prog I (I.Result f) := .call f .ret

/-- The program goes on only if the condition holds. -/
def check (p : Prop) [Decidable p] : Prog I Unit := if p then .ret () else .abort

/-- A program that goes on only with a value. -/
def ofOption : Option α → Prog I α
  | some a => .ret a
  | none => .abort

end Prog

/-- Run a program in a world with states `W`: the accesses, the last state, and the result if the
program has returned. The fuel bounds how deep the run goes. -/
def exec (body : (f : I.Proc) → Prog I (I.Result f))
    (world : W → (e : I.Access) → I.Answer e × W) :
    Nat → W → {α : Type} → Prog I α → List I.Access × W × Option α
  | 0, w, _, _ => ([], w, none)
  | _ + 1, w, _, .ret a => ([], w, some a)
  | n + 1, w, _, .access e next =>
    let (r, w) := world w e
    let (log, w, out) := exec body world n w (next r)
    (e :: log, w, out)
  | n + 1, w, _, .call f next =>
    match exec body world n w (body f) with
    | (log, w, some b) =>
      let (rest, w, out) := exec body world n w (next b)
      (log ++ rest, w, out)
    | (log, w, none) => (log, w, none)
  | _ + 1, w, _, .abort => ([], w, none)

/-- What a procedure needs of the monitor's state at its call, and leaves at its return. -/
structure Contract (I : Interface) (σ : Type) where
  pre : I.Proc → σ → Prop
  post : (f : I.Proc) → I.Result f → σ → Prop

/-- The weakest precondition of a program: the monitor rejects no access, calls meet their
contracts, and `Q` holds at the return. -/
def Prog.wp (step : σ → I.Access → Option σ) (C : Contract I σ) :
    Prog I α → (α → σ → Prop) → σ → Prop
  | .ret a, Q, s => Q a s
  | .access e next, Q, s => ∃ s', step s e = some s' ∧ ∀ r, (next r).wp step C Q s'
  | .call f next, Q, s => C.pre f s ∧ ∀ b s', C.post f b s' → (next b).wp step C Q s'
  | .abort, _, _ => True

section Wp

variable {step : σ → I.Access → Option σ} {C : Contract I σ} {Q : α → σ → Prop} {s : σ}

/-- A program that returns leaves the monitor as it is. -/
@[simp] theorem Prog.wp_pure (a : α) : (pure a : Prog I α).wp step C Q s ↔ Q a s := Iff.rfl

/-- A sequence meets what its first part leaves for the second one. -/
@[simp] theorem Prog.wp_bind (p : Prog I α) (g : α → Prog I β) {Q : β → σ → Prop} :
    (p >>= g).wp step C Q s ↔ p.wp step C (fun a => (g a).wp step C Q) s := by
  induction p generalizing s with
  | ret a => rfl
  | access e next ih =>
    constructor
    · rintro ⟨s', hstep, hnext⟩
      exact ⟨s', hstep, fun r => (ih r).mp (hnext r)⟩
    · rintro ⟨s', hstep, hnext⟩
      exact ⟨s', hstep, fun r => (ih r).mpr (hnext r)⟩
  | call f next ih =>
    constructor
    · rintro ⟨hpre, hnext⟩
      exact ⟨hpre, fun b s' hpost => (ih b).mp (hnext b s' hpost)⟩
    · rintro ⟨hpre, hnext⟩
      exact ⟨hpre, fun b s' hpost => (ih b).mpr (hnext b s' hpost)⟩
  | abort => rfl

/-- An access has to be accepted, and may have any answer. -/
@[simp] theorem Prog.wp_perform (e : I.Access) {Q : I.Answer e → σ → Prop} :
    (perform e).wp step C Q s ↔ ∃ s', step s e = some s' ∧ ∀ r, Q r s' := Iff.rfl

/-- A call relies on the contract of the procedure alone. -/
@[simp] theorem Prog.wp_invoke (f : I.Proc) {Q : I.Result f → σ → Prop} :
    (invoke f).wp step C Q s ↔ C.pre f s ∧ ∀ b s', C.post f b s' → Q b s' := Iff.rfl

/-- What follows a check may assume its condition. -/
@[simp] theorem Prog.wp_check (p : Prop) [Decidable p] {Q : Unit → σ → Prop} :
    (check p : Prog I Unit).wp step C Q s ↔ (p → Q () s) := by
  unfold check
  split
  · rename_i hp
    exact ⟨fun h _ => h, fun h => h hp⟩
  · rename_i hp
    exact ⟨fun _ h => absurd h hp, fun _ => trivial⟩

@[simp] theorem Prog.wp_ofOption (o : Option α) :
    (ofOption o : Prog I α).wp step C Q s ↔ ∀ a, o = some a → Q a s := by
  cases o with
  | some a =>
    constructor
    · rintro h b ⟨⟩
      exact h
    · intro h
      exact h a rfl
  | none =>
    constructor
    · rintro - a ⟨⟩
    · intro _
      trivial

/-- A weaker condition at the return. -/
theorem Prog.wp_mono {p : Prog I α} {Q' : α → σ → Prop} (h : p.wp step C Q s)
    (hQ : ∀ a s, Q a s → Q' a s) : p.wp step C Q' s := by
  induction p generalizing s with
  | ret a => exact hQ a s h
  | access e next ih =>
    obtain ⟨s', hstep, hnext⟩ := h
    exact ⟨s', hstep, fun r => ih r (hnext r)⟩
  | call f next ih =>
    obtain ⟨hpre, hnext⟩ := h
    exact ⟨hpre, fun b s' hpost => ih b (hnext b s' hpost)⟩
  | abort => trivial

/-- If the body of each procedure meets its contract, the monitor rejects no run of a program that
meets its own, whatever the world. -/
theorem Contract.sound {body : (f : I.Proc) → Prog I (I.Result f)}
    (hbody : ∀ f s, C.pre f s → (body f).wp step C (C.post f) s)
    (world : W → (e : I.Access) → I.Answer e × W) (n : Nat) (w : W) {p : Prog I α}
    (hp : p.wp step C Q s) :
    ∃ s', (exec body world n w p).1.foldlM step s = some s' ∧
      ∀ a, (exec body world n w p).2.2 = some a → Q a s' := by
  induction n generalizing w α s with
  | zero => exact ⟨s, rfl, fun a ha => by cases ha⟩
  | succ n ih =>
    cases p with
    | ret a => exact ⟨s, rfl, fun b hb => Option.some.inj hb ▸ hp⟩
    | access e next =>
      obtain ⟨s₁, hstep, hnext⟩ := hp
      obtain ⟨s₂, hrun, hout⟩ := ih (world w e).2 (hnext (world w e).1)
      refine ⟨s₂, ?_, hout⟩
      simpa [exec, hstep] using hrun
    | call f next =>
      obtain ⟨hpre, hnext⟩ := hp
      obtain ⟨s₁, hrun, hout⟩ := ih w (hbody f s hpre)
      rw [exec]
      split
      · rename_i log w₁ b heq
        rw [heq] at hrun hout
        obtain ⟨s₂, hrest, hlast⟩ := ih w₁ (hnext b s₁ (hout b rfl))
        refine ⟨s₂, ?_, hlast⟩
        simpa [List.foldlM_append, hrun] using hrest
      · rename_i log w₁ heq
        rw [heq] at hrun
        exact ⟨s₁, hrun, fun a ha => by cases ha⟩
    | abort => exact ⟨s, rfl, fun a ha => by cases ha⟩

end Wp

section Returns

variable {body : (f : I.Proc) → Prog I (I.Result f)}
  {world : W → (e : I.Access) → I.Answer e × W} {w w' : W} {n : Nat} {log : List I.Access} {a : α}

/-- A run that begins with an access, one step of fuel later. -/
theorem exec_access {e : I.Access} {next : I.Answer e → Prog I α} :
    exec body world (n + 1) w (.access e next) = (log, w', some a) ↔
      ∃ rest, exec body world n (world w e).2 (next (world w e).1) = (rest, w', some a) ∧
        log = e :: rest := by
  rw [exec]
  constructor
  · intro h
    obtain ⟨hlog, hlast⟩ := Prod.mk.inj h
    exact ⟨_, Prod.ext rfl hlast, hlog.symm⟩
  · rintro ⟨rest, hrest, rfl⟩
    simp only [hrest]

/-- A run that begins with a call is the run of the body and then that of the rest. -/
theorem exec_call {f : I.Proc} {next : I.Result f → Prog I α} :
    exec body world (n + 1) w (.call f next) = (log, w', some a) ↔
      ∃ first w₁ b rest, exec body world n w (body f) = (first, w₁, some b) ∧
        exec body world n w₁ (next b) = (rest, w', some a) ∧ log = first ++ rest := by
  rw [exec]
  constructor
  · intro h
    split at h
    · rename_i first w₁ b hfirst
      obtain ⟨hlog, hlast⟩ := Prod.mk.inj h
      exact ⟨first, w₁, b, _, hfirst, Prod.ext rfl hlast, hlog.symm⟩
    · cases h
  · rintro ⟨first, w₁, b, rest, hfirst, hrest, rfl⟩
    rw [hfirst]
    simp only [hrest]

/-- A program that returns returns the same with more fuel. -/
theorem exec_mono {p : Prog I α} (h : exec body world n w p = (log, w', some a)) (k : Nat) :
    exec body world (n + k) w p = (log, w', some a) := by
  induction n generalizing w w' α log with
  | zero => cases h
  | succ n ih =>
    rw [Nat.add_right_comm]
    cases p with
    | ret b => exact h
    | access e next =>
      obtain ⟨rest, hrest, hlog⟩ := exec_access.mp h
      exact exec_access.mpr ⟨rest, ih hrest, hlog⟩
    | call f next =>
      obtain ⟨first, w₁, b, rest, hfirst, hrest, hlog⟩ := exec_call.mp h
      exact exec_call.mpr ⟨first, w₁, b, rest, ih hfirst, ih hrest, hlog⟩
    | abort => cases h

/-- The program returns, and leaves the world in a state. -/
def Returns (body : (f : I.Proc) → Prog I (I.Result f))
    (world : W → (e : I.Access) → I.Answer e × W) (p : Prog I α) (w : W) (a : α) (w' : W) : Prop :=
  ∃ n log, exec body world n w p = (log, w', some a)

@[simp] theorem returns_pure {b : α} :
    Returns body world (pure a) w b w' ↔ b = a ∧ w' = w := by
  constructor
  · rintro ⟨n, log, h⟩
    cases n with
    | zero => cases h
    | succ n =>
      cases h
      exact ⟨rfl, rfl⟩
  · rintro ⟨rfl, rfl⟩
    exact ⟨1, [], rfl⟩

/-- The world answers the access, and the rest returns. -/
theorem returns_access {e : I.Access} {next : I.Answer e → Prog I α} :
    Returns body world (.access e next) w a w' ↔
      Returns body world (next (world w e).1) (world w e).2 a w' := by
  constructor
  · rintro ⟨n, log, h⟩
    cases n with
    | zero => cases h
    | succ n =>
      obtain ⟨rest, hrest, -⟩ := exec_access.mp h
      exact ⟨n, rest, hrest⟩
  · rintro ⟨n, rest, hrest⟩
    exact ⟨n + 1, e :: rest, exec_access.mpr ⟨rest, hrest, rfl⟩⟩

/-- The body of the procedure returns, and then the rest does. -/
theorem returns_call {f : I.Proc} {next : I.Result f → Prog I α} :
    Returns body world (.call f next) w a w' ↔
      ∃ b w₁, Returns body world (body f) w b w₁ ∧ Returns body world (next b) w₁ a w' := by
  constructor
  · rintro ⟨n, log, h⟩
    cases n with
    | zero => cases h
    | succ n =>
      obtain ⟨first, w₁, b, rest, hfirst, hrest, -⟩ := exec_call.mp h
      exact ⟨b, w₁, ⟨n, first, hfirst⟩, n, rest, hrest⟩
  · rintro ⟨b, w₁, ⟨n, first, hfirst⟩, m, rest, hrest⟩
    refine ⟨n + m + 1, first ++ rest, exec_call.mpr ⟨first, w₁, b, rest, ?_, ?_, rfl⟩⟩
    · exact exec_mono hfirst m
    · rw [Nat.add_comm n m]
      exact exec_mono hrest n

/-- A program that has stopped does not return. -/
theorem not_returns_abort : ¬ Returns body world (.abort : Prog I α) w a w' := by
  rintro ⟨n, log, h⟩
  cases n <;> cases h

/-- Both parts of a sequence return, the second one in the world the first one leaves. -/
@[simp] theorem returns_bind {p : Prog I α} {g : α → Prog I β} {b : β} :
    Returns body world (p >>= g) w b w' ↔
      ∃ a w₁, Returns body world p w a w₁ ∧ Returns body world (g a) w₁ b w' := by
  induction p generalizing w with
  | ret a =>
    constructor
    · intro h
      exact ⟨a, w, returns_pure.mpr ⟨rfl, rfl⟩, h⟩
    · rintro ⟨_, _, ha, h⟩
      obtain ⟨rfl, rfl⟩ := returns_pure.mp ha
      exact h
  | access e next ih =>
    simp only [returns_access]
    exact returns_access.trans (ih _)
  | call f next ih =>
    simp only [returns_call]
    refine returns_call.trans ?_
    constructor
    · rintro ⟨c, w₁, hc, h⟩
      obtain ⟨a, w₂, ha, hb⟩ := (ih c).mp h
      exact ⟨a, w₂, ⟨c, w₁, hc, ha⟩, hb⟩
    · rintro ⟨a, w₂, ⟨c, w₁, hc, ha⟩, hb⟩
      exact ⟨c, w₁, hc, (ih c).mpr ⟨a, w₂, ha, hb⟩⟩
  | abort =>
    constructor
    · intro h
      exact absurd h not_returns_abort
    · rintro ⟨a, w₁, h, -⟩
      exact absurd h not_returns_abort

@[simp] theorem returns_perform {e : I.Access} {r : I.Answer e} :
    Returns body world (Prog.perform e) w r w' ↔ r = (world w e).1 ∧ w' = (world w e).2 :=
  returns_access.trans returns_pure

/-- A call returns what the body of its procedure returns. -/
@[simp] theorem returns_invoke {f : I.Proc} {b : I.Result f} :
    Returns body world (Prog.invoke f) w b w' ↔ Returns body world (body f) w b w' := by
  refine returns_call.trans ⟨?_, fun h => ⟨b, w', h, returns_pure.mpr ⟨rfl, rfl⟩⟩⟩
  rintro ⟨c, w₁, hc, h⟩
  obtain ⟨rfl, rfl⟩ := returns_pure.mp h
  exact hc

/-- A check returns exactly if its condition holds. -/
@[simp] theorem returns_check {p : Prop} [Decidable p] :
    Returns body world (Prog.check p) w () w' ↔ p ∧ w' = w := by
  unfold Prog.check
  split
  · rename_i hp
    exact returns_pure.trans ⟨fun h => ⟨hp, h.2⟩, fun h => ⟨rfl, h.2⟩⟩
  · rename_i hp
    exact ⟨fun h => absurd h not_returns_abort, fun h => absurd h.1 hp⟩

@[simp] theorem returns_ofOption {o : Option α} :
    Returns body world (Prog.ofOption o) w a w' ↔ o = some a ∧ w' = w := by
  cases o with
  | some b =>
    refine returns_pure.trans ⟨fun h => ⟨congrArg some h.1.symm, h.2⟩, fun h => ⟨?_, h.2⟩⟩
    exact (Option.some.inj h.1).symm
  | none => exact ⟨fun h => absurd h not_returns_abort, fun h => by cases h.1⟩

end Returns

section Reaches

variable {body : (f : I.Proc) → Prog I (I.Result f)}
  {world : W → (e : I.Access) → I.Answer e × W} {w w' w'' : W} {log log' : List I.Access}

/-- A part of a run: the accesses made, and what is left of the program then. A call goes on with
the body of its procedure. -/
inductive Reaches (body : (f : I.Proc) → Prog I (I.Result f))
    (world : W → (e : I.Access) → I.Answer e × W) :
    Prog I α → W → List I.Access → Prog I α → W → Prop
  | refl (p : Prog I α) (w : W) : Reaches body world p w [] p w
  | access {e : I.Access} {next : I.Answer e → Prog I α} {w w' : W} {log : List I.Access}
      {p : Prog I α} : Reaches body world (next (world w e).1) (world w e).2 log p w' →
      Reaches body world (.access e next) w (e :: log) p w'
  | call {f : I.Proc} {next : I.Result f → Prog I α} {w w' : W} {log : List I.Access}
      {p : Prog I α} : Reaches body world (body f >>= next) w log p w' →
      Reaches body world (.call f next) w log p w'

/-- Parts of a run one after another. -/
theorem Reaches.trans {p p' p'' : Prog I α} (h : Reaches body world p w log p' w')
    (h' : Reaches body world p' w' log' p'' w'') :
    Reaches body world p w (log ++ log') p'' w'' := by
  induction h with
  | refl => exact h'
  | access _ ih => exact .access (ih h')
  | call _ ih => exact .call (ih h')

/-- A program that returns reaches what follows it. -/
theorem reaches_of_exec {n : Nat} {p : Prog I α} {a : α}
    (h : exec body world n w p = (log, w', some a)) (k : α → Prog I β) :
    Reaches body world (p >>= k) w log (k a) w' := by
  induction n generalizing α w w' log with
  | zero => cases h
  | succ n ih =>
    cases p with
    | ret b =>
      cases h
      exact .refl _ _
    | access e next =>
      obtain ⟨rest, hrest, rfl⟩ := exec_access.mp h
      exact .access (ih hrest k)
    | call f next =>
      obtain ⟨first, w₁, b, rest, hfirst, hrest, rfl⟩ := exec_call.mp h
      have hbody := ih hfirst fun b => next b >>= k
      exact .call (hbody.trans (ih hrest k))
    | abort => cases h

end Reaches

end Procedure
