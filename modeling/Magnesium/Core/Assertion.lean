import Magnesium.Core.Procedure

/-!
# Assertions about programs

A world may answer an access in several ways. The weakest liberal precondition of a program says
what has to hold at its start: then an invariant holds at every point of every run, each call
meets the contract of its procedure, and an assertion holds at the return. One step of a program
keeps it, and so does a run.
-/

namespace Procedure

/-- A world: the answers to an access, each with the state after it. -/
abbrev World (I : Interface) (W : Type) := W → (e : I.Access) → I.Answer e → W → Prop

/-- What each procedure needs at its call, and leaves at its return. -/
structure Spec (I : Interface) (W : Type) where
  pre : I.Proc → W → Prop
  post : (f : I.Proc) → W → I.Result f → W → Prop

variable {I : Interface} {α β W : Type}

/-- The weakest liberal precondition of a program for the assertion `Q` and the invariant `J`. -/
def Prog.wlp (world : World I W) (C : Spec I W) (J : W → Prop) :
    Prog I α → (α → W → Prop) → W → Prop
  | .ret a, Q, w => J w ∧ Q a w
  | .access e next, Q, w => J w ∧ ∀ r w', world w e r w' → (next r).wlp world C J Q w'
  | .call f next, Q, w =>
    J w ∧ C.pre f w ∧ ∀ b w', C.post f w b w' → (next b).wlp world C J Q w'
  | .abort, _, w => J w

/-- A part of a run. A call goes on with the body of its procedure. -/
inductive Steps (body : (f : I.Proc) → Prog I (I.Result f)) (world : World I W) :
    Prog I α → W → Prog I α → W → Prop
  | refl (p : Prog I α) (w : W) : Steps body world p w p w
  | access {e : I.Access} {next : I.Answer e → Prog I α} {r : I.Answer e} {w w₁ w' : W}
      {p : Prog I α} : world w e r w₁ → Steps body world (next r) w₁ p w' →
      Steps body world (.access e next) w p w'
  | call {f : I.Proc} {next : I.Result f → Prog I α} {w w' : W} {p : Prog I α} :
      Steps body world (body f >>= next) w p w' → Steps body world (.call f next) w p w'

/-- Every procedure keeps the invariant and its contract. -/
def Spec.Holds (body : (f : I.Proc) → Prog I (I.Result f)) (world : World I W) (C : Spec I W)
    (J : W → Prop) : Prop :=
  ∀ f w, J w → C.pre f w → (body f).wlp world C J (C.post f w) w

/-- What is left of the program makes only such accesses, and does not stop. -/
def Prog.Only (E : I.Access → Prop) : Prog I α → Prop
  | .ret _ => True
  | .access e next => E e ∧ ∀ r, (next r).Only E
  | .call _ next => ∀ b, (next b).Only E
  | .abort => False

theorem Prog.Only.bind {E : I.Access → Prop} {p : Prog I α} {g : α → Prog I β} (h : p.Only E)
    (hg : ∀ a, (g a).Only E) : (p >>= g).Only E := by
  induction p with
  | ret a => exact hg a
  | access e next ih => exact ⟨h.1, fun r => ih r (h.2 r)⟩
  | call f next ih => exact fun b => ih b (h b)
  | abort => exact h

/-- A run makes only such accesses if the procedures do. -/
theorem Prog.Only.steps {E : I.Access → Prop} {body : (f : I.Proc) → Prog I (I.Result f)}
    {world : World I W} {p p' : Prog I α} {w w' : W} (hbody : ∀ f, (body f).Only E)
    (h : p.Only E) (hs : Steps body world p w p' w') : p'.Only E := by
  induction hs with
  | refl => exact h
  | access _ _ ih => exact ih (h.2 _)
  | @call f next _ _ _ _ ih => exact ih ((hbody f).bind h)

section Wlp

variable {world : World I W} {C : Spec I W} {J : W → Prop} {w w' : W} {p p' : Prog I α}
  {Q Q' : α → W → Prop} {body : (f : I.Proc) → Prog I (I.Result f)}

theorem Prog.wlp_inv (h : p.wlp world C J Q w) : J w := by
  cases p with
  | ret a => exact h.1
  | access e next => exact h.1
  | call f next => exact h.1
  | abort => exact h

@[simp] theorem Prog.wlp_pure (a : α) : (pure a : Prog I α).wlp world C J Q w ↔ J w ∧ Q a w :=
  Iff.rfl

theorem Prog.wlp_bind (p : Prog I α) (g : α → Prog I β) {Q : β → W → Prop} :
    (p >>= g).wlp world C J Q w ↔ p.wlp world C J (fun a => (g a).wlp world C J Q) w := by
  induction p generalizing w with
  | ret a => exact ⟨fun h => ⟨Prog.wlp_inv h, h⟩, fun h => h.2⟩
  | access e next ih =>
    refine and_congr_right fun _ => forall_congr' fun r => forall_congr' fun w' => ?_
    exact imp_congr_right fun _ => ih r
  | call f next ih =>
    refine and_congr_right fun _ => and_congr_right fun _ => ?_
    refine forall_congr' fun b => forall_congr' fun w' => ?_
    exact imp_congr_right fun _ => ih b
  | abort => rfl

theorem Prog.wlp_mono (h : p.wlp world C J Q w) (hQ : ∀ a w, J w → Q a w → Q' a w) :
    p.wlp world C J Q' w := by
  induction p generalizing w with
  | ret a => exact ⟨h.1, hQ a w h.1 h.2⟩
  | access e next ih => exact ⟨h.1, fun r w' hw => ih r (h.2 r w' hw)⟩
  | call f next ih => exact ⟨h.1, h.2.1, fun b w' hb => ih b (h.2.2 b w' hb)⟩
  | abort => exact h

/-- A run keeps the weakest liberal precondition of what is left of the program. -/
theorem Prog.wlp_steps (hC : C.Holds body world J) (h : p.wlp world C J Q w)
    (hs : Steps body world p w p' w') : p'.wlp world C J Q w' := by
  induction hs with
  | refl => exact h
  | access hw _ ih => exact ih (h.2 _ _ hw)
  | @call f next w w' p _ ih =>
    apply ih
    rw [Prog.wlp_bind]
    exact Prog.wlp_mono (hC f w h.1 h.2.1) fun b w' _ hb => h.2.2 b w' hb

/-- The invariant holds at every point of a run, and the assertion at its end. -/
theorem Spec.Holds.sound (hC : C.Holds body world J) (h : p.wlp world C J Q w)
    (hs : Steps body world p w p' w') : J w' ∧ ∀ a, p' = .ret a → Q a w' := by
  have hp := Prog.wlp_steps hC h hs
  refine ⟨Prog.wlp_inv hp, ?_⟩
  rintro a rfl
  exact hp.2

end Wlp

end Procedure
