import Mathlib.Data.List.Nodup

/-!
# Structured statements

Statements over arbitrary atoms and conditions. A run keeps the stack of what is left to do, and a
statement may also be entered at a label inside: what is left to do then is what follows the label,
in all the loops around it.
-/

namespace Structured

variable {A B C L : Type}

inductive Stmt (A C : Type) where
  | skip
  | atom (a : A)
  | seq (s t : Stmt A C)
  | ite (c : C) (s t : Stmt A C)
  /-- `while (c) s`. -/
  | loop (c : C) (s : Stmt A C)
  | brk
  | cont

inductive Frame (A C : Type) where
  | todo (s : Stmt A C)
  /-- The next test of a loop. -/
  | again (c : C) (s : Stmt A C)

/-- What is left to do, the innermost statement first. -/
abbrev Stack (A C : Type) := List (Frame A C)

/-- After `break`. -/
def afterBreak : Stack A C → Stack A C
  | [] => []
  | .todo _ :: k => afterBreak k
  | .again _ _ :: k => k

/-- After `continue`. -/
def afterContinue : Stack A C → Stack A C
  | [] => []
  | .todo _ :: k => afterContinue k
  | .again c s :: k => .again c s :: k

/-- What a run does next. -/
inductive Next (A C : Type) where
  | done
  | move (k : Stack A C)
  | test (c : C) (k k' : Stack A C)
  | atom (a : A) (k : Stack A C)

def next : Stack A C → Next A C
  | [] => .done
  | .todo .skip :: k => .move k
  | .todo (.atom a) :: k => .atom a k
  | .todo (.seq s t) :: k => .move (.todo s :: .todo t :: k)
  | .todo (.ite c s t) :: k => .test c (.todo s :: k) (.todo t :: k)
  | .todo (.loop c s) :: k => .move (.again c s :: k)
  | .todo .brk :: k => .move (afterBreak k)
  | .todo .cont :: k => .move (afterContinue k)
  | .again c s :: k => .test c (.todo s :: .again c s :: k) k

section Subst

/-- Replace every atom by a statement. -/
def Stmt.subst (f : A → Stmt B C) : Stmt A C → Stmt B C
  | .skip => .skip
  | .atom a => f a
  | .seq s t => .seq (s.subst f) (t.subst f)
  | .ite c s t => .ite c (s.subst f) (t.subst f)
  | .loop c s => .loop c (s.subst f)
  | .brk => .brk
  | .cont => .cont

def Frame.subst (f : A → Stmt B C) : Frame A C → Frame B C
  | .todo s => .todo (s.subst f)
  | .again c s => .again c (s.subst f)

variable (f : A → Stmt B C)

theorem map_afterBreak (k : Stack A C) :
    (afterBreak k).map (Frame.subst f) = afterBreak (k.map (Frame.subst f)) := by
  induction k with
  | nil => rfl
  | cons frame k ih =>
    cases frame with
    | todo s => exact ih
    | again c s => rfl

theorem map_afterContinue (k : Stack A C) :
    (afterContinue k).map (Frame.subst f) = afterContinue (k.map (Frame.subst f)) := by
  induction k with
  | nil => rfl
  | cons frame k ih =>
    cases frame with
    | todo s => exact ih
    | again c s => rfl

/-- Only atoms are run differently after a substitution. -/
theorem next_map_subst (k : Stack A C) :
    match next k with
    | .done => next (k.map (Frame.subst f)) = .done
    | .move k₁ => next (k.map (Frame.subst f)) = .move (k₁.map (Frame.subst f))
    | .test c k₁ k₂ =>
      next (k.map (Frame.subst f)) = .test c (k₁.map (Frame.subst f)) (k₂.map (Frame.subst f))
    | .atom a k₁ => k.map (Frame.subst f) = .todo (f a) :: k₁.map (Frame.subst f) := by
  cases k with
  | nil => rfl
  | cons frame k =>
    cases frame with
    | todo s =>
      cases s with
      | brk => exact congrArg Next.move (map_afterBreak f k).symm
      | cont => exact congrArg Next.move (map_afterContinue f k).symm
      | _ => rfl
    | again c s => rfl

end Subst

section Labels

variable (label : A → Option L)

/-- The labels in a statement, with what is left to do from each. -/
def Stmt.entries : Stmt A C → Stack A C → List (L × Stack A C)
  | .atom a, k => (label a).toList.map fun l => (l, k)
  | .seq s t, k => s.entries (.todo t :: k) ++ t.entries k
  | .ite _ s t, k => s.entries k ++ t.entries k
  | .loop c s, k => s.entries (.again c s :: k)
  | _, _ => []

/-- The labels in what is left to do. -/
def entries : Stack A C → List (L × Stack A C)
  | [] => []
  | .todo s :: k => s.entries label k ++ entries k
  | .again c s :: k => s.entries label (.again c s :: k) ++ entries k

/-- The labels in a statement. -/
def Stmt.labels (s : Stmt A C) : List L := (s.entries label []).map Prod.fst

/-- What is left to do from a label: `switch` jumps to it. -/
def Stmt.enter [BEq L] (s : Stmt A C) (l : L) : Option (Stack A C) :=
  (s.entries label []).lookup l

variable {label}

/-- The labels after a substitution that puts each atom's label at the end of its statement. -/
theorem Stmt.entries_subst {label' : B → Option L} {f : A → Stmt B C}
    (hf : ∀ a (k : Stack B C), (f a).entries label' k = (label a).toList.map fun l => (l, k))
    (s : Stmt A C) (k : Stack A C) :
    (s.subst f).entries label' (k.map (Frame.subst f)) =
      (s.entries label k).map (Prod.map id (List.map (Frame.subst f))) := by
  induction s generalizing k with
  | atom a => simp [Stmt.subst, hf, Stmt.entries]
  | seq s t ihs iht =>
    rw [Stmt.entries, List.map_append, ← ihs, ← iht]
    rfl
  | ite c s t ihs iht =>
    rw [Stmt.entries, List.map_append, ← ihs, ← iht]
    rfl
  | loop c s ih =>
    rw [Stmt.entries, ← ih]
    rfl
  | _ => rfl

/-- Distinct labels are entered where they are. -/
theorem Stmt.enter_of_mem [BEq L] [LawfulBEq L] {s : Stmt A C} {k : Stack A C} {l : L}
    (hnodup : (s.labels label).Nodup) (hmem : (l, k) ∈ s.entries label []) :
    s.enter label l = some k := by
  obtain ⟨es, es', heq⟩ := List.append_of_mem hmem
  refine List.lookup_eq_some_iff.mpr ⟨es, es', heq, fun e he => ?_⟩
  rw [Stmt.labels, heq, List.map_append, List.map_cons] at hnodup
  have hdisjoint := List.nodup_append.mp hnodup
  exact bne_iff_ne.mpr
    (hdisjoint.2.2 e.1 (List.mem_map_of_mem he) l List.mem_cons_self).symm

theorem entries_afterBreak (k : Stack A C) : entries label (afterBreak k) ⊆ entries label k := by
  induction k with
  | nil => exact List.Subset.refl _
  | cons frame k ih =>
    cases frame with
    | todo s => exact List.subset_append_of_subset_right _ ih
    | again c s => exact List.subset_append_right _ _

theorem entries_afterContinue (k : Stack A C) :
    entries label (afterContinue k) ⊆ entries label k := by
  induction k with
  | nil => exact List.Subset.refl _
  | cons frame k ih =>
    cases frame with
    | todo s => exact List.subset_append_of_subset_right _ ih
    | again c s => exact List.Subset.refl _

/-- A run only goes on to what a label of its stack could be entered for. -/
theorem entries_next (k : Stack A C) :
    match next k with
    | .done => True
    | .move k₁ => entries label k₁ ⊆ entries label k
    | .test _ k₁ k₂ => entries label k₁ ⊆ entries label k ∧ entries label k₂ ⊆ entries label k
    | .atom a k₁ => entries label k₁ ⊆ entries label k ∧
      ∀ l, label a = some l → (l, k₁) ∈ entries label k := by
  cases k with
  | nil => trivial
  | cons frame k =>
    cases frame with
    | todo s =>
      cases s with
      | skip => exact List.Subset.refl _
      | atom a =>
        refine ⟨List.subset_append_right _ _, fun l hl => ?_⟩
        simp [entries, Stmt.entries, hl]
      | seq s t => simp [next, entries, Stmt.entries]
      | ite c s t => simp [next, entries, Stmt.entries]
      | loop c s => simp [next, entries, Stmt.entries]
      | brk => exact entries_afterBreak k
      | cont => exact entries_afterContinue k
    | again c s => simp [next, entries]

end Labels

end Structured
