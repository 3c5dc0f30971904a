import Mathlib.Data.List.Basic

/-!
# Laws of histories

A history is the list of the events of a run, oldest first. `Every P log` says that each event
was admissible after the events before it; it is built up event by event along a run and used by
splitting the finished history at any of its events.
-/

namespace Trace

variable {ε : Type*}

/-- Every event of the history is admissible after the ones before it. -/
def Every (P : List ε → ε → Prop) (log : List ε) : Prop :=
  ∀ pre e post, log = pre ++ e :: post → P pre e

theorem every_nil (P : List ε → ε → Prop) : Every P [] := by
  intro pre e post h
  simp at h

/-- An event of an extended history is the last one, or one of the history before. -/
theorem split_concat {log pre post : List ε} {x e : ε} (h : log ++ [x] = pre ++ e :: post) :
    (pre = log ∧ e = x ∧ post = []) ∨ ∃ mid, post = mid ++ [x] ∧ log = pre ++ e :: mid := by
  rcases List.eq_nil_or_concat post with rfl | ⟨mid, y, rfl⟩
  · obtain ⟨hpre, he⟩ := List.append_inj' h rfl
    exact Or.inl ⟨hpre.symm, (List.singleton_inj.mp he).symm, rfl⟩
  · have hsplit : log ++ [x] = (pre ++ e :: mid) ++ [y] := by
      simpa [List.concat_eq_append] using h
    obtain ⟨hlog, hy⟩ := List.append_inj' hsplit rfl
    rw [List.singleton_inj.mp hy]
    exact Or.inr ⟨mid, by simp, hlog⟩

/-- What an event contributes to a projection of the history comes first. -/
theorem filterMap_cons {α : Type*} (f : ε → Option α) (e : ε) (log : List ε) :
    (e :: log).filterMap f = (f e).toList ++ log.filterMap f := by
  rw [List.filterMap_cons]
  cases f e <;> rfl

/-- There is one way to split a history at the first occurrence of an event. -/
theorem first_split {pre pre' post post' : List ε} {x : ε}
    (h : pre ++ x :: post = pre' ++ x :: post') (hpre : x ∉ pre) (hpre' : x ∉ pre') :
    pre = pre' := by
  rcases List.append_eq_append_iff.mp h with ⟨mid, rfl, hmid⟩ | ⟨mid, rfl, hmid⟩
  · cases mid with
    | nil => exact (List.append_nil pre).symm
    | cons y mid =>
      obtain ⟨rfl, -⟩ := List.cons.inj hmid
      exact absurd (by simp) hpre'
  · cases mid with
    | nil => exact List.append_nil pre'
    | cons y mid =>
      obtain ⟨rfl, -⟩ := List.cons.inj hmid
      exact absurd (by simp) hpre

/-- A run extends its history at the end. -/
theorem Every.concat {P : List ε → ε → Prop} {log : List ε} (h : Every P log) {e : ε}
    (he : P log e) : Every P (log ++ [e]) := by
  intro pre e' post heq
  rcases split_concat heq with ⟨rfl, rfl, -⟩ | ⟨mid, -, hlog⟩
  · exact he
  · exact h pre e' mid hlog

/-- A run extends its history by some events. -/
theorem Every.append {P : List ε → ε → Prop} {log es : List ε} (h : Every P log)
    (hes : ∀ pre e post, es = pre ++ e :: post → P (log ++ pre) e) : Every P (log ++ es) := by
  intro pre e post heq
  rcases List.append_eq_append_iff.mp heq with ⟨mid, rfl, hmid⟩ | ⟨mid, hlog, hmid⟩
  · exact hes mid e post hmid
  · cases mid with
    | nil =>
      rw [List.append_nil] at hlog
      rw [← hlog, ← List.append_nil log]
      exact hes [] e post hmid.symm
    | cons y mid =>
      obtain ⟨rfl, -⟩ := List.cons.inj hmid
      exact h pre e mid hlog

/-- An element that occurs more than `n` times has an occurrence after exactly `n` others. -/
theorem exists_split_of_lt_count [BEq ε] [LawfulBEq ε] {x : ε} {log : List ε} {n : Nat}
    (h : n < log.count x) : ∃ pre post, log = pre ++ x :: post ∧ pre.count x = n := by
  induction log generalizing n with
  | nil => simp at h
  | cons y log ih =>
    by_cases hy : y = x
    · subst hy
      cases n with
      | zero => exact ⟨[], log, rfl, List.count_nil⟩
      | succ n =>
        rw [List.count_cons_self] at h
        obtain ⟨pre, post, rfl, hc⟩ := ih (by omega : n < log.count y)
        exact ⟨y :: pre, post, rfl, by rw [List.count_cons_self, hc]⟩
    · rw [List.count_cons_of_ne hy] at h
      obtain ⟨pre, post, rfl, hc⟩ := ih h
      exact ⟨y :: pre, post, rfl, by rw [List.count_cons_of_ne hy, hc]⟩

/-- An element no occurrence of which follows another occurs at most once. -/
theorem count_le_one_of_split [BEq ε] [LawfulBEq ε] {x : ε} {log : List ε}
    (h : ∀ pre post, log = pre ++ x :: post → x ∉ pre) : log.count x ≤ 1 := by
  by_contra hlt
  obtain ⟨pre, post, hsplit, hc⟩ := exists_split_of_lt_count (by omega : 1 < log.count x)
  exact h pre post hsplit (List.count_pos_iff.mp (by omega))

end Trace
