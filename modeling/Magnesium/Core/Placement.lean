import Mathlib.Data.List.Perm.Basic
import Mathlib.Logic.Function.Basic

/-!
# Exclusive placement

A family of lists shares one stock of nodes: each node is in at most one list, once. `loc` says
in which. The rules move one node at a time.
-/

/-- The lists hold each node exactly where `loc` says, once. -/
structure Placed {κ ν : Type*} (lists : κ → List ν) (loc : ν → Option κ) : Prop where
  nodup : ∀ k, (lists k).Nodup
  mem_iff : ∀ k x, x ∈ lists k ↔ loc x = some k

namespace Placed

variable {κ ν : Type*} {lists lists' : κ → List ν} {loc : ν → Option κ}

/-- The order of the nodes in their lists does not matter. -/
theorem perm (h : Placed lists loc) (hperm : ∀ k, (lists' k).Perm (lists k)) :
    Placed lists' loc where
  nodup k := (hperm k).nodup_iff.mpr (h.nodup k)
  mem_iff k x := (hperm k).mem_iff.trans (h.mem_iff k x)

theorem congr (h : Placed lists loc) (heq : ∀ k, lists' k = lists k) : Placed lists' loc :=
  h.perm fun k => by rw [heq]

/-- A node of one list is in no other. -/
theorem unique (h : Placed lists loc) {x : ν} {k l : κ} (hk : x ∈ lists k) (hl : x ∈ lists l) :
    k = l :=
  Option.some.inj (((h.mem_iff k x).mp hk).symm.trans ((h.mem_iff l x).mp hl))

/-- A node that stands at the end of a list was in none before it came there. -/
theorem fresh [DecidableEq κ] {j : κ} {x : ν}
    (h : Placed (Function.update lists j (lists j ++ [x])) loc) (k : κ) : x ∉ lists k := by
  have hj := Function.update_self j (lists j ++ [x]) lists
  intro hx
  by_cases hk : k = j
  · subst hk
    have hnodup := h.nodup k
    rw [hj] at hnodup
    exact (List.nodup_append.mp hnodup).2.2 x hx x List.mem_cons_self rfl
  · refine hk (h.unique (x := x) ?_ ?_)
    · rwa [Function.update_of_ne hk]
    · rw [hj]
      exact List.mem_append_right _ List.mem_cons_self

variable [DecidableEq ν]

/-- A node that is in no list enters one. -/
theorem adopt (h : Placed lists loc) {x : ν} {j : κ} (hx : loc x = none)
    (hj : (lists' j).Perm (x :: lists j)) (hrest : ∀ k, k ≠ j → lists' k = lists k) :
    Placed lists' (Function.update loc x (some j)) where
  nodup k := by
    by_cases hk : k = j
    · subst hk
      rw [hj.nodup_iff, List.nodup_cons, h.mem_iff, hx]
      exact ⟨by simp, h.nodup k⟩
    · rw [hrest k hk]
      exact h.nodup k
  mem_iff k y := by
    have hmem : y ∈ lists' k ↔ (y = x ∧ k = j) ∨ y ∈ lists k := by
      by_cases hk : k = j
      · subst hk
        rw [hj.mem_iff, List.mem_cons]
        simp
      · simp [hrest k hk, hk]
    rw [hmem, h.mem_iff]
    by_cases hy : y = x
    · subst hy
      simp [hx, eq_comm]
    · simp [hy]

/-- A node leaves its list for another one. -/
theorem move (h : Placed lists loc) {x : ν} {i j : κ} (hne : i ≠ j)
    (hi : (lists i).Perm (x :: lists' i)) (hj : (lists' j).Perm (x :: lists j))
    (hrest : ∀ k, k ≠ i → k ≠ j → lists' k = lists k) :
    Placed lists' (Function.update loc x (some j)) := by
  have hx : loc x = some i := (h.mem_iff i x).mp (hi.mem_iff.mpr List.mem_cons_self)
  have hnodup : (x :: lists' i).Nodup := hi.nodup_iff.mp (h.nodup i)
  rw [List.nodup_cons] at hnodup
  refine ⟨fun k => ?_, fun k y => ?_⟩
  · by_cases hs : k = i
    · rw [hs]
      exact hnodup.2
    by_cases hd : k = j
    · rw [hd, hj.nodup_iff, List.nodup_cons, h.mem_iff, hx]
      exact ⟨fun he => hne (Option.some.inj he), h.nodup j⟩
    · rw [hrest k hs hd]
      exact h.nodup k
  · by_cases hs : k = i
    · subst hs
      by_cases hy : y = x
      · subst hy
        simp [hnodup.1, Ne.symm hne]
      · rw [Function.update_of_ne hy, ← h.mem_iff, hi.mem_iff, List.mem_cons]
        simp [hy]
    by_cases hd : k = j
    · subst hd
      by_cases hy : y = x
      · subst hy
        simp [hj.mem_iff]
      · rw [Function.update_of_ne hy, ← h.mem_iff, hj.mem_iff, List.mem_cons]
        simp [hy]
    · rw [hrest k hs hd, h.mem_iff]
      by_cases hy : y = x
      · subst hy
        simp [hx, Ne.symm hs, Ne.symm hd]
      · rw [Function.update_of_ne hy]

end Placed
