import Mathlib.Data.List.Nodup
import Mathlib.Logic.Function.Basic
import Mathlib.Logic.Relation

/-!
# Singly linked chains

A heap of nodes with one outgoing link each, over any type of pointers. `Visits next p ps` says
that following the links from `p` one visits the nodes `ps` and comes to a null link. The chain of
a pointer is unique, so a chain that ends has no cycle; a write to a node outside of a chain leaves
the chain alone.
-/

namespace LinkedChain

variable {π : Type*}

/-- From `p` the links lead through `ps` to a null link. -/
def Visits (next : π → Option π) (p : π) : List π → Prop
  | [] => next p = none
  | q :: ps => next p = some q ∧ Visits next q ps

variable {next : π → Option π} {p : π} {ps : List π}

@[simp] theorem visits_nil : Visits next p [] ↔ next p = none := Iff.rfl

@[simp] theorem visits_cons {q : π} :
    Visits next p (q :: ps) ↔ next p = some q ∧ Visits next q ps :=
  Iff.rfl

/-- The links determine the chain. -/
theorem Visits.unique {qs : List π} (h : Visits next p ps) (h' : Visits next p qs) : ps = qs := by
  induction ps generalizing p qs with
  | nil =>
    cases qs with
    | nil => rfl
    | cons q qs => simp [visits_nil.mp h] at h'
  | cons q ps ih =>
    cases qs with
    | nil => simp [visits_nil.mp h'] at h
    | cons q' qs =>
      obtain ⟨hq, h⟩ := h
      obtain ⟨hq', h'⟩ := h'
      obtain rfl : q = q' := Option.some.inj (hq.symm.trans hq')
      rw [ih h h']

/-- The rest of a chain is the chain of each node on it. -/
theorem Visits.suffix {pre post : List π} {q : π} (h : Visits next p (pre ++ q :: post)) :
    Visits next q post := by
  induction pre generalizing p with
  | nil => exact h.2
  | cons r pre ih => exact ih h.2

/-- A chain that ends passes no node twice. -/
theorem Visits.nodup (h : Visits next p ps) : (p :: ps).Nodup := by
  induction ps generalizing p with
  | nil => exact List.nodup_singleton p
  | cons q ps ih =>
    refine List.nodup_cons.mpr ⟨fun hp => ?_, ih h.2⟩
    obtain ⟨pre, post, hsplit⟩ := List.append_of_mem hp
    -- the chain of `p` would be its own proper suffix
    have hchain : Visits next p (pre ++ p :: post) := hsplit ▸ h
    have hself : q :: ps = post := h.unique hchain.suffix
    have hlen := congrArg List.length hsplit
    rw [← hself] at hlen
    simp only [List.length_append, List.length_cons] at hlen
    omega

/-- The nodes on a chain are the ones its links lead to. -/
theorem Visits.mem_iff (h : Visits next p ps) {q : π} :
    q ∈ ps ↔ Relation.TransGen (fun r s => next r = some s) p q := by
  induction ps generalizing p with
  | nil =>
    refine ⟨by simp, fun hq => ?_⟩
    obtain ⟨r, hr, -⟩ := Relation.TransGen.head'_iff.mp hq
    simp [visits_nil.mp h] at hr
  | cons r ps ih =>
    obtain ⟨hr, h⟩ := h
    rw [List.mem_cons, ih h]
    constructor
    · rintro (rfl | hq)
      · exact .single hr
      · exact .head hr hq
    · intro hq
      obtain ⟨s, hs, hq⟩ := Relation.TransGen.head'_iff.mp hq
      obtain rfl : r = s := Option.some.inj (hr.symm.trans hs)
      rcases Relation.reflTransGen_iff_eq_or_transGen.mp hq with rfl | hq
      · exact Or.inl rfl
      · exact Or.inr hq

variable [DecidableEq π]

/-- A write to a node that is not on the chain. -/
theorem Visits.update {q : π} {v : Option π} (h : Visits next p ps) (hq : q ∉ p :: ps) :
    Visits (Function.update next q v) p ps := by
  induction ps generalizing p with
  | nil =>
    have hne : p ≠ q := fun he => hq (by simp [he])
    rw [visits_nil, Function.update_of_ne hne]
    exact h
  | cons r ps ih =>
    rw [List.mem_cons, not_or] at hq
    rw [visits_cons, Function.update_of_ne (Ne.symm hq.1)]
    exact ⟨h.1, ih h.2 hq.2⟩

/-- The last node of a chain, or the pointer it starts from. -/
def last (p : π) (ps : List π) : π := ps.getLastD p

omit [DecidableEq π] in
theorem last_cons (p q : π) (ps : List π) : last p (q :: ps) = last q ps :=
  List.getLastD_cons

omit [DecidableEq π] in
theorem last_concat (p q : π) (ps : List π) : last p (ps ++ [q]) = q := by simp [last]

omit [DecidableEq π] in
/-- The last node is a node of the chain. -/
theorem last_mem (p : π) (ps : List π) : last p ps ∈ p :: ps := by
  induction ps generalizing p with
  | nil => exact List.mem_cons_self
  | cons q ps ih =>
    rw [last_cons]
    exact List.mem_cons_of_mem p (ih q)

/-- Writing a fresh node, with a null link of its own, behind the last one. -/
theorem Visits.concat {n : π} (h : Visits next p ps) (hnull : next n = none) (hn : n ∉ p :: ps) :
    Visits (Function.update next (last p ps) (some n)) p (ps ++ [n]) := by
  induction ps generalizing p with
  | nil =>
    have hne : n ≠ p := fun he => hn (by simp [he])
    refine ⟨Function.update_self .., ?_⟩
    rw [visits_nil, last, List.getLastD_nil, Function.update_of_ne hne, hnull]
  | cons q ps ih =>
    have hp : p ≠ last q ps := by
      have hnodup := List.nodup_cons.mp h.nodup
      exact fun he => hnodup.1 (he ▸ last_mem q ps)
    rw [List.mem_cons, not_or] at hn
    rw [last_cons, List.cons_append, visits_cons, Function.update_of_ne hp]
    exact ⟨h.1, ih h.2 hn.2⟩

/-- Linking past the first node takes it off the chain. -/
theorem Visits.tail {q : π} (h : Visits next p (q :: ps)) :
    Visits (Function.update next p (next q)) p ps := by
  have hnodup := h.nodup
  obtain ⟨-, h⟩ := h
  cases ps with
  | nil => rw [visits_nil, Function.update_self, visits_nil.mp h]
  | cons r ps =>
    rw [visits_cons, Function.update_self]
    refine ⟨h.1, h.2.update fun hp => (List.nodup_cons.mp hnodup).1 (List.mem_cons_of_mem q hp)⟩

end LinkedChain
