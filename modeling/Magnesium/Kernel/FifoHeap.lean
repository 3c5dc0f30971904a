import Magnesium.Core.LinkedChain
import Magnesium.Core.Trace
import Magnesium.Kernel.Fifo

/-!
# Intrusive lists in memory

`mg_fifo_t` with its pointers. A link leads from one `mg_node_t` to another; a node is embedded in
an actor or in a message, or is the dummy of a fifo. Whatever the memory holds at first, after
`mg_fifo_init` each fifo is the list of its nodes, and the operations are those of `Magnesium.Fifo`.
-/

namespace Magnesium

open LinkedChain

variable {φ ν : Type}

/-- The address of an `mg_node_t`: the dummy of a fifo, or a node that is no dummy. -/
inductive NodePtr (φ ν : Type) where
  | dummy (f : φ)
  | node (n : ν)
  deriving DecidableEq

/-- The memory of all nodes and fifos. A null pointer is `none`. -/
structure NodeHeap (φ ν : Type) where
  /-- `node->next`, and `fifo->dummy.next`. -/
  next : NodePtr φ ν → Option (NodePtr φ ν)
  /-- `fifo->tail`. -/
  tail : φ → Option (NodePtr φ ν)

namespace NodeHeap

section Operations

variable [DecidableEq φ]

/-- Write the tail pointer of a fifo. -/
def setTail (h : NodeHeap φ ν) (f : φ) (p : NodePtr φ ν) : NodeHeap φ ν :=
  { h with tail := Function.update h.tail f (some p) }

@[simp] theorem setTail_next (h : NodeHeap φ ν) (f : φ) (p : NodePtr φ ν) :
    (h.setTail f p).next = h.next := rfl

@[simp] theorem setTail_tail (h : NodeHeap φ ν) (f : φ) (p : NodePtr φ ν) :
    (h.setTail f p).tail = Function.update h.tail f (some p) := rfl

variable [DecidableEq ν]

/-- Write a link. -/
def setNext (h : NodeHeap φ ν) (p : NodePtr φ ν) (v : Option (NodePtr φ ν)) : NodeHeap φ ν :=
  { h with next := Function.update h.next p v }

@[simp] theorem setNext_next (h : NodeHeap φ ν) (p : NodePtr φ ν) (v : Option (NodePtr φ ν)) :
    (h.setNext p v).next = Function.update h.next p v := rfl

@[simp] theorem setNext_tail (h : NodeHeap φ ν) (p : NodePtr φ ν) (v : Option (NodePtr φ ν)) :
    (h.setNext p v).tail = h.tail := rfl

/-- `mg_fifo_init`. -/
def fifoInit (h : NodeHeap φ ν) (f : φ) : NodeHeap φ ν :=
  (h.setTail f (.dummy f)).setNext (.dummy f) none

/-- `mg_fifo_empty`. -/
def fifoEmpty (h : NodeHeap φ ν) (f : φ) : Bool := h.tail f = some (.dummy f)

/-- `mg_fifo_last`. -/
def fifoLast (h : NodeHeap φ ν) (f : φ) : Option (NodePtr φ ν) := h.tail f

/-- `mg_fifo_enqueue`. -/
def fifoEnqueue (h : NodeHeap φ ν) (f : φ) (n : ν) : Option (NodeHeap φ ν) := do
  let h := h.setNext (.node n) none
  let tail ← h.tail f
  let h := h.setNext tail (some (.node n))
  return h.setTail f (.node n)

/-- `mg_fifo_dequeue`, with the head it returns. -/
def fifoDequeue (h : NodeHeap φ ν) (f : φ) : Option (NodePtr φ ν × NodeHeap φ ν) := do
  let head ← h.next (.dummy f)
  let h := h.setNext (.dummy f) (h.next head)
  let h := if h.next head = none then h.setTail f (.dummy f) else h
  return (head, h)

end Operations

/-- The links of the memory lead from the dummy of the fifo to the node. -/
def Linked (h : NodeHeap φ ν) (f : φ) (n : ν) : Prop :=
  Relation.TransGen (fun p q => h.next p = some q) (.dummy f) (.node n)

end NodeHeap

/-- An operation on some fifo. -/
inductive FifoOp (φ ν : Type) where
  | init (f : φ)
  | enqueue (f : φ) (n : ν)
  | dequeue (f : φ)

/-- The contents of the initialised fifos. -/
abbrev Lists (φ ν : Type) := φ → Option (List ν)

section Runs

variable [DecidableEq φ] [DecidableEq ν]

/-- What an operation does to the lists: it makes one empty, appends at its end, or removes its
first node. -/
def Lists.step (ls : Lists φ ν) : FifoOp φ ν → Lists φ ν
  | .init f => Function.update ls f (some [])
  | .enqueue f n => Function.update ls f ((ls f).map (Fifo.enqueue · n))
  | .dequeue f => Function.update ls f
    ((ls f).bind fun xs => (Fifo.dequeue xs).map Prod.snd)

/-- The lists after some operations. -/
def lists (log : List (FifoOp φ ν)) : Lists φ ν := log.foldl Lists.step fun _ => none

omit [DecidableEq ν] in
@[simp] theorem lists_concat (log : List (FifoOp φ ν)) (op : FifoOp φ ν) :
    lists (log ++ [op]) = (lists log).step op := by simp [lists]

/-- The runs of the operations from any memory. A node is enqueued only while no initialised fifo
leads to it; an initialised fifo is dequeued only while it is not empty. -/
inductive FifoRun (h₀ : NodeHeap φ ν) : NodeHeap φ ν → List (FifoOp φ ν) → Prop
  | start : FifoRun h₀ h₀ []
  | init {h log} (f : φ) : FifoRun h₀ h log → FifoRun h₀ (h.fifoInit f) (log ++ [.init f])
  | enqueue {h log h'} (f : φ) (n : ν) : FifoRun h₀ h log → .init f ∈ log →
      (∀ g, .init g ∈ log → ¬ h.Linked g n) → h.fifoEnqueue f n = some h' →
      FifoRun h₀ h' (log ++ [.enqueue f n])
  | dequeue {h log p h'} (f : φ) : FifoRun h₀ h log → .init f ∈ log → h.fifoEmpty f = false →
      h.fifoDequeue f = some (p, h') → FifoRun h₀ h' (log ++ [.dequeue f])

end Runs

/-- The memory holds the list in the fifo: its chain is the list, and its tail pointer is the last
node, or the dummy of the fifo itself. -/
structure NodeHeap.Holds (h : NodeHeap φ ν) (f : φ) (xs : List ν) : Prop where
  chain : Visits h.next (.dummy f) (xs.map .node)
  tail : h.tail f = some (last (.dummy f) (xs.map .node))

namespace NodeHeap

variable {h : NodeHeap φ ν} {f g : φ} {xs ys : List ν} {n : ν}

theorem mem_nodes {p : NodePtr φ ν} :
    p ∈ NodePtr.dummy f :: xs.map .node ↔ p = .dummy f ∨ ∃ n ∈ xs, p = .node n := by
  simp only [List.mem_cons, List.mem_map, eq_comm]

theorem node_mem_nodes : NodePtr.node n ∈ NodePtr.dummy f :: xs.map .node ↔ n ∈ xs := by
  simp

theorem dummy_mem_nodes : NodePtr.dummy g ∈ NodePtr.dummy f :: xs.map .node ↔ g = f := by
  simp

theorem Holds.linked_iff (hf : h.Holds f xs) : h.Linked f n ↔ n ∈ xs := by
  rw [Linked, ← hf.chain.mem_iff]
  simp

theorem Holds.nodup (hf : h.Holds f xs) : xs.Nodup :=
  (List.nodup_cons.mp hf.chain.nodup).2.of_map _

theorem Holds.last_eq (hf : h.Holds f xs) :
    h.fifoLast f = some ((Fifo.last xs).elim (.dummy f) .node) := by
  rw [fifoLast, hf.tail]
  rcases List.eq_nil_or_concat xs with rfl | ⟨xs, x, rfl⟩
  · rfl
  · simp [last, Fifo.last]

variable [DecidableEq φ]

/-- A write to the tail pointer of another fifo. -/
theorem Holds.setTail {p : NodePtr φ ν} (hf : h.Holds f xs) (hne : f ≠ g) :
    (h.setTail g p).Holds f xs := by
  refine ⟨hf.chain, ?_⟩
  rw [setTail_tail, Function.update_of_ne hne, hf.tail]

variable [DecidableEq ν]

/-- The tail pointer of an empty list is the dummy of its fifo, that of another list is not. -/
theorem Holds.empty_eq (hf : h.Holds f xs) : h.fifoEmpty f = Fifo.empty xs := by
  rw [fifoEmpty, hf.tail]
  rcases List.eq_nil_or_concat xs with rfl | ⟨xs, x, rfl⟩
  · simp [last]
  · simp [last, Fifo.empty]

/-- A write to a node outside of a list. -/
theorem Holds.setNext {p : NodePtr φ ν} {v : Option (NodePtr φ ν)} (hf : h.Holds f xs)
    (hp : p ∉ NodePtr.dummy f :: xs.map .node) : (h.setNext p v).Holds f xs :=
  ⟨hf.chain.update hp, hf.tail⟩

theorem holds_fifoInit (h : NodeHeap φ ν) (f : φ) : (h.fifoInit f).Holds f [] :=
  ⟨Function.update_self .., Function.update_self ..⟩

theorem Holds.fifoInit (hg : h.Holds g ys) (hne : g ≠ f) : (h.fifoInit f).Holds g ys :=
  (hg.setTail hne).setNext (by rw [dummy_mem_nodes]; exact hne.symm)

/-- `mg_fifo_enqueue` of a node that is in no list appends it, and touches no list that shares no
node with this one. -/
theorem Holds.enqueue (hf : h.Holds f xs) (hn : n ∉ xs) :
    ∃ h', h.fifoEnqueue f n = some h' ∧ h'.Holds f (Fifo.enqueue xs n) ∧
      ∀ g ys, g ≠ f → n ∉ ys → xs.Disjoint ys → h.Holds g ys → h'.Holds g ys := by
  have hfresh : NodePtr.node n ∉ NodePtr.dummy f :: xs.map .node := by rwa [node_mem_nodes]
  have hnull := hf.chain.update (v := none) hfresh
  refine ⟨((h.setNext (.node n) none).setNext (last (.dummy f) (xs.map .node))
    (some (.node n))).setTail f (.node n), ?_, ⟨?_, ?_⟩, fun g ys hne hny hdisj hg => ?_⟩
  · have htail : (h.setNext (.node n) none).tail f = some _ := hf.tail
    rw [fifoEnqueue, htail]
    rfl
  · rw [Fifo.enqueue, List.map_append]
    exact hnull.concat (Function.update_self ..) hfresh
  · rw [Fifo.enqueue, List.map_append, List.map_singleton, last_concat]
    exact Function.update_self ..
  · refine Holds.setTail (Holds.setNext (hg.setNext ?_) ?_) hne
    · rwa [node_mem_nodes]
    · rcases mem_nodes.mp (last_mem (NodePtr.dummy f) (xs.map .node)) with hl | ⟨m, hm, hl⟩
      · rw [hl, dummy_mem_nodes]
        exact hne.symm
      · rw [hl, node_mem_nodes]
        exact hdisj hm

/-- `mg_fifo_dequeue` of a list that is not empty removes its first node, which keeps its stale
link, and touches no other list. -/
theorem Holds.dequeue {x : ν} (hf : h.Holds f (x :: xs)) :
    ∃ h', h.fifoDequeue f = some (.node x, h') ∧ h'.Holds f xs ∧
      h'.next (.node x) = h.next (.node x) ∧
      ∀ g ys, g ≠ f → h.Holds g ys → h'.Holds g ys := by
  set h₁ := h.setNext (.dummy f) (h.next (.node x)) with hh₁
  have hhead : h.next (.dummy f) = some (.node x) := hf.chain.1
  have hchain : Visits h₁.next (.dummy f) (xs.map .node) := hf.chain.tail
  have hstale : h₁.next (.node x) = h.next (.node x) := by simp [hh₁]
  have hother : ∀ g ys, g ≠ f → h.Holds g ys → h₁.Holds g ys := fun g ys hne hg =>
    hg.setNext (by rw [dummy_mem_nodes]; exact hne.symm)
  have hrun : h.fifoDequeue f = some (.node x,
      if h₁.next (.node x) = none then h₁.setTail f (.dummy f) else h₁) := by
    simp [fifoDequeue, hhead, hh₁]
  have hlast : Visits h.next (.node x) (xs.map .node) := hf.chain.2
  cases xs with
  | nil =>
    rw [hstale, if_pos (visits_nil.mp hlast)] at hrun
    exact ⟨_, hrun, ⟨hchain, Function.update_self ..⟩, hstale,
      fun g ys hne hg => (hother g ys hne hg).setTail hne⟩
  | cons y xs =>
    rw [hstale, if_neg (by rw [hlast.1]; simp)] at hrun
    refine ⟨h₁, hrun, ⟨hchain, ?_⟩, hstale, hother⟩
    have htail := hf.tail
    rw [List.map_cons, last_cons] at htail
    exact htail

end NodeHeap

/-- The memory holds every list, and no node is in two of them. -/
structure FifoInv (h : NodeHeap φ ν) (ls : Lists φ ν) : Prop where
  holds : ∀ f xs, ls f = some xs → h.Holds f xs
  disjoint : ∀ f g xs ys, ls f = some xs → ls g = some ys → f ≠ g → xs.Disjoint ys

namespace FifoInv

variable {h : NodeHeap φ ν} {ls : Lists φ ν}

/-- A node that no initialised fifo leads to is in no list. -/
theorem notMem (hinv : FifoInv h ls) {n : ν} (hn : ∀ g, (ls g).isSome → ¬ h.Linked g n) :
    ∀ g ys, ls g = some ys → n ∉ ys := by
  intro g ys hg hmem
  exact hn g (by rw [hg]; rfl) ((hinv.holds g ys hg).linked_iff.mpr hmem)

variable [DecidableEq φ] [DecidableEq ν]

omit [DecidableEq ν] in
/-- Lists that agree with `ls` but for `f` are still apart from the list of `f`. -/
theorem update {h' : NodeHeap φ ν} {f : φ} {xs : List ν} (hinv : FifoInv h ls)
    (hf : h'.Holds f xs) (hother : ∀ g ys, g ≠ f → ls g = some ys → h'.Holds g ys)
    (hdisj : ∀ g ys, g ≠ f → ls g = some ys → xs.Disjoint ys) :
    FifoInv h' (Function.update ls f (some xs)) := by
  refine ⟨fun g ys hg => ?_, fun g k ys zs hg hk hgk => ?_⟩
  · by_cases hgf : g = f
    · subst hgf
      rw [Function.update_self] at hg
      cases hg
      exact hf
    · rw [Function.update_of_ne hgf] at hg
      exact hother g ys hgf hg
  · by_cases hgf : g = f
    · subst hgf
      rw [Function.update_self] at hg
      cases hg
      rw [Function.update_of_ne (Ne.symm hgk)] at hk
      exact hdisj k zs (Ne.symm hgk) hk
    · rw [Function.update_of_ne hgf] at hg
      by_cases hkf : k = f
      · subst hkf
        rw [Function.update_self] at hk
        cases hk
        exact List.disjoint_symm (hdisj g ys hgf hg)
      · rw [Function.update_of_ne hkf] at hk
        exact hinv.disjoint g k ys zs hg hk hgk

theorem init (hinv : FifoInv h ls) (f : φ) : FifoInv (h.fifoInit f) (ls.step (.init f)) :=
  hinv.update (h.holds_fifoInit f) (fun g ys hne hg => (hinv.holds g ys hg).fifoInit hne)
    fun _ _ _ _ => List.disjoint_nil_left _

/-- Appending a node that is in no list. -/
theorem enqueue {f : φ} {xs : List ν} {n : ν} (hinv : FifoInv h ls) (hf : ls f = some xs)
    (hn : ∀ g ys, ls g = some ys → n ∉ ys) :
    ∃ h', h.fifoEnqueue f n = some h' ∧ FifoInv h' (ls.step (.enqueue f n)) := by
  obtain ⟨h', hrun, hself, hother⟩ := (hinv.holds f xs hf).enqueue (hn f xs hf)
  refine ⟨h', hrun, ?_⟩
  rw [Lists.step, hf]
  refine hinv.update hself (fun g ys hne hg => ?_) (fun g ys hne hg => ?_)
  · exact hother g ys hne (hn g ys hg) (hinv.disjoint f g xs ys hf hg hne.symm)
      (hinv.holds g ys hg)
  · intro m hm hmy
    rcases Fifo.mem_enqueue.mp hm with hm | rfl
    · exact hinv.disjoint f g xs ys hf hg hne.symm hm hmy
    · exact hn g ys hg hmy

/-- Removing the first node of a list. -/
theorem dequeue {f : φ} {x : ν} {xs : List ν} (hinv : FifoInv h ls) (hf : ls f = some (x :: xs)) :
    ∃ h', h.fifoDequeue f = some (.node x, h') ∧ h'.next (.node x) = h.next (.node x) ∧
      FifoInv h' (ls.step (.dequeue f)) := by
  obtain ⟨h', hrun, hself, hstale, hother⟩ := (hinv.holds f (x :: xs) hf).dequeue
  refine ⟨h', hrun, hstale, ?_⟩
  rw [Lists.step, hf]
  refine hinv.update hself (fun g ys hne hg => hother g ys hne (hinv.holds g ys hg))
    (fun g ys hne hg => ?_)
  exact fun y hy => hinv.disjoint f g _ ys hf hg hne.symm (List.mem_cons_of_mem x hy)

end FifoInv

section Run

variable [DecidableEq φ] [DecidableEq ν] {h₀ h : NodeHeap φ ν} {log : List (FifoOp φ ν)}

theorem FifoRun.inv (hrun : FifoRun h₀ h log) :
    FifoInv h (lists log) ∧ ∀ f, (lists log f).isSome ↔ .init f ∈ log := by
  induction hrun with
  | start =>
    exact ⟨⟨fun f xs hf => by simp [lists] at hf, fun f g xs ys hf => by simp [lists] at hf⟩,
      fun f => by simp [lists]⟩
  | @init h log f _ ih =>
    obtain ⟨hinv, hsome⟩ := ih
    rw [lists_concat]
    refine ⟨hinv.init f, fun g => ?_⟩
    by_cases hg : g = f
    · subst hg
      simp [Lists.step]
    · simp [Lists.step, hg, hsome]
  | @enqueue h log h' f n _ hf hn hstep ih =>
    obtain ⟨hinv, hsome⟩ := ih
    rw [lists_concat]
    obtain ⟨xs, hxs⟩ := Option.isSome_iff_exists.mp ((hsome f).mpr hf)
    obtain ⟨h'', hstep', hinv'⟩ :=
      hinv.enqueue hxs (hinv.notMem fun g hg => hn g ((hsome g).mp hg))
    obtain rfl : h'' = h' := Option.some.inj (hstep'.symm.trans hstep)
    refine ⟨hinv', fun g => ?_⟩
    by_cases hg : g = f
    · subst hg
      simp [Lists.step, hxs, hf]
    · simp [Lists.step, hg, hsome]
  | @dequeue h log p h' f _ hf hempty hstep ih =>
    obtain ⟨hinv, hsome⟩ := ih
    rw [lists_concat]
    obtain ⟨xs, hxs⟩ := Option.isSome_iff_exists.mp ((hsome f).mpr hf)
    cases xs with
    | nil => simp [(hinv.holds f [] hxs).empty_eq] at hempty
    | cons x xs =>
      obtain ⟨h'', hstep', -, hinv'⟩ := hinv.dequeue hxs
      rw [hstep'] at hstep
      cases hstep
      refine ⟨hinv', fun g => ?_⟩
      by_cases hg : g = f
      · subst hg
        simp [Lists.step, hxs, hf]
      · simp [Lists.step, hg, hsome]

/-- The fifos in memory represent lists. From any memory and for every sequence of operations on
any number of fifos, each initialised fifo holds a list: its chain is finite, passes no node twice
and ends in a null link, and its tail pointer is the last node, or its own dummy exactly when the
list is empty. Different fifos share no node. Every further operation succeeds, makes its fifo
empty, appends at its end, or removes and returns its first node, which keeps its stale link; and
it leaves the others as they are. -/
theorem fifo_represents_lists (hrun : FifoRun h₀ h log) :
    (∀ f, .init f ∈ log → ∃ xs, lists log f = some xs) ∧
    (∀ f xs, lists log f = some xs → h.Holds f xs ∧
      (NodePtr.dummy f :: xs.map .node).Nodup ∧ (h.fifoEmpty f = true ↔ xs = [])) ∧
    (∀ f g xs ys, lists log f = some xs → lists log g = some ys → f ≠ g → xs.Disjoint ys) ∧
    (∀ f, (h.fifoInit f).Holds f [] ∧
      ∀ g ys, g ≠ f → lists log g = some ys → (h.fifoInit f).Holds g ys) ∧
    (∀ f n, .init f ∈ log → (∀ g, .init g ∈ log → ¬ h.Linked g n) →
      ∃ h', h.fifoEnqueue f n = some h' ∧
        ∀ g ys, lists log g = some ys → h'.Holds g (if g = f then ys ++ [n] else ys)) ∧
    ∀ f, .init f ∈ log → h.fifoEmpty f = false →
      ∃ x rest h', lists log f = some (x :: rest) ∧ h.fifoDequeue f = some (.node x, h') ∧
        h'.next (.node x) = h.next (.node x) ∧
        ∀ g ys, lists log g = some ys → h'.Holds g (if g = f then rest else ys) := by
  obtain ⟨hinv, hsome⟩ := hrun.inv
  have hlist : ∀ f, .init f ∈ log → ∃ xs, lists log f = some xs := fun f hf =>
    Option.isSome_iff_exists.mp ((hsome f).mpr hf)
  refine ⟨hlist, fun f xs hf => ?_, hinv.disjoint, fun f => ?_, fun f n hf hn => ?_,
    fun f hf hempty => ?_⟩
  · have hholds := hinv.holds f xs hf
    refine ⟨hholds, hholds.chain.nodup, ?_⟩
    rw [hholds.empty_eq, Fifo.empty, List.isEmpty_iff]
  · exact ⟨h.holds_fifoInit f, fun g ys hne hg => (hinv.holds g ys hg).fifoInit hne⟩
  · obtain ⟨xs, hxs⟩ := hlist f hf
    obtain ⟨h', hstep, hinv'⟩ :=
      hinv.enqueue hxs (hinv.notMem fun g hg => hn g ((hsome g).mp hg))
    refine ⟨h', hstep, fun g ys hg => hinv'.holds g _ ?_⟩
    by_cases hgf : g = f
    · subst hgf
      simp [Lists.step, hg, Fifo.enqueue]
    · simp [Lists.step, hgf, hg]
  · obtain ⟨xs, hxs⟩ := hlist f hf
    cases xs with
    | nil => simp [(hinv.holds f [] hxs).empty_eq] at hempty
    | cons x xs =>
      obtain ⟨h', hstep, hstale, hinv'⟩ := hinv.dequeue hxs
      refine ⟨x, xs, h', hxs, hstep, hstale, fun g ys hg => hinv'.holds g _ ?_⟩
      by_cases hgf : g = f
      · subst hgf
        simp [Lists.step, hxs]
      · simp [Lists.step, hgf, hg]

/-- A run goes on with every operation that its lists admit. -/
theorem FifoRun.append (hrun : FifoRun h₀ h log) {f : φ} {xs : List ν} {n : ν}
    (hf : lists log f = some xs) (hn : ∀ g ys, lists log g = some ys → n ∉ ys) :
    ∃ h', FifoRun h₀ h' (log ++ [.enqueue f n]) := by
  obtain ⟨hinv, hsome⟩ := hrun.inv
  obtain ⟨h', hstep, -⟩ := hinv.enqueue hf hn
  refine ⟨h', hrun.enqueue f n ((hsome f).mp (by rw [hf]; rfl)) (fun g hg => ?_) hstep⟩
  obtain ⟨ys, hys⟩ := Option.isSome_iff_exists.mp ((hsome g).mpr hg)
  rw [(hinv.holds g ys hys).linked_iff]
  exact hn g ys hys

theorem FifoRun.remove (hrun : FifoRun h₀ h log) {f : φ} {x : ν} {xs : List ν}
    (hf : lists log f = some (x :: xs)) : ∃ h', FifoRun h₀ h' (log ++ [.dequeue f]) := by
  obtain ⟨hinv, hsome⟩ := hrun.inv
  obtain ⟨h', hstep, -, -⟩ := hinv.dequeue hf
  exact ⟨h', hrun.dequeue f ((hsome f).mp (by rw [hf]; rfl)) (hinv.holds f _ hf).empty_eq hstep⟩

end Run

/-- A memory full of stale links: every node and every dummy leads to the node `0`. -/
def staleHeap : NodeHeap Bool Nat := ⟨fun _ => some (.node 0), fun _ => none⟩

/-- The node `1` leaves the list of `true` while its link leads to `2`, and is enqueued in the list
of `false`. -/
theorem fifo_represents_lists_moved : ∃ h : NodeHeap Bool Nat, h.Holds true [2] ∧
    h.Holds false [1] := by
  have hrun : FifoRun staleHeap _ _ := (FifoRun.start.init true).init false
  obtain ⟨h₁, hrun₁⟩ := hrun.append (n := 1) (show lists _ true = some [] from rfl) (by
    intro g ys hg
    cases g <;> cases hg <;> simp)
  obtain ⟨h₂, hrun₂⟩ := hrun₁.append (n := 2) (show lists _ true = some [1] from rfl) (by
    intro g ys hg
    cases g <;> cases hg <;> simp)
  obtain ⟨h₃, hrun₃⟩ := hrun₂.remove (show lists _ true = some [1, 2] from rfl)
  obtain ⟨h₄, hrun₄⟩ := hrun₃.append (n := 1) (show lists _ false = some [] from rfl) (by
    intro g ys hg
    cases g <;> cases hg <;> simp)
  obtain ⟨-, hholds, -⟩ := fifo_represents_lists hrun₄
  exact ⟨h₄, (hholds true [2] rfl).1, (hholds false [1] rfl).1⟩

end Magnesium
