import Magnesium.Kernel.Ledger
import Magnesium.Kernel.Section

/-!
# The queues along a run

Every queue stays well formed, and queues and run queues hold what the account says.
-/

namespace Magnesium

variable {S : Setup}

/-- The part of the invariant about queues and run queues. -/
structure QueueInv (s : State S) (L : Ledger S) : Prop where
  valid : ∀ q, (s.queue q).Valid
  content : ∀ q, (s.queue q).messages = L.content q
  ready : ∀ c p, s.runq c p = L.ready c p

namespace QueueInv

variable {s s₁ : State S} {L L' : Ledger S}

/-- A step that leaves the queues and the run queues alone. -/
theorem same (h : QueueInv s L) (hq : s₁.queue = s.queue) (hr : s₁.runq = s.runq)
    (hc : L'.content = L.content) (hready : L'.ready = L.ready) : QueueInv s₁ L' where
  valid q := by
    rw [hq]
    exact h.valid q
  content q := by
    rw [hq, hc]
    exact h.content q
  ready c p := by
    rw [hr, hready]
    exact h.ready c p

/-- A step that changes one queue, and the ledger with it. -/
theorem setQueue (h : QueueInv s L) {q : QueueId} {Q : Queue MessageId ActorId}
    (hq : s₁.queue = Function.update s.queue q Q) (hr : s₁.runq = s.runq) (hvalid : Q.Valid)
    (hc : L'.content = Function.update L.content q Q.messages) (hready : L'.ready = L.ready) :
    QueueInv s₁ L' where
  valid r := by
    rw [hq]
    by_cases hrq : r = q
    · rw [hrq, Function.update_self]
      exact hvalid
    · rw [Function.update_of_ne hrq]
      exact h.valid r
  content r := by
    rw [hq, hc]
    by_cases hrq : r = q
    · rw [hrq, Function.update_self, Function.update_self]
    · rw [Function.update_of_ne hrq, Function.update_of_ne hrq]
      exact h.content r
  ready c p := by
    rw [hr, hready]
    exact h.ready c p

/-- A step that changes one run queue, and the ledger with it. -/
theorem setRunq (h : QueueInv s L) {c : Fin S.cpuMax} {p : Nat} {runq : List ActorId}
    (hq : s₁.queue = s.queue)
    (hr : s₁.runq = Function.update s.runq c (Function.update (s.runq c) p runq))
    (hc : L'.content = L.content)
    (hready : L'.ready = Function.update L.ready c (Function.update (L.ready c) p runq)) :
    QueueInv s₁ L' where
  valid r := by
    rw [hq]
    exact h.valid r
  content r := by
    rw [hq, hc]
    exact h.content r
  ready c' p' := by
    rw [hr, hready]
    by_cases hcc : c' = c
    · subst hcc
      by_cases hpp : p' = p
      · rw [hpp, Function.update_self, Function.update_self, Function.update_self,
          Function.update_self]
      · rw [Function.update_self, Function.update_self, Function.update_of_ne hpp,
          Function.update_of_ne hpp]
        exact h.ready c' p'
    · rw [Function.update_of_ne hcc, Function.update_of_ne hcc]
      exact h.ready c' p'

/-- A pop without subscriber. -/
theorem poll (h : QueueInv s L) {q : QueueId} {Q : Queue MessageId ActorId}
    {msg : Option MessageId} (hpop : (s.queue q).pop none = some (Q, msg))
    (hq : s₁.queue = Function.update s.queue q Q) (hr : s₁.runq = s.runq) :
    QueueInv s₁ (L.step (.poll q msg)) := by
  cases msg with
  | none =>
    obtain ⟨rfl, hnil⟩ := (h.valid q).missed hpop
    refine h.setQueue hq hr (h.valid q) ?_ rfl
    have hc := h.content q
    rw [hnil] at hc
    simp [Ledger.step, Ledger.consume, hnil, ← hc]
  | some m =>
    obtain ⟨hvalid, hm, -, -⟩ := (h.valid q).found hpop
    refine h.setQueue hq hr hvalid ?_ rfl
    simp [Ledger.step, Ledger.consume, ← h.content q, hm]

/-- A pop that leaves its subscriber waiting changes no content. -/
theorem subscribe (h : QueueInv s L) {q : QueueId} {Q : Queue MessageId ActorId} {a : ActorId}
    (hpop : (s.queue q).pop (some a) = some (Q, none))
    (hq : s₁.queue = Function.update s.queue q Q) (hr : s₁.runq = s.runq) : QueueInv s₁ L := by
  obtain ⟨hvalid, hnil, hnil', -⟩ := (h.valid q).subscribed hpop
  refine h.setQueue hq hr hvalid ?_ rfl
  rw [hnil', ← hnil, h.content, Function.update_eq_self]

/-- Every section keeps the queues well formed and the account exact. -/
theorem step (h : QueueInv s L) {x : Ctx} {act : Action S} {pc : Pc S} {es : List (Event S)}
    (hsec : Section s x act s₁ pc es) : QueueInv (s₁.setPc x pc) (L.after es) := by
  cases hsec with
  | @stored _ q m Q _ _ hpush =>
    obtain ⟨hvalid, hm, -, -⟩ := (h.valid q).stored hpush
    refine h.setQueue rfl rfl hvalid ?_ rfl
    simp [Ledger.after, Ledger.step, hm, h.content]
  | @handed _ q m Q a _ _ hpush =>
    obtain ⟨hvalid, hnil, hnil', -⟩ := (h.valid q).handed hpush
    refine h.setQueue rfl rfl hvalid ?_ rfl
    rw [hnil', ← hnil, h.content, Function.update_eq_self]
    rfl
  | polled _ hpop => exact h.poll hpop rfl rfl
  | allocPopped _ hpop => exact h.poll hpop rfl rfl
  | @carved p _ hav =>
    refine h.same ?_ ?_ rfl rfl <;> simp [State.setPc, State.carve, hav]
  | subscribed _ hpop => exact h.subscribe hpop rfl rfl
  | initSubscribed _ hpop => exact h.subscribe hpop rfl rfl
  | @taken a q _ Q m _ hpop =>
    obtain ⟨hvalid, hm, -, -⟩ := (h.valid q).found hpop
    refine h.setQueue rfl rfl hvalid ?_ rfl
    simp [Ledger.after, Ledger.step, ← h.content q, hm]
  | @dispatched vect a rest _ hrunq =>
    refine h.setRunq rfl rfl rfl ?_
    simp [Ledger.after, Ledger.step, ← h.ready, hrunq]
  | @yielded a _ _ =>
    refine h.setRunq rfl rfl rfl ?_
    simp [Ledger.after, Ledger.step, Ledger.enqueue, ← h.ready, Fifo.enqueue]
  | @inserted a _ _ =>
    refine h.setRunq rfl rfl rfl ?_
    simp [Ledger.after, Ledger.step, Ledger.enqueue, ← h.ready, Fifo.enqueue]
  | called _ => exact h.same rfl rfl (Ledger.consume_content _ _) (Ledger.consume_ready _ _)
  | initialised _ hs =>
    subst hs
    exact h.same rfl rfl rfl rfl
  | _ => exact h.same rfl rfl rfl rfl

end QueueInv

end Magnesium
