import Magnesium.Kernel.Continuation
import Magnesium.Kernel.FifoHeap
import Magnesium.Kernel.Preservation.Account
import Magnesium.Kernel.Replay

/-!
# The kernel on pointers

The code of the kernel in a memory that knows no lists: it holds the fields, and the pointers of
all nodes and fifos, and the operations on a fifo follow and write these. In every race-free run
this memory represents the lists of the kernel.
-/

namespace Magnesium

open Procedure Code

variable {S : Setup}

/-- A node that is no dummy. -/
def NodePtr.toNode {φ ν : Type} : NodePtr φ ν → Option ν
  | .dummy _ => none
  | .node n => some n

/-- The memory with the pointers of all nodes and fifos. -/
structure PointerState (S : Setup) where
  /-- The fields; the lists in it are empty. -/
  fields : State S
  heap : NodeHeap (ListId S) Link
  /-- An enqueue has followed a null pointer. -/
  fault : Bool

/-- The `length` of a queue alone. -/
def Queue.bare {μ α : Type} (q : Queue μ α) : Queue μ α := ⟨[], q.length⟩

/-- The fields that are no list. -/
def State.bare (s : State S) : State S :=
  { s with
    runq := fun _ _ => []
    timerq := fun _ _ => []
    queue := Queue.bare ∘ s.queue
    pc := fun _ => .idle
    held := [] }

namespace PointerState

/-- The answer to an access. A dequeue through a null pointer has no answer, and the code does not
go on. -/
def answer (reply : ClientStep) (m : PointerState S) : (e : Access S) → e.Answer × PointerState S
  | .acquire _ | .release _ | .func _ _ => ((), m)
  | .load f => (m.fields.load f, m)
  | .store f v => ((), { m with fields := m.fields.store f v })
  | .empty l => (m.heap.fifoEmpty l, m)
  | .last l => ((m.heap.fifoLast l).bind NodePtr.toNode, m)
  | .enqueue l node =>
    match m.heap.fifoEnqueue l node with
    | some heap => ((), { m with heap := heap })
    | none => ((), { m with fault := true })
  | .dequeue l =>
    match m.heap.fifoDequeue l with
    | some (head, heap) => (head.toNode, { m with heap := heap })
    | none => (none, m)
  | .request cpu vect => ((), { m with fields := m.fields.setPending cpu vect })
  | .client _ => (reply, m)

/-- After `mg_fifo_init` of every fifo; the links of the nodes are what they were. -/
def boot (stale : NodeHeap (ListId S) Link) : PointerState S where
  fields := (State.boot S).bare
  heap :=
    { next := fun
        | .dummy _ => none
        | .node y => stale.next (.node y)
      tail := fun l => some (.dummy l) }
  fault := false

/-- The interrupt controller takes a request back before the handler runs. -/
def enter (m : PointerState S) (x : Ctx) (act : Action S) : PointerState S :=
  { m with fields := m.fields.enter x act }

/-- The memory represents the lists of the kernel, and has its fields. -/
structure Represents (m : PointerState S) (s : State S) : Prop where
  fields : m.fields = s.bare
  lists : FifoInv m.heap fun l => some (s.list l)
  fault : m.fault = false

end PointerState

/-- The runs of the code of all contexts in a memory with pointers. A context that has no code to
run calls an operation; any other goes on with its code, as far as one likes before others do. -/
inductive PointerRun (stale : NodeHeap (ListId S) Link) :
    (Ctx → Code S Unit) → PointerState S → Prop
  | boot : PointerRun stale (fun _ => pure ()) (.boot stale)
  | enter {code : Ctx → Code S Unit} {m : PointerState S} (x : Ctx) (act : Action S) :
      PointerRun stale code m → code x = pure () →
      PointerRun stale (Function.update code x (act.code x)) (m.enter x act)
  | go {code : Ctx → Code S Unit} {m m' : PointerState S} {x : Ctx} {reply : ClientStep}
      {log : List (Access S)} {p : Code S Unit} : PointerRun stale code m →
      Reaches (kernel x) (PointerState.answer reply) (code x) m log p m' →
      PointerRun stale (Function.update code x p) m'

section Bare

variable {s : State S} {l : ListId S} {xs : List Link}

/-- Fields are read apart from the lists. -/
theorem State.load_bare (s : State S) (f : Field S) : s.bare.load f = s.load f := by
  cases f <;> rfl

/-- Fields are written apart from the lists. -/
theorem State.store_bare (s : State S) (f : Field S) (v : f.Val) :
    (s.store f v).bare = s.bare.store f v := by
  cases f with
  | cpu a =>
    by_cases hv : v < S.cpuMax
    · simp only [State.store, dif_pos hv]
      rfl
    · simp only [State.store, dif_neg hv]
  | length q =>
    simp only [State.store, State.setQueue, State.bare, Function.comp_update]
    rfl
  | _ => rfl

/-- A write to a field changes no list. -/
theorem State.list_store (s : State S) (f : Field S) (v : f.Val) : (s.store f v).list = s.list := by
  funext l
  cases f with
  | cpu a =>
    by_cases hv : v < S.cpuMax
    · simp only [State.store, dif_pos hv]
      cases l <;> rfl
    · simp only [State.store, dif_neg hv]
  | length q =>
    cases l with
    | items r =>
      by_cases hr : r = q
      · simp [State.store, State.list, State.setQueue, hr]
      · simp [State.store, State.list, State.setQueue, hr]
    | _ => rfl
  | _ => cases l <;> rfl

theorem State.bare_setPending (s : State S) (cpu : Nat) (vect : Vect) :
    (s.setPending cpu vect).bare = s.bare.setPending cpu vect := by
  by_cases hcpu : cpu < S.cpuMax
  · simp only [State.setPending, dif_pos hcpu]
    rfl
  · simp only [State.setPending, dif_neg hcpu]

theorem State.list_setPending (s : State S) (cpu : Nat) (vect : Vect) :
    (s.setPending cpu vect).list = s.list := by
  funext l
  by_cases hcpu : cpu < S.cpuMax
  · simp only [State.setPending, dif_pos hcpu]
    cases l <;> rfl
  · simp only [State.setPending, dif_neg hcpu]

/-- A change of a list changes no field. -/
theorem State.bare_setList (s : State S) (l : ListId S) (xs : List Link) :
    (s.setList l xs).bare = s.bare := by
  cases l with
  | items q =>
    have hq : Queue.bare { s.queue q with items := xs } = (Queue.bare ∘ s.queue) q := rfl
    simp only [State.setList, State.setQueue, State.bare, Function.comp_update, hq,
      Function.update_eq_self]
  | _ => rfl

/-- The links of a list have the kind of the list. -/
theorem State.admits_list : ∀ y ∈ s.list l, l.admits y = true := by
  intro y hy
  cases l with
  | items q => rfl
  | runq c p | timerq c i =>
    obtain ⟨a, -, rfl⟩ := List.mem_map.mp hy
    rfl

/-- The links of actors are known by their actors. -/
theorem map_actor_entry (h : ∀ y ∈ xs, y = .actor y.entry) :
    (xs.map Node.entry).map (Node.actor : ActorId → Link) = xs := by
  rw [List.map_map]
  exact (List.map_congr_left fun y hy => (h y hy).symm).trans (List.map_id xs)

/-- Run queues and timer queues link actors. -/
theorem ListId.eq_actor {y : Link} (h : l.admits y = true) (hl : ∀ q, l ≠ .items q) :
    y = .actor y.entry := by
  cases y with
  | actor a => rfl
  | message m =>
    cases l with
    | items q => exact absurd rfl (hl q)
    | runq c p | timerq c i => cases h

theorem State.list_setList_of_ne {g : ListId S} (hg : g ≠ l) (xs : List Link) :
    (s.setList l xs).list g = s.list g := by
  cases l with
  | items q =>
    cases g with
    | items r =>
      have hr : r ≠ q := fun hr => hg (congrArg _ hr)
      simp [State.setList, State.list, State.setQueue, hr]
    | _ => rfl
  | runq c p =>
    cases g with
    | runq c' p' =>
      by_cases hc : c' = c
      · subst hc
        have hp : p' ≠ p := fun hp => hg (congrArg _ hp)
        simp [State.setList, State.list, State.setRunq, hp]
      · simp [State.setList, State.list, State.setRunq, hc]
    | _ => rfl
  | timerq c i =>
    cases g with
    | timerq c' j =>
      by_cases hc : c' = c
      · subst hc
        have hj : j ≠ i := fun hj => hg (congrArg _ hj)
        simp [State.setList, State.list, State.setTimerq, hj]
      · simp [State.setList, State.list, State.setTimerq, hc]
    | _ => rfl

/-- One list is replaced, and the others stay. -/
theorem State.list_setList (h : ∀ y ∈ xs, l.admits y = true) :
    (s.setList l xs).list = Function.update s.list l xs := by
  funext g
  by_cases hg : g = l
  · subst hg
    rw [Function.update_self]
    cases g with
    | items q => simp [State.setList, State.list]
    | runq c p =>
      have hxs := map_actor_entry fun y hy => ListId.eq_actor (h y hy) (by simp)
      simpa [State.setList, State.list, State.setRunq] using hxs
    | timerq c i =>
      have hxs := map_actor_entry fun y hy => ListId.eq_actor (h y hy) (by simp)
      simpa [State.setList, State.list, State.setTimerq] using hxs
  · rw [Function.update_of_ne hg, State.list_setList_of_ne hg]

/-- A link of the right kind is enqueued. -/
theorem State.list_enqueue {y : Link} (hy : l.admits y = true) :
    (s.setList l (Fifo.enqueue (s.list l) y)).list =
      Function.update s.list l (Fifo.enqueue (s.list l) y) := by
  apply State.list_setList
  intro z hz
  rcases Fifo.mem_enqueue.mp hz with hz | rfl
  · exact State.admits_list z hz
  · exact hy

end Bare

section Simulation

variable {s s' : State S} {m : PointerState S} {act : Action S} {x : Ctx} {linked linked' : Bool}

/-- A link that the code enqueues has the kind of the list. -/
theorem linkStep_enqueue {l : ListId S} {y : Link}
    (h : linkStep linked (.enqueue l y) = some linked') : l.admits y = true ∧ linked' = true := by
  cases linked with
  | true => cases h
  | false =>
    rw [linkStep] at h
    split at h
    · rename_i hy
      cases h
      exact ⟨hy, rfl⟩
    · cases h

theorem State.list_enter (s : State S) (x : Ctx) (act : Action S) :
    (s.enter x act).list = s.list := by
  funext l
  cases act <;> cases l <;> rfl

theorem State.bare_enter (s : State S) (x : Ctx) (act : Action S) :
    (s.enter x act).bare = s.bare.enter x act := by
  cases act <;> rfl

theorem State.list_memory (s : State S) : s.memory.list = s.list := by
  funext l
  cases l <;> rfl

namespace PointerState.Represents

/-- The invariant depends on the lists and on the other fields. -/
theorem congr (h : m.Represents s) (hbare : s'.bare = s.bare) (hlist : s'.list = s.list) :
    m.Represents s' where
  fields := h.fields.trans hbare.symm
  lists := by
    rw [hlist]
    exact h.lists
  fault := h.fault

theorem memory_iff : m.Represents s.memory ↔ m.Represents s :=
  ⟨fun h => h.congr rfl s.list_memory.symm, fun h => h.congr rfl s.list_memory⟩

/-- All fifos are empty at the start, whatever the links held. -/
theorem boot (stale : NodeHeap (ListId S) Link) :
    (PointerState.boot stale).Represents (State.boot S) where
  fields := rfl
  lists := by
    have hlist : ∀ l, (State.boot S).list l = [] := fun l => by cases l <;> rfl
    refine ⟨fun l xs hxs => ?_, fun l g xs ys hxs _ _ => ?_⟩
    · rw [hlist] at hxs
      cases hxs
      exact ⟨rfl, rfl⟩
    · rw [hlist] at hxs
      cases hxs
      exact List.disjoint_nil_left _
  fault := rfl

/-- The start of an operation touches no link. -/
theorem enter (h : m.Represents s) (x : Ctx) (act : Action S) :
    (m.enter x act).Represents (s.enter x act) where
  fields := by
    rw [State.bare_enter, ← h.fields]
    rfl
  lists := by
    rw [State.list_enter]
    exact h.lists
  fault := h.fault

/-- A write to a field that is no list. -/
theorem write {fields : State S} (h : m.Represents s) (hfields : fields = s'.bare)
    (hlist : s'.list = s.list) : ({ m with fields := fields } : PointerState S).Represents s' where
  fields := hfields
  lists := by
    rw [hlist]
    exact h.lists
  fault := h.fault

/-- An enqueue of a node that is in no list. -/
theorem enqueue {l : ListId S} {y : Link} (h : m.Represents s) (hy : l.admits y = true)
    (hfresh : ∀ g, y ∉ s.list g) :
    (m.answer act.reply (.enqueue l y)).2.Represents (s.answer act.client (.enqueue l y)).2 := by
  obtain ⟨heap, hstep, hinv⟩ := h.lists.enqueue (f := l) (n := y) rfl (fun g ys hg => by
    cases hg
    exact hfresh g)
  have hlists : (fun g => some ((s.setList l (Fifo.enqueue (s.list l) y)).list g)) =
      Lists.step (fun g => some (s.list g)) (.enqueue l y) := by
    rw [State.list_enqueue hy]
    exact Function.comp_update some s.list l _
  have hanswer : (m.answer act.reply (.enqueue l y)).2 = { m with heap := heap } := by
    simp only [answer, hstep]
  rw [hanswer]
  exact ⟨h.fields.trans (State.bare_setList s l _).symm, hlists ▸ hinv, h.fault⟩

/-- A dequeue answers the same node. -/
theorem dequeue {l : ListId S} (h : m.Represents s) :
    (m.answer act.reply (.dequeue l)).1 = (s.answer act.client (.dequeue l)).1 ∧
      (m.answer act.reply (.dequeue l)).2.Represents (s.answer act.client (.dequeue l)).2 := by
  cases hl : s.list l with
  | nil =>
    have hnone : m.heap.fifoDequeue l = none := by
      have hchain := (h.lists.holds l _ rfl).chain
      rw [hl] at hchain
      have hnull : m.heap.next (.dummy l) = none := LinkedChain.visits_nil.mp hchain
      simp [NodeHeap.fifoDequeue, hnull]
    have hanswer : m.answer act.reply (.dequeue l) = (none, m) := by
      simp only [answer, hnone]
    have hsame : s.answer act.client (.dequeue l) = (none, s) := by
      simp only [State.answer, hl, Fifo.dequeue]
    rw [hanswer, hsame]
    exact ⟨rfl, h⟩
  | cons y rest =>
    obtain ⟨heap, hstep, -, hinv⟩ := h.lists.dequeue (f := l) (congrArg some hl)
    have hadmits : ∀ z ∈ rest, l.admits z = true := fun z hz =>
      State.admits_list z (by rw [hl]; exact List.mem_cons_of_mem y hz)
    have hlists : (fun g => some ((s.setList l rest).list g)) =
        Lists.step (fun g => some (s.list g)) (.dequeue l) := by
      rw [State.list_setList hadmits, Lists.step, hl]
      exact Function.comp_update some s.list l _
    have hanswer : m.answer act.reply (.dequeue l) = (some y, { m with heap := heap }) := by
      simp only [answer, hstep]
      rfl
    have hsame : s.answer act.client (.dequeue l) = (some y, s.setList l rest) := by
      simp only [State.answer, hl, Fifo.dequeue]
    rw [hanswer, hsame]
    exact ⟨rfl, h.fields.trans (State.bare_setList s l _).symm, hlists ▸ hinv, h.fault⟩

/-- Every access is answered alike. -/
theorem answer (h : m.Represents s) {e : Access S}
    (hstep : linkStep linked e = some linked')
    (hfresh : ∀ l y, e = .enqueue l y → ∀ g, y ∉ s.list g) :
    (m.answer act.reply e).1 = (s.answer act.client e).1 ∧
      (m.answer act.reply e).2.Represents (s.answer act.client e).2 := by
  cases e with
  | acquire l | release l | func a msg => exact ⟨rfl, h⟩
  | client a => exact ⟨rfl, h⟩
  | load f =>
    refine ⟨?_, h⟩
    change m.fields.load f = s.load f
    rw [h.fields, State.load_bare]
  | store f v =>
    refine ⟨rfl, h.write ?_ (s.list_store f v)⟩
    rw [h.fields]
    exact (s.store_bare f v).symm
  | empty l => exact ⟨(h.lists.holds l _ rfl).empty_eq, h⟩
  | last l =>
    refine ⟨?_, h⟩
    change (m.heap.fifoLast l).bind NodePtr.toNode = Fifo.last (s.list l)
    rw [(h.lists.holds l _ rfl).last_eq]
    cases Fifo.last (s.list l) <;> rfl
  | enqueue l y =>
    exact ⟨rfl, h.enqueue (linkStep_enqueue hstep).1 (hfresh l y rfl)⟩
  | dequeue l => exact h.dequeue
  | request cpu vect =>
    refine ⟨rfl, h.write ?_ (s.list_setPending cpu vect)⟩
    rw [h.fields]
    exact (s.bare_setPending cpu vect).symm

end PointerState.Represents

variable {p p' : Code S Unit} {log : List (Access S)}

/-- After an enqueue the lists are those of the end of the section. -/
theorem list_eq_of_linked (h : Reaches (kernel x) (State.answer act.client) p s log p' s')
    (hlog : log.foldlM linkStep true = some linked') : s'.list = s.list := by
  induction h with
  | refl => rfl
  | call _ ih => exact ih hlog
  | @access e next s s' log p' _ ih =>
    rw [List.foldlM_cons, Option.bind_eq_bind, Option.bind_eq_some_iff] at hlog
    obtain ⟨b, hb, hlog⟩ := hlog
    have hsame : (s.answer act.client e).2.list = s.list := by
      cases e with
      | enqueue l y | dequeue l => cases hb
      | store f v => exact s.list_store f v
      | request cpu vect => exact s.list_setPending cpu vect
      | _ => rfl
    have hb : b = true := by
      cases e with
      | enqueue l y | dequeue l => cases hb
      | _ =>
        cases hb
        rfl
    subst hb
    exact (ih hlog).trans hsame

/-- The code makes the same accesses, and finds the same, in the memory with pointers. -/
theorem PointerState.Represents.reaches (hm : m.Represents s)
    (h : Reaches (kernel x) (State.answer act.client) p s log p' s')
    (hlog : log.foldlM linkStep linked = some linked') {loc : Link → Option (ListId S)}
    (hplaced : Placed s'.list loc) :
    ∃ m', Reaches (kernel x) (PointerState.answer act.reply) p m log p' m' ∧
      m'.Represents s' := by
  induction h generalizing m linked with
  | refl p s => exact ⟨m, .refl p m, hm⟩
  | call _ ih =>
    obtain ⟨m', hreach, hm'⟩ := ih hm hlog hplaced
    exact ⟨m', .call hreach, hm'⟩
  | @access e next s s' log p' hrest ih =>
    rw [List.foldlM_cons, Option.bind_eq_bind, Option.bind_eq_some_iff] at hlog
    obtain ⟨b, hb, hlog⟩ := hlog
    have hfresh : ∀ l y, e = .enqueue l y → ∀ g, y ∉ s.list g := by
      rintro l y rfl
      obtain ⟨hy, rfl⟩ := linkStep_enqueue hb
      rw [list_eq_of_linked hrest hlog] at hplaced
      exact Placed.fresh (State.list_enqueue hy ▸ hplaced)
    obtain ⟨hanswer, hnext⟩ : (m.answer act.reply e).1 = (s.answer act.client e).1 ∧
        (m.answer act.reply e).2.Represents (s.answer act.client e).2 := hm.answer hb hfresh
    obtain ⟨m', hreach, hm'⟩ := ih hnext hlog hplaced
    refine ⟨m', .access ?_, hm'⟩
    rw [hanswer]
    exact hreach

end Simulation

section Placement

variable {s : State S} {L : Ledger S} {loc : ActorId → Option (Place S)}
  {spot : MessageId → Option Spot}

/-- The place of the actors in a list. -/
def ListId.place : ListId S → Place S
  | .items q => .waits q
  | .runq c p => .ready c p
  | .timerq c i => .sleeps c i

/-- The list of the actors in a place. -/
def Place.list : Place S → Option (ListId S)
  | .waits q => some (.items q)
  | .sleeps c i => some (.timerq c i)
  | .ready c p => some (.runq c p)
  | .carried _ => none

/-- The list that a link is in. -/
def linkAt (loc : ActorId → Option (Place S)) (spot : MessageId → Option Spot) :
    Link → Option (ListId S)
  | .actor a => (loc a).bind Place.list
  | .message m => (spot m).bind fun
    | .queued q => some (.items q)
    | .mailed _ | .held => none

/-- Each fifo is one place of the ledger. -/
theorem Place.list_eq_some {k : Place S} {l : ListId S} : k.list = some l ↔ k = l.place := by
  cases k <;> cases l <;> simp [Place.list, ListId.place]

/-- The actors linked in a fifo are those at its place. -/
theorem State.actor_mem_list {l : ListId S} {a : ActorId} :
    .actor a ∈ s.list l ↔ a ∈ s.actorsAt l.place := by
  cases l with
  | items q =>
    change _ ↔ a ∈ (s.queue q).waiters
    simp only [State.list, Queue.waiters, List.mem_filterMap]
    refine ⟨fun h => ⟨_, h, rfl⟩, ?_⟩
    rintro ⟨y, hy, ha⟩
    cases y with
    | actor b =>
      cases ha
      exact hy
    | message m => cases ha
  | runq c p => simp [State.list, State.actorsAt, ListId.place]
  | timerq c i => simp [State.list, State.actorsAt, ListId.place]

/-- Messages are linked in queues alone. -/
theorem State.message_mem_list {l : ListId S} {m : MessageId} :
    .message m ∈ s.list l ↔ ∃ q, l = .items q ∧ m ∈ (s.queue q).messages := by
  cases l with
  | items q =>
    simp only [State.list, Queue.messages, List.mem_filterMap]
    constructor
    · exact fun h => ⟨q, rfl, _, h, rfl⟩
    · rintro ⟨r, hr, y, hy, hm⟩
      cases hr
      cases y with
      | message n =>
        cases hm
        exact hy
      | actor a => cases hm
  | runq c p | timerq c i => simp [State.list]

/-- Every link is in one list at most, once. -/
theorem Inv.placed_links (h : Inv s L loc spot) : Placed s.list (linkAt loc spot) where
  nodup l := by
    cases l with
    | items q =>
      obtain ⟨c, hc⟩ := h.queues.valid q
      have hmessages : c.messages.Nodup := hc.messages_eq ▸ h.messages.placed.nodup (.queued q)
      have hwaiters : c.waiters.Nodup := hc.waiters_eq ▸ h.actors.placed.nodup (.waits q)
      rw [State.list, hc.items]
      refine (hmessages.map fun _ _ => Node.message.inj).append
        (hwaiters.map fun _ _ => Node.actor.inj) fun y hm ha => ?_
      obtain ⟨m, -, rfl⟩ := List.mem_map.mp hm
      obtain ⟨a, -, ha⟩ := List.mem_map.mp ha
      cases ha
    | runq c p => exact (h.actors.placed.nodup (.ready c p)).map fun _ _ => Node.actor.inj
    | timerq c i => exact (h.actors.placed.nodup (.sleeps c i)).map fun _ _ => Node.actor.inj
  mem_iff l y := by
    cases y with
    | actor a =>
      rw [State.actor_mem_list, h.actors.placed.mem_iff]
      simp [linkAt, Option.bind_eq_some_iff, Place.list_eq_some]
    | message m =>
      rw [State.message_mem_list, linkAt, Option.bind_eq_some_iff]
      constructor
      · rintro ⟨q, rfl, hm⟩
        exact ⟨.queued q, h.messages.spot_of_mem (k := .queued q) hm, rfl⟩
      · rintro ⟨k, hk, hl⟩
        cases k with
        | queued q =>
          cases hl
          exact ⟨q, rfl, (h.messages.placed.mem_iff (.queued q) m).mpr hk⟩
        | mailed a | held => cases hl

end Placement

section Runs

variable {s s' : State S} {log : List (Event S)} {x : Ctx} {act : Action S} {es : List (Event S)}
  {m : PointerState S} {stale : NodeHeap (ListId S) Link}

/-- One step of a race-free run, in a memory with pointers. -/
theorem PointerState.Represents.step (hm : m.Represents s) (h : History RaceFree s log)
    (hadm : s.Admits act) (hrace : RaceFree s x act) (hstep : s.step x act = some (s', es)) :
    ∃ clog m', Reaches (kernel x) (PointerState.answer act.reply) (s.code x act) (m.enter x act)
      clog ((s'.pc x).code x) m' ∧ m'.Represents s' := by
  obtain ⟨clog, linked, hreach, hlog⟩ := step_advances hstep
  obtain ⟨⟨loc, spot, hinv⟩, -⟩ := (h.step hadm hrace hstep).sound
  have hplaced := hinv.placed_links
  rw [← State.list_memory] at hplaced
  have henter : (m.enter x act).Represents (s.enter x act).memory :=
    memory_iff.mpr (hm.enter x act)
  obtain ⟨m', hreach', hm'⟩ := henter.reaches hreach hlog hplaced
  exact ⟨clog, m', hreach', memory_iff.mp hm'⟩

/-- The code of the other contexts stays where it is. -/
theorem code_step (hstep : s.step x act = some (s', es)) :
    (fun y => (s'.pc y).code y) =
      Function.update (fun y => (s.pc y).code y) x ((s'.pc x).code x) := by
  funext y
  by_cases hy : y = x
  · rw [hy, Function.update_self]
  · rw [Function.update_of_ne hy, State.step_pc_other hstep hy]

/-- A context inside an operation goes on with its code. -/
theorem enter_busy (hstep : s.step x act = some (s', es)) (hbusy : s.pc x ≠ .idle) :
    m.enter x act = m ∧ s.code x act = (s.pc x).code x := by
  constructor
  · cases act with
    | start vect =>
      cases hpc : s.pc x with
      | idle => exact absurd hpc hbusy
      | _ => simp [State.step, State.advance, hpc] at hstep
    | _ => rfl
  · rw [State.code]
    split
    · rename_i hpc
      exact absurd hpc hbusy
    · rfl

/-- The code of every context, run in a memory with pointers. -/
theorem History.pointerRun (h : History RaceFree s log) :
    ∃ m, PointerRun stale (fun x => (s.pc x).code x) m ∧ m.Represents s := by
  induction h with
  | boot => exact ⟨_, .boot, .boot stale⟩
  | @step s log x act s' es hhist hadm hrace hstep ih =>
    obtain ⟨m, hrun, hm⟩ := ih
    obtain ⟨clog, m', hreach, hm'⟩ := hm.step hhist hadm hrace hstep
    refine ⟨m', ?_, hm'⟩
    rw [code_step hstep]
    by_cases hpc : s.pc x = .idle
    · have hidle : (s.pc x).code x = pure () := by
        rw [hpc]
        rfl
      have henter := hrun.enter x act hidle
      have hcode : s.code x act = act.code x := by rw [State.code, hpc]
      rw [hcode] at hreach
      have hgo := henter.go (x := x) (by
        rw [Function.update_self]
        exact hreach)
      rwa [Function.update_idem] at hgo
    · obtain ⟨henter, hcode⟩ := enter_busy (m := m) hstep hpc
      rw [henter, hcode] at hreach
      exact hrun.go hreach

/-- The kernel runs on pointers. Whatever the nodes hold when the fifos have been initialised, the
code of all contexts, run in a memory of fields and pointers alone, follows every race-free run of
the kernel: after each of its steps the code stands where the run does, no null pointer has been
followed, each fifo of the memory is the chain of the list that the kernel has there, and no two of
them share a node. From every such memory the code makes the next step, whichever it is. -/
theorem kernel_on_pointers (h : History RaceFree s log) (stale : NodeHeap (ListId S) Link) :
    (∃ m, PointerRun stale (fun x => (s.pc x).code x) m ∧ m.Represents s) ∧
    ∀ m : PointerState S, m.Represents s → ∀ x act s' es, s.Admits act → RaceFree s x act →
      s.step x act = some (s', es) →
      ∃ clog m', Reaches (kernel x) (PointerState.answer act.reply) (s.code x act) (m.enter x act)
        clog ((s'.pc x).code x) m' ∧ m'.Represents s' :=
  ⟨h.pointerRun, fun _ hm _ _ _ _ hadm hrace hstep => hm.step h hadm hrace hstep⟩

/-- From a memory full of stale links: the actor `8` has been handed the message `1`, and the
message `2` waits. -/
theorem kernel_on_pointers_stale : ∃ code m,
    PointerRun (S := testPort) ⟨fun _ => some (.node (.actor 8)), fun _ => none⟩ code m ∧
    m.heap.Holds (.items (.queue 0)) [.message 2] ∧ m.heap.Holds (.runq 0 1) [.actor 8] ∧
    m.fields.mailbox 8 = some 1 := by
  let schedule : List (Action testPort) :=
    [.init 8 1 (some (.queue 0)), .next, .push (.queue 0) 1, .next, .next, .push (.queue 0) 2]
  have hlog : ((State.boot testPort).replay [] (schedule.map fun act => (0, act))).map
      (fun r => (r.1.list (.items (.queue 0)), r.1.list (.runq 0 1), r.1.mailbox 8)) =
        some ([.message 2], [.actor 8], some 1) := by decide
  obtain ⟨⟨s, log⟩, hr, heq⟩ := Option.map_eq_some_iff.mp hlog
  simp only [Prod.mk.injEq] at heq
  obtain ⟨hitems, hrunq, hmailbox⟩ := heq
  obtain ⟨hrace, -⟩ := History.replay_alone (D := RaceFree) (State.passes_true _ _)
    (fun s act s' es hs _ _ hstep => RaceFree.of_others hstep fun y hy => by
      rw [hs y hy]
      rfl) hr
  obtain ⟨⟨m, hrun, hm⟩, -⟩ := kernel_on_pointers hrace
    ⟨fun _ => some (.node (.actor 8)), fun _ => none⟩
  refine ⟨_, m, hrun, ?_, ?_, ?_⟩
  · exact hitems ▸ hm.lists.holds _ _ rfl
  · exact hrunq ▸ hm.lists.holds _ _ rfl
  · rw [hm.fields]
    exact hmailbox

end Runs

end Magnesium
