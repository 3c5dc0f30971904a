import Magnesium.Core.Channel
import Magnesium.Kernel.Fifo
import Mathlib.Data.List.Perm.Subperm

/-!
# Message queues

`mg_queue_t` with its untyped intrusive list: a node is the link of a message or of an actor,
and a dequeued node is cast to the kind the sign of `length` promises. `none` is a cast to the
wrong kind or a dequeue from the empty list.
-/

namespace Magnesium

/-- A link: the structure it is embedded in. -/
inductive Node (μ α : Type) where
  | message (m : μ)
  | actor (a : α)
  deriving DecidableEq

/-- `mg_queue_t`. -/
structure Queue (μ α : Type) where
  items : List (Node μ α)
  /-- Positive length - messages, negative - actors. -/
  length : Int
  deriving DecidableEq

variable {μ α : Type}

/-- `mg_fifo_entry` for a message. -/
def Node.toMessage : Node μ α → Option μ
  | .message m => some m
  | .actor _ => none

/-- `mg_fifo_entry` for an actor. -/
def Node.toActor : Node μ α → Option α
  | .message _ => none
  | .actor a => some a

namespace Queue

/-- `mg_queue_init`. -/
def init : Queue μ α := ⟨[], 0⟩

/-- The locked section of `mg_queue_pop`. -/
def pop (q : Queue μ α) (subscriber : Option α) : Option (Queue μ α × Option μ) :=
  if q.length > 0 then do
    let (head, rest) ← Fifo.dequeue q.items
    let msg ← head.toMessage
    return (⟨rest, q.length - 1⟩, some msg)
  else
    match subscriber with
    | some a => some (⟨Fifo.enqueue q.items (.actor a), q.length - 1⟩, none)
    | none => some (q, none)

/-- The locked section of `mg_queue_push`, with the actor it takes out of the queue. -/
def push (q : Queue μ α) (msg : μ) : Option (Queue μ α × Option α) :=
  if q.length ≥ 0 then some (⟨Fifo.enqueue q.items (.message msg), q.length + 1⟩, none)
  else do
    let (head, rest) ← Fifo.dequeue q.items
    let actor ← head.toActor
    return (⟨rest, q.length + 1⟩, some actor)

/-- The messages among the links of a queue. -/
def messages (q : Queue μ α) : List μ := q.items.filterMap Node.toMessage

/-- The actors among the links of a queue. -/
def waiters (q : Queue μ α) : List α := q.items.filterMap Node.toActor

/-- The queue holds the content of the channel: its list has the links of one kind, and `length`
counts them with the sign of that kind. -/
structure Represents (q : Queue μ α) (c : Channel μ α) : Prop where
  items : q.items = c.messages.map .message ++ c.waiters.map .actor
  length : q.length = c.messages.length - c.waiters.length

theorem represents_init : (init : Queue μ α).Represents Channel.nil := ⟨rfl, rfl⟩

theorem Represents.messages_eq {q : Queue μ α} {c : Channel μ α} (h : q.Represents c) :
    q.messages = c.messages := by
  have hm : Node.toMessage ∘ (Node.message : μ → Node μ α) = some := rfl
  have ha : Node.toMessage ∘ (Node.actor : α → Node μ α) = fun _ => none := rfl
  rw [messages, h.items, List.filterMap_append, List.filterMap_map, List.filterMap_map, hm, ha]
  simp

theorem Represents.waiters_eq {q : Queue μ α} {c : Channel μ α} (h : q.Represents c) :
    q.waiters = c.waiters := by
  have hm : Node.toActor ∘ (Node.message : μ → Node μ α) = fun _ => none := rfl
  have ha : Node.toActor ∘ (Node.actor : α → Node μ α) = some := rfl
  rw [waiters, h.items, List.filterMap_append, List.filterMap_map, List.filterMap_map, hm, ha]
  simp

/-- A push acts as on the channel. -/
theorem Represents.push {q : Queue μ α} {c : Channel μ α} (h : q.Represents c) (m : μ) :
    ∃ q', q.push m = some (q', (c.push m).2) ∧ q'.Represents (c.push m).1 := by
  unfold Queue.push
  cases hw : c.waiters with
  | nil =>
    have hlen : q.length ≥ 0 := by
      rw [h.length, hw, List.length_nil]
      omega
    rw [if_pos hlen, Channel.push_nil hw]
    refine ⟨_, rfl, ?_, ?_⟩
    · rw [Fifo.enqueue, h.items, hw]
      simp
    · simp only [h.length, hw, List.length_append, List.length_singleton, List.length_nil]
      omega
  | cons a rest =>
    have hm := Channel.messages_eq_nil hw
    have hlen : ¬ q.length ≥ 0 := by
      rw [h.length, hw, hm, List.length_nil, List.length_cons]
      omega
    have hitems : q.items = .actor a :: rest.map .actor := by rw [h.items, hm, hw]; rfl
    rw [if_neg hlen, Channel.push_cons hw, hitems]
    refine ⟨_, rfl, by simp, ?_⟩
    simp only [h.length, hw, hm, List.length_nil, List.length_cons]
    omega

/-- A pop acts as on the channel. -/
theorem Represents.pop {q : Queue μ α} {c : Channel μ α} (h : q.Represents c)
    (subscriber : Option α) : ∃ q', q.pop subscriber = some (q', (c.pop subscriber).2) ∧
      q'.Represents (c.pop subscriber).1 := by
  unfold Queue.pop
  cases hm : c.messages with
  | cons m rest =>
    have hw := Channel.waiters_eq_nil hm
    have hlen : q.length > 0 := by
      rw [h.length, hw, hm, List.length_nil, List.length_cons]
      omega
    have hitems : q.items = .message m :: rest.map .message := by rw [h.items, hm, hw]; simp
    rw [if_pos hlen, Channel.pop_cons hm, hitems]
    refine ⟨_, rfl, by simp, ?_⟩
    simp only [h.length, hw, hm, List.length_nil, List.length_cons]
    omega
  | nil =>
    have hlen : ¬ q.length > 0 := by
      rw [h.length, hm, List.length_nil]
      omega
    rw [if_neg hlen]
    cases subscriber with
    | none =>
      rw [Channel.pop_none hm]
      exact ⟨q, rfl, h⟩
    | some a =>
      rw [Channel.pop_some hm]
      refine ⟨_, rfl, ?_, ?_⟩
      · rw [Fifo.enqueue, h.items, hm]
        simp
      · simp only [h.length, hm, List.length_append, List.length_singleton, List.length_nil]
        omega

/-- The list of a queue holds what `length` promises. -/
def Valid (q : Queue μ α) : Prop := ∃ c, q.Represents c

section Valid

variable {q q' : Queue μ α} {m : μ} {a : α}

theorem valid_init : (init : Queue μ α).Valid := ⟨_, represents_init⟩

/-- One kind of links at a time. -/
theorem Valid.exclusive (h : q.Valid) : q.messages = [] ∨ q.waiters = [] := by
  obtain ⟨c, hc⟩ := h
  rw [hc.messages_eq, hc.waiters_eq]
  exact c.exclusive

/-- A push that stores its message. -/
theorem Valid.stored (h : q.Valid) (hpush : q.push m = some (q', none)) :
    q'.Valid ∧ q'.messages = q.messages ++ [m] ∧ q.waiters = [] ∧ q'.waiters = [] := by
  obtain ⟨c, hc⟩ := h
  obtain ⟨q'', heq, hc'⟩ := hc.push m
  rw [heq] at hpush
  cases hw : c.waiters with
  | nil =>
    rw [Channel.push_nil hw] at hpush hc'
    cases hpush
    exact ⟨⟨_, hc'⟩, by rw [hc'.messages_eq, hc.messages_eq], by rw [hc.waiters_eq, hw],
      hc'.waiters_eq⟩
  | cons a rest =>
    rw [Channel.push_cons hw] at hpush
    cases hpush

/-- A push that hands its message to an actor. -/
theorem Valid.handed (h : q.Valid) (hpush : q.push m = some (q', some a)) :
    q'.Valid ∧ q.messages = [] ∧ q'.messages = [] ∧ q.waiters = a :: q'.waiters := by
  obtain ⟨c, hc⟩ := h
  obtain ⟨q'', heq, hc'⟩ := hc.push m
  rw [heq] at hpush
  cases hw : c.waiters with
  | nil =>
    rw [Channel.push_nil hw] at hpush
    cases hpush
  | cons b rest =>
    rw [Channel.push_cons hw] at hpush hc'
    cases hpush
    exact ⟨⟨_, hc'⟩, by rw [hc.messages_eq, Channel.messages_eq_nil hw], hc'.messages_eq,
      by rw [hc.waiters_eq, hc'.waiters_eq, hw]⟩

/-- The actor a push hands its message to is the first link of the list. -/
theorem Valid.items_of_handed (h : q.Valid) (hpush : q.push m = some (q', some a)) :
    ∃ rest, q.items = .actor a :: rest := by
  obtain ⟨-, hm, -, hw⟩ := h.handed hpush
  obtain ⟨c, hc⟩ := h
  rw [hc.messages_eq] at hm
  rw [hc.waiters_eq] at hw
  exact ⟨_, by rw [hc.items, hm, hw]; rfl⟩

/-- A pop that returns a message. -/
theorem Valid.found (h : q.Valid) {subscriber : Option α}
    (hpop : q.pop subscriber = some (q', some m)) :
    q'.Valid ∧ q.messages = m :: q'.messages ∧ q.waiters = [] ∧ q'.waiters = [] := by
  obtain ⟨c, hc⟩ := h
  obtain ⟨q'', heq, hc'⟩ := hc.pop subscriber
  rw [heq] at hpop
  cases hm : c.messages with
  | nil =>
    cases subscriber with
    | none =>
      rw [Channel.pop_none hm] at hpop
      cases hpop
    | some a =>
      rw [Channel.pop_some hm] at hpop
      cases hpop
  | cons n rest =>
    rw [Channel.pop_cons hm] at hpop hc'
    cases hpop
    exact ⟨⟨_, hc'⟩, by rw [hc.messages_eq, hc'.messages_eq, hm],
      by rw [hc.waiters_eq, Channel.waiters_eq_nil hm], hc'.waiters_eq⟩

/-- A pop that leaves its subscriber waiting. -/
theorem Valid.subscribed (h : q.Valid) (hpop : q.pop (some a) = some (q', none)) :
    q'.Valid ∧ q.messages = [] ∧ q'.messages = [] ∧ q'.waiters = q.waiters ++ [a] := by
  obtain ⟨c, hc⟩ := h
  obtain ⟨q'', heq, hc'⟩ := hc.pop (some a)
  rw [heq] at hpop
  cases hm : c.messages with
  | nil =>
    rw [Channel.pop_some hm] at hpop hc'
    cases hpop
    exact ⟨⟨_, hc'⟩, by rw [hc.messages_eq, hm], hc'.messages_eq,
      by rw [hc'.waiters_eq, hc.waiters_eq]⟩
  | cons n rest =>
    rw [Channel.pop_cons hm] at hpop
    cases hpop

/-- A pop without subscriber that finds no message. -/
theorem Valid.missed (h : q.Valid) (hpop : q.pop none = some (q', none)) :
    q' = q ∧ q.messages = [] := by
  obtain ⟨c, hc⟩ := h
  unfold Queue.pop at hpop
  split at hpop
  · simp only [Option.bind_eq_bind, Option.pure_def, Option.bind_eq_some_iff, Option.some.injEq,
      Prod.mk.injEq] at hpop
    obtain ⟨_, _, _, _, _, hmsg⟩ := hpop
    cases hmsg
  · rename_i hlen
    cases hpop
    refine ⟨rfl, ?_⟩
    rw [hc.messages_eq]
    rw [hc.length] at hlen
    rcases c.exclusive with hm | hw
    · exact hm
    · rw [hw] at hlen
      rw [← List.length_eq_zero_iff]
      simp only [List.length_nil] at hlen
      omega

/-- A pop without subscriber leaves the waiting actors alone. -/
theorem Valid.poll_waiters (h : q.Valid) {msg : Option μ} (hpop : q.pop none = some (q', msg)) :
    q'.waiters = q.waiters := by
  cases msg with
  | none => rw [(h.missed hpop).1]
  | some m =>
    obtain ⟨-, -, hw, hw'⟩ := h.found hpop
    rw [hw, hw']

end Valid

/-- One operation, with its outcome. -/
def step (q : Queue μ α) : ChannelOp μ α → Option (Queue μ α × ChannelEvent μ α)
  | .push m => do
    let (q, receiver) ← q.push m
    return (q, .pushed m receiver)
  | .pop subscriber => do
    let (q, msg) ← q.pop subscriber
    return (q, .popped subscriber msg)

/-- A run of operations, with their outcomes. -/
def exec : Queue μ α → List (ChannelOp μ α) → Option (Queue μ α × List (ChannelEvent μ α))
  | q, [] => some (q, [])
  | q, op :: ops => do
    let (q, e) ← q.step op
    let (q, log) ← q.exec ops
    return (q, e :: log)

/-- The link an operation may put into the list. -/
def linked : ChannelOp μ α → Option (Node μ α)
  | .push m => some (.message m)
  | .pop subscriber => subscriber.map .actor

/-- No operation of the run links a node that the list holds already. -/
def LinksOnce (q : Queue μ α) : List (ChannelOp μ α) → Prop
  | [] => True
  | op :: ops => (∀ x, linked op = some x → x ∉ q.items) ∧
      match q.step op with
      | some (q', _) => q'.LinksOnce ops
      | none => True

theorem Represents.step {q : Queue μ α} {c : Channel μ α} (h : q.Represents c)
    (op : ChannelOp μ α) :
    ∃ q', q.step op = some (q', (c.step op).2) ∧ q'.Represents (c.step op).1 := by
  cases op with
  | push m =>
    obtain ⟨q', hq, h'⟩ := h.push m
    exact ⟨q', by simp [Queue.step, hq, Channel.step], h'⟩
  | pop subscriber =>
    obtain ⟨q', hq, h'⟩ := h.pop subscriber
    exact ⟨q', by simp [Queue.step, hq, Channel.step], h'⟩

/-- The simulation of a whole run. -/
theorem Represents.exec {q : Queue μ α} {c : Channel μ α} (h : q.Represents c)
    (ops : List (ChannelOp μ α)) :
    ∃ q', q.exec ops = some (q', (c.exec ops).2) ∧ q'.Represents (c.exec ops).1 := by
  induction ops generalizing q c with
  | nil => exact ⟨q, rfl, h⟩
  | cons op ops ih =>
    obtain ⟨q₁, hq₁, h₁⟩ := h.step op
    obtain ⟨q₂, hq₂, h₂⟩ := ih h₁
    exact ⟨q₂, by simp [Queue.exec, hq₁, hq₂, Channel.exec], h₂⟩

theorem dequeue_sublist {xs rest : List (Node μ α)} {x : Node μ α}
    (h : Fifo.dequeue xs = some (x, rest)) : rest.Sublist xs := by
  rw [Fifo.dequeue_eq_some.mp h]
  exact List.sublist_cons_self x rest

theorem push_items {q q' : Queue μ α} {m : μ} {receiver : Option α}
    (h : q.push m = some (q', receiver)) :
    q'.items.Sublist q.items ∨ q'.items = q.items ++ [.message m] := by
  unfold push at h
  split at h
  · cases h
    exact Or.inr rfl
  · simp only [Option.bind_eq_bind, Option.pure_def, Option.bind_eq_some_iff, Option.some.injEq,
      Prod.mk.injEq] at h
    obtain ⟨_, hd, _, _, rfl, _⟩ := h
    exact Or.inl (dequeue_sublist hd)

theorem pop_items {q q' : Queue μ α} {subscriber : Option α} {msg : Option μ}
    (h : q.pop subscriber = some (q', msg)) : q'.items.Sublist q.items ∨
      ∃ a, subscriber = some a ∧ q'.items = q.items ++ [.actor a] := by
  unfold pop at h
  split at h
  · simp only [Option.bind_eq_bind, Option.pure_def, Option.bind_eq_some_iff, Option.some.injEq,
      Prod.mk.injEq] at h
    obtain ⟨_, hd, _, _, rfl, _⟩ := h
    exact Or.inl (dequeue_sublist hd)
  · cases subscriber with
    | none =>
      cases h
      exact Or.inl (List.Sublist.refl _)
    | some a =>
      cases h
      exact Or.inr ⟨a, rfl, rfl⟩

/-- An operation takes links out of the list, or appends the link it brings. -/
theorem step_items {q q' : Queue μ α} {op : ChannelOp μ α} {e : ChannelEvent μ α}
    (h : q.step op = some (q', e)) :
    q'.items.Sublist q.items ∨ ∃ x, linked op = some x ∧ q'.items = q.items ++ [x] := by
  cases op with
  | push m =>
    simp only [step, Option.bind_eq_bind, Option.pure_def, Option.bind_eq_some_iff,
      Option.some.injEq, Prod.mk.injEq] at h
    obtain ⟨_, hp, rfl, _⟩ := h
    exact (push_items hp).imp_right fun happ => ⟨_, rfl, happ⟩
  | pop subscriber =>
    simp only [step, Option.bind_eq_bind, Option.pure_def, Option.bind_eq_some_iff,
      Option.some.injEq, Prod.mk.injEq] at h
    obtain ⟨_, hp, rfl, _⟩ := h
    apply (pop_items hp).imp_right
    rintro ⟨a, rfl, happ⟩
    exact ⟨_, rfl, happ⟩

/-- A run that links no node twice keeps its links distinct, and brings no others. -/
theorem LinksOnce.exec {q q' : Queue μ α} {ops : List (ChannelOp μ α)}
    {log : List (ChannelEvent μ α)} (hops : q.LinksOnce ops) (h : q.exec ops = some (q', log))
    (hnodup : q.items.Nodup) {nodes : List (Node μ α)} (hq : q.items ⊆ nodes)
    (hnodes : ∀ op ∈ ops, ∀ x, linked op = some x → x ∈ nodes) :
    q'.items.Nodup ∧ q'.items ⊆ nodes := by
  induction ops generalizing q log with
  | nil =>
    cases h
    exact ⟨hnodup, hq⟩
  | cons op ops ih =>
    simp only [Queue.exec, Option.bind_eq_bind, Option.pure_def, Option.bind_eq_some_iff,
      Option.some.injEq, Prod.mk.injEq] at h
    obtain ⟨⟨q₁, e⟩, hstep, ⟨q₂, es⟩, hrun, rfl, -⟩ := h
    have hrest : ∀ op ∈ ops, ∀ x, linked op = some x → x ∈ nodes := fun op hop =>
      hnodes op (List.mem_cons_of_mem _ hop)
    obtain ⟨hfresh, hlinks⟩ := hops
    rw [hstep] at hlinks
    rcases step_items hstep with hsub | ⟨x, hx, happ⟩
    · exact ih hlinks hrun (hsub.nodup hnodup)
        (fun y hy => hq (hsub.subset hy)) hrest
    · apply ih hlinks hrun _ _ hrest
      · rw [happ, List.nodup_append]
        refine ⟨hnodup, by simp, fun y hy z hz => ?_⟩
        rw [List.mem_singleton.mp hz]
        rintro rfl
        exact hfresh y hx hy
      · rw [happ]
        exact List.append_subset.mpr ⟨hq, by simpa using hnodes op List.mem_cons_self x hx⟩

/-- A queue refines a two-sided FIFO channel. After every run of pushes and pops on an
initialised queue that links no node twice, over at most `intMax` nodes: no operation has
dequeued from an empty list or cast a node to the wrong kind; the queue holds messages or
waiting actors, never both, and `length` is their signed number, within the range of an `int`;
every operation had the outcome it has on the channel. So pops return the messages in the order
of the pushes and actors are served in the order of their subscriptions; a further push hands
its message to the first waiting actor and leaves the others waiting, and a pop without
subscriber that finds no message changes nothing. -/
theorem queue_refines_channel {intMax : Nat} {nodes : List (Node μ α)}
    (hmax : nodes.length ≤ intMax) {ops : List (ChannelOp μ α)}
    (hnodes : ∀ op ∈ ops, ∀ x, linked op = some x → x ∈ nodes)
    (hops : (init : Queue μ α).LinksOnce ops) :
    ∃ (q : Queue μ α) (c : Channel μ α) (log : List (ChannelEvent μ α)),
      init.exec ops = some (q, log) ∧ Channel.nil.exec ops = (c, log) ∧
      ((∃ ms : List μ, q.items = ms.map .message ∧ q.length = ms.length) ∨
        (∃ as : List α, q.items = as.map .actor ∧ q.length = -as.length)) ∧
      -intMax ≤ q.length ∧ q.length ≤ intMax ∧
      Channel.stored log = Channel.fetched log ++ q.messages ∧
      Channel.subscribed log = Channel.served log ++ q.waiters ∧
      (∀ m, ∃ q', q.push m = some (q', q.waiters.head?) ∧
        (q.waiters ≠ [] → q'.waiters = q.waiters.tail)) ∧
      (q.messages = [] → q.pop none = some (q, none)) := by
  obtain ⟨q, hq, h⟩ := represents_init.exec ops
  obtain ⟨hnodup, hsub⟩ := hops.exec hq List.nodup_nil (List.nil_subset nodes) hnodes
  have hlen : q.items.length ≤ intMax :=
    Nat.le_trans (List.subperm_of_subset hnodup hsub).length_le hmax
  obtain ⟨hm, hw⟩ := Channel.nil.exec_fifo ops
  rw [h.items, List.length_append, List.length_map, List.length_map] at hlen
  refine ⟨q, _, _, hq, rfl, ?_, by rw [h.length]; omega, by rw [h.length]; omega, ?_, ?_,
    fun m => ?_, fun hnil => ?_⟩
  · rcases (Channel.nil.exec ops).1.exclusive with hnil | hnil
    · exact Or.inr ⟨_, by rw [h.items, hnil]; rfl, by rw [h.length, hnil]; simp⟩
    · exact Or.inl ⟨(Channel.nil.exec ops).1.messages, by rw [h.items, hnil]; simp,
        by rw [h.length, hnil]; simp⟩
  · rw [h.messages_eq]
    exact hm
  · rw [h.waiters_eq]
    exact hw
  · obtain ⟨q', hq', h'⟩ := h.push m
    refine ⟨q', ?_, fun hne => ?_⟩
    · rw [hq', h.waiters_eq]
      cases hc : (Channel.nil.exec ops).1.waiters with
      | nil => rw [Channel.push_nil hc]; rfl
      | cons a rest => rw [Channel.push_cons hc]; rfl
    · rw [h.waiters_eq] at hne ⊢
      rw [h'.waiters_eq]
      cases hc : (Channel.nil.exec ops).1.waiters with
      | nil => exact absurd hc hne
      | cons a rest => rw [Channel.push_cons hc]; rfl
  · obtain ⟨q', hq', h'⟩ := h.pop none
    rw [h.messages_eq] at hnil
    have hlen : ¬ q.length > 0 := by rw [h.length, hnil]; simp
    unfold Queue.pop
    rw [if_neg hlen]

/-- Two actors wait; the messages that follow serve both before one is stored. -/
theorem queue_refines_channel_crossing : ∃ q : Queue Nat Nat, (∃ log, init.exec
      [.pop (some 1), .pop (some 2), .push 7, .push 8, .push 9, .pop none] = some (q, log)) ∧
      q.length ≤ 5 := by
  obtain ⟨q, -, log, hq, -, -, -, hlen, -⟩ := queue_refines_channel (μ := Nat) (α := Nat)
    (show [.actor 1, .actor 2, .message 7, .message 8, .message 9].length ≤ 5 by decide)
    (show ∀ op ∈ [ChannelOp.pop (some 1), .pop (some 2), .push 7, .push 8, .push 9, .pop none],
      ∀ x, linked op = some x →
        x ∈ [Node.actor 1, .actor 2, .message 7, .message 8, .message 9] by simp [linked])
    (by simp [LinksOnce, step, push, pop, init, linked, Fifo.enqueue, Node.toActor,
      Node.toMessage])
  exact ⟨q, ⟨log, hq⟩, hlen⟩

end Queue

end Magnesium
