import Mathlib.Data.List.Basic

/-!
# Two-sided channels

A channel holds messages nobody has asked for yet, or receivers that have found no message, and
never both. Messages leave in the order of the pushes and receivers in the order of their
subscriptions.
-/

/-- The content of a channel; one of its two sides is empty. -/
@[ext]
structure Channel (μ α : Type) where
  messages : List μ
  waiters : List α
  exclusive : messages = [] ∨ waiters = []

/-- The operations of a channel. -/
inductive ChannelOp (μ α : Type) where
  | push (m : μ)
  | pop (subscriber : Option α)

/-- An operation together with its outcome. -/
inductive ChannelEvent (μ α : Type) where
  /-- A message was pushed; it was stored, or handed to a receiver. -/
  | pushed (m : μ) (receiver : Option α)
  /-- A pop returned a message; if it returned none, the subscriber waits. -/
  | popped (subscriber : Option α) (msg : Option μ)
  deriving DecidableEq

namespace Channel

variable {μ α : Type}

/-- The channel nobody has used. -/
def nil : Channel μ α := ⟨[], [], Or.inl rfl⟩

/-- Hand the message to the first waiter, else store it. -/
def push (c : Channel μ α) (m : μ) : Channel μ α × Option α :=
  match c.waiters with
  | [] => (⟨c.messages ++ [m], [], Or.inr rfl⟩, none)
  | a :: rest => (⟨[], rest, Or.inl rfl⟩, some a)

/-- Return the first message; else the subscriber, if there is one, waits. -/
def pop (c : Channel μ α) (subscriber : Option α) : Channel μ α × Option μ :=
  match c.messages, subscriber with
  | m :: rest, _ => (⟨rest, [], Or.inr rfl⟩, some m)
  | [], some a => (⟨[], c.waiters ++ [a], Or.inl rfl⟩, none)
  | [], none => (c, none)

/-- One operation, with its outcome. -/
def step (c : Channel μ α) : ChannelOp μ α → Channel μ α × ChannelEvent μ α
  | .push m => ((c.push m).1, .pushed m (c.push m).2)
  | .pop subscriber => ((c.pop subscriber).1, .popped subscriber (c.pop subscriber).2)

/-- A run of operations, with their outcomes. -/
def exec (c : Channel μ α) : List (ChannelOp μ α) → Channel μ α × List (ChannelEvent μ α)
  | [] => (c, [])
  | op :: ops => (((c.step op).1.exec ops).1, (c.step op).2 :: ((c.step op).1.exec ops).2)

/-- The messages that pushes have stored. -/
def stored (log : List (ChannelEvent μ α)) : List μ :=
  log.filterMap fun
    | .pushed m none => some m
    | _ => none

/-- The messages that pops have returned. -/
def fetched (log : List (ChannelEvent μ α)) : List μ :=
  log.filterMap fun
    | .popped _ msg => msg
    | _ => none

/-- The receivers that pops have left waiting. -/
def subscribed (log : List (ChannelEvent μ α)) : List α :=
  log.filterMap fun
    | .popped subscriber none => subscriber
    | _ => none

/-- The receivers that pushes have served. -/
def served (log : List (ChannelEvent μ α)) : List α :=
  log.filterMap fun
    | .pushed _ receiver => receiver
    | _ => none

theorem push_nil {c : Channel μ α} (h : c.waiters = []) (m : μ) :
    c.push m = (⟨c.messages ++ [m], [], Or.inr rfl⟩, none) := by
  unfold push
  rw [h]

theorem push_cons {c : Channel μ α} {a : α} {rest : List α} (h : c.waiters = a :: rest) (m : μ) :
    c.push m = (⟨[], rest, Or.inl rfl⟩, some a) := by
  unfold push
  rw [h]

theorem pop_cons {c : Channel μ α} {m : μ} {rest : List μ} (h : c.messages = m :: rest)
    (subscriber : Option α) : c.pop subscriber = (⟨rest, [], Or.inr rfl⟩, some m) := by
  unfold pop
  rw [h]

theorem pop_some {c : Channel μ α} (h : c.messages = []) (a : α) :
    c.pop (some a) = (⟨[], c.waiters ++ [a], Or.inl rfl⟩, none) := by
  unfold pop
  rw [h]

theorem pop_none {c : Channel μ α} (h : c.messages = []) : c.pop none = (c, none) := by
  unfold pop
  rw [h]

/-- One side of a channel is empty, read from the other one. -/
theorem messages_eq_nil {c : Channel μ α} {a : α} {rest : List α} (h : c.waiters = a :: rest) :
    c.messages = [] :=
  c.exclusive.resolve_right (by rw [h]; exact List.cons_ne_nil a rest)

theorem waiters_eq_nil {c : Channel μ α} {m : μ} {rest : List μ} (h : c.messages = m :: rest) :
    c.waiters = [] :=
  c.exclusive.resolve_left (by rw [h]; exact List.cons_ne_nil m rest)

/-- One operation keeps both sides in order: what enters a side goes to its end, what leaves it
comes from its head. -/
theorem step_fifo (c : Channel μ α) (op : ChannelOp μ α) :
    c.messages ++ stored [(c.step op).2] = fetched [(c.step op).2] ++ (c.step op).1.messages ∧
    c.waiters ++ subscribed [(c.step op).2] =
      served [(c.step op).2] ++ (c.step op).1.waiters := by
  cases op with
  | push m =>
    unfold step
    cases h : c.waiters with
    | nil => simp [push_nil h, stored, fetched, subscribed, served]
    | cons a rest =>
      simp [push_cons h, messages_eq_nil h, stored, fetched, subscribed, served]
  | pop subscriber =>
    unfold step
    cases h : c.messages with
    | cons m rest => simp [pop_cons h, waiters_eq_nil h, stored, fetched, subscribed, served]
    | nil =>
      cases subscriber with
      | none => simp [pop_none h, h, stored, fetched, subscribed, served]
      | some a => simp [pop_some h, stored, fetched, subscribed, served]

/-- Over a run, pops return the messages in the order they were stored, and pushes serve the
receivers in the order they subscribed. -/
theorem exec_fifo (c : Channel μ α) (ops : List (ChannelOp μ α)) :
    c.messages ++ stored (c.exec ops).2 = fetched (c.exec ops).2 ++ (c.exec ops).1.messages ∧
    c.waiters ++ subscribed (c.exec ops).2 =
      served (c.exec ops).2 ++ (c.exec ops).1.waiters := by
  induction ops generalizing c with
  | nil => simp [exec, stored, fetched, subscribed, served]
  | cons op ops ih =>
    obtain ⟨hm, hw⟩ := c.step_fifo op
    obtain ⟨hms, hws⟩ := ih (c.step op).1
    have hcons : ∀ (e : ChannelEvent μ α) log, stored (e :: log) = stored [e] ++ stored log ∧
        fetched (e :: log) = fetched [e] ++ fetched log ∧
        subscribed (e :: log) = subscribed [e] ++ subscribed log ∧
        served (e :: log) = served [e] ++ served log := by
      intro e log
      exact ⟨List.filterMap_append (l := [e]), List.filterMap_append (l := [e]),
        List.filterMap_append (l := [e]), List.filterMap_append (l := [e])⟩
    obtain ⟨hs, hf, hsub, hserved⟩ := hcons (c.step op).2 ((c.step op).1.exec ops).2
    constructor
    · rw [exec, hs, hf, ← List.append_assoc, hm, List.append_assoc, hms, List.append_assoc]
    · rw [exec, hsub, hserved, ← List.append_assoc, hw, List.append_assoc, hws,
        List.append_assoc]

end Channel
