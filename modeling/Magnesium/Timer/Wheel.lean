import Magnesium.Kernel.Fifo
import Mathlib.Algebra.Ring.Nat
import Mathlib.Logic.Function.Basic

/-!
# The timer queues of one CPU

`mg_context_tick` and `_mg_actor_timeout` at the granularity of their locked sections. A tick
begins with the section that increments the counter and, after each visited entry, releases the
lock in a window; it resumes with the section that follows the window. `none` is a failed
assertion.
-/

namespace Magnesium

/-- `INT32_MAX`. -/
def int32Max : UInt32 := 2147483647

/-- `__builtin_clz` on a 32-bit operand; undefined at zero, where no caller applies it. -/
def portClz (v : UInt32) : Nat := if v = 0 then 32 else 31 - v.toNat.log2

/-- `_mg_diff_msb`, for `M` timer queues. -/
def diffMsb (M : Nat) [NeZero M] (x y : UInt32) : Option (Fin M) :=
  if x = y then none
  else
    let width := 32
    let msb := width - portClz (x ^^^ y) - 1
    some (if h : msb < M then ⟨msb, h⟩ else ⟨M - 1, Nat.sub_one_lt (NeZero.ne M)⟩)

/-- The fields of `mg_cpu_context_t` and of the actors that the timer code reads and writes. -/
structure Wheel (M : Nat) (α : Type) where
  /-- `timerq`, each queue oldest first. -/
  timerq : Fin M → List α
  /-- `ticks`. -/
  ticks : UInt32
  /-- The field `timeout` of every actor. -/
  timeout : α → UInt32

/-- Where the execution of `mg_context_tick` stands between two of its locked sections. -/
inductive TickPc (M : Nat) (α : Type) where
  /-- The tick has returned, or has not started. -/
  | done
  /-- The lock is released after one entry; the locals are `i`, `last`, `head` and
  `actor_to_wake`. -/
  | window (i : Fin M) (last : Option α) (head : α) (wake : Option α)
  deriving DecidableEq

namespace Wheel

variable {M : Nat} {α : Type} [DecidableEq α]

/-- Replace one timer queue. -/
def setTimerq (w : Wheel M α) (i : Fin M) (queue : List α) : Wheel M α :=
  { w with timerq := Function.update w.timerq i queue }

/-- Write the field `timeout` of one actor. -/
def setTimeout (w : Wheel M α) (a : α) (v : UInt32) : Wheel M α :=
  { w with timeout := Function.update w.timeout a v }

variable [NeZero M]

/-- `_mg_actor_timeout`: the whole locked section. -/
def actorTimeout (w : Wheel M α) (a : α) : Option (Wheel M α) :=
  if w.timeout a ≠ 0 ∧ w.timeout a < int32Max then do
    let w := w.setTimeout a (w.timeout a + w.ticks)
    let i ← diffMsb M w.ticks (w.timeout a)
    return w.setTimerq i (Fifo.enqueue (w.timerq i) a)
  else none

/-- `mg_sleep_for` followed by `_mg_actor_timeout`. -/
def sleep (w : Wheel M α) (a : α) (delay : UInt32) : Option (Wheel M α) :=
  (w.setTimeout a delay).actorTimeout a

/-- The head of the `while` loop of `mg_context_tick` and its body up to the release. -/
def tickLoop (w : Wheel M α) (i : Fin M) (last : Option α) :
    Option (Wheel M α × TickPc M α) :=
  if Fifo.empty (w.timerq i) then some (w, .done)
  else do
    let (head, rest) ← Fifo.dequeue (w.timerq i)
    let w := w.setTimerq i rest
    if w.timeout head = w.ticks then
      return (w.setTimeout head 0, .window i last head (some head))
    else
      let j ← diffMsb M (w.timeout head) w.ticks
      return (w.setTimerq j (Fifo.enqueue (w.timerq j) head), .window i last head none)

/-- The first locked section of `mg_context_tick`. -/
def tickBegin (w : Wheel M α) : Option (Wheel M α × TickPc M α) := do
  let oldticks := w.ticks
  let w := { w with ticks := oldticks + 1 }
  let i ← diffMsb M oldticks w.ticks
  w.tickLoop i (Fifo.last (w.timerq i))

/-- The locked section after a window: leave at the remembered last node, else loop. -/
def tickResume (w : Wheel M α) (i : Fin M) (last : Option α) (head : α) :
    Option (Wheel M α × TickPc M α) :=
  if some head = last then some (w, .done) else w.tickLoop i last

/-- The rest of a tick that nobody preempts, with the actors it activates in order. The fuel
bounds the number of windows left. -/
def tickRun : Nat → Wheel M α → TickPc M α → Option (Wheel M α × List α)
  | _, w, .done => some (w, [])
  | 0, _, .window .. => none
  | fuel + 1, w, .window i last head wake => do
    let (w, pc) ← w.tickResume i last head
    let (w, woken) ← tickRun fuel w pc
    return (w, wake.toList ++ woken)

/-- `mg_context_tick` taken as atomic. It makes one window for each entry it visits, so the
length of the selected queue is enough fuel. -/
def tick (w : Wheel M α) : Option (Wheel M α × List α) := do
  let (w, pc) ← w.tickBegin
  let fuel := match pc with
    | .done => 0
    | .window i _ _ _ => (w.timerq i).length + 1
  w.tickRun fuel pc

/-- The link of the actor is in some timer queue. -/
def Asleep (w : Wheel M α) (a : α) : Prop := ∃ i, a ∈ w.timerq i

/-- Links are intrusive: an actor is in at most one timer queue, at one place. -/
structure Linked (w : Wheel M α) : Prop where
  nodup : ∀ i, (w.timerq i).Nodup
  unique : ∀ i j a, a ∈ w.timerq i → a ∈ w.timerq j → i = j

end Wheel

end Magnesium
