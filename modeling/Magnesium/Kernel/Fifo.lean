import Mathlib.Data.List.Basic

/-!
# Intrusive lists

`mg_fifo_t` seen as the list of its nodes, oldest first. A node is a name: the link embedded in
an actor or in a message. The tail pointer is the last node, or the dummy of the fifo itself,
which no node is; the dummy is `none` here.
-/

namespace Magnesium.Fifo

variable {ν : Type}

/-- `mg_fifo_empty`: the tail pointer is the dummy. -/
def empty (fifo : List ν) : Bool := fifo.isEmpty

/-- `mg_fifo_last`: the tail pointer. -/
def last (fifo : List ν) : Option ν := fifo.getLast?

/-- `mg_fifo_enqueue`. -/
def enqueue (fifo : List ν) (node : ν) : List ν := fifo ++ [node]

/-- `mg_fifo_dequeue`, which follows the null link of the dummy when the list is empty. -/
def dequeue : List ν → Option (ν × List ν)
  | [] => none
  | head :: rest => some (head, rest)

@[simp] theorem empty_nil : empty ([] : List ν) = true := rfl

@[simp] theorem empty_cons (x : ν) (xs : List ν) : empty (x :: xs) = false := rfl

@[simp] theorem dequeue_cons (x : ν) (xs : List ν) : dequeue (x :: xs) = some (x, xs) := rfl

/-- A fifo holds what it held, and the new node. -/
@[simp] theorem mem_enqueue {xs : List ν} {x y : ν} : y ∈ enqueue xs x ↔ y ∈ xs ∨ y = x := by
  simp [enqueue]

/-- The first node is dequeued. -/
theorem dequeue_eq_some {xs rest : List ν} {x : ν} :
    dequeue xs = some (x, rest) ↔ xs = x :: rest := by
  cases xs <;> simp [dequeue]

end Magnesium.Fifo
