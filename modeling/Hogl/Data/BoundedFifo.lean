import Mathlib.Data.List.Basic

namespace Hogl.Data

universe u

/-! # A bounded first-in first-out queue with a cursor

The specification keeps every value ever enqueued.  The queue is the part
that has not been consumed, and a cursor walks a snapshot of it. -/

structure BoundedFifo (α : Type u) where
  bound : Nat
  enqueued : List α
  consumed : Nat
  passed : Nat
  limit : Nat

/-- What one step of a client lets an observer see. -/
inductive FifoEvent (α : Type u) where
  | staged
  | enqueued (value : α)
  | dropped
  | peeked (value : Option α)
  | dequeued
  | opened
  | walked (value : Option α)
  | rewound (count : Nat)
  | closed
deriving Repr, DecidableEq

namespace BoundedFifo

variable {α : Type u}

def initial (bound : Nat) : BoundedFifo α :=
  { bound, enqueued := [], consumed := 0, passed := 0, limit := 0 }

def queue (fifo : BoundedFifo α) : List α := fifo.enqueued.drop fifo.consumed

def delivered (fifo : BoundedFifo α) : List α := fifo.enqueued.take fifo.consumed

theorem delivered_append_queue (fifo : BoundedFifo α) :
    fifo.delivered ++ fifo.queue = fifo.enqueued :=
  List.take_append_drop fifo.consumed fifo.enqueued

@[simp] theorem queue_length (fifo : BoundedFifo α) :
    fifo.queue.length = fifo.enqueued.length - fifo.consumed :=
  List.length_drop

/-- The events a bounded queue allows.  A peek and a walk report the value at
the front and at the cursor; a drop is reported exactly when the queue is full. -/
inductive Step : BoundedFifo α → FifoEvent α → BoundedFifo α → Prop where
  | staged (fifo) : Step fifo .staged fifo
  | enqueued {fifo} (value : α) (space : fifo.queue.length < fifo.bound) :
      Step fifo (.enqueued value) { fifo with enqueued := fifo.enqueued ++ [value] }
  | dropped {fifo} (full : fifo.queue.length = fifo.bound) : Step fifo .dropped fifo
  | peeked (fifo) : Step fifo (.peeked fifo.queue.head?) fifo
  | dequeued {fifo} (nonempty : fifo.queue ≠ []) :
      Step fifo .dequeued { fifo with
        consumed := fifo.consumed + 1, passed := fifo.consumed + 1, limit := fifo.consumed + 1 }
  | opened (fifo) :
      Step fifo .opened { fifo with passed := fifo.consumed, limit := fifo.enqueued.length }
  | walked {fifo value} (more : fifo.passed < fifo.limit)
      (read : fifo.enqueued[fifo.passed]? = some value) :
      Step fifo (.walked (some value)) { fifo with passed := fifo.passed + 1 }
  | exhausted {fifo} (done : fifo.passed = fifo.limit) : Step fifo (.walked none) fifo
  | rewound {fifo} {position : Nat} (lower : fifo.consumed < position)
      (upper : position ≤ fifo.limit) :
      Step fifo (.rewound (position - fifo.consumed)) { fifo with passed := position }
  | closed (fifo) : Step fifo .closed { fifo with consumed := fifo.passed }

inductive Accepts : BoundedFifo α → List (FifoEvent α) → BoundedFifo α → Prop where
  | nil (fifo) : Accepts fifo [] fifo
  | cons {before middle after event events} (first : Step before event middle)
      (rest : Accepts middle events after) : Accepts before (event :: events) after

theorem Accepts.bound {before after : BoundedFifo α} {events : List (FifoEvent α)}
    (accepted : Accepts before events after) : after.bound = before.bound := by
  induction accepted with
  | nil => rfl
  | cons first _ ih => cases first <;> exact ih

/-- The values a trace put into the queue, in order. -/
def enqueuedValues : List (FifoEvent α) → List α
  | [] => []
  | .enqueued value :: events => value :: enqueuedValues events
  | _ :: events => enqueuedValues events

/-- Whatever the trace, the consumed values followed by the queued ones are
exactly the values it enqueued, in order. -/
theorem Accepts.conservation {before after : BoundedFifo α} {events : List (FifoEvent α)}
    (accepted : Accepts before events after) :
    after.delivered ++ after.queue = before.enqueued ++ enqueuedValues events := by
  rw [delivered_append_queue]
  induction accepted with
  | nil => simp [enqueuedValues]
  | cons first _ ih => cases first <;> simp [ih, enqueuedValues]

end BoundedFifo

end Hogl.Data
