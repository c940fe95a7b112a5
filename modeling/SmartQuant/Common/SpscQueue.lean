import SmartQuant.Lib.BoundedFifo

/-!
# The single-producer single-consumer queue

`push` and `pop` in their micro-steps: one load or store of a shared cell each, in
program order, sequentially consistent. A step of a thread is its next micro-step;
what a finished call came to is appended to the history.
-/
namespace SmartQuant

structure SpscQueue (α : Type*) where
  head : Nat := 0
  tail : Nat := 0
  buf : Nat → α

/-- Where a `push` stands: the indices are read before the slot is written, and `head_` is
published last. -/
inductive PushPc (α : Type*) where
  | idle
  | headRead (item : α) (head : Nat)
  | notFull (item : α) (head next : Nat)
  | slotWritten (item : α) (next : Nat)

inductive PopPc (α : Type*) where
  | idle
  | tailRead (tail : Nat)
  | notEmpty (tail : Nat)
  | slotRead (item : α) (tail : Nat)

/-- The queue with its two threads and the outcomes of their finished calls. -/
structure SpscThreads (α : Type*) where
  queue : SpscQueue α
  producer : PushPc α := .idle
  consumer : PopPc α := .idle
  history : List (QueueOutcome α) := []

/-- Which thread moves. An idle producer starts to push the given item. -/
inductive SpscLabel (α : Type*) where
  | producer (item : α)
  | consumer

namespace SpscThreads

variable {α : Type*} (capacity : Nat)

def kMask : Nat := capacity - 1

def pushStep (s : SpscThreads α) (item : α) : SpscThreads α :=
  match s.producer with
  | .idle => { s with producer := .headRead item s.queue.head }
  | .headRead item head =>
    let next := (head + 1) &&& kMask capacity
    if next = s.queue.tail then
      { s with producer := .idle, history := s.history ++ [.full item] }
    else { s with producer := .notFull item head next }
  | .notFull item head next =>
    { s with
      queue := { s.queue with buf := fun i => if i = head then item else s.queue.buf i }
      producer := .slotWritten item next }
  | .slotWritten item next =>
    { s with
      queue := { s.queue with head := next }
      producer := .idle
      history := s.history ++ [.pushed item] }

def popStep (s : SpscThreads α) : SpscThreads α :=
  match s.consumer with
  | .idle => { s with consumer := .tailRead s.queue.tail }
  | .tailRead tail =>
    if tail = s.queue.head then { s with consumer := .idle, history := s.history ++ [.empty] }
    else { s with consumer := .notEmpty tail }
  | .notEmpty tail => { s with consumer := .slotRead (s.queue.buf tail) tail }
  | .slotRead item tail =>
    { s with
      queue := { s.queue with tail := (tail + 1) &&& kMask capacity }
      consumer := .idle
      history := s.history ++ [.popped item] }

def step (s : SpscThreads α) : SpscLabel α → SpscThreads α
  | .producer item => s.pushStep capacity item
  | .consumer => s.popStep capacity

/-- A fresh queue: indices 0, slots holding a default item, both threads idle. -/
def init [Inhabited α] : SpscThreads α := { queue := { buf := fun _ => default } }

end SpscThreads
end SmartQuant
