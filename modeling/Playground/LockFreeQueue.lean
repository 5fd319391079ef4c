import Mathlib.Logic.Function.Basic
import Playground.Lib.Ring
import Playground.Lib.Transition

/-!
# The lock-free queue (`concurrency/lock_free_queue.cpp`)

A ring buffer between one producer and one consumer. Each side reads its own
index, reads the other side's index, moves one item and publishes its own
index; these four accesses are the atomic steps, in any interleaving, over
sequentially consistent atomics. What `push` and `pop` return is recorded in
the order of the returns.
-/

namespace Playground.LockFreeQueue

/-- Where the producer stands in `push`, with its local variables. -/
inductive Producer (α : Type)
  | idle
  | loadedTail (item : α) (tail nextTail : Nat)
  | loadedHead (item : α) (tail nextTail : Nat)
  | written (item : α) (nextTail : Nat)
  deriving DecidableEq

/-- Where the consumer stands in `pop`, with its local variables. -/
inductive Consumer (α : Type)
  | idle
  | loadedHead (head : Nat)
  | loadedTail (head : Nat)
  | read (head : Nat) (item : α)
  deriving DecidableEq

/-- `SPSCQueue<T, Capacity>`, its two threads, and the record of their calls. -/
structure State (α : Type) where
  head : Nat
  tail : Nat
  buffer : Nat → α
  producer : Producer α
  consumer : Consumer α
  pushes : List (α × Bool)
  pops : List (Option α)

/-- The atomic steps; `push` is called with an item. -/
inductive Act (α : Type)
  | pushLoadTail (item : α)
  | pushLoadHead
  | pushWrite
  | pushStore
  | popLoadHead
  | popLoadTail
  | popRead
  | popStore
  deriving DecidableEq

section
variable {α : Type}

/-- `static_assert`: the capacity is a power of two. -/
def ValidCapacity (capacity : Nat) : Prop := capacity ≠ 0 ∧ capacity &&& (capacity - 1) = 0

def next (capacity i : Nat) : Nat := (i + 1) &&& (capacity - 1)

def step (capacity : Nat) (s : State α) : Act α → Option (State α)
  | .pushLoadTail item =>
    match s.producer with
    | .idle => some { s with producer := .loadedTail item s.tail (next capacity s.tail) }
    | _ => none
  | .pushLoadHead =>
    match s.producer with
    | .loadedTail item tail nextTail =>
      if nextTail = s.head then
        some { s with producer := .idle, pushes := s.pushes ++ [(item, false)] } -- queue full
      else some { s with producer := .loadedHead item tail nextTail }
    | _ => none
  | .pushWrite =>
    match s.producer with
    | .loadedHead item tail nextTail =>
      some { s with producer := .written item nextTail, buffer := Function.update s.buffer tail item }
    | _ => none
  | .pushStore =>
    match s.producer with
    | .written item nextTail =>
      some { s with producer := .idle, tail := nextTail, pushes := s.pushes ++ [(item, true)] }
    | _ => none
  | .popLoadHead =>
    match s.consumer with
    | .idle => some { s with consumer := .loadedHead s.head }
    | _ => none
  | .popLoadTail =>
    match s.consumer with
    | .loadedHead head =>
      if head = s.tail then some { s with consumer := .idle, pops := s.pops ++ [none] } -- queue empty
      else some { s with consumer := .loadedTail head }
    | _ => none
  | .popRead =>
    match s.consumer with
    | .loadedTail head => some { s with consumer := .read head (s.buffer head) }
    | _ => none
  | .popStore =>
    match s.consumer with
    | .read head item =>
      some { s with consumer := .idle, head := next capacity head, pops := s.pops ++ [some item] }
    | _ => none

/-- The queue as a system; `garbage` is what the buffer holds before the first push. -/
def queue (capacity : Nat) (garbage : Nat → α) : System (State α) (Act α) where
  init := ⟨0, 0, garbage, .idle, .idle, [], []⟩
  step := step capacity

def State.pushed (s : State α) : List α := s.pushes.filterMap fun p => if p.2 then some p.1 else none

def State.popped (s : State α) : List α := s.pops.filterMap id

/-- The items stored: the slots from `head_` up to `tail_`, modulo the capacity. -/
def State.stored (capacity : Nat) (s : State α) : List α :=
  Ring.slots s.buffer capacity s.head (Ring.dist capacity s.head s.tail)

end

end Playground.LockFreeQueue
