import Playground.Lib.Monitor
import Playground.Lib.Transition

/-!
# The bounded buffer (`concurrency/producer_consumer.cpp`)

A buffer of fixed capacity between producers and consumers, with a condition
variable for each side. Both operations run in one critical section, and
notify the other side before they leave it; `wait` leaves the critical
section, and the predicate is checked again in a later one. So the steps are
the critical sections: the first one of a call, those after a wakeup, and the
wakeups that nobody asked for. What was produced and consumed is recorded.
-/

namespace Playground.BoundedBuffer

open Monitor

/-- Where a thread is between critical sections; a producer keeps its item. -/
inductive Pc (α : Type)
  | idle
  | waitNotFull (item : α)
  | wokenNotFull (item : α)
  | waitNotEmpty
  | wokenNotEmpty
  deriving DecidableEq

structure State (T α : Type) where
  buffer : List α := []
  pc : T → Pc α := fun _ => .idle
  produced : List α := []
  consumed : List α := []

/-- The steps; `w` is the thread that `notify_one` wakes, if it is called and some thread waits. -/
inductive Act (T α : Type)
  | produce (t : T) (item : α) (w : Option T)
  | consume (t : T) (w : Option T)
  | recheck (t : T) (w : Option T)
  | spurious (t : T)
  deriving DecidableEq

section
variable {α : Type}

def Pc.waitsNotFull : Pc α → Bool
  | .waitNotFull _ => true
  | _ => false

def Pc.waitsNotEmpty : Pc α → Bool
  | .waitNotEmpty => true
  | _ => false

def Pc.isWokenNotFull : Pc α → Bool
  | .wokenNotFull _ => true
  | _ => false

def Pc.isWokenNotEmpty : Pc α → Bool
  | .wokenNotEmpty => true
  | _ => false

def wake : Pc α → Pc α
  | .waitNotFull item => .wokenNotFull item
  | .waitNotEmpty => .wokenNotEmpty
  | c => c

variable {T : Type} [Fintype T] [DecidableEq T]

def produce (capacity : Nat) (s : State T α) (t : T) (item : α) (w : Option T) : Option (State T α) :=
  if s.buffer.length < capacity then
    (notifyOne Pc.waitsNotEmpty wake s.pc w).map fun pc =>
      { s with buffer := s.buffer ++ [item], produced := s.produced ++ [item], pc := Function.update pc t .idle }
  else some { s with pc := Function.update s.pc t (.waitNotFull item) }

def consume (s : State T α) (t : T) (w : Option T) : Option (State T α) :=
  match s.buffer with
  | [] => some { s with pc := Function.update s.pc t .waitNotEmpty }
  | item :: buffer =>
    (notifyOne Pc.waitsNotFull wake s.pc w).map fun pc =>
      { s with buffer, consumed := s.consumed ++ [item], pc := Function.update pc t .idle }

def step (capacity : Nat) (s : State T α) : Act T α → Option (State T α)
  | .produce t item w =>
    match s.pc t with
    | .idle => produce capacity s t item w
    | _ => none
  | .consume t w =>
    match s.pc t with
    | .idle => consume s t w
    | _ => none
  | .recheck t w =>
    match s.pc t with
    | .wokenNotFull item => produce capacity s t item w
    | .wokenNotEmpty => consume s t w
    | _ => none
  | .spurious t =>
    if (s.pc t).waitsNotFull || (s.pc t).waitsNotEmpty then
      some { s with pc := Function.update s.pc t (wake (s.pc t)) }
    else none

def boundedBuffer (T α : Type) [Fintype T] [DecidableEq T] (capacity : Nat) : System (State T α) (Act T α) where
  init := {}
  step := step capacity

end

end Playground.BoundedBuffer
