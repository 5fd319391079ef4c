import Mathlib.Logic.Function.Basic
import Playground.Lib.Machine

/-!
# Signals and connections (`patterns/software_design/modern_observer.cpp`)

A signal keeps its slots with their ids, in a vector. `connect` returns a
token that holds a function which erases the slot; destroying the token, or
assigning over it, calls that function.
-/

namespace Playground.ModernObserver

structure Signal (S : Type) where
  slots : List (UInt64 × S) := []
  nextId : UInt64 := 0

/-- `disconnect_`: the id that the function erases, when there is a function. -/
abbrev Connection := Option UInt64

section
variable {N S : Type}

def Signal.connect (s : Signal S) (slot : S) : Signal S × Connection :=
  ({ slots := s.slots ++ [(s.nextId, slot)], nextId := s.nextId + 1 }, some s.nextId)

/-- `emit`, where `call` calls a slot with the arguments; a slot may have any effect but one on the signal. -/
def Signal.emit {m : Type → Type} [Monad m] (s : Signal S) (call : S → m Unit) : m Unit :=
  s.slots.forM fun p => call p.2

/-- `if (disconnect_) disconnect_();` -/
def Signal.disconnect (s : Signal S) : Connection → Signal S
  | some id => { s with slots := s.slots.filter fun p => p.1 ≠ id }
  | none => s

/-- The signal and the tokens by name; `none` is a token that is not alive. -/
structure World (N S : Type) where
  signal : Signal S := {}
  tokens : N → Option Connection := fun _ => none

inductive Op (N S : Type)
  | connect (t : N) (slot : S)
  | default (t : N)
  | moveConstruct (t other : N)
  | moveAssign (t other : N)
  | disconnect (t : N)
  | destroy (t : N)

variable [DecidableEq N]

def World.set (w : World N S) (t : N) (c : Option Connection) : World N S :=
  { w with tokens := Function.update w.tokens t c }

/-- `std::exchange(other.disconnect_, nullptr)` into the token `t`. -/
def World.exchange (w : World N S) (t other : N) : World N S :=
  (w.set other (some none)).set t (w.tokens other)

/-- `disconnect` of a token, which then becomes `c`. -/
def World.disconnect (w : World N S) (t : N) (conn : Connection) (c : Option Connection) : World N S :=
  { w with signal := w.signal.disconnect conn }.set t c

def step (w : World N S) : Op N S → Option (World N S)
  | .connect t slot =>
    match w.tokens t with
    | none =>
      let (signal, conn) := w.signal.connect slot
      some ({ w with signal }.set t (some conn))
    | some _ => none
  | .default t =>
    match w.tokens t with
    | none => some (w.set t (some none))
    | some _ => none
  | .moveConstruct t other =>
    match w.tokens t, w.tokens other with
    | none, some _ => some (w.exchange t other)
    | _, _ => none
  | .moveAssign t other =>
    match w.tokens t, w.tokens other with
    | some conn, some _ => some ((w.disconnect t conn (some none)).exchange t other)
    | _, _ => none
  | .disconnect t => (w.tokens t).map fun conn => w.disconnect t conn (some none)
  | .destroy t => (w.tokens t).map fun conn => w.disconnect t conn none

/-- Only a live token is used, and only a name that is free is given to a new one. -/
def observer (N S : Type) [DecidableEq N] : Machine (World N S) (Op N S) Unit where
  init := {}
  step w op := (step w op).map fun w => (w, ())

omit [DecidableEq N] in
/-- The slots connected so far, in order, with the ids they were given. -/
def connected (ops : List (Op N S)) : List (UInt64 × S) :=
  (ops.filterMap fun | .connect _ slot => some slot | _ => none).mapIdx fun i slot => (UInt64.ofNat i, slot)

end

end Playground.ModernObserver
