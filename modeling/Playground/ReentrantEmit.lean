import Playground.Lib.Machine

/-!
# Emitting while slots connect and disconnect (`patterns/software_design/modern_observer.cpp`)

`emit` goes over the vector of slots with iterators, the end of which is
fixed before the first call, and the calls may change the vector: erasing
moves later slots to the front, and `emplace_back` moves all of them when the
capacity is used up. Dereferencing an iterator faults when the vector has
moved since it was made, and where the vector does not have a slot. Ids do
not wrap.
-/

namespace Playground.ReentrantEmit

structure Signal (S : Type) where
  slots : List (Nat × S) := []
  nextId : Nat := 0
  capacity : Nat := 0

inductive Act (S : Type)
  | connect (slot : S)
  | disconnect (id : Nat)

/-- A call of a slot, and the signal that it was made from. -/
structure Event (S : Type) where
  signal : Signal S
  id : Nat

section
variable {S : Type} (growth : Nat → Nat)

/-- `connect`, and whether `emplace_back` moved the slots; `growth` is the policy of the library. -/
def connect (s : Signal S) (slot : S) : Signal S × Bool :=
  let slots := s.slots ++ [(s.nextId, slot)]
  if s.slots.length < s.capacity then ({ s with slots, nextId := s.nextId + 1 }, false)
  else ({ slots, nextId := s.nextId + 1, capacity := max (growth s.capacity) slots.length }, true)

def disconnect (s : Signal S) (id : Nat) : Signal S := { s with slots := s.slots.filter fun p => p.1 ≠ id }

def act : Signal S × Bool → Act S → Signal S × Bool
  | (s, moved), .connect slot =>
    let (s, m) := connect growth s slot
    (s, moved || m)
  | (s, moved), .disconnect id => (disconnect s id, moved)

def perform (s : Signal S) (acts : List (Act S)) : Signal S × Bool := acts.foldl (act growth) (s, false)

/-- The rounds from position `i` on, `k` of them; the call at position `i` does `acts i`. -/
def emitFrom (acts : Nat → List (Act S)) : Nat → Nat → Signal S × Bool → Option (List (Event S) × Signal S)
  | 0, _, (s, _) => some ([], s)
  | k + 1, i, (s, moved) =>
    if moved then none
    else do
      let (id, _) ← s.slots[i]?
      let (events, s') ← emitFrom acts k (i + 1) (perform growth s (acts i))
      some (⟨s, id⟩ :: events, s')

def emit (acts : Nat → List (Act S)) (s : Signal S) : Option (List (Event S) × Signal S) :=
  emitFrom growth acts s.slots.length 0 (s, false)

inductive Op (S : Type)
  | connect (slot : S)
  | disconnect (id : Nat)
  | emit (acts : Nat → List (Act S))

def signal : Machine (Signal S) (Op S) (List (Event S)) where
  init := {}
  step s
    | .connect slot => some ((connect growth s slot).1, [])
    | .disconnect id => some (disconnect s id, [])
    | .emit acts => (emit growth acts s).map fun r => (r.2, r.1)

end

end Playground.ReentrantEmit
