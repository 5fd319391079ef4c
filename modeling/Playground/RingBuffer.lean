import Mathlib.Algebra.Group.Nat.Defs
import Playground.Lib.Loop
import Playground.Lib.Machine

/-!
# The ring buffer and its iterator (`patterns/iterator.cpp`)

`push` writes behind the last value, and over the first one when the buffer is
full. `begin()` and `end()` are counters from `head_` on. An access outside
the array faults, as every access does when there is no element. An array has
fewer than 2^63 elements, so that a sum of two positions does not wrap; the
`- 1` of `back` does when the buffer is new.
-/

namespace Playground.RingBuffer

set_option linter.dupNamespace false in
structure RingBuffer (T : Type) (Capacity : Nat) where
  data : Vector T Capacity
  head : Nat := 0
  size : Nat := 0

structure Iterator (T : Type) (Capacity : Nat) where
  data : Vector T Capacity
  head : Nat
  count : Nat
  index : Nat

section
variable {T : Type} {Capacity : Nat}

/-- A new buffer; `zero` is the `T{}` that the array is filled with. -/
def new (zero : T) : RingBuffer T Capacity where
  data := Vector.replicate Capacity zero

def push (r : RingBuffer T Capacity) (value : T) : Option (RingBuffer T Capacity) :=
  let i := (r.head + r.size) % Capacity
  if h : i < Capacity then
    let data := r.data.set i value h
    if r.size < Capacity then some { r with data, size := r.size + 1 }
    else some { r with data, head := (r.head + 1) % Capacity }
  else none

def front (r : RingBuffer T Capacity) : Option T := r.data[r.head]?

/-- `- 1` of a `size_t`. -/
def pred (n : Nat) : Nat := if n = 0 then 2 ^ 64 - 1 else n - 1

def back (r : RingBuffer T Capacity) : Option T := r.data[pred (r.head + r.size) % Capacity]?

/-! ## Iterators -/

def Iterator.deref (it : Iterator T Capacity) : Option T := it.data[(it.head + it.index) % Capacity]?

def Iterator.increment (it : Iterator T Capacity) : Iterator T Capacity := { it with index := it.index + 1 }

def begin (r : RingBuffer T Capacity) : Iterator T Capacity := ⟨r.data, r.head, r.size, 0⟩

def «end» (r : RingBuffer T Capacity) : Iterator T Capacity := ⟨r.data, r.head, r.size, r.size⟩

/-- A round of `for (auto it = begin; it != last; ++it)` that appends the value `*it`. -/
def visit (last : Iterator T Capacity) : Iterator T Capacity × List T → Loop.Outcome (Iterator T Capacity × List T)
  | (it, values) =>
    if it.index = last.index then .exit
    else .ofOption (it.deref.map fun value => (it.increment, values ++ [value]))

/-- The values from `begin()` to `end()`, in at most `n` evaluations of the loop. -/
def iterate (n : Nat) (r : RingBuffer T Capacity) : Option (List T) :=
  (Loop.run (visit («end» r)) n (begin r, [])).map Prod.snd

def buffer (Capacity : Nat) (zero : T) : Machine (RingBuffer T Capacity) T Unit where
  init := new zero
  step r value := (push r value).map fun r' => (r', ())

end

end Playground.RingBuffer
