import Playground.Lib.Align
import Playground.Lib.Machine

/-!
# The arena (`modern_cpp/custom_allocator.cpp`)

A bump pointer into one buffer, in `size_t` arithmetic: an allocation rounds
the offset up to the alignment and moves it past the bytes asked for. The
ranges handed out since the last `reset` are recorded.
-/

namespace Playground.CustomAllocator

structure Arena where
  capacity : UInt64
  offset : UInt64 := 0
  allocCount : UInt64 := 0
  deriving DecidableEq

/-- `allocate`; the result is the place in the buffer, or none when `std::bad_alloc` is thrown. -/
def Arena.allocate (a : Arena) (bytes alignment : UInt64) : Arena × Option UInt64 :=
  let aligned := (a.offset + alignment - 1) &&& ~~~(alignment - 1)
  if a.capacity < aligned + bytes then (a, none)
  else ({ a with offset := aligned + bytes, allocCount := a.allocCount + 1 }, some aligned)

def Arena.reset (a : Arena) : Arena := { a with offset := 0, allocCount := 0 }

/-- `ArenaAllocator<T>::allocate(n)`, for a type of `size` bytes and alignment `align`. -/
def Arena.allocateObjects (a : Arena) (size align n : UInt64) : Arena × Option UInt64 := a.allocate (n * size) align

structure Block where
  start : UInt64
  bytes : UInt64
  alignment : UInt64

/-- The arena, and the blocks handed out since the last `reset`, the last one first. -/
structure Run where
  arena : Arena
  live : List Block

inductive Call
  | allocate (bytes alignment : UInt64)
  | reset

def step (r : Run) : Call → Run × Option UInt64
  | .allocate bytes alignment =>
    match r.arena.allocate bytes alignment with
    | (arena, some start) => (⟨arena, ⟨start, bytes, alignment⟩ :: r.live⟩, some start)
    | (arena, none) => (⟨arena, r.live⟩, none)
  | .reset => (⟨r.arena.reset, []⟩, none)

def arena (capacity : UInt64) : Machine Run Call (Option UInt64) where
  init := ⟨{ capacity }, []⟩
  step r call := some (step r call)

end Playground.CustomAllocator
