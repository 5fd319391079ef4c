import Mathlib.Algebra.Group.Nat.Defs
import Playground.Lib.Machine

/-!
# The fixed-size memory pool (`stl_like/memory_pool.cpp`)

Pointers into the pool are indices of blocks. A block is a union: it holds
either a link of the free list or the bytes of the object placed in it, of
type `β`. Taking the one for the other, and any access outside the pool, is
undefined and faults. A constructor that throws yields no bytes.
-/

namespace Playground.MemoryPool

section
variable {β : Type}

inductive Block (β : Type)
  | uninit
  | next (p : Option Nat)
  | storage (bytes : β)
  deriving DecidableEq, Repr

set_option linter.dupNamespace false in
structure MemoryPool (β : Type) where
  pool : List (Block β)
  freeList : Option Nat
  allocated : Nat := 0
  deriving DecidableEq, Repr

/-- `pool_[p] = b`. -/
def writeAt (pool : List (Block β)) (p : Nat) (b : Block β) : Option (List (Block β)) :=
  if p < pool.length then some (pool.set p b) else none

/-- The `for` loop of the constructor, `n` times. -/
def chainBlocks : Nat → List (Block β) → Option (List (Block β))
  | 0, pool => some pool
  | n + 1, pool => do
    let pool ← chainBlocks n pool
    writeAt pool n (.next (some (n + 1)))

/-- `MemoryPool()`. The size of the allocation is a product of `size_t`. -/
def construct (sizeofBlock poolSize : Nat) : Option (MemoryPool β) := do
  let size := sizeofBlock * poolSize % 2 ^ 64
  let pool ← chainBlocks (poolSize - 1) (List.replicate (size / sizeofBlock) .uninit)
  let pool ← writeAt pool (poolSize - 1) (.next none)
  some { pool, freeList := some 0 }

def linkAt (pool : List (Block β)) (p : Nat) : Option (Option Nat) :=
  match pool[p]? with
  | some (.next x) => some x
  | _ => none

inductive Outcome
  | returned (p : Option Nat)
  | thrown
  deriving DecidableEq, Repr

/-- `ctor` is what `T(args...)` makes of the block: its bytes, or an exception. -/
def allocate (m : MemoryPool β) (ctor : Option β) : Option (MemoryPool β × Outcome) :=
  match m.freeList with
  | none => some (m, .returned none) -- pool exhausted
  | some block => do
    let next ← linkAt m.pool block
    let m := { m with freeList := next, allocated := m.allocated + 1 }
    match ctor with
    | some bytes => some ({ m with pool := m.pool.set block (.storage bytes) }, .returned (some block))
    | none => some (m, .thrown)

def deallocate (m : MemoryPool β) : Option Nat → Option (MemoryPool β)
  | none => some m
  | some block =>
    match m.pool[block]? with
    | some (.storage _) =>
      some { pool := m.pool.set block (.next m.freeList), freeList := some block, allocated := m.allocated - 1 }
    | _ => none -- there is no object to destroy

/-! ## The pool and its clients -/

/-- `held` lists the blocks that have been returned and not been given back. -/
structure Clients (β : Type) where
  pool : MemoryPool β
  held : List Nat := []
  deriving DecidableEq, Repr

inductive Call (β : Type)
  | allocate (ctor : Option β)
  | deallocate (p : Option Nat)
  | write (p : Nat) (bytes : β)
  deriving DecidableEq, Repr

def Outcome.hold : Outcome → List Nat → List Nat
  | .returned (some p), held => p :: held
  | _, held => held

/-- The pool from when it has been constructed. -/
def memoryPool (pool : MemoryPool β) : Machine (Clients β) (Call β) Outcome where
  init := { pool }
  step s
    | .allocate ctor => (allocate s.pool ctor).map fun r => (⟨r.1, r.2.hold s.held⟩, r.2)
    | .deallocate none => (deallocate s.pool none).map fun m => (⟨m, s.held⟩, .returned none)
    | .deallocate (some p) => (deallocate s.pool (some p)).map fun m => (⟨m, s.held.erase p⟩, .returned none)
    | .write p bytes => some (⟨{ s.pool with pool := s.pool.pool.set p (.storage bytes) }, s.held⟩, .returned none)

/-- Constructors do not throw, and clients use what they hold only. -/
def Legal (s : Clients β) : Call β → Prop
  | .allocate ctor => ctor ≠ none
  | .deallocate none => True
  | .deallocate (some p) => p ∈ s.held
  | .write p _ => p ∈ s.held

/-- Clients use what they hold only; constructors may throw. -/
def Uses (s : Clients β) : Call β → Prop
  | .allocate _ => True
  | .deallocate none => True
  | .deallocate (some p) => p ∈ s.held
  | .write p _ => p ∈ s.held

end

end Playground.MemoryPool
