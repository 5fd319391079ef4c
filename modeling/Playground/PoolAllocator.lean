import Mathlib.Algebra.Group.Nat.Defs
import Playground.Lib.Machine

/-!
# The pool allocator (`modern_cpp/custom_allocator.cpp`)

Blocks of `BlockSize` bytes in one array, the free ones linked through their
first bytes. A pointer into the array is an offset, and a stored pointer is
`sizeof(Block*)` bytes, each of which knows its pointer and its place in it.
A link that is written outside the array faults, and so does reading one
where the bytes are not those of one pointer. Alignment is not modelled.
-/

namespace Playground.PoolAllocator

/-- `sizeof(Block*)`. -/
def linkSize : Nat := 8

inductive Byte
  | indeterminate
  | data (value : UInt8)
  | link (next : Option Nat) (i : Nat)
  deriving DecidableEq

abbrev Bytes := Nat → Byte

/-- `block->next`. -/
def loadLink (storage : Bytes) (block : Nat) : Option (Option Nat) :=
  match storage block with
  | .link next _ => if ∀ i < linkSize, storage (block + i) = .link next i then some next else none
  | _ => none

/-- `block->next = next`, wherever that is. -/
def putLink (storage : Bytes) (block : Nat) (next : Option Nat) : Bytes := fun a =>
  if block ≤ a ∧ a < block + linkSize then .link next (a - block) else storage a

set_option linter.dupNamespace false in
structure PoolAllocator where
  storage : Bytes := fun _ => .indeterminate
  freeList : Option Nat := none
  allocated : Nat := 0

section
variable (BlockSize BlockCount : Nat)

/-- The size of `storage_`, a product of `size_t`. -/
def storageSize : Nat := BlockSize * BlockCount % 2 ^ 64

/-- `&storage_[i * BlockSize]`. -/
def blockAt (i : Nat) : Nat := i * BlockSize % 2 ^ 64

/-- `block->next = freeList_; freeList_ = block;` -/
def push (s : PoolAllocator) (block : Nat) : Option PoolAllocator :=
  if block + linkSize ≤ storageSize BlockSize BlockCount then
    some { s with storage := putLink s.storage block s.freeList, freeList := some block }
  else none

def construct : Option PoolAllocator :=
  (List.range BlockCount).foldlM (fun s i => push BlockSize BlockCount s (blockAt BlockSize i)) {}

inductive Outcome
  | returned (ptr : Nat)
  | thrown
  | done
  deriving DecidableEq

def allocate (s : PoolAllocator) : Option (PoolAllocator × Outcome) :=
  match s.freeList with
  | none => some (s, .thrown)
  | some block => do
    let next ← loadLink s.storage block
    some ({ s with freeList := next, allocated := s.allocated + 1 }, .returned block)

def deallocate (s : PoolAllocator) (ptr : Nat) : Option PoolAllocator := do
  let s ← push BlockSize BlockCount s ptr
  some { s with allocated := s.allocated - 1 }

/-! ## The pool and its clients -/

/-- `held` lists the outstanding blocks. -/
structure Clients where
  pool : PoolAllocator
  held : List Nat := []

inductive Call
  | allocate
  | deallocate (ptr : Nat)
  | write (ptr i : Nat) (byte : Byte)
  deriving DecidableEq

def step (s : Clients) : Call → Option (Clients × Outcome)
  | .allocate => do
    let (pool, o) ← PoolAllocator.allocate s.pool
    match o with
    | .returned ptr => some (⟨pool, ptr :: s.held⟩, o)
    | _ => some (⟨pool, s.held⟩, o)
  | .deallocate ptr => do
    let pool ← PoolAllocator.deallocate BlockSize BlockCount s.pool ptr
    some (⟨pool, s.held.erase ptr⟩, .done)
  | .write ptr i byte =>
    let storage := fun a => if a = ptr + i then byte else s.pool.storage a
    some (⟨{ s.pool with storage }, s.held⟩, .done)

def poolAllocator (init : Clients) : Machine Clients Call Outcome where
  init
  step := step BlockSize BlockCount

/-- Clients give back what they hold, and write any bytes into it. -/
def Uses (s : Clients) : Call → Prop
  | .allocate => True
  | .deallocate ptr => ptr ∈ s.held
  | .write ptr i _ => ptr ∈ s.held ∧ i < BlockSize

end

end Playground.PoolAllocator
