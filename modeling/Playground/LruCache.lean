import Playground.Lib.DListCells
import Playground.Lib.Machine

/-!
# The LRU cache (`stl_like/lru_cache.cpp`)

A doubly linked list of nodes in the heap, most recently used first, and a
map from keys to nodes. Dereferencing a null or dangling pointer faults;
`new` returns an address that was never used before.
-/

namespace Playground.LruCache

open DList

/-- `LRUCache<K, V>` and the heap its nodes live in; `fresh` is the next address. -/
structure LRUCache (K V : Type) where
  capacity : Nat
  size : Nat := 0
  head : Option Nat := none
  tail : Option Nat := none
  map : K → Option Nat := fun _ => none
  heap : Heap (K × V) := fun _ => none
  fresh : Nat := 0

section
variable {K V : Type}

def moveToFront (c : LRUCache K V) (node : Nat) : Option (LRUCache K V) :=
  if some node = c.head then some c
  else do
    -- detach
    let heap := c.heap
    let n ← heap node
    let heap ← linkNext heap n.prev n.next
    let n ← heap node
    let heap ← linkPrev heap n.next n.prev
    let n ← heap node
    let tail := if some node = c.tail then n.prev else c.tail
    -- attach to front
    let heap ← modify heap node fun n => { n with prev := none, next := c.head }
    let heap ← linkPrev heap c.head (some node)
    let tail := if tail.isNone then some node else tail
    some { c with heap, head := some node, tail }

section
variable [DecidableEq K]

def evict (c : LRUCache K V) : Option (LRUCache K V) :=
  match c.tail with
  | none => some c
  | some victim => do
    let n ← c.heap victim
    let tail := n.prev
    let heap ← linkNext c.heap tail none
    let head := if tail.isSome then c.head else none
    let n ← heap victim
    some { c with
      heap := Function.update heap victim none
      head, tail
      map := Function.update c.map n.data.1 none
      size := c.size - 1 }

/-- `get`, with the value the returned pointer points to. -/
def get (c : LRUCache K V) (key : K) : Option (LRUCache K V × Option V) :=
  match c.map key with
  | none => some (c, none)
  | some node => do
    let c ← moveToFront c node
    let n ← c.heap node
    some (c, some n.data.2)

/-- The end of `put`: a new node in front of the list. -/
def insertNew (c : LRUCache K V) (key : K) (value : V) : Option (LRUCache K V) := do
  let node := c.fresh
  let heap := Function.update c.heap node (some ⟨(key, value), none, c.head⟩)
  let heap ← linkPrev heap c.head (some node)
  some { c with
    heap
    head := some node
    tail := if c.tail.isNone then some node else c.tail
    map := Function.update c.map key (some node)
    size := c.size + 1
    fresh := c.fresh + 1 }

/-- What a reference to the value of a node refers to. -/
def LRUCache.live (c : LRUCache K V) (node : Nat) : Option V := (c.heap node).map fun n => n.data.2

def put (c : LRUCache K V) (key : Arg Nat V K) (value : Arg Nat V V) : Option (LRUCache K V) := do
  let k ← key.read c.live
  match c.map k with
  | some node =>
    let v ← value.read c.live
    let heap ← modify c.heap node fun n => { n with data := (n.data.1, v) }
    moveToFront { c with heap } node
  | none =>
    let c ← if c.size = c.capacity then evict c else some c
    -- `new Node(key, value)` reads the references after `delete victim`
    let k ← key.read c.live
    let v ← value.read c.live
    insertNew c k v

end

/-- `~LRUCache`. Every round deletes a node, and there are no more than were ever allocated. -/
def destroy (c : LRUCache K V) : Option (LRUCache K V) := do
  let (heap, head) ← Loop.run freeBody (c.fresh + 1) (c.heap, c.head)
  some { c with heap, head }

/-- A call whose arguments are objects of the caller. -/
inductive Call (K V : Type)
  | get (key : K)
  | put (key : K) (value : V)
  deriving DecidableEq

def lruCache (K V : Type) [DecidableEq K] (capacity : Nat) : Machine (LRUCache K V) (Call K V) (Option V) where
  init := { capacity }
  step c
    | .get key => get c key
    | .put key value => (put c (.outside key) (.outside value)).map fun c => (c, none)

end

end Playground.LruCache
