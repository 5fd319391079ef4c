import Playground.Lib.DList
import Playground.Lib.Loop
import Playground.Lib.Machine

/-!
# The doubly linked list (`stl_like/doubly_linked_list.cpp`)

Any number of list objects over one heap of nodes. A failed assertion, and
dereferencing a null or dangling pointer, faults; `new` returns an address
that was never used before.
-/

namespace Playground.DoublyLinkedList

open DList

structure Memory (T : Type) where
  heap : Heap T := fun _ => none
  fresh : Nat := 0

set_option linter.dupNamespace false in
structure DoublyLinkedList where
  head : Option Nat := none
  tail : Option Nat := none
  size : Nat := 0
  deriving DecidableEq, Repr

section
variable {T : Type}

/-! ## One list -/

def clearBody : Heap T × Option Nat → Loop.Outcome (Heap T × Option Nat)
  | (_, none) => .exit
  | (heap, some tmp) =>
    match heap tmp with
    | some n => .next (Function.update heap tmp none, n.next)
    | none => .fault

/-- Every round deletes a node, and there are no more than were ever allocated. -/
def clear (m : Memory T) (l : DoublyLinkedList) : Option (Memory T × DoublyLinkedList) := do
  let (heap, head) ← Loop.run clearBody (m.fresh + 1) (m.heap, l.head)
  some ({ m with heap }, { head, tail := none, size := 0 })

def pushFront (m : Memory T) (l : DoublyLinkedList) (val : T) : Option (Memory T × DoublyLinkedList) := do
  let n := m.fresh
  let heap := Function.update m.heap n (some ⟨val, none, l.head⟩)
  let heap ← linkPrev heap l.head (some n)
  let tail := if l.tail.isNone then some n else l.tail
  some (⟨heap, n + 1⟩, { head := some n, tail, size := l.size + 1 })

def pushBack (m : Memory T) (l : DoublyLinkedList) (val : T) : Option (Memory T × DoublyLinkedList) := do
  let n := m.fresh
  let heap := Function.update m.heap n (some ⟨val, l.tail, none⟩)
  let heap ← linkNext heap l.tail (some n)
  let head := if l.head.isNone then some n else l.head
  some (⟨heap, n + 1⟩, { head, tail := some n, size := l.size + 1 })

def popFront (m : Memory T) (l : DoublyLinkedList) : Option (Memory T × DoublyLinkedList) := do
  let tmp ← l.head
  let n ← m.heap tmp
  let head := n.next
  let heap ← linkPrev m.heap head none
  let tail := if head.isSome then l.tail else none
  some ({ m with heap := Function.update heap tmp none }, { head, tail, size := l.size - 1 })

def popBack (m : Memory T) (l : DoublyLinkedList) : Option (Memory T × DoublyLinkedList) := do
  let tmp ← l.tail
  let n ← m.heap tmp
  let tail := n.prev
  let heap ← linkNext m.heap tail none
  let head := if tail.isSome then l.head else none
  some ({ m with heap := Function.update heap tmp none }, { head, tail, size := l.size - 1 })

/-- `for (size_t i = 0; i < pos; ++i) cur = cur->next`. -/
def advance (heap : Heap T) : Nat → Option Nat → Option (Option Nat)
  | 0, cur => some cur
  | pos + 1, cur => do
    let n ← heap (← cur)
    advance heap pos n.next

def insertAt (m : Memory T) (l : DoublyLinkedList) (pos : Nat) (val : T) : Option (Memory T × DoublyLinkedList) :=
  if pos ≤ l.size then
    if pos = 0 then pushFront m l val
    else if pos = l.size then pushBack m l val
    else do
      let cur ← (← advance m.heap pos l.head)
      let n := m.fresh
      let c ← m.heap cur
      let heap := Function.update m.heap n (some ⟨val, c.prev, some cur⟩)
      let heap ← modify heap (← c.prev) fun p => { p with next := some n }
      let heap ← modify heap cur fun c => { c with prev := some n }
      some (⟨heap, n + 1⟩, { l with size := l.size + 1 })
  else none

def erase (m : Memory T) (l : DoublyLinkedList) (pos : Nat) : Option (Memory T × DoublyLinkedList) :=
  if pos < l.size then
    if pos = 0 then popFront m l
    else if pos = l.size - 1 then popBack m l
    else do
      let cur ← (← advance m.heap pos l.head)
      let c ← m.heap cur
      let heap ← modify m.heap (← c.prev) fun p => { p with next := c.next }
      let c ← heap cur
      let heap ← modify heap (← c.next) fun n => { n with prev := c.prev }
      some ({ m with heap := Function.update heap cur none }, { l with size := l.size - 1 })
  else none

/-- The loop of `copy_from`, once: `n` walks along the other list. -/
def copyBody :
    (Memory T × DoublyLinkedList) × Option Nat → Loop.Outcome ((Memory T × DoublyLinkedList) × Option Nat)
  | (_, none) => .exit
  | ((m, l), some n) =>
    match m.heap n with
    | none => .fault
    | some c =>
      match pushBack m l c.data with
      | none => .fault
      | some (m, l) =>
        match m.heap n with
        | some c => .next ((m, l), c.next)
        | none => .fault

def copyFrom (m : Memory T) (l other : DoublyLinkedList) : Option (Memory T × DoublyLinkedList) := do
  let (r, _) ← Loop.run copyBody (m.fresh + 1) ((m, l), other.head)
  some r

/-! ## Iterators -/

/-- The node that an iterator holds; `end()` holds none. -/
abbrev Iterator := Option Nat

def Iterator.deref (heap : Heap T) (it : Iterator) : Option T := do
  let n ← heap (← it)
  some n.data

/-- `operator++`. -/
def Iterator.increment (heap : Heap T) (it : Iterator) : Option Iterator := do
  let n ← heap (← it)
  some n.next

/-- `operator--`. -/
def Iterator.decrement (heap : Heap T) (it : Iterator) : Option Iterator := do
  let n ← heap (← it)
  some n.prev

def begin (l : DoublyLinkedList) : Iterator := l.head

def «end» (_ : DoublyLinkedList) : Iterator := none

/-- `*it; ++it`, `n` times: the values, and where the iterator is then. -/
def walkForward (heap : Heap T) : Nat → Iterator → Option (List T × Iterator)
  | 0, it => some ([], it)
  | n + 1, it => do
    let value ← it.deref heap
    let (values, last) ← walkForward heap n (← it.increment heap)
    some (value :: values, last)

/-- `--it; *it`, `n` times. -/
def walkBackward (heap : Heap T) : Nat → Iterator → Option (List T × Iterator)
  | 0, it => some ([], it)
  | n + 1, it => do
    let it ← it.decrement heap
    let value ← it.deref heap
    let (values, last) ← walkBackward heap n it
    some (value :: values, last)

/-! ## All lists -/

/-- The objects that are alive, by name. -/
structure Store (T : Type) where
  mem : Memory T := {}
  lists : Nat → Option DoublyLinkedList := fun _ => none

inductive Call (T : Type)
  | construct (x : Nat)
  | destroy (x : Nat)
  | pushFront (x : Nat) (val : T)
  | pushBack (x : Nat) (val : T)
  | popFront (x : Nat)
  | popBack (x : Nat)
  | insertAt (x pos : Nat) (val : T)
  | erase (x pos : Nat)
  | copyConstruct (x other : Nat)
  | copyAssign (x other : Nat)
  | moveConstruct (x other : Nat)
  | moveAssign (x other : Nat)
  deriving DecidableEq, Repr

def Store.on (s : Store T) (x : Nat)
    (f : Memory T → DoublyLinkedList → Option (Memory T × DoublyLinkedList)) : Option (Store T) := do
  let l ← s.lists x
  let (mem, l) ← f s.mem l
  some { mem, lists := Function.update s.lists x (some l) }

def Store.construct (s : Store T) (x : Nat) : Option (Store T) :=
  if (s.lists x).isNone then some { s with lists := Function.update s.lists x (some {}) } else none

/-- The nodes of `other` go over to `x`. -/
def Store.steal (s : Store T) (x other : Nat) : Option (Store T) := do
  let o ← s.lists other
  some { s with lists := Function.update (Function.update s.lists x (some o)) other (some {}) }

def Store.step (s : Store T) : Call T → Option (Store T)
  | .construct x => s.construct x
  | .destroy x => do
    let s ← s.on x clear
    some { s with lists := Function.update s.lists x none }
  | .pushFront x val => s.on x fun m l => pushFront m l val
  | .pushBack x val => s.on x fun m l => pushBack m l val
  | .popFront x => s.on x popFront
  | .popBack x => s.on x popBack
  | .insertAt x pos val => s.on x fun m l => insertAt m l pos val
  | .erase x pos => s.on x fun m l => erase m l pos
  | .copyConstruct x other => do
    let s ← s.construct x
    let o ← s.lists other
    s.on x fun m l => copyFrom m l o
  | .copyAssign x other => do
    let o ← s.lists other
    if x = other then some s
    else
      let s ← s.on x clear
      s.on x fun m l => copyFrom m l o
  | .moveConstruct x other => do
    let _ ← s.lists other
    let s ← s.construct x
    s.steal x other
  | .moveAssign x other => do
    let _ ← s.lists other
    if x = other then some s
    else
      let s ← s.on x clear
      s.steal x other

def doublyLinkedLists (T : Type) : Machine (Store T) (Call T) Unit where
  init := {}
  step s c := (s.step c).map fun s => (s, ())

end

end Playground.DoublyLinkedList
