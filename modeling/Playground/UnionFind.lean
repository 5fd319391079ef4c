import Playground.Lib.CInt
import Playground.Lib.Machine

/-!
# Union-find (`dsa/union_find.cpp`)

Disjoint sets over the elements `0 .. n - 1`. Indexing a vector outside its
bounds is undefined and faults. `find` is recursive; it is given as many
nested calls as there are elements, and faults if they are not enough.
-/

namespace Playground.UnionFind

set_option linter.dupNamespace false in
structure UnionFind where
  parent : List Nat
  rank : List Nat
  components : Int
  deriving DecidableEq, Repr

def construct (n : Nat) : UnionFind := ⟨List.range n, List.replicate n 0, n⟩

def findFuel : Nat → UnionFind → Nat → Option (UnionFind × Nat)
  | 0, _, _ => none
  | fuel + 1, u, x => do
    let p ← u.parent[x]?
    if p ≠ x then
      let (u, r) ← findFuel fuel u p
      some ({ u with parent := u.parent.set x r }, r) -- path compression
    else
      some (u, p)

def find (u : UnionFind) (x : Nat) : Option (UnionFind × Nat) := findFuel u.parent.length u x

def unite (u : UnionFind) (x y : Nat) : Option (UnionFind × Bool) := do
  let (u, rx) ← find u x
  let (u, ry) ← find u y
  if rx = ry then
    some (u, false) -- already in same set
  else
    let swap := decide ((← u.rank[rx]?) < (← u.rank[ry]?))
    let (rx, ry) := if swap then (ry, rx) else (rx, ry)
    let kx ← u.rank[rx]?
    let ky ← u.rank[ry]?
    some ({ parent := u.parent.set ry rx
            rank := if kx = ky then u.rank.set rx (kx + 1) else u.rank
            components := u.components - 1 }, true)

/-- C++ leaves open which operand of `==` is evaluated first. -/
def connected (u : UnionFind) (x y : Nat) (leftFirst : Bool) : Option (UnionFind × Bool) := do
  let (x, y) := if leftFirst then (x, y) else (y, x)
  let (u, rx) ← find u x
  let (u, ry) ← find u y
  some (u, rx = ry)

def numComponents (u : UnionFind) : Int := u.components

def countComponents (n : Nat) (edges : List (Nat × Nat)) : Option Int := do
  let u ← edges.foldlM (fun u e => (unite u e.1 e.2).map Prod.fst) (construct n)
  some (numComponents u)

/-- The edges that are left, one after another. -/
def firstRedundant : UnionFind → List (Nat × Nat) → Option (Int × Int)
  | _, [] => some (-1, -1)
  | u, (x, y) :: edges => do
    let (u, united) ← unite u x y
    if united then firstRedundant u edges else some (x, y) -- this edge creates a cycle

/-- `int n = edges.size()`; the vectors cannot be made for a negative number of nodes. -/
def findRedundantConnection (edges : List (Nat × Nat)) : Option (Int × Int) := do
  let n := CInt.ofSize edges.length
  let size ← CInt.fit (n + 1)
  if size < 0 then none else firstRedundant (construct size.toNat) edges

/-! ## Calls in range -/

inductive Call (n : Nat)
  | unite (x y : Fin n)
  | find (x : Fin n)
  | connected (x y : Fin n) (leftFirst : Bool)
  deriving DecidableEq, Repr

inductive Outcome
  | root (r : Nat)
  | answer (b : Bool)
  deriving DecidableEq, Repr

def unionFind (n : Nat) : Machine UnionFind (Call n) Outcome where
  init := construct n
  step u
    | .unite x y => (unite u x y).map fun r => (r.1, .answer r.2)
    | .find x => (find u x).map fun r => (r.1, .root r.2)
    | .connected x y leftFirst => (connected u x y leftFirst).map fun r => (r.1, .answer r.2)

end Playground.UnionFind
