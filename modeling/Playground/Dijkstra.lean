import Mathlib.Algebra.Order.Monoid.WithTop
import Mathlib.Data.List.Sort
import Playground.Lib.Loop
import Playground.Lib.Vec
import Playground.Lib.Walk

/-!
# Dijkstra's algorithm (`dsa/dijkstra.cpp`)

The search and the reconstruction of a path, over the distances of an
arithmetic: the `int` with its `INF`, or exact integers with infinity. The
priority queue is a list kept in order. `prev[v] = -1` is `none`. Indexing
outside a vector and overflow have no result, and loops are given a number of
rounds.
-/

namespace Playground.Dijkstra

structure Edge where
  to_ : Nat
  weight : Int

abbrev Graph := List (List Edge)

/-- The distances and what `dist[u] + w` is. -/
structure Arith (D : Type) where
  INF : D
  ofInt : Int → D
  add : D → Int → Option D

def int32 : Arith Int where
  INF := 2 ^ 31 - 1
  ofInt a := a
  add d w := CInt.fit (d + w)

def exact : Arith (WithTop Int) where
  INF := ⊤
  ofInt a := a
  add d w := some (d + w)

section
variable {D : Type} [LinearOrder D]

structure Search (D : Type) where
  dist : List D
  prev : List (Option Nat)
  pq : List (D × Nat)

/-- The order of `std::pair`. -/
def before (p q : D × Nat) : Prop := p.1 < q.1 ∨ p.1 = q.1 ∧ p.2 ≤ q.2

instance : DecidableRel (before (D := D)) :=
  fun p q => inferInstanceAs (Decidable (p.1 < q.1 ∨ p.1 = q.1 ∧ p.2 ≤ q.2))

variable (A : Arith D)

def relax (u : Nat) (s : Search D) (e : Edge) : Option (Search D) := do
  let x ← A.add (← s.dist[u]?) e.weight
  if x < (← s.dist[e.to_]?) then
    let dist ← Vec.write s.dist e.to_ x
    let prev ← Vec.write s.prev e.to_ (some u)
    some { dist, prev, pq := s.pq.orderedInsert before (x, e.to_) }
  else some s

def round (graph : Graph) (s : Search D) : Loop.Outcome (Search D) :=
  match s.pq with
  | [] => .exit
  | (d, u) :: pq => .ofOption do
    let s := { s with pq }
    if (← s.dist[u]?) < d then some s -- Lazy deletion
    else (← graph[u]?).foldlM (relax A u) s

def dijkstra (fuel : Nat) (graph : Graph) (source : Nat) : Option (List D × List (Option Nat)) := do
  let n := CInt.ofSize graph.length
  let dist ← Vec.create n A.INF
  let prev ← Vec.create n none
  let dist ← Vec.write dist source (A.ofInt 0)
  let s ← Loop.run (round A graph) fuel { dist, prev, pq := [(A.ofInt 0, source)] }
  some (s.dist, s.prev)

end

/-- The path so far and `v`. -/
def pathRound (prev : List (Option Nat)) (s : List Nat × Option Nat) : Loop.Outcome (List Nat × Option Nat) :=
  match s.2 with
  | none => .exit
  | some v => .ofOption do
    some (s.1 ++ [v], ← prev[v]?)

def reconstruct_path (fuel : Nat) (prev : List (Option Nat)) (source target : Nat) : Option (List Nat) := do
  let (path, _) ← Loop.run (pathRound prev) fuel ([], some target)
  let path := path.reverse
  if (← path.head?) ≠ source then some [] -- No path exists
  else some path

/-! ## What the distances are -/

/-- An edge of weight `w` leads from `u` to `v`. -/
def IsEdge (graph : Graph) (u v : Nat) (w : Int) : Prop := ∃ es, graph[u]? = some es ∧ ⟨v, w⟩ ∈ es

/-- Every edge leads to an existing node. -/
def WellFormed (graph : Graph) : Prop := ∀ es ∈ graph, ∀ e ∈ es, e.to_ < graph.length

def Reachable (graph : Graph) (source v : Nat) : Prop := ∃ a, Walk (IsEdge graph) source v a

/-- The least weight of the edges from `u` to `v`. -/
def minWeight (graph : Graph) (u v : Nat) : Option Int := do
  (((← graph[u]?).filter fun e => e.to_ = v).map Edge.weight).min?

/-- The weight of a path that takes the lightest edges. -/
def pathWeight (graph : Graph) : List Nat → Option Int
  | [] => none
  | [_] => some 0
  | u :: v :: path => do
    some ((← minWeight graph u v) + (← pathWeight graph (v :: path)))

end Playground.Dijkstra
