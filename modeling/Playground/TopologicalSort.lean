import Playground.Lib.Digraph
import Playground.Lib.Loop
import Playground.Lib.Vec

/-!
# Topological sort (`dsa/topological_sort.cpp`)

Kahn's algorithm and the depth-first one, with its object. Nodes are the
numbers below `numNodes`; indexing outside a vector and overflow of an `int`
have no result. A loop without a bound is given a number of rounds and the
recursion a number of nested calls.
-/

namespace Playground.TopologicalSort

/-- `adj[from].push_back(to)`. -/
def pushEdge (adj : List (List Nat)) (e : Nat × Nat) : Option (List (List Nat)) := do
  Vec.write adj e.1 ((← adj[e.1]?) ++ [e.2])

/-! ## Kahn's algorithm -/

/-- `in_degree[v] += k`. -/
def addAt (in_degree : List Int) (v : Nat) (k : Int) : Option (List Int) := do
  Vec.write in_degree v (← CInt.fit ((← in_degree[v]?) + k))

def addEdge (g : List (List Nat) × List Int) (e : Nat × Nat) : Option (List (List Nat) × List Int) := do
  let adj ← pushEdge g.1 e
  let in_degree ← addAt g.2 e.2 1
  some (adj, in_degree)

structure Kahn where
  in_degree : List Int
  q : List Nat
  order : List Nat

/-- `if (--in_degree[neighbor] == 0) q.push(neighbor)`. -/
def Kahn.release (s : Kahn) (neighbor : Nat) : Option Kahn := do
  let in_degree ← addAt s.in_degree neighbor (-1)
  some { s with in_degree, q := if in_degree[neighbor]? = some 0 then s.q ++ [neighbor] else s.q }

def kahnRound (adj : List (List Nat)) (s : Kahn) : Loop.Outcome Kahn :=
  match s.q with
  | [] => .exit
  | node :: q => .ofOption do
    (← adj[node]?).foldlM Kahn.release { s with q, order := s.order ++ [node] }

def topoSortKahn (fuel : Nat) (numNodes : Int) (edges : List (Nat × Nat)) : Option (List Nat) := do
  let (adj, in_degree) ← edges.foldlM addEdge (← Vec.create numNodes [], ← Vec.create numNodes 0)
  let q := (List.range numNodes.toNat).filter fun i => in_degree[i]? = some 0
  let s ← Loop.run (kahnRound adj) fuel { in_degree, q, order := [] }
  if CInt.ofSize s.order.length ≠ numNodes then some [] -- Cycle!
  else some s.order

/-! ## The depth-first sort -/

inductive State
  | unvisited
  | visiting
  | visited
  deriving DecidableEq

structure DFSTopoSort where
  adj_ : List (List Nat)
  state_ : List State
  order_ : List Nat
  has_cycle_ : Bool

namespace DFSTopoSort

/-- The loop over the neighbors; `true` when it returns early. -/
def neighbors (dfs : DFSTopoSort → Nat → Option DFSTopoSort) : List Nat → DFSTopoSort → Option (DFSTopoSort × Bool)
  | [], s => some (s, false)
  | neighbor :: rest, s => do
    match ← s.state_[neighbor]? with
    | .visiting => some ({ s with has_cycle_ := true }, true) -- Back edge
    | .unvisited => neighbors dfs rest (← dfs s neighbor)
    | .visited => neighbors dfs rest s

def dfs : Nat → DFSTopoSort → Nat → Option DFSTopoSort
  | 0, _, _ => none
  | fuel + 1, s, node =>
    if s.has_cycle_ then some s
    else do
      let state_ ← Vec.write s.state_ node .visiting
      let (s, returned) ← neighbors (dfs fuel) (← s.adj_[node]?) { s with state_ }
      if returned then some s
      else
        let state_ ← Vec.write s.state_ node .visited
        some { s with state_, order_ := s.order_ ++ [node] }

def visitRoot (fuel : Nat) (s : DFSTopoSort) (i : Nat) : Option DFSTopoSort := do
  if (← s.state_[i]?) = .unvisited then dfs fuel s i else some s

/-- The result, and the object afterwards. -/
def sort (fuel : Nat) (s : DFSTopoSort) (numNodes : Int) (edges : List (Nat × Nat)) :
    Option (List Nat × DFSTopoSort) := do
  let adj_ ← edges.foldlM pushEdge (← Vec.create numNodes [])
  let state_ ← Vec.create numNodes .unvisited
  let s := { s with adj_, state_, order_ := [], has_cycle_ := false }
  let s ← (List.range numNodes.toNat).foldlM (visitRoot fuel) s
  if s.has_cycle_ then some ([], s)
  else
    let s := { s with order_ := s.order_.reverse }
    some (s.order_, s)

end DFSTopoSort

/-! ## What a topological order is -/

def Edge (edges : List (Nat × Nat)) (u v : Nat) : Prop := (u, v) ∈ edges

/-- The nodes below `n`, each once, with every edge from an earlier to a later position. -/
structure IsTopological (n : Nat) (edges : List (Nat × Nat)) (order : List Nat) : Prop where
  perm : order.Perm (List.range n)
  forward : ∀ u v, Edge edges u v → order.idxOf u < order.idxOf v

/-- What a sort of the graph is to return. -/
structure Sorts (n : Nat) (edges : List (Nat × Nat)) (order : List Nat) : Prop where
  sorted : Digraph.Acyclic (Edge edges) → IsTopological n edges order
  detected : ¬ Digraph.Acyclic (Edge edges) → order = []

def inDegree (edges : List (Nat × Nat)) (v : Nat) : Nat := edges.countP fun e => e.2 = v

def successors (edges : List (Nat × Nat)) (u : Nat) : List Nat := (edges.filter fun e => e.1 = u).map Prod.snd

end Playground.TopologicalSort
