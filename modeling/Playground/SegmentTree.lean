import Playground.Lib.Vec

/-!
# Segment trees (`dsa/segment_tree.cpp`)

A tree over the indices of an array, with node `i` above nodes `2 * i` and
`2 * i + 1`. Indexing outside a vector and overflow of an `int` are undefined
and have no result. The three recursions are given a number of nested calls,
and have no result either when they are not enough.
-/

namespace Playground.SegmentTree

set_option linter.dupNamespace false in
structure SegmentTree (T : Type) where
  tree : List T
  n : Int
  identity : T
  op : T → T → T

section
variable {T : Type}

def build (op : T → T → T) (arr : List T) : Nat → List T → Nat → Int → Int → Option (List T)
  | 0, _, _, _, _ => none
  | fuel + 1, tree, node, start, end_ =>
    if start = end_ then do
      Vec.write tree node (← Vec.at? arr start)
    else do
      let mid := (start + end_).tdiv 2
      let tree ← build op arr fuel tree (2 * node) start mid
      let tree ← build op arr fuel tree (2 * node + 1) (mid + 1) end_
      Vec.write tree node (op (← tree[2 * node]?) (← tree[2 * node + 1]?))

/-- What a constructor call comes to: `resize` throws when the size is negative. -/
inductive Construction (T : Type)
  | accepted (t : SegmentTree T)
  | lengthError

def construct (fuel : Nat) (arr : List T) (identity : T) (op : T → T → T) : Option (Construction T) := do
  let n := CInt.ofSize arr.length
  let size ← CInt.fit (4 * n)
  if size < 0 then some .lengthError
  else
    let tree ← build op arr fuel (List.replicate size.toNat identity) 1 0 (n - 1)
    some (.accepted { tree, n, identity, op })

/-- `tree_[node] += val` at the leaf, then `op_` on the way back. -/
def updateAt [Add T] (op : T → T → T) : Nat → List T → Nat → Int → Int → Int → T → Option (List T)
  | 0, _, _, _, _, _, _ => none
  | fuel + 1, tree, node, start, end_, idx, val =>
    if start = end_ then do
      Vec.write tree node ((← tree[node]?) + val)
    else do
      let mid := (start + end_).tdiv 2
      let tree ←
        if idx ≤ mid then updateAt op fuel tree (2 * node) start mid idx val
        else updateAt op fuel tree (2 * node + 1) (mid + 1) end_ idx val
      Vec.write tree node (op (← tree[2 * node]?) (← tree[2 * node + 1]?))

def update [Add T] (fuel : Nat) (t : SegmentTree T) (idx : Int) (val : T) : Option (SegmentTree T) := do
  let tree ← updateAt t.op fuel t.tree 1 0 (t.n - 1) idx val
  some { t with tree }

def queryAt (t : SegmentTree T) : Nat → Nat → Int → Int → Int → Int → Option T
  | 0, _, _, _, _, _ => none
  | fuel + 1, node, start, end_, l, r =>
    if r < start ∨ end_ < l then some t.identity -- out of range
    else if l ≤ start ∧ end_ ≤ r then t.tree[node]? -- fully within range
    else do
      let mid := (start + end_).tdiv 2
      let left ← queryAt t fuel (2 * node) start mid l r
      let right ← queryAt t fuel (2 * node + 1) (mid + 1) end_ l r
      some (t.op left right)

def query (fuel : Nat) (t : SegmentTree T) (l r : Int) : Option T := queryAt t fuel 1 0 (t.n - 1) l r

def updates [Add T] (fuel : Nat) (us : List (Nat × T)) (t : SegmentTree T) : Option (SegmentTree T) :=
  us.foldlM (fun t u => update fuel t u.1 u.2) t

/-! ## What the tree is for -/

/-- The array after updates: each adds its value to one element. -/
def current [Add T] (arr : List T) (us : List (Nat × T)) : List T :=
  us.foldl (fun arr u => arr.modify u.1 (· + u.2)) arr

/-- The elements at the indices from `l` to `r`, in order. -/
def elements (arr : List T) (l r : Int) : List T :=
  ((List.range arr.length).filter fun i : Nat => l ≤ (i : Int) ∧ (i : Int) ≤ r).filterMap fun i => arr[i]?

end

end Playground.SegmentTree
