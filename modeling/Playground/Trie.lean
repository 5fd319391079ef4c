import Mathlib.Logic.Function.Basic
import Playground.Lib.CInt

/-!
# Tries (`dsa/trie.cpp`)

A `unique_ptr<TrieNode>` is a tree that may be null. Characters are bytes; the
index of one that is not a lower-case letter lies outside `children`, which has
no meaning, and neither has following a null pointer.
-/

namespace Playground.Trie

abbrev Word := List UInt8

/-- A `std::unique_ptr<TrieNode>`. -/
inductive TrieNode
  | null
  | node (children : Fin 26 → TrieNode) (is_end : Bool)

namespace TrieNode

/-- `std::make_unique<TrieNode>()`. -/
def make : TrieNode := .node (fun _ => .null) false

def isNull : TrieNode → Bool
  | .null => true
  | .node _ _ => false

/-- The child that is there, or a new one. -/
def orMake : TrieNode → TrieNode
  | .null => make
  | .node children is_end => .node children is_end

end TrieNode

set_option linter.dupNamespace false in
structure Trie where
  root : TrieNode := .make

/-- `c - 'a'`, where it is an index. -/
def index (c : UInt8) : Option (Fin 26) :=
  if h : 97 ≤ c.toNat ∧ c.toNat - 97 < 26 then some ⟨c.toNat - 97, h.2⟩ else none

def letter (i : Fin 26) : UInt8 := UInt8.ofNat (97 + i)

def insertAt : TrieNode → Word → Option TrieNode
  | .null, _ => none
  | .node children _, [] => some (.node children true)
  | .node children is_end, c :: word => do
    let idx ← index c
    let child ← insertAt (children idx).orMake word
    some (.node (Function.update children idx child) is_end)

def insert (t : Trie) (word : Word) : Option Trie := do
  some { root := ← insertAt t.root word }

/-- The node for the last character of the key; null when there is none. -/
def traverse : TrieNode → Word → Option TrieNode
  | node, [] => some node
  | .null, _ :: _ => none
  | .node children _, c :: key => do
    let idx ← index c
    if (children idx).isNull then some .null else traverse (children idx) key

def search (t : Trie) (word : Word) : Option Bool := do
  match ← traverse t.root word with
  | .null => some false
  | .node _ is_end => some is_end

def startsWith (t : Trie) (prefix_ : Word) : Option Bool := do
  some !(← traverse t.root prefix_).isNull

structure Search where
  current : Word
  results : List Word

def collectWords (max_results : Int) : TrieNode → Search → Search
  | .null, s => s -- not called
  | .node children is_end, s =>
    if max_results ≤ CInt.ofSize s.results.length then s
    else
      let s := if is_end then { s with results := s.results ++ [s.current] } else s
      (List.finRange 26).foldl (fun s i =>
        if (children i).isNull then s
        else
          let s := collectWords max_results (children i) { s with current := s.current ++ [letter i] }
          { s with current := s.current.dropLast }) s

def autocomplete (t : Trie) (prefix_ : Word) (max_results : Int) : Option (List Word) := do
  let node ← traverse t.root prefix_
  if node.isNull then some []
  else some (collectWords max_results node { current := prefix_, results := [] }).results

/-! ## What a trie is for -/

/-- A word over `'a'` to `'z'`. -/
def Lower (word : Word) : Prop := ∀ c ∈ word, 97 ≤ c.toNat ∧ c.toNat ≤ 122

/-- The words that start with the prefix, each once, in lexicographic order. -/
structure Completions (words : List Word) (prefix_ : Word) (l : List Word) : Prop where
  sorted : l.Pairwise (· < ·)
  mem : ∀ w, w ∈ l ↔ w ∈ words ∧ prefix_ <+: w

end Playground.Trie
