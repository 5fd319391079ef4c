import Playground.Lib.Loop
import Playground.Lib.Vec

/-!
# Knuth-Morris-Pratt (`dsa/kmp_string_matching.cpp`)

Lengths are cast to `int`. Indexing outside a string or a table is undefined,
and a table of a negative size throws; neither has a result. Characters are
compared only.
-/

namespace Playground.KmpStringMatching

open Loop (Outcome)

variable {α : Type} [DecidableEq α]

/-! ## The prefix table -/

/-- The variables of `build_prefix_table`. -/
structure Table where
  lps : List Nat
  len : Nat := 0
  i : Nat := 1
  deriving DecidableEq, Repr

def tableRound (pattern : List α) (s : Table) : Option Table := do
  let c ← pattern[s.i]?
  let d ← pattern[s.len]?
  if c = d then
    some { lps := ← Vec.write s.lps s.i (s.len + 1), len := s.len + 1, i := s.i + 1 }
  else if s.len ≠ 0 then
    some { s with len := ← s.lps[s.len - 1]? } -- try a shorter prefix
  else
    some { s with lps := ← Vec.write s.lps s.i 0, i := s.i + 1 }

def tableBody (pattern : List α) (m : Int) (s : Table) : Outcome Table :=
  if s.i < m then .ofOption (tableRound pattern s) else .exit

def buildPrefixTable (pattern : List α) : Option (List Nat) := do
  let m := CInt.ofSize pattern.length
  let lps ← Vec.create m 0
  let s ← Loop.run (tableBody pattern m) (2 * pattern.length + 1) { lps }
  some s.lps

/-! ## Search -/

/-- The variables of `kmp_search`: the index in the text and the one in the pattern. -/
structure Search where
  found : List Nat := []
  i : Nat := 0
  j : Nat := 0
  deriving DecidableEq, Repr

def searchMatch (text pattern : List α) (s : Search) : Option Search := do
  let c ← text[s.i]?
  let d ← pattern[s.j]?
  some (if c = d then { s with i := s.i + 1, j := s.j + 1 } else s)

def searchNext (text pattern : List α) (lps : List Nat) (n m : Int) (s : Search) : Option Search := do
  if s.j = m then
    some { s with found := s.found ++ [s.i - s.j], j := ← Vec.at? lps (s.j - 1) }
  else if s.i < n then
    let c ← text[s.i]?
    let d ← pattern[s.j]?
    if c ≠ d then
      if s.j ≠ 0 then some { s with j := ← lps[s.j - 1]? } else some { s with i := s.i + 1 }
    else some s
  else some s

def searchBody (text pattern : List α) (lps : List Nat) (n m : Int) (s : Search) : Outcome Search :=
  if s.i < n then .ofOption ((searchMatch text pattern s).bind (searchNext text pattern lps n m)) else .exit

def kmpSearch (text pattern : List α) : Option (List Nat) := do
  let n := CInt.ofSize text.length
  let m := CInt.ofSize pattern.length
  if m = 0 then some []
  else if m > n then some []
  else
    let lps ← buildPrefixTable pattern
    let s ← Loop.run (searchBody text pattern lps n m) (2 * text.length + 1) {}
    some s.found

/-! ## Periods -/

def shortestPeriod (s : List α) : Option Int := do
  let lps ← buildPrefixTable s
  let n := CInt.ofSize s.length
  let last ← Vec.at? lps (n - 1)
  let period := n - last
  if period = 0 then none
  else if n.tmod period = 0 then some period
  else some n

end Playground.KmpStringMatching
