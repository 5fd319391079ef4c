import Playground.Lib.CInt

/-!
# Vectors

A vector is a list. Reading or writing outside it, or making one of a
negative size, has no result.
-/

namespace Vec

variable {α : Type*}

/-- `std::vector<T> v(n, x)`, for an `int` size. -/
def create (n : Int) (x : α) : Option (List α) := if n < 0 then none else some (List.replicate n.toNat x)

/-- `v[i]`, for an `int` index. -/
def at? (v : List α) (i : Int) : Option α := if i < 0 then none else v[i.toNat]?

/-- `v[i] = x`. -/
def write (v : List α) (i : Nat) (x : α) : Option (List α) := if i < v.length then some (v.set i x) else none

theorem create_of {n : Int} (h : 0 ≤ n) (x : α) : create n x = some (List.replicate n.toNat x) := if_neg (by omega)

theorem create_of_neg {n : Int} (h : n < 0) (x : α) : create n x = none := if_pos h

@[simp] theorem create_natCast (n : Nat) (x : α) : create (n : Int) x = some (List.replicate n x) := by
  rw [create_of (by omega), Int.toNat_natCast]

theorem create_eq_some {n : Int} {x : α} {v : List α} (h : create n x = some v) :
    ∃ k : Nat, n = k ∧ v = List.replicate k x := by
  by_cases hn : n < 0
  · rw [create_of_neg hn] at h
    cases h
  · rw [create_of (by omega)] at h
    exact ⟨n.toNat, by omega, (Option.some_inj.mp h).symm⟩

@[simp] theorem at?_natCast (v : List α) (i : Nat) : at? v (i : Int) = v[i]? := by
  rw [at?, if_neg (by omega), Int.toNat_natCast]

theorem write_of {v : List α} {i : Nat} (h : i < v.length) (x : α) : write v i x = some (v.set i x) := if_pos h

theorem write_eq_some {v v' : List α} {i : Nat} {x : α} :
    write v i x = some v' ↔ i < v.length ∧ v.set i x = v' := by
  simp [write]

/-! ## A vector with a value for each index -/

theorem getElem?_table {n i : Nat} (f : Nat → α) (h : i < n) : ((List.range n).map f)[i]? = some (f i) := by
  rw [List.getElem?_map, List.getElem?_range h]
  rfl

theorem write_table {n i : Nat} (f : Nat → α) (h : i < n) (x : α) :
    write ((List.range n).map f) i x = some ((List.range n).map fun j => if j = i then x else f j) := by
  rw [write_of (by rw [List.length_map, List.length_range]; exact h), Option.some_inj]
  refine List.ext_getElem (by simp) fun j hj hj' => ?_
  simp only [List.getElem_set, List.getElem_map, List.getElem_range, eq_comm]

/-! ## A vector of integers as a sequence -/

/-- With `0` beyond its end. -/
def seq (v : List Int) (i : Nat) : Int := v.getD i 0

theorem getElem?_seq {v : List Int} {i : Nat} (h : i < v.length) : v[i]? = some (seq v i) := by
  simp [seq, h]

theorem seq_length (v : List Int) : seq v v.length = 0 := by simp [seq]

theorem seq_nonneg {v : List Int} (h : ∀ x ∈ v, 0 ≤ x) (i : Nat) : 0 ≤ seq v i := by
  by_cases hi : i < v.length
  · exact h _ (List.mem_of_getElem? (getElem?_seq hi))
  · simp [seq, List.getElem?_eq_none (Nat.le_of_not_lt hi)]

end Vec
