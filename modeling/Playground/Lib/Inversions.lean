import Mathlib.Algebra.BigOperators.Fin
import Mathlib.Data.Fintype.Prod

/-!
# Inversions

`inversions le l` counts the pairs of positions whose elements are in the wrong
order. Those of two lists in a row are those of each and those across, which
do not depend on the order within the lists, and which a merge of sorted lists
meets one element of the second list at a time.
-/

namespace Inversions

variable {α : Type*} (le : α → α → Bool)

/-- The number of pairs `i < j` with the element at `j` strictly below the one at `i`. -/
def inversions (l : List α) : Nat :=
  (Finset.univ.filter fun p : Fin l.length × Fin l.length => p.1 < p.2 ∧ le l[p.1] l[p.2] = false).card

/-- The pairs across two lists. -/
def cross (l r : List α) : Nat := (l.map fun x => r.countP fun y => !le x y).sum

theorem countP_eq_sum (p : α → Bool) (l : List α) : l.countP p = ∑ i : Fin l.length, if p l[i] then 1 else 0 := by
  induction l with
  | nil => rfl
  | cons x l ih =>
    simp only [List.countP_cons, ih, List.length_cons, Fin.sum_univ_succ]
    exact Nat.add_comm _ _

@[simp] theorem inversions_nil : inversions le [] = 0 := rfl

theorem inversions_cons (x : α) (l : List α) :
    inversions le (x :: l) = l.countP (fun y => !le x y) + inversions le l := by
  rw [countP_eq_sum]
  simp only [inversions, Finset.card_filter, Fintype.sum_prod_type, List.length_cons, Fin.sum_univ_succ]
  simp

variable {le}
variable {l l' r r' : List α} {x y : α}

@[simp] theorem cross_nil_left (r : List α) : cross le [] r = 0 := rfl

@[simp] theorem cross_nil_right (l : List α) : cross le l [] = 0 := by simp [cross]

theorem cross_cons_left (x : α) (l r : List α) :
    cross le (x :: l) r = r.countP (fun y => !le x y) + cross le l r := by
  simp [cross]

theorem cross_cons_right (y : α) (l r : List α) :
    cross le l (y :: r) = l.countP (fun x => !le x y) + cross le l r := by
  induction l with
  | nil => rfl
  | cons x l ih =>
    rw [cross_cons_left, cross_cons_left, ih, List.countP_cons, List.countP_cons]
    omega

theorem inversions_append (l r : List α) :
    inversions le (l ++ r) = inversions le l + inversions le r + cross le l r := by
  induction l with
  | nil => simp
  | cons x l ih =>
    rw [List.cons_append, inversions_cons, inversions_cons, cross_cons_left, List.countP_append, ih]
    omega

theorem cross_perm (hl : l.Perm l') (hr : r.Perm r') : cross le l r = cross le l' r' := by
  have hcount : ∀ x, r.countP (fun y => !le x y) = r'.countP fun y => !le x y := fun x => hr.countP_eq _
  simp only [cross, hcount]
  exact (hl.map _).sum_eq

/-! ## Merging -/

theorem cross_of_le (trans : ∀ a b c, le a b → le b c → le a c) (hr : (y :: r).Pairwise fun a b => le a b)
    (h : le x y) : cross le (x :: l) (y :: r) = cross le l (y :: r) := by
  have hzero : (y :: r).countP (fun z => !le x z) = 0 := by
    rw [List.countP_eq_zero]
    intro z hz
    rcases List.mem_cons.mp hz with rfl | hz
    · simp [h]
    · simp [trans x y z h ((List.pairwise_cons.mp hr).1 z hz)]
  rw [cross_cons_left, hzero, Nat.zero_add]

/-- An element that is taken from the second list is in the wrong order with all that is left of the first. -/
theorem cross_of_not_le (trans : ∀ a b c, le a b → le b c → le a c) (hl : (x :: l).Pairwise fun a b => le a b)
    (h : ¬ le x y) : cross le (x :: l) (y :: r) = (x :: l).length + cross le (x :: l) r := by
  have hall : (x :: l).countP (fun z => !le z y) = (x :: l).length := by
    rw [List.countP_eq_length]
    intro z hz
    rcases List.mem_cons.mp hz with rfl | hz
    · simpa using h
    · have hxz := (List.pairwise_cons.mp hl).1 z hz
      by_contra hzy
      exact h (trans x z y hxz (by simpa using hzy))
  rw [cross_cons_right, hall]

end Inversions
