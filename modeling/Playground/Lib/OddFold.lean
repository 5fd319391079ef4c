import Mathlib.Algebra.Ring.Parity
import Mathlib.Data.Finset.Dedup
import Mathlib.Data.Finset.Fold

/-!
# Folding with an operation that cancels

Where every element is its own inverse, the fold of a list is that of the
values that occur an odd number of times in it.
-/

namespace OddFold

variable {α : Type*} [DecidableEq α] {l : List α} {a b : α}

/-- The values that occur an odd number of times. -/
def odds (l : List α) : Finset α := l.toFinset.filter fun a => Odd (l.count a)

theorem mem_odds : a ∈ odds l ↔ Odd (l.count a) := by
  rw [odds, Finset.mem_filter, List.mem_toFinset, and_iff_right_iff_imp]
  exact fun h => List.count_pos_iff.mp (Nat.pos_of_ne_zero fun h0 => by simp [h0] at h)

theorem odds_filter (p : α → Bool) (l : List α) : odds (l.filter p) = (odds l).filter fun a => p a = true := by
  ext a
  rw [Finset.mem_filter, mem_odds, mem_odds]
  by_cases hp : p a = true
  · rw [List.count_filter hp, and_iff_left hp]
  · rw [List.count_eq_zero.mpr fun h => hp (List.mem_filter.mp h).2]
    simp [hp]

theorem mem_odds_snoc : b ∈ odds (l ++ [a]) ↔ (b ∈ odds l ↔ b ≠ a) := by
  rw [mem_odds, mem_odds, List.count_append, List.count_singleton]
  by_cases hab : a = b
  · simp [hab, Nat.odd_add_one]
  · simp [hab, Ne.symm hab]

theorem odds_snoc_of_mem (h : a ∈ odds l) : odds (l ++ [a]) = (odds l).erase a := by
  ext b
  rw [mem_odds_snoc, Finset.mem_erase]
  by_cases hb : b = a
  · simp [hb, h]
  · simp [hb]

theorem odds_snoc_of_notMem (h : a ∉ odds l) : odds (l ++ [a]) = insert a (odds l) := by
  ext b
  rw [mem_odds_snoc, Finset.mem_insert]
  by_cases hb : b = a
  · simp [hb, h]
  · simp [hb]

variable {op : α → α → α} [Std.Commutative op] [Std.Associative op] {e : α}

theorem foldl_eq_fold (hid : ∀ a, op a e = a) (hself : ∀ a, op a a = e) (l : List α) :
    l.foldl op e = (odds l).fold op e id := by
  have hcomm : ∀ a b, op a b = op b a := Std.Commutative.comm
  have hassoc : ∀ a b c, op (op a b) c = op a (op b c) := Std.Associative.assoc
  induction l using List.reverseRecOn with
  | nil => rfl
  | append_singleton l a ih =>
    rw [List.foldl_append, List.foldl_cons, List.foldl_nil, ih]
    by_cases ha : a ∈ odds l
    · -- a second `a` takes the first one away
      rw [odds_snoc_of_mem ha]
      nth_rewrite 1 [← Finset.insert_erase ha]
      rw [Finset.fold_insert (Finset.notMem_erase a _), hcomm (id a), hassoc, id, hself, hid]
    · rw [odds_snoc_of_notMem ha, Finset.fold_insert ha, hcomm, id]

theorem foldl_singleton (hid : ∀ a, op a e = a) (hself : ∀ a, op a a = e) (h : odds l = {a}) :
    l.foldl op e = a := by
  rw [foldl_eq_fold hid hself, h, Finset.fold_singleton, id, hid]

theorem foldl_pair (hid : ∀ a, op a e = a) (hself : ∀ a, op a a = e) (hab : a ≠ b) (h : odds l = {a, b}) :
    l.foldl op e = op a b := by
  rw [foldl_eq_fold hid hself, h, Finset.fold_insert (by simpa using hab), Finset.fold_singleton, id, id, hid]

end OddFold
