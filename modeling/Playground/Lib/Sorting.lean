import Mathlib.Data.List.Sort

/-!
# Sorting in place

`Sorts r l`: the list `r` is the sorted permutation of `l`. There is one, it is
put together from sorted pieces, and swapping two elements of a list that is
given as its pieces gives the pieces back with the two exchanged.
-/

namespace Sorting

variable {α : Type*}

/-! ## Exchanging two elements -/

/-- `none` when an index is out of range. -/
def swap (l : List α) (i j : Nat) : Option (List α) := do
  let x ← l[i]?
  let y ← l[j]?
  some ((l.set i y).set j x)

theorem getElem?_piece (p q : List α) (x : α) : (p ++ x :: q)[p.length]? = some x := by simp

theorem swap_self (p q : List α) (x : α) : swap (p ++ x :: q) p.length p.length = some (p ++ x :: q) := by
  simp [swap]

theorem swap_pieces (p m q : List α) (x y : α) :
    swap (p ++ x :: m ++ y :: q) p.length (p.length + (m.length + 1)) = some (p ++ y :: m ++ x :: q) := by
  have hx : (p ++ x :: m ++ y :: q)[p.length]? = some x := by simp
  have hj : p.length + (m.length + 1) = (p ++ x :: m).length := by simp
  have hy : (p ++ x :: m ++ y :: q)[p.length + (m.length + 1)]? = some y := by
    rw [hj]
    exact getElem?_piece _ _ _
  have hset : (p ++ x :: m ++ y :: q).set p.length y = p ++ y :: m ++ y :: q := by simp
  have hset' : (p ++ y :: m ++ y :: q).set (p.length + (m.length + 1)) x = p ++ y :: m ++ x :: q := by
    have hj' : p.length + (m.length + 1) = (p ++ y :: m).length := by simp
    rw [hj', List.set_append_right _ _ (Nat.le_refl _), Nat.sub_self, List.set_cons_zero]
  simp only [swap, hx, hy, hset, hset', Option.bind_eq_bind, Option.bind_some]

/-- The first element of a group goes where the element after the group was, and that one to the front. -/
theorem swap_front (p b q : List α) (y : α) :
    ∃ b', b'.Perm b ∧ swap (p ++ b ++ y :: q) p.length (p.length + b.length) = some (p ++ y :: b' ++ q) := by
  cases b with
  | nil => exact ⟨[], .refl _, by simpa using swap_self p q y⟩
  | cons x m =>
    have hperm : (m ++ [x]).Perm (x :: m) := List.perm_append_singleton x m
    exact ⟨m ++ [x], hperm, by simpa using swap_pieces p m q x y⟩

/-- The last element of a group goes where the element before the group was, and that one to the back. -/
theorem swap_back (p b q : List α) (x : α) :
    ∃ b', b'.Perm b ∧ swap (p ++ x :: b ++ q) p.length (p.length + b.length) = some (p ++ b' ++ x :: q) := by
  rcases List.eq_nil_or_concat b with rfl | ⟨m, y, rfl⟩
  · exact ⟨[], .refl _, by simpa using swap_self p q x⟩
  · have hperm : (y :: m).Perm (m ++ [y]) := (List.perm_append_singleton y m).symm
    exact ⟨y :: m, by simpa using hperm, by simpa using swap_pieces p m q x y⟩

/-! ## The sorted permutation -/

variable [LinearOrder α]

structure Sorts (r l : List α) : Prop where
  perm : r.Perm l
  sorted : r.Pairwise (· ≤ ·)

namespace Sorts

variable {r r' l l' m : List α} {x : α}

theorem unique (h : Sorts r l) (h' : Sorts r' l) : r = r' :=
  (h.perm.trans h'.perm.symm).eq_of_pairwise' h.sorted h'.sorted

theorem of_perm (h : Sorts r l) (hp : l.Perm m) : Sorts r m := ⟨h.perm.trans hp, h.sorted⟩

theorem of_length_le_one (h : l.length ≤ 1) : Sorts l l := by
  refine ⟨.refl _, ?_⟩
  cases l with
  | nil => exact .nil
  | cons a l =>
    have hl : l = [] := List.length_eq_zero_iff.mp (by simpa using h)
    simp [hl]

theorem append_iff (h : Sorts r l) :
    Sorts (r ++ m) (l ++ m) ↔ m.Pairwise (· ≤ ·) ∧ ∀ x ∈ l, ∀ y ∈ m, x ≤ y := by
  constructor
  · intro hs
    obtain ⟨-, hm, hle⟩ := List.pairwise_append.mp hs.sorted
    exact ⟨hm, fun x hx y hy => hle x (h.perm.mem_iff.mpr hx) y hy⟩
  · intro ⟨hm, hle⟩
    have hs : (r ++ m).Pairwise (· ≤ ·) :=
      List.pairwise_append.mpr ⟨h.sorted, hm, fun x hx y hy => hle x (h.perm.mem_iff.mp hx) y hy⟩
    exact ⟨h.perm.append_right m, hs⟩

theorem cons (h : Sorts r l) (hx : ∀ y ∈ l, x ≤ y) : Sorts (x :: r) (x :: l) := by
  have hs : (x :: r).Pairwise (· ≤ ·) := List.pairwise_cons.mpr ⟨fun y hy => hx y (h.perm.mem_iff.mp hy), h.sorted⟩
  exact ⟨h.perm.cons x, hs⟩

theorem append (h : Sorts r l) (h' : Sorts r' l') (hle : ∀ x ∈ l, ∀ y ∈ l', x ≤ y) : Sorts (r ++ r') (l ++ l') := by
  have hr : ∀ x ∈ l, ∀ y ∈ r', x ≤ y := fun x hx y hy => hle x hx y (h'.perm.mem_iff.mp hy)
  exact (h.append_iff.mpr ⟨h'.sorted, hr⟩).of_perm (h'.perm.append_left l)

theorem pivot (h : Sorts r l) (h' : Sorts r' l') (hl : ∀ y ∈ l, y ≤ x) (hl' : ∀ y ∈ l', x ≤ y) :
    Sorts (r ++ x :: r') (l ++ x :: l') := by
  refine h.append (h'.cons hl') ?_
  intro y hy z hz
  cases List.mem_cons.mp hz with
  | inl hzx => exact hzx ▸ hl y hy
  | inr hz => exact (hl y hy).trans (hl' z hz)

theorem merge (h : Sorts r l) (h' : Sorts r' l') : Sorts (List.merge r r' (· ≤ ·)) (l ++ l') := by
  have hp : (List.merge r r' (· ≤ ·)).Perm (l ++ l') :=
    (List.merge_perm_append _).trans (h.perm.append h'.perm)
  exact ⟨hp, by simpa using h.sorted.merge h'.sorted⟩

end Sorts

end Sorting
