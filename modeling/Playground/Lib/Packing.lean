import Mathlib.Algebra.BigOperators.Group.List.Basic
import Mathlib.Algebra.Order.BigOperators.Group.List
import Mathlib.Algebra.Order.Group.Int
import Mathlib.Algebra.Ring.Int.Defs
import Mathlib.Data.Set.Basic
import Mathlib.Order.Bounds.Defs

/-!
# Packing items into a capacity

The greatest total value of a selection of items, each at most once, whose
total weight fits: an item is left out, or it is taken and the others have the
capacity that is left.
-/

namespace Packing

open scoped List

variable {ι : Type*} (weight value : ι → Int)

def Values (l : List ι) (c : Int) : Set Int :=
  { v | ∃ s, s <+ l ∧ (s.map weight).sum ≤ c ∧ (s.map value).sum = v }

def best : List ι → Int → Int
  | [], _ => 0
  | x :: l, c => if weight x ≤ c then max (best l c) (best l (c - weight x) + value x) else best l c

variable {weight value} {l : List ι} {x : ι} {c v : Int}

theorem best_fits (h : weight x ≤ c) (l : List ι) :
    best weight value (x :: l) c = max (best weight value l c) (best weight value l (c - weight x) + value x) :=
  if_pos h

theorem best_heavy (h : c < weight x) (l : List ι) : best weight value (x :: l) c = best weight value l c :=
  if_neg (Int.not_le.mpr h)

theorem Values.leave (h : v ∈ Values weight value l c) (x : ι) : v ∈ Values weight value (x :: l) c := by
  obtain ⟨s, hs, hfit, hv⟩ := h
  exact ⟨s, hs.cons x, hfit, hv⟩

theorem Values.take (h : v ∈ Values weight value l (c - weight x)) :
    v + value x ∈ Values weight value (x :: l) c := by
  obtain ⟨s, hs, hfit, rfl⟩ := h
  refine ⟨x :: s, hs.cons_cons x, ?_, ?_⟩
  · simp
    omega
  · simp
    omega

theorem Values.cases (h : v ∈ Values weight value (x :: l) c) (hl : ∀ y ∈ l, 0 ≤ weight y) :
    v ∈ Values weight value l c ∨ weight x ≤ c ∧ v - value x ∈ Values weight value l (c - weight x) := by
  obtain ⟨s, hs, hfit, rfl⟩ := h
  rcases List.sublist_cons_iff.mp hs with ht | ⟨t, rfl, ht⟩
  · exact .inl ⟨s, ht, hfit, rfl⟩
  · have hnonneg : 0 ≤ (t.map weight).sum := by
      apply List.sum_nonneg
      simp
      exact fun y hy => hl y (ht.subset hy)
    simp at hfit
    refine .inr ⟨by omega, t, ht, by omega, ?_⟩
    simp

theorem isGreatest_best (hl : ∀ x ∈ l, 0 ≤ weight x) (hc : 0 ≤ c) :
    IsGreatest (Values weight value l c) (best weight value l c) := by
  induction l generalizing c with
  | nil =>
    refine ⟨⟨[], by simp, by simpa using hc, by simp [best]⟩, ?_⟩
    rintro v ⟨s, hs, -, rfl⟩
    simp [List.sublist_nil.mp hs, best]
  | cons x l ih =>
    have hl' := fun y hy => hl y (List.mem_cons_of_mem x hy)
    obtain ⟨hmem, hup⟩ := ih hl' hc
    by_cases hfit : weight x ≤ c
    · obtain ⟨hmem', hup'⟩ := ih hl' (c := c - weight x) (by omega)
      rw [best_fits hfit]
      constructor
      · rcases max_choice (best weight value l c) (best weight value l (c - weight x) + value x) with heq | heq
        · rw [heq]
          exact Values.leave hmem x
        · rw [heq]
          exact Values.take hmem'
      · intro v hv
        rcases Values.cases hv hl' with hv | ⟨-, hv⟩
        · exact le_max_of_le_left (hup hv)
        · have := hup' hv
          exact le_max_of_le_right (by omega)
    · rw [best_heavy (Int.not_le.mp hfit)]
      refine ⟨Values.leave hmem x, ?_⟩
      intro v hv
      rcases Values.cases hv hl' with hv | ⟨hle, -⟩
      · exact hup hv
      · exact absurd hle hfit

theorem values_reverse (l : List ι) (c : Int) : Values weight value l.reverse c = Values weight value l c := by
  have hsub : ∀ l : List ι, Values weight value l.reverse c ⊆ Values weight value l c := by
    rintro l v ⟨s, hs, hfit, rfl⟩
    refine ⟨s.reverse, List.reverse_reverse l ▸ hs.reverse, ?_, ?_⟩
    · simpa [List.sum_reverse] using hfit
    · simp [List.sum_reverse]
  refine Set.Subset.antisymm (hsub l) ?_
  simpa using hsub l.reverse

/-! ## Prefixes -/

variable (weight value) in
/-- With the first `i` items, the last of these first. -/
def bestOf (l : List ι) (i : Nat) (c : Int) : Int := best weight value (l.take i).reverse c

variable {i : Nat}

@[simp] theorem bestOf_zero (l : List ι) (c : Int) : bestOf weight value l 0 c = 0 := by simp [bestOf, best]

theorem bestOf_fits (h : l[i]? = some x) (hfit : weight x ≤ c) : bestOf weight value l (i + 1) c =
    max (bestOf weight value l i c) (bestOf weight value l i (c - weight x) + value x) := by
  simp [bestOf, List.take_add_one, h, best_fits hfit]

theorem bestOf_heavy (h : l[i]? = some x) (hheavy : c < weight x) :
    bestOf weight value l (i + 1) c = bestOf weight value l i c := by
  simp [bestOf, List.take_add_one, h, best_heavy hheavy]

/-- Where an item makes a difference, it is taken. -/
theorem bestOf_ne (h : l[i]? = some x) (hne : bestOf weight value l (i + 1) c ≠ bestOf weight value l i c) :
    weight x ≤ c ∧ bestOf weight value l (i + 1) c = bestOf weight value l i (c - weight x) + value x := by
  by_cases hfit : weight x ≤ c
  · rw [bestOf_fits h hfit] at hne ⊢
    exact ⟨hfit, (max_choice _ _).resolve_left hne⟩
  · exact absurd (bestOf_heavy h (Int.not_le.mp hfit)) hne

theorem isGreatest_bestOf (hl : ∀ x ∈ l, 0 ≤ weight x) (hc : 0 ≤ c) :
    IsGreatest (Values weight value l c) (bestOf weight value l l.length c) := by
  rw [← values_reverse, bestOf, List.take_length]
  exact isGreatest_best (fun x hx => hl x (List.mem_reverse.mp hx)) hc

end Packing
