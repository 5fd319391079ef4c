import Mathlib.Analysis.Convex.Basic

/-!
# Exponential smoothing

A value is moved towards each new one by a fixed part of the way. What comes
out is a mean of all the values, in which the weight of each falls by the same
factor with every later one.
-/

namespace Smoothing

variable {K E : Type*} [Field K] [AddCommGroup E] [Module K E] {α : K}

def smooth (α : K) (x p : E) : E := x + α • (p - x)

def smoothed (α : K) (x : E) (l : List E) : E := l.foldl (smooth α) x

theorem smooth_eq (x p : E) : smooth α x p = (1 - α) • x + α • p := by
  rw [smooth]
  module

theorem smoothed_append (x : E) (l l' : List E) : smoothed α x (l ++ l') = smoothed α (smoothed α x l) l' :=
  List.foldl_append

/-- What the two have in common since they were different fades their difference. -/
theorem smoothed_sub (x y : E) (l : List E) : smoothed α x l - smoothed α y l = (1 - α) ^ l.length • (x - y) := by
  induction l generalizing x y with
  | nil => simp [smoothed]
  | cons p l ih =>
    have hstep : smooth α x p - smooth α y p = (1 - α) • (x - y) := by
      rw [smooth_eq, smooth_eq]
      module
    show smoothed α (smooth α x p) l - smoothed α (smooth α y p) l = _
    rw [ih, hstep, smul_smul, List.length_cons, pow_succ]

/-- The later values, each with its weight. -/
def weighted (α : K) : List E → E
  | [] => 0
  | p :: l => (α * (1 - α) ^ l.length) • p + weighted α l

theorem smoothed_eq_weighted (x : E) (l : List E) : smoothed α x l = (1 - α) ^ l.length • x + weighted α l := by
  induction l generalizing x with
  | nil => simp [smoothed, weighted]
  | cons p l ih =>
    show smoothed α (smooth α x p) l = _
    rw [ih, smooth_eq, weighted, List.length_cons, pow_succ]
    module

variable [LinearOrder K] [IsStrictOrderedRing K]

/-- A convex set that has all the values has the smoothed one. -/
theorem smoothed_mem (h0 : 0 ≤ α) (h1 : α ≤ 1) {s : Set E} (hs : Convex K s) {x : E} {l : List E} (hx : x ∈ s)
    (hl : ∀ p ∈ l, p ∈ s) : smoothed α x l ∈ s := by
  induction l generalizing x with
  | nil => exact hx
  | cons p l ih =>
    have hstep : smooth α x p ∈ s := hs.add_smul_sub_mem hx (hl p List.mem_cons_self) ⟨h0, h1⟩
    exact ih hstep fun q hq => hl q (List.mem_cons_of_mem _ hq)

end Smoothing
