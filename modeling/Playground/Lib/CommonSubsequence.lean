import Mathlib.Data.List.Basic
import Mathlib.Order.Bounds.Defs

/-!
# Longest common subsequences

The length of a longest common subsequence of two lists. Where the first
elements agree, some longest one starts with them; where they differ, one of
them is not needed.
-/

namespace CommonSubsequence

open scoped List

variable {α : Type*} [DecidableEq α]

def lcs : List α → List α → Nat
  | [], _ => 0
  | _ :: _, [] => 0
  | x :: a, y :: b => if x = y then lcs a b + 1 else max (lcs a (y :: b)) (lcs (x :: a) b)
termination_by a b => a.length + b.length

variable {a b s : List α} {x y : α}

@[simp] theorem lcs_nil_left (b : List α) : lcs [] b = 0 := by rw [lcs]

@[simp] theorem lcs_nil_right (a : List α) : lcs a [] = 0 := by
  cases a with
  | nil => rw [lcs]
  | cons x a => rw [lcs]

theorem lcs_cons_self (x : α) (a b : List α) : lcs (x :: a) (x :: b) = lcs a b + 1 := by rw [lcs, if_pos rfl]

theorem lcs_cons_ne (h : x ≠ y) (a b : List α) :
    lcs (x :: a) (y :: b) = max (lcs a (y :: b)) (lcs (x :: a) b) := by rw [lcs, if_neg h]

omit [DecidableEq α] in
theorem sublist_cases (h : x ≠ y) (hs : s <+ x :: a) (hs' : s <+ y :: b) : s <+ a ∨ s <+ b := by
  cases s with
  | nil => exact .inl (List.nil_sublist a)
  | cons z s =>
    rcases List.sublist_cons_iff.mp hs with hs | ⟨t, ht, hs⟩
    · exact .inl hs
    · rcases List.sublist_cons_iff.mp hs' with hs' | ⟨t', ht', hs'⟩
      · exact .inr hs'
      · simp only [List.cons.injEq] at ht ht'
        exact absurd (ht.1.symm.trans ht'.1) h

theorem length_le (hs : s <+ a) (hs' : s <+ b) : s.length ≤ lcs a b := by
  induction a, b using lcs.induct generalizing s with
  | case1 b => simp [List.sublist_nil.mp hs]
  | case2 x a => simp [List.sublist_nil.mp hs']
  | case3 a x b ih =>
    cases s with
    | nil => simp
    | cons z s =>
      rw [lcs_cons_self]
      exact Nat.succ_le_succ (ih hs.of_cons_cons hs'.of_cons_cons)
  | case4 x a y b h ih ih' =>
    rw [lcs_cons_ne h]
    rcases sublist_cases h hs hs' with hs | hs'
    · exact Nat.le_trans (ih hs hs') (Nat.le_max_left _ _)
    · exact Nat.le_trans (ih' hs hs') (Nat.le_max_right _ _)

theorem exists_length_eq (a b : List α) : ∃ s, s <+ a ∧ s <+ b ∧ s.length = lcs a b := by
  induction a, b using lcs.induct with
  | case1 b => exact ⟨[], by simp⟩
  | case2 x a => exact ⟨[], by simp⟩
  | case3 a x b ih =>
    obtain ⟨s, hs, hs', hlen⟩ := ih
    exact ⟨x :: s, hs.cons_cons x, hs'.cons_cons x, by rw [List.length_cons, hlen, lcs_cons_self]⟩
  | case4 x a y b h ih ih' =>
    rw [lcs_cons_ne h]
    rcases Nat.le_total (lcs a (y :: b)) (lcs (x :: a) b) with hle | hle
    · obtain ⟨s, hs, hs', hlen⟩ := ih'
      exact ⟨s, hs, hs'.cons y, by rw [hlen, Nat.max_eq_right hle]⟩
    · obtain ⟨s, hs, hs', hlen⟩ := ih
      exact ⟨s, hs.cons x, hs', by rw [hlen, Nat.max_eq_left hle]⟩

structure Longest (s a b : List α) : Prop where
  left : s <+ a
  right : s <+ b
  greatest : ∀ t, t <+ a → t <+ b → t.length ≤ s.length

theorem isGreatest_lcs (a b : List α) : IsGreatest { n | ∃ s, s <+ a ∧ s <+ b ∧ s.length = n } (lcs a b) := by
  refine ⟨exists_length_eq a b, ?_⟩
  rintro n ⟨s, hs, hs', rfl⟩
  exact length_le hs hs'

theorem longest_of_length (hs : s <+ a) (hs' : s <+ b) (h : s.length = lcs a b) : Longest s a b :=
  ⟨hs, hs', fun t ht ht' => h ▸ (isGreatest_lcs a b).2 ⟨t, ht, ht', rfl⟩⟩

theorem lcs_comm (a b : List α) : lcs a b = lcs b a := by
  obtain ⟨s, hs, hs', hlen⟩ := exists_length_eq a b
  obtain ⟨t, ht, ht', hlen'⟩ := exists_length_eq b a
  have hle := length_le hs' hs
  have hge := length_le ht' ht
  omega

theorem lcs_le_left (a b : List α) : lcs a b ≤ a.length := by
  obtain ⟨s, hs, -, hlen⟩ := exists_length_eq a b
  exact hlen ▸ hs.length_le

theorem lcs_reverse (a b : List α) : lcs a.reverse b.reverse = lcs a b := by
  obtain ⟨s, hs, hs', hlen⟩ := exists_length_eq a.reverse b.reverse
  obtain ⟨t, ht, ht', hlen'⟩ := exists_length_eq a b
  have hle := length_le ht.reverse ht'.reverse
  have hge := length_le (List.sublist_reverse_iff.mp hs) (List.sublist_reverse_iff.mp hs')
  rw [List.length_reverse] at hle hge
  omega

/-! ## Prefixes -/

def prefixLcs (a b : List α) (i j : Nat) : Nat := lcs (a.take i) (b.take j)

variable {i j : Nat}

@[simp] theorem prefixLcs_zero_left (a b : List α) (j : Nat) : prefixLcs a b 0 j = 0 := by simp [prefixLcs]

@[simp] theorem prefixLcs_zero_right (a b : List α) (i : Nat) : prefixLcs a b i 0 = 0 := by simp [prefixLcs]

omit [DecidableEq α] in
theorem reverse_take (h : a[i]? = some x) : (a.take (i + 1)).reverse = x :: (a.take i).reverse := by
  rw [List.take_add_one, h]
  simp

theorem prefixLcs_eq (hx : a[i]? = some x) (hy : b[j]? = some x) :
    prefixLcs a b (i + 1) (j + 1) = prefixLcs a b i j + 1 := by
  simp only [prefixLcs, ← lcs_reverse (List.take _ _), reverse_take hx, reverse_take hy, lcs_cons_self]

theorem prefixLcs_ne (hx : a[i]? = some x) (hy : b[j]? = some y) (h : x ≠ y) :
    prefixLcs a b (i + 1) (j + 1) = max (prefixLcs a b i (j + 1)) (prefixLcs a b (i + 1) j) := by
  simp only [prefixLcs, ← lcs_reverse (List.take _ _), reverse_take hx, reverse_take hy, lcs_cons_ne h]

theorem prefixLcs_le_right (a b : List α) (i j : Nat) : prefixLcs a b i j ≤ j := by
  unfold prefixLcs
  rw [lcs_comm]
  exact Nat.le_trans (lcs_le_left _ _) (List.length_take_le j b)

theorem prefixLcs_length (a b : List α) : prefixLcs a b a.length b.length = lcs a b := by simp [prefixLcs]

end CommonSubsequence
