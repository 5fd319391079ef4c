import Mathlib.Data.List.Lex

/-!
# Backtracking

A search that extends a list by one choice after another, as long as the
choice is free after the ones before it, finds each admissible list of a given
length once, in lexicographic order.
-/

namespace Backtrack

variable {α : Type*} (choices : List α) (free : List α → α → Prop)

/-- Each element is a choice that was free after those before it. -/
def Admissible (l : List α) : Prop := ∀ p a t, l = p ++ a :: t → a ∈ choices ∧ free p a

section
variable {choices free}

theorem admissible_nil : Admissible choices free [] := by
  intro p a t h
  simp at h

theorem admissible_snoc {l : List α} {a : α} :
    Admissible choices free (l ++ [a]) ↔ Admissible choices free l ∧ a ∈ choices ∧ free l a := by
  constructor
  · intro h
    exact ⟨fun p b t heq => h p b (t ++ [a]) (by simp [heq]), h l a [] rfl⟩
  · rintro ⟨h, ha⟩ p b t heq
    rcases List.eq_nil_or_concat t with rfl | ⟨t, c, rfl⟩
    · obtain ⟨rfl, hb⟩ := List.append_inj' heq rfl
      obtain rfl := List.singleton_inj.mp hb
      exact ha
    · rw [List.concat_eq_append, ← List.cons_append, ← List.append_assoc] at heq
      exact h p b t (List.append_inj' heq rfl).1

theorem Admissible.of_append {l t : List α} (h : Admissible choices free (l ++ t)) : Admissible choices free l :=
  fun p a u heq => h p a (u ++ t) (by simp [heq])

end

variable [∀ p a, Decidable (free p a)]

/-- The lists that `k` more choices make of `p`, in the order of the search. -/
def extensions : Nat → List α → List (List α)
  | 0, p => [p]
  | k + 1, p => (choices.filter fun a => free p a).flatMap fun a => extensions k (p ++ [a])

variable {choices free}

theorem mem_extensions {k : Nat} {p q : List α} (hp : Admissible choices free p) :
    q ∈ extensions choices free k p ↔ p <+: q ∧ q.length = p.length + k ∧ Admissible choices free q := by
  induction k generalizing p with
  | zero =>
    rw [extensions, List.mem_singleton]
    constructor
    · rintro rfl
      exact ⟨List.prefix_refl q, rfl, hp⟩
    · rintro ⟨hpre, hlen, -⟩
      exact (hpre.eq_of_length hlen.symm).symm
  | succ k ih =>
    simp only [extensions, List.mem_flatMap, List.mem_filter, decide_eq_true_eq]
    constructor
    · rintro ⟨a, ha, hq⟩
      obtain ⟨hpre, hlen, hadm⟩ := (ih (admissible_snoc.mpr ⟨hp, ha⟩)).mp hq
      rw [List.length_append, List.length_singleton] at hlen
      exact ⟨(List.prefix_append p [a]).trans hpre, by omega, hadm⟩
    · rintro ⟨⟨t, rfl⟩, hlen, hadm⟩
      rw [List.length_append] at hlen
      cases t with
      | nil =>
        rw [List.length_nil] at hlen
        omega
      | cons a t =>
        have hpa : Admissible choices free (p ++ [a]) := by
          apply Admissible.of_append (t := t)
          rwa [List.append_assoc, List.singleton_append]
        refine ⟨a, (admissible_snoc.mp hpa).2, (ih hpa).mpr ⟨⟨t, by simp⟩, ?_, hadm⟩⟩
        rw [List.length_cons] at hlen
        rw [List.length_append, List.length_cons, List.length_append, List.length_singleton]
        omega

theorem prefix_of_mem_extensions {k : Nat} {p q : List α} (hq : q ∈ extensions choices free k p) : p <+: q := by
  induction k generalizing p with
  | zero =>
    rw [extensions, List.mem_singleton] at hq
    exact hq ▸ List.prefix_refl q
  | succ k ih =>
    obtain ⟨a, -, hq⟩ := List.mem_flatMap.mp hq
    exact (List.prefix_append p [a]).trans (ih hq)

theorem pairwise_extensions {r : α → α → Prop} (hr : choices.Pairwise r) (k : Nat) (p : List α) :
    (extensions choices free k p).Pairwise (List.Lex r) := by
  induction k generalizing p with
  | zero => exact List.pairwise_singleton ..
  | succ k ih =>
    rw [extensions, List.pairwise_flatMap]
    refine ⟨fun a _ => ih (p ++ [a]), (hr.filter _).imp ?_⟩
    intro a b hab x hx y hy
    obtain ⟨s, rfl⟩ := prefix_of_mem_extensions hx
    obtain ⟨t, rfl⟩ := prefix_of_mem_extensions hy
    rw [List.append_assoc, List.append_assoc]
    exact List.Lex.append_left r (.rel hab) p

end Backtrack
