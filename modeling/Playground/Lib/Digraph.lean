import Mathlib.Order.WellFoundedSet

/-!
# Cycles and topological orders

A list is layered when every element comes after all its predecessors. Such a
list of all nodes exists only when there is no cycle.
-/

namespace Digraph

open Relation

variable {α : Type*} {E : α → α → Prop} {l : List α} {a b u v : α}

def Acyclic (E : α → α → Prop) : Prop := ∀ a, ¬ TransGen E a a

theorem Acyclic.swap (h : Acyclic E) : Acyclic (Function.swap E) := fun a ha => h a (transGen_swap.mp ha)

/-- Without cycles, what holds of a node when it holds of its successors on a list holds on the list. -/
theorem Acyclic.induction (h : Acyclic E) {P : α → Prop} (hstep : ∀ a ∈ l, (∀ b ∈ l, E a b → P b) → P a) :
    ∀ a ∈ l, P a := by
  intro a ha
  have : IsStrictOrder α (TransGen (Function.swap E)) := { irrefl := h.swap, trans := fun _ _ _ => TransGen.trans }
  have hwf : Set.WellFoundedOn { a | a ∈ l } (TransGen (Function.swap E)) := (List.finite_toSet l).wellFoundedOn
  exact hwf.induction ha fun x hx ih => hstep x hx fun b hb hxb => ih b hb (.single hxb)

theorem Acyclic.exists_source (h : Acyclic E) (hne : l ≠ []) : ∃ a ∈ l, ∀ b ∈ l, ¬ E b a := by
  by_contra hall
  obtain ⟨a, ha⟩ := List.exists_mem_of_ne_nil l hne
  exact h.swap.induction (P := fun _ => False) (fun x hx ih => hall ⟨x, hx, ih⟩) a ha

section
variable {R R' : α → α → Prop} (h : ∀ x y, R' x y → x = v ∧ y = u ∨ x ≠ v ∧ R x y)

include h

theorem reflTransGen_of_redirect {x : α} (hx : ReflTransGen R' x v) : ReflTransGen R x v := by
  induction hx using ReflTransGen.head_induction_on with
  | refl => exact .refl
  | head hstep _ ih =>
    rcases h _ _ hstep with ⟨rfl, -⟩ | ⟨-, hR⟩
    · exact .refl
    · exact .head hR ih

/-- The edges out of `v` are replaced by one to `u`, from which `v` could not be reached. -/
theorem Acyclic.redirect (hR : Acyclic R) (hu : ¬ ReflTransGen R u v) : Acyclic R' := by
  intro a ha
  have hpath : ∀ b, TransGen R' a b → TransGen R a b ∨ ReflTransGen R' a v ∧ ReflTransGen R' u b := by
    intro b hb
    induction hb with
    | single hstep =>
      rcases h _ _ hstep with ⟨rfl, rfl⟩ | ⟨-, hstep⟩
      · exact .inr ⟨.refl, .refl⟩
      · exact .inl (.single hstep)
    | tail hb hstep ih =>
      rcases h _ _ hstep with ⟨rfl, rfl⟩ | ⟨-, hstep'⟩
      · exact .inr ⟨hb.to_reflTransGen, .refl⟩
      · rcases ih with ih | ⟨hv, hu'⟩
        · exact .inl (ih.tail hstep')
        · exact .inr ⟨hv, hu'.tail hstep⟩
  rcases hpath a ha with hcycle | ⟨hv, hu'⟩
  · exact hR a hcycle
  · exact hu (reflTransGen_of_redirect h (hu'.trans hv))

end

/-! ## Lists in which every element comes after its predecessors -/

inductive Layered (E : α → α → Prop) : List α → Prop
  | nil : Layered E []
  | snoc {l : List α} {a : α} : Layered E l → a ∉ l → (∀ b, E b a → b ∈ l) → Layered E (l ++ [a])

theorem Layered.nodup (h : Layered E l) : l.Nodup := by
  induction h with
  | nil => exact List.nodup_nil
  | snoc _ ha _ ih =>
    refine List.nodup_append.mpr ⟨ih, List.pairwise_singleton _ _, fun b hb c hc heq => ?_⟩
    rw [List.mem_singleton.mp hc] at heq
    exact ha (heq ▸ hb)

theorem Layered.closed (h : Layered E l) (ha : a ∈ l) (hb : E b a) : b ∈ l := by
  induction h with
  | nil => cases ha
  | snoc _ _ hpred ih =>
    rcases List.mem_append.mp ha with ha | ha
    · exact List.mem_append_left _ (ih ha)
    · rw [List.mem_singleton.mp ha] at hb
      exact List.mem_append_left _ (hpred b hb)

theorem Layered.irrefl (h : Layered E l) (ha : a ∈ l) : ¬ E a a := by
  induction h with
  | nil => cases ha
  | snoc _ hnot hpred ih =>
    rcases List.mem_append.mp ha with ha | ha
    · exact ih ha
    · rw [List.mem_singleton.mp ha]
      exact fun hloop => hnot (hpred _ hloop)

theorem Layered.pairwise (h : Layered E l) : l.Pairwise fun a b => ¬ E b a := by
  induction h with
  | nil => exact .nil
  | snoc hl ha _ ih =>
    refine List.pairwise_append.mpr ⟨ih, List.pairwise_singleton _ _, fun b hb c hc hcb => ?_⟩
    rw [List.mem_singleton.mp hc] at hcb
    exact ha (hl.closed hb hcb)

theorem idxOf_lt [DecidableEq α] (h : l.Pairwise fun a b => ¬ E b a) (hirrefl : ∀ a ∈ l, ¬ E a a) (hu : u ∈ l)
    (hv : v ∈ l) (huv : E u v) : l.idxOf u < l.idxOf v := by
  induction l with
  | nil => cases hu
  | cons a l ih =>
    obtain ⟨ha, hl⟩ := List.pairwise_cons.mp h
    have hva : a ≠ v := by
      intro heq
      subst heq
      rcases List.mem_cons.mp hu with rfl | hu
      · exact hirrefl u List.mem_cons_self huv
      · exact ha u hu huv
    rw [List.idxOf_cons_ne l hva]
    by_cases hua : a = u
    · rw [List.idxOf_cons_eq l hua]
      exact Nat.succ_pos _
    · rw [List.idxOf_cons_ne l hua]
      exact Nat.succ_lt_succ (ih hl (fun b hb => hirrefl b (List.mem_cons_of_mem a hb))
        (List.mem_of_ne_of_mem (Ne.symm hua) hu) (List.mem_of_ne_of_mem hva.symm hv))

theorem acyclic_of_idxOf [DecidableEq α] (h : ∀ u v, E u v → l.idxOf u < l.idxOf v) : Acyclic E := by
  have hpath : ∀ u v, TransGen E u v → l.idxOf u < l.idxOf v := by
    intro u v huv
    induction huv with
    | single h' => exact h _ _ h'
    | tail _ h' ih => exact Nat.lt_trans ih (h _ _ h')
  exact fun a ha => Nat.lt_irrefl _ (hpath a a ha)

end Digraph
