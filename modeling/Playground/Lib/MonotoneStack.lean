import Mathlib.Data.List.TakeWhile
import Mathlib.Order.Lattice

/-!
# Monotone stacks

The indices of a sequence are pushed one after another, and each first takes
those off that it beats. What is on the stack then is what no later index has
beaten so far, and an index is taken off by the first one that beats it.
-/

namespace MonotoneStack

open scoped List

/-! ## Taking off while a condition holds -/

section
variable {α : Type*} {p : α → Bool} {l : List α}

theorem dropWhile_eq_filter (h : l.Pairwise fun x y => ¬ p x → ¬ p y) :
    l.dropWhile p = l.filter fun x => ¬ p x := by
  induction l with
  | nil => rfl
  | cons x l ih =>
    obtain ⟨hx, hl⟩ := List.pairwise_cons.mp h
    by_cases hp : p x
    · simpa [hp] using ih hl
    · have hall : ∀ y ∈ l, ¬ p y := fun y hy => hx y hy hp
      simp [hp]
      exact (List.filter_eq_self.mpr (by simpa using hall)).symm

theorem takeWhile_eq_filter (h : l.Pairwise fun x y => ¬ p x → ¬ p y) : l.takeWhile p = l.filter p := by
  induction l with
  | nil => rfl
  | cons x l ih =>
    obtain ⟨hx, hl⟩ := List.pairwise_cons.mp h
    by_cases hp : p x
    · simp [hp, ih hl]
    · have hall : ∀ y ∈ l, ¬ p y := fun y hy => hx y hy hp
      simp [hp]
      exact fun y hy => by simpa using hall y hy

end

/-! ## The stack -/

variable {β : Type*} (r : β → β → Prop) (a : Nat → β)

/-- The first index after `k` that beats it. -/
structure Next (k j : Nat) : Prop where
  lt : k < j
  beats : r (a k) (a j)
  first : ∀ l, k < l → l < j → ¬ r (a k) (a l)

variable {r a} {i j k : Nat}

theorem Next.unique (h : Next r a k i) (h' : Next r a k j) : i = j := by
  apply Nat.le_antisymm
  · exact Nat.le_of_not_lt fun hlt => h.first j h'.lt hlt h'.beats
  · exact Nat.le_of_not_lt fun hlt => h'.first i h.lt hlt h.beats

theorem exists_next (hlt : k < j) (h : r (a k) (a j)) : ∃ i ≤ j, Next r a k i := by
  induction j using Nat.strongRecOn with
  | ind j ih =>
    by_cases hfirst : ∃ l, k < l ∧ l < j ∧ r (a k) (a l)
    · obtain ⟨l, hkl, hlj, hl⟩ := hfirst
      obtain ⟨i, hi, hnext⟩ := ih l hlj hkl hl
      exact ⟨i, by omega, hnext⟩
    · exact ⟨j, Nat.le_refl j, hlt, h, fun l hkl hlj hl => hfirst ⟨l, hkl, hlj, hl⟩⟩

variable [DecidableRel r]

variable (r a) in
/-- The indices below `i` that are on the stack, the last first. -/
def stack : Nat → List Nat
  | 0 => []
  | i + 1 => i :: (stack i).dropWhile fun k => r (a k) (a i)

/-- What is not beaten by one that is not beaten by a third is not beaten by that. -/
def NegTrans (r : β → β → Prop) : Prop := ∀ x y z, ¬ r x y → ¬ r y z → ¬ r x z

theorem negTrans_lt [LinearOrder β] : NegTrans (@LT.lt β _) :=
  fun _ _ _ h h' => not_lt.mpr (le_trans (not_lt.mp h') (not_lt.mp h))

theorem negTrans_gt [LinearOrder β] : NegTrans (@GT.gt β _) :=
  fun _ _ _ h h' => not_lt.mpr (le_trans (not_lt.mp h) (not_lt.mp h'))

theorem negTrans_le [LinearOrder β] : NegTrans (@LE.le β _) :=
  fun _ _ _ h h' => not_le.mpr (lt_trans (not_le.mp h') (not_le.mp h))

theorem lt_of_mem_stack (h : k ∈ stack r a i) : k < i := by
  induction i with
  | zero => simp [stack] at h
  | succ i ih =>
    rcases List.mem_cons.mp h with rfl | h
    · exact Nat.lt_succ_self k
    · exact Nat.lt_succ_of_lt (ih ((List.dropWhile_sublist _).subset h))

theorem pairwise_stack (i : Nat) : (stack r a i).Pairwise (· > ·) := by
  induction i with
  | zero => exact List.Pairwise.nil
  | succ i ih =>
    refine List.pairwise_cons.mpr ⟨?_, ih.sublist (List.dropWhile_sublist _)⟩
    intro k hk
    exact lt_of_mem_stack ((List.dropWhile_sublist _).subset hk)

section
variable (hr : NegTrans r)

include hr

theorem pairwise_keep (hmem : ∀ k ∈ stack r a i, ∀ j, k < j → j < i → ¬ r (a k) (a j)) (y : β) :
    (stack r a i).Pairwise fun k k' => ¬ decide (r (a k) y) → ¬ decide (r (a k') y) := by
  refine (pairwise_stack i).imp_of_mem fun {k k'} hk hk' hlt => ?_
  simp
  exact hr _ _ _ (hmem k' hk' k hlt (lt_of_mem_stack hk))

theorem mem_stack : k ∈ stack r a i ↔ k < i ∧ ∀ j, k < j → j < i → ¬ r (a k) (a j) := by
  induction i generalizing k with
  | zero => simp [stack]
  | succ i ih =>
    have hkeep := pairwise_keep hr (fun k hk => (ih.mp hk).2) (a i)
    rw [stack, List.mem_cons, dropWhile_eq_filter hkeep, List.mem_filter, ih]
    simp only [decide_eq_true_eq]
    constructor
    · rintro (rfl | ⟨⟨hlt, hk⟩, hi⟩)
      · exact ⟨Nat.lt_succ_self k, fun j _ _ => by omega⟩
      · refine ⟨Nat.lt_succ_of_lt hlt, fun j hkj hj => ?_⟩
        rcases Nat.lt_succ_iff_lt_or_eq.mp hj with hj | rfl
        · exact hk j hkj hj
        · exact hi
    · rintro ⟨hlt, hk⟩
      rcases Nat.lt_succ_iff_lt_or_eq.mp hlt with hlt | rfl
      · exact .inr ⟨⟨hlt, fun j hkj hj => hk j hkj (Nat.lt_succ_of_lt hj)⟩, hk i hlt (Nat.lt_succ_self i)⟩
      · exact .inl rfl

/-- **What is taken off** by an index. -/
theorem mem_popped : (k ∈ (stack r a i).takeWhile fun k => r (a k) (a i)) ↔ Next r a k i := by
  rw [takeWhile_eq_filter (pairwise_keep hr (fun k hk => ((mem_stack hr).mp hk).2) (a i)), List.mem_filter,
    mem_stack hr]
  simp
  constructor
  · rintro ⟨⟨hlt, hfirst⟩, hbeats⟩
    exact ⟨hlt, hbeats, hfirst⟩
  · rintro ⟨hlt, hbeats, hfirst⟩
    exact ⟨⟨hlt, hfirst⟩, hbeats⟩

theorem exists_survivor (htrans : ∀ x y z, r x y → r y z → r x z) (hj : j < i) :
    ∃ s ∈ stack r a i, j ≤ s ∧ (s = j ∨ r (a j) (a s)) := by
  induction hd : i - j using Nat.strongRecOn generalizing j with
  | ind d ih =>
    subst hd
    by_cases hbeaten : ∃ l, j < l ∧ l < i ∧ r (a j) (a l)
    · obtain ⟨l, hjl, hli, hl⟩ := hbeaten
      obtain ⟨s, hs, hls, hbeats⟩ := ih (i - l) (by omega) hli rfl
      refine ⟨s, hs, by omega, .inr ?_⟩
      rcases hbeats with rfl | hbeats
      · exact hl
      · exact htrans _ _ _ hl hbeats
    · exact ⟨j, (mem_stack hr).mpr ⟨hj, fun l hjl hli hl => hbeaten ⟨l, hjl, hli, hl⟩⟩, Nat.le_refl j, .inl rfl⟩

/-- Between two neighbours on the stack all are beaten by the upper one, and the lower one is not. -/
theorem between (htrans : ∀ x y z, r x y → r y z → r x z) {rest : List Nat} (h : k :: rest <:+ stack r a i) :
    (∀ j < k, (∀ b ∈ rest.head?, b < j) → r (a j) (a k)) ∧ ∀ b ∈ rest.head?, b < k ∧ ¬ r (a b) (a k) := by
  obtain ⟨above, habove⟩ := h
  have hsorted := pairwise_stack (r := r) (a := a) i
  have hk : k ∈ stack r a i := by simp [← habove]
  obtain ⟨hlt, hunbeaten⟩ := (mem_stack hr).mp hk
  rw [← habove, List.pairwise_append, List.pairwise_cons] at hsorted
  obtain ⟨-, ⟨hrest, hrest'⟩, hcross⟩ := hsorted
  constructor
  · intro j hj hb
    obtain ⟨s, hs, hjs, hbeats⟩ := exists_survivor hr htrans (Nat.lt_trans hj hlt)
    -- The survivor is not below the neighbour.
    have hks : k ≤ s := by
      rw [← habove, List.mem_append, List.mem_cons] at hs
      rcases hs with hs | rfl | hs
      · exact Nat.le_of_lt (hcross s hs k List.mem_cons_self)
      · exact Nat.le_refl s
      · cases rest with
        | nil => cases hs
        | cons b rest =>
          have hbj := hb b rfl
          rcases List.mem_cons.mp hs with rfl | hs
          · omega
          · have := (List.pairwise_cons.mp hrest').1 s hs
            omega
    have hbeats' : r (a j) (a s) := hbeats.resolve_left (by omega)
    rcases Nat.eq_or_lt_of_le hks with rfl | hlt'
    · exact hbeats'
    · by_contra hnot
      exact hr _ _ _ hnot (hunbeaten s hlt' (lt_of_mem_stack hs)) hbeats'
  · intro b hb
    have hmem : b ∈ rest := List.mem_of_mem_head? hb
    have hbk : b < k := hrest b hmem
    have hstack : b ∈ stack r a i := by simp [← habove, hmem]
    exact ⟨hbk, ((mem_stack hr).mp hstack).2 k hbk hlt⟩

end

end MonotoneStack
