import Mathlib.Data.Nat.Log
import Mathlib.Data.Set.Card
import Mathlib.Data.Setoid.Basic

/-!
# Ranked forests

Disjoint sets as a forest: an element points to its parent, a root to itself,
and the root above an element represents its set. Ranks grow along parents.
Two things change a forest: an element is pointed at its root (`compress`),
and a root is pointed at another one of no smaller rank (`link`).
-/

structure RankedForest (α : Type*) where
  parent : α → α
  rank : α → ℕ
  rep : α → α
  parent_rep : ∀ x, parent (rep x) = rep x
  rep_parent : ∀ x, rep (parent x) = rep x
  rep_of_root : ∀ {x}, parent x = x → rep x = x
  rank_lt_parent : ∀ {x}, parent x ≠ x → rank x < rank (parent x)
  rank_lt_rep : ∀ {x}, rep x ≠ x → rank x < rank (rep x)

namespace RankedForest

variable {α : Type*} (F : RankedForest α)

@[simp] theorem rep_rep (x : α) : F.rep (F.rep x) = F.rep x := F.rep_of_root (F.parent_rep x)

theorem rank_le_rep (x : α) : F.rank x ≤ F.rank (F.rep x) := by
  by_cases h : F.rep x = x
  · rw [h]
  · exact (F.rank_lt_rep h).le

/-- The elements below a root are those whose parents lead to it. -/
theorem rep_eq_iff {r : α} (hr : F.parent r = r) (x : α) :
    F.rep x = r ↔ Relation.ReflTransGen (fun a b => F.parent a = b) x r := by
  constructor
  · rintro rfl
    -- ranks grow towards the root
    induction hk : F.rank (F.rep x) - F.rank x using Nat.strong_induction_on generalizing x with
    | _ k ih =>
      by_cases hx : F.parent x = x
      · rw [F.rep_of_root hx]
      · have hlt := F.rank_lt_parent hx
        have hle := F.rank_le_rep (F.parent x)
        rw [F.rep_parent] at hle
        have hup := ih _ (by rw [F.rep_parent]; omega) (F.parent x) (F.parent_rep _) rfl
        rw [F.rep_parent] at hup
        exact .head rfl hup
  · intro h
    induction h using Relation.ReflTransGen.head_induction_on with
    | refl => exact F.rep_of_root hr
    | head hab _ ih => rw [← F.rep_parent, hab, ih]

def roots : Set α := {x | F.parent x = x}

theorem roots_eq_range : F.roots = Set.range F.rep := by
  ext x
  constructor
  · intro h
    exact ⟨x, F.rep_of_root h⟩
  · rintro ⟨y, rfl⟩
    exact F.parent_rep y

theorem card_quotient : Nat.card (Quotient (Setoid.ker F.rep)) = F.roots.ncard := by
  rw [roots_eq_range, ← Nat.card_coe_set_eq]
  exact Nat.card_congr (Setoid.quotientKerEquivRange F.rep)

def discrete (α : Type*) : RankedForest α where
  parent := id
  rank _ := 0
  rep := id
  parent_rep _ := rfl
  rep_parent _ := rfl
  rep_of_root _ := rfl
  rank_lt_parent h := absurd rfl h
  rank_lt_rep h := absurd rfl h

variable [DecidableEq α]

/-! ## Compression -/

def compress (x : α) : RankedForest α where
  parent := Function.update F.parent x (F.rep x)
  rank := F.rank
  rep := F.rep
  parent_rep y := by
    by_cases h : F.rep y = x
    · subst h
      simp
    · rw [Function.update_of_ne h, F.parent_rep]
  rep_parent y := by
    by_cases h : y = x
    · subst h
      simp
    · rw [Function.update_of_ne h, F.rep_parent]
  rep_of_root {y} hy := by
    by_cases h : y = x
    · subst h
      simpa using hy
    · rw [Function.update_of_ne h] at hy
      exact F.rep_of_root hy
  rank_lt_parent {y} hy := by
    by_cases h : y = x
    · subst h
      rw [Function.update_self] at hy ⊢
      exact F.rank_lt_rep hy
    · rw [Function.update_of_ne h] at hy ⊢
      exact F.rank_lt_parent hy
  rank_lt_rep := F.rank_lt_rep

/-! ## Linking -/

section
variable {r s : α} (hr : F.parent r = r) (hs : F.parent s = s) (hne : r ≠ s) (hle : F.rank s ≤ F.rank r)

/-- Rank of `r` once `s` is its child. -/
def linkRank (r s : α) : α → ℕ :=
  if F.rank r = F.rank s then Function.update F.rank r (F.rank r + 1) else F.rank

theorem linkRank_of_ne {x : α} (h : x ≠ r) : F.linkRank r s x = F.rank x := by
  unfold linkRank
  split
  · rw [Function.update_of_ne h]
  · rfl

theorem le_linkRank (x : α) : F.rank x ≤ F.linkRank r s x := by
  by_cases h : x = r
  · subst h
    unfold linkRank
    split <;> simp
  · rw [linkRank_of_ne F h]

include hle in
theorem rank_lt_linkRank : F.rank s < F.linkRank r s r := by
  unfold linkRank
  split
  · rename_i h
    simp [h]
  · omega

def linkRep (r s x : α) : α := if F.rep x = s then r else F.rep x

include hr hle in
theorem rank_lt_linkRep {x : α} (hx : F.linkRep r s x ≠ x) :
    F.linkRank r s x < F.linkRank r s (F.linkRep r s x) := by
  have hxr : x ≠ r := by
    intro heq
    subst heq
    apply hx
    unfold linkRep
    split
    · rfl
    · exact F.rep_of_root hr
  rw [linkRank_of_ne F hxr]
  unfold linkRep at hx ⊢
  split
  · rename_i h
    have hle' := F.rank_le_rep x
    rw [h] at hle'
    exact hle'.trans_lt (F.rank_lt_linkRank hle)
  · rename_i h
    rw [if_neg h] at hx
    exact (F.rank_lt_rep hx).trans_le (F.le_linkRank _)

def link : RankedForest α where
  parent := Function.update F.parent s r
  rank := F.linkRank r s
  rep := F.linkRep r s
  parent_rep x := by
    unfold linkRep
    split
    · rw [Function.update_of_ne hne, hr]
    · rename_i h
      rw [Function.update_of_ne h, F.parent_rep]
  rep_parent x := by
    by_cases h : x = s
    · subst h
      rw [Function.update_self]
      simp [linkRep, F.rep_of_root hr, F.rep_of_root hs]
    · rw [Function.update_of_ne h, linkRep, F.rep_parent, linkRep]
  rep_of_root {x} hx := by
    by_cases h : x = s
    · subst h
      rw [Function.update_self] at hx
      exact absurd hx hne
    · rw [Function.update_of_ne h] at hx
      rw [linkRep, F.rep_of_root hx, if_neg h]
  rank_lt_parent {x} hx := by
    by_cases h : x = s
    · subst h
      rw [Function.update_self, linkRank_of_ne F hne.symm]
      exact F.rank_lt_linkRank hle
    · rw [Function.update_of_ne h] at hx ⊢
      have hxr : x ≠ r := fun e => hx (e ▸ hr)
      rw [linkRank_of_ne F hxr]
      exact (F.rank_lt_parent hx).trans_le (F.le_linkRank _)
  rank_lt_rep hx := F.rank_lt_linkRep hr hle hx

theorem roots_link : (F.link hr hs hne hle).roots = F.roots \ {s} := by
  ext x
  by_cases h : x = s
  · subst h
    simp [roots, link, hne]
  · simp [roots, link, h]

/-- Linking the roots above `a` and `b` adds this pair to the generated equivalence. -/
theorem eqvGen_link {R : α → α → Prop} (hR : Relation.EqvGen.setoid R = Setoid.ker F.rep) {a b : α}
    (hab : F.rep a = r ∧ F.rep b = s ∨ F.rep a = s ∧ F.rep b = r) :
    Relation.EqvGen.setoid (fun x y => R x y ∨ x = a ∧ y = b) = Setoid.ker (F.link hr hs hne hle).rep := by
  have hrep : ∀ {x y}, F.rep x = F.rep y → F.linkRep r s x = F.linkRep r s y := by
    intro x y h
    rw [linkRep, linkRep, h]
  apply le_antisymm
  · apply Setoid.eqvGen_le
    rintro x y (h | ⟨rfl, rfl⟩)
    · have hxy : Setoid.ker F.rep x y := hR ▸ Relation.EqvGen.rel x y h
      exact hrep hxy
    · change F.linkRep r s x = F.linkRep r s y
      rcases hab with ⟨ha, hb⟩ | ⟨ha, hb⟩
      · simp [linkRep, ha, hb]
      · simp [linkRep, ha, hb]
  · generalize hE : Relation.EqvGen.setoid (fun x y => R x y ∨ x = a ∧ y = b) = E
    have hker : ∀ {x y}, F.rep x = F.rep y → E x y := by
      intro x y h
      have hxy : Relation.EqvGen.setoid R x y := hR ▸ h
      rw [← hE]
      exact Setoid.eqvGen_mono (fun _ _ h => Or.inl h) hxy
    have hpair : E a b := by
      rw [← hE]
      exact Relation.EqvGen.rel a b (Or.inr ⟨rfl, rfl⟩)
    have hsr : E s r := by
      rcases hab with ⟨ha, hb⟩ | ⟨ha, hb⟩
      · have h₁ : E s b := hker (by rw [F.rep_of_root hs, hb])
        have h₂ : E a r := hker (by rw [F.rep_of_root hr, ha])
        exact E.trans (E.trans h₁ (E.symm hpair)) h₂
      · have h₁ : E s a := hker (by rw [F.rep_of_root hs, ha])
        have h₂ : E b r := hker (by rw [F.rep_of_root hr, hb])
        exact E.trans (E.trans h₁ hpair) h₂
    have hto : ∀ x, E x (F.linkRep r s x) := by
      intro x
      have h : E x (F.rep x) := hker (F.rep_rep x).symm
      unfold linkRep
      split
      · rename_i hx
        exact E.trans (hx ▸ h) hsr
      · exact h
    intro x y hxy
    have hxy' : F.linkRep r s x = F.linkRep r s y := hxy
    exact E.trans (hto x) (hxy' ▸ E.symm (hto y))

end

/-! ## Balance -/

section
variable [Finite α]

/-- A root of rank `k` represents at least `2 ^ k` elements. -/
def Balanced (F : RankedForest α) : Prop := ∀ x, 2 ^ F.rank (F.rep x) ≤ {y | F.rep y = F.rep x}.ncard

omit [DecidableEq α] in
theorem Balanced.two_pow_le_card {F : RankedForest α} (hb : F.Balanced) (x : α) :
    2 ^ F.rank (F.rep x) ≤ Nat.card α :=
  (hb x).trans (Set.ncard_le_card _)

omit [DecidableEq α] in
theorem Balanced.rank_lt_card {F : RankedForest α} (hb : F.Balanced) (x : α) : F.rank (F.rep x) < Nat.card α :=
  Nat.lt_two_pow_self.trans_le (hb.two_pow_le_card x)

omit [DecidableEq α] in
theorem Balanced.rank_le_log {F : RankedForest α} (hb : F.Balanced) (x : α) :
    F.rank (F.rep x) ≤ Nat.log 2 (Nat.card α) :=
  Nat.le_log_of_pow_le Nat.one_lt_two (hb.two_pow_le_card x)

omit [DecidableEq α] [Finite α] in
theorem balanced_discrete : (discrete α).Balanced := by
  intro x
  simp [discrete]

variable {F} {r s : α} {hr : F.parent r = r} {hs : F.parent s = s} {hne : r ≠ s} {hle : F.rank s ≤ F.rank r}

theorem balanced_link (hb : F.Balanced) : (F.link hr hs hne hle).Balanced := by
  intro x
  change 2 ^ F.linkRank r s (F.linkRep r s x) ≤ {y | F.linkRep r s y = F.linkRep r s x}.ncard
  by_cases h : F.linkRep r s x = r
  · -- the two sets together
    have hset : {y | F.linkRep r s y = r} = {y | F.rep y = r} ∪ {y | F.rep y = s} := by
      ext y
      by_cases hy : F.rep y = s <;> simp [linkRep, hy]
    have hdisj : Disjoint {y | F.rep y = r} {y | F.rep y = s} := by
      rw [Set.disjoint_left]
      intro y h₁ h₂
      exact hne (h₁.symm.trans h₂)
    have hr' := hb r
    have hs' := hb s
    rw [F.rep_of_root hr] at hr'
    rw [F.rep_of_root hs] at hs'
    rw [h, hset, Set.ncard_union_eq hdisj]
    unfold linkRank
    split
    · rename_i heq
      rw [← heq] at hs'
      rw [Function.update_self, Nat.pow_succ]
      omega
    · omega
  · have hx : F.rep x ≠ s := fun e => h (by rw [linkRep, if_pos e])
    have hx' : F.linkRep r s x = F.rep x := if_neg hx
    have hset : {y | F.linkRep r s y = F.rep x} = {y | F.rep y = F.rep x} := by
      ext y
      by_cases hy : F.rep y = s
      · simp [linkRep, hy, Ne.symm hx, hx' ▸ Ne.symm h]
      · simp [linkRep, hy]
    rw [hx', hset, linkRank_of_ne F (hx' ▸ h)]
    exact hb x

end

end RankedForest
