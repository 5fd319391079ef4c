import Playground.UnionFindSound

/-!
# The ranks of union-find

Ranks grow along parents, and a root of rank `k` is above `2 ^ k` elements at
least. So `find` goes up a logarithmic number of links.
-/

namespace Playground.UnionFind

variable {n : Nat} {u : UnionFind}

def Link (u : UnionFind) (x p : Fin n) : Prop := u.parent[(x : Nat)]? = some (p : Nat)

def tree (u : UnionFind) (r : Fin n) : Set (Fin n) := {x | Relation.ReflTransGen (Link u) x r}

structure Ranked (n : Nat) (u : UnionFind) : Prop where
  link : ∀ x : Fin n, ∃ p : Fin n, Link u x p
  increases : ∀ x p : Fin n, Link u x p → p ≠ x →
    ∃ k l, u.rank[(x : Nat)]? = some k ∧ u.rank[(p : Nat)]? = some l ∧ k < l
  large : ∀ r : Fin n, Link u r r → ∃ k, u.rank[(r : Nat)]? = some k ∧ 2 ^ k ≤ (tree u r).ncard
  /-- `Nat.log 2 n + 1` nested calls are enough. -/
  depth : ∀ x : Fin n, ∃ a, find u x = some a ∧ findFuel (Nat.log 2 n + 1) u x = some a

theorem findFuel_mono {k k' x : Nat} {a : UnionFind × Nat} (h : findFuel k u x = some a) (hle : k ≤ k') :
    findFuel k' u x = some a := by
  induction k generalizing k' x a with
  | zero => cases h
  | succ k ih =>
    obtain ⟨k', rfl⟩ := Nat.exists_eq_succ_of_ne_zero (Nat.ne_of_gt (Nat.lt_of_lt_of_le (Nat.succ_pos k) hle))
    obtain ⟨p, hp, h⟩ := Option.bind_eq_some_iff.mp h
    refine Option.bind_eq_some_iff.mpr ⟨p, hp, ?_⟩
    by_cases hx : p ≠ x
    · rw [if_pos hx] at h ⊢
      obtain ⟨b, hb, h⟩ := Option.bind_eq_some_iff.mp h
      exact Option.bind_eq_some_iff.mpr ⟨b, ih hb (Nat.le_of_succ_le_succ hle), h⟩
    · rwa [if_neg hx] at h ⊢

section
variable {F : RankedForest (Fin n)} (hu : Rep u F)
include hu

theorem Rep.link_iff {x p : Fin n} : Link u x p ↔ F.parent x = p := by
  rw [Link, hu.parent_get, Option.some_inj, Fin.val_inj]

theorem Rep.tree_eq {r : Fin n} (hr : F.parent r = r) : tree u r = {x | F.rep x = r} := by
  have hlink : Link (n := n) u = fun x p => F.parent x = p := by
    funext x p
    exact propext hu.link_iff
  ext x
  rw [tree, hlink, Set.mem_ofPred_eq, Set.mem_ofPred_eq, F.rep_eq_iff hr]

theorem Rep.ranked (hb : F.Balanced) : Ranked n u where
  link x := ⟨F.parent x, hu.link_iff.mpr rfl⟩
  increases := by
    intro x p hxp hne
    obtain rfl := hu.link_iff.mp hxp
    exact ⟨_, _, hu.rank_get x, hu.rank_get _, F.rank_lt_parent hne⟩
  large := by
    intro r hr
    have hroot := hu.link_iff.mp hr
    have hlarge := hb r
    rw [F.rep_of_root hroot] at hlarge
    exact ⟨_, hu.rank_get r, by rwa [hu.tree_eq hroot]⟩
  depth := by
    intro x
    have hlog := hb.rank_le_log x
    rw [Nat.card_fin] at hlog
    obtain ⟨u₁, _, h₁, -⟩ := find_spec hu hb x
    have hfuel : F.rank (F.rep x) < F.rank x + (Nat.log 2 n + 1) := by omega
    obtain ⟨u₂, _, h₂, -⟩ := findFuel_spec hu hfuel
    have hmax := findFuel_mono h₁ (Nat.le_max_left _ (Nat.log 2 n + 1))
    rw [findFuel_mono h₂ (Nat.le_max_right _ _)] at hmax
    exact ⟨_, h₁, h₂.trans hmax⟩

end

/-- **Ranks** grow along links and bound the depth, after any calls in range. -/
theorem ranked_exec (n : Nat) (cs : List (Call n)) : ∃ u, (unionFind n).exec cs = some u ∧ Ranked n u := by
  obtain ⟨u, hrun, F, hd⟩ := decides_exec cs
  exact ⟨u, hrun, hd.rep.ranked hd.balanced⟩

end Playground.UnionFind
