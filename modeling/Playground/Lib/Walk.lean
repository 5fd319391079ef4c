import Mathlib.Data.List.Nodup
import Mathlib.Data.List.Perm.Subperm

/-!
# Walks in a graph with integer weights

`E u v w` says that an edge of weight `w` leads from `u` to `v`. Where no cycle
that can be reached has a negative weight, every walk is at least as heavy as
one that repeats no node.
-/

variable {V : Type*} {E : V → V → Int → Prop} {s u v x : V} {a b c w : Int} {l : List V}

/-- A walk from `s` to a node, with its weight. -/
inductive Walk (E : V → V → Int → Prop) (s : V) : V → Int → Prop
  | refl : Walk E s s 0
  | step {u v : V} {a w : Int} : Walk E s u a → E u v w → Walk E s v (a + w)

namespace Walk

theorem single (h : E s v w) : Walk E s v w := by
  have hstep := Walk.refl.step h
  rwa [Int.zero_add] at hstep

theorem trans (h : Walk E s u a) (h' : Walk E u v b) : Walk E s v (a + b) := by
  induction h' with
  | refl => rwa [Int.add_zero]
  | step _ he ih =>
    rw [← Int.add_assoc]
    exact ih.step he

/-- A potential that no edge exceeds by more than its weight bounds every walk. -/
theorem le_potential {p : V → Int} (hp : ∀ u v w, E u v w → p v ≤ p u + w) (h : Walk E s v a) : p v ≤ p s + a := by
  induction h with
  | refl => exact Int.le_of_eq (Int.add_zero _).symm
  | step _ he ih =>
    have hstep := hp _ _ _ he
    omega

theorem nonneg (hE : ∀ u v w, E u v w → 0 ≤ w) (h : Walk E s v a) : 0 ≤ a := by
  have hle := h.le_potential (p := fun _ => 0) fun u v w he => by
    rw [Int.zero_add]
    exact hE u v w he
  rwa [Int.zero_add] at hle

/-- No cycle that can be reached from `s` has a negative weight. -/
def NoNegativeCycle (E : V → V → Int → Prop) (s : V) : Prop := ∀ u a c, Walk E s u a → Walk E u u c → 0 ≤ c

theorem noNegativeCycle_of_potential {p : V → Int} (hp : ∀ u v w, E u v w → p v ≤ p u + w) (s : V) :
    NoNegativeCycle E s := by
  intro u a c _ hc
  have hle := hc.le_potential hp
  omega

theorem noNegativeCycle_of_nonneg (hE : ∀ u v w, E u v w → 0 ≤ w) (s : V) : NoNegativeCycle E s :=
  fun _ _ _ _ h => h.nonneg hE

end Walk

/-- A walk with the nodes before its last one, the latest first. -/
inductive Trail (E : V → V → Int → Prop) (s : V) : List V → V → Int → Prop
  | refl : Trail E s [] s 0
  | step {l : List V} {u v : V} {a w : Int} : Trail E s l u a → E u v w → Trail E s (u :: l) v (a + w)

namespace Trail

theorem walk (h : Trail E s l v a) : Walk E s v a := by
  induction h with
  | refl => exact .refl
  | step _ he ih => exact ih.step he

theorem split (h : Trail E s l v a) (hx : x ∈ v :: l) :
    ∃ l' b c, Trail E s l' x b ∧ Walk E x v c ∧ a = b + c ∧ x :: l' <:+ v :: l := by
  induction h with
  | refl =>
    rw [List.mem_singleton.mp hx]
    exact ⟨[], 0, 0, .refl, .refl, rfl, List.suffix_refl _⟩
  | @step l u v a w h he ih =>
    rcases List.mem_cons.mp hx with rfl | hx
    · exact ⟨u :: l, a + w, 0, h.step he, .refl, (Int.add_zero _).symm, List.suffix_refl _⟩
    · obtain ⟨l', b, c, hl, hwalk, hsum, hsuffix⟩ := ih hx
      exact ⟨l', b, c + w, hl, hwalk.step he, by omega, hsuffix.trans (List.suffix_cons v _)⟩

theorem le_weight {W : Int} (hE : ∀ u v w, E u v w → -W ≤ w) (h : Trail E s l v a) : -(W * l.length) ≤ a := by
  induction h with
  | refl => simp
  | @step l u v a w h he ih =>
    have hw := hE _ _ _ he
    rw [List.length_cons, Int.natCast_succ, Int.mul_add]
    omega

end Trail

namespace Walk

theorem exists_nodup (hcycle : NoNegativeCycle E s) (h : Walk E s v a) :
    ∃ l b, Trail E s l v b ∧ (v :: l).Nodup ∧ b ≤ a := by
  induction h with
  | refl => exact ⟨[], 0, .refl, List.nodup_singleton s, Int.le_refl 0⟩
  | @step u v a w _ he ih =>
    obtain ⟨l, b, hl, hnodup, hle⟩ := ih
    by_cases hv : v ∈ u :: l
    · obtain ⟨l', b', c, hl', hwalk, hsum, hsuffix⟩ := hl.split hv
      have hnonneg := hcycle v b' (c + w) hl'.walk (hwalk.step he)
      exact ⟨l', b', hl', hnodup.sublist hsuffix.sublist, by omega⟩
    · exact ⟨u :: l, b + w, hl.step he, List.nodup_cons.mpr ⟨hv, hnodup⟩, by omega⟩

theorem exists_bound {nodes : List V} {W : Int} (hW : 0 ≤ W) (hE : ∀ u v w, E u v w → -W ≤ w)
    (hcycle : NoNegativeCycle E s) (hnodes : ∀ v a, Walk E s v a → v ∈ nodes) :
    ∃ L : Int, ∀ v a, Walk E s v a → L ≤ a := by
  refine ⟨-(W * nodes.length), fun v a h => ?_⟩
  obtain ⟨l, b, hl, hnodup, hle⟩ := h.exists_nodup hcycle
  have hsub : v :: l ⊆ nodes := by
    intro x hx
    obtain ⟨l', b', c, hl', -⟩ := hl.split hx
    exact hnodes x b' hl'.walk
  have hlen := (List.subperm_of_subset hnodup hsub).length_le
  rw [List.length_cons] at hlen
  have hmul : W * l.length ≤ W * nodes.length := Int.mul_le_mul_of_nonneg_left (by omega) hW
  have hlow := hl.le_weight hE
  omega

end Walk
