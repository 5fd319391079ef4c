import Mathlib.Combinatorics.SimpleGraph.Connectivity.Connected
import Playground.Lib.RankedForest
import Playground.UnionFind

/-!
# Union-find computes the generated equivalence

The two vectors are a ranked forest on `Fin n`. A `find` compresses it and
keeps its roots; a `unite` links two roots and adds one pair to the generated
equivalence, whose classes the counter counts.
-/

namespace Playground.UnionFind

section
variable {n : Nat}

def united (cs : List (Call n)) : List (Fin n × Fin n) :=
  cs.filterMap fun
    | .unite x y => some (x, y)
    | _ => none

def closure (pairs : List (Fin n × Fin n)) : Setoid (Fin n) :=
  Relation.EqvGen.setoid fun x y => (x, y) ∈ pairs

def rootOf (u : UnionFind) (x : Nat) : Option Nat := (find u x).map Prod.snd

/-! ## The vectors as a forest -/

structure Rep (u : UnionFind) (F : RankedForest (Fin n)) : Prop where
  parent : u.parent = List.ofFn fun x => (F.parent x : Nat)
  rank : u.rank = List.ofFn F.rank
  components : u.components = F.roots.ncard

theorem getElem?_ofFn_fin {α : Type*} (f : Fin n → α) (x : Fin n) : (List.ofFn f)[(x : Nat)]? = some (f x) := by
  simp

theorem set_ofFn {α : Type*} (f : Fin n → α) (x : Fin n) (v : α) :
    (List.ofFn f).set x v = List.ofFn (Function.update f x v) := by
  apply List.ext_getElem
  · simp
  · intro i h₁ h₂
    by_cases h : i = x
    · subst h
      simp
    · have hne : (⟨i, by simpa using h₂⟩ : Fin n) ≠ x := fun e => h (congrArg Fin.val e)
      simp [List.getElem_set_ne (Ne.symm h), Function.update_of_ne hne]

theorem ofFn_update (f : Fin n → Fin n) (x y : Fin n) :
    (List.ofFn fun z => (f z : Nat)).set x y = List.ofFn fun z => (Function.update f x y z : Nat) := by
  rw [set_ofFn]
  congr 1; funext z
  by_cases h : z = x
  · subst h
    simp
  · rw [Function.update_of_ne h, Function.update_of_ne h]

theorem rep_construct (n : Nat) : Rep (construct n) (RankedForest.discrete (Fin n)) where
  parent := by simp [construct, RankedForest.discrete, List.ofFn_eq_map]
  rank := by simp [construct, RankedForest.discrete, List.ofFn_const]
  components := by simp [construct, RankedForest.discrete, RankedForest.roots]

namespace Rep

variable {u : UnionFind} {F : RankedForest (Fin n)}

theorem parent_get (hu : Rep u F) (x : Fin n) : u.parent[(x : Nat)]? = some (F.parent x : Nat) := by
  rw [hu.parent, getElem?_ofFn_fin]

theorem rank_get (hu : Rep u F) (x : Fin n) : u.rank[(x : Nat)]? = some (F.rank x) := by
  rw [hu.rank, getElem?_ofFn_fin]

theorem compress (hu : Rep u F) (x : Fin n) :
    Rep { u with parent := u.parent.set x (F.rep x) } (F.compress x) where
  parent := by
    rw [hu.parent]
    exact ofFn_update F.parent x (F.rep x)
  rank := hu.rank
  components := by
    rw [RankedForest.roots_eq_range]
    rw [hu.components, RankedForest.roots_eq_range]
    rfl

theorem link (hu : Rep u F) {r s : Fin n} (hr : F.parent r = r) (hs : F.parent s = s) (hne : r ≠ s)
    (hle : F.rank s ≤ F.rank r) :
    Rep { parent := u.parent.set s r
          rank := if F.rank r = F.rank s then u.rank.set r (F.rank r + 1) else u.rank
          components := u.components - 1 } (F.link hr hs hne hle) where
  parent := by
    rw [hu.parent]
    exact ofFn_update F.parent s r
  rank := by
    rw [hu.rank, set_ofFn]
    change _ = List.ofFn (F.linkRank r s)
    unfold RankedForest.linkRank
    split <;> rfl
  components := by
    have h := Set.ncard_sdiff_singleton_add_one (show s ∈ F.roots from hs)
    rw [RankedForest.roots_link]
    simp only [hu.components]
    omega

end Rep

/-! ## Finding -/

/-- The same partition, represented by the same roots with the same ranks. -/
structure Kept (F F' : RankedForest (Fin n)) : Prop where
  rep : F'.rep = F.rep
  rank : F'.rank = F.rank

theorem Kept.trans {F F' F'' : RankedForest (Fin n)} (h : Kept F F') (h' : Kept F' F'') : Kept F F'' :=
  ⟨h'.rep.trans h.rep, h'.rank.trans h.rank⟩

theorem Kept.balanced {F F' : RankedForest (Fin n)} (h : Kept F F') (hb : F.Balanced) : F'.Balanced := by
  unfold RankedForest.Balanced
  rw [h.rep, h.rank]
  exact hb

theorem findFuel_spec {u : UnionFind} {F : RankedForest (Fin n)} (hu : Rep u F) {fuel : Nat} {x : Fin n}
    (hfuel : F.rank (F.rep x) < F.rank x + fuel) :
    ∃ u' F', findFuel fuel u x = some (u', (F.rep x : Nat)) ∧ Rep u' F' ∧ Kept F F' := by
  induction fuel generalizing x with
  | zero => exact absurd (F.rank_le_rep x) (Nat.not_le_of_lt hfuel)
  | succ fuel ih =>
    by_cases hx : F.parent x = x
    · refine ⟨u, F, ?_, hu, rfl, rfl⟩
      simp [findFuel, hu.parent_get, hx, F.rep_of_root hx]
    · have hlt := F.rank_lt_parent hx
      obtain ⟨u', F', hf, hu', hk⟩ := ih (x := F.parent x) (by rw [F.rep_parent]; omega)
      rw [F.rep_parent] at hf
      have hne : (F.parent x : Nat) ≠ x := fun e => hx (Fin.ext e)
      refine ⟨_, F'.compress x, ?_, hu'.compress x, hk.rep, hk.rank⟩
      simp [findFuel, hu.parent_get, hne, hf, hk.rep]

theorem find_spec {u : UnionFind} {F : RankedForest (Fin n)} (hu : Rep u F) (hb : F.Balanced) (x : Fin n) :
    ∃ u' F', find u x = some (u', (F.rep x : Nat)) ∧ Rep u' F' ∧ Kept F F' := by
  have hlt := hb.rank_lt_card x
  rw [Nat.card_fin] at hlt
  apply findFuel_spec hu
  rw [hu.parent, List.length_ofFn]
  omega

theorem find_find {u : UnionFind} {F : RankedForest (Fin n)} (hu : Rep u F) (hb : F.Balanced) (x y : Fin n) :
    ∃ u₁ u₂ F₂, find u x = some (u₁, (F.rep x : Nat)) ∧ find u₁ y = some (u₂, (F.rep y : Nat)) ∧
      Rep u₂ F₂ ∧ Kept F F₂ := by
  obtain ⟨u₁, F₁, h₁, hu₁, hk₁⟩ := find_spec hu hb x
  obtain ⟨u₂, F₂, h₂, hu₂, hk₂⟩ := find_spec hu₁ (hk₁.balanced hb) y
  rw [hk₁.rep] at h₂
  exact ⟨u₁, u₂, F₂, h₁, h₂, hu₂, hk₁.trans hk₂⟩

/-! ## Uniting -/

theorem closure_snoc (pairs : List (Fin n × Fin n)) (x y : Fin n) :
    closure (pairs ++ [(x, y)]) = Relation.EqvGen.setoid fun a b => (a, b) ∈ pairs ∨ a = x ∧ b = y := by
  simp [closure]

theorem closure_snoc_of_rel {pairs : List (Fin n × Fin n)} {x y : Fin n} (h : closure pairs x y) :
    closure (pairs ++ [(x, y)]) = closure pairs := by
  rw [closure_snoc]
  apply le_antisymm
  · apply Setoid.eqvGen_le
    rintro a b (hab | ⟨rfl, rfl⟩)
    · exact Relation.EqvGen.rel a b hab
    · exact h
  · exact Setoid.eqvGen_mono fun a b hab => Or.inl hab

theorem unite_same {u : UnionFind} {F : RankedForest (Fin n)} (hu : Rep u F) (hb : F.Balanced) {x y : Fin n}
    (h : F.rep x = F.rep y) : ∃ u' F', unite u x y = some (u', false) ∧ Rep u' F' ∧ Kept F F' := by
  obtain ⟨u₁, u₂, F₂, h₁, h₂, hu₂, hk⟩ := find_find hu hb x y
  refine ⟨u₂, F₂, ?_, hu₂, hk⟩
  simp only [unite, h₁, h₂, h, Option.bind_eq_bind, Option.bind_some, if_true]

theorem unite_link {u : UnionFind} {F : RankedForest (Fin n)} (hu : Rep u F) (hb : F.Balanced) {x y : Fin n}
    (h : F.rep x ≠ F.rep y) {pairs : List (Fin n × Fin n)} (hp : closure pairs = Setoid.ker F.rep) :
    ∃ u' F', unite u x y = some (u', true) ∧ Rep u' F' ∧ F'.Balanced ∧
      closure (pairs ++ [(x, y)]) = Setoid.ker F'.rep := by
  obtain ⟨u₁, u₂, F₂, h₁, h₂, hu₂, hk⟩ := find_find hu hb x y
  rw [← hk.rep] at h h₁ h₂ hp
  have hb₂ := hk.balanced hb
  have hne : (F₂.rep x : Nat) ≠ F₂.rep y := fun e => h (Fin.ext e)
  rw [closure_snoc]
  by_cases hlt : F₂.rank (F₂.rep x) < F₂.rank (F₂.rep y)
  · refine ⟨_, _, ?_, hu₂.link (F₂.parent_rep y) (F₂.parent_rep x) (Ne.symm h) hlt.le,
      RankedForest.balanced_link hb₂, F₂.eqvGen_link _ _ _ _ hp (Or.inr ⟨rfl, rfl⟩)⟩
    simp only [unite, h₁, h₂, hne, hu₂.rank_get, hlt, decide_eq_true_eq, Option.bind_eq_bind,
      Option.bind_some, if_true, if_false]
  · refine ⟨_, _, ?_, hu₂.link (F₂.parent_rep x) (F₂.parent_rep y) h (Nat.le_of_not_lt hlt),
      RankedForest.balanced_link hb₂, F₂.eqvGen_link _ _ _ _ hp (Or.inl ⟨rfl, rfl⟩)⟩
    simp only [unite, h₁, h₂, hne, hu₂.rank_get, hlt, decide_eq_true_eq, Option.bind_eq_bind,
      Option.bind_some, if_false]

/-! ## Every run -/

/-- The forest of a state and the equivalence that it decides. -/
structure Decides (u : UnionFind) (F : RankedForest (Fin n)) (E : Setoid (Fin n)) : Prop where
  rep : Rep u F
  balanced : F.Balanced
  partition : E = Setoid.ker F.rep

namespace Decides

variable {u : UnionFind} {F : RankedForest (Fin n)} {pairs : List (Fin n × Fin n)}

theorem iff {E : Setoid (Fin n)} (hd : Decides u F E) (x y : Fin n) : E x y ↔ F.rep x = F.rep y := by
  rw [hd.partition]
  rfl

theorem kept {E : Setoid (Fin n)} (hd : Decides u F E) {u' : UnionFind} {F' : RankedForest (Fin n)}
    (hu' : Rep u' F') (hk : Kept F F') : Decides u' F' E :=
  ⟨hu', hk.balanced hd.balanced, by rw [hd.partition, hk.rep]⟩

theorem rootOf {E : Setoid (Fin n)} (hd : Decides u F E) (x : Fin n) : rootOf u x = some (F.rep x : Nat) := by
  obtain ⟨u', F', hf, -⟩ := find_spec hd.rep hd.balanced x
  simp [UnionFind.rootOf, hf]

theorem unite (hd : Decides u F (closure pairs)) (x y : Fin n) :
    ∃ u' F' b, unite u x y = some (u', b) ∧ (b = true ↔ ¬ closure pairs x y) ∧
      Decides u' F' (closure (pairs ++ [(x, y)])) := by
  by_cases h : F.rep x = F.rep y
  · have hxy := (hd.iff x y).mpr h
    obtain ⟨u', F', hun, hu', hk⟩ := unite_same hd.rep hd.balanced h
    rw [closure_snoc_of_rel hxy]
    exact ⟨u', F', false, hun, by simp [hxy], hd.kept hu' hk⟩
  · have hxy : ¬ closure pairs x y := fun e => h ((hd.iff x y).mp e)
    obtain ⟨u', F', hun, hu', hb', hp'⟩ := unite_link hd.rep hd.balanced h hd.partition
    exact ⟨u', F', true, hun, by simp [hxy], hu', hb', hp'⟩

theorem connected (hd : Decides u F (closure pairs)) (x y : Fin n) (leftFirst : Bool) :
    ∃ u' F' b, connected u x y leftFirst = some (u', b) ∧ (b = true ↔ closure pairs x y) ∧
      Rep u' F' ∧ Kept F F' := by
  cases leftFirst with
  | true =>
    obtain ⟨u₁, u₂, F₂, h₁, h₂, hu₂, hk⟩ := find_find hd.rep hd.balanced x y
    refine ⟨u₂, F₂, decide (F.rep x = F.rep y), ?_, by simp [hd.iff], hu₂, hk⟩
    simp [UnionFind.connected, h₁, h₂, Fin.ext_iff]
  | false =>
    obtain ⟨u₁, u₂, F₂, h₁, h₂, hu₂, hk⟩ := find_find hd.rep hd.balanced y x
    refine ⟨u₂, F₂, decide (F.rep y = F.rep x), ?_, by simp [hd.iff, eq_comm], hu₂, hk⟩
    simp [UnionFind.connected, h₁, h₂, Fin.ext_iff]

end Decides

theorem decides_construct (n : Nat) : Decides (construct n) (RankedForest.discrete (Fin n)) (closure []) where
  rep := rep_construct n
  balanced := RankedForest.balanced_discrete
  partition := by
    apply le_antisymm
    · apply Setoid.eqvGen_le
      simp
    · intro x y h
      obtain rfl : x = y := h
      exact Setoid.refl' _ x

theorem decides_exec (cs : List (Call n)) :
    ∃ u, (unionFind n).exec cs = some u ∧ ∃ F, Decides u F (closure (united cs)) := by
  apply (unionFind n).exec_inv (P := fun cs u => ∃ F, Decides u F (closure (united cs)))
  · exact ⟨_, decides_construct n⟩
  · rintro cs u c - ⟨F, hd⟩
    cases c with
    | unite x y =>
      obtain ⟨u', F', b, hun, -, hd'⟩ := hd.unite x y
      exact ⟨u', .answer b, by simp [unionFind, hun], F', by simpa [united] using hd'⟩
    | find x =>
      obtain ⟨u', F', hf, hu', hk⟩ := find_spec hd.rep hd.balanced x
      exact ⟨u', .root (F.rep x), by simp [unionFind, hf], F', by simpa [united] using hd.kept hu' hk⟩
    | connected x y leftFirst =>
      obtain ⟨u', F', b, hc, -, hu', hk⟩ := hd.connected x y leftFirst
      exact ⟨u', .answer b, by simp [unionFind, hc], F', by simpa [united] using hd.kept hu' hk⟩

/-! ## What the queries say -/

structure SamePartition (n : Nat) (u u' : UnionFind) : Prop where
  rank : u'.rank = u.rank
  components : u'.components = u.components
  rootOf : ∀ x : Fin n, rootOf u' x = rootOf u x

/-- All calls in range return, and answer according to `E`. -/
structure Represents (u : UnionFind) (E : Setoid (Fin n)) : Prop where
  find : ∀ x : Fin n, ∃ u', ∃ r : Fin n, find u x = some (u', (r : Nat)) ∧ u.parent[(r : Nat)]? = some (r : Nat) ∧
    u'.parent[(r : Nat)]? = some (r : Nat) ∧ E x r ∧ SamePartition n u u'
  connected : ∀ (x y : Fin n) (leftFirst : Bool), ∃ u' b, connected u x y leftFirst = some (u', b) ∧
    (b = true ↔ E x y) ∧ SamePartition n u u'
  unite : ∀ x y : Fin n, ∃ u' b, unite u x y = some (u', b) ∧ (b = true ↔ ¬ E x y)
  numComponents : numComponents u = Nat.card (Quotient E)

theorem Decides.samePartition {u u' : UnionFind} {F F' : RankedForest (Fin n)} {E : Setoid (Fin n)}
    (hd : Decides u F E) (hu' : Rep u' F') (hk : Kept F F') : SamePartition n u u' where
  rank := by rw [hu'.rank, hd.rep.rank, hk.rank]
  components := by
    rw [hu'.components, hd.rep.components, RankedForest.roots_eq_range, RankedForest.roots_eq_range, hk.rep]
  rootOf := by
    intro x
    rw [hd.rootOf, (hd.kept hu' hk).rootOf, hk.rep]

theorem Decides.represents {u : UnionFind} {F : RankedForest (Fin n)} {pairs : List (Fin n × Fin n)}
    (hd : Decides u F (closure pairs)) : Represents u (closure pairs) where
  find := by
    intro x
    obtain ⟨u', F', hf, hu', hk⟩ := find_spec hd.rep hd.balanced x
    have hroot : F'.parent (F.rep x) = F.rep x := by
      rw [← hk.rep]
      exact F'.parent_rep x
    refine ⟨u', F.rep x, hf, ?_, ?_, ?_, hd.samePartition hu' hk⟩
    · rw [hd.rep.parent_get, F.parent_rep]
    · rw [hu'.parent_get, hroot]
    · rw [hd.iff, F.rep_rep]
  connected := by
    intro x y leftFirst
    obtain ⟨u', F', b, hc, hb, hu', hk⟩ := hd.connected x y leftFirst
    exact ⟨u', b, hc, hb, hd.samePartition hu' hk⟩
  unite := by
    intro x y
    obtain ⟨u', F', b, hun, hb, -⟩ := hd.unite x y
    exact ⟨u', b, hun, hb⟩
  numComponents := by rw [numComponents, hd.rep.components, hd.partition, RankedForest.card_quotient]

/-! ## Connected components -/

def graph (edges : List (Fin n × Fin n)) : SimpleGraph (Fin n) := SimpleGraph.fromRel fun x y => (x, y) ∈ edges

theorem closure_eq_reachable (edges : List (Fin n × Fin n)) : closure edges = (graph edges).reachableSetoid := by
  apply le_antisymm
  · apply Setoid.eqvGen_le
    intro x y h
    by_cases hxy : x = y
    · subst hxy
      exact SimpleGraph.Reachable.refl x
    · have hadj : (graph edges).Adj x y := ⟨hxy, Or.inl h⟩
      exact hadj.reachable
  · intro x y ⟨w⟩
    induction w with
    | nil => exact Setoid.refl' _ _
    | cons hadj w ih =>
      apply Setoid.trans' _ _ ih
      rcases hadj.2 with h | h
      · exact Relation.EqvGen.rel _ _ h
      · exact Setoid.symm' _ (Relation.EqvGen.rel _ _ h)

theorem foldlM_unite (edges : List (Fin n × Fin n)) {u : UnionFind} {F : RankedForest (Fin n)}
    {pairs : List (Fin n × Fin n)} (hd : Decides u F (closure pairs)) :
    ∃ u' F', (edges.map fun e => ((e.1 : Nat), (e.2 : Nat))).foldlM
      (fun u e => (unite u e.1 e.2).map Prod.fst) u = some u' ∧ Decides u' F' (closure (pairs ++ edges)) := by
  induction edges generalizing u F pairs with
  | nil => exact ⟨u, F, rfl, by simpa using hd⟩
  | cons e edges ih =>
    obtain ⟨x, y⟩ := e
    obtain ⟨u₁, F₁, b, hun, -, hd₁⟩ := hd.unite x y
    obtain ⟨u', F', hf, hd'⟩ := ih hd₁
    refine ⟨u', F', ?_, by simpa using hd'⟩
    simp [hun, hf]

theorem countComponents_eq (edges : List (Fin n × Fin n)) :
    countComponents n (edges.map fun e => ((e.1 : Nat), (e.2 : Nat))) =
      some (Nat.card (graph edges).ConnectedComponent : Int) := by
  obtain ⟨u, F, hf, hd⟩ := foldlM_unite edges (decides_construct n)
  have hcard := hd.represents.numComponents
  rw [List.nil_append, closure_eq_reachable] at hcard
  simp only [countComponents, hf]
  exact congrArg some hcard

/-- **Union-find decides the generated equivalence**, after any calls in range. -/
theorem represents_exec (n : Nat) :
    (∀ cs : List (Call n), ∃ u, (unionFind n).exec cs = some u ∧ Represents u (closure (united cs))) ∧
    ∀ edges : List (Fin n × Fin n), countComponents n (edges.map fun e => ((e.1 : Nat), (e.2 : Nat))) =
      some (Nat.card (graph edges).ConnectedComponent : Int) := by
  constructor
  · intro cs
    obtain ⟨u, he, F, hd⟩ := decides_exec cs
    exact ⟨u, he, hd.represents⟩
  · exact countComponents_eq

end

end Playground.UnionFind
