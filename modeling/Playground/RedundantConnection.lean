import Mathlib.Combinatorics.SimpleGraph.Acyclic
import Playground.UnionFindSound

/-!
# The redundant edge

An edge whose endpoints are connected by the edges before it closes a cycle.
A list without such an edge is a forest, and each of its edges connects two
components; so the number of edges and the number of components add up to
the number of nodes for forests, and to more for all other lists.
-/

namespace Playground.UnionFind

section
variable {n : Nat}

/-- No edge twice, in either direction, none from a node to itself, and no cycle. -/
structure Forest (edges : List (Fin n × Fin n)) : Prop where
  loopless : ∀ e ∈ edges, e.1 ≠ e.2
  nodup : (edges.map fun e => s(e.1, e.2)).Nodup
  acyclic : (graph edges).IsAcyclic

/-- No edge closes a cycle with the edges before it. -/
def Independent (edges : List (Fin n × Fin n)) : Prop :=
  ∀ first e rest, edges = first ++ e :: rest → ¬ (graph first).Reachable e.1 e.2

/-- `e` is the first edge that closes a cycle. -/
def FirstRedundant (edges : List (Fin n × Fin n)) (e : Fin n × Fin n) : Prop :=
  ∃ first rest, edges = first ++ e :: rest ∧ Independent first ∧ (graph first).Reachable e.1 e.2

theorem closure_iff (edges : List (Fin n × Fin n)) (x y : Fin n) :
    closure edges x y ↔ (graph edges).Reachable x y := by
  rw [closure_eq_reachable]
  rfl

/-! ## Forests -/

theorem independent_nil : Independent ([] : List (Fin n × Fin n)) := by
  intro first e rest h
  simp at h

theorem independent_snoc (edges : List (Fin n × Fin n)) (e : Fin n × Fin n) :
    Independent (edges ++ [e]) ↔ Independent edges ∧ ¬ (graph edges).Reachable e.1 e.2 := by
  constructor
  · intro h
    refine ⟨fun first e' rest heq => h first e' (rest ++ [e]) (by simp [heq]), h edges e [] rfl⟩
  · rintro ⟨h, he⟩ first e' rest heq
    rcases List.eq_nil_or_concat rest with rfl | ⟨rest, e'', rfl⟩
    · obtain ⟨rfl, he'⟩ := List.append_inj' heq rfl
      obtain rfl := List.singleton_inj.mp he'
      exact he
    · rw [List.concat_eq_append, ← List.cons_append, ← List.append_assoc] at heq
      exact h first e' rest (List.append_inj' heq rfl).1

theorem graph_adj (edges : List (Fin n × Fin n)) (x y : Fin n) :
    (graph edges).Adj x y ↔ x ≠ y ∧ s(x, y) ∈ edges.map fun e => s(e.1, e.2) := by
  simp only [graph, SimpleGraph.fromRel_adj, List.mem_map, Prod.exists, Sym2.eq_iff]
  grind

theorem graph_snoc (edges : List (Fin n × Fin n)) (e : Fin n × Fin n) :
    graph (edges ++ [e]) = graph edges ⊔ SimpleGraph.edge e.1 e.2 := by
  ext x y
  simp only [graph, SimpleGraph.fromRel_adj, SimpleGraph.sup_adj, SimpleGraph.edge_adj, List.mem_append,
    List.mem_singleton, Prod.ext_iff]
  grind

theorem forest_snoc (edges : List (Fin n × Fin n)) (e : Fin n × Fin n) :
    Forest (edges ++ [e]) ↔ Forest edges ∧ ¬ (graph edges).Reachable e.1 e.2 := by
  constructor
  · rintro ⟨hloop, hnodup, hacyclic⟩
    rw [graph_snoc, SimpleGraph.isAcyclic_sup_fromEdgeSet_iff] at hacyclic
    rw [List.map_append, List.nodup_append] at hnodup
    have hne : e.1 ≠ e.2 := hloop e (by simp)
    have hadj : ¬ (graph edges).Adj e.1 e.2 := by
      rw [graph_adj]
      exact fun h => hnodup.2.2 _ h.2 s(e.1, e.2) (by simp) rfl
    refine ⟨⟨fun e' he' => hloop e' (List.mem_append_left _ he'), hnodup.1, hacyclic.1⟩, fun hr => ?_⟩
    exact (hacyclic.2 hr).elim hne hadj
  · rintro ⟨⟨hloop, hnodup, hacyclic⟩, hr⟩
    have hne : e.1 ≠ e.2 := by
      intro heq
      rw [heq] at hr
      exact hr (SimpleGraph.Reachable.refl _)
    refine ⟨?_, ?_, ?_⟩
    · intro e' he'
      rcases List.mem_append.mp he' with he' | he'
      · exact hloop e' he'
      · rw [List.mem_singleton.mp he']
        exact hne
    · rw [List.map_append, List.nodup_append]
      refine ⟨hnodup, List.nodup_singleton _, fun a ha b hb heq => hr ?_⟩
      rw [List.map_singleton, List.mem_singleton] at hb
      rw [heq, hb] at ha
      have hadj := (graph_adj edges e.1 e.2).mpr ⟨hne, ha⟩
      exact hadj.reachable
    · rw [graph_snoc]
      exact hacyclic.sup_edge_of_not_reachable hr

theorem forest_iff_independent (edges : List (Fin n × Fin n)) : Forest edges ↔ Independent edges := by
  induction edges using List.reverseRecOn with
  | nil =>
    refine iff_of_true ⟨by simp, List.nodup_nil, ?_⟩ independent_nil
    have hbot : graph ([] : List (Fin n × Fin n)) = ⊥ := by
      ext x y
      simp [graph]
    rw [hbot]
    exact SimpleGraph.isAcyclic_bot
  | append_singleton edges e ih => rw [forest_snoc, independent_snoc, ih]

/-! ## Counting components -/

theorem exists_forest (edges : List (Fin n × Fin n)) :
    ∃ F : RankedForest (Fin n), closure edges = Setoid.ker F.rep := by
  obtain ⟨u, F, -, hd⟩ := foldlM_unite edges (decides_construct n)
  exact ⟨F, hd.partition⟩

theorem card_link (F : RankedForest (Fin n)) {r s : Fin n} (hr : F.parent r = r) (hs : F.parent s = s) (hne : r ≠ s)
    (hle : F.rank s ≤ F.rank r) : Nat.card (Quotient (Setoid.ker (F.link hr hs hne hle).rep)) + 1 =
      Nat.card (Quotient (Setoid.ker F.rep)) := by
  rw [RankedForest.card_quotient, RankedForest.card_quotient, RankedForest.roots_link]
  exact Set.ncard_sdiff_singleton_add_one (show s ∈ F.roots from hs)

theorem card_snoc {edges : List (Fin n × Fin n)} {e : Fin n × Fin n} (h : ¬ closure edges e.1 e.2) :
    Nat.card (Quotient (closure (edges ++ [e]))) + 1 = Nat.card (Quotient (closure edges)) := by
  obtain ⟨x, y⟩ := e
  obtain ⟨F, hF⟩ := exists_forest edges
  have hne : F.rep x ≠ F.rep y := by
    intro heq
    rw [hF] at h
    exact h heq
  rw [closure_snoc]
  rcases Nat.le_total (F.rank (F.rep y)) (F.rank (F.rep x)) with hle | hle
  · rw [F.eqvGen_link (F.parent_rep x) (F.parent_rep y) hne hle hF (.inl ⟨rfl, rfl⟩), card_link, hF]
  · rw [F.eqvGen_link (F.parent_rep y) (F.parent_rep x) hne.symm hle hF (.inr ⟨rfl, rfl⟩), card_link, hF]

/-- There are at least as many components as there are nodes without edges, and no more exactly in forests. -/
theorem card_components (edges : List (Fin n × Fin n)) :
    n ≤ Nat.card (Quotient (closure edges)) + edges.length ∧
      (n = Nat.card (Quotient (closure edges)) + edges.length ↔ Independent edges) := by
  induction edges using List.reverseRecOn with
  | nil =>
    have hcard : Nat.card (Quotient (closure ([] : List (Fin n × Fin n)))) = n := by
      have hrep : (n : Int) = _ := (decides_construct n).represents.numComponents
      exact_mod_cast hrep.symm
    exact ⟨by omega, iff_of_true (by simp [hcard]) independent_nil⟩
  | append_singleton edges e ih =>
    obtain ⟨hle, hiff⟩ := ih
    rw [independent_snoc, ← hiff, ← closure_iff, List.length_append, List.length_singleton]
    by_cases he : closure edges e.1 e.2
    · rw [closure_snoc_of_rel he]
      exact ⟨by omega, iff_of_false (by omega) fun h => h.2 he⟩
    · have hcard := card_snoc he
      refine ⟨by omega, ?_⟩
      rw [and_iff_left he]
      omega

/-! ## The search -/

theorem firstRedundant_spec (edges : List (Fin n × Fin n)) {u : UnionFind} {F : RankedForest (Fin n)}
    {before : List (Fin n × Fin n)} (hd : Decides u F (closure before)) (hi : Independent before) :
    (∃ e, firstRedundant u (edges.map fun e => ((e.1 : Nat), (e.2 : Nat))) = some ((e.1 : Int), (e.2 : Int)) ∧
      FirstRedundant (before ++ edges) e) ∨
    (firstRedundant u (edges.map fun e => ((e.1 : Nat), (e.2 : Nat))) = some (-1, -1) ∧
      Independent (before ++ edges)) := by
  induction edges generalizing u F before with
  | nil => exact .inr ⟨rfl, by simpa using hi⟩
  | cons e edges ih =>
    obtain ⟨u', F', b, hun, hb, hd'⟩ := hd.unite e.1 e.2
    rw [closure_iff] at hb
    simp only [List.map_cons, firstRedundant, hun]
    cases b with
    | false =>
      have hr : (graph before).Reachable e.1 e.2 := by
        by_contra hr
        exact Bool.false_ne_true (hb.mpr hr)
      exact .inl ⟨e, rfl, before, edges, rfl, hi, hr⟩
    | true =>
      have hi' : Independent (before ++ [e]) := (independent_snoc before e).mpr ⟨hi, hb.mp rfl⟩
      have hsplit : before ++ e :: edges = before ++ [e] ++ edges := by simp
      rw [hsplit]
      exact ih hd' hi'

/-! ## Spanning trees -/

/-- The edges connect the nodes `1 .. n`, and there is at least one such node. -/
structure ConnectsAll (edges : List (Fin (n + 1) × Fin (n + 1))) : Prop where
  avoids : ∀ e ∈ edges, e.1 ≠ 0 ∧ e.2 ≠ 0
  nonempty : 1 ≤ n
  reachable : ∀ x y : Fin (n + 1), x ≠ 0 → y ≠ 0 → (graph edges).Reachable x y

/-- A spanning tree of the nodes `1 .. n`. -/
structure SpanningTree (edges : List (Fin (n + 1) × Fin (n + 1))) : Prop where
  forest : Forest edges
  connected : ConnectsAll edges

/-- Node 0 is a component, and the other nodes are one more. -/
theorem ConnectsAll.card {edges : List (Fin (n + 1) × Fin (n + 1))} (h : ConnectsAll edges) :
    Nat.card (Quotient (closure edges)) = 2 := by
  have hzero : closure edges ≤ Setoid.ker fun x : Fin (n + 1) => decide (x = 0) := by
    apply Setoid.eqvGen_le
    intro x y hxy
    have ⟨hx, hy⟩ := h.avoids (x, y) hxy
    exact (decide_eq_false hx).trans (decide_eq_false hy).symm
  have hlast : Fin.last n ≠ 0 := by
    have := h.nonempty
    intro heq
    have := congrArg Fin.val heq
    simp at this
    omega
  apply Nat.card_eq_two_iff.mpr
  refine ⟨⟦0⟧, ⟦Fin.last n⟧, fun heq => ?_, ?_⟩
  · have hker : decide ((0 : Fin (n + 1)) = 0) = decide (Fin.last n = 0) := hzero (Quotient.exact heq)
    simp [hlast] at hker
  · apply Set.eq_univ_of_forall
    intro q
    induction q using Quotient.inductionOn with
    | h x =>
      by_cases hx : x = 0
      · rw [hx]
        exact Set.mem_insert _ _
      · apply Set.mem_insert_of_mem
        apply Quotient.sound
        exact (closure_iff edges x _).mpr (h.reachable x _ hx hlast)

theorem closure_mono {edges edges' : List (Fin n × Fin n)} (h : edges ⊆ edges') : closure edges ≤ closure edges' :=
  Setoid.eqvGen_mono fun _ _ hxy => h hxy

theorem FirstRedundant.closure_erase {edges : List (Fin n × Fin n)} {e : Fin n × Fin n}
    (h : FirstRedundant edges e) :
    closure (edges.erase e) = closure edges := by
  obtain ⟨first, rest, rfl, -, hr⟩ := h
  have hperm : ((first ++ e :: rest).erase e ++ [e]).Perm (first ++ e :: rest) := by
    apply (List.perm_append_singleton e _).trans
    exact (List.perm_cons_erase (by simp)).symm
  have hsub : first ⊆ (first ++ e :: rest).erase e := by
    have hcons : (e :: (first ++ e :: rest).erase e).Perm (e :: (first ++ rest)) :=
      (List.perm_cons_erase (by simp)).symm.trans List.perm_middle
    exact fun x hx => (hcons.cons_inv.mem_iff).mpr (List.mem_append_left _ hx)
  have hrel := closure_mono hsub ((closure_iff first e.1 e.2).mpr hr)
  rw [← closure_snoc_of_rel hrel]
  exact le_antisymm (closure_mono hperm.subset) (closure_mono hperm.symm.subset)

theorem FirstRedundant.spanningTree {edges : List (Fin (n + 1) × Fin (n + 1))} {e : Fin (n + 1) × Fin (n + 1)}
    (h : FirstRedundant edges e) (hlen : edges.length = n) (hc : ConnectsAll edges) :
    SpanningTree (edges.erase e) := by
  have hmem : e ∈ edges := by
    obtain ⟨first, rest, rfl, -, -⟩ := h
    simp
  have hall : ConnectsAll (edges.erase e) := by
    refine ⟨fun e' he' => hc.avoids e' (List.mem_of_mem_erase he'), hc.nonempty, fun x y hx hy => ?_⟩
    rw [← closure_iff, h.closure_erase, closure_iff]
    exact hc.reachable x y hx hy
  refine ⟨(forest_iff_independent _).mpr ((card_components _).2.mp ?_), hall⟩
  have hpos := hc.nonempty
  rw [hall.card, List.length_erase_of_mem hmem, hlen]
  omega

theorem ConnectsAll.not_independent {edges : List (Fin (n + 1) × Fin (n + 1))} (h : ConnectsAll edges)
    (hlen : edges.length = n) : ¬ Independent edges := by
  intro hi
  have hcard := (card_components edges).2.mpr hi
  rw [h.card] at hcard
  omega

theorem FirstRedundant.unique {edges : List (Fin n × Fin n)} {e e' : Fin n × Fin n} (h : FirstRedundant edges e)
    (h' : FirstRedundant edges e') : e = e' := by
  obtain ⟨first, rest, rfl, hi, hr⟩ := h
  obtain ⟨first', rest', heq, hi', hr'⟩ := h'
  rcases List.append_eq_append_iff.mp heq with ⟨mid, rfl, hmid⟩ | ⟨mid, rfl, hmid⟩
  · cases mid with
    | nil => exact (List.cons.inj hmid).1
    | cons e₀ mid =>
      obtain ⟨rfl, -⟩ := List.cons.inj hmid
      exact absurd hr (hi' first e mid rfl)
  · cases mid with
    | nil => exact (List.cons.inj hmid).1.symm
    | cons e₀ mid =>
      obtain ⟨rfl, -⟩ := List.cons.inj hmid
      exact absurd hr' (hi first' e' mid rfl)

theorem FirstRedundant.not_independent {edges : List (Fin n × Fin n)} {e : Fin n × Fin n}
    (h : FirstRedundant edges e) :
    ¬ Independent edges := by
  obtain ⟨first, rest, rfl, -, hr⟩ := h
  exact fun hi => hi first e rest rfl hr

/-- What is asked of the answer `r`. -/
structure RedundantIn (edges : List (Fin (n + 1) × Fin (n + 1))) (r : Int × Int) : Prop where
  first : ∀ e, FirstRedundant edges e → r = ((e.1 : Int), (e.2 : Int))
  forest : r = (-1, -1) ↔ Forest edges
  spanning : ConnectsAll edges → ∃ e ∈ edges, r = ((e.1 : Int), (e.2 : Int)) ∧ SpanningTree (edges.erase e)

/-- **The redundant connection** of every list of edges whose number an `int` can count, and one more. -/
theorem findRedundantConnection_spec (edges : List (Fin (n + 1) × Fin (n + 1))) (hlen : edges.length = n)
    (hn : n < 2 ^ 31 - 1) : ∃ r, findRedundantConnection (edges.map fun e => ((e.1 : Nat), (e.2 : Nat))) = some r ∧
      RedundantIn edges r := by
  have hfind : findRedundantConnection (edges.map fun e => ((e.1 : Nat), (e.2 : Nat))) =
      firstRedundant (construct (n + 1)) (edges.map fun e => ((e.1 : Nat), (e.2 : Nat))) := by
    simp only [findRedundantConnection, List.length_map, hlen, CInt.ofSize_of_lt (show n < 2 ^ 31 by omega),
      CInt.fit_succ (show n + 1 < 2 ^ 31 by omega), Option.bind_eq_bind, Option.bind_some, Int.toNat_natCast]
    exact if_neg (by omega)
  rw [hfind]
  rcases firstRedundant_spec edges (decides_construct (n + 1)) independent_nil with ⟨e, hr, he⟩ | ⟨hr, hi⟩
  · rw [List.nil_append] at he
    have hmem : e ∈ edges := by
      obtain ⟨first, rest, rfl, -, -⟩ := he
      simp
    refine ⟨_, hr, fun e' he' => by rw [he.unique he'], iff_of_false ?_ ?_, fun hc => ?_⟩
    · intro heq
      have := congrArg Prod.fst heq
      simp at this
    · rw [forest_iff_independent]
      exact he.not_independent
    · exact ⟨e, hmem, rfl, he.spanningTree hlen hc⟩
  · rw [List.nil_append] at hi
    refine ⟨_, hr, fun e he => absurd hi he.not_independent, ?_, fun hc => absurd hi (hc.not_independent hlen)⟩
    exact iff_of_true rfl ((forest_iff_independent edges).mpr hi)

theorem findRedundantConnection_spec_triangle : ∃ r, findRedundantConnection [(1, 2), (1, 3), (2, 3)] = some r ∧
    RedundantIn [((1 : Fin 4), (2 : Fin 4)), (1, 3), (2, 3)] r :=
  findRedundantConnection_spec [((1 : Fin 4), (2 : Fin 4)), (1, 3), (2, 3)] rfl (by decide)

/-- For `2 ^ 31 - 1` edges `n + 1` overflows. -/
theorem findRedundantConnection_long : ¬ ∀ (n : Nat) (edges : List (Fin (n + 1) × Fin (n + 1))), edges.length = n →
    ∃ r, findRedundantConnection (edges.map fun e => ((e.1 : Nat), (e.2 : Nat))) = some r ∧
      RedundantIn edges r := by
  intro h
  obtain ⟨n, hn⟩ : ∃ n : Nat, n = 2 ^ 31 - 1 := ⟨_, rfl⟩
  obtain ⟨r, hr, -⟩ := h n (List.replicate n (0, 0)) (List.length_replicate ..)
  have hsize : CInt.fit ((n : Int) + 1) = none := CInt.fit_of_le (by omega)
  rw [findRedundantConnection, List.length_map, List.length_replicate, CInt.ofSize_of_lt (by omega), hsize] at hr
  cases hr

end

end Playground.UnionFind
