import Playground.Lib.Digraph
import Playground.DijkstraSound

/-!
# The predecessors lead back to the source

A predecessor is on an edge that explains the distance, and following
predecessors never comes back: when a distance is lowered, a way back to its
node would be a cycle of negative weight.
-/

namespace Playground.Dijkstra

open Digraph Relation

variable {graph : Graph} {n source target u v w : Nat} {s : Search (WithTop Int)} {e : Edge} {es rest : List Edge}
  {x y d : WithTop Int} {l path : List Nat} {prev : List (Option Nat)}

def Parent (prev : List (Option Nat)) (v u : Nat) : Prop := prev[v]? = some (some u)

structure Tree (graph : Graph) (source : Nat) (s : Search (WithTop Int)) : Prop where
  edge : ∀ v u, Parent s.prev v u → ∃ a b w : Int, s.dist[u]? = some (a : WithTop Int) ∧
    s.dist[v]? = some (b : WithTop Int) ∧ IsEdge graph u v w ∧ a + w ≤ b
  root : ∀ v d, s.prev[v]? = some none → s.dist[v]? = some d → v = source ∨ d = ⊤
  start : s.prev[source]? = some none
  acyclic : Acyclic (Parent s.prev)

/-- Following predecessors goes along a walk that explains the distance. -/
theorem Tree.ancestor (h : Tree graph source s) {b : Int} (hv : s.dist[v]? = some (b : WithTop Int))
    (hvu : ReflTransGen (Parent s.prev) v u) :
    ∃ a c : Int, s.dist[u]? = some (a : WithTop Int) ∧ Walk (IsEdge graph) u v c ∧ a + c ≤ b := by
  induction hvu with
  | refl => exact ⟨b, 0, hv, .refl, by omega⟩
  | @tail z p _ hparent ih =>
    obtain ⟨a, c, ha, hc, hle⟩ := ih
    obtain ⟨a', b', w, ha', hb', hedge, hle'⟩ := h.edge z p hparent
    rw [ha] at hb'
    have hsame : a = b' := WithTop.coe_injective (Option.some_inj.mp hb')
    exact ⟨a', w + c, ha', (Walk.single hedge).trans hc, by omega⟩

theorem tree_init (hsource : source < n) : Tree graph source (initial exact n source) := by
  have hnone : ∀ v p, (initial exact n source).prev[v]? = some p → p = none := fun v p hp =>
    List.eq_of_mem_replicate (List.mem_of_getElem? hp)
  refine ⟨fun v u hparent => ?_, fun v d _ hd => ?_, ?_, fun v hv => ?_⟩
  · cases hnone v _ hparent
  · by_cases hv : v = source
    · exact .inl hv
    · exact .inr (initial_dist hd hv)
  · exact List.getElem?_replicate_of_lt hsource
  · obtain ⟨u, -, hparent⟩ := TransGen.tail'_iff.mp hv
    cases hnone u _ hparent

/-! ## Lowering a distance -/

theorem walk_of_dist (h : Inv exact graph n source u rest s) {a : Int} (hd : s.dist[v]? = some (a : WithTop Int)) :
    Walk (IsEdge graph) source v a := by
  rcases h.dist v _ hd with htop | ⟨-, b, hb, hwalk⟩
  · cases htop
  · cases hb
    exact hwalk

section
variable (hcycle : Walk.NoNegativeCycle (IsEdge graph) source) (h : Inv exact graph n source u (e :: rest) s)
  (hedge : IsEdge graph u e.to_ e.weight) {a : Int} (hd : s.dist[u]? = some (a : WithTop Int))
  (hy : s.dist[e.to_]? = some y) (hlt : ((a + e.weight : Int) : WithTop Int) < y)

include hcycle h hedge hd hy hlt

theorem ne_self : u ≠ e.to_ := by
  intro heq
  rw [← heq, hd] at hy
  cases hy
  have hneg : a + e.weight < a := WithTop.coe_lt_coe.mp hlt
  rw [← heq] at hedge
  have hnonneg := hcycle u a e.weight (walk_of_dist h hd) (.single hedge)
  omega

theorem ne_source : e.to_ ≠ source := by
  intro heq
  have hwalk := (walk_of_dist h hd).step hedge
  rw [heq] at hwalk hy
  have hnonneg := hcycle source 0 _ .refl hwalk
  obtain ⟨d, hd₀, hle⟩ := h.start
  rw [hy] at hd₀
  cases hd₀
  have hneg : a + e.weight < 0 := WithTop.coe_lt_coe.mp (lt_of_lt_of_le hlt hle)
  omega

theorem not_ancestor (htree : Tree graph source s) : ¬ ReflTransGen (Parent s.prev) u e.to_ := by
  intro hpath
  obtain ⟨b, c, hb, hc, hle⟩ := htree.ancestor hd hpath
  rw [hy] at hb
  cases hb
  have hless : a + e.weight < b := WithTop.coe_lt_coe.mp hlt
  -- The way back and the edge are a cycle that is lighter than nothing.
  have hnonneg := hcycle e.to_ _ _ ((walk_of_dist h hd).step hedge) (hc.step hedge)
  omega

theorem Tree.lower (htree : Tree graph source s) : Tree graph source (lower u s e.to_ (a + e.weight : Int)) := by
  have hself := ne_self hcycle h hedge hd hy hlt
  have hlen : e.to_ < s.prev.length := by
    rw [h.prev_length, ← h.dist_length]
    exact (List.getElem?_eq_some_iff.mp hy).1
  have hprev : ∀ z p, (Dijkstra.lower u s e.to_ (a + e.weight : Int)).prev[z]? = some p →
      z = e.to_ ∧ p = some u ∨ z ≠ e.to_ ∧ s.prev[z]? = some p := by
    intro z p hp
    by_cases hz : z = e.to_
    · subst hz
      rw [Dijkstra.lower, List.getElem?_set_self hlen] at hp
      exact .inl ⟨rfl, (Option.some_inj.mp hp).symm⟩
    · rw [Dijkstra.lower, List.getElem?_set_ne (Ne.symm hz)] at hp
      exact .inr ⟨hz, hp⟩
  refine ⟨fun z p hparent => ?_, fun z dz hp hz => ?_, ?_, ?_⟩
  · rcases hprev z _ hparent with ⟨rfl, hp⟩ | ⟨hz, hparent⟩
    · cases hp
      exact ⟨a, a + e.weight, e.weight, (dist_lower_ne hself).trans hd, dist_lower_self hy, hedge, Int.le_refl _⟩
    · obtain ⟨a', b', w, ha', hb', hedge', hle⟩ := htree.edge z p hparent
      by_cases hp : p = e.to_
      · subst hp
        rw [hy] at ha'
        cases ha'
        have hless : a + e.weight < a' := WithTop.coe_lt_coe.mp hlt
        exact ⟨a + e.weight, b', w, dist_lower_self hy, (dist_lower_ne hz).trans hb', hedge', by omega⟩
      · exact ⟨a', b', w, (dist_lower_ne hp).trans ha', (dist_lower_ne hz).trans hb', hedge', hle⟩
  · rcases hprev z _ hp with ⟨-, hp⟩ | ⟨hne, hp⟩
    · cases hp
    · rw [dist_lower_ne hne] at hz
      exact htree.root z dz hp hz
  · exact (List.getElem?_set_ne (ne_source hcycle h hedge hd hy hlt)).trans htree.start
  · refine htree.acyclic.redirect (v := e.to_) (u := u) (fun z p hparent => ?_)
      (not_ancestor hcycle h hedge hd hy hlt htree)
    exact (hprev z _ hparent).imp_left fun hp => ⟨hp.1, Option.some_inj.mp hp.2⟩

end

theorem keeps_tree (hcycle : Walk.NoNegativeCycle (IsEdge graph) source) :
    Keeps exact graph n source (Tree graph source) where
  pop _ _ h := ⟨h.edge, h.root, h.start, h.acyclic⟩
  lower u es rest e s d x y h htree hes he hd hne hx hy hlt := by
    obtain ⟨a, rfl⟩ := WithTop.ne_top_iff_exists.mp hne
    cases hx
    exact htree.lower hcycle h ⟨es, hes, he⟩ hd hy hlt

/-! ## Walking back -/

/-- The nodes from `v` back to one without a predecessor. -/
inductive Ancestry (prev : List (Option Nat)) : Nat → List Nat → Prop
  | last {v : Nat} : prev[v]? = some none → Ancestry prev v [v]
  | next {v u : Nat} {l : List Nat} : Parent prev v u → Ancestry prev u l → Ancestry prev v (v :: l)

theorem Ancestry.reaches (h : Ancestry prev v l) : ∀ z ∈ l, ReflTransGen (Parent prev) v z := by
  induction h with
  | last _ =>
    intro z hz
    rw [List.mem_singleton.mp hz]
  | next hparent _ ih =>
    intro z hz
    rcases List.mem_cons.mp hz with rfl | hz
    · exact .refl
    · exact .head hparent (ih z hz)

theorem Ancestry.nodup (hacyclic : Acyclic (Parent prev)) (h : Ancestry prev v l) : l.Nodup := by
  induction h with
  | last _ => exact List.nodup_singleton _
  | @next v u l hparent h ih =>
    exact List.nodup_cons.mpr ⟨fun hv => hacyclic v (.head' hparent (h.reaches v hv)), ih⟩

theorem Ancestry.lt (h : Ancestry prev v l) : ∀ z ∈ l, z < prev.length := by
  induction h with
  | last hv =>
    intro z hz
    rw [List.mem_singleton.mp hz]
    exact (List.getElem?_eq_some_iff.mp hv).1
  | next hparent _ ih =>
    intro z hz
    rcases List.mem_cons.mp hz with rfl | hz
    · exact (List.getElem?_eq_some_iff.mp hparent).1
    · exact ih z hz

theorem Ancestry.length_le (hacyclic : Acyclic (Parent prev)) (h : Ancestry prev v l) : l.length ≤ prev.length := by
  have hsub : l ⊆ List.range prev.length := fun z hz => List.mem_range.mpr (h.lt z hz)
  have hle := (List.subperm_of_subset (h.nodup hacyclic) hsub).length_le
  rwa [List.length_range] at hle

theorem Ancestry.run (h : Ancestry prev v l) (path : List Nat) {fuel : Nat} (hfuel : l.length < fuel) :
    Loop.run (pathRound prev) fuel (path, some v) = some (path ++ l, none) := by
  induction h generalizing path fuel with
  | @last v hv =>
    obtain ⟨fuel, rfl⟩ := Nat.exists_eq_add_of_lt hfuel
    have hround : pathRound prev (path, some v) = .next (path ++ [v], none) := by
      simp only [pathRound, hv, Option.bind_eq_bind, Option.bind_some]
      rfl
    rw [show ([v] : List Nat).length + fuel + 1 = (fuel + 1) + 1 by simp; omega, Loop.run_next hround]
    exact Loop.run_exit rfl fuel
  | @next v u l hparent h ih =>
    cases fuel with
    | zero => exact absurd hfuel (Nat.not_lt_zero _)
    | succ fuel =>
      have hround : pathRound prev (path, some v) = .next (path ++ [v], some u) := by
        simp only [pathRound, show prev[v]? = some (some u) from hparent, Option.bind_eq_bind, Option.bind_some]
        rfl
      rw [Loop.run_next hround, ih (path ++ [v]) (Nat.lt_of_succ_lt_succ hfuel), List.append_assoc,
        List.singleton_append]

theorem exists_chain (hacyclic : Acyclic (Parent prev)) (hclosed : ∀ v u, Parent prev v u → u < prev.length)
    (hv : v < prev.length) : ∃ l, Ancestry prev v l := by
  refine hacyclic.induction (l := List.range prev.length) (P := fun v => ∃ l, Ancestry prev v l)
    (fun v hv ih => ?_) v (List.mem_range.mpr hv)
  cases hp : prev[v]? with
  | none => exact absurd (List.getElem?_eq_none_iff.mp hp) (Nat.not_le_of_lt (List.mem_range.mp hv))
  | some p =>
    cases p with
    | none => exact ⟨[v], .last hp⟩
    | some u =>
      obtain ⟨l, hl⟩ := ih u (List.mem_range.mpr (hclosed v u hp)) hp
      exact ⟨v :: l, .next hp hl⟩

theorem Ancestry.head? (h : Ancestry prev v l) : l.head? = some v := by
  cases h with
  | last _ => rfl
  | next _ _ => rfl

theorem reconstruct_eq {fuel : Nat} (h : Ancestry prev target l) (hfuel : l.length < fuel) :
    reconstruct_path fuel prev source target =
      if l.getLast? = some source then some l.reverse else some [] := by
  obtain ⟨z, hz⟩ : ∃ z, l.getLast? = some z := by
    cases h with
    | last _ => exact ⟨_, rfl⟩
    | next _ _ => exact ⟨_, List.getLast?_eq_getLast_of_ne_nil (List.cons_ne_nil _ _)⟩
  simp only [reconstruct_path, h.run [] hfuel, List.nil_append, List.head?_reverse, hz, Option.bind_eq_bind,
    Option.bind_some, Option.some_inj]
  by_cases hsource : z = source
  · rw [if_neg (fun hne => hne hsource), if_pos hsource]
  · rw [if_pos hsource, if_neg hsource]

/-! ## What a path back weighs -/

theorem pathWeight_cons {z : Nat} {a : Int} (hpath : path.head? = some u) : pathWeight graph (z :: path) = some a ↔
    ∃ m b, minWeight graph z u = some m ∧ pathWeight graph path = some b ∧ m + b = a := by
  cases path with
  | nil => cases hpath
  | cons y path =>
    cases hpath
    simp only [pathWeight, Option.bind_eq_bind, Option.bind_eq_some_iff, Option.some_inj]
    constructor
    · intro ⟨m, hm, b, hb, hsum⟩
      exact ⟨m, b, hm, hb, hsum⟩
    · intro ⟨m, b, hm, hb, hsum⟩
      exact ⟨m, hm, b, hb, hsum⟩

theorem pathWeight_snoc {a w : Int} (hpath : pathWeight graph (path ++ [u]) = some a)
    (hw : minWeight graph u v = some w) : pathWeight graph (path ++ [u] ++ [v]) = some (a + w) := by
  induction path generalizing a with
  | nil =>
    cases hpath
    exact (pathWeight_cons rfl).mpr ⟨w, 0, hw, rfl, Int.add_comm w 0⟩
  | cons z path ih =>
    obtain ⟨y, hy⟩ : ∃ y, (path ++ [u]).head? = some y := by
      cases path with
      | nil => exact ⟨u, rfl⟩
      | cons y path => exact ⟨y, rfl⟩
    have hy' : (path ++ [u] ++ [v]).head? = some y := by
      rw [List.head?_append, hy]
      rfl
    obtain ⟨m, b, hm, hb, hsum⟩ := (pathWeight_cons hy).mp hpath
    exact (pathWeight_cons hy').mpr ⟨m, b + w, hm, ih hb, by omega⟩

section
variable (h : Inv exact graph n source 0 [] s) (hq : s.pq = [])

include h hq

theorem le_of_edge {a b w : Int} (hu : s.dist[u]? = some (a : WithTop Int))
    (hv : s.dist[v]? = some (b : WithTop Int)) (hedge : IsEdge graph u v w) : b ≤ a + w := by
  obtain ⟨es, hes, he⟩ := hedge
  obtain ⟨x, y, hx, hy, hle⟩ := h.relaxed hq hu (WithTop.coe_ne_top) hes he
  cases hx
  rw [hv] at hy
  cases hy
  exact WithTop.coe_le_coe.mp hle

theorem minWeight_parent (htree : Tree graph source s) (hparent : Parent s.prev v u) {b : Int}
    (hv : s.dist[v]? = some (b : WithTop Int)) : ∃ a w : Int, s.dist[u]? = some (a : WithTop Int) ∧
      minWeight graph u v = some w ∧ IsEdge graph u v w ∧ a + w = b := by
  obtain ⟨a, b', w, ha, hb', hedge, hle⟩ := htree.edge v u hparent
  rw [hv] at hb'
  cases hb'
  have hge := le_of_edge h hq ha hv hedge
  refine ⟨a, w, ha, ?_, hedge, by omega⟩
  obtain ⟨es, hes, he⟩ := hedge
  simp only [minWeight, hes, Option.bind_eq_bind, Option.bind_some, List.min?_eq_some_iff, List.mem_map,
    List.mem_filter, decide_eq_true_iff]
  refine ⟨⟨_, ⟨he, rfl⟩, rfl⟩, fun w' hw' => ?_⟩
  obtain ⟨e, ⟨he', rfl⟩, rfl⟩ := hw'
  have hge' := le_of_edge h hq ha hv ⟨es, hes, he'⟩
  omega

/-- A path back from a node that was reached ends at the source and weighs the distance. -/
theorem Ancestry.value (hcycle : Walk.NoNegativeCycle (IsEdge graph) source) (htree : Tree graph source s)
    (hl : Ancestry s.prev v l) {b : Int} (hv : s.dist[v]? = some (b : WithTop Int)) :
    l.getLast? = some source ∧ pathWeight graph l.reverse = some b ∧
      l.IsChain fun v u => ∃ w, IsEdge graph u v w := by
  induction hl generalizing b with
  | @last v hp =>
    have hsource : v = source := (htree.root v _ hp hv).resolve_right WithTop.coe_ne_top
    subst hsource
    obtain ⟨d, hd, hle⟩ := h.start
    rw [hv] at hd
    cases hd
    have hle' : b ≤ 0 := WithTop.coe_le_coe.mp hle
    have hge := hcycle v 0 b .refl (walk_of_dist h hv)
    have hzero : b = 0 := by omega
    subst hzero
    exact ⟨rfl, rfl, .singleton v⟩
  | @next v u l hparent hl ih =>
    obtain ⟨a, w, ha, hw, hedge, hsum⟩ := minWeight_parent h hq htree hparent hv
    obtain ⟨hlast, hweight, hchain⟩ := ih ha
    obtain ⟨l', rfl⟩ : ∃ l', l = u :: l' := List.head?_eq_some_iff.mp hl.head?
    refine ⟨?_, ?_, .cons_cons ⟨w, hedge⟩ hchain⟩
    · rw [List.getLast?_cons_cons]
      exact hlast
    · rw [List.reverse_cons] at hweight ⊢
      rw [← hsum, List.reverse_cons]
      exact pathWeight_snoc hweight hw

end

/-- A lightest path to `target`, where `d` is its weight. -/
structure IsLightestPath (graph : Graph) (source target : Nat) (d : WithTop Int) (path : List Nat) : Prop where
  nodup : path.Nodup
  first : path.head? = some source
  last : path.getLast? = some target
  edges : path.IsChain fun u v => ∃ w, IsEdge graph u v w
  weight : ∃ a, pathWeight graph path = some a ∧ d = a

theorem Tree.exists_chain (htree : Tree graph source s) (h : Inv exact graph n source 0 [] s)
    (htarget : target < n) :
    ∃ l, Ancestry s.prev target l ∧ l.length ≤ n := by
  have hclosed : ∀ v u, Parent s.prev v u → u < s.prev.length := by
    intro v u hparent
    obtain ⟨a, b, w, ha, -⟩ := htree.edge v u hparent
    rw [h.prev_length, ← h.dist_length]
    exact (List.getElem?_eq_some_iff.mp ha).1
  obtain ⟨l, hl⟩ := Dijkstra.exists_chain htree.acyclic hclosed (by rw [h.prev_length]; exact htarget)
  have hlen := hl.length_le htree.acyclic
  rw [h.prev_length] at hlen
  exact ⟨l, hl, hlen⟩

theorem Ancestry.unreached (htree : Tree graph source s) (hl : Ancestry s.prev v l) (hv : s.dist[v]? = some ⊤)
    (hne : v ≠ source) : l.getLast? ≠ some source := by
  intro hlast
  cases hl with
  | last _ => exact hne (Option.some_inj.mp hlast)
  | next hparent _ =>
    obtain ⟨a, b, w, -, hb, -⟩ := htree.edge _ _ hparent
    rw [hv] at hb
    cases hb

/-- **Following the predecessors of a search back gives a lightest path**, and nothing where there is none. -/
theorem reconstruct_path_exact (graph : Graph) (hsize : graph.length < 2 ^ 31) (hgraph : WellFormed graph)
    (source target : Nat) (hsource : source < graph.length) (htarget : target < graph.length)
    (hcycle : Walk.NoNegativeCycle (IsEdge graph) source) :
    ∃ fuel dist prev, dijkstra exact fuel graph source = some (dist, prev) ∧
      ∀ fuel', graph.length < fuel' → ∃ path, reconstruct_path fuel' prev source target = some path ∧
        (path = [] ↔ ¬ Reachable graph source target) ∧
        (Reachable graph source target → ∃ d, dist[target]? = some d ∧
          IsLightestPath graph source target d path) := by
  obtain ⟨fuel, s, hrun⟩ := exists_exact_run (Nat.le_refl _) (fun _ => hgraph.lt hsource) hcycle
  obtain ⟨h, hq, htree⟩ := Inv.final lawful_exact (keeps_tree hcycle) hsource (tree_init hsource) hrun
  refine ⟨fuel, s.dist, s.prev,
    dijkstra_eq_some.mpr ⟨graph.length, CInt.ofSize_of_lt hsize, hsource, s, hrun, rfl, rfl⟩, fun fuel' hfuel => ?_⟩
  obtain ⟨l, hl, hlen⟩ := htree.exists_chain h htarget
  obtain ⟨d, hd⟩ : ∃ d, s.dist[target]? = some d :=
    ⟨_, List.getElem?_eq_getElem (by rw [h.dist_length]; exact htarget)⟩
  have hdist := isDistance h hq hd
  have hresult : reconstruct_path fuel' s.prev source target =
      if l.getLast? = some source then some l.reverse else some [] :=
    reconstruct_eq hl (Nat.lt_of_le_of_lt hlen hfuel)
  by_cases hreach : Reachable graph source target
  · obtain ⟨b, rfl⟩ := WithTop.ne_top_iff_exists.mp fun htop => hdist.2.mp htop hreach
    obtain ⟨hlast, hweight, hchain⟩ := hl.value h hq hcycle htree hd
    rw [if_pos hlast] at hresult
    have hpath : IsLightestPath graph source target (b : WithTop Int) l.reverse := by
      refine ⟨List.nodup_reverse.mpr (hl.nodup htree.acyclic), ?_, ?_, List.isChain_reverse.mpr hchain, b,
        hweight, rfl⟩
      · rw [List.head?_reverse, hlast]
      · rw [List.getLast?_reverse, hl.head?]
    refine ⟨l.reverse, hresult, iff_of_false (fun hnil => ?_) fun hnone => hnone hreach, fun _ => ⟨_, hd, hpath⟩⟩
    rw [hnil] at hweight
    cases hweight
  · have hne : target ≠ source := by
      intro heq
      exact hreach ⟨0, heq ▸ .refl⟩
    have hlast := hl.unreached htree (by rw [hd, hdist.2.mpr hreach]) hne
    rw [if_neg hlast] at hresult
    exact ⟨[], hresult, iff_of_true rfl hreach, fun hreach' => absurd hreach' hreach⟩

theorem reconstruct_path_exact_diamond : ∃ fuel dist prev,
    dijkstra exact fuel [[⟨1, 4⟩, ⟨2, 2⟩], [⟨3, 1⟩], [⟨1, 1⟩, ⟨3, 5⟩], []] 0 = some (dist, prev) ∧
      ∀ fuel', 4 < fuel' → ∃ path, reconstruct_path fuel' prev 0 3 = some path ∧
        (path = [] ↔ ¬ Reachable [[⟨1, 4⟩, ⟨2, 2⟩], [⟨3, 1⟩], [⟨1, 1⟩, ⟨3, 5⟩], []] 0 3) ∧
        (Reachable [[⟨1, 4⟩, ⟨2, 2⟩], [⟨3, 1⟩], [⟨1, 1⟩, ⟨3, 5⟩], []] 0 3 → ∃ d, dist[3]? = some d ∧
          IsLightestPath [[⟨1, 4⟩, ⟨2, 2⟩], [⟨3, 1⟩], [⟨1, 1⟩, ⟨3, 5⟩], []] 0 3 d path) :=
  reconstruct_path_exact [[⟨1, 4⟩, ⟨2, 2⟩], [⟨3, 1⟩], [⟨1, 1⟩, ⟨3, 5⟩], []] (by decide)
    (by unfold WellFormed; decide) 0 3 (by decide) (by decide) (noNegativeCycle_of_check (fun _ => 0) (by decide) 0)

/-- The vectors have a node for each of a size that is wrapped; `prev[target]` is outside. -/
theorem reconstruct_path_large : ¬ ∀ graph : Graph, WellFormed graph → ∀ source < graph.length,
    ∀ target < graph.length, Walk.NoNegativeCycle (IsEdge graph) source → ∀ fuel dist prev,
      dijkstra exact fuel graph source = some (dist, prev) → ∃ fuel' path,
        reconstruct_path fuel' prev source target = some path ∧ (path = [] ↔ ¬ Reachable graph source target) := by
  intro hclaim
  obtain ⟨k, hk⟩ : ∃ k : Nat, k = 2 ^ 32 + 1 := ⟨_, rfl⟩
  have hlength : (List.replicate k ([] : List Edge)).length = k := List.length_replicate
  have hsize : CInt.ofSize (List.replicate k ([] : List Edge)).length = (1 : Nat) := by
    rw [hlength]
    exact CInt.ofSize_of_wrap (by omega) (by decide)
  have hnodes : ∀ v, Reachable (List.replicate k []) 0 v → v < 1 := by
    intro v ⟨a, ha⟩
    cases ha with
    | refl => exact Nat.one_pos
    | step _ he => exact absurd he (not_isEdge_replicate k _ _ _)
  obtain ⟨fuel, s, hrun⟩ :=
    exists_exact_run (n := 1) (by rw [hlength]; omega) hnodes (noNegativeCycle_replicate k 0)
  obtain ⟨h, -⟩ := Inv.ends lawful_exact Nat.one_pos hrun
  obtain ⟨fuel', path, hpath, -⟩ :=
    hclaim (List.replicate k []) (wellFormed_replicate k) 0 (by rw [hlength]; omega) 1
    (by rw [hlength]; omega) (noNegativeCycle_replicate k 0) fuel s.dist s.prev
    (dijkstra_eq_some.mpr ⟨1, hsize, Nat.one_pos, s, hrun, rfl, rfl⟩)
  have hround : pathRound s.prev ([], some 1) = .fault := by
    have hout : s.prev[1]? = none := List.getElem?_eq_none_iff.mpr (Nat.le_of_eq h.prev_length)
    simp only [pathRound, hout, Option.bind_eq_bind, Option.bind_none]
    rfl
  simp only [reconstruct_path, Loop.run_fault hround, Option.bind_eq_bind, Option.bind_none] at hpath
  cases hpath

end Playground.Dijkstra
