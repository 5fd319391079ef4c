import Playground.DijkstraSound

/-!
# When the `int` is wide enough for a search

The weights are not negative, so the lightest entry of the queue holds the
weight of a lightest walk when it is not stale. The sums that are computed are
those of the lightest walks and one more edge.
-/

namespace Playground.Dijkstra

section
variable {D : Type} [LinearOrder D] {A : Arith D} {graph : Graph} {n source u v : Nat} {s : Search D} {d : D}
  {pq : List (D × Nat)}

/-- Every node is no farther than a walk to it, or the queue holds an entry that is no heavier than the walk. -/
theorem Inv.le_or_queued (hA : Lawful A) (h : Inv A graph n source 0 [] s)
    (hnodes : ∀ v, Reachable graph source v → v < n) (hweights : ∀ u v w, IsEdge graph u v w → 0 ≤ w) {a : Int}
    (ha : Walk (IsEdge graph) source v a) :
    (∃ d, s.dist[v]? = some d ∧ d ≤ A.ofInt a) ∨ ∃ p ∈ s.pq, p.1 ≤ A.ofInt a := by
  induction ha with
  | refl => exact .inl h.start
  | @step u v a w ha hedge ih =>
    have hle : A.ofInt a ≤ A.ofInt (a + w) := (hA.le _ _).mpr (Int.le_add_of_nonneg_right (hweights _ _ _ hedge))
    rcases ih with ⟨d, hd, hda⟩ | ⟨p, hp, hpa⟩
    · -- A node at `INF` says nothing of its edges, but then the sum along the walk is no less either.
      by_cases hne : d = A.INF
      · have hv : v < s.dist.length := by
          rw [h.dist_length]
          exact hnodes v ⟨a + w, ha.step hedge⟩
        have hy : s.dist[v]? = some s.dist[v] := List.getElem?_eq_getElem hv
        refine .inl ⟨_, hy, le_trans (h.le_INF hy) ?_⟩
        rw [← hne]
        exact le_trans hda hle
      · obtain ⟨es, hes, he⟩ := hedge
        rcases h.settled u d es hd hne hes with hmem | hall
        · exact .inr ⟨(d, u), hmem, le_trans hda hle⟩
        · obtain ⟨x, y, hx, hy, hyx⟩ := (hall _ he).resolve_right fun hmem => List.not_mem_nil hmem.2
          obtain ⟨b, rfl, -⟩ := ((h.dist u d hd).resolve_left hne).2
          have hab : b ≤ a := (hA.le _ _).mp hda
          refine .inl ⟨y, hy, le_trans hyx ?_⟩
          rw [hA.add b w x hx, hA.le]
          omega
    · exact .inr ⟨p, hp, le_trans hpa hle⟩

theorem Inv.head_le (hA : Lawful A) (h : Inv A graph n source 0 [] s)
    (hnodes : ∀ v, Reachable graph source v → v < n) (hweights : ∀ u v w, IsEdge graph u v w → 0 ≤ w) {z : Nat}
    (hq : s.pq = (d, z) :: pq) (hd : s.dist[z]? = some d)
    {a : Int} (ha : Walk (IsEdge graph) source z a) : d ≤ A.ofInt a := by
  rcases h.le_or_queued hA hnodes hweights ha with ⟨d', hd', hle⟩ | ⟨p, hp, hle⟩
  · rw [hd] at hd'
    cases hd'
    exact hle
  · rw [hq] at hp
    rcases List.mem_cons.mp hp with rfl | hp
    · exact hle
    · rcases (h.sorted_cons hq).1 p hp with hlt | ⟨heq, -⟩
      · exact le_trans (le_of_lt hlt) hle
      · exact le_trans (le_of_eq heq) hle

end

/-! ## The `int` -/

variable {graph : Graph} {n source : Nat}

/-- The weights are those of an `int` and not negative. -/
def Weights (graph : Graph) : Prop := ∀ es ∈ graph, ∀ e ∈ es, 0 ≤ e.weight ∧ e.weight < 2 ^ 31

/-- The nodes that are reached have numbers that fit, and are reached by walks below `INF` that leave room for the
edges out of them. -/
def InRange (graph : Graph) (source : Nat) : Prop :=
  0 ≤ CInt.ofSize graph.length ∧ ∀ u, Reachable graph source u → (u : Int) < CInt.ofSize graph.length ∧
    (∃ a, Walk (IsEdge graph) source u a ∧ a < 2 ^ 31 - 1) ∧
    ∀ v w, IsEdge graph u v w → ∃ a, Walk (IsEdge graph) source u a ∧ a + w < 2 ^ 31

theorem Weights.nonneg (h : Weights graph) {u v : Nat} {w : Int} (he : IsEdge graph u v w) : 0 ≤ w := by
  obtain ⟨es, hes, he⟩ := he
  exact (h es (List.mem_of_getElem? hes) _ he).1

theorem ranks_int32 (hweights : Weights graph) : Ranks int32 graph source fun d => (d.toNat : WithTop Nat) := by
  refine ⟨fun v x y hx hy hlt => ?_⟩
  obtain ⟨-, a, hxa, ha⟩ := hx
  have hnonneg : 0 ≤ x := by
    rw [hxa]
    exact ha.nonneg fun _ _ _ => hweights.nonneg
  have hless : x.toNat < y.toNat := by omega
  exact WithTop.coe_lt_coe.mpr hless

theorem inRange_of_ends {s : Search Int} (hn : CInt.ofSize graph.length = (n : Int))
    (h : Inv int32 graph n source 0 [] s) (hq : s.pq = [])
    (hfar : ∀ v, Reachable graph source v → s.dist[v]? ≠ some int32.INF) : InRange graph source := by
  have hreached : ∀ v a, Walk (IsEdge graph) source v a → ∃ d, s.dist[v]? = some d := by
    intro v a ha
    induction ha with
    | refl =>
      obtain ⟨d, hd, -⟩ := h.start
      exact ⟨d, hd⟩
    | step ha hedge ih =>
      obtain ⟨d, hd⟩ := ih
      obtain ⟨es, hes, he⟩ := hedge
      have hne : d ≠ int32.INF := by
        intro heq
        rw [heq] at hd
        exact hfar _ ⟨_, ha⟩ hd
      obtain ⟨x, y, -, hy, -⟩ := h.relaxed hq hd hne hes he
      exact ⟨y, hy⟩
  refine ⟨by omega, fun u hu => ?_⟩
  obtain ⟨c, hc⟩ := hu
  obtain ⟨d, hd⟩ := hreached u c hc
  have hne : d ≠ int32.INF := by
    intro heq
    rw [heq] at hd
    exact hfar u ⟨c, hc⟩ hd
  obtain ⟨hlt, a, hda, ha⟩ := (h.dist u d hd).resolve_left hne
  cases hda
  -- The distance itself is the weight of the walk that leaves room.
  have hlen := (List.getElem?_eq_some_iff.mp hd).1
  rw [h.dist_length] at hlen
  refine ⟨by omega, ⟨a, ha, hlt⟩, fun v w ⟨es, hes, he⟩ => ⟨a, ha, ?_⟩⟩
  obtain ⟨x, y, hx, -⟩ := h.relaxed hq hd hne hes he
  exact (CInt.fit_eq_some hx).2.2

theorem inRange_of_run {fuel : Nat} {dist : List Int} {prev : List (Option Nat)}
    (hrun : dijkstra int32 fuel graph source = some (dist, prev))
    (hfar : ∀ v, Reachable graph source v → dist[v]? ≠ some int32.INF) : InRange graph source := by
  obtain ⟨n, hn, hsource, s, hruns, hdist, -⟩ := dijkstra_eq_some.mp hrun
  have hends := Inv.ends lawful_int32 hsource hruns
  refine inRange_of_ends hn hends.1 hends.2 fun v hv => ?_
  rw [hdist]
  exact hfar v hv

/-- The additions along the edges of an entry that is not stale are those of a lightest walk. -/
theorem fits_of_inRange (hweights : Weights graph) (hrange : InRange graph source) {s : Search Int}
    (h : Inv int32 graph n source 0 [] s) (hnodes : ∀ v, Reachable graph source v → v < n) {d : Int} {z : Nat}
    {pq : List (Int × Nat)} {es : List Edge} (hq : s.pq = (d, z) :: pq) (hd : s.dist[z]? = some d)
    (hes : graph[z]? = some es) : Fits int32 graph source z d es := by
  intro d' hd' hle e he
  have hedge : IsEdge graph z e.to_ e.weight := ⟨es, hes, he⟩
  obtain ⟨a, ha, hsum⟩ := (hrange.2 z hd'.reachable).2.2 e.to_ e.weight hedge
  have hda : d ≤ a := h.head_le lawful_int32 hnodes (fun _ _ _ => hweights.nonneg) hq hd ha
  obtain ⟨-, b, hb, hwalk⟩ := hd'
  have hnonneg := hwalk.nonneg fun _ _ _ => hweights.nonneg
  have hw := hweights.nonneg hedge
  have hd'' : d' = b := hb
  exact ⟨_, CInt.fit_of (by omega) (by omega)⟩

theorem run_of_inRange (hweights : Weights graph) (hrange : InRange graph source) :
    ∃ fuel dist prev, dijkstra int32 fuel graph source = some (dist, prev) ∧
      ∀ v, Reachable graph source v → dist[v]? ≠ some int32.INF := by
  obtain ⟨n, hn⟩ := Int.eq_ofNat_of_zero_le hrange.1
  have hle := CInt.ofSize_le graph.length
  have hnodes : ∀ v, Reachable graph source v → v < n := by
    intro v hv
    have hlt := (hrange.2 v hv).1
    omega
  obtain ⟨fuel, s, hrun⟩ := exists_run lawful_int32 (ranks_int32 hweights) (by omega) hnodes
    fun s d z pq es h hq hd hes => fits_of_inRange hweights hrange h hnodes hq hd hes
  have hsource := hnodes source ⟨0, .refl⟩
  obtain ⟨h, hq⟩ := Inv.ends lawful_int32 hsource hrun
  refine ⟨fuel, s.dist, s.prev, dijkstra_eq_some.mpr ⟨n, hn, hsource, s, hrun, rfl, rfl⟩, fun v hv hfar => ?_⟩
  obtain ⟨a, ha, hlt⟩ := (hrange.2 v hv).2.1
  rcases h.le_or_queued lawful_int32 hnodes (fun _ _ _ => hweights.nonneg) ha with ⟨d, hd, hda⟩ | ⟨p, hp, -⟩
  · rw [hfar] at hd
    cases hd
    have hfar' : (2 : Int) ^ 31 - 1 ≤ a := hda
    omega
  · rw [hq] at hp
    exact List.not_mem_nil hp

/-- **When the `int` is wide enough**: exactly where it holds the lightest walks below `INF`, and each of them with
one more edge. Every addition then has a result, and no node that is reached is left at `INF`. -/
theorem dijkstra_int32_iff (graph : Graph) (source : Nat) (hweights : Weights graph) :
    (∃ fuel dist prev, dijkstra int32 fuel graph source = some (dist, prev) ∧
      ∀ v, Reachable graph source v → dist[v]? ≠ some int32.INF) ↔ InRange graph source := by
  constructor
  · intro ⟨fuel, dist, prev, hrun, hfar⟩
    exact inRange_of_run hrun hfar
  · exact run_of_inRange hweights

theorem dijkstra_int32_iff_diamond :
    (∃ fuel dist prev, dijkstra int32 fuel [[⟨1, 4⟩, ⟨2, 2⟩], [⟨3, 1⟩], [⟨1, 1⟩, ⟨3, 5⟩], []] 0 =
      some (dist, prev) ∧
      ∀ v, Reachable [[⟨1, 4⟩, ⟨2, 2⟩], [⟨3, 1⟩], [⟨1, 1⟩, ⟨3, 5⟩], []] 0 v → dist[v]? ≠ some int32.INF) ↔
      InRange [[⟨1, 4⟩, ⟨2, 2⟩], [⟨3, 1⟩], [⟨1, 1⟩, ⟨3, 5⟩], []] 0 :=
  dijkstra_int32_iff _ 0 (by unfold Weights; decide)

/-- Two edges whose weights add up to `INT_MAX + 1`. -/
def farGraph : Graph := [[⟨1, 2 ^ 31 - 2⟩], [⟨2, 2⟩], []]

theorem farGraph_edge {u v : Nat} {w : Int} (h : IsEdge farGraph u v w) :
    u = 0 ∧ v = 1 ∧ w = 2 ^ 31 - 2 ∨ u = 1 ∧ v = 2 ∧ w = 2 := by
  obtain ⟨es, hes, he⟩ := h
  match u, hes with
  | 0, hes =>
    cases hes
    cases List.mem_singleton.mp he
    exact .inl ⟨rfl, rfl, rfl⟩
  | 1, hes =>
    cases hes
    cases List.mem_singleton.mp he
    exact .inr ⟨rfl, rfl, rfl⟩
  | 2, hes =>
    cases hes
    cases he

theorem not_inRange_farGraph : ¬ InRange farGraph 0 := by
  intro ⟨_, h⟩
  have h01 : IsEdge farGraph 0 1 (2 ^ 31 - 2) := ⟨_, rfl, List.mem_singleton_self _⟩
  have h12 : IsEdge farGraph 1 2 2 := ⟨_, rfl, List.mem_singleton_self _⟩
  obtain ⟨-, -, hnext⟩ := h 1 ⟨_, .single h01⟩
  obtain ⟨a, ha, hlt⟩ := hnext 2 2 h12
  have hle := ha.le_potential (p := fun v => if v = 1 then 2 ^ 31 - 2 else 0) fun u v w he => by
    rcases farGraph_edge he with ⟨rfl, rfl, rfl⟩ | ⟨rfl, rfl, rfl⟩ <;> decide
  simp only [if_true, if_neg Nat.zero_ne_one] at hle
  omega

theorem dijkstra_int32_far : ¬ ∀ graph : Graph, WellFormed graph → Weights graph → ∀ source < graph.length,
    ∃ fuel dist prev, dijkstra int32 fuel graph source = some (dist, prev) ∧
      ∀ v, Reachable graph source v → dist[v]? ≠ some int32.INF := by
  intro h
  obtain ⟨fuel, dist, prev, hrun, hfar⟩ := h farGraph (by unfold WellFormed; decide) (by unfold Weights; decide) 0
    (by decide)
  exact not_inRange_farGraph (inRange_of_run hrun hfar)

end Playground.Dijkstra
