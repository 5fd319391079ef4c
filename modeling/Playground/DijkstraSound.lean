import Mathlib.Algebra.Order.BigOperators.Group.List
import Mathlib.Algebra.Order.Group.Nat
import Mathlib.Data.DFinsupp.WellFounded
import Mathlib.Data.Int.ConditionallyCompleteOrder
import Playground.Dijkstra

/-!
# The distances that the search ends with

A finite distance is the weight of a walk. Its node has an entry in the queue
or nothing to lower along its edges, so that with an empty queue no walk is
lighter. A stale entry is heavier than the distance and its node has another.
-/

namespace Playground.Dijkstra

variable {D : Type} [LinearOrder D]

/-- What the search relies on: `ofInt` embeds the integers it can hold, and a sum that is there is right. -/
structure Lawful (A : Arith D) : Prop where
  lt : ∀ a b, A.ofInt a < A.ofInt b ↔ a < b
  add : ∀ a w x, A.add (A.ofInt a) w = some x → x = A.ofInt (a + w)
  start : A.ofInt 0 < A.INF

theorem lawful_exact : Lawful exact where
  lt _ _ := WithTop.coe_lt_coe
  add _ _ _ h := (Option.some_inj.mp h).symm
  start := WithTop.coe_lt_top 0

theorem lawful_int32 : Lawful int32 where
  lt _ _ := Iff.rfl
  add _ _ _ h := (CInt.fit_eq_some h).1
  start := by decide

variable {A : Arith D} {graph : Graph} {n source u v : Nat} {s s' : Search D} {d d' x y : D} {e : Edge}
  {es rest : List Edge} {pq : List (D × Nat)}

theorem Lawful.le (hA : Lawful A) (a b : Int) : A.ofInt a ≤ A.ofInt b ↔ a ≤ b := by
  rw [← not_lt, hA.lt, Int.not_lt]

/-- `d` is the weight of a walk to `v`. -/
def Weighs (A : Arith D) (graph : Graph) (source v : Nat) (d : D) : Prop :=
  d < A.INF ∧ ∃ a, d = A.ofInt a ∧ Walk (IsEdge graph) source v a

theorem Weighs.reachable (h : Weighs A graph source v d) : Reachable graph source v := by
  obtain ⟨-, a, -, ha⟩ := h
  exact ⟨a, ha⟩

theorem Weighs.step (hA : Lawful A) (h : Weighs A graph source u d) (hes : graph[u]? = some es) (he : e ∈ es)
    (hx : A.add d e.weight = some x) (hlt : x < A.INF) : Weighs A graph source e.to_ x := by
  obtain ⟨-, a, rfl, ha⟩ := h
  exact ⟨hlt, a + e.weight, hA.add a e.weight x hx, ha.step ⟨es, hes, he⟩⟩

/-- There is nothing to lower along an edge. -/
def Relaxed (A : Arith D) (s : Search D) (d : D) (e : Edge) : Prop :=
  ∃ x y, A.add d e.weight = some x ∧ s.dist[e.to_]? = some y ∧ y ≤ x

/-- The search with the edges `rest` of `u` still to be taken. -/
structure Inv (A : Arith D) (graph : Graph) (n source u : Nat) (rest : List Edge) (s : Search D) : Prop where
  dist_length : s.dist.length = n
  prev_length : s.prev.length = n
  start : ∃ d, s.dist[source]? = some d ∧ d ≤ A.ofInt 0
  dist : ∀ v d, s.dist[v]? = some d → d = A.INF ∨ Weighs A graph source v d
  sorted : s.pq.Pairwise before
  pq : ∀ d v, (d, v) ∈ s.pq → Weighs A graph source v d ∧ ∃ d', s.dist[v]? = some d' ∧ d' ≤ d
  settled : ∀ v d es, s.dist[v]? = some d → d ≠ A.INF → graph[v]? = some es →
    (d, v) ∈ s.pq ∨ ∀ e ∈ es, Relaxed A s d e ∨ v = u ∧ e ∈ rest

theorem Inv.forget (h : Inv A graph n source u [] s) (u' : Nat) : Inv A graph n source u' [] s := by
  refine ⟨h.dist_length, h.prev_length, h.start, h.dist, h.sorted, h.pq, fun v d es hd hne hes => ?_⟩
  refine (h.settled v d es hd hne hes).imp_right fun hall e he => .inl ?_
  exact (hall e he).resolve_right fun hmem => List.not_mem_nil hmem.2

theorem Inv.le_INF (h : Inv A graph n source u rest s) (hd : s.dist[v]? = some d) : d ≤ A.INF := by
  rcases h.dist v d hd with rfl | hw
  · exact le_refl _
  · exact le_of_lt hw.1

/-! ## Relaxing an edge -/

def lower (u : Nat) (s : Search D) (v : Nat) (x : D) : Search D where
  dist := s.dist.set v x
  prev := s.prev.set v (some u)
  pq := s.pq.orderedInsert before (x, v)

theorem relax_lower (hu : s.dist[u]? = some d) (hx : A.add d e.weight = some x) (hy : s.dist[e.to_]? = some y)
    (hlt : x < y) (hprev : s.prev.length = s.dist.length) : relax A u s e = some (lower u s e.to_ x) := by
  have hv := (List.getElem?_eq_some_iff.mp hy).1
  have hv' : e.to_ < s.prev.length := by rw [hprev]; exact hv
  simp only [relax, hu, hx, hy, if_pos hlt, Vec.write_of hv, Vec.write_of hv', Option.bind_eq_bind,
    Option.bind_some]
  rfl

theorem relax_keep (hu : s.dist[u]? = some d) (hx : A.add d e.weight = some x) (hy : s.dist[e.to_]? = some y)
    (hlt : ¬ x < y) : relax A u s e = some s := by
  simp only [relax, hu, hx, hy, if_neg hlt, Option.bind_eq_bind, Option.bind_some]

theorem relax_cases (hprev : s.prev.length = s.dist.length) (h : relax A u s e = some s') :
    ∃ d x y, s.dist[u]? = some d ∧ A.add d e.weight = some x ∧ s.dist[e.to_]? = some y ∧
      (x < y ∧ s' = lower u s e.to_ x ∨ ¬ x < y ∧ s' = s) := by
  have hrun := h
  simp only [relax, Option.bind_eq_bind, Option.bind_eq_some_iff] at hrun
  obtain ⟨d, hd, x, hx, y, hy, -⟩ := hrun
  refine ⟨d, x, y, hd, hx, hy, ?_⟩
  by_cases hlt : x < y
  · rw [relax_lower hd hx hy hlt hprev] at h
    exact .inl ⟨hlt, (Option.some_inj.mp h).symm⟩
  · rw [relax_keep hd hx hy hlt] at h
    exact .inr ⟨hlt, (Option.some_inj.mp h).symm⟩

theorem dist_lower_self (hy : s.dist[v]? = some y) : (lower u s v x).dist[v]? = some x :=
  List.getElem?_set_self (List.getElem?_eq_some_iff.mp hy).1

theorem dist_lower_ne {z : Nat} (h : z ≠ v) : (lower u s v x).dist[z]? = s.dist[z]? :=
  List.getElem?_set_ne (Ne.symm h)

theorem mem_lower {p : D × Nat} : p ∈ (lower u s v x).pq ↔ p = (x, v) ∨ p ∈ s.pq := List.mem_orderedInsert _

theorem Relaxed.lower (h : Relaxed A s d e) (hy : s.dist[v]? = some y) (hlt : x < y) :
    Relaxed A (lower u s v x) d e := by
  obtain ⟨x', y', hx', hy', hle⟩ := h
  by_cases hv : e.to_ = v
  · rw [hv, hy] at hy'
    cases hy'
    exact ⟨x', x, hx', by rw [hv]; exact dist_lower_self hy, le_trans (le_of_lt hlt) hle⟩
  · exact ⟨x', y', hx', (dist_lower_ne hv).trans hy', hle⟩

instance : Std.Total (before (D := D)) where
  total p q := by
    rcases lt_trichotomy p.1 q.1 with h | h | h
    · exact .inl (.inl h)
    · exact (Nat.le_total p.2 q.2).imp (fun h' => .inr ⟨h, h'⟩) fun h' => .inr ⟨h.symm, h'⟩
    · exact .inr (.inl h)

instance : IsTrans (D × Nat) before where
  trans p q r h h' := by
    rcases h with h | ⟨h, hle⟩
    · rcases h' with h' | ⟨h', -⟩
      · exact .inl (lt_trans h h')
      · exact .inl (h' ▸ h)
    · rcases h' with h' | ⟨h', hle'⟩
      · exact .inl (h ▸ h')
      · exact .inr ⟨h.trans h', Nat.le_trans hle hle'⟩

theorem Inv.lower (hA : Lawful A) (h : Inv A graph n source u (e :: rest) s) (hes : graph[u]? = some es)
    (he : e ∈ es) (hd : s.dist[u]? = some d) (hu : d ≠ A.INF) (hx : A.add d e.weight = some x)
    (hy : s.dist[e.to_]? = some y) (hlt : x < y) : Inv A graph n source u rest (lower u s e.to_ x) := by
  have hweighs : Weighs A graph source e.to_ x :=
    ((h.dist u d hd).resolve_left hu).step hA hes he hx (lt_of_lt_of_le hlt (h.le_INF hy))
  refine ⟨List.length_set.trans h.dist_length, List.length_set.trans h.prev_length, ?_, fun z dz hz => ?_,
    h.sorted.orderedInsert _ _, fun dz z hz => ?_, fun z dz es' hz hne hes' => ?_⟩
  · obtain ⟨d₀, hd₀, hle⟩ := h.start
    by_cases hv : source = e.to_
    · rw [hv, hy] at hd₀
      cases hd₀
      exact ⟨x, by rw [hv]; exact dist_lower_self hy, le_trans (le_of_lt hlt) hle⟩
    · exact ⟨d₀, (dist_lower_ne hv).trans hd₀, hle⟩
  · by_cases hv : z = e.to_
    · rw [hv, dist_lower_self hy] at hz
      cases hz
      exact .inr (hv ▸ hweighs)
    · rw [dist_lower_ne hv] at hz
      exact h.dist z dz hz
  · rcases mem_lower.mp hz with heq | hz
    · cases heq
      exact ⟨hweighs, x, dist_lower_self hy, le_refl x⟩
    · obtain ⟨hw, d', hd', hle⟩ := h.pq dz z hz
      refine ⟨hw, ?_⟩
      by_cases hv : z = e.to_
      · rw [hv, hy] at hd'
        cases hd'
        exact ⟨x, by rw [hv]; exact dist_lower_self hy, le_trans (le_of_lt hlt) hle⟩
      · exact ⟨d', (dist_lower_ne hv).trans hd', hle⟩
  · by_cases hv : z = e.to_
    · rw [hv, dist_lower_self hy] at hz
      cases hz
      exact .inl (mem_lower.mpr (.inl (by rw [hv])))
    · rw [dist_lower_ne hv] at hz
      refine (h.settled z dz es' hz hne hes').imp (fun hmem => mem_lower.mpr (.inr hmem)) fun hall e' he' => ?_
      rcases hall e' he' with hrelaxed | ⟨rfl, hmem⟩
      · exact .inl (hrelaxed.lower hy hlt)
      · rcases List.mem_cons.mp hmem with rfl | hmem
        · rw [hd] at hz
          cases hz
          exact .inl ⟨x, x, hx, dist_lower_self hy, le_refl x⟩
        · exact .inr ⟨rfl, hmem⟩

theorem Inv.keep (h : Inv A graph n source u (e :: rest) s) (hd : s.dist[u]? = some d)
    (hx : A.add d e.weight = some x) (hy : s.dist[e.to_]? = some y) (hlt : ¬ x < y) :
    Inv A graph n source u rest s := by
  refine ⟨h.dist_length, h.prev_length, h.start, h.dist, h.sorted, h.pq, fun z dz es' hz hne hes' => ?_⟩
  refine (h.settled z dz es' hz hne hes').imp_right fun hall e' he' => ?_
  rcases hall e' he' with hrelaxed | ⟨rfl, hmem⟩
  · exact .inl hrelaxed
  · rcases List.mem_cons.mp hmem with rfl | hmem
    · rw [hd] at hz
      cases hz
      exact .inl ⟨x, y, hx, hy, le_of_not_gt hlt⟩
    · exact .inr ⟨rfl, hmem⟩

/-- A property of the vectors that every lowering keeps. -/
structure Keeps (A : Arith D) (graph : Graph) (n source : Nat) (P : Search D → Prop) : Prop where
  pop : ∀ s pq, P s → P { s with pq }
  lower : ∀ u es rest e s d x y, Inv A graph n source u (e :: rest) s → P s → graph[u]? = some es → e ∈ es →
    s.dist[u]? = some d → d ≠ A.INF → A.add d e.weight = some x → s.dist[e.to_]? = some y → x < y →
    P (Dijkstra.lower u s e.to_ x)

variable {P : Search D → Prop}

theorem Inv.relax (hA : Lawful A) (hP : Keeps A graph n source P) (h : Inv A graph n source u (e :: rest) s)
    (hs : P s) (hes : graph[u]? = some es) (he : e ∈ es) (hu : ∃ d, s.dist[u]? = some d ∧ d ≠ A.INF)
    (hrun : relax A u s e = some s') :
    Inv A graph n source u rest s' ∧ P s' ∧ ∃ d, s'.dist[u]? = some d ∧ d ≠ A.INF := by
  obtain ⟨d, hd, hne⟩ := hu
  obtain ⟨d', x, y, hd', hx, hy, hcases⟩ := relax_cases (h.prev_length.trans h.dist_length.symm) hrun
  rw [hd] at hd'
  cases hd'
  rcases hcases with ⟨hlt, rfl⟩ | ⟨hlt, rfl⟩
  · refine ⟨h.lower hA hes he hd hne hx hy hlt, hP.lower u es rest e s d x y h hs hes he hd hne hx hy hlt, ?_⟩
    by_cases hv : u = e.to_
    · exact ⟨x, by rw [hv]; exact dist_lower_self hy, ne_of_lt (lt_of_lt_of_le hlt (h.le_INF hy))⟩
    · exact ⟨d, (dist_lower_ne hv).trans hd, hne⟩
  · exact ⟨h.keep hd hx hy hlt, hs, d, hd, hne⟩

theorem Inv.relaxes (hA : Lawful A) (hP : Keeps A graph n source P) (h : Inv A graph n source u rest s) (hs : P s)
    (hes : graph[u]? = some es) (hrest : ∀ e ∈ rest, e ∈ es) (hu : ∃ d, s.dist[u]? = some d ∧ d ≠ A.INF)
    (hrun : rest.foldlM (Dijkstra.relax A u) s = some s') : Inv A graph n source u [] s' ∧ P s' := by
  induction rest generalizing s with
  | nil =>
    cases hrun
    exact ⟨h, hs⟩
  | cons e rest ih =>
    rw [List.foldlM_cons] at hrun
    obtain ⟨s₁, hrun₁, hruns⟩ := Option.bind_eq_some_iff.mp hrun
    obtain ⟨h₁, hs₁, hu₁⟩ := h.relax hA hP hs hes (hrest e List.mem_cons_self) hu hrun₁
    exact ih h₁ hs₁ (fun e' he' => hrest e' (List.mem_cons_of_mem e he')) hu₁ hruns

/-! ## A round -/

theorem Inv.sorted_cons (h : Inv A graph n source u rest s) {p : D × Nat} (hq : s.pq = p :: pq) :
    (∀ q ∈ pq, before p q) ∧ pq.Pairwise before := by
  have hsorted := h.sorted
  rw [hq] at hsorted
  exact List.pairwise_cons.mp hsorted

theorem Inv.stale (h : Inv A graph n source u [] s) {z : Nat} (hq : s.pq = (d, z) :: pq) (hd : s.dist[z]? = some d')
    (hlt : d' < d) : Inv A graph n source u [] { s with pq } := by
  refine ⟨h.dist_length, h.prev_length, h.start, h.dist, (h.sorted_cons hq).2, fun dz z' hz => ?_,
    fun z' dz es' hz hne hes' => ?_⟩
  · exact h.pq dz z' (by rw [hq]; exact List.mem_cons_of_mem _ hz)
  · refine (h.settled z' dz es' hz hne hes').imp_left fun hmem => ?_
    rw [hq] at hmem
    refine (List.mem_cons.mp hmem).resolve_left fun heq => ?_
    cases heq
    rw [hd] at hz
    cases hz
    exact lt_irrefl _ hlt

theorem Inv.fresh (h : Inv A graph n source u [] s) {z : Nat} (hq : s.pq = (d, z) :: pq)
    (hes : graph[z]? = some es) :
    Inv A graph n source z es { s with pq } := by
  refine ⟨h.dist_length, h.prev_length, h.start, h.dist, (h.sorted_cons hq).2, fun dz z' hz => ?_,
    fun z' dz es' hz hne hes' => ?_⟩
  · exact h.pq dz z' (by rw [hq]; exact List.mem_cons_of_mem _ hz)
  · have hold := h.settled z' dz es' hz hne hes'
    rw [hq] at hold
    rcases hold with hmem | hall
    · rcases List.mem_cons.mp hmem with heq | hmem
      · cases heq
        rw [hes] at hes'
        cases hes'
        exact .inr fun e he => .inr ⟨rfl, he⟩
      · exact .inl hmem
    · exact .inr fun e he => .inl ((hall e he).resolve_right fun hmem => List.not_mem_nil hmem.2)

theorem Inv.head (h : Inv A graph n source u rest s) {z : Nat} (hq : s.pq = (d, z) :: pq) :
    Weighs A graph source z d ∧ ∃ d', s.dist[z]? = some d' ∧ d' ≤ d :=
  h.pq d z (by rw [hq]; exact List.mem_cons_self)

theorem Inv.round (hA : Lawful A) (hP : Keeps A graph n source P) (h : Inv A graph n source 0 [] s) (hs : P s)
    (hround : round A graph s = .next s') : Inv A graph n source 0 [] s' ∧ P s' := by
  cases hq : s.pq with
  | nil => simp [Dijkstra.round, hq] at hround
  | cons p pq =>
    obtain ⟨d, z⟩ := p
    obtain ⟨hw, d', hd', hle⟩ := h.head hq
    simp only [Dijkstra.round, hq, Loop.Outcome.ofOption_eq_next, hd', Option.bind_eq_bind,
      Option.bind_some] at hround
    by_cases hlt : d' < d
    · rw [if_pos hlt] at hround
      cases hround
      exact ⟨h.stale hq hd' hlt, hP.pop s pq hs⟩
    · rw [if_neg hlt] at hround
      obtain ⟨es, hes, hruns⟩ := Option.bind_eq_some_iff.mp hround
      have hne : d' ≠ A.INF := ne_of_lt (lt_of_le_of_lt hle hw.1)
      obtain ⟨h', hs'⟩ := (h.fresh hq hes).relaxes hA hP (hP.pop s pq hs) hes (fun _ he => he) ⟨d', hd', hne⟩ hruns
      exact ⟨h'.forget 0, hs'⟩

/-! ## Runs -/

def initial (A : Arith D) (n source : Nat) : Search D where
  dist := (List.replicate n A.INF).set source (A.ofInt 0)
  prev := List.replicate n none
  pq := [(A.ofInt 0, source)]

omit [LinearOrder D] in
theorem initial_dist (hd : (initial A n source).dist[v]? = some d) (hv : v ≠ source) : d = A.INF := by
  have hget : (initial A n source).dist[v]? = (List.replicate n A.INF)[v]? := List.getElem?_set_ne (Ne.symm hv)
  rw [hget] at hd
  exact List.eq_of_mem_replicate (List.mem_of_getElem? hd)

theorem Inv.init (hA : Lawful A) (hsource : source < n) : Inv A graph n source 0 [] (initial A n source) := by
  have hself : (initial A n source).dist[source]? = some (A.ofInt 0) :=
    List.getElem?_set_self (by rw [List.length_replicate]; exact hsource)
  have hweighs : Weighs A graph source source (A.ofInt 0) := ⟨hA.start, 0, rfl, .refl⟩
  refine ⟨?_, List.length_replicate, ⟨_, hself, le_refl _⟩, fun v d hd => ?_, List.pairwise_singleton _ _,
    fun d v hmem => ?_, fun v d es hd hne _ => .inl ?_⟩
  · exact List.length_set.trans List.length_replicate
  · by_cases hv : v = source
    · rw [hv, hself] at hd
      cases hd
      exact .inr (hv ▸ hweighs)
    · exact .inl (initial_dist hd hv)
  · cases List.mem_singleton.mp hmem
    exact ⟨hweighs, _, hself, le_refl _⟩
  · by_cases hv : v = source
    · rw [hv, hself] at hd
      cases hd
      rw [hv]
      exact List.mem_singleton_self _
    · exact absurd (initial_dist hd hv) hne

theorem dijkstra_eq_some {fuel : Nat} {dist : List D} {prev : List (Option Nat)} :
    dijkstra A fuel graph source = some (dist, prev) ↔ ∃ n : Nat, CInt.ofSize graph.length = n ∧ source < n ∧
      ∃ s, Loop.run (round A graph) fuel (initial A n source) = some s ∧ s.dist = dist ∧ s.prev = prev := by
  constructor
  · intro h
    simp only [dijkstra, Option.bind_eq_bind, Option.bind_eq_some_iff, Vec.write_eq_some] at h
    obtain ⟨dist₀, hdist₀, prev₀, hprev₀, dist₁, ⟨hsource, rfl⟩, s, hrun, heq⟩ := h
    obtain ⟨n, hn, rfl⟩ := Vec.create_eq_some hdist₀
    obtain ⟨n', hn', rfl⟩ := Vec.create_eq_some hprev₀
    have hsame : n' = n := by omega
    subst hsame
    rw [List.length_replicate] at hsource
    cases heq
    exact ⟨n', hn, hsource, s, hrun, rfl, rfl⟩
  · intro ⟨n, hn, hsource, s, hrun, hdist, hprev⟩
    have hwrite :=
      Vec.write_of (v := List.replicate n A.INF) (by rw [List.length_replicate]; exact hsource) (A.ofInt 0)
    rw [initial] at hrun
    simp only [dijkstra, hn, Vec.create_natCast, hwrite, hrun, hdist, hprev, Option.bind_eq_bind, Option.bind_some]

/-- What holds when the search ends: the queue is empty, and nothing is to be lowered. -/
theorem Inv.final (hA : Lawful A) (hP : Keeps A graph n source P) {fuel : Nat} (hsource : source < n)
    (hinit : P (initial A n source)) (hrun : Loop.run (Dijkstra.round A graph) fuel (initial A n source) = some s) :
    Inv A graph n source 0 [] s ∧ s.pq = [] ∧ P s := by
  obtain ⟨⟨h, hs⟩, hexit⟩ := Loop.run_inv (I := fun s => Inv A graph n source 0 [] s ∧ P s)
    (fun _ _ hi hround => hi.1.round hA hP hi.2 hround) hrun ⟨Inv.init hA hsource, hinit⟩
  refine ⟨h, ?_, hs⟩
  cases hq : s.pq with
  | nil => rfl
  | cons p pq =>
    simp only [Dijkstra.round, hq] at hexit
    exact absurd hexit (Loop.Outcome.ofOption_ne_exit _)

theorem Inv.ends (hA : Lawful A) {fuel : Nat} (hsource : source < n)
    (hrun : Loop.run (Dijkstra.round A graph) fuel (initial A n source) = some s) :
    Inv A graph n source 0 [] s ∧ s.pq = [] := by
  have hkeeps : Keeps A graph n source fun _ => True :=
    { pop := fun _ _ h => h, lower := fun _ _ _ _ _ _ _ _ _ h _ _ _ _ _ _ _ => h }
  obtain ⟨h, hq, -⟩ := Inv.final (P := fun _ => True) hA hkeeps hsource trivial hrun
  exact ⟨h, hq⟩

theorem Inv.relaxed (h : Inv A graph n source 0 [] s) (hq : s.pq = []) (hd : s.dist[v]? = some d) (hne : d ≠ A.INF)
    (hes : graph[v]? = some es) (he : e ∈ es) : Relaxed A s d e := by
  have hall := h.settled v d es hd hne hes
  rw [hq] at hall
  exact ((hall.resolve_left List.not_mem_nil) e he).resolve_right fun hmem => List.not_mem_nil hmem.2

/-! ## Every search ends -/

/-- A measure of the distances a search may still hold. -/
structure Ranks (A : Arith D) (graph : Graph) (source : Nat) (rank : D → WithTop Nat) : Prop where
  lt : ∀ v x y, Weighs A graph source v x → y = A.INF ∨ Weighs A graph source v y → x < y → rank x < rank y

def gap (A : Arith D) (rank : D → WithTop Nat) (n : Nat) (s : Search D) (v : Fin n) : WithTop Nat :=
  rank (s.dist[v.val]?.getD A.INF)

variable {rank : D → WithTop Nat}

theorem gap_lower (hrank : Ranks A graph source rank) (hv : v < n) (hx : Weighs A graph source v x)
    (hy : s.dist[v]? = some y) (hy' : y = A.INF ∨ Weighs A graph source v y) (hlt : x < y) :
    gap A rank n (lower u s v x) < gap A rank n s := by
  have hless : gap A rank n (lower u s v x) ⟨v, hv⟩ < gap A rank n s ⟨v, hv⟩ := by
    simp only [gap, dist_lower_self hy, hy, Option.getD_some]
    exact hrank.lt v x y hx hy' hlt
  refine Pi.lt_def.mpr ⟨fun z => ?_, ⟨v, hv⟩, hless⟩
  by_cases hz : z.val = v
  · have heq : z = ⟨v, hv⟩ := Fin.ext hz
    rw [heq]
    exact le_of_lt hless
  · rw [gap, gap, dist_lower_ne hz]

/-- What is asked of the additions along the edges of `u`, from distances up to `d`. -/
def Fits (A : Arith D) (graph : Graph) (source u : Nat) (d : D) (es : List Edge) : Prop :=
  ∀ d', Weighs A graph source u d' → d' ≤ d → ∀ e ∈ es, ∃ x, A.add d' e.weight = some x

theorem Inv.relax_total (hA : Lawful A) (h : Inv A graph n source u (e :: rest) s)
    (hrank : Ranks A graph source rank) (hnodes : ∀ v, Reachable graph source v → v < n) (hes : graph[u]? = some es)
    (he : e ∈ es) (hfits : Fits A graph source u d es)
    (hu : ∃ d', s.dist[u]? = some d' ∧ Weighs A graph source u d' ∧ d' ≤ d) :
    ∃ s', Dijkstra.relax A u s e = some s' ∧ Inv A graph n source u rest s' ∧
      (∃ d', s'.dist[u]? = some d' ∧ Weighs A graph source u d' ∧ d' ≤ d) ∧
      (s' = s ∨ gap A rank n s' < gap A rank n s) := by
  obtain ⟨d', hd', hw, hle⟩ := hu
  obtain ⟨x, hx⟩ := hfits d' hw hle e he
  obtain ⟨a, ha⟩ := hw.reachable
  have hv : e.to_ < n := hnodes e.to_ ⟨a + e.weight, ha.step ⟨es, hes, he⟩⟩
  have hlen : e.to_ < s.dist.length := by rw [h.dist_length]; exact hv
  obtain ⟨y, hy⟩ : ∃ y, s.dist[e.to_]? = some y := ⟨_, List.getElem?_eq_getElem hlen⟩
  by_cases hlt : x < y
  · have hx' : Weighs A graph source e.to_ x := hw.step hA hes he hx (lt_of_lt_of_le hlt (h.le_INF hy))
    refine ⟨Dijkstra.lower u s e.to_ x, relax_lower hd' hx hy hlt (h.prev_length.trans h.dist_length.symm),
      h.lower hA hes he hd' (ne_of_lt hw.1) hx hy hlt, ?_, .inr (gap_lower hrank hv hx' hy (h.dist _ _ hy) hlt)⟩
    by_cases hself : u = e.to_
    · rw [← hself] at hx' hy
      rw [hd'] at hy
      cases hy
      exact ⟨x, by rw [← hself]; exact dist_lower_self hd', hx', le_trans (le_of_lt hlt) hle⟩
    · exact ⟨d', (dist_lower_ne hself).trans hd', hw, hle⟩
  · exact ⟨s, relax_keep hd' hx hy hlt, h.keep hd' hx hy hlt, ⟨d', hd', hw, hle⟩, .inl rfl⟩

theorem Inv.relaxes_total (hA : Lawful A) (h : Inv A graph n source u rest s) (hrank : Ranks A graph source rank)
    (hnodes : ∀ v, Reachable graph source v → v < n) (hes : graph[u]? = some es) (hrest : ∀ e ∈ rest, e ∈ es)
    (hfits : Fits A graph source u d es) (hu : ∃ d', s.dist[u]? = some d' ∧ Weighs A graph source u d' ∧ d' ≤ d) :
    ∃ s', rest.foldlM (Dijkstra.relax A u) s = some s' ∧ Inv A graph n source u [] s' ∧
      (s' = s ∨ gap A rank n s' < gap A rank n s) := by
  induction rest generalizing s with
  | nil => exact ⟨s, rfl, h, .inl rfl⟩
  | cons e rest ih =>
    obtain ⟨s₁, hrun₁, h₁, hu₁, hgap₁⟩ := h.relax_total hA hrank hnodes hes (hrest e List.mem_cons_self) hfits hu
    obtain ⟨s', hruns, h', hgap'⟩ := ih h₁ (fun e' he' => hrest e' (List.mem_cons_of_mem e he')) hu₁
    refine ⟨s', ?_, h', ?_⟩
    · rw [List.foldlM_cons, hrun₁]
      exact hruns
    · rcases hgap' with rfl | hgap'
      · exact hgap₁
      · rcases hgap₁ with rfl | hgap₁
        · exact .inr hgap'
        · exact .inr (lt_trans hgap' hgap₁)

/-- A round lowers some distance, or it takes an entry from the queue and that is all. -/
theorem Inv.round_total (hA : Lawful A) (h : Inv A graph n source 0 [] s) (hrank : Ranks A graph source rank)
    (hn : n ≤ graph.length) (hnodes : ∀ v, Reachable graph source v → v < n) {z : Nat} (hq : s.pq = (d, z) :: pq)
    (hfits : s.dist[z]? = some d → ∀ es, graph[z]? = some es → Fits A graph source z d es) :
    ∃ s', Dijkstra.round A graph s = .next s' ∧ Inv A graph n source 0 [] s' ∧
      Prod.Lex (· < ·) (· < ·) (gap A rank n s', s'.pq.length) (gap A rank n s, s.pq.length) := by
  obtain ⟨hw, d', hd', hle⟩ := h.head hq
  have hz : z < graph.length := Nat.lt_of_lt_of_le (hnodes z hw.reachable) hn
  have hes : graph[z]? = some graph[z] := List.getElem?_eq_getElem hz
  have hless : pq.length < s.pq.length := by
    rw [hq]
    exact Nat.lt_succ_self _
  have hround : Dijkstra.round A graph s = .ofOption (if d' < d then some { s with pq }
      else graph[z].foldlM (Dijkstra.relax A z) { s with pq }) := by
    simp only [Dijkstra.round, hq, hd', hes, Option.bind_eq_bind, Option.bind_some]
  rw [hround]
  by_cases hlt : d' < d
  · rw [if_pos hlt]
    exact ⟨_, rfl, h.stale hq hd' hlt, .right _ hless⟩
  · have hd : d' = d := le_antisymm hle (le_of_not_gt hlt)
    subst hd
    obtain ⟨s', hruns, h', hgap⟩ := (h.fresh hq hes).relaxes_total hA hrank hnodes hes (fun _ he => he)
      (hfits hd' _ hes) ⟨d', hd', hw, le_refl _⟩
    rw [if_neg hlt]
    refine ⟨s', Loop.Outcome.ofOption_eq_next.mpr hruns, h'.forget 0, ?_⟩
    rcases hgap with rfl | hgap
    · exact .right _ hless
    · exact .left _ _ hgap

theorem exists_run (hA : Lawful A) (hrank : Ranks A graph source rank) (hn : n ≤ graph.length)
    (hnodes : ∀ v, Reachable graph source v → v < n)
    (hfits : ∀ s d z pq es, Inv A graph n source 0 [] s → s.pq = (d, z) :: pq → s.dist[z]? = some d →
      graph[z]? = some es → Fits A graph source z d es) :
    ∃ fuel s, Loop.run (Dijkstra.round A graph) fuel (initial A n source) = some s := by
  refine Loop.run_wellFounded (WellFounded.prod_lex wellFounded_lt wellFounded_lt)
    (fun s => (gap A rank n s, s.pq.length)) (I := Inv A graph n source 0 []) (fun s h => ?_) _
    (Inv.init hA (hnodes source ⟨0, .refl⟩))
  cases hq : s.pq with
  | nil =>
    left
    simp only [Dijkstra.round, hq]
  | cons p pq =>
    right
    rw [← hq]
    exact h.round_total hA hrank hn hnodes hq fun hd es hes => hfits s p.1 p.2 pq es h hq hd hes

/-! ## With exact integers -/

theorem exists_weight_bound (graph : Graph) : ∃ W : Int, 0 ≤ W ∧ ∀ u v w, IsEdge graph u v w → -W ≤ w := by
  refine ⟨((graph.flatten.map fun e => e.weight.natAbs).sum : Nat), by omega, fun u v w ⟨es, hes, he⟩ => ?_⟩
  have hmem : w.natAbs ∈ graph.flatten.map fun e => e.weight.natAbs :=
    List.mem_map.mpr ⟨⟨v, w⟩, List.mem_flatten.mpr ⟨es, List.mem_of_getElem? hes, he⟩, rfl⟩
  have hle := List.le_sum_of_mem hmem
  omega

/-- Distances above a bound, counted from it. -/
def rankExact (L : Int) (d : WithTop Int) : WithTop Nat := d.map fun a => (a - L).toNat

theorem ranks_exact {L : Int} (hL : ∀ v a, Walk (IsEdge graph) source v a → L ≤ a) :
    Ranks exact graph source (rankExact L) := by
  refine ⟨fun v x y hx hy hlt => ?_⟩
  obtain ⟨-, a, rfl, ha⟩ := hx
  rcases hy with rfl | ⟨-, b, rfl, hb⟩
  · exact WithTop.coe_lt_top _
  · have hab : a < b := WithTop.coe_lt_coe.mp hlt
    have hLa := hL v a ha
    exact WithTop.coe_lt_coe.mpr (show (a - L).toNat < (b - L).toNat by omega)

theorem exact_le {s : Search (WithTop Int)} (h : Inv exact graph n source 0 [] s) (hq : s.pq = []) {a : Int}
    (ha : Walk (IsEdge graph) source v a) : ∃ d : WithTop Int, s.dist[v]? = some d ∧ d ≤ a := by
  induction ha with
  | refl => exact h.start
  | @step u v a w _ he ih =>
    obtain ⟨d, hd, hle⟩ := ih
    obtain ⟨es, hes, he⟩ := he
    have hne : d ≠ ⊤ := ne_of_lt (lt_of_le_of_lt hle (WithTop.coe_lt_top a))
    obtain ⟨x, y, hx, hy, hyx⟩ := h.relaxed hq hd hne hes he
    cases hx
    refine ⟨y, hy, le_trans hyx ?_⟩
    rw [WithTop.coe_add]
    exact add_le_add_left hle _

/-- A distance is that of the lightest walk, and infinite where there is none. -/
def IsDistance (graph : Graph) (source v : Nat) (d : WithTop Int) : Prop :=
  (∀ a : Int, d = a ↔ IsLeast { a | Walk (IsEdge graph) source v a } a) ∧ (d = ⊤ ↔ ¬ Reachable graph source v)

theorem isDistance {s : Search (WithTop Int)} (h : Inv exact graph n source 0 [] s) (hq : s.pq = [])
    {d : WithTop Int} (hd : s.dist[v]? = some d) : IsDistance graph source v d := by
  have hle : ∀ a, Walk (IsEdge graph) source v a → d ≤ a := by
    intro a ha
    obtain ⟨d', hd', hle⟩ := exact_le h hq ha
    rw [hd] at hd'
    cases hd'
    exact hle
  rcases h.dist v d hd with rfl | ⟨-, b, rfl, hb⟩
  · have hnone : ¬ Reachable graph source v := by
      intro ⟨a, ha⟩
      exact absurd (hle a ha) (not_le_of_gt (WithTop.coe_lt_top a))
    exact ⟨fun a => iff_of_false (fun heq => by cases heq) fun hleast => hnone ⟨a, hleast.1⟩, iff_of_true rfl hnone⟩
  · have hleast : IsLeast { a | Walk (IsEdge graph) source v a } b :=
      ⟨hb, fun a ha => WithTop.coe_le_coe.mp (hle a ha)⟩
    refine ⟨fun a => ?_, iff_of_false (fun heq => by cases heq) fun hnone => hnone ⟨b, hb⟩⟩
    constructor
    · intro heq
      cases heq
      exact hleast
    · intro ha
      rw [ha.unique hleast]
      rfl

theorem WellFormed.lt (hgraph : WellFormed graph) (hsource : source < graph.length)
    (hv : Reachable graph source v) :
    v < graph.length := by
  obtain ⟨a, ha⟩ := hv
  cases ha with
  | refl => exact hsource
  | step _ he =>
    obtain ⟨es, hes, he⟩ := he
    exact hgraph es (List.mem_of_getElem? hes) _ he

theorem exists_exact_run (hn : n ≤ graph.length) (hnodes : ∀ v, Reachable graph source v → v < n)
    (hcycle : Walk.NoNegativeCycle (IsEdge graph) source) :
    ∃ fuel s, Loop.run (Dijkstra.round exact graph) fuel (initial exact n source) = some s := by
  obtain ⟨W, hW, hweights⟩ := exists_weight_bound graph
  obtain ⟨L, hL⟩ := Walk.exists_bound hW hweights hcycle fun v a ha => List.mem_range.mpr (hnodes v ⟨a, ha⟩)
  exact exists_run lawful_exact (ranks_exact hL) hn hnodes fun _ _ _ _ _ _ _ _ _ _ _ _ _ _ => ⟨_, rfl⟩

/-- **The search ends with the weights of the lightest walks**, whatever the signs of the edges' weights, where no
cycle that it reaches has a negative one. -/
theorem dijkstra_exact (graph : Graph) (hsize : graph.length < 2 ^ 31) (hgraph : WellFormed graph) (source : Nat)
    (hsource : source < graph.length) (hcycle : Walk.NoNegativeCycle (IsEdge graph) source) :
    ∃ fuel dist prev, dijkstra exact fuel graph source = some (dist, prev) ∧ dist.length = graph.length ∧
      ∀ v d, dist[v]? = some d → IsDistance graph source v d := by
  obtain ⟨fuel, s, hrun⟩ := exists_exact_run (Nat.le_refl _) (fun _ => hgraph.lt hsource) hcycle
  obtain ⟨h, hq⟩ := Inv.ends lawful_exact hsource hrun
  refine ⟨fuel, s.dist, s.prev, dijkstra_eq_some.mpr ?_, h.dist_length, fun v d hd => isDistance h hq hd⟩
  exact ⟨graph.length, CInt.ofSize_of_lt hsize, hsource, s, hrun, rfl, rfl⟩

theorem noNegativeCycle_of_check (p : Nat → Int)
    (h : ∀ u (hu : u < graph.length), ∀ e ∈ graph[u], p e.to_ ≤ p u + e.weight) (source : Nat) :
    Walk.NoNegativeCycle (IsEdge graph) source := by
  refine Walk.noNegativeCycle_of_potential (p := p) (fun u v w ⟨es, hes, he⟩ => ?_) source
  obtain ⟨hu, rfl⟩ := List.getElem?_eq_some_iff.mp hes
  exact h u hu _ he

theorem dijkstra_exact_negative : ∃ fuel dist prev,
    dijkstra exact fuel [[⟨1, 4⟩, ⟨2, 2⟩], [], [⟨1, -1⟩]] 0 = some (dist, prev) ∧ dist.length = 3 ∧
      ∀ v d, dist[v]? = some d → IsDistance [[⟨1, 4⟩, ⟨2, 2⟩], [], [⟨1, -1⟩]] 0 v d :=
  dijkstra_exact [[⟨1, 4⟩, ⟨2, 2⟩], [], [⟨1, -1⟩]] (by decide) (by unfold WellFormed; decide) 0 (by decide)
    (noNegativeCycle_of_check (fun v => v) (by decide) 0)

theorem not_isEdge_replicate (k u v : Nat) (w : Int) : ¬ IsEdge (List.replicate k []) u v w := by
  intro ⟨es, hes, he⟩
  rw [List.eq_of_mem_replicate (List.mem_of_getElem? hes)] at he
  cases he

theorem wellFormed_replicate (k : Nat) : WellFormed (List.replicate k []) := by
  intro es hes e he
  rw [List.eq_of_mem_replicate hes] at he
  cases he

theorem noNegativeCycle_replicate (k source : Nat) : Walk.NoNegativeCycle (IsEdge (List.replicate k [])) source :=
  Walk.noNegativeCycle_of_nonneg (fun u v w he => absurd he (not_isEdge_replicate k u v w)) source

/-- A size that is negative as an `int` gives no vector. -/
theorem dijkstra_exact_large : ¬ ∀ graph : Graph, WellFormed graph → ∀ source < graph.length,
    Walk.NoNegativeCycle (IsEdge graph) source →
      ∃ fuel dist prev, dijkstra exact fuel graph source = some (dist, prev) ∧ dist.length = graph.length ∧
        ∀ v d, dist[v]? = some d → IsDistance graph source v d := by
  intro h
  obtain ⟨k, hk⟩ : ∃ k : Nat, k = 2 ^ 31 := ⟨_, rfl⟩
  obtain ⟨fuel, dist, prev, hrun, -⟩ := h (List.replicate k []) (wellFormed_replicate k) 0
    (by rw [List.length_replicate]; omega) (noNegativeCycle_replicate k 0)
  obtain ⟨n, hn, -⟩ := dijkstra_eq_some.mp hrun
  rw [List.length_replicate, CInt.ofSize_of_le (by omega) (by omega)] at hn
  omega

end Playground.Dijkstra
