import Playground.TopologicalSort

/-!
# Kahn's algorithm sorts, or finds a cycle

The in-degree of a node counts the edges into it from nodes that are not in
the order yet, and the nodes at 0 are those in the order and in the queue.
When the queue is empty, each node left has a predecessor that is left.
-/

namespace Playground.TopologicalSort

open Digraph

variable {n v : Nat} {edges : List (Nat × Nat)} {order rest : List Nat}

theorem IsTopological.acyclic (h : IsTopological n edges order) : Acyclic (Edge edges) := acyclic_of_idxOf h.forward

theorem mem_successors {u : Nat} : v ∈ successors edges u ↔ Edge edges u v := by
  simp [successors, Edge]

/-! ## The adjacency lists -/

def adjacency (n : Nat) (edges : List (Nat × Nat)) : List (List Nat) := (List.range n).map (successors edges)

theorem adjacency_nil (n : Nat) : adjacency n [] = List.replicate n [] := by
  rw [adjacency, show successors [] = fun _ => [] from rfl, List.map_const', List.length_range]

theorem successors_snoc (edges : List (Nat × Nat)) (e : Nat × Nat) (u : Nat) :
    successors (edges ++ [e]) u = if u = e.1 then successors edges u ++ [e.2] else successors edges u := by
  by_cases h : u = e.1
  · simp [successors, h]
  · simp [successors, h, Ne.symm h]

theorem pushEdge_adjacency {e : Nat × Nat} (he : e.1 < n) :
    pushEdge (adjacency n edges) e = some (adjacency n (edges ++ [e])) := by
  rw [pushEdge, adjacency, Vec.getElem?_table _ he]
  refine (Vec.write_table _ he _).trans ?_
  refine congrArg some (List.map_congr_left fun u _ => ?_)
  rw [successors_snoc]
  by_cases hu : u = e.1
  · rw [if_pos hu, if_pos hu, hu]
  · rw [if_neg hu, if_neg hu]

theorem foldlM_pushEdge (edges : List (Nat × Nat)) (h : ∀ e ∈ edges, e.1 < n) :
    edges.foldlM pushEdge (adjacency n []) = some (adjacency n edges) := by
  have hround : ∀ (i : Nat) (hi : i < edges.length),
      pushEdge (adjacency n (edges.take i)) edges[i] = some (adjacency n (edges.take (i + 1))) := by
    intro i hi
    rw [List.take_succ_eq_append_getElem hi]
    exact pushEdge_adjacency (h _ (List.getElem_mem hi))
  have hrun := Loop.forEach_eq hround
  rwa [List.take_zero, List.take_length] at hrun

/-! ## The in-degrees -/

def degrees (n : Nat) (edges : List (Nat × Nat)) : List Int := (List.range n).map fun v => (inDegree edges v : Int)

theorem inDegree_snoc (edges : List (Nat × Nat)) (e : Nat × Nat) (v : Nat) :
    inDegree (edges ++ [e]) v = if v = e.2 then inDegree edges v + 1 else inDegree edges v := by
  by_cases h : v = e.2
  · simp [inDegree, h]
  · simp [inDegree, h, Ne.symm h]

theorem inDegree_take_le (edges : List (Nat × Nat)) (i v : Nat) : inDegree (edges.take i) v ≤ inDegree edges v :=
  (List.take_sublist i edges).countP_le

theorem addAt_table (f : Nat → Int) {k d : Int} (hv : v < n) (hd : CInt.fit (f v + k) = some d) :
    addAt ((List.range n).map f) v k = some ((List.range n).map fun j => if j = v then d else f j) := by
  simp only [addAt, Vec.getElem?_table f hv, hd, Vec.write_table f hv, Option.bind_eq_bind, Option.bind_some]

theorem addAt_overflow (f : Nat → Int) {k : Int} (hv : v < n) (hd : CInt.fit (f v + k) = none) :
    addAt ((List.range n).map f) v k = none := by
  simp only [addAt, Vec.getElem?_table f hv, hd, Option.bind_eq_bind, Option.bind_some, Option.bind_none]

theorem addEdge_spec {e : Nat × Nat} (he : e.1 < n ∧ e.2 < n) (hdeg : inDegree (edges ++ [e]) e.2 < 2 ^ 31) :
    addEdge (adjacency n edges, degrees n edges) e =
      some (adjacency n (edges ++ [e]), degrees n (edges ++ [e])) := by
  have hfit : CInt.fit ((inDegree edges e.2 : Int) + 1) = some (inDegree (edges ++ [e]) e.2 : Int) := by
    rw [inDegree_snoc, if_pos rfl] at hdeg ⊢
    rw [Int.natCast_succ]
    exact CInt.fit_of (by omega) (by omega)
  have hdegrees : addAt (degrees n edges) e.2 1 = some (degrees n (edges ++ [e])) := by
    rw [degrees, addAt_table (fun v => (inDegree edges v : Int)) he.2 hfit]
    refine congrArg some (List.map_congr_left fun v _ => ?_)
    by_cases hv : v = e.2
    · rw [if_pos hv, hv]
    · rw [if_neg hv, inDegree_snoc, if_neg hv]
  simp only [addEdge, pushEdge_adjacency he.1, hdegrees, Option.bind_eq_bind, Option.bind_some]

theorem foldlM_addEdge (edges : List (Nat × Nat)) (h : ∀ e ∈ edges, e.1 < n ∧ e.2 < n)
    (hdeg : ∀ v, inDegree edges v < 2 ^ 31) :
    edges.foldlM addEdge (adjacency n [], degrees n []) = some (adjacency n edges, degrees n edges) := by
  have hround : ∀ (i : Nat) (hi : i < edges.length),
      addEdge (adjacency n (edges.take i), degrees n (edges.take i)) edges[i] =
        some (adjacency n (edges.take (i + 1)), degrees n (edges.take (i + 1))) := by
    intro i hi
    have hle := inDegree_take_le edges (i + 1) edges[i].2
    rw [List.take_succ_eq_append_getElem hi] at hle ⊢
    exact addEdge_spec (h _ (List.getElem_mem hi)) (Nat.lt_of_le_of_lt hle (hdeg _))
  have hrun := Loop.forEach_eq (s := fun i => (adjacency n (edges.take i), degrees n (edges.take i))) hround
  rwa [List.take_zero, List.take_length] at hrun

/-! ## The invariant -/

/-- How many edges into `v` come from nodes that are not in the order. -/
def opens (edges : List (Nat × Nat)) (order : List Nat) (v : Nat) : Nat :=
  edges.countP fun e => e.2 = v ∧ e.1 ∉ order

theorem opens_nil (edges : List (Nat × Nat)) (v : Nat) : opens edges [] v = inDegree edges v := by
  simp [opens, inDegree]

theorem mem_of_opens {u : Nat} (h : opens edges order v = 0) (huv : Edge edges u v) : u ∈ order := by
  have hnone := List.countP_eq_zero.mp h (u, v) huv
  by_contra hu
  exact hnone (decide_eq_true ⟨rfl, hu⟩)

theorem exists_of_opens (h : opens edges order v ≠ 0) : ∃ u, Edge edges u v ∧ u ∉ order := by
  obtain ⟨e, he, hp⟩ := List.countP_pos_iff.mp (Nat.pos_of_ne_zero h)
  obtain ⟨rfl, hu⟩ := of_decide_eq_true hp
  exact ⟨e.1, he, hu⟩

theorem opens_snoc {node : Nat} (edges : List (Nat × Nat)) (h : node ∉ order) (v : Nat) :
    opens edges (order ++ [node]) v + (successors edges node).count v = opens edges order v := by
  induction edges with
  | nil => rfl
  | cons e es ih =>
    simp only [opens, successors, List.countP_cons, List.filter_cons] at ih ⊢
    by_cases hnode : e.1 = node
    · by_cases hv : e.2 = v
      · simp [hnode, hv, h] at ih ⊢
        omega
      · simp [hnode, hv] at ih ⊢
        omega
    · simp [hnode] at ih ⊢
      omega

/-- The loop with the edges to `rest` still to be taken. -/
structure Inv (n : Nat) (edges : List (Nat × Nat)) (rest : List Nat) (s : Kahn) : Prop where
  degree : s.in_degree = (List.range n).map fun v => ((opens edges s.order v + rest.count v : Nat) : Int)
  bound : ∀ v, opens edges s.order v + rest.count v < 2 ^ 31
  layered : Layered (Edge edges) s.order
  nodup : (s.order ++ s.q).Nodup
  ready : ∀ v, v ∈ s.order ++ s.q ↔ v < n ∧ opens edges s.order v + rest.count v = 0

variable {s : Kahn}

theorem Inv.length_le (h : Inv n edges rest s) : (s.order ++ s.q).length ≤ n := by
  have hsub : (s.order ++ s.q) ⊆ List.range n := fun v hv => List.mem_range.mpr ((h.ready v).mp hv).1
  have hle := (List.Nodup.subperm h.nodup hsub).length_le
  rwa [List.length_range] at hle

theorem count_cons_eq (v w : Nat) (rest : List Nat) :
    (v :: rest).count w = if w = v then rest.count w + 1 else rest.count w := by
  by_cases hw : w = v
  · rw [if_pos hw, hw, List.count_cons_self]
  · rw [if_neg hw, List.count_cons_of_ne (Ne.symm hw)]

theorem Inv.addAt (h : Inv n edges (v :: rest) s) (hv : v < n) : addAt s.in_degree v (-1) =
    some ((List.range n).map fun w => ((opens edges s.order w + rest.count w : Nat) : Int)) := by
  have hbound := h.bound v
  rw [count_cons_eq, if_pos rfl] at hbound
  have hfit : CInt.fit (((opens edges s.order v + (v :: rest).count v : Nat) : Int) + -1) =
      some ((opens edges s.order v + rest.count v : Nat) : Int) := by
    have hpred : ((opens edges s.order v + (v :: rest).count v : Nat) : Int) + -1 =
        (opens edges s.order v + rest.count v : Nat) := by
      rw [count_cons_eq, if_pos rfl]
      omega
    rw [hpred]
    exact CInt.fit_of (by omega) (by omega)
  rw [h.degree, addAt_table (fun w => ((opens edges s.order w + (v :: rest).count w : Nat) : Int)) hv hfit]
  refine congrArg some (List.map_congr_left fun w _ => ?_)
  by_cases hw : w = v
  · rw [if_pos hw, hw]
  · rw [if_neg hw, count_cons_eq, if_neg hw]

theorem Inv.bound_tail (h : Inv n edges (v :: rest) s) (w : Nat) :
    opens edges s.order w + rest.count w < 2 ^ 31 := by
  have hw := h.bound w
  have hle := List.count_le_count_cons (a := w) (b := v) (l := rest)
  omega

theorem Inv.ready_cons (h : Inv n edges (v :: rest) s) (hv : v < n) (w : Nat) :
    w ∈ s.order ++ s.q ∨ w = v ∧ opens edges s.order v + rest.count v = 0 ↔
      w < n ∧ opens edges s.order w + rest.count w = 0 := by
  have hready := h.ready w
  rw [count_cons_eq] at hready
  by_cases hw : w = v
  · subst hw
    rw [if_pos rfl] at hready
    constructor
    · intro hmem
      rcases hmem with hmem | ⟨-, hz⟩
      · exact absurd (hready.mp hmem).2 (by omega)
      · exact ⟨hv, hz⟩
    · exact fun hz => Or.inr ⟨rfl, hz.2⟩
  · rw [if_neg hw] at hready
    rw [hready]
    exact or_iff_left fun hmem => hw hmem.1

theorem Inv.not_mem (h : Inv n edges (v :: rest) s) : v ∉ s.order ++ s.q := by
  intro hmem
  have hz := ((h.ready v).mp hmem).2
  rw [List.count_cons_self] at hz
  omega

theorem Inv.release (h : Inv n edges (v :: rest) s) (hv : v < n) :
    ∃ s', s.release v = some s' ∧ s'.order = s.order ∧ Inv n edges rest s' := by
  have hrun : s.release v = some { s with
      in_degree := (List.range n).map fun w => ((opens edges s.order w + rest.count w : Nat) : Int)
      q := if opens edges s.order v + rest.count v = 0 then s.q ++ [v] else s.q } := by
    have hiff : some ((opens edges s.order v + rest.count v : Nat) : Int) = some 0 ↔
        opens edges s.order v + rest.count v = 0 := by
      rw [Option.some_inj, Int.natCast_eq_zero]
    simp only [Kahn.release, h.addAt hv, Option.bind_eq_bind, Option.bind_some,
      Vec.getElem?_table (fun w => ((opens edges s.order w + rest.count w : Nat) : Int)) hv, hiff]
  refine ⟨_, hrun, rfl, rfl, h.bound_tail, h.layered, ?_, fun w => ?_⟩
  · by_cases hz : opens edges s.order v + rest.count v = 0
    · rw [if_pos hz, ← List.append_assoc, ← List.concat_eq_append]
      exact h.nodup.concat h.not_mem
    · rw [if_neg hz]
      exact h.nodup
  · rw [← h.ready_cons hv w]
    by_cases hz : opens edges s.order v + rest.count v = 0
    · rw [if_pos hz, ← List.append_assoc, List.mem_append, List.mem_singleton]
      exact or_congr_right (and_iff_left hz).symm
    · rw [if_neg hz]
      exact (or_iff_left fun hw => hz hw.2).symm

theorem Inv.releases {s : Kahn} {rest : List Nat} (h : Inv n edges rest s) (hrest : ∀ v ∈ rest, v < n) :
    ∃ s', rest.foldlM Kahn.release s = some s' ∧ s'.order = s.order ∧ Inv n edges [] s' := by
  induction rest generalizing s with
  | nil => exact ⟨s, rfl, rfl, h⟩
  | cons v rest ih =>
    obtain ⟨s₁, hrun, horder, h₁⟩ := h.release (hrest v List.mem_cons_self)
    obtain ⟨s', hruns, horder', h'⟩ := ih h₁ fun w hw => hrest w (List.mem_cons_of_mem v hw)
    refine ⟨s', ?_, horder'.trans horder, h'⟩
    rw [List.foldlM_cons, hrun]
    exact hruns

/-- A node leaves the queue: the edges out of it are the ones to be taken. -/
theorem Inv.pop {node : Nat} {q : List Nat} (h : Inv n edges [] s) (hq : s.q = node :: q) :
    Inv n edges (successors edges node) { s with q, order := s.order ++ [node] } := by
  have hmove : s.order ++ s.q = s.order ++ [node] ++ q := by
    rw [hq, List.append_assoc, List.singleton_append]
  have hmem : node ∈ s.q := by
    rw [hq]
    exact List.mem_cons_self
  have hnode : node ∉ s.order := fun hord => (List.nodup_append.mp h.nodup).2.2 node hord node hmem rfl
  have hnodup := h.nodup
  rw [hmove] at hnodup
  have hopens : ∀ v, opens edges (s.order ++ [node]) v + (successors edges node).count v =
      opens edges s.order v + ([] : List Nat).count v := fun v => opens_snoc edges hnode v
  have hready := (h.ready node).mp (List.mem_append_right _ hmem)
  refine ⟨?_, fun v => ?_, h.layered.snoc hnode fun b hb => mem_of_opens hready.2 hb, hnodup, fun v => ?_⟩
  · simp only [hopens]
    exact h.degree
  · rw [hopens]
    exact h.bound v
  · rw [hopens, ← hmove]
    exact h.ready v

theorem Inv.init (hdeg : ∀ v, inDegree edges v < 2 ^ 31) : Inv n edges []
    { in_degree := degrees n edges,
      q := (List.range n).filter fun i => (degrees n edges)[i]? = some 0,
      order := [] } := by
  have hcount : ∀ v, opens edges [] v + ([] : List Nat).count v = inDegree edges v := fun v => opens_nil edges v
  refine ⟨?_, fun v => ?_, .nil, List.nodup_range.filter _, fun v => ?_⟩
  · simp only [hcount]
    rfl
  · rw [hcount]
    exact hdeg v
  · rw [hcount, List.nil_append, List.mem_filter, List.mem_range]
    refine and_congr_right fun hv => ?_
    rw [decide_eq_true_iff, degrees, Vec.getElem?_table _ hv, Option.some_inj, Int.natCast_eq_zero]

/-! ## The loop -/

theorem Inv.round {node : Nat} {q : List Nat} (h : Inv n edges [] s) (hedges : ∀ e ∈ edges, e.1 < n ∧ e.2 < n)
    (hq : s.q = node :: q) : ∃ s', kahnRound (adjacency n edges) s = .next s' ∧ Inv n edges [] s' ∧
      n - s'.order.length < n - s.order.length := by
  have hmem : node ∈ s.order ++ s.q := by
    rw [hq]
    exact List.mem_append_right _ List.mem_cons_self
  have hnode := ((h.ready node).mp hmem).1
  have hsucc : ∀ v ∈ successors edges node, v < n := fun v hv => (hedges _ (mem_successors.mp hv)).2
  obtain ⟨s', hrun, horder, h'⟩ := (h.pop hq).releases hsucc
  refine ⟨s', ?_, h', ?_⟩
  · simp only [kahnRound, hq, adjacency, Vec.getElem?_table _ hnode, Option.bind_eq_bind, Option.bind_some, hrun]
    rfl
  · have hle := h.length_le
    rw [hq, List.length_append, List.length_cons] at hle
    rw [horder, List.length_append, List.length_singleton]
    omega

theorem run_spec (hedges : ∀ e ∈ edges, e.1 < n ∧ e.2 < n) (h : Inv n edges [] s) {fuel : Nat} (hfuel : n < fuel) :
    ∃ s', Loop.run (kahnRound (adjacency n edges)) fuel s = some s' ∧ Inv n edges [] s' ∧ s'.q = [] := by
  obtain ⟨s', hrun, h', hexit⟩ := Loop.run_total (kahnRound (adjacency n edges)) (I := Inv n edges [])
    (fun s => n - s.order.length)
    (fun s hs hfault => by
      cases hq : s.q with
      | nil => simp [kahnRound, hq] at hfault
      | cons node q =>
        obtain ⟨s', hround, -⟩ := hs.round hedges hq
        rw [hround] at hfault
        cases hfault)
    (fun s s' hs hnext => by
      cases hq : s.q with
      | nil => simp [kahnRound, hq] at hnext
      | cons node q =>
        obtain ⟨t, hround, ht, hlt⟩ := hs.round hedges hq
        rw [hround] at hnext
        cases hnext
        exact ⟨ht, hlt⟩)
    fuel s h (by omega)
  refine ⟨s', hrun, h', ?_⟩
  cases hq : s'.q with
  | nil => rfl
  | cons node q =>
    obtain ⟨t, hround, -⟩ := h'.round hedges hq
    rw [hround] at hexit
    cases hexit

/-! ## What the order says -/

/-- Nodes that are left each have a predecessor that is left. -/
theorem Inv.complete (h : Inv n edges [] s) (hedges : ∀ e ∈ edges, e.1 < n ∧ e.2 < n) (hq : s.q = [])
    (hacyclic : Acyclic (Edge edges)) (hv : v < n) : v ∈ s.order := by
  by_contra hnot
  have hleft : v ∈ (List.range n).filter (· ∉ s.order) :=
    List.mem_filter.mpr ⟨List.mem_range.mpr hv, decide_eq_true hnot⟩
  obtain ⟨a, ha, hsource⟩ := hacyclic.exists_source (List.ne_nil_of_mem hleft)
  obtain ⟨ha, hout⟩ := List.mem_filter.mp ha
  have hopen : opens edges s.order a ≠ 0 := by
    intro hz
    have hmem := (h.ready a).mpr ⟨List.mem_range.mp ha, hz⟩
    rw [hq, List.append_nil] at hmem
    exact of_decide_eq_true hout hmem
  obtain ⟨u, hu, huout⟩ := exists_of_opens hopen
  exact hsource u (List.mem_filter.mpr ⟨List.mem_range.mpr (hedges _ hu).1, decide_eq_true huout⟩) hu

theorem isTopological_of_layered (hedges : ∀ e ∈ edges, e.1 < n ∧ e.2 < n) (hl : Layered (Edge edges) order)
    (hperm : order.Perm (List.range n)) : IsTopological n edges order := by
  have hmem : ∀ v, v < n → v ∈ order := fun v hv => hperm.mem_iff.mpr (List.mem_range.mpr hv)
  refine ⟨hperm, fun u v huv => ?_⟩
  exact idxOf_lt hl.pairwise (fun a ha => hl.irrefl ha) (hmem u (hedges _ huv).1) (hmem v (hedges _ huv).2) huv

theorem create_graph (n : Nat) (edges : List (Nat × Nat)) (hedges : ∀ e ∈ edges, e.1 < n ∧ e.2 < n)
    (hdeg : ∀ v, inDegree edges v < 2 ^ 31) :
    edges.foldlM addEdge (List.replicate n [], List.replicate n 0) = some (adjacency n edges, degrees n edges) := by
  have hzero : degrees n [] = List.replicate n 0 := by
    rw [degrees, show (fun v => (inDegree [] v : Int)) = fun _ => 0 from rfl, List.map_const', List.length_range]
  rw [← adjacency_nil, ← hzero]
  exact foldlM_addEdge edges hedges hdeg

theorem IsTopological.sorts (h : IsTopological n edges order) : Sorts n edges order :=
  ⟨fun _ => h, fun hcyclic => absurd h.acyclic hcyclic⟩

theorem sorts_nil (h : ¬ Acyclic (Edge edges)) : Sorts n edges [] :=
  ⟨fun hacyclic => absurd hacyclic h, fun _ => rfl⟩

theorem Sorts.nil_iff {order order' : List Nat} (h : Sorts n edges order) (h' : Sorts n edges order') :
    order = [] ↔ order' = [] := by
  by_cases hacyclic : Acyclic (Edge edges)
  · rw [← List.length_eq_zero_iff, ← List.length_eq_zero_iff, (h.sorted hacyclic).perm.length_eq,
      (h'.sorted hacyclic).perm.length_eq]
  · exact iff_of_true (h.detected hacyclic) (h'.detected hacyclic)

theorem topoSortKahn_cases (n : Nat) (hn : n < 2 ^ 31) (edges : List (Nat × Nat))
    (hedges : ∀ e ∈ edges, e.1 < n ∧ e.2 < n) (hdeg : ∀ v, inDegree edges v < 2 ^ 31) (fuel : Nat)
    (hfuel : n < fuel) :
    (∃ order, topoSortKahn fuel n edges = some order ∧ IsTopological n edges order) ∨
      topoSortKahn fuel n edges = some [] ∧ ¬ Acyclic (Edge edges) := by
  obtain ⟨s, hrun, h, hq⟩ := run_spec hedges (Inv.init hdeg) hfuel
  have hle := h.length_le
  rw [hq, List.append_nil] at hle
  have hnodup := h.nodup
  rw [hq, List.append_nil] at hnodup
  have hsub : ∀ v ∈ s.order, v ∈ List.range n := fun v hv =>
    List.mem_range.mpr ((h.ready v).mp (List.mem_append_left _ hv)).1
  have hsize : CInt.ofSize s.order.length = s.order.length := CInt.ofSize_of_lt (by omega)
  have hresult : ∀ o, (if CInt.ofSize s.order.length ≠ n then some [] else some s.order) = some o →
      topoSortKahn fuel n edges = some o := by
    intro o ho
    simp only [topoSortKahn, Vec.create_natCast, Option.bind_eq_bind, Option.bind_some,
      create_graph n edges hedges hdeg, Int.toNat_natCast]
    exact Option.bind_eq_some_iff.mpr ⟨s, hrun, ho⟩
  by_cases hall : s.order.length = n
  · have hperm : s.order.Perm (List.range n) :=
      (List.subperm_of_subset hnodup hsub).perm_of_length_le (by rw [List.length_range, hall])
    refine .inl ⟨s.order, hresult _ (if_neg ?_), isTopological_of_layered hedges h.layered hperm⟩
    rw [hsize, hall]
    exact fun hne => hne rfl
  · refine .inr ⟨hresult _ (if_pos ?_), fun hacyclic => hall ?_⟩
    · rw [hsize]
      omega
    · have hge := (List.subperm_of_subset List.nodup_range
        fun v hv => h.complete hedges hq hacyclic (List.mem_range.mp hv)).length_le
      rw [List.length_range] at hge
      omega

/-- **Kahn's algorithm returns a topological order**, or nothing for a graph with a cycle. -/
theorem topoSortKahn_spec (n : Nat) (hn : n < 2 ^ 31) (edges : List (Nat × Nat))
    (hedges : ∀ e ∈ edges, e.1 < n ∧ e.2 < n) (hdeg : ∀ v, inDegree edges v < 2 ^ 31) (fuel : Nat)
    (hfuel : n < fuel) :
    ∃ order, topoSortKahn fuel n edges = some order ∧ Sorts n edges order := by
  rcases topoSortKahn_cases n hn edges hedges hdeg fuel hfuel with ⟨order, hrun, htop⟩ | ⟨hrun, hcyclic⟩
  · exact ⟨order, hrun, htop.sorts⟩
  · exact ⟨[], hrun, sorts_nil hcyclic⟩

example : topoSortKahn 9 6 [(0, 1), (0, 2), (1, 3), (2, 3), (3, 4), (4, 5)] = some [0, 1, 2, 3, 4, 5] := by decide

theorem topoSortKahn_spec_diamond :
    ∃ order, topoSortKahn 5 (4 : Nat) [(0, 1), (0, 2), (1, 3), (2, 3)] = some order ∧
    Sorts 4 [(0, 1), (0, 2), (1, 3), (2, 3)] order :=
  topoSortKahn_spec 4 (by decide) [(0, 1), (0, 2), (1, 3), (2, 3)] (by decide)
    (fun v => Nat.lt_of_le_of_lt List.countP_le_length (by decide)) 5 (by decide)

theorem addEdge_overflow {e : Nat × Nat} (he : e.1 < n ∧ e.2 < n) (hdeg : 2 ^ 31 ≤ inDegree edges e.2 + 1) :
    addEdge (adjacency n edges, degrees n edges) e = none := by
  have hfit : CInt.fit ((inDegree edges e.2 : Int) + 1) = none := CInt.fit_of_le (by omega)
  have hdegrees : addAt (degrees n edges) e.2 1 = none :=
    addAt_overflow (fun v => (inDegree edges v : Int)) he.2 hfit
  simp only [addEdge, hdegrees, pushEdge_adjacency he.1, Option.bind_eq_bind, Option.bind_some, Option.bind_none]

theorem inDegree_replicate (k v : Nat) : inDegree (List.replicate k (0, v)) v = k := by
  rw [inDegree, List.countP_replicate, if_pos (decide_eq_true rfl)]

theorem topoSortKahn_overflow {e : Nat × Nat} (hedges : ∀ e ∈ edges, e.1 < n ∧ e.2 < n)
    (hdeg : ∀ v, inDegree edges v < 2 ^ 31) (he : e.1 < n ∧ e.2 < n) (hover : 2 ^ 31 ≤ inDegree edges e.2 + 1)
    (fuel : Nat) : topoSortKahn fuel n (edges ++ [e]) = none := by
  have hnone : (edges ++ [e]).foldlM addEdge (List.replicate n [], List.replicate n 0) = none := by
    rw [List.foldlM_append, create_graph n edges hedges hdeg]
    simp only [List.foldlM_cons, addEdge_overflow he hover, Option.bind_eq_bind, Option.bind_some, Option.bind_none]
  simp only [topoSortKahn, Vec.create_natCast, hnone, Option.bind_eq_bind, Option.bind_some, Option.bind_none]

/-- `2 ^ 31` loops at one node overflow its in-degree. -/
theorem topoSortKahn_loops {k : Nat} (hk : k + 1 = 2 ^ 31) (fuel : Nat) :
    topoSortKahn fuel (1 : Nat) (List.replicate (k + 1) (0, 0)) = none := by
  have hsnoc : List.replicate (k + 1) (0, 0) = List.replicate k (0, 0) ++ [((0 : Nat), (0 : Nat))] :=
    List.replicate_succ'
  rw [hsnoc]
  refine topoSortKahn_overflow (fun e he => ?_) (fun v => ?_) ⟨Nat.one_pos, Nat.one_pos⟩ ?_ fuel
  · rw [List.eq_of_mem_replicate he]
    exact ⟨Nat.one_pos, Nat.one_pos⟩
  · have hle : inDegree (List.replicate k (0, 0)) v ≤ _ := List.countP_le_length
    rw [List.length_replicate] at hle
    omega
  · rw [inDegree_replicate]
    omega

theorem topoSortKahn_dense : ¬ ∀ (n : Nat) (edges : List (Nat × Nat)), n < 2 ^ 31 →
    (∀ e ∈ edges, e.1 < n ∧ e.2 < n) → ∃ fuel order, topoSortKahn fuel n edges = some order ∧
    Sorts n edges order := by
  intro h
  obtain ⟨k, hk⟩ : ∃ k : Nat, k + 1 = 2 ^ 31 := ⟨2 ^ 31 - 1, by decide⟩
  obtain ⟨fuel, order, hrun, -⟩ := h 1 (List.replicate (k + 1) (0, 0)) (by decide) fun e he => by
    rw [List.eq_of_mem_replicate he]
    exact ⟨Nat.one_pos, Nat.one_pos⟩
  rw [topoSortKahn_loops hk fuel] at hrun
  cases hrun

end Playground.TopologicalSort
