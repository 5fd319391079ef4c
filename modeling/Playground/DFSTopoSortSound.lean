import Playground.KahnSound

/-!
# The depth-first sort sorts, or finds a cycle

The nodes being visited lead to the current one, so an edge to one of them
closes a cycle. Until one is found, a node is finished after its successors,
and the order reversed is topological.
-/

namespace Playground.TopologicalSort

open Digraph Relation

namespace DFSTopoSort

variable {n : Nat} {edges : List (Nat × Nat)} {s s' s'' : DFSTopoSort} {node : Nat}

structure Inv (n : Nat) (edges : List (Nat × Nat)) (s : DFSTopoSort) : Prop where
  adj : s.adj_ = adjacency n edges
  length : s.state_.length = n
  cyclic : s.has_cycle_ = true → ¬ Acyclic (Edge edges)
  layered : s.has_cycle_ = false → Layered (Function.swap (Edge edges)) s.order_
  visited : s.has_cycle_ = false → ∀ u : Nat, s.state_[u]? = some .visited ↔ u ∈ s.order_

/-- What a call does to the states; after a cycle is found they say nothing any more. -/
structure Leaves (s s' : DFSTopoSort) : Prop where
  unvisited : s'.state_.count .unvisited ≤ s.state_.count .unvisited
  stopped : s'.has_cycle_ = false → s.has_cycle_ = false
  visiting : s'.has_cycle_ = false → ∀ u : Nat, s'.state_[u]? = some .visiting ↔ s.state_[u]? = some .visiting
  visited : s'.has_cycle_ = false → ∀ u : Nat, s.state_[u]? = some .visited → s'.state_[u]? = some .visited

theorem Leaves.refl (s : DFSTopoSort) : Leaves s s := ⟨Nat.le_refl _, id, fun _ _ => Iff.rfl, fun _ _ => id⟩

theorem Leaves.trans (h : Leaves s s') (h' : Leaves s' s'') : Leaves s s'' :=
  ⟨Nat.le_trans h'.unvisited h.unvisited, fun hc => h.stopped (h'.stopped hc),
    fun hc u => (h'.visiting hc u).trans (h.visiting (h'.stopped hc) u),
    fun hc u hu => h'.visited hc u (h.visited (h'.stopped hc) u hu)⟩

/-- What is asked of the calls that `fuel` allows: they finish their node, or there is a cycle. -/
def Visits (n : Nat) (edges : List (Nat × Nat)) (fuel : Nat) : Prop :=
  ∀ s node, Inv n edges s → s.state_[node]? = some .unvisited → s.state_.count .unvisited ≤ fuel →
    (s.has_cycle_ = false → ∀ u : Nat, s.state_[u]? = some .visiting → TransGen (Edge edges) u node) →
    ∃ s', dfs fuel s node = some s' ∧ Inv n edges s' ∧ Leaves s s' ∧
      (s'.has_cycle_ = false → s'.state_[node]? = some .visited)

theorem Inv.back (h : Inv n edges s) {w : Nat} (hw : Edge edges node w) (hstate : s.state_[w]? = some .visiting)
    (hpath : s.has_cycle_ = false → ∀ u : Nat, s.state_[u]? = some .visiting → ReflTransGen (Edge edges) u node) :
    Inv n edges { s with has_cycle_ := true } := by
  refine ⟨h.adj, h.length, fun _ hacyclic => ?_, fun hc => (by cases hc), fun hc => (by cases hc)⟩
  cases hc : s.has_cycle_ with
  | true => exact h.cyclic hc hacyclic
  | false => exact hacyclic w (.tail' (hpath hc w hstate) hw)

theorem Leaves.back (s : DFSTopoSort) : Leaves s { s with has_cycle_ := true } :=
  ⟨Nat.le_refl _, fun hc => (by cases hc), fun hc => (by cases hc), fun hc => (by cases hc)⟩

theorem neighbors_spec {fuel : Nat} (hfuel : Visits n edges fuel) (hedges : ∀ e ∈ edges, e.1 < n ∧ e.2 < n)
    (rest : List Nat) (hrest : ∀ w ∈ rest, Edge edges node w) (s : DFSTopoSort) (h : Inv n edges s)
    (hcount : s.state_.count .unvisited ≤ fuel)
    (hpath : s.has_cycle_ = false → ∀ u : Nat, s.state_[u]? = some .visiting → ReflTransGen (Edge edges) u node) :
    ∃ s' returned, neighbors (dfs fuel) rest s = some (s', returned) ∧ Inv n edges s' ∧ Leaves s s' ∧
      (returned = true → s'.has_cycle_ = true) ∧
      (s'.has_cycle_ = false → ∀ w ∈ rest, s'.state_[w]? = some .visited) := by
  induction rest generalizing s with
  | nil => exact ⟨s, false, rfl, h, .refl s, fun hr => (by cases hr), fun _ w hw => (by cases hw)⟩
  | cons w rest ih =>
    have hw := hrest w List.mem_cons_self
    have hrest' : ∀ v ∈ rest, Edge edges node v := fun v hv => hrest v (List.mem_cons_of_mem w hv)
    have hlt : w < s.state_.length := by
      rw [h.length]
      exact (hedges _ hw).2
    cases hstate : s.state_[w] with
    | visiting =>
      have hget : s.state_[w]? = some .visiting := hstate ▸ List.getElem?_eq_getElem hlt
      refine ⟨{ s with has_cycle_ := true }, true, ?_, h.back hw hget hpath, .back s, fun _ => rfl,
        fun hc => by cases hc⟩
      simp only [neighbors, hget, Option.bind_eq_bind, Option.bind_some]
    | unvisited =>
      have hget : s.state_[w]? = some .unvisited := hstate ▸ List.getElem?_eq_getElem hlt
      obtain ⟨s₁, hrun, h₁, hleaves, hdone⟩ := hfuel s w h hget hcount fun hc u hu => .tail' (hpath hc u hu) hw
      obtain ⟨s', returned, hruns, h', hleaves', hreturned, hall⟩ := ih hrest' s₁ h₁
        (Nat.le_trans hleaves.unvisited hcount)
        fun hc u hu => hpath (hleaves.stopped hc) u ((hleaves.visiting hc u).mp hu)
      refine ⟨s', returned, ?_, h', hleaves.trans hleaves', hreturned, fun hc v hv => ?_⟩
      · simp only [neighbors, hget, hrun, Option.bind_eq_bind, Option.bind_some]
        exact hruns
      · rcases List.mem_cons.mp hv with rfl | hv
        · exact hleaves'.visited hc v (hdone (hleaves'.stopped hc))
        · exact hall hc v hv
    | visited =>
      have hget : s.state_[w]? = some .visited := hstate ▸ List.getElem?_eq_getElem hlt
      obtain ⟨s', returned, hruns, h', hleaves', hreturned, hall⟩ := ih hrest' s h hcount hpath
      refine ⟨s', returned, ?_, h', hleaves', hreturned, fun hc v hv => ?_⟩
      · simp only [neighbors, hget, Option.bind_eq_bind, Option.bind_some]
        exact hruns
      · rcases List.mem_cons.mp hv with rfl | hv
        · exact hleaves'.visited hc v hget
        · exact hall hc v hv

/-! ## One node -/

theorem count_mark {l : List State} {i : Nat} (h : l[i]? = some .unvisited) :
    (l.set i .visiting).count .unvisited + 1 = l.count .unvisited := by
  obtain ⟨hlt, hget⟩ := List.getElem?_eq_some_iff.mp h
  have hpos : 0 < l.count .unvisited := List.count_pos_iff.mpr (List.mem_of_getElem? h)
  rw [List.count_set hlt, hget]
  simp
  omega

theorem count_finish {l : List State} {i : Nat} (h : i < l.length) :
    (l.set i .visited).count .unvisited ≤ l.count .unvisited := by
  rw [List.count_set h]
  simp

theorem getElem?_set_iff {l : List State} {i u : Nat} {x y : State} (h : i < l.length) (hne : x ≠ y) :
    (l.set i x)[u]? = some y ↔ u ≠ i ∧ l[u]? = some y := by
  by_cases hu : u = i
  · subst hu
    rw [List.getElem?_set_self h, Option.some_inj]
    exact iff_of_false hne fun hu => hu.1 rfl
  · rw [List.getElem?_set_ne (Ne.symm hu)]
    exact (and_iff_right hu).symm

theorem getElem?_set_iff_self {l : List State} {i u : Nat} {x : State} (h : i < l.length) :
    (l.set i x)[u]? = some x ↔ u = i ∨ l[u]? = some x := by
  by_cases hu : u = i
  · subst hu
    rw [List.getElem?_set_self h]
    exact iff_of_true rfl (.inl rfl)
  · rw [List.getElem?_set_ne (Ne.symm hu)]
    exact (or_iff_right hu).symm

theorem ne_of_state {l : List State} {i u : Nat} {x y : State} (hi : l[i]? = some x) (hu : l[u]? = some y)
    (hne : x ≠ y) : u ≠ i := by
  intro heq
  rw [heq, hi] at hu
  exact hne (Option.some_inj.mp hu)

theorem Inv.enter (h : Inv n edges s) (hstate : s.state_[node]? = some .unvisited) :
    Inv n edges { s with state_ := s.state_.set node .visiting } := by
  have hlt := (List.getElem?_eq_some_iff.mp hstate).1
  refine ⟨h.adj, List.length_set.trans h.length, h.cyclic, h.layered, fun hc u => ?_⟩
  rw [← h.visited hc u, getElem?_set_iff hlt (by decide)]
  exact and_iff_right_of_imp fun hu => ne_of_state hstate hu (by decide)

theorem Inv.finish (h : Inv n edges s) (hlt : node < n)
    (hstate : s.has_cycle_ = false → s.state_[node]? = some .visiting)
    (hall : s.has_cycle_ = false → ∀ w ∈ successors edges node, s.state_[w]? = some .visited) :
    Inv n edges { s with state_ := s.state_.set node .visited, order_ := s.order_ ++ [node] } := by
  have hlt' : node < s.state_.length := by rw [h.length]; exact hlt
  refine ⟨h.adj, List.length_set.trans h.length, h.cyclic, fun hc => ?_, fun hc u => ?_⟩
  · refine (h.layered hc).snoc (fun hmem => ?_) fun w hw => (h.visited hc w).mp (hall hc w (mem_successors.mpr hw))
    have hvisited := (h.visited hc node).mpr hmem
    rw [hstate hc] at hvisited
    cases hvisited
  · rw [getElem?_set_iff_self hlt', List.mem_append, List.mem_singleton, ← h.visited hc u]
    exact or_comm

theorem dfs_eq {fuel : Nat} {returned : Bool} (h : Inv n edges s) (hc : s.has_cycle_ = false) (hnode : node < n)
    (hrun : neighbors (dfs fuel) (successors edges node) { s with state_ := s.state_.set node .visiting } =
      some (s', returned)) :
    dfs (fuel + 1) s node = if returned then some s' else (do
      let state_ ← Vec.write s'.state_ node .visited
      some { s' with state_, order_ := s'.order_ ++ [node] }) := by
  have hlt : node < s.state_.length := by rw [h.length]; exact hnode
  have hadj : s.adj_[node]? = some (successors edges node) := by
    rw [h.adj]
    exact Vec.getElem?_table _ hnode
  have hgo : ¬ s.has_cycle_ = true := by simp [hc]
  simp only [dfs, if_neg hgo, Vec.write_of hlt, hadj, hrun, Option.bind_eq_bind, Option.bind_some]

theorem Leaves.count_le (hstate : s.state_[node]? = some .unvisited)
    (h : Leaves { s with state_ := s.state_.set node .visiting } s') :
    s'.state_.count .unvisited ≤ s.state_.count .unvisited := by
  have hle : s'.state_.count .unvisited ≤ (s.state_.set node .visiting).count .unvisited := h.unvisited
  have hmark := count_mark hstate
  omega

theorem Leaves.finish (hstate : s.state_[node]? = some .unvisited) (hc : s.has_cycle_ = false)
    (hlt' : node < s'.state_.length) (h : Leaves { s with state_ := s.state_.set node .visiting } s') :
    Leaves s { s' with state_ := s'.state_.set node .visited, order_ := s'.order_ ++ [node] } := by
  have hlt := (List.getElem?_eq_some_iff.mp hstate).1
  refine ⟨Nat.le_trans (count_finish hlt') (h.count_le hstate), fun _ => hc, fun hc' u => ?_, fun hc' u hu => ?_⟩
  · rw [getElem?_set_iff hlt' (by decide), h.visiting hc' u, getElem?_set_iff_self hlt]
    constructor
    · intro hu
      exact hu.2.resolve_left hu.1
    · intro hu
      exact ⟨ne_of_state hstate hu (by decide), .inr hu⟩
  · have hmarked := (getElem?_set_iff (x := .visiting) hlt (by decide)).mpr ⟨ne_of_state hstate hu (by decide), hu⟩
    exact (getElem?_set_iff_self hlt').mpr (.inr (h.visited hc' u hmarked))

theorem dfs_spec (hedges : ∀ e ∈ edges, e.1 < n ∧ e.2 < n) (fuel : Nat) : Visits n edges fuel := by
  induction fuel with
  | zero =>
    intro s node _ hstate hcount _
    have hpos : 0 < s.state_.count .unvisited := List.count_pos_iff.mpr (List.mem_of_getElem? hstate)
    omega
  | succ fuel ih =>
    intro s node h hstate hcount hpath
    cases hc : s.has_cycle_ with
    | true =>
      refine ⟨s, ?_, h, .refl s, fun hc' => ?_⟩
      · rw [dfs, hc]
        rfl
      · rw [hc] at hc'
        cases hc'
    | false =>
      have hlt := (List.getElem?_eq_some_iff.mp hstate).1
      have hnode : node < n := by rw [← h.length]; exact hlt
      have hmark := count_mark hstate
      have hcount' : (s.state_.set node .visiting).count .unvisited ≤ fuel := by omega
      obtain ⟨s₂, returned, hrun, h₂, hleaves, hreturned, hall⟩ := neighbors_spec ih hedges (successors edges node)
        (fun w hw => mem_successors.mp hw) { s with state_ := s.state_.set node .visiting } (h.enter hstate) hcount'
        fun _ u hu => by
          rcases (getElem?_set_iff_self hlt).mp hu with rfl | hu
          · exact .refl
          · exact (hpath hc u hu).to_reflTransGen
      have hcalls := dfs_eq h hc hnode hrun
      cases returned with
      | true =>
        -- The early return leaves the node as it is, but the flag is set.
        have hfound := hreturned rfl
        refine ⟨s₂, hcalls, h₂, ⟨hleaves.count_le hstate, ?_, ?_, ?_⟩, ?_⟩ <;>
        · intro hc'
          rw [hfound] at hc'
          cases hc'
      | false =>
        have hlt₂ : node < s₂.state_.length := by rw [h₂.length]; exact hnode
        have hvisiting : s₂.has_cycle_ = false → s₂.state_[node]? = some .visiting := fun hc' =>
          (hleaves.visiting hc' node).mpr ((getElem?_set_iff_self hlt).mpr (.inl rfl))
        exact ⟨_, hcalls.trans (by rw [if_neg Bool.false_ne_true, Vec.write_of hlt₂]; rfl),
          h₂.finish hnode hvisiting hall, hleaves.finish hstate hc hlt₂, fun _ => List.getElem?_set_self hlt₂⟩

/-! ## All nodes -/

theorem visitRoot_spec (hedges : ∀ e ∈ edges, e.1 < n ∧ e.2 < n) (h : Inv n edges s) {fuel i : Nat} (hi : i < n)
    (hcount : s.state_.count .unvisited ≤ fuel)
    (hidle : s.has_cycle_ = false → ∀ u : Nat, s.state_[u]? ≠ some .visiting) :
    ∃ s', visitRoot fuel s i = some s' ∧ Inv n edges s' ∧ Leaves s s' ∧
      (s'.has_cycle_ = false → s'.state_[i]? = some .visited) := by
  have hlt : i < s.state_.length := by rw [h.length]; exact hi
  have hget : s.state_[i]? = some s.state_[i] := List.getElem?_eq_getElem hlt
  by_cases hstate : s.state_[i] = .unvisited
  · rw [hstate] at hget
    obtain ⟨s', hrun, h', hleaves, hdone⟩ := dfs_spec hedges fuel s i h hget hcount
      fun hc u hu => absurd hu (hidle hc u)
    refine ⟨s', ?_, h', hleaves, hdone⟩
    simp only [visitRoot, hget, Option.bind_eq_bind, Option.bind_some, if_true, hrun]
  · refine ⟨s, ?_, h, .refl s, fun hc => ?_⟩
    · simp only [visitRoot, hget, Option.bind_eq_bind, Option.bind_some, if_neg hstate]
    · cases hx : s.state_[i] with
      | unvisited => exact absurd hx hstate
      | visiting =>
        rw [hx] at hget
        exact absurd hget (hidle hc i)
      | visited => rw [hget, hx]

theorem roots_spec (hedges : ∀ e ∈ edges, e.1 < n ∧ e.2 < n) {fuel : Nat} (is : List Nat) (his : ∀ i ∈ is, i < n)
    (s : DFSTopoSort) (h : Inv n edges s) (hcount : s.state_.count .unvisited ≤ fuel)
    (hidle : s.has_cycle_ = false → ∀ u : Nat, s.state_[u]? ≠ some .visiting) :
    ∃ s', is.foldlM (visitRoot fuel) s = some s' ∧ Inv n edges s' ∧ Leaves s s' ∧
      (s'.has_cycle_ = false → ∀ i ∈ is, s'.state_[i]? = some .visited) := by
  induction is generalizing s with
  | nil => exact ⟨s, rfl, h, .refl s, fun _ i hi => (by cases hi)⟩
  | cons i is ih =>
    obtain ⟨s₁, hrun, h₁, hleaves, hdone⟩ := visitRoot_spec hedges h (his i List.mem_cons_self) hcount hidle
    obtain ⟨s', hruns, h', hleaves', hall⟩ := ih (fun j hj => his j (List.mem_cons_of_mem i hj)) s₁ h₁
      (Nat.le_trans hleaves.unvisited hcount)
      fun hc u hu => hidle (hleaves.stopped hc) u ((hleaves.visiting hc u).mp hu)
    refine ⟨s', ?_, h', hleaves.trans hleaves', fun hc j hj => ?_⟩
    · rw [List.foldlM_cons, hrun]
      exact hruns
    · rcases List.mem_cons.mp hj with rfl | hj
      · exact hleaves'.visited hc j (hdone (hleaves'.stopped hc))
      · exact hall hc j hj

theorem Inv.init (n : Nat) (edges : List (Nat × Nat)) : Inv n edges
    { adj_ := adjacency n edges, state_ := List.replicate n .unvisited, order_ := [], has_cycle_ := false } := by
  refine ⟨rfl, List.length_replicate, fun hc => (by cases hc), fun _ => .nil, fun _ u => ?_⟩
  refine iff_of_false (fun hu => ?_) List.not_mem_nil
  cases List.eq_of_mem_replicate (List.mem_of_getElem? hu)

/-- The finished nodes in reverse are a topological order when they are all the nodes. -/
theorem Inv.isTopological (h : Inv n edges s) (hedges : ∀ e ∈ edges, e.1 < n ∧ e.2 < n) (hc : s.has_cycle_ = false)
    (hall : ∀ i, i < n → s.state_[i]? = some .visited) : IsTopological n edges s.order_.reverse := by
  have hl := h.layered hc
  have hmem : ∀ u, u ∈ s.order_.reverse ↔ u < n := by
    intro u
    rw [List.mem_reverse, ← h.visited hc u]
    constructor
    · intro hu
      have hlt := (List.getElem?_eq_some_iff.mp hu).1
      rwa [h.length] at hlt
    · exact hall u
  have hpair : s.order_.reverse.Pairwise fun a b => ¬ Edge edges b a := List.pairwise_reverse.mpr hl.pairwise
  refine ⟨?_, fun u v huv => ?_⟩
  · refine (List.perm_ext_iff_of_nodup (List.nodup_reverse.mpr hl.nodup) List.nodup_range).mpr fun u => ?_
    rw [hmem, List.mem_range]
  · exact idxOf_lt hpair (fun a ha => hl.irrefl (List.mem_reverse.mp ha)) ((hmem u).mpr (hedges _ huv).1)
      ((hmem v).mpr (hedges _ huv).2) huv

theorem sort_cases (n : Nat) (edges : List (Nat × Nat)) (hedges : ∀ e ∈ edges, e.1 < n ∧ e.2 < n)
    (s : DFSTopoSort) (fuel : Nat) (hfuel : n ≤ fuel) :
    ∃ order s', s.sort fuel n edges = some (order, s') ∧
      (IsTopological n edges order ∨ order = [] ∧ ¬ Acyclic (Edge edges)) := by
  have hadj : edges.foldlM pushEdge (List.replicate n []) = some (adjacency n edges) := by
    rw [← adjacency_nil]
    exact foldlM_pushEdge edges fun e he => (hedges e he).1
  have hcount : (List.replicate n State.unvisited).count .unvisited ≤ fuel := by
    rw [List.count_replicate_self]
    exact hfuel
  obtain ⟨s', hrun, h', -, hall⟩ := roots_spec hedges (List.range n) (fun i hi => List.mem_range.mp hi) _
    (Inv.init n edges) hcount fun _ u hu => by
      cases List.eq_of_mem_replicate (List.mem_of_getElem? hu)
  have hsort : s.sort fuel n edges = if s'.has_cycle_ then some ([], s')
      else some (s'.order_.reverse, { s' with order_ := s'.order_.reverse }) := by
    simp only [sort, Vec.create_natCast, hadj, hrun, Int.toNat_natCast, Option.bind_eq_bind, Option.bind_some]
  cases hc : s'.has_cycle_ with
  | true =>
    exact ⟨[], s', by rw [hsort, hc]; rfl, .inr ⟨rfl, h'.cyclic hc⟩⟩
  | false =>
    exact ⟨_, _, by rw [hsort, hc]; rfl,
      .inl (h'.isTopological hedges hc fun i hi => hall hc i (List.mem_range.mpr hi))⟩

/-- **The depth-first sort returns a topological order**, or nothing for a graph with a cycle, whatever its object
has sorted before; on the graphs whose in-degrees Kahn's algorithm can count the two agree on which. -/
theorem sort_spec (n : Nat) (hn : n < 2 ^ 31) (edges : List (Nat × Nat)) (hedges : ∀ e ∈ edges, e.1 < n ∧ e.2 < n)
    (s : DFSTopoSort) (fuel : Nat) (hfuel : n < fuel) :
    ∃ order s', s.sort fuel n edges = some (order, s') ∧ Sorts n edges order ∧
      ((∀ v, inDegree edges v < 2 ^ 31) → (order = [] ↔ topoSortKahn fuel n edges = some [])) := by
  obtain ⟨order, s', hrun, hcases⟩ := sort_cases n edges hedges s fuel (Nat.le_of_lt hfuel)
  have hsorts : Sorts n edges order := by
    rcases hcases with htop | ⟨rfl, hcyclic⟩
    · exact htop.sorts
    · exact sorts_nil hcyclic
  refine ⟨order, s', hrun, hsorts, fun hdeg => ?_⟩
  rcases topoSortKahn_cases n hn edges hedges hdeg fuel hfuel with ⟨kahn, hkahn, htop⟩ | ⟨hkahn, hcyclic⟩
  · rw [hkahn, Option.some_inj]
    exact hsorts.nil_iff htop.sorts
  · exact iff_of_true (hsorts.detected hcyclic) hkahn

theorem sort_spec_triangle :
    ∃ order s', sort 4 ⟨[[0]], [.visiting], [0], true⟩ (3 : Nat) [(0, 1), (1, 2), (2, 0)] = some (order, s') ∧
      Sorts 3 [(0, 1), (1, 2), (2, 0)] order ∧
      ((∀ v, inDegree [(0, 1), (1, 2), (2, 0)] v < 2 ^ 31) →
        (order = [] ↔ topoSortKahn 4 (3 : Nat) [(0, 1), (1, 2), (2, 0)] = some [])) :=
  sort_spec 3 (by decide) [(0, 1), (1, 2), (2, 0)] (by decide) ⟨[[0]], [.visiting], [0], true⟩ 4 (by decide)

/-- Where Kahn's algorithm has no result, the depth-first sort has one. -/
theorem sort_dense : ¬ ∀ (n : Nat) (edges : List (Nat × Nat)) (s : DFSTopoSort), n < 2 ^ 31 →
    (∀ e ∈ edges, e.1 < n ∧ e.2 < n) → ∃ fuel order s', s.sort fuel n edges = some (order, s') ∧
      Sorts n edges order ∧ (order = [] ↔ topoSortKahn fuel n edges = some []) := by
  intro h
  obtain ⟨k, hk⟩ : ∃ k : Nat, k + 1 = 2 ^ 31 := ⟨2 ^ 31 - 1, by decide⟩
  have hloop : Edge (List.replicate (k + 1) (0, 0)) 0 0 := List.mem_replicate.mpr ⟨Nat.succ_ne_zero k, rfl⟩
  obtain ⟨fuel, order, s', -, hsorts, hiff⟩ := h 1 (List.replicate (k + 1) (0, 0)) ⟨[], [], [], false⟩ (by decide)
    fun e he => by
      rw [List.eq_of_mem_replicate he]
      exact ⟨Nat.one_pos, Nat.one_pos⟩
  have hkahn := hiff.mp (hsorts.detected fun hacyclic => hacyclic 0 (.single hloop))
  rw [topoSortKahn_loops hk fuel] at hkahn
  cases hkahn

end DFSTopoSort

end Playground.TopologicalSort
