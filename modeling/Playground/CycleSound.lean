import Mathlib.Data.Fintype.Pigeonhole
import Mathlib.SetTheory.Cardinal.Finite
import Playground.Lib.Orbit
import Playground.TwoPointers

/-!
# The tortoise and the hare find where a list becomes a cycle

The walk along the list is the orbit of its head, where null stays null. The
fast pointer is at twice the index of the slow one; they meet at an index that
is a period, and the nodes that are visited again are the ones it takes to
themselves.
-/

namespace Playground.TwoPointers

open Function

variable {Node : Type} {next : Node → Option Node} {head : Option Node} {i j k n : Nat} {u v : Node}

/-! ## The walk as an orbit -/

theorem walk_eq (i : Nat) : walk next head i = (Option.bind · next)^[i] head := by
  induction i with
  | zero => rfl
  | succ i ih => rw [iterate_succ_apply', ← ih, walk]

theorem walk_add (i j : Nat) : walk next head (j + i) = (Option.bind · next)^[j] (walk next head i) := by
  rw [walk_eq, iterate_add_apply, walk_eq]

theorem walk_none (h : walk next head i = none) (hle : i ≤ j) : walk next head j = none := by
  induction j, hle using Nat.le_induction with
  | base => exact h
  | succ j _ ih => simp [walk, ih]

theorem visitedAgain_iff : VisitedAgain next head i v ↔
    walk next head i = some v ∧ walk next head i ∈ periodicPts (Option.bind · next) := by
  rw [VisitedAgain, and_congr_right_iff]
  intro h
  rw [← h, walk_eq i, Orbit.mem_periodicPts_iff]
  simp [walk_eq]

theorem VisitedAgain.ne_none (h : VisitedAgain next head i v) (k : Nat) : walk next head k ≠ none := by
  intro hk
  obtain ⟨hv, p, hp, hperiod⟩ := visitedAgain_iff.mp h
  have hback : walk next head (k * p + i) = some v := by
    rw [walk_add, hperiod.const_mul k, hv]
  have hle : k ≤ k * p + i := Nat.le_trans (Nat.le_mul_of_pos_right k hp) (Nat.le_add_right _ _)
  rw [walk_none hk hle] at hback
  cases hback

/-! ## The chase -/

/-- Where the chase ends: the pointers have met, or the fast one is at the end. -/
def Caught (next : Node → Option Node) (head : Option Node) (n : Nat) : Prop :=
  (0 < n ∧ walk next head n = walk next head (n + n)) ∨ walk next head (n + n + 1) = none

theorem exists_caught [Finite Node] (next : Node → Option Node) (head : Option Node) :
    ∃ n ≤ Nat.card Node + 1, Caught next head n := by
  have := Fintype.ofFinite Node
  have hcard : Fintype.card (Option Node) < Fintype.card (Fin (Nat.card Node + 2)) := by
    simp [Nat.card_eq_fintype_card]
  obtain ⟨a, b, hne, heq⟩ :=
    Fintype.exists_ne_map_eq_of_card_lt (fun i : Fin (Nat.card Node + 2) => walk next head i) hcard
  obtain ⟨i, j, hlt, hj, hij⟩ : ∃ i j, i < j ∧ j ≤ Nat.card Node + 1 ∧ walk next head i = walk next head j := by
    rcases Nat.lt_or_gt_of_ne (Fin.val_ne_of_ne hne) with hlt | hlt
    · exact ⟨a, b, hlt, Nat.le_of_lt_succ b.isLt, heq⟩
    · exact ⟨b, a, hlt, Nat.le_of_lt_succ a.isLt, heq.symm⟩
  rw [walk_eq, walk_eq] at hij
  obtain ⟨n, hn, hle, hmeet⟩ := Orbit.exists_meeting hlt hij
  rw [← walk_eq, ← walk_eq] at hmeet
  exact ⟨n, Nat.le_trans hle hj, .inl ⟨hn, hmeet⟩⟩

theorem met_iff (h : Caught next head n) (hmin : ∀ k < n, ¬ Caught next head k) :
    (0 < n ∧ walk next head n = walk next head (n + n)) ↔ ∃ i v, VisitedAgain next head i v := by
  constructor
  · rintro ⟨hn, hmeet⟩
    have hbefore := hmin (n - 1) (by omega)
    have hnode : walk next head n ≠ none := fun hnone => hbefore (.inr (walk_none hnone (by omega)))
    obtain ⟨v, hv⟩ := Option.ne_none_iff_exists'.mp hnode
    exact ⟨n, v, hv, n + n, by omega, hmeet.symm.trans hv⟩
  · rintro ⟨i, v, hv⟩
    exact h.resolve_right (hv.ne_none _)

section
variable [DecidableEq Node]

/-- The pointers after `n` rounds. -/
def chased (next : Node → Option Node) (head : Option Node) (n : Nat) : Pointers Node where
  slow := walk next head n
  fast := walk next head (n + n)
  met := 0 < n ∧ walk next head n = walk next head (n + n)

theorem chase_exit (h : Caught next head n) : chaseBody next (chased next head n) = .exit := by
  by_cases hmet : 0 < n ∧ walk next head n = walk next head (n + n)
  · simp [chaseBody, chased, hmet]
  · have hend : (walk next head (n + n)).bind next = none := h.resolve_left hmet
    simp [chaseBody, chased, hmet, hend]

theorem chase_next (h : ¬ Caught next head n) :
    chaseBody next (chased next head n) = .next (chased next head (n + 1)) := by
  obtain ⟨hmet, hend⟩ := not_or.mp h
  obtain ⟨w, hw⟩ := Option.ne_none_iff_exists'.mp hend
  obtain ⟨v, hv⟩ : ∃ v, walk next head n = some v := by
    apply Option.ne_none_iff_exists'.mp
    exact fun hnone => hend (walk_none hnone (by omega))
  have hslow : walk next head (n + 1) = next v := by simp [walk, hv]
  have hfast : walk next head (n + 1 + (n + 1)) = next w := by
    have hsum : n + 1 + (n + 1) = n + n + 1 + 1 := by omega
    rw [hsum, walk, hw]
    rfl
  have hahead : (walk next head (n + n)).bind next = some w := hw
  rw [hv] at hmet
  simp [chaseBody, chased, hmet, hahead, hv, hslow, hfast, Loop.Outcome.ofOption]

theorem chase_run [Finite Node] (next : Node → Option Node) (head : Option Node) :
    ∃ n ≤ Nat.card Node + 1, Caught next head n ∧ (∀ k < n, ¬ Caught next head k) ∧ ∀ fuel > Nat.card Node + 1,
      Loop.run (chaseBody next) fuel { slow := head, fast := head } = some (chased next head n) := by
  obtain ⟨m, hm, hcaught⟩ := exists_caught next head
  obtain ⟨n, hn, hfirst, hmin, hrun⟩ := Loop.run_first (fun k => chase_next) (fun k => chase_exit) hcaught
  exact ⟨n, Nat.le_trans hn hm, hfirst, hmin, fun fuel hfuel => hrun fuel (by omega)⟩

/-! ## The second chase -/

theorem meet_run (hmeet : walk next head n = walk next head (n + n)) (hn : 0 < n)
    (hnode : ∀ k, walk next head k ≠ none) : ∃ v, FirstVisitedAgain next head v ∧ ∀ fuel > n,
      Loop.run (meetBody next) fuel (head, walk next head (n + n)) = some (some v, some v) := by
  have hperiodic : ∀ k, walk next head k = walk next head (n + k) ↔ ∃ v, VisitedAgain next head k v := by
    intro k
    have hmeet' := hmeet
    rw [walk_eq, walk_eq] at hmeet'
    rw [walk_eq, walk_eq, Orbit.meets_iff hmeet' hn, ← walk_eq]
    constructor
    · intro h
      obtain ⟨v, hv⟩ := Option.ne_none_iff_exists'.mp (hnode k)
      exact ⟨v, visitedAgain_iff.mpr ⟨hv, h⟩⟩
    · rintro ⟨v, hv⟩
      exact (visitedAgain_iff.mp hv).2
  have hnext : ∀ k, ¬ walk next head k = walk next head (n + k) →
      meetBody next (walk next head k, walk next head (n + k)) =
        .next (walk next head (k + 1), walk next head (n + (k + 1))) := by
    intro k hk
    obtain ⟨v, hv⟩ := Option.ne_none_iff_exists'.mp (hnode k)
    obtain ⟨w, hw⟩ := Option.ne_none_iff_exists'.mp (hnode (n + k))
    rw [hv, hw] at hk
    simp [meetBody, walk, hv, hw, hk, Loop.Outcome.ofOption]
  obtain ⟨k, hk, hfirst, hmin, hrun⟩ := Loop.run_first hnext (fun k hk => if_neg (not_not.mpr hk)) hmeet
  obtain ⟨v, hv⟩ := (hperiodic k).mp hfirst
  refine ⟨v, ⟨k, hv, fun j hj u hu => hmin j hj ((hperiodic j).mpr ⟨u, hu⟩)⟩, ?_⟩
  intro fuel hfuel
  have := hrun fuel hfuel
  rw [← hfirst, hv.1] at this
  rwa [← hmeet]

/-! ## Both functions -/

omit [DecidableEq Node] in
theorem FirstVisitedAgain.unique (hu : FirstVisitedAgain next head u) (hv : FirstVisitedAgain next head v) :
    u = v := by
  obtain ⟨i, hi, hmin⟩ := hu
  obtain ⟨j, hj, hmin'⟩ := hv
  have hij : i = j := by
    apply Nat.le_antisymm
    · exact Nat.le_of_not_lt fun hlt => hmin j hlt v hj
    · exact Nat.le_of_not_lt fun hlt => hmin' i hlt u hi
  subst hij
  exact Option.some_inj.mp (hi.1.symm.trans hj.1)

/-- **`hasCycle` and `findCycleStart` end, without going on from a null pointer, and find the first node that is
visited again.** -/
theorem cycle_found [Finite Node] (next : Node → Option Node) (head : Option Node) (fuel : Nat)
    (hfuel : Nat.card Node + 1 < fuel) : ∃ cyclic start, hasCycle next fuel head = some cyclic ∧
      findCycleStart next fuel head = some start ∧ (cyclic = true ↔ ∃ i v, VisitedAgain next head i v) ∧
      (∀ v, start = some v ↔ FirstVisitedAgain next head v) ∧
        (start = none ↔ ¬ ∃ i v, VisitedAgain next head i v) := by
  obtain ⟨n, hn, hcaught, hmin, hrun⟩ := chase_run next head
  have hmet := met_iff hcaught hmin
  have hchase := hrun fuel hfuel
  by_cases hmeet : 0 < n ∧ walk next head n = walk next head (n + n)
  · obtain ⟨i, w, hw⟩ := hmet.mp hmeet
    obtain ⟨v, hv, hsecond⟩ := meet_run hmeet.2 hmeet.1 hw.ne_none
    refine ⟨true, some v, ?_, ?_, ?_, ?_, ?_⟩
    · simp [hasCycle, hchase, chased, hmeet.1, ← hmeet.2]
    · simp [findCycleStart, hchase, chased, hmeet.1, ← hmeet.2]
      simp [hmeet.2, hsecond fuel (by omega)]
    · exact iff_of_true rfl ⟨i, w, hw⟩
    · intro u
      constructor
      · rintro ⟨⟩
        exact hv
      · exact fun hu => congrArg some (hv.unique hu)
    · exact iff_of_false (Option.some_ne_none v) (not_not.mpr ⟨i, w, hw⟩)
  · have hnone := mt hmet.mpr hmeet
    refine ⟨false, none, ?_, ?_, ?_, ?_, ?_⟩
    · simp [hasCycle, hchase, chased, hmeet]
    · simp [findCycleStart, hchase, chased, hmeet]
    · exact iff_of_false Bool.false_ne_true hnone
    · intro u
      refine iff_of_false (Option.some_ne_none u).symm ?_
      rintro ⟨i, hi, -⟩
      exact hnone ⟨i, u, hi⟩
    · exact iff_of_true rfl hnone

-- The list 0 → 1 → 2 → 3 → 4 with the end linked back to 2.
example : hasCycle (fun v : Nat => if v < 4 then some (v + 1) else some 2) 9 (some 0) = some true ∧
    findCycleStart (fun v : Nat => if v < 4 then some (v + 1) else some 2) 9 (some 0) = some (some 2) := by decide

theorem cycle_found_loop : ∃ cyclic start, hasCycle (fun v : Fin 3 => some (v + 1)) 5 (some 0) = some cyclic ∧
    findCycleStart (fun v : Fin 3 => some (v + 1)) 5 (some 0) = some start ∧
    (cyclic = true ↔ ∃ i v, VisitedAgain (fun v : Fin 3 => some (v + 1)) (some 0) i v) ∧
    (∀ v, start = some v ↔ FirstVisitedAgain (fun v : Fin 3 => some (v + 1)) (some 0) v) ∧
    (start = none ↔ ¬ ∃ i v, VisitedAgain (fun v : Fin 3 => some (v + 1)) (some 0) i v) :=
  cycle_found (fun v : Fin 3 => some (v + 1)) (some 0) 5 (by simp)

end

end Playground.TwoPointers
