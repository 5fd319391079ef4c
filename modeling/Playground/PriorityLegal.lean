import Mathlib.Data.Int.ConditionallyCompleteOrder
import Mathlib.Order.CompletePartialOrder
import Mathlib.Order.ConditionallyCompleteLattice.Basic
import Mathlib.Order.Interval.Set.Basic
import Playground.Makespan

/-!
# Priority scheduling is legal

The processes run one after the other, each once and not before it arrives,
and a process that runs was preferred to all that had arrived and run later.
In `int` the schedule is the exact one as long as its end is an `int`: the
clock never passes the time at which all the work, taken in the order of
arrival, is done.
-/

namespace Playground.Scheduler

/-! ## Legal schedules -/

/-- The process `p` at `i` is preferred to `q` at `j`. -/
def Outranks (i j : Nat) (p q : Process) : Prop := p.priority < q.priority ∨ p.priority = q.priority ∧ i < j

/-- `out` is the list `jobs` with the times of a non-preemptive priority schedule. -/
structure Legal (jobs out : List Process) : Prop where
  length : out.length = jobs.length
  ran : ∀ (i : Nat) (p : Process), jobs[i]? = some p → ∃ start, p.arrivalTime ≤ start ∧ out[i]? = some
    { p with firstRunTime := start, completionTime := start + p.burstTime, remainingTime := 0 }
  disjoint : ∀ (i j : Nat) (p q : Process), i ≠ j → out[i]? = some p → out[j]? = some q →
    Disjoint (Set.Ico p.firstRunTime p.completionTime) (Set.Ico q.firstRunTime q.completionTime)
  preferred : ∀ (i j : Nat) (p q : Process), out[i]? = some p → out[j]? = some q → q.arrivalTime ≤ p.firstRunTime →
    p.firstRunTime < q.firstRunTime → Outranks i j p q

/-- The schedule so far. A process that is not done will start later. -/
structure LegalSoFar (s : Priority) : Prop where
  disjoint : ∀ i j p q, i ≠ j → s.done i = true → s.done j = true → s.procs[i]? = some p → s.procs[j]? = some q →
    p.completionTime ≤ q.firstRunTime ∨ q.completionTime ≤ p.firstRunTime
  preferred : ∀ i j p q, i ≠ j → s.done i = true → s.procs[i]? = some p → s.procs[j]? = some q →
    q.arrivalTime ≤ p.firstRunTime → (s.done j = true → p.firstRunTime < q.firstRunTime) → Outranks i j p q

theorem legalSoFar_init (procs : List Process) : LegalSoFar { procs } where
  disjoint := by
    intro i j p q _ hd
    cases hd
  preferred := by
    intro i j p q _ hd
    cases hd

section
variable {jobs : List Process} (hb : ∀ p ∈ jobs, 1 ≤ p.burstTime) {s : Priority} (hi : PriorityInv jobs s)

include hi

theorem PriorityInv.get {i : Nat} {p : Process} (hp : s.procs[i]? = some p) : ∃ p₀, jobs[i]? = some p₀ :=
  ⟨_, List.getElem?_eq_getElem (hi.length ▸ (List.getElem?_eq_some_iff.mp hp).1)⟩

include hb

theorem PriorityInv.past {i : Nat} {p : Process} (hd : s.done i = true) (hp : s.procs[i]? = some p) :
    p.firstRunTime < s.currentTime ∧ p.completionTime ≤ s.currentTime := by
  obtain ⟨p₀, hp₀⟩ := hi.get hp
  have hburst := hb p₀ (List.mem_of_getElem? hp₀)
  obtain ⟨start, hget, _, hle⟩ := hi.done i p₀ hp₀ hd
  obtain rfl := Option.some.inj (hget.symm.trans hp)
  simp only [Process.ranFrom]
  omega

end

theorem ran_get {s : Priority} {best i : Nat} {p q : Process} (h : (s.ran best p).procs[i]? = some q) :
    i = best ∧ q = p.ranFrom s.currentTime ∨ i ≠ best ∧ s.procs[i]? = some q := by
  by_cases hne : i = best
  · subst hne
    have hlt := (List.getElem?_eq_some_iff.mp h).1
    simp only [Priority.ran, List.length_set] at hlt
    simp only [Priority.ran, List.getElem?_set_self hlt, Option.some.injEq] at h
    exact Or.inl ⟨rfl, h.symm⟩
  · simp only [Priority.ran, List.getElem?_set_ne (Ne.symm hne)] at h
    exact Or.inr ⟨hne, h⟩

theorem ran_done {s : Priority} {best i : Nat} {p : Process} (hne : i ≠ best) :
    (s.ran best p).done i = s.done i := Function.update_of_ne hne ..

theorem LegalSoFar.round {jobs : List Process} (hb : ∀ p ∈ jobs, 1 ≤ p.burstTime) {s s' : Priority}
    (hi : PriorityInv jobs s) (h : LegalSoFar s) (hr : PriorityRound jobs s s') : LegalSoFar s' := by
  cases hr with
  | idle hlt hnone => exact ⟨h.disjoint, h.preferred⟩
  | run best p hlt hbest hp hc =>
    obtain ⟨_, p', hc', hmin⟩ := hbest
    obtain rfl := Option.some.inj (hc'.get.symm.trans hc.get)
    constructor
    · intro i j x y hne hdi hdj hx hy
      rcases ran_get hx with ⟨rfl, rfl⟩ | ⟨hi', hx'⟩ <;> rcases ran_get hy with ⟨rfl, rfl⟩ | ⟨hj', hy'⟩
      · exact absurd rfl hne
      · rw [ran_done hj'] at hdj
        exact Or.inr (hi.past hb hdj hy').2
      · rw [ran_done hi'] at hdi
        exact Or.inl (hi.past hb hdi hx').2
      · rw [ran_done hi'] at hdi
        rw [ran_done hj'] at hdj
        exact h.disjoint i j x y hne hdi hdj hx' hy'
    · intro i j x y hne hdi hx hy harr hlater
      rcases ran_get hx with ⟨rfl, rfl⟩ | ⟨hi', hx'⟩ <;> rcases ran_get hy with ⟨rfl, rfl⟩ | ⟨hj', hy'⟩
      · exact absurd rfl hne
      · -- the process that runs now was preferred to all that had arrived
        rw [ran_done hj'] at hlater
        have hpending : s.done j = false := by
          rw [Bool.eq_false_iff]
          intro hd
          have := (hi.past hb hd hy').1
          have := hlater hd
          simp only [Process.ranFrom] at this
          omega
        exact hmin j (List.getElem?_eq_some_iff.mp hy').1 hj' y ⟨hy', hpending, harr⟩
      · -- it was pending when the one before was chosen
        rw [ran_done hi'] at hdi
        refine h.preferred i j x p' hne hdi hx' hc.get harr fun hd => ?_
        rw [hc.pending] at hd
        cases hd
      · rw [ran_done hi'] at hdi
        rw [ran_done hj'] at hlater
        exact h.preferred i j x y hne hdi hx' hy' harr hlater

theorem LegalSoFar.legal {jobs : List Process} {s : Priority} (h : LegalSoFar s) (hi : PriorityInv jobs s)
    (hend : ¬ s.completed < s.procs.length) : Legal jobs s.procs := by
  have hdone : ∀ (i : Nat) (p : Process), s.procs[i]? = some p → s.done i = true := fun i p hp =>
    done_of_completed hi hend (List.getElem?_eq_some_iff.mp hp).1
  constructor
  · exact hi.length
  · intro i p hp
    have hlt : i < s.procs.length := hi.length ▸ (List.getElem?_eq_some_iff.mp hp).1
    obtain ⟨start, hget, harr, _⟩ := hi.done i p hp (done_of_completed hi hend hlt)
    exact ⟨start, harr, hget⟩
  · intro i j p q hne hp hq
    rw [Set.disjoint_left]
    intro t ht ht'
    have hbefore := h.disjoint i j p q hne (hdone i p hp) (hdone j q hq) hp hq
    rw [Set.mem_Ico] at ht ht'
    omega
  · intro i j p q hp hq harr hlt
    have hne : i ≠ j := by
      intro heq
      subst heq
      obtain rfl := Option.some.inj (hp.symm.trans hq)
      exact lt_irrefl _ hlt
    exact h.preferred i j p q hne (hdone i p hp) hp hq harr fun _ => hlt

theorem priorityScheduling_legal {procs : List Process} (hb : ∀ p ∈ procs, 1 ≤ p.burstTime) :
    ∃ fuel r, priorityScheduling fuel procs = some r ∧ Legal procs r.processes := by
  obtain ⟨fuel, s, hrun, hi, h, hend⟩ := priorityScheduling_total (P := LegalSoFar)
    (fun p hp => by have := hb p hp; omega) (legalSoFar_init procs) (fun s s' hi h hr => h.round hb hi hr)
  exact ⟨fuel, _, hrun, h.legal hi hend⟩

/-! ## The clock -/

/-- The work left: none of what is done. -/
def leftOf (jobs : List Process) (done : Nat → Bool) : List Workload.Job :=
  jobs.mapIdx fun i p => (p.arrivalTime, if done i then 0 else p.burstTime)

/-- All is done at `t`, in whichever order. -/
structure InTime (t : Int) (jobs : List Process) (s : Priority) : Prop where
  due : Workload.Due s.currentTime t (leftOf jobs s.done)
  nonneg : 0 ≤ s.currentTime

theorem mem_leftOf {jobs : List Process} {done : Nat → Bool} {j : Workload.Job} : j ∈ leftOf jobs done ↔
    ∃ (i : Nat) (p : Process), jobs[i]? = some p ∧ j = (p.arrivalTime, if done i then 0 else p.burstTime) := by
  unfold leftOf
  rw [List.mem_mapIdx]
  constructor
  · rintro ⟨i, hlt, rfl⟩
    exact ⟨i, _, List.getElem?_eq_getElem hlt, rfl⟩
  · rintro ⟨i, p, hp, rfl⟩
    obtain ⟨hlt, rfl⟩ := List.getElem?_eq_some_iff.mp hp
    exact ⟨i, hlt, rfl⟩

theorem leftOf_update {jobs : List Process} {done : Nat → Bool} {best : Nat} {p : Process}
    (hp : jobs[best]? = some p) :
    leftOf jobs (Function.update done best true) =
      (leftOf jobs done).set best (p.arrivalTime, p.burstTime - p.burstTime) := by
  apply List.ext_getElem?
  intro i
  unfold leftOf
  rw [List.getElem?_set, List.getElem?_mapIdx, List.getElem?_mapIdx]
  by_cases hne : best = i
  · obtain ⟨hlt, rfl⟩ := List.getElem?_eq_some_iff.mp hp
    subst hne
    simp [hlt]
  · simp [hne, Function.update_of_ne (Ne.symm hne)]

section
variable {jobs : List Process} (hb : ∀ p ∈ jobs, 0 ≤ p.burstTime)

include hb

theorem leftOf_nonneg (done : Nat → Bool) : ∀ j ∈ leftOf jobs done, 0 ≤ j.2 := by
  intro j hj
  obtain ⟨i, p, hp, rfl⟩ := mem_leftOf.mp hj
  have := hb p (List.mem_of_getElem? hp)
  simp only
  split <;> omega

theorem InTime.le {t : Int} {s : Priority} (h : InTime t jobs s) : s.currentTime ≤ t :=
  h.due.le (leftOf_nonneg hb s.done)

theorem InTime.round (hzero : ∀ p ∈ jobs, p.burstTime = 0 → p.arrivalTime = 0) {t : Int} {s s' : Priority}
    (hi : PriorityInv jobs s) (h : InTime t jobs s) (hr : PriorityRound jobs s s') : InTime t jobs s' := by
  have hnonneg := h.nonneg
  cases hr with
  | idle hlt hnone =>
    have hlate : ∀ i p, jobs[i]? = some p → s.done i = false → s.currentTime < p.arrivalTime := by
      intro i p hp hd
      have hget := hi.pending i p hp hd
      by_contra harr
      exact hnone i (List.getElem?_eq_some_iff.mp hget).1 p ⟨hget, hd, not_lt.mp harr⟩
    refine ⟨?_, by simp only; omega⟩
    apply h.due.idle
    · intro j hj hwork
      obtain ⟨i, p, hp, rfl⟩ := mem_leftOf.mp hj
      have hd : s.done i = false := by
        rw [Bool.eq_false_iff]
        intro hd
        simp [hd] at hwork
      exact hlate i p hp hd
    · intro j hj hdone
      obtain ⟨i, p, hp, rfl⟩ := mem_leftOf.mp hj
      cases hd : s.done i with
      | true =>
        have hburst := hb p (List.mem_of_getElem? hp)
        obtain ⟨start, _, harr, hle⟩ := hi.done i p hp hd
        simp only
        omega
      | false =>
        simp only [hd, Bool.false_eq_true, if_false] at hdone
        simp only [hzero p (List.mem_of_getElem? hp) hdone]
        exact hnonneg
    · obtain ⟨i, p, hp, _, hd⟩ := exists_pending hi hlt
      have hmem := List.mem_of_getElem? hp
      have harr := hlate i p hp hd
      refine ⟨_, mem_leftOf.mpr ⟨i, p, hp, rfl⟩, ?_⟩
      simp only [hd, Bool.false_eq_true, if_false]
      exact mt (hzero p hmem) (by omega)
  | run best p hlt hbest hp hc =>
    have hburst := hb p (List.mem_of_getElem? hp)
    refine ⟨?_, by simp only [Priority.ran]; omega⟩
    show Workload.Due (s.currentTime + p.burstTime) t (leftOf jobs (Function.update s.done best true))
    rw [leftOf_update hp]
    apply h.due.run _ hc.arrived hburst (leftOf_nonneg hb s.done)
    simp [leftOf, hp, hc.pending]

end

theorem finishTime_eq (procs : List Process) :
    finishTime procs = Workload.finish 0 (procs.map fun p => (p.arrivalTime, p.burstTime)) := by
  rw [finishTime, Workload.finish, List.foldl_map]

theorem inTime_init {procs sorted : List Process} (hperm : sorted.Perm procs)
    (hsorted : (sorted.map Process.arrivalTime).Pairwise (· ≤ ·)) : InTime (finishTime sorted) procs { procs } where
  due := by
    have hleft : leftOf procs (fun _ => false) = procs.map fun p => (p.arrivalTime, p.burstTime) := by
      apply List.ext_getElem?
      intro i
      simp [leftOf]
    rw [finishTime_eq]
    show Workload.Due 0 _ (leftOf procs fun _ => false)
    rw [hleft]
    apply Workload.due_of_sorted (hperm.map _)
    simpa [Function.comp_def] using hsorted
  nonneg := le_rfl

theorem length_le_finishTime {procs sorted : List Process} (hperm : sorted.Perm procs)
    (hb : ∀ p ∈ procs, 1 ≤ p.burstTime) : (procs.length : Int) ≤ finishTime sorted := by
  have hle := Workload.length_le_finish (l := sorted.map fun p => (p.arrivalTime, p.burstTime))
    (fun j hj => by
      obtain ⟨p, hp, rfl⟩ := List.mem_map.mp hj
      exact hb p (hperm.subset hp)) 0
  rw [← finishTime_eq, List.length_map, hperm.length_eq] at hle
  omega

/-! ## The schedule in `int` -/

theorem priorityBodyInt_eq {n : Int} {s : Priority} (hn : n = s.procs.length)
    (hfit : ∀ s', priorityBody s = .next s' → CInt.fit s'.currentTime = some s'.currentTime) :
    priorityBodyInt n s = priorityBody s := by
  subst hn
  by_cases hlt : s.completed < s.procs.length
  · have hlt' : (s.completed : Int) < s.procs.length := Int.ofNat_lt.mpr hlt
    simp only [priorityBodyInt, priorityBody, hlt, hlt', if_true, Int.toNat_natCast] at hfit ⊢
    cases hbest : s.best s.procs.length with
    | none =>
      simp only [hbest] at hfit ⊢
      rw [hfit _ rfl]
      rfl
    | some best =>
      cases hp : s.procs[best]? with
      | none => simp [hp]
      | some p =>
        simp only [hbest, hp] at hfit ⊢
        rw [hfit _ rfl]
        rfl
  · have hlt' : ¬ (s.completed : Int) < s.procs.length := fun h => hlt (Int.ofNat_lt.mp h)
    simp only [priorityBodyInt, priorityBody, hlt, hlt', if_false]

theorem mapM_eq_map {α β : Type} {f : α → Option β} {g : α → β} {l : List α} (h : ∀ a ∈ l, f a = some (g a)) :
    l.mapM f = some (l.map g) := by
  induction l with
  | nil => rfl
  | cons a l ih =>
    rw [List.mapM_cons, h a (List.mem_cons_self ..), ih fun b hb => h b (List.mem_cons_of_mem _ hb)]
    rfl

section
variable {procs sorted : List Process} (hperm : sorted.Perm procs)
  (hsorted : (sorted.map Process.arrivalTime).Pairwise (· ≤ ·)) (ht : finishTime sorted < 2 ^ 31)
  (hp : ∀ p ∈ procs, 0 ≤ p.arrivalTime ∧ 0 ≤ p.burstTime)

include ht hp

theorem metricsInt_eq {s : Priority} (hi : PriorityInv procs s) (h : InTime (finishTime sorted) procs s)
    (hend : ¬ s.completed < s.procs.length) : ∀ p ∈ s.procs, metricsInt p = some (turnaround p, waiting p) := by
  intro p hmem
  obtain ⟨i, hget⟩ := List.mem_iff_getElem?.mp hmem
  obtain ⟨p₀, hp₀⟩ := hi.get hget
  obtain ⟨harrival, hburst⟩ := hp p₀ (List.mem_of_getElem? hp₀)
  obtain ⟨start, hran, harr, hle⟩ :=
    hi.done i p₀ hp₀ (done_of_completed hi hend (List.getElem?_eq_some_iff.mp hget).1)
  obtain rfl := Option.some.inj (hran.symm.trans hget)
  have hclock := h.le fun p hmem => (hp p hmem).2
  have htat : CInt.fit (start + p₀.burstTime - p₀.arrivalTime) = some (start + p₀.burstTime - p₀.arrivalTime) :=
    CInt.fit_of (by omega) (by omega)
  have hwt : CInt.fit (start + p₀.burstTime - p₀.arrivalTime - p₀.burstTime) =
      some (start + p₀.burstTime - p₀.arrivalTime - p₀.burstTime) := CInt.fit_of (by omega) (by omega)
  simp only [metricsInt, Process.ranFrom, turnaround, waiting, htat, hwt, Option.bind_eq_bind, Option.bind_some]

omit ht hp in
theorem resultInt_eq {procs : List Process} (h : ∀ p ∈ procs, metricsInt p = some (turnaround p, waiting p)) :
    resultInt procs.length procs = some (result procs) := by
  simp only [resultInt, mapM_eq_map h, Option.bind_eq_bind, Option.bind_some, result, Int.toNat_natCast,
    List.map_map, Function.comp_def]

include hperm hsorted

/-- In `int` the schedule is the exact one, as long as its end is an `int`. -/
theorem prioritySchedulingInt_eq (hzero : ∀ p ∈ procs, p.burstTime = 0 → p.arrivalTime = 0)
    (hlen : procs.length < 2 ^ 31) (fuel : Nat) :
    prioritySchedulingInt fuel procs = priorityScheduling fuel procs := by
  have hb : ∀ p ∈ procs, 0 ≤ p.burstTime := fun p hmem => (hp p hmem).2
  have hn : CInt.ofSize procs.length = procs.length := CInt.ofSize_of_lt hlen
  let I : Priority → Prop := fun s => PriorityInv procs s ∧ InTime (finishTime sorted) procs s
  have hI0 : I { procs } := ⟨priorityInv_init procs, inTime_init hperm hsorted⟩
  have hstep : ∀ s s', I s → priorityBody s = .next s' → I s' := by
    intro s s' ⟨hi, h⟩ hnext
    have hr := (priority_while procs).rel hi hnext
    exact ⟨hi.round hb hr, h.round hb hzero hi hr⟩
  have hbody : ∀ s, I s → priorityBodyInt procs.length s = priorityBody s := by
    intro s hs
    apply priorityBodyInt_eq (by rw [hs.1.length])
    intro s' hnext
    have h' := (hstep s s' hs hnext).2
    have hclock := h'.le hb
    have hnonneg := h'.nonneg
    exact CInt.fit_of (by omega) (by omega)
  have hrun := Loop.run_congr hbody hstep fuel hI0
  unfold prioritySchedulingInt priorityScheduling
  simp only [hn, Int.not_lt.mpr (Int.natCast_nonneg _), if_false, hrun, Option.bind_eq_bind]
  cases hs : Loop.run priorityBody fuel { procs } with
  | none => rfl
  | some s =>
    obtain ⟨⟨hi, h⟩, hexit⟩ := Loop.run_inv hstep hs hI0
    have hend := (priority_while procs).not_of_exit hi hexit
    rw [Option.bind_some, Option.map_some, ← hi.length]
    exact resultInt_eq (metricsInt_eq ht hp hi h hend)

end

/-- **Priority scheduling ends with a legal schedule**, if the time to do all
the work in the order of arrival is an `int`. -/
theorem prioritySchedulingInt_legal {procs : List Process}
    (hp : ∀ p ∈ procs, 0 ≤ p.arrivalTime ∧ 1 ≤ p.burstTime) (ht : finishTime (stableSort procs) < 2 ^ 31) :
    ∃ fuel r, prioritySchedulingInt fuel procs = some r ∧ Legal procs r.processes := by
  have hb : ∀ p ∈ procs, 1 ≤ p.burstTime := fun p hmem => (hp p hmem).2
  obtain ⟨hperm, hsorted⟩ := stableSort_sorts procs
  have hlen := length_le_finishTime hperm hb
  obtain ⟨fuel, r, hrun, hlegal⟩ := priorityScheduling_legal hb
  refine ⟨fuel, r, ?_, hlegal⟩
  rw [prioritySchedulingInt_eq hperm hsorted ht (fun p hmem => ⟨(hp p hmem).1, by have := hb p hmem; omega⟩)
    (fun p hmem h => by have := hb p hmem; omega) (by omega)]
  exact hrun

theorem prioritySchedulingInt_legal_two : ∃ fuel r, prioritySchedulingInt fuel shortAfterLong = some r ∧
    Legal shortAfterLong r.processes :=
  prioritySchedulingInt_legal (fun p hp => by
    obtain ⟨hfresh, hburst⟩ := shortAfterLong_fresh p hp
    exact ⟨hfresh.arrival, hburst⟩) (by decide)

/-- Two processes of the longest burst that an `int` can hold. -/
def longBursts : List Process :=
  [{ pid := 1, arrivalTime := 0, burstTime := 2147483647, priority := 1, remainingTime := 2147483647 },
    { pid := 2, arrivalTime := 0, burstTime := 2147483647, priority := 2, remainingTime := 2147483647 }]

/-- The clock overflows when the second process is run. -/
theorem prioritySchedulingInt_overflow : ¬ ∀ procs : List Process,
    (∀ p ∈ procs, 0 ≤ p.arrivalTime ∧ 1 ≤ p.burstTime) →
      ∃ fuel r, prioritySchedulingInt fuel procs = some r ∧ Legal procs r.processes := by
  intro h
  have hin : ∀ p ∈ longBursts, 0 ≤ p.arrivalTime ∧ 1 ≤ p.burstTime := by decide
  obtain ⟨fuel, r, hrun, -⟩ := h longBursts hin
  have hn : CInt.ofSize longBursts.length = 2 := by decide
  have hneg : ¬ (2 : Int) < 0 := by decide
  simp only [prioritySchedulingInt, hn, hneg, if_false, Option.bind_eq_bind] at hrun
  obtain ⟨s, hloop, -⟩ := Option.bind_eq_some_iff.mp hrun
  have hfirst : priorityBodyInt 2 { procs := longBursts } =
      .next (({ procs := longBursts } : Priority).ran 0 longBursts[0]) := rfl
  have hsecond : priorityBodyInt 2 (({ procs := longBursts } : Priority).ran 0 longBursts[0]) = .fault := rfl
  exact Loop.not_returns_fault hsecond ((Loop.returns_next hfirst).mp ⟨fuel, s, hloop⟩)

end Playground.Scheduler
