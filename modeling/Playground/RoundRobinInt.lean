import Playground.PriorityLegal
import Playground.RoundRobinWait

/-!
# Both schedulers in `int`

The clock of round robin never passes the time at which all the work, taken in
the order of arrival, is done. As long as that time is an `int`, the schedule
is the exact one, and what holds of the exact schedulers holds of the `int`
ones. A process that lies beyond the number of processes, converted to `int`,
is never run.
-/

namespace Playground.Scheduler

/-! ## A round -/

section
variable {n quantum : Int} {s : RoundRobin} (hn : n = s.procs.length)

theorem bodyInt_exit (h : ¬ (s.completed : Int) < n) : roundRobinBodyInt n quantum s = .exit := by
  simp [roundRobinBodyInt, h]

include hn

theorem bodyInt_idle (h : s.completed < s.procs.length) (hq : s.readyQueue = []) :
    roundRobinBodyInt n quantum s =
      .ofOption ((CInt.fit (s.currentTime + 1)).map fun _ =>
        checkArrivals { s with currentTime := s.currentTime + 1 }) := by
  subst hn
  have hlt : (s.completed : Int) < s.procs.length := Int.ofNat_lt.mpr h
  unfold roundRobinBodyInt
  simp only [hlt, if_true, hq]
  cases hfit : CInt.fit (s.currentTime + 1) with
  | none => rfl
  | some t =>
    obtain ⟨rfl, -, -⟩ := CInt.fit_eq_some hfit
    rfl

theorem bodyInt_slice {idx : Nat} {rest : List Nat} {p : Process} (h : s.completed < s.procs.length)
    (hq : s.readyQueue = idx :: rest) (hp : s.procs[idx]? = some p) : roundRobinBodyInt n quantum s =
      .ofOption ((CInt.fit (p.remainingTime - min quantum p.remainingTime)).bind fun _ =>
        (CInt.fit (s.currentTime + min quantum p.remainingTime)).map fun _ =>
          (checkArrivals (s.afterSlice quantum idx rest p)).handBack idx (p.afterSlice quantum s.currentTime)) := by
  subst hn
  have hlt : (s.completed : Int) < s.procs.length := Int.ofNat_lt.mpr h
  unfold roundRobinBodyInt
  simp only [hlt, if_true, hq, hp, Option.bind_eq_bind]
  cases hrem : CInt.fit (p.remainingTime - min quantum p.remainingTime) with
  | none => rfl
  | some r =>
    obtain ⟨rfl, -, -⟩ := CInt.fit_eq_some hrem
    cases hfit : CInt.fit (s.currentTime + min quantum p.remainingTime) with
    | none => rfl
    | some t =>
      obtain ⟨rfl, -, -⟩ := CInt.fit_eq_some hfit
      have hlen : (s.afterSlice quantum idx rest p).procs.length = s.procs.length := List.length_set
      simp only [Option.bind_some, Option.map_some, Int.toNat_natCast, checkArrivals, hlen, RoundRobin.handBack]
      exact congrArg Loop.Outcome.ofOption (apply_ite some _ _ _).symm

/-- A round faults, or it is one in exact times and the clock is an `int` after it. -/
theorem bodyInt_cases : roundRobinBodyInt n quantum s = .fault ∨
    roundRobinBodyInt n quantum s = roundRobinBody quantum s ∧
      ∀ s', roundRobinBody quantum s = .next s' → s'.currentTime < 2 ^ 31 := by
  by_cases hlt : s.completed < s.procs.length
  · cases hq : s.readyQueue with
    | nil =>
      rw [bodyInt_idle hn hlt hq, body_idle hlt hq]
      cases hfit : CInt.fit (s.currentTime + 1) with
      | none => exact Or.inl rfl
      | some t =>
        refine Or.inr ⟨rfl, fun s' hs' => ?_⟩
        obtain rfl := Loop.Outcome.next.inj hs'
        rw [checkArrivals_currentTime]
        exact (CInt.fit_eq_some hfit).2.2
    | cons idx rest =>
      cases hp : s.procs[idx]? with
      | none =>
        left
        have hlt' : (s.completed : Int) < n := hn ▸ Int.ofNat_lt.mpr hlt
        simp [roundRobinBodyInt, hlt', hq, hp]
      | some p =>
        rw [bodyInt_slice hn hlt hq hp, body_slice hlt hq hp]
        cases CInt.fit (p.remainingTime - min quantum p.remainingTime) with
        | none => exact Or.inl rfl
        | some r =>
          cases hfit : CInt.fit (s.currentTime + min quantum p.remainingTime) with
          | none => exact Or.inl rfl
          | some t =>
            refine Or.inr ⟨rfl, fun s' hs' => ?_⟩
            obtain rfl := Loop.Outcome.next.inj hs'
            rw [handBack_currentTime, checkArrivals_currentTime, afterSlice_currentTime]
            exact (CInt.fit_eq_some hfit).2.2
  · have hlt' : ¬ (s.completed : Int) < n := fun h => hlt (Int.ofNat_lt.mp (hn ▸ h))
    rw [bodyInt_exit hlt', body_exit hlt]
    exact Or.inr ⟨rfl, fun s' hs' => by cases hs'⟩

end

/-! ## A schedule that ends in time -/

/-- The processes `jobs` are being scheduled, and all is done at `t`. -/
structure DoneBy (t : Int) (jobs : List Process) (s : RoundRobin) : Prop where
  inv : Inv jobs s.currentTime none s
  work : Conserving t s.currentTime s.procs s.completed

section
variable {jobs : List Process} (hf : ∀ p ∈ jobs, Fresh p) (hzero : ∀ p ∈ jobs, p.burstTime = 0 → p.arrivalTime = 0)
  {t quantum : Int} {s : RoundRobin} (h : DoneBy t jobs s)

include hf hzero h

theorem DoneBy.round (hquantum : 1 ≤ quantum) {s' : RoundRobin} (hr : Round jobs quantum s s') : DoneBy t jobs s' :=
  ⟨h.inv.round hf hquantum hr, h.work.round hf hzero h.inv hquantum hr⟩

theorem DoneBy.next (hquantum : 1 ≤ quantum) {s' : RoundRobin} (hb : roundRobinBody quantum s = .next s') :
    DoneBy t jobs s' :=
  h.round hf hzero hquantum ((roundRobin_while jobs quantum).rel h.inv hb)

theorem DoneBy.le : 0 ≤ s.currentTime ∧ s.currentTime ≤ t := by
  refine ⟨h.inv.time, h.work.due.le fun j hj => ?_⟩
  obtain ⟨p, hp, rfl⟩ := List.mem_map.mp hj
  exact h.inv.remaining_nonneg hf hzero p hp

theorem DoneBy.remaining_le {p : Process} (hp : p ∈ s.procs) : 0 ≤ p.remainingTime ∧ p.remainingTime ≤ t := by
  have hnonneg := h.inv.remaining_nonneg hf hzero
  have hle := h.work.due.add_le (j := (p.arrivalTime, p.remainingTime)) (fun j hj => by
    obtain ⟨q, hq, rfl⟩ := List.mem_map.mp hj
    exact hnonneg q hq) (List.mem_map_of_mem hp)
  have htime := h.inv.time
  refine ⟨hnonneg p hp, ?_⟩
  have hmax := le_max_left s.currentTime p.arrivalTime
  simp only at hle
  omega

/-- No clock value of such a schedule overflows. -/
theorem DoneBy.bodyInt_eq (hquantum : 1 ≤ quantum) (ht : t < 2 ^ 31) :
    roundRobinBodyInt jobs.length quantum s = roundRobinBody quantum s := by
  have hn : (jobs.length : Int) = s.procs.length := by rw [h.inv.length]
  have hclock : ∀ s', roundRobinBody quantum s = .next s' → CInt.fit s'.currentTime = some s'.currentTime := by
    intro s' hb
    have hle := (h.next hf hzero hquantum hb).le hf hzero
    exact CInt.fit_of (by omega) (by omega)
  by_cases hlt : s.completed < s.procs.length
  · cases hq : s.readyQueue with
    | nil =>
      have hfit := hclock _ (body_idle hlt hq)
      rw [checkArrivals_currentTime] at hfit
      rw [bodyInt_idle hn hlt hq, body_idle hlt hq, hfit]
      rfl
    | cons idx rest =>
      have hidx := (h.inv.queued idx (by simp [hq])).1
      have hp := List.getElem?_eq_getElem hidx
      have hrem := h.remaining_le hf hzero (List.getElem_mem hidx)
      have hfit := hclock _ (body_slice hlt hq hp)
      rw [handBack_currentTime, checkArrivals_currentTime, afterSlice_currentTime] at hfit
      have hfit' : CInt.fit (s.procs[idx].remainingTime - min quantum s.procs[idx].remainingTime) =
          some (s.procs[idx].remainingTime - min quantum s.procs[idx].remainingTime) :=
        CInt.fit_of (by omega) (by omega)
      rw [bodyInt_slice hn hlt hq hp, body_slice hlt hq hp, hfit', hfit]
      rfl
  · have hlt' : ¬ (s.completed : Int) < jobs.length := fun h => hlt (Int.ofNat_lt.mp (hn ▸ h))
    rw [bodyInt_exit hlt', body_exit hlt]

theorem DoneBy.metricsInt_eq (ht : t < 2 ^ 31) (hb : ∀ p ∈ jobs, p.burstTime ≤ t)
    (hend : ¬ s.completed < s.procs.length) : ∀ p ∈ s.procs, metricsInt p = some (turnaround p, waiting p) := by
  intro p hmem
  obtain ⟨i, hp⟩ := List.mem_iff_getElem?.mp hmem
  have hlt := (List.getElem?_eq_some_iff.mp hp).1
  have hp₀ := List.getElem?_eq_getElem (h.inv.length ▸ hlt)
  have hst := h.inv.stage i _ p (by simp) hp₀ hp
  have hfin := finished_of_completed h.inv hend hp₀ hp
  have hmem₀ := List.mem_of_getElem? hp₀
  have hle := h.le hf hzero
  have harrival : 0 ≤ p.arrivalTime := hst.arrival ▸ (hf _ hmem₀).arrival
  have hburst : 0 ≤ p.burstTime ∧ p.burstTime ≤ t := hst.burst ▸ ⟨(hf _ hmem₀).burst, hb _ hmem₀⟩
  obtain ⟨hearly, hlate⟩ := hfin.completion
  have htat : CInt.fit (p.completionTime - p.arrivalTime) = some (p.completionTime - p.arrivalTime) :=
    CInt.fit_of (by omega) (by omega)
  have hwt : CInt.fit (p.completionTime - p.arrivalTime - p.burstTime) =
      some (p.completionTime - p.arrivalTime - p.burstTime) := CInt.fit_of (by omega) (by omega)
  simp only [metricsInt, turnaround, waiting, htat, hwt, Option.bind_eq_bind, Option.bind_some]

end

/-! ## Runs -/

section
variable {sort : List Process → List Process} (hsort : SortsByArrival sort) {procs : List Process}
  (hlen : procs.length < 2 ^ 31)

include hsort hlen

theorem roundRobinIntInit_eq : roundRobinIntInit sort procs = roundRobinInit sort procs := by
  have hperm := (hsort procs).1
  rw [roundRobinIntInit, roundRobinInit, admitInitially, CInt.ofSize_of_lt hlen, Int.toNat_natCast,
    ← hperm.length_eq]

variable (hf : ∀ p ∈ procs, Fresh p) (hzero : ∀ p ∈ procs, p.burstTime = 0 → p.arrivalTime = 0) {quantum : Int}
  (hquantum : 1 ≤ quantum)

omit hlen in
include hf in
theorem doneBy_init : DoneBy (finishTime (sort procs)) (sort procs) (roundRobinInit sort procs) := by
  obtain ⟨hperm, hsorted⟩ := hsort procs
  have hf' : ∀ p ∈ sort procs, Fresh p := fun p hp => hf p (hperm.subset hp)
  constructor
  · rw [roundRobinInit_currentTime]
    exact inv_init hf'
  · rw [roundRobinInit, admitInitially_eq]
    exact conserving_init hf' (List.Perm.refl _) hsorted

variable (ht : finishTime (sort procs) < 2 ^ 31)

include hf hzero hquantum ht

/-- Round robin in `int` is round robin, as long as its end is an `int`. -/
theorem roundRobinIntLoop_eq (fuel : Nat) :
    roundRobinIntLoop sort fuel procs quantum = roundRobinLoop sort fuel procs quantum := by
  have hperm := (hsort procs).1
  have hf' : ∀ p ∈ sort procs, Fresh p := fun p hp => hf p (hperm.subset hp)
  have hzero' : ∀ p ∈ sort procs, p.burstTime = 0 → p.arrivalTime = 0 := fun p hp => hzero p (hperm.subset hp)
  unfold roundRobinIntLoop roundRobinLoop
  simp only [CInt.ofSize_of_lt hlen, Int.not_lt.mpr (Int.natCast_nonneg _), if_false,
    roundRobinIntInit_eq hsort hlen]
  rw [← hperm.length_eq]
  exact Loop.run_congr (fun s h => h.bodyInt_eq hf' hzero' hquantum ht)
    (fun s s' h hb => h.next hf' hzero' hquantum hb) fuel (doneBy_init hsort hf)

theorem reaches_int {s : RoundRobin}
    (hs : Loop.Reaches (roundRobinBodyInt (CInt.ofSize procs.length) quantum) (roundRobinIntInit sort procs) s) :
    Loop.Reaches (roundRobinBody quantum) (roundRobinInit sort procs) s := by
  have hperm := (hsort procs).1
  have hf' : ∀ p ∈ sort procs, Fresh p := fun p hp => hf p (hperm.subset hp)
  have hzero' : ∀ p ∈ sort procs, p.burstTime = 0 → p.arrivalTime = 0 := fun p hp => hzero p (hperm.subset hp)
  rw [CInt.ofSize_of_lt hlen, roundRobinIntInit_eq hsort hlen, ← hperm.length_eq] at hs
  exact (Loop.reaches_congr (fun s h => h.bodyInt_eq hf' hzero' hquantum ht)
    (fun s s' h hb => h.next hf' hzero' hquantum hb) hs (doneBy_init hsort hf)).1

theorem roundRobinInt_eq (fuel : Nat) :
    roundRobinInt sort fuel procs quantum = roundRobin sort fuel procs quantum := by
  obtain ⟨hperm, hsorted⟩ := hsort procs
  have hf' : ∀ p ∈ sort procs, Fresh p := fun p hp => hf p (hperm.subset hp)
  have hzero' : ∀ p ∈ sort procs, p.burstTime = 0 → p.arrivalTime = 0 := fun p hp => hzero p (hperm.subset hp)
  unfold roundRobinInt roundRobin
  rw [roundRobinIntLoop_eq hsort hlen hf hzero hquantum ht, CInt.ofSize_of_lt hlen, ← hperm.length_eq]
  cases hrun : roundRobinLoop sort fuel procs quantum with
  | none => rfl
  | some s =>
    obtain ⟨h, hexit⟩ := Loop.run_inv (fun s s' (h : DoneBy _ _ s) hb => h.next hf' hzero' hquantum hb) hrun
      (doneBy_init hsort hf)
    have hend := (roundRobin_while (sort procs) quantum).not_of_exit h.inv hexit
    have hburst : ∀ p ∈ sort procs, p.burstTime ≤ finishTime (sort procs) := by
      intro p hp
      have hle := (doneBy_init hsort hf).remaining_le hf' hzero' (p := p) (by
        rw [roundRobinInit, admitInitially_eq]
        exact hp)
      rw [← (hf' p hp).remaining]
      exact hle.2
    rw [Option.bind_some, Option.map_some, ← h.inv.length]
    exact resultInt_eq (h.metricsInt_eq hf' hzero' ht hburst hend)

end

/-! ## Processes that do some work -/

section
variable {sort : List Process → List Process} (hsort : SortsByArrival sort) {procs : List Process}
  (hf : ∀ p ∈ procs, Fresh p ∧ 0 < p.burstTime) {quantum : Int} (hquantum : 1 ≤ quantum)
  (ht : finishTime (sort procs) < 2 ^ 31)

include hsort hf hquantum ht

omit hquantum in
theorem length_lt : procs.length < 2 ^ 31 := by
  have hle := length_le_finishTime (hsort procs).1 fun p hp => (hf p hp).2
  omega

/-- **Round robin and priority scheduling have the same makespan**, the time to do all the work in the order of
arrival, if that is an `int`. Only the makespan of no processes is not defined. -/
theorem makespan_eq : ∃ fuel₁ r₁ fuel₂ r₂,
    roundRobinInt sort fuel₁ procs quantum = some r₁ ∧ prioritySchedulingInt fuel₂ procs = some r₂ ∧
      makespan r₁.processes = makespan r₂.processes ∧
      makespan r₁.processes = if procs = [] then none else some (finishTime (sort procs)) := by
  obtain ⟨hperm, hsorted⟩ := hsort procs
  have hlen := length_lt hsort hf ht
  have hzero : ∀ p ∈ procs, p.burstTime = 0 → p.arrivalTime = 0 := fun p hp h => absurd h (hf p hp).2.ne'
  have hp : ∀ p ∈ procs, 0 ≤ p.arrivalTime ∧ 0 ≤ p.burstTime := fun p hp => ⟨(hf p hp).1.arrival, (hf p hp).1.burst⟩
  obtain ⟨fuel₁, r₁, fuel₂, r₂, h₁, h₂, h⟩ := makespan_exact hsort hf hquantum
  refine ⟨fuel₁, r₁, fuel₂, r₂, ?_, ?_, h⟩
  · rw [roundRobinInt_eq hsort hlen (fun p hp => (hf p hp).1) hzero hquantum ht, h₁]
  · rw [prioritySchedulingInt_eq hperm hsorted ht hp hzero hlen, h₂]

end

theorem makespan_eq_two : ∃ fuel₁ r₁ fuel₂ r₂, roundRobinInt stableSort fuel₁ shortAfterLong 3 = some r₁ ∧
    prioritySchedulingInt fuel₂ shortAfterLong = some r₂ ∧ makespan r₁.processes = makespan r₂.processes ∧
    makespan r₁.processes = if shortAfterLong = [] then none else some (finishTime (stableSort shortAfterLong)) :=
  makespan_eq stableSort_sorts shortAfterLong_fresh (by decide) (by decide)

theorem longBursts_fresh : ∀ p ∈ longBursts, Fresh p ∧ 0 < p.burstTime := by decide

/-- The second process is run from 2147483647 on. -/
theorem roundRobinIntLoop_longBursts (fuel : Nat) :
    roundRobinIntLoop stableSort fuel longBursts 2147483647 = none := by
  match fuel with
  | 0 => rfl
  | 1 => rfl
  | _ + 2 => rfl

/-- Neither scheduler has a result. -/
theorem makespan_overflow : ¬ ∀ sort, SortsByArrival sort → ∀ procs : List Process,
    (∀ p ∈ procs, Fresh p ∧ 0 < p.burstTime) → ∀ quantum, 1 ≤ quantum → ∃ fuel₁ r₁ fuel₂ r₂,
      roundRobinInt sort fuel₁ procs quantum = some r₁ ∧ prioritySchedulingInt fuel₂ procs = some r₂ ∧
        makespan r₁.processes = makespan r₂.processes := by
  intro h
  obtain ⟨fuel, r, -, -, hrun, -⟩ :=
    h stableSort stableSort_sorts longBursts longBursts_fresh 2147483647 (by decide)
  simp [roundRobinInt, roundRobinIntLoop_longBursts] at hrun

/-- **Bounded waiting of round robin**, if the time to do all the work in the order of arrival is an `int`. -/
theorem roundRobin_boundedWait {sort : List Process → List Process} (hsort : SortsByArrival sort)
    {procs : List Process} (hf : ∀ p ∈ procs, Fresh p ∧ 0 < p.burstTime) {quantum : Int} (hquantum : 1 ≤ quantum)
    (ht : finishTime (sort procs) < 2 ^ 31) :
    (∀ s, Loop.Reaches (roundRobinBodyInt (CInt.ofSize procs.length) quantum) (roundRobinIntInit sort procs) s →
      s.readyQueue.Nodup) ∧
      ∃ fuel s, roundRobinIntLoop sort fuel procs quantum = some s ∧ ∀ i p, (sort procs)[i]? = some p →
        (∃ sl ∈ (s.slicesOf i).head?, sl.start - p.arrivalTime ≤ (procs.length - 1) * quantum) ∧
          (s.slicesOf i).IsChain fun a b => b.start - a.stop ≤ (procs.length - 1) * quantum := by
  have hlen := length_lt hsort hf ht
  have hfresh : ∀ p ∈ procs, Fresh p := fun p hp => (hf p hp).1
  have hzero : ∀ p ∈ procs, p.burstTime = 0 → p.arrivalTime = 0 := fun p hp h => absurd h (hf p hp).2.ne'
  obtain ⟨hnodup, fuel, s, hrun, hs⟩ := boundedWait_exact hsort hf hquantum
  refine ⟨fun s hr => hnodup s (reaches_int hsort hlen hfresh hzero hquantum ht hr), fuel, s, ?_, hs⟩
  rw [roundRobinIntLoop_eq hsort hlen hfresh hzero hquantum ht, hrun]

theorem roundRobin_boundedWait_two :
    (∀ s, Loop.Reaches (roundRobinBodyInt (CInt.ofSize shortAfterLong.length) 3)
      (roundRobinIntInit stableSort shortAfterLong) s → s.readyQueue.Nodup) ∧
      ∃ fuel s, roundRobinIntLoop stableSort fuel shortAfterLong 3 = some s ∧
        ∀ i p, (stableSort shortAfterLong)[i]? = some p →
          (∃ sl ∈ (s.slicesOf i).head?, sl.start - p.arrivalTime ≤ ((shortAfterLong.length : Int) - 1) * 3) ∧
            (s.slicesOf i).IsChain fun a b => b.start - a.stop ≤ ((shortAfterLong.length : Int) - 1) * 3 :=
  roundRobin_boundedWait stableSort_sorts shortAfterLong_fresh (by decide) (by decide)

/-- The second process is never dispatched for a slice that has an end. -/
theorem boundedWait_overflow : ¬ ∀ sort, SortsByArrival sort → ∀ procs : List Process,
    (∀ p ∈ procs, Fresh p ∧ 0 < p.burstTime) → ∀ quantum, 1 ≤ quantum →
      ∃ fuel s, roundRobinIntLoop sort fuel procs quantum = some s ∧ ∀ i p, (sort procs)[i]? = some p →
        ∃ sl ∈ (s.slicesOf i).head?, sl.start - p.arrivalTime ≤ (procs.length - 1) * quantum := by
  intro h
  obtain ⟨fuel, s, hrun, -⟩ := h stableSort stableSort_sorts longBursts longBursts_fresh 2147483647 (by decide)
  rw [roundRobinIntLoop_longBursts] at hrun
  cases hrun

/-! ## Completion -/

/-- The process at `i`, from `n` on, is as it was, and never in the queue. -/
structure Untouched (n : Int) (i : Nat) (p : Process) (s : RoundRobin) : Prop where
  same : s.procs[i]? = some p
  queue : ∀ j ∈ s.readyQueue, (j : Int) < n

theorem Untouched.pushAll {n : Int} {i : Nat} {p : Process} {s : RoundRobin} (h : Untouched n i p s)
    (c : Nat → Bool) : Untouched n i p (s.pushAll ((List.range n.toNat).filter c)) := by
  refine ⟨h.same, fun j hj => ?_⟩
  rcases List.mem_append.mp hj with hj | hj
  · exact h.queue j hj
  · have hlt := List.mem_range.mp (List.mem_filter.mp hj).1
    omega

theorem untouched_checkArrivalsTo {n : Int} {i : Nat} {p : Process} {s : RoundRobin} (h : Untouched n i p s) :
    Untouched n i p (checkArrivalsTo n.toNat s) := by
  rw [checkArrivalsTo_eq]
  exact h.pushAll _

theorem Untouched.next {n quantum : Int} {i : Nat} (hi : n ≤ i) {p : Process} {s s' : RoundRobin}
    (h : Untouched n i p s) (hb : roundRobinBodyInt n quantum s = .next s') : Untouched n i p s' := by
  unfold roundRobinBodyInt at hb
  split at hb
  · split at hb
    · obtain ⟨t, -, rfl⟩ := Option.map_eq_some_iff.mp (Loop.Outcome.ofOption_eq_next.mp hb)
      exact untouched_checkArrivalsTo ⟨h.same, h.queue⟩
    · rename_i idx rest hq
      have hqueue := h.queue
      rw [hq] at hqueue
      have hidx : (idx : Int) < n := hqueue idx List.mem_cons_self
      have hne : idx ≠ i := by omega
      split at hb
      · cases hb
      · rename_i q _
        obtain ⟨r, -, hb⟩ := Option.bind_eq_some_iff.mp (Loop.Outcome.ofOption_eq_next.mp hb)
        obtain ⟨t, -, hb⟩ := Option.bind_eq_some_iff.mp hb
        have hmid := untouched_checkArrivalsTo (n := n) (i := i) (p := p) (s := { s with
          procs := s.procs.set idx { q with
            firstRunTime := if q.firstRunTime < 0 then s.currentTime else q.firstRunTime, remainingTime := r }
          readyQueue := rest
          currentTime := t
          slices := s.slices ++ [⟨idx, s.currentTime, t⟩] })
          ⟨by rw [List.getElem?_set_ne hne]; exact h.same, fun j hj => hqueue j (List.mem_cons_of_mem _ hj)⟩
        dsimp only at hb
        by_cases hr : r = 0
        · rw [if_pos hr] at hb
          obtain rfl := Option.some.inj hb
          exact ⟨by rw [List.getElem?_set_ne hne]; exact hmid.same, hmid.queue⟩
        · rw [if_neg hr] at hb
          obtain rfl := Option.some.inj hb
          refine ⟨hmid.same, fun j hj => ?_⟩
          rcases List.mem_append.mp hj with hj | hj
          · exact hmid.queue j hj
          · rw [List.mem_singleton.mp hj]
            exact hidx
  · cases hb

theorem body_length {quantum : Int} {s s' : RoundRobin} (hb : roundRobinBody quantum s = .next s') :
    s'.procs.length = s.procs.length := by
  by_cases hlt : s.completed < s.procs.length
  · cases hq : s.readyQueue with
    | nil =>
      rw [body_idle hlt hq] at hb
      obtain rfl := Loop.Outcome.next.inj hb
      rw [checkArrivals_procs]
    | cons idx rest =>
      cases hp : s.procs[idx]? with
      | none => simp [roundRobinBody, hlt, hq, hp] at hb
      | some p =>
        rw [body_slice hlt hq hp] at hb
        obtain rfl := Loop.Outcome.next.inj hb
        unfold RoundRobin.handBack
        split <;> simp [RoundRobin.afterSlice]
  · rw [body_exit hlt] at hb
    cases hb

/-- No process without work arrives late, and the number of processes and the time to do all the work are `int`s. -/
structure InRange (sort : List Process → List Process) (procs : List Process) : Prop where
  empty : ∀ p ∈ procs, p.burstTime = 0 → p.arrivalTime = 0
  few : procs.length < 2 ^ 31
  short : finishTime (sort procs) < 2 ^ 31

section
variable {sort : List Process → List Process} (hsort : SortsByArrival sort) {procs : List Process}
  (hf : ∀ p ∈ procs, Fresh p) {quantum : Int} (hquantum : 1 ≤ quantum) {fuel : Nat} {s : RoundRobin}

include hsort

/-- Where round robin ends in `int` it does so in exact times, at a time that is an `int`. -/
theorem roundRobinIntLoop_exact (hlen : procs.length < 2 ^ 31)
    (hrun : roundRobinIntLoop sort fuel procs quantum = some s) :
    roundRobinLoop sort fuel procs quantum = some s ∧ s.currentTime < 2 ^ 31 := by
  have hperm := (hsort procs).1
  simp only [roundRobinIntLoop, CInt.ofSize_of_lt hlen, Int.not_lt.mpr (Int.natCast_nonneg _), if_false,
    roundRobinIntInit_eq hsort hlen] at hrun
  rw [← hperm.length_eq] at hrun
  let I : RoundRobin → Prop := fun s => s.procs.length = (sort procs).length ∧ s.currentTime < 2 ^ 31
  have hinit : I (roundRobinInit sort procs) := by
    refine ⟨?_, by rw [roundRobinInit_currentTime]; omega⟩
    rw [roundRobinInit, admitInitially_eq]
    rfl
  have hcases : ∀ s, I s → roundRobinBodyInt (sort procs).length quantum s = .fault ∨
      roundRobinBodyInt (sort procs).length quantum s = roundRobinBody quantum s ∧
        ∀ s', roundRobinBody quantum s = .next s' → s'.currentTime < 2 ^ 31 :=
    fun s hs => bodyInt_cases (by rw [hs.1])
  have hstep : ∀ s s', I s → roundRobinBodyInt (sort procs).length quantum s = .next s' → I s' := by
    intro s s' hs hb
    rcases hcases s hs with hfault | ⟨heq, hclock⟩
    · rw [hfault] at hb
      cases hb
    · rw [heq] at hb
      exact ⟨(body_length hb).trans hs.1, hclock s' hb⟩
  refine ⟨?_, (Loop.run_inv hstep hrun hinit).1.2⟩
  exact Loop.run_of_faults (fun s hs => (hcases s hs).imp_right And.left) hstep hinit hrun

/-- Of too many processes, one is left as it was. -/
theorem roundRobinIntLoop_many (hlen : 2 ^ 31 ≤ procs.length)
    (hrun : roundRobinIntLoop sort fuel procs quantum = some s) : ∃ p ∈ s.procs, p ∈ procs := by
  have hperm := (hsort procs).1
  have hle := CInt.ofSize_lt procs.length
  unfold roundRobinIntLoop at hrun
  by_cases hneg : CInt.ofSize procs.length < 0
  · simp [hneg] at hrun
  · simp only [hneg, if_false] at hrun
    obtain ⟨i, hi⟩ := Int.eq_ofNat_of_zero_le (not_lt.mp hneg)
    have hlt : i < (sort procs).length := by
      rw [hperm.length_eq]
      omega
    have hinit : Untouched (CInt.ofSize procs.length) i (sort procs)[i] (roundRobinIntInit sort procs) := by
      rw [roundRobinIntInit, admitInitiallyTo_eq]
      exact Untouched.pushAll ⟨List.getElem?_eq_getElem hlt, by simp⟩ _
    obtain ⟨h, -⟩ := Loop.run_inv (fun s s' h hb => Untouched.next (by rw [hi]) h hb) hrun hinit
    exact ⟨_, List.mem_of_getElem? h.same, hperm.subset (List.getElem_mem hlt)⟩

include hf hquantum

/-- A run that ends has left nobody out for having no work. -/
theorem empty_of_run (hrun : roundRobinLoop sort fuel procs quantum = some s) :
    ∀ p ∈ procs, p.burstTime = 0 → p.arrivalTime = 0 := by
  obtain ⟨hperm, -⟩ := hsort procs
  have hf' : ∀ p ∈ sort procs, Fresh p := fun p hp => hf p (hperm.subset hp)
  intro p hp hburst
  by_contra hne
  have harr := (hf p hp).arrival
  obtain ⟨i, hi⟩ := List.mem_iff_getElem?.mp (hperm.symm.subset hp)
  rw [roundRobinLoop_none hf' hquantum hi hburst (by omega)] at hrun
  cases hrun

/-- A run ends when all the work is done. -/
theorem finishTime_of_run (hrun : roundRobinLoop sort fuel procs quantum = some s) :
    finishTime (sort procs) = s.currentTime := by
  obtain ⟨hperm, -⟩ := hsort procs
  have hempty := empty_of_run hsort hf hquantum hrun
  have hf' : ∀ p ∈ sort procs, Fresh p := fun p hp => hf p (hperm.subset hp)
  have hempty' : ∀ p ∈ sort procs, p.burstTime = 0 → p.arrivalTime = 0 := fun p hp => hempty p (hperm.subset hp)
  obtain ⟨h, hexit⟩ := Loop.run_inv (fun s s' (h : DoneBy _ _ s) hb => h.next hf' hempty' hquantum hb) hrun
    (doneBy_init hsort hf)
  have hend := (roundRobin_while (sort procs) quantum).not_of_exit h.inv hexit
  apply h.work.due.done
  intro j hj
  obtain ⟨p, hp, rfl⟩ := List.mem_map.mp hj
  obtain ⟨i, hp⟩ := List.mem_iff_getElem?.mp hp
  have hp₀ := List.getElem?_eq_getElem (h.inv.length ▸ (List.getElem?_eq_some_iff.mp hp).1)
  have hfin := finished_of_completed h.inv hend hp₀ hp
  exact ⟨hfin.remaining, hfin.arrived⟩

/-- **Completion of round robin.** It completes every process if none has run before, none without work arrives
late, and the number of processes and the time to do all the work are `int`s. If none has run before, only then. -/
theorem roundRobin_completes_iff :
    ((∀ p ∈ procs, p.firstRunTime < 0) ∧ InRange sort procs →
      ∃ fuel r, roundRobinInt sort fuel procs quantum = some r ∧ Complete r.processes) ∧
    ((∀ p ∈ procs, p.firstRunTime < 0) →
      (∃ fuel r, roundRobinInt sort fuel procs quantum = some r ∧ Complete r.processes) → InRange sort procs) := by
  constructor
  · rintro ⟨hnew, h⟩
    obtain ⟨fuel, r, hrun, hr⟩ := roundRobin_complete hsort (fun p hp => ⟨hf p hp, hnew p hp⟩) h.empty hquantum
    exact ⟨fuel, r, by rw [roundRobinInt_eq hsort h.few hf h.empty hquantum h.short, hrun], hr⟩
  · rintro hnew ⟨fuel, r, hrun, hr⟩
    obtain ⟨s, hloop, hres⟩ := Option.bind_eq_some_iff.mp hrun
    obtain ⟨metrics, -, hres⟩ := Option.bind_eq_some_iff.mp hres
    obtain rfl := Option.some.inj hres
    have hfew : procs.length < 2 ^ 31 := by
      by_contra hmany
      obtain ⟨p, hp, hp'⟩ := roundRobinIntLoop_many hsort (not_lt.mp hmany) hloop
      have hfirst := (hr p hp).2.1
      have harr := (hf p hp').arrival
      have := hnew p hp'
      omega
    obtain ⟨hexact, hclock⟩ := roundRobinIntLoop_exact hsort hfew hloop
    refine ⟨empty_of_run hsort hf hquantum hexact, hfew, ?_⟩
    rw [finishTime_of_run hsort hf hquantum hexact]
    exact hclock

end

/-- Two processes of which one has nothing to do, on arrival at time 0. -/
def oneEmpty : List Process :=
  [{ pid := 1, arrivalTime := 0, burstTime := 0, priority := 0, remainingTime := 0 },
    { pid := 2, arrivalTime := 3, burstTime := 5, priority := 0, remainingTime := 5 }]

theorem roundRobin_completes_iff_empty :
    ∃ fuel r, roundRobinInt stableSort fuel oneEmpty 2 = some r ∧ Complete r.processes := by
  have hf : ∀ p ∈ oneEmpty, Fresh p := by decide
  exact (roundRobin_completes_iff stableSort_sorts hf (by decide)).1
    ⟨by decide, ⟨by decide, by decide, by decide⟩⟩

/-- One process without work that arrives at time 1. -/
theorem roundRobin_late_empty : ¬ ∃ fuel r,
    roundRobinInt stableSort fuel
      [{ pid := 1, arrivalTime := 1, burstTime := 0, priority := 0, remainingTime := 0 }] 1 =
      some r ∧ Complete r.processes := by
  rintro ⟨fuel, r, hr, -⟩
  obtain ⟨s, hloop, -⟩ := Option.bind_eq_some_iff.mp hr
  have hexact := (roundRobinIntLoop_exact stableSort_sorts (by decide) hloop).1
  rw [roundRobinLoop_none (i := 0) (by decide) (by decide) rfl rfl (by decide)] at hexact
  cases hexact

end Playground.Scheduler
