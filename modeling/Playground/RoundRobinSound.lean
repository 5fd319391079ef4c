import Mathlib.Algebra.BigOperators.Group.List.Basic
import Mathlib.Algebra.GroupWithZero.Nat
import Playground.RoundRobin

/-!
# When round robin completes

A round lets time pass, works on a process or completes one. Without work to
do, time passes until the next arrival; so the rounds end, unless a process
without any work arrives late. That one is never admitted: the later loops
skip it, and the scheduler counts on it for ever.
-/

namespace Playground.Scheduler

section
variable {jobs : List Process} (hf : ∀ p ∈ jobs, Fresh p) {quantum : Int} (hquantum : 1 ≤ quantum) {s : RoundRobin}
  (hi : Inv jobs s.currentTime none s)

/-- What a round does: a tick without a ready process, or a slice of the first one in the queue. -/
inductive Round (jobs : List Process) (quantum : Int) (s : RoundRobin) : RoundRobin → Prop
  | idle (hlt : s.completed < s.procs.length) (hq : s.readyQueue = []) :
    Round jobs quantum s (checkArrivals { s with currentTime := s.currentTime + 1 })
  | slice (idx : Nat) (rest : List Nat) (p₀ p : Process) (hlt : s.completed < s.procs.length)
      (hq : s.readyQueue = idx :: rest) (hp₀ : jobs[idx]? = some p₀) (hp : s.procs[idx]? = some p)
      (hst : Stage s.currentTime p₀ p True True) :
    Round jobs quantum s
      ((checkArrivals (s.afterSlice quantum idx rest p)).handBack idx (p.afterSlice quantum s.currentTime))

include hf hquantum in
theorem Inv.round {s' : RoundRobin} (hi : Inv jobs s.currentTime none s) (h : Round jobs quantum s s') :
    Inv jobs s'.currentTime none s' := by
  cases h with
  | idle hlt hq =>
    rw [checkArrivals_currentTime]
    exact hi.tick.checkArrivals hf
  | slice idx rest p₀ p hlt hq hp₀ hp hst =>
    have hready := hst.ready trivial
    have hfresh := hf p₀ (List.mem_of_getElem? hp₀)
    obtain ⟨hrun, hrem, hfirst⟩ := hready.slice hquantum (hst.arrival ▸ hfresh.arrival)
    have harr : p.arrivalTime ≤ s.currentTime + min quantum p.remainingTime := hready.arrived.trans (by omega)
    have hi' := (hi.slice hq hrun).checkArrivals hf
    rw [← checkArrivals_currentTime] at hi'
    rw [handBack_currentTime]
    have hp' : (Scheduler.checkArrivals (s.afterSlice quantum idx rest p)).procs[idx]? =
        some (p.afterSlice quantum s.currentTime) := by
      have hlt' := (List.getElem?_eq_some_iff.mp hp).1
      simp [RoundRobin.afterSlice, hlt']
    have harrival : (p.afterSlice quantum s.currentTime).arrivalTime = p₀.arrivalTime := hst.arrival
    have hburst : (p.afterSlice quantum s.currentTime).burstTime = p₀.burstTime := hst.burst
    apply hi'.handBack hp₀ hp' harrival hburst
    · intro hne
      exact ⟨by simpa using harr, hrem, fun _ => by omega, fun h => Or.inr (by simpa using hfirst h)⟩
    · intro hzero
      refine ⟨by simpa using harr, hzero, ⟨by simpa using harr, le_rfl⟩, fun h => ?_⟩
      have h := hfirst h
      rw [hzero] at h
      simpa using h

omit hf hquantum hi in
theorem roundRobin_while (jobs : List Process) (quantum : Int) :
    Loop.While (roundRobinBody quantum) (fun s => s.completed < s.procs.length)
      (fun s => Inv jobs s.currentTime none s) (Round jobs quantum) where
  exit := fun _ => body_exit
  next := by
    intro s hi hlt
    cases hq : s.readyQueue with
    | nil => exact ⟨_, body_idle hlt hq, .idle hlt hq⟩
    | cons idx rest =>
      have hmem : idx ∈ s.readyQueue := by simp [hq]
      obtain ⟨hidx, hin, -⟩ := hi.queued idx hmem
      have hp := List.getElem?_eq_getElem hidx
      have hp₀ := List.getElem?_eq_getElem (hi.length ▸ hidx)
      have hst := hi.stage idx _ _ (by simp) hp₀ hp
      simp only [hin, hmem] at hst
      exact ⟨_, body_slice hlt hq hp, .slice idx rest _ _ hlt hq hp₀ hp hst⟩

include hi

theorem queued_of_completed (h : ¬ s.completed < s.procs.length) {i : Nat} (hlt : i < s.procs.length) :
    s.inQueue i = true ∧ s.readyQueue = [] := by
  have hcount := hi.count
  have hqueue : s.readyQueue = [] := List.length_eq_zero_iff.mp (by omega)
  have hwait : s.waiting = [] := List.length_eq_zero_iff.mp (by omega)
  have hmem : i ∉ s.waiting := by simp [hwait]
  exact ⟨by simpa [RoundRobin.waiting, hlt] using hmem, hqueue⟩

theorem finished_of_completed (h : ¬ s.completed < s.procs.length) {i : Nat} {p₀ p : Process}
    (hp₀ : jobs[i]? = some p₀) (hp : s.procs[i]? = some p) : Finished s.currentTime p₀ p := by
  obtain ⟨hin, hq⟩ := queued_of_completed hi h (List.getElem?_eq_some_iff.mp hp).1
  exact (hi.stage i p₀ p (by simp) hp₀ hp).finished hin (by simp [hq])

end

/-! ## Termination -/

theorem sum_map_set {α : Type*} {l : List α} {i : Nat} {a : α} (h : l[i]? = some a) (b : α) (f : α → Nat) :
    ((l.set i b).map f).sum + f a = (l.map f).sum + f b := by
  induction l generalizing i with
  | nil => simp at h
  | cons c l ih =>
    cases i with
    | zero =>
      obtain rfl := Option.some.inj h
      simp only [List.set_cons_zero, List.map_cons, List.sum_cons]
      omega
    | succ i =>
      have ih := ih h
      simp only [List.set_cons_succ, List.map_cons, List.sum_cons]
      omega

def workLeft (procs : List Process) : Nat := (procs.map fun p => p.remainingTime.toNat).sum

/-- Work, completions and time before `horizon`: every round uses up one of them. -/
def roundsLeft (horizon : Int) (s : RoundRobin) : Nat :=
  workLeft s.procs + (s.procs.length - s.completed) + (horizon - s.currentTime).toNat

theorem workLeft_slice (quantum : Int) (rest : List Nat) {s : RoundRobin} {idx : Nat} {p : Process}
    (hp : s.procs[idx]? = some p) :
    workLeft ((checkArrivals (s.afterSlice quantum idx rest p)).handBack idx
        (p.afterSlice quantum s.currentTime)).procs + p.remainingTime.toNat =
      workLeft s.procs + (p.afterSlice quantum s.currentTime).remainingTime.toNat := by
  unfold RoundRobin.handBack
  split
  · simp only [checkArrivals_procs, RoundRobin.afterSlice, List.set_set]
    exact sum_map_set hp _ _
  · simp only [checkArrivals_procs, RoundRobin.afterSlice]
    exact sum_map_set hp _ _

section
variable {jobs : List Process} (hf : ∀ p ∈ jobs, Fresh p) {quantum : Int} (hquantum : 1 ≤ quantum)
  {s s' : RoundRobin} (hi : Inv jobs s.currentTime none s)

include hi

theorem exists_waiting (hlt : s.completed < s.procs.length) (hq : s.readyQueue = []) :
    ∃ (i : Nat) (p : Process), jobs[i]? = some p ∧ s.inQueue i = false ∧ s.procs[i]? = some p ∧
      0 < p.arrivalTime ∧ (0 < p.burstTime → s.currentTime < p.arrivalTime) := by
  have hcount := hi.count
  rw [hq] at hcount
  obtain ⟨i, hmem⟩ := List.exists_mem_of_length_pos (l := s.waiting) (by simp at hcount; omega)
  simp only [RoundRobin.waiting, List.mem_filter, List.mem_range, Bool.not_eq_true'] at hmem
  obtain ⟨hlt', hin⟩ := hmem
  have hp := List.getElem?_eq_getElem hlt'
  have hp₀ := List.getElem?_eq_getElem (hi.length ▸ hlt')
  obtain ⟨he, harr, hlate⟩ := (hi.stage i _ _ (by simp) hp₀ hp).waiting (by simp [hin])
  rw [he] at hp harr hlate
  exact ⟨i, _, hp₀, hin, hp, harr, hlate⟩

include hf hquantum in
theorem roundsLeft_lt (hzero : ∀ p ∈ jobs, p.burstTime = 0 → p.arrivalTime = 0) {horizon : Int}
    (hhorizon : ∀ p ∈ jobs, p.arrivalTime ≤ horizon) (h : Round jobs quantum s s') :
    roundsLeft horizon s' < roundsLeft horizon s := by
  unfold roundsLeft
  cases h with
  | idle hlt hq =>
    obtain ⟨i, p, hp₀, -, -, harr, hlate⟩ := exists_waiting hi hlt hq
    have hmem := List.mem_of_getElem? hp₀
    have hburst := (hf p hmem).burst
    have hne : p.burstTime ≠ 0 := fun e => by
      have := hzero p hmem e
      omega
    have hsoon := hlate (by omega)
    have hle := hhorizon p hmem
    simp only [checkArrivals_procs, checkArrivals_completed, checkArrivals_currentTime]
    omega
  | slice idx rest p₀ p hlt hq hp₀ hp hst =>
    have hrem := (hst.ready trivial).nonneg
    have hwork := workLeft_slice quantum rest hp
    have hlen : ((checkArrivals (s.afterSlice quantum idx rest p)).handBack idx
        (p.afterSlice quantum s.currentTime)).procs.length = s.procs.length := by
      unfold RoundRobin.handBack
      split <;> simp [RoundRobin.afterSlice]
    have hafter : (p.afterSlice quantum s.currentTime).remainingTime =
        p.remainingTime - min quantum p.remainingTime := rfl
    have htime : (s.afterSlice quantum idx rest p).currentTime = s.currentTime + min quantum p.remainingTime := rfl
    rw [hlen, handBack_currentTime, checkArrivals_currentTime, htime]
    by_cases hzero' : (p.afterSlice quantum s.currentTime).remainingTime = 0
    · have hcompleted : ((checkArrivals (s.afterSlice quantum idx rest p)).handBack idx
          (p.afterSlice quantum s.currentTime)).completed = s.completed + 1 := by
        simp [RoundRobin.handBack, hzero', RoundRobin.afterSlice]
      omega
    · have hcompleted : ((checkArrivals (s.afterSlice quantum idx rest p)).handBack idx
          (p.afterSlice quantum s.currentTime)).completed = s.completed := by
        simp [RoundRobin.handBack, hzero', RoundRobin.afterSlice]
      omega

end

/-! ## The result -/

def Complete (procs : List Process) : Prop :=
  ∀ p ∈ procs, p.remainingTime = 0 ∧ p.arrivalTime ≤ p.firstRunTime ∧
    p.firstRunTime + p.burstTime ≤ p.completionTime

theorem exists_horizon (procs : List Process) : ∃ horizon : Int, ∀ p ∈ procs, p.arrivalTime ≤ horizon := by
  induction procs with
  | nil => exact ⟨0, by simp⟩
  | cons p procs ih =>
    obtain ⟨horizon, h⟩ := ih
    refine ⟨max horizon p.arrivalTime, fun q hq => ?_⟩
    rcases List.mem_cons.mp hq with rfl | hq
    · exact le_max_right _ _
    · exact (h q hq).trans (le_max_left _ _)

section
variable {sort : List Process → List Process} {procs : List Process} (hf : ∀ p ∈ sort procs, Fresh p)
  {quantum : Int} (hquantum : 1 ≤ quantum)

include hf hquantum

/-- The rounds end if no process without work arrives late, in a state where nothing is left to do. -/
theorem roundRobinLoop_total (hzero : ∀ p ∈ sort procs, p.burstTime = 0 → p.arrivalTime = 0)
    {P : RoundRobin → Prop} (hP : P (roundRobinInit sort procs))
    (hround : ∀ s s', Inv (sort procs) s.currentTime none s → P s → Round (sort procs) quantum s s' → P s') :
    ∃ fuel s, roundRobinLoop sort fuel procs quantum = some s ∧ Inv (sort procs) s.currentTime none s ∧ P s ∧
      ¬ s.completed < s.procs.length := by
  obtain ⟨horizon, hhorizon⟩ := exists_horizon (sort procs)
  have hi := inv_init hf
  rw [← roundRobinInit_currentTime sort procs] at hi
  exact (roundRobin_while (sort procs) quantum).total (roundsLeft horizon)
    (fun s s' hi hr => hi.round hf hquantum hr)
    hround (fun s s' hi hr => roundsLeft_lt hf hquantum hi hzero hhorizon hr) hi hP

omit hf hquantum in
theorem inQueue_checkArrivals {s : RoundRobin} {i : Nat} {p : Process} (hin : s.inQueue i = false)
    (hp : s.procs[i]? = some p) (hrem : p.remainingTime = 0) : (checkArrivals s).inQueue i = false := by
  rw [checkArrivals_eq]
  simp [RoundRobin.pushAll, hin, mem_arrivals hp, hrem]

theorem roundRobinLoop_none {i : Nat} {p : Process} (hp : (sort procs)[i]? = some p) (hburst : p.burstTime = 0)
    (harr : 0 < p.arrivalTime) (fuel : Nat) : roundRobinLoop sort fuel procs quantum = none := by
  apply Loop.run_none (I := fun s => Inv (sort procs) s.currentTime none s ∧ s.inQueue i = false)
  · intro s ⟨hi, hin⟩
    have hlt : i < s.procs.length := hi.length ▸ (List.getElem?_eq_some_iff.mp hp).1
    obtain ⟨he, -, -⟩ := (hi.stage i p _ (by simp) hp (List.getElem?_eq_getElem hlt)).waiting (by simp [hin])
    have hpi : s.procs[i]? = some p := he ▸ List.getElem?_eq_getElem hlt
    have hrem : p.remainingTime = 0 := (hf p (List.mem_of_getElem? hp)).remaining.trans hburst
    have hwait : 0 < s.waiting.length := by
      apply List.length_pos_of_mem (a := i)
      simp [RoundRobin.waiting, hin, hlt]
    have hcount := hi.count
    obtain ⟨s', hb, hr⟩ := (roundRobin_while (sort procs) quantum).next s hi (by omega)
    refine ⟨s', hb, hi.round hf hquantum hr, ?_⟩
    cases hr with
    | idle hlt hq => exact inQueue_checkArrivals (s := { s with currentTime := s.currentTime + 1 }) hin hpi hrem
    | slice idx rest q₀ q hlt hq hq₀ hq' hst =>
      have hne : idx ≠ i := by
        intro heq
        subst heq
        have h := (hi.queued idx (by simp [hq])).2.1
        simp [hin] at h
      rw [handBack_inQueue]
      apply inQueue_checkArrivals (s := s.afterSlice quantum idx rest q) hin _ hrem
      simp [RoundRobin.afterSlice, List.getElem?_set_ne hne, hpi]
  · have hlt := (List.getElem?_eq_some_iff.mp hp).1
    have harrived : ¬ p.arrivalTime ≤ 0 := not_le.mpr harr
    refine ⟨?_, ?_⟩
    · rw [roundRobinInit_currentTime]
      exact inv_init hf
    · unfold roundRobinInit
      rw [admitInitially_eq]
      simp [RoundRobin.pushAll, RoundRobin.arrived, hp, harrived]

end

/-- Round robin completes if no process without work arrives late. -/
theorem roundRobin_complete {sort : List Process → List Process} (hsort : SortsByArrival sort)
    {procs : List Process} (hf : ∀ p ∈ procs, Fresh p ∧ p.firstRunTime < 0)
    (hzero : ∀ p ∈ procs, p.burstTime = 0 → p.arrivalTime = 0) {quantum : Int} (hquantum : 1 ≤ quantum) :
    ∃ fuel r, roundRobin sort fuel procs quantum = some r ∧ Complete r.processes := by
  obtain ⟨hperm, -⟩ := hsort procs
  have hf' : ∀ p ∈ sort procs, Fresh p := fun p hp => (hf p (hperm.subset hp)).1
  obtain ⟨fuel, s, hrun, hi, -, hend⟩ := roundRobinLoop_total (P := fun _ => True) hf' hquantum
    (fun p hp => hzero p (hperm.subset hp)) trivial fun _ _ _ _ _ => trivial
  refine ⟨fuel, result s.procs, by simp [roundRobin, hrun], fun p hp => ?_⟩
  obtain ⟨i, hpi⟩ := List.mem_iff_getElem?.mp hp
  have hlt := (List.getElem?_eq_some_iff.mp hpi).1
  have hp₀ := List.getElem?_eq_getElem (hi.length ▸ hlt)
  have hfin := finished_of_completed hi hend hp₀ hpi
  obtain ⟨hle, hrun⟩ := hfin.firstRun (hf _ (hperm.subset (List.getElem_mem _))).2
  exact ⟨hfin.remaining, hle, hrun⟩

end Playground.Scheduler
