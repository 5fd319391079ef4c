import Playground.Lib.Workload
import Playground.PriorityScheduling
import Playground.RoundRobinSound

/-!
# The makespan of both schedulers

Neither scheduler lets the processor be idle while a process that has arrived
is unfinished. So both are done at the same time: when all the work, taken in
the order of arrival, is done.
-/

namespace Playground.Scheduler

def makespan (procs : List Process) : Option Int := (procs.map Process.completionTime).max?

/-- `t := max(t, arrival) + burst` for each process in turn. -/
def finishTime (procs : List Process) : Int := procs.foldl (fun t p => max t p.arrivalTime + p.burstTime) 0

def jobsOf (procs : List Process) : List Workload.Job := procs.map fun p => (p.arrivalTime, p.remainingTime)

/-! ## Conserving work -/

/-- All is done at `t`; and when the last process is completed, that is now. -/
structure Conserving (t now : Int) (procs : List Process) (completed : Nat) : Prop where
  due : Workload.Due now t (jobsOf procs)
  last : completed = procs.length → procs = [] ∨ ∃ p ∈ procs, p.completionTime = now

theorem conserving_init {jobs sorted : List Process} (hf : ∀ p ∈ jobs, Fresh p)
    (hp : sorted.Perm jobs) (hs : (sorted.map Process.arrivalTime).Pairwise (· ≤ ·)) :
    Conserving (finishTime sorted) 0 jobs 0 where
  due := by
    have heq : finishTime sorted = Workload.finish 0 (jobsOf sorted) := by
      rw [finishTime, Workload.finish, jobsOf, List.foldl_map]
      apply List.foldl_ext
      intro t p hmem
      rw [(hf p (hp.subset hmem)).remaining]
    rw [heq]
    apply Workload.due_of_sorted (hp.map _)
    simpa [jobsOf, Function.comp_def] using hs
  last := fun h => Or.inl (List.length_eq_zero_iff.mp h.symm)

section
variable {t now : Int} {procs : List Process} {completed : Nat} (h : Conserving t now procs completed)

include h

theorem Conserving.idle (hlt : completed < procs.length)
    (hlate : ∀ p ∈ procs, p.remainingTime = 0 ∧ p.arrivalTime ≤ now ∨ p.remainingTime ≠ 0 ∧ now < p.arrivalTime)
    (hex : ∃ p ∈ procs, p.remainingTime ≠ 0) : Conserving t (now + 1) procs completed where
  due := by
    apply h.due.idle
    · intro j hj hne
      obtain ⟨p, hp, rfl⟩ := List.mem_map.mp hj
      exact ((hlate p hp).resolve_left fun h => hne h.1).2
    · intro j hj hzero
      obtain ⟨p, hp, rfl⟩ := List.mem_map.mp hj
      exact ((hlate p hp).resolve_right fun h => h.1 hzero).2
    · obtain ⟨p, hp, hne⟩ := hex
      exact ⟨_, List.mem_map_of_mem hp, hne⟩
  last := fun e => absurd e (Nat.ne_of_lt hlt)

/-- The process at `i` runs for `d`, and `p'` takes its place. -/
theorem Conserving.run {i : Nat} {p p' : Process} {d : Int} {completed' : Nat} (hp : procs[i]? = some p)
    (harr : p.arrivalTime ≤ now) (hd : 0 ≤ d) (hnonneg : ∀ p ∈ procs, 0 ≤ p.remainingTime)
    (harrival : p'.arrivalTime = p.arrivalTime) (hremaining : p'.remainingTime = p.remainingTime - d)
    (hlast : completed' = procs.length → p'.completionTime = now + d) :
    Conserving t (now + d) (procs.set i p') completed' where
  due := by
    have hset : jobsOf (procs.set i p') = (jobsOf procs).set i (p.arrivalTime, p.remainingTime - d) := by
      rw [jobsOf, List.map_set, harrival, hremaining]
      rfl
    rw [hset]
    apply h.due.run _ harr hd
    · intro j hj
      obtain ⟨q, hq, rfl⟩ := List.mem_map.mp hj
      exact hnonneg q hq
    · simp [jobsOf, hp]
  last := by
    intro e
    rw [List.length_set] at e
    exact Or.inr ⟨p', List.mem_set (List.getElem?_eq_some_iff.mp hp).1 p', hlast e⟩

theorem Conserving.makespan (hc : completed = procs.length)
    (hdone : ∀ p ∈ procs, p.remainingTime = 0 ∧ p.arrivalTime ≤ now ∧ p.completionTime ≤ now) :
    makespan procs = if procs = [] then none else some t := by
  have ht : t = now := by
    apply h.due.done
    intro j hj
    obtain ⟨p, hp, rfl⟩ := List.mem_map.mp hj
    exact ⟨(hdone p hp).1, (hdone p hp).2.1⟩
  rcases h.last hc with rfl | ⟨p, hp, hcompletion⟩
  · rfl
  · rw [if_neg (List.ne_nil_of_mem hp), Scheduler.makespan, List.max?_eq_some_iff, ht]
    constructor
    · exact List.mem_map.mpr ⟨p, hp, hcompletion⟩
    · intro c hc
      obtain ⟨q, hq, rfl⟩ := List.mem_map.mp hc
      exact (hdone q hq).2.2

end

/-! ## Round robin -/

section
variable {jobs : List Process} (hf : ∀ p ∈ jobs, Fresh p) (hzero : ∀ p ∈ jobs, p.burstTime = 0 → p.arrivalTime = 0)
  {s : RoundRobin} (hi : Inv jobs s.currentTime none s)

include hf hzero hi

/-- A process is late with all its work to do, or it has arrived and is in the queue while it has work. -/
theorem Inv.lateOrArrived {i : Nat} {p : Process} (hp : s.procs[i]? = some p) :
    s.currentTime < p.arrivalTime ∧ 0 < p.remainingTime ∨
      p.arrivalTime ≤ s.currentTime ∧ 0 ≤ p.remainingTime ∧ (i ∉ s.readyQueue → p.remainingTime = 0) := by
  have hlt := (List.getElem?_eq_some_iff.mp hp).1
  have hp₀ := List.getElem?_eq_getElem (hi.length ▸ hlt)
  have hst := hi.stage i _ p (by simp) hp₀ hp
  have hmem := List.mem_of_getElem? hp₀
  have hfresh := hf _ hmem
  by_cases hin : s.inQueue i = true
  · right
    by_cases hq : i ∈ s.readyQueue
    · exact ⟨(hst.ready hq).arrived, (hst.ready hq).nonneg, fun h => absurd hq h⟩
    · have hfin := hst.finished hin hq
      exact ⟨hfin.arrived, hfin.remaining.ge, fun _ => hfin.remaining⟩
  · left
    obtain ⟨he, harr, hlate⟩ := hst.waiting hin
    rw [he] at harr hlate ⊢
    have hne := mt (hzero _ hmem) harr.ne'
    have hburst := hfresh.burst.lt_of_ne' hne
    exact ⟨hlate hburst, hfresh.remaining ▸ hburst⟩

theorem Inv.remaining_nonneg : ∀ p ∈ s.procs, 0 ≤ p.remainingTime := by
  intro p hp
  obtain ⟨i, hp⟩ := List.mem_iff_getElem?.mp hp
  rcases hi.lateOrArrived hf hzero hp with h | h
  · exact h.2.le
  · exact h.2.1

theorem Conserving.round {t quantum : Int} (hquantum : 1 ≤ quantum) {s' : RoundRobin}
    (h : Conserving t s.currentTime s.procs s.completed) (hr : Round jobs quantum s s') :
    Conserving t s'.currentTime s'.procs s'.completed := by
  cases hr with
  | idle hlt hq =>
    rw [checkArrivals_currentTime, checkArrivals_procs, checkArrivals_completed]
    apply h.idle hlt
    · intro p hp
      obtain ⟨i, hp⟩ := List.mem_iff_getElem?.mp hp
      rcases hi.lateOrArrived hf hzero hp with ⟨hlate, hpos⟩ | ⟨harr, -, hzero⟩
      · exact Or.inr ⟨hpos.ne', hlate⟩
      · exact Or.inl ⟨hzero (by simp [hq]), harr⟩
    · obtain ⟨i, p, hp₀, -, hp, harr, -⟩ := exists_waiting hi hlt hq
      have hmem := List.mem_of_getElem? hp₀
      exact ⟨p, List.mem_of_getElem? hp, by rw [(hf p hmem).remaining]; exact mt (hzero p hmem) harr.ne'⟩
  | slice idx rest p₀ p hlt hq hp₀ hp hst =>
    have hready := hst.ready trivial
    have hfresh := hf p₀ (List.mem_of_getElem? hp₀)
    have hrun := (hready.slice hquantum (hst.arrival ▸ hfresh.arrival)).1
    have hnonneg := hi.remaining_nonneg hf hzero
    unfold RoundRobin.handBack
    split
    · simp only [checkArrivals_procs, checkArrivals_currentTime, checkArrivals_completed, RoundRobin.afterSlice,
        List.set_set]
      exact h.run hp hready.arrived hrun hnonneg rfl rfl fun _ => rfl
    · simp only [checkArrivals_procs, checkArrivals_currentTime, checkArrivals_completed, RoundRobin.afterSlice]
      exact h.run hp hready.arrived hrun hnonneg rfl rfl fun e => absurd e (Nat.ne_of_lt hlt)

end

/-! ## Priority scheduling -/

section
variable {jobs : List Process} (hf : ∀ p ∈ jobs, Fresh p ∧ 0 < p.burstTime) {s : Priority} (hi : PriorityInv jobs s)

include hf hi

theorem PriorityInv.pendingOrDone {i : Nat} {p : Process} (hp : s.procs[i]? = some p) :
    s.done i = false ∧ 0 < p.remainingTime ∨
      s.done i = true ∧ p.remainingTime = 0 ∧ p.arrivalTime ≤ s.currentTime ∧ p.completionTime ≤ s.currentTime := by
  have hlt := (List.getElem?_eq_some_iff.mp hp).1
  have hp₀ := List.getElem?_eq_getElem (hi.length ▸ hlt)
  obtain ⟨hfresh, hburst⟩ := hf _ (List.mem_of_getElem? hp₀)
  cases hd : s.done i with
  | false =>
    obtain rfl := Option.some.inj ((hi.pending i _ hp₀ hd).symm.trans hp)
    exact Or.inl ⟨rfl, hfresh.remaining ▸ hburst⟩
  | true =>
    obtain ⟨start, hget, harr, hle⟩ := hi.done i _ hp₀ hd
    obtain rfl := Option.some.inj (hget.symm.trans hp)
    refine Or.inr ⟨rfl, rfl, ?_, hle⟩
    simp only [Process.ranFrom]
    omega

theorem Conserving.priorityRound {t : Int} {s' : Priority} (h : Conserving t s.currentTime s.procs s.completed)
    (hr : PriorityRound jobs s s') : Conserving t s'.currentTime s'.procs s'.completed := by
  have hnonneg : ∀ p ∈ s.procs, 0 ≤ p.remainingTime := by
    intro p hp
    obtain ⟨i, hp⟩ := List.mem_iff_getElem?.mp hp
    rcases hi.pendingOrDone hf hp with h | h
    · exact h.2.le
    · exact h.2.1.ge
  cases hr with
  | idle hlt hnone =>
    apply h.idle hlt
    · intro p hp
      obtain ⟨i, hp⟩ := List.mem_iff_getElem?.mp hp
      rcases hi.pendingOrDone hf hp with ⟨hd, hpos⟩ | ⟨-, hzero, harr, -⟩
      · have hlate : ¬ p.arrivalTime ≤ s.currentTime := fun h =>
          hnone i (List.getElem?_eq_some_iff.mp hp).1 p ⟨hp, hd, h⟩
        exact Or.inr ⟨hpos.ne', not_le.mp hlate⟩
      · exact Or.inl ⟨hzero, harr⟩
    · obtain ⟨i, p, hp₀, hp, -⟩ := exists_pending hi hlt
      obtain ⟨hfresh, hburst⟩ := hf p (List.mem_of_getElem? hp₀)
      exact ⟨p, List.mem_of_getElem? hp, by rw [hfresh.remaining]; exact hburst.ne'⟩
  | run best p hlt hbest hp hc =>
    obtain ⟨hfresh, hburst⟩ := hf p (List.mem_of_getElem? hp)
    have hrem : (p.ranFrom s.currentTime).remainingTime = p.remainingTime - p.burstTime := by
      simp [Process.ranFrom, hfresh.remaining]
    exact h.run hc.get hc.arrived hburst.le hnonneg rfl hrem fun _ => rfl

end

/-! ## The result -/

/-- In exact times both schedulers are done when all the work is, taken in the order of arrival. Only the makespan
of no processes is not defined. -/
theorem makespan_exact {sort : List Process → List Process} (hsort : SortsByArrival sort) {procs : List Process}
    (hf : ∀ p ∈ procs, Fresh p ∧ 0 < p.burstTime) {quantum : Int} (hquantum : 1 ≤ quantum) :
    ∃ fuel₁ r₁ fuel₂ r₂, roundRobin sort fuel₁ procs quantum = some r₁ ∧ priorityScheduling fuel₂ procs = some r₂ ∧
      makespan r₁.processes = makespan r₂.processes ∧
      makespan r₁.processes = if procs = [] then none else some (finishTime (sort procs)) := by
  obtain ⟨hperm, hsorted⟩ := hsort procs
  have hf' : ∀ p ∈ sort procs, Fresh p ∧ 0 < p.burstTime := fun p hp => hf p (hperm.subset hp)
  have hfresh : ∀ p ∈ sort procs, Fresh p := fun p hp => (hf' p hp).1
  have hzero : ∀ p ∈ sort procs, p.burstTime = 0 → p.arrivalTime = 0 := by
    intro p hp h
    have := (hf' p hp).2
    omega
  obtain ⟨fuel₁, s₁, hrun₁, hi₁, h₁, hend₁⟩ := roundRobinLoop_total
    (P := fun s => Conserving (finishTime (sort procs)) s.currentTime s.procs s.completed) hfresh hquantum hzero
    (by
      rw [roundRobinInit, admitInitially_eq]
      exact conserving_init hfresh (List.Perm.refl _) hsorted)
    (fun s s' hi h hr => h.round hfresh hzero hi hquantum hr)
  obtain ⟨fuel₂, s₂, hrun₂, hi₂, h₂, hend₂⟩ := priorityScheduling_total
    (P := fun s => Conserving (finishTime (sort procs)) s.currentTime s.procs s.completed)
    (fun p hp => (hf p hp).1.burst) (conserving_init (fun p hp => (hf p hp).1) hperm hsorted)
    (fun s s' hi h hr => h.priorityRound hf hi hr)
  have hm₁ := h₁.makespan (by have := hi₁.count; omega) fun p hp => by
    obtain ⟨i, hp⟩ := List.mem_iff_getElem?.mp hp
    have hp₀ := List.getElem?_eq_getElem (hi₁.length ▸ (List.getElem?_eq_some_iff.mp hp).1)
    have hfin := finished_of_completed hi₁ hend₁ hp₀ hp
    exact ⟨hfin.remaining, hfin.arrived, hfin.completion.2⟩
  have hm₂ := h₂.makespan (by have := hi₂.count; omega) fun p hp => by
    obtain ⟨i, hp⟩ := List.mem_iff_getElem?.mp hp
    have hd := done_of_completed hi₂ hend₂ (List.getElem?_eq_some_iff.mp hp).1
    rcases hi₂.pendingOrDone hf hp with h | h
    · simp [hd] at h
    · exact h.2
  have hnil₁ : s₁.procs = [] ↔ procs = [] := by
    rw [← List.length_eq_zero_iff, hi₁.length, hperm.length_eq, List.length_eq_zero_iff]
  have hnil₂ : s₂.procs = [] ↔ procs = [] := by
    rw [← List.length_eq_zero_iff, hi₂.length, List.length_eq_zero_iff]
  simp only [hnil₁] at hm₁
  simp only [hnil₂] at hm₂
  exact ⟨fuel₁, result s₁.procs, fuel₂, result s₂.procs, by simp [roundRobin, hrun₁], hrun₂,
    hm₁.trans hm₂.symm, hm₁⟩

end Playground.Scheduler
