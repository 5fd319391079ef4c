import Playground.RoundRobinSound

/-!
# Non-preemptive priority scheduling

Each round runs the best process that has arrived to its end, or lets a unit
of time pass if there is none. A process is as it was given until it is done,
and then it has run once, for its whole burst.
-/

namespace Playground.Scheduler

/-! ## The choice of the next process -/

namespace Priority

structure Candidate (s : Priority) (i : Nat) (p : Process) : Prop where
  get : s.procs[i]? = some p
  pending : s.done i = false
  arrived : p.arrivalTime ≤ s.currentTime

/-- Of the candidates before `n`, one that none precedes: by priority, and then by position. -/
def IsBest (s : Priority) (n : Nat) : Option Nat → Prop
  | none => ∀ i < n, ∀ p, ¬ s.Candidate i p
  | some b => b < n ∧ ∃ p, s.Candidate b p ∧
    ∀ i < n, i ≠ b → ∀ q, s.Candidate i q → p.priority < q.priority ∨ p.priority = q.priority ∧ b < i

theorem IsBest.skip {s : Priority} {n : Nat} {best : Option Nat} (h : s.IsBest n best)
    (hn : ∀ p, ¬ s.Candidate n p) :
    s.IsBest (n + 1) best := by
  cases best with
  | none =>
    intro i hi p hc
    rcases Nat.lt_succ_iff_lt_or_eq.mp hi with hi | rfl
    · exact h i hi p hc
    · exact hn p hc
  | some b =>
    obtain ⟨hlt, p, hp, hmin⟩ := h
    refine ⟨by omega, p, hp, fun i hi hne q hc => ?_⟩
    rcases Nat.lt_succ_iff_lt_or_eq.mp hi with hi | rfl
    · exact hmin i hi hne q hc
    · exact absurd hc (hn q)

theorem best_succ (s : Priority) (n : Nat) :
    s.best (n + 1) =
      match s.procs[n]? with
      | none => s.best n
      | some p =>
        if !s.done n && p.arrivalTime ≤ s.currentTime then
          match (s.best n).bind fun b => s.procs[b]? with
          | none => some n
          | some b => if p.priority < b.priority then some n else s.best n
        else s.best n := by
  rw [best, List.range_succ, List.foldl_concat]
  rfl

theorem isBest_best (s : Priority) (n : Nat) : s.IsBest n (s.best n) := by
  induction n with
  | zero => exact fun i hi => absurd hi (Nat.not_lt_zero i)
  | succ n ih =>
    rw [best_succ]
    split
    · rename_i hget
      apply ih.skip
      intro p hc
      simp [hc.get] at hget
    · rename_i p hget
      split
      · rename_i hcond
        simp only [Bool.and_eq_true, Bool.not_eq_true', decide_eq_true_eq] at hcond
        have hn : s.Candidate n p := ⟨hget, hcond.1, hcond.2⟩
        cases hb : s.best n with
        | none =>
          rw [hb] at ih
          refine ⟨Nat.lt_succ_self n, p, hn, fun i hi hne q hc => ?_⟩
          exact absurd hc (ih i (by omega) q)
        | some b =>
          rw [hb] at ih
          obtain ⟨hlt, pb, hpb, hmin⟩ := ih
          simp only [Option.bind_some, hpb.get]
          split
          · rename_i hless
            refine ⟨Nat.lt_succ_self n, p, hn, fun i hi hne q hc => ?_⟩
            by_cases he : i = b
            · subst he
              obtain rfl := Option.some.inj (hpb.get.symm.trans hc.get)
              exact Or.inl hless
            · rcases hmin i (by omega) he q hc with h | ⟨h, -⟩
              · exact Or.inl (hless.trans h)
              · exact Or.inl (h ▸ hless)
          · rename_i hge
            refine ⟨by omega, pb, hpb, fun i hi hne q hc => ?_⟩
            rcases Nat.lt_succ_iff_lt_or_eq.mp hi with hi | rfl
            · exact hmin i hi hne q hc
            · obtain rfl := Option.some.inj (hget.symm.trans hc.get)
              exact (lt_or_eq_of_le (not_lt.mp hge)).imp_right fun h => ⟨h, hlt⟩
      · rename_i hcond
        apply ih.skip
        intro q hc
        obtain rfl := Option.some.inj (hget.symm.trans hc.get)
        simp [hc.pending, hc.arrived] at hcond

end Priority

/-! ## The invariant -/

/-- A process that has run to its end from `start` on. -/
def Process.ranFrom (p : Process) (start : Int) : Process :=
  { p with firstRunTime := start, completionTime := start + p.burstTime, remainingTime := 0 }

def Priority.pending (s : Priority) : List Nat := (List.range s.procs.length).filter fun i => !s.done i

structure PriorityInv (jobs : List Process) (s : Priority) : Prop where
  length : s.procs.length = jobs.length
  count : s.completed + s.pending.length = s.procs.length
  pending : ∀ i p, jobs[i]? = some p → s.done i = false → s.procs[i]? = some p
  done : ∀ i p, jobs[i]? = some p → s.done i = true →
    ∃ start, s.procs[i]? = some (p.ranFrom start) ∧ p.arrivalTime ≤ start ∧ start + p.burstTime ≤ s.currentTime

theorem priorityInv_init (procs : List Process) : PriorityInv procs { procs } where
  length := rfl
  count := by simp [Priority.pending]
  pending := fun _ _ hp _ => hp
  done := fun _ _ _ h => absurd h (by simp)

/-! ## A round -/

def Priority.ran (s : Priority) (best : Nat) (p : Process) : Priority where
  procs := s.procs.set best (p.ranFrom s.currentTime)
  done := Function.update s.done best true
  currentTime := s.currentTime + p.burstTime
  completed := s.completed + 1

/-- What a round does: a tick without a candidate, or a run of the best one. -/
inductive PriorityRound (jobs : List Process) (s : Priority) : Priority → Prop
  | idle (hlt : s.completed < s.procs.length) (hnone : s.IsBest s.procs.length none) :
    PriorityRound jobs s { s with currentTime := s.currentTime + 1 }
  | run (best : Nat) (p : Process) (hlt : s.completed < s.procs.length)
      (hbest : s.IsBest s.procs.length (some best)) (hp : jobs[best]? = some p) (hc : s.Candidate best p) :
    PriorityRound jobs s (s.ran best p)

theorem priority_while (jobs : List Process) :
    Loop.While priorityBody (fun s => s.completed < s.procs.length) (PriorityInv jobs) (PriorityRound jobs) where
  exit := fun s h => by simp [priorityBody, h]
  next := by
    intro s hi hlt
    have hbest := s.isBest_best s.procs.length
    cases hb : s.best s.procs.length with
    | none =>
      rw [hb] at hbest
      exact ⟨_, by simp [priorityBody, hlt, hb], .idle hlt hbest⟩
    | some b =>
      rw [hb] at hbest
      obtain ⟨hlt', p, hc, -⟩ := id hbest
      have hp := List.getElem?_eq_getElem (hi.length ▸ hlt')
      obtain he := Option.some.inj ((hi.pending b _ hp hc.pending).symm.trans hc.get)
      rw [he] at hp
      refine ⟨s.ran b p, ?_, .run b p hlt hbest hp hc⟩
      simp [priorityBody, hlt, hb, hc.get, Priority.ran, Process.ranFrom]

section
variable {jobs : List Process} {s s' : Priority} (hi : PriorityInv jobs s)

include hi

theorem done_of_completed (h : ¬ s.completed < s.procs.length) {i : Nat} (hlt : i < s.procs.length) :
    s.done i = true := by
  have hcount := hi.count
  have hnil : s.pending = [] := List.length_eq_zero_iff.mp (by omega)
  have hmem : i ∉ s.pending := by simp [hnil]
  simpa [Priority.pending, hlt] using hmem

theorem exists_pending (hlt : s.completed < s.procs.length) :
    ∃ (i : Nat) (p : Process), jobs[i]? = some p ∧ s.procs[i]? = some p ∧ s.done i = false := by
  have hcount := hi.count
  obtain ⟨i, hmem⟩ := List.exists_mem_of_length_pos (l := s.pending) (by omega)
  simp only [Priority.pending, List.mem_filter, List.mem_range, Bool.not_eq_true'] at hmem
  have hp := List.getElem?_eq_getElem (hi.length ▸ hmem.1)
  exact ⟨i, _, hp, hi.pending i _ hp hmem.2, hmem.2⟩

theorem PriorityInv.round (hb : ∀ p ∈ jobs, 0 ≤ p.burstTime) (hr : PriorityRound jobs s s') :
    PriorityInv jobs s' := by
  cases hr with
  | idle hlt hnone =>
    refine ⟨hi.length, hi.count, hi.pending, fun i p hp hd => ?_⟩
    obtain ⟨start, hget, harr, hle⟩ := hi.done i p hp hd
    exact ⟨start, hget, harr, by simp only; omega⟩
  | run best p hlt hbest hp hc =>
    have hburst := hb p (List.mem_of_getElem? hp)
    have hlt' := (List.getElem?_eq_some_iff.mp hc.get).1
    constructor
    · simpa [Priority.ran] using hi.length
    · have hmem : best ∈ s.pending := by simp [Priority.pending, hlt', hc.pending]
      have hpending : (s.ran best p).pending = s.pending.erase best := by
        rw [Priority.pending, Priority.pending, (List.nodup_range.filter _).erase_eq_filter]
        simp only [Priority.ran, List.length_set, List.filter_filter]
        apply List.filter_congr
        intro i _
        by_cases h : i = best <;> simp [h]
      have hcount := hi.count
      rw [hpending, List.length_erase_of_mem hmem]
      have hpos := List.length_pos_of_mem hmem
      simp only [Priority.ran, List.length_set]
      omega
    · intro i q hq hd
      have hne : i ≠ best := by
        intro heq
        subst heq
        simp [Priority.ran] at hd
      simp only [Priority.ran, Function.update_of_ne hne] at hd
      simpa [Priority.ran, List.getElem?_set_ne (Ne.symm hne)] using hi.pending i q hq hd
    · intro i q hq hd
      by_cases hne : i = best
      · subst hne
        obtain rfl := Option.some.inj (hp.symm.trans hq)
        exact ⟨s.currentTime, by simp [Priority.ran, hlt'], hc.arrived, le_rfl⟩
      · simp only [Priority.ran, Function.update_of_ne hne] at hd
        obtain ⟨start, hget, harr, hle⟩ := hi.done i q hq hd
        refine ⟨start, by simpa [Priority.ran, List.getElem?_set_ne (Ne.symm hne)] using hget, harr, ?_⟩
        simp only [Priority.ran]
        omega

end

/-! ## Termination -/

def Priority.roundsLeft (horizon : Int) (s : Priority) : Nat :=
  (s.procs.length - s.completed) + (horizon - s.currentTime).toNat

theorem priority_roundsLeft_lt {jobs : List Process} {s s' : Priority} (hi : PriorityInv jobs s)
    (hb : ∀ p ∈ jobs, 0 ≤ p.burstTime) {horizon : Int} (hhorizon : ∀ p ∈ jobs, p.arrivalTime ≤ horizon)
    (hr : PriorityRound jobs s s') : s'.roundsLeft horizon < s.roundsLeft horizon := by
  unfold Priority.roundsLeft
  cases hr with
  | idle hlt hnone =>
    obtain ⟨i, p, hp₀, hp, hd⟩ := exists_pending hi hlt
    have hlate : ¬ p.arrivalTime ≤ s.currentTime := fun h =>
      hnone i (List.getElem?_eq_some_iff.mp hp).1 p ⟨hp, hd, h⟩
    have hle := hhorizon p (List.mem_of_getElem? hp₀)
    simp only
    omega
  | run best p hlt hbest hp hc =>
    have hburst := hb p (List.mem_of_getElem? hp)
    simp only [Priority.ran, List.length_set]
    omega

theorem priorityScheduling_total {procs : List Process} (hb : ∀ p ∈ procs, 0 ≤ p.burstTime) {P : Priority → Prop}
    (hP : P { procs }) (hround : ∀ s s', PriorityInv procs s → P s → PriorityRound procs s s' → P s') :
    ∃ fuel s, priorityScheduling fuel procs = some (result s.procs) ∧ PriorityInv procs s ∧ P s ∧
      ¬ s.completed < s.procs.length := by
  obtain ⟨horizon, hhorizon⟩ := exists_horizon procs
  obtain ⟨fuel, s, hrun, hend⟩ := (priority_while procs).total (Priority.roundsLeft horizon)
    (fun s s' hi hr => hi.round hb hr) hround (fun s s' hi hr => priority_roundsLeft_lt hi hb hhorizon hr)
    (priorityInv_init procs) hP
  exact ⟨fuel, s, by simp [priorityScheduling, hrun], hend⟩

end Playground.Scheduler
