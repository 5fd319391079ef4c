import Playground.RoundRobinInt

/-!
# First come, first served

Round robin whose quantum is enough for every process never puts one back, and
priority scheduling in which nobody is more urgent than one who came before
never lets a later one pass. So both serve the processes in the order of
arrival, and agree in every time and both averages.
-/

namespace Playground.Scheduler

/-- Each process in turn runs to its end, as soon as it has arrived and those before it are done. -/
def serve : Int → List Process → List Process
  | _, [] => []
  | t, p :: procs => p.ranFrom (max t p.arrivalTime) :: serve (max t p.arrivalTime + p.burstTime) procs

theorem length_serve (t : Int) (procs : List Process) : (serve t procs).length = procs.length := by
  induction procs generalizing t with
  | nil => rfl
  | cons p procs ih => simp [serve, ih]

theorem serve_concat (t : Int) (procs : List Process) (p : Process) :
    serve t (procs ++ [p]) = serve t procs ++
      [p.ranFrom (max (procs.foldl (fun t p => max t p.arrivalTime + p.burstTime) t) p.arrivalTime)] := by
  induction procs generalizing t with
  | nil => rfl
  | cons q procs ih => simp only [List.cons_append, serve, ih, List.foldl_cons]

theorem finishTime_concat (procs : List Process) (p : Process) :
    finishTime (procs ++ [p]) = max (finishTime procs) p.arrivalTime + p.burstTime := by
  simp [finishTime]

/-! ## Serving in order -/

/-- The first `k` processes have been served, and the next one has not been kept waiting for anything else. -/
structure Served (jobs : List Process) (now : Int) (k : Nat) (procs : List Process) : Prop where
  eq : procs = serve 0 (jobs.take k) ++ jobs.drop k
  done : finishTime (jobs.take k) ≤ now
  next : ∀ p, jobs[k]? = some p → now ≤ max (finishTime (jobs.take k)) p.arrivalTime

theorem served_init (jobs : List Process) : Served jobs 0 0 jobs where
  eq := rfl
  done := le_rfl
  next := fun _ _ => le_max_left _ _

section
variable {jobs procs : List Process} {now : Int} {k : Nat} {p : Process} (h : Served jobs now k procs)
  (hp : jobs[k]? = some p)

include h hp

theorem Served.idle (hlate : now < p.arrivalTime) : Served jobs (now + 1) k procs where
  eq := h.eq
  done := h.done.trans (Int.le_add_one le_rfl)
  next := by
    intro q hq
    obtain rfl := Option.some.inj (hp.symm.trans hq)
    exact le_max_of_le_right hlate

omit h in
theorem length_serve_take : (serve 0 (jobs.take k)).length = k := by
  rw [length_serve, List.length_take_of_le (List.getElem?_eq_some_iff.mp hp).1.le]

theorem Served.run (harr : p.arrivalTime ≤ now) :
    Served jobs (now + p.burstTime) (k + 1) (procs.set k (p.ranFrom now)) := by
  have hk := (List.getElem?_eq_some_iff.mp hp).1
  have hnow : max (finishTime (jobs.take k)) p.arrivalTime = now := le_antisymm (max_le h.done harr) (h.next p hp)
  have htake : jobs.take (k + 1) = jobs.take k ++ [p] := by
    rw [List.take_add_one, hp]
    rfl
  have hdrop : jobs.drop k = p :: jobs.drop (k + 1) := by
    rw [List.drop_eq_getElem_cons hk, (List.getElem?_eq_some_iff.mp hp).2]
  have hlen := length_serve_take hp
  constructor
  · rw [htake, serve_concat, h.eq, hdrop, List.set_append_right _ _ hlen.le, hlen, Nat.sub_self, List.set_cons_zero,
      ← finishTime, hnow, List.append_assoc]
    rfl
  · rw [htake, finishTime_concat, hnow]
  · intro q _
    rw [htake, finishTime_concat, hnow]
    exact le_max_left _ _

theorem Served.get : procs[k]? = some p := by
  have hlen := length_serve_take hp
  rw [h.eq, List.getElem?_append_right hlen.le, hlen, List.getElem?_drop, Nat.sub_self, Nat.add_zero, hp]

omit hp in
theorem Served.eq_serve (hk : jobs.length ≤ k) : procs = serve 0 jobs := by
  rw [h.eq, List.take_of_length_le hk, List.drop_of_length_le hk, List.append_nil]

end

/-! ## Round robin without preemption -/

/-- The queue holds the admitted processes from `k` on, in order; the first ones have been admitted. -/
structure Lined (k : Nat) (s : RoundRobin) : Prop where
  sorted : s.readyQueue.Pairwise (· < ·)
  mem : ∀ i, i ∈ s.readyQueue ↔ k ≤ i ∧ s.inQueue i = true
  front : ∀ i < k, s.inQueue i = true
  closed : ∀ i j, j < i → s.inQueue i = true → s.inQueue j = true

section
variable {k : Nat} {s : RoundRobin}

/-- The first of the queue is the next to be served. -/
theorem Lined.head (h : Lined k s) {idx : Nat} {rest : List Nat} (hq : s.readyQueue = idx :: rest) : idx = k := by
  obtain ⟨hle, hin⟩ := (h.mem idx).mp (by simp [hq])
  rcases hle.eq_or_lt with heq | hlt
  · exact heq.symm
  · have hk : k ∈ s.readyQueue := (h.mem k).mpr ⟨le_rfl, h.closed idx k hlt hin⟩
    have hsorted := h.sorted
    rw [hq] at hk hsorted
    rcases List.mem_cons.mp hk with heq | hk
    · exact heq.symm
    · exact absurd ((List.pairwise_cons.mp hsorted).1 k hk) (by omega)

theorem Lined.slice (h : Lined k s) {rest : List Nat} (hq : s.readyQueue = k :: rest) (quantum : Int)
    (p : Process) :
    Lined (k + 1) (s.afterSlice quantum k rest p) := by
  have hsorted := h.sorted
  rw [hq] at hsorted
  obtain ⟨hlt, hsorted⟩ := List.pairwise_cons.mp hsorted
  have hk : s.inQueue k = true := ((h.mem k).mp (by simp [hq])).2
  constructor
  · exact hsorted
  · intro i
    change i ∈ rest ↔ k + 1 ≤ i ∧ s.inQueue i = true
    constructor
    · intro hi
      have hmem := (h.mem i).mp (by simp [hq, hi])
      exact ⟨hlt i hi, hmem.2⟩
    · rintro ⟨hle, hin⟩
      have hmem := (h.mem i).mpr ⟨by omega, hin⟩
      rw [hq] at hmem
      exact (List.mem_cons.mp hmem).resolve_left (by omega)
  · intro i hi
    rcases Nat.lt_succ_iff_lt_or_eq.mp hi with hi | rfl
    · exact h.front i hi
    · exact hk
  · exact h.closed

/-- Those that are pushed are behind all that have been admitted, and none that is left out is before
one of them. -/
theorem Lined.pushAll (h : Lined k s) {l : List Nat} (hl : l.Pairwise (· < ·)) (hnew : ∀ i ∈ l, s.inQueue i = false)
    (hclosed : ∀ i ∈ l, ∀ j < i, s.inQueue j = false → j ∈ l) : Lined k (s.pushAll l) := by
  have hbehind : ∀ i j, s.inQueue i = true → s.inQueue j = false → i < j := by
    intro i j hi hj
    by_contra hle
    rcases (not_lt.mp hle).eq_or_lt with rfl | hlt
    · simp [hi] at hj
    · simp [h.closed i j hlt hi] at hj
  constructor
  · apply List.pairwise_append.mpr
    refine ⟨h.sorted, hl, fun i hi j hj => ?_⟩
    exact hbehind i j ((h.mem i).mp hi).2 (hnew j hj)
  · intro i
    simp only [RoundRobin.pushAll, List.mem_append, h.mem, Bool.or_eq_true, decide_eq_true_eq]
    constructor
    · rintro (⟨hle, hin⟩ | hi)
      · exact ⟨hle, Or.inl hin⟩
      · refine ⟨?_, Or.inr hi⟩
        by_contra hlt
        have hin := h.front i (not_le.mp hlt)
        simp [hnew i hi] at hin
    · rintro ⟨hle, hin | hi⟩
      · exact Or.inl ⟨hle, hin⟩
      · exact Or.inr hi
  · intro i hi
    simp [RoundRobin.pushAll, h.front i hi]
  · intro i j hlt hi
    simp only [RoundRobin.pushAll, Bool.or_eq_true, decide_eq_true_eq] at hi ⊢
    rcases hi with hi | hi
    · exact Or.inl (h.closed i j hlt hi)
    · cases hj : s.inQueue j with
      | true => exact Or.inl rfl
      | false => exact Or.inr (hclosed i hi j hlt hj)

end

section
variable {jobs : List Process} (hsorted : (jobs.map Process.arrivalTime).Pairwise (· ≤ ·))

omit hsorted in
theorem le_of_sorted {f : Process → Int} (h : (jobs.map f).Pairwise (· ≤ ·)) {i j : Nat} {p q : Process}
    (hp : jobs[i]? = some p) (hq : jobs[j]? = some q) (hle : i ≤ j) : f p ≤ f q := by
  obtain ⟨hi, rfl⟩ := List.getElem?_eq_some_iff.mp hp
  obtain ⟨hj, rfl⟩ := List.getElem?_eq_some_iff.mp hq
  rcases hle.eq_or_lt with rfl | hlt
  · exact le_rfl
  · exact List.pairwise_iff_getElem.mp (List.pairwise_map.mp h) i j hi hj hlt

include hsorted

theorem lined_init : Lined 0 (admitInitially { procs := jobs }) := by
  have hempty : Lined 0 { procs := jobs } := ⟨.nil, by simp, by simp, by simp⟩
  have harrived : ∀ {i p}, jobs[i]? = some p →
      (({ procs := jobs } : RoundRobin).arrived i = true ↔ p.arrivalTime ≤ 0) := by
    intro i p hp
    simp [RoundRobin.arrived, hp]
  rw [admitInitially_eq]
  apply hempty.pushAll (List.pairwise_lt_range.filter _) (fun _ _ => rfl)
  intro i hi j hlt _
  obtain ⟨hi, harr⟩ := List.mem_filter.mp hi
  have hlen : i < jobs.length := List.mem_range.mp hi
  have hp := List.getElem?_eq_getElem hlen
  have hq := List.getElem?_eq_getElem (hlt.trans hlen)
  apply List.mem_filter.mpr
  refine ⟨List.mem_range.mpr (hlt.trans hlen), (harrived hq).mpr ?_⟩
  exact (le_of_sorted hsorted hq hp hlt.le).trans ((harrived hp).mp harr)

variable (hf : ∀ p ∈ jobs, Fresh p) (hzero : ∀ p ∈ jobs, p.burstTime = 0 → p.arrivalTime = 0) {s : RoundRobin}

include hf hzero

theorem Lined.checkArrivals {now : Int} {run : Option Nat} {k : Nat} (h : Lined k s) (hi : Inv jobs now run s) :
    Lined k (Scheduler.checkArrivals s) := by
  rw [checkArrivals_eq]
  -- Who has not been admitted is as it was given, and has something to do.
  have hget : ∀ i < s.procs.length, s.inQueue i = false → ∃ p, jobs[i]? = some p ∧ s.procs[i]? = some p ∧
      0 < p.remainingTime := by
    intro i hlt hin
    have hrun : run ≠ some i := by
      intro heq
      simp [(hi.running i heq).2] at hin
    obtain ⟨p₀, hp₀⟩ : ∃ p₀, jobs[i]? = some p₀ := ⟨_, List.getElem?_eq_getElem (hi.length ▸ hlt)⟩
    have hp := List.getElem?_eq_getElem hlt
    obtain ⟨he, harr, -⟩ := (hi.stage i _ _ hrun hp₀ hp).waiting (by simp [hin])
    rw [he] at hp harr
    have hmem := List.mem_of_getElem? hp₀
    have hburst := (hf p₀ hmem).burst
    have hremaining := (hf p₀ hmem).remaining
    have hne := mt (hzero p₀ hmem) harr.ne'
    exact ⟨_, hp₀, hp, by omega⟩
  apply h.pushAll (List.pairwise_lt_range.filter _)
  · intro i hi'
    have hp := List.getElem?_eq_getElem (lt_of_mem_arrivals hi')
    exact ((mem_arrivals hp).mp hi').1
  · intro i hi' j hlt hj
    have hlen := lt_of_mem_arrivals hi'
    obtain ⟨q, hq₀, hq, hrem⟩ := hget j (hlt.trans hlen) hj
    have hp := List.getElem?_eq_getElem hlen
    obtain ⟨hin, harr, -⟩ := (mem_arrivals hp).mp hi'
    obtain ⟨p, hp₀, hp', -⟩ := hget i hlen hin
    obtain rfl := Option.some.inj (hp.symm.trans hp')
    exact (mem_arrivals hq).mpr ⟨hj, (le_of_sorted hsorted hq₀ hp₀ hlt.le).trans harr, hrem⟩

/-- Between two rounds, the processes have been served in order and are lined up for it. -/
structure InOrder (jobs : List Process) (s : RoundRobin) : Prop where
  served : Served jobs s.currentTime s.completed s.procs
  lined : Lined s.completed s

theorem InOrder.idle (h : InOrder jobs s) (hi : Inv jobs s.currentTime none s) (hlt : s.completed < s.procs.length)
    (hq : s.readyQueue = []) :
    InOrder jobs (Scheduler.checkArrivals { s with currentTime := s.currentTime + 1 }) := by
  have hp₀ := List.getElem?_eq_getElem (hi.length ▸ hlt)
  have hp := h.served.get hp₀
  have hin : ¬ s.inQueue s.completed = true := by
    intro hin
    have hmem := (h.lined.mem s.completed).mpr ⟨le_rfl, hin⟩
    simp [hq] at hmem
  obtain ⟨-, harr, hlate⟩ := (hi.stage s.completed _ _ (by simp) hp₀ hp).waiting hin
  have hmem := List.mem_of_getElem? hp₀
  have hburst := (hf _ hmem).burst
  have hne := mt (hzero _ hmem) harr.ne'
  have hlined : Lined s.completed { s with currentTime := s.currentTime + 1 } :=
    ⟨h.lined.sorted, h.lined.mem, h.lined.front, h.lined.closed⟩
  constructor
  · simp only [checkArrivals_currentTime, checkArrivals_completed, checkArrivals_procs]
    exact h.served.idle hp₀ (hlate (by omega))
  · rw [checkArrivals_completed]
    exact hlined.checkArrivals hsorted hf hzero hi.tick

/-- A slice is all that the process needs, so it is completed. -/
theorem InOrder.slice {quantum : Int} (h : InOrder jobs s) (hi : Inv jobs s.currentTime none s) {idx : Nat}
    {rest : List Nat} {p₀ p : Process} (hq : s.readyQueue = idx :: rest) (hp₀ : jobs[idx]? = some p₀)
    (hp : s.procs[idx]? = some p) (harr : p.arrivalTime ≤ s.currentTime) (hlong : p₀.burstTime ≤ quantum)
    (hfirst : p₀.firstRunTime < 0) :
    InOrder jobs ((Scheduler.checkArrivals (s.afterSlice quantum idx rest p)).handBack idx
      (p.afterSlice quantum s.currentTime)) := by
  obtain rfl := h.lined.head hq
  obtain rfl := Option.some.inj (hp.symm.trans (h.served.get hp₀))
  have hfresh := hf p (List.mem_of_getElem? hp₀)
  have hrun : min quantum p.remainingTime = p.burstTime := by
    rw [hfresh.remaining]
    exact min_eq_right hlong
  have hdone : p.remainingTime - min quantum p.remainingTime = 0 := by
    rw [hrun, hfresh.remaining, Int.sub_self]
  have hran :
    ({ p.afterSlice quantum s.currentTime with completionTime := s.currentTime + p.burstTime } : Process) =
      p.ranFrom s.currentTime := by
    simp only [Process.afterSlice, Process.ranFrom, hdone, if_pos hfirst]
  have hlined := (h.lined.slice hq quantum p).checkArrivals hsorted hf hzero
    (hi.slice hq (hrun.symm ▸ hfresh.burst))
  unfold RoundRobin.handBack
  rw [if_pos (show (p.afterSlice quantum s.currentTime).remainingTime = 0 from hdone)]
  constructor
  · simp only [checkArrivals_currentTime, checkArrivals_completed, checkArrivals_procs]
    have hserved := h.served.run hp₀ harr
    simp only [RoundRobin.afterSlice, List.set_set, hrun, hran]
    exact hserved
  · simp only [checkArrivals_completed]
    exact ⟨hlined.sorted, hlined.mem, hlined.front, hlined.closed⟩

theorem InOrder.round {quantum : Int} (hlong : ∀ p ∈ jobs, p.burstTime ≤ quantum)
    (hfirst : ∀ p ∈ jobs, p.firstRunTime < 0) {s' : RoundRobin} (h : InOrder jobs s)
    (hi : Inv jobs s.currentTime none s) (hr : Round jobs quantum s s') :
    InOrder jobs s' := by
  cases hr with
  | idle hlt hq => exact h.idle hsorted hf hzero hi hlt hq
  | slice idx rest p₀ p hlt hq hp₀ hp hst =>
    have hmem := List.mem_of_getElem? hp₀
    exact h.slice hsorted hf hzero hi hq hp₀ hp (hst.ready trivial).arrived (hlong p₀ hmem) (hfirst p₀ hmem)

end

/-! ## Priority scheduling without overtaking -/

structure PriorityInOrder (jobs : List Process) (s : Priority) : Prop where
  served : Served jobs s.currentTime s.completed s.procs
  done : ∀ i, s.done i = true ↔ i < s.completed

section
variable {jobs : List Process} (hsorted : (jobs.map Process.arrivalTime).Pairwise (· ≤ ·))
  (hurgent : (jobs.map Process.priority).Pairwise (· ≤ ·)) {s s' : Priority}

include hsorted hurgent

theorem PriorityInOrder.round (h : PriorityInOrder jobs s) (hi : PriorityInv jobs s)
    (hr : PriorityRound jobs s s') :
    PriorityInOrder jobs s' := by
  have hpending : s.done s.completed = false := by
    rw [← Bool.not_eq_true, h.done]
    exact lt_irrefl _
  cases hr with
  | idle hlt hnone =>
    have hk : s.completed < jobs.length := hi.length ▸ hlt
    have hp₀ := List.getElem?_eq_getElem hk
    have hlate : ¬ jobs[s.completed].arrivalTime ≤ s.currentTime := fun harr =>
      hnone s.completed hlt _ ⟨h.served.get hp₀, hpending, harr⟩
    exact ⟨h.served.idle hp₀ (not_le.mp hlate), h.done⟩
  | run best p hlt hbest hp hc =>
    have hle : s.completed ≤ best := by
      by_contra hlt'
      have hdone := (h.done best).mpr (not_le.mp hlt')
      simp [hc.pending] at hdone
    -- The next in order has arrived as well, and is no less urgent.
    have heq : best = s.completed := by
      by_contra hne
      have hk : s.completed < jobs.length := hi.length ▸ hlt
      have hq₀ := List.getElem?_eq_getElem hk
      obtain ⟨-, p', hp', hmin⟩ := hbest
      obtain rfl := Option.some.inj (hc.get.symm.trans hp'.get)
      have hearlier := le_of_sorted hsorted hq₀ hp hle
      have hless := le_of_sorted hurgent hq₀ hp hle
      rcases hmin s.completed hlt (Ne.symm hne) _ ⟨h.served.get hq₀, hpending, hearlier.trans hc.arrived⟩ with
        hlt' | ⟨-, hlt'⟩
      · exact absurd hless (not_le.mpr hlt')
      · omega
    subst heq
    constructor
    · exact h.served.run hp hc.arrived
    · intro i
      simp only [Priority.ran, Function.update_apply]
      split
      · rename_i heq
        simp [heq]
      · rename_i hne
        rw [h.done]
        omega

end

/-! ## The result -/

section
variable {sort : List Process → List Process} (hsort : SortsByArrival sort) {procs : List Process}
  (hf : ∀ p ∈ procs, Fresh p ∧ p.firstRunTime < 0) (hzero : ∀ p ∈ procs, p.burstTime = 0 → p.arrivalTime = 0)

include hsort hf hzero

theorem roundRobin_serve {quantum : Int} (hquantum : 1 ≤ quantum) (hlong : ∀ p ∈ procs, p.burstTime ≤ quantum) :
    ∃ fuel, roundRobin sort fuel procs quantum = some (result (serve 0 (sort procs))) := by
  obtain ⟨hperm, hsorted⟩ := hsort procs
  have hsub : ∀ p ∈ sort procs, p ∈ procs := fun p hp => hperm.subset hp
  have hfresh : ∀ p ∈ sort procs, Fresh p := fun p hp => (hf p (hsub p hp)).1
  have hzero' : ∀ p ∈ sort procs, p.burstTime = 0 → p.arrivalTime = 0 := fun p hp => hzero p (hsub p hp)
  have hinit : InOrder (sort procs) (roundRobinInit sort procs) := by
    have hlined := lined_init hsorted
    rw [admitInitially_eq] at hlined
    rw [roundRobinInit, admitInitially_eq]
    exact ⟨served_init _, hlined⟩
  obtain ⟨fuel, s, hrun, hi, h, hend⟩ := roundRobinLoop_total hfresh hquantum hzero' hinit fun s s' hi h hr =>
    h.round hsorted hfresh hzero' (fun p hp => hlong p (hsub p hp)) (fun p hp => (hf p (hsub p hp)).2) hi hr
  have heq := h.served.eq_serve (hi.length ▸ not_lt.mp hend)
  exact ⟨fuel, by simp [roundRobin, hrun, heq]⟩

omit hzero in
theorem priorityScheduling_serve (hurgent : ((sort procs).map Process.priority).Pairwise (· ≤ ·)) :
    ∃ fuel, priorityScheduling fuel (sort procs) = some (result (serve 0 (sort procs))) := by
  obtain ⟨hperm, hsorted⟩ := hsort procs
  obtain ⟨fuel, s, hrun, hi, h, hend⟩ := priorityScheduling_total (fun p hp => (hf p (hperm.subset hp)).1.burst)
    (P := PriorityInOrder (sort procs)) ⟨served_init _, by simp⟩ fun s s' hi h hr => h.round hsorted hurgent hi hr
  have heq := h.served.eq_serve (hi.length ▸ not_lt.mp hend)
  exact ⟨fuel, by rw [hrun, heq]⟩

/-- **First come, first served.** Round robin serves the processes in the order of arrival if the quantum is enough
for each of them, and so does priority scheduling of the same list if the priorities are in that order as well. -/
theorem firstComeFirstServed (hlen : procs.length < 2 ^ 31) (ht : finishTime (sort procs) < 2 ^ 31) {quantum : Int}
    (hquantum : 1 ≤ quantum) (hlong : ∀ p ∈ procs, p.burstTime ≤ quantum) :
    (∃ fuel, roundRobinInt sort fuel procs quantum = some (result (serve 0 (sort procs)))) ∧
      (((sort procs).map Process.priority).Pairwise (· ≤ ·) →
        ∃ fuel, prioritySchedulingInt fuel (sort procs) = some (result (serve 0 (sort procs)))) := by
  have hperm := (hsort procs).1
  have hfresh : ∀ p ∈ procs, Fresh p := fun p hp => (hf p hp).1
  constructor
  · obtain ⟨fuel, hrun⟩ := roundRobin_serve hsort hf hzero hquantum hlong
    exact ⟨fuel, by rw [roundRobinInt_eq hsort hlen hfresh hzero hquantum ht, hrun]⟩
  · intro hurgent
    obtain ⟨fuel, hrun⟩ := priorityScheduling_serve hsort hf hurgent
    refine ⟨fuel, ?_⟩
    rw [prioritySchedulingInt_eq (List.Perm.refl _) (hsort procs).2 ht
      (fun p hp => ⟨(hfresh p (hperm.subset hp)).arrival, (hfresh p (hperm.subset hp)).burst⟩)
      (fun p hp => hzero p (hperm.subset hp)) (by rw [hperm.length_eq]; exact hlen), hrun]

end

/-- A short process that arrives while a long one runs, and has to wait for it. -/
def shortIsPatient : List Process := shortAfterLong.map fun p => { p with priority := p.pid }

theorem firstComeFirstServed_two : (∃ fuel, roundRobinInt stableSort fuel shortIsPatient 8 =
    some (result (serve 0 (stableSort shortIsPatient)))) ∧
      ∃ fuel, prioritySchedulingInt fuel (stableSort shortIsPatient) =
        some (result (serve 0 (stableSort shortIsPatient))) := by
  have hfirst : ∀ p ∈ shortIsPatient, p.firstRunTime < 0 := by decide
  have hf : ∀ p ∈ shortIsPatient, Fresh p ∧ p.firstRunTime < 0 := by
    intro p hp
    refine ⟨?_, hfirst p hp⟩
    obtain ⟨q, hq, rfl⟩ := List.mem_map.mp hp
    have hfresh := (shortAfterLong_fresh q hq).1
    exact ⟨hfresh.arrival, hfresh.burst, hfresh.remaining⟩
  have hzero : ∀ p ∈ shortIsPatient, p.burstTime = 0 → p.arrivalTime = 0 := by decide
  have hlong : ∀ p ∈ shortIsPatient, p.burstTime ≤ 8 := by decide
  have h := firstComeFirstServed stableSort_sorts hf hzero (by decide) (by decide) (by decide) hlong
  exact ⟨h.1, h.2 (by decide)⟩

end Playground.Scheduler
