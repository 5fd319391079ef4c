import Playground.Scheduler

/-!
# One round of round robin

Each process waits for its arrival to be noticed, then is in the queue or on
the processor until it is finished (`Stage`). The rounds only ever move
processes along; nothing else changes but the clock.
-/

namespace Playground.Scheduler

/-! ## Admission -/

def RoundRobin.pushAll (s : RoundRobin) (l : List Nat) : RoundRobin :=
  { s with readyQueue := s.readyQueue ++ l, inQueue := fun i => s.inQueue i || decide (i ∈ l) }

theorem foldl_push {c : RoundRobin → Nat → Bool} (hc : ∀ s i j, j ≠ i → c (s.push i) j = c s j) {l : List Nat}
    (hl : l.Nodup) (s : RoundRobin) :
    l.foldl (fun s i => if c s i then s.push i else s) s = s.pushAll (l.filter (c s)) := by
  induction l generalizing s with
  | nil => simp [RoundRobin.pushAll]
  | cons i l ih =>
    obtain ⟨hi, hl⟩ := List.nodup_cons.mp hl
    rw [List.foldl_cons, ih hl]
    by_cases h : c s i
    · have hfilter : l.filter (c (s.push i)) = l.filter (c s) := by
        apply List.filter_congr
        intro j hj
        apply hc
        intro heq
        subst heq
        exact hi hj
      rw [if_pos h, hfilter, List.filter_cons_of_pos h]
      simp only [RoundRobin.pushAll, RoundRobin.push, List.append_assoc, List.singleton_append, RoundRobin.mk.injEq,
        true_and, and_true]
      funext j
      by_cases hj : j = i
      · subst hj
        simp
      · simp [hj]
    · rw [if_neg h, List.filter_cons_of_neg h]

def RoundRobin.arrivals (s : RoundRobin) : List Nat := (List.range s.procs.length).filter s.admits

theorem checkArrivalsTo_eq (n : Nat) (s : RoundRobin) :
    checkArrivalsTo n s = s.pushAll ((List.range n).filter s.admits) := by
  apply foldl_push _ List.nodup_range
  intro s i j hj
  have hq : (s.push i).inQueue j = s.inQueue j := by simp [RoundRobin.push, hj]
  simp only [RoundRobin.admits, hq]
  rfl

theorem checkArrivals_eq (s : RoundRobin) : checkArrivals s = s.pushAll s.arrivals :=
  checkArrivalsTo_eq s.procs.length s

@[simp] theorem checkArrivals_procs (s : RoundRobin) : (checkArrivals s).procs = s.procs := by
  rw [checkArrivals_eq]; rfl

@[simp] theorem checkArrivals_currentTime (s : RoundRobin) : (checkArrivals s).currentTime = s.currentTime := by
  rw [checkArrivals_eq]; rfl

@[simp] theorem checkArrivals_completed (s : RoundRobin) : (checkArrivals s).completed = s.completed := by
  rw [checkArrivals_eq]; rfl

@[simp] theorem checkArrivals_slices (s : RoundRobin) : (checkArrivals s).slices = s.slices := by
  rw [checkArrivals_eq]; rfl

theorem admitInitiallyTo_eq (n : Nat) (s : RoundRobin) :
    admitInitiallyTo n s = s.pushAll ((List.range n).filter s.arrived) :=
  foldl_push (fun _ _ _ _ => rfl) List.nodup_range s

theorem admitInitially_eq (s : RoundRobin) :
    admitInitially s = s.pushAll ((List.range s.procs.length).filter s.arrived) :=
  admitInitiallyTo_eq s.procs.length s

theorem admits_iff {s : RoundRobin} {i : Nat} {p : Process} (hp : s.procs[i]? = some p) :
    s.admits i ↔ s.inQueue i = false ∧ p.arrivalTime ≤ s.currentTime ∧ 0 < p.remainingTime := by
  simp [RoundRobin.admits, hp, and_assoc]

theorem mem_arrivals {s : RoundRobin} {i : Nat} {p : Process} (hp : s.procs[i]? = some p) :
    i ∈ s.arrivals ↔ s.inQueue i = false ∧ p.arrivalTime ≤ s.currentTime ∧ 0 < p.remainingTime := by
  rw [RoundRobin.arrivals, List.mem_filter, List.mem_range, admits_iff hp]
  exact and_iff_right (List.getElem?_eq_some_iff.mp hp).1

theorem lt_of_mem_arrivals {s : RoundRobin} {i : Nat} (hi : i ∈ s.arrivals) : i < s.procs.length :=
  List.mem_range.mp (List.mem_filter.mp hi).1

theorem nodup_arrivals (s : RoundRobin) : s.arrivals.Nodup := List.nodup_range.filter _

/-! ## The stages of a process -/

structure Ready (now : Int) (p₀ p : Process) : Prop where
  arrived : p.arrivalTime ≤ now
  nonneg : 0 ≤ p.remainingTime
  pos : 0 < p.burstTime → 0 < p.remainingTime
  firstRun : p₀.firstRunTime < 0 → p.firstRunTime < 0 ∧ p.remainingTime = p.burstTime ∨
    p.arrivalTime ≤ p.firstRunTime ∧ p.firstRunTime + (p.burstTime - p.remainingTime) ≤ now

structure Finished (now : Int) (p₀ p : Process) : Prop where
  arrived : p.arrivalTime ≤ now
  remaining : p.remainingTime = 0
  completion : p.arrivalTime ≤ p.completionTime ∧ p.completionTime ≤ now
  firstRun : p₀.firstRunTime < 0 → p.arrivalTime ≤ p.firstRunTime ∧ p.firstRunTime + p.burstTime ≤ p.completionTime

/-- What has become of the process `p₀` by now. -/
structure Stage (now : Int) (p₀ p : Process) (admitted queued : Prop) : Prop where
  arrival : p.arrivalTime = p₀.arrivalTime
  burst : p.burstTime = p₀.burstTime
  waiting : ¬ admitted → p = p₀ ∧ 0 < p.arrivalTime ∧ (0 < p.burstTime → now < p.arrivalTime)
  ready : queued → Ready now p₀ p
  finished : admitted → ¬ queued → Finished now p₀ p

theorem Ready.mono {now now' : Int} {p₀ p : Process} (h : Ready now p₀ p) (hle : now ≤ now') : Ready now' p₀ p where
  arrived := h.arrived.trans hle
  nonneg := h.nonneg
  pos := h.pos
  firstRun := by
    intro hf
    rcases h.firstRun hf with h | h
    · exact Or.inl h
    · exact Or.inr ⟨h.1, h.2.trans hle⟩

theorem Finished.mono {now now' : Int} {p₀ p : Process} (h : Finished now p₀ p) (hle : now ≤ now') :
    Finished now' p₀ p :=
  ⟨h.arrived.trans hle, h.remaining, ⟨h.completion.1, h.completion.2.trans hle⟩, h.firstRun⟩

/-- Time passes, and the process is admitted if it has arrived with something to do. -/
theorem Stage.checkArrivals {now now' : Int} {p₀ p : Process} {admitted queued new : Prop}
    (h : Stage now p₀ p admitted queued) (hf : Fresh p₀) (hle : now ≤ now')
    (hnew : new ↔ ¬ admitted ∧ p.arrivalTime ≤ now' ∧ 0 < p.remainingTime) :
    Stage now' p₀ p (admitted ∨ new) (queued ∨ new) where
  arrival := h.arrival
  burst := h.burst
  waiting := by
    intro hw
    rw [not_or] at hw
    obtain ⟨hp, harr, -⟩ := h.waiting hw.1
    refine ⟨hp, harr, fun hb => ?_⟩
    have hrem : p.remainingTime = p.burstTime := by rw [hp, hf.remaining]
    by_contra hlate
    exact hw.2 (hnew.mpr ⟨hw.1, not_lt.mp hlate, by omega⟩)
  ready := by
    rintro (hq | hn)
    · exact (h.ready hq).mono hle
    · obtain ⟨ha, harr, hrem⟩ := hnew.mp hn
      obtain ⟨rfl, -, -⟩ := h.waiting ha
      exact ⟨harr, hrem.le, fun _ => hrem, fun hfirst => Or.inl ⟨hfirst, hf.remaining⟩⟩
  finished := by
    intro ha hq
    rw [not_or] at hq
    exact (h.finished (ha.resolve_right hq.2) hq.1).mono hle

/-! ## The invariant -/

def RoundRobin.waiting (s : RoundRobin) : List Nat := (List.range s.procs.length).filter fun i => !s.inQueue i

/-- `run` is the process on the processor, if any; `now` is when arrivals were last looked for. -/
structure Inv (jobs : List Process) (now : Int) (run : Option Nat) (s : RoundRobin) : Prop where
  clock : now ≤ s.currentTime
  time : 0 ≤ s.currentTime
  length : s.procs.length = jobs.length
  nodup : s.readyQueue.Nodup
  queued : ∀ i ∈ s.readyQueue, i < s.procs.length ∧ s.inQueue i = true ∧ run ≠ some i
  running : ∀ i, run = some i → i < s.procs.length ∧ s.inQueue i = true
  count : s.completed + s.readyQueue.length + s.waiting.length + run.toList.length = s.procs.length
  stage : ∀ i p₀ p, run ≠ some i → jobs[i]? = some p₀ → s.procs[i]? = some p →
    Stage now p₀ p (s.inQueue i = true) (i ∈ s.readyQueue)

theorem length_waiting (s : RoundRobin) {l : List Nat} {c : Nat → Bool}
    (hl : l = (List.range s.procs.length).filter c) (hc : ∀ i, c i = true → s.inQueue i = false) :
    l.length + (s.pushAll l).waiting.length = s.waiting.length := by
  have hpos : l = s.waiting.filter c := by
    rw [hl, RoundRobin.waiting, List.filter_filter]
    apply List.filter_congr
    intro i _
    cases h : c i with
    | true => simp [hc i h]
    | false => simp
  have hneg : (s.pushAll l).waiting = s.waiting.filter fun i => !c i := by
    rw [RoundRobin.waiting, RoundRobin.waiting, List.filter_filter]
    apply List.filter_congr
    intro i hi
    have hmem : i ∈ l ↔ c i = true := by
      rw [hl, List.mem_filter]
      exact and_iff_right hi
    simp [RoundRobin.pushAll, hmem, Bool.and_comm]
  have hperm := (List.filter_append_perm c s.waiting).length_eq
  rw [List.length_append] at hperm
  rw [hneg, ← hperm]
  congr 1
  rw [← hpos]

theorem length_arrivals (s : RoundRobin) :
    s.arrivals.length + (s.pushAll s.arrivals).waiting.length = s.waiting.length := by
  apply length_waiting s rfl
  intro i hi
  unfold RoundRobin.admits at hi
  cases hp : s.procs[i]? with
  | none => simp [hp] at hi
  | some p =>
    simp only [hp, Bool.and_eq_true, Bool.not_eq_true'] at hi
    exact hi.1.1

@[simp] theorem roundRobinInit_currentTime (sort : List Process → List Process) (procs : List Process) :
    (roundRobinInit sort procs).currentTime = 0 := by
  rw [roundRobinInit, admitInitially_eq]
  rfl

@[simp] theorem roundRobinInit_slices (sort : List Process → List Process) (procs : List Process) :
    (roundRobinInit sort procs).slices = [] := by
  rw [roundRobinInit, admitInitially_eq]
  rfl

theorem inv_init {sort : List Process → List Process} {procs : List Process} (hf : ∀ p ∈ sort procs, Fresh p) :
    Inv (sort procs) 0 none (roundRobinInit sort procs) := by
  have harrived : ∀ {i p}, (sort procs)[i]? = some p →
      (({ procs := sort procs } : RoundRobin).arrived i ↔ p.arrivalTime ≤ 0) := by
    intro i p hp
    simp [RoundRobin.arrived, hp]
  have hlen := length_waiting { procs := sort procs } rfl (c := ({ procs := sort procs } : RoundRobin).arrived)
    (fun _ _ => rfl)
  have hall : ({ procs := sort procs } : RoundRobin).waiting.length = (sort procs).length := by
    simp [RoundRobin.waiting]
  rw [hall] at hlen
  unfold roundRobinInit
  rw [admitInitially_eq]
  constructor
  · exact le_rfl
  · exact le_rfl
  · rfl
  · exact List.nodup_range.filter _
  · intro i hi
    have hlt := List.mem_range.mp (List.mem_filter.mp hi).1
    exact ⟨hlt, decide_eq_true hi, by simp⟩
  · simp
  · simpa [RoundRobin.pushAll] using hlen
  · intro i p₀ p _ hp₀ hp
    obtain rfl := Option.some.inj (hp₀.symm.trans hp)
    have hfr := hf p₀ (List.mem_of_getElem? hp)
    have hmem : i ∈ (List.range (sort procs).length).filter ({ procs := sort procs } : RoundRobin).arrived ↔
        p₀.arrivalTime ≤ 0 := by
      rw [List.mem_filter, harrived hp, List.mem_range]
      exact and_iff_right (List.getElem?_eq_some_iff.mp hp).1
    constructor
    · rfl
    · rfl
    · intro hw
      have hlate : 0 < p₀.arrivalTime := by
        by_contra h
        exact hw (decide_eq_true (hmem.mpr (not_lt.mp h)))
      exact ⟨rfl, hlate, fun _ => hlate⟩
    · intro hq
      have harr := hmem.mp hq
      refine ⟨harr, hfr.remaining ▸ hfr.burst, fun hb => hfr.remaining ▸ hb, fun h => Or.inl ⟨h, hfr.remaining⟩⟩
    · intro ha hq
      exact absurd (of_decide_eq_true ha) hq

/-! ## A round -/

def Process.afterSlice (p : Process) (quantum now : Int) : Process :=
  { p with
    firstRunTime := if p.firstRunTime < 0 then now else p.firstRunTime
    remainingTime := p.remainingTime - min quantum p.remainingTime }

@[simp] theorem afterSlice_arrivalTime (p : Process) (quantum now : Int) :
    (p.afterSlice quantum now).arrivalTime = p.arrivalTime := rfl

@[simp] theorem afterSlice_burstTime (p : Process) (quantum now : Int) :
    (p.afterSlice quantum now).burstTime = p.burstTime := rfl

/-- The process at the front of the queue has run; nothing has been admitted yet. -/
def RoundRobin.afterSlice (s : RoundRobin) (quantum : Int) (idx : Nat) (rest : List Nat) (p : Process) :
    RoundRobin :=
  { s with
    procs := s.procs.set idx (p.afterSlice quantum s.currentTime)
    readyQueue := rest
    currentTime := s.currentTime + min quantum p.remainingTime
    slices := s.slices ++ [⟨idx, s.currentTime, s.currentTime + min quantum p.remainingTime⟩] }

@[simp] theorem afterSlice_currentTime (s : RoundRobin) (quantum : Int) (idx : Nat) (rest : List Nat)
    (p : Process) :
    (s.afterSlice quantum idx rest p).currentTime = s.currentTime + min quantum p.remainingTime := rfl

/-- It goes to the back of the queue, or is completed. -/
def RoundRobin.handBack (s : RoundRobin) (idx : Nat) (p : Process) : RoundRobin :=
  if p.remainingTime = 0 then
    { s with procs := s.procs.set idx { p with completionTime := s.currentTime }, completed := s.completed + 1 }
  else { s with readyQueue := s.readyQueue ++ [idx] }

@[simp] theorem handBack_currentTime (s : RoundRobin) (idx : Nat) (p : Process) :
    (s.handBack idx p).currentTime = s.currentTime := by
  unfold RoundRobin.handBack
  split <;> rfl

@[simp] theorem handBack_slices (s : RoundRobin) (idx : Nat) (p : Process) :
    (s.handBack idx p).slices = s.slices := by
  unfold RoundRobin.handBack
  split <;> rfl

@[simp] theorem handBack_inQueue (s : RoundRobin) (idx : Nat) (p : Process) :
    (s.handBack idx p).inQueue = s.inQueue := by
  unfold RoundRobin.handBack
  split <;> rfl

theorem body_exit {quantum : Int} {s : RoundRobin} (h : ¬ s.completed < s.procs.length) :
    roundRobinBody quantum s = .exit := by
  simp [roundRobinBody, h]

theorem body_idle {quantum : Int} {s : RoundRobin} (h : s.completed < s.procs.length) (hq : s.readyQueue = []) :
    roundRobinBody quantum s = .next (checkArrivals { s with currentTime := s.currentTime + 1 }) := by
  simp [roundRobinBody, h, hq]

theorem body_slice {quantum : Int} {s : RoundRobin} {idx : Nat} {rest : List Nat} {p : Process}
    (h : s.completed < s.procs.length) (hq : s.readyQueue = idx :: rest) (hp : s.procs[idx]? = some p) :
    roundRobinBody quantum s =
      .next ((checkArrivals (s.afterSlice quantum idx rest p)).handBack idx
        (p.afterSlice quantum s.currentTime)) := by
  unfold roundRobinBody RoundRobin.handBack
  simp only [if_pos h, hq, hp]
  exact (apply_ite Loop.Outcome.next _ _ _).symm

theorem Ready.slice {now quantum : Int} {p₀ p : Process} (h : Ready now p₀ p) (hq : 1 ≤ quantum)
    (harr : 0 ≤ p.arrivalTime) :
    0 ≤ min quantum p.remainingTime ∧ 0 ≤ (p.afterSlice quantum now).remainingTime ∧
      (p₀.firstRunTime < 0 → p.arrivalTime ≤ (p.afterSlice quantum now).firstRunTime ∧
        (p.afterSlice quantum now).firstRunTime + (p.burstTime - (p.afterSlice quantum now).remainingTime) ≤
          now + min quantum p.remainingTime) := by
  have hnonneg := h.nonneg
  have harrived := h.arrived
  simp only [Process.afterSlice]
  refine ⟨by omega, by omega, fun hfirst => ?_⟩
  rcases h.firstRun hfirst with ⟨hneg, hrem⟩ | ⟨hle, hrun⟩
  · rw [if_pos hneg]
    omega
  · rw [if_neg (by omega)]
    omega

section
variable {jobs : List Process} {now : Int} {run : Option Nat} {s : RoundRobin}

theorem Inv.tick (hi : Inv jobs s.currentTime none s) :
    Inv jobs s.currentTime none { s with currentTime := s.currentTime + 1 } where
  clock := Int.le_add_one le_rfl
  time := hi.time.trans (Int.le_add_one le_rfl)
  length := hi.length
  nodup := hi.nodup
  queued := hi.queued
  running := hi.running
  count := hi.count
  stage := hi.stage

theorem Inv.checkArrivals (hi : Inv jobs now run s) (hf : ∀ p ∈ jobs, Fresh p) :
    Inv jobs s.currentTime run (Scheduler.checkArrivals s) := by
  rw [checkArrivals_eq]
  have hnew : ∀ i ∈ s.arrivals, s.inQueue i = false := by
    intro i h
    exact ((mem_arrivals (List.getElem?_eq_getElem (lt_of_mem_arrivals h))).mp h).1
  constructor
  · exact le_rfl
  · exact hi.time
  · exact hi.length
  · apply hi.nodup.append (nodup_arrivals s)
    intro i h h'
    exact absurd (hi.queued i h).2.1 (by simp [hnew i h'])
  · intro i h
    rcases List.mem_append.mp h with h | h
    · obtain ⟨hlt, hq, hrun⟩ := hi.queued i h
      exact ⟨hlt, by simp [RoundRobin.pushAll, hq], hrun⟩
    · have hlt : i < s.procs.length := lt_of_mem_arrivals h
      refine ⟨hlt, by simp [RoundRobin.pushAll, h], fun hrun => ?_⟩
      exact absurd (hi.running i hrun).2 (by simp [hnew i h])
  · intro i hrun
    obtain ⟨hlt, hq⟩ := hi.running i hrun
    exact ⟨hlt, by simp [RoundRobin.pushAll, hq]⟩
  · have hcount := hi.count
    rw [← length_arrivals s] at hcount
    simp only [RoundRobin.pushAll, List.length_append] at hcount ⊢
    omega
  · intro i p₀ p hrun hp₀ hp
    have hp : s.procs[i]? = some p := hp
    have hnew : i ∈ s.arrivals ↔ ¬ s.inQueue i = true ∧ p.arrivalTime ≤ s.currentTime ∧ 0 < p.remainingTime := by
      rw [mem_arrivals hp, Bool.not_eq_true]
    have hst := (hi.stage i p₀ p hrun hp₀ hp).checkArrivals (hf p₀ (List.mem_of_getElem? hp₀)) hi.clock hnew
    simpa [RoundRobin.pushAll] using hst

theorem Inv.slice (hi : Inv jobs s.currentTime none s) {quantum : Int} {idx : Nat} {rest : List Nat} {p : Process}
    (hq : s.readyQueue = idx :: rest) (hrun : 0 ≤ min quantum p.remainingTime) :
    Inv jobs s.currentTime (some idx) (s.afterSlice quantum idx rest p) := by
  have hnd := hi.nodup
  have hqueued := hi.queued
  rw [hq] at hnd hqueued
  obtain ⟨hidx, hnd⟩ := List.nodup_cons.mp hnd
  constructor
  · simp only [RoundRobin.afterSlice]
    omega
  · have htime := hi.time
    simp only [RoundRobin.afterSlice]
    omega
  · simp [RoundRobin.afterSlice, hi.length]
  · exact hnd
  · intro i h
    obtain ⟨hlt, hin, -⟩ := hqueued i (List.mem_cons_of_mem _ h)
    refine ⟨by simpa [RoundRobin.afterSlice] using hlt, hin, ?_⟩
    rintro ⟨⟩
    exact hidx h
  · rintro i ⟨⟩
    obtain ⟨hlt, hin, -⟩ := hqueued idx List.mem_cons_self
    exact ⟨by simpa [RoundRobin.afterSlice] using hlt, hin⟩
  · have hcount := hi.count
    rw [hq] at hcount
    simp [RoundRobin.afterSlice, RoundRobin.waiting] at hcount ⊢
    omega
  · intro i p₀ p' hne hp₀ hp'
    have hne' : i ≠ idx := fun e => hne (e ▸ rfl)
    simp only [RoundRobin.afterSlice, List.getElem?_set_ne (Ne.symm hne')] at hp'
    have hst := hi.stage i p₀ p' (by simp) hp₀ hp'
    simpa [hq, hne', RoundRobin.afterSlice] using hst

theorem Inv.handBack_finished {idx : Nat} {p₀ p : Process} (hi : Inv jobs s.currentTime (some idx) s)
    (hp₀ : jobs[idx]? = some p₀) (harrival : p.arrivalTime = p₀.arrivalTime) (hburst : p.burstTime = p₀.burstTime)
    (hrem : p.remainingTime = 0)
    (hfinished : Finished s.currentTime p₀ { p with completionTime := s.currentTime }) :
    Inv jobs s.currentTime none (s.handBack idx p) := by
  obtain ⟨hlt, hin⟩ := hi.running idx rfl
  have hidx : idx ∉ s.readyQueue := fun h => (hi.queued idx h).2.2 rfl
  have hcount := hi.count
  unfold RoundRobin.handBack
  rw [if_pos hrem]
  constructor
  · exact le_rfl
  · exact hi.time
  · simp [hi.length]
  · exact hi.nodup
  · intro i h
    obtain ⟨hlt, hin, -⟩ := hi.queued i h
    exact ⟨by simpa using hlt, hin, by simp⟩
  · simp
  · simp [RoundRobin.waiting] at hcount ⊢
    omega
  · intro i q₀ q _ hq₀ hq
    by_cases h : i = idx
    · subst h
      obtain rfl := Option.some.inj (hp₀.symm.trans hq₀)
      simp only [List.getElem?_set_self hlt, Option.some.injEq] at hq
      subst hq
      exact ⟨harrival, hburst, fun h => absurd hin h, fun h => absurd h hidx, fun _ _ => hfinished⟩
    · simp only [List.getElem?_set_ne (Ne.symm h)] at hq
      exact hi.stage i q₀ q (fun e => h (Option.some.inj e).symm) hq₀ hq

theorem Inv.handBack_requeued {idx : Nat} {p₀ p : Process} (hi : Inv jobs s.currentTime (some idx) s)
    (hp₀ : jobs[idx]? = some p₀) (hp : s.procs[idx]? = some p) (harrival : p.arrivalTime = p₀.arrivalTime)
    (hburst : p.burstTime = p₀.burstTime) (hrem : p.remainingTime ≠ 0) (hready : Ready s.currentTime p₀ p) :
    Inv jobs s.currentTime none (s.handBack idx p) := by
  obtain ⟨hlt, hin⟩ := hi.running idx rfl
  have hidx : idx ∉ s.readyQueue := fun h => (hi.queued idx h).2.2 rfl
  have hcount := hi.count
  unfold RoundRobin.handBack
  rw [if_neg hrem]
  constructor
  · exact le_rfl
  · exact hi.time
  · exact hi.length
  · exact hi.nodup.append (List.nodup_singleton idx) (by simpa using hidx)
  · intro i h
    rcases List.mem_append.mp h with h | h
    · obtain ⟨hlt, hin, -⟩ := hi.queued i h
      exact ⟨hlt, hin, by simp⟩
    · obtain rfl := List.mem_singleton.mp h
      exact ⟨hlt, hin, by simp⟩
  · simp
  · simp [RoundRobin.waiting] at hcount ⊢
    omega
  · intro i q₀ q _ hq₀ hq
    by_cases h : i = idx
    · subst h
      obtain rfl := Option.some.inj (hp₀.symm.trans hq₀)
      obtain rfl := Option.some.inj (hp.symm.trans hq)
      exact ⟨harrival, hburst, fun h => absurd hin h, fun _ => hready, fun _ h => absurd (by simp) h⟩
    · have hst := hi.stage i q₀ q (fun e => h (Option.some.inj e).symm) hq₀ hq
      simpa [h] using hst

/-- The process on the processor is put back, or it is finished. -/
theorem Inv.handBack {idx : Nat} {p₀ p : Process} (hi : Inv jobs s.currentTime (some idx) s)
    (hp₀ : jobs[idx]? = some p₀) (hp : s.procs[idx]? = some p) (harrival : p.arrivalTime = p₀.arrivalTime)
    (hburst : p.burstTime = p₀.burstTime)
    (hready : p.remainingTime ≠ 0 → Ready s.currentTime p₀ p)
    (hfinished : p.remainingTime = 0 → Finished s.currentTime p₀ { p with completionTime := s.currentTime }) :
    Inv jobs s.currentTime none (s.handBack idx p) := by
  by_cases hrem : p.remainingTime = 0
  · exact hi.handBack_finished hp₀ harrival hburst hrem (hfinished hrem)
  · exact hi.handBack_requeued hp₀ hp harrival hburst hrem (hready hrem)

end

end Playground.Scheduler
