import Mathlib.Algebra.Ring.Int.Defs
import Mathlib.Data.List.Sort
import Mathlib.Data.Rat.Defs
import Playground.Lib.CInt
import Playground.Lib.Loop

/-!
# Process scheduling (`systems/os/scheduler_sim.cpp`)

Round robin and non-preemptive priority scheduling of a list of processes:
`roundRobinInt` and `prioritySchedulingInt`, with a clock of 32 bits that may
overflow. `roundRobin` and `priorityScheduling` are the same with exact times.
The loops may go on for ever, so the schedulers are given the number of rounds
to go. `std::sort` is a parameter: it need not be stable.
-/

namespace Playground.Scheduler

structure Process where
  pid : Int
  arrivalTime : Int
  burstTime : Int
  priority : Int -- lower number: higher priority
  remainingTime : Int
  completionTime : Int := 0
  firstRunTime : Int := -1
  deriving DecidableEq, Repr

/-- The averages are exact; those of no processes are not numbers. -/
structure SchedulerResult where
  processes : List Process
  avgTurnaround : Option ℚ
  avgWaiting : Option ℚ
  deriving DecidableEq

/-! ## Metrics -/

def turnaround (p : Process) : Int := p.completionTime - p.arrivalTime

def waiting (p : Process) : Int := turnaround p - p.burstTime

def average (total : Int) (n : Nat) : Option ℚ := if n = 0 then none else some (total / n)

def result (procs : List Process) : SchedulerResult where
  processes := procs
  avgTurnaround := average (procs.map turnaround).sum procs.length
  avgWaiting := average (procs.map waiting).sum procs.length

/-! ## Round robin -/

/-- One turn of the process at `idx`, kept for the record only. -/
structure Slice where
  idx : Nat
  start : Int
  stop : Int
  deriving DecidableEq, Repr

/-- The variables of `roundRobin`, and the slices given so far. -/
structure RoundRobin where
  procs : List Process
  readyQueue : List Nat := []
  inQueue : Nat → Bool := fun _ => false
  currentTime : Int := 0
  completed : Nat := 0
  slices : List Slice := []

def RoundRobin.push (s : RoundRobin) (i : Nat) : RoundRobin :=
  { s with readyQueue := s.readyQueue ++ [i], inQueue := Function.update s.inQueue i true }

/-- The condition under which a later loop admits process `i`. -/
def RoundRobin.admits (s : RoundRobin) (i : Nat) : Bool :=
  match s.procs[i]? with
  | some p => !s.inQueue i && p.arrivalTime ≤ s.currentTime && p.remainingTime > 0
  | none => false

/-- The loop that checks the first `n` processes for new arrivals. -/
def checkArrivalsTo (n : Nat) (s : RoundRobin) : RoundRobin :=
  (List.range n).foldl (fun s i => if s.admits i then s.push i else s) s

def checkArrivals (s : RoundRobin) : RoundRobin := checkArrivalsTo s.procs.length s

def RoundRobin.arrived (s : RoundRobin) (i : Nat) : Bool :=
  match s.procs[i]? with
  | some p => p.arrivalTime ≤ s.currentTime
  | none => false

/-- The loop before the first round, which does not look at the remaining time. -/
def admitInitiallyTo (n : Nat) (s : RoundRobin) : RoundRobin :=
  (List.range n).foldl (fun s i => if s.arrived i then s.push i else s) s

def admitInitially (s : RoundRobin) : RoundRobin := admitInitiallyTo s.procs.length s

def roundRobinBody (quantum : Int) (s : RoundRobin) : Loop.Outcome RoundRobin :=
  if s.completed < s.procs.length then
    match s.readyQueue with
    | [] => .next (checkArrivals { s with currentTime := s.currentTime + 1 })
    | idx :: readyQueue =>
      match s.procs[idx]? with
      | none => .fault
      | some p =>
        let firstRunTime := if p.firstRunTime < 0 then s.currentTime else p.firstRunTime
        let runTime := min quantum p.remainingTime
        let p := { p with firstRunTime, remainingTime := p.remainingTime - runTime }
        let s := checkArrivals { s with
          procs := s.procs.set idx p
          readyQueue
          currentTime := s.currentTime + runTime
          slices := s.slices ++ [⟨idx, s.currentTime, s.currentTime + runTime⟩] }
        if p.remainingTime = 0 then
          .next { s with
            procs := s.procs.set idx { p with completionTime := s.currentTime }
            completed := s.completed + 1 }
        else
          .next { s with readyQueue := s.readyQueue ++ [idx] }
  else .exit

def roundRobinInit (sort : List Process → List Process) (procs : List Process) : RoundRobin :=
  admitInitially { procs := sort procs }

def roundRobinLoop (sort : List Process → List Process) (fuel : Nat) (procs : List Process) (quantum : Int) :
    Option RoundRobin :=
  Loop.run (roundRobinBody quantum) fuel (roundRobinInit sort procs)

def roundRobin (sort : List Process → List Process) (fuel : Nat) (procs : List Process) (quantum : Int) :
    Option SchedulerResult :=
  (roundRobinLoop sort fuel procs quantum).map fun s => result s.procs

/-! ## Round robin in `int` -/

/-- The turnaround and waiting times. -/
def metricsInt (p : Process) : Option (Int × Int) := do
  let tat ← CInt.fit (p.completionTime - p.arrivalTime)
  let wt ← CInt.fit (tat - p.burstTime)
  some (tat, wt)

def resultInt (n : Int) (procs : List Process) : Option SchedulerResult := do
  let metrics ← procs.mapM metricsInt
  some {
    processes := procs
    avgTurnaround := average (metrics.map Prod.fst).sum n.toNat
    avgWaiting := average (metrics.map Prod.snd).sum n.toNat }

/-- Where `completed` is counted up it is below `n`, so it stays an `int`. -/
def roundRobinBodyInt (n quantum : Int) (s : RoundRobin) : Loop.Outcome RoundRobin :=
  if s.completed < n then
    match s.readyQueue with
    | [] => .ofOption ((CInt.fit (s.currentTime + 1)).map fun currentTime =>
      checkArrivalsTo n.toNat { s with currentTime })
    | idx :: readyQueue =>
      match s.procs[idx]? with
      | none => .fault
      | some p => .ofOption do
        let firstRunTime := if p.firstRunTime < 0 then s.currentTime else p.firstRunTime
        let runTime := min quantum p.remainingTime
        let remainingTime ← CInt.fit (p.remainingTime - runTime)
        let currentTime ← CInt.fit (s.currentTime + runTime)
        let p := { p with firstRunTime, remainingTime }
        let s := checkArrivalsTo n.toNat { s with
          procs := s.procs.set idx p
          readyQueue
          currentTime
          slices := s.slices ++ [⟨idx, s.currentTime, currentTime⟩] }
        if p.remainingTime = 0 then
          some { s with
            procs := s.procs.set idx { p with completionTime := s.currentTime }
            completed := s.completed + 1 }
        else some { s with readyQueue := s.readyQueue ++ [idx] }
  else .exit

def roundRobinIntInit (sort : List Process → List Process) (procs : List Process) : RoundRobin :=
  admitInitiallyTo (CInt.ofSize procs.length).toNat { procs := sort procs }

def roundRobinIntLoop (sort : List Process → List Process) (fuel : Nat) (procs : List Process) (quantum : Int) :
    Option RoundRobin :=
  let n := CInt.ofSize procs.length
  if n < 0 then none -- `in_queue(n, false)` throws
  else Loop.run (roundRobinBodyInt n quantum) fuel (roundRobinIntInit sort procs)

def roundRobinInt (sort : List Process → List Process) (fuel : Nat) (procs : List Process) (quantum : Int) :
    Option SchedulerResult :=
  (roundRobinIntLoop sort fuel procs quantum).bind fun s => resultInt (CInt.ofSize procs.length) s.procs

/-! ## Priority scheduling -/

structure Priority where
  procs : List Process
  done : Nat → Bool := fun _ => false
  currentTime : Int := 0
  completed : Nat := 0

/-- The process to run next, of those before `n`. -/
def Priority.best (s : Priority) (n : Nat) : Option Nat :=
  (List.range n).foldl (fun best i =>
    match s.procs[i]? with
    | none => best
    | some p =>
      if !s.done i && p.arrivalTime ≤ s.currentTime then
        match best.bind fun b => s.procs[b]? with
        | none => some i
        | some b => if p.priority < b.priority then some i else best
      else best) none

def priorityBody (s : Priority) : Loop.Outcome Priority :=
  if s.completed < s.procs.length then
    match s.best s.procs.length with
    | none => .next { s with currentTime := s.currentTime + 1 }
    | some best =>
      match s.procs[best]? with
      | none => .fault
      | some p =>
        let currentTime := s.currentTime + p.burstTime
        let p := { p with firstRunTime := s.currentTime, completionTime := currentTime, remainingTime := 0 }
        .next { procs := s.procs.set best p
                done := Function.update s.done best true
                currentTime
                completed := s.completed + 1 }
  else .exit

def priorityScheduling (fuel : Nat) (procs : List Process) : Option SchedulerResult :=
  (Loop.run priorityBody fuel { procs }).map fun s => result s.procs

/-! ## Priority scheduling in `int` -/

def priorityBodyInt (n : Int) (s : Priority) : Loop.Outcome Priority :=
  if s.completed < n then
    match s.best n.toNat with
    | none => .ofOption ((CInt.fit (s.currentTime + 1)).map fun currentTime => { s with currentTime })
    | some best =>
      match s.procs[best]? with
      | none => .fault
      | some p =>
        .ofOption ((CInt.fit (s.currentTime + p.burstTime)).map fun currentTime =>
          let p := { p with firstRunTime := s.currentTime, completionTime := currentTime, remainingTime := 0 }
          { procs := s.procs.set best p
            done := Function.update s.done best true
            currentTime
            completed := s.completed + 1 })
  else .exit

def prioritySchedulingInt (fuel : Nat) (procs : List Process) : Option SchedulerResult := do
  let n := CInt.ofSize procs.length
  if n < 0 then none -- `done(n, false)` throws
  else
    let s ← Loop.run (priorityBodyInt n) fuel { procs }
    resultInt n s.procs

/-! ## What is assumed of sorting and of the processes -/

/-- `std::sort` by arrival time: it permutes, and puts no later arrival before an earlier one. -/
def SortsByArrival (sort : List Process → List Process) : Prop :=
  ∀ procs, (sort procs).Perm procs ∧ ((sort procs).map Process.arrivalTime).Pairwise (· ≤ ·)

structure Fresh (p : Process) : Prop where
  arrival : 0 ≤ p.arrivalTime
  burst : 0 ≤ p.burstTime
  remaining : p.remainingTime = p.burstTime

instance (p : Process) : Decidable (Fresh p) :=
  decidable_of_iff (0 ≤ p.arrivalTime ∧ 0 ≤ p.burstTime ∧ p.remainingTime = p.burstTime)
    ⟨fun ⟨harrival, hburst, hremaining⟩ => ⟨harrival, hburst, hremaining⟩,
      fun h => ⟨h.arrival, h.burst, h.remaining⟩⟩

/-- A stable sort, to run the schedulers with. -/
def stableSort (procs : List Process) : List Process :=
  procs.insertionSort fun p q => p.arrivalTime ≤ q.arrivalTime

theorem stableSort_sorts : SortsByArrival stableSort := by
  intro procs
  have htotal : Std.Total fun p q : Process => p.arrivalTime ≤ q.arrivalTime := ⟨fun p q => le_total _ _⟩
  have htrans : IsTrans Process fun p q => p.arrivalTime ≤ q.arrivalTime := ⟨fun p q r => le_trans⟩
  exact ⟨List.perm_insertionSort _ _, List.pairwise_map.mpr (List.pairwise_insertionSort _ _)⟩

/-- A short process that arrives while a long one runs, and precedes it. -/
def shortAfterLong : List Process :=
  [{ pid := 1, arrivalTime := 0, burstTime := 8, priority := 2, remainingTime := 8 },
    { pid := 2, arrivalTime := 1, burstTime := 4, priority := 1, remainingTime := 4 }]

theorem shortAfterLong_fresh : ∀ p ∈ shortAfterLong, Fresh p ∧ 0 < p.burstTime := by decide

end Playground.Scheduler
