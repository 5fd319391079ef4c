import Mathlib.Algebra.Order.Ring.Int
import Mathlib.Data.List.Chain
import Mathlib.Tactic.Linarith
import Mathlib.Tactic.Ring
import Playground.RoundRobinSound

/-!
# Bounded waiting in round robin

A process in the queue has waited since its arrival or its last turn, and
will wait for at most one quantum for each process in front of it. A round
moves the one part into the other; so the sum, which is at most one quantum
for each other process when it joins the queue, never grows (`Fair.wait`).
-/

namespace Playground.Scheduler

def RoundRobin.slicesOf (s : RoundRobin) (i : Nat) : List Slice := s.slices.filter fun sl => sl.idx = i

/-- Since when a process waits: its last turn, or else its arrival. -/
def waitsSince (p₀ : Process) (turns : List Slice) : Int := (turns.getLast?.map Slice.stop).getD p₀.arrivalTime

/-- The first turn comes at most `bound` after the arrival, and each later one at most `bound` after the last. -/
structure Turns (bound : Int) (p₀ : Process) (turns : List Slice) : Prop where
  first : ∀ sl ∈ turns.head?, sl.start - p₀.arrivalTime ≤ bound
  gaps : turns.IsChain fun a b => b.start - a.stop ≤ bound

theorem turns_nil (bound : Int) (p₀ : Process) : Turns bound p₀ [] := ⟨by simp, .nil⟩

theorem Turns.snoc {bound : Int} {p₀ : Process} {turns : List Slice} (h : Turns bound p₀ turns) {sl : Slice}
    (hsl : sl.start - waitsSince p₀ turns ≤ bound) : Turns bound p₀ (turns ++ [sl]) where
  first := by
    intro x hx
    cases turns with
    | nil =>
      simp at hx
      subst hx
      simpa [waitsSince] using hsl
    | cons y turns => exact h.first x hx
  gaps := by
    apply h.gaps.append (.singleton sl)
    intro x hx y hy
    simp at hy
    subst hy
    rw [Option.mem_def] at hx
    simpa [waitsSince, hx] using hsl

/-- `wait` counts both the time that a process has waited and the turns before its own. -/
structure Fair (jobs : List Process) (quantum : Int) (s : RoundRobin) : Prop where
  wait : ∀ (k i : Nat) (p₀ : Process), s.readyQueue[k]? = some i → jobs[i]? = some p₀ →
    s.currentTime - waitsSince p₀ (s.slicesOf i) + k * quantum ≤ (jobs.length - 1) * quantum
  turns : ∀ i p₀, jobs[i]? = some p₀ → Turns ((jobs.length - 1) * quantum) p₀ (s.slicesOf i)
  unadmitted : ∀ i, s.inQueue i = false → s.slicesOf i = []
  unqueued : ∀ i, s.inQueue i = true → i ∉ s.readyQueue → s.slicesOf i ≠ []

section
variable {jobs : List Process} (hf : ∀ p ∈ jobs, Fresh p) {quantum : Int} (hquantum : 1 ≤ quantum)
    {s s' : RoundRobin}

include hquantum

theorem wait_le {n k d : Nat} {t : Int} (hk : k + d < n) (ht : t ≤ d * quantum) :
    t + k * quantum ≤ (n - 1) * quantum := by
  have hle : ((k + d : Nat) : Int) ≤ (n : Int) - 1 := by omega
  have hmul := mul_le_mul_of_nonneg_right hle (by omega : 0 ≤ quantum)
  push_cast at hmul
  calc t + k * quantum ≤ d * quantum + k * quantum := by omega
    _ = (k + d) * quantum := by ring
    _ ≤ (n - 1) * quantum := hmul

omit hquantum in
theorem Inv.length_queue {now : Int} {run : Option Nat} (hi : Inv jobs now run s) :
    s.readyQueue.length + run.toList.length ≤ jobs.length := by
  have h := hi.count
  have hlen := hi.length
  omega

theorem fair_init {sort : List Process → List Process} (hf : ∀ p ∈ sort jobs, Fresh p) :
    Fair (sort jobs) quantum (roundRobinInit sort jobs) := by
  have hlen := (inv_init hf).length_queue
  constructor
  · intro k i p₀ hk hp₀
    have harr := (hf p₀ (List.mem_of_getElem? hp₀)).arrival
    have hlt := (List.getElem?_eq_some_iff.mp hk).1
    apply wait_le hquantum (d := 0)
    · simp only [Option.toList_none, List.length_nil, Nat.add_zero] at hlen
      omega
    · simpa [RoundRobin.slicesOf, waitsSince] using harr
  · intro i p₀ _
    simpa [RoundRobin.slicesOf] using turns_nil _ p₀
  · intro i _
    simp [RoundRobin.slicesOf]
  · intro i hin hq
    rw [roundRobinInit, admitInitially_eq] at hin hq
    exact absurd (of_decide_eq_true (by simpa [RoundRobin.pushAll] using hin)) hq

/-! ## A round -/

section
omit hquantum

theorem slicesOf_afterSlice (s : RoundRobin) (idx : Nat) (rest : List Nat) (p : Process) (i : Nat) :
    (s.afterSlice quantum idx rest p).slicesOf i =
      s.slicesOf i ++
        if idx = i then [⟨idx, s.currentTime, s.currentTime + min quantum p.remainingTime⟩] else [] := by
  by_cases h : idx = i <;> simp [RoundRobin.slicesOf, RoundRobin.afterSlice, h]

@[simp] theorem slicesOf_checkArrivals (s : RoundRobin) (i : Nat) :
    (checkArrivals s).slicesOf i = s.slicesOf i := by
  simp [RoundRobin.slicesOf]

@[simp] theorem slicesOf_handBack (s : RoundRobin) (idx : Nat) (p : Process) (i : Nat) :
    (s.handBack idx p).slicesOf i = s.slicesOf i := by
  simp [RoundRobin.slicesOf]

theorem checkArrivals_readyQueue (s : RoundRobin) : (checkArrivals s).readyQueue = s.readyQueue ++ s.arrivals := by
  rw [checkArrivals_eq]
  rfl

theorem checkArrivals_inQueue (s : RoundRobin) (i : Nat) :
    (checkArrivals s).inQueue i = true ↔ s.inQueue i = true ∨ i ∈ s.arrivals := by
  rw [checkArrivals_eq]
  simp [RoundRobin.pushAll]

theorem handBack_readyQueue (s : RoundRobin) (idx : Nat) (p : Process) :
    (s.handBack idx p).readyQueue = s.readyQueue ++ if p.remainingTime = 0 then [] else [idx] := by
  unfold RoundRobin.handBack
  split <;> simp

theorem late_of_arrival (hf : ∀ p ∈ jobs, Fresh p ∧ 0 < p.burstTime) {now : Int} {run : Option Nat}
    (hi : Inv jobs now run s) {i : Nat} {p₀ : Process} (h : i ∈ s.arrivals) (hp₀ : jobs[i]? = some p₀) :
    s.inQueue i = false ∧ now < p₀.arrivalTime := by
  have hp := List.getElem?_eq_getElem (lt_of_mem_arrivals h)
  have hin := ((mem_arrivals hp).mp h).1
  have hrun : run ≠ some i := fun e => by
    have := (hi.running i e).2
    simp [hin] at this
  obtain ⟨he, -, hlate⟩ := (hi.stage i p₀ _ hrun hp₀ hp).waiting (by simp [hin])
  rw [he] at hlate
  exact ⟨hin, hlate (hf p₀ (List.mem_of_getElem? hp₀)).2⟩

end

theorem Fair.idle (h : Fair jobs quantum s) (hf : ∀ p ∈ jobs, Fresh p ∧ 0 < p.burstTime)
    (hi : Inv jobs s.currentTime none s) (hq : s.readyQueue = []) :
    Fair jobs quantum (checkArrivals { s with currentTime := s.currentTime + 1 }) := by
  have hlen := (hi.tick.checkArrivals fun p hp => (hf p hp).1).length_queue
  have hqueue : (checkArrivals { s with currentTime := s.currentTime + 1 }).readyQueue =
      RoundRobin.arrivals { s with currentTime := s.currentTime + 1 } := by
    rw [checkArrivals_readyQueue]
    simp [hq]
  constructor
  · intro k i p₀ hk hp₀
    have hlt := (List.getElem?_eq_some_iff.mp hk).1
    rw [hqueue] at hk
    obtain ⟨hin, hlate⟩ := late_of_arrival hf hi.tick (List.mem_of_getElem? hk) hp₀
    have hnone : s.slicesOf i = [] := h.unadmitted i hin
    apply wait_le hquantum (d := 0)
    · simp only [Option.toList_none, List.length_nil, Nat.add_zero] at hlen
      omega
    · have hsince : waitsSince p₀ ((checkArrivals { s with currentTime := s.currentTime + 1 }).slicesOf i) =
          p₀.arrivalTime := by
        rw [slicesOf_checkArrivals]
        change waitsSince p₀ (s.slicesOf i) = _
        rw [hnone]
        rfl
      rw [hsince, checkArrivals_currentTime]
      simp only [Nat.cast_zero, zero_mul]
      omega
  · intro i p₀ hp₀
    rw [slicesOf_checkArrivals]
    exact h.turns i p₀ hp₀
  · intro i hin
    rw [slicesOf_checkArrivals]
    apply h.unadmitted i
    rw [← Bool.not_eq_true, checkArrivals_inQueue, not_or] at hin
    simpa using hin.1
  · intro i hin hnot
    rw [slicesOf_checkArrivals]
    rw [hqueue] at hnot
    exact h.unqueued i (((checkArrivals_inQueue _ i).mp hin).resolve_right hnot) (by simp [hq])

section
omit hquantum
variable {idx : Nat} {rest : List Nat} {p p' : Process}

theorem readyQueue_slice :
    ((checkArrivals (s.afterSlice quantum idx rest p)).handBack idx p').readyQueue =
      rest ++ ((s.afterSlice quantum idx rest p).arrivals ++ if p'.remainingTime = 0 then [] else [idx]) := by
  rw [handBack_readyQueue, checkArrivals_readyQueue, List.append_assoc]
  rfl

/-- Who is in the queue after a slice was there before, has just arrived, or has just run. -/
theorem readyQueue_slice_cases {k i : Nat}
    (hk : ((checkArrivals (s.afterSlice quantum idx rest p)).handBack idx p').readyQueue[k]? = some i) :
    rest[k]? = some i ∨
      (i ∈ (s.afterSlice quantum idx rest p).arrivals ∧
        k < rest.length + (s.afterSlice quantum idx rest p).arrivals.length) ∨ i = idx := by
  rw [readyQueue_slice, List.getElem?_append] at hk
  split at hk
  · exact Or.inl hk
  · rw [List.getElem?_append] at hk
    split at hk
    · exact Or.inr (Or.inl ⟨List.mem_of_getElem? hk, by omega⟩)
    · have hmem := List.mem_of_getElem? hk
      split at hmem <;> simp at hmem
      exact Or.inr (Or.inr hmem)

end

theorem Fair.wait_slice (h : Fair jobs quantum s) (hf : ∀ p ∈ jobs, Fresh p ∧ 0 < p.burstTime)
    (hi : Inv jobs s.currentTime none s) {idx : Nat} {rest : List Nat} {p p' : Process}
    (hq : s.readyQueue = idx :: rest) (hrun : 0 ≤ min quantum p.remainingTime) {t : RoundRobin}
    (ht : t = (checkArrivals (s.afterSlice quantum idx rest p)).handBack idx p')
    (hi' : Inv jobs (s.currentTime + min quantum p.remainingTime) none t) (k i : Nat) (q₀ : Process)
    (hk : t.readyQueue[k]? = some i) (hq₀ : jobs[i]? = some q₀) :
    t.currentTime - waitsSince q₀ (t.slicesOf i) + k * quantum ≤ (jobs.length - 1) * quantum := by
  subst ht
  have hidx : idx ∉ rest := by
    have hnd := hi.nodup
    rw [hq] at hnd
    exact (List.nodup_cons.mp hnd).1
  have hin : s.inQueue idx = true := (hi.queued idx (by simp [hq])).2.1
  have hslice := hi.slice hq hrun
  have hle := min_le_left quantum p.remainingTime
  have hlt := (List.getElem?_eq_some_iff.mp hk).1
  simp only [handBack_currentTime, checkArrivals_currentTime, slicesOf_handBack, slicesOf_checkArrivals,
    slicesOf_afterSlice, afterSlice_currentTime]
  rcases readyQueue_slice_cases hk with hk | ⟨hmem, hlt⟩ | rfl
  · have hne : idx ≠ i := fun e => hidx (e ▸ List.mem_of_getElem? hk)
    have hold := h.wait (k + 1) i q₀ (by simpa [hq] using hk) hq₀
    rw [if_neg hne, List.append_nil]
    push_cast at hold
    linarith
  · -- It may have arrived right after the slice began.
    obtain ⟨hnot, hlate⟩ := late_of_arrival hf hslice hmem hq₀
    have hne : idx ≠ i := by
      intro heq
      subst heq
      exact absurd hin (by simpa [RoundRobin.afterSlice] using hnot)
    have hsince : waitsSince q₀ (s.slicesOf i) = q₀.arrivalTime := by
      rw [h.unadmitted i hnot]
      rfl
    have hlen := (hslice.checkArrivals fun p hp => (hf p hp).1).length_queue
    rw [checkArrivals_readyQueue, List.length_append, Option.toList_some, List.length_singleton] at hlen
    rw [if_neg hne, List.append_nil, hsince]
    apply wait_le hquantum (d := 1)
    · exact lt_of_lt_of_le (Nat.add_lt_add_right hlt 1) hlen
    · push_cast
      linarith
  · simp only [if_true, waitsSince, List.getLast?_append, List.getLast?_singleton, Option.some_or, Option.map_some,
      Option.getD_some, sub_self]
    apply wait_le hquantum (d := 0)
    · exact lt_of_lt_of_le hlt hi'.length_queue
    · simp

theorem Fair.slice (h : Fair jobs quantum s) (hf : ∀ p ∈ jobs, Fresh p ∧ 0 < p.burstTime)
    (hi : Inv jobs s.currentTime none s) {idx : Nat} {rest : List Nat} {p p' : Process}
    (hq : s.readyQueue = idx :: rest) (hrun : 0 ≤ min quantum p.remainingTime)
    (hi' : Inv jobs (s.currentTime + min quantum p.remainingTime) none
      ((checkArrivals (s.afterSlice quantum idx rest p)).handBack idx p')) :
    Fair jobs quantum ((checkArrivals (s.afterSlice quantum idx rest p)).handBack idx p') := by
  have hin : s.inQueue idx = true := (hi.queued idx (by simp [hq])).2.1
  refine ⟨h.wait_slice hquantum hf hi hq hrun rfl hi', ?_, ?_, ?_⟩
  · intro i q₀ hq₀
    simp only [slicesOf_handBack, slicesOf_checkArrivals, slicesOf_afterSlice]
    have hold := h.turns i q₀ hq₀
    split
    · rename_i he
      apply hold.snoc
      simpa [he, hq] using h.wait 0 i q₀ (by simp [hq, he]) hq₀
    · simpa using hold
  · intro i hnot
    rw [handBack_inQueue, ← Bool.not_eq_true, checkArrivals_inQueue, not_or] at hnot
    have hnot : s.inQueue i = false := by simpa [RoundRobin.afterSlice] using hnot.1
    have hne : idx ≠ i := by
      intro heq
      subst heq
      simp [hin] at hnot
    simp [slicesOf_afterSlice, hne, h.unadmitted i hnot]
  · intro i hin' hnot
    simp only [slicesOf_handBack, slicesOf_checkArrivals, slicesOf_afterSlice]
    rw [readyQueue_slice, List.mem_append, List.mem_append, not_or, not_or] at hnot
    by_cases he : idx = i
    · simp [he]
    · rw [handBack_inQueue, checkArrivals_inQueue] at hin'
      have hold := h.unqueued i (hin'.resolve_right hnot.2.1) (by simp [hq, Ne.symm he, hnot.1])
      simp [he, hold]

theorem Fair.round (h : Fair jobs quantum s) (hf : ∀ p ∈ jobs, Fresh p ∧ 0 < p.burstTime)
    (hi : Inv jobs s.currentTime none s) (hr : Round jobs quantum s s') : Fair jobs quantum s' := by
  have hi' := hi.round (fun p hp => (hf p hp).1) hquantum hr
  cases hr with
  | idle hlt hq => exact h.idle hquantum hf hi hq
  | slice idx rest p₀ p hlt hq hp₀ hp hst =>
    have hfresh := (hf p₀ (List.mem_of_getElem? hp₀)).1
    have hrun := ((hst.ready trivial).slice hquantum (hst.arrival ▸ hfresh.arrival)).1
    rw [handBack_currentTime, checkArrivals_currentTime, afterSlice_currentTime] at hi'
    exact h.slice hquantum hf hi hq hrun hi'

end

/-! ## The result -/

/-- Bounded waiting in exact times. The queue never holds a process twice: within a round it is a part of what it is
at the beginning or at the end. -/
theorem boundedWait_exact {sort : List Process → List Process} (hsort : SortsByArrival sort) {procs : List Process}
    (hf : ∀ p ∈ procs, Fresh p ∧ 0 < p.burstTime) {quantum : Int} (hquantum : 1 ≤ quantum) :
    (∀ s, Loop.Reaches (roundRobinBody quantum) (roundRobinInit sort procs) s → s.readyQueue.Nodup) ∧
      ∃ fuel s, roundRobinLoop sort fuel procs quantum = some s ∧ ∀ i p, (sort procs)[i]? = some p →
        (∃ sl ∈ (s.slicesOf i).head?, sl.start - p.arrivalTime ≤ (procs.length - 1) * quantum) ∧
          (s.slicesOf i).IsChain fun a b => b.start - a.stop ≤ (procs.length - 1) * quantum := by
  obtain ⟨hperm, -⟩ := hsort procs
  have hf' : ∀ p ∈ sort procs, Fresh p ∧ 0 < p.burstTime := fun p hp => hf p (hperm.subset hp)
  have hfresh : ∀ p ∈ sort procs, Fresh p := fun p hp => (hf' p hp).1
  constructor
  · intro s hs
    have hi := inv_init hfresh
    rw [← roundRobinInit_currentTime sort procs] at hi
    have hi := (roundRobin_while (sort procs) quantum).reaches (fun s s' hi hr => hi.round hfresh hquantum hr) hs hi
    exact hi.nodup
  · have hzero : ∀ p ∈ sort procs, p.burstTime = 0 → p.arrivalTime = 0 := by
      intro p hp h
      have := (hf' p hp).2
      omega
    obtain ⟨fuel, s, hrun, hi, hfair, hend⟩ := roundRobinLoop_total (P := Fair (sort procs) quantum) hfresh hquantum
      hzero (fair_init hquantum hfresh) fun s s' hi h hr => h.round hquantum hf' hi hr
    refine ⟨fuel, s, hrun, fun i p hp => ?_⟩
    have hturns := hfair.turns i p hp
    rw [hperm.length_eq] at hturns
    refine ⟨?_, hturns.gaps⟩
    obtain ⟨hin, hq⟩ := queued_of_completed hi hend (hi.length ▸ (List.getElem?_eq_some_iff.mp hp).1)
    obtain ⟨sl, turns, hcons⟩ := List.exists_cons_of_ne_nil (hfair.unqueued i hin (by simp [hq]))
    exact ⟨sl, by simp [hcons], hturns.first sl (by simp [hcons])⟩

end Playground.Scheduler
