import Mathlib.Algebra.Order.Group.Int
import Mathlib.Data.List.Perm.Basic
import Mathlib.Order.Lattice

/-!
# Work-conserving processing of jobs

A job is given by its arrival and the work left in it. A processor that goes
through the jobs in the order of their arrivals, waiting where it must, is
done with them at `finish`. Any other order of work gives the same time, as
long as the processor is idle only when no arrived job has work left: `Due`
is kept by a stretch of work on an arrived job and by a tick without one.
-/

namespace Workload

/-- Arrival and work left. -/
abbrev Job := ℤ × ℤ

/-- When all is done that is to be done from `now` on, in the order listed. -/
def finish (now : ℤ) (jobs : List Job) : ℤ := jobs.foldl (fun t j => max t j.1 + j.2) now

@[simp] theorem finish_cons (now : ℤ) (j : Job) (jobs : List Job) :
    finish now (j :: jobs) = finish (max now j.1 + j.2) jobs := rfl

/-- Taken in the order of arrival, the jobs are done at `t`. -/
def Due (now t : ℤ) (jobs : List Job) : Prop :=
  ∃ l, l.Perm jobs ∧ (l.map Prod.fst).Pairwise (· ≤ ·) ∧ finish now l = t

theorem due_of_sorted {jobs l : List Job} (hp : l.Perm jobs) (hs : (l.map Prod.fst).Pairwise (· ≤ ·)) (now : ℤ) :
    Due now (finish now l) jobs := ⟨l, hp, hs, rfl⟩

theorem finish_run {l₁ l₂ : List Job} {now a r d : ℤ} (h₁ : ∀ j ∈ l₁, j.1 ≤ now ∧ 0 ≤ j.2) (ha : a ≤ now)
    (hd : 0 ≤ d) :
    finish (now + d) (l₁ ++ (a, r - d) :: l₂) = finish now (l₁ ++ (a, r) :: l₂) := by
  induction l₁ generalizing now with
  | nil =>
    have h : max (now + d) a + (r - d) = max now a + r := by omega
    simp [h]
  | cons j l₁ ih =>
    obtain ⟨hj, hj'⟩ := h₁ j (by simp)
    have hmax : max now j.1 + j.2 = now + j.2 := by omega
    have hmax' : max (now + d) j.1 + j.2 = now + j.2 + d := by omega
    simp only [List.cons_append, finish_cons, hmax, hmax']
    apply ih
    · intro i hi
      have h := h₁ i (by simp [hi])
      omega
    · omega

theorem finish_idle {l : List Job} {now : ℤ} (hwork : ∀ j ∈ l, j.2 ≠ 0 → now < j.1)
    (hdone : ∀ j ∈ l, j.2 = 0 → j.1 ≤ now) (hex : ∃ j ∈ l, j.2 ≠ 0) : finish (now + 1) l = finish now l := by
  induction l with
  | nil => simp at hex
  | cons j l ih =>
    by_cases hj : j.2 = 0
    · have harr := hdone j (by simp) hj
      have hmax : max now j.1 + j.2 = now := by omega
      have hmax' : max (now + 1) j.1 + j.2 = now + 1 := by omega
      simp only [finish_cons, hmax, hmax']
      apply ih
      · exact fun i hi => hwork i (by simp [hi])
      · exact fun i hi => hdone i (by simp [hi])
      · obtain ⟨i, hi, hi'⟩ := hex
        rcases List.mem_cons.mp hi with rfl | hi
        · exact absurd hj hi'
        · exact ⟨i, hi, hi'⟩
    · have harr := hwork j (by simp) hj
      have hmax : max (now + 1) j.1 = max now j.1 := by omega
      simp only [finish_cons, hmax]

theorem finish_done {l : List Job} {now : ℤ} (h : ∀ j ∈ l, j.2 = 0 ∧ j.1 ≤ now) : finish now l = now := by
  induction l with
  | nil => rfl
  | cons j l ih =>
    obtain ⟨hj, hj'⟩ := h j (by simp)
    have hmax : max now j.1 + j.2 = now := by omega
    simp only [finish_cons, hmax]
    exact ih fun i hi => h i (by simp [hi])

theorem le_finish {l : List Job} (h : ∀ j ∈ l, 0 ≤ j.2) (now : ℤ) : now ≤ finish now l := by
  induction l generalizing now with
  | nil => exact le_rfl
  | cons j l ih =>
    have hj := h j (by simp)
    have hrest := ih (fun i hi => h i (by simp [hi])) (max now j.1 + j.2)
    rw [finish_cons]
    omega

theorem add_le_finish {l : List Job} (h : ∀ j ∈ l, 0 ≤ j.2) {j : Job} (hj : j ∈ l) (now : ℤ) :
    max now j.1 + j.2 ≤ finish now l := by
  induction l generalizing now with
  | nil => cases hj
  | cons i l ih =>
    have hrest : ∀ j ∈ l, 0 ≤ j.2 := fun j hj => h j (by simp [hj])
    rw [finish_cons]
    rcases List.mem_cons.mp hj with rfl | hj
    · exact le_finish hrest _
    · have hi := h i (by simp)
      have hle := ih hrest hj (max now i.1 + i.2)
      omega

theorem length_le_finish {l : List Job} (h : ∀ j ∈ l, 1 ≤ j.2) (now : ℤ) : now + l.length ≤ finish now l := by
  induction l generalizing now with
  | nil => simp [finish]
  | cons j l ih =>
    have hj := h j (by simp)
    have hrest := ih (fun i hi => h i (by simp [hi])) (max now j.1 + j.2)
    rw [finish_cons, List.length_cons]
    omega

namespace Due

variable {now t : ℤ} {jobs : List Job}

theorem run (h : Due now t jobs) {i : Nat} {a r d : ℤ} (hi : jobs[i]? = some (a, r)) (ha : a ≤ now) (hd : 0 ≤ d)
    (hjobs : ∀ j ∈ jobs, 0 ≤ j.2) : Due (now + d) t (jobs.set i (a, r - d)) := by
  obtain ⟨l, hp, hs, rfl⟩ := h
  obtain ⟨hlt, hget⟩ := List.getElem?_eq_some_iff.mp hi
  have hmem : (a, r) ∈ l := hp.symm.subset (List.mem_of_getElem? hi)
  obtain ⟨l₁, l₂, rfl⟩ := List.append_of_mem hmem
  refine ⟨l₁ ++ (a, r - d) :: l₂, ?_, ?_, ?_⟩
  · have hrest : (l₁ ++ l₂).Perm (jobs.eraseIdx i) := by
      have hjobs : ((a, r) :: jobs.eraseIdx i).Perm jobs := hget ▸ List.getElem_cons_eraseIdx_perm hlt
      exact ((List.perm_middle.symm.trans hp).trans hjobs.symm).cons_inv
    exact (List.perm_middle.trans (hrest.cons _)).trans (List.set_perm_cons_eraseIdx hlt _).symm
  · simpa using hs
  · apply finish_run _ ha hd
    intro j hj
    rw [List.map_append, List.pairwise_append] at hs
    have hle : j.1 ≤ a := hs.2.2 j.1 (List.mem_map_of_mem hj) a (by simp)
    exact ⟨hle.trans ha, hjobs j (hp.subset (by simp [hj]))⟩

/-- A tick in which no job that has arrived has work left. -/
theorem idle (h : Due now t jobs) (hwork : ∀ j ∈ jobs, j.2 ≠ 0 → now < j.1)
    (hdone : ∀ j ∈ jobs, j.2 = 0 → j.1 ≤ now) (hex : ∃ j ∈ jobs, j.2 ≠ 0) : Due (now + 1) t jobs := by
  obtain ⟨l, hp, hs, rfl⟩ := h
  refine ⟨l, hp, hs, finish_idle (fun j hj => hwork j (hp.subset hj)) (fun j hj => hdone j (hp.subset hj)) ?_⟩
  obtain ⟨j, hj, hj'⟩ := hex
  exact ⟨j, hp.symm.subset hj, hj'⟩

theorem le (h : Due now t jobs) (hjobs : ∀ j ∈ jobs, 0 ≤ j.2) : now ≤ t := by
  obtain ⟨l, hp, -, rfl⟩ := h
  exact le_finish (fun j hj => hjobs j (hp.subset hj)) now

theorem add_le (h : Due now t jobs) (hjobs : ∀ j ∈ jobs, 0 ≤ j.2) {j : Job} (hj : j ∈ jobs) :
    max now j.1 + j.2 ≤ t := by
  obtain ⟨l, hp, -, rfl⟩ := h
  exact add_le_finish (fun j hj => hjobs j (hp.subset hj)) (hp.symm.subset hj) now

theorem done (h : Due now t jobs) (hjobs : ∀ j ∈ jobs, j.2 = 0 ∧ j.1 ≤ now) : t = now := by
  obtain ⟨l, hp, -, rfl⟩ := h
  exact finish_done fun j hj => hjobs j (hp.subset hj)

end Due

end Workload
