import Mathlib.Data.Int.Order.Basic
import Mathlib.Order.Bounds.Basic
import Playground.Lib.Transition

/-!
# The lock-free maximum (`update_max` of `concurrency/atomics.cpp`)

The steps are the atomic load and the attempts of `compare_exchange_weak`,
one after another in any order. The test `proposed > current` reads nothing
that is shared, and belongs to the step after it. An attempt may fail although
the value is the expected one; every failed attempt reads the value anew.
-/

namespace Playground.AtomicMax

/-- Where a thread is: between two calls, or in the loop of one. -/
inductive Pc
  | idle
  | loop (proposed current : ℤ)

/-- `pending` are the proposals of the calls that a thread has not begun. -/
structure State (θ : Type) where
  sharedMax : ℤ
  pending : θ → List ℤ
  pc : θ → Pc := fun _ => .idle

inductive Act
  | load
  | compareExchange (spurious : Bool)
  | leave

section
variable {θ : Type} [DecidableEq θ]

def State.goto (s : State θ) (t : θ) (pc : Pc) : State θ := { s with pc := Function.update s.pc t pc }

def step (s : State θ) (t : θ) (act : Act) : Option (State θ) :=
  match act, s.pc t with
  | .load, .idle =>
    match s.pending t with
    | [] => none
    | proposed :: rest =>
      some { s.goto t (.loop proposed s.sharedMax) with pending := Function.update s.pending t rest }
  | .compareExchange spurious, .loop proposed current =>
    if proposed > current then
      if s.sharedMax = current ∧ spurious = false then some { s.goto t .idle with sharedMax := proposed }
      else some (s.goto t (.loop proposed s.sharedMax))
    else none
  | .leave, .loop proposed current => if proposed > current then none else some (s.goto t .idle)
  | _, _ => none

def threads (initial : ℤ) (proposals : θ → List ℤ) : System (State θ) (θ × Act) where
  init := { sharedMax := initial, pending := proposals }
  step s i := step s i.1 i.2

/-- All calls of the thread have returned. -/
def State.Returned (s : State θ) (t : θ) : Prop := s.pending t = [] ∧ s.pc t = .idle

/-! ## One step -/

@[simp] theorem goto_pc (s : State θ) (t : θ) (pc : Pc) : (s.goto t pc).pc = Function.update s.pc t pc := rfl

@[simp] theorem goto_pending (s : State θ) (t : θ) (pc : Pc) : (s.goto t pc).pending = s.pending := rfl

@[simp] theorem goto_sharedMax (s : State θ) (t : θ) (pc : Pc) : (s.goto t pc).sharedMax = s.sharedMax := rfl

/-- What a step of the thread `t` does. -/
inductive Turn (s : State θ) (t : θ) : State θ → Prop
  | load {proposed : ℤ} {rest : List ℤ} (hpc : s.pc t = .idle) (hp : s.pending t = proposed :: rest) :
      Turn s t { s.goto t (.loop proposed s.sharedMax) with pending := Function.update s.pending t rest }
  | store {proposed : ℤ} (hpc : s.pc t = .loop proposed s.sharedMax) (hlt : s.sharedMax < proposed) :
      Turn s t { s.goto t .idle with sharedMax := proposed }
  | retry {proposed current : ℤ} (hpc : s.pc t = .loop proposed current) :
      Turn s t (s.goto t (.loop proposed s.sharedMax))
  | leave {proposed current : ℤ} (hpc : s.pc t = .loop proposed current) (hle : proposed ≤ current) :
      Turn s t (s.goto t .idle)

variable {s s' : State θ} {t : θ}

theorem turn_step {act : Act} (h : step s t act = some s') : Turn s t s' := by
  unfold step at h
  cases hpc : s.pc t with
  | idle =>
    cases act with
    | load =>
      simp only [hpc] at h
      cases hp : s.pending t with
      | nil => simp [hp] at h
      | cons proposed rest =>
        simp only [hp, Option.some.injEq] at h
        subst h
        exact .load hpc hp
    | compareExchange spurious => simp [hpc] at h
    | leave => simp [hpc] at h
  | loop proposed current =>
    cases act with
    | load => simp [hpc] at h
    | compareExchange spurious =>
      simp only [hpc] at h
      obtain ⟨hlt, hs⟩ := Option.ite_none_right_eq_some.mp h
      split at hs
      · rename_i heq
        cases hs
        rw [← heq.1] at hpc hlt
        exact .store hpc hlt
      · cases hs
        exact .retry hpc
    | leave =>
      simp only [hpc] at h
      obtain ⟨hle, hs⟩ := Option.ite_none_left_eq_some.mp h
      cases hs
      exact .leave hpc (not_lt.mp hle)

theorem Turn.le (h : Turn s t s') : s.sharedMax ≤ s'.sharedMax := by
  cases h with
  | load => exact le_refl _
  | store _ hlt => exact le_of_lt hlt
  | retry => exact le_refl _
  | leave => exact le_refl _

theorem Turn.other (h : Turn s t s') {u : θ} (hu : u ≠ t) : s'.pending u = s.pending u ∧ s'.pc u = s.pc u := by
  cases h <;> simp [Function.update_of_ne hu]

/-! ## The views of the threads -/

/-- What a thread knows: the value it has read is not above the maximum, and a proposal that is above it is still
to be made. -/
structure View (proposals : List ℤ) (sharedMax : ℤ) (pending : List ℤ) (pc : Pc) : Prop where
  subset : ∀ v ∈ pending, v ∈ proposals
  proposed : ∀ v current, pc = .loop v current → v ∈ proposals
  current : ∀ v current, pc = .loop v current → current ≤ sharedMax
  settled : ∀ v ∈ proposals, v ≤ sharedMax ∨ v ∈ pending ∨ ∃ current, pc = .loop v current

variable {proposed current sharedMax sharedMax' : ℤ} {proposals pending : List ℤ} {pc : Pc}

theorem View.mono (h : View proposals sharedMax pending pc) (hle : sharedMax ≤ sharedMax') :
    View proposals sharedMax' pending pc where
  subset := h.subset
  proposed := h.proposed
  current v current hpc := le_trans (h.current v current hpc) hle
  settled v hv := (h.settled v hv).imp_left fun hv => le_trans hv hle

theorem View.load {rest : List ℤ} (h : View proposals sharedMax (proposed :: rest) .idle) :
    View proposals sharedMax rest (.loop proposed sharedMax) where
  subset v hv := h.subset v (List.mem_cons_of_mem _ hv)
  proposed := by
    rintro v current ⟨⟩
    exact h.subset proposed (List.mem_cons_self ..)
  current := by
    rintro v current ⟨⟩
    exact le_refl _
  settled := by
    intro v hv
    rcases h.settled v hv with hle | hmem | ⟨current, hpc⟩
    · exact .inl hle
    · rcases List.mem_cons.mp hmem with rfl | hmem
      · exact .inr (.inr ⟨sharedMax, rfl⟩)
      · exact .inr (.inl hmem)
    · cases hpc

theorem View.retry (h : View proposals sharedMax pending (.loop proposed current)) :
    View proposals sharedMax pending (.loop proposed sharedMax) where
  subset := h.subset
  proposed := by
    rintro v current ⟨⟩
    exact h.proposed proposed _ rfl
  current := by
    rintro v current ⟨⟩
    exact le_refl _
  settled := by
    intro v hv
    rcases h.settled v hv with hle | hmem | ⟨current, hpc⟩
    · exact .inl hle
    · exact .inr (.inl hmem)
    · cases hpc
      exact .inr (.inr ⟨sharedMax, rfl⟩)

/-- A call may return when its proposal is not above the maximum. -/
theorem View.finish (h : View proposals sharedMax pending (.loop proposed current)) (hle : proposed ≤ sharedMax) :
    View proposals sharedMax pending .idle where
  subset := h.subset
  proposed := by rintro v current ⟨⟩
  current := by rintro v current ⟨⟩
  settled := by
    intro v hv
    rcases h.settled v hv with hle | hmem | ⟨current, hpc⟩
    · exact .inl hle
    · exact .inr (.inl hmem)
    · cases hpc
      exact .inl hle

/-! ## Every interleaving -/

structure Inv (initial : ℤ) (proposals : θ → List ℤ) (s : State θ) : Prop where
  initial_le : initial ≤ s.sharedMax
  proposed : s.sharedMax = initial ∨ ∃ t, s.sharedMax ∈ proposals t
  view : ∀ t, View (proposals t) s.sharedMax (s.pending t) (s.pc t)

variable {initial : ℤ} {proposals : θ → List ℤ}

theorem Inv.turn (hi : Inv initial proposals s) (h : Turn s t s') : Inv initial proposals s' where
  initial_le := le_trans hi.initial_le h.le
  proposed := by
    cases h with
    | load => exact hi.proposed
    | store hpc => exact .inr ⟨t, (hi.view t).proposed _ _ hpc⟩
    | retry => exact hi.proposed
    | leave => exact hi.proposed
  view := by
    intro u
    by_cases hu : u = t
    · subst hu
      have hv := hi.view u
      cases h with
      | load hpc hp =>
        rw [hpc, hp] at hv
        simpa using hv.load
      | store hpc hlt =>
        rw [hpc] at hv
        simpa using (hv.mono (le_of_lt hlt)).finish (le_refl _)
      | retry hpc =>
        rw [hpc] at hv
        simpa using hv.retry
      | leave hpc hle =>
        rw [hpc] at hv
        simpa using hv.finish (le_trans hle (hv.current _ _ rfl))
    · rw [(h.other hu).1, (h.other hu).2]
      exact (hi.view u).mono h.le

theorem inv_init (initial : ℤ) (proposals : θ → List ℤ) :
    Inv initial proposals (threads initial proposals).init where
  initial_le := le_refl _
  proposed := .inl rfl
  view _ := ⟨fun _ hv => hv, nofun, nofun, fun _ hv => .inr (.inl hv)⟩

/-- The maximum never decreases, it is the initial value or a proposal, and when all calls have returned it is the
greatest of these. -/
theorem updateMax_reachable (initial : ℤ) (proposals : θ → List ℤ) (s : State θ)
    (h : (threads initial proposals).Reachable s) :
    (∀ acts s', (threads initial proposals).run s acts = some s' → s.sharedMax ≤ s'.sharedMax) ∧
      (s.sharedMax = initial ∨ ∃ t, s.sharedMax ∈ proposals t) ∧
      ((∀ t, s.Returned t) → IsGreatest {v | v = initial ∨ ∃ t, v ∈ proposals t} s.sharedMax) := by
  have hi : Inv initial proposals s :=
    h.inv (inv_init initial proposals) fun s i s' hi hs => hi.turn (turn_step hs)
  refine ⟨fun acts s' hs => ?_, hi.proposed, fun hret => ⟨hi.proposed, ?_⟩⟩
  · exact h.run_le (fun s i s' _ hs => (turn_step hs).le) acts hs
  · rintro v (rfl | ⟨t, hv⟩)
    · exact hi.initial_le
    · obtain ⟨hp, hpc⟩ := hret t
      rcases (hi.view t).settled v hv with hle | hmem | ⟨current, hloop⟩
      · exact hle
      · rw [hp] at hmem
        cases hmem
      · rw [hpc] at hloop
        cases hloop

def twoCalls : System (State Bool) (Bool × Act) := threads 0 fun t => if t then [10] else [20]

def twoCallsOrder : List (Bool × Act) :=
  [(false, .load), (true, .load), (true, .compareExchange false), (false, .compareExchange false),
    (false, .compareExchange true), (false, .compareExchange false)]

/-- The first attempt of the greater proposal fails, and so does the second one. -/
theorem updateMax_reachable_two : ∃ s, twoCalls.run twoCalls.init twoCallsOrder = some s ∧
    IsGreatest {v | v = 0 ∨ ∃ t : Bool, v ∈ if t then [10] else [20]} s.sharedMax := by
  obtain ⟨s, hs⟩ : ∃ s, twoCalls.run twoCalls.init twoCallsOrder = some s := ⟨_, rfl⟩
  refine ⟨s, hs, ?_⟩
  apply (updateMax_reachable 0 (fun t : Bool => if t then [10] else [20]) s ?_).2.2
  · obtain rfl := Option.some.inj hs
    intro t
    cases t <;> exact ⟨rfl, rfl⟩
  · exact System.reachable_of_run twoCallsOrder .init hs

end

end Playground.AtomicMax
