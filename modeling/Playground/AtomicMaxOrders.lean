import Playground.AtomicMax
import Playground.Lib.WeakMemory

/-!
# The lock-free maximum under its memory orders (`update_max` of `concurrency/atomics.cpp`)

The first load and the failed attempts are relaxed and may read an old value;
an attempt that succeeds replaces the last value, with `release`.
-/

namespace Playground.AtomicMaxOrders

open WeakMemory AtomicMax

structure State (θ : Type) where
  memory : Memory θ Unit fun _ => ℤ
  pending : θ → List ℤ
  pc : θ → Pc := fun _ => .idle

/-- The timestamp is that of the message read. -/
inductive Act
  | load (k : Nat)
  | exchange (k : Nat)
  | fail (k : Nat) (spurious : Bool)
  | leave

section
variable {θ : Type} [DecidableEq θ]

def State.goto (s : State θ) (t : θ) (pc : Pc) (memory : Memory θ Unit fun _ => ℤ) : State θ :=
  { s with memory, pc := Function.update s.pc t pc }

/-- `compare_exchange_weak` succeeds (`exchange`) or fails; it may fail on the expected value. -/
def step (s : State θ) (t : θ) (act : Act) : Option (State θ) :=
  match act, s.pc t with
  | .load k, .idle =>
    match s.pending t with
    | [] => none
    | proposed :: rest => (s.memory.load t () .relaxed k).map fun p =>
      { s.goto t (.loop proposed p.1) p.2 with pending := Function.update s.pending t rest }
  | .exchange k, .loop proposed current =>
    if proposed > current then
      match s.memory.update t () .release k fun _ => proposed with
      | some (value, memory) => if value = current then some (s.goto t .idle memory) else none
      | none => none
    else none
  | .fail k spurious, .loop proposed current =>
    if proposed > current then
      match s.memory.load t () .relaxed k with
      | some (value, memory) =>
        if value ≠ current ∨ spurious = true then some (s.goto t (.loop proposed value) memory) else none
      | none => none
    else none
  | .leave, .loop proposed current => if proposed > current then none else some (s.goto t .idle s.memory)
  | _, _ => none

def threads (initial : ℤ) (proposals : θ → List ℤ) : System (State θ) (θ × Act) where
  init := { memory := .start fun _ => initial, pending := proposals }
  step s i := step s i.1 i.2

def State.Returned (s : State θ) (t : θ) : Prop := s.pending t = [] ∧ s.pc t = .idle

/-! ## One step -/

inductive Turn (s : State θ) (t : θ) : State θ → Prop
  | load {k proposed rest value memory} (hpc : s.pc t = .idle) (hp : s.pending t = proposed :: rest)
      (hm : s.memory.load t () .relaxed k = some (value, memory)) :
      Turn s t { s.goto t (.loop proposed value) memory with pending := Function.update s.pending t rest }
  | exchange {k proposed current memory} (hpc : s.pc t = .loop proposed current) (hlt : current < proposed)
      (hm : s.memory.update t () .release k (fun _ => proposed) = some (current, memory)) :
      Turn s t (s.goto t .idle memory)
  | fail {k proposed current value memory} (hpc : s.pc t = .loop proposed current)
      (hm : s.memory.load t () .relaxed k = some (value, memory)) :
        Turn s t (s.goto t (.loop proposed value) memory)
  | leave {proposed current} (hpc : s.pc t = .loop proposed current) (hle : proposed ≤ current) :
      Turn s t (s.goto t .idle s.memory)

variable {s s' : State θ} {t : θ}

theorem turn_step {act : Act} (h : step s t act = some s') : Turn s t s' := by
  unfold step at h
  split at h
  · rename_i k _ hpc
    split at h
    · cases h
    · rename_i proposed rest hp
      obtain ⟨⟨value, memory⟩, hm, rfl⟩ := Option.map_eq_some_iff.mp h
      exact .load hpc hp hm
  · rename_i k proposed current _ hpc
    obtain ⟨hlt, h⟩ := Option.ite_none_right_eq_some.mp h
    split at h
    · rename_i value memory hm
      obtain ⟨hv, hs⟩ := Option.ite_none_right_eq_some.mp h
      subst hv
      cases hs
      exact .exchange hpc hlt hm
    · cases h
  · rename_i k spurious proposed current _ hpc
    obtain ⟨_, h⟩ := Option.ite_none_right_eq_some.mp h
    split at h
    · rename_i value memory hm
      obtain ⟨_, h⟩ := Option.ite_none_right_eq_some.mp h
      cases h
      exact .fail hpc hm
    · cases h
  · rename_i proposed current _ hpc
    obtain ⟨hle, h⟩ := Option.ite_none_left_eq_some.mp h
    cases h
    exact .leave hpc (not_lt.mp hle)
  · cases h

/-! ## Old values -/

variable {initial top proposed current value : ℤ} {pending mine vs : List ℤ} {k : Nat}
    {memory : Memory θ Unit fun _ => ℤ}

/-- A thread may have read any value that is not above the maximum. -/
theorem view_read (h : View mine top pending (.loop proposed current)) (hle : value ≤ top) :
    View mine top pending (.loop proposed value) where
  subset := h.subset
  proposed := by
    rintro v current' ⟨⟩
    exact h.proposed _ _ rfl
  current := by
    rintro v current' ⟨⟩
    exact hle
  settled := by
    intro v hv
    rcases h.settled v hv with hle | hmem | ⟨current', hpc⟩
    · exact .inl hle
    · exact .inr (.inl hmem)
    · cases hpc
      exact .inr (.inr ⟨value, rfl⟩)

/-- The values stored so far are `vs`, and then `top`. -/
structure Inv (initial : ℤ) (proposals : θ → List ℤ) (s : State θ) (vs : List ℤ) (top : ℤ) : Prop where
  chain : s.memory.Chain () (vs ++ [top])
  lt : (vs ++ [top]).Pairwise (· < ·)
  initial_le : initial ≤ top
  proposed : ∀ v ∈ vs ++ [top], v = initial ∨ ∃ t, v ∈ proposals t
  view : ∀ t, View (proposals t) top (s.pending t) (s.pc t)

variable {proposals : θ → List ℤ}

omit [DecidableEq θ] in
theorem Inv.le_top (h : Inv initial proposals s vs top) {v : ℤ} (hv : v ∈ vs ++ [top]) : v ≤ top := by
  rcases List.mem_append.mp hv with hv | hv
  · exact le_of_lt ((List.pairwise_append.mp h.lt).2.2 v hv top (List.mem_singleton_self top))
  · exact le_of_eq (List.mem_singleton.mp hv)

theorem Inv.value_le (h : Inv initial proposals s vs top)
    (hm : s.memory.load t () .relaxed k = some (value, memory)) :
    value ≤ top := h.le_top (List.mem_of_getElem? (h.chain.load hm).1)

/-- What is kept by a step that stores nothing. -/
theorem Inv.keep (h : Inv initial proposals s vs top) (hc : s'.memory.Chain () (vs ++ [top]))
    (hother : ∀ u, u ≠ t → s'.pending u = s.pending u ∧ s'.pc u = s.pc u)
    (hv : View (proposals t) top (s'.pending t) (s'.pc t)) : Inv initial proposals s' vs top where
  chain := hc
  lt := h.lt
  initial_le := h.initial_le
  proposed := h.proposed
  view := by
    intro u
    by_cases hu : u = t
    · subst hu
      exact hv
    · rw [(hother u hu).1, (hother u hu).2]
      exact h.view u

theorem Inv.turn (h : Inv initial proposals s vs top) (ht : Turn s t s') :
    ∃ vs top, Inv initial proposals s' vs top := by
  cases ht with
  | @load k proposed rest value memory hpc hp hm =>
    have hv := h.view t
    rw [hpc, hp] at hv
    refine ⟨vs, top, h.keep (t := t) (h.chain.load hm).2 (fun u hu => ?_) ?_⟩
    · simp [State.goto, Function.update_of_ne hu]
    · simpa [State.goto] using view_read hv.load (h.value_le hm)
  | @exchange k proposed current memory hpc hlt hm =>
    obtain ⟨hk, hcur, hc⟩ := h.chain.update hm
    have hktop : k = vs.length := by simpa using hk
    have htop : current = top := by
      rw [hktop, List.getElem?_concat_length] at hcur
      exact (Option.some.inj hcur).symm
    subst htop
    have hv := h.view t
    rw [hpc] at hv
    refine ⟨vs ++ [current], proposed, hc, ?_, le_trans h.initial_le (le_of_lt hlt), fun v hmem => ?_, fun u => ?_⟩
    · rw [List.pairwise_append]
      refine ⟨h.lt, List.pairwise_singleton .., fun v hv w hw => ?_⟩
      rw [List.mem_singleton.mp hw]
      exact lt_of_le_of_lt (h.le_top hv) hlt
    · rcases List.mem_append.mp hmem with hmem | hmem
      · exact h.proposed v hmem
      · rw [List.mem_singleton.mp hmem]
        exact .inr ⟨t, hv.proposed _ _ rfl⟩
    · by_cases hu : u = t
      · subst hu
        simpa [State.goto] using (hv.mono (le_of_lt hlt)).finish (le_refl _)
      · simpa [State.goto, Function.update_of_ne hu] using (h.view u).mono (le_of_lt hlt)
  | @fail k proposed current value memory hpc hm =>
    have hv := h.view t
    rw [hpc] at hv
    refine ⟨vs, top, h.keep (t := t) (h.chain.load hm).2 (fun u hu => ?_) ?_⟩
    · simp [State.goto, Function.update_of_ne hu]
    · simpa [State.goto] using view_read hv (h.value_le hm)
  | @leave proposed current hpc hle =>
    have hv := h.view t
    rw [hpc] at hv
    refine ⟨vs, top, h.keep (t := t) h.chain (fun u hu => ?_) ?_⟩
    · simp [State.goto, Function.update_of_ne hu]
    · simpa [State.goto] using hv.finish (le_trans hle (hv.current _ _ rfl))

theorem inv_init (initial : ℤ) (proposals : θ → List ℤ) :
    Inv initial proposals (threads initial proposals).init [] initial where
  chain := Memory.Chain.start _
  lt := List.pairwise_singleton ..
  initial_le := le_refl _
  proposed := by simp
  view _ := ⟨fun _ hv => hv, by rintro _ _ ⟨⟩, by rintro _ _ ⟨⟩, fun _ hv => .inr (.inl hv)⟩

/-- The values stored are increasing proposals, and when all calls have returned the last of them is
the greatest. -/
theorem updateMaxOrders_reachable (initial : ℤ) (proposals : θ → List ℤ) (s : State θ)
    (h : (threads initial proposals).Reachable s) :
    ∃ vs top, (∀ k, (s.memory.msgs () k).map Message.value = (vs ++ [top])[k]?) ∧ (vs ++ [top]).Pairwise (· < ·) ∧
      (∀ v ∈ vs ++ [top], v = initial ∨ ∃ t, v ∈ proposals t) ∧
      ((∀ t, s.Returned t) → IsGreatest {v | v = initial ∨ ∃ t, v ∈ proposals t} top) := by
  obtain ⟨vs, top, hi⟩ : ∃ vs top, Inv initial proposals s vs top :=
    h.inv (P := fun s => ∃ vs top, Inv initial proposals s vs top) ⟨[], initial, inv_init initial proposals⟩
      fun s i s' ⟨vs, top, hi⟩ hs => hi.turn (turn_step hs)
  refine ⟨vs, top, hi.chain.values, hi.lt, hi.proposed, fun hret => ⟨hi.proposed top (by simp), ?_⟩⟩
  rintro v (rfl | ⟨t, hv⟩)
  · exact hi.initial_le
  · obtain ⟨hp, hpc⟩ := hret t
    rcases (hi.view t).settled v hv with hle | hmem | ⟨current, hloop⟩
    · exact hle
    · rw [hp] at hmem
      cases hmem
    · rw [hpc] at hloop
      cases hloop

end

def twoCalls : System (State Bool) (Bool × Act) := threads 0 fun t => if t then [10] else [20]

def twoCallsOrder : List (Bool × Act) :=
  [(false, .load 0), (true, .load 0), (true, .exchange 0), (false, .fail 0 true), (false, .fail 1 false),
    (false, .exchange 1)]

/-- The first attempt of the greater proposal fails on an old value, which is the expected one. -/
theorem updateMaxOrders_reachable_two : ∃ s, twoCalls.run twoCalls.init twoCallsOrder = some s ∧
    ∃ vs top, (∀ k, (s.memory.msgs () k).map Message.value = (vs ++ [top])[k]?) ∧
      IsGreatest {v | v = 0 ∨ ∃ t : Bool, v ∈ if t then [10] else [20]} top := by
  obtain ⟨s, hs⟩ : ∃ s, twoCalls.run twoCalls.init twoCallsOrder = some s := ⟨_, rfl⟩
  obtain ⟨vs, top, hvs, _, _, htop⟩ := updateMaxOrders_reachable 0 (fun t : Bool => if t then [10] else [20]) s
    (System.reachable_of_run twoCallsOrder .init hs)
  refine ⟨s, hs, vs, top, hvs, htop ?_⟩
  obtain rfl := Option.some.inj hs
  intro t
  cases t <;> exact ⟨rfl, rfl⟩

end Playground.AtomicMaxOrders
