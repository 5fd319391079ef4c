import Mathlib.Data.List.Induction
import Mathlib.Logic.Basic

/-!
# Deterministic machines that may fault

A machine reads one input after another. A step may fault (`none`): undefined
behaviour of the modelled program, or an input it must not be given. An
abstract machine never faults. `Simulates` is forward simulation between the
two, and `Guarded` restricts a run by a condition on its steps.
-/

/-- A deterministic machine with outputs; `none` is a fault. -/
structure Machine (σ ι ο : Type*) where
  init : σ
  step : σ → ι → Option (σ × ο)

/-- A machine that never faults: the abstract side of a refinement. -/
structure Spec (α ι ο : Type*) where
  init : α
  step : α → ι → α × ο

namespace Spec

variable {α ι ο : Type*} (S : Spec α ι ο)

def exec (is : List ι) : α := is.foldl (fun a i => (S.step a i).1) S.init

@[simp] theorem exec_nil : S.exec [] = S.init := rfl

@[simp] theorem exec_snoc (is : List ι) (i : ι) : S.exec (is ++ [i]) = (S.step (S.exec is) i).1 := by
  simp [exec]

end Spec

namespace Machine

variable {σ ι ο : Type*} (M : Machine σ ι ο)

def execFrom : σ → List ι → Option σ
  | s, [] => some s
  | s, i :: is => (M.step s i).bind fun p => execFrom p.1 is

def exec (is : List ι) : Option σ := M.execFrom M.init is

@[simp] theorem execFrom_nil (s : σ) : M.execFrom s [] = some s := rfl

@[simp] theorem execFrom_cons (s : σ) (i : ι) (is : List ι) :
    M.execFrom s (i :: is) = (M.step s i).bind fun p => M.execFrom p.1 is := rfl

@[simp] theorem exec_nil : M.exec [] = some M.init := rfl

theorem execFrom_append (is js : List ι) (s : σ) :
    M.execFrom s (is ++ js) = (M.execFrom s is).bind fun s' => M.execFrom s' js := by
  induction is generalizing s with
  | nil => rfl
  | cons i is ih =>
    simp only [List.cons_append, execFrom_cons]
    cases h : M.step s i with
    | none => rfl
    | some p => exact ih p.1

theorem exec_append (is js : List ι) :
    M.exec (is ++ js) = (M.exec is).bind fun s => M.execFrom s js :=
  M.execFrom_append is js M.init

theorem exec_snoc (is : List ι) (i : ι) :
    M.exec (is ++ [i]) = (M.exec is).bind fun s => (M.step s i).map Prod.fst := by
  rw [exec_append]
  congr 1; funext s
  cases h : M.step s i <;> simp [h]

theorem exec_snoc_of {is : List ι} {i : ι} {s s' : σ} {o : ο} (h : M.exec is = some s)
    (hs : M.step s i = some (s', o)) : M.exec (is ++ [i]) = some s' := by
  simp [exec_snoc, h, hs]

theorem exec_snoc_some {is : List ι} {i : ι} {s' : σ} (h : M.exec (is ++ [i]) = some s') :
    ∃ s o, M.exec is = some s ∧ M.step s i = some (s', o) := by
  rw [exec_snoc] at h
  obtain ⟨s, hs, h⟩ := Option.bind_eq_some_iff.mp h
  obtain ⟨⟨s₁, o⟩, hp, rfl⟩ := Option.map_eq_some_iff.mp h
  exact ⟨s, o, hs, hp⟩

/-- **Run induction.** What holds initially and is kept by every step of a
run holds after it, and the run does not fault. -/
theorem exec_inv {P : List ι → σ → Prop} (h0 : P [] M.init)
    (hs : ∀ is s i, M.exec is = some s → P is s → ∃ s' o, M.step s i = some (s', o) ∧ P (is ++ [i]) s')
    (is : List ι) : ∃ s, M.exec is = some s ∧ P is s := by
  induction is using List.reverseRecOn with
  | nil => exact ⟨M.init, rfl, h0⟩
  | append_singleton is i ih =>
    obtain ⟨s, he, hp⟩ := ih
    obtain ⟨s', o, hst, hp'⟩ := hs is s i he hp
    exact ⟨s', M.exec_snoc_of he hst, hp'⟩

theorem execFrom_snoc_some {s s'' : σ} {is : List ι} {i : ι} (h : M.execFrom s (is ++ [i]) = some s'') :
    ∃ s' o, M.execFrom s is = some s' ∧ M.step s' i = some (s'', o) := by
  rw [execFrom_append] at h
  obtain ⟨s', hs, h⟩ := Option.bind_eq_some_iff.mp h
  obtain ⟨⟨t, o⟩, hp, ht⟩ := Option.bind_eq_some_iff.mp h
  obtain rfl := Option.some.inj ht
  exact ⟨s', o, hs, hp⟩

/-- The inputs read and the outputs given, up to the fault if there is one. -/
def traceFrom : σ → List ι → List (ι × ο)
  | _, [] => []
  | s, i :: is =>
    match M.step s i with
    | some (s', o) => (i, o) :: traceFrom s' is
    | none => []

@[simp] theorem traceFrom_nil (s : σ) : M.traceFrom s [] = [] := rfl

theorem traceFrom_snoc {s s' s'' : σ} {is : List ι} {i : ι} {o : ο} (h : M.execFrom s is = some s')
    (hs : M.step s' i = some (s'', o)) : M.traceFrom s (is ++ [i]) = M.traceFrom s is ++ [(i, o)] := by
  induction is generalizing s with
  | nil =>
    obtain rfl := Option.some.inj h
    simp [traceFrom, hs]
  | cons j is ih =>
    obtain ⟨⟨t, o'⟩, hp, ht⟩ := Option.bind_eq_some_iff.mp h
    simp [traceFrom, hp, ih ht]

/-- A run from `s` in which every step is taken in a state that allows it. -/
def GuardedFrom (ok : σ → ι → Prop) : σ → List ι → Prop
  | _, [] => True
  | s, i :: is => ok s i ∧ ∀ p, M.step s i = some p → GuardedFrom ok p.1 is

def Guarded (ok : σ → ι → Prop) (is : List ι) : Prop := M.GuardedFrom ok M.init is

@[simp] theorem guarded_nil (ok : σ → ι → Prop) : M.Guarded ok [] := trivial

theorem guardedFrom_snoc (ok : σ → ι → Prop) (i : ι) (is : List ι) (s : σ) :
    M.GuardedFrom ok s (is ++ [i]) ↔
      M.GuardedFrom ok s is ∧ ∀ s', M.execFrom s is = some s' → ok s' i := by
  induction is generalizing s with
  | nil => simp [GuardedFrom]
  | cons j is ih =>
    simp only [List.cons_append, GuardedFrom, ih, execFrom_cons,
      Option.bind_eq_some_iff]
    constructor
    · intro ⟨h, hn⟩
      exact ⟨⟨h, fun p hp => (hn p hp).1⟩, fun s' ⟨p, hp, he⟩ => (hn p hp).2 s' he⟩
    · intro ⟨⟨h, hn⟩, hl⟩
      exact ⟨h, fun p hp => ⟨hn p hp, fun s' he => hl s' ⟨p, hp, he⟩⟩⟩

theorem guarded_snoc (ok : σ → ι → Prop) (is : List ι) (i : ι) :
    M.Guarded ok (is ++ [i]) ↔ M.Guarded ok is ∧ ∀ s, M.exec is = some s → ok s i :=
  M.guardedFrom_snoc ok i is M.init

theorem guarded_of_append {ok : σ → ι → Prop} {is js : List ι} (h : M.Guarded ok (is ++ js)) : M.Guarded ok is := by
  induction js using List.reverseRecOn with
  | nil => simpa using h
  | append_singleton js j ih =>
    rw [← List.append_assoc, guarded_snoc] at h
    exact ih h.1

/-- **Guarded run induction.** What holds initially and is kept by every
allowed step holds after a run of allowed steps, and the run does not fault. -/
theorem guarded_inv {ok : σ → ι → Prop} {P : σ → Prop} (h0 : P M.init)
    (hs : ∀ s i, P s → ok s i → ∃ s' o, M.step s i = some (s', o) ∧ P s') (is : List ι) (hg : M.Guarded ok is) :
    ∃ s, M.exec is = some s ∧ P s := by
  induction is using List.reverseRecOn with
  | nil => exact ⟨M.init, rfl, h0⟩
  | append_singleton is i ih =>
    obtain ⟨hg, hok⟩ := (M.guarded_snoc ok is i).mp hg
    obtain ⟨s, he, hp⟩ := ih hg
    obtain ⟨s', o, hst, hp'⟩ := hs s i hp (hok s he)
    exact ⟨s', M.exec_snoc_of he hst, hp'⟩

/-- **Exact guard.** `I` holds of every run, which never faults. When a step
keeps `P` if and only if it meets `ok`, then `P` holds all along a run if and
only if its steps all meet `ok`. -/
theorem guarded_iff {ok : σ → ι → Prop} {I P : σ → Prop} (hI0 : I M.init) (h0 : P M.init)
    (hI : ∀ s i, I s → ∃ s' o, M.step s i = some (s', o) ∧ I s')
    (hP : ∀ s i s' o, I s → I s' → P s → M.step s i = some (s', o) → (P s' ↔ ok s i)) (is : List ι) :
    (∀ js, js <+: is → ∃ s, M.exec js = some s ∧ P s) ↔ M.Guarded ok is := by
  have hrun : ∀ is, ∃ s, M.exec is = some s ∧ I s := fun is =>
    M.exec_inv (P := fun _ s => I s) hI0 (fun _ s i _ hs => hI s i hs) is
  induction is using List.reverseRecOn with
  | nil =>
    simp only [guarded_nil, iff_true]
    intro js hj
    obtain rfl := List.prefix_nil.mp hj
    exact ⟨M.init, rfl, h0⟩
  | append_singleton is i ih =>
    obtain ⟨s, he, hs⟩ := hrun is
    obtain ⟨s', o, hst, hs'⟩ := hI s i hs
    rw [guarded_snoc]
    constructor
    · intro h
      refine ⟨ih.mp fun js hj => h js (hj.trans (List.prefix_append is [i])), fun t het => ?_⟩
      obtain rfl := Option.some.inj (he.symm.trans het)
      obtain ⟨t, het, hpt⟩ := h is (List.prefix_append is [i])
      obtain rfl := Option.some.inj (he.symm.trans het)
      obtain ⟨t', het', hpt'⟩ := h _ (List.prefix_refl _)
      obtain rfl := Option.some.inj ((M.exec_snoc_of he hst).symm.trans het')
      exact (hP s i s' o hs hs' hpt hst).mp hpt'
    · intro ⟨hg, hok⟩ js hj
      have hp := ih.mpr hg
      rcases List.prefix_concat_iff.mp hj with rfl | hj
      · obtain ⟨t, het, hpt⟩ := hp is (List.prefix_refl is)
        obtain rfl := Option.some.inj (he.symm.trans het)
        exact ⟨s', M.exec_snoc_of he hst, (hP s i s' o hs hs' hpt hst).mpr (hok s he)⟩
      · exact hp js hj

/-- Forward simulation of an abstract machine: the concrete one does not
fault on related states, gives the same output and stays related. -/
structure Simulates {α : Type*} (S : Spec α ι ο) (R : σ → α → Prop) : Prop where
  init : R M.init S.init
  step : ∀ s a i, R s a → ∃ s', M.step s i = some (s', (S.step a i).2) ∧ R s' (S.step a i).1

theorem Simulates.exec {M : Machine σ ι ο} {α : Type*} {S : Spec α ι ο} {R : σ → α → Prop}
    (h : M.Simulates S R) (is : List ι) : ∃ s, M.exec is = some s ∧ R s (S.exec is) :=
  M.exec_inv (P := fun is s => R s (S.exec is)) h.init
    (fun is s i _ hr => by
      obtain ⟨s', hst, hr'⟩ := h.step s _ i hr
      exact ⟨s', _, hst, by simpa using hr'⟩) is

/-- Forward simulation of a machine that may fault itself: where the abstract
step is defined, so is the concrete one. -/
structure Refines {α : Type*} (A : Machine α ι ο) (R : σ → α → Prop) : Prop where
  init : R M.init A.init
  step : ∀ s a i a' o, R s a → A.step a i = some (a', o) → ∃ s', M.step s i = some (s', o) ∧ R s' a'

theorem Refines.exec {M : Machine σ ι ο} {α : Type*} {A : Machine α ι ο} {R : σ → α → Prop} (h : M.Refines A R)
    {is : List ι} {a : α} (ha : A.exec is = some a) : ∃ s, M.exec is = some s ∧ R s a := by
  induction is using List.reverseRecOn generalizing a with
  | nil =>
    obtain rfl := Option.some.inj ha
    exact ⟨M.init, rfl, h.init⟩
  | append_singleton is i ih =>
    obtain ⟨a', o, ha', hst⟩ := A.exec_snoc_some ha
    obtain ⟨s, he, hr⟩ := ih ha'
    obtain ⟨s', hst', hr'⟩ := h.step s a' i a o hr hst
    exact ⟨s', M.exec_snoc_of he hst', hr'⟩

/-- Under a map of its states, the machine does exactly what the other does: the same steps, outputs and faults. -/
structure MapsTo {α : Type*} (A : Machine α ι ο) (f : σ → α) : Prop where
  init : f M.init = A.init
  step : ∀ s i, A.step (f s) i = (M.step s i).map fun p => (f p.1, p.2)

section
variable {M : Machine σ ι ο} {α : Type*} {A : Machine α ι ο} {f : σ → α} (h : M.MapsTo A f)

include h

theorem MapsTo.execFrom (is : List ι) (s : σ) : A.execFrom (f s) is = (M.execFrom s is).map f := by
  induction is generalizing s with
  | nil => rfl
  | cons i is ih =>
    rw [execFrom_cons, execFrom_cons, h.step]
    cases M.step s i with
    | none => rfl
    | some p => exact ih p.1

theorem MapsTo.exec (is : List ι) : A.exec is = (M.exec is).map f := by
  rw [Machine.exec, ← h.init, h.execFrom]
  rfl

theorem MapsTo.traceFrom (is : List ι) (s : σ) : A.traceFrom (f s) is = M.traceFrom s is := by
  induction is generalizing s with
  | nil => rfl
  | cons i is ih =>
    simp only [Machine.traceFrom, h.step]
    cases M.step s i with
    | none => rfl
    | some p => exact congrArg (List.cons (i, p.2)) (ih p.1)

theorem MapsTo.trace (is : List ι) : A.traceFrom A.init is = M.traceFrom M.init is := by
  rw [← h.init]
  exact h.traceFrom is M.init

end

end Machine

/-! ## Arguments by reference -/

/-- An argument taken by reference: an object of the caller, or a part of the
value at a place that the component owns. -/
inductive Arg (ρ ν α : Type*)
  | outside (x : α)
  | inside (place : ρ) (part : ν → α)

namespace Arg

variable {ρ ν α : Type*} (live : ρ → Option ν)

/-- Reading the argument. A place whose value is gone faults. -/
def read : Arg ρ ν α → Option α
  | outside x => some x
  | inside place part => (live place).map part

@[simp] theorem read_outside (x : α) : (outside x : Arg ρ ν α).read live = some x := rfl

@[simp] theorem read_inside (place : ρ) (part : ν → α) : (inside place part).read live = (live place).map part :=
  rfl

end Arg
