import Mathlib.Order.Defs.PartialOrder

/-!
# Labelled transition systems

A system has one initial state and steps that are enabled (`some`) or not
(`none`) in a state. Any order of enabled steps is a run: the interleavings
of a concurrent program are the runs of one system whose labels name the
thread that moves.
-/

/-- A transition system; a label that is not enabled has no successor. -/
structure System (σ ι : Type*) where
  init : σ
  step : σ → ι → Option σ

namespace System

variable {σ ι : Type*} (S : System σ ι)

inductive Reachable : σ → Prop
  | init : Reachable S.init
  | step {s s' : σ} (i : ι) : Reachable s → S.step s i = some s' → Reachable s'

variable {S}

/-- **Invariant rule.** -/
theorem Reachable.inv {P : σ → Prop} (h0 : P S.init)
    (hs : ∀ s i s', P s → S.step s i = some s' → P s') {s : σ} (h : S.Reachable s) : P s := by
  induction h with
  | init => exact h0
  | step i _ hst ih => exact hs _ i _ ih hst

/-- **Simulation up to stuttering.** A step is matched by a step of the other system, or by none. -/
theorem Reachable.simulate {α κ : Type*} {A : System α κ} {R : σ → α → Prop} (h0 : R S.init A.init)
    (hs : ∀ s i s' a, R s a → S.step s i = some s' → R s' a ∨ ∃ j a', A.step a j = some a' ∧ R s' a') {s : σ}
    (h : S.Reachable s) : ∃ a, A.Reachable a ∧ R s a := by
  induction h with
  | init => exact ⟨A.init, .init, h0⟩
  | step i _ hst ih =>
    obtain ⟨a, ha, hr⟩ := ih
    rcases hs _ i _ a hr hst with hr' | ⟨j, a', hj, hr'⟩
    · exact ⟨a, ha, hr'⟩
    · exact ⟨a', ha.step j hj, hr'⟩

/-- The state a list of labels leads to, when each is enabled in its turn. -/
def run : σ → List ι → Option σ
  | s, [] => some s
  | s, i :: is => (S.step s i).bind fun s' => run s' is

theorem reachable_of_run (is : List ι) {s s' : σ} (hr : S.Reachable s) (h : S.run s is = some s') :
    S.Reachable s' := by
  induction is generalizing s with
  | nil =>
    simp only [run, Option.some.injEq] at h
    exact h ▸ hr
  | cons i is ih =>
    obtain ⟨t, ht, h⟩ := Option.bind_eq_some_iff.mp h
    exact ih (hr.step i ht) h

theorem Reachable.run_le {β : Type*} [Preorder β] {f : σ → β}
    (h : ∀ s i s', S.Reachable s → S.step s i = some s' → f s ≤ f s') (is : List ι) {s s' : σ} (hr : S.Reachable s)
    (hs : S.run s is = some s') : f s ≤ f s' := by
  induction is generalizing s with
  | nil =>
    obtain rfl := Option.some.inj hs
    exact le_refl _
  | cons i is ih =>
    obtain ⟨t, ht, hs⟩ := Option.bind_eq_some_iff.mp hs
    exact le_trans (h s i t hr ht) (ih (hr.step i ht) hs)

/-- `P` holds in all states of a run from `s`. -/
def AlongFrom (P : σ → Prop) : σ → List ι → Prop
  | s, [] => P s
  | s, i :: is => P s ∧ ∀ s', S.step s i = some s' → AlongFrom P s' is

/-- A run from `s` in which every step is taken in a state that allows it. -/
def GuardedFrom (ok : σ → ι → Prop) : σ → List ι → Prop
  | _, [] => True
  | s, i :: is => ok s i ∧ ∀ s', S.step s i = some s' → GuardedFrom ok s' is

variable (S) in
def Along (P : σ → Prop) (is : List ι) : Prop := S.AlongFrom P S.init is

variable (S) in
def Guarded (ok : σ → ι → Prop) (is : List ι) : Prop := S.GuardedFrom ok S.init is

theorem AlongFrom.mono {P Q : σ → Prop} (h : ∀ s, P s → Q s) {s : σ} {is : List ι} (hp : S.AlongFrom P s is) :
    S.AlongFrom Q s is := by
  induction is generalizing s with
  | nil => exact h s hp
  | cons i is ih => exact ⟨h s hp.1, fun s' hs => ih (hp.2 s' hs)⟩

theorem GuardedFrom.of_inv {ok : σ → ι → Prop} {I : σ → Prop} (hI : ∀ s i s', I s → S.step s i = some s' → I s')
    (hok : ∀ s i, I s → ok s i) {s : σ} (is : List ι) (hi : I s) : S.GuardedFrom ok s is := by
  induction is generalizing s with
  | nil => trivial
  | cons i is ih => exact ⟨hok s i hi, fun s' hs => ih (hI s i s' hi hs)⟩

/-- **Exact guard.** `I` holds of every state. When a step keeps `P` if and
only if it meets `ok`, and meets it when it is not enabled, then `P` holds all
along a run if and only if its steps all meet `ok`. -/
theorem alongFrom_iff {ok : σ → ι → Prop} {I P : σ → Prop} (hI : ∀ s i s', I s → S.step s i = some s' → I s')
    (hP : ∀ s i s', I s → P s → S.step s i = some s' → (P s' ↔ ok s i)) (hok : ∀ s i, S.step s i = none → ok s i)
    {s : σ} (is : List ι) (hi : I s) (hp : P s) : S.AlongFrom P s is ↔ S.GuardedFrom ok s is := by
  induction is generalizing s with
  | nil => exact iff_of_true hp trivial
  | cons i is ih =>
    unfold AlongFrom GuardedFrom
    cases hs : S.step s i with
    | none => exact iff_of_true ⟨hp, fun s' h => by cases h⟩ ⟨hok s i hs, fun s' h => by cases h⟩
    | some t =>
      have hit := hI s i t hi hs
      have hiff := hP s i t hi hp hs
      constructor
      · intro ⟨_, ha⟩
        have hat := ha t rfl
        have hpt : P t := by
          cases is with
          | nil => exact hat
          | cons j js => exact hat.1
        refine ⟨hiff.mp hpt, fun s' h => ?_⟩
        cases h
        exact (ih hit hpt).mp hat
      · intro ⟨hk, hg⟩
        refine ⟨hp, fun s' h => ?_⟩
        cases h
        exact (ih hit (hiff.mpr hk)).mpr (hg t rfl)

/-! ## History variables -/

section

variable {γ : Type*} {h₀ : γ} {note : σ → γ → ι → σ → γ}

variable (S) in
/-- The system with a history beside its state: each step writes to it, and none depends on it. -/
def withHistory (h₀ : γ) (note : σ → γ → ι → σ → γ) : System (σ × γ) ι where
  init := (S.init, h₀)
  step x i := (S.step x.1 i).map fun s' => (s', note x.1 x.2 i s')

theorem withHistory_step {x y : σ × γ} {i : ι} (h : (S.withHistory h₀ note).step x i = some y) :
    S.step x.1 i = some y.1 ∧ y.2 = note x.1 x.2 i y.1 := by
  obtain ⟨s', hs, rfl⟩ := Option.map_eq_some_iff.mp h
  exact ⟨hs, rfl⟩

/-- A history forbids no run. -/
theorem Reachable.withHistory {s : σ} (h : S.Reachable s) : ∃ g, (S.withHistory h₀ note).Reachable (s, g) := by
  induction h with
  | init => exact ⟨h₀, .init⟩
  | @step s s' i _ hst ih =>
    obtain ⟨g, hg⟩ := ih
    exact ⟨note s g i s', hg.step i (by simp [System.withHistory, hst])⟩

end

end System
