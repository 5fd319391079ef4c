import Mathlib.Algebra.BigOperators.Group.Finset.Basic
import Mathlib.Data.Fintype.Card
import Mathlib.Logic.Function.Basic

/-!
# Threads and a mutex

Any number of threads, each at a program point, around one mutex that protects
a shared state. A program says which points acquire the mutex, which release
it and what is done while it is held; the fields of `Program` make the points
that hold the mutex the ones between the two. `count` counts threads by the
point they are at.
-/

namespace Monitor

/-! ## Counting threads -/

section
variable {T C : Type*} [Fintype T]

/-- The number of threads at a point that meets `p`. -/
def count (p : C → Bool) (pc : T → C) : Nat := (Finset.univ.filter fun t => p (pc t) = true).card

theorem count_pos {p : C → Bool} {pc : T → C} : 0 < count p pc ↔ ∃ t, p (pc t) = true := by
  rw [count, Finset.card_pos]
  simp [Finset.Nonempty]

theorem count_eq_zero {p : C → Bool} {pc : T → C} : count p pc = 0 ↔ ∀ t, p (pc t) = false := by
  simp [count]

theorem count_lt_card {p : C → Bool} {pc : T → C} {t : T} (h : p (pc t) = false) : count p pc < Fintype.card T := by
  rw [count, ← Finset.card_univ]
  refine Finset.card_lt_card (Finset.filter_ssubset.mpr ⟨t, Finset.mem_univ t, ?_⟩)
  simp [h]

theorem sum_change [DecidableEq T] {M : Type*} [AddCommMonoid M] {f g : T → M} {t : T}
    (h : ∀ u, u ≠ t → g u = f u) : ∑ u, g u + f t = ∑ u, f u + g t := by
  have hrest : ∑ u ∈ Finset.univ.erase t, g u = ∑ u ∈ Finset.univ.erase t, f u :=
    Finset.sum_congr rfl fun u hu => h u (Finset.ne_of_mem_erase hu)
  rw [← Finset.add_sum_erase _ f (Finset.mem_univ t), ← Finset.add_sum_erase _ g (Finset.mem_univ t), hrest,
    add_right_comm, add_comm (g t), add_right_comm, add_comm (f t)]

/-- What one thread gives up or gains is matched outside of the sum. -/
theorem sum_balance [DecidableEq T] {M : Type*} [AddCancelCommMonoid M] {f g : T → M} {a b : M} {t : T}
    (h : ∀ u, u ≠ t → g u = f u) (hb : a + g t = b + f t) : a + ∑ u, g u = b + ∑ u, f u := by
  apply add_right_cancel (b := f t)
  rw [add_assoc, sum_change h, add_left_comm, hb, add_left_comm, add_assoc]

theorem count_eq_sum (p : C → Bool) (pc : T → C) : count p pc = ∑ t, (p (pc t)).toNat := by
  rw [count, Finset.card_eq_sum_ones, Finset.sum_filter]
  exact Finset.sum_congr rfl fun t _ => by cases p (pc t) <;> rfl

theorem count_update [DecidableEq T] (p : C → Bool) (pc : T → C) (t : T) (c : C) :
    count p (Function.update pc t c) + (p (pc t)).toNat = count p pc + (p c).toNat := by
  have hsum := sum_change (t := t) (f := fun u => (p (pc u)).toNat)
    (g := fun u => (p (Function.update pc t c u)).toNat) fun u hu => by rw [Function.update_of_ne hu]
  rwa [Function.update_self, ← count_eq_sum, ← count_eq_sum] at hsum

theorem count_congr {D : Type*} {p : C → Bool} {q : D → Bool} {pc : T → C} {pc' : T → D}
    (h : ∀ t, p (pc t) = q (pc' t)) : count p pc = count q pc' := by
  simp [count, h]

theorem count_or {p q : C → Bool} (h : ∀ c, p c = true → q c = false) (pc : T → C) :
    count (fun c => p c || q c) pc = count p pc + count q pc := by
  classical
  rw [count, count, count, ← Finset.card_union_of_disjoint]
  · congr 1
    ext t
    simp
  · rw [Finset.disjoint_filter]
    intro t _ hp hq
    rw [h _ hp] at hq
    cases hq

/-! ## Wakeups -/

/-- While a thread waits, `n` pieces of work are matched by as many threads that will see to one each. -/
def Covered (waits credit : C → Bool) (n : Nat) (pc : T → C) : Prop := 0 < count waits pc → n ≤ count credit pc

/-- `notify_one`: `w` is the thread that leaves the wait set, if there is one. -/
def notifyOne [DecidableEq T] (waits : C → Bool) (wake : C → C) (pc : T → C) : Option T → Option (T → C)
  | none => if ∀ u, waits (pc u) = false then some pc else none
  | some w => if waits (pc w) then some (Function.update pc w (wake (pc w))) else none

omit [Fintype T] in
def notifyAll (waits : C → Bool) (wake : C → C) (pc : T → C) (t : T) : C :=
  if waits (pc t) then wake (pc t) else pc t

section
variable [DecidableEq T] {waits credit : C → Bool} {wake : C → C} {n n' : Nat} {pc pc' : T → C} {t : T} {c : C}

/-- What the move of one thread costs and brings; nothing is owed when there is no work, or nobody waits. -/
theorem Covered.update (h : Covered waits credit n pc) (hpay : n' = 0 ∨ waits c = false ∧
    ((∀ u, waits (pc u) = false) ∨ n' + (credit (pc t)).toNat ≤ n + (credit c).toNat)) :
    Covered waits credit n' (Function.update pc t c) := by
  intro hw
  have hcw := count_update waits pc t c
  have hcc := count_update credit pc t c
  rcases hpay with rfl | ⟨hnw, hall | hle⟩
  · exact Nat.zero_le _
  · rw [hnw, count_eq_zero.mpr hall] at hcw
    simp only [Bool.toNat_false] at hcw
    omega
  · rw [hnw] at hcw
    simp only [Bool.toNat_false] at hcw
    have := h (by omega)
    omega

theorem Covered.of_credit (hc : credit c = true) : Covered waits credit 1 (Function.update pc t c) := by
  intro _
  apply count_pos.mpr
  exact ⟨t, by rw [Function.update_self, hc]⟩

theorem notifyOne_cases {w : Option T} (h : notifyOne waits wake pc w = some pc') :
    (∀ u, waits (pc u) = false) ∧ pc' = pc ∨
      ∃ u, waits (pc u) = true ∧ pc' = Function.update pc u (wake (pc u)) := by
  cases w with
  | none =>
    simp only [notifyOne, Option.ite_none_right_eq_some, Option.some.injEq] at h
    exact Or.inl ⟨h.1, h.2.symm⟩
  | some w =>
    simp only [notifyOne, Option.ite_none_right_eq_some, Option.some.injEq] at h
    exact Or.inr ⟨w, h.1, h.2.symm⟩

theorem exists_notifyOne (waits : C → Bool) (wake : C → C) (pc : T → C) :
    ∃ w pc', Monitor.notifyOne waits wake pc w = some pc' := by
  by_cases h : ∀ u, waits (pc u) = false
  · exact ⟨none, pc, if_pos h⟩
  · obtain ⟨u, hu⟩ := not_forall.mp h
    exact ⟨some u, _, if_pos (Bool.eq_true_of_not_eq_false hu)⟩

theorem notifyOne_woken {w : Option T} (h : notifyOne waits wake pc w = some pc') (u : T) :
    pc' u = pc u ∨ waits (pc u) = true ∧ pc' u = wake (pc u) := by
  rcases notifyOne_cases h with ⟨_, rfl⟩ | ⟨v, hv, rfl⟩
  · exact Or.inl rfl
  · by_cases huv : u = v
    · subst huv
      rw [Function.update_self]
      exact Or.inr ⟨hv, rfl⟩
    · exact Or.inl (Function.update_of_ne huv _ _)

/-- The notified thread is one more that will see to a piece of work. -/
theorem Covered.notifyOne {w : Option T} (h : Covered waits credit n pc) (hn : notifyOne waits wake pc w = some pc')
    (hwake : ∀ c, waits c = true → waits (wake c) = false ∧ credit c = false ∧ credit (wake c) = true)
    (ht : waits (pc t) = false) (hc : waits c = false)
    (hpay : n' + (credit (pc t)).toNat ≤ n + 1 + (credit c).toNat) :
    Covered waits credit n' (Function.update pc' t c) := by
  rcases notifyOne_cases hn with ⟨hall, rfl⟩ | ⟨u, hu, rfl⟩
  · exact h.update (Or.inr ⟨hc, Or.inl hall⟩)
  · obtain ⟨hw₁, hw₂, hw₃⟩ := hwake _ hu
    have hut : t ≠ u := by
      intro heq
      subst heq
      rw [ht] at hu
      cases hu
    have h' : Covered waits credit (n + 1) (Function.update pc u (wake (pc u))) :=
      h.update (Or.inr ⟨hw₁, Or.inr (by rw [hw₂, hw₃]; exact Nat.le_refl _)⟩)
    refine h'.update (Or.inr ⟨hc, Or.inr ?_⟩)
    rw [Function.update_of_ne hut]
    exact hpay

theorem Covered.notifyOther {waits' : C → Bool} {w : Option T} (h : Covered waits credit n pc)
    (hn : Monitor.notifyOne waits' wake pc w = some pc')
    (hwake : ∀ c, waits' c = true → waits (wake c) = false ∧ credit (wake c) = credit c) :
    Covered waits credit n pc' := by
  rcases notifyOne_cases hn with ⟨_, rfl⟩ | ⟨u, hu, rfl⟩
  · exact h
  · obtain ⟨h₁, h₂⟩ := hwake _ hu
    exact h.update (Or.inr ⟨h₁, Or.inr (by rw [h₂])⟩)

end

theorem notifyAll_cases {T C : Type*} (waits : C → Bool) (wake : C → C) (pc : T → C) (t : T) :
    waits (pc t) = false ∧ notifyAll waits wake pc t = pc t ∨
      waits (pc t) = true ∧ notifyAll waits wake pc t = wake (pc t) := by
  unfold notifyAll
  cases waits (pc t) with
  | false => exact Or.inl ⟨rfl, rfl⟩
  | true => exact Or.inr ⟨rfl, rfl⟩

theorem notifyAll_woken {T C : Type*} (waits : C → Bool) (wake : C → C) (pc : T → C) (t : T) :
    notifyAll waits wake pc t = pc t ∨ waits (pc t) = true ∧ notifyAll waits wake pc t = wake (pc t) :=
  (notifyAll_cases waits wake pc t).imp And.right id

theorem count_notifyAll [DecidableEq T] {waits : C → Bool} {wake : C → C} (hwake : ∀ c, waits (wake c) = false)
    (pc : T → C) {t : T} {c : C} (hc : waits c = false) :
    count waits (Function.update (notifyAll waits wake pc) t c) = 0 := by
  apply count_eq_zero.mpr
  intro u
  by_cases hut : u = t
  · rw [hut, Function.update_self, hc]
  · rw [Function.update_of_ne hut]
    rcases notifyAll_cases waits wake pc u with ⟨hu, he⟩ | ⟨_, he⟩
    · rw [he, hu]
    · rw [he, hwake]

end

/-! ## The mutex -/

/-- The shared state, the owner of the mutex and where each thread is. -/
structure State (T σ C : Type*) where
  shared : σ
  owner : Option T
  pc : T → C

structure Program (σ C : Type*) where
  acquire : C → Option C
  release : C → Option C
  inside : σ → C → Option (σ × C)
  holds : C → Bool
  holds_acquire : ∀ {c c'}, acquire c = some c' → holds c = false ∧ holds c' = true
  holds_release : ∀ {c c'}, release c = some c' → holds c = true ∧ holds c' = false
  holds_inside : ∀ {x c x' c'}, inside x c = some (x', c') → holds c = true ∧ holds c' = true
  continues : ∀ x c, holds c = true → (release c).isSome ∨ (inside x c).isSome

section
variable {T σ C : Type*}

/-- The owner of the mutex is the one thread that holds it. -/
def Program.Exclusive (P : Program σ C) (s : State T σ C) : Prop := ∀ t, s.owner = some t ↔ P.holds (s.pc t) = true

theorem Program.Exclusive.congr {P : Program σ C} {s s' : State T σ C} (h : P.Exclusive s) (ho : s'.owner = s.owner)
    (hh : ∀ t, P.holds (s'.pc t) = P.holds (s.pc t)) : P.Exclusive s' := by
  intro t
  rw [ho, hh]
  exact h t

theorem Program.Exclusive.eq {P : Program σ C} {s : State T σ C} {t u : T} (h : P.Exclusive s)
    (ht : P.holds (s.pc t) = true) (hu : P.holds (s.pc u) = true) : t = u :=
  Option.some.inj (((h t).mpr ht).symm.trans ((h u).mpr hu))

variable [DecidableEq T]

def State.goto (s : State T σ C) (t : T) (c : C) : State T σ C := { s with pc := Function.update s.pc t c }

namespace Program
variable (P : Program σ C)

def acquireStep (s : State T σ C) (t : T) : Option (State T σ C) :=
  if s.owner.isNone then (P.acquire (s.pc t)).map fun c => { s.goto t c with owner := some t } else none

def releaseStep (s : State T σ C) (t : T) : Option (State T σ C) :=
  (P.release (s.pc t)).map fun c => { s.goto t c with owner := none }

def insideStep (s : State T σ C) (t : T) : Option (State T σ C) :=
  (P.inside s.shared (s.pc t)).map fun p => { s.goto t p.2 with shared := p.1 }

variable {P} {s s' : State T σ C} {t u : T}

theorem acquireStep_some (h : P.acquireStep s t = some s') :
    ∃ c, s.owner = none ∧ P.acquire (s.pc t) = some c ∧ s' = { s.goto t c with owner := some t } := by
  unfold acquireStep at h
  split at h
  · rename_i ho
    obtain ⟨c, hc, rfl⟩ := Option.map_eq_some_iff.mp h
    exact ⟨c, Option.isNone_iff_eq_none.mp ho, hc, rfl⟩
  · cases h

theorem releaseStep_some (h : P.releaseStep s t = some s') :
    ∃ c, P.release (s.pc t) = some c ∧ s' = { s.goto t c with owner := none } := by
  obtain ⟨c, hc, rfl⟩ := Option.map_eq_some_iff.mp h
  exact ⟨c, hc, rfl⟩

theorem insideStep_some (h : P.insideStep s t = some s') :
    ∃ x c, P.inside s.shared (s.pc t) = some (x, c) ∧ s' = { s.goto t c with shared := x } := by
  obtain ⟨⟨x, c⟩, hc, rfl⟩ := Option.map_eq_some_iff.mp h
  exact ⟨x, c, hc, rfl⟩

theorem Exclusive.keep (h : P.Exclusive s) {c : C} (hc : P.holds c = P.holds (s.pc t)) (x : σ) :
    P.Exclusive { s.goto t c with shared := x } := by
  refine h.congr rfl fun u => ?_
  show P.holds (Function.update s.pc t c u) = P.holds (s.pc u)
  by_cases hu : u = t
  · rw [hu, Function.update_self, hc]
  · rw [Function.update_of_ne hu]

theorem Exclusive.acquireStep (h : P.Exclusive s) (hs : P.acquireStep s t = some s') : P.Exclusive s' := by
  obtain ⟨c, ho, hc, rfl⟩ := acquireStep_some hs
  intro u
  show some t = some u ↔ P.holds (Function.update s.pc t c u) = true
  by_cases hu : u = t
  · rw [hu, Function.update_self]
    exact iff_of_true rfl (P.holds_acquire hc).2
  · rw [Function.update_of_ne hu, ← h u, ho]
    simp [Ne.symm hu]

theorem Exclusive.releaseStep (h : P.Exclusive s) (hs : P.releaseStep s t = some s') : P.Exclusive s' := by
  obtain ⟨c, hc, rfl⟩ := releaseStep_some hs
  intro u
  show none = some u ↔ P.holds (Function.update s.pc t c u) = true
  by_cases hu : u = t
  · rw [hu, Function.update_self, (P.holds_release hc).2]
    simp
  · rw [Function.update_of_ne hu]
    exact iff_of_false (by simp) fun hh => hu (h.eq hh (P.holds_release hc).1)

theorem Exclusive.insideStep (h : P.Exclusive s) (hs : P.insideStep s t = some s') : P.Exclusive s' := by
  obtain ⟨x, c, hc, rfl⟩ := insideStep_some hs
  obtain ⟨h₁, h₂⟩ := P.holds_inside hc
  exact h.keep (h₂.trans h₁.symm) x

/-- A thread at the mutex, or past it, is not what holds everybody up. -/
theorem Exclusive.progress (h : P.Exclusive s) (ht : (P.acquire (s.pc t)).isSome ∨ P.holds (s.pc t) = true) :
    ∃ u s', P.acquireStep s u = some s' ∨ P.releaseStep s u = some s' ∨ P.insideStep s u = some s' := by
  have hrun : ∀ u, P.holds (s.pc u) = true →
      ∃ u s', P.acquireStep s u = some s' ∨ P.releaseStep s u = some s' ∨ P.insideStep s u = some s' := by
    intro u hu
    rcases P.continues s.shared (s.pc u) hu with hr | hi
    · obtain ⟨c, hc⟩ := Option.isSome_iff_exists.mp hr
      exact ⟨u, _, Or.inr (Or.inl (by rw [Program.releaseStep, hc]; rfl))⟩
    · obtain ⟨p, hp⟩ := Option.isSome_iff_exists.mp hi
      exact ⟨u, _, Or.inr (Or.inr (by rw [Program.insideStep, hp]; rfl))⟩
  rcases ht with ha | hh
  · cases ho : s.owner with
    | none =>
      obtain ⟨c, hc⟩ := Option.isSome_iff_exists.mp ha
      exact ⟨t, _, Or.inl (by rw [Program.acquireStep, ho, hc]; rfl)⟩
    | some u => exact hrun u ((h u).mp ho)
  · exact hrun t hh

end Program

end

end Monitor
