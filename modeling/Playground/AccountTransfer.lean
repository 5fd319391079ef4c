import Mathlib.Algebra.BigOperators.Group.Finset.Piecewise
import Mathlib.Algebra.Order.Group.Int
import Mathlib.Algebra.Ring.Int.Defs
import Playground.Lib.Transition

/-!
# Transfers between accounts (`concurrency/mutex_condvar.cpp`)

A `transfer` holds the mutexes of both accounts from the first line to the
last, so a run of the program takes one call of one thread after another.
Balances do not overflow. The guard looks at `from` only: an amount below zero
passes it and is taken from `to`.
-/

namespace Playground.AccountTransfer

/-- A call `transfer(from, to, amount)`; locking the mutex of one account twice is undefined. -/
structure Call (ι : Type) where
  from_ : ι
  to_ : ι
  amount : ℤ
  distinct : from_ ≠ to_

structure State (θ ι : Type) where
  balance : ι → ℤ
  calls : θ → List (Call ι)

section
variable {θ ι : Type} [DecidableEq θ] [DecidableEq ι]

def transfer (balance : ι → ℤ) (from_ to_ : ι) (amount : ℤ) : ι → ℤ :=
  if balance from_ ≥ amount then
    let balance := Function.update balance from_ (balance from_ - amount)
    Function.update balance to_ (balance to_ + amount)
  else balance

/-- The program that starts with the accounts `balance` and the threads `calls`; a label is the thread
that moves. -/
def threads (balance : ι → ℤ) (calls : θ → List (Call ι)) : System (State θ ι) θ where
  init := ⟨balance, calls⟩
  step s t :=
    match s.calls t with
    | [] => none
    | c :: rest => some ⟨transfer s.balance c.from_ c.to_ c.amount, Function.update s.calls t rest⟩

/-- The next call of the thread takes no more from `to` than `to` has. -/
def Covered (s : State θ ι) (t : θ) : Prop := ∀ c ∈ (s.calls t).head?, c.amount < 0 → -c.amount ≤ s.balance c.to_

/-! ## One transfer -/

theorem transfer_of_lt {balance : ι → ℤ} {from_ to_ : ι} {amount : ℤ} (h : balance from_ < amount) :
    transfer balance from_ to_ amount = balance := if_neg (Int.not_le.mpr h)

theorem transfer_eq {balance : ι → ℤ} {from_ to_ : ι} {amount : ℤ} (hne : from_ ≠ to_)
    (h : amount ≤ balance from_) :
    transfer balance from_ to_ amount = balance + Pi.single to_ amount - Pi.single from_ amount := by
  funext a
  simp only [transfer, ge_iff_le, if_pos h, Pi.add_apply, Pi.sub_apply, Pi.single_apply]
  by_cases hto : a = to_
  · subst hto
    simp [hne.symm]
  · by_cases hfrom : a = from_
    · subst hfrom
      simp [hto]
    · simp [hto, hfrom]

theorem sum_transfer [Fintype ι] (balance : ι → ℤ) {from_ to_ : ι} (hne : from_ ≠ to_) (amount : ℤ) :
    ∑ a, transfer balance from_ to_ amount a = ∑ a, balance a := by
  rcases lt_or_ge (balance from_) amount with h | h
  · rw [transfer_of_lt h]
  · rw [transfer_eq hne h]
    simp [Finset.sum_add_distrib, Finset.sum_sub_distrib]

theorem transfer_nonneg_iff {balance : ι → ℤ} (hb : ∀ a, 0 ≤ balance a) {from_ to_ : ι} (hne : from_ ≠ to_)
    (amount : ℤ) :
    (∀ a, 0 ≤ transfer balance from_ to_ amount a) ↔ (amount < 0 → -amount ≤ balance to_) := by
  rcases lt_or_ge (balance from_) amount with h | h
  · rw [transfer_of_lt h]
    have hpos := Int.lt_of_le_of_lt (hb from_) h
    exact iff_of_true hb fun hneg => absurd hneg (Int.not_lt.mpr (Int.le_of_lt hpos))
  · rw [transfer_eq hne h]
    constructor
    · intro hall _
      have hto := hall to_
      simp only [Pi.add_apply, Pi.sub_apply, Pi.single_eq_same, Pi.single_eq_of_ne hne.symm] at hto
      omega
    · intro hto a
      have ha := hb a
      simp only [Pi.add_apply, Pi.sub_apply]
      by_cases hat : a = to_
      · subst hat
        rw [Pi.single_eq_same, Pi.single_eq_of_ne hne.symm]
        omega
      · by_cases haf : a = from_
        · subst haf
          rw [Pi.single_eq_same, Pi.single_eq_of_ne hne]
          omega
        · rw [Pi.single_eq_of_ne hat, Pi.single_eq_of_ne haf]
          omega

/-! ## Every interleaving -/

variable {balance : ι → ℤ} {calls : θ → List (Call ι)} {s s' : State θ ι} {t : θ}

theorem step_cases (h : (threads balance calls).step s t = some s') :
    ∃ c rest, s.calls t = c :: rest ∧
      s' = ⟨transfer s.balance c.from_ c.to_ c.amount, Function.update s.calls t rest⟩ := by
  simp only [threads] at h
  split at h
  · cases h
  · rename_i c rest hc
    exact ⟨c, rest, hc, (Option.some.inj h).symm⟩

theorem covered_of_done (h : (threads balance calls).step s t = none) : Covered s t := by
  simp only [threads] at h
  split at h
  · rename_i hc
    simp [Covered, hc]
  · cases h

theorem sum_step [Fintype ι] (h : (threads balance calls).step s t = some s') :
    ∑ a, s'.balance a = ∑ a, s.balance a := by
  obtain ⟨c, rest, -, rfl⟩ := step_cases h
  exact sum_transfer s.balance c.distinct c.amount

theorem nonneg_step (hs : ∀ a, 0 ≤ s.balance a) (h : (threads balance calls).step s t = some s') :
    (∀ a, 0 ≤ s'.balance a) ↔ Covered s t := by
  obtain ⟨c, rest, hc, rfl⟩ := step_cases h
  rw [transfer_nonneg_iff hs c.distinct]
  simp [Covered, hc]

theorem sum_reachable [Fintype ι] (h : (threads balance calls).Reachable s) :
    ∑ a, s.balance a = ∑ a, balance a := by
  apply h.inv (P := fun s => ∑ a, s.balance a = ∑ a, balance a) rfl
  intro s t s' hs hst
  rw [sum_step hst, hs]

/-- All along an interleaving the sum is what it was and no balance is below zero, if and only if no call takes more
from `to` than `to` has. -/
theorem noOverdraft_iff [Fintype ι] (balance : ι → ℤ) (h : ∀ a, 0 ≤ balance a) (calls : θ → List (Call ι))
    (order : List θ) :
    (threads balance calls).Along (fun s => ∑ a, s.balance a = ∑ a, balance a ∧ ∀ a, 0 ≤ s.balance a) order ↔
      (threads balance calls).Guarded Covered order := by
  apply System.alongFrom_iff (I := fun s => ∑ a, s.balance a = ∑ a, balance a)
  · intro s t s' hs hst
    rw [sum_step hst, hs]
  · intro s t s' hi hs hst
    have hi' : ∑ a, s'.balance a = ∑ a, balance a := by rw [sum_step hst, hi]
    rw [← nonneg_step hs.2 hst]
    exact and_iff_right hi'
  · exact fun s t hst => covered_of_done hst
  · rfl
  · exact ⟨rfl, h⟩

theorem guarded_of_nonneg (balance : ι → ℤ) (hpos : ∀ t, ∀ c ∈ calls t, 0 ≤ c.amount) (order : List θ) :
    (threads balance calls).Guarded Covered order := by
  apply System.GuardedFrom.of_inv (I := fun s => ∀ t, ∀ c ∈ s.calls t, 0 ≤ c.amount)
  · intro s t s' hs hst u c hc
    obtain ⟨d, rest, hcalls, rfl⟩ := step_cases hst
    change c ∈ Function.update s.calls t rest u at hc
    by_cases hut : u = t
    · subst hut
      rw [Function.update_self] at hc
      exact hs u c (hcalls ▸ List.mem_cons_of_mem d hc)
    · rw [Function.update_of_ne hut] at hc
      exact hs u c hc
  · intro s t hs c hc hneg
    have := hs t c (List.mem_of_mem_head? hc)
    omega
  · exact hpos

end

theorem noOverdraft_iff_main : (threads (fun a : Bool => if a then 1000 else 500) fun t : Bool =>
    List.replicate 100 ⟨t, !t, if t then 5 else 3, by simp⟩).Along
      (fun s => ∑ a, s.balance a = 1500 ∧ ∀ a, 0 ≤ s.balance a) [true, false, false, true] :=
  (noOverdraft_iff _ (by decide) _ _).mpr (guarded_of_nonneg _ (by simp) _)

/-- An amount below zero overdraws `to`. -/
theorem negativeAmount_overdraws : ¬ (threads (fun a : Bool => if a then 0 else 5) fun _ : Unit =>
    [⟨true, false, -10, by decide⟩]).Along (fun s => ∑ a, s.balance a = 5 ∧ ∀ a, 0 ≤ s.balance a) [()] := by
  intro h
  have hb : (0 : ℤ) ≤ transfer (fun a : Bool => if a then 0 else 5) true false (-10) false := (h.2 _ rfl).2 false
  exact absurd hb (by decide)

end Playground.AccountTransfer
