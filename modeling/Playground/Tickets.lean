import Playground.Lib.Monitor
import Playground.Lib.Transition

/-!
# The consumers' tickets (`main` of `concurrency/producer_consumer.cpp`)

A consumer takes a ticket from the atomic counter `consumed_count` for every
item it consumes, and gives back the one that was one too many. The atomic
operations are the steps, and so are the call of `consume` and its return. The
counter is a 32-bit `int` that wraps around; the tickets that were granted,
and the calls of `consume` started and finished, are counted beside it.
-/

namespace Playground.Tickets

open Monitor

inductive Pc
  | load
  | fetchAdd
  | consume
  | consuming
  | fetchSub
  | exited
  deriving DecidableEq

structure State (C : Type) where
  consumedCount : Int32 := 0
  pc : C → Pc := fun _ => .load
  granted : Nat := 0
  started : Nat := 0
  consumed : Nat := 0

section
variable {C : Type} [DecidableEq C]

def State.goto (s : State C) (c : C) (pc : Pc) : State C := { s with pc := Function.update s.pc c pc }

def step (total : Int32) (s : State C) (c : C) : Option (State C) :=
  match s.pc c with
  | .load => if s.consumedCount < total then some (s.goto c .fetchAdd) else some (s.goto c .exited)
  | .fetchAdd =>
    let s' := { s with consumedCount := s.consumedCount + 1 }
    if s.consumedCount < total then some { s'.goto c .consume with granted := s.granted + 1 }
    else some (s'.goto c .fetchSub)
  | .consume => some { s.goto c .consuming with started := s.started + 1 }
  | .consuming => some { s.goto c .load with consumed := s.consumed + 1 }
  | .fetchSub => some { s.goto c .exited with consumedCount := s.consumedCount - 1 }
  | .exited => none

def tickets (C : Type) [DecidableEq C] (total : Int32) : System (State C) C where
  init := {}
  step := step total

end

/-! ## One step -/

def Pc.isConsume : Pc → Bool
  | .consume => true
  | _ => false

def Pc.isConsuming : Pc → Bool
  | .consuming => true
  | _ => false

def Pc.isFetchSub : Pc → Bool
  | .fetchSub => true
  | _ => false

/-- On the way to an increment, or past one that failed. -/
def Pc.isLate : Pc → Bool
  | .fetchAdd => true
  | .fetchSub => true
  | _ => false

inductive Turn {C : Type} [DecidableEq C] (total : Int32) (s : State C) (c : C) : State C → Prop
  | load (hp : s.pc c = .load) (hlt : s.consumedCount < total) : Turn total s c (s.goto c .fetchAdd)
  | leave (hp : s.pc c = .load) (hge : ¬ s.consumedCount < total) : Turn total s c (s.goto c .exited)
  | grant (hp : s.pc c = .fetchAdd) (hlt : s.consumedCount < total) :
      Turn total s c
        { s.goto c .consume with consumedCount := s.consumedCount + 1, granted := s.granted + 1 }
  | refuse (hp : s.pc c = .fetchAdd) (hge : ¬ s.consumedCount < total) :
      Turn total s c { s.goto c .fetchSub with consumedCount := s.consumedCount + 1 }
  | start (hp : s.pc c = .consume) : Turn total s c { s.goto c .consuming with started := s.started + 1 }
  | finish (hp : s.pc c = .consuming) : Turn total s c { s.goto c .load with consumed := s.consumed + 1 }
  | undo (hp : s.pc c = .fetchSub) :
      Turn total s c { s.goto c .exited with consumedCount := s.consumedCount - 1 }

section
variable {C : Type} [DecidableEq C] {total : Int32} {s s' : State C} {c : C}

theorem turn_step (h : step total s c = some s') : Turn total s c s' := by
  unfold step at h
  cases hp : s.pc c with
  | load =>
    simp only [hp] at h
    split at h
    · rename_i hlt
      cases h
      exact .load hp hlt
    · rename_i hge
      cases h
      exact .leave hp hge
  | fetchAdd =>
    simp only [hp] at h
    split at h
    · rename_i hlt
      cases h
      exact .grant hp hlt
    · rename_i hge
      cases h
      exact .refuse hp hge
  | consume =>
    simp only [hp, Option.some.injEq] at h
    exact h ▸ .start hp
  | consuming =>
    simp only [hp, Option.some.injEq] at h
    exact h ▸ .finish hp
  | fetchSub =>
    simp only [hp, Option.some.injEq] at h
    exact h ▸ .undo hp
  | exited => simp only [hp, reduceCtorEq] at h

theorem Turn.others {u : C} (h : Turn total s c s') (hu : u ≠ c) : s'.pc u = s.pc u := by
  cases h <;> exact Function.update_of_ne hu _ _

theorem start_step (hp : s.pc c = .consume) (h : step total s c = some s') :
    s' = { s.goto c .consuming with started := s.started + 1 } := by
  simp only [step, hp, Option.some.injEq] at h
  exact h.symm

theorem started_step (hp : s.pc c ≠ .consume) (h : step total s c = some s') : s'.started = s.started := by
  cases turn_step h with
  | start hc => exact absurd hc hp
  | _ => rfl

theorem enabled (total : Int32) (hp : s.pc c ≠ .exited) : ∃ s', step total s c = some s' := by
  rw [← Option.isSome_iff_exists]
  unfold step
  cases hpc : s.pc c with
  | exited => exact absurd hpc hp
  | load =>
    show (if _ then _ else _ : Option (State C)).isSome = true
    split <;> rfl
  | fetchAdd =>
    show (if _ then _ else _ : Option (State C)).isSome = true
    split <;> rfl
  | _ => rfl

end

/-! ## The invariant -/

section
variable {C : Type} [Fintype C] {total : Int32}

/-- The counter is ahead of the granted tickets by the failed increments; once all tickets are
granted, a consumer that is not late stays so. -/
structure Inv (total : Int32) (s : State C) : Prop where
  counter : s.consumedCount.toInt = s.granted + count Pc.isFetchSub s.pc
  granted : (s.granted : Int) ≤ total.toInt
  started : s.granted = s.started + count Pc.isConsume s.pc
  consumed : s.started = s.consumed + count Pc.isConsuming s.pc
  closed : ∀ c, s.pc c = .fetchSub ∨ s.pc c = .exited → (s.granted : Int) = total.toInt
  awake : (s.granted : Int) = total.toInt → ∃ c, (s.pc c).isLate = false

theorem Inv.granted_lt {s : State C} (h : Inv total s) (hlt : s.consumedCount < total) :
    (s.granted : Int) < total.toInt := by
  have hcount := h.counter
  rw [Int32.lt_iff_toInt_lt] at hlt
  omega

theorem Inv.granted_eq {s : State C} (h : Inv total s) (hge : ¬ s.consumedCount < total) :
    (s.granted : Int) = total.toInt := by
  have hcount := h.counter
  rw [Int32.lt_iff_toInt_lt] at hge
  by_cases hpos : 0 < count Pc.isFetchSub s.pc
  · obtain ⟨c, hc⟩ := count_pos.mp hpos
    refine h.closed c (Or.inl ?_)
    cases hp : s.pc c <;> first | rfl | (rw [hp] at hc; cases hc)
  · have hle := h.granted
    omega

variable [DecidableEq C]

theorem count_init {p : Pc → Bool} (h : p .load = false) : count p (tickets C total).init.pc = 0 :=
  count_eq_zero.mpr fun _ => h

theorem inv_init [Nonempty C] (h0 : 0 ≤ total.toInt) : Inv total (tickets C total).init where
  counter := by
    rw [count_init rfl]
    rfl
  granted := h0
  started := by
    rw [count_init rfl]
    rfl
  consumed := by
    rw [count_init rfl]
    rfl
  closed := by
    intro c hc
    cases hc with
    | inl hc => cases hc
    | inr hc => cases hc
  awake := fun _ => ⟨Classical.arbitrary C, rfl⟩

variable {s s' : State C} {c : C}

theorem toInt_succ {a : Int32} (h : a.toInt + 1 < 2 ^ 31) : (a + 1).toInt = a.toInt + 1 := by
  have hlo := a.le_toInt
  rw [Int32.toInt_add, Int32.toInt_one]
  exact Int.bmod_eq_of_le (by omega) (by omega)

theorem toInt_pred {a : Int32} (h : -2 ^ 31 ≤ a.toInt - 1) : (a - 1).toInt = a.toInt - 1 := by
  have hhi := a.toInt_lt
  rw [Int32.toInt_sub, Int32.toInt_one]
  exact Int.bmod_eq_of_le (by omega) (by omega)

omit [Fintype C] in
/-- Who has left, or is about to, was there before, or is the one that moves. -/
theorem closed_move {x : Pc} (h : ∀ u, s.pc u = .fetchSub ∨ s.pc u = .exited → (s.granted : Int) = total.toInt)
    (hx : x = .fetchSub ∨ x = .exited → (s.granted : Int) = total.toInt) (u : C)
    (hu : Function.update s.pc c x u = .fetchSub ∨ Function.update s.pc c x u = .exited) :
    (s.granted : Int) = total.toInt := by
  by_cases huc : u = c
  · rw [huc, Function.update_self] at hu
    exact hx hu
  · rw [Function.update_of_ne huc] at hu
    exact h u hu

omit [Fintype C] in
theorem awake_move {x : Pc} (hx : x.isLate = false) : ∃ u, (Function.update s.pc c x u).isLate = false :=
  ⟨c, by rw [Function.update_self, hx]⟩

/-- A move from `x` to `y`: what it does to the counters is what it does to the counts. -/
theorem Inv.move {x y : Pc} {n : Int32} {g b d : Nat} (h : Inv total s) (hp : s.pc c = x)
    (hn : n.toInt + s.granted + x.isFetchSub.toNat = s.consumedCount.toInt + g + y.isFetchSub.toNat)
    (hg : (g : Int) ≤ total.toInt) (hb : g + s.started + x.isConsume.toNat = s.granted + b + y.isConsume.toNat)
    (hd : b + s.consumed + x.isConsuming.toNat = s.started + d + y.isConsuming.toNat)
    (hclosed : ∀ u, Function.update s.pc c y u = .fetchSub ∨ Function.update s.pc c y u = .exited →
      (g : Int) = total.toInt)
    (hawake : (g : Int) = total.toInt → ∃ u, (Function.update s.pc c y u).isLate = false) :
    Inv total
      { consumedCount := n, pc := Function.update s.pc c y, granted := g, started := b, consumed := d } := by
  have hcounter := h.counter
  have hstarted := h.started
  have hconsumed := h.consumed
  have hf := count_update Pc.isFetchSub s.pc c y
  have hc := count_update Pc.isConsume s.pc c y
  have hi := count_update Pc.isConsuming s.pc c y
  rw [hp] at hf hc hi
  exact {
    counter := by
      show n.toInt = g + count Pc.isFetchSub (Function.update s.pc c y)
      omega
    granted := hg
    started := by
      show g = b + count Pc.isConsume (Function.update s.pc c y)
      omega
    consumed := by
      show b = d + count Pc.isConsuming (Function.update s.pc c y)
      omega
    closed := hclosed
    awake := hawake }

omit [DecidableEq C] in
/-- A consumer is about to fail, and one that is not late never will: the counter has room. -/
theorem Inv.room (h : Inv total s) (hfit : total.toInt + Fintype.card C ≤ 2 ^ 31) (hp : s.pc c = .fetchAdd)
    (heq : (s.granted : Int) = total.toInt) : s.consumedCount.toInt + 1 < 2 ^ 31 := by
  obtain ⟨u, hu⟩ := h.awake heq
  have hlt := count_lt_card hu
  have hsplit : count Pc.isLate s.pc = count Pc.isFetchSub s.pc + count (fun x => x == .fetchAdd) s.pc := by
    rw [← count_or (fun x hx => by cases x <;> first | rfl | cases hx)]
    exact count_congr fun t => by cases s.pc t <;> rfl
  have hpos : 0 < count (fun x => x == .fetchAdd) s.pc := count_pos.mpr ⟨c, by rw [hp]; rfl⟩
  have hcounter := h.counter
  omega

theorem inv_step (hfit : total.toInt + Fintype.card C ≤ 2 ^ 31) (h : Inv total s) (hs : step total s c = some s') :
    Inv total s' := by
  cases turn_step hs with
  | load hp hlt =>
    have hopen : (s.granted : Int) ≠ total.toInt := (h.granted_lt hlt).ne
    exact h.move hp rfl h.granted rfl rfl (closed_move h.closed nofun) fun heq => absurd heq hopen
  | leave hp hge =>
    have heq := h.granted_eq hge
    exact h.move hp rfl h.granted rfl rfl (closed_move h.closed fun _ => heq) fun _ => awake_move rfl
  | grant hp hlt =>
    have hopen := h.granted_lt hlt
    have hroom : s.consumedCount.toInt + 1 < 2 ^ 31 := by
      have htotal := total.toInt_lt
      rw [Int32.lt_iff_toInt_lt] at hlt
      omega
    have hnone : ∀ u, s.pc u = .fetchSub ∨ s.pc u = .exited → ((s.granted + 1 : Nat) : Int) = total.toInt :=
      fun u hu => absurd (h.closed u hu) hopen.ne
    refine h.move hp ?_ (by omega) ?_ rfl ?_ fun _ => awake_move rfl
    · rw [toInt_succ hroom]
      simp only [Pc.isFetchSub, Bool.toNat_false]
      omega
    · simp only [State.goto, Pc.isConsume, Bool.toNat_false, Bool.toNat_true]
      omega
    · exact closed_move (s := { s with granted := s.granted + 1 }) hnone nofun
  | refuse hp hge =>
    have heq := h.granted_eq hge
    obtain ⟨u, hu⟩ := h.awake heq
    have huc : u ≠ c := by
      intro huc
      rw [huc, hp] at hu
      cases hu
    refine h.move hp ?_ h.granted rfl rfl (closed_move h.closed fun _ => heq) fun _ => ⟨u, ?_⟩
    · rw [toInt_succ (h.room hfit hp heq)]
      simp only [State.goto, Pc.isFetchSub, Bool.toNat_false, Bool.toNat_true]
      omega
    · rw [Function.update_of_ne huc, hu]
  | start hp =>
    refine h.move hp rfl h.granted ?_ ?_ (closed_move h.closed nofun) fun _ => awake_move rfl
    · simp only [State.goto, Pc.isConsume, Bool.toNat_false, Bool.toNat_true]
      omega
    · simp only [State.goto, Pc.isConsuming, Bool.toNat_false, Bool.toNat_true]
      omega
  | finish hp =>
    refine h.move hp rfl h.granted rfl ?_ (closed_move h.closed nofun) fun _ => awake_move rfl
    simp only [State.goto, Pc.isConsuming, Bool.toNat_false, Bool.toNat_true]
    omega
  | undo hp =>
    have heq := h.closed c (Or.inl hp)
    have hpos : 0 < count Pc.isFetchSub s.pc := count_pos.mpr ⟨c, by rw [hp]; rfl⟩
    have hcounter := h.counter
    refine h.move hp ?_ h.granted rfl rfl (closed_move h.closed fun _ => heq) fun _ => awake_move rfl
    rw [toInt_pred (by omega)]
    simp only [State.goto, Pc.isFetchSub, Bool.toNat_false, Bool.toNat_true]
    omega

theorem inv_reachable [Nonempty C] (h0 : 0 ≤ total.toInt) (hfit : total.toInt + Fintype.card C ≤ 2 ^ 31)
    (h : (tickets C total).Reachable s) : Inv total s :=
  h.inv (inv_init h0) fun _ _ _ hi hs => inv_step hfit hi hs

/-- No more calls than tickets; a consumer leaves when all tickets are granted; when all have left,
as many items were consumed and the counter says so. -/
structure TicketsOk (total : Int32) (s : State C) : Prop where
  started : (s.started : Int) ≤ total.toInt
  leaves : ∀ c, s.pc c = .exited → (s.granted : Int) = total.toInt
  all : (∀ c, s.pc c = .exited) → (s.consumed : Int) = total.toInt ∧ s.consumedCount = total

omit [DecidableEq C] in
/-- When all have left, every ticket has become a call, and every call has returned. -/
theorem Inv.exited [Nonempty C] (h : Inv total s) (hall : ∀ c, s.pc c = .exited) :
    (s.started : Int) = total.toInt ∧ (s.consumed : Int) = total.toInt ∧ s.consumedCount = total := by
  have heq := h.closed (Classical.arbitrary C) (Or.inr (hall _))
  have hzero : ∀ p : Pc → Bool, p .exited = false → count p s.pc = 0 := by
    intro p hp
    exact count_eq_zero.mpr fun u => by rw [hall u, hp]
  have hstarted := h.started
  have hconsumed := h.consumed
  have hcounter := h.counter
  rw [hzero _ rfl] at hstarted hconsumed hcounter
  exact ⟨by omega, by omega, Int32.toInt_inj.mp (by omega)⟩

omit [DecidableEq C] in
theorem Inv.ok [Nonempty C] (h : Inv total s) : TicketsOk total s where
  started := by
    have hle := h.granted
    have hstarted := h.started
    omega
  leaves := fun c hc => h.closed c (Or.inr hc)
  all := fun hall => (h.exited hall).2

end

/-! ## The counter wraps around -/

def rounds (n : Nat) : State Bool := { consumedCount := Int32.ofNat n, granted := n, started := n, consumed := n }

theorem rounds_reachable {total : Int32} {n : Nat} (h : n ≤ total.toInt) :
    (tickets Bool total).Reachable (rounds n) := by
  induction n with
  | zero => exact .init
  | succ n ih =>
    have hbound := total.toInt_lt
    have hlt : Int32.ofNat n < total := by
      rw [Int32.lt_iff_toInt_lt, Int32.toInt_ofNat_of_lt (by omega)]
      omega
    refine System.reachable_of_run [false, false, false, false] (ih (by omega)) ?_
    simp [System.run, tickets, step, rounds, State.goto, hlt, Int32.ofNat_add]

/-- The last ticket is granted, the other consumer makes the counter wrap, and the first takes one more. -/
theorem overshoot {total a : Int32} (n : Nat) (h : a < total) (hlast : ¬ a + 1 < total)
    (hwrap : a + 1 + 1 < total) :
    ∃ s, (tickets Bool total).run { consumedCount := a, granted := n, started := n, consumed := n }
      [true, false, false, true, false, false, false, false, false] = some s ∧ s.started = n + 2 := by
  simp [System.run, tickets, step, State.goto, h, hlast, hwrap]

/-- With no consumers nothing is consumed, and with two that share `2 ^ 31 - 1` tickets one is granted too many. -/
theorem tickets_fail :
    ¬ TicketsOk 1 (tickets Empty 1).init ∧
      ∃ s, (tickets Bool Int32.maxValue).Reachable s ∧ ¬ TicketsOk Int32.maxValue s := by
  constructor
  · intro h
    have hall := (h.all nofun).1
    cases hall
  · have hlt : Int32.ofNat 2147483646 < Int32.maxValue := by decide
    obtain ⟨s, hrun, hs⟩ := overshoot 2147483646 hlt (by decide) (by decide)
    refine ⟨s, System.reachable_of_run _ (rounds_reachable (n := 2147483646) (by decide)) hrun, fun h => ?_⟩
    have hstarted := h.started
    have hmax : Int32.maxValue.toInt = 2147483647 := by decide
    omega

end Playground.Tickets
