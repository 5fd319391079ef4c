import Playground.Lib.Transition

/-!
# Graceful shutdown (`systems/linux/signal_handling.cpp`)

The main program runs with its handlers installed, and signals come in between
any two of its steps. A handler is one step: all it does besides its message is
to set a flag.
-/

namespace Playground.SignalHandling

inductive Signal
  | sigint
  | sigterm
  | sigusr1
  | sigpipe
  deriving DecidableEq

/-- What the main program does next. -/
inductive Pc
  | kill
  | test
  | testReload
  | reload
  | reset
  | work
  | sleep
  | done
  deriving DecidableEq

structure State where
  shutdownRequested : Bool := false
  reloadRequested : Bool := false
  iteration : Nat := 0
  pc : Pc := .kill
  /-- The iteration at the first request to shut down. -/
  shutdownAt : Option Nat := none
  /-- How many reload requests found the flag clear. -/
  requests : Nat := 0
  reloads : Nat := 0
  /-- There has been a reload since the last request for one. -/
  answered : Bool := true
  /-- A request has come between a reload and the reset that follows it, and no reload since. -/
  missed : Bool := false
  deriving DecidableEq

namespace State

variable (s : State)

def handleShutdown : State := { s with shutdownRequested := true, shutdownAt := s.shutdownAt.or (some s.iteration) }

def handleSIGUSR1 : State :=
  { s with
    reloadRequested := true
    requests := if s.reloadRequested then s.requests else s.requests + 1
    answered := false
    missed := s.missed || s.pc = .reset }

def handle : Signal → State
  | .sigint | .sigterm => s.handleShutdown
  | .sigusr1 => s.handleSIGUSR1
  | .sigpipe => s

/-- The next step of `main`. A signal that a program sends to itself comes before `kill` returns. -/
def main : Option State :=
  match s.pc with
  | .kill => some { s.handleSIGUSR1 with pc := .test }
  | .test => some { s with pc := if !s.shutdownRequested && s.iteration < 3 then .testReload else .done }
  | .testReload => some { s with pc := if s.reloadRequested then .reload else .work }
  | .reload => some { s with reloads := s.reloads + 1, answered := true, missed := false, pc := .reset }
  | .reset => some { s with reloadRequested := false, pc := .work }
  | .work => some { s with iteration := s.iteration + 1, pc := .sleep }
  | .sleep => some { s with pc := .test }
  | .done => none

end State

inductive Act
  | signal (sig : Signal)
  | main
  deriving DecidableEq

def step (s : State) : Act → Option State
  | .signal sig => if s.pc = .done then none else some (s.handle sig)
  | .main => s.main

def process : System State Act where
  init := {}
  step := step

/-! ## The invariant -/

def Pc.inBody : Pc → Bool
  | .testReload | .reload | .reset | .work => true
  | .kill | .test | .sleep | .done => false

structure Inv (s : State) : Prop where
  le : s.iteration ≤ 3
  body : s.pc.inBody = true → s.iteration < 3
  start : s.pc = .kill → s.iteration = 0
  done : s.pc = .done → s.shutdownRequested = true ∨ s.iteration = 3
  seen : s.pc = .reload ∨ s.pc = .reset → s.reloadRequested = true
  /-- Every request that found the flag clear has been answered, unless the flag still says so. -/
  counted : s.requests = s.reloads + if s.reloadRequested ∧ s.pc ≠ .reset then 1 else 0
  unanswered : s.answered = false → s.missed = true ∨ s.reloadRequested = true ∧ s.pc ≠ .reset
  missed : s.missed = true → s.answered = false
  requested : s.shutdownRequested = s.shutdownAt.isSome
  shutdown : ∀ k ∈ s.shutdownAt, s.iteration = k ∨ s.iteration = k + 1 ∧ s.pc.inBody = false ∧ s.pc ≠ .kill

theorem inv_init : Inv process.init where
  le := by decide
  body := nofun
  start _ := rfl
  done := nofun
  seen := by decide
  counted := rfl
  unanswered := nofun
  missed := nofun
  requested := rfl
  shutdown := nofun

theorem Inv.handleShutdown {s : State} (h : Inv s) (hpc : s.pc ≠ .done) : Inv s.handleShutdown where
  le := h.le
  body := h.body
  start := h.start
  done hd := absurd hd hpc
  seen := h.seen
  counted := h.counted
  unanswered := h.unanswered
  missed := h.missed
  requested := by cases hs : s.shutdownAt <;> simp [State.handleShutdown, hs]
  shutdown k hk := by
    cases hs : s.shutdownAt with
    | none => simp [State.handleShutdown, hs] at hk; exact .inl hk
    | some j =>
      simp [State.handleShutdown, hs] at hk
      exact h.shutdown k (by rw [hs, hk]; rfl)

theorem Inv.handleSIGUSR1 {s : State} (h : Inv s) : Inv s.handleSIGUSR1 where
  le := h.le
  body := h.body
  start := h.start
  done := h.done
  seen _ := rfl
  counted := by
    have hc := h.counted
    have hs := h.seen
    cases hr : s.reloadRequested with
    | true => simpa [State.handleSIGUSR1, hr] using hc
    | false =>
      have hreset : s.pc ≠ .reset := fun hp => by simp [hr, hp] at hs
      simpa [State.handleSIGUSR1, hr, hreset] using hc
  unanswered _ := by
    by_cases hp : s.pc = .reset
    · exact .inl (by simp [State.handleSIGUSR1, hp])
    · exact .inr ⟨rfl, hp⟩
  missed _ := rfl
  requested := h.requested
  shutdown := h.shutdown

theorem Inv.handle {s : State} (h : Inv s) (hpc : s.pc ≠ .done) (sig : Signal) : Inv (s.handle sig) := by
  cases sig with
  | sigint => exact h.handleShutdown hpc
  | sigterm => exact h.handleShutdown hpc
  | sigusr1 => exact h.handleSIGUSR1
  | sigpipe => exact h

/-- A step that only goes on, to a place where nothing more is known. -/
theorem Inv.goto {s : State} (h : Inv s) (hpc : s.pc ≠ .reset) {pc : Pc}
    (hbody : pc.inBody = true → s.iteration < 3) (hkill : pc ≠ .kill) (hreset : pc ≠ .reset)
    (hreload : pc = .reload → s.reloadRequested = true)
    (hdone : pc = .done → s.shutdownRequested = true ∨ s.iteration = 3)
    (hshutdown : pc.inBody = true → s.pc.inBody = true ∨ s.shutdownRequested = false) : Inv { s with pc } where
  le := h.le
  body := hbody
  start hp := absurd hp hkill
  done := hdone
  seen hp := hp.elim hreload fun hp => absurd hp hreset
  counted := by simpa [hpc, hreset] using h.counted
  unanswered ha := (h.unanswered ha).imp_right fun hr => ⟨hr.1, hreset⟩
  missed := h.missed
  requested := h.requested
  shutdown k hk := by
    rcases h.shutdown k hk with heq | ⟨heq, hb, _⟩
    · exact .inl heq
    · refine .inr ⟨heq, Bool.eq_false_iff.mpr fun hbody => ?_, hkill⟩
      rcases hshutdown hbody with hb' | hs
      · rw [hb] at hb'
        cases hb'
      · rw [h.requested, hk] at hs
        cases hs

/-- In the body of the loop, a shutdown that was requested was requested in this iteration. -/
theorem Inv.shutdown_body {s : State} (h : Inv s) (hb : s.pc.inBody = true) :
    ∀ k ∈ s.shutdownAt, s.iteration = k := by
  intro k hk
  rcases h.shutdown k hk with heq | ⟨_, hnot, _⟩
  · exact heq
  · rw [hb] at hnot
    cases hnot

theorem Inv.main {s s' : State} (h : Inv s) (hs : s.main = some s') : Inv s' := by
  unfold State.main at hs
  cases hpc : s.pc with
  | kill =>
    rw [hpc] at hs
    obtain rfl := Option.some.inj hs
    exact h.handleSIGUSR1.goto (by simp [State.handleSIGUSR1, hpc]) nofun nofun nofun nofun nofun nofun
  | test =>
    rw [hpc] at hs
    obtain rfl := Option.some.inj hs
    have hle := h.le
    by_cases hgo : s.shutdownRequested = false ∧ s.iteration < 3
    · rw [if_pos (by simp [hgo])]
      exact h.goto (by simp [hpc]) (fun _ => hgo.2) nofun nofun nofun nofun fun _ => .inr hgo.1
    · rw [if_neg (by simpa using hgo)]
      refine h.goto (by simp [hpc]) nofun nofun nofun nofun (fun _ => ?_) nofun
      cases hs : s.shutdownRequested with
      | true => exact .inl rfl
      | false => exact .inr (by simp [hs] at hgo; omega)
  | testReload =>
    rw [hpc] at hs
    obtain rfl := Option.some.inj hs
    have hlt := h.body (by rw [hpc]; rfl)
    have hbody : s.pc.inBody = true := by rw [hpc]; rfl
    split
    · rename_i hr
      exact h.goto (by simp [hpc]) (fun _ => hlt) nofun nofun (fun _ => hr) nofun fun _ => .inl hbody
    · exact h.goto (by simp [hpc]) (fun _ => hlt) nofun nofun nofun nofun fun _ => .inl hbody
  | reload =>
    rw [hpc] at hs
    obtain rfl := Option.some.inj hs
    have hbody : s.pc.inBody = true := by rw [hpc]; rfl
    have hreload := h.seen (.inl hpc)
    refine ⟨h.le, fun _ => h.body hbody, nofun, nofun, fun _ => hreload, ?_, nofun, nofun, h.requested,
      fun k hk => .inl (h.shutdown_body hbody k hk)⟩
    simpa [hreload, hpc] using h.counted
  | reset =>
    rw [hpc] at hs
    obtain rfl := Option.some.inj hs
    have hbody : s.pc.inBody = true := by rw [hpc]; rfl
    refine ⟨h.le, fun _ => h.body hbody, nofun, nofun, nofun, ?_, fun ha => ?_, h.missed, h.requested,
      fun k hk => .inl (h.shutdown_body hbody k hk)⟩
    · simpa [hpc] using h.counted
    · exact .inl ((h.unanswered ha).resolve_right fun hr => hr.2 hpc)
  | work =>
    rw [hpc] at hs
    obtain rfl := Option.some.inj hs
    have hbody : s.pc.inBody = true := by rw [hpc]; rfl
    refine ⟨h.body hbody, nofun, nofun, nofun, nofun, ?_, fun ha =>
      (h.unanswered ha).imp_right fun hr => ⟨hr.1, nofun⟩,
      h.missed, h.requested, fun k hk => .inr ⟨congrArg (· + 1) (h.shutdown_body hbody k hk), rfl, nofun⟩⟩
    simpa [hpc] using h.counted
  | sleep =>
    rw [hpc] at hs
    obtain rfl := Option.some.inj hs
    exact h.goto (by simp [hpc]) nofun nofun nofun nofun nofun nofun
  | done =>
    rw [hpc] at hs
    cases hs

theorem Inv.step {s s' : State} (h : Inv s) {act : Act} (hs : step s act = some s') : Inv s' := by
  cases act with
  | signal sig =>
    rw [SignalHandling.step] at hs
    split at hs
    · cases hs
    · rename_i hpc
      obtain rfl := Option.some.inj hs
      exact h.handle hpc sig
  | main => exact h.main hs

/-! ## How long it takes -/

/-- How many steps `main` has left, at most. -/
def rank (s : State) : Nat :=
  match s.pc with
  | .kill => 20
  | .test => (3 - s.iteration) * 6 + 1
  | .testReload => (3 - s.iteration) * 6
  | .reload => (3 - s.iteration) * 6 - 1
  | .reset => (3 - s.iteration) * 6 - 2
  | .work => (3 - s.iteration) * 6 - 3
  | .sleep => (3 - s.iteration) * 6 + 2
  | .done => 0

theorem rank_handle (s : State) (sig : Signal) : rank (s.handle sig) = rank s := by
  cases sig <;> rfl

theorem rank_of {s : State} {pc : Pc} (hpc : s.pc = pc) : rank s = rank { s with pc } := by rw [← hpc]

theorem Inv.rank_main {s s' : State} (h : Inv s) (hs : s.main = some s') : rank s' < rank s := by
  unfold State.main at hs
  cases hpc : s.pc with
  | kill =>
    rw [hpc] at hs
    obtain rfl := Option.some.inj hs
    rw [rank_of hpc]
    show (3 - s.iteration) * 6 + 1 < 20
    omega
  | test =>
    rw [hpc] at hs
    obtain rfl := Option.some.inj hs
    rw [rank_of hpc]
    split
    · show (3 - s.iteration) * 6 < (3 - s.iteration) * 6 + 1
      omega
    · show 0 < (3 - s.iteration) * 6 + 1
      omega
  | testReload =>
    rw [hpc] at hs
    obtain rfl := Option.some.inj hs
    have hlt := h.body (by rw [hpc]; rfl)
    rw [rank_of hpc]
    split
    · show (3 - s.iteration) * 6 - 1 < (3 - s.iteration) * 6
      omega
    · show (3 - s.iteration) * 6 - 3 < (3 - s.iteration) * 6
      omega
  | reload =>
    rw [hpc] at hs
    obtain rfl := Option.some.inj hs
    have hlt := h.body (by rw [hpc]; rfl)
    rw [rank_of hpc]
    show (3 - s.iteration) * 6 - 2 < (3 - s.iteration) * 6 - 1
    omega
  | reset =>
    rw [hpc] at hs
    obtain rfl := Option.some.inj hs
    have hlt := h.body (by rw [hpc]; rfl)
    rw [rank_of hpc]
    show (3 - s.iteration) * 6 - 3 < (3 - s.iteration) * 6 - 2
    omega
  | work =>
    rw [hpc] at hs
    obtain rfl := Option.some.inj hs
    have hlt := h.body (by rw [hpc]; rfl)
    rw [rank_of hpc]
    show (3 - (s.iteration + 1)) * 6 + 2 < (3 - s.iteration) * 6 - 3
    omega
  | sleep =>
    rw [hpc] at hs
    obtain rfl := Option.some.inj hs
    rw [rank_of hpc]
    show (3 - s.iteration) * 6 + 1 < (3 - s.iteration) * 6 + 2
    omega
  | done =>
    rw [hpc] at hs
    cases hs

theorem run_main_le {s s' : State} (h : Inv s) (acts : List Act) (hrun : process.run s acts = some s') :
    acts.count .main + rank s' ≤ rank s := by
  induction acts generalizing s with
  | nil =>
    obtain rfl := Option.some.inj hrun
    simp
  | cons act acts ih =>
    obtain ⟨t, ht, hrun⟩ := Option.bind_eq_some_iff.mp hrun
    have hrest := ih (h.step ht) hrun
    cases act with
    | main =>
      have hlt := h.rank_main ht
      rw [List.count_cons_self]
      omega
    | signal sig =>
      have hsig : rank t = rank s := by
        change step s (.signal sig) = some t at ht
        rw [step] at ht
        split at ht
        · cases ht
        · obtain rfl := Option.some.inj ht
          exact rank_handle s sig
      have hne : Act.signal sig ≠ .main := by
        intro heq
        cases heq
      rw [List.count_cons_of_ne hne]
      omega

theorem main_isSome {s : State} (h : s.pc ≠ .done) : s.main.isSome := by
  unfold State.main
  cases hpc : s.pc with
  | done => exact absurd hpc h
  | kill => rfl
  | test => rfl
  | testReload => rfl
  | reload => rfl
  | reset => rfl
  | work => rfl
  | sleep => rfl

theorem step_done {s : State} (h : s.pc = .done) (act : Act) : process.step s act = none := by
  cases act with
  | signal sig => exact if_pos h
  | main => simp [process, step, State.main, h]

/-- Whatever signals come when: the program never gets stuck, ends after at most 20 steps of its own, and only after
3 iterations or a request to shut down, which it follows by at most one more iteration. A request to reload that
finds the flag clear is answered by one reload, or it is pending, and stays so if the program ends; one is missed if
and only if it comes between a reload and the reset of the flag. -/
theorem process_run (acts : List Act) (s : State) (hrun : process.run process.init acts = some s) :
    acts.count .main ≤ 20 ∧ (s.pc ≠ .done → s.main.isSome) ∧
      (s.pc = .done → (s.iteration = 3 ∨ s.shutdownRequested = true) ∧ ∀ act, process.step s act = none) ∧
      (∀ k ∈ s.shutdownAt, s.iteration ≤ k + 1) ∧
      s.requests = s.reloads + (if s.reloadRequested ∧ s.pc ≠ .reset then 1 else 0) ∧
      (s.reloadRequested = false → (s.answered = false ↔ s.missed = true)) := by
  have h : Inv s := (System.reachable_of_run acts .init hrun).inv inv_init fun s act s' h hs => h.step hs
  have hcount := run_main_le inv_init acts hrun
  refine ⟨?_, main_isSome, fun hd => ⟨(h.done hd).symm, step_done hd⟩, fun k hk => ?_, h.counted,
    fun hr => ⟨fun ha => ?_, h.missed⟩⟩
  · have hinit : rank process.init = 20 := rfl
    omega
  · rcases h.shutdown k hk with heq | ⟨heq, _⟩
    · omega
    · omega
  · rcases h.unanswered ha with hm | ⟨hr', _⟩
    · exact hm
    · rw [hr] at hr'
      cases hr'

/-- A reload is asked for in the middle of the first one. -/
def missedRequest : List Act := [.main, .main, .main, .main, .signal .sigusr1, .main]

theorem process_run_missed : ∃ s, process.run process.init missedRequest = some s ∧ s.missed = true ∧
    s.reloadRequested = false ∧ missedRequest.count .main ≤ 20 := by
  refine ⟨_, rfl, rfl, rfl, ?_⟩
  exact (process_run missedRequest _ rfl).1

end Playground.SignalHandling
