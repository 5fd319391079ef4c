import Playground.Lib.Handles
import Playground.Lib.Machine

/-!
# Descriptors closed by their owners

`Socket` of `systems/networking/tcp_server.cpp` and `FileDescriptor` of
`systems/networking/epoll_server.cpp` hold a descriptor, or a negative number.
They differ in the move assignment, which only one of them guards against
assignment to itself. The kernel hands out descriptors that are not open; to
close one that is not open is a fault (`none`), since it may be somebody else's
by then.
-/

namespace Playground.Descriptors

open Handles

/-- Who answers for a descriptor: an object, or who called `release`. -/
inductive Owner (N : Type)
  | object (n : N)
  | caller (fd : Nat)
  deriving DecidableEq

structure State (N : Type) where
  objects : N → Option Int
  callers : Nat → Bool
  opened : Nat → Bool

inductive Op (N : Type)
  | accept (n : N)
  | socket (n : N)
  | empty (n : N)
  | wrap (n : N) (fd : Nat)
  | moveConstruct (n other : N)
  | moveAssign (n other : N)
  | release (n : N)
  | fd (n : N)
  | destroy (n : N)

inductive Out
  | done
  | threw
  | fd (fd : Int)
  deriving DecidableEq

section
variable {N : Type} [DecidableEq N]

/-- `if (fd_ >= 0) ::close(fd_)` -/
def closeFd (opened : Nat → Bool) (fd : Int) : Option (Nat → Bool) :=
  if 0 ≤ fd then
    if opened fd.toNat then some (Function.update opened fd.toNat false) else none
  else some opened

/-- What `socket` and `accept` return. -/
def newFd (kernel : Source Unit Nat) (opened : Nat → Bool) : Int × (Nat → Bool) :=
  match kernel.pick opened () with
  | some fd => (fd, Function.update opened fd true)
  | none => (-1, opened)

/-- `Socket(accept(..))` -/
def State.accept (kernel : Source Unit Nat) (s : State N) (n : N) : Option (State N × Out) :=
  match s.objects n with
  | none =>
    let p := newFd kernel s.opened
    some (⟨Function.update s.objects n (some p.1), s.callers, p.2⟩, .done)
  | some _ => none

/-- `Socket(domain, type, protocol)` -/
def State.socket (kernel : Source Unit Nat) (s : State N) (n : N) : Option (State N × Out) :=
  match s.objects n with
  | none =>
    let p := newFd kernel s.opened
    if p.1 < 0 then some (s, .threw)
    else some (⟨Function.update s.objects n (some p.1), s.callers, p.2⟩, .done)
  | some _ => none

/-- `FileDescriptor()` -/
def State.empty (s : State N) (n : N) : Option (State N × Out) :=
  match s.objects n with
  | none => some (⟨Function.update s.objects n (some (-1)), s.callers, s.opened⟩, .done)
  | some _ => none

/-- `FileDescriptor(fd)`, with a descriptor that the caller has. -/
def State.wrap (s : State N) (n : N) (fd : Nat) : Option (State N × Out) :=
  match s.objects n with
  | none =>
    some (⟨Function.update s.objects n (some (fd : Int)), Function.update s.callers fd false, s.opened⟩, .done)
  | some _ => none

def State.moveConstruct (s : State N) (n other : N) : Option (State N × Out) :=
  match s.objects n, s.objects other with
  | none, some fd =>
    some (⟨Function.update (Function.update s.objects n (some fd)) other (some (-1)), s.callers, s.opened⟩, .done)
  | _, _ => none

def Socket.moveAssign (s : State N) (n other : N) : Option (State N × Out) :=
  match s.objects n, s.objects other with
  | some mine, some fd =>
    if n = other then some (s, .done)
    else (closeFd s.opened mine).map fun opened =>
      (⟨Function.update (Function.update s.objects n (some fd)) other (some (-1)), s.callers, opened⟩, .done)
  | _, _ => none

def FileDescriptor.moveAssign (s : State N) (n other : N) : Option (State N × Out) :=
  match s.objects n, s.objects other with
  | some mine, some fd => (closeFd s.opened mine).map fun opened =>
      (⟨Function.update (Function.update s.objects n (some fd)) other (some (-1)), s.callers, opened⟩, .done)
  | _, _ => none

def State.release (s : State N) (n : N) : Option (State N × Out) :=
  match s.objects n with
  | some fd =>
    some (⟨Function.update s.objects n (some (-1)),
      if 0 ≤ fd then Function.update s.callers fd.toNat true else s.callers, s.opened⟩, .fd fd)
  | none => none

def State.destroy (s : State N) (n : N) : Option (State N × Out) :=
  match s.objects n with
  | some fd => (closeFd s.opened fd).map fun opened =>
    (⟨Function.update s.objects n none, s.callers, opened⟩, .done)
  | none => none

def step (kernel : Source Unit Nat) (moveAssign : State N → N → N → Option (State N × Out)) (s : State N) :
    Op N → Option (State N × Out)
  | .accept n => s.accept kernel n
  | .socket n => s.socket kernel n
  | .empty n => s.empty n
  | .wrap n fd => s.wrap n fd
  | .moveConstruct n other => s.moveConstruct n other
  | .moveAssign n other => moveAssign s n other
  | .release n => s.release n
  | .fd n => (s.objects n).map fun fd => (s, .fd fd)
  | .destroy n => s.destroy n

def owners (kernel : Source Unit Nat) (moveAssign : State N → N → N → Option (State N × Out)) :
    Machine (State N) (Op N) Out where
  init := ⟨fun _ => none, fun _ => false, fun _ => false⟩
  step := step kernel moveAssign

def sockets (kernel : Source Unit Nat) : Machine (State N) (Op N) Out := owners kernel Socket.moveAssign

def fileDescriptors (kernel : Source Unit Nat) : Machine (State N) (Op N) Out :=
  owners kernel FileDescriptor.moveAssign

/-- A use of objects that exist; a descriptor that is wrapped is the caller's. -/
def Legal (s : State N) : Op N → Prop
  | .accept n | .socket n | .empty n => s.objects n = none
  | .wrap n fd => s.objects n = none ∧ s.callers fd = true
  | .moveConstruct n other => s.objects n = none ∧ ∃ fd, s.objects other = some fd
  | .moveAssign n other => (∃ fd, s.objects n = some fd) ∧ ∃ fd, s.objects other = some fd
  | .release n | .fd n | .destroy n => ∃ fd, s.objects n = some fd

/-! ## Each descriptor has one owner -/

def held (fd : Int) : Option Nat := if 0 ≤ fd then some fd.toNat else none

def State.holds (s : State N) : Owner N → Option Nat
  | .object n => (s.objects n).bind held
  | .caller fd => if s.callers fd then some fd else none

variable {s : State N} {n other : N} {fd mine : Int} {k : Nat} {opened : Nat → Bool}

theorem holds_object (s : State N) (n : N) (ob : Option Int) (opened : Nat → Bool) :
    State.holds ⟨Function.update s.objects n ob, s.callers, opened⟩ =
    Function.update s.holds (.object n) (ob.bind held) := by
  funext o
  cases o with
  | object m =>
    by_cases hm : m = n
    · subst hm
      simp [State.holds]
    · rw [Function.update_of_ne (by simpa using hm)]
      simp [State.holds, hm]
  | caller k => rw [Function.update_of_ne (by simp)]; rfl

theorem holds_caller (s : State N) (k : Nat) (b : Bool) (opened : Nat → Bool) :
    State.holds ⟨s.objects, Function.update s.callers k b, opened⟩ =
    Function.update s.holds (.caller k) (if b then some k else none) := by
  funext o
  cases o with
  | object m => rw [Function.update_of_ne (by simp)]; rfl
  | caller j =>
    by_cases hj : j = k
    · subst hj
      simp [State.holds]
    · rw [Function.update_of_ne (by simpa using hj)]
      simp [State.holds, hj]

omit [DecidableEq N] in
theorem holds_of (h : s.objects n = some fd) : s.holds (.object n) = held fd := by simp [State.holds, h]

theorem held_of_neg (h : ¬ 0 ≤ fd) : held fd = none := if_neg h

theorem held_natCast : held (k : Int) = some k := by simp [held]

abbrev Owned (s : State N) : Prop := Handles.Owned s.holds s.opened

/-- Closing what an object holds is no fault. -/
theorem Owned.close (h : Owned s) (hn : s.objects n = some fd) (ob : Option Int) (hob : ob.bind held = none) :
    ∃ opened, closeFd s.opened fd = some opened ∧ Owned ⟨Function.update s.objects n ob, s.callers, opened⟩ := by
  have hh := holds_of hn
  unfold closeFd
  by_cases h0 : 0 ≤ fd
  · rw [held, if_pos h0] at hh
    rw [if_pos h0, if_pos (h.held_live hh)]
    refine ⟨_, rfl, ?_⟩
    unfold Owned
    rw [holds_object, hob]
    exact Handles.Owned.free h hh
  · rw [held_of_neg h0] at hh
    rw [if_neg h0]
    refine ⟨_, rfl, ?_⟩
    unfold Owned
    rw [holds_object, hob, ← hh, Function.update_eq_self]
    exact h

theorem Owned.steal (h : Owned s) (hn : s.holds (.object n) = none) (ho : s.objects other = some fd)
    (hne : n ≠ other) :
    Owned ⟨Function.update (Function.update s.objects n (some fd)) other (some (-1)), s.callers, s.opened⟩ := by
  have hh := holds_of ho
  have hholds :=
    holds_object ⟨Function.update s.objects n (some fd), s.callers, s.opened⟩ other (some (-1)) s.opened
  unfold Owned
  rw [hholds, holds_object, Function.update_comm (by simpa using hne)]
  by_cases h0 : 0 ≤ fd
  · rw [held, if_pos h0] at hh
    have hnew : (some fd).bind held = some fd.toNat := if_pos h0
    rw [hnew]
    exact Handles.Owned.transfer h hn hh
  · rw [held_of_neg h0] at hh
    have hnew : (some fd).bind held = none := held_of_neg h0
    have hid : ∀ o, s.holds o = none → Function.update s.holds o none = s.holds := fun o ho => by
      rw [← ho, Function.update_eq_self]
    rw [hnew, show (some (-1 : Int)).bind held = none from rfl, hid _ hh, hid _ hn]
    exact h

/-- A new descriptor, or none, goes to an object that held none. -/
theorem Owned.accept {kernel : Source Unit Nat} (h : Owned s) (hn : s.holds (.object n) = none) :
    Owned ⟨Function.update s.objects n (some (newFd kernel s.opened).1), s.callers, (newFd kernel s.opened).2⟩ := by
  unfold Owned
  rw [holds_object]
  unfold newFd
  cases hp : kernel.pick s.opened () with
  | none =>
    rw [show (some (-1 : Int)).bind held = s.holds (.object n) from hn.symm, Function.update_eq_self]
    exact h
  | some fd =>
    rw [show (some (fd : Int)).bind held = some fd from held_natCast]
    exact Handles.Owned.acquire h hn (kernel.free _ _ _ hp)

theorem Owned.wrap (h : Owned s) (hn : s.holds (.object n) = none) (hk : s.callers k = true) :
    Owned ⟨Function.update s.objects n (some (k : Int)), Function.update s.callers k false, s.opened⟩ := by
  have hcaller : s.holds (.caller k) = some k := by simp [State.holds, hk]
  have hholds := holds_caller ⟨Function.update s.objects n (some (k : Int)), s.callers, s.opened⟩ k false s.opened
  unfold Owned
  rw [hholds, holds_object,
    Function.update_comm (by simp), show (some (k : Int)).bind held = some k from held_natCast]
  exact Handles.Owned.transfer h hn hcaller

theorem Owned.release (h : Owned s) (hn : s.objects n = some fd) :
    Owned ⟨Function.update s.objects n (some (-1)),
      if 0 ≤ fd then Function.update s.callers fd.toNat true else s.callers, s.opened⟩ := by
  have hh := holds_of hn
  unfold Owned
  by_cases h0 : 0 ≤ fd
  · rw [held, if_pos h0] at hh
    have hholds :=
      holds_caller ⟨Function.update s.objects n (some (-1)), s.callers, s.opened⟩ fd.toNat true s.opened
    have hcaller : s.holds (.caller fd.toNat) = none := by
      cases hc : s.callers fd.toNat with
      | false => simp [State.holds, hc]
      | true =>
        have := h.inj (.caller fd.toNat) (.object n) fd.toNat (by simp [State.holds, hc]) hh
        cases this
    rw [if_pos h0, hholds, holds_object]
    exact Handles.Owned.transfer h hcaller hh
  · rw [held_of_neg h0] at hh
    rw [if_neg h0, holds_object, show (some (-1 : Int)).bind held = s.holds (.object n) from hh.symm,
      Function.update_eq_self]
    exact h

/-! ## The operations -/

def Keeps (r : Option (State N × Out)) : Prop := ∃ s out, r = some (s, out) ∧ Owned s

theorem Owned.socket_moveAssign (h : Owned s) (hn : ∃ fd, s.objects n = some fd)
    (ho : ∃ fd, s.objects other = some fd) :
    Keeps (Socket.moveAssign s n other) := by
  obtain ⟨mine, hn⟩ := hn
  obtain ⟨fd, ho⟩ := ho
  by_cases hne : n = other
  · exact ⟨s, .done, by simp only [Socket.moveAssign, hn, ho, if_pos hne], h⟩
  · obtain ⟨opened, hc, hi⟩ := h.close hn (some (-1)) rfl
    have hnull : State.holds ⟨Function.update s.objects n (some (-1)), s.callers, opened⟩ (.object n) = none := by
      simp [State.holds, held]
    have ho' :
      Function.update s.objects n (some (-1)) other = some fd := by rw [Function.update_of_ne (Ne.symm hne), ho]
    have hi' := Owned.steal hi hnull ho' hne
    simp only [Function.update_idem] at hi'
    exact ⟨_, .done, by simp only [Socket.moveAssign, hn, ho, if_neg hne, hc]; rfl, hi'⟩

/-- An object that is assigned to itself loses its descriptor, which is closed. -/
theorem Owned.fileDescriptor_moveAssign (h : Owned s) (hn : ∃ fd, s.objects n = some fd)
    (ho : ∃ fd, s.objects other = some fd) : Keeps (FileDescriptor.moveAssign s n other) := by
  obtain ⟨mine, hn⟩ := hn
  obtain ⟨fd, ho⟩ := ho
  obtain ⟨opened, hc, hi⟩ := h.close hn (some (-1)) rfl
  by_cases hne : n = other
  · subst hne
    exact ⟨_, .done, by simp only [FileDescriptor.moveAssign, hn, hc, Function.update_idem]; rfl, hi⟩
  · have hnull : State.holds ⟨Function.update s.objects n (some (-1)), s.callers, opened⟩ (.object n) = none := by
      simp [State.holds, held]
    have ho' :
      Function.update s.objects n (some (-1)) other = some fd := by rw [Function.update_of_ne (Ne.symm hne), ho]
    have hi' := Owned.steal hi hnull ho' hne
    simp only [Function.update_idem] at hi'
    exact ⟨_, .done, by simp only [FileDescriptor.moveAssign, hn, ho, hc]; rfl, hi'⟩

omit [DecidableEq N] in
theorem holds_none (hn : s.objects n = none) : s.holds (.object n) = none := by simp [State.holds, hn]

theorem Owned.works {kernel : Source Unit Nat} {moveAssign : State N → N → N → Option (State N × Out)} (h : Owned s)
    (hmove : ∀ n other, (∃ fd, s.objects n = some fd) → (∃ fd, s.objects other = some fd) →
      Keeps (moveAssign s n other)) {op : Op N} (hl : Legal s op) : Keeps (step kernel moveAssign s op) := by
  cases op with
  | accept n =>
    have hn : s.objects n = none := hl
    exact ⟨_, .done, by simp only [step, State.accept, hn]; rfl, h.accept (holds_none hn)⟩
  | socket n =>
    have hn : s.objects n = none := hl
    by_cases hneg : (newFd kernel s.opened).1 < 0
    · exact ⟨s, .threw, by simp only [step, State.socket, hn, if_pos hneg], h⟩
    · exact ⟨_, .done, by simp only [step, State.socket, hn, if_neg hneg]; rfl, h.accept (holds_none hn)⟩
  | empty n =>
    have hn : s.objects n = none := hl
    refine ⟨_, .done, by simp only [step, State.empty, hn]; rfl, ?_⟩
    unfold Owned
    rw [holds_object, show (some (-1 : Int)).bind held = s.holds (.object n) from (holds_none hn).symm,
      Function.update_eq_self]
    exact h
  | wrap n fd => exact ⟨_, .done, by simp only [step, State.wrap, hl.1], h.wrap (holds_none hl.1) hl.2⟩
  | moveConstruct n other =>
    obtain ⟨hn, fd, ho⟩ := hl
    have hne : n ≠ other := by
      rintro rfl
      rw [hn] at ho
      cases ho
    exact ⟨_, .done, by simp only [step, State.moveConstruct, hn, ho], h.steal (holds_none hn) ho hne⟩
  | moveAssign n other => exact hmove n other hl.1 hl.2
  | release n =>
    obtain ⟨fd, hn⟩ := hl
    exact ⟨_, .fd fd, by simp only [step, State.release, hn], h.release hn⟩
  | fd n =>
    obtain ⟨fd, hn⟩ := hl
    exact ⟨s, .fd fd, by simp only [step, hn]; rfl, h⟩
  | destroy n =>
    obtain ⟨fd, hn⟩ := hl
    obtain ⟨opened, hc, hi⟩ := h.close hn none rfl
    exact ⟨_, .done, by simp only [step, State.destroy, hn, hc]; rfl, hi⟩

theorem owned_init (kernel : Source Unit Nat) (moveAssign : State N → N → N → Option (State N × Out)) :
    Owned (owners kernel moveAssign).init where
  inj o o' k ho := by cases o <;> cases ho
  live_iff k := by
    refine iff_of_false Bool.false_ne_true ?_
    rintro ⟨o, ho⟩
    cases o <;> cases ho

omit [DecidableEq N] in
/-- When no object is left, what is open is the callers'. -/
theorem Owned.no_leak (h : Owned s) (hempty : ∀ n, s.objects n = none) (hk : s.opened k = true) :
    s.callers k = true := by
  obtain ⟨o, ho⟩ := (h.live_iff k).mp hk
  cases o with
  | object n => simp [State.holds, hempty n] at ho
  | caller j =>
    simp only [State.holds] at ho
    obtain ⟨hj, ho⟩ := Option.ite_none_right_eq_some.mp ho
    exact Option.some.inj ho ▸ hj

theorem owners_run {kernel : Source Unit Nat} {moveAssign : State N → N → N → Option (State N × Out)}
    (hmove : ∀ (s : State N) n other, Owned s → (∃ fd, s.objects n = some fd) → (∃ fd, s.objects other = some fd) →
      Keeps (moveAssign s n other)) {ops : List (Op N)} (hg : (owners kernel moveAssign).Guarded Legal ops) :
    ∃ s, (owners kernel moveAssign).exec ops = some s ∧ Owned s ∧
      ((∀ n, s.objects n = none) → ∀ k, s.opened k = true → s.callers k = true) := by
  obtain ⟨s, he, ho⟩ := (owners kernel moveAssign).guarded_inv (P := Owned) (owned_init kernel moveAssign)
    (fun s op h hl => by
      obtain ⟨s', out, hs, h'⟩ := h.works (fun n other => hmove s n other h) hl
      exact ⟨s', out, hs, h'⟩) ops hg
  exact ⟨s, he, ho, fun hempty k hk => ho.no_leak hempty hk⟩

theorem moveAssign_of_ne (s : State N) {n other : N} (hne : n ≠ other) :
    Socket.moveAssign s n other = FileDescriptor.moveAssign s n other := by
  unfold Socket.moveAssign FileDescriptor.moveAssign
  cases s.objects n with
  | none => rfl
  | some mine =>
    cases s.objects other with
    | none => rfl
    | some fd => exact if_neg hne

/-- With either class no descriptor is closed twice, or by somebody it does not belong to, and none is lost.
Assigned to itself, a `Socket` keeps its descriptor and a `FileDescriptor` closes it; between two objects the
assignments are the same. -/
theorem descriptors_run (kernel : Source Unit Nat) (ops : List (Op N)) :
    ((sockets kernel).Guarded Legal ops → ∃ s, (sockets kernel).exec ops = some s ∧ Owned s ∧
      ((∀ n, s.objects n = none) → ∀ k, s.opened k = true → s.callers k = true)) ∧
    ((fileDescriptors kernel).Guarded Legal ops → ∃ s, (fileDescriptors kernel).exec ops = some s ∧ Owned s ∧
      ((∀ n, s.objects n = none) → ∀ k, s.opened k = true → s.callers k = true)) ∧
    (∀ (s : State N) (n : N) (k : Nat), Owned s → s.objects n = some (k : Int) →
      Socket.moveAssign s n n = some (s, .done) ∧
        FileDescriptor.moveAssign s n n =
          some (⟨Function.update s.objects n (some (-1)), s.callers, Function.update s.opened k false⟩, .done)) ∧
    ∀ (s : State N) (n other : N), n ≠ other →
      Socket.moveAssign s n other = FileDescriptor.moveAssign s n other := by
  refine ⟨fun hg => owners_run (fun s n other h => h.socket_moveAssign) hg,
    fun hg => owners_run (fun s n other h => h.fileDescriptor_moveAssign) hg, fun s n k h hn => ⟨?_, ?_⟩,
    fun s n other => moveAssign_of_ne s⟩
  · simp only [Socket.moveAssign, hn, if_pos]
  · have hopen := h.held_live ((holds_of hn).trans held_natCast)
    have hclose : closeFd s.opened k = some (Function.update s.opened k false) := by
      simp only [closeFd, Int.natCast_nonneg, if_true, Int.toNat_natCast, hopen]
    simp only [FileDescriptor.moveAssign, hn, hclose, Function.update_idem]
    rfl

end

/-- A kernel that hands out the least free descriptor below 4. -/
def fourDescriptors : Source Unit Nat := .least 4

/-- An assignment between two objects, one to itself, and the descriptor that is left, if any, goes to
the caller. -/
def assignTwice : List (Op Bool) :=
  [.accept false, .socket true, .moveAssign false true, .moveAssign false false, .release false, .destroy false,
    .destroy true]

theorem descriptors_run_assign :
    (∃ s, (sockets fourDescriptors).exec assignTwice = some s ∧ Owned s ∧ s.callers 1 = true) ∧
      ∃ s, (fileDescriptors fourDescriptors).exec assignTwice = some s ∧ Owned s ∧ s.callers 1 = false := by
  have hlegal : ∀ moveAssign, (moveAssign = Socket.moveAssign ∨ moveAssign = FileDescriptor.moveAssign) →
      (owners fourDescriptors moveAssign).Guarded Legal assignTwice := by
    rintro _ (rfl | rfl)
    all_goals
      refine ⟨rfl, ?_⟩
      rintro _ ⟨⟩
      refine ⟨rfl, ?_⟩
      rintro _ ⟨⟩
      refine ⟨⟨⟨_, rfl⟩, _, rfl⟩, ?_⟩
      rintro _ ⟨⟩
      refine ⟨⟨⟨_, rfl⟩, _, rfl⟩, ?_⟩
      rintro _ ⟨⟩
      refine ⟨⟨_, rfl⟩, ?_⟩
      rintro _ ⟨⟩
      refine ⟨⟨_, rfl⟩, ?_⟩
      rintro _ ⟨⟩
      refine ⟨⟨_, rfl⟩, ?_⟩
      rintro _ ⟨⟩
      trivial
  obtain ⟨hsockets, hdescriptors, -, -⟩ := descriptors_run fourDescriptors assignTwice
  obtain ⟨s, he, ho, -⟩ := hsockets (hlegal _ (.inl rfl))
  obtain ⟨t, he', ho', -⟩ := hdescriptors (hlegal _ (.inr rfl))
  refine ⟨⟨s, he, ho, ?_⟩, t, he', ho', ?_⟩
  · cases he
    rfl
  · cases he'
    rfl

end Playground.Descriptors
