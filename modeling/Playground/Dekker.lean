import Playground.Lib.Transition
import Playground.Lib.WeakMemory

/-!
# Dekker's pattern (`thread_a` and `thread_b` of `concurrency/memory_model.cpp`)

Each thread sets its own flag, reads the flag of the other one, and counts
itself if it finds it clear. The memory orders of the two stores and of the two
loads are parameters; the program has `seq_cst` for all four.
-/

namespace Playground.Dekker

open WeakMemory

inductive Thread
  | a
  | b
  deriving DecidableEq

/-- `flag_a`, `flag_b` and `observer_count`. -/
inductive Loc
  | flag (t : Thread)
  | observerCount
  deriving DecidableEq

abbrev Value : Loc → Type
  | .flag _ => Bool
  | .observerCount => BitVec 32

inductive Pc
  | store
  | load
  | add
  | returned (counted : Bool)
  deriving DecidableEq

structure State where
  memory : Memory Thread Loc Value
  pc : Thread → Pc

def State.goto (s : State) (t : Thread) (pc : Pc) (memory : Memory Thread Loc Value) : State :=
  ⟨memory, Function.update s.pc t pc⟩

/-- The next step of `t`, at the timestamp of the message stored or read. -/
def enter (t other : Thread) (stored loaded : Order) (s : State) (k : Nat) : Option State :=
  match s.pc t with
  | .store => (s.memory.store t (.flag t) stored k true).map (s.goto t .load)
  | .load => (s.memory.load t (.flag other) loaded k).map fun p =>
    s.goto t (if p.1 then .returned false else .add) p.2
  | .add => (s.memory.update t .observerCount .relaxed k (· + 1)).map fun p => s.goto t (.returned true) p.2
  | .returned _ => none

def threadA : Order → Order → State → Nat → Option State := enter .a .b

def threadB : Order → Order → State → Nat → Option State := enter .b .a

section
variable (storedA loadedA storedB loadedB : Order)

def step (s : State) : Thread × Nat → Option State
  | (.a, k) => threadA storedA loadedA s k
  | (.b, k) => threadB storedB loadedB s k

def cleared : (x : Loc) → Value x
  | .flag _ => false
  | .observerCount => 0

def threads : System State (Thread × Nat) where
  init := ⟨.start cleared, fun _ => .store⟩
  step := step storedA loadedA storedB loadedB

end

@[simp] theorem goto_memory (s : State) (t : Thread) (pc : Pc) (memory : Memory Thread Loc Value) :
    (s.goto t pc memory).memory = memory := rfl

@[simp] theorem goto_pc_self (s : State) (t : Thread) (pc : Pc) (memory : Memory Thread Loc Value) :
    (s.goto t pc memory).pc t = pc := Function.update_self ..

theorem goto_pc_of_ne (s : State) {t u : Thread} (pc : Pc) (memory : Memory Thread Loc Value) (h : u ≠ t) :
    (s.goto t pc memory).pc u = s.pc u := Function.update_of_ne h ..

/-! ## One step -/

inductive Turn (stored loaded : Order) (s : State) (t other : Thread) : State → Prop
  | store {k memory} (hpc : s.pc t = .store) (hm : s.memory.store t (.flag t) stored k true = some memory) :
      Turn stored loaded s t other (s.goto t .load memory)
  | load {k v memory} (hpc : s.pc t = .load) (hm : s.memory.load t (.flag other) loaded k = some (v, memory)) :
      Turn stored loaded s t other (s.goto t (if v then .returned false else .add) memory)
  | add {k v memory} (hpc : s.pc t = .add)
      (hm : s.memory.update t .observerCount .relaxed k (· + 1) = some (v, memory)) :
      Turn stored loaded s t other (s.goto t (.returned true) memory)

section
variable {stored loaded storedA loadedA storedB loadedB : Order} {s s' : State} {t other : Thread}

theorem turn_enter {k : Nat} (h : enter t other stored loaded s k = some s') : Turn stored loaded s t other s' := by
  unfold enter at h
  split at h
  · rename_i hpc
    obtain ⟨memory, hm, rfl⟩ := Option.map_eq_some_iff.mp h
    exact .store hpc hm
  · rename_i hpc
    obtain ⟨⟨v, memory⟩, hm, rfl⟩ := Option.map_eq_some_iff.mp h
    exact .load hpc hm
  · rename_i hpc
    obtain ⟨⟨v, memory⟩, hm, rfl⟩ := Option.map_eq_some_iff.mp h
    exact .add hpc hm
  · cases h

theorem turn_step {i : Thread × Nat} (h : step storedA loadedA storedB loadedB s i = some s') :
    Turn storedA loadedA s .a .b s' ∨ Turn storedB loadedB s .b .a s' := by
  obtain ⟨t, k⟩ := i
  cases t with
  | a => exact .inl (turn_enter h)
  | b => exact .inr (turn_enter h)

/-! ## Sequential consistency -/

/-- The thread has found the flag of the other one clear. -/
def Pc.entered : Pc → Bool
  | .add | .returned true => true
  | .store | .load | .returned false => false

/-- A flag that is set reads as set, for the loads that are sequentially consistent. -/
structure Inv (s : State) : Prop where
  set : ∀ t, s.pc t ≠ .store → ∀ k msg, s.memory.msgs (.flag t) k = some msg → s.memory.sc (.flag t) ≤ k →
    msg.value = true
  clear : ∀ t, s.pc t = .store → ∀ k msg, s.memory.msgs (.flag t) k = some msg → k = 0
  exclusive : ∀ t u, (s.pc t).entered = true → (s.pc u).entered = true → t = u
  counted : s.memory.Chain .observerCount [0] ∨
    s.memory.Chain .observerCount [0, 1] ∧ ∃ t, s.pc t = .returned true

theorem inv_init (storedA loadedA storedB loadedB : Order) :
    Inv (threads storedA loadedA storedB loadedB).init where
  set _ h := absurd rfl h
  clear _ _ k msg hm := (Option.ite_none_right_eq_some.mp hm).1
  exclusive _ _ h := by cases h
  counted := .inl (Memory.Chain.start cleared)

/-- A step that enters nobody keeps what is counted. -/
theorem Inv.counted_goto {pc : Pc} {memory : Memory Thread Loc Value} (h : Inv s) (hpc : s.pc t ≠ .returned true)
    (hm : memory.msgs .observerCount = s.memory.msgs .observerCount) (hle : ∀ u, s.memory.view u ≤ memory.view u) :
    memory.Chain .observerCount [0] ∨
      memory.Chain .observerCount [0, 1] ∧ ∃ u, (s.goto t pc memory).pc u = .returned true := by
  refine h.counted.imp (fun hc => hc.mono hm hle) fun ⟨hc, u, hu⟩ => ⟨hc.mono hm hle, u, ?_⟩
  have hut : u ≠ t := by
    rintro rfl
    exact hpc hu
  rw [goto_pc_of_ne s _ _ hut, hu]

theorem Inv.exclusive_goto {pc : Pc} {memory : Memory Thread Loc Value} (h : Inv s) (hpc : pc.entered = false)
    (u v : Thread) (hu : ((s.goto t pc memory).pc u).entered = true)
    (hv : ((s.goto t pc memory).pc v).entered = true) : u = v := by
  have hne : ∀ w, ((s.goto t pc memory).pc w).entered = true → w ≠ t := by
    rintro w hw rfl
    rw [goto_pc_self, hpc] at hw
    cases hw
  rw [goto_pc_of_ne s _ _ (hne u hu)] at hu
  rw [goto_pc_of_ne s _ _ (hne v hv)] at hv
  exact h.exclusive u v hu hv

theorem Inv.store {k : Nat} {memory : Memory Thread Loc Value} (h : Inv s) (hpc : s.pc t = .store)
    (hm : s.memory.store t (.flag t) .seqCst k true = some memory) : Inv (s.goto t .load memory) where
  set := by
    intro u hu n msg hn hk
    rw [goto_memory] at hn hk
    by_cases hut : u = t
    · subst hut
      have hkn := le_trans (Memory.le_store_sc hm) hk
      by_cases hnk : n = k
      · subst hnk
        obtain ⟨msg', hmsg', hv, _⟩ := Memory.store_msgs_self hm rfl
        rw [hmsg'] at hn
        cases hn
        exact hv
      · rw [Memory.store_msgs_of_ne hm hnk] at hn
        have := h.clear u hpc n msg hn
        have := (Memory.store_eq_some hm).2.1
        omega
    · rw [goto_pc_of_ne s _ _ hut] at hu
      rw [Memory.store_msgs_loc_of_ne hm (by simpa using hut)] at hn
      exact h.set u hu n msg hn (le_trans (Memory.store_sc_le hm _) hk)
  clear := by
    intro u hu n msg hn
    have hut : u ≠ t := by
      rintro rfl
      rw [goto_pc_self] at hu
      cases hu
    rw [goto_pc_of_ne s _ _ hut] at hu
    rw [goto_memory, Memory.store_msgs_loc_of_ne hm (by simpa using hut)] at hn
    exact h.clear u hu n msg hn
  exclusive := h.exclusive_goto rfl
  counted := h.counted_goto (by simp [hpc]) (Memory.store_msgs_loc_of_ne hm (by simp)) (Memory.store_le hm)

/-- A thread enters only while the other one has not set its flag. -/
theorem Inv.load {k : Nat} {v : Bool} {memory : Memory Thread Loc Value} (hall : ∀ u, u = t ∨ u = other)
    (hto : t ≠ other) (h : Inv s) (hpc : s.pc t = .load)
    (hm : s.memory.load t (.flag other) .seqCst k = some (v, memory)) :
    Inv (s.goto t (if v then .returned false else .add) memory) where
  set := by
    intro u hu n msg hn hk
    have hus : s.pc u ≠ .store := by
      by_cases hut : u = t
      · subst hut
        simp [hpc]
      · rwa [goto_pc_of_ne s _ _ hut] at hu
    rw [goto_memory, Memory.load_msgs hm] at hn
    exact h.set u hus n msg hn (le_trans (Memory.load_sc_le hm _) hk)
  clear := by
    intro u hu n msg hn
    have hut : u ≠ t := by
      rintro rfl
      rw [goto_pc_self] at hu
      cases v <;> simp at hu
    rw [goto_pc_of_ne s _ _ hut] at hu
    rw [goto_memory, Memory.load_msgs hm] at hn
    exact h.clear u hu n msg hn
  exclusive := by
    cases v with
    | true => exact h.exclusive_goto rfl
    | false =>
      obtain ⟨msg, hmsg, hk, hv, _⟩ := Memory.load_eq_some hm
      have hstore : s.pc other = .store := by
        by_contra hset
        have := h.set other hset k msg hmsg (le_trans Memory.sc_le_floor hk)
        rw [← hv] at this
        cases this
      have heq : ∀ w, ((s.goto t .add memory).pc w).entered = true → w = t := by
        intro w hw
        rcases hall w with rfl | rfl
        · rfl
        · rw [goto_pc_of_ne s _ _ hto.symm, hstore] at hw
          cases hw
      intro u w hu hw
      rw [heq u hu, heq w hw]
  counted := h.counted_goto (by simp [hpc]) (by rw [goto_memory, Memory.load_msgs hm]) (Memory.load_le hm)

theorem Inv.add {k : Nat} {v : BitVec 32} {memory : Memory Thread Loc Value} (h : Inv s) (hpc : s.pc t = .add)
    (hm : s.memory.update t .observerCount .relaxed k (· + 1) = some (v, memory)) :
    Inv (s.goto t (.returned true) memory) where
  set := by
    intro u hu n msg hn hk
    have hus : s.pc u ≠ .store := by
      by_cases hut : u = t
      · subst hut
        simp [hpc]
      · rwa [goto_pc_of_ne s _ _ hut] at hu
    rw [goto_memory, Memory.update_msgs_loc_of_ne hm (by simp)] at hn
    exact h.set u hus n msg hn (le_trans (Memory.update_sc_le hm _) hk)
  clear := by
    intro u hu n msg hn
    have hut : u ≠ t := by
      rintro rfl
      rw [goto_pc_self] at hu
      cases hu
    rw [goto_pc_of_ne s _ _ hut] at hu
    rw [goto_memory, Memory.update_msgs_loc_of_ne hm (by simp)] at hn
    exact h.clear u hu n msg hn
  exclusive := by
    have hin : ∀ w, ((s.goto t (.returned true) memory).pc w).entered = true → (s.pc w).entered = true := by
      intro w hw
      by_cases hwt : w = t
      · subst hwt
        rw [hpc]
        rfl
      · rwa [goto_pc_of_ne s _ _ hwt] at hw
    exact fun u w hu hw => h.exclusive u w (hin u hu) (hin w hw)
  counted := by
    rcases h.counted with hc | ⟨_, u, hu⟩
    · obtain ⟨hk, hv, hc'⟩ := hc.update hm
      obtain rfl : k = 0 := by simpa using hk
      cases hv
      exact .inr ⟨hc', t, goto_pc_self ..⟩
    · -- The other one that has counted itself would have entered too.
      have := h.exclusive t u (by rw [hpc]; rfl) (by rw [hu]; rfl)
      rw [← this, hpc] at hu
      cases hu

theorem Inv.turn (hall : ∀ u, u = t ∨ u = other) (hto : t ≠ other) (h : Inv s)
    (ht : Turn .seqCst .seqCst s t other s') :
    Inv s' := by
  cases ht with
  | store hpc hm => exact h.store hpc hm
  | load hpc hm => exact h.load hall hto hpc hm
  | add hpc hm => exact h.add hpc hm

theorem Inv.count_le (h : Inv s) {k : Nat} {msg : Message Thread Loc (BitVec 32)}
    (hm : s.memory.msgs .observerCount k = some msg) : msg.value.toNat ≤ 1 := by
  have hle : ∀ vs : List (BitVec 32), (∀ v ∈ vs, v.toNat ≤ 1) → s.memory.Chain .observerCount vs →
    msg.value.toNat ≤ 1 := by
    intro vs hvs hc
    have hv := hc.values k
    rw [hm] at hv
    exact hvs _ (List.mem_of_getElem? hv.symm)
  rcases h.counted with hc | ⟨hc, _⟩
  · exact hle _ (by simp) hc
  · exact hle _ (by simp) hc

/-! ## Weaker orders -/

/-- `t` finds the other flag clear before it is set, and `other` does not see the one of `t`. -/
def bothEnter (t other : Thread) : List (Thread × Nat) :=
  [(t, 1), (t, 0), (other, 1), (other, 0), (t, 0), (other, 1)]

theorem both_of_weak
    (h : ¬ (storedA = .seqCst ∧ loadedA = .seqCst ∧ storedB = .seqCst ∧ loadedB = .seqCst)) : ∃ is s msg,
    (threads storedA loadedA storedB loadedB).run (threads storedA loadedA storedB loadedB).init is = some s ∧
      s.memory.msgs .observerCount 2 = some msg ∧ msg.value.toNat = 2 := by
  by_cases ha : storedA = .seqCst ∧ loadedB = .seqCst
  · obtain ⟨rfl, rfl⟩ := ha
    refine ⟨bothEnter .b .a, ?_⟩
    cases storedB <;> cases loadedA <;> first | exact absurd ⟨rfl, rfl, rfl, rfl⟩ h | exact ⟨_, _, rfl, rfl, rfl⟩
  · refine ⟨bothEnter .a .b, ?_⟩
    cases storedA <;> cases loadedB <;> try exact absurd ⟨rfl, rfl⟩ ha
    -- the other two orders make no difference
    all_goals cases loadedA <;> cases storedB <;> exact ⟨_, _, rfl, rfl, rfl⟩

/-- At most one thread is ever counted if and only if all four operations on the flags are sequentially
consistent. -/
theorem observerCount_reachable_iff (storedA loadedA storedB loadedB : Order) :
    (∀ s, (threads storedA loadedA storedB loadedB).Reachable s →
        ∀ k msg, s.memory.msgs .observerCount k = some msg → msg.value.toNat ≤ 1) ↔
      storedA = .seqCst ∧ loadedA = .seqCst ∧ storedB = .seqCst ∧ loadedB = .seqCst := by
  constructor
  · intro hsafe
    by_contra hweak
    obtain ⟨is, s, msg, hs, hm, hv⟩ := both_of_weak hweak
    have := hsafe s (System.reachable_of_run is .init hs) 2 msg hm
    omega
  · rintro ⟨rfl, rfl, rfl, rfl⟩ s hr k msg hm
    have h : Inv s := hr.inv (inv_init _ _ _ _) fun s i s' h hs => by
      rcases turn_step hs with ht | ht
      · exact h.turn (fun u => by cases u <;> simp) (by decide) ht
      · exact h.turn (fun u => by cases u <;> simp) (by decide) ht
    exact h.count_le hm

end

end Playground.Dekker
