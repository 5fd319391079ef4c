import Mathlib.Logic.Function.Basic
import Mathlib.Order.Lattice
import Mathlib.Order.Lattice.Nat

/-!
# Weak memory

An atomic location keeps every value stored to it, at a timestamp, and a
thread may read an old one unless it knows of a newer one. What a thread knows
is its view; the view passes on when an acquire operation reads from a release
operation. Plain data has no history: of two accesses, one of them a write,
one must know of the other, or they race.

A load reads from a store that comes before it in the run. The sequentially
consistent operations are ordered by the run; each leaves its timestamp behind
and goes by those it finds.
-/

namespace WeakMemory

inductive Order
  | relaxed
  | acquire
  | release
  | seqCst
  deriving DecidableEq

def Order.acquires : Order → Bool
  | .acquire | .seqCst => true
  | .relaxed | .release => false

def Order.releases : Order → Bool
  | .release | .seqCst => true
  | .relaxed | .acquire => false

/-- What a view counts: the plain accesses of a thread, and the stores to an atomic location. -/
inductive Entry (T X : Type)
  | access (t : T)
  | store (x : X)
  deriving DecidableEq

abbrev View (T X : Type) := Entry T X → Nat

/-- A value stored, and what the thread that reads it with `acquire` comes to know. -/
structure Message (T X A : Type) where
  value : A
  view : View T X

/-- `sc` is the greatest timestamp that a sequentially consistent operation has used. -/
structure Memory (T X : Type) (V : X → Type) where
  msgs : (x : X) → Nat → Option (Message T X (V x))
  view : T → View T X
  sc : X → Nat

/-- A plain variable: for each thread, which of its accesses was the last to write it, and to read it. -/
structure Cell (T W : Type) where
  value : W
  written : T → Nat
  read : T → Nat

section
variable {T X W : Type} {V : X → Type} {v w : View T X} {o : Order} {x y : X} {k n : Nat} {t t' u : T}

/-! ## Views -/

def View.acquire (v : View T X) (o : Order) (w : View T X) : View T X := if o.acquires then v ⊔ w else v

def View.release (v : View T X) (o : Order) : View T X := if o.releases then v else fun _ => 0

theorem le_acquire : v ≤ v.acquire o w := by
  unfold View.acquire
  split
  · exact le_sup_left
  · exact le_refl v

theorem msg_le_acquire (h : o.acquires = true) : w ≤ v.acquire o w := by
  rw [View.acquire, if_pos h]
  exact le_sup_right

theorem release_of (h : o.releases = true) : v.release o = v := if_pos h

theorem release_le : v.release o ≤ v := by
  unfold View.release
  split
  · exact le_refl v
  · exact fun _ => Nat.zero_le _

namespace Memory

variable {m m' : Memory T X V} {a : V x} {f : V x → V x} {msg : Message T X (V x)}

/-- The timestamps below are too old for `t` to read. -/
def floor (m : Memory T X V) (t : T) (x : X) (o : Order) : Nat :=
  if o = .seqCst then max (m.view t (.store x)) (m.sc x) else m.view t (.store x)

theorem view_le_floor : m.view t (.store x) ≤ m.floor t x o := by
  unfold floor
  split
  · exact le_max_left ..
  · exact le_refl _

theorem sc_le_floor : m.sc x ≤ m.floor t x .seqCst := le_max_right ..

section
variable [DecidableEq X]

def put (m : Memory T X V) (x : X) (k : Nat) (msg : Message T X (V x)) : Memory T X V :=
  { m with msgs := Function.update m.msgs x (Function.update (m.msgs x) k (some msg)) }

def order (m : Memory T X V) (o : Order) (x : X) (k : Nat) : Memory T X V :=
  if o = .seqCst then { m with sc := Function.update m.sc x (max (m.sc x) k) } else m

@[simp] theorem put_view : (m.put x k msg).view = m.view := rfl

@[simp] theorem put_sc : (m.put x k msg).sc = m.sc := rfl

@[simp] theorem put_msgs_self : (m.put x k msg).msgs x k = some msg := by simp [put]

theorem put_msgs_of_ne (h : n ≠ k) : (m.put x k msg).msgs x n = m.msgs x n := by simp [put, h]

theorem put_msgs_loc_of_ne (h : y ≠ x) : (m.put x k msg).msgs y = m.msgs y := by simp [put, h]

@[simp] theorem order_msgs : (m.order o x k).msgs = m.msgs := by
  unfold order
  split <;> rfl

@[simp] theorem order_view : (m.order o x k).view = m.view := by
  unfold order
  split <;> rfl

theorem sc_le_order (y : X) : m.sc y ≤ (m.order o x k).sc y := by
  unfold order
  split
  · by_cases hy : y = x
    · subst hy
      simp
    · simp [hy]
  · exact le_refl _

theorem le_order_sc : k ≤ (m.order .seqCst x k).sc x := by simp [order]

end

section
variable [DecidableEq T]

def learn (m : Memory T X V) (t : T) (v : View T X) : Memory T X V := { m with view := Function.update m.view t v }

/-- Thread `t` waits for `u` to end. -/
def join (m : Memory T X V) (t u : T) : Memory T X V := m.learn t (m.view t ⊔ m.view u)

@[simp] theorem learn_msgs : (m.learn t v).msgs = m.msgs := rfl

@[simp] theorem learn_sc : (m.learn t v).sc = m.sc := rfl

@[simp] theorem learn_view_self : (m.learn t v).view t = v := Function.update_self ..

theorem learn_view_of_ne (h : u ≠ t) : (m.learn t v).view u = m.view u := Function.update_of_ne h ..

theorem le_learn (h : m.view t ≤ v) (u : T) : m.view u ≤ (m.learn t v).view u := by
  by_cases hu : u = t
  · subst hu
    simpa using h
  · rw [learn_view_of_ne hu]

theorem join_le (u : T) : m.view u ≤ (m.join t t').view u := le_learn le_sup_left u

end

end Memory

variable [DecidableEq T] [DecidableEq X]

def View.know (v : View T X) (x : X) (k : Nat) : View T X := Function.update v (.store x) (max (v (.store x)) k)

@[simp] theorem know_store : v.know x k (.store x) = max (v (.store x)) k := Function.update_self ..

@[simp] theorem know_access : v.know x k (.access t) = v (.access t) := Function.update_of_ne (by simp) ..

theorem le_know : v ≤ v.know x k := by
  intro e
  unfold View.know
  by_cases he : e = .store x
  · subst he
    simp
  · rw [Function.update_of_ne he]

theorem le_know_store : k ≤ v.know x k (.store x) := by simp

/-! ## Operations on atomic locations -/

namespace Memory

/-- The values of `init` are there from the start, and known to every thread. -/
def start (init : (x : X) → V x) : Memory T X V where
  msgs x k := if k = 0 then some ⟨init x, fun _ => 0⟩ else none
  view _ _ := 0
  sc _ := 0

section
variable (m : Memory T X V)

/-- Thread `t` reads the message at `k`. -/
def load (t : T) (x : X) (o : Order) (k : Nat) : Option (V x × Memory T X V) :=
  match m.msgs x k with
  | some msg =>
    if m.floor t x o ≤ k then
      some (msg.value, (m.learn t (((m.view t).know x k).acquire o msg.view)).order o x k)
    else none
  | none => none

/-- Thread `t` stores `a` at the timestamp `k`, which is free. -/
def store (t : T) (x : X) (o : Order) (k : Nat) (a : V x) : Option (Memory T X V) :=
  match m.msgs x k with
  | some _ => none
  | none =>
    let v := (m.view t).know x k
    if m.floor t x o < k then some (((m.put x k ⟨a, v.release o⟩).learn t v).order o x k) else none

/-- Thread `t` reads the message at `k` and stores at once after it. The new message passes on what the one it
replaces would have. -/
def update (t : T) (x : X) (o : Order) (k : Nat) (f : V x → V x) : Option (V x × Memory T X V) :=
  match m.msgs x k, m.msgs x (k + 1) with
  | some msg, none =>
    let v := ((m.view t).know x (k + 1)).acquire o msg.view
    if m.floor t x o ≤ k then
      some (msg.value, ((m.put x (k + 1) ⟨f msg.value, v.release o ⊔ msg.view⟩).learn t v).order o x (k + 1))
    else none
  | _, _ => none

/-- Thread `t` makes a plain access. -/
def tick (t : T) : Memory T X V := m.learn t (Function.update (m.view t) (.access t) (m.view t (.access t) + 1))

end

variable {m m' : Memory T X V} {a : V x} {f : V x → V x} {msg : Message T X (V x)}

theorem load_eq_some (h : m.load t x o k = some (a, m')) : ∃ msg, m.msgs x k = some msg ∧ m.floor t x o ≤ k ∧
    a = msg.value ∧ m' = (m.learn t (((m.view t).know x k).acquire o msg.view)).order o x k := by
  unfold load at h
  split at h
  · rename_i msg hmsg
    obtain ⟨hk, h⟩ := Option.ite_none_right_eq_some.mp h
    cases h
    exact ⟨msg, hmsg, hk, rfl, rfl⟩
  · cases h

theorem store_eq_some (h : m.store t x o k a = some m') : m.msgs x k = none ∧ m.floor t x o < k ∧
    m' = ((m.put x k ⟨a, ((m.view t).know x k).release o⟩).learn t ((m.view t).know x k)).order o x k := by
  unfold store at h
  split at h
  · cases h
  · rename_i hfree
    obtain ⟨hk, h⟩ := Option.ite_none_right_eq_some.mp h
    cases h
    exact ⟨hfree, hk, rfl⟩

theorem update_eq_some (h : m.update t x o k f = some (a, m')) : ∃ msg, m.msgs x k = some msg ∧
    m.msgs x (k + 1) = none ∧ m.floor t x o ≤ k ∧ a = msg.value ∧
    m' = ((m.put x (k + 1) ⟨f msg.value,
      (((m.view t).know x (k + 1)).acquire o msg.view).release o ⊔ msg.view⟩).learn t
      (((m.view t).know x (k + 1)).acquire o msg.view)).order o x (k + 1) := by
  unfold update at h
  split at h
  · rename_i msg hmsg hfree
    obtain ⟨hk, h⟩ := Option.ite_none_right_eq_some.mp h
    cases h
    exact ⟨msg, hmsg, hfree, hk, rfl, rfl⟩
  · cases h

/-! ### What an operation leaves -/

theorem load_msgs (h : m.load t x o k = some (a, m')) : m'.msgs = m.msgs := by
  obtain ⟨msg, _, _, _, rfl⟩ := load_eq_some h
  rw [order_msgs, learn_msgs]

theorem load_know (h : m.load t x o k = some (a, m')) : k ≤ m'.view t (.store x) := by
  obtain ⟨msg, _, _, _, rfl⟩ := load_eq_some h
  rw [order_view, learn_view_self]
  exact le_trans le_know_store (le_acquire _)

theorem load_view_of_ne (h : m.load t x o k = some (a, m')) (hu : u ≠ t) : m'.view u = m.view u := by
  obtain ⟨msg, _, _, _, rfl⟩ := load_eq_some h
  rw [order_view, learn_view_of_ne hu]

theorem load_sc_le (h : m.load t x o k = some (a, m')) (y : X) : m.sc y ≤ m'.sc y := by
  obtain ⟨msg, _, _, _, rfl⟩ := load_eq_some h
  refine le_trans ?_ (sc_le_order y)
  exact le_refl _

theorem store_msgs_of_ne (h : m.store t x o k a = some m') (hn : n ≠ k) : m'.msgs x n = m.msgs x n := by
  obtain ⟨_, _, rfl⟩ := store_eq_some h
  rw [order_msgs, learn_msgs, put_msgs_of_ne hn]

theorem store_msgs_loc_of_ne (h : m.store t x o k a = some m') (hy : y ≠ x) : m'.msgs y = m.msgs y := by
  obtain ⟨_, _, rfl⟩ := store_eq_some h
  rw [order_msgs, learn_msgs, put_msgs_loc_of_ne hy]

theorem store_view_of_ne (h : m.store t x o k a = some m') (hu : u ≠ t) : m'.view u = m.view u := by
  obtain ⟨_, _, rfl⟩ := store_eq_some h
  rw [order_view, learn_view_of_ne hu, put_view]

theorem store_sc_le (h : m.store t x o k a = some m') (y : X) : m.sc y ≤ m'.sc y := by
  obtain ⟨_, _, rfl⟩ := store_eq_some h
  refine le_trans ?_ (sc_le_order y)
  exact le_refl _

theorem le_store_sc (h : m.store t x .seqCst k a = some m') : k ≤ m'.sc x := by
  obtain ⟨_, _, rfl⟩ := store_eq_some h
  exact le_order_sc

/-- What a release store passes on. -/
theorem store_msgs_self (h : m.store t x o k a = some m') (ho : o.releases = true) :
    ∃ msg, m'.msgs x k = some msg ∧ msg.value = a ∧ m.view t ≤ msg.view := by
  obtain ⟨_, _, rfl⟩ := store_eq_some h
  refine ⟨_, by rw [order_msgs, learn_msgs, put_msgs_self], rfl, ?_⟩
  simp only [release_of ho]
  exact le_know

theorem load_acquires (h : m.load t x o k = some (a, m')) (ho : o.acquires = true) :
    ∃ msg, m.msgs x k = some msg ∧ msg.value = a ∧ msg.view ≤ m'.view t := by
  obtain ⟨msg, hmsg, _, rfl, rfl⟩ := load_eq_some h
  refine ⟨msg, hmsg, rfl, ?_⟩
  rw [order_view, learn_view_self]
  exact msg_le_acquire ho

theorem update_msgs_self (h : m.update t x o k f = some (a, m')) :
    ∃ msg, m'.msgs x (k + 1) = some msg ∧ msg.value = f a := by
  obtain ⟨msg, _, _, _, rfl, rfl⟩ := update_eq_some h
  exact ⟨_, by rw [order_msgs, learn_msgs, put_msgs_self], rfl⟩

theorem update_know (h : m.update t x o k f = some (a, m')) : k + 1 ≤ m'.view t (.store x) := by
  obtain ⟨msg, _, _, _, _, rfl⟩ := update_eq_some h
  rw [order_view, learn_view_self]
  exact le_trans le_know_store (le_acquire _)

theorem update_acquires (h : m.update t x o k f = some (a, m')) (ho : o.acquires = true) :
    ∃ msg, m.msgs x k = some msg ∧ msg.value = a ∧ msg.view ≤ m'.view t := by
  obtain ⟨msg, hmsg, _, _, rfl, rfl⟩ := update_eq_some h
  refine ⟨msg, hmsg, rfl, ?_⟩
  rw [order_view, learn_view_self]
  exact msg_le_acquire ho

theorem update_msgs_of_ne (h : m.update t x o k f = some (a, m')) (hn : n ≠ k + 1) : m'.msgs x n = m.msgs x n := by
  obtain ⟨msg, _, _, _, _, rfl⟩ := update_eq_some h
  rw [order_msgs, learn_msgs, put_msgs_of_ne hn]

theorem update_msgs_loc_of_ne (h : m.update t x o k f = some (a, m')) (hy : y ≠ x) : m'.msgs y = m.msgs y := by
  obtain ⟨msg, _, _, _, _, rfl⟩ := update_eq_some h
  rw [order_msgs, learn_msgs, put_msgs_loc_of_ne hy]

theorem update_sc_le (h : m.update t x o k f = some (a, m')) (y : X) : m.sc y ≤ m'.sc y := by
  obtain ⟨msg, _, _, _, _, rfl⟩ := update_eq_some h
  refine le_trans ?_ (sc_le_order y)
  exact le_refl _

/-- No operation makes a thread forget. -/
theorem load_le (h : m.load t x o k = some (a, m')) (u : T) : m.view u ≤ m'.view u := by
  obtain ⟨msg, _, _, _, rfl⟩ := load_eq_some h
  rw [order_view]
  exact le_learn (le_trans le_know le_acquire) u

theorem store_le (h : m.store t x o k a = some m') (u : T) : m.view u ≤ m'.view u := by
  obtain ⟨_, _, rfl⟩ := store_eq_some h
  rw [order_view]
  exact le_learn le_know u

theorem update_le (h : m.update t x o k f = some (a, m')) (u : T) : m.view u ≤ m'.view u := by
  obtain ⟨msg, _, _, _, _, rfl⟩ := update_eq_some h
  rw [order_view]
  exact le_learn (le_trans le_know le_acquire) u

theorem tick_le (u : T) : m.view u ≤ (m.tick t).view u := by
  refine le_learn (fun e => ?_) u
  by_cases he : e = .access t
  · subst he
    simp
  · rw [Function.update_of_ne he]

/-! ## A location that is only updated -/

/-- Every write to `x` after the first value is an update: the values stand at the timestamps one after another, and
each is known to the thread that wrote it. -/
structure Chain (m : Memory T X V) (x : X) (vs : List (V x)) : Prop where
  values : ∀ k, (m.msgs x k).map Message.value = vs[k]?
  seen : ∀ k, 0 < k → k < vs.length → ∃ t, k ≤ m.view t (.store x)

namespace Chain

variable {vs : List (V x)}

omit [DecidableEq T] [DecidableEq X] in
theorem start (init : (x : X) → V x) : Chain (start init : Memory T X V) x [init x] where
  values := by
    intro k
    cases k <;> simp [Memory.start]
  seen := by
    intro k hk hlt
    simp only [List.length_singleton] at hlt
    omega

omit [DecidableEq T] [DecidableEq X] in
theorem mono (h : Chain m x vs) (hm : m'.msgs x = m.msgs x) (hv : ∀ t, m.view t ≤ m'.view t) : Chain m' x vs where
  values := by rw [hm]; exact h.values
  seen := by
    intro k hk hlt
    obtain ⟨t, ht⟩ := h.seen k hk hlt
    exact ⟨t, le_trans ht (hv t _)⟩

theorem load (h : Chain m x vs) (hl : m.load t x o k = some (a, m')) : vs[k]? = some a ∧ Chain m' x vs := by
  refine ⟨?_, h.mono ?_ (load_le hl)⟩
  · obtain ⟨msg, hmsg, _, rfl, _⟩ := load_eq_some hl
    rw [← h.values, hmsg]
    rfl
  · obtain ⟨msg, _, _, _, rfl⟩ := load_eq_some hl
    simp

/-- An update reads the last value. -/
theorem update (h : Chain m x vs) (hu : m.update t x o k f = some (a, m')) :
    k + 1 = vs.length ∧ vs[k]? = some a ∧ Chain m' x (vs ++ [f a]) := by
  have hle := update_le hu
  obtain ⟨msg, hmsg, hfree, _, rfl, rfl⟩ := update_eq_some hu
  have hk : vs[k]? = some msg.value := by rw [← h.values, hmsg]; rfl
  have hlen : k + 1 = vs.length := by
    have hlt := (List.getElem?_eq_some_iff.mp hk).1
    have hge : vs[k + 1]? = none := by rw [← h.values, hfree]; rfl
    rw [List.getElem?_eq_none_iff] at hge
    omega
  refine ⟨hlen, hk, ⟨fun n => ?_, fun n hn hlt => ?_⟩⟩
  · simp only [order_msgs, learn_msgs]
    by_cases hnk : n = k + 1
    · subst hnk
      rw [put_msgs_self, hlen, List.getElem?_concat_length]
      rfl
    · rw [put_msgs_of_ne hnk, h.values]
      by_cases hlt : n < vs.length
      · rw [List.getElem?_append_left hlt]
      · rw [List.getElem?_eq_none (by omega), List.getElem?_eq_none]
        simp only [List.length_append, List.length_singleton]
        omega
  · by_cases hnl : n < vs.length
    · obtain ⟨u, hu⟩ := h.seen n hn hnl
      exact ⟨u, le_trans hu (hle u _)⟩
    · refine ⟨t, ?_⟩
      simp only [List.length_append, List.length_singleton] at hlt
      simp only [order_view, learn_view_self]
      exact le_trans (by simp only [know_store]; omega) (le_acquire _)

/-- Who knows what all threads know reads the last value. -/
theorem load_last (h : Chain m x vs) (hl : m.load t x o k = some (a, m'))
    (hall : ∀ u, m.view u (.store x) ≤ m.view t (.store x)) :
    k + 1 = vs.length := by
  obtain ⟨hk, _⟩ := h.load hl
  obtain ⟨msg, _, hfl, _, _⟩ := load_eq_some hl
  have hlt := (List.getElem?_eq_some_iff.mp hk).1
  by_contra hne
  obtain ⟨u, hu⟩ := h.seen (k + 1) (Nat.succ_pos k) (by omega)
  have := hall u
  have := view_le_floor (m := m) (t := t) (x := x) (o := o)
  omega

end Chain

@[simp] theorem tick_msgs : (m.tick t).msgs = m.msgs := rfl

@[simp] theorem tick_view_self : (m.tick t).view t (.access t) = m.view t (.access t) + 1 := by simp [tick]

theorem tick_view_of_ne (h : u ≠ t) : (m.tick t).view u = m.view u := learn_view_of_ne h

/-! ## What nobody knows more of -/

/-- No view, of a thread or of a message, counts more than `b` at `e`. -/
structure Bound (m : Memory T X V) (e : Entry T X) (b : Nat) : Prop where
  view : ∀ t, m.view t e ≤ b
  msg : ∀ x k msg, m.msgs x k = some msg → msg.view e ≤ b

namespace Bound

variable {e : Entry T X} {b b' : Nat}

omit [DecidableEq T] [DecidableEq X] in
theorem start (init : (x : X) → V x) : Bound (start init : Memory T X V) e 0 where
  view _ := Nat.le_refl 0
  msg := by
    intro x k msg h
    obtain ⟨_, h⟩ := Option.ite_none_right_eq_some.mp h
    cases h
    exact Nat.le_refl 0

omit [DecidableEq T] [DecidableEq X] in
theorem mono (h : Bound m e b) (hb : b ≤ b') : Bound m e b' where
  view t := le_trans (h.view t) hb
  msg x k msg hm := le_trans (h.msg x k msg hm) hb

omit [DecidableEq X] in
theorem learn (h : Bound m e b) (hv : v e ≤ b) : Bound (m.learn t v) e b where
  view := by
    intro u
    by_cases hu : u = t
    · subst hu
      rwa [learn_view_self]
    · rw [learn_view_of_ne hu]
      exact h.view u
  msg := h.msg

omit [DecidableEq T] in
theorem put (h : Bound m e b) (hv : msg.view e ≤ b) : Bound (m.put x k msg) e b where
  view := h.view
  msg := by
    intro y n msg' hm
    by_cases hy : y = x
    · subst hy
      by_cases hn : n = k
      · subst hn
        rw [put_msgs_self] at hm
        cases hm
        exact hv
      · rw [put_msgs_of_ne hn] at hm
        exact h.msg _ _ _ hm
    · rw [put_msgs_loc_of_ne hy] at hm
      exact h.msg _ _ _ hm

omit [DecidableEq T] in
theorem order (h : Bound m e b) : Bound (m.order o x k) e b where
  view := by rw [order_view]; exact h.view
  msg := by rw [order_msgs]; exact h.msg

theorem know (h : v e ≤ b) (hk : e = .store x → k ≤ b) : v.know x k e ≤ b := by
  unfold View.know
  by_cases he : e = .store x
  · subst he
    rw [Function.update_self]
    exact max_le h (hk rfl)
  · rwa [Function.update_of_ne he]

omit [DecidableEq T] [DecidableEq X] in
theorem acquire (h : v e ≤ b) (hw : w e ≤ b) : v.acquire o w e ≤ b := by
  unfold View.acquire
  split
  · exact max_le h hw
  · exact h

theorem load (h : Bound m e b) (hl : m.load t x o k = some (a, m')) (hk : e = .store x → k ≤ b) : Bound m' e b := by
  obtain ⟨msg, hmsg, _, _, rfl⟩ := load_eq_some hl
  exact (h.learn (acquire (know (h.view t) hk) (h.msg _ _ _ hmsg))).order

theorem store (h : Bound m e b) (hs : m.store t x o k a = some m') (hk : e = .store x → k ≤ b) : Bound m' e b := by
  obtain ⟨_, _, rfl⟩ := store_eq_some hs
  have hv := know (h.view t) hk
  exact ((h.put (le_trans (release_le _) hv)).learn hv).order

theorem update (h : Bound m e b) (hu : m.update t x o k f = some (a, m')) (hk : e = .store x → k + 1 ≤ b) :
    Bound m' e b := by
  obtain ⟨msg, hmsg, _, _, _, rfl⟩ := update_eq_some hu
  have hv := acquire (o := o) (know (h.view t) hk) (h.msg _ _ _ hmsg)
  exact ((h.put (max_le (le_trans (release_le _) hv) (h.msg _ _ _ hmsg))).learn hv).order

theorem tick (h : Bound m e b) (ht : e ≠ .access t) : Bound (m.tick t) e b :=
  h.learn (by rw [Function.update_of_ne ht]; exact h.view t)

theorem tick_self (h : Bound m (.access t) (m.view t (.access t))) :
    Bound (m.tick t) (.access t) ((m.tick t).view t (.access t)) :=
  (h.mono (tick_le t _)).learn (by simp [Memory.tick])

theorem tick_clock (h : ∀ t, Bound m (.access t) (m.view t (.access t))) (u t : T) :
    Bound (m.tick u) (.access t) ((m.tick u).view t (.access t)) := by
  by_cases hu : t = u
  · subst hu
    exact (h t).tick_self
  · rw [tick_view_of_ne hu]
    exact (h t).tick (by simpa using hu)

/-- A thread learns nothing of its own accesses. -/
theorem load_clock (h : Bound m (.access t) (m.view t (.access t))) (hl : m.load u x o k = some (a, m')) :
    m'.view t (.access t) = m.view t (.access t) ∧ Bound m' (.access t) (m'.view t (.access t)) := by
  have hb := h.load hl (by rintro ⟨⟩)
  have heq := le_antisymm (hb.view t) (load_le hl t _)
  exact ⟨heq, by rwa [heq]⟩

theorem store_clock (h : Bound m (.access t) (m.view t (.access t))) (hs : m.store u x o k a = some m') :
    m'.view t (.access t) = m.view t (.access t) ∧ Bound m' (.access t) (m'.view t (.access t)) := by
  have hb := h.store hs (by rintro ⟨⟩)
  have heq := le_antisymm (hb.view t) (store_le hs t _)
  exact ⟨heq, by rwa [heq]⟩

end Bound

/-! ## A location that one thread writes -/

/-- Only `t` stores to `x`, and the last value it stored is `a`. -/
structure Sole (m : Memory T X V) (x : X) (t : T) (a : V x) : Prop where
  bound : Bound m (.store x) (m.view t (.store x))
  le : ∀ k msg, m.msgs x k = some msg → k ≤ m.view t (.store x)
  last : ∃ msg, m.msgs x (m.view t (.store x)) = some msg ∧ msg.value = a

namespace Sole

variable {a' : V x} {o' : Order} {k' : Nat} {c : V y}

omit [DecidableEq T] [DecidableEq X] in
theorem start (init : (x : X) → V x) : Sole (start init : Memory T X V) x t (init x) where
  bound := Bound.start init
  le := by
    intro k msg h
    obtain ⟨rfl, _⟩ := Option.ite_none_right_eq_some.mp h
    exact Nat.le_refl 0
  last := ⟨_, rfl, rfl⟩

omit [DecidableEq T] [DecidableEq X] in
theorem keep (h : Sole m x t a) (hm : m'.msgs x = m.msgs x) (hv : m'.view t (.store x) = m.view t (.store x))
    (hb : Bound m' (.store x) (m.view t (.store x))) : Sole m' x t a where
  bound := by rw [hv]; exact hb
  le := by rw [hm, hv]; exact h.le
  last := by rw [hm, hv]; exact h.last

/-- Its writer reads the value it stored last. -/
theorem load_self (h : Sole m x t a) (hl : m.load t x o k = some (a', m')) : a' = a := by
  obtain ⟨msg, hmsg, hk, rfl, _⟩ := load_eq_some hl
  obtain ⟨last, hlast, rfl⟩ := h.last
  have hle := h.le k msg hmsg
  have := view_le_floor (m := m) (t := t) (x := x) (o := o)
  obtain rfl : k = m.view t (.store x) := by omega
  rw [hmsg] at hlast
  cases hlast
  rfl

theorem store_self (h : Sole m x t a) (hs : m.store t x o k a' = some m') : Sole m' x t a' := by
  have hlt : m.view t (.store x) < k := lt_of_le_of_lt view_le_floor (store_eq_some hs).2.1
  have hb := (h.bound.mono (le_of_lt hlt)).store hs fun _ => le_refl k
  obtain ⟨_, _, rfl⟩ := store_eq_some hs
  have hv : (((m.put x k ⟨a', ((m.view t).know x k).release o⟩).learn t ((m.view t).know x k)).order o x k).view t
      (.store x) = k := by simp [le_of_lt hlt]
  refine ⟨by rw [hv]; exact hb, fun n msg hm => ?_, ?_⟩
  · rw [hv]
    by_cases hn : n = k
    · exact le_of_eq hn
    · rw [order_msgs, learn_msgs, put_msgs_of_ne hn] at hm
      exact le_trans (h.le n msg hm) (le_of_lt hlt)
  · rw [hv]
    exact ⟨_, by rw [order_msgs, learn_msgs, put_msgs_self], rfl⟩

/-- Any load keeps it, and so does an operation that writes elsewhere. -/
theorem load (h : Sole m x t a) {u : T} (hl : m.load u y o k = some (c, m')) : Sole m' x t a := by
  have hb : Bound m' (.store x) (m.view t (.store x)) := h.bound.load hl (by
    rintro ⟨⟩
    obtain ⟨msg, hmsg, _⟩ := load_eq_some hl
    exact h.le k msg hmsg)
  refine h.keep ?_ (le_antisymm (hb.view t) (load_le hl t _)) hb
  obtain ⟨msg, _, _, _, rfl⟩ := load_eq_some hl
  simp

theorem store (h : Sole m x t a) {u : T} (hs : m.store u y o k c = some m') (hy : x ≠ y) : Sole m' x t a := by
  have hb : Bound m' (.store x) (m.view t (.store x)) := h.bound.store hs (by
    rintro ⟨⟩
    exact absurd rfl hy)
  refine h.keep ?_ (le_antisymm (hb.view t) (store_le hs t _)) hb
  obtain ⟨_, _, rfl⟩ := store_eq_some hs
  rw [order_msgs, learn_msgs, put_msgs_loc_of_ne hy]

theorem tick (h : Sole m x t a) (u : T) : Sole (m.tick u) x t a := by
  have hb := h.bound.tick (t := u) (by simp)
  exact h.keep rfl (le_antisymm (hb.view t) (tick_le t _)) hb

end Sole

/-! ## A location that publishes a count

A thread makes plain accesses and stores their number, or what stands for it,
with release stores. What a message passes on then says which number it is. -/

/-- Only `t` stores to `x`; the messages stand for numbers of accesses of `t` that grow, the last of them `c`. -/
structure Published (m : Memory T X V) (x : X) (t : T) (value : Nat → V x) (c : Nat) : Prop where
  sole : m.Sole x t (value c)
  count : ∀ k msg, m.msgs x k = some msg → msg.value = value (msg.view (.access t)) ∧ msg.view (.access t) ≤ c
  mono : ∀ k k' msg msg', m.msgs x k = some msg → m.msgs x k' = some msg' → k ≤ k' →
    msg.view (.access t) ≤ msg'.view (.access t)

/-- What `u` can read from `x` stands for `b` accesses of `t` or more. -/
def AtLeast (m : Memory T X V) (u : T) (x : X) (t : T) (b : Nat) : Prop :=
  ∀ k msg, m.msgs x k = some msg → m.view u (.store x) ≤ k → b ≤ msg.view (.access t)

namespace AtLeast

variable {b b' : Nat}

omit [DecidableEq T] [DecidableEq X] in
theorem keep (h : m.AtLeast u x t b) (hm : m'.msgs x = m.msgs x) (hv : m.view u ≤ m'.view u) :
    m'.AtLeast u x t b := by
  intro k msg hk hle
  rw [hm] at hk
  exact h k msg hk (le_trans (hv _) hle)

omit [DecidableEq T] [DecidableEq X] in
theorem mono (h : m.AtLeast u x t b) (hb : b' ≤ b) : m.AtLeast u x t b' := fun k msg hk hle =>
  le_trans hb (h k msg hk hle)

theorem store (h : m.AtLeast u x t b) (hs : m.store t x o k a = some m') (ho : o.releases = true)
    (hb : b ≤ m.view t (.access t)) : m'.AtLeast u x t b := by
  intro n msg hn hle
  by_cases hnk : n = k
  · subst hnk
    obtain ⟨msg', hmsg', _, hpass⟩ := store_msgs_self hs ho
    rw [hmsg'] at hn
    cases hn
    exact le_trans hb (hpass _)
  · rw [store_msgs_of_ne hs hnk] at hn
    exact h n msg hn (le_trans (store_le hs u _) hle)

end AtLeast

namespace Published

variable {value : Nat → V x} {b c c' : Nat}

omit [DecidableEq T] [DecidableEq X] in
theorem start (init : (x : X) → V x) (h : value 0 = init x) :
    Published (start init : Memory T X V) x t value 0 where
  sole := by rw [h]; exact Sole.start init
  count := by
    intro k msg hk
    obtain ⟨_, hk⟩ := Option.ite_none_right_eq_some.mp hk
    cases hk
    exact ⟨h.symm, Nat.le_refl 0⟩
  mono := by
    intro k k' msg msg' hk hk' _
    obtain ⟨_, hk⟩ := Option.ite_none_right_eq_some.mp hk
    cases hk
    exact Nat.zero_le _

omit [DecidableEq T] [DecidableEq X] in
theorem keep (h : m.Published x t value c) (hm : m'.msgs x = m.msgs x) (hs : m'.Sole x t (value c)) :
    m'.Published x t value c where
  sole := hs
  count := by rw [hm]; exact h.count
  mono := by rw [hm]; exact h.mono

theorem load_keep (h : m.Published x t value c) {a : V y} (hl : m.load u y o k = some (a, m')) :
    m'.Published x t value c :=
  h.keep (by rw [load_msgs hl]) (h.sole.load hl)

theorem store_keep (h : m.Published x t value c) {a : V y} (hs : m.store u y o k a = some m') (hy : x ≠ y) :
    m'.Published x t value c :=
  h.keep (store_msgs_loc_of_ne hs hy) (h.sole.store hs hy)

theorem tick (h : m.Published x t value c) (u : T) : (m.tick u).Published x t value c := h.keep rfl (h.sole.tick u)

/-- The next number is published. -/
theorem store (h : m.Published x t value c) (hs : m.store t x o k a = some m') (ho : o.releases = true)
    (hc : c ≤ m.view t (.access t)) (ha : a = value (m.view t (.access t))) :
    m'.Published x t value (m.view t (.access t)) := by
  have hlt : m.view t (.store x) < k := lt_of_le_of_lt view_le_floor (store_eq_some hs).2.1
  have hnew : ∀ msg, m'.msgs x k = some msg → msg.value = a ∧ msg.view (.access t) = m.view t (.access t) := by
    intro msg hmsg
    obtain ⟨_, _, rfl⟩ := store_eq_some hs
    rw [order_msgs, learn_msgs, put_msgs_self, release_of ho] at hmsg
    cases hmsg
    exact ⟨rfl, by simp⟩
  refine ⟨by rw [← ha]; exact h.sole.store_self hs, fun n msg hn => ?_, fun n n' msg msg' hn hn' hle => ?_⟩
  · by_cases hnk : n = k
    · subst hnk
      obtain ⟨hv, hw⟩ := hnew msg hn
      rw [hv, hw]
      exact ⟨ha, le_refl _⟩
    · rw [store_msgs_of_ne hs hnk] at hn
      exact ⟨(h.count n msg hn).1, le_trans (h.count n msg hn).2 hc⟩
  · by_cases hnk' : n' = k
    · subst hnk'
      rw [(hnew msg' hn').2]
      by_cases hnk : n = n'
      · subst hnk
        rw [(hnew msg hn).2]
      · rw [store_msgs_of_ne hs hnk] at hn
        exact le_trans (h.count n msg hn).2 hc
    · rw [store_msgs_of_ne hs hnk'] at hn'
      have hlast := h.sole.le n' msg' hn'
      rw [store_msgs_of_ne hs (by omega)] at hn
      exact h.mono n n' msg msg' hn hn' hle

/-- A reader finds no smaller number than before, and knows of that many accesses. -/
theorem load (h : m.Published x t value c) (hb : m.AtLeast u x t b) (hl : m.load u x o k = some (a, m'))
    (ho : o.acquires = true) :
    ∃ j, a = value j ∧ b ≤ j ∧ j ≤ c ∧ j ≤ m'.view u (.access t) ∧ m'.AtLeast u x t j := by
  obtain ⟨msg, hmsg, rfl, hle⟩ := load_acquires hl ho
  obtain ⟨_, _, hfl, _⟩ := load_eq_some hl
  obtain ⟨hv, hc⟩ := h.count k msg hmsg
  refine ⟨_, hv, hb k msg hmsg (le_trans view_le_floor hfl), hc, hle _, fun n msg' hn hkn => ?_⟩
  rw [load_msgs hl] at hn
  exact h.mono k n msg msg' hmsg hn (le_trans (load_know hl) hkn)

end Published

end Memory

/-! ## Plain variables -/

namespace Cell

variable {c : Cell T W} {m : Memory T X V} {b : W}

/-- Each write is known, so that a read does not race. -/
def ReadableBy (c : Cell T W) (v : View T X) : Prop := ∀ u, c.written u ≤ v (.access u)

/-- Each access is known, so that a write does not race. -/
def WritableBy (c : Cell T W) (v : View T X) : Prop := ∀ u, c.written u ≤ v (.access u) ∧ c.read u ≤ v (.access u)

def fresh (b : W) : Cell T W := ⟨b, fun _ => 0, fun _ => 0⟩

def readBy (c : Cell T W) (m : Memory T X V) (t : T) : Cell T W :=
  { c with read := Function.update c.read t (m.view t (.access t) + 1) }

def writeBy (c : Cell T W) (m : Memory T X V) (t : T) (b : W) : Cell T W :=
  { c with value := b, written := Function.update c.written t (m.view t (.access t) + 1) }

omit [DecidableEq T] [DecidableEq X] in
theorem ReadableBy.mono (h : c.ReadableBy v) (hv : v ≤ w) : c.ReadableBy w := fun u => le_trans (h u) (hv _)

omit [DecidableEq T] [DecidableEq X] in
theorem WritableBy.mono (h : c.WritableBy v) (hv : v ≤ w) : c.WritableBy w := fun u =>
  ⟨le_trans (h u).1 (hv _), le_trans (h u).2 (hv _)⟩

omit [DecidableEq T] [DecidableEq X] in
theorem WritableBy.readable (h : c.WritableBy v) : c.ReadableBy v := fun u => (h u).1

omit [DecidableEq T] [DecidableEq X] in
theorem fresh_writable : (fresh b : Cell T W).WritableBy v := fun _ => ⟨Nat.zero_le _, Nat.zero_le _⟩

/-- The accessing thread knows of its access. -/
theorem WritableBy.readBy (h : c.WritableBy (m.view t)) : (c.readBy m t).WritableBy ((m.tick t).view t) := by
  intro u
  refine ⟨le_trans (h u).1 (Memory.tick_le t _), ?_⟩
  by_cases hu : u = t
  · subst hu
    simp [Cell.readBy, Memory.tick]
  · simp only [Cell.readBy, Function.update_of_ne hu]
    exact le_trans (h u).2 (Memory.tick_le t _)

theorem WritableBy.writeBy (h : c.WritableBy (m.view t)) : (c.writeBy m t b).WritableBy ((m.tick t).view t) := by
  intro u
  refine ⟨?_, le_trans (h u).2 (Memory.tick_le t _)⟩
  by_cases hu : u = t
  · subst hu
    simp [Cell.writeBy, Memory.tick]
  · simp only [Cell.writeBy, Function.update_of_ne hu]
    exact le_trans (h u).1 (Memory.tick_le t _)

end Cell

end

end WeakMemory
