import Mathlib.Algebra.Group.Nat.Defs
import Mathlib.Data.List.Nodup
import Playground.ModernObserver

/-!
# Every slot has one owner

The slots of the signal are those connected so far whose id is owned by a
live token, in the order in which they were connected, and no id is owned
twice (`Inv`). This needs the ids to be new: `next_id_` has 64 bits, and after
that many connections it gives out the first ids again.
-/

namespace Playground.ModernObserver

section
variable {N S : Type}

theorem ofNat_inj {i j : Nat} (hi : i < 2 ^ 64) (hj : j < 2 ^ 64) (h : UInt64.ofNat i = UInt64.ofNat j) :
    i = j := by
  have := congrArg UInt64.toNat h
  rwa [UInt64.toNat_ofNat_of_lt' hi, UInt64.toNat_ofNat_of_lt' hj] at this

def Owns (w : World N S) (id : UInt64) : Prop := ∃ t, w.tokens t = some (some id)

open Classical in
noncomputable def ownedSlots (l : List (UInt64 × S)) (w : World N S) : List (UInt64 × S) :=
  l.filter fun p => Owns w p.1

theorem ownedSlots_append {l : List (UInt64 × S)} {w w' : World N S} {i : UInt64} {slot : S}
    (h : ∀ id, Owns w' id ↔ Owns w id ∨ id = i) (hi : i ∉ l.map Prod.fst) :
    ownedSlots (l ++ [(i, slot)]) w' = ownedSlots l w ++ [(i, slot)] := by
  classical
  rw [ownedSlots, ownedSlots, List.filter_append]
  congr 1
  · apply List.filter_congr
    intro p hp
    have hne : p.1 ≠ i := fun he => hi (he ▸ List.mem_map_of_mem hp)
    exact decide_eq_decide.mpr ((h p.1).trans (or_iff_left hne))
  · apply List.filter_eq_self.mpr
    intro p hp
    rw [List.mem_singleton.mp hp]
    exact decide_eq_true ((h i).mpr (Or.inr rfl))

structure Inv (l : List (UInt64 × S)) (w : World N S) : Prop where
  nextId : w.signal.nextId = UInt64.ofNat l.length
  ids : l.map Prod.fst = (List.range l.length).map UInt64.ofNat
  slots : w.signal.slots = ownedSlots l w
  issued : ∀ id, Owns w id → id ∈ l.map Prod.fst
  unique : ∀ t t' id, w.tokens t = some (some id) → w.tokens t' = some (some id) → t = t'

theorem ownedSlots_congr {l : List (UInt64 × S)} {w w' : World N S} (h : ∀ id, Owns w' id ↔ Owns w id) :
    ownedSlots l w' = ownedSlots l w := by
  unfold ownedSlots
  congr 1
  funext p
  exact decide_eq_decide.mpr (h p.1)

theorem ownedSlots_erase {l : List (UInt64 × S)} {w w' : World N S} {i : UInt64}
    (h : ∀ id, Owns w' id ↔ Owns w id ∧ id ≠ i) :
    ownedSlots l w' = (ownedSlots l w).filter fun p => p.1 ≠ i := by
  classical
  rw [ownedSlots, ownedSlots, List.filter_filter]
  congr 1
  funext p
  rw [Bool.eq_iff_iff, Bool.and_eq_true, decide_eq_true_iff, decide_eq_true_iff, decide_eq_true_iff, h p.1]
  exact and_comm

/-! ## The tokens -/

variable [DecidableEq N] {l : List (UInt64 × S)} {w w' : World N S} {t other u : N} {conn co : Connection}
  {c : Option Connection} {id : UInt64}

theorem disconnect_tokens (hc : c = none ∨ c = some none) :
    (w.disconnect t conn c).tokens u = some (some id) ↔ u ≠ t ∧ w.tokens u = some (some id) := by
  show Function.update w.tokens t c u = some (some id) ↔ _
  by_cases hut : u = t
  · rw [hut, Function.update_self]
    rcases hc with rfl | rfl <;> simp
  · rw [Function.update_of_ne hut]
    simp [hut]

theorem exchange_tokens (ho : w.tokens other = some co) (ht : ∀ id, w.tokens t ≠ some (some id)) :
    (w.exchange t other).tokens u = some (some id) ↔
      u = t ∧ co = some id ∨ u ≠ other ∧ w.tokens u = some (some id) := by
  show Function.update (Function.update w.tokens other (some none)) t (w.tokens other) u = some (some id) ↔ _
  by_cases hut : u = t
  · subst hut
    rw [Function.update_self, ho]
    simp [ht id]
  · rw [Function.update_of_ne hut]
    by_cases huo : u = other
    · rw [huo, Function.update_self]
      simp [huo ▸ hut]
    · rw [Function.update_of_ne huo]
      simp [hut, huo]

theorem Inv.disconnect (h : Inv l w) (ht : w.tokens t = some conn) (hc : c = none ∨ c = some none) :
    Inv l (w.disconnect t conn c) := by
  have howns : ∀ id, Owns (w.disconnect t conn c) id ↔ Owns w id ∧ conn ≠ some id := by
    intro id
    simp only [Owns, disconnect_tokens hc]
    constructor
    · intro ⟨u, hut, hu⟩
      exact ⟨⟨u, hu⟩, fun he => hut (h.unique u t id hu (he ▸ ht))⟩
    · intro ⟨⟨u, hu⟩, hne⟩
      refine ⟨u, fun hut => hne ?_, hu⟩
      rw [hut, ht] at hu
      exact Option.some.inj hu
  exact {
    nextId := by
      cases conn <;> exact h.nextId
    ids := h.ids
    slots := by
      cases conn with
      | none =>
        show w.signal.slots = _
        rw [h.slots]
        exact (ownedSlots_congr fun id => by simp [howns]).symm
      | some i =>
        show w.signal.slots.filter (fun p => p.1 ≠ i) = _
        rw [h.slots]
        exact (ownedSlots_erase fun id => by simp [howns, eq_comm]).symm
    issued := fun id hid => h.issued id ((howns id).mp hid).1
    unique := fun u u' id hu hu' =>
      h.unique u u' id ((disconnect_tokens hc).mp hu).2 ((disconnect_tokens hc).mp hu').2 }

theorem Inv.exchange (h : Inv l w) (ho : w.tokens other = some co) (ht : ∀ id, w.tokens t ≠ some (some id)) :
    Inv l (w.exchange t other) := by
  have howns : ∀ id, Owns (w.exchange t other) id ↔ Owns w id := by
    intro id
    simp only [Owns, exchange_tokens ho ht]
    constructor
    · rintro ⟨u, ⟨_, rfl⟩ | ⟨_, hu⟩⟩
      · exact ⟨other, ho⟩
      · exact ⟨u, hu⟩
    · intro ⟨u, hu⟩
      by_cases huo : u = other
      · subst huo
        exact ⟨t, Or.inl ⟨rfl, Option.some.inj (ho.symm.trans hu)⟩⟩
      · exact ⟨u, Or.inr ⟨huo, hu⟩⟩
  exact {
    nextId := h.nextId
    ids := h.ids
    slots := h.slots.trans (ownedSlots_congr howns).symm
    issued := fun id hid => h.issued id ((howns id).mp hid)
    unique := by
      intro u u' id hu hu'
      rcases (exchange_tokens ho ht).mp hu with ⟨hut, hco⟩ | ⟨huo, hu⟩
      · rcases (exchange_tokens ho ht).mp hu' with ⟨hut', _⟩ | ⟨huo', hu'⟩
        · exact hut.trans hut'.symm
        · exact absurd (h.unique u' other id hu' (hco ▸ ho)) huo'
      · rcases (exchange_tokens ho ht).mp hu' with ⟨_, hco'⟩ | ⟨_, hu'⟩
        · exact absurd (h.unique u other id hu (hco' ▸ ho)) huo
        · exact h.unique u u' id hu hu' }

theorem Inv.default (h : Inv l w) (ht : w.tokens t = none) : Inv l (w.set t (some none)) := by
  have htokens : ∀ u id, (w.set t (some none)).tokens u = some (some id) ↔ w.tokens u = some (some id) := by
    intro u id
    show Function.update w.tokens t (some none) u = some (some id) ↔ _
    by_cases hut : u = t
    · rw [hut, Function.update_self, ht]
      simp
    · rw [Function.update_of_ne hut]
  have howns : ∀ id, Owns (w.set t (some none)) id ↔ Owns w id := fun id => exists_congr fun u => htokens u id
  exact {
    nextId := h.nextId
    ids := h.ids
    slots := h.slots.trans (ownedSlots_congr howns).symm
    issued := fun id hid => h.issued id ((howns id).mp hid)
    unique := fun u u' id hu hu' => h.unique u u' id ((htokens u id).mp hu) ((htokens u' id).mp hu') }

theorem Inv.moveAssign (h : Inv l w) (ht : w.tokens t = some conn) (ho : w.tokens other = some co) :
    Inv l ((w.disconnect t conn (some none)).exchange t other) := by
  have hother : ∃ co, (w.disconnect t conn (some none)).tokens other = some co := by
    by_cases hto : other = t
    · exact ⟨none, hto ▸ Function.update_self ..⟩
    · exact ⟨co, (Function.update_of_ne hto _ _).trans ho⟩
  obtain ⟨co', ho'⟩ := hother
  have hold := h.disconnect ht (c := some none) (Or.inr rfl)
  exact hold.exchange ho' fun id hid => ((disconnect_tokens (Or.inr rfl)).mp hid).1 rfl

/-! ## Connecting -/

omit [DecidableEq N] in
theorem Inv.fresh (h : Inv l w) (hlt : l.length < 2 ^ 64) : UInt64.ofNat l.length ∉ l.map Prod.fst := by
  rw [h.ids, List.mem_map]
  intro ⟨i, hi, he⟩
  have hi := List.mem_range.mp hi
  exact absurd (ofNat_inj (Nat.lt_trans hi hlt) hlt he) (Nat.ne_of_lt hi)

theorem Inv.connect (h : Inv l w) (hlt : l.length < 2 ^ 64) (ht : w.tokens t = none) (slot : S) :
    Inv (l ++ [(UInt64.ofNat l.length, slot)])
      ({ w with signal := (w.signal.connect slot).1 }.set t (some (some w.signal.nextId))) := by
  have hfresh := h.fresh hlt
  have htokens : ∀ u id, Function.update w.tokens t (some (some w.signal.nextId)) u = some (some id) ↔
      u = t ∧ id = UInt64.ofNat l.length ∨ w.tokens u = some (some id) := by
    intro u id
    by_cases hut : u = t
    · rw [hut, Function.update_self, ht, h.nextId]
      simp [eq_comm]
    · rw [Function.update_of_ne hut]
      simp [hut]
  have howns : ∀ id, Owns ({ w with signal := (w.signal.connect slot).1 }.set t (some (some w.signal.nextId))) id ↔
      Owns w id ∨ id = UInt64.ofNat l.length := by
    intro id
    constructor
    · intro ⟨u, hu⟩
      exact ((htokens u id).mp hu).elim (fun hu => Or.inr hu.2) (fun hu => Or.inl ⟨u, hu⟩)
    · rintro (⟨u, hu⟩ | hid)
      · exact ⟨u, (htokens u id).mpr (Or.inr hu)⟩
      · exact ⟨t, (htokens t id).mpr (Or.inl ⟨rfl, hid⟩)⟩
  exact {
    nextId := by
      show w.signal.nextId + 1 = _
      rw [h.nextId, List.length_append, List.length_singleton, UInt64.ofNat_add]
      rfl
    ids := by rw [List.map_append, h.ids, List.length_append, List.length_singleton, List.range_succ,
      List.map_append]; rfl
    slots := by
      show w.signal.slots ++ [(w.signal.nextId, slot)] = _
      rw [ownedSlots_append howns hfresh, h.slots, h.nextId]
    issued := by
      intro id hid
      rw [List.map_append, List.mem_append]
      exact ((howns id).mp hid).imp (h.issued id) fun hid => by simp [hid]
    unique := by
      intro u u' id hu hu'
      have hold : ∀ v, w.tokens v ≠ some (some (UInt64.ofNat l.length)) := fun v hv => hfresh (h.issued _ ⟨v, hv⟩)
      rcases (htokens u id).mp hu with ⟨hut, hid⟩ | hu
      · rcases (htokens u' id).mp hu' with ⟨hut', _⟩ | hu'
        · exact hut.trans hut'.symm
        · exact absurd (hid ▸ hu') (hold u')
      · rcases (htokens u' id).mp hu' with ⟨_, hid⟩ | hu'
        · exact absurd (hid ▸ hu) (hold u)
        · exact h.unique u u' id hu hu' }

/-! ## All operations -/

omit [DecidableEq N] in
theorem connected_connect (ops : List (Op N S)) (t : N) (slot : S) :
    connected (ops ++ [.connect t slot]) = connected ops ++ [(UInt64.ofNat (connected ops).length, slot)] := by
  simp [connected, List.filterMap_append, List.mapIdx_concat]

omit [DecidableEq N] in
theorem connected_other (ops : List (Op N S)) (op : Op N S) (h : ∀ t slot, op ≠ .connect t slot) :
    connected (ops ++ [op]) = connected ops := by
  cases op with
  | connect t slot => exact absurd rfl (h t slot)
  | _ => simp [connected, List.filterMap_append]

theorem Inv.step {ops : List (Op N S)} (h : Inv (connected ops) w) {op : Op N S}
    (hlen : (connected (ops ++ [op])).length ≤ 2 ^ 64) (hs : step w op = some w') :
    Inv (connected (ops ++ [op])) w' := by
  cases op with
  | connect t slot =>
    rw [connected_connect] at hlen ⊢
    rw [List.length_append, List.length_singleton] at hlen
    cases ht : w.tokens t with
    | none =>
      simp only [ModernObserver.step, ht, Option.some.injEq] at hs
      exact hs ▸ h.connect (Nat.lt_of_succ_le hlen) ht slot
    | some conn => simp [ModernObserver.step, ht] at hs
  | default t =>
    rw [connected_other ops (.default t) nofun]
    cases ht : w.tokens t with
    | none =>
      simp only [ModernObserver.step, ht, Option.some.injEq] at hs
      exact hs ▸ h.default ht
    | some conn => simp [ModernObserver.step, ht] at hs
  | moveConstruct t other =>
    rw [connected_other ops (.moveConstruct t other) nofun]
    cases ht : w.tokens t with
    | none =>
      cases ho : w.tokens other with
      | none => simp [ModernObserver.step, ht, ho] at hs
      | some co =>
        simp only [ModernObserver.step, ht, ho, Option.some.injEq] at hs
        exact hs ▸ h.exchange ho (by simp [ht])
    | some conn => simp [ModernObserver.step, ht] at hs
  | moveAssign t other =>
    rw [connected_other ops (.moveAssign t other) nofun]
    cases ht : w.tokens t with
    | none => simp [ModernObserver.step, ht] at hs
    | some conn =>
      cases ho : w.tokens other with
      | none => simp [ModernObserver.step, ht, ho] at hs
      | some co =>
        simp only [ModernObserver.step, ht, ho, Option.some.injEq] at hs
        exact hs ▸ h.moveAssign ht ho
  | disconnect t =>
    rw [connected_other ops (.disconnect t) nofun]
    obtain ⟨conn, ht, rfl⟩ := Option.map_eq_some_iff.mp hs
    exact h.disconnect ht (Or.inr rfl)
  | destroy t =>
    rw [connected_other ops (.destroy t) nofun]
    obtain ⟨conn, ht, rfl⟩ := Option.map_eq_some_iff.mp hs
    exact h.disconnect ht (Or.inl rfl)

theorem inv_exec (ops : List (Op N S)) (hlen : (connected ops).length ≤ 2 ^ 64)
    (he : (observer N S).exec ops = some w) : Inv (connected ops) w := by
  induction ops using List.reverseRecOn generalizing w with
  | nil =>
    obtain rfl := Option.some.inj he
    exact ⟨rfl, rfl, rfl, nofun, nofun⟩
  | append_singleton ops op ih =>
    obtain ⟨w₀, _, he₀, hs⟩ := (observer N S).exec_snoc_some he
    obtain ⟨w₁, hstep, hw⟩ := Option.map_eq_some_iff.mp hs
    obtain rfl := (Prod.mk.inj hw).1
    have hmono : (connected ops).length ≤ (connected (ops ++ [op])).length := by
      simp [connected, List.filterMap_append]
    exact (ih (Nat.le_trans hmono hlen) he₀).step hlen hstep

/-! ## From outside -/

structure Subscribed (ops : List (Op N S)) (w : World N S) : Prop where
  stored : ∀ id, id ∈ w.signal.slots.map Prod.fst ↔ ∃ t, w.tokens t = some (some id)
  owner : ∀ id ∈ w.signal.slots.map Prod.fst, ∃! t, w.tokens t = some (some id)
  distinct : (w.signal.slots.map Prod.fst).Nodup
  order : w.signal.slots = ownedSlots (connected ops) w
  emit : ∀ {m : Type → Type} [Monad m] (call : S → m Unit),
    w.signal.emit call = ((ownedSlots (connected ops) w).map Prod.snd).forM call

omit [DecidableEq N] in
theorem emit_eq {m : Type → Type} [Monad m] (l : List (UInt64 × S)) (call : S → m Unit) :
    l.forM (fun p => call p.2) = (l.map Prod.snd).forM call := by
  induction l with
  | nil => rfl
  | cons p l ih => exact congrArg (call p.2 >>= ·) (funext fun _ => ih)

omit [DecidableEq N] in
theorem Inv.stored (h : Inv l w) (id : UInt64) : id ∈ w.signal.slots.map Prod.fst ↔ Owns w id := by
  rw [h.slots, ownedSlots, List.mem_map]
  constructor
  · rintro ⟨p, hp, rfl⟩
    simpa using (List.mem_filter.mp hp).2
  · intro hid
    obtain ⟨p, hp, rfl⟩ := List.mem_map.mp (h.issued id hid)
    exact ⟨p, List.mem_filter.mpr ⟨hp, by simpa using hid⟩, rfl⟩

omit [DecidableEq N] in
theorem Inv.nodup (h : Inv l w) (hlen : l.length ≤ 2 ^ 64) : (l.map Prod.fst).Nodup := by
  rw [h.ids]
  apply List.Nodup.map_on _ List.nodup_range
  intro i hi j hj he
  exact ofNat_inj (Nat.lt_of_lt_of_le (List.mem_range.mp hi) hlen)
    (Nat.lt_of_lt_of_le (List.mem_range.mp hj) hlen) he

/-- **One owner for every slot**, after any operations with at most `2 ^ 64` connections. -/
theorem subscribed_exec (ops : List (Op N S)) (w : World N S) (he : (observer N S).exec ops = some w)
    (hlen : (connected ops).length ≤ 2 ^ 64) : Subscribed ops w := by
  have h := inv_exec ops hlen he
  exact {
    stored := h.stored
    owner := by
      intro id hid
      obtain ⟨t, ht⟩ := (h.stored id).mp hid
      exact ⟨t, ht, fun t' ht' => h.unique t' t id ht' ht⟩
    distinct := by
      rw [h.slots]
      exact (h.nodup hlen).sublist (List.filter_sublist.map Prod.fst)
    order := h.slots
    emit := by
      intro m _ call
      rw [Signal.emit, h.slots]
      exact emit_eq _ call }

end

/-- A token is assigned over one that owns a slot, and another onto itself. -/
def moves {N : Type} (a b c : N) : List (Op N Nat) :=
  [.connect a 10, .connect b 11, .connect c 12, .moveAssign a c, .moveAssign b b]

theorem subscribed_exec_moves : ∃ w, (observer (Fin 3) Nat).exec (moves 0 1 2) = some w ∧
    w.signal.slots = [(2, 12)] ∧ Subscribed (moves 0 1 2) w :=
  ⟨_, rfl, rfl, subscribed_exec (moves 0 1 2) _ rfl (by decide)⟩

/-! ## After the ids have wrapped -/

section
variable {N S : Type} [DecidableEq N] {w : World N S} {t : N}

theorem execFrom_connect_destroy (ht : w.tokens t = none) (hid : w.signal.nextId ∉ w.signal.slots.map Prod.fst)
    (slot : S) : (observer N S).execFrom w [.connect t slot, .destroy t] =
      some { w with signal := { w.signal with nextId := w.signal.nextId + 1 } } := by
  have hslots : (w.signal.slots ++ [(w.signal.nextId, slot)]).filter (fun p => p.1 ≠ w.signal.nextId) =
      w.signal.slots := by
    rw [List.filter_append, List.filter_eq_self.mpr]
    · simp
    · intro p hp
      simpa using fun he : p.1 = w.signal.nextId => hid (he ▸ List.mem_map_of_mem hp)
  have htokens : ∀ c, Function.update (Function.update w.tokens t c) t none = w.tokens := by
    intro c
    rw [Function.update_idem, ← ht, Function.update_eq_self]
  simp only [Machine.execFrom_cons, Machine.execFrom_nil, observer, ModernObserver.step, ht, Signal.connect,
    World.set, World.disconnect, Signal.disconnect, Function.update_self, Option.map_some, Option.bind_some, hslots,
    htokens]

theorem execFrom_churn (ht : w.tokens t = none) (slot : S) (n k : Nat) (hk : w.signal.nextId = UInt64.ofNat k)
    (hid : ∀ j, k ≤ j → j < k + n → UInt64.ofNat j ∉ w.signal.slots.map Prod.fst) :
    (observer N S).execFrom w (List.replicate n [.connect t slot, .destroy t]).flatten =
      some { w with signal := { w.signal with nextId := UInt64.ofNat (k + n) } } := by
  induction n generalizing w k with
  | zero =>
    rw [Nat.add_zero, ← hk]
    rfl
  | succ n ih =>
    have hk₁ : w.signal.nextId + 1 = UInt64.ofNat (k + 1) := by
      rw [hk, UInt64.ofNat_add]
      rfl
    rw [List.replicate_succ, List.flatten_cons, Machine.execFrom_append,
      execFrom_connect_destroy ht (hk ▸ hid k (Nat.le_refl k) (by omega)), Option.bind_some, Nat.add_comm n,
      ← Nat.add_assoc]
    exact ih (w := { w with signal := { w.signal with nextId := w.signal.nextId + 1 } }) ht (k + 1) hk₁
      fun j hj hj' => hid j (by omega) (by omega)

end

/-- A connection that stays, as many short ones as there are other ids, and one more. -/
def wrapOps {N : Type} (a b c : N) : List (Op N Unit) :=
  .connect a () :: ((List.replicate (2 ^ 64 - 1) [.connect b (), .destroy b]).flatten ++ [.connect c ()])

theorem exec_wrapOps : ∃ w, (observer (Fin 3) Unit).exec (wrapOps 0 1 2) = some w ∧
    w.tokens 0 = some (some 0) ∧ w.tokens 2 = some (some 0) := by
  have hid : ∀ j, 1 ≤ j → j < 1 + (2 ^ 64 - 1) → UInt64.ofNat j ∉ [(0 : UInt64)] := by
    intro j hj hj' hmem
    have := ofNat_inj (j := 0) (by omega) (by decide) (List.mem_singleton.mp hmem)
    omega
  unfold wrapOps Machine.exec
  rw [Machine.execFrom_cons, show (observer (Fin 3) Unit).step (observer (Fin 3) Unit).init (.connect 0 ()) =
    some ({ signal := ⟨[(0, ())], 1⟩, tokens := Function.update (fun _ => none) 0 (some (some 0)) }, ()) from rfl,
    Option.bind_some, Machine.execFrom_append, execFrom_churn rfl () (2 ^ 64 - 1) 1 rfl hid, Option.bind_some]
  exact ⟨_, rfl, rfl, rfl⟩

/-- Two live tokens own the id 0. -/
theorem subscribed_wrap : ¬ ∀ (ops : List (Op (Fin 3) Unit)) (w : World (Fin 3) Unit),
    (observer (Fin 3) Unit).exec ops = some w → Subscribed ops w := by
  intro h
  obtain ⟨w, he, h₀, h₂⟩ := exec_wrapOps
  have hs := h (wrapOps 0 1 2) w he
  obtain ⟨t, _, hu⟩ := hs.owner 0 ((hs.stored 0).mpr ⟨0, h₀⟩)
  exact absurd ((hu 0 h₀).trans (hu 2 h₂).symm) (by decide)

end Playground.ModernObserver
