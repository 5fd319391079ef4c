import Mathlib.Data.Int.Order.Basic
import Mathlib.Data.List.Nodup
import Playground.OrderBook

/-!
# Resting orders and their lookup entries

`Inv` holds of every book: the lookup entries point at resting orders, and
iterators are never stale. The converse, that every resting order has its
entry (`Indexed`), needs the ids of resting orders to be distinct: `addOrder`
with the id of a resting order overwrites that order's entry.
-/

namespace Playground.OrderBook

theorem mem_eraseP_addr {P : Type} {level : OrderList P} (hnd : level.Nodup) {n : Node P} (hn : n ∈ level)
    (hu : ∀ m ∈ level, m.addr = n.addr → m = n) {m : Node P} :
    m ∈ (level.eraseP fun m => m.addr = n.addr) ↔ m ∈ level ∧ m ≠ n := by
  by_cases hm : m.addr = n.addr
  · have hp : decide (n.addr = n.addr) = true := decide_eq_true rfl
    obtain ⟨a, l₁, l₂, _, ha, hl, he⟩ := List.exists_of_eraseP (p := fun m => decide (m.addr = n.addr)) hn hp
    obtain rfl : a = n := hu a (by simp [hl]) (of_decide_eq_true ha)
    rw [he]
    constructor
    · intro hm'
      have hml : m ∈ level := by
        rw [hl]
        simp only [List.mem_append, List.mem_cons] at hm' ⊢
        tauto
      obtain rfl := hu m hml hm
      rw [hl] at hnd
      exact absurd hm' (List.nodup_cons.mp (List.nodup_middle.mp hnd)).1
    · intro ⟨hml, hne⟩
      exact absurd (hu m hml hm) hne
  · rw [List.mem_eraseP_of_neg (by simpa using hm)]
    exact ⟨fun h => ⟨h, fun e => hm (by rw [e])⟩, And.left⟩

section
variable {P : Type} [LinearOrder P]

/-! ## Levels -/

@[simp] theorem book_setBook (b : Book P) (side side' : Side) (m : PriceLevel P) :
    (b.setBook side m).book side' = if side' = side then m else b.book side' := by
  cases side <;> cases side' <;> rfl

@[simp] theorem level_orderLookup (b : Book P) (f : UInt64 → Option (OrderLocation P)) (n : Nat) (side : Side)
    (price : P) :
    Book.level { b with orderLookup := f, fresh := n } side price = b.level side price := by
  cases side <;> rfl

theorem level_alter (b : Book P) (side side' : Side) (price price' : P) (v : Option (OrderList P)) :
    (b.setBook side ((b.book side).alter price fun _ => v)).level side' price' =
      if side' = side ∧ price' = price then v.getD [] else b.level side' price' := by
  unfold Book.level
  rw [book_setBook]
  by_cases hs : side' = side
  · subst hs
    by_cases hp : price' = price
    · subst hp
      simp
    · simp [hp, OrdMap.find?_alter_of_ne]
  · simp [hs]

theorem level_addOrder (b : Book P) (id : UInt64) (side side' : Side) (price price' : P) (qty : UInt32)
    (now : Int64) :
    (addOrder b id side price qty now).level side' price' =
      if side' = side ∧ price' = price then b.level side price ++ [⟨b.fresh, id, side, price, qty, now⟩]
      else b.level side' price' := by
  unfold addOrder
  rw [level_orderLookup, level_alter]
  rfl

/-! ## What holds of every book -/

structure Inv (b : Book P) : Prop where
  filed : ∀ {side price n}, n ∈ b.level side price → n.order.side = side ∧ n.order.price = price
  fresh : ∀ {side price n}, n ∈ b.level side price → n.addr < b.fresh
  addr : ∀ {side price side' price' n n'}, n ∈ b.level side price → n' ∈ b.level side' price' →
    n.addr = n'.addr → n = n'
  nodup : ∀ side price, (b.level side price).Nodup
  target : ∀ {id loc}, b.orderLookup id = some loc →
    ∃ n ∈ b.level loc.side loc.price, n.addr = loc.it ∧ n.order.id = id

/-- Every resting order has a lookup entry, under its id. -/
def Indexed (b : Book P) : Prop :=
  ∀ side price n, n ∈ b.level side price → b.orderLookup n.order.id = some ⟨side, price, n.addr⟩

theorem inv_init : Inv ({} : Book P) where
  filed := by intro side _ _ h; cases side <;> exact absurd h List.not_mem_nil
  fresh := by intro side _ _ h; cases side <;> exact absurd h List.not_mem_nil
  addr := by intro side _ _ _ _ _ h; cases side <;> exact absurd h List.not_mem_nil
  nodup := by intro side _; cases side <;> exact List.nodup_nil
  target := by intro _ _ h; cases h

theorem indexed_init : Indexed ({} : Book P) := by
  intro side _ _ h
  cases side <;> exact absurd h List.not_mem_nil

/-! ## addOrder -/

section
variable {b : Book P} {id : UInt64} {side : Side} {price : P} {qty : UInt32} {now : Int64}

theorem mem_level_addOrder {side' : Side} {price' : P} {n : Node P} :
    n ∈ (addOrder b id side price qty now).level side' price' ↔
      n ∈ b.level side' price' ∨ side' = side ∧ price' = price ∧ n = ⟨b.fresh, id, side, price, qty, now⟩ := by
  rw [level_addOrder]
  by_cases h : side' = side ∧ price' = price
  · obtain ⟨rfl, rfl⟩ := h
    simp
  · rw [if_neg h]
    exact ⟨Or.inl, fun hn => hn.resolve_right fun ⟨hs, hp, _⟩ => h ⟨hs, hp⟩⟩

theorem inv_addOrder (h : Inv b) : Inv (addOrder b id side price qty now) where
  filed := by
    intro side' price' n hn
    rcases mem_level_addOrder.mp hn with hn | ⟨rfl, rfl, rfl⟩
    · exact h.filed hn
    · exact ⟨rfl, rfl⟩
  fresh := by
    intro side' price' n hn
    show n.addr < b.fresh + 1
    rcases mem_level_addOrder.mp hn with hn | ⟨_, _, rfl⟩
    · exact Nat.lt_succ_of_lt (h.fresh hn)
    · exact Nat.lt_succ_self _
  addr := by
    intro s₁ p₁ s₂ p₂ n n' hn hn' he
    rcases mem_level_addOrder.mp hn with hn | ⟨_, _, rfl⟩ <;> rcases mem_level_addOrder.mp hn' with hn' |
      ⟨_, _, rfl⟩
    · exact h.addr hn hn' he
    · exact absurd he (Nat.ne_of_lt (h.fresh hn))
    · exact absurd he.symm (Nat.ne_of_lt (h.fresh hn'))
    · rfl
  nodup := by
    intro side' price'
    rw [level_addOrder]
    split
    · refine List.nodup_append.mpr ⟨h.nodup _ _, List.nodup_singleton _, ?_⟩
      intro n hn n' hn' e
      obtain rfl := List.mem_singleton.mp hn'
      exact absurd (h.fresh hn) (by simp [e])
    · exact h.nodup _ _
  target := by
    intro id' loc hl
    change Function.update b.orderLookup id _ id' = some loc at hl
    by_cases hid : id' = id
    · subst hid
      rw [Function.update_self] at hl
      obtain rfl := Option.some.inj hl
      exact ⟨_, mem_level_addOrder.mpr (Or.inr ⟨rfl, rfl, rfl⟩), rfl, rfl⟩
    · rw [Function.update_of_ne hid] at hl
      obtain ⟨n, hn, ha, hi⟩ := h.target hl
      exact ⟨n, mem_level_addOrder.mpr (Or.inl hn), ha, hi⟩

theorem indexed_addOrder (h : Indexed b) (hid : ∀ n, b.Resting n → n.order.id ≠ id) :
    Indexed (addOrder b id side price qty now) := by
  intro side' price' n hn
  show Function.update b.orderLookup id _ n.order.id = _
  rcases mem_level_addOrder.mp hn with hn | ⟨rfl, rfl, rfl⟩
  · rw [Function.update_of_ne (hid n ⟨_, _, hn⟩)]
    exact h _ _ n hn
  · exact Function.update_self ..

theorem not_indexed_addOrder (h : Inv b) {n : Node P} (hn : b.Resting n) (hid : n.order.id = id) :
    ¬ Indexed (addOrder b id side price qty now) := by
  obtain ⟨side', price', hn⟩ := hn
  intro hx
  have hl := hx _ _ n (mem_level_addOrder.mpr (Or.inl hn))
  change Function.update b.orderLookup id _ n.order.id = _ at hl
  rw [hid, Function.update_self] at hl
  have ha : b.fresh = n.addr := congrArg OrderLocation.it (Option.some.inj hl)
  exact absurd (h.fresh hn) (by omega)

end

/-! ## cancelOrder -/

structure Cancelled (b : Book P) (id : UInt64) (n : Node P) (b' : Book P) : Prop where
  resting : b.Resting n
  id_eq : n.order.id = id
  mem_level : ∀ {side price m}, m ∈ b'.level side price ↔ m ∈ b.level side price ∧ m ≠ n
  sublist : ∀ side price, (b'.level side price).Sublist (b.level side price)
  orderLookup : b'.orderLookup = Function.update b.orderLookup id none
  fresh : b'.fresh = b.fresh

theorem cancelOrder_none {b : Book P} {id : UInt64} (h : b.orderLookup id = none) :
    cancelOrder b id = some (b, false) := by
  simp [cancelOrder, h]

theorem find?_of_mem_level {b : Book P} {side : Side} {price : P} {n : Node P} (h : n ∈ b.level side price) :
    (b.book side).find? price = some (b.level side price) := by
  unfold Book.level at h ⊢
  cases hf : (b.book side).find? price with
  | none => rw [hf] at h; exact absurd h List.not_mem_nil
  | some level => rfl

theorem cancelOrder_some {b : Book P} (h : Inv b) {id : UInt64} {loc : OrderLocation P}
    (hl : b.orderLookup id = some loc) :
    ∃ n b', n.addr = loc.it ∧ cancelOrder b id = some (b', true) ∧ Cancelled b id n b' := by
  obtain ⟨side, price, it⟩ := loc
  obtain ⟨n, hn, rfl, hid⟩ := h.target hl
  have herase : eraseNode (b.level side price) n.addr =
      some ((b.level side price).eraseP fun m => m.addr = n.addr) := by
    unfold eraseNode
    rw [if_pos (List.any_eq_true.mpr ⟨n, hn, by simp⟩)]
  generalize hle : ((b.level side price).eraseP fun m => m.addr = n.addr) = left at herase
  let m := (b.book side).alter price fun _ => if left.isEmpty then none else some left
  let b' : Book P := { b.setBook side m with orderLookup := Function.update b.orderLookup id none }
  have hlevel : ∀ side' price', b'.level side' price' =
      if side' = side ∧ price' = price then left else b.level side' price' := by
    intro side' price'
    have hget : (if left.isEmpty then none else some left).getD [] = left := by cases left <;> rfl
    have := level_alter b side side' price price' (if left.isEmpty then none else some left)
    rw [hget] at this
    rw [← this]
    exact level_orderLookup (b.setBook side m) _ _ side' price'
  refine ⟨n, b', rfl, ?_, ⟨_, _, hn⟩, hid, ?_, ?_, rfl, ?_⟩
  · unfold cancelOrder
    simp only [hl, find?_of_mem_level hn, herase]
    rfl
  · intro side' price' m
    rw [hlevel]
    by_cases hsp : side' = side ∧ price' = price
    · obtain ⟨rfl, rfl⟩ := hsp
      rw [if_pos ⟨rfl, rfl⟩, ← hle]
      exact mem_eraseP_addr (h.nodup _ _) hn fun m hm he => h.addr hm hn he
    · rw [if_neg hsp]
      refine ⟨fun hm => ⟨hm, ?_⟩, And.left⟩
      intro heq
      subst heq
      exact hsp ⟨(h.filed hm).1.symm.trans (h.filed hn).1, (h.filed hm).2.symm.trans (h.filed hn).2⟩
  · intro side' price'
    rw [hlevel]
    split
    · rename_i hsp
      rw [hsp.1, hsp.2, ← hle]
      exact List.eraseP_sublist
    · exact List.Sublist.refl _
  · cases side <;> rfl

theorem inv_cancelled {b b' : Book P} {id : UInt64} {n : Node P} (h : Inv b) (hc : Cancelled b id n b') :
    Inv b' where
  filed hm := h.filed (hc.mem_level.mp hm).1
  fresh hm := hc.fresh ▸ h.fresh (hc.mem_level.mp hm).1
  addr hm hm' := h.addr (hc.mem_level.mp hm).1 (hc.mem_level.mp hm').1
  nodup side price := (h.nodup side price).sublist (hc.sublist side price)
  target := by
    intro id' loc hl
    rw [hc.orderLookup] at hl
    by_cases hid : id' = id
    · rw [hid, Function.update_self] at hl
      cases hl
    · rw [Function.update_of_ne hid] at hl
      obtain ⟨m, hm, ha, hi⟩ := h.target hl
      refine ⟨m, hc.mem_level.mpr ⟨hm, ?_⟩, ha, hi⟩
      intro heq
      subst heq
      exact hid (hi.symm.trans hc.id_eq)

theorem indexed_cancelled {b b' : Book P} {id : UInt64} {n : Node P} (h : Inv b) (hx : Indexed b)
    (hc : Cancelled b id n b') : Indexed b' := by
  intro side price m hm
  obtain ⟨hm, hne⟩ := hc.mem_level.mp hm
  have hl := hx side price m hm
  rw [hc.orderLookup, Function.update_of_ne, hl]
  intro hid
  obtain ⟨side', price', hn⟩ := hc.resting
  have hl' := hx side' price' n hn
  rw [hc.id_eq, ← hid, hl] at hl'
  exact hne (h.addr hm hn (congrArg OrderLocation.it (Option.some.inj hl')))

/-! ## The correspondence -/

/-- Resting orders and lookup entries correspond one to one, so `cancelOrder`
finds exactly the resting orders. -/
structure Cancellable (b : Book P) : Prop where
  nodup : ∀ side price, (b.level side price).Nodup
  filed : ∀ side price n, n ∈ b.level side price → n.order.side = side ∧ n.order.price = price
  entry : ∀ n, b.Resting n → ∃! id, b.Points id n
  target : ∀ id loc, b.orderLookup id = some loc → ∃! n, b.Resting n ∧ b.Points id n
  filed_under : ∀ id n, b.Points id n →
    n.order.id = id ∧ b.orderLookup id = some ⟨n.order.side, n.order.price, n.addr⟩
  cancel : ∀ id, ∃ b' r, cancelOrder b id = some (b', r) ∧
    (r = true ↔ ∃ n, b.Resting n ∧ n.order.id = id) ∧ ∀ n, b'.Resting n → n.order.id ≠ id

theorem Inv.points {b : Book P} (h : Inv b) {id : UInt64} {n : Node P} (hp : b.Points id n) :
    n.order.id = id ∧ b.orderLookup id = some ⟨n.order.side, n.order.price, n.addr⟩ := by
  obtain ⟨⟨side, price, it⟩, hl, hn, rfl⟩ := hp
  obtain ⟨m, hm, ha, hi⟩ := h.target hl
  obtain rfl := h.addr hm hn ha
  obtain ⟨rfl, rfl⟩ := h.filed hn
  exact ⟨hi, hl⟩

theorem Indexed.points {b : Book P} (hx : Indexed b) {n : Node P} (hn : b.Resting n) : b.Points n.order.id n := by
  obtain ⟨side, price, hn⟩ := hn
  exact ⟨_, hx side price n hn, hn, rfl⟩

theorem Indexed.cancel {b : Book P} (h : Inv b) (hx : Indexed b) (id : UInt64) :
    ∃ b' r, cancelOrder b id = some (b', r) ∧
      (r = true ↔ ∃ n, b.Resting n ∧ n.order.id = id) ∧ ∀ n, b'.Resting n → n.order.id ≠ id := by
  cases hl : b.orderLookup id with
  | none =>
    have hno : ∀ n, b.Resting n → n.order.id ≠ id := by
      rintro n ⟨side, price, hn⟩ rfl
      rw [hx side price n hn] at hl
      cases hl
    refine ⟨b, false, cancelOrder_none hl, ?_, hno⟩
    simp only [Bool.false_eq_true, false_iff]
    intro ⟨n, hn, hid⟩
    exact hno n hn hid
  | some loc =>
    obtain ⟨n, b', _, he, hc⟩ := cancelOrder_some h hl
    refine ⟨b', true, he, iff_of_true rfl ⟨n, hc.resting, hc.id_eq⟩, ?_⟩
    intro m ⟨side, price, hm⟩ hid
    have hl' := indexed_cancelled h hx hc side price m hm
    rw [hc.orderLookup, hid, Function.update_self] at hl'
    cases hl'

theorem cancellable_iff_indexed {b : Book P} (h : Inv b) : Cancellable b ↔ Indexed b := by
  constructor
  · intro hc side price n hn
    obtain ⟨id, hp, _⟩ := hc.entry n ⟨side, price, hn⟩
    obtain ⟨rfl, hl⟩ := h.points hp
    obtain ⟨rfl, rfl⟩ := h.filed hn
    exact hl
  · intro hx
    exact {
      nodup := h.nodup
      filed := fun _ _ _ hn => h.filed hn
      entry := fun n hn => ⟨n.order.id, hx.points hn, fun id hp => (h.points hp).1.symm⟩
      target := by
        intro id loc hl
        obtain ⟨n, hn, ha, hid⟩ := h.target hl
        refine ⟨n, ⟨⟨_, _, hn⟩, loc, hl, hn, ha⟩, ?_⟩
        intro m ⟨⟨side, price, hm⟩, loc', hl', _, ha'⟩
        obtain rfl := Option.some.inj (hl.symm.trans hl')
        exact h.addr hm hn (ha'.trans ha.symm)
      filed_under := fun _ _ hp => h.points hp
      cancel := hx.cancel h }

/-! ## Runs -/

/-- `addOrder` is not given the id of a resting order. -/
def FreshId (b : Book P) : Call P → Prop
  | .addOrder id _ _ _ _ => ∀ n, b.Resting n → n.order.id ≠ id
  | .cancelOrder _ => True

/-- What a call does: an order is added, or there is none to cancel, or one is cancelled. -/
inductive Stepped (b : Book P) : Call P → Book P → Prop
  | added (id : UInt64) (side : Side) (price : P) (qty : UInt32) (now : Int64) :
    Stepped b (.addOrder id side price qty now) (addOrder b id side price qty now)
  | absent (id : UInt64) (h : b.orderLookup id = none) : Stepped b (.cancelOrder id) b
  | cancelled (id : UInt64) (n : Node P) (b' : Book P) (h : cancelOrder b id = some (b', true))
    (hc : Cancelled b id n b') : Stepped b (.cancelOrder id) b'

theorem step_stepped {b : Book P} (h : Inv b) (c : Call P) :
    ∃ b' o, (orderBook P).step b c = some (b', o) ∧ Stepped b c b' := by
  cases c with
  | addOrder id side price qty now => exact ⟨_, _, rfl, .added id side price qty now⟩
  | cancelOrder id =>
    cases hl : b.orderLookup id with
    | none => exact ⟨b, some false, by simp [orderBook, cancelOrder_none hl], .absent id hl⟩
    | some loc =>
      obtain ⟨n, b', _, he, hc⟩ := cancelOrder_some h hl
      exact ⟨b', some true, by simp [orderBook, he], .cancelled id n b' he hc⟩

theorem Stepped.of_step {b b' : Book P} {c : Call P} {o : Option Bool} (h : Inv b)
    (hs : (orderBook P).step b c = some (b', o)) : Stepped b c b' := by
  obtain ⟨b₁, o₁, hs₁, hst⟩ := step_stepped h c
  rw [hs₁] at hs
  obtain ⟨rfl, rfl⟩ := Prod.mk.inj (Option.some.inj hs)
  exact hst

theorem Stepped.inv {b b' : Book P} {c : Call P} (h : Inv b) (hst : Stepped b c b') : Inv b' := by
  cases hst with
  | added id side price qty now => exact inv_addOrder h
  | absent id hl => exact h
  | cancelled id n b' he hc => exact inv_cancelled h hc

theorem inv_step (b : Book P) (c : Call P) (h : Inv b) :
    ∃ b' o, (orderBook P).step b c = some (b', o) ∧ Inv b' := by
  obtain ⟨b', o, hs, hst⟩ := step_stepped h c
  exact ⟨b', o, hs, hst.inv h⟩

theorem indexed_step (b : Book P) (c : Call P) (b' : Book P) (o : Option Bool) (h : Inv b) (hx : Indexed b)
    (hs : (orderBook P).step b c = some (b', o)) : Indexed b' ↔ FreshId b c := by
  cases Stepped.of_step h hs with
  | added id side price qty now =>
    constructor
    · intro hx' n hn hid
      exact not_indexed_addOrder h hn hid hx'
    · exact indexed_addOrder hx
  | absent id hl => exact iff_of_true hx trivial
  | cancelled id n b' he hc => exact iff_of_true (indexed_cancelled h hx hc) trivial

/-- **Every resting order stays cancellable** all along a run if and only if
no order is added under the id of a resting one. -/
theorem cancellable_iff_freshId (P : Type) [LinearOrder P] (cs : List (Call P)) :
    (∀ cs', cs' <+: cs → ∃ b, (orderBook P).exec cs' = some b ∧ Cancellable b) ↔
      (orderBook P).Guarded FreshId cs := by
  apply (orderBook P).guarded_iff inv_init ((cancellable_iff_indexed inv_init).mpr indexed_init) inv_step
  intro b c b' o h h' hb hs
  rw [cancellable_iff_indexed h']
  exact indexed_step b c b' o h ((cancellable_iff_indexed h).mp hb) hs

end

def duplicate : List (Call ℤ) :=
  [.addOrder 1 .Buy 100 500 0, .addOrder 1 .Buy 100 300 1, .cancelOrder 1]

/-- The first order rests for good: the entry that led to it is gone. -/
theorem duplicate_not_cancellable : ∃ b, (orderBook ℤ).exec duplicate = some b ∧
    b.level .Buy 100 = [⟨0, 1, .Buy, 100, 500, 0⟩] ∧ cancelOrder b 1 = some (b, false) ∧ ¬ Cancellable b := by
  refine ⟨_, rfl, by decide, rfl, fun h => ?_⟩
  obtain ⟨b', r, he, hr, _⟩ := h.cancel 1
  have hf : r = false := (Prod.mk.inj (Option.some.inj he)).2.symm
  have ht : r = true := hr.mpr ⟨⟨0, 1, .Buy, 100, 500, 0⟩, ⟨.Buy, 100, by decide⟩, rfl⟩
  rw [hf] at ht
  cases ht

end Playground.OrderBook
