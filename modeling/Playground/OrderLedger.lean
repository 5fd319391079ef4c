import Playground.OrderBookSound

/-!
# The live orders

What an order book stands for: the list of the orders that were added and not
cancelled, in the order they were added. The ledger refuses an order whose id
is still live. `Shows` relates a book to the ledger: each level lists the live
orders of its side and price, and no level of the map is empty.
-/

namespace Playground.OrderBook

section
variable {P : Type}

def live (os : List (Order P)) (id : UInt64) : Bool := os.any fun o => o.id = id

def ledgerStep (os : List (Order P)) : Call P → Option (List (Order P) × Option Bool)
  | .addOrder id side price qty now =>
    if live os id then none else some (os ++ [⟨id, side, price, qty, now⟩], none)
  | .cancelOrder id => some (os.filter fun o => o.id ≠ id, some (live os id))

def ledger (P : Type) : Machine (List (Order P)) (Call P) (Option Bool) where
  init := []
  step := ledgerStep

theorem live_iff {os : List (Order P)} {id : UInt64} : live os id = true ↔ ∃ o ∈ os, o.id = id := by
  simp [live]

variable [LinearOrder P]

/-- The live orders of a side at a price, oldest first. -/
def queue (os : List (Order P)) (side : Side) (price : P) : List (Order P) :=
  os.filter fun o => o.side = side ∧ o.price = price

/-- No level of the maps is empty. -/
def Tidy (b : Book P) : Prop := ∀ side, ∀ e ∈ (b.book side).entries, e.2 ≠ []

structure Shows (b : Book P) (os : List (Order P)) : Prop where
  inv : Inv b
  indexed : Indexed b
  tidy : Tidy b
  level : ∀ side price, (b.level side price).map Node.order = queue os side price

/-! ## Levels that are not empty -/

theorem tidy_init : Tidy ({} : Book P) := by
  intro side e he
  cases side <;> exact absurd he List.not_mem_nil

theorem tidy_alter {b : Book P} (h : Tidy b) (side : Side) (price : P) (v : Option (OrderList P))
    (hv : v ≠ some []) :
    Tidy (b.setBook side ((b.book side).alter price fun _ => v)) := by
  intro side' e he
  rw [book_setBook] at he
  split at he
  · rcases OrdMap.mem_alter.mp he with ⟨hmem, _⟩ | ⟨w, hw, rfl⟩
    · exact h side e hmem
    · intro hnil
      exact hv (by rw [hw]; exact congrArg some hnil)
  · exact h side' e he

theorem tidy_orderLookup {b : Book P} (h : Tidy b) (f : UInt64 → Option (OrderLocation P)) (n : Nat) :
    Tidy { b with orderLookup := f, fresh := n } := by
  intro side e he
  apply h side e
  cases side <;> exact he

theorem tidy_addOrder {b : Book P} (h : Tidy b) (id : UInt64) (side : Side) (price : P) (qty : UInt32)
    (now : Int64) :
    Tidy (addOrder b id side price qty now) :=
  tidy_orderLookup (tidy_alter h side price _ (by simp)) _ _

theorem tidy_cancelOrder {b b' : Book P} {id : UInt64} {r : Bool} (h : Tidy b)
    (hc : cancelOrder b id = some (b', r)) :
    Tidy b' := by
  unfold cancelOrder at hc
  split at hc
  · obtain ⟨rfl, rfl⟩ := Prod.mk.inj (Option.some.inj hc)
    exact h
  · split at hc
    · obtain ⟨rfl, rfl⟩ := Prod.mk.inj (Option.some.inj hc)
      exact tidy_orderLookup h _ b.fresh
    · obtain ⟨left, _, heq⟩ := Option.map_eq_some_iff.mp hc
      obtain ⟨rfl, rfl⟩ := Prod.mk.inj heq
      refine tidy_orderLookup (tidy_alter h _ _ _ ?_) _ _
      cases left <;> simp

/-! ## Levels after a cancel -/

theorem Indexed.eq_of_id {b : Book P} (h : Inv b) (hx : Indexed b) {m n : Node P} (hm : b.Resting m)
    (hn : b.Resting n) (hid : m.order.id = n.order.id) : m = n := by
  obtain ⟨side, price, hm⟩ := hm
  obtain ⟨side', price', hn⟩ := hn
  have hl := hx side price m hm
  rw [hid, hx side' price' n hn] at hl
  exact h.addr hm hn (congrArg OrderLocation.it (Option.some.inj hl)).symm

theorem Cancelled.level_eq {b b' : Book P} {id : UInt64} {n : Node P} (h : Inv b) (hx : Indexed b)
    (hc : Cancelled b id n b') (side : Side) (price : P) :
    b'.level side price = (b.level side price).filter fun m => m.order.id ≠ id := by
  have hmem : ∀ m, m ∈ b'.level side price ↔ m ∈ (b.level side price).filter fun m => m.order.id ≠ id := by
    intro m
    rw [hc.mem_level, List.mem_filter, decide_eq_true_eq]
    refine and_congr_right fun hm => not_congr ⟨?_, ?_⟩
    · intro heq
      rw [heq, hc.id_eq]
    · intro hid
      exact hx.eq_of_id h ⟨side, price, hm⟩ hc.resting (hid.trans hc.id_eq.symm)
  have hsub := (hc.sublist side price).filter fun m => m.order.id ≠ id
  rw [List.filter_eq_self.mpr fun m hm => (List.mem_filter.mp ((hmem m).mp hm)).2] at hsub
  have hnodup := h.nodup side price
  have hperm := (List.perm_ext_iff_of_nodup (hnodup.sublist (hc.sublist side price)) (hnodup.filter _)).mpr hmem
  exact hsub.eq_of_length hperm.length_eq

/-! ## The book shows the ledger -/

theorem Shows.mem_live {b : Book P} {os : List (Order P)} (h : Shows b os) {o : Order P} :
    o ∈ os ↔ ∃ n, b.Resting n ∧ n.order = o := by
  constructor
  · intro ho
    have hat : o ∈ queue os o.side o.price := by simp [queue, ho]
    rw [← h.level] at hat
    obtain ⟨n, hn, heq⟩ := List.mem_map.mp hat
    exact ⟨n, ⟨_, _, hn⟩, heq⟩
  · rintro ⟨n, ⟨side, price, hn⟩, rfl⟩
    have hat := List.mem_map_of_mem (f := Node.order) hn
    rw [h.level] at hat
    exact List.mem_of_mem_filter hat

theorem Shows.live_iff {b : Book P} {os : List (Order P)} (h : Shows b os) {id : UInt64} :
    live os id = true ↔ ∃ n, b.Resting n ∧ n.order.id = id := by
  rw [OrderBook.live_iff]
  constructor
  · rintro ⟨o, ho, hid⟩
    obtain ⟨n, hn, rfl⟩ := h.mem_live.mp ho
    exact ⟨n, hn, hid⟩
  · rintro ⟨n, hn, hid⟩
    exact ⟨n.order, h.mem_live.mpr ⟨n, hn, rfl⟩, hid⟩

theorem Shows.addOrder {b : Book P} {os : List (Order P)} (h : Shows b os) {id : UInt64} (hid : live os id = false)
    (side : Side) (price : P) (qty : UInt32) (now : Int64) :
    Shows (addOrder b id side price qty now) (os ++ [⟨id, side, price, qty, now⟩]) where
  inv := inv_addOrder h.inv
  indexed := by
    apply indexed_addOrder h.indexed
    intro n hn heq
    rw [h.live_iff.mpr ⟨n, hn, heq⟩] at hid
    cases hid
  tidy := tidy_addOrder h.tidy id side price qty now
  level := by
    intro side' price'
    rw [level_addOrder, queue, List.filter_append, ← queue, ← h.level side' price']
    by_cases hsp : side' = side ∧ price' = price
    · obtain ⟨rfl, rfl⟩ := hsp
      simp
    · have hno : ¬ (side = side' ∧ price = price') := fun ⟨hs, hp⟩ => hsp ⟨hs.symm, hp.symm⟩
      simp [hsp, hno]

theorem Shows.cancelOrder {b : Book P} {os : List (Order P)} (h : Shows b os) (id : UInt64) :
    ∃ b', cancelOrder b id = some (b', live os id) ∧ Shows b' (os.filter fun o => o.id ≠ id) := by
  cases hl : b.orderLookup id with
  | none =>
    have hno : ∀ n, b.Resting n → n.order.id ≠ id := by
      rintro n ⟨side, price, hn⟩ rfl
      rw [h.indexed side price n hn] at hl
      cases hl
    have hlive : live os id = false := by
      rw [Bool.eq_false_iff]
      intro ht
      obtain ⟨n, hn, hid⟩ := h.live_iff.mp ht
      exact hno n hn hid
    have hfilter : (os.filter fun o => o.id ≠ id) = os := by
      rw [List.filter_eq_self]
      intro o ho
      obtain ⟨n, hn, rfl⟩ := h.mem_live.mp ho
      simpa using hno n hn
    exact ⟨b, by rw [cancelOrder_none hl, hlive], hfilter.symm ▸ h⟩
  | some loc =>
    obtain ⟨n, b', _, he, hc⟩ := cancelOrder_some h.inv hl
    have hlive : live os id = true := h.live_iff.mpr ⟨n, hc.resting, hc.id_eq⟩
    refine ⟨b', by rw [he, hlive], inv_cancelled h.inv hc, indexed_cancelled h.inv h.indexed hc,
      tidy_cancelOrder h.tidy he, ?_⟩
    intro side price
    rw [hc.level_eq h.inv h.indexed, queue, List.filter_comm, ← queue, ← h.level, List.filter_map]
    rfl

/-- **The book shows the live orders** after every run of the ledger. -/
theorem orderBook_refines (P : Type) [LinearOrder P] : (orderBook P).Refines (ledger P) Shows where
  init := ⟨inv_init, indexed_init, tidy_init, by intro side price; cases side <;> rfl⟩
  step := by
    intro b os c os' o h hs
    cases c with
    | addOrder id side price qty now =>
      change (if live os id then none else some _) = _ at hs
      split at hs
      · cases hs
      · rename_i hid
        obtain ⟨rfl, rfl⟩ := Prod.mk.inj (Option.some.inj hs)
        exact ⟨_, rfl, h.addOrder (Bool.eq_false_iff.mpr hid) side price qty now⟩
    | cancelOrder id =>
      obtain ⟨rfl, rfl⟩ := Prod.mk.inj (Option.some.inj hs)
      obtain ⟨b', he, hb⟩ := h.cancelOrder id
      exact ⟨b', by simp [orderBook, he], hb⟩

/-- The ledger takes exactly the runs in which no order is added under the id
of a resting one. -/
theorem guarded_freshId_iff (cs : List (Call P)) :
    (orderBook P).Guarded FreshId cs ↔ ∃ os, (ledger P).exec cs = some os := by
  induction cs using List.reverseRecOn with
  | nil => exact iff_of_true trivial ⟨[], rfl⟩
  | append_singleton cs c ih =>
    have hstep : ∀ b os, Shows b os → (FreshId b c ↔ ∃ p, (ledger P).step os c = some p) := by
      intro b os h
      cases c with
      | addOrder id side price qty now =>
        show (∀ n, b.Resting n → n.order.id ≠ id) ↔ ∃ p, (if live os id then none else some _) = some p
        by_cases hid : live os id = true
        · obtain ⟨n, hn, heq⟩ := h.live_iff.mp hid
          simp only [hid, if_true, reduceCtorEq, exists_const, iff_false]
          exact fun hno => hno n hn heq
        · rw [if_neg hid]
          exact iff_of_true (fun n hn heq => hid (h.live_iff.mpr ⟨n, hn, heq⟩)) ⟨_, rfl⟩
      | cancelOrder id => exact iff_of_true trivial ⟨_, rfl⟩
    rw [Machine.guarded_snoc, ih]
    constructor
    · rintro ⟨⟨os, hos⟩, hfresh⟩
      obtain ⟨b, he, hb⟩ := (orderBook_refines P).exec hos
      obtain ⟨⟨os', o⟩, hs⟩ := (hstep b os hb).mp (hfresh b he)
      exact ⟨os', Machine.exec_snoc_of _ hos hs⟩
    · rintro ⟨os', h⟩
      obtain ⟨os, o, hos, hs⟩ := Machine.exec_snoc_some _ h
      obtain ⟨b, he, hb⟩ := (orderBook_refines P).exec hos
      refine ⟨⟨os, hos⟩, fun b' he' => ?_⟩
      obtain rfl := Option.some.inj (he.symm.trans he')
      exact (hstep b os hb).mpr ⟨_, hs⟩

end

end Playground.OrderBook
