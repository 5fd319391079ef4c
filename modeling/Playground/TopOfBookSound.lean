import Mathlib.Algebra.GroupWithZero.Nat
import Mathlib.Algebra.Order.BigOperators.Group.List
import Mathlib.Algebra.Order.Group.Nat
import Mathlib.Algebra.Ring.Int.Defs
import Mathlib.Order.Bounds.Basic
import Playground.OrderLedger

/-!
# The top of the book

The maps are read at their ends, so the prices reported are the best ones
because no level of a map is empty. The quantities are added up in 32 bits.
-/

namespace Playground.OrderBook

section
variable {P : Type} [LinearOrder P]

def quantities (os : List (Order P)) : Nat := (os.map fun o => o.quantity.toNat).sum

/-- The highest bid or the lowest ask. -/
def IsBest (side : Side) (s : Set P) (p : P) : Prop :=
  match side with
  | .Buy => IsGreatest s p
  | .Sell => IsLeast s p

def TopOfBook.price [Zero P] (top : TopOfBook P) : Side → P
  | .Buy => top.bestBid
  | .Sell => top.bestAsk

def TopOfBook.qty [Zero P] (top : TopOfBook P) : Side → UInt32
  | .Buy => top.bidQty
  | .Sell => top.askQty

def Book.prices (b : Book P) (side : Side) : Set P := {p | b.level side p ≠ []}

def Book.total (b : Book P) (side : Side) (p : P) : Nat := quantities ((b.level side p).map Node.order)

/-! ## The ends of the maps -/

def bestEntry (b : Book P) : Side → Option (P × OrderList P)
  | .Buy => b.bids.entries.getLast?
  | .Sell => b.asks.entries.head?

def levelQty (level : OrderList P) : UInt32 := level.foldl (fun qty n => qty + n.order.quantity) 0

theorem getTopOfBook_side [Zero P] (b : Book P) (side : Side) :
    (getTopOfBook b).price side = ((bestEntry b side).map Prod.fst).getD 0 ∧
      (getTopOfBook b).qty side = ((bestEntry b side).map fun e => levelQty e.2).getD 0 := by
  unfold getTopOfBook
  cases side <;> cases hb : b.bids.entries.getLast? <;> cases ha : b.asks.entries.head? <;>
    simp [bestEntry, hb, ha, TopOfBook.price, TopOfBook.qty, levelQty]

omit [LinearOrder P] in
theorem foldl_quantity (level : OrderList P) (qty : UInt32) :
    (level.foldl (fun qty n => qty + n.order.quantity) qty).toNat =
      (qty.toNat + quantities (level.map Node.order)) % 2 ^ 32 := by
  induction level generalizing qty with
  | nil => simp [quantities, Nat.mod_eq_of_lt qty.toNat_lt]
  | cons n level ih =>
    rw [List.foldl_cons, ih, UInt32.toNat_add, Nat.mod_add_mod]
    simp [quantities, Nat.add_assoc]

theorem level_of_mem_entries {b : Book P} {side : Side} {e : P × OrderList P} (he : e ∈ (b.book side).entries) :
    b.level side e.1 = e.2 := by
  unfold Book.level
  rw [OrdMap.mem_entries.mp he]
  rfl

theorem mem_prices {b : Book P} (ht : Tidy b) {side : Side} {p : P} :
    p ∈ b.prices side ↔ ∃ e ∈ (b.book side).entries, e.1 = p := by
  constructor
  · intro hp
    obtain ⟨n, hn⟩ := List.exists_mem_of_ne_nil _ hp
    exact ⟨(p, b.level side p), OrdMap.mem_entries.mpr (find?_of_mem_level hn), rfl⟩
  · rintro ⟨e, he, rfl⟩
    show b.level side e.1 ≠ []
    rw [level_of_mem_entries he]
    exact ht side e he

theorem bestEntry_mem {b : Book P} {side : Side} {e : P × OrderList P} (he : bestEntry b side = some e) :
    e ∈ (b.book side).entries := by
  cases side with
  | Buy => exact List.mem_of_getLast? he
  | Sell => exact List.mem_of_head? he

theorem bestEntry_best {b : Book P} (ht : Tidy b) {side : Side} {e : P × OrderList P}
    (he : bestEntry b side = some e) :
    IsBest side (b.prices side) e.1 := by
  have hmem : e.1 ∈ b.prices side := (mem_prices ht).mpr ⟨e, bestEntry_mem he, rfl⟩
  cases side with
  | Buy =>
    refine ⟨hmem, fun p hp => ?_⟩
    obtain ⟨e', he', rfl⟩ := (mem_prices ht).mp hp
    rcases OrdMap.lt_of_getLast? he he' with rfl | hlt
    · exact le_rfl
    · exact hlt.le
  | Sell =>
    refine ⟨hmem, fun p hp => ?_⟩
    obtain ⟨e', he', rfl⟩ := (mem_prices ht).mp hp
    rcases OrdMap.lt_of_head? he he' with rfl | hlt
    · exact le_rfl
    · exact hlt.le

theorem bestEntry_none {b : Book P} (ht : Tidy b) {side : Side} (he : bestEntry b side = none) :
    b.prices side = ∅ := by
  have hnil : (b.book side).entries = [] := by
    cases side with
    | Buy => exact List.getLast?_eq_none_iff.mp he
    | Sell => exact List.head?_eq_none_iff.mp he
  refine Set.eq_empty_iff_forall_notMem.mpr fun p hp => ?_
  obtain ⟨e, hmem, _⟩ := (mem_prices ht).mp hp
  rw [hnil] at hmem
  cases hmem

theorem level_of_no_prices {b : Book P} {side : Side} (h : b.prices side = ∅) (p : P) : b.level side p = [] :=
  not_not.mp (Set.eq_empty_iff_forall_notMem.mp h p)

theorem IsBest.unique {side : Side} {s : Set P} {p q : P} (hp : IsBest side s p) (hq : IsBest side s q) :
    p = q := by
  cases side with
  | Buy => exact IsGreatest.unique hp hq
  | Sell => exact IsLeast.unique hp hq

/-! ## What is reported -/

section
variable [Zero P]

/-- What is reported of a side: its best price with the quantity there in 32
bits, and zeros for a side without orders. -/
structure Reported (b : Book P) (side : Side) : Prop where
  best : b.prices side ≠ ∅ → IsBest side (b.prices side) ((getTopOfBook b).price side)
  empty : b.prices side = ∅ → (getTopOfBook b).price side = 0
  qty : ((getTopOfBook b).qty side).toNat = b.total side ((getTopOfBook b).price side) % 2 ^ 32

theorem Tidy.reported {b : Book P} (ht : Tidy b) (side : Side) : Reported b side := by
  obtain ⟨hprice, hqty⟩ := getTopOfBook_side b side
  cases he : bestEntry b side with
  | none =>
    have hno := bestEntry_none ht he
    rw [he] at hprice hqty
    refine ⟨fun h => absurd hno h, fun _ => hprice, ?_⟩
    rw [hqty, Book.total, level_of_no_prices hno]
    rfl
  | some e =>
    have hbest := bestEntry_best ht he
    rw [he] at hprice hqty
    change _ = e.1 at hprice
    refine ⟨fun _ => hprice ▸ hbest, fun hno => ?_, ?_⟩
    · have := (mem_prices ht).mpr ⟨e, bestEntry_mem he, rfl⟩
      rw [hno] at this
      cases this
    · rw [hqty, hprice, Book.total, level_of_mem_entries (bestEntry_mem he)]
      show (levelQty e.2).toNat = _
      rw [levelQty, foldl_quantity]
      simp

/-! ## The live orders -/

def livePrices (os : List (Order P)) (side : Side) : Set P := {p | ∃ o ∈ os, o.side = side ∧ o.price = p}

/-- The book and its top, in terms of the live orders `os`. -/
structure TopOf (os : List (Order P)) (b : Book P) : Prop where
  best : ∀ side, (livePrices os side).Nonempty → IsBest side (livePrices os side) ((getTopOfBook b).price side) ∧
    ((getTopOfBook b).qty side).toNat = quantities (queue os side ((getTopOfBook b).price side)) % 2 ^ 32
  empty : ∀ side, livePrices os side = ∅ → (getTopOfBook b).price side = 0 ∧ (getTopOfBook b).qty side = 0
  nonempty : ∀ side, ∀ e ∈ (b.book side).entries, e.2 ≠ []
  level : ∀ side price, (b.level side price).map Node.order = queue os side price

omit [Zero P] in
theorem Shows.prices_eq {b : Book P} {os : List (Order P)} (h : Shows b os) (side : Side) :
    b.prices side = livePrices os side := by
  ext p
  show b.level side p ≠ [] ↔ ∃ o ∈ os, _
  rw [ne_eq, ← List.map_eq_nil_iff (f := Node.order), h.level, queue, List.filter_eq_nil_iff]
  simp

theorem Shows.topOf {b : Book P} {os : List (Order P)} (h : Shows b os) : TopOf os b where
  best := by
    intro side hne
    have hr := h.tidy.reported side
    have hbest := hr.best
    have hqty := hr.qty
    rw [h.prices_eq] at hbest
    rw [Book.total, h.level] at hqty
    exact ⟨hbest hne.ne_empty, hqty⟩
  empty := by
    intro side hno
    have hr := h.tidy.reported side
    rw [← h.prices_eq] at hno
    refine ⟨hr.empty hno, ?_⟩
    have hqty := hr.qty
    rw [Book.total, level_of_no_prices hno] at hqty
    exact UInt32.toNat_inj.mp hqty
  nonempty := h.tidy
  level := h.level

/-- **The top of the book** after every run in which no order is added under
the id of a live one. -/
theorem getTopOfBook_exec (cs : List (Call P)) {os : List (Order P)} (h : (ledger P).exec cs = some os) :
    ∃ b, (orderBook P).exec cs = some b ∧ TopOf os b := by
  obtain ⟨b, he, hs⟩ := (orderBook_refines P).exec h
  exact ⟨b, he, hs.topOf⟩

/-! ## Exact quantities -/

def Exact (b : Book P) : Prop :=
  ∀ side, ((getTopOfBook b).qty side).toNat = b.total side ((getTopOfBook b).price side)

/-- What rests at the best bid and at the best ask fits in 32 bits. -/
def Fits (b : Book P) : Prop := ∀ side p, IsBest side (b.prices side) p → b.total side p < 2 ^ 32

theorem exact_iff_fits {b : Book P} (ht : Tidy b) : Exact b ↔ Fits b := by
  constructor
  · intro hx side p hp
    have hr := ht.reported side
    have hne : b.prices side ≠ ∅ := by
      intro hno
      have hmem : p ∈ b.prices side := by cases side <;> exact hp.1
      rw [hno] at hmem
      cases hmem
    rw [← (hr.best hne).unique hp, ← hx side]
    exact UInt32.toNat_lt _
  · intro hf side
    have hr := ht.reported side
    rw [hr.qty]
    apply Nat.mod_eq_of_lt
    by_cases hno : b.prices side = ∅
    · rw [Book.total, level_of_no_prices hno]
      exact Nat.two_pow_pos 32
    · exact hf side _ (hr.best hno)

end

/-! ## Runs -/

/-- `addOrder` is made when the level it joins has room in 32 bits. -/
def Room (b : Book P) : Call P → Prop
  | .addOrder _ side price qty _ => b.total side price + qty.toNat < 2 ^ 32
  | .cancelOrder _ => True

instance (b : Book P) : DecidablePred (Room b)
  | .addOrder _ _ _ _ _ => Nat.decLt _ _
  | .cancelOrder _ => isTrue trivial

theorem total_addOrder (b : Book P) (id : UInt64) (side side' : Side) (price price' : P) (qty : UInt32)
    (now : Int64) :
    (addOrder b id side price qty now).total side' price' =
      b.total side' price' + if side' = side ∧ price' = price then qty.toNat else 0 := by
  unfold Book.total
  rw [level_addOrder]
  split
  · rename_i hsp
    rw [hsp.1, hsp.2]
    simp [quantities]
  · rfl

theorem Cancelled.total_le {b b' : Book P} {id : UInt64} {n : Node P} (hc : Cancelled b id n b') (side : Side)
    (price : P) : b'.total side price ≤ b.total side price :=
  (((hc.sublist side price).map Node.order).map _).sum_le_sum fun _ _ => Nat.zero_le _

theorem Stepped.tidy {b b' : Book P} {c : Call P} (h : Tidy b) (hst : Stepped b c b') : Tidy b' := by
  cases hst with
  | added id side price qty now => exact tidy_addOrder h id side price qty now
  | absent id hl => exact h
  | cancelled id n b' he hc => exact tidy_cancelOrder h he

theorem Stepped.total_lt {b b' : Book P} {c : Call P} (hroom : Room b c) (hf : ∀ side p, b.total side p < 2 ^ 32)
    (hst : Stepped b c b') (side : Side) (p : P) : b'.total side p < 2 ^ 32 := by
  cases hst with
  | added id side' price qty now =>
    rw [total_addOrder]
    split
    · rename_i hsp
      rw [hsp.1, hsp.2]
      exact hroom
    · exact hf side p
  | absent id hl => exact hf side p
  | cancelled id n b' he hc => exact (hc.total_le side p).trans_lt (hf side p)

theorem tidy_step (b : Book P) (c : Call P) (h : Inv b ∧ Tidy b) :
    ∃ b' o, (orderBook P).step b c = some (b', o) ∧ Inv b' ∧ Tidy b' := by
  obtain ⟨b', o, hs, hst⟩ := step_stepped h.1 c
  exact ⟨b', o, hs, hst.inv h.1, hst.tidy h.2⟩

theorem tidy_exec (cs : List (Call P)) : ∃ b, (orderBook P).exec cs = some b ∧ Inv b ∧ Tidy b :=
  (orderBook P).exec_inv (P := fun _ b => Inv b ∧ Tidy b) ⟨inv_init, tidy_init⟩
    (fun _ b c _ h => tidy_step b c h) cs

theorem fits_exec (cs : List (Call P)) (hg : (orderBook P).Guarded Room cs) :
    ∃ b, (orderBook P).exec cs = some b ∧ Tidy b ∧ Fits b := by
  have h0 : ∀ side (p : P), ({} : Book P).total side p < 2 ^ 32 := by
    intro side p
    cases side <;> exact Nat.two_pow_pos 32
  obtain ⟨b, he, ⟨_, ht⟩, hf⟩ := (orderBook P).guarded_inv
    (P := fun b => (Inv b ∧ Tidy b) ∧ ∀ side p, b.total side p < 2 ^ 32) ⟨⟨inv_init, tidy_init⟩, h0⟩ (by
      intro b c ⟨⟨h, ht⟩, hf⟩ hroom
      obtain ⟨b', o, hs, hst⟩ := step_stepped h c
      exact ⟨b', o, hs, ⟨hst.inv h, hst.tidy ht⟩, hst.total_lt hroom hf⟩) cs hg
  exact ⟨b, he, ht, fun side p _ => hf side p⟩

/-- **The quantities reported are exact** in a reachable book if and only if
what rests at the best prices fits in 32 bits, and all along a run whose
additions leave every level with a total of 32 bits. -/
theorem exact_exec [Zero P] (cs : List (Call P)) :
    (∃ b, (orderBook P).exec cs = some b ∧ (Exact b ↔ Fits b)) ∧
      ((orderBook P).Guarded Room cs → ∀ cs', cs' <+: cs → ∃ b, (orderBook P).exec cs' = some b ∧ Exact b) := by
  constructor
  · obtain ⟨b, he, _, ht⟩ := tidy_exec cs
    exact ⟨b, he, exact_iff_fits ht⟩
  · rintro hg cs' ⟨tail, rfl⟩
    obtain ⟨b, he, ht, hf⟩ := fits_exec cs' ((orderBook P).guarded_of_append hg)
    exact ⟨b, he, (exact_iff_fits ht).mpr hf⟩

end

/-- Two asks, the second one cheaper, a bid that is cancelled and another bid. -/
def quotes : List (Call ℤ) :=
  [.addOrder 1 .Sell 102 50 0, .addOrder 2 .Sell 101 30 1, .addOrder 3 .Buy 100 20 2, .cancelOrder 3,
    .addOrder 4 .Buy 99 10 3]

theorem getTopOfBook_quotes : ∃ b, (orderBook ℤ).exec quotes = some b ∧
    TopOf [⟨1, .Sell, 102, 50, 0⟩, ⟨2, .Sell, 101, 30, 1⟩, ⟨4, .Buy, 99, 10, 3⟩] b :=
  getTopOfBook_exec quotes rfl

theorem exact_quotes (cs : List (Call ℤ)) (h : cs <+: quotes) : ∃ b, (orderBook ℤ).exec cs = some b ∧ Exact b := by
  refine (exact_exec quotes).2 ?_ cs h
  refine ⟨by decide, ?_⟩
  rintro _ ⟨⟩
  refine ⟨by decide, ?_⟩
  rintro _ ⟨⟩
  refine ⟨by decide, ?_⟩
  rintro _ ⟨⟩
  refine ⟨trivial, ?_⟩
  rintro _ ⟨⟩
  exact ⟨by decide, fun _ _ => trivial⟩

/-- Two orders of `2 ^ 32 - 1` at one price. -/
def crowded : List (Call ℤ) := [.addOrder 1 .Buy 100 4294967295 0, .addOrder 2 .Buy 100 4294967295 1]

theorem crowded_not_exact : ∃ b, (orderBook ℤ).exec crowded = some b ∧ (getTopOfBook b).bidQty = 4294967294 ∧
    b.total .Buy (getTopOfBook b).bestBid = 8589934590 ∧ ¬ Exact b := by
  refine ⟨_, rfl, by decide, by decide, fun h => ?_⟩
  have := h .Buy
  revert this
  decide

end Playground.OrderBook
