import Mathlib.Algebra.BigOperators.Group.List.Basic
import Mathlib.Algebra.GroupWithZero.Nat
import Playground.PriceTime

/-!
# No quantity is lost

What a call submits is what its trades and its resting order add up to, over
the whole trade log and both books (`accounted_exec`). The sums are exact
natural numbers, so this also says that no 32-bit subtraction of the loop
wraps. Orders are counted by id, so the statement needs ids that have not
wrapped; `accounted_wrap` is a run of two orders that share an id.
-/

namespace Playground.MatchingEngine

section
variable {P : Type}

/-- The id that call `k` is given, counting from 0. -/
def idOf (k : Nat) : UInt64 := UInt64.ofNat (k + 1)

def tradedQty (ts : List (Trade P)) (id : UInt64) : Nat :=
  (ts.map fun t => if t.buyOrderId = id ∨ t.sellOrderId = id then t.quantity.toNat else 0).sum

def restingQty (os : List (Order P)) (id : UInt64) : Nat :=
  (os.map fun o => if o.id = id then o.quantity.toNat else 0).sum

def fillQty (fills : List (Order P × UInt32)) (id : UInt64) : Nat :=
  (fills.map fun p => if p.1.id = id then p.2.toNat else 0).sum

/-- Every submitted quantity is accounted for, and every trade is between a
buy and a sell call at the price of the earlier one. -/
structure Accounted [LinearOrder P] (cs : List (Call P)) (e : Engine P) : Prop where
  conserved : ∀ k c, cs[k]? = some c → c.qty.toNat = tradedQty e.trades (idOf k) + restingQty e.resting (idOf k)
  trade_ok : ∀ t ∈ e.trades, ∃ b s cb cs', cs[b]? = some cb ∧ cs[s]? = some cs' ∧ cb.side = .Buy ∧
    cs'.side = .Sell ∧ t.buyOrderId = idOf b ∧ t.sellOrderId = idOf s ∧
    t.price = if t.buyOrderId < t.sellOrderId then cb.price else cs'.price

theorem idOf_toNat {k : Nat} (h : k + 1 < 2 ^ 64) : (idOf k).toNat = k + 1 := UInt64.toNat_ofNat_of_lt' h

theorem idOf_ne {j k : Nat} (hj : j < k) (hk : k + 1 < 2 ^ 64) : idOf j ≠ idOf k := by
  intro e
  have := congrArg UInt64.toNat e
  rw [idOf_toNat hk, idOf_toNat (by omega)] at this
  omega

theorem tradedQty_append (ts ts' : List (Trade P)) (id : UInt64) :
    tradedQty (ts ++ ts') id = tradedQty ts id + tradedQty ts' id := by simp [tradedQty]

theorem restingQty_append (os os' : List (Order P)) (id : UInt64) :
    restingQty (os ++ os') id = restingQty os id + restingQty os' id := by simp [restingQty]

theorem restingQty_perm {os os' : List (Order P)} (h : os.Perm os') (id : UInt64) :
    restingQty os id = restingQty os' id := (h.map _).sum_nat

theorem restingQty_of_ne {os : List (Order P)} {id : UInt64} (h : ∀ o ∈ os, o.id ≠ id) : restingQty os id = 0 := by
  unfold restingQty
  rw [List.sum_eq_zero]
  intro x hx
  obtain ⟨o, ho, rfl⟩ := List.mem_map.mp hx
  exact if_neg (h o ho)

theorem tradedQty_of_ne {ts : List (Trade P)} {id : UInt64}
    (h : ∀ t ∈ ts, t.buyOrderId ≠ id ∧ t.sellOrderId ≠ id) : tradedQty ts id = 0 := by
  unfold tradedQty
  rw [List.sum_eq_zero]
  intro x hx
  obtain ⟨t, ht, rfl⟩ := List.mem_map.mp hx
  exact if_neg (by rw [not_or]; exact h t ht)

/-! ## The sweep moves quantities, and loses none -/

section
variable (stop : Order P → Prop) [DecidablePred stop]

theorem min_add_sub (q r : UInt32) : (min q r).toNat + (r - min q r).toNat = r.toNat := by
  rw [UInt32.toNat_min, sub_min_toNat']
  omega

theorem sweep_incoming (q : UInt32) (rs : List (Order P)) :
    q.toNat = ((sweep stop q rs).fills.map fun p => p.2.toNat).sum + (sweep stop q rs).leftover.toNat := by
  induction rs generalizing q with
  | nil => simp [sweep]
  | cons r rs ih =>
    have ih := ih (q - min q r.quantity)
    have hq : (min q r.quantity).toNat + (q - min q r.quantity).toNat = q.toNat := by
      rw [UInt32.toNat_min, sub_min_toNat]
      omega
    by_cases hs : q = 0 ∨ stop r
    · simp [sweep, hs]
    · simp only [sweep, hs, if_false]
      by_cases hz : (r.reduce (min q r.quantity)).quantity = 0
      · simp only [hz, if_true, List.map_cons, List.sum_cons]
        omega
      · simp only [hz, if_false, List.map_cons, List.map_nil, List.sum_cons, List.sum_nil]
        omega

theorem sweep_resting_qty (id : UInt64) (q : UInt32) (rs : List (Order P)) :
    restingQty rs id = fillQty (sweep stop q rs).fills id + restingQty (sweep stop q rs).resting id := by
  induction rs generalizing q with
  | nil => rfl
  | cons r rs ih =>
    have ih := ih (q - min q r.quantity)
    have hr := min_add_sub q r.quantity
    have hcons : ∀ x : Order P, restingQty (x :: rs) id =
      (if x.id = id then x.quantity.toNat else 0) + restingQty rs id :=
      fun _ => rfl
    have hfill : ∀ (f : UInt32) fills, fillQty ((r, f) :: fills) id =
      (if r.id = id then f.toNat else 0) + fillQty fills id :=
      fun _ _ => rfl
    have hnil : fillQty ([] : List (Order P × UInt32)) id = 0 := rfl
    by_cases hs : q = 0 ∨ stop r
    · simp [sweep, hs, hnil]
    · simp only [sweep, hs, if_false]
      by_cases hz : (r.reduce (min q r.quantity)).quantity = 0
      · simp only [hz, if_true]
        rw [Order.reduce_quantity, eq_zero_iff_toNat] at hz
        rw [hcons, hfill, ih]
        split <;> omega
      · simp only [hz, if_false]
        rw [hcons, hcons, hfill, hnil, Order.reduce_id, Order.reduce_quantity]
        split <;> omega

theorem sweep_fills_mem (q : UInt32) (rs : List (Order P)) {p : Order P × UInt32}
    (h : p ∈ (sweep stop q rs).fills) : p.1 ∈ rs := by
  induction rs generalizing q with
  | nil => simp [sweep] at h
  | cons r rs ih =>
    have ih := ih (q - min q r.quantity)
    by_cases hs : q = 0 ∨ stop r
    · simp [sweep, hs] at h
    · simp only [sweep, hs, if_false] at h
      by_cases hz : (r.reduce (min q r.quantity)).quantity = 0
      · simp only [hz, if_true] at h
        rcases List.mem_cons.mp h with rfl | h
        · exact List.mem_cons_self ..
        · exact List.mem_cons_of_mem _ (ih h)
      · simp only [hz, if_false] at h
        rw [List.mem_singleton.mp h]
        exact List.mem_cons_self ..

end

/-! ## One call -/

section
variable {lt lt' : P → P → Prop} [IsStrictTotalOrder P lt'] [DecidableRel lt] [DecidableRel lt']

theorem restingQty_restOrder (b : Book P lt') (o : Order P) (id : UInt64) :
    restingQty (restOrder b o).orders id = restingQty b.orders id + if o.id = id then o.quantity.toNat else 0 := by
  unfold restOrder
  by_cases h : o.quantity > 0
  · rw [if_pos h, restingQty_perm (pushBack_perm b o)]
    exact Nat.add_comm ..
  · rw [if_neg h]
    rw [pos_iff_toNat] at h
    split <;> omega

structure TradeOf (mk : Order P → Order P → UInt32 → Trade P) : Prop where
  names : ∀ o r f id, ((mk o r f).buyOrderId = id ∨ (mk o r f).sellOrderId = id) ↔ o.id = id ∨ r.id = id
  quantity : ∀ o r f, (mk o r f).quantity = f

theorem tradedQty_incoming {mk : Order P → Order P → UInt32 → Trade P} (hmk : TradeOf mk) (o : Order P)
    (fills : List (Order P × UInt32)) :
    tradedQty (fills.map fun p => mk o p.1 p.2) o.id = (fills.map fun p => p.2.toNat).sum := by
  simp [tradedQty, Function.comp_def, hmk.names, hmk.quantity]

theorem tradedQty_resting {mk : Order P → Order P → UInt32 → Trade P} (hmk : TradeOf mk) {o : Order P} {id : UInt64}
    (h : o.id ≠ id) (fills : List (Order P × UInt32)) :
    tradedQty (fills.map fun p => mk o p.1 p.2) id = fillQty fills id := by
  simp [tradedQty, fillQty, Function.comp_def, hmk.names, hmk.quantity, h]

variable {mk : Order P → Order P → UInt32 → Trade P} {o : Order P} {opp opp' : Book P lt} {own own' : Book P lt'}
  {t t' : List (Trade P)} (hmk : TradeOf mk) (hm : Matched mk o opp opp' own own' t t')
include hmk hm

theorem Matched.account_other {id : UInt64} (h : o.id ≠ id) :
    tradedQty t' id + (restingQty own'.orders id + restingQty opp'.orders id) =
      tradedQty t id + (restingQty own.orders id + restingQty opp.orders id) := by
  rw [hm.trades, tradedQty_append, tradedQty_resting hmk h, hm.own_eq, restingQty_restOrder, if_neg h,
    hm.opp_orders]
  have := sweep_resting_qty (stopAt lt o.price) id o.quantity opp.orders
  omega

theorem Matched.account_incoming (ht : tradedQty t o.id = 0) (hown : restingQty own.orders o.id = 0)
    (hopp : restingQty opp.orders o.id = 0) :
    tradedQty t' o.id + (restingQty own'.orders o.id + restingQty opp'.orders o.id) = o.quantity.toNat := by
  rw [hm.trades, tradedQty_append, tradedQty_incoming hmk, hm.own_eq, restingQty_restOrder, if_pos rfl,
    hm.opp_orders]
  have h1 := sweep_incoming (stopAt lt o.price) o.quantity opp.orders
  have h2 := sweep_resting_qty (stopAt lt o.price) o.id o.quantity opp.orders
  dsimp only
  omega

end

end

section
variable {P : Type}

theorem buyTrade_tradeOf : TradeOf (buyTrade (P := P)) := ⟨fun _ _ _ _ => Iff.rfl, fun _ _ _ => rfl⟩

theorem sellTrade_tradeOf : TradeOf (sellTrade (P := P)) := ⟨fun _ _ _ _ => or_comm, fun _ _ _ => rfl⟩

def Submitted (cs : List (Call P)) (o : Order P) : Prop := ∃ k q, o.id = idOf k ∧ cs[k]? = some ⟨o.side, o.price, q⟩

theorem Submitted.mono {cs : List (Call P)} {o : Order P} (h : Submitted cs o) (c : Call P) :
    Submitted (cs ++ [c]) o := by
  obtain ⟨k, q, hid, hk⟩ := h
  exact ⟨k, q, hid, by rw [List.getElem?_append_left (List.getElem?_eq_some_iff.mp hk).1]; exact hk⟩

theorem Submitted.id_ne {cs : List (Call P)} {o : Order P} (h : Submitted cs o) (hn : cs.length + 1 < 2 ^ 64) :
    o.id ≠ idOf cs.length := by
  obtain ⟨k, q, hid, hk⟩ := h
  rw [hid]
  exact idOf_ne (List.getElem?_eq_some_iff.mp hk).1 hn

section
variable {lt lt' : P → P → Prop} [DecidableRel lt] [IsStrictTotalOrder P lt'] [DecidableRel lt']
variable {mk : Order P → Order P → UInt32 → Trade P} {o : Order P} {opp opp' : Book P lt} {own own' : Book P lt'}
variable {t t' : List (Trade P)} (hm : Matched mk o opp opp' own own' t t')
include hm

theorem Matched.submitted {cs : List (Call P)} {c : Call P}
    (hnew : ∀ q, Submitted (cs ++ [c]) { o with quantity := q })
    (hown : ∀ x ∈ own.orders, Submitted cs x) (hopp : ∀ x ∈ opp.orders, Submitted cs x) :
    (∀ x ∈ own'.orders, Submitted (cs ++ [c]) x) ∧ ∀ x ∈ opp'.orders, Submitted (cs ++ [c]) x := by
  constructor
  · intro x hx
    rcases hm.mem_own hx with ⟨q, -, rfl⟩ | hx
    · exact hnew q
    · exact (hown x hx).mono c
  · intro x hx
    obtain ⟨y, hy, hxy⟩ := hm.mem_opp (fun z => (z.id, z.side, z.price)) (fun _ _ => rfl) hx
    obtain ⟨k, q, hk, hc⟩ := (hopp y hy).mono c
    simp only [Prod.mk.injEq] at hxy
    rw [hxy.1] at hk
    rw [hxy.2.1, hxy.2.2] at hc
    exact ⟨k, q, hk, hc⟩

theorem Matched.mem_trades {x : Trade P} (hx : x ∈ t') : x ∈ t ∨ ∃ r ∈ opp.orders, ∃ f, x = mk o r f := by
  rw [hm.trades] at hx
  rcases List.mem_append.mp hx with hx | hx
  · exact Or.inl hx
  · obtain ⟨p, hp, rfl⟩ := List.mem_map.mp hx
    exact Or.inr ⟨p.1, sweep_fills_mem _ _ _ hp, p.2, rfl⟩

end

end

section
variable {P : Type} [LinearOrder P]

structure AccountInv (cs : List (Call P)) (e : Engine P) : Prop where
  accounted : Accounted cs e
  submitted : ∀ o ∈ e.resting, Submitted cs o

theorem submitted_step {cs : List (Call P)} {e e' : Engine P} {c : Call P} (h : ∀ o ∈ e.resting, Submitted cs o)
    (hid : e.nextOrderId = idOf cs.length) (he : Effect e c e') : ∀ o ∈ e'.resting, Submitted (cs ++ [c]) o := by
  have hnew : ∀ q, Submitted (cs ++ [c]) { e.newOrder c with quantity := q } := fun q =>
    ⟨cs.length, c.qty, hid, List.getElem?_concat_length⟩
  have hbids : ∀ o ∈ e.bids.orders, Submitted cs o := fun o ho => h o (List.mem_append_left _ ho)
  have hasks : ∀ o ∈ e.asks.orders, Submitted cs o := fun o ho => h o (List.mem_append_right _ ho)
  unfold Effect at he
  intro o ho
  cases hs : c.side with
  | Buy =>
    rw [hs] at he
    obtain ⟨hown, hopp⟩ := he.submitted hnew hbids hasks
    exact (List.mem_append.mp ho).elim (hown o) (hopp o)
  | Sell =>
    rw [hs] at he
    obtain ⟨hown, hopp⟩ := he.submitted hnew hasks hbids
    exact (List.mem_append.mp ho).elim (hopp o) (hown o)

/-- Both sides of a call at once: an id keeps its total, and the new id gets its quantity. -/
theorem effect_account {e e' : Engine P} {c : Call P} (h : Effect e c e') {id : UInt64} :
    (e.nextOrderId ≠ id → tradedQty e'.trades id + restingQty e'.resting id =
      tradedQty e.trades id + restingQty e.resting id) ∧
    (e.nextOrderId = id → tradedQty e.trades id = 0 → restingQty e.resting id = 0 →
      tradedQty e'.trades id + restingQty e'.resting id = c.qty.toNat) := by
  unfold Engine.resting
  simp only [restingQty_append]
  unfold Effect at h
  cases hs : c.side with
  | Buy =>
    rw [hs] at h
    refine ⟨fun hne => ?_, fun heq ht hr => ?_⟩
    · exact h.account_other buyTrade_tradeOf hne
    · subst heq
      obtain ⟨hb, ha⟩ := Nat.add_eq_zero_iff.mp hr
      exact h.account_incoming buyTrade_tradeOf ht hb ha
  | Sell =>
    rw [hs] at h
    refine ⟨fun hne => ?_, fun heq ht hr => ?_⟩
    · have := h.account_other sellTrade_tradeOf hne
      omega
    · subst heq
      obtain ⟨hb, ha⟩ := Nat.add_eq_zero_iff.mp hr
      rw [Nat.add_comm (restingQty e'.bids.orders _)]
      exact h.account_incoming sellTrade_tradeOf ht ha hb

theorem effect_trades {e e' : Engine P} {c : Call P} (h : Effect e c e') {t : Trade P} (ht : t ∈ e'.trades) :
    t ∈ e.trades ∨
      ∃ r ∈ e.resting, ∃ f, (c.side = .Buy ∧ r ∈ e.asks.orders ∧ t = ⟨e.nextOrderId, r.id, r.price, f⟩) ∨
      (c.side = .Sell ∧ r ∈ e.bids.orders ∧ t = ⟨r.id, e.nextOrderId, r.price, f⟩) := by
  unfold Effect at h
  cases hs : c.side with
  | Buy =>
    rw [hs] at h
    apply (h.mem_trades ht).imp_right
    rintro ⟨r, hr, f, rfl⟩
    exact ⟨r, List.mem_append_right _ hr, f, Or.inl ⟨rfl, hr, rfl⟩⟩
  | Sell =>
    rw [hs] at h
    apply (h.mem_trades ht).imp_right
    rintro ⟨r, hr, f, rfl⟩
    exact ⟨r, List.mem_append_left _ hr, f, Or.inr ⟨rfl, hr, rfl⟩⟩

theorem conserved_step {cs : List (Call P)} (hlen : cs.length + 1 < 2 ^ 64) {e e' : Engine P} {c : Call P}
    (ha : AccountInv cs e) (hid : e.nextOrderId = idOf cs.length) (h : Effect e c e') {k : Nat} {c' : Call P}
    (hk : (cs ++ [c])[k]? = some c') :
    c'.qty.toNat = tradedQty e'.trades (idOf k) + restingQty e'.resting (idOf k) := by
  rcases Nat.lt_trichotomy k cs.length with hlt | rfl | hgt
  · rw [List.getElem?_append_left hlt] at hk
    have hne : e.nextOrderId ≠ idOf k := by rw [hid]; exact (idOf_ne hlt hlen).symm
    rw [(effect_account h).1 hne]
    exact ha.accounted.conserved k c' hk
  · rw [List.getElem?_concat_length] at hk
    cases hk
    refine ((effect_account h).2 hid ?_ ?_).symm
    · apply tradedQty_of_ne
      intro t ht
      obtain ⟨b, s, cb, cs', hb, hs, -, -, hbid, hsid, -⟩ := ha.accounted.trade_ok t ht
      rw [hbid, hsid]
      exact ⟨idOf_ne (List.getElem?_eq_some_iff.mp hb).1 hlen, idOf_ne (List.getElem?_eq_some_iff.mp hs).1 hlen⟩
    · exact restingQty_of_ne fun o ho => (ha.submitted o ho).id_ne hlen
  · have hlast := (List.getElem?_eq_some_iff.mp hk).1
    rw [List.length_append, List.length_singleton] at hlast
    exact absurd hlast (Nat.not_lt_of_le hgt)

theorem trade_ok_step {cs : List (Call P)} (hlen : cs.length + 1 < 2 ^ 64) {e e' : Engine P} {c : Call P}
    (hi : Inv e) (ha : AccountInv cs e) (hid : e.nextOrderId = idOf cs.length) (h : Effect e c e') {t : Trade P}
    (ht : t ∈ e'.trades) :
    ∃ b s cb cs', (cs ++ [c])[b]? = some cb ∧ (cs ++ [c])[s]? = some cs' ∧ cb.side = .Buy ∧ cs'.side = .Sell ∧
      t.buyOrderId = idOf b ∧ t.sellOrderId = idOf s ∧
      t.price = if t.buyOrderId < t.sellOrderId then cb.price else cs'.price := by
  have hlast : (cs ++ [c])[cs.length]? = some c := List.getElem?_concat_length
  have hleft : ∀ {k : Nat} {c'}, cs[k]? = some c' → k < cs.length ∧ (cs ++ [c])[k]? = some c' := fun {k c'} hk => by
    have hlt := (List.getElem?_eq_some_iff.mp hk).1
    exact ⟨hlt, by rw [List.getElem?_append_left hlt]; exact hk⟩
  have hid_lt : ∀ {k}, k < cs.length → idOf k < idOf cs.length := fun {k} hk =>
    UInt64.lt_iff_toNat_lt.mpr (by rw [idOf_toNat hlen, idOf_toNat (by omega)]; omega)
  rcases effect_trades h ht with ht | ⟨r, hr, f, ⟨hs, hm, rfl⟩ | ⟨hs, hm, rfl⟩⟩
  · obtain ⟨b, s, cb, cs', hb, hs, h⟩ := ha.accounted.trade_ok t ht
    exact ⟨b, s, cb, cs', (hleft hb).2, (hleft hs).2, h⟩
  · obtain ⟨k, q, hk, hck⟩ := ha.submitted r hr
    obtain ⟨hlt, hck⟩ := hleft hck
    refine ⟨cs.length, k, c, _, hlast, hck, hs, side_of_mem hi.asks hm, hid, hk, ?_⟩
    dsimp only
    rw [if_neg]
    rw [hid, hk]
    exact fun hn => UInt64.lt_asymm hn (hid_lt hlt)
  · obtain ⟨k, q, hk, hck⟩ := ha.submitted r hr
    obtain ⟨hlt, hck⟩ := hleft hck
    refine ⟨k, cs.length, _, c, hck, hlast, side_of_mem hi.bids hm, hs, hk, hid, ?_⟩
    dsimp only
    rw [if_pos]
    rw [hid, hk]
    exact hid_lt hlt

theorem accountInv_step {cs : List (Call P)} (hlen : cs.length + 1 < 2 ^ 64) {e e' : Engine P} {c : Call P}
    (hi : Inv e) (ha : AccountInv cs e) (hid : e.nextOrderId = idOf cs.length) (h : Effect e c e') :
    AccountInv (cs ++ [c]) e' where
  accounted := {
    conserved := fun _ _ => conserved_step hlen ha hid h
    trade_ok := fun _ => trade_ok_step hlen hi ha hid h }
  submitted := submitted_step ha.submitted hid h

theorem accountInv_init : AccountInv [] (engine P).init where
  accounted := ⟨by simp, by intro t h; cases h⟩
  submitted := by intro o h; cases h

/-- **Quantity conservation** over every run of fewer than `2 ^ 64` calls. -/
theorem accounted_exec (cs : List (Call P)) (hlen : cs.length < 2 ^ 64) :
    ∃ e, (engine P).exec cs = some e ∧ Accounted cs e := by
  obtain ⟨e, he, -, h⟩ := (engine P).exec_inv
    (P := fun cs e => Inv e ∧ (cs.length < 2 ^ 64 → Ids cs.length e ∧ AccountInv cs e))
    ⟨inv_init, fun _ => ⟨ids_init, accountInv_init⟩⟩
    (fun cs e c _ hi => by
      obtain ⟨e', hs, hid, hts, h⟩ := submitOrder_spec hi.1 c
      refine ⟨e', _, hs, inv_step hi.1 h, fun hl => ?_⟩
      rw [List.length_append, List.length_singleton] at hl ⊢
      obtain ⟨hn, ha⟩ := hi.2 (by omega)
      exact ⟨ids_step hl hn hid hts h, accountInv_step hl hi.1 ha hn.nextOrderId h⟩) cs
  exact ⟨e, he, (h hlen).2.accounted⟩

theorem accounted_exec_sweep : ∃ e, (engine Int).exec [⟨.Sell, 101, 400⟩, ⟨.Buy, 102, 500⟩] = some e ∧
    Accounted [⟨.Sell, 101, 400⟩, ⟨.Buy, 102, 500⟩] e :=
  accounted_exec _ (by decide)

/-! ## Two orders with one id -/

/-- A sell order, and after all 64-bit ids another one. -/
def sharedIdCalls : List (Call Int) :=
  ⟨.Sell, 1, 1⟩ :: (List.replicate (2 ^ 64 - 1) ⟨.Sell, 1, 0⟩ ++ [⟨.Sell, 1, 1⟩])

def sharedIdEngine : Engine Int where
  asks := ⟨[(1, [⟨1, .Sell, 1, 1, 0⟩, ⟨1, .Sell, 1, 1, 0⟩])], List.pairwise_singleton _ _⟩
  nextOrderId := 2
  timestamp := 1

theorem exec_sharedIdCalls : (engine Int).exec sharedIdCalls = some sharedIdEngine := by
  unfold sharedIdCalls Machine.exec
  rw [Machine.execFrom_cons, show (engine Int).step = submitOrder from rfl, submitOrder_first, Option.bind_some,
    Machine.execFrom_append, execFrom_zeros, Option.bind_some]
  rfl

/-- Each of the two was submitted with quantity 1, and their id rests with quantity 2. -/
theorem accounted_wrap : ¬ ∀ (cs : List (Call Int)) (e : Engine Int), (engine Int).exec cs = some e →
    Accounted cs e := by
  intro h
  have hc := (h _ _ exec_sharedIdCalls).conserved 0 ⟨.Sell, 1, 1⟩ rfl
  revert hc
  decide

end

end Playground.MatchingEngine
