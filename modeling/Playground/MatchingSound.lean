import Mathlib.Algebra.Group.Nat.Defs
import Mathlib.Data.Int.Order.Basic
import Playground.MatchingSweep

/-!
# The book of the matching engine stays well formed

`submitOrder_spec` says what one call does, once for both sides. From it the
invariants of a run: levels are never empty and hold live orders of their
side and price, bids stay below asks (`Inv`), and, while the 64-bit counters
have not wrapped, every level lists its orders by arrival (`Ids`).
-/

namespace Playground.MatchingEngine

section
variable {P : Type} {lt : P → P → Prop}

theorem mem_orders {b : Book P lt} {o : Order P} : o ∈ b.orders ↔ ∃ p l, (p, l) ∈ b.entries ∧ o ∈ l := by
  simp [Book.orders, List.mem_flatMap]

theorem side_of_mem {side : Side} {b : Book P lt} (hb : Levels (LevelOk side) b) {o : Order P}
    (ho : o ∈ b.orders) : o.side = side := by
  obtain ⟨p, l, hm, ho⟩ := mem_orders.mp ho
  exact ((hb p l hm).order_ok o ho).1

theorem quantity_of_levels {side : Side} {b : Book P lt} (hb : Levels (LevelOk side) b) {o : Order P}
    (ho : o ∈ b.orders) : o.quantity ≠ 0 := by
  obtain ⟨p, l, hm, ho⟩ := mem_orders.mp ho
  exact ((hb p l hm).order_ok o ho).2.2

/-- A relation within each level, and across levels by price, holds along the book. -/
theorem orders_pairwise {side : Side} {b : Book P lt} {R : Order P → Order P → Prop} (hl : Levels (LevelOk side) b)
    (hin : ∀ p l, (p, l) ∈ b.entries → l.Pairwise R) (hlt : ∀ x y, lt x.price y.price → R x y) :
    b.orders.Pairwise R := by
  unfold Book.orders
  rw [List.pairwise_flatMap]
  refine ⟨fun e he => hin e.1 e.2 he, List.Pairwise.imp_of_mem ?_ b.sorted⟩
  intro e e' he he' h x hx y hy
  apply hlt x y
  rw [((hl e.1 e.2 he).order_ok x hx).2.1, ((hl e'.1 e'.2 he').order_ok y hy).2.1]
  exact h

theorem orders_sorted {side : Side} {b : Book P lt} (hl : Levels (LevelOk side) b) :
    b.orders.Pairwise fun x y => lt x.price y.price ∨ x.price = y.price := by
  refine orders_pairwise hl (fun p l hm => ?_) fun x y => Or.inl
  have := (hl p l hm).order_ok
  exact List.pairwise_of_forall_mem_list fun x hx y hy => Or.inr ((this x hx).2.1.trans (this y hy).2.1.symm)

variable [IsStrictTotalOrder P lt] [DecidableRel lt]

/-! ## Resting an order -/

theorem pushBack_perm (b : Book P lt) (o : Order P) : (pushBack b o).orders.Perm (o :: b.orders) := by
  obtain ⟨l, r, h, h'⟩ := b.entries_alter_split o.price fun level => some (level.getD [] ++ [o])
  unfold Book.orders pushBack
  rw [h', h]
  have hmid : ∀ v : Option (List (Order P)), ((v.map (Prod.mk o.price)).toList.flatMap Prod.snd) = v.getD [] := by
    intro v
    cases v <;> simp
  simp only [List.flatMap_append, hmid, Option.getD_some]
  have : ((b.find? o.price).getD [] ++ [o]).Perm ([o] ++ (b.find? o.price).getD []) := List.perm_append_comm
  apply ((this.append_left _).append_right _).trans
  simp only [List.append_assoc, List.cons_append]
  exact List.perm_middle

theorem mem_pushBack {b : Book P lt} {o x : Order P} : x ∈ (pushBack b o).orders ↔ x = o ∨ x ∈ b.orders := by
  rw [(pushBack_perm b o).mem_iff, List.mem_cons]

theorem mem_restOrder {b : Book P lt} {o x : Order P} :
    x ∈ (restOrder b o).orders ↔ (o.quantity ≠ 0 ∧ x = o) ∨ x ∈ b.orders := by
  unfold restOrder
  by_cases h : o.quantity > 0
  · rw [if_pos h, mem_pushBack]
    simp [(pos_iff_ne_zero _).mp h]
  · rw [if_neg h]
    rw [pos_iff_ne_zero] at h
    simp [h]

theorem levels_restOrder {Q : P → List (Order P) → Prop} {b : Book P lt} {o : Order P} (hb : Levels Q b)
    (ho : o.quantity ≠ 0 → Q o.price ((b.find? o.price).getD [] ++ [o])) : Levels Q (restOrder b o) := by
  unfold restOrder
  by_cases h : o.quantity > 0
  · rw [if_pos h]
    intro p l hm
    rcases OrdMap.mem_alter.mp hm with ⟨hm, _⟩ | ⟨w, hw, he⟩
    · exact hb p l hm
    · cases hw; cases he
      exact ho ((pos_iff_ne_zero _).mp h)
  · rw [if_neg h]; exact hb

theorem mem_orders_of_find? {b : Book P lt} {p : P} {o : Order P} (h : o ∈ (b.find? p).getD []) : o ∈ b.orders := by
  cases hf : b.find? p with
  | none => simp [hf] at h
  | some l =>
    rw [hf, Option.getD_some] at h
    exact mem_orders.mpr ⟨p, l, OrdMap.mem_entries.mpr hf, h⟩

theorem levelOk_append {side : Side} {b : Book P lt}
    (hb : Levels (LevelOk side) b) {o : Order P} (hs : o.side = side) (hq : o.quantity ≠ 0) :
    LevelOk side o.price ((b.find? o.price).getD [] ++ [o]) := by
  refine ⟨by simp, fun x hx => ?_⟩
  rcases List.mem_append.mp hx with hx | hx
  · cases hf : b.find? o.price with
    | none => simp [hf] at hx
    | some l =>
      rw [hf, Option.getD_some] at hx
      exact (hb _ _ (OrdMap.mem_entries.mpr hf)).order_ok x hx
  · rw [List.mem_singleton.mp hx]
    exact ⟨hs, rfl, hq⟩

/-! ## One call -/

/-- What a call does to the opposite book, its own book and the log. -/
structure Matched {lt' : P → P → Prop} [IsStrictTotalOrder P lt'] [DecidableRel lt']
    (mk : Order P → Order P → UInt32 → Trade P) (o : Order P)
    (opp opp' : Book P lt) (own own' : Book P lt') (t t' : List (Trade P)) : Prop where
  trades : t' = t ++ (sweep (stopAt lt o.price) o.quantity opp.orders).fills.map fun p => mk o p.1 p.2
  opp_orders : opp'.orders = (sweep (stopAt lt o.price) o.quantity opp.orders).resting
  opp_levels : ∀ Q, FillClosed Q → Levels Q opp → Levels Q opp'
  own_eq : own' = restOrder own { o with quantity := (sweep (stopAt lt o.price) o.quantity opp.orders).leftover }

/-- Every order of `own` stays behind every order of `opp`. -/
def Uncrossed {lt' : P → P → Prop} (own : Book P lt') (opp : Book P lt) : Prop :=
  ∀ x ∈ own.orders, ∀ y ∈ opp.orders, lt x.price y.price

end

section
variable {P : Type}

def Before (x y : Order P) : Prop := x.id < y.id ∧ x.timestamp < y.timestamp

/-- Orders of a level, front to back, by arrival. -/
def Fifo (_ : P) (l : List (Order P)) : Prop := l.Pairwise Before

theorem fifo_closed : FillClosed (Fifo (P := P)) where
  pop h _ := List.Pairwise.of_cons h
  fill h _ := List.pairwise_cons.mpr ⟨(List.pairwise_cons.mp h).1, (List.pairwise_cons.mp h).2⟩

end

namespace Matched

variable {P : Type} {lt lt' : P → P → Prop} [DecidableRel lt] [IsStrictTotalOrder P lt'] [DecidableRel lt']
variable {mk : Order P → Order P → UInt32 → Trade P} {o : Order P} {opp opp' : Book P lt} {own own' : Book P lt'}
variable {t t' : List (Trade P)} (hm : Matched mk o opp opp' own own' t t')
include hm

theorem own_levels {Q : P → List (Order P) → Prop} (hl : Levels Q own)
    (ho : ∀ q ≠ 0, Q o.price ((own.find? o.price).getD [] ++ [{ o with quantity := q }])) : Levels Q own' := by
  rw [hm.own_eq]
  exact levels_restOrder hl fun hq => ho _ hq

theorem mem_own {x : Order P} (hx : x ∈ own'.orders) :
    (∃ q ≠ 0, x = { o with quantity := q }) ∨ x ∈ own.orders := by
  rw [hm.own_eq] at hx
  rcases mem_restOrder.mp hx with ⟨hq, rfl⟩ | hx
  · exact Or.inl ⟨_, hq, rfl⟩
  · exact Or.inr hx

theorem opp_sublist {β : Type*} (g : Order P → β) (hg : ∀ o q, g (Order.reduce o q) = g o) :
    (opp'.orders.map g).Sublist (opp.orders.map g) := by
  rw [hm.opp_orders]
  exact sweep_resting_sublist g hg _ _

theorem mem_opp {β : Type*} (g : Order P → β) (hg : ∀ o q, g (Order.reduce o q) = g o) {x : Order P}
    (hx : x ∈ opp'.orders) : ∃ y ∈ opp.orders, g y = g x := by
  have := (hm.opp_sublist g hg).subset (List.mem_map_of_mem hx)
  simpa using this

/-- An order that rests meets no order it could still trade with. -/
theorem leftover_stop [IsStrictTotalOrder P lt] {side : Side} (hl : Levels (LevelOk side) opp)
    (hq : (sweep (stopAt lt o.price) o.quantity opp.orders).leftover ≠ 0) {y : Order P} (hy : y ∈ opp'.orders) :
    lt o.price y.price := by
  have hs := orders_sorted (hm.opp_levels _ (levelOk_closed side) hl)
  have hhead := sweep_leftover_stop _ _ hq
  rw [← hm.opp_orders] at hhead
  cases he : opp'.orders with
  | nil => rw [he] at hy; cases hy
  | cons z zs =>
    rw [he] at hs hy hhead
    have hz : lt o.price z.price := hhead z rfl
    rcases List.mem_cons.mp hy with rfl | hy
    · exact hz
    · rcases (List.pairwise_cons.mp hs).1 y hy with h | h
      · exact OrdMap.lt_trans' hz h
      · exact h ▸ hz

theorem uncrossed [IsStrictTotalOrder P lt] {side : Side} (hl : Levels (LevelOk side) opp)
    (hu : Uncrossed own opp) : Uncrossed own' opp' := by
  intro x hx y hy
  obtain ⟨y', hy', hp⟩ := hm.mem_opp Order.price (fun _ _ => rfl) hy
  have hown := hm.own_eq
  rw [hown] at hx
  rcases mem_restOrder.mp hx with ⟨hq, rfl⟩ | hx
  · exact hm.leftover_stop hl hq hy
  · exact hp ▸ hu x hx y' hy'

theorem bounded {n : Nat} (hid : o.id.toNat = n + 1) (hts : o.timestamp.toNat = n)
    (hb : ∀ x ∈ own.orders ++ opp.orders, x.id.toNat ≤ n ∧ x.timestamp.toNat < n) {x : Order P}
    (hx : x ∈ own'.orders ++ opp'.orders) : x.id.toNat ≤ n + 1 ∧ x.timestamp.toNat < n + 1 := by
  rcases List.mem_append.mp hx with hx | hx
  · rcases hm.mem_own hx with ⟨q, -, rfl⟩ | hx
    · simp only; omega
    · have := hb x (List.mem_append_left _ hx)
      omega
  · obtain ⟨y, hy, he⟩ := hm.mem_opp (fun z => (z.id, z.timestamp)) (fun _ _ => rfl) hx
    have := hb y (List.mem_append_right _ hy)
    rw [(Prod.mk.inj he).1, (Prod.mk.inj he).2] at this
    omega

theorem fifo_levels {n : Nat} (hid : o.id.toNat = n + 1) (hts : o.timestamp.toNat = n)
    (hb : ∀ x ∈ own.orders, x.id.toNat ≤ n ∧ x.timestamp.toNat < n) (hf : Levels Fifo own) : Levels Fifo own' := by
  apply hm.own_levels hf
  intro q _
  unfold Fifo
  rw [List.pairwise_append]
  refine ⟨?_, List.pairwise_singleton _ _, ?_⟩
  · cases hl : own.find? o.price with
    | none => exact List.Pairwise.nil
    | some l => exact hf _ _ (OrdMap.mem_entries.mpr hl)
  · intro x hx y hy
    have := hb x (mem_orders_of_find? hx)
    rw [List.mem_singleton.mp hy]
    exact ⟨UInt64.lt_iff_toNat_lt.mpr (by simp only; omega), UInt64.lt_iff_toNat_lt.mpr (by simp only; omega)⟩

theorem nodup_ids {n : Nat} (hid : o.id.toNat = n + 1) (hb : ∀ x ∈ own.orders ++ opp.orders, x.id.toNat ≤ n)
    (hnd : ((own.orders ++ opp.orders).map Order.id).Nodup) :
    ((own'.orders ++ opp'.orders).map Order.id).Nodup := by
  have hsub : (own.orders.map Order.id ++ opp'.orders.map Order.id).Sublist
      (own.orders.map Order.id ++ opp.orders.map Order.id) :=
    (hm.opp_sublist Order.id fun _ _ => rfl).append_left _
  rw [List.map_append] at hnd ⊢
  have hold := hnd.sublist hsub
  rw [hm.own_eq]
  unfold restOrder
  split
  · have hp := pushBack_perm own
      { o with quantity := (sweep (stopAt lt o.price) o.quantity opp.orders).leftover }
    have hp := (hp.map Order.id).append_right (opp'.orders.map Order.id)
    rw [hp.nodup_iff, List.map_cons, List.cons_append, List.nodup_cons]
    refine ⟨fun hmem => ?_, hold⟩
    have hmem := hsub.subset hmem
    rw [← List.map_append] at hmem
    obtain ⟨x, hx, he⟩ := List.mem_map.mp hmem
    have := hb x hx
    rw [he] at this
    simp only at this
    omega
  · exact hold

theorem ids {n : Nat} (hid : o.id.toNat = n + 1) (hts : o.timestamp.toNat = n)
    (hb : ∀ x ∈ own.orders ++ opp.orders, x.id.toNat ≤ n ∧ x.timestamp.toNat < n) (hf : Levels Fifo own)
    (hnd : ((own.orders ++ opp.orders).map Order.id).Nodup) :
    (∀ x ∈ own'.orders ++ opp'.orders, x.id.toNat ≤ n + 1 ∧ x.timestamp.toNat < n + 1) ∧ Levels Fifo own' ∧
      ((own'.orders ++ opp'.orders).map Order.id).Nodup :=
  ⟨fun _ => hm.bounded hid hts hb, hm.fifo_levels hid hts (fun x hx => hb x (List.mem_append_left _ hx)) hf,
    hm.nodup_ids hid (fun x hx => (hb x hx).1) hnd⟩

end Matched

section
variable {P : Type} [LinearOrder P]

structure Inv (e : Engine P) : Prop where
  bids : Levels (LevelOk .Buy) e.bids
  asks : Levels (LevelOk .Sell) e.asks
  uncrossed : Uncrossed e.bids e.asks

theorem inv_init : Inv (engine P).init where
  bids := by intro p l h; cases h
  asks := by intro p l h; cases h
  uncrossed := by intro x hx; cases hx

/-- The effect of `submitOrder`, seen from the side of the call. -/
def Effect (e : Engine P) (c : Call P) (e' : Engine P) : Prop :=
  match c.side with
  | .Buy => Matched buyTrade (e.newOrder c) e.asks e'.asks e.bids e'.bids e.trades e'.trades
  | .Sell => Matched sellTrade (e.newOrder c) e.bids e'.bids e.asks e'.asks e.trades e'.trades

theorem submitOrder_spec {e : Engine P} (hi : Inv e) (c : Call P) :
    ∃ e', submitOrder e c = some (e', e.nextOrderId) ∧ e'.nextOrderId = e.nextOrderId + 1 ∧
      e'.timestamp = e.timestamp + 1 ∧ Effect e c e' := by
  cases hc : c.side with
  | Buy =>
    obtain ⟨s, hs, ho, ht, hr, hl⟩ :=
      matchLoop_spec buyTrade (fun _ _ _ _ => rfl) (e.newOrder c) e.trades hi.asks
    refine ⟨⟨restOrder e.bids s.order, s.book, s.trades, e.nextOrderId + 1, e.timestamp + 1⟩, ?_, rfl, rfl, ?_⟩
    · simp only [submitOrder, hc, matchBuy_eq, hs]; rfl
    · unfold Effect
      rw [hc]
      exact ⟨ht, hr, hl, congrArg (restOrder e.bids) ho⟩
  | Sell =>
    obtain ⟨s, hs, ho, ht, hr, hl⟩ :=
      matchLoop_spec sellTrade (fun _ _ _ _ => rfl) (e.newOrder c) e.trades hi.bids
    refine ⟨⟨s.book, restOrder e.asks s.order, s.trades, e.nextOrderId + 1, e.timestamp + 1⟩, ?_, rfl, rfl, ?_⟩
    · simp only [submitOrder, hc, matchSell_eq, hs]; rfl
    · unfold Effect
      rw [hc]
      exact ⟨ht, hr, hl, congrArg (restOrder e.asks) ho⟩

theorem inv_step {e e' : Engine P} {c : Call P} (hi : Inv e) (h : Effect e c e') : Inv e' := by
  unfold Effect at h
  cases hc : c.side with
  | Buy =>
    rw [hc] at h
    have ho : ∀ q : UInt32, ({ e.newOrder c with quantity := q } : Order P).side = .Buy := fun _ => hc
    exact ⟨h.own_levels hi.bids fun q hq => levelOk_append hi.bids (ho q) hq,
      h.opp_levels _ (levelOk_closed _) hi.asks, h.uncrossed hi.asks hi.uncrossed⟩
  | Sell =>
    rw [hc] at h
    have ho : ∀ q : UInt32, ({ e.newOrder c with quantity := q } : Order P).side = .Sell := fun _ => hc
    have hu : Uncrossed e'.asks e'.bids := h.uncrossed hi.bids fun x hx y hy => hi.uncrossed y hy x hx
    exact ⟨h.opp_levels _ (levelOk_closed _) hi.bids,
      h.own_levels hi.asks fun q hq => levelOk_append hi.asks (ho q) hq,
      fun x hx y hy => hu y hy x hx⟩

theorem inv_exec (cs : List (Call P)) : ∃ e, (engine P).exec cs = some e ∧ Inv e :=
  (engine P).exec_inv (P := fun _ e => Inv e) inv_init
    (fun _ e c _ hi => by
      obtain ⟨e', hs, -, -, h⟩ := submitOrder_spec hi c
      exact ⟨e', _, hs, inv_step hi h⟩) cs

/-! ## Ids and arrival order -/

def Engine.resting (e : Engine P) : List (Order P) := e.bids.orders ++ e.asks.orders

/-- The counters after `n` calls, and what they say about the resting orders. -/
structure Ids (n : Nat) (e : Engine P) : Prop where
  nextOrderId : e.nextOrderId = UInt64.ofNat (n + 1)
  timestamp : e.timestamp = UInt64.ofNat n
  bound : ∀ o ∈ e.resting, o.id.toNat ≤ n ∧ o.timestamp.toNat < n
  bids_fifo : Levels Fifo e.bids
  asks_fifo : Levels Fifo e.asks
  nodup : (e.resting.map Order.id).Nodup

theorem ids_init : Ids 0 (engine P).init where
  nextOrderId := rfl
  timestamp := rfl
  bound := by intro o h; cases h
  bids_fifo := by intro p l h; cases h
  asks_fifo := by intro p l h; cases h
  nodup := List.nodup_nil

theorem ids_step {n : Nat} (hn : n + 1 < 2 ^ 64) {e e' : Engine P} {c : Call P} (hi : Ids n e)
    (hid : e'.nextOrderId = e.nextOrderId + 1) (hts : e'.timestamp = e.timestamp + 1) (h : Effect e c e') :
    Ids (n + 1) e' := by
  have ho : (e.newOrder c).id.toNat = n + 1 := by
    rw [Engine.newOrder, hi.nextOrderId]; exact UInt64.toNat_ofNat_of_lt' hn
  have ht : (e.newOrder c).timestamp.toNat = n := by
    rw [Engine.newOrder, hi.timestamp]; exact UInt64.toNat_ofNat_of_lt' (Nat.lt_of_succ_lt hn)
  have hid' : e'.nextOrderId = UInt64.ofNat (n + 1 + 1) := by
    rw [hid, hi.nextOrderId, UInt64.ofNat_add (n + 1)]
    rfl
  have hts' : e'.timestamp = UInt64.ofNat (n + 1) := by rw [hts, hi.timestamp, UInt64.ofNat_add n]; rfl
  have hcomm : ∀ e : Engine P, (e.asks.orders ++ e.bids.orders).Perm e.resting := fun _ => List.perm_append_comm
  unfold Effect at h
  cases hc : c.side with
  | Buy =>
    rw [hc] at h
    obtain ⟨hb, hf, hnd⟩ := h.ids ho ht hi.bound hi.bids_fifo hi.nodup
    exact ⟨hid', hts', hb, hf, h.opp_levels _ fifo_closed hi.asks_fifo, hnd⟩
  | Sell =>
    rw [hc] at h
    obtain ⟨hb, hf, hnd⟩ := h.ids ho ht (fun x hx => hi.bound x ((hcomm e).subset hx)) hi.asks_fifo
      (((hcomm e).map _).nodup_iff.mpr hi.nodup)
    exact ⟨hid', hts', fun x hx => hb x ((hcomm e').symm.subset hx), h.opp_levels _ fifo_closed hi.bids_fifo, hf,
      ((hcomm e').map _).nodup_iff.mp hnd⟩

theorem ids_exec (cs : List (Call P)) (hlen : cs.length < 2 ^ 64) :
    ∃ e, (engine P).exec cs = some e ∧ Inv e ∧ Ids cs.length e := by
  obtain ⟨e, he, hi, h⟩ := (engine P).exec_inv (P := fun cs e => Inv e ∧ (cs.length < 2 ^ 64 → Ids cs.length e))
    ⟨inv_init, fun _ => ids_init⟩
    (fun cs e c _ hi => by
      obtain ⟨e', hs, hid, hts, h⟩ := submitOrder_spec hi.1 c
      refine ⟨e', _, hs, inv_step hi.1 h, fun hl => ?_⟩
      rw [List.length_append, List.length_singleton] at hl ⊢
      exact ids_step hl (hi.2 (by omega)) hid hts h) cs
  exact ⟨e, he, hi, h hlen⟩

/-! ## Well-formed books -/

structure WellFormed (e : Engine P) : Prop where
  uncrossed : ∀ b ∈ e.bids.orders, ∀ a ∈ e.asks.orders, b.price < a.price
  bids_nonempty : ∀ p l, (p, l) ∈ e.bids.entries → l ≠ []
  asks_nonempty : ∀ p l, (p, l) ∈ e.asks.entries → l ≠ []
  quantity_ne_zero : ∀ o ∈ e.resting, o.quantity ≠ 0
  bids_filed : ∀ p l, (p, l) ∈ e.bids.entries → ∀ o ∈ l, o.side = .Buy ∧ o.price = p
  asks_filed : ∀ p l, (p, l) ∈ e.asks.entries → ∀ o ∈ l, o.side = .Sell ∧ o.price = p
  bids_fifo : ∀ p l, (p, l) ∈ e.bids.entries → l.Pairwise fun x y => x.id < y.id ∧ x.timestamp < y.timestamp
  asks_fifo : ∀ p l, (p, l) ∈ e.asks.entries → l.Pairwise fun x y => x.id < y.id ∧ x.timestamp < y.timestamp
  ids_nodup : (e.resting.map Order.id).Nodup

/-- **Every run leaves a well-formed book.** -/
theorem wellFormed_exec (cs : List (Call P)) (hlen : cs.length < 2 ^ 64) :
    ∃ e, (engine P).exec cs = some e ∧ WellFormed e := by
  obtain ⟨e, he, hi, h⟩ := ids_exec cs hlen
  refine ⟨e, he, hi.uncrossed, fun p l hm => (hi.bids p l hm).nonempty, fun p l hm => (hi.asks p l hm).nonempty, ?_,
    fun p l hm o ho => ?_, fun p l hm o ho => ?_, h.bids_fifo, h.asks_fifo, h.nodup⟩
  · intro o ho
    rcases List.mem_append.mp ho with ho | ho
    · exact quantity_of_levels hi.bids ho
    · exact quantity_of_levels hi.asks ho
  · have := (hi.bids p l hm).order_ok o ho
    exact ⟨this.1, this.2.1⟩
  · have := (hi.asks p l hm).order_ok o ho
    exact ⟨this.1, this.2.1⟩

theorem wellFormed_exec_sweep : ∃ e, (engine Int).exec [⟨.Sell, 101, 400⟩, ⟨.Buy, 102, 500⟩] = some e ∧
    WellFormed e :=
  wellFormed_exec _ (by decide)

end

end Playground.MatchingEngine
